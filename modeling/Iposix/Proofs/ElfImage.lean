import Iposix.Proofs.ElfConfined

/-!
# The image the loader builds

A file is entered when every header got the pages it asked for. For a header
whose pages hold all of it the copy then goes through, and nothing is written
to its pages afterwards: later headers get other pages, and their contents stay
in them. What the file has no contents for is not written at all, so it is
zero only where the pages handed out were.

`Imaged` is where the loop over the headers stands.
-/

namespace Iposix.Vm

open Iposix.Lib

variable {mm : PageManager} {M M' M₀ : Machine} {dm ptable q n k : Nat}
  {dirs : List Nat} {new : List Event}

/-! ## Bytes that stay -/

theorem readByte_eq_some {m : Nat → UInt8} {v : Nat} {b : UInt8} :
    readByte m q v = some b ↔ ∃ a, translate m q v = some a ∧ m a = b := by
  rw [readByte, Option.map_eq_some_iff]

/-- The page behind a mapped address is none of the tables. -/
theorem Spaces.not_private (h : Spaces M dm dirs) (hp : ptable ∈ dirs)
    (hq : q ∈ dirs) {v : Nat} (hv : 32 ≤ dir v) {e : Entry}
    (he : pteAt M.mem q (dir v) (page v) = some e) :
    ¬ Private M.mem ptable e.address := fun hpriv =>
  (h.frames q hq _ hv (dir_lt v) _ (page_lt v) e he).2.2
    (h.kernel_of_private hp hpriv)

/-- What a process reads stays when one is given memory. -/
theorem Extended.readByte (h : Extended M₀ M dm dirs ptable)
    (hs : Spaces M₀ dm dirs) (hp : ptable ∈ dirs) (hq : q ∈ dirs) {v : Nat}
    (hv : 32 ≤ dir v) {b : UInt8} (hb : readByte M₀.mem q v = some b) :
    readByte M.mem q v = some b := by
  obtain ⟨a, ha, rfl⟩ := readByte_eq_some.1 hb
  obtain ⟨e, he, rfl⟩ := hs.toTables.translate_above hq hv ha
  have he' := h.maps q hq _ hv (dir_lt v) _ (page_lt v) e he
  exact readByte_eq_some.2 ⟨_, h.translate hs hq ha,
    h.kept e.address (address_dvd e) (h.spaces.not_private hp hq hv he') _
      (Nat.mod_lt _ (by decide))⟩

section Copies

variable {buffer : Nat → UInt8} {v pos : Nat}

theorem Copying.translate (h : Copying M₀ M ptable buffer v pos)
    (hM₀ : Owned M₀ dm dirs) (hp : ptable ∈ dirs) (hv : 32 ≤ dir v)
    (hend : v + pos ≤ 4294967296) (w : Nat) :
    translate M.mem ptable w = translate M₀.mem ptable w :=
  hM₀.spaces.toTables.translate_congr
    (fun _ ht => h.kernel hM₀.spaces hp hv hend ht) hp w

/-- Copied bytes are read. -/
theorem Copying.readByte_add (h : Copying M₀ M ptable buffer v pos)
    (hM₀ : Owned M₀ dm dirs) (hp : ptable ∈ dirs) (hv : 32 ≤ dir v)
    (hend : v + pos ≤ 4294967296) {k : Nat} (hk : k < pos) :
    readByte M.mem ptable (v + k) = some (buffer k) := by
  obtain ⟨b, hb, hbyte⟩ := h.bytes k hk
  exact readByte_eq_some.2 ⟨b, (h.translate hM₀ hp hv hend _).trans hb, hbyte⟩

/-- Other bytes are as they were. -/
theorem Copying.readByte_of_not (h : Copying M₀ M ptable buffer v pos)
    (hM₀ : Owned M₀ dm dirs) (hp : ptable ∈ dirs) (hv : 32 ≤ dir v)
    (hend : v + pos ≤ 4294967296) {w : Nat} (hw : 32 ≤ dir w)
    (hlt : w < 4294967296) (hno : ¬ (v ≤ w ∧ w < v + pos)) :
    readByte M.mem ptable w = readByte M₀.mem ptable w := by
  rw [readByte, readByte, h.translate hM₀ hp hv hend]
  cases ha : Vm.translate M₀.mem ptable w with
  | none => rfl
  | some a =>
      refine congrArg some (h.others a fun w' h₁ h₂ ha' => hno ?_)
      rw [hM₀.translate_inj hp hw (dir_le hv h₁ (by omega)) hlt (by omega) ha
        ha']
      exact ⟨h₁, h₂⟩

end Copies

/-! ## New pages -/

/-- The pages that can be handed out to the process are blank: those that are
no tables and that no other process maps. -/
def Clean (M : Machine) (dirs : List Nat) (ptable : Nat) : Prop :=
  ∀ f, 4096 ∣ f → f ≠ 0 → f < 4294967296 → ¬ Kernel M.log f →
    (∀ q, q ∈ dirs → q ≠ ptable → ∀ d, 32 ≤ d → d < 1024 → ∀ p, p < 1024 →
      ∀ e, pteAt M.mem q d p = some e → e.address ≠ f) →
    ∀ k, k < 4096 → M.mem (f + k) = 0

/-- The addresses of new pages are mapped. -/
theorem Placed.readByte {frame : Nat → Nat}
    (h : Placed M₀ M dirs ptable n k frame) {w : Nat} (hw : w < 4294967296)
    (h₁ : n ≤ w / 4096) (h₂ : w / 4096 < n + k) :
    readByte M.mem ptable w =
      some (M.mem (frame (w / 4096 - n) + offset w)) :=
  readByte_eq_some.2 ⟨_, h.translate hw h₁ h₂, rfl⟩

/-- New pages hold what they held at first. -/
theorem Filling.readByte_placed (h : Filling M₀ M dm dirs ptable new)
    (hp : ptable ∈ dirs) (hext : Extended M M' dm dirs ptable)
    {frame : Nat → Nat} (hplaced : Placed M M' dirs ptable n k frame)
    (hclean : Clean M₀ dirs ptable) {w : Nat} (hw : w < 4294967296)
    (hwin : 32 ≤ dir w) (h₁ : n ≤ w / 4096) (h₂ : w / 4096 < n + k) :
    readByte M'.mem ptable w = some 0 := by
  obtain ⟨e, he, haddr⟩ := hplaced.maps (w / 4096 - n) (by omega)
  obtain ⟨hdvd, hne, hunused⟩ := hplaced.unused (w / 4096 - n) (by omega)
  rw [Nat.add_sub_cancel' h₁, pteOf, ← dir_eq hw, ← page_eq] at he
  rw [hplaced.readByte hw h₁ h₂]
  have ho : offset w < 4096 := Nat.mod_lt _ (by decide)
  have hkept := hext.kept _ hdvd (haddr ▸ hext.spaces.not_private hp hp hwin he)
  rw [hkept _ ho, h.idle _ hdvd hunused _ ho]
  refine congrArg some (hclean _ hdvd hne ?_ (fun hk => hunused (.inl ?_))
    (fun q hq hqp d h₁ h₂ p hp e he heq => hunused (.inr ?_)) _ ho)
  · rw [← haddr]
    exact address_lt e
  · rw [h.log]
    exact kernel_append hk
  · rw [← h.theirs q hq hqp d h₁ h₂ p hp] at he
    rw [← heq]
    exact (h.owned.spaces.frames q hq d h₁ h₂ p hp e he).2.1

end Iposix.Vm

namespace Iposix.Elf

open Iposix.Lib
open Iposix.Vm

variable {mm : PageManager} {M M' M₀ M₁ : Machine} {dm ptable : Nat}
  {dirs : List Nat} {new : List Event} {scratch : Scratch} {file : FileRead}
  {process process' : ProcessType} {content : Nat → UInt8} {size i : Nat}
  {pHdr : Elf32Phdr}

/-! ## Headers and images -/

/-- Reading the file delivers its contents, as far as it goes. -/
def Reads (file : FileRead) (content : Nat → UInt8) (size : Nat) : Prop :=
  ∀ offset length buffer k, k < length → offset + k < size →
    file offset length buffer k = content (offset + k)

/-- The header asks for pages at an address, they hold all of it, and the file
has all its contents. -/
structure Elf32Phdr.Loadable (pHdr : Elf32Phdr) (size : Nat) : Prop where
  placed : pHdr.pVaddr = 0 → pHdr.pMemsz = 0
  fits : offset pHdr.pVaddr + max pHdr.pFilesz pHdr.pMemsz ≤
    4096 * pagesFor pHdr.pMemsz
  contents : pHdr.pFilesz = 0 ∨ pHdr.pOffset + pHdr.pFilesz ≤ size

/-- The pages of the header end below the stack. -/
def Elf32Phdr.BelowStack (pHdr : Elf32Phdr) : Prop :=
  pHdr.pVaddr ≠ 0 → pHdr.pVaddr / 4096 + pagesFor pHdr.pMemsz ≤ 1048575

/-- What the header prescribes is read. -/
structure Image (content : Nat → UInt8) (m : Nat → UInt8) (ptable : Nat)
    (pHdr : Elf32Phdr) : Prop where
  contents : ∀ k, k < pHdr.pFilesz →
    readByte m ptable (pHdr.pVaddr + k) = some (content (pHdr.pOffset + k))
  zero : ∀ k, pHdr.pFilesz ≤ k → k < pHdr.pMemsz →
    readByte m ptable (pHdr.pVaddr + k) = some 0

theorem Elf32Phdr.Loadable.empty (h : pHdr.Loadable size)
    (h₀ : pHdr.pVaddr = 0) : max pHdr.pFilesz pHdr.pMemsz = 0 := by
  have hfits := h.fits
  have hmemsz := h.placed h₀
  have hpages : pagesFor pHdr.pMemsz = 0 := by
    rw [hmemsz]
    rfl
  omega

/-- The addresses of a loadable header lie in its pages. -/
theorem Elf32Phdr.Loadable.address (h : pHdr.Loadable size)
    (hbelow : pHdr.BelowStack) {k : Nat}
    (hk : k < max pHdr.pFilesz pHdr.pMemsz) :
    pHdr.pVaddr ≠ 0 ∧ pHdr.pVaddr + k < 4294967296 ∧
      pHdr.pVaddr / 4096 ≤ (pHdr.pVaddr + k) / 4096 ∧
      (pHdr.pVaddr + k) / 4096 <
        pHdr.pVaddr / 4096 + pagesFor pHdr.pMemsz := by
  have hfits := h.fits
  have h₀ : pHdr.pVaddr ≠ 0 := fun h₀ => by
    rw [h.empty h₀] at hk
    exact Nat.not_lt_zero k hk
  have hend := hbelow h₀
  rw [offset] at hfits
  exact ⟨h₀, by omega, by omega, by omega⟩

/-- An image stays where bytes above the window stay. -/
theorem Image.mono (h : Image content M.mem ptable pHdr)
    (hload : pHdr.Loadable size) (hbelow : pHdr.BelowStack)
    (habove : pHdr.pVaddr ≠ 0 → 32 ≤ dir pHdr.pVaddr)
    (hkeep : ∀ w b, 32 ≤ dir w → w < 4294967296 →
      readByte M.mem ptable w = some b → readByte M'.mem ptable w = some b) :
    Image content M'.mem ptable pHdr := by
  have haddr : ∀ k, k < max pHdr.pFilesz pHdr.pMemsz →
      32 ≤ dir (pHdr.pVaddr + k) ∧ pHdr.pVaddr + k < 4294967296 := by
    intro k hk
    obtain ⟨h₀, hlt, _⟩ := hload.address hbelow hk
    exact ⟨dir_le (habove h₀) (Nat.le_add_right _ k) hlt, hlt⟩
  refine ⟨fun k hk => ?_, fun k h₁ h₂ => ?_⟩
  · obtain ⟨hwin, hlt⟩ := haddr k (by omega)
    exact hkeep _ _ hwin hlt (h.contents k hk)
  · obtain ⟨hwin, hlt⟩ := haddr k (by omega)
    exact hkeep _ _ hwin hlt (h.zero k h₁ h₂)

/-! ## One header -/

/-- What an allocation that has gone well has done. -/
theorem allocateArea_placed (hfresh : mm.Fresh) (hs : Spaces M dm dirs)
    (hp : process.ptable ∈ dirs) {vaddr size : Nat} (hv : vaddr < 4294967296)
    (hsize : size < 4294967296)
    (harea : allocateArea mm process M vaddr size = (true, process', M'))
    (hnull : Event.alloc true 0 ∉ M'.log) :
    Extended M M' dm dirs process.ptable ∧ (vaddr ≠ 0 →
      32 ≤ dir vaddr ∧ ∃ frame, Placed M M' dirs process.ptable (vaddr / 4096)
        (min (pagesFor size) (1048576 - vaddr / 4096)) frame) := by
  have hmachine := allocateArea_machine mm process M vaddr size
  have hret : (vaddr == (vmalloc mm M (u32 size) process.ptable vaddr).1) =
      (allocateArea mm process M vaddr size).1 := by
    rw [allocateArea]
    dsimp only
    split <;> rfl
  have hu : u32 (size : Nat) = size := by
    rw [u32]
    omega
  rw [harea, hu] at hmachine hret
  rw [beq_iff_eq] at hret
  dsimp only at hmachine
  subst hmachine
  obtain ⟨hext, hserved⟩ := vmalloc_spec hfresh hs hp size vaddr
    (.of_notMem hnull)
  refine ⟨hext, fun h₀ => ?_⟩
  rw [← hret, Served, number_eq hv] at hserved
  rcases hserved with ⟨hzero, _⟩ | ⟨_, hwin, _, hplaced⟩
  · exact absurd hzero h₀
  · exact ⟨hwin, hplaced⟩

/-- A new page was not mapped. -/
theorem readByte_new (hs : Spaces M dm dirs) (hp : ptable ∈ dirs) {n k : Nat}
    {frame : Nat → Nat} (hplaced : Placed M M₁ dirs ptable n k frame) {w : Nat}
    (hwin : 32 ≤ dir w) (hlt : w < 4294967296) (h₁ : n ≤ w / 4096)
    (h₂ : w / 4096 < n + k) : readByte M.mem ptable w = none := by
  cases hb : readByte M.mem ptable w with
  | none => rfl
  | some b =>
      obtain ⟨a, ha, _⟩ := readByte_eq_some.1 hb
      obtain ⟨e, he, _⟩ := hs.toTables.translate_above hp hwin ha
      have hfree := hplaced.free (w / 4096 - n) (by omega)
      rw [Nat.add_sub_cancel' h₁, pteOf, ← dir_eq hlt, ← page_eq, he] at hfree
      cases hfree

/-- The contents of a loadable header, copied to its new pages. -/
theorem image_copied (h : Filling M₀ M dm dirs ptable new) (hp : ptable ∈ dirs)
    (hext : Extended M M₁ dm dirs ptable) (howned : Owned M₁ dm dirs)
    {frame : Nat → Nat} (hplaced : Placed M M₁ dirs ptable
      (pHdr.pVaddr / 4096) (pagesFor pHdr.pMemsz) frame)
    (hwin : 32 ≤ dir pHdr.pVaddr) (hv : pHdr.pVaddr < 4294967296)
    (hload : pHdr.Loadable size) (hbelow : pHdr.BelowStack)
    (hclean : pHdr.pFilesz < pHdr.pMemsz → Clean M₀ dirs ptable)
    {buffer : Nat → UInt8} (hbuffer : ∀ k, k < pHdr.pFilesz →
      buffer k = content (pHdr.pOffset + k))
    (hcopied : (copyIn M₁ ptable pHdr.pVaddr (some buffer) pHdr.pFilesz
      false).2.1 = M') :
    Image content M'.mem ptable pHdr ∧ ∀ w b, 32 ≤ dir w → w < 4294967296 →
      readByte M.mem ptable w = some b → readByte M'.mem ptable w = some b := by
  have haddr := fun k => hload.address hbelow (k := k)
  obtain ⟨pos, hle, hend, hcopy, hended⟩ :=
    copyIn_spec howned hp hwin hv buffer pHdr.pFilesz
  rw [hcopied] at hcopy
  -- all of it is mapped, so the copy goes through
  have hpos : pos = pHdr.pFilesz := by
    by_contra hne
    obtain ⟨_, hlt, h₁, h₂⟩ := haddr pos (by omega)
    rcases hended with hdone | hnone | hlast
    · exact hne hdone
    · have hmapped := hplaced.translate hlt h₁ h₂
      rw [hnone] at hmapped
      cases hmapped
    · omega
  subst hpos
  refine ⟨⟨fun k hk => ?_, fun k h₁ h₂ => ?_⟩, fun w b hw hlt hb => ?_⟩
  · rw [hcopy.readByte_add howned hp hwin hend hk, hbuffer k hk]
  · obtain ⟨_, hlt, hlow, hhigh⟩ := haddr k (by omega)
    have hw := dir_le hwin (Nat.le_add_right _ k) hlt
    rw [hcopy.readByte_of_not howned hp hwin hend hw hlt (by omega)]
    exact h.readByte_placed hp hext hplaced (hclean (by omega)) hlt hw hlow
      hhigh
  · rw [hcopy.readByte_of_not howned hp hwin hend hw hlt fun hin => ?_]
    · exact hext.readByte h.owned.spaces hp hp hw hb
    · obtain ⟨_, _, hlow, hhigh⟩ := haddr (w - pHdr.pVaddr) (by omega)
      rw [Nat.add_sub_cancel' hin.1] at hlow hhigh
      rw [readByte_new h.owned.spaces hp hplaced hw hlt hlow hhigh] at hb
      cases hb

/-- What loading one header has done. -/
structure Loaded (content : Nat → UInt8) (M M' : Machine) (ptable : Nat)
    (pHdr : Elf32Phdr) : Prop where
  above : pHdr.pVaddr ≠ 0 → 32 ≤ dir pHdr.pVaddr
  maps : ∀ d, 32 ≤ d → d < 1024 → ∀ p, p < 1024 →
    ∀ e, pteAt M.mem ptable d p = some e → pteAt M'.mem ptable d p = some e
  mapped : pHdr.pVaddr ≠ 0 → ∀ n, pHdr.pVaddr / 4096 ≤ n →
    n < pHdr.pVaddr / 4096 + pagesFor pHdr.pMemsz → n < 1048576 →
    ∃ e, pteOf M'.mem ptable n = some e
  keep : pHdr.BelowStack → ∀ w b, 32 ≤ dir w → w < 4294967296 →
    readByte M.mem ptable w = some b → readByte M'.mem ptable w = some b
  image : pHdr.BelowStack → pHdr.pType = PT_LOAD →
    Image content M'.mem ptable pHdr

/-- The pages an allocation has placed are mapped. -/
theorem pteOf_placed {v k : Nat} {frame : Nat → Nat}
    (h : Placed M M' dirs ptable (v / 4096) (min k (1048576 - v / 4096)) frame)
    {n : Nat} (h₁ : v / 4096 ≤ n) (h₂ : n < v / 4096 + k) (hn : n < 1048576) :
    ∃ e, pteOf M'.mem ptable n = some e := by
  obtain ⟨e, he, _⟩ := h.maps (n - v / 4096) (by omega)
  rw [Nat.add_sub_cancel' h₁] at he
  exact ⟨e, he⟩

/-- A header without contents. -/
theorem Loaded.allocated (hs : Spaces M dm dirs) (hp : ptable ∈ dirs)
    (hext : Extended M M' dm dirs ptable)
    (hplaced : pHdr.pVaddr ≠ 0 → 32 ≤ dir pHdr.pVaddr ∧
      ∃ frame, Placed M M' dirs ptable (pHdr.pVaddr / 4096)
        (min (pagesFor pHdr.pMemsz) (1048576 - pHdr.pVaddr / 4096)) frame)
    (hempty : pHdr.pType = PT_LOAD → max pHdr.pFilesz pHdr.pMemsz = 0) :
    Loaded content M M' ptable pHdr := by
  refine ⟨fun h₀ => (hplaced h₀).1, hext.maps ptable hp,
    fun h₀ n h₁ h₂ hn => ?_, fun _ w b hw _ hb => hext.readByte hs hp hp hw hb,
    fun _ htype => ?_⟩
  · obtain ⟨_, frame, hplaced⟩ := hplaced h₀
    exact pteOf_placed hplaced h₁ h₂ hn
  · have hnone := hempty htype
    exact ⟨fun k hk => by omega, fun k _ hk => by omega⟩

/-- A header with contents. -/
theorem Loaded.copied (h : Filling M₀ M dm dirs ptable new) (hp : ptable ∈ dirs)
    (hext : Extended M M₁ dm dirs ptable) (howned : Owned M₁ dm dirs)
    (hplaced : pHdr.pVaddr ≠ 0 → 32 ≤ dir pHdr.pVaddr ∧
      ∃ frame, Placed M M₁ dirs ptable (pHdr.pVaddr / 4096)
        (min (pagesFor pHdr.pMemsz) (1048576 - pHdr.pVaddr / 4096)) frame)
    (h₀ : pHdr.pVaddr ≠ 0) (hv : pHdr.pVaddr < 4294967296)
    (hload : pHdr.Loadable size)
    (hclean : pHdr.pFilesz < pHdr.pMemsz → Clean M₀ dirs ptable)
    {buffer : Nat → UInt8} (hbuffer : ∀ k, k < pHdr.pFilesz →
      buffer k = content (pHdr.pOffset + k))
    (hcopied : (copyIn M₁ ptable pHdr.pVaddr (some buffer) pHdr.pFilesz
      false).2.1 = M') :
    Loaded content M M' ptable pHdr := by
  obtain ⟨hwin, frame, hplaced⟩ := hplaced h₀
  have himage := fun hbelow : pHdr.BelowStack => by
    have hmin : min (pagesFor pHdr.pMemsz) (1048576 - pHdr.pVaddr / 4096) =
        pagesFor pHdr.pMemsz := by
      have hend := hbelow h₀
      omega
    exact image_copied h hp hext howned (hmin ▸ hplaced) hwin hv hload hbelow
      hclean hbuffer hcopied
  obtain ⟨pos, _, hend, hcopy, _⟩ :=
    copyIn_spec howned hp hwin hv buffer pHdr.pFilesz
  rw [hcopied] at hcopy
  have hsame := hcopy.sameMaps howned.spaces hp hwin hend
  refine ⟨fun _ => hwin, fun d h₁ h₂ p hlt e he => ?_,
    fun _ n h₁ h₂ hn => ?_, fun hbelow => (himage hbelow).2,
    fun hbelow _ => (himage hbelow).1⟩
  · exact (hsame ptable hp d h₁ h₂ p hlt).trans
      (hext.maps ptable hp d h₁ h₂ p hlt e he)
  · obtain ⟨e, he⟩ := pteOf_placed hplaced h₁ h₂ hn
    rw [dir_eq hv] at hwin
    exact ⟨e, (hsame ptable hp _ (by omega) (by omega) _
      (Nat.mod_lt _ (by decide))).trans he⟩

/-! ## Where the loop stands -/

/-- The headers below number `i` have been loaded. -/
structure Imaged (content : Nat → UInt8) (scratch : Scratch) (file : FileRead)
    (M : Machine) (ptable heapTop i : Nat) : Prop where
  above : ∀ j, j < i → (programHeader scratch file j).pVaddr ≠ 0 →
    32 ≤ dir (programHeader scratch file j).pVaddr
  mapped : ∀ j, j < i → (programHeader scratch file j).pVaddr ≠ 0 →
    ∀ n, (programHeader scratch file j).pVaddr / 4096 ≤ n →
      n < (programHeader scratch file j).pVaddr / 4096 +
        pagesFor (programHeader scratch file j).pMemsz →
      n < 1048576 → ∃ e, pteOf M.mem ptable n = some e
  images : (∀ j, j < i → (programHeader scratch file j).BelowStack) →
    ∀ j, j < i → (programHeader scratch file j).pType = PT_LOAD →
      Image content M.mem ptable (programHeader scratch file j)
  heap : (∀ j, j < i → (programHeader scratch file j).BelowStack) →
    ∀ j, j < i → (programHeader scratch file j).pVaddr +
      (programHeader scratch file j).pMemsz ≤ heapTop

/-- The top of the heap after an area was asked for. -/
def heapTopAfter (heapTop : Nat) (pHdr : Elf32Phdr) : Nat :=
  if heapTop < u64 (pHdr.pVaddr + pHdr.pMemsz : Nat) then
    u32 (u64 (pHdr.pVaddr + pHdr.pMemsz : Nat))
  else heapTop

theorem allocateArea_heapTop (mm : PageManager) (process : ProcessType)
    (M : Machine) (pHdr : Elf32Phdr) :
    (allocateArea mm process M pHdr.pVaddr pHdr.pMemsz).2.1.heapTop =
      heapTopAfter process.heapTop pHdr := by
  rw [allocateArea, heapTopAfter]
  dsimp only
  split <;> rfl

/-- Below the stack nothing is cut off. -/
theorem heapTopAfter_eq (hsize : pHdr.pMemsz < 4294967296)
    (hbelow : pHdr.BelowStack) (heapTop : Nat) :
    heapTopAfter heapTop pHdr = max heapTop (pHdr.pVaddr + pHdr.pMemsz) := by
  have hsum : pHdr.pVaddr + pHdr.pMemsz < 4294967296 := by
    have hpages := pagesFor_eq pHdr.pMemsz
    by_cases h₀ : pHdr.pVaddr = 0
    · omega
    · have hend := hbelow h₀
      omega
  rw [heapTopAfter, u64_of_lt (by omega), u32_of_lt hsum]
  split <;> omega

/-- One header more. -/
theorem Imaged.next {heapTop : Nat}
    (h : Imaged content scratch file M ptable heapTop i)
    (hload : ∀ j, j < i → (programHeader scratch file j).pType = PT_LOAD →
      (programHeader scratch file j).Loadable size)
    (hloaded : Loaded content M M' ptable (programHeader scratch file i)) :
    Imaged content scratch file M' ptable
      (heapTopAfter heapTop (programHeader scratch file i)) (i + 1) := by
  have hcases : ∀ j, j < i + 1 → j = i ∨ j < i := fun j hj => by omega
  refine ⟨fun j hj h₀ => ?_, fun j hj h₀ n h₁ h₂ hn => ?_,
    fun hbelow j hj htype => ?_, fun hbelow j hj => ?_⟩
  · rcases hcases j hj with rfl | hlt
    · exact hloaded.above h₀
    · exact h.above j hlt h₀
  · rcases hcases j hj with rfl | hlt
    · exact hloaded.mapped h₀ n h₁ h₂ hn
    · obtain ⟨e, he⟩ := h.mapped j hlt h₀ n h₁ h₂ hn
      have hwin := h.above j hlt h₀
      rw [dir_eq (pVaddr_lt scratch file j)] at hwin
      exact ⟨e, hloaded.maps _ (by omega) (by omega) _
        (Nat.mod_lt _ (by decide)) e he⟩
  · rcases hcases j hj with rfl | hlt
    · exact hloaded.image (hbelow j hj) htype
    · exact (h.images (fun j hj => hbelow j (Nat.lt_succ_of_lt hj)) j hlt
        htype).mono (hload j hlt htype) (hbelow j hj) (h.above j hlt)
        (hloaded.keep (hbelow i (Nat.lt_succ_self i)))
  · rw [heapTopAfter_eq (load_lt _ 4 20) (hbelow i (Nat.lt_succ_self i))]
    rcases hcases j hj with rfl | hlt
    · exact Nat.le_max_right _ _
    · exact (h.heap (fun j hj => hbelow j (Nat.lt_succ_of_lt hj)) j hlt).trans
        (Nat.le_max_left _ _)

/-- A header that all went well for. -/
theorem segment_loaded (hfresh : mm.Fresh) (hreads : Reads file content size)
    (h : Filling M₀ M dm dirs process.ptable new) (hp : process.ptable ∈ dirs)
    (hv : pHdr.pVaddr < 4294967296) (hsize : pHdr.pMemsz < 4294967296)
    (hload : pHdr.pType = PT_LOAD → pHdr.Loadable size ∧
      (pHdr.pFilesz < pHdr.pMemsz → Clean M₀ dirs process.ptable))
    (hseg : segment mm scratch file i pHdr process M =
      (some true, process', M'))
    (hnull : Event.alloc true 0 ∉ M'.log) :
    Loaded content M M' process.ptable pHdr ∧
      process'.heapTop = heapTopAfter process.heapTop pHdr ∧
      process'.ptable = process.ptable ∧
      ∃ new', Filling M₀ M' dm dirs process.ptable new' := by
  have hs := h.owned.spaces
  have hfilling := segment_filling hfresh scratch file i h hp hv
  have hptable := segment_ptable mm scratch file i pHdr process M
  have hheap := allocateArea_heapTop mm process M pHdr
  have hfilled := h.vmalloc hfresh hp (u32 pHdr.pMemsz) pHdr.pVaddr
  have hmachine := allocateArea_machine mm process M pHdr.pVaddr pHdr.pMemsz
  have hptable₁ := allocateArea_ptable mm process M pHdr.pVaddr pHdr.pMemsz
  rcases hcall : allocateArea mm process M pHdr.pVaddr pHdr.pMemsz with
    ⟨allocated, process₁, M₁⟩
  rw [hcall] at hheap hmachine hptable₁
  rw [← hmachine] at hfilled
  rw [hseg] at hfilling hptable
  rcases segment_cases mm scratch file i pHdr process M hcall with
    ⟨hno, ok, heq, hok⟩ | ⟨_, _, heq⟩ | ⟨htype, buffer, _, heq⟩ <;>
    rw [hseg] at heq <;>
    simp only [Prod.mk.injEq, Option.some.injEq, reduceCtorEq, false_and]
      at heq
  · obtain ⟨rfl, rfl, rfl⟩ := heq
    obtain rfl := hok rfl
    obtain ⟨hext, hplaced⟩ :=
      allocateArea_placed hfresh hs hp hv hsize hcall hnull
    exact ⟨.allocated hs hp hext hplaced fun htype => absurd htype hno, hheap,
      hptable, hfilled (.of_notMem hnull)⟩
  · obtain ⟨rfl, rfl, hcopied⟩ := heq
    obtain ⟨hload, hclean⟩ := hload htype
    rw [hptable] at hcopied
    have hnull₁ : Event.alloc true 0 ∉ M₁.log := fun hmem => by
      refine hnull (List.IsSuffix.subset ?_ hmem)
      rw [hcopied]
      exact copyIn_suffix hv _ _ _ _
    obtain ⟨hext, hplaced⟩ :=
      allocateArea_placed hfresh hs hp hv hsize hcall hnull₁
    obtain ⟨new', hfilled⟩ := hfilled (.of_notMem hnull₁)
    refine ⟨?_, hheap, hptable, hfilling (fun _ hin => ?_) (.of_notMem hnull)⟩
    · by_cases h₀ : pHdr.pVaddr = 0
      · rw [h₀, copyIn_null] at hcopied
        subst hcopied
        exact .allocated hs hp hext hplaced fun _ => hload.empty h₀
      · refine .copied h hp hext hfilled.owned hplaced h₀ hv hload hclean
          (fun k hk => ?_) hcopied.symm
        have hcontents := hload.contents
        exact hreads _ _ _ _ hk (by omega)
    · have hwin := (hplaced hin.2.2.1).1
      rw [dir_eq hv] at hwin
      have hlt := hin.2.2.2
      omega

/-! ## The whole file -/

theorem loadSegments_success (mm : PageManager) (scratch : Scratch)
    (file : FileRead) : ∀ turns i success process M,
      (loadSegments mm scratch file turns i ((elfHeader scratch file).ePhoff +
        32 * i) success process M).1 = some true → success = true := by
  intro turns
  induction turns with
  | zero => intro i success process M h; exact Option.some.inj h
  | succ turns ih =>
      intro i success process M h
      rw [loadSegments_succ] at h
      rcases hseg : segment mm scratch file i (programHeader scratch file i)
        process M with ⟨_ | ok, process', M'⟩ <;> rw [hseg] at h
      · cases h
      · have hboth := ih (i + 1) _ process' M' h
        rw [Bool.and_eq_true] at hboth
        exact hboth.1

theorem loadSegments_imaged (hfresh : mm.Fresh)
    (hreads : Reads file content size) (hp : ptable ∈ dirs) :
    ∀ turns i process M new, process.ptable = ptable →
      Filling M₀ M dm dirs ptable new →
      Imaged content scratch file M ptable process.heapTop i →
      (∀ j, j < i + turns → (programHeader scratch file j).pType = PT_LOAD →
        (programHeader scratch file j).Loadable size ∧
          ((programHeader scratch file j).pFilesz <
            (programHeader scratch file j).pMemsz → Clean M₀ dirs ptable)) →
      ∀ process' M', loadSegments mm scratch file turns i
          ((elfHeader scratch file).ePhoff + 32 * i) true process M =
          (some true, process', M') →
        Event.alloc true 0 ∉ M'.log →
        Imaged content scratch file M' ptable process'.heapTop (i + turns) ∧
          ∃ new', Filling M₀ M' dm dirs ptable new' := by
  intro turns
  induction turns with
  | zero =>
      intro i process M new _ h himaged _ process' M' heq _
      cases heq
      exact ⟨himaged, new, h⟩
  | succ turns ih =>
      intro i process M new hptable h himaged hload process' M' heq hnull
      subst hptable
      rw [loadSegments_succ] at heq
      rcases hseg : segment mm scratch file i (programHeader scratch file i)
        process M with ⟨_ | ok, process₁, M₁⟩ <;> rw [hseg] at heq
      · cases heq
      dsimp only at heq
      rw [Bool.true_and] at heq
      have hsuffix := loadSegments_suffix hfresh scratch file turns (i + 1) ok
        process₁ M₁
      obtain rfl := loadSegments_success mm scratch file turns (i + 1) ok
        process₁ M₁ (by rw [heq])
      rw [heq] at hsuffix
      obtain ⟨hloaded, hheap, hptable, new', hfilling⟩ := segment_loaded hfresh
        hreads h hp (pVaddr_lt scratch file i) (load_lt _ 4 20)
        (hload i (by omega)) hseg fun hmem => hnull (hsuffix.subset hmem)
      have hnext := himaged.next (fun j hj htype =>
        (hload j (by omega) htype).1) hloaded
      rw [← hheap] at hnext
      have hrest := ih (i + 1) process₁ M₁ new' hptable hfilling hnext
        (fun j hj => hload j (by omega)) process' M' heq hnull
      rw [Nat.add_right_comm] at hrest
      exact hrest

/-- The program is entered when the segments were loaded and the last page could
be given to the stack. -/
theorem loadElf_jumpIn {sp entry : Nat}
    (h : (loadElf mm scratch (some process) (some file) M).1 =
      .jumpIn sp entry) :
    ∃ process' M₁, loadSegments mm scratch file
        (elfHeader scratch file).ePhnum 0
        ((elfHeader scratch file).ePhoff + 32 * 0) true
        { process with heapTop := 0 }
        (resetAddressSpace mm M (some process.ptable) process.ptable).2 =
        (some true, process', M₁) ∧
      (loadElf mm scratch (some process) (some file) M).2 =
        (some process', (vmalloc mm M₁ INITIAL_ELF_STACKSIZE process'.ptable
          INITIAL_STACK_BASE).2) ∧
      (vmalloc mm M₁ INITIAL_ELF_STACKSIZE process'.ptable
        INITIAL_STACK_BASE).1 = INITIAL_STACK_BASE := by
  cases helf : (elfHeader scratch file).isElf with
  | false =>
      rw [loadElf, helf] at h
      cases h
  | true =>
      rw [loadElf_eq mm process M helf] at h ⊢
      rcases hsegments : loadSegments mm scratch file
        (elfHeader scratch file).ePhnum 0
        ((elfHeader scratch file).ePhoff + 32 * 0) true
        { process with heapTop := 0 }
        (resetAddressSpace mm M (some process.ptable) process.ptable).2 with
        ⟨r, process', M₁⟩
      rcases loadReset_cases mm scratch file process _ hsegments with
        ⟨_, heq⟩ | ⟨_, heq⟩ | ⟨_, _, heq⟩ | ⟨rfl, hret, heq⟩ <;> rw [heq] at h
      · cases h
      · cases h
      · cases h
      · exact ⟨process', M₁, rfl, by rw [heq], hret⟩

/-- Every loadable header has its image in memory, and the heap begins behind
all headers. -/
def Built (content : Nat → UInt8) (scratch : Scratch) (file : FileRead)
    (m : Nat → UInt8) (ptable heapTop : Nat) : Prop :=
  ∀ i, i < (elfHeader scratch file).ePhnum →
    ((programHeader scratch file i).pType = PT_LOAD →
      Image content m ptable (programHeader scratch file i)) ∧
    (programHeader scratch file i).pVaddr +
      (programHeader scratch file i).pMemsz ≤ heapTop

theorem loadElf_image (hfresh : mm.Fresh) (htakes : mm.TakesBack)
    (h : Owned M dm dirs) (hp : process.ptable ∈ dirs)
    (hreads : Reads file content size)
    (hload : ∀ i, i < (elfHeader scratch file).ePhnum →
      (programHeader scratch file i).pType = PT_LOAD →
      (programHeader scratch file i).Loadable size ∧
        ((programHeader scratch file i).pFilesz <
          (programHeader scratch file i).pMemsz →
          Clean M dirs process.ptable))
    (hnull : Event.alloc true 0 ∉
      (loadElf mm scratch (some process) (some file) M).2.2.log)
    {sp entry : Nat}
    (hjump : (loadElf mm scratch (some process) (some file) M).1 =
      .jumpIn sp entry) :
    ∃ process',
      (loadElf mm scratch (some process) (some file) M).2.1 = some process' ∧
        Built content scratch file
          (loadElf mm scratch (some process) (some file) M).2.2.mem
          process.ptable process'.heapTop := by
  obtain ⟨process', M₁, hsegments, heq, hstack⟩ := loadElf_jumpIn hjump
  have hptable := loadSegments_ptable mm scratch file
    (elfHeader scratch file).ePhnum 0 true { process with heapTop := 0 }
    (resetAddressSpace mm M (some process.ptable) process.ptable).2
  rw [hsegments] at hptable
  dsimp only at hptable
  rw [heq] at hnull ⊢
  dsimp only at hnull ⊢
  rw [hptable] at hnull hstack ⊢
  obtain ⟨new, hstart⟩ := Filling.start h hp
    ((resetAddressSpace_spec mm h hp).1.accepted htakes)
  obtain ⟨himaged, new', hfilling⟩ := loadSegments_imaged hfresh hreads hp
    (elfHeader scratch file).ePhnum 0 { process with heapTop := 0 } _ new rfl
    hstart ⟨fun j hj => absurd hj (Nat.not_lt_zero j),
      fun j hj => absurd hj (Nat.not_lt_zero j),
      fun _ j hj => absurd hj (Nat.not_lt_zero j),
      fun _ j hj => absurd hj (Nat.not_lt_zero j)⟩
    (fun j hj => hload j (by omega)) process' M₁ hsegments fun hmem =>
      hnull ((vmalloc_logged hfresh _ _ _ _).suffix.subset hmem)
  rw [Nat.zero_add] at himaged
  have hs := hfilling.owned.spaces
  obtain ⟨hext, hserved⟩ := vmalloc_spec hfresh hs hp INITIAL_ELF_STACKSIZE
    INITIAL_STACK_BASE (.of_notMem hnull)
  -- the last page was free, so all headers end below it
  have hbelow : ∀ j, j < (elfHeader scratch file).ePhnum →
      (programHeader scratch file j).BelowStack := by
    intro j hj h₀
    have hfree : pteOf M₁.mem process.ptable 1048575 = none := by
      rcases hserved with ⟨hzero, _⟩ | ⟨_, _, _, frame, hplaced⟩
      · rw [hstack] at hzero
        exact absurd hzero (by decide)
      · exact hplaced.free 0 (by decide)
    have hv := pVaddr_lt scratch file j
    refine Nat.le_of_not_lt fun hlt => ?_
    obtain ⟨e, he⟩ := himaged.mapped j hj h₀ 1048575 (by omega) (by omega)
      (by decide)
    rw [hfree] at he
    cases he
  refine ⟨process', rfl, fun i hi => ⟨fun htype => ?_,
    himaged.heap hbelow i hi⟩⟩
  exact (himaged.images hbelow i hi htype).mono (hload i hi htype).1
    (hbelow i hi) (himaged.above i hi) fun w b hw _ hb =>
      hext.readByte hs hp hp hw hb

/-! ## Images of one header -/

theorem wordsFile_reads (words : List Nat) :
    Reads (wordsFile words) (wordBytes words) (4 * words.length) := by
  intro offset length buffer k h₁ h₂
  rw [wordsFile, if_pos ⟨h₁, h₂⟩]

/-- Behind the tables and the parent's page all is blank. -/
theorem forkMachine_clean : Clean forkMachine [8192, 12288] 12288 := by
  intro f ⟨p, hp⟩ h₀ _ hkernel _ k hk
  have hmem : ∀ t, t ∈ [4096, 8192, 12288, 16384] → f ≠ t := by
    rintro t ht rfl
    refine hkernel ⟨h₀, ?_⟩
    revert ht
    simp only [forkMachine, List.mem_cons, Event.alloc.injEq]
    tauto
  have hword : forkWords p (k / 4) = 0 := by
    have h₁ := hmem 4096 (by decide)
    have h₂ := hmem 8192 (by decide)
    have h₃ := hmem 12288 (by decide)
    have h₄ := hmem 16384 (by decide)
    rw [forkWords]
    split_ifs <;> omega
  have hpage : (f + k) / 4096 = p := by omega
  have hoffset : (f + k) % 4096 / 4 = k / 4 := by omega
  show UInt8.ofNat (forkWords ((f + k) / 4096) ((f + k) % 4096 / 4) /
    256 ^ ((f + k) % 4)) = 0
  rw [hpage, hoffset, hword, Nat.zero_div]
  rfl

/-- Four bytes of contents and four zeros. -/
theorem loadElf_image_zeros :
    ∃ process',
      (loadOnFork (elfFile ⟨PT_LOAD, 0, 0x8000000, 4, 8⟩)).2.1 =
          some process' ∧
        Built (wordBytes (elfWords ⟨PT_LOAD, 0, 0x8000000, 4, 8⟩)) blankScratch
          (elfFile ⟨PT_LOAD, 0, 0x8000000, 4, 8⟩)
          (loadOnFork (elfFile ⟨PT_LOAD, 0, 0x8000000, 4, 8⟩)).2.2.mem 12288
          process'.heapTop := by
  have heq := loadOnFork_eq (elfFile ⟨PT_LOAD, 0, 0x8000000, 4, 8⟩)
    (by decide +kernel)
  have hphnum : (elfHeader blankScratch
      (elfFile ⟨PT_LOAD, 0, 0x8000000, 4, 8⟩)).ePhnum = 1 := by
    decide +kernel
  have hheader : programHeader blankScratch
      (elfFile ⟨PT_LOAD, 0, 0x8000000, 4, 8⟩) 0 =
      ⟨PT_LOAD, 0, 0x8000000, 4, 8⟩ := by
    decide +kernel
  have hnull : Event.alloc true 0 ∉
      (loadOnFork (elfFile ⟨PT_LOAD, 0, 0x8000000, 4, 8⟩)).2.2.log := by
    rw [heq]
    decide +kernel
  have hjump : (loadOnFork (elfFile ⟨PT_LOAD, 0, 0x8000000, 4, 8⟩)).1 =
      .jumpIn INITIAL_STACK_POINTER 0 := by
    rw [heq]
    decide +kernel
  rw [loadOnFork] at hnull hjump ⊢
  refine loadElf_image counting_fresh counting_takesBack forkMachine_owned
    (by decide) (wordsFile_reads (elfWords ⟨PT_LOAD, 0, 0x8000000, 4, 8⟩))
    (fun i hi _ => ?_) hnull hjump
  obtain rfl : i = 0 := by
    have hlt := hi.trans_eq hphnum
    omega
  rw [hheader]
  exact ⟨⟨by decide, by decide, by decide⟩, fun _ => forkMachine_clean⟩

/-- The last four of these eight bytes would lie in a second page, and there is
none. -/
theorem loadElf_image_spills :
    counting.Fresh ∧ counting.TakesBack ∧
      Owned forkMachine 4096 [8192, 12288] ∧
      Reads (elfFile ⟨PT_LOAD, 0, 0x8000FFC, 8, 8⟩)
        (wordBytes (elfWords ⟨PT_LOAD, 0, 0x8000FFC, 8, 8⟩)) 84 ∧
      Event.alloc true 0 ∉
        (loadOnFork (elfFile ⟨PT_LOAD, 0, 0x8000FFC, 8, 8⟩)).2.2.log ∧
      (loadOnFork (elfFile ⟨PT_LOAD, 0, 0x8000FFC, 8, 8⟩)).1 =
        .jumpIn INITIAL_STACK_POINTER 0 ∧
      ∀ heapTop,
        ¬ Built (wordBytes (elfWords ⟨PT_LOAD, 0, 0x8000FFC, 8, 8⟩))
          blankScratch (elfFile ⟨PT_LOAD, 0, 0x8000FFC, 8, 8⟩)
          (loadOnFork (elfFile ⟨PT_LOAD, 0, 0x8000FFC, 8, 8⟩)).2.2.mem 12288
          heapTop := by
  have heq := loadOnFork_eq (elfFile ⟨PT_LOAD, 0, 0x8000FFC, 8, 8⟩)
    (by decide +kernel)
  have hphnum : (elfHeader blankScratch
      (elfFile ⟨PT_LOAD, 0, 0x8000FFC, 8, 8⟩)).ePhnum = 1 := by
    decide +kernel
  have hheader : programHeader blankScratch
      (elfFile ⟨PT_LOAD, 0, 0x8000FFC, 8, 8⟩) 0 =
      ⟨PT_LOAD, 0, 0x8000FFC, 8, 8⟩ := by
    decide +kernel
  rw [heq]
  have hread : readByte (loadReset counting blankScratch
      (elfFile ⟨PT_LOAD, 0, 0x8000FFC, 8, 8⟩) ⟨12288, 0x8000000, 0x10000000⟩
      forkMachine).2.2.mem 12288 0x8001000 = none := by
    decide +kernel
  refine ⟨counting_fresh, counting_takesBack, forkMachine_owned,
    wordsFile_reads _, by decide +kernel, by decide +kernel,
    fun heapTop hbuilt => ?_⟩
  have himage := (hbuilt 0 (by rw [hphnum]; decide)).1 (by rw [hheader])
  rw [hheader] at himage
  have hbyte := himage.contents 4 (by decide)
  rw [hread] at hbyte
  cases hbyte

end Iposix.Elf
