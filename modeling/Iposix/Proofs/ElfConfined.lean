import Iposix.Elf.ElfLoader
import Iposix.Proofs.Confined

/-!
# Where the loader writes

Loading a file gives memory to a process and copies contents into it, header by
header. Whether an allocation has succeeded is not looked at before the copy.
Above the kernel's window that does no harm while the page manager takes back
what the process had and has pages for tables: nothing is mapped there but what
was given to the process since its address space was reset. An address in the
window is never given, but it is mapped, and the contents are copied there.

`loadElf_confined` says that a file is confined if it stays out of the window,
no page is refused when it is given back and no page table when it is asked
for. A page that is not taken back stays mapped. A refused table becomes the
null page, and where a copy goes then depends on the words that are there.
-/

namespace Iposix.Elf

open Iposix.Lib
open Iposix.Vm

variable {mm : PageManager} {M M' M₀ : Machine} {dm ptable : Nat}
  {dirs : List Nat} {new : List Event} {scratch : Scratch} {file : FileRead}
  {process : ProcessType} {i offset : Nat}

/-! ## One header -/

/-- The program header with this number, in the loader's variable. -/
def programHeader (scratch : Scratch) (file : FileRead) (i : Nat) :
    Elf32Phdr :=
  .ofBytes (file ((elfHeader scratch file).ePhoff + 32 * i) 32
    (scratch.pHdr i))

theorem pVaddr_lt (scratch : Scratch) (file : FileRead) (i : Nat) :
    (programHeader scratch file i).pVaddr < 4294967296 :=
  load_lt _ 4 8

/-- What the loop does for one header. -/
def segment (mm : PageManager) (scratch : Scratch) (file : FileRead)
    (i : Nat) (pHdr : Elf32Phdr) (process : ProcessType) (M : Machine) :
    Option Bool × ProcessType × Machine :=
  let (allocated, process, M) :=
    allocateArea mm process M pHdr.pVaddr pHdr.pMemsz
  if pHdr.pType = PT_NULL then (some allocated, process, M)
  else if pHdr.pType = PT_LOAD then
    match copyToArea scratch process M file i pHdr.pOffset pHdr.pVaddr
      pHdr.pFilesz with
    | none => (none, process, M)
    | some M => (some allocated, process, M)
  else (some false, process, M)

theorem loadSegments_succ (mm : PageManager) (scratch : Scratch)
    (file : FileRead) (turns i : Nat) (success : Bool) (process : ProcessType)
    (M : Machine) :
    loadSegments mm scratch file (turns + 1) i
        ((elfHeader scratch file).ePhoff + 32 * i) success process M =
      match segment mm scratch file i (programHeader scratch file i) process M
        with
      | (none, process, M) => (none, process, M)
      | (some ok, process, M) =>
          loadSegments mm scratch file turns (i + 1)
            ((elfHeader scratch file).ePhoff + 32 * (i + 1)) (success && ok)
            process M := by
  rw [loadSegments, segment, programHeader, Nat.mul_succ, ← Nat.add_assoc]
  dsimp only
  split
  · rfl
  · split
    · generalize copyToArea scratch _ _ file i _ _ _ = copied
      cases copied <;> rfl
    · dsimp only
      rw [Bool.and_false]

/-- `allocate_area` moves the top of the heap and asks for memory. -/
theorem allocateArea_machine (mm : PageManager) (process : ProcessType)
    (M : Machine) (vaddr size : Nat) :
    (allocateArea mm process M vaddr size).2.2 =
      (vmalloc mm M (u32 size) process.ptable vaddr).2 := by
  rw [allocateArea]
  dsimp only
  split <;> rfl

theorem allocateArea_ptable (mm : PageManager) (process : ProcessType)
    (M : Machine) (vaddr size : Nat) :
    (allocateArea mm process M vaddr size).2.1.ptable = process.ptable := by
  rw [allocateArea]
  dsimp only
  split <;> rfl

/-- Where no contents are copied the allocation is all that is done. -/
theorem segment_cases (mm : PageManager) (scratch : Scratch) (file : FileRead)
    (i : Nat) (pHdr : Elf32Phdr) (process : ProcessType) (M : Machine)
    {allocated : Bool} {process' : ProcessType} {M' : Machine}
    (h : allocateArea mm process M pHdr.pVaddr pHdr.pMemsz =
      (allocated, process', M')) :
    (pHdr.pType ≠ PT_LOAD ∧ ∃ ok,
      segment mm scratch file i pHdr process M = (some ok, process', M') ∧
        (ok = true → allocated = true)) ∨
    (pHdr.pType = PT_LOAD ∧ scratch.new i pHdr.pFilesz = none ∧
      segment mm scratch file i pHdr process M = (none, process', M')) ∨
    (pHdr.pType = PT_LOAD ∧ ∃ buffer,
      scratch.new i pHdr.pFilesz = some buffer ∧
        segment mm scratch file i pHdr process M =
          (some allocated, process', (copyIn M' process'.ptable pHdr.pVaddr
            (some (file pHdr.pOffset pHdr.pFilesz buffer)) pHdr.pFilesz
            false).2.1)) := by
  rw [segment, h]
  dsimp only
  by_cases hload : pHdr.pType = PT_LOAD
  · have hnull : pHdr.pType ≠ PT_NULL := by
      rw [hload]
      decide
    rw [if_neg hnull, if_pos hload, copyToArea]
    cases hnew : scratch.new i pHdr.pFilesz with
    | none => exact .inr (.inl ⟨hload, rfl, rfl⟩)
    | some buffer => exact .inr (.inr ⟨hload, buffer, rfl, rfl⟩)
  · rw [if_neg hload]
    split
    · exact .inl ⟨hload, allocated, rfl, fun h => h⟩
    · exact .inl ⟨hload, false, rfl, (nomatch ·)⟩

/-! ## One copy -/

/-- Nothing is copied to the null page. -/
theorem copyIn_null (M : Machine) (ptable size : Nat) (buffer : Nat → UInt8) :
    (copyIn M ptable 0 (some buffer) size false).2.1 = M := by
  rw [copyIn, if_pos rfl]
  split <;> rfl

/-- A copy adds to the log. -/
theorem copyIn_suffix {v : Nat} (hv : v < 4294967296) (M : Machine)
    (ptable : Nat) (buffer : Nat → UInt8) (size : Nat) :
    M.log <:+ (copyIn M ptable v (some buffer) size false).2.1.log := by
  by_cases h₀ : v = 0
  · subst h₀
    refine ⟨[], ?_⟩
    rw [copyIn_null, List.nil_append]
  · have hmove : MoveRule ptable buffer v size fun _ M' => M.log <:+ M'.log :=
      fun _ _ _ hI _ _ _ _ _ => hI.trans (List.suffix_cons _ _)
    obtain ⟨_, _, hsuffix, _⟩ :=
      copyIn_rule hmove (List.suffix_refl M.log) h₀ hv
    exact hsuffix

/-- A copy that stays out of the window is none, or one above it. -/
theorem copyIn_above (hM : Owned M dm dirs) (hp : ptable ∈ dirs)
    {v size : Nat} (hv : v < 4294967296)
    (hwin : size ≠ 0 → v ≠ 0 → 134217728 ≤ v) (buffer : Nat → UInt8) :
    (copyIn M ptable v (some buffer) size false).2.1 = M ∨
      32 ≤ dir v ∧ ∃ pos, v + pos ≤ 4294967296 ∧
        Copying M (copyIn M ptable v (some buffer) size false).2.1 ptable buffer
          v pos := by
  by_cases hsize : size = 0
  · rw [copyIn, if_pos hsize]
    exact .inl rfl
  by_cases h₀ : v = 0
  · subst h₀
    exact .inl (copyIn_null M ptable size buffer)
  have hv' : 32 ≤ dir v := by
    have hlow := hwin hsize h₀
    rw [dir]
    omega
  obtain ⟨pos, _, hend, hcopy, _⟩ := copyIn_spec hM hp hv' hv buffer size
  exact .inr ⟨hv', pos, hend, hcopy⟩

/-- A copy into the window begins at the address it was given. -/
theorem copyIn_window (h : WindowInv M dm dirs) (hp : ptable ∈ dirs)
    {v size : Nat} (h₀ : v ≠ 0) (hv : v < 134217728) (hsize : size ≠ 0)
    (buffer : Nat → UInt8) :
    ∃ new a n,
      (copyIn M ptable v (some buffer) size false).2.1.log = new ++ M.log ∧
        Event.copy v a n ∈ new := by
  have hmove : MoveRule ptable buffer v size fun pos M' =>
      (pos = 0 → M' = M) ∧ (0 < pos → ∃ new a n, M'.log = new ++ M.log ∧
        Event.copy v a n ∈ new) := by
    intro pos M' n ⟨hzero, hpos⟩ _ _ hn _ _
    refine ⟨fun heq => absurd heq (by omega), fun _ => ?_⟩
    rcases Nat.eq_zero_or_pos pos with rfl | hlt
    · rw [hzero rfl]
      exact ⟨[_], _, n, rfl, List.mem_cons_self⟩
    · obtain ⟨new, a, n', hlog, hmem⟩ := hpos hlt
      refine ⟨.copy (v + pos) (getPhysAddress M'.mem ptable (v + pos)) n ::
        new, a, n', ?_, List.mem_cons_of_mem _ hmem⟩
      exact congrArg (List.cons _) hlog
  obtain ⟨pos, _, ⟨hzero, hpos⟩, hended⟩ := copyIn_rule hmove
    ⟨fun _ => rfl, fun hlt => absurd hlt (Nat.lt_irrefl 0)⟩ h₀ (by omega)
  rcases Nat.eq_zero_or_pos pos with rfl | hlt
  · -- the window is mapped, so the first move is made
    rw [hzero rfl, Ended, Nat.add_zero] at hended
    have hphys : getPhysAddress M.mem ptable v = v :=
      getPhysAddress_of_window hv (h.window ptable hp _ (by rw [dir]; omega))
    rcases hended with heq | hnone | hend
    · exact absurd heq.symm hsize
    · exact absurd (hphys.symm.trans hnone) h₀
    · omega
  · exact hpos hlt

/-! ## What a header may do -/

/-- A header whose contents go into the window. -/
def Elf32Phdr.InWindow (pHdr : Elf32Phdr) : Prop :=
  pHdr.pType = PT_LOAD ∧ pHdr.pFilesz ≠ 0 ∧ pHdr.pVaddr ≠ 0 ∧
    pHdr.pVaddr < 134217728

instance (pHdr : Elf32Phdr) : Decidable pHdr.InWindow :=
  inferInstanceAs (Decidable (_ ∧ _))

/-- Where a header has its contents if they stay out. -/
theorem Elf32Phdr.above_of_not_inWindow {pHdr : Elf32Phdr}
    (h : ¬ pHdr.InWindow)
    (hload : pHdr.pType = PT_LOAD) (hsize : pHdr.pFilesz ≠ 0)
    (h₀ : pHdr.pVaddr ≠ 0) : 134217728 ≤ pHdr.pVaddr :=
  Nat.le_of_not_lt fun hlt => h ⟨hload, hsize, h₀, hlt⟩

/-- `new` delivers a buffer for the header, if it has contents. -/
def Scratch.Delivers (scratch : Scratch) (i : Nat) (pHdr : Elf32Phdr) : Prop :=
  pHdr.pType = PT_LOAD → (scratch.new i pHdr.pFilesz).isSome = true

instance (scratch : Scratch) (i : Nat) (pHdr : Elf32Phdr) :
    Decidable (scratch.Delivers i pHdr) :=
  inferInstanceAs (Decidable (_ → _))

/-- The loader adds to the log. -/
theorem segment_suffix (hfresh : mm.Fresh) (scratch : Scratch)
    (file : FileRead) (i : Nat) (pHdr : Elf32Phdr)
    (hv : pHdr.pVaddr < 4294967296) (process : ProcessType) (M : Machine) :
    M.log <:+ (segment mm scratch file i pHdr process M).2.2.log := by
  have hmachine := allocateArea_machine mm process M pHdr.pVaddr pHdr.pMemsz
  have halloc := (vmalloc_logged hfresh M (u32 pHdr.pMemsz) process.ptable
    pHdr.pVaddr).suffix
  rcases harea : allocateArea mm process M pHdr.pVaddr pHdr.pMemsz with
    ⟨allocated, process', M'⟩
  rw [harea] at hmachine
  rw [← hmachine] at halloc
  rcases segment_cases mm scratch file i pHdr process M harea with
    ⟨_, ok, heq, _⟩ | ⟨_, _, heq⟩ | ⟨_, buffer, _, heq⟩ <;> rw [heq]
  · exact halloc
  · exact halloc
  · exact halloc.trans (copyIn_suffix hv _ _ _ _)

theorem segment_ptable (mm : PageManager) (scratch : Scratch) (file : FileRead)
    (i : Nat) (pHdr : Elf32Phdr) (process : ProcessType) (M : Machine) :
    (segment mm scratch file i pHdr process M).2.1.ptable = process.ptable := by
  have hptable := allocateArea_ptable mm process M pHdr.pVaddr pHdr.pMemsz
  rcases harea : allocateArea mm process M pHdr.pVaddr pHdr.pMemsz with
    ⟨allocated, process', M'⟩
  rw [harea] at hptable
  rcases segment_cases mm scratch file i pHdr process M harea with
    ⟨_, ok, heq, _⟩ | ⟨_, _, heq⟩ | ⟨_, buffer, _, heq⟩ <;> rw [heq] <;>
    exact hptable

/-- The kernel survives a header exactly if `new` delivers. -/
theorem segment_isSome (mm : PageManager) (scratch : Scratch) (file : FileRead)
    (i : Nat) (pHdr : Elf32Phdr) (process : ProcessType) (M : Machine) :
    (segment mm scratch file i pHdr process M).1.isSome = true ↔
      scratch.Delivers i pHdr := by
  rcases harea : allocateArea mm process M pHdr.pVaddr pHdr.pMemsz with
    ⟨allocated, process', M'⟩
  rw [Scratch.Delivers]
  rcases segment_cases mm scratch file i pHdr process M harea with
    ⟨hload, ok, heq, _⟩ | ⟨hload, hnew, heq⟩ | ⟨_, buffer, hnew, heq⟩ <;>
    rw [heq]
  · exact ⟨fun _ h => absurd h hload, fun _ => rfl⟩
  · rw [hnew]
    exact ⟨(nomatch ·), fun h => h hload⟩
  · rw [hnew]
    exact ⟨fun _ _ => rfl, fun _ => rfl⟩

/-- Allocating the area of a header only fills. -/
theorem allocateArea_filling (hfresh : mm.Fresh)
    (h : Filling M₀ M dm dirs process.ptable new) (hp : process.ptable ∈ dirs)
    {vaddr size : Nat} {allocated : Bool} {process' : ProcessType} {M' : Machine}
    (harea : allocateArea mm process M vaddr size = (allocated, process', M')) :
    process'.ptable = process.ptable ∧
      (Granted M.log M'.log →
        ∃ new', Filling M₀ M' dm dirs process.ptable new') := by
  have hmachine := allocateArea_machine mm process M vaddr size
  have hptable := allocateArea_ptable mm process M vaddr size
  have halloc := h.vmalloc hfresh hp (u32 size) vaddr
  rw [harea] at hmachine hptable
  rw [← hmachine] at halloc
  exact ⟨hptable, halloc⟩

/-- A header whose contents stay out of the window. -/
theorem segment_filling (hfresh : mm.Fresh) (scratch : Scratch)
    (file : FileRead) (i : Nat)
    (h : Filling M₀ M dm dirs process.ptable new)
    (hp : process.ptable ∈ dirs) {pHdr : Elf32Phdr}
    (hv : pHdr.pVaddr < 4294967296)
    (hsafe : scratch.Delivers i pHdr → ¬ pHdr.InWindow)
    (hnull : Granted M.log
      (segment mm scratch file i pHdr process M).2.2.log) :
    ∃ new', Filling M₀ (segment mm scratch file i pHdr process M).2.2 dm dirs
      process.ptable new' := by
  rcases harea : allocateArea mm process M pHdr.pVaddr pHdr.pMemsz with
    ⟨allocated, process', M'⟩
  obtain ⟨hptable, halloc⟩ := allocateArea_filling hfresh h hp harea
  rcases segment_cases mm scratch file i pHdr process M harea with
    ⟨_, ok, heq, _⟩ | ⟨_, _, heq⟩ | ⟨hload, buffer, hnew, heq⟩ <;>
    rw [heq] at hnull ⊢
  · exact halloc hnull
  · exact halloc hnull
  dsimp only at hptable hnull ⊢
  obtain ⟨new', hfilling⟩ := halloc (hnull.left (copyIn_suffix hv _ _ _ _))
  rw [hptable]
  have habove := Elf32Phdr.above_of_not_inWindow
    (hsafe fun _ => by rw [hnew]; rfl) hload
  rcases copyIn_above hfilling.owned hp hv habove
    (file pHdr.pOffset pHdr.pFilesz buffer) with hsame | ⟨hwin, _, hend, hcopy⟩
  · rw [hsame]
    exact ⟨new', hfilling⟩
  · exact hfilling.copy hp hwin hend hcopy

/-- A header, whatever its contents are and wherever they go: if its copies are
confined it was not to have them in the window. -/
theorem segment_watched (hfresh : mm.Fresh) (scratch : Scratch)
    (file : FileRead) (i : Nat) (hM₀ : WindowInv M₀ dm dirs)
    (h : Watched M₀ M dm dirs new) (hp : process.ptable ∈ dirs)
    {pHdr : Elf32Phdr} (hv : pHdr.pVaddr < 4294967296) :
    ∃ new', Watched M₀ (segment mm scratch file i pHdr process M).2.2 dm dirs
        new' ∧
      (CopiesConfined new' → scratch.Delivers i pHdr → ¬ pHdr.InWindow) := by
  have hmachine := allocateArea_machine mm process M pHdr.pVaddr pHdr.pMemsz
  have hptable := allocateArea_ptable mm process M pHdr.pVaddr pHdr.pMemsz
  have halloc := h.vmalloc hfresh hM₀ hp (u32 pHdr.pMemsz) pHdr.pVaddr
  rcases harea : allocateArea mm process M pHdr.pVaddr pHdr.pMemsz with
    ⟨allocated, process', M'⟩
  rw [harea] at hmachine hptable
  rw [← hmachine] at halloc
  obtain ⟨new', hwatched⟩ := halloc
  rcases segment_cases mm scratch file i pHdr process M harea with
    ⟨hno, ok, heq, _⟩ | ⟨_, hnone, heq⟩ | ⟨_, buffer, _, heq⟩ <;> rw [heq]
  · exact ⟨new', hwatched, fun _ _ hin => hno hin.1⟩
  · refine ⟨new', hwatched, fun _ hdelivers hin => ?_⟩
    have hsome := hdelivers hin.1
    rw [hnone] at hsome
    cases hsome
  dsimp only at hptable ⊢
  rw [hptable]
  by_cases h₀ : pHdr.pVaddr = 0
  · rw [h₀, copyIn_null]
    exact ⟨new', hwatched, fun _ _ hin => hin.2.2.1 h₀⟩
  obtain ⟨copied, hcopied⟩ := hwatched.copy h₀ hv
    (file pHdr.pOffset pHdr.pFilesz buffer) pHdr.pFilesz
  refine ⟨copied, hcopied, fun hcopies _ ⟨_, hsize, _, hlt⟩ => ?_⟩
  -- what was in the log before the copy is confined, so the window stands
  obtain ⟨suffix, hsuffix⟩ := copyIn_suffix hv M' process.ptable
    (file pHdr.pOffset pHdr.pFilesz buffer) pHdr.pFilesz
  have hsplit : copied = suffix ++ new' := by
    rw [hcopied.log, hwatched.log, ← List.append_assoc] at hsuffix
    exact (List.append_cancel_right hsuffix).symm
  rw [hsplit] at hcopies
  obtain ⟨copies, a, n, hlog, hmem⟩ := copyIn_window
    (hwatched.window hcopies.of_append) hp h₀ hlt hsize
    (file pHdr.pOffset pHdr.pFilesz buffer)
  rw [← hsuffix] at hlog
  rw [← List.append_cancel_right hlog] at hmem
  exact Nat.not_le_of_gt hlt
    (hcopies.above (List.mem_append_left new' hmem))

/-! ## All headers -/

theorem loadSegments_ptable (mm : PageManager) (scratch : Scratch)
    (file : FileRead) : ∀ turns i success process M,
      (loadSegments mm scratch file turns i ((elfHeader scratch file).ePhoff +
        32 * i) success process M).2.1.ptable = process.ptable := by
  intro turns
  induction turns with
  | zero => intro i success process M; rfl
  | succ turns ih =>
      intro i success process M
      have hsegment := segment_ptable mm scratch file i
        (programHeader scratch file i) process M
      rw [loadSegments_succ]
      rcases hseg : segment mm scratch file i (programHeader scratch file i)
        process M with ⟨_ | ok, process', M'⟩ <;> rw [hseg] at hsegment
      · exact hsegment
      · exact (ih (i + 1) _ process' M').trans hsegment

/-- What every header the kernel survives keeps, all of them keep. -/
theorem loadSegments_rule {total : Nat} {I : Nat → ProcessType → Machine → Prop}
    (hsegment : ∀ i, i < total → ∀ process M ok process' M',
      segment mm scratch file i (programHeader scratch file i) process M =
        (some ok, process', M') → I i process M → I (i + 1) process' M') :
    ∀ turns i success process M ok process' M', i + turns = total →
      I i process M →
      loadSegments mm scratch file turns i ((elfHeader scratch file).ePhoff +
        32 * i) success process M = (some ok, process', M') →
      I total process' M' := by
  intro turns
  induction turns with
  | zero =>
      rintro i success process M ok process' M' rfl h ⟨⟩
      exact h
  | succ turns ih =>
      intro i success process M ok process' M' htotal h heq
      rw [loadSegments_succ] at heq
      rcases hseg : segment mm scratch file i (programHeader scratch file i)
        process M with ⟨_ | ok', process₁, M₁⟩ <;> rw [hseg] at heq
      · cases heq
      · exact ih (i + 1) _ process₁ M₁ ok process' M' (by omega)
          (hsegment i (by omega) process M ok' process₁ M₁ hseg h) heq

theorem loadSegments_suffix (hfresh : mm.Fresh) (scratch : Scratch)
    (file : FileRead) :
    ∀ turns i success process M, M.log <:+ (loadSegments mm scratch file turns i
      ((elfHeader scratch file).ePhoff + 32 * i) success process M).2.2.log := by
  intro turns
  induction turns with
  | zero => intro i success process M; exact List.suffix_refl _
  | succ turns ih =>
      intro i success process M
      have hsegment := segment_suffix hfresh scratch file i _
        (pVaddr_lt scratch file i) process M
      rw [loadSegments_succ]
      rcases hseg : segment mm scratch file i (programHeader scratch file i)
        process M with ⟨_ | ok, process', M'⟩ <;> rw [hseg] at hsegment
      · exact hsegment
      · exact hsegment.trans (ih (i + 1) _ process' M')

/-- The kernel survives all headers up to this one, beginning with number
`i`. -/
def Reached (scratch : Scratch) (file : FileRead) (i k : Nat) : Prop :=
  ∀ j, j ≤ k → i ≤ j → scratch.Delivers j (programHeader scratch file j)

instance (scratch : Scratch) (file : FileRead) (i k : Nat) :
    Decidable (Reached scratch file i k) :=
  inferInstanceAs (Decidable (∀ j, j ≤ k → i ≤ j → _))

theorem loadSegments_filling (hfresh : mm.Fresh) (hp : ptable ∈ dirs) :
    ∀ turns i success process M new, process.ptable = ptable →
      Filling M₀ M dm dirs ptable new →
      (∀ k, i ≤ k → k < i + turns → Reached scratch file i k →
        ¬ (programHeader scratch file k).InWindow) →
      Granted M.log (loadSegments mm scratch file turns i
        ((elfHeader scratch file).ePhoff + 32 * i) success process M).2.2.log →
      ∃ new', Filling M₀ (loadSegments mm scratch file turns i
        ((elfHeader scratch file).ePhoff + 32 * i) success process M).2.2 dm
        dirs ptable new' := by
  intro turns
  induction turns with
  | zero => intro i success process M new _ h _ _; exact ⟨new, h⟩
  | succ turns ih =>
      intro i success process M new hptable h hsafe hnull
      subst hptable
      have hsegment := segment_filling hfresh scratch file i h hp
        (pVaddr_lt scratch file i) fun hdelivers =>
          hsafe i (Nat.le_refl i) (by omega) fun j h₁ h₂ => by
            rwa [Nat.le_antisymm h₁ h₂]
      have hptable := segment_ptable mm scratch file i
        (programHeader scratch file i) process M
      have hisSome := segment_isSome mm scratch file i
        (programHeader scratch file i) process M
      have hsuffix := segment_suffix hfresh scratch file i _
        (pVaddr_lt scratch file i) process M
      rw [loadSegments_succ] at hnull ⊢
      rcases hseg : segment mm scratch file i (programHeader scratch file i)
        process M with ⟨_ | ok, process', M'⟩ <;>
        rw [hseg] at hsegment hptable hisSome hsuffix hnull
      · exact hsegment hnull
      · obtain ⟨new', hfilling⟩ := hsegment (hnull.left
          (loadSegments_suffix hfresh scratch file turns (i + 1) _ process' M'))
        refine ih (i + 1) _ process' M' new' hptable hfilling
          (fun k h₁ h₂ hreached => hsafe k (by omega) (by omega)
            fun j hjk hj => ?_) (hnull.right hsuffix)
        rcases Nat.eq_or_lt_of_le hj with rfl | hlt
        · exact hisSome.1 rfl
        · exact hreached j hjk hlt

theorem loadSegments_watched (hfresh : mm.Fresh) (hM₀ : WindowInv M₀ dm dirs)
    (hp : ptable ∈ dirs) :
    ∀ turns i success process M new, process.ptable = ptable →
      Watched M₀ M dm dirs new →
      ∃ new', Watched M₀ (loadSegments mm scratch file turns i
          ((elfHeader scratch file).ePhoff + 32 * i) success process M).2.2 dm
          dirs new' ∧
        (CopiesConfined new' → ∀ k, i ≤ k → k < i + turns →
          Reached scratch file i k →
            ¬ (programHeader scratch file k).InWindow) := by
  intro turns
  induction turns with
  | zero =>
      intro i success process M new _ h
      exact ⟨new, h, fun _ k h₁ h₂ => by omega⟩
  | succ turns ih =>
      intro i success process M new hptable h
      subst hptable
      have hsegment := segment_watched hfresh scratch file i hM₀ h hp
        (pVaddr_lt scratch file i)
      have hptable := segment_ptable mm scratch file i
        (programHeader scratch file i) process M
      have hisSome := segment_isSome mm scratch file i
        (programHeader scratch file i) process M
      rw [loadSegments_succ]
      rcases hseg : segment mm scratch file i (programHeader scratch file i)
        process M with ⟨_ | ok, process', M'⟩ <;>
        rw [hseg] at hsegment hptable hisSome <;>
        obtain ⟨new', hwatched, hout⟩ := hsegment
      · -- the kernel dies at this header, and reaches none behind it
        refine ⟨new', hwatched, fun _ k h₁ _ hreached => ?_⟩
        cases hisSome.2 (hreached i h₁ (Nat.le_refl i))
      dsimp only at hwatched ⊢
      obtain ⟨later, hlater⟩ := loadSegments_suffix hfresh scratch file turns
        (i + 1) (success && ok) process' M'
      obtain ⟨new'', hrest, houts⟩ := ih (i + 1) (success && ok) process' M'
        new' hptable hwatched
      refine ⟨new'', hrest, fun hcopies k h₁ h₂ hreached => ?_⟩
      rcases Nat.eq_or_lt_of_le h₁ with rfl | hlt
      · refine hout ?_ (hreached i (Nat.le_refl i) (Nat.le_refl i))
        rw [hrest.log, hwatched.log, ← List.append_assoc] at hlater
        rw [← List.append_cancel_right hlater] at hcopies
        exact hcopies.of_append
      · exact houts hcopies k hlt (by omega) fun j hjk hj =>
          hreached j hjk (by omega)

/-! ## The whole file -/

/-- No header that is reached has its contents go into the window. -/
def WindowFree (scratch : Scratch) (file : FileRead) : Prop :=
  (elfHeader scratch file).isElf = true →
    ∀ k, k < (elfHeader scratch file).ePhnum → Reached scratch file 0 k →
      ¬ (programHeader scratch file k).InWindow

instance (scratch : Scratch) (file : FileRead) :
    Decidable (WindowFree scratch file) :=
  inferInstanceAs (Decidable (_ → ∀ k, k < _ → _ → _))

/-- What the loader does when the address space has been reset. -/
def loadReset (mm : PageManager) (scratch : Scratch) (file : FileRead)
    (process : ProcessType) (M : Machine) :
    Outcome × Option ProcessType × Machine :=
  match loadSegments mm scratch file (elfHeader scratch file).ePhnum 0
    ((elfHeader scratch file).ePhoff + 32 * 0) true
    { process with heapTop := 0 } M with
  | (none, process, M) => (.died, some process, M)
  | (some false, process, M) => (.failed, some process, M)
  | (some true, process, M) =>
      let (success, M) := allocateStack mm process M
      if !success then (.failed, some process, M)
      else
        (.jumpIn INITIAL_STACK_POINTER (elfHeader scratch file).eEntry,
          some process, M)

theorem loadElf_eq (mm : PageManager) (process : ProcessType) (M : Machine)
    (helf : (elfHeader scratch file).isElf = true) :
    loadElf mm scratch (some process) (some file) M =
      loadReset mm scratch file process
        (resetAddressSpace mm M (some process.ptable) process.ptable).2 := by
  rw [loadElf, loadReset]
  dsimp only
  rw [helf]
  rfl

/-- The ways it can end: in the loop over the headers, behind it, or with the
stack. -/
theorem loadReset_cases (mm : PageManager) (scratch : Scratch)
    (file : FileRead) (process : ProcessType) (M : Machine)
    {r : Option Bool} {process' : ProcessType} {M' : Machine}
    (h : loadSegments mm scratch file (elfHeader scratch file).ePhnum 0
      ((elfHeader scratch file).ePhoff + 32 * 0) true
      { process with heapTop := 0 } M = (r, process', M')) :
    (r = none ∧ loadReset mm scratch file process M =
      (.died, some process', M')) ∨
    (r = some false ∧ loadReset mm scratch file process M =
      (.failed, some process', M')) ∨
    (r = some true ∧
      (vmalloc mm M' INITIAL_ELF_STACKSIZE process'.ptable
        INITIAL_STACK_BASE).1 ≠ INITIAL_STACK_BASE ∧
      loadReset mm scratch file process M = (.failed, some process',
        (vmalloc mm M' INITIAL_ELF_STACKSIZE process'.ptable
          INITIAL_STACK_BASE).2)) ∨
    (r = some true ∧
      (vmalloc mm M' INITIAL_ELF_STACKSIZE process'.ptable
        INITIAL_STACK_BASE).1 = INITIAL_STACK_BASE ∧
      loadReset mm scratch file process M =
        (.jumpIn INITIAL_STACK_POINTER (elfHeader scratch file).eEntry,
          some process', (vmalloc mm M' INITIAL_ELF_STACKSIZE process'.ptable
            INITIAL_STACK_BASE).2)) := by
  rw [loadReset, h]
  obtain _ | _ | _ := r
  · exact .inl ⟨rfl, rfl⟩
  · exact .inr (.inl ⟨rfl, rfl⟩)
  refine .inr (.inr ?_)
  dsimp only
  rw [allocateStack]
  dsimp only
  by_cases hret : (vmalloc mm M' INITIAL_ELF_STACKSIZE process'.ptable
    INITIAL_STACK_BASE).1 = INITIAL_STACK_BASE
  · rw [if_neg (by simp [hret])]
    exact .inr ⟨rfl, hret, rfl⟩
  · rw [if_pos (by simp [hret])]
    exact .inl ⟨rfl, hret, rfl⟩

/-- The stack is given after the segments if all went well. -/
theorem loadReset_machine (mm : PageManager) (scratch : Scratch)
    (file : FileRead) (process : ProcessType) (M : Machine) :
    ∃ process' M', process'.ptable = process.ptable ∧
      (loadSegments mm scratch file (elfHeader scratch file).ePhnum 0
        ((elfHeader scratch file).ePhoff + 32 * 0) true process' M).2.2 = M' ∧
      ((loadReset mm scratch file process M).2.2 = M' ∨
        (loadReset mm scratch file process M).2.2 =
          (vmalloc mm M' INITIAL_ELF_STACKSIZE process.ptable
            INITIAL_STACK_BASE).2) := by
  refine ⟨{ process with heapTop := 0 }, _, rfl, rfl, ?_⟩
  have hptable := loadSegments_ptable mm scratch file
    (elfHeader scratch file).ePhnum 0 true { process with heapTop := 0 } M
  rcases hsegments : loadSegments mm scratch file
    (elfHeader scratch file).ePhnum 0
    ((elfHeader scratch file).ePhoff + 32 * 0) true
    { process with heapTop := 0 } M with ⟨r, process', M'⟩
  rw [hsegments] at hptable
  dsimp only at hptable
  rw [← hptable]
  rcases loadReset_cases mm scratch file process M hsegments with
    ⟨_, heq⟩ | ⟨_, heq⟩ | ⟨_, _, heq⟩ | ⟨_, _, heq⟩ <;> rw [heq]
  · exact .inl rfl
  · exact .inl rfl
  · exact .inr rfl
  · exact .inr rfl

section Loaded

variable (hfresh : mm.Fresh) (h : Owned M dm dirs) (hp : process.ptable ∈ dirs)
  (helf : (elfHeader scratch file).isElf = true)

include hfresh h hp helf

/-- Loading a file that stays out of the window. -/
theorem loadElf_filling
    (haccepted : Accepted M.log
      (resetAddressSpace mm M (some process.ptable) process.ptable).2.log)
    (hnull : Granted M.log
      (loadElf mm scratch (some process) (some file) M).2.2.log)
    (hfree : WindowFree scratch file) :
    ∃ new, Filling M (loadElf mm scratch (some process) (some file) M).2.2 dm
      dirs process.ptable new := by
  obtain ⟨new, hstart⟩ := Filling.start h hp haccepted
  obtain ⟨process', M', hptable, hloaded, hstack⟩ :=
    loadReset_machine mm scratch file process
      (resetAddressSpace mm M (some process.ptable) process.ptable).2
  rw [loadElf_eq mm process M helf] at hnull ⊢
  have hreset := hnull.right ⟨new, hstart.log.symm⟩
  have hsuffix := loadSegments_suffix hfresh scratch file
    (elfHeader scratch file).ePhnum 0 true process'
    (resetAddressSpace mm M (some process.ptable) process.ptable).2
  have hfilling := loadSegments_filling hfresh hp
    (elfHeader scratch file).ePhnum 0 true process' _ new hptable hstart
    fun k _ hk => hfree helf k (by omega)
  rw [hloaded] at hfilling hsuffix
  rcases hstack with heq | heq <;> rw [heq] at hreset ⊢
  · exact hfilling hreset
  · obtain ⟨new', hfilling⟩ := hfilling
      (hreset.left (vmalloc_logged hfresh _ _ _ _).suffix)
    exact hfilling.vmalloc hfresh hp _ _ (hreset.right hsuffix)

/-- Loading a file whose copies are confined. -/
theorem loadElf_windowFree {new : List Event}
    (hlog : (loadElf mm scratch (some process) (some file) M).2.2.log =
      new ++ M.log) (hcopies : CopiesConfined new) :
    WindowFree scratch file := by
  have hM := h.spaces.window
  obtain ⟨freed, hstart⟩ := Watched.start mm h hp
  obtain ⟨process', M', hptable, hloaded, hstack⟩ :=
    loadReset_machine mm scratch file process
      (resetAddressSpace mm M (some process.ptable) process.ptable).2
  rw [loadElf_eq mm process M helf] at hlog
  obtain ⟨new', hwatched, hout⟩ := loadSegments_watched hfresh hM hp
    (elfHeader scratch file).ePhnum 0 true process' _ freed hptable hstart
  rw [hloaded] at hwatched
  refine fun _ k hk => hout ?_ k (Nat.zero_le k) (by omega)
  rcases hstack with heq | heq <;> rw [heq] at hlog
  · rw [hwatched.log] at hlog
    rwa [List.append_cancel_right hlog]
  · obtain ⟨later, hlater⟩ := (vmalloc_logged hfresh M' INITIAL_ELF_STACKSIZE
      process.ptable INITIAL_STACK_BASE).suffix
    rw [hlog, hwatched.log, ← List.append_assoc] at hlater
    rw [← List.append_cancel_right hlater] at hcopies
    exact hcopies.of_append

end Loaded

/-- A file is confined to its process if no contents go into the window, the
pages that the process had are taken back and no page table is refused, and
only if no contents go into the window. -/
theorem loadElf_confined (hfresh : mm.Fresh) (h : Owned M dm dirs)
    (hp : process.ptable ∈ dirs) :
    (WindowFree scratch file ∧
      Accepted M.log
        (resetAddressSpace mm M (some process.ptable) process.ptable).2.log ∧
      Granted M.log
        (loadElf mm scratch (some process) (some file) M).2.2.log →
      ∃ new, Confined M
        (loadElf mm scratch (some process) (some file) M).2.2 dirs
        process.ptable new) ∧
    ((∃ new, Confined M
        (loadElf mm scratch (some process) (some file) M).2.2 dirs
        process.ptable new) → WindowFree scratch file) := by
  cases helf : (elfHeader scratch file).isElf with
  | false =>
      have hsame : (loadElf mm scratch (some process) (some file) M).2.2 = M := by
        rw [loadElf, helf]
        rfl
      rw [hsame]
      refine ⟨fun _ => ⟨[], rfl, trivial, fun _ _ _ _ => SamePage.refl _ _,
        fun _ _ _ _ _ => rfl⟩, fun _ hyes => ?_⟩
      rw [helf] at hyes
      cases hyes
  | true =>
      refine ⟨fun ⟨hfree, haccepted, hnull⟩ => ?_, fun ⟨new, hconfined⟩ =>
        loadElf_windowFree hfresh h hp helf hconfined.log hconfined.copies⟩
      obtain ⟨new, hfilling⟩ :=
        loadElf_filling hfresh h hp helf haccepted hnull hfree
      exact ⟨new, hfilling.confined h.spaces hp⟩

/-! ## Two files -/

/-- Bytes given by words. -/
def wordBytes (words : List Nat) (a : Nat) : UInt8 :=
  UInt8.ofNat (words.getD (a / 4) 0 / 256 ^ (a % 4))

def wordsFile (words : List Nat) : FileRead := fun offset length buffer k =>
  if k < length ∧ offset + k < 4 * words.length then
    wordBytes words (offset + k)
  else buffer k

/-- A file with one program header. -/
def elfWords (pHdr : Elf32Phdr) : List Nat :=
  [0x464c457f, 0, 0, 0, 0, 0, 0, 52, 0, 0, 0, 1, 0, pHdr.pType, pHdr.pOffset,
    pHdr.pVaddr, 0, pHdr.pFilesz, pHdr.pMemsz, 0, 0]

def elfFile (pHdr : Elf32Phdr) : FileRead := wordsFile (elfWords pHdr)

def blankScratch : Scratch where
  elfHeader _ := 0
  pHdr _ _ := 0
  new _ _ := some fun _ => 0

/-- The child of `forkMachine` loads the file. -/
def loadOnFork (file : FileRead) : Outcome × Option ProcessType × Machine :=
  loadElf counting blankScratch (some ⟨12288, 0x8000000, 0x10000000⟩)
    (some file) forkMachine

theorem loadOnFork_eq (file : FileRead)
    (helf : (elfHeader blankScratch file).isElf = true) :
    loadOnFork file = loadReset counting blankScratch file
      ⟨12288, 0x8000000, 0x10000000⟩ forkMachine := by
  have hblank := resetAddressSpace_blank counting forkMachine_window
    (by decide) (some 12288) fun _ => forkMachine_blank
  rw [loadOnFork, loadElf_eq counting _ _ helf, hblank]

theorem loadElf_confined_above :
    ∃ new, Confined forkMachine
      (loadOnFork (elfFile ⟨PT_LOAD, 0, 0x8000000, 4, 4⟩)).2.2 [8192, 12288]
      12288 new := by
  have hnull : Event.alloc true 0 ∉
      (loadOnFork (elfFile ⟨PT_LOAD, 0, 0x8000000, 4, 4⟩)).2.2.log := by
    rw [loadOnFork_eq _ (by decide +kernel)]
    decide +kernel
  have hmem : (⟨12288, 0x8000000, 0x10000000⟩ : ProcessType).ptable ∈
      [8192, 12288] := by decide
  have haccepted := (resetAddressSpace_spec counting forkMachine_owned
    hmem).1.accepted counting_takesBack
  rw [loadOnFork] at hnull ⊢
  exact (loadElf_confined counting_fresh forkMachine_owned hmem).1
    ⟨by decide +kernel, haccepted, .of_notMem hnull⟩

/-- Four bytes of the file are copied to the address 0x100000 of the window,
though the allocation there fails. -/
theorem loadElf_window_unconfined :
    counting.Fresh ∧ counting.TakesBack ∧
      Owned forkMachine 4096 [8192, 12288] ∧
      Event.alloc true 0 ∉
        (loadOnFork (elfFile ⟨PT_LOAD, 0, 0x100000, 4, 4⟩)).2.2.log ∧
      (loadOnFork (elfFile ⟨PT_LOAD, 0, 0x100000, 4, 4⟩)).1 = .failed ∧
      (loadOnFork (elfFile ⟨PT_LOAD, 0, 0x100000, 4, 4⟩)).2.2.mem 0x100000 ≠
        forkMachine.mem 0x100000 ∧
      ¬ ∃ new, Confined forkMachine
        (loadOnFork (elfFile ⟨PT_LOAD, 0, 0x100000, 4, 4⟩)).2.2 [8192, 12288]
        12288 new := by
  have heq := loadOnFork_eq (elfFile ⟨PT_LOAD, 0, 0x100000, 4, 4⟩)
    (by decide +kernel)
  refine ⟨counting_fresh, counting_takesBack, forkMachine_owned, ?_, ?_, ?_,
    ?_⟩
  · rw [heq]
    decide +kernel
  · rw [heq]
    decide +kernel
  · rw [heq]
    decide +kernel
  rintro ⟨new, hconfined⟩
  rw [loadOnFork] at hconfined
  have hfree := loadElf_windowFree counting_fresh forkMachine_owned (by decide)
    (by decide +kernel) hconfined.log hconfined.copies
  revert hfree
  decide +kernel

/-! ## A page table that is refused -/

/-- Pages for processes only. -/
def tableless : PageManager where
  malloc
    | _, true => 0
    | M, false => counting.malloc M false
  free _ _ := true

theorem tableless_fresh : tableless.Fresh := by
  refine ⟨fun M kernel => ?_, fun M kernel => ?_, fun M kernel h => ?_⟩ <;>
    cases kernel <;> dsimp only [tableless] at *
  · exact counting_fresh.aligned M false
  · exact Nat.dvd_zero 4096
  · exact counting_fresh.bounded M false
  · exact Nat.zero_lt_succ _
  · exact counting_fresh.unused M false h
  · exact absurd rfl h

/-- The first word of the physical memory reads as the entry of a page. -/
def lowWord : Machine :=
  { forkMachine with mem := writeEntry forkMachine.mem 0 (.ofFlat 0x100003) }

theorem lowWord_same {t : Nat} (ht : Kernel forkMachine.log t) :
    SamePage 4096 forkMachine.mem lowWord.mem t :=
  samePage_writeEntry (q := 0) (k := 0) (forkMachine_window.aligned t ht)
    (by decide) ht.1 (by decide)

theorem lowWord_owned : Owned lowWord 4096 [8192, 12288] := by
  have hs := forkMachine_spaces
  have hmem : ∀ t, Kernel forkMachine.log t →
      SamePage 4096 forkMachine.mem lowWord.mem t := fun _ => lowWord_same
  exact forkMachine_owned.sameMaps (hs.congr hmem (fun _ ht => ht)
    hs.window.aligned fun _ hu hk => ⟨hu, hk⟩) fun _ hq _ h₁ h₂ _ hp =>
      hs.toTables.pteAt_congr hq h₁ h₂ hp hmem

/-- The null page is taken for the table, and the contents go where its first
word says. -/
example :
    tableless.Fresh ∧ tableless.TakesBack ∧ Owned lowWord 4096 [8192, 12288] ∧
      WindowFree blankScratch (elfFile ⟨PT_LOAD, 0, 0x8000000, 4, 4⟩) ∧
      ¬ ∃ new, Confined lowWord (loadElf tableless blankScratch
        (some ⟨12288, 0x8000000, 0x10000000⟩)
        (some (elfFile ⟨PT_LOAD, 0, 0x8000000, 4, 4⟩)) lowWord).2.2
        [8192, 12288] 12288 new := by
  have hblank : ∀ d, 32 ≤ d → d < 1024 →
      (readEntry lowWord.mem (12288 + 4 * d)).presence = false := by
    intro d h₁ h₂
    have hsame : SamePage 4096 forkMachine.mem lowWord.mem 12288 :=
      lowWord_same (by decide)
    rw [readEntry_of_samePage hsame h₂]
    exact forkMachine_blank h₁ h₂
  rw [loadElf_eq tableless _ _ (by decide +kernel), resetAddressSpace_blank
    tableless lowWord_owned.spaces.window (by decide) (some 12288) hblank]
  refine ⟨tableless_fresh, fun _ _ _ => rfl, lowWord_owned, by decide +kernel,
    fun ⟨new, h⟩ => ?_⟩
  have hkept := h.memory 0x100000 (by decide)
    (fun hkernel => absurd hkernel.1 (by decide +kernel))
    (fun hgiven => absurd (h.log ▸ List.mem_append_left _ hgiven.2)
      (by decide +kernel : Event.alloc false 0x100000 ∉ _)) 0 (by decide)
  revert hkept
  decide +kernel

end Iposix.Elf
