import Iposix.Elf.FileNode
import Iposix.Proofs.ElfImage
import Iposix.Proofs.OpenLifetime
import Iposix.Proofs.Placement

/-!
# What a failed load leaves

A load that fails should leave its caller as it was. It does so as long as it
has not found a file. Behind the open there are two ways to lose something: the
way out for files of another format does not close the node, and all later ones
come after the address space was reset. What a process had mapped is then
mapped only where a header has asked for the page anew.
-/

namespace Iposix.Fs.Vfs

open Iposix.Lib

variable {s t : Vfs} {sub : Subnodes} {name : Path} {n : Nat}

/-- How often the node counts as opened; a node that is not open under its path
has no uses. -/
def useCount (s : Vfs) (n : Nat) : Nat :=
  if s.openNodes (s.nodes n).path = some n then (s.nodes n).uses else 0

theorem useCount_of_open (h : s.openNodes (s.nodes n).path = some n) :
    s.useCount n = (s.nodes n).uses := if_pos h

theorem useCount_of_not (h : s.openNodes (s.nodes n).path ≠ some n) :
    s.useCount n = 0 := if_neg h

theorem useCount_setUses (h : s.openNodes (s.nodes n).path = some n)
    (uses : Nat) : (s.setUses n uses).useCount n = uses := by
  have hopen : (s.setUses n uses).openNodes ((s.setUses n uses).nodes n).path =
      some n := by
    rw [setUses_path]
    exact h
  rw [useCount_of_open hopen, setUses_self]

/-- An open counts one use, of those the node was found with. -/
theorem openNode_uses (hwf : s.Wf) (hregular : Session.OpenRegular s sub name)
    (h : s.openNode sub name = (t, some n)) :
    ∃ uses, t.openNodes (t.nodes n).path = some n ∧
      (t.nodes n).uses = uses + 1 ∧
      s.useCount n =
        if s.openNodes (t.nodes n).path = some n then uses else 0 := by
  generalize hcall : s.resolve sub name = call
  obtain ⟨u, r⟩ := call
  obtain ⟨hgrown, hreached⟩ := resolve_spec hwf hcall
  simp only [openNode, hcall] at h
  rw [Session.OpenRegular, hcall] at hregular
  cases r with
  | none => cases h
  | some m =>
      cases h
      obtain ⟨hlt, hne, _⟩ := hreached n rfl
      refine ⟨(u.nodes n).uses, ?_, ?_, ?_⟩
      · rw [open_opened hne, open_path, Function.update_self]
      · rw [open_eq hne]
        show ((u.setUses n _).nodes n).uses = _
        rw [setUses_self]
        exact u32_of_lt hregular.1
      · rw [useCount, open_path]
        by_cases hold : n < s.next
        · rw [hgrown.old n hold]
        · -- a new node was not open
          have hnew : ∀ p, s.openNodes p ≠ some n := fun p hp =>
            hold (hwf.opened p n hp).1
          rw [if_neg (hnew _), if_neg (hnew _)]

theorem useCount_openNode (hwf : s.Wf) (hregular : Session.OpenRegular s sub name)
    (h : s.openNode sub name = (t, some n)) : s.useCount n < t.useCount n := by
  obtain ⟨uses, hopen, huses, hcount⟩ := openNode_uses hwf hregular h
  rw [hcount, useCount_of_open hopen, huses]
  split <;> omega

/-- A close takes the use back, unless it was the node's first though the node
had some. -/
theorem useCount_closeNode (hwf : s.Wf) (hregular : Session.OpenRegular s sub name)
    (h : s.openNode sub name = (t, some n)) :
    (t.closeNode n).useCount n = s.useCount n ↔
      (s.openNodes (t.nodes n).path = some n ∨ (t.nodes n).uses = 1) := by
  obtain ⟨uses, hopen, huses, hcount⟩ := openNode_uses hwf hregular h
  rw [hcount]
  by_cases hlast : (t.nodes n).uses ≤ 1
  · have hclosed : (t.closeNode n).openNodes
        ((t.closeNode n).nodes n).path ≠ some n := by
      rw [closeNode_path, closeNode_last hlast hopen]
      dsimp only
      rw [Function.update_self]
      exact (Option.some_ne_none n).symm
    rw [useCount_of_not hclosed]
    refine ⟨fun _ => .inr (by omega), fun _ => ?_⟩
    split <;> omega
  · rw [closeNode_used (by omega), useCount_setUses hopen]
    split
    next hold => exact ⟨fun _ => .inl hold, fun _ => by omega⟩
    next hnew =>
      refine ⟨fun heq => absurd heq (by omega), fun hor => ?_⟩
      rcases hor with hold | hone
      · exact absurd hold hnew
      · omega

end Iposix.Fs.Vfs

namespace Iposix.Elf

open Iposix.Lib
open Iposix.Vm
open Iposix.Fs

variable {mm : PageManager} {M M' M₀ : Machine} {dm ptable : Nat}
  {dirs : List Nat} {new : List Event} {scratch : Scratch} {file : FileRead}
  {process process' : ProcessType} {files : Nat → FileRead} {sub : Subnodes}
  {fileName : Path} {s t : Vfs} {node i n : Nat} {pHdr : Elf32Phdr}

/-! ## The node and the rest -/

/-- What a process has is as it was. -/
structure Unchanged (process process' : ProcessType) (M M' : Machine) :
    Prop where
  heapTop : process'.heapTop = process.heapTop
  translate : ∀ v, v < 4294967296 →
    translate M'.mem process'.ptable v = translate M.mem process.ptable v
  contents : ∀ v, v < 4294967296 →
    readByte M'.mem process'.ptable v = readByte M.mem process.ptable v

theorem Unchanged.refl (process : ProcessType) (M : Machine) :
    Unchanged process process M M :=
  ⟨rfl, fun _ _ => rfl, fun _ _ => rfl⟩

/-- If the load fails, the caller is as it was, and the node of the file has
the uses it had. -/
def FailsCleanly (mm : PageManager) (scratch : Scratch) (files : Nat → FileRead)
    (sub : Subnodes) (fileName : Path) (curProcess : Option ProcessType)
    (M : Machine) (s : Vfs) : Prop :=
  let result := loadElfFile mm scratch files sub fileName curProcess M s
  result.1 = .failed →
    (∀ process, curProcess = some process →
      ∃ process', result.2.1 = some process' ∧
        Unchanged process process' M result.2.2.1) ∧
    ∀ node, (s.openNode sub fileName).2 = some node →
      result.2.2.2.useCount node = s.useCount node

/-- With the node found, the call is `loadElf` of its file, and a close behind
the loop over the headers. -/
theorem loadElfFile_eq (mm : PageManager) (scratch : Scratch)
    (files : Nat → FileRead) (process : ProcessType) (M : Machine)
    (h : s.openNode sub fileName = (t, some node)) :
    loadElfFile mm scratch files sub fileName (some process) M s =
      let result := loadElf mm scratch (some process) (some (files node)) M
      (result.1, result.2.1, result.2.2,
        if (elfHeader scratch (files node)).isElf ∧ result.1 ≠ .died then
          t.closeNode node
        else t) := by
  rw [loadElfFile]
  dsimp only
  rw [h]
  cases helf : (elfHeader scratch (files node)).isElf with
  | false =>
      rw [loadElf]
      dsimp only
      rw [helf]
      rfl
  | true =>
      rw [loadElf_eq mm process M helf, loadReset]
      dsimp only
      rw [helf]
      rw [Nat.mul_zero, Nat.add_zero]
      generalize loadSegments mm scratch (files node)
        (elfHeader scratch (files node)).ePhnum 0
        (elfHeader scratch (files node)).ePhoff true
        { process with heapTop := 0 }
        (resetAddressSpace mm M (some process.ptable) process.ptable).2 = r
      obtain ⟨_ | _ | _, process', M'⟩ := r
      · rfl
      · rfl
      · dsimp only
        by_cases hstack : (!(allocateStack mm process' M').1) = true
        · simp only [if_pos hstack]
          rfl
        · simp only [if_neg hstack]
          rfl

/-- As long as no file was found nothing is changed. -/
theorem failsCleanly_of_none (mm : PageManager) (scratch : Scratch)
    (files : Nat → FileRead) (curProcess : Option ProcessType) (M : Machine)
    (h : curProcess = none ∨ (s.openNode sub fileName).2 = none) :
    FailsCleanly mm scratch files sub fileName curProcess M s := by
  intro _
  cases curProcess with
  | none => exact ⟨fun _ hprocess => (nomatch hprocess), fun _ _ => rfl⟩
  | some process =>
      have hnone := h.resolve_left fun hprocess => (nomatch hprocess)
      rw [hnone]
      refine ⟨?_, fun _ hnode => (nomatch hnode)⟩
      rintro _ ⟨⟩
      generalize hcall : s.openNode sub fileName = call at hnone
      obtain ⟨t, r⟩ := call
      obtain rfl : r = none := hnone
      rw [loadElfFile]
      dsimp only
      rw [hcall]
      exact ⟨process, rfl, .refl process M⟩

/-- How a file of the format fails: the headers are loaded, and either one of
them has failed or there is no page for the stack. -/
theorem loadElf_failed (helf : (elfHeader scratch file).isElf = true)
    (h : (loadElf mm scratch (some process) (some file) M).1 = .failed) :
    ∃ ok process' M', loadSegments mm scratch file
        (elfHeader scratch file).ePhnum 0
        ((elfHeader scratch file).ePhoff + 32 * 0) true
        { process with heapTop := 0 }
        (resetAddressSpace mm M (some process.ptable) process.ptable).2 =
        (some ok, process', M') ∧
      (loadElf mm scratch (some process) (some file) M).2.1 = some process' ∧
      ((loadElf mm scratch (some process) (some file) M).2.2 = M' ∨
        (loadElf mm scratch (some process) (some file) M).2.2 =
            (vmalloc mm M' INITIAL_ELF_STACKSIZE process'.ptable
              INITIAL_STACK_BASE).2 ∧
          (vmalloc mm M' INITIAL_ELF_STACKSIZE process'.ptable
            INITIAL_STACK_BASE).1 ≠ INITIAL_STACK_BASE) := by
  rw [loadElf_eq mm process M helf] at h ⊢
  rcases hsegments : loadSegments mm scratch file
    (elfHeader scratch file).ePhnum 0
    ((elfHeader scratch file).ePhoff + 32 * 0) true
    { process with heapTop := 0 }
    (resetAddressSpace mm M (some process.ptable) process.ptable).2 with
    ⟨r, process', M'⟩
  rcases loadReset_cases mm scratch file process _ hsegments with
    ⟨_, heq⟩ | ⟨rfl, heq⟩ | ⟨rfl, hret, heq⟩ | ⟨_, _, heq⟩ <;> rw [heq] at h ⊢
  · cases h
  · exact ⟨false, process', M', rfl, rfl, .inl rfl⟩
  · exact ⟨true, process', M', rfl, rfl, .inr ⟨rfl, hret⟩⟩
  · cases h

/-! ## The top of the heap -/

/-- The top of the heap behind the first headers. -/
def heapTopOf (scratch : Scratch) (file : FileRead) : Nat → Nat
  | 0 => 0
  | i + 1 =>
      heapTopAfter (heapTopOf scratch file i) (programHeader scratch file i)

theorem segment_heapTop {ok : Bool}
    (h : segment mm scratch file i pHdr process M = (some ok, process', M')) :
    process'.heapTop = heapTopAfter process.heapTop pHdr := by
  rw [← allocateArea_heapTop mm process M pHdr]
  rcases harea : allocateArea mm process M pHdr.pVaddr pHdr.pMemsz with
    ⟨allocated, process₁, M₁⟩
  rcases segment_cases mm scratch file i pHdr process M harea with
    ⟨_, ok, heq, _⟩ | ⟨_, _, heq⟩ | ⟨_, buffer, _, heq⟩ <;> rw [h] at heq <;>
    cases heq <;> rfl

theorem loadElf_failed_heapTop (helf : (elfHeader scratch file).isElf = true)
    (h : (loadElf mm scratch (some process) (some file) M).1 = .failed) :
    ∃ process',
      (loadElf mm scratch (some process) (some file) M).2.1 = some process' ∧
        process'.heapTop =
          heapTopOf scratch file (elfHeader scratch file).ePhnum := by
  obtain ⟨ok, process', M', hsegments, heq, _⟩ := loadElf_failed helf h
  refine ⟨process', heq, ?_⟩
  refine loadSegments_rule (I := fun i process _ =>
    process.heapTop = heapTopOf scratch file i)
    (fun i _ process M ok process' M' hsegment htop => ?_) _ 0 true _ _ ok
    process' M' (Nat.zero_add _) rfl hsegments
  rw [segment_heapTop hsegment, htop, heapTopOf]

/-! ## The pages -/

/-- The header asks for this page. -/
def Elf32Phdr.Covers (pHdr : Elf32Phdr) (n : Nat) : Prop :=
  pHdr.pVaddr ≠ 0 ∧ pHdr.pVaddr / 4096 ≤ n ∧
    n < pHdr.pVaddr / 4096 + pagesFor pHdr.pMemsz

instance (pHdr : Elf32Phdr) (n : Nat) : Decidable (pHdr.Covers n) :=
  inferInstanceAs (Decidable (_ ∧ _))

/-- The page with this number is above the window and mapped. -/
def MappedAbove (m : Nat → UInt8) (ptable n : Nat) : Prop :=
  32768 ≤ n ∧ n < 1048576 ∧ ¬ Unmapped m ptable n

theorem mappedAbove_iff (h : Spaces M dm dirs) (hp : ptable ∈ dirs) :
    MappedAbove M.mem ptable n ↔
      32768 ≤ n ∧ n < 1048576 ∧ ∃ e, pteOf M.mem ptable n = some e := by
  refine and_congr_right fun hlow => and_congr_right fun hn => ?_
  rw [h.toTables.unmapped_iff hp hlow, ← Option.ne_none_iff_exists']
  exact ⟨fun hno hnone => hno ⟨hn, hnone⟩, fun hne hno => hne hno.2⟩

theorem mappedAbove_congr (hsame : SameMaps M M' dirs) (hs : Spaces M dm dirs)
    (hs' : Spaces M' dm dirs) (hp : ptable ∈ dirs) :
    MappedAbove M'.mem ptable n ↔ MappedAbove M.mem ptable n := by
  rw [mappedAbove_iff hs hp, mappedAbove_iff hs' hp]
  refine and_congr_right fun hlow => and_congr_right fun hn => ?_
  rw [pteOf, pteOf, hsame ptable hp _ (by omega) (by omega) _
    (Nat.mod_lt _ (by decide))]

/-- What is mapped behind an allocation was mapped, or the allocation was asked
for it. -/
theorem vmalloc_mappedAbove (hfresh : mm.Fresh) (hs : Spaces M dm dirs)
    (hp : ptable ∈ dirs) (size : Nat) {v : Nat} (hv : v < 4294967296)
    (hnull : Event.alloc true 0 ∉ (vmalloc mm M size ptable v).2.log)
    (h : MappedAbove (vmalloc mm M size ptable v).2.mem ptable n) :
    MappedAbove M.mem ptable n ∨
      v ≠ 0 ∧ v / 4096 ≤ n ∧ n < v / 4096 + pagesFor size := by
  obtain ⟨hext, hserved⟩ := vmalloc_spec hfresh hs hp size v
    (.of_notMem hnull)
  rcases hserved with ⟨_, hsame⟩ | ⟨_, hwin, _, frame, hplaced⟩
  · exact .inl ((mappedAbove_congr hsame hs hext.spaces hp).1 h)
  · obtain ⟨hlow, hn, e, he⟩ := (mappedAbove_iff hext.spaces hp).1 h
    rw [number_eq hv] at hplaced
    rcases hplaced.cases hp (by omega) (by omega) (Nat.mod_lt _ (by decide)) he
      with ⟨_, i, hi, hnumber, _⟩ | he₀
    · refine .inr ⟨?_, by omega, by omega⟩
      rintro rfl
      exact absurd hwin (by decide)
    · exact .inl ((mappedAbove_iff hs hp).2 ⟨hlow, hn, e, he₀⟩)

/-- A copy that stays out of the window maps nothing. -/
theorem copyIn_sameMaps (hM : Owned M dm dirs) (hp : ptable ∈ dirs)
    {v size : Nat} (hv : v < 4294967296)
    (hwin : size ≠ 0 → v ≠ 0 → 134217728 ≤ v) (buffer : Nat → UInt8) :
    SameMaps M (copyIn M ptable v (some buffer) size false).2.1 dirs := by
  rcases copyIn_above hM hp hv hwin buffer with hsame | ⟨hv', _, hend, hcopy⟩
  · rw [hsame]
    exact .refl M dirs
  · exact hcopy.sameMaps hM.spaces hp hv' hend

theorem segment_mappedAbove (hfresh : mm.Fresh)
    (h : Filling M₀ M dm dirs process.ptable new)
    (hp : process.ptable ∈ dirs) (hv : pHdr.pVaddr < 4294967296)
    (hsize : pHdr.pMemsz < 4294967296)
    (hsafe : scratch.Delivers i pHdr → ¬ pHdr.InWindow) {r : Option Bool}
    (hseg : segment mm scratch file i pHdr process M = (r, process', M'))
    (hnull : Event.alloc true 0 ∉ M'.log)
    (hmapped : MappedAbove M'.mem process.ptable n) :
    MappedAbove M.mem process.ptable n ∨ pHdr.Covers n := by
  have hmachine := allocateArea_machine mm process M pHdr.pVaddr pHdr.pMemsz
  have hptable := allocateArea_ptable mm process M pHdr.pVaddr pHdr.pMemsz
  have hfilling := h.vmalloc hfresh hp (u32 pHdr.pMemsz) pHdr.pVaddr
  have halloc := vmalloc_mappedAbove (n := n) hfresh h.owned.spaces hp
    (u32 pHdr.pMemsz) hv
  have hdone := segment_filling hfresh scratch file i h hp hv hsafe
  rw [hseg] at hdone
  rw [u32_of_lt hsize] at hmachine hfilling halloc
  rcases harea : allocateArea mm process M pHdr.pVaddr pHdr.pMemsz with
    ⟨allocated, process₁, M₁⟩
  rw [harea] at hmachine hptable
  rw [← hmachine] at hfilling halloc
  rcases segment_cases mm scratch file i pHdr process M harea with
    ⟨_, ok, heq, _⟩ | ⟨_, _, heq⟩ | ⟨hload, buffer, hnew, heq⟩ <;>
    rw [hseg] at heq <;> cases heq
  · exact halloc hnull hmapped
  · exact halloc hnull hmapped
  dsimp only at hptable
  rw [hptable] at hmapped hnull hdone
  have hnull' : Event.alloc true 0 ∉ M₁.log := fun hmem =>
    hnull ((copyIn_suffix hv _ _ _ _).subset hmem)
  obtain ⟨_, hfilled⟩ := hfilling (.of_notMem hnull')
  obtain ⟨_, hdone⟩ := hdone (.of_notMem hnull)
  have habove := Elf32Phdr.above_of_not_inWindow
    (hsafe fun _ => by rw [hnew]; rfl) hload
  exact halloc hnull' ((mappedAbove_congr (copyIn_sameMaps hfilled.owned hp hv
    habove _) hfilled.owned.spaces hdone.owned.spaces hp).1 hmapped)

/-- A reset leaves nothing above the window. -/
theorem resetAddressSpace_translate (htakes : mm.TakesBack)
    (h : Owned M dm dirs) (hp : ptable ∈ dirs) {v : Nat} (hv : 32 ≤ dir v) :
    translate (resetAddressSpace mm M (some ptable) ptable).2.mem ptable v =
      none := by
  obtain ⟨hreleased, hblank⟩ := resetAddressSpace_spec mm h hp
  rw [hreleased.owned.spaces.toTables.translate_eq hp hv,
    hblank (hreleased.success (hreleased.accepted htakes)) _ hv (dir_lt v) _ (page_lt v)]
  rfl

/-- The pages that are mapped behind the first headers are those the headers
have asked for. -/
def Asked (scratch : Scratch) (file : FileRead) (m : Nat → UInt8)
    (ptable i : Nat) : Prop :=
  ∀ n, MappedAbove m ptable n →
    ∃ k, k < i ∧ (programHeader scratch file k).Covers n

theorem Asked.start (htakes : mm.TakesBack) (h : Owned M dm dirs)
    (hp : ptable ∈ dirs) :
    Asked scratch file
      (resetAddressSpace mm M (some ptable) ptable).2.mem ptable 0 := by
  rintro n ⟨hlow, hn, hmapped⟩
  refine absurd ⟨hn, resetAddressSpace_translate htakes h hp ?_⟩ hmapped
  rw [dir_number hn]
  omega

/-- Where the loop over the headers stands. -/
structure Standing (scratch : Scratch) (file : FileRead) (M₀ : Machine)
    (dm : Nat) (dirs : List Nat) (ptable i : Nat) (process : ProcessType)
    (M : Machine) : Prop where
  same : process.ptable = ptable
  delivers : ∀ j, j < i → scratch.Delivers j (programHeader scratch file j)
  asked : Event.alloc true 0 ∉ M.log →
    (∃ new, Filling M₀ M dm dirs ptable new) ∧
      Asked scratch file M.mem ptable i

theorem segment_standing (hfresh : mm.Fresh) (hp : ptable ∈ dirs)
    (hfree : WindowFree scratch file)
    (helf : (elfHeader scratch file).isElf = true)
    (hi : i < (elfHeader scratch file).ePhnum) {ok : Bool}
    (hseg : segment mm scratch file i (programHeader scratch file i) process
      M = (some ok, process', M'))
    (h : Standing scratch file M₀ dm dirs ptable i process M) :
    Standing scratch file M₀ dm dirs ptable (i + 1) process' M' := by
  obtain ⟨rfl, hdelivers, hasked⟩ := h
  have hv := pVaddr_lt scratch file i
  have hhere : scratch.Delivers i (programHeader scratch file i) :=
    (segment_isSome mm scratch file i _ process M).1 (by rw [hseg]; rfl)
  have hall : ∀ j, j < i + 1 →
      scratch.Delivers j (programHeader scratch file j) := by
    intro j hj
    rcases Nat.lt_succ_iff_lt_or_eq.1 hj with hlt | rfl
    · exact hdelivers j hlt
    · exact hhere
  have hsafe : ¬ (programHeader scratch file i).InWindow :=
    hfree helf i hi fun j hj _ => hall j (Nat.lt_succ_of_le hj)
  have hptable := segment_ptable mm scratch file i (programHeader scratch file i)
    process M
  have hsuffix := segment_suffix hfresh scratch file i _ hv process M
  rw [hseg] at hptable hsuffix
  refine ⟨hptable, hall, fun hnull => ?_⟩
  obtain ⟨⟨new, hfilling⟩, hasked⟩ :=
    hasked fun hmem => hnull (hsuffix.subset hmem)
  have hdone := segment_filling hfresh scratch file i hfilling hp hv
    fun _ => hsafe
  rw [hseg] at hdone
  refine ⟨hdone (.of_notMem hnull), fun n hn => ?_⟩
  rcases segment_mappedAbove hfresh hfilling hp hv (load_lt _ 4 20)
    (fun _ => hsafe) hseg hnull hn with hold | hcovers
  · obtain ⟨k, hk, hcovers⟩ := hasked n hold
    exact ⟨k, Nat.lt_succ_of_lt hk, hcovers⟩
  · exact ⟨i, Nat.lt_succ_self i, hcovers⟩

/-- Behind a failed load the process has only pages the headers have asked
for. -/
theorem loadElf_failed_asked (hfresh : mm.Fresh) (htakes : mm.TakesBack)
    (h : Owned M dm dirs) (hp : process.ptable ∈ dirs)
    (hfree : WindowFree scratch file)
    (helf : (elfHeader scratch file).isElf = true)
    (hfailed : (loadElf mm scratch (some process) (some file) M).1 = .failed)
    (hnull : Event.alloc true 0 ∉
      (loadElf mm scratch (some process) (some file) M).2.2.log) :
    ∃ process',
      (loadElf mm scratch (some process) (some file) M).2.1 = some process' ∧
        process'.ptable = process.ptable ∧
        Asked scratch file
          (loadElf mm scratch (some process) (some file) M).2.2.mem
          process.ptable (elfHeader scratch file).ePhnum := by
  obtain ⟨ok, process', M', hsegments, heq, hend⟩ :=
    loadElf_failed helf hfailed
  have hstart : Standing scratch file M dm dirs process.ptable 0
      { process with heapTop := 0 }
      (resetAddressSpace mm M (some process.ptable) process.ptable).2 :=
    ⟨rfl, fun j hj => absurd hj (Nat.not_lt_zero j),
      fun _ => ⟨Filling.start h hp ((resetAddressSpace_spec mm h hp).1.accepted
        htakes), .start htakes h hp⟩⟩
  obtain ⟨hsame, _, hasked⟩ := loadSegments_rule
    (fun i hi _ _ _ _ _ => segment_standing hfresh hp hfree helf hi) _ 0 true _
    _ ok process' M' (Nat.zero_add _) hstart hsegments
  refine ⟨process', heq, hsame, ?_⟩
  rw [hsame] at hend
  rcases hend with hmachine | ⟨hmachine, hret⟩ <;> rw [hmachine] at hnull ⊢
  · exact (hasked hnull).2
  · -- a stack that could not be given is not there
    obtain ⟨⟨_, hfilling⟩, hasked⟩ := hasked fun hmem =>
      hnull ((vmalloc_logged hfresh _ _ _ _).suffix.subset hmem)
    have hs := hfilling.owned.spaces
    obtain ⟨hext, hserved⟩ := vmalloc_spec hfresh hs hp _ _
      (.of_notMem hnull)
    rcases hserved with ⟨_, hsame⟩ | ⟨heq, _⟩
    · exact fun n hn =>
        hasked n ((mappedAbove_congr hsame hs hext.spaces hp).1 hn)
    · exact absurd heq hret

/-! ## The whole call -/

/-- What the process has is what the headers of the file make of an empty
address space. -/
structure Rebuilt (scratch : Scratch) (file : FileRead) (process : ProcessType)
    (M : Machine) : Prop where
  isElf : (elfHeader scratch file).isElf = true
  heapTop : process.heapTop =
    heapTopOf scratch file (elfHeader scratch file).ePhnum
  pages : Asked scratch file M.mem process.ptable
    (elfHeader scratch file).ePhnum

/-- A failed load of a file that was found. -/
theorem rebuilt_of_failsCleanly (hfresh : mm.Fresh) (htakes : mm.TakesBack)
    (h : Owned M dm dirs) (hp : process.ptable ∈ dirs) (hwf : s.Wf)
    (hregular : Session.OpenRegular s sub fileName)
    (hopen : s.openNode sub fileName = (t, some node))
    (hfree : WindowFree scratch (files node))
    (hnull : Event.alloc true 0 ∉ (loadElfFile mm scratch files sub fileName
      (some process) M s).2.2.1.log)
    (hfailed : (loadElfFile mm scratch files sub fileName (some process) M
      s).1 = .failed)
    (hclean : FailsCleanly mm scratch files sub fileName (some process) M s) :
    Rebuilt scratch (files node) process M := by
  obtain ⟨hprocess, hnode⟩ := hclean hfailed
  obtain ⟨process₁, heq₁, hunchanged⟩ := hprocess process rfl
  have huses := hnode node (by rw [hopen])
  have hless := Vfs.useCount_openNode hwf hregular hopen
  rw [loadElfFile_eq mm scratch files process M hopen] at *
  dsimp only at hnull hfailed heq₁ hunchanged huses
  have helf : (elfHeader scratch (files node)).isElf = true := by
    by_contra hno
    rw [if_neg fun hboth => hno hboth.1] at huses
    omega
  obtain ⟨process₂, heq₂, htop⟩ := loadElf_failed_heapTop helf hfailed
  obtain ⟨process₃, heq₃, hsame, hasked⟩ := loadElf_failed_asked hfresh htakes h
    hp hfree helf hfailed hnull
  obtain rfl : process₂ = process₁ := Option.some.inj (heq₂.symm.trans heq₁)
  obtain rfl : process₃ = process₂ := Option.some.inj (heq₃.symm.trans heq₂)
  refine ⟨helf, hunchanged.heapTop.symm.trans htop, fun n hn => hasked n ?_⟩
  have htranslate := hunchanged.translate (4096 * n)
    (by have := hn.2.1; omega)
  rw [hsame] at htranslate
  rw [MappedAbove, Unmapped, htranslate]
  exact hn

/-- A file with one header, of a type that is not handled. -/
def unhandledFile : FileRead := elfFile ⟨2, 0, 0, 0, 0⟩

theorem unhandledFile_isElf (scratch : Scratch) :
    (elfHeader scratch unhandledFile).isElf = true := rfl

theorem unhandledFile_ePhnum (scratch : Scratch) :
    (elfHeader scratch unhandledFile).ePhnum = 1 := rfl

theorem unhandledFile_header (scratch : Scratch) :
    programHeader scratch unhandledFile 0 = ⟨2, 0, 0, 0, 0⟩ := by
  have hphoff : (elfHeader scratch unhandledFile).ePhoff = 52 := rfl
  rw [programHeader, hphoff]
  rfl

theorem segment_unhandled (mm : PageManager) (scratch : Scratch)
    (file : FileRead) (process : ProcessType) (M : Machine) :
    segment mm scratch file i ⟨2, 0, 0, 0, 0⟩ process M =
      (some false, process, M) := by
  have hheap : ¬ process.heapTop < u64 (0 + 0 : Nat) := Nat.not_lt_zero _
  rw [segment, allocateArea]
  dsimp only
  rw [if_neg hheap, vmalloc, if_pos rfl]
  rfl

/-- Loading it resets the address space, and that is all. -/
theorem loadElf_unhandled (mm : PageManager) (scratch : Scratch)
    (process : ProcessType) (M : Machine) :
    loadElf mm scratch (some process) (some unhandledFile) M =
      (.failed, some { process with heapTop := 0 },
        (resetAddressSpace mm M (some process.ptable) process.ptable).2) := by
  rw [loadElf_eq mm process M (unhandledFile_isElf scratch), loadReset,
    unhandledFile_ePhnum, loadSegments_succ, unhandledFile_header,
    segment_unhandled]
  rfl

/-- Until a file is found nothing is lost. Once one is, some contents of it and
some state of the process make the load fail with something lost, and whatever
they are, a failed load loses something unless the headers ask for all the
process had. -/
theorem failsCleanly_iff (mm : PageManager) (scratch : Scratch) (sub : Subnodes)
    (fileName : Path) (M : Machine) (s : Vfs) :
    (∀ ptable, (∀ files process, process.ptable = ptable →
        FailsCleanly mm scratch files sub fileName (some process) M s) ↔
      (s.openNode sub fileName).2 = none) ∧
    (∀ files curProcess,
      curProcess = none ∨ (s.openNode sub fileName).2 = none →
        FailsCleanly mm scratch files sub fileName curProcess M s) ∧
    ∀ files process dm dirs t node, mm.Fresh → mm.TakesBack →
      Owned M dm dirs → process.ptable ∈ dirs → s.Wf →
      Session.OpenRegular s sub fileName →
      s.openNode sub fileName = (t, some node) →
      WindowFree scratch (files node) →
      Event.alloc true 0 ∉ (loadElfFile mm scratch files sub fileName
        (some process) M s).2.2.1.log →
      (loadElfFile mm scratch files sub fileName (some process) M s).1 =
        .failed →
      FailsCleanly mm scratch files sub fileName (some process) M s →
      Rebuilt scratch (files node) process M := by
  refine ⟨fun ptable => ⟨fun h => ?_, fun hnone files process _ =>
      failsCleanly_of_none mm scratch files (some process) M (.inr hnone)⟩,
    fun files curProcess => failsCleanly_of_none mm scratch files curProcess M,
    fun _ _ _ _ _ _ hfresh htakes howned hp hwf hregular hopen hfree hnull
      hfailed => rebuilt_of_failsCleanly hfresh htakes howned hp hwf hregular
      hopen hfree hnull hfailed⟩
  by_contra hnode
  obtain ⟨node, hnode⟩ := Option.ne_none_iff_exists'.1 hnode
  have hopen : s.openNode sub fileName =
      ((s.openNode sub fileName).1, some node) := by rw [← hnode]
  have hclean := h (fun _ => unhandledFile) ⟨ptable, 1, 0⟩ rfl
  rw [FailsCleanly, loadElfFile_eq mm scratch _ _ M hopen,
    loadElf_unhandled] at hclean
  obtain ⟨process', heq, hunchanged⟩ := (hclean rfl).1 _ rfl
  cases heq
  -- the top of the heap is gone
  exact absurd hunchanged.heapTop Nat.zero_ne_one

/-! ## Two files -/

def pathA : Path := ['/', 'd', 'e', 'v', '/', 'a']

/-- What opening "/dev/a" leaves. -/
def openedA : Vfs := (Processes.devVfs.openNode Session.oneEntry pathA).1

theorem openNode_pathA : Processes.devVfs.openNode Session.oneEntry pathA =
    (openedA, some 2) := by
  have hnode : (Processes.devVfs.openNode Session.oneEntry pathA).2 =
      some 2 := by
    decide +kernel
  rw [openedA, ← hnode]

/-- A process of `forkMachine` loads the file. -/
def loadA (file : FileRead) (process : ProcessType) :
    Outcome × Option ProcessType × Machine × Vfs :=
  loadElfFile counting blankScratch (fun _ => file) Session.oneEntry pathA
    (some process) forkMachine Processes.devVfs

/-- What it is to be clean for that. -/
def CleanA (file : FileRead) (process : ProcessType) : Prop :=
  FailsCleanly counting blankScratch (fun _ => file) Session.oneEntry pathA
    (some process) forkMachine Processes.devVfs

theorem loadA_unhandled (ptable heapTop heapMax : Nat) :
    loadA unhandledFile ⟨ptable, heapTop, heapMax⟩ =
      (.failed, some ⟨ptable, 0, heapMax⟩,
        (resetAddressSpace counting forkMachine (some ptable) ptable).2,
        openedA.closeNode 2) := by
  rw [loadA, loadElfFile_eq counting blankScratch _ _ forkMachine
    openNode_pathA, loadElf_unhandled]
  rfl

/-- A process with nothing to lose. -/
theorem loadA_clean :
    CleanA unhandledFile ⟨12288, 0, 0⟩ ∧
      Rebuilt blankScratch unhandledFile ⟨12288, 0, 0⟩ forkMachine := by
  have hload := loadA_unhandled 12288 0 0
  rw [resetAddressSpace_blank counting forkMachine_window (by decide)
    (some 12288) fun _ => forkMachine_blank] at hload
  have hregular : Session.OpenRegular Processes.devVfs Session.oneEntry
      pathA := by
    decide +kernel
  have hclean : CleanA unhandledFile ⟨12288, 0, 0⟩ := by
    rw [CleanA, FailsCleanly, ← loadA, hload, openNode_pathA]
    refine fun _ => ⟨?_, ?_⟩
    · rintro _ ⟨⟩
      exact ⟨_, rfl, .refl _ forkMachine⟩
    · rintro _ ⟨⟩
      exact (Vfs.useCount_closeNode Processes.devVfs_wf hregular
        openNode_pathA).2 (.inr (by decide +kernel))
  refine ⟨hclean, ?_⟩
  refine (failsCleanly_iff counting blankScratch Session.oneEntry pathA
    forkMachine Processes.devVfs).2.2 (fun _ => unhandledFile) ⟨12288, 0, 0⟩
    4096 [8192, 12288] openedA 2 counting_fresh counting_takesBack
    forkMachine_owned (by decide) Processes.devVfs_wf hregular openNode_pathA
    (by decide +kernel) ?_ ?_ hclean <;> rw [← loadA, hload]
  decide

theorem loadA_unhandled_blank {ptable : Nat} (hp : ptable ∈ [8192, 12288])
    (heapTop heapMax : Nat) :
    ∃ M', loadA unhandledFile ⟨ptable, heapTop, heapMax⟩ =
        (.failed, some ⟨ptable, 0, heapMax⟩, M', openedA.closeNode 2) ∧
      ∀ v, 32 ≤ dir v → translate M'.mem ptable v = none :=
  ⟨_, loadA_unhandled ptable heapTop heapMax, fun _ =>
    resetAddressSpace_translate counting_takesBack forkMachine_owned hp⟩

/-- A file of another format stays open, and one of the format costs the
process its page and its heap. -/
theorem loadA_loses :
    ((loadA (wordsFile []) ⟨8192, 0x8000000, 0⟩).1 = .failed ∧
      Processes.devVfs.useCount 2 = 0 ∧
      (loadA (wordsFile []) ⟨8192, 0x8000000, 0⟩).2.2.2.useCount 2 = 1 ∧
      ¬ CleanA (wordsFile []) ⟨8192, 0x8000000, 0⟩) ∧
    (loadA unhandledFile ⟨8192, 0x8000000, 0⟩).1 = .failed ∧
      (loadA unhandledFile ⟨8192, 0x8000000, 0⟩).2.1 = some ⟨8192, 0, 0⟩ ∧
      translate forkMachine.mem 8192 0xFFFFF000 = some 20480 ∧
      translate (loadA unhandledFile ⟨8192, 0x8000000, 0⟩).2.2.1.mem 8192
        0xFFFFF000 = none ∧
      ¬ CleanA unhandledFile ⟨8192, 0x8000000, 0⟩ := by
  have hfailed : (loadA (wordsFile []) ⟨8192, 0x8000000, 0⟩).1 = .failed := by
    decide +kernel
  have huses : Processes.devVfs.useCount 2 = 0 ∧
      (loadA (wordsFile []) ⟨8192, 0x8000000, 0⟩).2.2.2.useCount 2 = 1 := by
    decide +kernel
  have hmapped : translate forkMachine.mem 8192 0xFFFFF000 = some 20480 := by
    decide +kernel
  obtain ⟨M', hload, hgone⟩ :=
    loadA_unhandled_blank (by decide : 8192 ∈ [8192, 12288]) 0x8000000 0
  refine ⟨⟨hfailed, huses.1, huses.2, fun hclean => ?_⟩, ?_⟩
  · have hsame := (hclean hfailed).2 2 (by rw [openNode_pathA])
    replace hsame : (loadA (wordsFile []) ⟨8192, 0x8000000, 0⟩).2.2.2.useCount
      2 = Processes.devVfs.useCount 2 := hsame
    rw [huses.1, huses.2] at hsame
    cases hsame
  · rw [CleanA, FailsCleanly, ← loadA, hload]
    refine ⟨rfl, rfl, hmapped, hgone _ (by decide), fun hclean => ?_⟩
    obtain ⟨process', heq, hunchanged⟩ := (hclean rfl).1 _ rfl
    cases heq
    exact absurd hunchanged.heapTop (by decide)

end Iposix.Elf
