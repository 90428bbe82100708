import Iposix.Lib.Run
import Iposix.Proofs.Mapping
import Iposix.Vm.ProgramBreak

/-!
# The program break law

A call of `sbrk` that reports no error returns the break as it was, moves it by
the increment and leaves all of the memory from the first break on mapped.

The handler does so where a request is positive and lies either in the page the
break is in, which is mapped, or in whole pages from an aligned break on, which
the kernel can give. Everywhere else it does something else: a request for zero
returns null, a negative one arrives as a large positive one, one that needs the
rest of a page and new pages returns the address of the first new page and moves
the break by what was asked for beyond the old one, and one that fails moves the
break nevertheless.
-/

namespace Iposix.Vm

open Iposix.Lib
open Iposix.Fs (ErrorType)

/-- What a call did. -/
structure BreakCall where
  before : Nat
  incr : Int
  returned : Nat
  error : ErrorType

/-- A process that calls `sbrk`, and where its break was at first. -/
structure BreakState where
  first : Nat
  proc : ProcessType
  machine : Machine
  last : Option BreakCall

namespace BreakState

def start (proc : ProcessType) (M : Machine) : BreakState :=
  ⟨proc.heapTop, proc, M, none⟩

def step (mm : PageManager) (s : BreakState) (incr : Int) :
    Option BreakState :=
  let (returned, error, proc, M) := sbrk mm s.proc s.machine incr
  some ⟨s.first, proc, M, some ⟨s.proc.heapTop, incr, returned, error⟩⟩

/-- The bytes from the first break to the break are mapped. -/
def Mapped (s : BreakState) : Prop :=
  ∀ v, s.first ≤ v → v < s.proc.heapTop →
    (translate s.machine.mem s.proc.ptable v).isSome = true

/-- The law, for the last call. -/
def Lawful (s : BreakState) : Prop :=
  ∀ c, s.last = some c → c.error = .none →
    c.returned = c.before ∧ (s.proc.heapTop : Int) = c.before + c.incr ∧
      s.Mapped

/-- The rest of the page the break is in is mapped and is enough. -/
def FitsPage (s : BreakState) (incr : Int) : Prop :=
  s.proc.heapTop % PAGE_SIZE ≠ 0 ∧
    incr ≤ PAGE_SIZE - s.proc.heapTop % PAGE_SIZE ∧
    (translate s.machine.mem s.proc.ptable s.proc.heapTop).isSome = true

/-- The break is where a page begins, and `vmalloc` can put memory there, with
a page for every table it makes. -/
def FitsPages (mm : PageManager) (s : BreakState) (incr : Int) : Prop :=
  s.proc.heapTop % PAGE_SIZE = 0 ∧
    (vmalloc mm s.machine incr.toNat s.proc.ptable s.proc.heapTop).1 ≠ 0 ∧
    Event.alloc true 0 ∉
      (vmalloc mm s.machine incr.toNat s.proc.ptable s.proc.heapTop).2.log

/-- The calls the handler is right for. -/
structure Regular (mm : PageManager) (s : BreakState) (incr : Int) :
    Prop where
  positive : 0 < incr
  bounded : s.proc.heapTop + incr < 4294967296
  fits : s.FitsPage incr ∨ s.FitsPages mm incr

instance (s : BreakState) (incr : Int) : Decidable (s.FitsPage incr) :=
  inferInstanceAs (Decidable (_ ∧ _))

instance (mm : PageManager) (s : BreakState) (incr : Int) :
    Decidable (s.FitsPages mm incr) :=
  inferInstanceAs (Decidable (_ ∧ _))

instance (mm : PageManager) (s : BreakState) (incr : Int) :
    Decidable (Regular mm s incr) :=
  decidable_of_iff
    (0 < incr ∧ s.proc.heapTop + incr < 4294967296 ∧
      (s.FitsPage incr ∨ s.FitsPages mm incr))
    ⟨fun ⟨h₁, h₂, h₃⟩ => ⟨h₁, h₂, h₃⟩, fun h => ⟨h.1, h.2, h.3⟩⟩

variable {mm : PageManager} {s t : BreakState} {dm : Nat} {dirs : List Nat}
  {incr : Int}

/-! ## One call -/

/-- What every call of a regular run keeps. -/
structure Inv (dm : Nat) (dirs : List Nat) (s : BreakState) : Prop where
  spaces : Spaces s.machine dm dirs
  member : s.proc.ptable ∈ dirs
  nonnull : s.proc.heapTop ≠ 0
  mapped : s.Mapped
  lawful : s.Lawful

/-- Only the number of pages matters. -/
theorem vmalloc_congr {M : Machine} {ptable base size size' : Nat}
    (h : pagesFor size = pagesFor size') :
    vmalloc mm M size ptable base = vmalloc mm M size' ptable base := by
  rw [vmalloc, vmalloc, virtualMalloc, virtualMalloc, ← pagesFor, ← pagesFor, h]

/-- A request rounded up to whole pages. -/
theorem pagesFor_round {n : Nat} (h : n + 4096 < 4294967296) :
    pagesFor (u32 (n + PAGE_SIZE -
      (if n % PAGE_SIZE = 0 then PAGE_SIZE else n % PAGE_SIZE) : Nat)) =
      pagesFor n := by
  rw [pagesFor_eq, pagesFor_eq]
  by_cases h₀ : n % PAGE_SIZE = 0
  · rw [if_pos h₀, Nat.add_sub_cancel, u32_of_lt (by omega)]
  · rw [if_neg h₀]
    simp only [PAGE_SIZE] at h₀ ⊢
    rw [u32_of_lt (by omega)]
    omega

theorem Inv.step_page (h : Inv dm dirs s) (hpos : 0 < incr)
    (hbound : s.proc.heapTop + incr < 4294967296) (hfits : s.FitsPage incr) :
    ∃ t, step mm s incr = some t ∧ Inv dm dirs t := by
  obtain ⟨n, rfl⟩ := Int.eq_ofNat_of_zero_le (Int.le_of_lt hpos)
  obtain ⟨hmod, hle, hpage⟩ := hfits
  have hn : u32 n = n := u32_of_lt (by omega)
  have htop : u32 (s.proc.heapTop + n : Nat) = s.proc.heapTop + n :=
    u32_of_lt (by omega)
  have havail : PAGE_SIZE - s.proc.heapTop % PAGE_SIZE ≥ n := by
    simp only [PAGE_SIZE] at hle ⊢
    omega
  have hcall : sbrk mm s.proc s.machine n =
      (s.proc.heapTop, (sbrkAvail s.proc s.machine ⟨n, 0⟩).1,
        { s.proc with heapTop := s.proc.heapTop + n }, s.machine) := by
    rw [sbrk, hn, sbrkCall, if_neg h.nonnull]
    dsimp only
    rw [if_pos (by omega), if_pos hmod, if_pos havail]
    simp only [sbrkAvail, htop]
  have hmapped : ∀ v, s.first ≤ v → v < s.proc.heapTop + n →
      (translate s.machine.mem s.proc.ptable v).isSome = true := by
    intro v h₁ h₂
    rcases Nat.lt_or_ge v s.proc.heapTop with hlt | hge
    · exact h.mapped v h₁ hlt
    · rw [translate_isSome (w := s.proc.heapTop), hpage]
      simp only [PAGE_SIZE] at havail
      omega
  refine ⟨⟨s.first, { s.proc with heapTop := s.proc.heapTop + n }, s.machine,
    some ⟨s.proc.heapTop, n, _, _⟩⟩, by rw [step, hcall], h.spaces, h.member,
    ?_, hmapped, ?_⟩
  · have hne := h.nonnull
    show s.proc.heapTop + n ≠ 0
    omega
  · rintro c hc _
    cases hc
    exact ⟨rfl, Int.natCast_add _ _, hmapped⟩

theorem Inv.step_pages (hfresh : mm.Fresh) (h : Inv dm dirs s)
    (hpos : 0 < incr) (hbound : s.proc.heapTop + incr < 4294967296)
    (hfits : s.FitsPages mm incr) :
    ∃ t, step mm s incr = some t ∧ Inv dm dirs t := by
  obtain ⟨n, rfl⟩ := Int.eq_ofNat_of_zero_le (Int.le_of_lt hpos)
  obtain ⟨hmod, hgot, hnull⟩ := hfits
  rw [Int.toNat_natCast] at hgot hnull
  have hne := h.nonnull
  have haligned : 4096 ≤ s.proc.heapTop := by
    simp only [PAGE_SIZE] at hmod
    omega
  have hn : u32 n = n := u32_of_lt (by omega)
  have htop : u32 (s.proc.heapTop + n : Nat) = s.proc.heapTop + n :=
    u32_of_lt (by omega)
  obtain ⟨hext, hserved⟩ := vmalloc_spec hfresh h.spaces h.member n
    s.proc.heapTop (.of_notMem hnull)
  obtain ⟨hat, _, _, frame, hplaced⟩ := hserved.resolve_left fun hnone =>
    hgot hnone.1
  rw [number_eq (by omega)] at hplaced
  have hcall : sbrk mm s.proc s.machine n =
      (s.proc.heapTop, .none,
        { s.proc with heapTop := s.proc.heapTop + n },
        (vmalloc mm s.machine n s.proc.ptable s.proc.heapTop).2) := by
    rw [sbrk, hn, sbrkCall, if_neg hne]
    dsimp only
    rw [if_pos (by omega), if_neg (not_not_intro hmod), sbrkPages]
    dsimp only
    rw [vmalloc_congr (pagesFor_round (by omega)), hat, if_neg hne, if_neg hne,
      htop]
  have hmapped : ∀ v, s.first ≤ v → v < s.proc.heapTop + n →
      (translate (vmalloc mm s.machine n s.proc.ptable s.proc.heapTop).2.mem
        s.proc.ptable v).isSome = true := by
    intro v h₁ h₂
    rcases Nat.lt_or_ge v s.proc.heapTop with hlt | hge
    · obtain ⟨a, ha⟩ := Option.isSome_iff_exists.1 (h.mapped v h₁ hlt)
      rw [hext.translate h.spaces h.member ha]
      rfl
    · have hcount : v / 4096 < s.proc.heapTop / 4096 +
          min (pagesFor n) (1048576 - s.proc.heapTop / 4096) := by
        rw [pagesFor_eq]
        simp only [PAGE_SIZE] at hmod
        omega
      rw [hplaced.translate (by omega) (Nat.div_le_div_right hge) hcount]
      rfl
  refine ⟨⟨s.first, { s.proc with heapTop := s.proc.heapTop + n },
    (vmalloc mm s.machine n s.proc.ptable s.proc.heapTop).2,
    some ⟨s.proc.heapTop, n, _, _⟩⟩, by rw [step, hcall], hext.spaces,
    h.member, ?_, hmapped, ?_⟩
  · show s.proc.heapTop + n ≠ 0
    omega
  · rintro c hc _
    cases hc
    exact ⟨rfl, Int.natCast_add _ _, hmapped⟩

/-! ## Runs -/

theorem Inv.start {proc : ProcessType} {M : Machine} (hs : Spaces M dm dirs)
    (hp : proc.ptable ∈ dirs) (htop : proc.heapTop ≠ 0) :
    Inv dm dirs (start proc M) :=
  ⟨hs, hp, htop, fun _ h₁ h₂ => absurd h₁ (Nat.not_le_of_lt h₂),
    fun _ hc => nomatch hc⟩

theorem sbrk_lawful (hfresh : mm.Fresh) {proc : ProcessType} {M : Machine}
    (hs : Spaces M dm dirs) (hp : proc.ptable ∈ dirs)
    (htop : proc.heapTop ≠ 0) {calls : List Int}
    (hcalls : Meets (step mm) (Regular mm) (BreakState.start proc M) calls) :
    Along (step mm) Lawful (BreakState.start proc M) calls := by
  refine along_of_invariant (I := Inv dm dirs) (fun s h => h.lawful)
    (fun s incr h hr => ?_) (.start hs hp htop) hcalls
  rcases hr.fits with hpage | hpages
  · exact h.step_page hr.positive hr.bounded hpage
  · exact h.step_pages hfresh hr.positive hr.bounded hpages

/-! ## A process that maps nothing yet -/

/-- Two pages, the rest of the second one, and one page more. -/
theorem sbrk_lawful_forkMachine :
    Along (step counting) Lawful
      (BreakState.start ⟨12288, 0x8000000, 0⟩ forkMachine) [5000, 3192, 100] :=
  sbrk_lawful counting_fresh forkMachine_spaces (by decide) (by decide)
    (by decide +kernel)

/-- The second request needs the rest of a page and a new one. -/
theorem sbrk_split_unlawful :
    counting.Fresh ∧ Spaces forkMachine 4096 [8192, 12288] ∧
      ¬ Along (step counting) Lawful
        (BreakState.start ⟨12288, 0x8000000, 0⟩ forkMachine) [5000, 5000] := by
  refine ⟨counting_fresh, forkMachine_spaces, fun h => ?_⟩
  have hrun : ([5000, 5000].foldlM (step counting)
      (BreakState.start ⟨12288, 0x8000000, 0⟩ forkMachine)).map
        (fun t => t.last.map fun c => (c.before, c.returned, c.error)) =
      some (some (0x8001388, 0x8002000, .none)) := by decide +kernel
  obtain ⟨t, ht, hlast⟩ := Option.map_eq_some_iff.1 hrun
  obtain ⟨c, hc, hvalues⟩ := Option.map_eq_some_iff.1 hlast
  simp only [Prod.mk.injEq] at hvalues
  obtain ⟨hbefore, hreturned, herror⟩ := hvalues
  have hlaw := (h.last ht c hc herror).1
  rw [hbefore, hreturned] at hlaw
  exact absurd hlaw (by decide)

end BreakState

/-! ## Calls that fail -/

section Failing

variable {mm : PageManager} {M : Machine} {proc : ProcessType} {dm : Nat}
  {dirs : List Nat} {data : SbrkData}

/-- A break that is moved by a positive amount is another one. -/
theorem u32_add_ne {n k : Nat} (hk : 0 < k) (hlt : k < 4294967296) :
    u32 (n + k : Nat) ≠ n := by
  rw [u32]
  omega

/-- The handler moves the break whether or not it reports an error. -/
theorem sbrkCall_moves (h₀ : proc.heapTop ≠ 0)
    (hincr : data.incr < 4294967296)
    (herror : (sbrkCall mm proc M data).1 = .eNoMem) :
    (sbrkCall mm proc M data).2.2.1.heapTop ≠ proc.heapTop := by
  rw [sbrkCall, if_neg h₀] at herror ⊢
  dsimp only at herror ⊢
  by_cases hpos : data.incr > 0
  · rw [if_pos hpos] at herror ⊢
    split
    · split
      · exact u32_add_ne hpos hincr
      next havail =>
        exact u32_add_ne (by dsimp only; omega) (by dsimp only; omega)
    · exact u32_add_ne hpos hincr
  · -- a request that takes memory away reports no error
    rw [if_neg hpos, sbrkShrink] at herror
    dsimp only at herror
    split at herror <;> cases herror

theorem sbrkCall_zero (mm : PageManager) (M : Machine) (data : SbrkData)
    (h₀ : proc.heapTop = 0) :
    sbrkCall mm proc M data = (.eNoMem, data, proc, M) := by
  rw [sbrkCall, if_pos h₀]

/-- A failing `sbrk` has no effect on a process that has no heap at all, and on
no other: the break is moved. -/
theorem sbrk_failure_iff (incr : Int)
    (herror : (sbrk mm proc M incr).2.1 = .eNoMem) :
    ((sbrk mm proc M incr).2.2.1.heapTop = proc.heapTop ∧
      ∀ w, translate (sbrk mm proc M incr).2.2.2.mem proc.ptable w =
        translate M.mem proc.ptable w) ↔ proc.heapTop = 0 := by
  constructor
  · rintro ⟨htop, _⟩
    by_contra h₀
    exact sbrkCall_moves h₀ (u32_lt incr) herror htop
  · intro h₀
    rw [sbrk, sbrkCall_zero mm M _ h₀]
    exact ⟨rfl, fun _ => rfl⟩

theorem sbrkPages_failed (hfresh : mm.Fresh) (hs : Spaces M dm dirs)
    (hp : proc.ptable ∈ dirs) (top : Nat)
    (hnull : Event.alloc true 0 ∉ (sbrkPages mm proc M data top).2.2.2.log)
    (herror : (sbrkPages mm proc M data top).1 = .eNoMem) (w : Nat) :
    translate (sbrkPages mm proc M data top).2.2.2.mem proc.ptable w =
      translate M.mem proc.ptable w := by
  rw [sbrkPages] at hnull herror ⊢
  dsimp only at hnull herror ⊢
  obtain ⟨hext, hserved⟩ := vmalloc_spec hfresh hs hp _ _
    (.of_notMem hnull)
  have hzero : (vmalloc mm M (u32 (data.incr + PAGE_SIZE -
      if data.incr % PAGE_SIZE = 0 then PAGE_SIZE
      else data.incr % PAGE_SIZE : Nat)) proc.ptable top).1 = 0 := by
    by_contra hne
    rw [if_neg hne] at herror
    cases herror
  rcases hserved with ⟨_, hsame⟩ | ⟨htop, hwin, _⟩
  · exact hs.toTables.translate_same hext.spaces.toTables hp fun hv =>
      hsame _ hp _ hv (dir_lt w) _ (page_lt w)
  · rw [hzero] at htop
    rw [← htop] at hwin
    exact absurd hwin (by decide)

/-- The translation is what it was, all the same. -/
theorem sbrk_failed_translation (hfresh : mm.Fresh) (hs : Spaces M dm dirs)
    (hp : proc.ptable ∈ dirs) (incr : Int)
    (hnull : Event.alloc true 0 ∉ (sbrk mm proc M incr).2.2.2.log)
    (herror : (sbrk mm proc M incr).2.1 = .eNoMem) (w : Nat) :
    translate (sbrk mm proc M incr).2.2.2.mem proc.ptable w =
      translate M.mem proc.ptable w := by
  rw [sbrk] at hnull herror ⊢
  generalize u32 incr = n at hnull herror ⊢
  dsimp only at hnull herror ⊢
  by_cases h₀ : proc.heapTop = 0
  · rw [sbrkCall_zero mm M _ h₀]
  rw [sbrkCall, if_neg h₀] at hnull herror ⊢
  dsimp only at hnull herror ⊢
  by_cases hpos : n > 0
  · rw [if_pos hpos] at hnull herror ⊢
    by_cases hmod : proc.heapTop % PAGE_SIZE = 0
    · rw [if_neg (not_not_intro hmod)] at hnull herror ⊢
      exact sbrkPages_failed hfresh hs hp _ hnull herror w
    · rw [if_pos hmod] at hnull herror ⊢
      split
      · rfl
      next havail =>
        rw [if_neg havail] at hnull herror
        exact sbrkPages_failed hfresh hs hp _ hnull herror w
  · rw [if_neg hpos, sbrkShrink] at herror
    dsimp only at herror
    split at herror <;> cases herror

end Failing

/-- No heap yet: nothing happens. -/
theorem sbrk_failure_forkMachine :
    ((sbrk counting ⟨12288, 0, 0⟩ forkMachine 1).2.2.1.heapTop = 0 ∧
      ∀ w, translate (sbrk counting ⟨12288, 0, 0⟩ forkMachine 1).2.2.2.mem 12288
        w = translate forkMachine.mem 12288 w) ↔ 0 = 0 :=
  sbrk_failure_iff 1 (by decide +kernel)

/-- All pages are in use. -/
def exhausted : PageManager where
  malloc _ _ := 0
  free _ _ := true

/-- There is no page for the process and its break moves, and the call reports
an error. -/
theorem sbrk_failure_moves :
    (sbrk exhausted ⟨12288, 0x8000000, 0⟩ forkMachine 5000).2.1 = .eNoMem ∧
      (sbrk exhausted ⟨12288, 0x8000000, 0⟩ forkMachine 5000).2.2.1.heapTop ≠
        0x8000000 := by
  decide +kernel

end Iposix.Vm
