import Iposix.Proofs.AreaLayout
import Iposix.Proofs.FreeEntries
import Mathlib.Logic.Relation

/-!
# Whatever is asked of the manager

Here the callers are free to do anything: they ask for any size, free any
address with either flag, and write wherever they like between two calls. What
still holds rests on the code alone and not on what memory holds.

`max_kernel_bound` follows `cur_kernel_bound` as long as no new block wraps, and
both only grow. `page_alloc` turns down a page below the latter before it
compares with the former, so that it never finds old kernel memory to clear.
-/

namespace Iposix.Mm

open Iposix.Lib Splitted

inductive ManagerCall where
  | malloc (request : Nat) (kernel aligned : Bool)
  | free (addr : Nat) (kernel : Bool)
  | write (j : Nat) (v : UInt8)

/-- A call that does not come back has no next state. -/
def managerStep (s : Splitted) : ManagerCall → Option Splitted
  | .malloc request kernel aligned =>
      (s.malloc request kernel aligned).map Prod.snd
  | .free addr kernel => some (s.free addr kernel).2
  | .write j v => some { s with mem := splice s.mem j 1 fun _ => v }

/-- From `s` to `t` by calls that meet the condition. -/
def Reaches (C : Splitted → ManagerCall → Prop) : Splitted → Splitted → Prop :=
  Relation.ReflTransGen fun s t => ∃ c, C s c ∧ managerStep s c = some t

def AnyCall (_ : Splitted) (_ : ManagerCall) : Prop := True

/-- No new kernel block ends behind the address space. -/
def Unwrapped (s : Splitted) : ManagerCall → Prop
  | .malloc request true false => NoWrap s request
  | _ => True

/-- `page_alloc` comes to the branch that clears old kernel memory. -/
def Scrubs (s : Splitted) (kernel : Bool) : Prop :=
  let ret := (findPage s.pageBm kernel s.mem
    (u64 ((s.pageBm.entrys : Int) - 1))
    (u32 ((s.lastAddress : Int) - PAGE_SIZE))).2.1
  ret ≠ 0 ∧ ¬ s.curKernelBound > ret ∧ s.maxKernelBound > ret

/-! ## What the functions keep -/

/-- What `set_memory_areas` sets once and for all. -/
structure Constant (s t : Splitted) : Prop where
  isInitialized : t.isInitialized = s.isInitialized
  firstAddress : t.firstAddress = s.firstAddress
  lastAddress : t.lastAddress = s.lastAddress
  pageBm : t.pageBm = s.pageBm

/-- The bounds of the heap have not gone back. -/
structure Grown (s t : Splitted) : Prop where
  bound : s.curKernelBound ≤ t.curKernelBound
  max : s.maxKernelBound = s.curKernelBound →
    t.maxKernelBound = t.curKernelBound

variable {s t : Splitted} {area : MemoryArea} {request addr : Nat}
  {kernel aligned : Bool} {c : ManagerCall}

theorem Grown.of_eq (hbound : t.curKernelBound = s.curKernelBound)
    (hmax : t.maxKernelBound = s.maxKernelBound) : Grown s t :=
  ⟨hbound ▸ Nat.le_refl _, fun h => by rw [hmax, hbound, h]⟩

theorem extend_constant (s : Splitted) (prev request : Nat) :
    Constant s (s.extend prev request).2 := by
  rw [extend]
  split <;> exact ⟨rfl, rfl, rfl, rfl⟩

theorem extend_grown (prev : Nat)
    (hfits : s.curKernelBound + 24 + request < 4294967296) :
    Grown s (s.extend prev request).2 := by
  have hsum : u32 (s.curKernelBound + (24 : Nat)) = s.curKernelBound + 24 :=
    u32_of_lt (n := s.curKernelBound + 24) (by omega)
  have hsum' : u32 ((s.curKernelBound + 24 : Nat) + (request : Nat)) =
      s.curKernelBound + 24 + request :=
    u32_of_lt (n := s.curKernelBound + 24 + request) hfits
  have hext := Splitted.extend.eq_def s prev request
  simp only [FuStructure.SIZEOF, hsum, hsum'] at hext
  rw [hext]
  split
  · exact .of_eq rfl rfl
  · refine ⟨?_, fun hmax => ?_⟩
    · show s.curKernelBound ≤ s.curKernelBound + 24 + request
      omega
    · show (if s.curKernelBound + 24 + request > s.maxKernelBound then _
        else _) = s.curKernelBound + 24 + request
      exact if_pos (by omega)

theorem kernelMalloc_keeps {r : Nat}
    (hgo : s.kernelMalloc request = some (r, t)) :
    Constant s t ∧ (NoWrap s request → Grown s t) := by
  rw [kernelMalloc] at hgo
  split at hgo
  · cases hgo
  · next cur prev hfind =>
      split at hgo
      · next h0 =>
          have ht : (s.extend prev request).2 = t := by rw [Option.some.inj hgo]
          rw [← ht]
          exact ⟨extend_constant s prev request,
            fun hwrap => extend_grown prev (hwrap prev (h0 ▸ hfind))⟩
      · split at hgo <;>
          simp only [Option.some.injEq, Prod.mk.injEq] at hgo <;>
          obtain ⟨_, rfl⟩ := hgo <;>
          exact ⟨⟨rfl, rfl, rfl, rfl⟩, fun _ => .of_eq rfl rfl⟩

theorem kernelFree_keeps (s : Splitted) (addr : Nat) :
    Constant s (s.kernelFree addr).2 ∧ Grown s (s.kernelFree addr).2 := by
  rw [kernelFree]
  dsimp only
  split <;> exact ⟨⟨rfl, rfl, rfl, rfl⟩, .of_eq rfl rfl⟩

theorem pageFree_keeps (s : Splitted) (addr : Nat) :
    Constant s (s.pageFree addr).2 ∧ Grown s (s.pageFree addr).2 := by
  obtain ⟨hinit, hfirst, hkernel, hmax, hlast, hbm⟩ := pageFree_fields s addr
  exact ⟨⟨hinit, hfirst, hlast, hbm⟩, .of_eq hkernel hmax⟩

theorem not_scrubs (hmax : s.maxKernelBound = s.curKernelBound) :
    ¬ Scrubs s kernel := by
  rintro ⟨_, hk, hm⟩
  omega

/-- A page that is given lies above the heap; and nothing is cleared where the
heap never reached further. -/
theorem pageAlloc_keeps (s : Splitted) (kernel : Bool) :
    Constant s (s.pageAlloc kernel).2 ∧
      (¬ Scrubs s kernel → Grown s (s.pageAlloc kernel).2) ∧
      ((s.pageAlloc kernel).1 ≠ 0 →
        s.curKernelBound ≤ (s.pageAlloc kernel).1) := by
  rw [pageAlloc, Scrubs]
  generalize findPage s.pageBm kernel s.mem (u64 ((s.pageBm.entrys : Int) - 1))
    (u32 ((s.lastAddress : Int) - PAGE_SIZE)) = found
  obtain ⟨i, ret, m⟩ := found
  dsimp only
  by_cases h0 : ret = 0
  · rw [if_pos h0]
    exact ⟨⟨rfl, rfl, rfl, rfl⟩, fun _ => .of_eq rfl rfl, fun hr => absurd h0 hr⟩
  · rw [if_neg h0]
    by_cases hk : s.curKernelBound > ret
    · rw [if_pos hk]
      exact ⟨⟨rfl, rfl, rfl, rfl⟩, fun _ => .of_eq rfl rfl,
        fun hr => absurd rfl hr⟩
    · rw [if_neg hk]
      refine ⟨⟨rfl, rfl, rfl, rfl⟩, fun hnot => .of_eq rfl ?_,
        fun _ => Nat.le_of_not_lt hk⟩
      exact if_neg fun hm => hnot ⟨h0, hk, hm⟩

theorem malloc_keeps {r : Nat}
    (hgo : s.malloc request kernel aligned = some (r, t)) :
    Constant s t ∧
      (Unwrapped s (.malloc request kernel aligned) →
        s.maxKernelBound = s.curKernelBound → Grown s t) := by
  have hsame : Constant s s ∧ (Unwrapped s (.malloc request kernel aligned) →
      s.maxKernelBound = s.curKernelBound → Grown s s) :=
    ⟨⟨rfl, rfl, rfl, rfl⟩, fun _ _ => .of_eq rfl rfl⟩
  by_cases hinit : s.isInitialized = true
  · by_cases hpage : kernel = false ∨ aligned = true
    · rw [malloc_page hinit request hpage] at hgo
      split at hgo
      · have ht : (s.pageAlloc kernel).2 = t := by rw [Option.some.inj hgo]
        obtain ⟨hconst, hgrown, _⟩ := pageAlloc_keeps s kernel
        rw [ht] at hconst hgrown
        exact ⟨hconst, fun _ hmax => hgrown (not_scrubs hmax)⟩
      · cases hgo
        exact hsame
    · obtain ⟨rfl, rfl⟩ : kernel = true ∧ aligned = false := by
        simpa using hpage
      rw [malloc_heap hinit] at hgo
      obtain ⟨hconst, hgrown⟩ := kernelMalloc_keeps hgo
      exact ⟨hconst, fun hwrap _ => hgrown hwrap⟩
  · rw [malloc, if_neg hinit] at hgo
    cases hgo
    exact hsame

theorem free_keeps (s : Splitted) (addr : Nat) (kernel : Bool) :
    Constant s (s.free addr kernel).2 ∧ Grown s (s.free addr kernel).2 := by
  rw [free]
  split
  · split
    · exact kernelFree_keeps s addr
    · split
      · exact pageFree_keeps s addr
      · exact ⟨⟨rfl, rfl, rfl, rfl⟩, .of_eq rfl rfl⟩
  · exact ⟨⟨rfl, rfl, rfl, rfl⟩, .of_eq rfl rfl⟩

/-! ## One call, and runs -/

theorem managerStep_keeps (hgo : managerStep s c = some t) :
    Constant s t ∧
      (Unwrapped s c → s.maxKernelBound = s.curKernelBound → Grown s t) := by
  cases c with
  | malloc request kernel aligned =>
      obtain ⟨⟨r, t'⟩, hmalloc, rfl⟩ := Option.map_eq_some_iff.1 hgo
      exact malloc_keeps hmalloc
  | free addr kernel =>
      cases hgo
      obtain ⟨hconst, hgrown⟩ := free_keeps s addr kernel
      exact ⟨hconst, fun _ _ => hgrown⟩
  | write j v =>
      cases hgo
      exact ⟨⟨rfl, rfl, rfl, rfl⟩, fun _ _ => .of_eq rfl rfl⟩

theorem SetUp.constant (h : SetUp area s) (hc : Constant s t) : SetUp area t where
  isInitialized := hc.isInitialized.trans h.isInitialized
  firstAddress := hc.firstAddress.trans h.firstAddress
  lastAddress := hc.lastAddress.trans h.lastAddress
  pageBm := hc.pageBm.trans h.pageBm

theorem SetUp.reaches {C : Splitted → ManagerCall → Prop} (h : SetUp area s)
    (hrun : Reaches C s t) : SetUp area t := by
  induction hrun with
  | refl => exact h
  | tail _ hstep ih =>
      obtain ⟨c, _, hgo⟩ := hstep
      exact ih.constant (managerStep_keeps hgo).1

theorem grown_reaches (hmax : s.maxKernelBound = s.curKernelBound)
    (hrun : Reaches Unwrapped s t) :
    s.curKernelBound ≤ t.curKernelBound ∧
      t.maxKernelBound = t.curKernelBound := by
  induction hrun with
  | refl => exact ⟨Nat.le_refl _, hmax⟩
  | tail _ hstep ih =>
      obtain ⟨c, hc, hgo⟩ := hstep
      obtain ⟨hle, hmax⟩ := ih
      have hgrown := (managerStep_keeps hgo).2 hc hmax
      exact ⟨hle.trans hgrown.bound, hgrown.max hmax⟩

/-- Between any two states of a run the heap's bound has not gone down and its
highest value is the present one, so a page given now lies above all that the
heap covered then, and there never is anything to clear. -/
theorem pages_above_heap {mem : Nat → UInt8}
    (hs : Reaches Unwrapped (initialised mem area) s)
    (ht : Reaches Unwrapped s t) :
    s.curKernelBound ≤ t.curKernelBound ∧
      t.maxKernelBound = t.curKernelBound ∧
      ∀ kernel, ¬ Scrubs t kernel ∧
        ((t.pageAlloc kernel).1 ≠ 0 →
          ∀ j, j < s.curKernelBound → j < (t.pageAlloc kernel).1) := by
  obtain ⟨_, hmax⟩ := grown_reaches rfl hs
  obtain ⟨hle, hmax⟩ := grown_reaches hmax ht
  refine ⟨hle, hmax, fun kernel => ⟨not_scrubs hmax, fun hr j hj => ?_⟩⟩
  have habove := (pageAlloc_keeps t kernel).2.2 hr
  omega

/-- A block, and a page above it. -/
theorem smallArea_above :
    ∃ t : Splitted, t.curKernelBound = 0x101020 ∧
      (t.pageAlloc false).1 ≠ 0 ∧
      ∀ j, j < 0x101020 → j < (t.pageAlloc false).1 := by
  have hgo : (smallArea.malloc 8 true false).map
      (fun r => (r.2.curKernelBound, (r.2.pageAlloc false).1)) =
        some (0x101020, 0x10f000) := by
    decide +kernel
  obtain ⟨⟨r, t⟩, ht, hval⟩ := Option.map_eq_some_iff.1 hgo
  obtain ⟨hbound, hpage⟩ := Prod.mk.inj hval
  have hrun : Reaches Unwrapped smallArea t :=
    .single ⟨.malloc 8 true false, fun _ _ => by decide +kernel, by
      rw [managerStep, ht]
      rfl⟩
  have hne : (t.pageAlloc false).1 ≠ 0 := by
    rw [hpage]
    decide
  have habove := ((pages_above_heap hrun .refl).2.2 false).2 hne
  rw [hbound] at habove
  exact ⟨t, hbound, hne, habove⟩

end Iposix.Mm
