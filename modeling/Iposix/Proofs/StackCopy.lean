import Iposix.Sched.ProcessScheduleData
import Iposix.Lib.Walk

/-!
# What a fork copies of the kernel stack

The loop starts with the word at the base and makes as many turns as the stack
has words, so it ends one word above the top: the word the stack pointer points
to is the one that is not copied. And a value is moved if it is greater than
the top, so that the address of this very word is not taken for one.

The copy is complete only if neither matters: there is nothing on the stack, or
the word at the new top is already what it should become and no other word
holds the address of the old top.
-/

namespace Iposix.Sched

open Iposix.Lib

variable {m m' : Nat → UInt8} {oldBase oldTop newBase newTop : Nat}

/-! ## The loop -/

/-- The `k` words above two tops: those of the new stack are what `f` makes of
the old ones, and no other byte is written. -/
structure WordsCopied (m m' : Nat → UInt8) (oldTop newTop k : Nat)
    (f : Nat → Nat) : Prop where
  words : ∀ j, 1 ≤ j → j ≤ k →
    load 4 m' (newTop + 4 * j) = f (load 4 m (oldTop + 4 * j))
  frame : ∀ a, a < newTop + 4 ∨ newTop + 4 * k + 4 ≤ a → m' a = m a

/-- What the loop makes of a word. -/
def adapt (oldBase oldTop : Nat) (movement : Int) (value : Nat) : Nat :=
  if oldTop < value ∧ value < oldBase then u32 (value + movement) else value

theorem adapt_lt (movement : Int) {value : Nat} (h : value < 4294967296) :
    adapt oldBase oldTop movement value < 4294967296 := by
  rw [adapt]
  split
  · exact u32_lt _
  · exact h

/-- The loop goes down from word `k` of both stacks. -/
theorem copyLoop_spec (oldBase : Nat) (movement : Int) {size : Nat}
    (hapart : oldTop + size ≤ newTop ∨ newTop + size ≤ oldTop) :
    ∀ (k fuel : Nat) (m : Nat → UInt8), k < fuel → 4 * k ≤ size →
      oldTop + 4 * k < 4294967296 → newTop + 4 * k < 4294967296 →
      ∃ m', copyLoop oldBase oldTop movement fuel (4 * k) (newTop + 4 * k)
          (oldTop + 4 * k) m = some m' ∧
        WordsCopied m m' oldTop newTop k (adapt oldBase oldTop movement) := by
  intro k
  induction k with
  | zero =>
      intro fuel m hfuel _ _ _
      obtain ⟨f, rfl⟩ : ∃ f, fuel = f + 1 := ⟨fuel - 1, by omega⟩
      refine ⟨m, ?_, fun j h₁ h₂ => by omega, fun _ _ => rfl⟩
      rw [copyLoop, if_neg (by omega)]
  | succ k ih =>
      intro fuel m hfuel hsize hold hnew
      obtain ⟨f, rfl⟩ : ∃ f, fuel = f + 1 := ⟨fuel - 1, by omega⟩
      have hvalue : load 4 m (oldTop + 4 * (k + 1)) < 4294967296 :=
        load_lt m 4 _
      let value := adapt oldBase oldTop movement
        (load 4 m (oldTop + 4 * (k + 1)))
      let m₁ := store 4 m (newTop + 4 * (k + 1)) value
      obtain ⟨m', hrun, hwords, hframe⟩ :=
        ih f m₁ (by omega) (by omega) (by omega) (by omega)
      refine ⟨m', ?_, fun j h₁ h₂ => ?_, fun a ha => ?_⟩
      · have hleft : u32 (((4 * (k + 1) : Nat) : Int) - 4) = 4 * k := by
          simp only [u32]
          omega
        have hin : u32 (((newTop + 4 * (k + 1) : Nat) : Int) - 4) =
            newTop + 4 * k := by
          simp only [u32]
          omega
        have hout : u32 (((oldTop + 4 * (k + 1) : Nat) : Int) - 4) =
            oldTop + 4 * k := by
          simp only [u32]
          omega
        rw [copyLoop, if_pos (by omega)]
        dsimp only
        rw [hleft, hin, hout]
        exact hrun
      · rcases Nat.lt_or_ge k j with hj | hj
        · -- the word of this turn stays as it is written
          obtain rfl : j = k + 1 := by omega
          have hkeep : load 4 m' (newTop + 4 * (k + 1)) =
              load 4 m₁ (newTop + 4 * (k + 1)) :=
            load_congr fun a h₁ _ => hframe a (by omega)
          rw [hkeep, load_store]
          exact Nat.mod_eq_of_lt (adapt_lt movement hvalue)
        · rw [hwords j h₁ hj, load_store_of_disjoint (by omega)]
      · exact (hframe a (by omega)).trans (store_apply_of_disjoint (by omega))

/-! ## The stacks -/

/-- An address in the new stack for one in the old. -/
def moved (oldBase newBase a : Nat) : Nat := u32 ((a : Int) + newBase - oldBase)

/-- The address of a word of the stack. -/
def InStack (top base a : Nat) : Prop :=
  top ≤ a ∧ a < base ∧ a % 4 = base % 4

instance (top base a : Nat) : Decidable (InStack top base a) :=
  inferInstanceAs (Decidable (_ ∧ _ ∧ _))

/-- The frame pointer that is saved where a frame pointer points to. -/
def callerFrame (m : Nat → UInt8) (top base a : Nat) : Option Nat :=
  if InStack top base a ∧ InStack top base (load 4 m a) then some (load 4 m a)
  else none

/-- What is to stand in the new stack for a word of the old. -/
def relocate (oldBase oldTop newBase value : Nat) : Nat :=
  if oldTop ≤ value ∧ value < oldBase then moved oldBase newBase value
  else value

/-- The old stack has been copied as a whole. -/
structure StackCopied (m m' : Nat → UInt8)
    (oldBase oldTop oldEbp newBase newTop newEbp : Nat) : Prop where
  words : ∀ a, InStack oldTop oldBase a →
    load 4 m' (moved oldBase newBase a) =
      relocate oldBase oldTop newBase (load 4 m a)
  top : newTop = moved oldBase newBase oldTop
  ebp : newEbp = moved oldBase newBase oldEbp
  below : ∀ a, a < newTop → m' a = m a
  /-- A chain of frame pointers leads through the same frames of both. -/
  frames : ∀ i a, nth (callerFrame m oldTop oldBase) i oldEbp = some a →
    nth (callerFrame m' newTop newBase) i newEbp =
      some (moved oldBase newBase a)

/-- Nothing depends on the word at the top. -/
def TopIdle (m : Nat → UInt8) (oldBase oldTop newBase : Nat) : Prop :=
  oldTop = oldBase ∨
    (load 4 m (moved oldBase newBase oldTop) =
        relocate oldBase oldTop newBase (load 4 m oldTop) ∧
      ∀ a, InStack oldTop oldBase a → oldTop < a → load 4 m a ≠ oldTop)

section Copy

variable {oldEbp fuel : Nat}

/-- Adding the movement is moving. -/
theorem add_movement (oldBase newBase value : Nat) :
    u32 (value + i32 (u32 ((newBase : Int) - oldBase))) =
      moved oldBase newBase value := by
  have hmovement := i32_emod (u32 ((newBase : Int) - oldBase))
  simp only [moved, u32] at hmovement ⊢
  omega

/-- Word `j` above the top goes to word `j` above the new top. -/
theorem moved_word {j : Nat} (hnew : newBase < 4294967296)
    (htop : oldTop ≤ oldBase) (hroom : oldBase - oldTop ≤ newBase)
    (hj : oldTop + j ≤ oldBase) :
    moved oldBase newBase (oldTop + j) = newBase - (oldBase - oldTop) + j := by
  simp only [moved, u32]
  omega

/-- A value above the top is treated as it should be. -/
theorem adapt_eq {value : Nat} (h : value ≠ oldTop) :
    adapt oldBase oldTop (i32 (u32 ((newBase : Int) - oldBase))) value =
      relocate oldBase oldTop newBase value := by
  have hcond : oldTop < value ∧ value < oldBase ↔
      oldTop ≤ value ∧ value < oldBase := by omega
  rw [adapt, relocate, add_movement]
  simp only [hcond]

/-- The address of the top itself is not. -/
theorem adapt_top (movement : Int) :
    adapt oldBase oldTop movement oldTop = oldTop :=
  if_neg fun h => Nat.lt_irrefl _ h.1

/-- `copy_and_adapt_stack` returns, and all words but the one at the top have
been copied. -/
theorem copyAndAdaptStack_spec (halign : oldTop % 4 = 0 ∧ oldBase % 4 = 0)
    (htop : oldTop ≤ oldBase) (hold : oldBase < 4294967296)
    (hnew : newBase < 4294967296) (hroom : oldBase - oldTop ≤ newBase)
    (hapart : oldBase + (oldBase - oldTop) ≤ newBase ∨ newBase ≤ oldTop)
    (hfuel : oldBase - oldTop < fuel) (m : Nat → UInt8) (oldEbp : Nat) :
    ∃ m', copyAndAdaptStack fuel m oldBase oldTop oldEbp newBase =
        some (m', moved oldBase newBase oldTop, moved oldBase newBase oldEbp) ∧
      WordsCopied m m' oldTop (moved oldBase newBase oldTop)
        ((oldBase - oldTop) / 4)
        (adapt oldBase oldTop (i32 (u32 ((newBase : Int) - oldBase)))) := by
  have hnewTop : moved oldBase newBase oldTop = newBase - (oldBase - oldTop) :=
    moved_word (j := 0) hnew htop hroom (by omega)
  obtain ⟨k, hk⟩ : ∃ k, oldBase = oldTop + 4 * k :=
    ⟨(oldBase - oldTop) / 4, by omega⟩
  have hsize : u32 ((oldBase : Int) - oldTop) = 4 * k := by
    simp only [u32]
    omega
  have hwords : (oldBase - oldTop) / 4 = k := by omega
  have hbase : newBase = moved oldBase newBase oldTop + 4 * k := by omega
  have hstacks : oldTop + (oldBase - oldTop) ≤ moved oldBase newBase oldTop ∨
      moved oldBase newBase oldTop + (oldBase - oldTop) ≤ oldTop := by omega
  obtain ⟨m', hrun, hcopied⟩ := copyLoop_spec oldBase
    (i32 (u32 ((newBase : Int) - oldBase))) hstacks k fuel m (by omega)
    (by omega) (by omega) (by omega)
  rw [← hk, ← hbase] at hrun
  refine ⟨m', ?_, hwords ▸ hcopied⟩
  rw [copyAndAdaptStack, hsize, hrun]
  simp only [add_movement]

/-! ## The whole stack -/

theorem inStack_moved (hnew : newBase < 4294967296) (htop : oldTop ≤ oldBase)
    (hroom : oldBase - oldTop ≤ newBase) {a : Nat}
    (h : InStack oldTop oldBase a) :
    InStack (moved oldBase newBase oldTop) newBase (moved oldBase newBase a) := by
  obtain ⟨h₁, h₂, h₃⟩ := h
  simp only [InStack, moved, u32]
  omega

/-- Where the words have been copied, chains of frames have been. -/
theorem callerFrame_moved (hnew : newBase < 4294967296)
    (htop : oldTop ≤ oldBase) (hroom : oldBase - oldTop ≤ newBase)
    (hwords : ∀ a, InStack oldTop oldBase a →
      load 4 m' (moved oldBase newBase a) =
        relocate oldBase oldTop newBase (load 4 m a)) {a b : Nat}
    (h : callerFrame m oldTop oldBase a = some b) :
    callerFrame m' (moved oldBase newBase oldTop) newBase
      (moved oldBase newBase a) = some (moved oldBase newBase b) := by
  rw [callerFrame] at h
  split at h
  · next hin =>
      obtain ⟨ha, hb⟩ := hin
      cases h
      have hload : load 4 m' (moved oldBase newBase a) =
          moved oldBase newBase (load 4 m a) :=
        (hwords a ha).trans (if_pos ⟨hb.1, hb.2.1⟩)
      rw [callerFrame, hload, if_pos]
      exact ⟨inStack_moved hnew htop hroom ha, inStack_moved hnew htop hroom hb⟩
  · cases h

/-- When all words but the one at the top have been copied, the stack has been
exactly if nothing depends on that one. -/
theorem stackCopied_iff (halign : oldTop % 4 = 0 ∧ oldBase % 4 = 0)
    (htop : oldTop ≤ oldBase) (hnew : newBase < 4294967296)
    (hroom : oldBase - oldTop ≤ newBase)
    (hapart : oldBase + (oldBase - oldTop) ≤ newBase ∨ newBase ≤ oldTop)
    (hcopied : WordsCopied m m' oldTop (moved oldBase newBase oldTop)
      ((oldBase - oldTop) / 4)
      (adapt oldBase oldTop (i32 (u32 ((newBase : Int) - oldBase))))) :
    StackCopied m m' oldBase oldTop oldEbp newBase (moved oldBase newBase oldTop)
        (moved oldBase newBase oldEbp) ↔
      TopIdle m oldBase oldTop newBase := by
  have hnewTop : moved oldBase newBase oldTop = newBase - (oldBase - oldTop) :=
    moved_word (j := 0) hnew htop hroom (by omega)
  -- the word at the new top stays
  have hkept : load 4 m' (moved oldBase newBase oldTop) =
      load 4 m (moved oldBase newBase oldTop) :=
    load_congr fun a _ ha => hcopied.frame a (.inl ha)
  -- the others are what the loop makes of them
  have habove : ∀ a, InStack oldTop oldBase a → oldTop < a →
      load 4 m' (moved oldBase newBase a) =
        adapt oldBase oldTop (i32 (u32 ((newBase : Int) - oldBase)))
          (load 4 m a) := by
    intro a ⟨_, hbase, hword⟩ ha
    obtain ⟨j, rfl⟩ : ∃ j, a = oldTop + 4 * j := ⟨(a - oldTop) / 4, by omega⟩
    rw [moved_word hnew htop hroom (by omega), ← hnewTop]
    exact hcopied.words j (by omega) (by omega)
  constructor
  · intro h
    rcases Nat.eq_or_lt_of_le htop with hempty | hlt
    · exact .inl hempty
    · refine .inr ⟨?_, fun a ha hgt hvalue => ?_⟩
      · rw [← hkept]
        exact h.words oldTop ⟨Nat.le_refl _, hlt, by omega⟩
      · have hword := h.words a ha
        rw [habove a ha hgt, hvalue, adapt_top, relocate,
          if_pos ⟨Nat.le_refl _, hlt⟩] at hword
        omega
  · intro h
    have hwords : ∀ a, InStack oldTop oldBase a →
        load 4 m' (moved oldBase newBase a) =
          relocate oldBase oldTop newBase (load 4 m a) := by
      intro a ha
      have ha' := ha
      obtain ⟨h₁, h₂, _⟩ := ha
      rcases h with hempty | ⟨hidle, hvalues⟩
      · omega
      · rcases Nat.eq_or_lt_of_le h₁ with rfl | hgt
        · rw [hkept, hidle]
        · rw [habove a ha' hgt, adapt_eq (hvalues a ha' hgt)]
    refine ⟨hwords, rfl, rfl, fun a ha => hcopied.frame a (.inl ?_), ?_⟩
    · exact Nat.lt_add_right 4 ha
    · intro i a ha
      exact nth_map (fun _ _ => callerFrame_moved hnew htop hroom hwords) ha

/-- The copy of a fork is complete exactly if nothing depends on the word at the
top of the stack. -/
theorem copyAndAdaptStack_complete_iff
    (halign : oldTop % 4 = 0 ∧ oldBase % 4 = 0)
    (htop : oldTop ≤ oldBase) (hold : oldBase < 4294967296)
    (hnew : newBase < 4294967296) (hroom : oldBase - oldTop ≤ newBase)
    (hapart : oldBase + (oldBase - oldTop) ≤ newBase ∨ newBase ≤ oldTop)
    (hfuel : oldBase - oldTop < fuel) (m : Nat → UInt8) (oldEbp : Nat) :
    ∃ m' newTop newEbp,
      copyAndAdaptStack fuel m oldBase oldTop oldEbp newBase =
        some (m', newTop, newEbp) ∧
      (StackCopied m m' oldBase oldTop oldEbp newBase newTop newEbp ↔
        TopIdle m oldBase oldTop newBase) := by
  obtain ⟨m', hrun, hcopied⟩ := copyAndAdaptStack_spec halign htop hold hnew
    hroom hapart hfuel m oldEbp
  exact ⟨m', _, _, hrun,
    stackCopied_iff halign htop hnew hroom hapart hcopied⟩

/-- A stack of eight words from 0x1FE0 on with two frames, a pointer into
itself, and a word at its top that the new stack has already. -/
def framedWord (i : Nat) : Nat :=
  if i = 0x7F8 ∨ i = 0xFF8 then 5
  else if i = 0x7FA then 0x1FF4
  else if i = 0x7FC then 0x1FF8
  else if i = 0x7FD then 0x1FFC
  else 0

def framedStack (a : Nat) : UInt8 :=
  UInt8.ofNat (framedWord (a / 4) / 256 ^ (a % 4))

example :
    callerFrame framedStack 0x1FE0 0x2000 0x1FE8 = some 0x1FF4 ∧
      callerFrame framedStack 0x1FE0 0x2000 0x1FF4 = some 0x1FFC ∧
      callerFrame framedStack 0x1FE0 0x2000 0x1FFC = none := by
  decide

theorem copyAndAdaptStack_framed :
    ∃ m' newTop newEbp,
      copyAndAdaptStack 33 framedStack 0x2000 0x1FE0 0x1FE8 0x4000 =
        some (m', newTop, newEbp) ∧
      StackCopied framedStack m' 0x2000 0x1FE0 0x1FE8 0x4000 newTop newEbp := by
  have hidle : TopIdle framedStack 0x2000 0x1FE0 0x4000 := by
    refine .inr ⟨by decide, fun a ⟨h₁, h₂, h₃⟩ _ => ?_⟩
    obtain ⟨k, rfl⟩ : ∃ k, a = 0x1FE0 + 4 * k := ⟨(a - 0x1FE0) / 4, by omega⟩
    have hwords : ∀ k, k < 8 → load 4 framedStack (0x1FE0 + 4 * k) ≠ 0x1FE0 := by
      decide
    exact hwords k (by omega)
  have hcopy : ∃ m' newTop newEbp,
      copyAndAdaptStack 33 framedStack 0x2000 0x1FE0 0x1FE8 0x4000 =
        some (m', newTop, newEbp) ∧
      (StackCopied framedStack m' 0x2000 0x1FE0 0x1FE8 0x4000 newTop newEbp ↔
        TopIdle framedStack 0x2000 0x1FE0 0x4000) :=
    copyAndAdaptStack_complete_iff (by decide) (by decide) (by decide)
      (by decide) (by decide) (by decide) (by decide) framedStack 0x1FE8
  obtain ⟨m', newTop, newEbp, hrun, hiff⟩ := hcopy
  exact ⟨m', newTop, newEbp, hrun, hiff.2 hidle⟩

/-- A stack of two words with a 1 at the top. -/
def topWord (a : Nat) : UInt8 := if a = 0x1FF8 then 1 else 0

/-- What the stack pointer points to is not copied. -/
theorem copyAndAdaptStack_topWord :
    ∃ m' newTop newEbp,
      copyAndAdaptStack 9 topWord 0x2000 0x1FF8 0x1FFC 0x4000 =
        some (m', newTop, newEbp) ∧
      load 4 topWord 0x1FF8 = 1 ∧ load 4 m' newTop = 0 ∧
      ¬ StackCopied topWord m' 0x2000 0x1FF8 0x1FFC 0x4000 newTop newEbp := by
  have hcopy : ∃ m', copyAndAdaptStack 9 topWord 0x2000 0x1FF8 0x1FFC 0x4000 =
        some (m', moved 0x2000 0x4000 0x1FF8, moved 0x2000 0x4000 0x1FFC) ∧
      WordsCopied topWord m' 0x1FF8 (moved 0x2000 0x4000 0x1FF8)
        ((0x2000 - 0x1FF8) / 4)
        (adapt 0x2000 0x1FF8 (i32 (u32 (((0x4000 : Nat) : Int) - (0x2000 : Nat))))) :=
    copyAndAdaptStack_spec (by decide) (by decide) (by decide) (by decide)
      (by decide) (by decide) (by decide) topWord 0x1FFC
  obtain ⟨m', hrun, hcopied⟩ := hcopy
  have htop : load 4 m' (moved 0x2000 0x4000 0x1FF8) = 0 :=
    (load_congr fun a _ ha => hcopied.frame a (.inl ha)).trans (by decide)
  refine ⟨m', _, _, hrun, by decide, htop, fun h => ?_⟩
  have hword := h.words 0x1FF8 (by decide)
  rw [htop] at hword
  exact absurd hword (by decide)

end Copy

/-! ## A fork -/

/-- What `prepare` leaves of a fork: the registers that were read, moved to the
stack of the child, and a stack that is complete under the same condition. -/
theorem ProcessScheduleData.prepare_spec {parent child : ProcessScheduleData}
    {esp fuel : Nat} (halign : esp % 4 = 0 ∧ parent.kernelStackBase % 4 = 0)
    (htop : esp ≤ parent.kernelStackBase)
    (hold : parent.kernelStackBase < 4294967296)
    (hnew : child.kernelStackBase < 4294967296)
    (hroom : parent.kernelStackBase - esp ≤ child.kernelStackBase)
    (hapart : parent.kernelStackBase + (parent.kernelStackBase - esp) ≤
        child.kernelStackBase ∨ child.kernelStackBase ≤ esp)
    (hfuel : parent.kernelStackBase - esp < fuel) (m : Nat → UInt8)
    (ebp eip pageTablePtr : Nat) :
    ∃ m' child', prepare fuel m parent child esp ebp eip pageTablePtr =
        some (m', child') ∧
      child'.registers.eip = eip ∧ child'.registers.cr3 = pageTablePtr ∧
      (StackCopied m m' parent.kernelStackBase esp ebp child.kernelStackBase
          child'.registers.esp child'.registers.ebp ↔
        TopIdle m parent.kernelStackBase esp child.kernelStackBase) := by
  obtain ⟨m', hrun, hcopied⟩ := copyAndAdaptStack_spec halign htop hold hnew
    hroom hapart hfuel m ebp
  refine ⟨m', ⟨child.kernelStackBase,
    moved parent.kernelStackBase child.kernelStackBase esp,
    moved parent.kernelStackBase child.kernelStackBase ebp, eip, pageTablePtr⟩,
    ?_, rfl, rfl, stackCopied_iff halign htop hnew hroom hapart hcopied⟩
  rw [prepare, copyStack, hrun]

end Iposix.Sched
