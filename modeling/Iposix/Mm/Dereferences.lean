import Iposix.Mm.Splitted

/-!
# The structures the kernel heap follows

`kernel_malloc` and `kernel_free` with a record, newest first, of every pointer
to a structure they follow, to read a field or to write one. The memory they
leave and what they return are those of the functions without the record, which
the lemmas after each of them say.
-/

namespace Iposix.Mm

open Iposix.Lib

structure Access where
  mem : Nat → UInt8
  derefs : List Nat

abbrev Following := StateM Access

namespace Following

open FuStructure

variable {α : Type}

/-- `p->field` -/
def read (field : (Nat → UInt8) → Nat → α) (p : Nat) : Following α :=
  fun a => (field a.mem p, { a with derefs := p :: a.derefs })

/-- `p->field = v` -/
def write (set : (Nat → UInt8) → Nat → α → Nat → UInt8) (p : Nat) (v : α) :
    Following Unit :=
  fun a => ((), { mem := set a.mem p v, derefs := p :: a.derefs })

/-! ## kernel_malloc -/

/-- The search of `kernel_malloc`. -/
def findFit (request : Nat) :
    Nat → (cur prev : Nat) → Following (Option (Nat × Nat))
  | 0, _, _ => pure none
  | fuel + 1, cur, prev =>
      if cur = 0 then pure (some (cur, prev))
      else do
        let isFree ← read free cur
        let blockSize ← read size cur
        if isFree && decide (blockSize ≥ request) then pure (some (cur, prev))
        else do
          let following ← read next cur
          findFit request fuel following cur

/-- A new structure at the end of the chain. -/
def extend (s : Splitted) (prev request : Nat) : Following (Nat × Splitted) :=
  let newKernelBound := u32 (u32 (s.curKernelBound + SIZEOF) + request)
  if newKernelBound > s.curUserBound then do
    let a ← get
    pure (0, { s with mem := a.mem })
  else do
    let cur := s.curKernelBound
    write setFree cur false
    write setPrevious cur prev
    write setNext cur 0
    write setAllocatedMemory cur (u32 (s.curKernelBound + SIZEOF))
    write setSize cur request
    if s.firstStructure ≠ 0 ∧ prev ≠ 0 then write setNext prev cur
    let ret ← read allocatedMemory cur
    let a ← get
    pure (ret,
      { s with
        mem := a.mem
        maxKernelBound :=
          if newKernelBound > s.maxKernelBound then newKernelBound
          else s.maxKernelBound
        curKernelBound := newKernelBound
        firstStructure :=
          if s.firstStructure = 0 then cur else s.firstStructure })

/-- The rest of a block becomes a free block. -/
def split (cur request : Nat) : Following Unit := do
  let blockSize ← read size cur
  let remain := blockSize - request
  if remain > SIZEOF then
    let remain := remain - SIZEOF
    write setSize cur request
    let allocated ← read allocatedMemory cur
    let newFu := u32 (allocated + request)
    write setFree newFu true
    write setPrevious newFu cur
    let following ← read next cur
    write setNext newFu following
    write setAllocatedMemory newFu (u32 (newFu + SIZEOF))
    write setSize newFu remain
    let following ← read next cur
    write setPrevious following newFu
    write setNext cur newFu

/-- A free block is taken. -/
def reuse (cur request : Nat) : Following Unit := do
  write setFree cur false
  let blockSize ← read size cur
  if blockSize > request then split cur request

/-- `kernel_malloc` -/
def kernelMalloc (s : Splitted) (request : Nat) :
    Following (Option (Nat × Splitted)) := do
  match ← findFit request Splitted.FUEL s.firstStructure 0 with
  | none => pure none
  | some (cur, prev) =>
      if cur = 0 then do
        let ret ← extend s prev request
        pure (some ret)
      else do
        let isFree ← read free cur
        let blockSize ← read size cur
        if isFree && decide (blockSize ≥ request) then do
          reuse cur request
          let ret ← read allocatedMemory cur
          let a ← get
          pure (some (ret, { s with mem := a.mem }))
        else pure (some (0, s))

/-! ## kernel_free -/

/-- `cur` takes in the block behind it. -/
def merge (cur killed : Nat) : Following Unit := do
  let following ← read next killed
  let blockSize ← read size cur
  write setSize cur (blockSize + SIZEOF)
  let blockSize ← read size cur
  let killedSize ← read size killed
  write setSize cur (blockSize + killedSize)
  write setNext cur following
  if following ≠ 0 then write setPrevious following cur

/-- The block in front is asked, if there is one. -/
def mergeFront (cur : Nat) : Following Nat := do
  let prev ← read previous cur
  if prev = 0 then pure cur
  else do
    let isFree ← read free prev
    if isFree then do
      merge prev cur
      pure prev
    else pure cur

/-- The block behind is asked, if there is one. -/
def mergeBehind (cur : Nat) : Following Unit := do
  let following ← read next cur
  if following ≠ 0 then
    let isFree ← read free following
    if isFree then merge cur following

/-- `kernel_free` -/
def kernelFree (s : Splitted) (addr : Nat) : Following (Bool × Splitted) := do
  let cur := u32 ((addr : Int) - SIZEOF)
  if cur = 0 then pure (false, s)
  else do
    let allocated ← read allocatedMemory cur
    if addr = allocated then do
      let cur ← mergeFront cur
      mergeBehind cur
      write setFree cur true
      let a ← get
      pure (true, { s with mem := a.mem })
    else pure (false, s)

/-! ## The same functions -/

variable {β : Type}

@[simp] theorem bind_run (x : Following α) (f : α → Following β) (a : Access) :
    (x >>= f) a = f (x a).1 (x a).2 := by rfl

@[simp] theorem pure_run (v : α) (a : Access) :
    (pure v : Following α) a = (v, a) := by rfl

@[simp] theorem get_run (a : Access) : (get : Following Access) a = (a, a) := by rfl

theorem ite_run (c : Prop) [Decidable c] (x y : Following α) (a : Access) :
    (if c then x else y : Following α) a = if c then x a else y a := by
  split <;> rfl

@[simp] theorem read_run (field : (Nat → UInt8) → Nat → α) (p : Nat) (a : Access) :
    read field p a = (field a.mem p, ⟨a.mem, p :: a.derefs⟩) := by rfl

@[simp] theorem write_run (set : (Nat → UInt8) → Nat → α → Nat → UInt8) (p : Nat)
    (v : α) (a : Access) :
    write set p v a = ((), ⟨set a.mem p v, p :: a.derefs⟩) := by rfl

variable {m : Nat → UInt8} {ds : List Nat} {cur prev killed request : Nat}

theorem findFit_step (fuel : Nat) (h₀ : cur ≠ 0) :
    findFit request (fuel + 1) cur prev ⟨m, ds⟩ =
      if free m cur && decide (size m cur ≥ request) then
        (some (cur, prev), ⟨m, cur :: cur :: ds⟩)
      else findFit request fuel (next m cur) cur ⟨m, cur :: cur :: cur :: ds⟩ := by
  rw [findFit, if_neg h₀]
  simp only [bind_run, ite_run, read_run, pure_run]

theorem findFit_run (m : Nat → UInt8) (request : Nat) :
    ∀ (fuel cur prev : Nat) (ds : List Nat),
    (findFit request fuel cur prev ⟨m, ds⟩).1 =
        Splitted.findFit m request fuel cur prev ∧
      (findFit request fuel cur prev ⟨m, ds⟩).2.mem = m := by
  intro fuel
  induction fuel with
  | zero => intro cur prev ds; exact ⟨rfl, rfl⟩
  | succ fuel ih =>
      intro cur prev ds
      rw [Splitted.findFit]
      by_cases h₀ : cur = 0
      · rw [findFit, if_pos h₀, if_neg (by simp [h₀])]
        exact ⟨rfl, rfl⟩
      · rw [findFit_step fuel h₀]
        by_cases hfit : (free m cur && decide (size m cur ≥ request)) = true
        · rw [if_pos hfit, if_neg (by simp [h₀, hfit])]
          exact ⟨rfl, rfl⟩
        · rw [if_neg hfit, if_pos (by simp [h₀, hfit])]
          exact ih _ _ _

theorem extend_run (s : Splitted) (prev request : Nat) (ds : List Nat) :
    (extend s prev request ⟨s.mem, ds⟩).1 = s.extend prev request := by
  rw [extend, Splitted.extend]
  dsimp only
  by_cases hroom : u32 (u32 (s.curKernelBound + SIZEOF) + request) > s.curUserBound
  · rw [if_pos hroom, if_pos hroom]
    rfl
  · rw [if_neg hroom, if_neg hroom]
    simp only [bind_run, ite_run, read_run, write_run, get_run, pure_run,
      Splitted.linkNew]
    by_cases hfirst : s.firstStructure = 0
    · simp only [hfirst, ne_eq, not_true, false_and, if_true, if_false]
    · by_cases hprev : prev = 0
      · simp only [hfirst, hprev, ne_eq, not_true, and_false, if_false]
      · simp only [hfirst, hprev, ne_eq, not_false_eq_true, and_self, if_true,
          if_false]

theorem split_run (m : Nat → UInt8) (cur request : Nat) (ds : List Nat) :
    (split cur request ⟨m, ds⟩).2.mem = Splitted.split m cur request := by
  rw [split, Splitted.split]
  simp only [bind_run, ite_run, read_run, write_run, pure_run]
  exact apply_ite (fun r : Unit × Access => r.2.mem) _ _ _

theorem reuse_run (m : Nat → UInt8) (cur request : Nat) (ds : List Nat) :
    (reuse cur request ⟨m, ds⟩).2.mem = Splitted.reuse m cur request := by
  rw [reuse, Splitted.reuse]
  simp only [bind_run, ite_run, read_run, write_run, pure_run]
  split
  · exact split_run _ _ _ _
  · rfl

theorem kernelMalloc_run (s : Splitted) (request : Nat) :
    (kernelMalloc s request ⟨s.mem, ds⟩).1 = s.kernelMalloc request := by
  obtain ⟨hfind, hmem⟩ :=
    findFit_run s.mem request Splitted.FUEL s.firstStructure 0 ds
  rw [kernelMalloc, Splitted.kernelMalloc, bind_run, ← hfind]
  generalize findFit request Splitted.FUEL s.firstStructure 0 ⟨s.mem, ds⟩ = found
    at hmem ⊢
  obtain ⟨_ | ⟨cur, prev⟩, m, ds'⟩ := found
  · rfl
  · obtain rfl : m = s.mem := hmem
    dsimp only
    by_cases h₀ : cur = 0
    · rw [if_pos h₀, if_pos h₀, bind_run, pure_run, extend_run]
    · rw [if_neg h₀, if_neg h₀]
      simp only [bind_run, ite_run, read_run, get_run, pure_run]
      split
      · rw [reuse_run]
      · rfl

theorem merge_run (m : Nat → UInt8) (cur killed : Nat) (ds : List Nat) :
    (merge cur killed ⟨m, ds⟩).2.mem = Splitted.merge m cur killed := by
  rw [merge, Splitted.merge]
  simp only [bind_run, ite_run, read_run, write_run, pure_run]
  exact apply_ite (fun r : Unit × Access => r.2.mem) _ _ _

theorem merge_derefs (m : Nat → UInt8) (cur killed : Nat) (ds : List Nat) :
    (merge cur killed ⟨m, ds⟩).2.derefs =
      (if next m killed ≠ 0 then [next m killed] else []) ++
        cur :: cur :: killed :: cur :: cur :: cur :: killed :: ds := by
  rw [merge]
  simp only [bind_run, ite_run, read_run, write_run, pure_run]
  split <;> rfl

theorem mergeFront_run (m : Nat → UInt8) (cur : Nat) (ds : List Nat) :
    ((mergeFront cur ⟨m, ds⟩).2.mem, (mergeFront cur ⟨m, ds⟩).1) =
      if previous m cur ≠ 0 ∧ free m (previous m cur) then
        (Splitted.merge m (previous m cur) cur, previous m cur)
      else (m, cur) := by
  rw [mergeFront]
  simp only [bind_run, ite_run, read_run, pure_run]
  by_cases h₀ : previous m cur = 0
  · rw [if_pos h₀, if_neg fun h => h.1 h₀]
  · rw [if_neg h₀]
    by_cases hfree : free m (previous m cur) = true
    · rw [if_pos hfree, if_pos ⟨h₀, hfree⟩, merge_run]
    · rw [if_neg hfree, if_neg fun h => hfree h.2]

theorem mergeBehind_run (m : Nat → UInt8) (cur : Nat) (ds : List Nat) :
    (mergeBehind cur ⟨m, ds⟩).2.mem =
      if next m cur ≠ 0 ∧ free m (next m cur) then
        Splitted.merge m cur (next m cur)
      else m := by
  rw [mergeBehind]
  simp only [bind_run, ite_run, read_run, pure_run]
  by_cases h₀ : next m cur ≠ 0
  · rw [if_pos h₀]
    by_cases hfree : free m (next m cur) = true
    · rw [if_pos hfree, if_pos ⟨h₀, hfree⟩, merge_run]
    · rw [if_neg hfree, if_neg fun h => hfree h.2]
  · rw [if_neg h₀, if_neg fun h => h₀ h.1]

theorem kernelFree_run (s : Splitted) (addr : Nat) :
    (kernelFree s addr ⟨s.mem, ds⟩).1 = s.kernelFree addr := by
  rw [kernelFree, Splitted.kernelFree]
  dsimp only
  by_cases h₀ : u32 ((addr : Int) - SIZEOF) = 0
  · rw [if_pos h₀, if_neg fun h => h.1 h₀, pure_run]
  · rw [if_neg h₀]
    simp only [bind_run, ite_run, read_run, write_run, get_run, pure_run]
    by_cases haddr : addr = allocatedMemory s.mem (u32 ((addr : Int) - SIZEOF))
    · rw [if_pos haddr, if_pos ⟨h₀, haddr⟩]
      have hfront := mergeFront_run s.mem (u32 ((addr : Int) - SIZEOF))
        (u32 ((addr : Int) - SIZEOF) :: ds)
      generalize mergeFront (u32 ((addr : Int) - SIZEOF))
        ⟨s.mem, u32 ((addr : Int) - SIZEOF) :: ds⟩ = front at hfront ⊢
      obtain ⟨cur, m, ds'⟩ := front
      rw [← hfront]
      dsimp only
      rw [mergeBehind_run]
    · rw [if_neg haddr, if_neg fun h => haddr h.2]

end Following

end Iposix.Mm
