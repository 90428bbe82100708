/-!
# Walks along a partial successor

A linked structure gives every node at most one successor. `nth succ i a` is
the node `i` steps behind `a`, if the walk gets that far. Nothing is said
about cycles: a walk may be endless.
-/

namespace Iposix.Lib

universe u v

variable {α : Type u} (succ : α → Option α)

/-- The node `i` steps behind `a`. -/
def nth : Nat → α → Option α
  | 0, a => some a
  | i + 1, a => (succ a).bind (nth i)

variable {succ}

theorem nth_step {a b : α} (h : succ a = some b) (i : Nat) :
    nth succ (i + 1) a = nth succ i b := by
  rw [nth, h, Option.bind_some]

theorem nth_stop {a : α} (h : succ a = none) (i : Nat) :
    nth succ (i + 1) a = none := by
  rw [nth, h, Option.bind_none]

theorem nth_one (a : α) : nth succ 1 a = succ a := by
  cases h : succ a with
  | none => exact nth_stop h 0
  | some b => exact nth_step h 0

/-- A walk is a walk followed by a walk. -/
theorem nth_add : ∀ (i j : Nat) (a : α),
    nth succ (i + j) a = (nth succ i a).bind (nth succ j) := by
  intro i
  induction i with
  | zero => intro j a; rw [Nat.zero_add, nth, Option.bind_some]
  | succ i ih =>
      intro j a
      rw [Nat.succ_add]
      cases hs : succ a with
      | none => rw [nth_stop hs, nth_stop hs, Option.bind_none]
      | some b => rw [nth_step hs, nth_step hs, ih]

/-- A walk that has ended stays ended. -/
theorem nth_none_of_le {i j : Nat} {a : α} (h : nth succ i a = none)
    (hle : i ≤ j) : nth succ j a = none := by
  obtain ⟨k, rfl⟩ : ∃ k, j = i + k := ⟨j - i, by omega⟩
  rw [nth_add, h, Option.bind_none]

theorem nth_succ (i : Nat) (a : α) :
    nth succ (i + 1) a = (nth succ i a).bind succ := by
  rw [nth_add]
  congr 1
  funext b
  exact nth_one b

/-- What holds at the start and is kept by every step holds all along. -/
theorem nth_invariant {P : α → Prop}
    (hstep : ∀ a b, P a → succ a = some b → P b) {i : Nat} {a b : α} (ha : P a)
    (h : nth succ i a = some b) : P b := by
  induction i generalizing b with
  | zero =>
      rw [nth] at h
      exact Option.some.inj h ▸ ha
  | succ i ih =>
      rw [nth_succ] at h
      obtain ⟨c, hc, hb⟩ := Option.bind_eq_some_iff.1 h
      exact hstep c b (ih hc) hb

/-- A walk is taken along wherever its steps are. -/
theorem nth_map {β : Type v} {succ' : β → Option β} {f : α → β}
    (hstep : ∀ a b, succ a = some b → succ' (f a) = some (f b)) {i : Nat}
    {a b : α} (h : nth succ i a = some b) :
    nth succ' i (f a) = some (f b) := by
  induction i generalizing b with
  | zero =>
      rw [nth] at h ⊢
      exact congrArg (fun c => some (f c)) (Option.some.inj h)
  | succ i ih =>
      rw [nth_succ] at h ⊢
      obtain ⟨c, hc, hb⟩ := Option.bind_eq_some_iff.1 h
      rw [ih hc, Option.bind_some]
      exact hstep c b hb

/-- Two walks go together exactly when their steps do wherever they come. -/
theorem nth_map_iff {β : Type v} {succ' : β → Option β} {f : α → β} {a : α} :
    (∀ i, nth succ' i (f a) = (nth succ i a).map f) ↔
      ∀ i b, nth succ i a = some b → succ' (f b) = (succ b).map f := by
  constructor
  · intro h i b hb
    have hnext := h (i + 1)
    rw [nth_succ, nth_succ, h i, hb] at hnext
    exact hnext
  · intro h i
    induction i with
    | zero => rfl
    | succ i ih =>
        rw [nth_succ, nth_succ, ih]
        cases hb : nth succ i a with
        | none => rfl
        | some b => exact h i b hb

/-! ## The nodes of a walk in a row -/

/-- The first `n` nodes of the walk from `a`, fewer if it ends. -/
def trail (succ : α → Option α) : Nat → α → List α
  | 0, _ => []
  | n + 1, a => a :: (succ a).elim [] (trail succ n)

theorem trail_getElem? : ∀ (n i : Nat) (a : α),
    (trail succ n a)[i]? = if i < n then nth succ i a else none := by
  intro n
  induction n with
  | zero => intro i a; rfl
  | succ n ih =>
      intro i a
      cases i with
      | zero => rfl
      | succ i =>
          rw [trail, List.getElem?_cons_succ]
          cases hs : succ a with
          | none => simp [nth_stop hs]
          | some b => simp [nth_step hs, ih]

/-- Pieces of one length put in a row: entry `j` is entry `j % k` of piece
`j / k`. -/
theorem getElem?_flatMap {β : Type v} {k : Nat} {f : α → List β}
    (hf : ∀ a, (f a).length = k) : ∀ (l : List α) (j : Nat), 0 < k →
      (l.flatMap f)[j]? = l[j / k]?.bind fun a => (f a)[j % k]? := by
  intro l
  induction l with
  | nil => intro j _; rfl
  | cons a l ih =>
      intro j hk
      rw [List.flatMap_cons]
      rcases Nat.lt_or_ge j k with hj | hj
      · rw [List.getElem?_append_left (by rw [hf]; exact hj),
          Nat.div_eq_of_lt hj, Nat.mod_eq_of_lt hj]
        rfl
      · obtain ⟨i, rfl⟩ : ∃ i, j = i + k := ⟨j - k, by omega⟩
        rw [List.getElem?_append_right (by rw [hf]; exact hj), hf,
          Nat.add_sub_cancel, ih i hk, Nat.add_div_right i hk,
          Nat.add_mod_right, List.getElem?_cons_succ]

end Iposix.Lib
