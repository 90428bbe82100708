import Iposix.Lib.Walk
import Mathlib.Data.Finset.Card

/-!
# Walks that end

A walk that comes to a node a second time goes round for ever. Among finitely
many nodes this is the only way not to end: more places than nodes cannot all
hold different ones.
-/

namespace Iposix.Lib

universe u

/-- The walk comes to a node a second time. -/
def Cycles {α : Type u} (succ : α → Option α) (a : α) : Prop :=
  ∃ i j b, i < j ∧ nth succ i a = some b ∧ nth succ j a = some b

section Endless

variable {α : Type u} {succ : α → Option α} {a : α}

/-- Once round, and round again. -/
theorem nth_round {d : Nat} {b : α} (h : nth succ d b = some b) :
    ∀ m, nth succ (m * d) b = some b := by
  intro m
  induction m with
  | zero => rw [Nat.zero_mul, nth]
  | succ m ih => rw [Nat.succ_mul, nth_add, ih, Option.bind_some, h]

theorem Cycles.endless (h : Cycles succ a) (k : Nat) : nth succ k a ≠ none := by
  obtain ⟨i, j, b, hij, hi, hj⟩ := h
  have hround : nth succ (j - i) b = some b := by
    have hsplit : nth succ (i + (j - i)) a =
        (nth succ i a).bind (nth succ (j - i)) := nth_add i (j - i) a
    rw [Nat.add_sub_cancel' (Nat.le_of_lt hij), hi, hj] at hsplit
    exact hsplit.symm
  intro hend
  have hfar : nth succ (i + k * (j - i)) a = some b := by
    rw [nth_add, hi, Option.bind_some, nth_round hround]
  have hlate : k ≤ i + k * (j - i) := by
    have := Nat.le_mul_of_pos_right k (Nat.sub_pos_of_lt hij)
    omega
  rw [nth_none_of_le hend hlate] at hfar
  cases hfar

/-- A walk among the members of `S` that has not ended after as many steps has
been somewhere twice. -/
theorem cycles_of_long {S : Finset α}
    (hstep : ∀ a b, a ∈ S → succ a = some b → b ∈ S) (ha : a ∈ S)
    (h : nth succ S.card a ≠ none) : Cycles succ a := by
  have hsome : ∀ i, i < S.card + 1 →
      nth succ i a = some ((nth succ i a).getD a) := by
    intro i hi
    cases hnode : nth succ i a with
    | none => exact absurd (nth_none_of_le hnode (by omega)) h
    | some b => rfl
  have hcard : S.card < (Finset.range (S.card + 1)).card := by simp
  obtain ⟨i, hi, j, hj, hne, heq⟩ :=
    Finset.exists_ne_map_eq_of_card_lt_of_maps_to hcard
      (f := fun i => (nth succ i a).getD a) fun i hi => by
        have hnode := hsome i (Finset.mem_range.1 hi)
        exact Finset.mem_coe.2
          (nth_invariant (P := fun b => b ∈ S) hstep ha hnode)
  have hi := hsome i (Finset.mem_range.1 hi)
  have hj := hsome j (Finset.mem_range.1 hj)
  rcases Nat.lt_or_gt_of_ne hne with hij | hij
  · exact ⟨i, j, _, hij, hi, hj.trans (congrArg some heq.symm)⟩
  · exact ⟨j, i, _, hij, hj, hi.trans (congrArg some heq)⟩

theorem not_cycles_of_none {k : Nat} (h : nth succ k a = none) : ¬ Cycles succ a :=
  fun hcycles => hcycles.endless k h

/-- A walk into `S` that ends has at most one node more than `S`. -/
theorem trail_length_le [DecidableEq α] {S : Finset α} {n : Nat}
    (hstep : ∀ a b, succ a = some b → b ∈ S) (h : nth succ n a = none) :
    (trail succ n a).length ≤ S.card + 1 := by
  have hshort : nth succ (insert a S).card a = none := by
    by_contra hlong
    exact not_cycles_of_none h (cycles_of_long
      (fun b c _ hbc => Finset.mem_insert_of_mem (hstep b c hbc))
      (Finset.mem_insert_self a S) hlong)
  rw [← List.getElem?_eq_none_iff, trail_getElem?,
    nth_none_of_le hshort (Finset.card_insert_le a S), ite_self]

end Endless

theorem ends_iff_not_cycles {succ : Nat → Option Nat} {N a : Nat}
    (hstep : ∀ a b, succ a = some b → b < N) (ha : a < N) :
    (∃ i, nth succ i a = none) ↔ ¬ Cycles succ a := by
  constructor
  · rintro ⟨i, hi⟩
    exact not_cycles_of_none hi
  · intro h
    refine ⟨(Finset.range N).card, ?_⟩
    by_contra hlong
    exact h (cycles_of_long
      (fun b c _ hbc => Finset.mem_range.2 (hstep b c hbc))
      (Finset.mem_range.2 ha) hlong)

end Iposix.Lib
