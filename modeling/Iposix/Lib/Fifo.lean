import Mathlib.Data.Nat.ModEq
import Mathlib.Logic.Function.Basic

/-!
# A ring of slots as a queue

A queue kept in `n` slots: the items lie in order from slot `out` on, and after
the last slot comes the first one. The positions may run past `n`, they count
modulo `n`; one slot stays free, so that the two ends of the queue meet only
when it is empty.
-/

namespace Iposix.Lib

variable {α : Type*} {n out : Nat} {slots : Nat → α} {items : List α} {x : α}

/-- The slots from `out` on hold the items. -/
structure Holds (n : Nat) (slots : Nat → α) (out : Nat) (items : List α) :
    Prop where
  room : items.length < n
  item : ∀ i x, items[i]? = some x → slots ((out + i) % n) = x

namespace Holds

theorem nil (hn : 0 < n) : Holds n slots out [] :=
  ⟨hn, fun _ _ h => nomatch h⟩

/-- Only the position modulo `n` counts. -/
theorem congr {out' : Nat} (h : Holds n slots out items)
    (hmod : out' % n = out % n) : Holds n slots out' items := by
  refine ⟨h.room, fun i x hi => ?_⟩
  rw [Nat.add_mod, hmod, ← Nat.add_mod]
  exact h.item i x hi

/-- Two items have different slots. -/
theorem slot_ne {i j : Nat} (hi : i < n) (hj : j < n) (hne : i ≠ j) :
    (out + i) % n ≠ (out + j) % n := by
  intro heq
  have hcong : i ≡ j [MOD n] := Nat.ModEq.add_left_cancel' out heq
  exact hne (Nat.ModEq.eq_of_lt_of_lt hcong hi hj)

theorem push (h : Holds n slots out items) (hroom : items.length + 1 < n) :
    Holds n (Function.update slots ((out + items.length) % n) x) out
      (items ++ [x]) := by
  refine ⟨by rw [List.length_append]; exact hroom, fun i y hi => ?_⟩
  have hlt := (List.getElem?_eq_some_iff.1 hi).1
  rw [List.length_append, List.length_singleton] at hlt
  rcases Nat.lt_succ_iff_lt_or_eq.1 hlt with hold | rfl
  · rw [List.getElem?_append_left hold] at hi
    rw [Function.update_of_ne (slot_ne (by omega) h.room (by omega))]
    exact h.item i y hi
  · rw [List.getElem?_concat_length] at hi
    cases hi
    exact Function.update_self ..

theorem head (h : Holds n slots out (x :: items)) : slots (out % n) = x :=
  h.item 0 x rfl

theorem pop (h : Holds n slots out (x :: items)) :
    Holds n slots (out + 1) items := by
  refine ⟨Nat.lt_of_succ_lt h.room, fun i y hi => ?_⟩
  rw [Nat.add_right_comm]
  exact h.item (i + 1) y hi

end Holds

end Iposix.Lib
