import Mathlib.Data.List.Basic

/-!
# A stack that grows downwards

The stack lies in a memory of words of four bytes. A push stores below the stack
pointer and moves it there, so what is pushed is read from the stack pointer on,
the last word first; what lies above is not touched.
-/

namespace Iposix.Lib

/-- The memory, by the addresses of its words, and the stack pointer. -/
structure DownStack where
  mem : Nat → Nat
  sp : Nat

namespace DownStack

variable {s : DownStack} {w a n : Nat} {ws l : List Nat}

def push (s : DownStack) (w : Nat) : DownStack where
  mem := fun a => if a = s.sp - 4 then w else s.mem a
  sp := s.sp - 4

/-- Pushes one word after the other. -/
def pushAll (s : DownStack) (ws : List Nat) : DownStack := ws.foldl push s

/-- The word `k` places above the stack pointer. -/
def peek (s : DownStack) (k : Nat) : Nat := s.mem (s.sp + 4 * k)

/-- The first `n` words. -/
def top (s : DownStack) (n : Nat) : List Nat := (List.range n).map s.peek

def drop (s : DownStack) (n : Nat) : DownStack := { s with sp := s.sp + 4 * n }

/-- Writes over the first words. -/
def poke (s : DownStack) (ws : List Nat) : DownStack :=
  { s with mem := fun a =>
      if s.sp ≤ a ∧ (a - s.sp) % 4 = 0 then
        ws.getD ((a - s.sp) / 4) (s.mem a)
      else s.mem a }

/-- The stack starts with `ws`. -/
def Holds (s : DownStack) (ws : List Nat) : Prop :=
  ∀ k w, ws[k]? = some w → s.peek k = w

theorem holds_nil : s.Holds [] := fun _ _ h => nomatch h

/-! ## Pushing -/

@[simp] theorem sp_push : (s.push w).sp = s.sp - 4 := rfl

theorem Holds.push (h : s.Holds ws) (hroom : 4 ≤ s.sp) :
    (s.push w).Holds (w :: ws) := by
  intro k v hk
  cases k with
  | zero =>
      cases hk
      exact if_pos rfl
  | succ k =>
      have haddr : s.sp - 4 + 4 * (k + 1) = s.sp + 4 * k := by omega
      rw [peek, DownStack.push, haddr]
      exact (if_neg (by omega)).trans (h k v hk)

theorem pushAll_append (s : DownStack) (ws l : List Nat) :
    (s.pushAll ws).pushAll l = s.pushAll (ws ++ l) :=
  (List.foldl_append ..).symm

theorem Holds.pushAll : ∀ {ws l : List Nat} {s : DownStack}, s.Holds l →
    4 * ws.length ≤ s.sp → (s.pushAll ws).Holds (ws.reverse ++ l) := by
  intro ws
  induction ws with
  | nil => intro l s h _; exact h
  | cons w ws ih =>
      intro l s h hroom
      rw [List.length_cons] at hroom
      rw [List.reverse_cons, List.append_assoc]
      exact ih (h.push (by omega)) (by rw [sp_push]; omega)

theorem sp_pushAll : ∀ (ws : List Nat) (s : DownStack),
    (s.pushAll ws).sp = s.sp - 4 * ws.length := by
  intro ws
  induction ws with
  | nil => intro s; rfl
  | cons w ws ih =>
      intro s
      refine (ih (s.push w)).trans ?_
      rw [sp_push, List.length_cons]
      omega

/-- What is pushed lies below the stack pointer. -/
theorem mem_pushAll : ∀ (ws : List Nat) (s : DownStack) (a : Nat),
    a + 4 * ws.length < s.sp ∨ s.sp ≤ a → 4 * ws.length ≤ s.sp →
    (s.pushAll ws).mem a = s.mem a := by
  intro ws
  induction ws with
  | nil => intro s a _ _; rfl
  | cons w ws ih =>
      intro s a ha hroom
      rw [List.length_cons] at ha hroom
      refine (ih (s.push w) a (by rw [sp_push]; omega)
        (by rw [sp_push]; omega)).trans (if_neg (by omega))

/-! ## Reading and writing over -/

theorem Holds.drop (h : s.Holds ws) (n : Nat) :
    (s.drop n).Holds (ws.drop n) := by
  intro k w hk
  rw [List.getElem?_drop] at hk
  rw [← h _ w hk, peek, peek, DownStack.drop, Nat.mul_add, Nat.add_assoc]

theorem Holds.top (h : s.Holds ws) (hn : n ≤ ws.length) :
    s.top n = ws.take n := by
  refine List.ext_getElem? fun k => ?_
  rw [DownStack.top, List.getElem?_map, List.getElem?_take]
  rcases Nat.lt_or_ge k n with hk | hk
  · have hlt : k < ws.length := Nat.lt_of_lt_of_le hk hn
    rw [if_pos hk, List.getElem?_range hk, List.getElem?_eq_getElem hlt]
    exact congrArg some (h k _ (List.getElem?_eq_getElem hlt))
  · rw [if_neg (by omega), List.getElem?_eq_none (by simpa using hk)]
    rfl

theorem Holds.getD_top {k : Nat} (h : s.Holds ws) (hk : k < n) (hw : ws[k]? = some w)
    (d : Nat) : (s.top n).getD k d = w := by
  rw [DownStack.top, List.getD_eq_getElem?_getD, List.getElem?_map,
    List.getElem?_range hk]
  exact h k w hw

/-- What is written over the first words is read there. -/
theorem Holds.poke {old : List Nat} (h : s.Holds (old ++ l))
    (hlength : ws.length = old.length) : (s.poke ws).Holds (ws ++ l) := by
  intro k w hk
  have haddr : s.sp + 4 * k - s.sp = 4 * k := Nat.add_sub_cancel_left ..
  have hread : (s.poke ws).peek k = ws.getD k (s.peek k) := by
    show ite _ _ _ = _
    rw [show (s.poke ws).sp = s.sp from rfl, haddr, Nat.mul_mod_right,
      Nat.mul_div_cancel_left k (by decide)]
    exact if_pos ⟨Nat.le_add_right .., rfl⟩
  rw [hread, List.getD_eq_getElem?_getD]
  rcases Nat.lt_or_ge k ws.length with hlt | hge
  · rw [List.getElem?_append_left hlt] at hk
    rw [hk]
    rfl
  · rw [List.getElem?_eq_none hge]
    refine h k w ?_
    rw [List.getElem?_append_right hge, hlength] at hk
    rwa [List.getElem?_append_right (hlength ▸ hge)]

theorem mem_poke (h : a < s.sp ∨ s.sp + 4 * ws.length ≤ a) :
    (s.poke ws).mem a = s.mem a := by
  simp only [poke]
  split
  next ha =>
    rw [List.getD_eq_getElem?_getD, List.getElem?_eq_none (by omega)]
    rfl
  next => rfl

end DownStack

end Iposix.Lib
