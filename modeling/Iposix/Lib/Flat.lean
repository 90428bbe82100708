import Mathlib.Tactic.SplitIfs

/-!
# Flat arrays: windows and splices

A disk, a buffer and the physical memory are all total functions from a
position to a cell. Two operations cover everything the kernel does to one of
them: `window` looks at an array from a position on, which is what passing
`&buf[position]` does, and `splice` overwrites a range with the front of
another array, which is what `memcpy` and a device transfer do.

The lemmas say how splices compose: an empty splice is none, two adjacent ones
are one, and overwriting a range with what it already holds changes nothing.
The read-modify-write law `splice_rmw` is the one a block layer lives on.
-/

namespace Iposix.Lib

variable {α : Type*}

/-- The array seen from position `a` on. -/
def window (f : Nat → α) (a : Nat) : Nat → α := fun k => f (a + k)

/-- `f` with the `n` cells from `a` on replaced by the first `n` of `g`. -/
def splice (f : Nat → α) (a n : Nat) (g : Nat → α) : Nat → α :=
  fun k => if a ≤ k ∧ k < a + n then g (k - a) else f k

/-- `f` with everything from position `a` on taken from `g`: what a callee
that was handed `&f[a]` leaves behind. -/
def graft (f : Nat → α) (a : Nat) (g : Nat → α) : Nat → α :=
  fun k => if a ≤ k then g (k - a) else f k

@[simp] theorem window_apply (f : Nat → α) (a k : Nat) :
    window f a k = f (a + k) := rfl

@[simp] theorem window_zero (f : Nat → α) : window f 0 = f := by
  funext k
  simp [window]

theorem window_window (f : Nat → α) (a b : Nat) :
    window (window f a) b = window f (a + b) := by
  funext k
  simp [window, Nat.add_assoc]

theorem splice_mem {f g : Nat → α} {a n k : Nat} (h₁ : a ≤ k) (h₂ : k < a + n) :
    splice f a n g k = g (k - a) := if_pos ⟨h₁, h₂⟩

theorem splice_lt {f g : Nat → α} {a n k : Nat} (h : k < a) :
    splice f a n g k = f k := if_neg (by omega)

theorem splice_ge {f g : Nat → α} {a n k : Nat} (h : a + n ≤ k) :
    splice f a n g k = f k := if_neg (by omega)

@[simp] theorem splice_add (f g : Nat → α) {a n k : Nat} (h : k < n) :
    splice f a n g (a + k) = g k := by
  rw [splice_mem (by omega) (by omega)]
  congr 1
  omega

@[simp] theorem splice_empty (f : Nat → α) (a : Nat) (g : Nat → α) :
    splice f a 0 g = f := by
  funext k
  exact if_neg (by omega)

/-- A splice reads only the front of its source. -/
theorem splice_congr {f g g' : Nat → α} {a n : Nat}
    (h : ∀ k, k < n → g k = g' k) : splice f a n g = splice f a n g' := by
  funext k
  simp only [splice]
  split_ifs with hk
  · exact h _ (by omega)
  · rfl

/-- Overwriting a range with what it holds changes nothing. -/
theorem splice_window_self (f : Nat → α) (a n : Nat) :
    splice f a n (window f a) = f := by
  funext k
  simp only [splice, window]
  split_ifs with hk
  · congr 1
    omega
  · rfl

/-- Two adjacent splices from one source are a single one. -/
theorem splice_append (f : Nat → α) (a n m : Nat) (g : Nat → α) :
    splice (splice f a n g) (a + n) m (window g n) = splice f a (n + m) g := by
  funext k
  simp only [splice, window]
  split_ifs <;> first | rfl | omega | (congr 1; omega)

/-- A callee that leaves its buffer alone leaves the whole alone. -/
theorem graft_window_self (f : Nat → α) (a : Nat) :
    graft f a (window f a) = f := by
  funext k
  simp only [graft, window]
  split_ifs with hk
  · congr 1
    omega
  · rfl

@[simp] theorem graft_zero (f g : Nat → α) : graft f 0 g = g := by
  funext k
  simp [graft]

/-- A callee that splices the front of what it was handed splices the whole. -/
theorem graft_splice (f : Nat → α) (a n : Nat) (g : Nat → α) :
    graft f a (splice (window f a) 0 n g) = splice f a n g := by
  funext k
  simp only [graft, splice, window]
  split_ifs <;> first | rfl | omega | (congr 1; omega)

/-- Splicing a window splices the whole. -/
theorem graft_splice_window (f : Nat → α) (a b n : Nat) (g : Nat → α) :
    graft f a (splice (window f a) b n g) = splice f (a + b) n g := by
  funext k
  simp only [graft, splice, window]
  split_ifs <;> first | rfl | omega | (congr 1; omega)

@[simp] theorem window_graft (f : Nat → α) (a : Nat) (g : Nat → α) :
    window (graft f a g) a = g := by
  funext k
  simp [window, graft]

@[simp] theorem graft_graft (f : Nat → α) (a : Nat) (g g' : Nat → α) :
    graft (graft f a g) a g' = graft f a g' := by
  funext k
  simp only [graft]
  split_ifs <;> rfl

/-- Read-modify-write: copying out the `n` cells at `b`, overwriting `l` of
them and writing all `n` back is overwriting those `l` in place. -/
theorem splice_rmw (f t : Nat → α) {b n s l : Nat} (g : Nat → α) (hsl : s + l ≤ n)
    (ht : ∀ k, k < n → t k = f (b + k)) :
    splice f b n (splice t s l g) = splice f (b + s) l g := by
  funext k
  simp only [splice]
  by_cases hk : b ≤ k ∧ k < b + n
  · rw [if_pos hk]
    by_cases hin : s ≤ k - b ∧ k - b < s + l
    · rw [if_pos hin, if_pos (by omega)]
      congr 1
      omega
    · rw [if_neg hin, if_neg (by omega), ht _ (by omega)]
      congr 1
      omega
  · rw [if_neg hk, if_neg (by omega)]

end Iposix.Lib
