/-!
# First fit

A search for the first `n` positions in a row that are free goes over the
positions once and remembers where the row it is in begins. A position that is
not free ends the row, and no row of `n` can have begun before it without
having been found.
-/

namespace Iposix.Lib

variable {free free' : Nat → Prop} {low n s c : Nat}

/-- The `n` positions from `s` on are free. -/
def RunAt (free : Nat → Prop) (n s : Nat) : Prop := ∀ i, i < n → free (s + i)

theorem RunAt.congr (h : ∀ i, s ≤ i → i < s + n → free i → free' i)
    (hrun : RunAt free n s) : RunAt free' n s := fun i hi =>
  h _ (Nat.le_add_right s i) (Nat.add_lt_add_left hi s) (hrun i hi)

/-- `s` is the first position from `low` on where `n` are free in a row. -/
structure FirstRun (free : Nat → Prop) (low n s : Nat) : Prop where
  low_le : low ≤ s
  run : RunAt free n s
  first : ∀ s', low ≤ s' → RunAt free n s' → s ≤ s'

/-- There is one first run at most. -/
theorem FirstRun.unique {s' : Nat} (h : FirstRun free low n s)
    (h' : FirstRun free low n s') : s = s' :=
  Nat.le_antisymm (h.first s' h'.low_le h'.run) (h'.first s h.low_le h.run)

/-- A search from `low` on has come to `c`, in a row that begins at `s`. -/
structure Scanning (free : Nat → Prop) (low n s c : Nat) : Prop where
  low_le : low ≤ s
  le : s ≤ c
  short : c < s + n
  run : ∀ i, s ≤ i → i < c → free i
  first : ∀ s', low ≤ s' → RunAt free n s' → s ≤ s'

theorem Scanning.start (free : Nat → Prop) (low : Nat) (hn : 0 < n) :
    Scanning free low n low low :=
  ⟨Nat.le_refl low, Nat.le_refl low, Nat.lt_add_of_pos_right hn,
    fun _ h₁ h₂ => absurd h₂ (Nat.not_lt.2 h₁), fun _ h _ => h⟩

theorem Scanning.extend (h : Scanning free low n s c) (hc : free c) :
    ∀ i, s ≤ i → i < c + 1 → free i := by
  intro i h₁ h₂
  rcases Nat.lt_or_eq_of_le (Nat.le_of_lt_succ h₂) with hlt | rfl
  · exact h.run i h₁ hlt
  · exact hc

/-- A free position makes the row longer. -/
theorem Scanning.next (h : Scanning free low n s c) (hc : free c)
    (hmore : c + 1 < s + n) : Scanning free low n s (c + 1) :=
  ⟨h.low_le, Nat.le_succ_of_le h.le, hmore, h.extend hc, h.first⟩

/-- Or it is the last one needed. -/
theorem Scanning.found (h : Scanning free low n s c) (hc : free c)
    (hlast : c + 1 = s + n) : FirstRun free low n s :=
  ⟨h.low_le, fun i hi => h.extend hc _ (Nat.le_add_right s i) (by omega),
    h.first⟩

/-- A position that is not free ends the row. -/
theorem Scanning.blocked (h : Scanning free low n s c) (hc : ¬ free c) :
    Scanning free low n (c + 1) (c + 1) := by
  have hle := h.le
  have hlow := h.low_le
  have hshort := h.short
  refine ⟨by omega, Nat.le_refl _, by omega, fun i h₁ h₂ => by omega,
    fun s' h₁ hrun => Nat.lt_of_not_le fun hge => hc ?_⟩
  have hs := h.first s' h₁ hrun
  have hhere := hrun (c - s') (by omega)
  rwa [Nat.add_sub_cancel' hge] at hhere

/-- A search that comes to the end has found nothing, for there is nothing. -/
theorem Scanning.none (h : Scanning free low n s c)
    (hend : ∀ i, c ≤ i → ¬ free i) {s' : Nat} (hlow : low ≤ s') :
    ¬ RunAt free n s' := by
  intro hrun
  have hs := h.first s' hlow hrun
  have hle := h.le
  have hshort := h.short
  have hlast := hrun (n - 1) (by omega)
  exact hend _ (by omega) hlast

end Iposix.Lib
