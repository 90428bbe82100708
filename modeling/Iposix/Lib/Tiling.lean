/-!
# Tilings

A list of tiles, each an interval of addresses, tiles a range when the first
begins where the range does, each other one where the one before ends, and the
range ends with the last. No tile is empty.

Tiles of one tiling are pairwise disjoint and leave no address out; that is
all a heap of contiguous blocks has to say about its memory.
-/

namespace Iposix.Lib

universe u

variable {α : Type u} (lo hi : α → Nat)

def Tiles : Nat → List α → Nat → Prop
  | a, [], z => a = z
  | a, x :: l, z => lo x = a ∧ lo x < hi x ∧ Tiles (hi x) l z

namespace Tiles

variable {lo hi} {a z : Nat}

theorem le : ∀ {l : List α} {a : Nat}, Tiles lo hi a l z → a ≤ z := by
  intro l
  induction l with
  | nil => intro a h; exact Nat.le_of_eq h
  | cons x l ih =>
      intro a ⟨hlo, hlt, hl⟩
      have := ih hl
      omega

theorem append {k : List α} : ∀ {l : List α} {a : Nat},
    Tiles lo hi a (l ++ k) z ↔
      ∃ y, Tiles lo hi a l y ∧ Tiles lo hi y k z := by
  intro l
  induction l with
  | nil =>
      intro a
      exact ⟨fun h => ⟨a, rfl, h⟩, fun ⟨y, ha, h⟩ => ha ▸ h⟩
  | cons x l ih =>
      intro a
      constructor
      · intro ⟨hlo, hlt, h⟩
        obtain ⟨y, hl, hk⟩ := ih.1 h
        exact ⟨y, ⟨hlo, hlt, hl⟩, hk⟩
      · intro ⟨y, ⟨hlo, hlt, hl⟩, hk⟩
        exact ⟨hlo, hlt, ih.2 ⟨y, hl, hk⟩⟩

/-- A tiling cut at one of its tiles. -/
theorem cut {l k : List α} {x : α} :
    Tiles lo hi a (l ++ x :: k) z ↔
      Tiles lo hi a l (lo x) ∧ lo x < hi x ∧ Tiles lo hi (hi x) k z := by
  rw [append]
  constructor
  · intro ⟨y, hl, hlo, hlt, hk⟩
    exact ⟨hlo ▸ hl, hlt, hk⟩
  · intro ⟨hl, hlt, hk⟩
    exact ⟨lo x, hl, rfl, hlt, hk⟩

theorem bounds {l : List α} {x : α} (h : Tiles lo hi a l z) (hx : x ∈ l) :
    a ≤ lo x ∧ lo x < hi x ∧ hi x ≤ z := by
  obtain ⟨s, t, rfl⟩ := List.append_of_mem hx
  obtain ⟨hs, hlt, ht⟩ := cut.1 h
  exact ⟨hs.le, hlt, ht.le⟩

/-- Two tiles of which one comes later in the list do not meet. -/
theorem disjoint : ∀ {l : List α} {a : Nat}, Tiles lo hi a l z →
    l.Pairwise fun x y => hi x ≤ lo y := by
  intro l
  induction l with
  | nil => intro a _; exact List.Pairwise.nil
  | cons x l ih =>
      intro a ⟨_, _, hl⟩
      exact List.Pairwise.cons (fun y hy => (hl.bounds hy).1) (ih hl)

theorem eq_or_disjoint {l : List α} {x y : α} (h : Tiles lo hi a l z)
    (hx : x ∈ l) (hy : y ∈ l) : x = y ∨ hi x ≤ lo y ∨ hi y ≤ lo x := by
  obtain ⟨s, t, rfl⟩ := List.append_of_mem hx
  obtain ⟨hs, _, ht⟩ := cut.1 h
  rcases List.mem_append.1 hy with hy | hy
  · exact .inr (.inr (hs.bounds hy).2.2)
  · rcases List.mem_cons.1 hy with rfl | hy
    · exact .inl rfl
    · exact .inr (.inl (ht.bounds hy).1)

theorem injective {l : List α} {x y : α} (h : Tiles lo hi a l z)
    (hx : x ∈ l) (hy : y ∈ l) (heq : lo x = lo y) : x = y := by
  have hbx := h.bounds hx
  have hby := h.bounds hy
  rcases h.eq_or_disjoint hx hy with hxy | hxy | hxy
  · exact hxy
  · omega
  · omega

/-- No address of the range is lost. -/
theorem cover : ∀ {l : List α} {a k : Nat}, Tiles lo hi a l z → a ≤ k →
    k < z → ∃ x, x ∈ l ∧ lo x ≤ k ∧ k < hi x := by
  intro l
  induction l with
  | nil =>
      intro a k h hak hkz
      have haz : a = z := h
      omega
  | cons x l ih =>
      intro a k ⟨hlo, hlt, hl⟩ hak hkz
      rcases Nat.lt_or_ge k (hi x) with hk | hk
      · exact ⟨x, List.mem_cons_self, by omega, hk⟩
      · obtain ⟨y, hy, hky⟩ := ih hl hk hkz
        exact ⟨y, List.mem_cons_of_mem x hy, hky⟩

theorem length_le : ∀ {l : List α} {a : Nat}, Tiles lo hi a l z →
    a + l.length ≤ z := by
  intro l
  induction l with
  | nil => intro a h; exact Nat.le_of_eq h
  | cons x l ih =>
      intro a ⟨hlo, hlt, hl⟩
      have := ih hl
      rw [List.length_cons]
      omega

end Tiles

end Iposix.Lib
