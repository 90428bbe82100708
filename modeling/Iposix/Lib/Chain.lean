/-!
# Null-terminated chains

A linked list in memory is an address to start from and a partial `next`
field, which is defined on the addresses of live nodes only. `Chain next a l`
says that the nodes from `a` on are those of `l`, in this order, and that the
last of them points to null. Null is zero and is never a node.

A chain determines its nodes, and since it ends, no node occurs twice.
-/

namespace Iposix.Lib

def Chain (next : Nat → Option Nat) : Nat → List Nat → Prop
  | a, [] => a = 0
  | a, x :: l => a = x ∧ a ≠ 0 ∧ ∃ b, next x = some b ∧ Chain next b l

namespace Chain

variable {next next' : Nat → Option Nat} {a x : Nat}

theorem head {l : List Nat} (h : Chain next a l) : a = l.headD 0 := by
  cases l with
  | nil => exact h
  | cons x l => exact h.1

theorem ne_zero : ∀ {l : List Nat} {a : Nat}, Chain next a l →
    ∀ x, x ∈ l → x ≠ 0 := by
  intro l
  induction l with
  | nil => intro a _ x hx; cases hx
  | cons y l ih =>
      intro a ⟨hy, h0, b, _, hl⟩ x hx
      rcases List.mem_cons.1 hx with rfl | hx
      · rw [← hy]
        exact h0
      · exact ih hl x hx

/-- A node in the middle of a chain points to the node behind it. -/
theorem next_eq {r : List Nat} : ∀ {l : List Nat} {a : Nat},
    Chain next a (l ++ x :: r) → next x = some (r.headD 0) := by
  intro l
  induction l with
  | nil =>
      intro a ⟨_, _, b, hb, hr⟩
      rw [hb, hr.head]
  | cons y l ih =>
      intro a ⟨_, _, b, _, hl⟩
      exact ih hl

/-- The rest of a chain from any of its nodes on is a chain. -/
theorem drop {r : List Nat} : ∀ {l : List Nat} {a : Nat},
    Chain next a (l ++ x :: r) → Chain next x (x :: r) := by
  intro l
  induction l with
  | nil =>
      intro a h
      have hax : a = x := h.1
      rwa [hax] at h
  | cons y l ih =>
      intro a ⟨_, _, b, _, hl⟩
      exact ih hl

/-- Only the fields of the nodes matter. -/
theorem congr : ∀ {l : List Nat} {a : Nat}, Chain next a l →
    (∀ x, x ∈ l → next' x = next x) → Chain next' a l := by
  intro l
  induction l with
  | nil => intro a h _; exact h
  | cons y l ih =>
      intro a ⟨hy, h0, b, hb, hl⟩ heq
      refine ⟨hy, h0, b, ?_, ih hl fun x hx => heq x (List.mem_cons_of_mem y hx)⟩
      rw [heq y List.mem_cons_self]
      exact hb

theorem unique : ∀ {l l' : List Nat} {a : Nat}, Chain next a l →
    Chain next a l' → l = l' := by
  intro l
  induction l with
  | nil =>
      intro l' a h h'
      cases l' with
      | nil => rfl
      | cons y l' => exact absurd h h'.2.1
  | cons x l ih =>
      intro l' a ⟨hx, h0, b, hb, hl⟩ h'
      cases l' with
      | nil => exact absurd h' h0
      | cons y l' =>
          obtain ⟨hy, _, b', hb', hl'⟩ := h'
          have hxy : x = y := hx.symm.trans hy
          subst hxy
          have hbb : b = b' := Option.some.inj (hb.symm.trans hb')
          subst hbb
          rw [ih hl hl']

/-- A node that occurred twice would be followed by a chain longer than
itself. -/
theorem nodup : ∀ {l : List Nat} {a : Nat}, Chain next a l → l.Nodup := by
  intro l
  induction l with
  | nil => intro a _; exact List.nodup_nil
  | cons x l ih =>
      intro a h
      obtain ⟨hx, h0, b, hb, hl⟩ := h
      refine List.nodup_cons.2 ⟨fun hmem => ?_, ih hl⟩
      obtain ⟨s, t, rfl⟩ := List.append_of_mem hmem
      have hagain : Chain next x (x :: t) := drop hl
      have hwhole : Chain next x (x :: (s ++ x :: t)) := ⟨rfl, hx ▸ h0, b, hb, hl⟩
      have hlen := congrArg List.length (unique hagain hwhole)
      simp only [List.length_cons, List.length_append] at hlen
      omega

end Chain

end Iposix.Lib
