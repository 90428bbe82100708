import Iposix.Lib.Chain

/-!
# Linked lists of items

A chain whose nodes hold something: `node a` is what the node at an address
points to and what it holds, and `Items node a l` says that the list from `a`
on has the nodes of `l`, each with what is in it.

`scan` is the loop of every search in such a list, which keeps the node before
the one it looks at; a node is taken out behind that one, or at the head.
-/

namespace Iposix.Lib

universe u

variable {α : Type u}

def Items (node : Nat → Option (Nat × α)) : Nat → List (Nat × α) → Prop
  | a, [] => a = 0
  | a, x :: l =>
      a = x.1 ∧ a ≠ 0 ∧ ∃ b, node x.1 = some (b, x.2) ∧ Items node b l

/-- `while ( cur && test ) { prev = cur; cur = cur->next; }`: where the loop
ends and the node before. There is no result when it comes to an address where
no node is, or when the fuel runs out. -/
def scan (node : Nat → Option (Nat × α)) (test : α → Bool) :
    (fuel cur prev : Nat) → Option (Nat × Nat)
  | 0, _, _ => none
  | fuel + 1, cur, prev =>
      if cur = 0 then some (cur, prev)
      else
        match node cur with
        | none => none
        | some (next, x) =>
            if test x then scan node test fuel next cur else some (cur, prev)

namespace Items

variable {node node' : Nat → Option (Nat × α)} {a : Nat}

theorem chain : ∀ {l : List (Nat × α)} {a : Nat}, Items node a l →
    Chain (fun a => (node a).map Prod.fst) a (l.map Prod.fst) := by
  intro l
  induction l with
  | nil => intro a h; exact h
  | cons x l ih =>
      intro a ⟨hx, h0, b, hb, hl⟩
      refine ⟨hx, h0, b, ?_, ih hl⟩
      simp only [hb, Option.map_some]

theorem nodup {l : List (Nat × α)} (h : Items node a l) :
    (l.map Prod.fst).Nodup := h.chain.nodup

theorem head {l : List (Nat × α)} (h : Items node a l) :
    a = (l.map Prod.fst).headD 0 := h.chain.head

theorem ne_zero {l : List (Nat × α)} (h : Items node a l) {x : Nat}
    (hx : x ∈ l.map Prod.fst) : x ≠ 0 := h.chain.ne_zero x hx

theorem node_of_mem {l : List (Nat × α)} : ∀ {a : Nat}, Items node a l →
    ∀ x, x ∈ l → ∃ b, node x.1 = some (b, x.2) := by
  induction l with
  | nil => intro a _ x hx; cases hx
  | cons y l ih =>
      intro a ⟨_, _, b, hb, hl⟩ x hx
      rcases List.mem_cons.1 hx with rfl | hx
      · exact ⟨b, hb⟩
      · exact ih hl x hx

/-- A node in the middle of a list points to the node behind it. -/
theorem node_eq {x : Nat × α} {post : List (Nat × α)} :
    ∀ {pre : List (Nat × α)} {a : Nat}, Items node a (pre ++ x :: post) →
      node x.1 = some ((post.map Prod.fst).headD 0, x.2) := by
  intro pre
  induction pre with
  | nil =>
      intro a ⟨_, _, b, hb, hl⟩
      rw [hb, hl.head]
  | cons y pre ih =>
      intro a ⟨_, _, b, _, hl⟩
      exact ih hl

theorem congr {l : List (Nat × α)} : ∀ {a : Nat}, Items node a l →
    (∀ x, x ∈ l.map Prod.fst → node' x = node x) → Items node' a l := by
  induction l with
  | nil => intro a h _; exact h
  | cons y l ih =>
      intro a ⟨hy, h0, b, hb, hl⟩ heq
      refine ⟨hy, h0, b, ?_, ih hl fun x hx => heq x (List.mem_cons_of_mem _ hx)⟩
      rw [heq y.1 List.mem_cons_self]
      exact hb

theorem unique {l : List (Nat × α)} : ∀ {l' : List (Nat × α)} {a : Nat},
    Items node a l → Items node a l' → l = l' := by
  induction l with
  | nil =>
      intro l' a h h'
      cases l' with
      | nil => rfl
      | cons y l' => exact absurd h h'.2.1
  | cons x l ih =>
      intro l' a ⟨hx, h0, b, hb, hl⟩ h'
      cases l' with
      | nil => exact absurd h' h0
      | cons y l' =>
          obtain ⟨hy, -, b', hb', hl'⟩ := h'
          have haddr : x.1 = y.1 := hx.symm.trans hy
          rw [haddr, hb'] at hb
          obtain ⟨hbb, hitem⟩ := Prod.mk.inj (Option.some.inj hb)
          subst hbb
          rw [ih hl hl', Prod.ext haddr hitem.symm]

/-! ## Searching -/

/-- The loop passes what it is to pass and ends at the first that it is not, or
at the end of the list. -/
theorem scan_eq (test : α → Bool) {post : List (Nat × α)}
    (hpost : ∀ x, post.head? = some x → test x.2 = false) :
    ∀ {pre : List (Nat × α)} {a prev fuel : Nat},
      Items node a (pre ++ post) → (∀ x, x ∈ pre → test x.2 = true) →
      pre.length < fuel →
      scan node test fuel a prev =
        some ((post.map Prod.fst).headD 0,
          (pre.map Prod.fst).getLastD prev) := by
  intro pre
  induction pre with
  | nil =>
      intro a prev fuel h _ hfuel
      obtain ⟨fuel, rfl⟩ : ∃ k, fuel = k + 1 := ⟨fuel - 1, by simp only [List.length_nil] at hfuel; omega⟩
      cases post with
      | nil =>
          have hzero : a = 0 := h
          rw [scan, if_pos hzero, hzero]
          rfl
      | cons x post =>
          obtain ⟨hx, h0, b, hb, _⟩ := h
          have hstop := hpost x rfl
          rw [scan, if_neg h0, hx, hb]
          simp only [hstop, Bool.false_eq_true, if_false]
          rfl
  | cons y pre ih =>
      intro a prev fuel ⟨hy, h0, b, hb, hl⟩ hpre hfuel
      obtain ⟨fuel, rfl⟩ : ∃ k, fuel = k + 1 :=
        ⟨fuel - 1, by simp only [List.length_cons] at hfuel; omega⟩
      have hpass := hpre y List.mem_cons_self
      rw [scan, if_neg h0, hy, hb]
      simp only [hpass, if_true]
      rw [ih hl (fun x hx => hpre x (List.mem_cons_of_mem y hx))
        (Nat.lt_of_succ_lt_succ hfuel), List.map_cons, List.getLastD_cons]

/-! ## Taking a node out -/

theorem unlink_head {x : Nat × α} {l : List (Nat × α)}
    (h : Items node a (x :: l)) (hother : ∀ y, y ≠ x.1 → node' y = node y) :
    Items node' ((l.map Prod.fst).headD 0) l := by
  have hnot := (List.nodup_cons.1 h.nodup).1
  obtain ⟨-, -, b, -, hl⟩ := h
  rw [← hl.head]
  exact hl.congr fun y hy => hother y fun heq => hnot (heq ▸ hy)

/-- The node in front of the one that goes is made to point behind it. -/
theorem unlink_behind {x prev : Nat × α} {post : List (Nat × α)}
    (hprev : node' prev.1 = some ((post.map Prod.fst).headD 0, prev.2))
    (hother : ∀ y, y ≠ prev.1 → y ≠ x.1 → node' y = node y) :
    ∀ {pre : List (Nat × α)} {a : Nat},
      Items node a (pre ++ prev :: x :: post) →
      Items node' a (pre ++ prev :: post) := by
  intro pre
  induction pre with
  | nil =>
      intro a h
      have hnodup := List.nodup_cons.1 h.nodup
      have hnodup' := List.nodup_cons.1 hnodup.2
      obtain ⟨hp, h0, -, -, -, -, b, -, hpost⟩ := h
      refine ⟨hp, h0, _, hprev, ?_⟩
      rw [← hpost.head]
      refine hpost.congr fun y hy => hother y (fun heq => ?_) fun heq => ?_
      · exact hnodup.1 (heq ▸ List.mem_cons_of_mem _ hy)
      · exact hnodup'.1 (heq ▸ hy)
  | cons z pre ih =>
      intro a h
      have hnot := (List.nodup_cons.1 h.nodup).1
      obtain ⟨hz, h0, b, hb, hl⟩ := h
      refine ⟨hz, h0, b, ?_, ih hl⟩
      rw [hother z.1 (fun heq => hnot ?_) fun heq => hnot ?_]
      · exact hb
      · rw [heq]
        exact List.mem_map_of_mem (by simp)
      · rw [heq]
        exact List.mem_map_of_mem (by simp)

/-- Taking out a node: it is the head, or there is one in front of it. -/
theorem take_out {pre post : List (Nat × α)} {x : Nat × α}
    (h : Items node a (pre ++ x :: post)) :
    (pre = [] ∧ a = x.1 ∧
      ∀ node', (∀ y, y ≠ x.1 → node' y = node y) →
        Items node' ((post.map Prod.fst).headD 0) (pre ++ post)) ∨
    ∃ (prev : Nat × α) (b : Nat), (pre.map Prod.fst).getLastD 0 = prev.1 ∧
      prev.1 ≠ 0 ∧ prev.1 ≠ x.1 ∧ node prev.1 = some (b, prev.2) ∧
      ∀ node', node' prev.1 = some ((post.map Prod.fst).headD 0, prev.2) →
        (∀ y, y ≠ prev.1 → y ≠ x.1 → node' y = node y) →
        Items node' a (pre ++ post) := by
  rcases List.eq_nil_or_concat pre with hpre | ⟨front, prev, hpre⟩
  · subst hpre
    exact .inl ⟨rfl, h.1, fun node' hother => h.unlink_head hother⟩
  · rw [List.concat_eq_append] at hpre
    subst hpre
    rw [List.append_assoc, List.singleton_append] at h ⊢
    have hmem : prev ∈ front ++ prev :: x :: post :=
      List.mem_append_right _ List.mem_cons_self
    obtain ⟨b, hb⟩ := h.node_of_mem prev hmem
    have hnodup := h.nodup
    rw [List.map_append] at hnodup
    have hnot := (List.nodup_cons.1 (List.nodup_append.1 hnodup).2.1).1
    refine .inr ⟨prev, b, ?_, h.ne_zero (List.mem_map_of_mem hmem),
      fun heq => hnot (heq ▸ List.mem_cons_self), hb,
      fun node' hprev hother => unlink_behind hprev hother h⟩
    rw [List.map_append, List.getLastD_eq_getLast?]
    simp

end Items

end Iposix.Lib
