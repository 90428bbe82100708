/-!
# A list with a cursor that goes round

`Ring` is a non-empty list split at one of its items, the current one. `push`
adds at the front of the list, `next` moves on to the item behind and from the
last item back to the front.

`Turns r m r'` is any mixture of the two leading from `r` to `r'`, with `m`
the items that became current on the way. The items pushed on the way lie in
front of the list, so the cursor does not meet them before it has wrapped, and
then meets all of them and all it had left behind before it comes back. That
is `Turns.rotation`: between two visits of one item every other one is visited
exactly once.
-/

namespace Iposix.Lib

universe u

structure Ring (α : Type u) where
  before : List α
  cur : α
  after : List α

namespace Ring

variable {α : Type u}

def items (r : Ring α) : List α := r.before ++ r.cur :: r.after

def single (x : α) : Ring α := ⟨[], x, []⟩

def push (x : α) (r : Ring α) : Ring α := ⟨x :: r.before, r.cur, r.after⟩

def next (r : Ring α) : Ring α :=
  match r.after with
  | y :: l => ⟨r.before ++ [r.cur], y, l⟩
  | [] =>
      match r.before with
      | [] => r
      | y :: l => ⟨[], y, l ++ [r.cur]⟩

theorem items_eq (r : Ring α) :
    r.items = (r.before ++ [r.cur]) ++ r.after := by
  rw [items, List.append_assoc, List.singleton_append]

theorem next_of_cons {r : Ring α} {y : α} {l : List α}
    (h : r.after = y :: l) : r.next = ⟨r.before ++ [r.cur], y, l⟩ := by
  rw [next, h]

theorem next_of_nil {r : Ring α} {y : α} {l : List α} (h : r.after = [])
    (hy : r.before ++ [r.cur] = y :: l) : r.next = ⟨[], y, l⟩ := by
  rw [next, h]
  obtain ⟨before, cur, after⟩ := r
  cases before with
  | nil =>
      cases hy
      cases h
      rfl
  | cons z t =>
      cases hy
      rfl

@[simp] theorem items_next (r : Ring α) : r.next.items = r.items := by
  cases ha : r.after with
  | cons y l =>
      rw [next_of_cons ha, items_eq r, ha]
      rfl
  | nil =>
      cases hb : r.before ++ [r.cur] with
      | nil => exact absurd hb (by simp)
      | cons y l =>
          rw [next_of_nil ha hb, items_eq r, ha, hb, List.append_nil]
          rfl

theorem cur_mem (r : Ring α) : r.cur ∈ r.items :=
  List.mem_append_right _ List.mem_cons_self

/-! ## Turning the ring -/

inductive Turns : Ring α → List α → Ring α → Prop
  | refl (r : Ring α) : Turns r [] r
  | push {r r' : Ring α} {m : List α} (x : α) :
      Turns r m r' → Turns r m (r'.push x)
  | next {r r' : Ring α} {m : List α} :
      Turns r m r' → Turns r (m ++ [r'.next.cur]) r'.next

/-- Where the cursor is that left `r.cur` with the visits `m` behind it and
has not come back: still behind it in the list, or past the wrap. `q` and `p`
are the items pushed before the wrap, those pushed later are `s`. -/
inductive Away (r : Ring α) : List α → Ring α → Prop
  | behind {r' : Ring α} (q m : List α) (hafter : r.after = m ++ r'.after)
      (hto : r'.before ++ [r'.cur] = q ++ r.before ++ r.cur :: m) :
      Away r m r'
  | wrapped {r' : Ring α} (p s c d : List α) (hcd : c ++ d = p ++ r.before)
      (hto : r'.before ++ [r'.cur] = s ++ c)
      (hafter : r'.after = d ++ r.cur :: r.after) :
      Away r (r.after ++ c) r'

theorem Away.push {r r' : Ring α} {m : List α} (h : Away r m r') (x : α) :
    Away r m (r'.push x) := by
  cases h with
  | behind q m hafter hto =>
      refine .behind (x :: q) m hafter ?_
      show x :: (r'.before ++ [r'.cur]) = _
      rw [hto]
      rfl
  | wrapped p s c d hcd hto hafter =>
      refine .wrapped p (x :: s) c d hcd ?_ hafter
      show x :: (r'.before ++ [r'.cur]) = _
      rw [hto]
      rfl

theorem not_nodup_of_twice {x : α} {s t u : List α} :
    ¬ (s ++ x :: (t ++ x :: u)).Nodup := by
  intro h
  have htail := (List.nodup_append.1 h).2.1
  exact (List.nodup_cons.1 htail).1
    (List.mem_append_right _ List.mem_cons_self)

/-- One step of a cursor that is away either keeps it away or, when the item
it comes from is the only one of its kind, brings it back. -/
theorem Away.next {r r' : Ring α} {m : List α} (h : Away r m r')
    (hnd : r'.items.Nodup) :
    (r'.next.cur = r.cur ∧
        ∃ p, m = r.after ++ (p ++ r.before) ∧
          (p ++ r.before ++ r.cur :: r.after).Nodup) ∨
      (r'.next.cur ≠ r.cur ∧ Away r (m ++ [r'.next.cur]) r'.next) := by
  rw [items_eq] at hnd
  cases h with
  | behind q m hafter hto =>
      rw [hto] at hnd
      cases ha : r'.after with
      | cons y l =>
          rw [ha] at hafter hnd
          right
          rw [next_of_cons ha]
          refine ⟨fun hy => ?_, .behind q (m ++ [y]) ?_ ?_⟩
          · rw [show y = r.cur from hy, List.append_assoc,
              List.cons_append] at hnd
            exact not_nodup_of_twice hnd
          · rw [hafter, List.append_assoc, List.singleton_append]
          · show r'.before ++ [r'.cur] ++ [y] = _
            rw [hto, List.append_assoc, List.cons_append]
      | nil =>
          rw [ha, List.append_nil] at hafter
          rw [ha, List.append_nil, ← hafter] at hnd
          cases hq : q ++ r.before with
          | nil =>
              rw [hq, List.nil_append] at hto
              rw [next_of_nil ha hto]
              refine .inl ⟨rfl, q, ?_, hnd⟩
              rw [hq, List.append_nil, hafter]
          | cons y l =>
              rw [hq, List.cons_append] at hto
              rw [hq] at hnd
              right
              rw [next_of_nil ha hto, ← hafter]
              refine ⟨fun hy => ?_, .wrapped q [] [y] l ?_ rfl ?_⟩
              · rw [show y = r.cur from hy] at hnd
                exact not_nodup_of_twice (s := []) hnd
              · rw [hq, List.singleton_append]
              · rw [hafter]
  | wrapped p s c d hcd hto hafter =>
      cases d with
      | nil =>
          rw [List.append_nil] at hcd
          rw [List.nil_append] at hafter
          rw [next_of_cons hafter]
          refine .inl ⟨rfl, p, by rw [hcd], ?_⟩
          rw [hto, hafter, List.append_assoc, hcd] at hnd
          exact (List.nodup_append.1 hnd).2.1
      | cons y d =>
          rw [hafter] at hnd
          right
          rw [next_of_cons hafter]
          refine ⟨fun hy => ?_, ?_⟩
          · rw [show y = r.cur from hy] at hnd
            exact not_nodup_of_twice hnd
          · have hm : r.after ++ c ++ [y] = r.after ++ (c ++ [y]) :=
              List.append_assoc ..
            rw [hm]
            refine .wrapped p s (c ++ [y]) d ?_ ?_ rfl
            · rw [← hcd, List.append_assoc, List.singleton_append]
            · show r'.before ++ [r'.cur] ++ [y] = _
              rw [hto, List.append_assoc]

theorem Turns.away {r r' : Ring α} {m : List α} (h : Turns r m r')
    (hnd : r'.items.Nodup) (hm : r.cur ∉ m) : Away r m r' := by
  induction h with
  | refl => exact .behind [] [] rfl rfl
  | push x _ ih => exact (ih (List.nodup_cons.1 hnd).2 hm).push x
  | next _ ih =>
      rw [items_next] at hnd
      rw [List.mem_append, List.mem_singleton, not_or] at hm
      rcases (ih hnd hm.1).next hnd with ⟨hback, _⟩ | ⟨_, haway⟩
      · exact absurd hback.symm hm.2
      · exact haway

/-- Between two visits of an item every other one is visited exactly once. -/
theorem Turns.rotation [BEq α] [LawfulBEq α] {r r' : Ring α} {m : List α}
    (h : Turns r m r') (hnd : r'.items.Nodup) (hm : r.cur ∉ m)
    (hback : r'.next.cur = r.cur) {y : α} (hy : y ∈ r.items)
    (hne : y ≠ r.cur) : m.count y = 1 := by
  rcases (h.away hnd hm).next hnd with ⟨_, p, rfl, hp⟩ | ⟨hstill, _⟩
  · have hmem : y ∈ p ++ r.before ++ r.cur :: r.after := by
      rw [List.append_assoc]
      exact List.mem_append_right _ hy
    have hone := hp.count (a := y)
    rw [if_pos hmem, List.count_append, List.count_cons_of_ne hne.symm] at hone
    rw [List.count_append, Nat.add_comm]
    exact hone
  · exact absurd hback hstill

end Ring

end Iposix.Lib
