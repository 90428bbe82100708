import Iposix.Lib.Chain
import Iposix.Lib.Ring
import Iposix.Sched.RoundRobin

/-!
# Round robin goes round

The strategy refines the ring: the nodes reachable from `list_head` are the
items of a ring whose current item is `cur`, `push_new` is `push` and
`get_next_process` is `next`. An empty list represents no ring at all. The
rotation property is the ring's, read through the refinement.
-/

namespace Iposix.Sched.RoundRobin

open Iposix.Lib

universe u

variable {Process : Type u}

/-- The ring a list represents. -/
def Represents (s : RoundRobin Process) : Option (Lib.Ring Nat) → Prop
  | none => s.listHead = 0 ∧ s.cur = 0
  | some r => Chain s.next s.listHead r.items ∧ s.cur = r.cur

/-- What `push_new` makes of the ring. -/
def pushed (pl : Nat) : Option (Lib.Ring Nat) → Lib.Ring Nat
  | none => Lib.Ring.single pl
  | some r => r.push pl

variable {s : RoundRobin Process}

theorem init_represents : (init : RoundRobin Process).Represents none :=
  ⟨rfl, rfl⟩

/-- The nodes are exactly what the links reach: a fresh one is not yet. -/
theorem Fresh.not_mem {pl a : Nat} {l : List Nat} (hpl : pl ≠ 0)
    (hf : s.Fresh pl) (h : Chain s.next a l) : pl ∉ l := by
  intro hmem
  obtain ⟨t, r, rfl⟩ := List.append_of_mem hmem
  have hnext := h.next_eq
  rw [next, hf hpl] at hnext
  cases hnext

theorem next_pushNew {pl : Nat} {process : Process} (hpl : pl ≠ 0) (a : Nat) :
    (s.pushNew pl process).next a =
      if a = pl then some s.listHead else s.next a := by
  rw [pushNew, if_pos hpl]
  simp only [next]
  split <;> rfl

theorem pushNew_represents {o : Option (Lib.Ring Nat)} {pl : Nat}
    (process : Process) (h : s.Represents o) (hpl : pl ≠ 0)
    (hf : s.Fresh pl) :
    (s.pushNew pl process).Represents (some (pushed pl o)) := by
  have hhead : (s.pushNew pl process).listHead = pl := by
    rw [pushNew, if_pos hpl]
  cases o with
  | none =>
      obtain ⟨hnil, hcur⟩ := h
      refine ⟨⟨hhead, ?_, s.listHead, ?_, hnil⟩, ?_⟩
      · rw [hhead]
        exact hpl
      · rw [next_pushNew hpl]
        exact if_pos rfl
      · rw [pushNew, if_pos hpl]
        simp only [hcur, hnil]
        rfl
  | some r =>
      obtain ⟨hchain, hcur⟩ := h
      have hne : s.cur ≠ 0 := hcur ▸ hchain.ne_zero _ r.cur_mem
      have hnot := hf.not_mem hpl hchain
      refine ⟨⟨hhead, ?_, s.listHead, ?_, hchain.congr fun x hx => ?_⟩, ?_⟩
      · rw [hhead]
        exact hpl
      · rw [next_pushNew hpl, if_pos rfl]
      · rw [next_pushNew hpl, if_neg]
        rintro rfl
        exact hnot hx
      · rw [pushNew, if_pos hpl]
        simp only [if_neg hne]
        exact hcur

/-- Without memory for the node nothing happens. -/
theorem pushNew_zero (process : Process) : s.pushNew 0 process = s := by
  rw [pushNew, if_neg (by simp)]

/-- Every item of a chain is a live node. -/
theorem node_of_mem {a x : Nat} {l : List Nat} (h : Chain s.next a l)
    (hx : x ∈ l) : ∃ n, s.nodes x = some n := by
  obtain ⟨t, r, rfl⟩ := List.append_of_mem hx
  obtain ⟨n, hn, _⟩ := Option.map_eq_some_iff.1 h.next_eq
  exact ⟨n, hn⟩

theorem getNextProcess_none (h : s.Represents none) :
    s.getNextProcess = some (none, s) := by
  rw [getNextProcess, if_neg (by simp [h.2])]

/-- The link of the current node, or the head of the list behind the last
one, is where the ring goes next. -/
theorem link_eq {r : Lib.Ring Nat} (h : s.Represents (some r)) :
    ∃ n, s.nodes s.cur = some n ∧
      (if n.next ≠ 0 then n.next else s.listHead) = r.next.cur := by
  obtain ⟨hchain, hcur⟩ := h
  obtain ⟨n, hn, hlink⟩ := Option.map_eq_some_iff.1 hchain.next_eq
  refine ⟨n, hcur ▸ hn, ?_⟩
  cases ha : r.after with
  | cons y l =>
      have hy : y ≠ 0 :=
        hchain.ne_zero y (List.mem_append_right _ (by simp [ha]))
      have hny : n.next = y := by rw [hlink, ha]; rfl
      rw [hny, if_pos hy, Lib.Ring.next_of_cons ha]
  | nil =>
      have hn0 : n.next = 0 := by rw [hlink, ha]; rfl
      rw [hn0, if_neg (by simp), hchain.head, Lib.Ring.items_eq, ha,
        List.append_nil]
      cases hb : r.before ++ [r.cur] with
      | nil => exact absurd hb (by simp)
      | cons y l => rw [Lib.Ring.next_of_nil ha hb]; rfl

theorem getNextProcess_some {r : Lib.Ring Nat} (h : s.Represents (some r)) :
    ∃ n, s.nodes r.next.cur = some n ∧
      s.getNextProcess =
        some (some n.process, { s with cur := r.next.cur }) := by
  obtain ⟨n, hn, hgo⟩ := link_eq h
  obtain ⟨hchain, hcur⟩ := h
  have hne : s.cur ≠ 0 := hcur ▸ hchain.ne_zero _ r.cur_mem
  have hmem : r.next.cur ∈ r.items := r.items_next ▸ r.next.cur_mem
  have hne' : r.next.cur ≠ 0 := hchain.ne_zero _ hmem
  obtain ⟨n', hn'⟩ := node_of_mem hchain hmem
  refine ⟨n', hn', ?_⟩
  rw [getNextProcess, if_pos hne, hn]
  simp only [Option.bind_eq_bind, Option.bind_some, hgo, if_pos hne', hn']

theorem getNextProcess_represents {r : Lib.Ring Nat}
    (h : s.Represents (some r)) :
    ({ s with cur := r.next.cur } : RoundRobin Process).Represents
      (some r.next) := by
  refine ⟨?_, rfl⟩
  rw [Lib.Ring.items_next]
  exact h.1

/-! ## Runs -/

/-- A run over a list that is not empty is a turning of its ring. -/
theorem Run.turns {t : RoundRobin Process} {m : List Nat} {r : Lib.Ring Nat}
    (h : Run s m t) (hs : s.Represents (some r)) :
    ∃ r', r.Turns m r' ∧ t.Represents (some r') := by
  induction h with
  | refl => exact ⟨r, .refl r, hs⟩
  | pushNew pl process _ hf ih =>
      obtain ⟨r', hturns, hr'⟩ := ih
      rcases Nat.eq_zero_or_pos pl with rfl | hpl
      · rw [pushNew_zero]
        exact ⟨r', hturns, hr'⟩
      · exact ⟨r'.push pl, hturns.push pl,
          pushNew_represents process hr' (Nat.ne_of_gt hpl) hf⟩
  | getNextProcess _ hnext ih =>
      obtain ⟨r', hturns, hr'⟩ := ih
      obtain ⟨n, _, hgo⟩ := getNextProcess_some hr'
      rw [hgo] at hnext
      cases hnext
      exact ⟨r'.next, hturns.next, getNextProcess_represents hr'⟩

theorem Run.represents {t : RoundRobin Process} {m : List Nat}
    {o : Option (Lib.Ring Nat)} (h : Run s m t) (hs : s.Represents o) :
    ∃ o', t.Represents o' := by
  induction h with
  | refl => exact ⟨o, hs⟩
  | pushNew pl process _ hf ih =>
      obtain ⟨o', ho'⟩ := ih
      rcases Nat.eq_zero_or_pos pl with rfl | hpl
      · rw [pushNew_zero]
        exact ⟨o', ho'⟩
      · exact ⟨_, pushNew_represents process ho' (Nat.ne_of_gt hpl) hf⟩
  | getNextProcess _ hnext ih =>
      obtain ⟨o', ho'⟩ := ih
      cases o' with
      | none =>
          rw [getNextProcess_none ho'] at hnext
          cases hnext
          exact ⟨none, ho'⟩
      | some r =>
          obtain ⟨n, _, hgo⟩ := getNextProcess_some ho'
          rw [hgo] at hnext
          cases hnext
          exact ⟨some r.next, getNextProcess_represents ho'⟩

/-- In every state `cur` lies in the list unless both are empty, and between
two selections of one node every other node is selected exactly once. -/
theorem roundRobin_rotates {m : List Nat} (hrun : Run init m s) :
    ∃ l, Chain s.next s.listHead l ∧ (s.cur = 0 ↔ l = []) ∧
      (s.cur ≠ 0 → s.cur ∈ l) ∧ s.getNextProcess.isSome ∧
      ∀ {p q : Option Process} {t t' t'' : RoundRobin Process} {m : List Nat},
        s.getNextProcess = some (p, t) → Run t m t' →
        t'.getNextProcess = some (q, t'') → t''.cur = t.cur → t.cur ∉ m →
        ∀ y, y ∈ l → y ≠ t.cur → m.count y = 1 := by
  obtain ⟨o, ho⟩ := hrun.represents init_represents
  cases o with
  | none =>
      refine ⟨[], ho.1, iff_of_true ho.2 rfl, fun hne => absurd ho.2 hne, ?_,
        fun _ _ _ _ _ y hy => by cases hy⟩
      rw [getNextProcess_none ho]
      rfl
  | some r =>
      have hne : s.cur ≠ 0 := ho.2 ▸ ho.1.ne_zero _ r.cur_mem
      have hnil : r.items ≠ [] := List.ne_nil_of_mem r.cur_mem
      obtain ⟨n, _, hgo⟩ := getNextProcess_some ho
      refine ⟨r.items, ho.1, iff_of_false hne hnil,
        fun _ => ho.2 ▸ r.cur_mem, ?_, ?_⟩
      · rw [hgo]
        rfl
      · intro p q t t' t'' m hfirst hmid hlast hback hm y hy hyne
        rw [hgo] at hfirst
        cases hfirst
        obtain ⟨r', hturns, hr'⟩ :=
          hmid.turns (getNextProcess_represents ho)
        obtain ⟨n', _, hgo'⟩ := getNextProcess_some hr'
        rw [hgo'] at hlast
        cases hlast
        refine hturns.rotation hr'.1.nodup hm hback ?_ hyne
        rw [Lib.Ring.items_next]
        exact hy

/-- Two processes, the second pushed in front of the first. -/
def twoReady : RoundRobin Nat := (init.pushNew 8 1).pushNew 16 2

/-- From the selection of node 16 to its next one: a node is pushed, then the
rest of the list has its turn. -/
theorem twoReady_rotates :
    twoReady.cur = 8 ∧ [8, 24].count 8 = 1 := by
  have hrun : Run init [] twoReady :=
    .pushNew 16 2 (.pushNew 8 1 (.refl _) fun _ => rfl) fun _ => rfl
  obtain ⟨l, hl, _, hcur, _, hrot⟩ := roundRobin_rotates hrun
  have h₁ : Run { twoReady with cur := 16 } []
      (({ twoReady with cur := 16 } : RoundRobin Nat).pushNew 24 3) :=
    .pushNew 24 3 (.refl _) fun _ => rfl
  have h₂ := (h₁.getNextProcess (p := some 1) rfl).getNextProcess
    (p := some 3) rfl
  exact ⟨rfl, hrot (p := some 2) rfl h₂ (q := some 2) rfl rfl (by decide) 8
    (hcur (by decide)) (by decide)⟩

end Iposix.Sched.RoundRobin
