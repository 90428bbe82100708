import Iposix.Lib.Run
import Iposix.Proofs.Rotation

/-!
# Removing a process from the ready list

Whatever the list, `remove` takes out the node of the process and leaves the
others in their order. It does not look at the member `cur`, whose name a local
of its own hides: that one still leads to the node that was deleted when the
process removed is the current one. `cur` stays in the list exactly as long as
the current process is not removed, and then neither of the two calls that
follow it can come to a node that is gone.
-/

namespace Iposix.Sched.RoundRobin

open Iposix.Lib

universe u

variable {Process : Type u} {s t : RoundRobin Process}
  {l pre post : List (Nat × Process)} {process : Process} {a fuel : Nat}

/-- The nodes from `list_head` on, with their processes. -/
def Lists (s : RoundRobin Process) (l : List (Nat × Process)) : Prop :=
  Items s.node s.listHead l

theorem nodes_of_node {b : Nat} (h : s.node a = some (b, process)) :
    s.nodes a = some ⟨b, process⟩ := by
  obtain ⟨n, hn, heq⟩ := Option.map_eq_some_iff.1 h
  cases heq
  exact hn

theorem Lists.nodes (h : s.Lists l) {x : Nat × Process} (hx : x ∈ l) :
    ∃ b, s.nodes x.1 = some ⟨b, x.2⟩ := by
  obtain ⟨b, hb⟩ := h.node_of_mem x hx
  exact ⟨b, nodes_of_node hb⟩

/-- Only the head and the nodes matter. -/
theorem Lists.congr (h : s.Lists l) (hhead : t.listHead = s.listHead)
    (hnodes : t.nodes = s.nodes) : t.Lists l := by
  have hnode : t.node = s.node := by
    funext a
    rw [node, node, hnodes]
  rw [Lists, hhead, hnode]
  exact h

theorem pushNew_lists (process : Process) (h : s.Lists l) (ha : a ≠ 0)
    (hf : s.Fresh a) : (s.pushNew a process).Lists ((a, process) :: l) := by
  have hnot : ∀ x, x ∈ l.map Prod.fst → x ≠ a := by
    intro x hx heq
    obtain ⟨y, hy, rfl⟩ := List.mem_map.1 hx
    obtain ⟨b, hb⟩ := h.nodes hy
    rw [heq, hf ha] at hb
    cases hb
  rw [Lists, pushNew, if_pos ha]
  refine ⟨rfl, ha, s.listHead, ?_, Items.congr h fun x hx => ?_⟩
  · simp only [node, if_true, Option.map_some]
  · simp only [node, if_neg (hnot x hx)]

theorem not_mem_of_nodup
    (h : ((pre ++ (a, process) :: post).map Prod.snd).Nodup) :
    process ∉ pre.map Prod.snd ∧ process ∉ (pre ++ post).map Prod.snd := by
  have hperm : ((pre ++ (a, process) :: post).map Prod.snd).Perm
      (((a, process) :: (pre ++ post)).map Prod.snd) := List.perm_middle.map _
  have hnot := (List.nodup_cons.1 (hperm.nodup_iff.1 h)).1
  refine ⟨fun hmem => hnot ?_, hnot⟩
  rw [List.map_append]
  exact List.mem_append_left _ hmem

/-! ## The current node -/

/-- `cur` is null or a node of the list, and so the two calls that follow it
answer null or a process of the list. -/
structure CurSafe (s : RoundRobin Process) (l : List (Nat × Process)) :
    Prop where
  cur : s.cur = 0 ∨ s.cur ∈ l.map Prod.fst
  current : ∃ p, s.getCurrentProcess = some p ∧
    ∀ q, p = some q → q ∈ l.map Prod.snd
  next : ∃ p t, s.getNextProcess = some (p, t) ∧
    ∀ q, p = some q → q ∈ l.map Prod.snd

theorem getNextProcess_nodes {p : Option Process}
    (h : s.getNextProcess = some (p, t)) :
    t.listHead = s.listHead ∧ t.nodes = s.nodes := by
  rw [getNextProcess] at h
  split at h
  · obtain ⟨n, -, h⟩ := Option.bind_eq_some_iff.1 h
    dsimp only at h
    generalize (if n.next ≠ 0 then n.next else s.listHead) = cur at h
    split at h
    · obtain ⟨n', -, h⟩ := Option.bind_eq_some_iff.1 h
      cases h
      exact ⟨rfl, rfl⟩
    · cases h
      exact ⟨rfl, rfl⟩
  · cases h
    exact ⟨rfl, rfl⟩

/-- The node that becomes current is one of the list. -/
theorem getNextProcess_lists (h : s.Lists l) (hcur : s.cur ∈ l.map Prod.fst) :
    ∃ x, x ∈ l ∧
      s.getNextProcess = some (some x.2, { s with cur := x.1 }) := by
  obtain ⟨y, hy, hyc⟩ := List.mem_map.1 hcur
  obtain ⟨pre, post, rfl⟩ := List.append_of_mem hy
  have hb := nodes_of_node h.node_eq
  have hne : s.cur ≠ 0 := h.ne_zero hcur
  have hgo : ∃ x, x ∈ pre ++ y :: post ∧
      (if (post.map Prod.fst).headD 0 ≠ 0 then (post.map Prod.fst).headD 0
        else s.listHead) = x.1 := by
    cases post with
    | cons z post =>
        have hz : z ∈ pre ++ y :: z :: post := by simp
        exact ⟨z, hz, if_pos (h.ne_zero (List.mem_map_of_mem hz))⟩
    | nil =>
        cases pre with
        | nil => exact ⟨y, hy, h.1⟩
        | cons x pre => exact ⟨x, List.mem_cons_self, h.1⟩
  obtain ⟨x, hx, hxgo⟩ := hgo
  obtain ⟨c, hc⟩ := h.nodes hx
  have hxne : x.1 ≠ 0 := h.ne_zero (List.mem_map_of_mem hx)
  refine ⟨x, hx, ?_⟩
  rw [getNextProcess, if_pos hne, ← hyc, hb]
  simp only [Option.bind_eq_bind, Option.bind_some, hxgo, if_pos hxne, hc]

theorem getCurrentProcess_lists (h : s.Lists l)
    (hcur : s.cur ∈ l.map Prod.fst) :
    ∃ y, y ∈ l ∧ y.1 = s.cur ∧ s.getCurrentProcess = some (some y.2) := by
  obtain ⟨y, hy, hyc⟩ := List.mem_map.1 hcur
  obtain ⟨b, hb⟩ := h.nodes hy
  refine ⟨y, hy, hyc, ?_⟩
  rw [getCurrentProcess, if_pos (h.ne_zero hcur), ← hyc, hb]
  rfl

theorem curSafe_iff (h : s.Lists l) :
    CurSafe s l ↔ s.cur = 0 ∨ s.cur ∈ l.map Prod.fst := by
  refine ⟨CurSafe.cur, fun hcur => ⟨hcur, ?_, ?_⟩⟩
  · rcases hcur with hzero | hmem
    · refine ⟨none, ?_, fun q hq => by cases hq⟩
      rw [getCurrentProcess, if_neg (fun hne => hne hzero)]
    · obtain ⟨y, hy, -, hcurrent⟩ := getCurrentProcess_lists h hmem
      refine ⟨some y.2, hcurrent, fun q hq => ?_⟩
      cases hq
      exact List.mem_map_of_mem hy
  · rcases hcur with hzero | hmem
    · refine ⟨none, s, ?_, fun q hq => by cases hq⟩
      rw [getNextProcess, if_neg (fun hne => hne hzero)]
    · obtain ⟨x, hx, hgo⟩ := getNextProcess_lists h hmem
      refine ⟨_, _, hgo, fun q hq => ?_⟩
      cases hq
      exact List.mem_map_of_mem hx

/-- The node under `cur` is gone with its process. -/
theorem not_curSafe (hcur : s.cur = a) (ha : a ≠ 0) (hgone : s.nodes a = none)
    (l : List (Nat × Process)) (h : s.Lists l) : ¬ CurSafe s l := by
  intro hsafe
  rcases hsafe.cur with hzero | hmem
  · exact ha (hcur.symm.trans hzero)
  · obtain ⟨y, hy, hyc⟩ := List.mem_map.1 hmem
    obtain ⟨b, hb⟩ := h.nodes hy
    rw [hyc, hcur, hgone] at hb
    cases hb

/-! ## What a call must meet -/

/-- `new` delivers what is not in use, and a process that is pushed is in no
node yet. -/
def Pushable (s : RoundRobin Process) : Call Process → Prop
  | .pushNew a process =>
      s.Fresh a ∧ ∀ b n, s.nodes b = some n → n.process ≠ process
  | _ => True

/-- The process that is removed is not the current one. -/
def Apart (s : RoundRobin Process) : Call Process → Prop
  | .remove process => s.getCurrentProcess ≠ some (some process)
  | _ => True

instance [DecidableEq Process] (s : RoundRobin Process) :
    (call : Call Process) → Decidable (Apart s call)
  | .remove _ => inferInstanceAs (Decidable (_ ≠ _))
  | .pushNew _ _ | .getNextProcess => inferInstanceAs (Decidable True)

/-- The list of a state, with different processes. -/
structure Sound (s : RoundRobin Process) (l : List (Nat × Process)) : Prop where
  lists : s.Lists l
  nodup : (l.map Prod.snd).Nodup

theorem init_sound : (init : RoundRobin Process).Sound [] :=
  ⟨rfl, List.nodup_nil⟩

/-! ## One removal -/

variable [DecidableEq Process]

theorem remove_absent (h : s.Lists l) (hnot : process ∉ l.map Prod.snd)
    (hfuel : l.length < fuel) : s.remove fuel process = some (none, s) := by
  have hend : Items s.node s.listHead (l ++ []) := by
    rw [List.append_nil]
    exact h
  have hpass : ∀ x, x ∈ l → decide (x.2 ≠ process) = true := fun x hx =>
    decide_eq_true fun heq => hnot (heq ▸ List.mem_map_of_mem hx)
  rw [remove, Items.scan_eq (fun p => p ≠ process) (fun x hx => by cases hx) hend
    hpass hfuel]
  rfl

/-- Where the search for a process ends, and what it finds there. -/
theorem scan_present (h : s.Lists (pre ++ (a, process) :: post))
    (hpre : process ∉ pre.map Prod.snd) (hfuel : pre.length < fuel) :
    scan s.node (fun p => p ≠ process) fuel s.listHead 0 =
        some (a, (pre.map Prod.fst).getLastD 0) ∧ a ≠ 0 ∧
      s.nodes a = some ⟨(post.map Prod.fst).headD 0, process⟩ := by
  have hmem : (a, process) ∈ pre ++ (a, process) :: post :=
    List.mem_append_right _ List.mem_cons_self
  refine ⟨Items.scan_eq (fun p => p ≠ process) ?_ h ?_ hfuel, h.ne_zero (List.mem_map_of_mem hmem),
    ?_⟩
  · intro x hx
    cases hx
    simp
  · intro x hx
    exact decide_eq_true fun heq => hpre (heq ▸ List.mem_map_of_mem hx)
  · exact nodes_of_node h.node_eq

/-- The node of a process that is there goes, and nothing else. -/
theorem remove_present (h : s.Lists (pre ++ (a, process) :: post))
    (hnot : process ∉ pre.map Prod.snd) (hfuel : pre.length < fuel) :
    ∃ t, s.remove fuel process = some (some process, t) ∧
      t.Lists (pre ++ post) ∧ t.nodes a = none ∧ t.cur = s.cur := by
  obtain ⟨hscan, ha, hnode⟩ := scan_present h hnot hfuel
  rcases h.take_out with ⟨rfl, hhead, hitems⟩ |
    ⟨prev, b, hlast, hprev, hne, hb, hitems⟩
  · rw [List.map_nil, List.getLastD_nil] at hscan
    refine ⟨{ s with
      listHead := (post.map Prod.fst).headD 0
      nodes := fun b => if b = a then none else s.nodes b }, ?_, ?_, if_pos rfl,
      rfl⟩
    · simp only [remove, hscan, Option.bind_eq_bind, Option.bind_some, hnode,
        ne_eq, ha, not_true_eq_false, not_false_eq_true, if_true, if_false,
        if_pos hhead.symm]
    · refine hitems _ fun y hy => ?_
      simp only [node, if_neg hy]
  · rw [hlast] at hscan
    let nodes := fun b =>
      if b = a then none
      else if b = prev.1 then some ⟨(post.map Prod.fst).headD 0, prev.2⟩
      else s.nodes b
    refine ⟨{ s with nodes := nodes }, ?_, ?_, if_pos rfl, rfl⟩
    · simp only [remove, hscan, Option.bind_eq_bind, Option.bind_some, hnode,
        nodes_of_node hb, ne_eq, ha, hprev, not_false_eq_true, if_true]
      rfl
    · refine hitems _ ?_ fun y hy hy' => ?_
      · simp only [node, nodes, if_neg hne, if_true, Option.map_some]
      · simp only [node, nodes, if_neg hy, if_neg hy']

/-- `remove` answers the process exactly if it is there, and then its node, and
no other, is gone. -/
structure Removes (s : RoundRobin Process) (l : List (Nat × Process))
    (fuel : Nat) (process : Process) : Prop where
  absent : process ∉ l.map Prod.snd → s.remove fuel process = some (none, s)
  present : ∀ pre a post, l = pre ++ (a, process) :: post →
    ∃ t, s.remove fuel process = some (some process, t) ∧
      t.Lists (pre ++ post) ∧ process ∉ (pre ++ post).map Prod.snd ∧
      t.nodes a = none

theorem removes (h : s.Lists l) (hnodup : (l.map Prod.snd).Nodup)
    (hfuel : l.length < fuel) (process : Process) :
    s.Removes l fuel process := by
  refine ⟨fun hnot => remove_absent h hnot hfuel, fun pre a post hl => ?_⟩
  subst hl
  obtain ⟨hnot, hnot'⟩ := not_mem_of_nodup hnodup
  have hshort : pre.length < fuel := by
    rw [List.length_append] at hfuel
    omega
  obtain ⟨t, ht, hlists, hgone, -⟩ := remove_present h hnot hshort
  exact ⟨t, ht, hlists, hnot', hgone⟩

/-! ## Runs -/

/-- Whatever `cur` is, a call that comes to an end leaves a list. -/
theorem step_sound (h : s.Sound l) {call : Call Process}
    (hpush : Pushable s call) (hfuel : l.length < fuel)
    (hstep : step fuel s call = some t) :
    ∃ l', t.Sound l' ∧ l'.length ≤ l.length + 1 := by
  cases call with
  | pushNew a process =>
      rw [← Option.some.inj hstep]
      rcases Nat.eq_zero_or_pos a with rfl | ha
      · rw [pushNew_zero]
        exact ⟨l, h, Nat.le_succ _⟩
      · refine ⟨_, ⟨pushNew_lists process h.lists (Nat.ne_of_gt ha) hpush.1,
          List.nodup_cons.2 ⟨fun hmem => ?_, h.nodup⟩⟩, Nat.le_refl _⟩
        obtain ⟨x, hx, hprocess⟩ := List.mem_map.1 hmem
        obtain ⟨b, hb⟩ := h.lists.nodes hx
        exact hpush.2 _ _ hb hprocess
  | getNextProcess =>
      obtain ⟨⟨p, t'⟩, hgo, ht⟩ := Option.map_eq_some_iff.1 hstep
      obtain rfl : t' = t := ht
      have hsame := getNextProcess_nodes hgo
      exact ⟨l, ⟨h.lists.congr hsame.1 hsame.2, h.nodup⟩, Nat.le_succ _⟩
  | remove process =>
      obtain ⟨⟨p, t'⟩, hgo, ht⟩ := Option.map_eq_some_iff.1 hstep
      obtain rfl : t' = t := ht
      have hremoves := removes h.lists h.nodup hfuel process
      by_cases hmem : process ∈ l.map Prod.snd
      · obtain ⟨⟨a, q⟩, hx, rfl⟩ := List.mem_map.1 hmem
        obtain ⟨pre, post, rfl⟩ := List.append_of_mem hx
        obtain ⟨t, ht, hlists, -, -⟩ := hremoves.present pre a post rfl
        rw [ht] at hgo
        cases hgo
        refine ⟨pre ++ post, ⟨hlists, h.nodup.sublist ?_⟩, ?_⟩
        · exact ((List.sublist_cons_self (a, q) post).append_left pre).map _
        · simp only [List.length_append, List.length_cons]
          omega
      · rw [hremoves.absent hmem] at hgo
        cases hgo
        exact ⟨l, h, Nat.le_succ _⟩

/-- Only the removal of the current process leaves `cur` behind. -/
theorem step_curSafe (h : s.Sound l) (hsafe : CurSafe s l) {call : Call Process}
    (hpush : Pushable s call) (hfuel : l.length < fuel) :
    ∃ t, step fuel s call = some t ∧
      ((∃ l', t.Lists l' ∧ CurSafe t l') ↔ Apart s call) := by
  cases call with
  | pushNew a process =>
      refine ⟨_, rfl, iff_of_true ?_ trivial⟩
      rcases Nat.eq_zero_or_pos a with rfl | ha
      · rw [pushNew_zero]
        exact ⟨l, h.lists, hsafe⟩
      · have hlists := pushNew_lists process h.lists (Nat.ne_of_gt ha) hpush.1
        refine ⟨_, hlists, (curSafe_iff hlists).2 (.inr ?_)⟩
        rw [pushNew, if_pos (Nat.ne_of_gt ha), List.map_cons]
        dsimp only
        by_cases hcur : s.cur = 0
        · rw [if_pos hcur]
          by_cases hhead : s.listHead = 0
          · rw [if_neg (fun hne => hne hhead)]
            exact List.mem_cons_self
          · rw [if_pos hhead]
            refine List.mem_cons_of_mem _ ?_
            cases l with
            | nil => exact absurd h.lists hhead
            | cons x l => exact h.lists.1 ▸ List.mem_cons_self
        · rw [if_neg hcur]
          exact List.mem_cons_of_mem _ (hsafe.cur.resolve_left hcur)
  | getNextProcess =>
      rcases hsafe.cur with hzero | hmem
      · refine ⟨s, ?_, iff_of_true ⟨l, h.lists, hsafe⟩ trivial⟩
        rw [step, getNextProcess, if_neg (fun hne => hne hzero)]
        rfl
      · obtain ⟨x, hx, hgo⟩ := getNextProcess_lists h.lists hmem
        have hlists : ({ s with cur := x.1 } : RoundRobin Process).Lists l :=
          h.lists
        refine ⟨{ s with cur := x.1 }, ?_, iff_of_true ⟨l, hlists,
          (curSafe_iff hlists).2 (.inr (List.mem_map_of_mem hx))⟩ trivial⟩
        rw [step, hgo]
        rfl
  | remove process =>
      obtain ⟨p, hcurrent, hp⟩ := hsafe.current
      by_cases hmem : process ∈ l.map Prod.snd
      · obtain ⟨⟨a, q⟩, hx, rfl⟩ := List.mem_map.1 hmem
        obtain ⟨pre, post, rfl⟩ := List.append_of_mem hx
        have hnot := not_mem_of_nodup h.nodup
        have hshort : pre.length < fuel := by
          rw [List.length_append] at hfuel
          omega
        obtain ⟨t, ht, hlists, hgone, hcur⟩ :=
          remove_present h.lists hnot.1 hshort
        have ha : a ≠ 0 := h.lists.ne_zero (List.mem_map_of_mem hx)
        refine ⟨t, by rw [step, ht]; rfl, ?_⟩
        rcases hsafe.cur with hzero | hmem
        · refine iff_of_true ⟨_, hlists, (curSafe_iff hlists).2
            (.inl (hcur.trans hzero))⟩ fun hsame => ?_
          rw [getCurrentProcess, if_neg (fun hne => hne hzero)] at hsame
          cases hsame
        · obtain ⟨y, hy, hyc, hy'⟩ := getCurrentProcess_lists h.lists hmem
          by_cases hsame : y.2 = q
          · have hya : y.1 = a := by
              rcases List.mem_append.1 hy with hin | hin
              · exact absurd (hsame ▸ List.mem_map_of_mem hin) hnot.1
              · rcases List.mem_cons.1 hin with heq | hin
                · exact congrArg Prod.fst heq
                · refine absurd (hsame ▸ List.mem_map_of_mem ?_) hnot.2
                  exact List.mem_append_right _ hin
            refine iff_of_false (fun hexists => ?_) fun hapart => ?_
            · obtain ⟨l', hl', hsafe'⟩ := hexists
              exact not_curSafe (hcur.trans (hyc.symm.trans hya)) ha hgone l' hl'
                hsafe'
            · exact hapart (hsame ▸ hy')
          · refine iff_of_true ⟨_, hlists, (curSafe_iff hlists).2 (.inr ?_)⟩
              fun heq => ?_
            · rw [hcur, ← hyc]
              refine List.mem_map_of_mem ?_
              rcases List.mem_append.1 hy with hin | hin
              · exact List.mem_append_left _ hin
              · rcases List.mem_cons.1 hin with heq | hin
                · exact absurd (congrArg Prod.snd heq) hsame
                · exact List.mem_append_right _ hin
            · rw [hy'] at heq
              exact hsame (Option.some.inj (Option.some.inj heq))
      · refine ⟨s, ?_, iff_of_true ⟨l, h.lists, hsafe⟩ fun hsame => ?_⟩
        · rw [step, remove_absent h.lists hmem hfuel]
          rfl
        · rw [hcurrent] at hsame
          exact hmem (hp process (Option.some.inj hsame))

/-- Throughout a run there is a list, and fuel enough for it. -/
theorem run_sound : ∀ {calls : List (Call Process)} {s : RoundRobin Process}
    {l : List (Nat × Process)}, s.Sound l → Meets (step fuel) Pushable s calls →
    l.length + calls.length < fuel →
    Meets (step fuel)
      (fun s call => Pushable s call ∧ ∃ l, s.Sound l ∧ l.length < fuel) s calls ∧
    ∀ t, calls.foldlM (step fuel) s = some t → ∃ l, t.Sound l ∧ l.length < fuel := by
  intro calls
  induction calls with
  | nil =>
      intro s l h _ hfuel
      refine ⟨trivial, fun t ht => ?_⟩
      cases ht
      exact ⟨l, h, hfuel⟩
  | cons call calls ih =>
      intro s l h ⟨hpush, hrest⟩ hfuel
      rw [List.length_cons] at hfuel
      have hnext : ∀ t, step fuel s call = some t →
          Meets (step fuel)
            (fun s call => Pushable s call ∧ ∃ l, s.Sound l ∧ l.length < fuel) t
            calls ∧
          ∀ u, calls.foldlM (step fuel) t = some u →
            ∃ l, u.Sound l ∧ l.length < fuel := by
        intro t ht
        obtain ⟨l', hl', hlength⟩ := step_sound h hpush (by omega) ht
        exact ih hl' (hrest t ht) (by omega)
      refine ⟨⟨⟨hpush, l, h, by omega⟩, fun t ht => (hnext t ht).1⟩, fun u hu => ?_⟩
      rw [List.foldlM_cons] at hu
      obtain ⟨t, ht, hu⟩ := Option.bind_eq_some_iff.1 hu
      exact (hnext t ht).2 u hu

/-- Every removal of a run takes out just the process it is given, and `cur`
stays in the list exactly if this is never the current one. -/
theorem remove_keeps_list_iff (calls : List (Call Process))
    (hpush : Meets (step fuel) Pushable init calls) (hfuel : calls.length < fuel) :
    (∀ s, calls.foldlM (step fuel) init = some s →
      ∃ l, s.Sound l ∧ ∀ process, s.Removes l fuel process) ∧
    (Along (step fuel) (fun s => ∃ l, s.Lists l ∧ CurSafe s l) init calls ↔
      Meets (step fuel) Apart init calls) := by
  obtain ⟨hmeets, hlast⟩ := run_sound init_sound hpush
    (by rw [List.length_nil, Nat.zero_add]; exact hfuel)
  constructor
  · intro s hs
    obtain ⟨l, hl, hlength⟩ := hlast s hs
    exact ⟨l, hl, removes hl.lists hl.nodup hlength⟩
  · refine along_iff_meets (I := fun _ => True) ?_ trivial
      ⟨[], init_sound.lists, (curSafe_iff init_sound.lists).2 (.inl rfl)⟩ hmeets
    intro s call _ ⟨l', hl', hsafe⟩ ⟨hpush, l, hl, hlength⟩
    rw [hl'.unique hl.lists] at hsafe
    obtain ⟨t, ht, hiff⟩ := step_curSafe hl hsafe hpush hlength
    exact ⟨t, ht, trivial, hiff⟩

/-- The process pushed last is removed while the other one runs. -/
theorem remove_other_keeps_list :
    Along (step 5) (fun s => ∃ l, s.Lists l ∧ CurSafe s l) init
      [.pushNew 8 1, .pushNew 16 2, .remove 2, .getNextProcess] := by
  refine (remove_keeps_list_iff _ ?_ (by decide : 4 < 5)).2.2 (by decide)
  refine ⟨⟨fun _ => rfl, fun b n h => by cases h⟩, fun t ht => ?_⟩
  cases ht
  refine ⟨⟨fun _ => rfl, fun b n h => ?_⟩, fun t _ =>
    ⟨trivial, fun t _ => ⟨trivial, fun t _ => trivial⟩⟩⟩
  simp only [pushNew, init, ne_eq, Nat.reduceEqDiff, not_false_eq_true,
    if_true] at h
  split at h <;> cases h
  decide

/-- The only process is removed, and `cur` leads to its deleted node. -/
theorem remove_current_dangles :
    ∃ s, [Call.pushNew 8 1, .remove 1].foldlM (step 3) init = some s ∧
      s.listHead = 0 ∧ s.cur = 8 ∧ s.getCurrentProcess = none ∧
      s.getNextProcess = none ∧ ¬ ∃ l, s.Lists l ∧ CurSafe s l :=
  ⟨_, rfl, rfl, rfl, rfl, rfl, fun ⟨_, _, hsafe⟩ => by
    obtain ⟨_, hcurrent, _⟩ := hsafe.current
    cases hcurrent⟩

end Iposix.Sched.RoundRobin
