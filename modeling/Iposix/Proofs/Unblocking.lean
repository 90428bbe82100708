import Iposix.Lib.Run
import Iposix.Sched.BlockedList

/-!
# Taking a process out of the blocked list

The loop of `remove_from_blocked` goes on over nodes that hold the process and
stops at the first that does not. If the ready list has a current node, the
process is written into it and the node where the loop stopped is taken out; if
it has none, nothing is. So a blocked process never comes out. A call does what
it should only when there is nothing to do and the ready list is not in the
way: it has no current node, or the process is null and already what the
current node holds.
-/

namespace Iposix.Sched.BlockedList

open Iposix.Lib

universe u

variable {Process : Type u} {s t : BlockedList Process}
  {l : List (Nat × Option Process)} {process : Option Process} {fuel : Nat}

/-- The nodes from `blocked_list_head` on, with their processes. -/
def Lists (s : BlockedList Process) (l : List (Nat × Option Process)) : Prop :=
  Items s.node s.blockedListHead l

theorem nodes_of_node {a b : Nat} (h : s.node a = some (b, process)) :
    s.nodes a = some ⟨b, process⟩ := by
  obtain ⟨n, hn, heq⟩ := Option.map_eq_some_iff.1 h
  cases heq
  exact hn

theorem moveToBlocked_lists (process : Option Process) (h : s.Lists l) {aux : Nat}
    (haux : aux ≠ 0) (hnew : s.nodes aux = none) :
    ∃ t, s.moveToBlocked aux process = some t ∧ t.Lists ((aux, process) :: l) ∧
      t.ready = s.ready := by
  have hnot : ∀ x, x ∈ l.map Prod.fst → x ≠ aux := by
    intro x hx heq
    obtain ⟨y, hy, rfl⟩ := List.mem_map.1 hx
    obtain ⟨b, hb⟩ := h.node_of_mem y hy
    rw [heq, node, hnew] at hb
    cases hb
  refine ⟨_, if_neg haux, ⟨rfl, haux, s.blockedListHead, ?_,
    Items.congr h fun x hx => ?_⟩, rfl⟩
  · simp only [node, if_true, Option.map_some]
  · simp only [node, if_neg (hnot x hx)]

/-- Writing a process where it stands changes nothing, and nothing else does. -/
theorem setCurrent_eq_iff (ready : RoundRobin (Option Process))
    (process : Option Process) :
    setCurrent ready process = some ready ↔
      ∃ b, ready.nodes ready.cur = some ⟨b, process⟩ := by
  cases hnode : ready.nodes ready.cur with
  | none =>
      refine iff_of_false (fun h => ?_) fun ⟨b, hb⟩ => by cases hb
      rw [setCurrent, hnode] at h
      cases h
  | some n =>
      rw [setCurrent, hnode]
      constructor
      · intro h
        have hnodes := congrArg (fun r => r.nodes ready.cur) (Option.some.inj h)
        dsimp only at hnodes
        rw [if_pos rfl, hnode] at hnodes
        exact ⟨n.next, hnodes.symm⟩
      · intro ⟨b, hb⟩
        obtain rfl := Option.some.inj hb
        have hsame : (fun a => if a = ready.cur then some ⟨b, process⟩
            else ready.nodes a) = ready.nodes := by
          funext a
          by_cases ha : a = ready.cur
          · rw [if_pos ha, ha, hnode]
          · rw [if_neg ha]
        show some { ready with nodes := fun a =>
          if a = ready.cur then some ⟨b, process⟩ else ready.nodes a } = some ready
        rw [hsame]

theorem not_lists_shorter {pre post : List (Nat × Option Process)}
    {x : Nat × Option Process} (h : s.Lists (pre ++ x :: post)) :
    ¬ s.Lists (pre ++ post) := by
  intro h'
  have hlength := congrArg List.length (h.unique h')
  simp only [List.length_append, List.length_cons] at hlength
  omega

/-! ## One call -/

variable [DecidableEq Process]

/-- The loop goes over the nodes of the process in front and stops behind
them. -/
theorem scan_blocked (h : s.Lists l) (hfuel : l.length < fuel)
    (process : Option Process) :
    ∃ pre post, l = pre ++ post ∧ (∀ x, post.head? = some x → x.2 ≠ process) ∧
      scan s.node (fun p => p = process) fuel s.blockedListHead 0 =
        some ((post.map Prod.fst).headD 0,
          (pre.map Prod.fst).getLastD 0) := by
  let passes := fun x : Nat × Option Process => decide (x.2 = process)
  have hsplit : l.takeWhile passes ++ l.dropWhile passes = l :=
    List.takeWhile_append_dropWhile
  have hstop : ∀ x, (l.dropWhile passes).head? = some x →
      decide (x.2 = process) = false := by
    intro x hx
    have hhead := List.head?_dropWhile_not passes l
    rw [hx] at hhead
    exact hhead
  have hpass : ∀ x, x ∈ l.takeWhile passes → decide (x.2 = process) = true :=
    List.all_eq_true.1 List.all_takeWhile
  have hlength : (l.takeWhile passes).length < fuel :=
    Nat.lt_of_le_of_lt (List.takeWhile_sublist passes).length_le hfuel
  refine ⟨_, _, hsplit.symm, fun x hx => of_decide_eq_false (hstop x hx), ?_⟩
  have hlists : Items s.node s.blockedListHead
      (l.takeWhile passes ++ l.dropWhile passes) := hsplit.symm ▸ h
  exact Items.scan_eq (fun p => p = process) hstop hlists hpass hlength

/-- What a call is to do: take out one node of the process, or else nothing. -/
structure Removes (s : BlockedList Process) (l : List (Nat × Option Process))
    (fuel : Nat) (process : Option Process) : Prop where
  present : process ∈ l.map Prod.snd →
    ∃ pre a post t, l = pre ++ (a, process) :: post ∧
      s.removeFromBlocked fuel process = some (process, t) ∧
      t.Lists (pre ++ post) ∧ t.nodes a = none ∧ t.ready = s.ready
  absent : process ∉ l.map Prod.snd →
    s.removeFromBlocked fuel process = some (none, s)

/-- The process is not blocked, and the ready list has no current node that
could be changed. -/
structure Idle (s : BlockedList Process) (l : List (Nat × Option Process))
    (process : Option Process) : Prop where
  absent : process ∉ l.map Prod.snd
  ready : s.ready.cur = 0 ∨
    process = none ∧ ∃ b, s.ready.nodes s.ready.cur = some ⟨b, none⟩

/-- The four things that a call can do. -/
inductive Outcome (s : BlockedList Process) (l : List (Nat × Option Process))
    (process : Option Process) :
    Option (Option Process × BlockedList Process) → Prop
  | nothing (h : s.ready.cur = 0) : Outcome s l process (some (none, s))
  | null (h : s.ready.cur ≠ 0) (hnull : process = none)
      {ready : RoundRobin (Option Process)}
      (hready : setCurrent s.ready none = some ready) :
      Outcome s l process (some (none, { s with ready := ready }))
  | fault (h : s.ready.cur ≠ 0) : Outcome s l process none
  | other (h : s.ready.cur ≠ 0) {pre post : List (Nat × Option Process)}
      {x : Nat × Option Process} (hl : l = pre ++ x :: post)
      (hx : x.2 ≠ process) {u : BlockedList Process} (hu : u.Lists (pre ++ post))
      (hgone : u.nodes x.1 = none) : Outcome s l process (some (x.2, u))

theorem removeFromBlocked_outcome (h : s.Lists l) (hfuel : l.length < fuel)
    (process : Option Process) :
    Outcome s l process (s.removeFromBlocked fuel process) := by
  obtain ⟨pre, post, hl, hstop, hscan⟩ := scan_blocked h hfuel process
  simp only [removeFromBlocked, hscan]
  by_cases hcur : s.ready.cur = 0
  · rw [if_pos hcur]
    exact .nothing hcur
  rw [if_neg hcur]
  cases hready : setCurrent s.ready process with
  | none => exact .fault hcur
  | some ready =>
      cases process with
      | none => exact .null hcur rfl hready
      | some p =>
          cases post with
          | nil =>
              exact .fault hcur
          | cons x post =>
              subst hl
              have hmem : x ∈ pre ++ x :: post :=
                List.mem_append_right _ List.mem_cons_self
              have hx : x.1 ≠ 0 := h.ne_zero (List.mem_map_of_mem hmem)
              have hnode := nodes_of_node h.node_eq
              have hother : x.2 ≠ some p := hstop x rfl
              rcases h.take_out with ⟨rfl, hhead, hitems⟩ |
                ⟨prev, b, hlast, hprev, hne, hb, hitems⟩
              · simp only [Option.bind_eq_bind, Option.bind_some,
                  Option.isSome_some, if_true, List.map_cons, List.headD_cons,
                  List.map_nil, List.getLastD_nil, if_neg hx, hnode, ne_eq,
                  not_true_eq_false, if_false, if_pos hhead.symm]
                refine .other hcur rfl hother (hitems _ fun y hy => ?_)
                  (if_pos rfl)
                simp only [node, if_neg hy]
              · simp only [Option.bind_eq_bind, Option.bind_some,
                  Option.isSome_some, if_true, List.map_cons, List.headD_cons,
                  hlast, if_neg hx, hnode, ne_eq, hprev, not_false_eq_true,
                  nodes_of_node hb]
                refine .other hcur rfl hother
                  (hitems _ ?_ fun y hy hy' => ?_) (if_pos rfl)
                · simp only [node, if_neg hne, if_true, Option.map_some]
                · simp only [node, if_neg hy, if_neg hy']

/-- A call takes out no process that is blocked, and leaves everything alone
only when there is nothing to do. -/
theorem removes_iff (h : s.Lists l) (hfuel : l.length < fuel)
    (process : Option Process) :
    Removes s l fuel process ↔ Idle s l process := by
  have hout := removeFromBlocked_outcome h hfuel process
  generalize hgo : s.removeFromBlocked fuel process = out at hout
  constructor
  · intro ⟨hpresent, habsent⟩
    have hnot : process ∉ l.map Prod.snd := by
      intro hmem
      obtain ⟨pre, a, post, t, hl, hdone, hlists, -, -⟩ := hpresent hmem
      subst hl
      rw [hgo] at hdone
      cases hout with
      | nothing _ =>
          cases hdone
          exact not_lists_shorter h hlists
      | null _ _ _ =>
          cases hdone
          exact not_lists_shorter h hlists
      | fault _ => cases hdone
      | other _ _ hx _ _ =>
          obtain ⟨hanswer, -⟩ := Prod.mk.inj (Option.some.inj hdone)
          exact hx hanswer
    have hdone := habsent hnot
    rw [hgo] at hdone
    refine ⟨hnot, ?_⟩
    cases hout with
    | nothing hcur => exact .inl hcur
    | null _ hnull hready =>
        obtain ⟨-, hsame⟩ := Prod.mk.inj (Option.some.inj hdone)
        have hready' := congrArg BlockedList.ready hsame
        refine .inr ⟨hnull, (setCurrent_eq_iff _ _).1 ?_⟩
        exact hready.trans (congrArg some hready')
    | fault _ => cases hdone
    | @other _ pre post x hl _ u _ hgone =>
        obtain ⟨-, rfl⟩ := Prod.mk.inj (Option.some.inj hdone)
        have hmem : x ∈ l := by
          rw [hl]
          exact List.mem_append_right _ List.mem_cons_self
        obtain ⟨b, hb⟩ := h.node_of_mem x hmem
        rw [node, hgone] at hb
        cases hb
  · intro ⟨hnot, hidle⟩
    refine ⟨fun hmem => absurd hmem hnot, fun _ => ?_⟩
    rw [hgo]
    rcases hidle with hcur | ⟨hnull, hready⟩
    · cases hout with
      | nothing _ => rfl
      | null hne _ _ | fault hne | other hne _ _ _ _ => exact absurd hcur hne
    · subst hnull
      obtain ⟨pre, post, -, -, hscan⟩ := scan_blocked h hfuel none
      rw [← hgo]
      simp only [removeFromBlocked, hscan, (setCurrent_eq_iff _ _).2 hready,
        Option.bind_eq_bind, Option.bind_some, Option.isSome_none,
        Bool.false_eq_true, if_false, ite_self]

/-! ## Runs -/

/-- `new` delivers what is not in use. -/
def Fresh (s : BlockedList Process) : Call Process → Prop
  | .moveToBlocked aux _ => aux ≠ 0 → s.nodes aux = none
  | _ => True

/-- A call does what it is to: `move_to_blocked` puts the process in front, if
there is memory for the node. -/
def Right (fuel : Nat) (s : BlockedList Process) : Call Process → Prop
  | .moveToBlocked aux process => aux ≠ 0 →
      ∃ l t, s.Lists l ∧ s.moveToBlocked aux process = some t ∧
        t.Lists ((aux, process) :: l) ∧ t.ready = s.ready
  | .removeFromBlocked process => ∃ l, s.Lists l ∧ Removes s l fuel process
  | .ready _ => True

/-- Nothing is to be taken out, and the ready list is not in the way. -/
def NothingToDo (s : BlockedList Process) : Call Process → Prop
  | .removeFromBlocked process => ∃ l, s.Lists l ∧ Idle s l process
  | _ => True

theorem right_iff (h : s.Lists l) (hfuel : l.length < fuel) {call : Call Process}
    (hnew : Fresh s call) : Right fuel s call ↔ NothingToDo s call := by
  cases call with
  | moveToBlocked aux process =>
      refine iff_of_true (fun haux => ?_) trivial
      obtain ⟨t, ht, hlists, hready⟩ :=
        moveToBlocked_lists process h haux (hnew haux)
      exact ⟨l, t, h, ht, hlists, hready⟩
  | removeFromBlocked process =>
      constructor
      · intro ⟨l', hl', hremoves⟩
        obtain rfl := h.unique hl'
        exact ⟨l, h, (removes_iff h hfuel process).1 hremoves⟩
      · intro ⟨l', hl', hidle⟩
        obtain rfl := h.unique hl'
        exact ⟨l, h, (removes_iff h hfuel process).2 hidle⟩
  | ready _ => exact Iff.rfl

/-- Right or wrong, a call that comes to an end leaves a list. -/
theorem step_lists (h : s.Lists l) (hfuel : l.length < fuel) {call : Call Process}
    (hnew : Fresh s call) (hstep : step fuel s call = some t) :
    ∃ l', t.Lists l' ∧ l'.length ≤ l.length + 1 := by
  cases call with
  | moveToBlocked aux process =>
      by_cases haux : aux = 0
      · rw [step, moveToBlocked, if_pos haux] at hstep
        cases hstep
      · obtain ⟨u, hu, hlists, -⟩ := moveToBlocked_lists process h haux (hnew haux)
        rw [step, hu] at hstep
        cases hstep
        exact ⟨_, hlists, Nat.le_refl _⟩
  | removeFromBlocked process =>
      have hout := removeFromBlocked_outcome h hfuel process
      rw [step] at hstep
      generalize s.removeFromBlocked fuel process = out at hout hstep
      cases hout with
      | nothing _ =>
          cases hstep
          exact ⟨l, h, Nat.le_succ _⟩
      | null _ _ _ =>
          cases hstep
          exact ⟨l, h, Nat.le_succ _⟩
      | fault _ => cases hstep
      | other _ hl _ hlists _ =>
          cases hstep
          refine ⟨_, hlists, ?_⟩
          simp only [hl, List.length_append, List.length_cons]
          omega
  | ready ready =>
      cases hstep
      exact ⟨l, h, Nat.le_succ _⟩

theorem run_right_iff : ∀ {calls : List (Call Process)} {s : BlockedList Process}
    {l : List (Nat × Option Process)}, s.Lists l →
    Meets (step fuel) Fresh s calls → l.length + calls.length < fuel →
    (Meets (step fuel) (Right fuel) s calls ↔
      Meets (step fuel) NothingToDo s calls) := by
  intro calls
  induction calls with
  | nil => intro s l _ _ _; exact Iff.rfl
  | cons call calls ih =>
      intro s l h ⟨hnew, hrest⟩ hfuel
      rw [List.length_cons] at hfuel
      refine and_congr (right_iff h (by omega) hnew) (forall_congr' fun t =>
        forall_congr' fun ht => ?_)
      obtain ⟨l', hl', hlength⟩ := step_lists h (by omega) hnew ht
      exact ih hl' (hrest t ht) (by omega)

/-- In a run, whatever becomes of the ready list meanwhile, every call does what
it should exactly if none of them has a process to take out or a current node
to change. -/
theorem removeFromBlocked_right_iff (ready : RoundRobin (Option Process))
    (calls : List (Call Process))
    (hnew : Meets (step fuel) Fresh (init ready) calls)
    (hfuel : calls.length < fuel) :
    Meets (step fuel) (Right fuel) (init ready) calls ↔
      Meets (step fuel) NothingToDo (init ready) calls := by
  have hnil : (init ready).Lists [] := rfl
  exact run_right_iff hnil hnew (by rw [List.length_nil, Nat.zero_add]; exact hfuel)

/-- Nothing runs, and a process is asked for that is not blocked. -/
theorem removeFromBlocked_idle :
    Meets (step 3) (Right 3) (init .init)
      [.moveToBlocked 8 (some 1), .removeFromBlocked (some 2)] := by
  have hnew : Meets (step 3) Fresh (init .init)
      [Call.moveToBlocked 8 (some 1), .removeFromBlocked (some 2)] :=
    ⟨fun _ => rfl, fun t _ => ⟨trivial, fun t _ => trivial⟩⟩
  refine (removeFromBlocked_right_iff .init _ hnew (by decide)).2
    ⟨trivial, fun t ht => ⟨?_, fun t _ => trivial⟩⟩
  cases ht
  refine ⟨[(8, some 1)], ⟨rfl, (by decide : 8 ≠ 0), 0, rfl, rfl⟩, ?_, .inl rfl⟩
  decide

/-- The processes 1 and 2 are blocked, 7 runs. -/
def twoBlocked : BlockedList Nat where
  ready := RoundRobin.init.pushNew 40 (some 7)
  nodes a :=
    if a = 16 then some ⟨8, some 2⟩
    else if a = 8 then some ⟨0, some 1⟩ else none
  blockedListHead := 16

/-- To unblock 1 takes out 2, puts 2 among the ready ones, and has 1 in the
place of 7, while 1 stays blocked. -/
theorem removeFromBlocked_other :
    [Call.moveToBlocked 8 (some 1), .moveToBlocked 16 (some 2)].foldlM (step 4)
        (init (RoundRobin.init.pushNew 40 (some 7))) = some twoBlocked ∧
      twoBlocked.Lists [(16, some 2), (8, some 1)] ∧
      ¬ Removes twoBlocked [(16, some 2), (8, some 1)] 4 (some 1) ∧
      ∃ t, twoBlocked.unblockProcess 4 48 (some 1) = some t ∧
        t.Lists [(8, some 1)] ∧ t.ready.nodes 48 = some ⟨40, some 2⟩ ∧
        t.ready.nodes 40 = some ⟨0, some 1⟩ := by
  refine ⟨rfl, ?_, fun h => ?_, _, rfl, ?_, rfl, rfl⟩
  · exact ⟨rfl, (by decide : 16 ≠ 0), 8, rfl, rfl, (by decide : 8 ≠ 0), 0, rfl, rfl⟩
  · obtain ⟨_, _, _, _, _, hdone, _⟩ := h.present (by decide)
    have hanswer : (some 2 : Option Nat) = some 1 :=
      congrArg Prod.fst (Option.some.inj hdone)
    exact absurd hanswer (by decide)
  · exact ⟨rfl, (by decide : 8 ≠ 0), 0, rfl, rfl⟩

end Iposix.Sched.BlockedList
