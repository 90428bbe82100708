import Iposix.Lib.Items

/-!
# The round robin strategy

`round_robin`: a singly linked list of ready processes and `cur`, the node of
the running one. The heap the nodes live in is part of the state, a partial
map from addresses to nodes, so a pointer that does not lead to a node is
visible: a function that would follow one has no result.

`push_new` takes the address that `new process_list()` delivered, zero when
there was no memory. The inactive and blocked lists belong to other calls.
-/

namespace Iposix.Sched

open Iposix.Lib

universe u

/-- `process_list` -/
structure ProcessList (Process : Type u) where
  next : Nat
  process : Process

/-- `round_robin` -/
structure RoundRobin (Process : Type u) where
  nodes : Nat → Option (ProcessList Process)
  listHead : Nat
  cur : Nat

namespace RoundRobin

variable {Process : Type u}

/-- The constructor. -/
def init : RoundRobin Process := ⟨fun _ => none, 0, 0⟩

/-- The `next` fields of the live nodes. -/
def next (s : RoundRobin Process) (a : Nat) : Option Nat :=
  (s.nodes a).map ProcessList.next

/-- `get_current_process`: the outer `Option` is the dereference, the inner
one the null pointer. -/
def getCurrentProcess (s : RoundRobin Process) : Option (Option Process) :=
  if s.cur ≠ 0 then (s.nodes s.cur).map fun n => some n.process
  else some none

/-- `get_next_process` -/
def getNextProcess (s : RoundRobin Process) :
    Option (Option Process × RoundRobin Process) :=
  if s.cur ≠ 0 then do
    let n ← s.nodes s.cur
    let s := { s with cur := if n.next ≠ 0 then n.next else s.listHead }
    if s.cur ≠ 0 then do
      let n ← s.nodes s.cur
      some (some n.process, s)
    else some (none, s)
  else some (none, s)

/-- `push_new`, with the new node at `pl`. -/
def pushNew (s : RoundRobin Process) (pl : Nat) (process : Process) :
    RoundRobin Process :=
  if pl ≠ 0 then
    { nodes := fun a => if a = pl then some ⟨s.listHead, process⟩ else s.nodes a
      listHead := pl
      cur :=
        if s.cur = 0 then (if s.listHead ≠ 0 then s.listHead else pl)
        else s.cur }
  else s

/-- A node, by the node behind it and its process. -/
def node (s : RoundRobin Process) (a : Nat) : Option (Nat × Process) :=
  (s.nodes a).map fun n => (n.next, n.process)

/-- `remove`. What is deleted is no node any more. -/
def remove [DecidableEq Process] (s : RoundRobin Process) (fuel : Nat)
    (process : Process) : Option (Option Process × RoundRobin Process) :=
  match scan s.node (fun p => p ≠ process) fuel s.listHead 0 with
  | none => none
  | some (cur, prev) =>
      if cur ≠ 0 then do
        let n ← s.nodes cur
        if n.process = process then do
          let s ←
            if prev ≠ 0 then do
              let q ← s.nodes prev
              some { s with nodes := fun a =>
                if a = prev then some { q with next := n.next } else s.nodes a }
            else if cur = s.listHead then some { s with listHead := n.next }
            else some s
          some (some n.process,
            { s with nodes := fun a => if a = cur then none else s.nodes a })
        else some (none, s)
      else some (none, s)

/-- `ticks_between_reschedulings` -/
def ticksBetweenReschedulings : Nat := 1000

/-- What `new` may deliver: nothing, or memory that is not in use. -/
def Fresh (s : RoundRobin Process) (pl : Nat) : Prop :=
  pl ≠ 0 → s.nodes pl = none

/-- Any interleaving of the two calls, with the nodes that became current. -/
inductive Run : RoundRobin Process → List Nat → RoundRobin Process → Prop
  | refl (s : RoundRobin Process) : Run s [] s
  | pushNew {s s' : RoundRobin Process} {m : List Nat} (pl : Nat)
      (process : Process) : Run s m s' → s'.Fresh pl →
      Run s m (s'.pushNew pl process)
  | getNextProcess {s s' t : RoundRobin Process} {m : List Nat}
      {p : Option Process} : Run s m s' → s'.getNextProcess = some (p, t) →
      Run s (m ++ [t.cur]) t

/-- The calls that change the ready list. -/
inductive Call (Process : Type u) where
  | pushNew (pl : Nat) (process : Process)
  | getNextProcess
  | remove (process : Process)

def step [DecidableEq Process] (fuel : Nat) (s : RoundRobin Process) :
    Call Process → Option (RoundRobin Process)
  | .pushNew pl process => some (s.pushNew pl process)
  | .getNextProcess => s.getNextProcess.map Prod.snd
  | .remove process => (s.remove fuel process).map Prod.snd

end RoundRobin

end Iposix.Sched
