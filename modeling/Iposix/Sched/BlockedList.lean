import Iposix.Sched.RoundRobin

/-!
# The blocked processes

`round_robin` keeps the processes that wait in a list of their own, with nodes
of their own. `move_to_blocked` puts one in front; `remove_from_blocked` is to
take one out. The test behind its loop is written with the member `cur`, the
current node of the ready list, and assigns where it should compare.

A pointer to a process may be null here: it is an `Option`.
-/

namespace Iposix.Sched

open Iposix.Lib

universe u

/-- `blocked_process_list` -/
structure BlockedProcessList (Process : Type u) where
  blockedNext : Nat
  process : Option Process

/-- `round_robin`, with its list of blocked processes. -/
structure BlockedList (Process : Type u) where
  ready : RoundRobin (Option Process)
  nodes : Nat → Option (BlockedProcessList Process)
  blockedListHead : Nat

namespace BlockedList

variable {Process : Type u}

/-- No process is blocked. -/
def init (ready : RoundRobin (Option Process)) : BlockedList Process :=
  ⟨ready, fun _ => none, 0⟩

/-- A node, by the node behind it and its process. -/
def node (s : BlockedList Process) (a : Nat) : Option (Nat × Option Process) :=
  (s.nodes a).map fun n => (n.blockedNext, n.process)

/-- `move_to_blocked`, with the new node at `aux`. Nobody looks whether there
was memory for it. -/
def moveToBlocked (s : BlockedList Process) (aux : Nat)
    (process : Option Process) : Option (BlockedList Process) :=
  if aux = 0 then none
  else
    some { s with
      nodes := fun a =>
        if a = aux then some ⟨s.blockedListHead, process⟩ else s.nodes a
      blockedListHead := aux }

/-- `cur->process = process`, on the ready list. -/
def setCurrent (ready : RoundRobin (Option Process)) (process : Option Process) :
    Option (RoundRobin (Option Process)) := do
  let n ← ready.nodes ready.cur
  some { ready with nodes := fun a =>
    if a = ready.cur then some ⟨n.next, process⟩ else ready.nodes a }

/-- `remove_from_blocked` -/
def removeFromBlocked [DecidableEq Process] (s : BlockedList Process)
    (fuel : Nat) (process : Option Process) :
    Option (Option Process × BlockedList Process) :=
  match scan s.node (fun p => p = process) fuel s.blockedListHead 0 with
  | none => none
  | some (aux, prev) =>
      if s.ready.cur = 0 then some (none, s)
      else do
        let ready ← setCurrent s.ready process
        let s := { s with ready := ready }
        -- the value of the assignment
        if process.isSome then do
          let n ← if aux = 0 then none else s.nodes aux
          let s ←
            if prev ≠ 0 then do
              let q ← s.nodes prev
              some { s with nodes := fun a =>
                if a = prev then some { q with blockedNext := n.blockedNext }
                else s.nodes a }
            else if aux = s.blockedListHead then
              some { s with blockedListHead := n.blockedNext }
            else some s
          some (n.process,
            { s with nodes := fun a => if a = aux then none else s.nodes a })
        else some (none, s)

/-- `unblock_process`, with the node of the ready list at `pl`. -/
def unblockProcess [DecidableEq Process] (s : BlockedList Process)
    (fuel pl : Nat) (process : Option Process) : Option (BlockedList Process) := do
  let (p, s) ← s.removeFromBlocked fuel process
  if p.isSome then some { s with ready := s.ready.pushNew pl p } else some s

/-- The calls; between them the ready list becomes what others make of it. -/
inductive Call (Process : Type u) where
  | moveToBlocked (aux : Nat) (process : Option Process)
  | removeFromBlocked (process : Option Process)
  | ready (ready : RoundRobin (Option Process))

def step [DecidableEq Process] (fuel : Nat) (s : BlockedList Process) :
    Call Process → Option (BlockedList Process)
  | .moveToBlocked aux process => s.moveToBlocked aux process
  | .removeFromBlocked process =>
      (s.removeFromBlocked fuel process).map Prod.snd
  | .ready ready => some { s with ready := ready }

end BlockedList

end Iposix.Sched
