import Iposix.Lib.Run
import Iposix.Sched.RoundRobin

/-!
# The scheduler

`scheduler_type` over the round robin strategy. The part of a process that a
switch concerns is its saved `esp`, `ebp`, `eip` and `cr3`; a set of these
values carries the process whose execution they belong to, which the hardware
does not know and the program cannot read.

A switch ends the call on the stack of `prev`; what is written behind it runs
when `prev` is resumed. The architecture's `set_current` only tells the core
which kernel stack to take on an interrupt, so nothing here reads it.

A process is an element of `Process`, a pointer to one that may be null an
`Option`. `new_process` is given what its callees deliver: the child, whether
the address space could be copied, the registers `prepare` starts it with and
the address of its list node.
-/

namespace Iposix.Sched

universe u

structure Registers where
  esp : Nat
  ebp : Nat
  eip : Nat
  cr3 : Nat

/-- Register values and the process they belong to. -/
structure Context (Process : Type u) where
  owner : Process
  registers : Registers

/-- An execution of `switch_to(prev, next)` while `onCpu` was running. -/
structure Switch (Process : Type u) where
  prev : Process
  next : Process
  onCpu : Process

/-- `scheduler_type`, the processor and the saved fields of the processes. -/
structure Scheduler (Process : Type u) where
  strategy : RoundRobin Process
  nextPid : Nat
  pid : Process → Nat
  cpu : Context Process
  saved : Process → Context Process
  switches : List (Switch Process)

namespace Scheduler

variable {Process : Type u} [DecidableEq Process]

/-- The process whose context is on the processor. -/
def running (s : Scheduler Process) : Process := s.cpu.owner

/-- `switch_to` -/
def switchTo (s : Scheduler Process) (prev next : Process) :
    Scheduler Process :=
  let saved := fun p => if p = prev then s.cpu else s.saved p
  { s with
    cpu := saved next
    saved := saved
    switches := ⟨prev, next, s.running⟩ :: s.switches }

/-- `push_new`, inherited from the strategy. -/
def pushNew (s : Scheduler Process) (pl : Nat) (process : Process) :
    Scheduler Process :=
  { s with strategy := s.strategy.pushNew pl process }

/-- The kernel running as `process0` before the scheduler knows it. What the
fields of a process hold counts as its own. -/
def boot (process0 : Process) (registers : Registers)
    (fields : Process → Registers) (pid : Process → Nat) :
    Scheduler Process where
  strategy := .init
  nextPid := 1
  pid := pid
  cpu := ⟨process0, registers⟩
  saved := fun p => ⟨p, fields p⟩
  switches := []

/-- `put_process0` -/
def putProcess0 (s : Scheduler Process) (pl : Nat) (process0 : Process) :
    Scheduler Process :=
  { s with pid := fun p => if p = process0 then 0 else s.pid p }.pushNew pl
    process0

/-- `new_process` -/
def newProcess (s : Scheduler Process) (child : Option Process)
    (copied : Bool) (registers : Registers) (pl : Nat) :
    Option (Bool × Scheduler Process) := do
  match ← s.strategy.getCurrentProcess with
  | none => some (false, s)
  | some _ =>
      match child with
      | none => some (true, s)
      | some child =>
          let s := { s with
            pid := fun p => if p = child then s.nextPid else s.pid p
            nextPid := s.nextPid + 1 }
          if !copied then some (false, s)
          else
            let s := { s with
              saved := fun p =>
                if p = child then ⟨child, registers⟩ else s.saved p }
            some (true, s.pushNew pl child)

/-- `context_switch` -/
def contextSwitch (s : Scheduler Process) : Option (Scheduler Process) := do
  let current ← s.strategy.getCurrentProcess
  let (next, strategy) ← s.strategy.getNextProcess
  let s := { s with strategy := strategy }
  match current, next with
  | some current, some next =>
      some (if current ≠ next then s.switchTo current next else s)
  | _, _ => some s

/-- `assign_process` -/
def assignProcess (s : Scheduler Process) (process : Process) :
    Option (Scheduler Process) := do
  let p ← s.strategy.getCurrentProcess
  let p ← p
  some (s.switchTo p process)

/-- `resign_process` -/
def resignProcess (s : Scheduler Process) : Option (Scheduler Process) := do
  let (next, strategy) ← s.strategy.getNextProcess
  let s ← { s with strategy := strategy }.contextSwitch
  let _ ← next
  some s

/-- The calls, and the running process computing between them. -/
inductive Call (Process : Type u) where
  | execute (registers : Registers)
  | pushNew (pl : Nat) (process : Process)
  | newProcess (child : Option Process) (copied : Bool)
      (registers : Registers) (pl : Nat)
  | contextSwitch
  | assignProcess (process : Process)
  | resignProcess

def step (s : Scheduler Process) : Call Process → Option (Scheduler Process)
  | .execute registers => some { s with cpu := ⟨s.running, registers⟩ }
  | .pushNew pl process => some (s.pushNew pl process)
  | .newProcess child copied registers pl =>
      (s.newProcess child copied registers pl).map Prod.snd
  | .contextSwitch => s.contextSwitch
  | .assignProcess process => s.assignProcess process
  | .resignProcess => s.resignProcess

/-- What `new` promises for the list node of a call. -/
def Fresh (s : Scheduler Process) : Call Process → Prop
  | .pushNew pl _ => s.strategy.Fresh pl
  | .newProcess _ _ _ pl => s.strategy.Fresh pl
  | _ => True

end Scheduler

end Iposix.Sched
