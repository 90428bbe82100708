import Iposix.Sched.ProcessScheduleData

/-!
# A fork

`fork_process` returns twice: in the parent, and in the child when it runs for
the first time, on the copy of the parent's kernel stack. What the child resumes
is the call of `get_eip` in `prepare`, with the magic value for its result.

The local variables lie on the stack. Where, is the compiler's choice: a
`Layout` has their offsets from the stack pointer in `prepare`, and the two
addresses that `get_eip` returns. An answer is what the dispatcher stores into
the message of the process that runs.
-/

namespace Iposix.Sched

open Iposix.Lib

universe u

structure Layout where
  /-- `child_pid` of the dispatcher -/
  childPid : Nat
  /-- the reference to it that `fork_process` is given -/
  reference : Nat
  /-- `parent_pid` of `fork_process` -/
  parentPid : Nat
  /-- `child_pid` of `prepare` -/
  preparedChildPid : Nat
  /-- `parent_pid` of `prepare` -/
  preparedParentPid : Nat
  prepareEip : Nat
  switchEip : Nat
  eip_ne : prepareEip ≠ switchEip

namespace Layout

variable (l : Layout) (esp : Nat)

/-- The variables, as they are set before the stack is copied. -/
def locals (childPid parentPid : Nat) : List (Nat × Nat) :=
  [(esp + l.reference, esp + l.childPid), (esp + l.childPid, childPid),
    (esp + l.parentPid, parentPid), (esp + l.preparedChildPid, childPid),
    (esp + l.preparedParentPid, parentPid)]

/-- `fork_process` after `prepare` has returned `ret`: whether it is the parent,
and the memory. -/
def afterPrepare (ret : Nat) (m : Nat → UInt8) : Bool × (Nat → UInt8) :=
  if ret ≠ load 4 m (esp + l.parentPid) then
    (false, store 4 m (load 4 m (esp + l.reference)) 0)
  else (true, m)

end Layout

/-- The scheduler, the memory, the processes that have been constructed with the
bases of their kernel stacks, and the answers, the last one first. -/
structure ForkSystem (Process : Type u) where
  sched : Scheduler Process
  memory : Nat → UInt8
  processes : List Process
  base : Process → Nat
  answers : List (Process × Nat)

namespace ForkSystem

variable {Process : Type u} [DecidableEq Process] (l : Layout)
  (s : ForkSystem Process)

def write (writes : List (Nat × Nat)) : ForkSystem Process :=
  { s with memory := writes.foldl (fun m w => store 4 m w.1 w.2) s.memory }

/-- The dispatcher's answer to the process that runs. -/
def answer (value : Nat) : ForkSystem Process :=
  { s with answers := (s.sched.running, value) :: s.answers }

/-- `child->pid = this->next_pid++` -/
def setPid (child : Process) : ForkSystem Process :=
  { s with sched := { s.sched with
      pid := Function.update s.sched.pid child s.sched.nextPid
      nextPid := u32 (s.sched.nextPid + 1 : Nat) } }

/-- `prepare`, on the way of the parent. -/
def prepare (cur child : Process) (esp ebp pageTablePtr : Nat) :
    Option (ForkSystem Process) :=
  match ProcessScheduleData.prepare (s.base cur - esp + 1) s.memory
    ⟨s.base cur, (s.sched.saved cur).registers⟩
    ⟨s.base child, (s.sched.saved child).registers⟩ esp ebp l.prepareEip
    pageTablePtr with
  | none => none
  | some (m, data) =>
      some { s with
        memory := m
        sched := { s.sched with
          saved := Function.update s.sched.saved child
            ⟨child, data.registers⟩ } }

/-- `fork_process` from the return of `prepare` on, and the dispatcher's answer;
`pl` is the list node that `push_new` is given. -/
def finish (esp ret pl : Nat) (child : Process) : ForkSystem Process :=
  let (isParent, m) := l.afterPrepare esp ret s.memory
  let s := { s with memory := m }
  let s :=
    if isParent then { s with sched := s.sched.pushNew pl child } else s
  s.answer (load 4 s.memory (esp + l.childPid))

/-- The `fork_call` of the dispatcher, until it answers the parent. `child` is
what `new` delivers, `copied` whether its address space could be copied. -/
def forkCall (child : Option Process) (copied : Bool)
    (esp ebp pageTablePtr pl : Nat) : Option (ForkSystem Process) := do
  match ← s.sched.strategy.getCurrentProcess with
  | none => some (s.answer (u32 (-1)))
  | some cur =>
      match child with
      | none => some (s.answer (u32 (-1)))
      | some child =>
          let s := s.setPid child
          if !copied then some (s.answer (u32 (-1)))
          else
            let s := s.write
              (l.locals esp (s.sched.pid child) (s.sched.pid cur))
            let s := { s with processes := child :: s.processes }
            let s ← s.prepare l cur child esp ebp pageTablePtr
            -- get_eip has not returned the magic value
            some (s.finish l esp (load 4 s.memory (esp + l.preparedParentPid))
              pl child)

/-- `new_process`, by the process that runs. -/
def newProcess (child : Option Process) (copied : Bool)
    (registers : Registers) (pl : Nat) : Option (ForkSystem Process) := do
  let (created, sched) ← s.sched.newProcess child copied registers pl
  some { s with
    sched := sched
    processes :=
      if created then child.toList ++ s.processes else s.processes }

/-- A timer interrupt. A process whose `eip` is the one in `prepare` goes on
there, with the magic value. -/
def tick (esp ebp cr3 pl : Nat) : Option (ForkSystem Process) := do
  let sched := { s.sched with
    cpu := ⟨s.sched.running, ⟨esp, ebp, l.switchEip, cr3⟩⟩ }
  let sched ← sched.contextSwitch
  let s := { s with sched := sched }
  let registers := sched.cpu.registers
  if registers.eip = l.prepareEip then
    some (s.finish l registers.esp
      (load 4 s.memory (registers.esp + l.preparedChildPid)) pl sched.running)
  else some s

/-- What happens: system calls, interrupts, and the running process computing in
between. -/
inductive Event (Process : Type u) where
  | forkCall (child : Option Process) (copied : Bool)
      (esp ebp pageTablePtr pl : Nat)
  | newProcess (child : Option Process) (copied : Bool)
      (registers : Registers) (pl : Nat)
  | work (memory : Nat → UInt8)
  | tick (esp ebp cr3 pl : Nat)

def step (l : Layout) (s : ForkSystem Process) :
    Event Process → Option (ForkSystem Process)
  | .forkCall child copied esp ebp pageTablePtr pl =>
      s.forkCall l child copied esp ebp pageTablePtr pl
  | .newProcess child copied registers pl =>
      s.newProcess child copied registers pl
  | .work memory => some { s with memory := memory }
  | .tick esp ebp cr3 pl => s.tick l esp ebp cr3 pl

/-- After `put_process0`. -/
def boot (process0 : Process) (registers : Registers)
    (fields : Process → Registers) (pid : Process → Nat) (pl : Nat)
    (memory : Nat → UInt8) (base : Process → Nat) : ForkSystem Process where
  sched := (Scheduler.boot process0 registers fields pid).putProcess0 pl process0
  memory := memory
  processes := [process0]
  base := base
  answers := []

end ForkSystem

end Iposix.Sched
