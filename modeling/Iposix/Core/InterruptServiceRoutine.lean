import Iposix.Core.InterruptDescriptorTable
import Iposix.Lib.DownStack

/-!
# The interrupt service routines

An interrupt is taken by the processor, which pushes what it needs to come back,
by one of the routines of `isr.asm`, which pushes the rest, and by
`isr_handler`, which is given everything as one structure and may change it. The
way back is the same in the other direction.

A register and a word of the stack are numbers; a selector is one below 65536.
An interrupt of a user process changes to the stack that the task state segment
names.
-/

namespace Iposix.Core

open Iposix.Lib

/-- The registers that are pushed by `pushad`, without the stack pointer. -/
structure GeneralRegisters where
  edi : Nat
  esi : Nat
  ebp : Nat
  ebx : Nat
  edx : Nat
  ecx : Nat
  eax : Nat
  deriving DecidableEq

structure Processor where
  general : GeneralRegisters
  ds : Nat
  es : Nat
  fs : Nat
  gs : Nat
  cs : Nat
  ss : Nat
  eip : Nat
  eflags : Nat
  cr2 : Nat
  stack : DownStack

/-- `isr_registers` -/
structure IsrRegisters where
  cr2 : Nat
  dataSegmentSelector : Nat
  edi : Nat
  esi : Nat
  ebp : Nat
  esp : Nat
  ebx : Nat
  edx : Nat
  ecx : Nat
  eax : Nat
  exceptionNumber : Nat
  irqNumber : Nat
  errorCode : Nat
  eip : Nat
  codeSegmentSelector : Nat
  eflags : Nat
  deriving DecidableEq

namespace IsrRegisters

/-- The structure in memory. -/
def words (r : IsrRegisters) : List Nat :=
  [r.cr2, r.dataSegmentSelector, r.edi, r.esi, r.ebp, r.esp, r.ebx, r.edx,
    r.ecx, r.eax, r.exceptionNumber, r.irqNumber, r.errorCode, r.eip,
    r.codeSegmentSelector, r.eflags]

def ofWords (ws : List Nat) : IsrRegisters where
  cr2 := ws.getD 0 0
  dataSegmentSelector := ws.getD 1 0
  edi := ws.getD 2 0
  esi := ws.getD 3 0
  ebp := ws.getD 4 0
  esp := ws.getD 5 0
  ebx := ws.getD 6 0
  edx := ws.getD 7 0
  ecx := ws.getD 8 0
  eax := ws.getD 9 0
  exceptionNumber := ws.getD 10 0
  irqNumber := ws.getD 11 0
  errorCode := ws.getD 12 0
  eip := ws.getD 13 0
  codeSegmentSelector := ws.getD 14 0
  eflags := ws.getD 15 0

end IsrRegisters

namespace Processor

/-- The interrupt flag cleared. -/
def interruptsOff (eflags : Nat) : Nat := eflags - eflags / 512 % 2 * 512

/-- The processor takes an interrupt, with an error code for some of them. The
task state segment holds the stack `ss0`, `esp0`. -/
def interrupt (p : Processor) (gate : Gate) (ss0 esp0 : Nat)
    (errorCode : Option Nat) : Processor :=
  let back := [p.eflags, p.cs, p.eip] ++ errorCode.toList
  { p with
    stack :=
      if p.cs % 4 = 0 then p.stack.pushAll back
      else (DownStack.mk p.stack.mem esp0).pushAll
        ([p.ss, p.stack.sp] ++ back)
    ss := if p.cs % 4 = 0 then p.ss else ss0
    cs := gate.selector
    eip := gate.offset
    eflags :=
      if gate.type = GateDescriptor.INTERRUPT_GATE_DESCRIPTOR_CODE then
        interruptsOff p.eflags
      else p.eflags }

/-- `iret` -/
def iret (p : Processor) : Processor :=
  let p' := { p with
    eip := p.stack.peek 0
    cs := p.stack.peek 1
    eflags := p.stack.peek 2 }
  if p.stack.peek 1 % 4 = p.cs % 4 then
    { p' with stack := p.stack.drop 3 }
  else
    { p' with
      stack := ⟨p.stack.mem, p.stack.peek 3⟩
      ss := p.stack.peek 4 }

end Processor

/-- `asm_isr_common_stuff` up to the call: the stack that `isr_handler` finds its
argument on. -/
def pushRegisters (p : Processor) : DownStack :=
  p.stack.pushAll
    [p.general.eax, p.general.ecx, p.general.edx, p.general.ebx, p.stack.sp,
      p.general.ebp, p.general.esi, p.general.edi, p.ds, p.cr2]

/-- `asm_isr_common_stuff` after the call, up to `iret`. -/
def popRegisters (p : Processor) (stack : DownStack) : Processor :=
  let stack := stack.drop 1
  let ds := stack.peek 0 % 65536
  let stack := stack.drop 1
  { p with
    general := ⟨stack.peek 0, stack.peek 1, stack.peek 2, stack.peek 4,
      stack.peek 5, stack.peek 6, stack.peek 7⟩
    ds := ds
    es := ds
    fs := ds
    gs := ds
    stack := (stack.drop 8).drop 3 }

namespace Stub

/-- The routine up to the jump to `asm_isr_common_stuff`. -/
def enter (s : Stub) (p : Processor) : Processor :=
  { p with
    eflags := Processor.interruptsOff p.eflags
    stack := p.stack.pushAll
      ((if s.pushesErrorCode then [0] else []) ++ [s.irqWord, s.isrWord]) }

/-- What `isr_handler` is given. -/
def registers (s : Stub) (p : Processor) : IsrRegisters :=
  .ofWords ((pushRegisters (s.enter p)).top 16)

/-- A routine, with an `isr_handler` that does this to its argument. The flags
that `sti` changes are those that `iret` loads. -/
def run (s : Stub) (isrHandler : IsrRegisters → IsrRegisters) (p : Processor) :
    Processor :=
  let stack := pushRegisters (s.enter p)
  (popRegisters (s.enter p)
    (stack.poke (isrHandler (s.registers p)).words)).iret

end Stub

end Iposix.Core
