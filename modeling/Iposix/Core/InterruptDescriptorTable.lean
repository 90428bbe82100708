import Iposix.Core.Pic8259A
import Iposix.Lib.Word

/-!
# The interrupt descriptor table

`init_idt` gives each of the 256 interrupts a gate that leads to one of the
routines of `isr.asm`, and moves the hardware interrupts behind the exceptions.
The routines push what they are for, and `dispatch_interrupt` looks at it: the
hardware interrupts have a table of handlers, the system calls and the
exceptions one handler each.

A function pointer is its address; where the linker puts the routines is a
parameter. A handler that a driver registers is an element of `Handler`.
-/

namespace Iposix.Core

open Iposix.Lib

universe u

/-! ## Gates -/

/-- `privilege::level` -/
inductive PrivilegeLevel where
  | system
  | unusedLevel1
  | unusedLevel2
  | user
  deriving DecidableEq

/-- The number of a level, which the constructors write into their fields. -/
def PrivilegeLevel.number : PrivilegeLevel → Nat
  | .system => 0
  | .unusedLevel1 => 1
  | .unusedLevel2 => 2
  | .user => 3

/-- `segment_selector` -/
structure SegmentSelector where
  privilegeLevel : Nat
  tableIndicator : Nat
  dtEntryNr : Nat
  deriving DecidableEq

/-- `segment_selector::table` -/
inductive SelectorTable where
  | globalDescriptorTable
  | localDescriptorTable
  deriving DecidableEq

namespace SegmentSelector

/-- The constructor. -/
def new (entry : Nat) (pl : PrivilegeLevel) (t : SelectorTable) :
    SegmentSelector where
  privilegeLevel := pl.number
  tableIndicator := if t = .globalDescriptorTable then 0 else 1
  dtEntryNr := entry % 8192

def bits (s : SegmentSelector) : Nat :=
  s.privilegeLevel + 4 * s.tableIndicator + 8 * s.dtEntryNr

end SegmentSelector

/-- `descriptor_type` -/
inductive DescriptorType where
  | interruptGateDescriptor
  | trapGateDescriptor
  deriving DecidableEq

/-- `gate_descriptor` -/
structure GateDescriptor where
  offset0To15 : Nat
  segmentSelectorBits : Nat
  reserved : Nat
  type : Nat
  dpl : Nat
  present : Nat
  offset16To31 : Nat
  deriving DecidableEq

namespace GateDescriptor

def INTERRUPT_GATE_DESCRIPTOR_CODE : Nat := 0x0E
def TRAP_GATE_DESCRIPTOR_CODE : Nat := 0x0F
def GLOBAL_KERNEL_CODE_SEGMENT_NR : Nat := 1

/-- The constructor without a selector. -/
def new (offset : Nat) (type : DescriptorType) (present : Bool)
    (lvl : PrivilegeLevel) : GateDescriptor where
  offset0To15 := offset % 65536
  segmentSelectorBits := (SegmentSelector.new GLOBAL_KERNEL_CODE_SEGMENT_NR
    .system .globalDescriptorTable).bits
  reserved := 0
  type :=
    match type with
    | .interruptGateDescriptor => INTERRUPT_GATE_DESCRIPTOR_CODE
    | .trapGateDescriptor => TRAP_GATE_DESCRIPTOR_CODE
  dpl := lvl.number
  present := if present then 1 else 0
  offset16To31 := offset / 65536 % 65536

/-- The eight bytes of a gate as a number: the fields one after the other. -/
def flat (g : GateDescriptor) : Nat :=
  g.offset0To15 + 65536 * (g.segmentSelectorBits + 65536 * (g.reserved +
    256 * (g.type + 32 * (g.dpl + 4 * (g.present + 2 * g.offset16To31)))))

end GateDescriptor

/-- A gate as the processor reads it. -/
structure Gate where
  offset : Nat
  selector : Nat
  type : Nat
  dpl : Nat
  present : Bool
  deriving DecidableEq

def Gate.ofFlat (flat : Nat) : Gate where
  offset := flat % 65536 + 65536 * (flat / 281474976710656 % 65536)
  selector := flat / 65536 % 65536
  type := flat / 1099511627776 % 32
  dpl := flat / 35184372088832 % 4
  present := flat / 140737488355328 % 2 = 1

/-! ## The routines of `isr.asm` -/

/-- `asm_isr_n`, `asm_irq_n` and `asm_isr_uninitilized`. -/
inductive Stub where
  | isr (n : Nat)
  | irq (n : Nat)
  | uninitilized
  deriving DecidableEq

namespace Stub

/-- What is pushed for an interrupt that is none. -/
def NONE : Nat := 4294967295

/-- The routine pushes an error code itself. -/
def pushesErrorCode : Stub → Bool
  | .isr n => !(n == 8 || n == 10 || n == 11 || n == 12 || n == 13 || n == 14)
  | .irq _ => true
  | .uninitilized => true

/-- The word pushed for the number of the hardware interrupt. -/
def irqWord : Stub → Nat
  | .isr _ => NONE
  | .irq n => n
  | .uninitilized => 0

/-- The word pushed for the number of the exception. -/
def isrWord : Stub → Nat
  | .isr n => n
  | .irq _ => NONE
  | .uninitilized => NONE

end Stub

/-! ## Service routines -/

/-- What a `service_routine_ptr` points to. -/
inductive Routine (Handler : Type u) where
  | dummyDummyHandler
  | dummyInterruptHandler
  | syscallHandler
  | exceptionHandler
  | handler (h : Handler)
  deriving DecidableEq

/-- `service_routine` -/
structure ServiceRoutine (Handler : Type u) where
  fctPtr : Routine Handler
  enabled : Bool
  deriving DecidableEq

/-- `call`: the routine that is called, if it is. -/
def ServiceRoutine.call {Handler : Type u} (sr : ServiceRoutine Handler) :
    Option (Routine Handler) :=
  if sr.enabled then some sr.fctPtr else none

/-! ## The table -/

/-- `interrupt_descriptor_table`, with the handlers of the hardware interrupts
and the controllers. -/
structure InterruptDescriptorTable (Handler : Type u) where
  table : Nat → GateDescriptor
  irqHandler : Nat → ServiceRoutine Handler
  pic : Pic8259A

namespace InterruptDescriptorTable

variable {Handler : Type u}

def EXCEPTIONs : Nat := 18
def IRQs : Nat := 16
def IDT_SIZE : Nat := 256
def SYSTEM_GATE : Nat := 0x80

def setGate (idt : InterruptDescriptorTable Handler) (entryNumber : Nat)
    (gate : GateDescriptor) : InterruptDescriptorTable Handler :=
  { idt with table := fun i => if i = entryNumber then gate else idt.table i }

/-- `set_interrupt_gate` -/
def setInterruptGate (idt : InterruptDescriptorTable Handler)
    (entryNumber fctPtr : Nat) : InterruptDescriptorTable Handler :=
  idt.setGate entryNumber (.new fctPtr .interruptGateDescriptor true .system)

/-- `set_system_gate` -/
def setSystemGate (idt : InterruptDescriptorTable Handler)
    (entryNumber fctPtr : Nat) : InterruptDescriptorTable Handler :=
  idt.setGate entryNumber (.new fctPtr .interruptGateDescriptor true .user)

/-- `set_trap_gate` -/
def setTrapGate (idt : InterruptDescriptorTable Handler)
    (entryNumber fctPtr : Nat) : InterruptDescriptorTable Handler :=
  idt.setGate entryNumber (.new fctPtr .trapGateDescriptor true .user)

def setHandler (idt : InterruptDescriptorTable Handler) (irq : Nat)
    (h : ServiceRoutine Handler) : InterruptDescriptorTable Handler :=
  if irq < IRQs then
    { idt with irqHandler := fun i => if i = irq then h else idt.irqHandler i }
  else idt

/-- `register_irq_handler` -/
def registerIrqHandler (idt : InterruptDescriptorTable Handler) (irq : Nat)
    (h : ServiceRoutine Handler) : InterruptDescriptorTable Handler :=
  idt.setHandler irq h

/-- `remove_irq_handler` -/
def removeIrqHandler (idt : InterruptDescriptorTable Handler) (irq : Nat) :
    InterruptDescriptorTable Handler :=
  idt.setHandler irq ⟨.dummyInterruptHandler, false⟩

/-- `enable_irq_handler` -/
def enableIrqHandler (idt : InterruptDescriptorTable Handler) (irq : Nat) :
    InterruptDescriptorTable Handler :=
  idt.setHandler irq { idt.irqHandler irq with enabled := true }

/-- `disable_irq_handler` -/
def disableIrqHandler (idt : InterruptDescriptorTable Handler) (irq : Nat) :
    InterruptDescriptorTable Handler :=
  idt.setHandler irq { idt.irqHandler irq with enabled := false }

/-- `set_irq_usability` -/
def setIrqUsability (idt : InterruptDescriptorTable Handler)
    (entryNumber : Nat) (present : Bool) : InterruptDescriptorTable Handler :=
  if entryNumber < IRQs then
    { idt with pic := idt.pic.maskInterrupt (entryNumber % 256) present }
  else idt

/-- `init_idt` -/
def initIdt (address : Stub → Nat) (idt : InterruptDescriptorTable Handler) :
    InterruptDescriptorTable Handler :=
  let idt := (List.range IDT_SIZE).foldl
    (fun idt i => idt.setTrapGate i (address .uninitilized)) idt
  -- exceptions
  let idt := [0, 1, 2].foldl
    (fun idt i => idt.setTrapGate i (address (.isr i))) idt
  let idt := [3, 4, 5].foldl
    (fun idt i => idt.setSystemGate i (address (.isr i))) idt
  let idt := [6, 7, 8, 9, 10, 11, 12, 13, 14, 15, 16, 17].foldl
    (fun idt i => idt.setTrapGate i (address (.isr i))) idt
  -- reserved interrupts
  let idt := [18, 19, 20, 21, 22, 23, 24, 25, 26, 27, 28, 29, 30, 31].foldl
    (fun idt i => idt.setTrapGate i (address (.isr i))) idt
  let idt := { idt with pic := idt.pic.relocateIrqs 32 40 false }
  -- hardware interrupts
  let idt := (List.range 16).foldl
    (fun idt i => idt.setInterruptGate (32 + i) (address (.irq i))) idt
  let idt := (List.range IRQs).foldl removeIrqHandler idt
  idt.setSystemGate SYSTEM_GATE (address (.isr 128))

/-- `dispatch_interrupt`, given what the routine pushed: the service routine
that is called, if one is. -/
def dispatchInterrupt (idt : InterruptDescriptorTable Handler)
    (irqNumber exceptionNumber : Int) :
    Option (Routine Handler) × InterruptDescriptorTable Handler :=
  if irqNumber ≥ 0 then
    ((idt.irqHandler irqNumber.toNat).call,
      { idt with pic := idt.pic.sendEndOfInterrupt (irqNumber.toNat % 256) })
  else
    let sr : ServiceRoutine Handler :=
      if exceptionNumber = SYSTEM_GATE then ⟨.syscallHandler, true⟩
      else if exceptionNumber ≥ 0 ∧ exceptionNumber < EXCEPTIONs then
        ⟨.exceptionHandler, true⟩
      else ⟨.dummyDummyHandler, true⟩
    (sr.call, idt)

end InterruptDescriptorTable

end Iposix.Core
