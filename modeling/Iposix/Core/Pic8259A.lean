import Iposix.Lib.Bits

/-!
# The interrupt controllers

`pic_8259a` programs two controllers through their ports, a master and a slave
whose output is line 2 of the master.

A controller is set up by a sequence of words, the first one at its command
port and the others at its data port; from then on the mask is read and written
there. A line is passed on if it is not masked and no line of the same or a
higher priority is in service, and it is in service until its end is signalled.
-/

namespace Iposix.Core

open Iposix.Lib

/-! ## The hardware -/

/-- What a controller takes a word at its data port for. -/
inductive Expects where
  | base
  | cascade
  | mode
  | mask
  deriving DecidableEq

/-- An 8259A. -/
structure Controller8259A where
  base : UInt8
  cascade : UInt8
  mode : UInt8
  mask : UInt8
  inService : UInt8
  expects : Expects
  single : Bool
  needsMode : Bool
  deriving DecidableEq

namespace Controller8259A

/-- A word at the command port. The end of an interrupt is that of the highest
priority in service. -/
def command (c : Controller8259A) (value : UInt8) : Controller8259A :=
  if bit value 4 then
    { c with
      mask := 0
      inService := 0
      expects := .base
      single := bit value 1
      needsMode := bit value 0 }
  else if value = 0x20 then
    { c with inService := c.inService &&& (c.inService - 1) }
  else c

/-- A word at the data port. -/
def data (c : Controller8259A) (value : UInt8) : Controller8259A :=
  match c.expects with
  | .base =>
      { c with
        base := value &&& 0xF8
        expects :=
          if !c.single then .cascade else if c.needsMode then .mode else .mask }
  | .cascade =>
      { c with
        cascade := value
        expects := if c.needsMode then .mode else .mask }
  | .mode => { c with mode := value, expects := .mask }
  | .mask => { c with mask := value }

/-- The line is passed on. -/
def Accepts (c : Controller8259A) (line : Nat) : Prop :=
  bit c.mask line = false ∧ c.inService.toNat % 2 ^ (line + 1) = 0

instance (c : Controller8259A) (line : Nat) : Decidable (c.Accepts line) :=
  inferInstanceAs (Decidable (_ ∧ _))

/-- The line is in service. -/
def serve (c : Controller8259A) (line : Nat) : Controller8259A :=
  { c with inService := c.inService ||| (1 <<< UInt8.ofNat line) }

/-- The interrupt number of a line. -/
def vector (c : Controller8259A) (line : Nat) : Nat := c.base.toNat + line

end Controller8259A

/-- `pic_8259a`: the two controllers. -/
structure Pic8259A where
  master : Controller8259A
  slave : Controller8259A
  deriving DecidableEq

namespace Pic8259A

def MASTER_COMMAND_PORT : Nat := 0x20
def MASTER_DATA_PORT : Nat := 0x21
def SLAVE_COMMAND_PORT : Nat := 0xA0
def SLAVE_DATA_PORT : Nat := 0xA1

def ICW1_ICW4 : UInt8 := 0x01
def ICW1_INIT : UInt8 := 0x10
def ICW4_8086 : UInt8 := 0x01
def END_OF_INTERRUPT : UInt8 := 0x20

def writePort8 (p : Pic8259A) (port : Nat) (value : UInt8) : Pic8259A :=
  if port = MASTER_COMMAND_PORT then { p with master := p.master.command value }
  else if port = MASTER_DATA_PORT then { p with master := p.master.data value }
  else if port = SLAVE_COMMAND_PORT then
    { p with slave := p.slave.command value }
  else if port = SLAVE_DATA_PORT then { p with slave := p.slave.data value }
  else p

/-- The data ports are read. -/
def readPort8 (p : Pic8259A) (port : Nat) : UInt8 :=
  if port = MASTER_DATA_PORT then p.master.mask else p.slave.mask

/-- A device raises a line. The processor is given the interrupt number, unless
the line is held back; a line of the slave goes through line 2 of the master. -/
def raise (p : Pic8259A) (line : Nat) : Option (Nat × Pic8259A) :=
  if line < 8 then
    if p.master.Accepts line then
      some (p.master.vector line, { p with master := p.master.serve line })
    else none
  else
    if p.slave.Accepts (line - 8) ∧ p.master.Accepts 2 ∧
        bit p.master.cascade 2 = true ∧ p.slave.cascade = 2 then
      some (p.slave.vector (line - 8),
        { master := p.master.serve 2, slave := p.slave.serve (line - 8) })
    else none

/-! ## The driver -/

/-- `relocate_irqs` -/
def relocateIrqs (p : Pic8259A) (baseIsrNumberMaster baseIsrNumberSlave : UInt8)
    (preserveMask : Bool) : Pic8259A :=
  let masterMask := if preserveMask then p.readPort8 MASTER_DATA_PORT else 0
  let slaveMask := if preserveMask then p.readPort8 SLAVE_DATA_PORT else 0
  let p := p.writePort8 MASTER_COMMAND_PORT (ICW1_INIT ||| ICW1_ICW4)
  let p := p.writePort8 SLAVE_COMMAND_PORT (ICW1_INIT ||| ICW1_ICW4)
  let p := p.writePort8 MASTER_DATA_PORT baseIsrNumberMaster
  let p := p.writePort8 SLAVE_DATA_PORT baseIsrNumberSlave
  let p := p.writePort8 MASTER_DATA_PORT 0x04
  let p := p.writePort8 SLAVE_DATA_PORT 0x02
  let p := p.writePort8 MASTER_DATA_PORT ICW4_8086
  let p := p.writePort8 SLAVE_DATA_PORT ICW4_8086
  let p := p.writePort8 MASTER_DATA_PORT masterMask
  p.writePort8 SLAVE_DATA_PORT slaveMask

/-- `send_end_of_interrupt` -/
def sendEndOfInterrupt (p : Pic8259A) (irqNumber : Nat) : Pic8259A :=
  if irqNumber < 16 then
    let p :=
      if irqNumber ≥ 8 then p.writePort8 SLAVE_COMMAND_PORT END_OF_INTERRUPT
      else p
    p.writePort8 MASTER_COMMAND_PORT END_OF_INTERRUPT
  else p

/-- The `switch` of `mask_interrupt`. -/
def lineMask : Nat → Option UInt8
  | 0 => some 0x01
  | 1 => some 0x02
  | 2 => some 0x04
  | 3 => some 0x08
  | 4 => some 0x10
  | 5 => some 0x20
  | 6 => some 0x40
  | 7 => some 0x80
  | _ => none

/-- `mask_interrupt` -/
def maskInterrupt (p : Pic8259A) (irqNumber : Nat) (enable : Bool) : Pic8259A :=
  if irqNumber ≥ 16 then p
  else
    let port := if irqNumber ≥ 8 then SLAVE_DATA_PORT else MASTER_DATA_PORT
    let irqNumber := if irqNumber ≥ 8 then irqNumber - 8 else irqNumber
    match lineMask irqNumber with
    | none => p
    | some mask =>
        let value := p.readPort8 port
        let value := if enable then value &&& ~~~mask else value ||| mask
        p.writePort8 port value

end Pic8259A

end Iposix.Core
