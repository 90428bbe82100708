import Iposix.Lib.LittleEndian
import Iposix.Lib.Word
import Iposix.Sched.Scheduler

/-!
# The kernel stack of a process

Each process has a kernel stack of its own, and the address of the last word of
it for a base. A fork copies the stack of the parent from the base down to the
stack pointer, and moves the values that seem to point into it.

Memory is its bytes. A pointer is its address, and goes down by the size of a
word.
-/

namespace Iposix.Sched

open Iposix.Lib

/-- The loop of `copy_and_adapt_stack`; none when the fuel runs out. -/
def copyLoop (oldStackBase oldStackTop : Nat) (movement : Int) :
    (fuel oldStackSize itIn itOut : Nat) → (Nat → UInt8) → Option (Nat → UInt8)
  | 0, _, _, _, _ => none
  | fuel + 1, oldStackSize, itIn, itOut, m =>
      if oldStackSize > 0 then
        let value := load 4 m itOut
        let moved :=
          if oldStackTop < value ∧ value < oldStackBase then
            u32 (value + movement)
          else value
        copyLoop oldStackBase oldStackTop movement fuel
          (u32 ((oldStackSize : Int) - 4)) (u32 ((itIn : Int) - 4))
          (u32 ((itOut : Int) - 4)) (store 4 m itIn moved)
      else some m

/-- `copy_and_adapt_stack`: the memory, `new_stack_top` and `new_ebp`. -/
def copyAndAdaptStack (fuel : Nat) (m : Nat → UInt8)
    (oldStackBase oldStackTop oldEbp newStackBase : Nat) :
    Option ((Nat → UInt8) × Nat × Nat) :=
  let movement := i32 (u32 ((newStackBase : Int) - oldStackBase))
  let oldStackSize := u32 ((oldStackBase : Int) - oldStackTop)
  match copyLoop oldStackBase oldStackTop movement fuel oldStackSize
    newStackBase oldStackBase m with
  | none => none
  | some m =>
      some (m, u32 (oldStackTop + movement), u32 (oldEbp + movement))

/-- `process_schedule_data` -/
structure ProcessScheduleData where
  kernelStackBase : Nat
  registers : Registers

namespace ProcessScheduleData

/-- `copy_stack`, from another process. -/
def copyStack (fuel : Nat) (m : Nat → UInt8)
    (p copyFrom : ProcessScheduleData) (curStackTop curEbp : Nat) :
    Option ((Nat → UInt8) × ProcessScheduleData) :=
  match copyAndAdaptStack fuel m copyFrom.kernelStackBase curStackTop curEbp
    p.kernelStackBase with
  | none => none
  | some (m, esp, ebp) =>
      some (m, { p with registers := { p.registers with esp, ebp } })

/-- `scheduler::prepare`, on the way of the parent: the memory and the child.
`esp`, `ebp` and `eip` are what it reads of the processor. -/
def prepare (fuel : Nat) (m : Nat → UInt8) (parent child : ProcessScheduleData)
    (esp ebp eip pageTablePtr : Nat) :
    Option ((Nat → UInt8) × ProcessScheduleData) :=
  match child.copyStack fuel m parent esp ebp with
  | none => none
  | some (m, child) =>
      some (m, { child with
        registers := { child.registers with cr3 := pageTablePtr, eip } })

end ProcessScheduleData

end Iposix.Sched
