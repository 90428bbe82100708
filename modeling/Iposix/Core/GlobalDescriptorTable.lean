import Iposix.Lib.Word

/-!
# The global descriptor table

A `memory_descriptor` keeps the base of a segment in three of its fields and the
limit in two, the way the processor wants them; the constructor cuts both up and
the type decides the rest. `set_task_state_segment` puts the descriptor of a
task state segment into the table.

A pointer is its address. The register that is loaded with the table and the
local table that nothing is kept in are left out.
-/

namespace Iposix.Core

open Iposix.Lib

/-- `segment_type` -/
inductive SegmentType where
  | nullPointerSegmentDescriptor
  | kernelCodeSegmentDescriptor
  | kernelDataSegmentDescriptor
  | userCodeSegmentDescriptor
  | userDataSegmentDescriptor
  | taskStateSegmentDescriptor
  | localDescriptorTableDescriptor
  deriving DecidableEq

/-- `memory_descriptor` -/
structure MemoryDescriptor where
  limit0To15 : Nat
  base0To15 : Nat
  base16To23 : Nat
  type : Nat
  system : Nat
  discriptorPrivilegeLevel : Nat
  segmentPresent : Nat
  limit16To19 : Nat
  AVL : Nat
  reserved : Nat
  dataOrCode : Nat
  granularity : Nat
  base24To31 : Nat
  deriving DecidableEq

namespace MemoryDescriptor

/-- The initializers of the constructor. -/
def fields (present : Bool) (base limit : Nat) (highGranularity : Bool) :
    MemoryDescriptor where
  limit0To15 := limit % 65536
  base0To15 := base % 65536
  base16To23 := base / 65536 % 256
  type := 0
  system := 1
  discriptorPrivilegeLevel := 0
  segmentPresent := if present then 1 else 0
  limit16To19 := limit / 65536 % 16
  AVL := 0
  reserved := 0
  dataOrCode := 0
  granularity := if highGranularity then 0 else 1
  base24To31 := base / 16777216 % 256

/-- The constructor. -/
def new (type : SegmentType) (present : Bool) (base limit : Nat)
    (highGranularity : Bool) : MemoryDescriptor :=
  let d := fields present base limit highGranularity
  match type with
  | .nullPointerSegmentDescriptor => ⟨0, 0, 0, 0, 0, 0, 0, 0, 0, 0, 0, 0, 0⟩
  | .kernelCodeSegmentDescriptor =>
      { d with type := 0xA, discriptorPrivilegeLevel := 0, dataOrCode := 1 }
  | .kernelDataSegmentDescriptor =>
      { d with type := 0x2, discriptorPrivilegeLevel := 0, dataOrCode := 1 }
  | .userCodeSegmentDescriptor =>
      { d with type := 0xA, discriptorPrivilegeLevel := 3, dataOrCode := 1 }
  | .userDataSegmentDescriptor =>
      { d with type := 0x2, discriptorPrivilegeLevel := 3, dataOrCode := 1 }
  | .taskStateSegmentDescriptor =>
      { d with
        type := 0x9, system := 0, discriptorPrivilegeLevel := 0
        dataOrCode := 1 }
  | .localDescriptorTableDescriptor =>
      { d with
        type := 0x2, system := 0, discriptorPrivilegeLevel := 0
        dataOrCode := 1 }

def base (d : MemoryDescriptor) : Nat :=
  u32 (d.base24To31 * 16777216 + d.base16To23 * 65536 + d.base0To15 : Nat)

def limit (d : MemoryDescriptor) : Nat :=
  u32 (d.limit16To19 * 65536 + d.limit0To15 : Nat)

end MemoryDescriptor

namespace TaskStateSegment

def EMERGENCY_STACK_SIZE : Nat := 0x0380

/-- The members up to the stack, which the hardware defines. -/
def HARDWARE_BYTES : Nat := 25 * 4 + 2 * 2

/-- The size of the structure, with its alignment. -/
def BYTES : Nat :=
  (HARDWARE_BYTES + 4 * (EMERGENCY_STACK_SIZE + 1) + 127) / 128 * 128

end TaskStateSegment

/-- `global_descriptor_table` -/
structure GlobalDescriptorTable where
  table : Nat → MemoryDescriptor

namespace GlobalDescriptorTable

def FIRST_FREE_SEGMENT : Nat := 5
def GDT_SIZE : Nat := 16

/-- `set_task_state_segment` -/
def setTaskStateSegment (gdt : GlobalDescriptorTable) (n tss : Nat) :
    GlobalDescriptorTable :=
  if n ≥ FIRST_FREE_SEGMENT ∧ n < GDT_SIZE then
    { table := fun i =>
        if i = n then
          .new .taskStateSegmentDescriptor true tss
            (u32 (tss + TaskStateSegment.BYTES : Nat)) true
        else gdt.table i }
  else gdt

end GlobalDescriptorTable

end Iposix.Core
