import Iposix.Lib.Checked
import Iposix.Mm.Splitted

/-!
# Memory detection at boot

`memory::init` finds the first address behind the sections of the kernel, goes
through the memory map the boot loader has left, and keeps the areas it can use
in an array of ten. The tables are the arrays of entries the source sees at
`elf_sec.addr` and `mmap_addr`. What the source only logs is left out, and so is
`init_cr4`.

The machine stops where an area would be stored behind the array.
-/

namespace Iposix.Devices

open Iposix.Lib
open Iposix.Mm (MemoryArea)

/-- `Elf32_Shdr`, what the detection uses of it. -/
structure Elf32Shdr where
  shType : UInt32
  shAddr : UInt32
  shSize : UInt32

/-- `multiboot::memory_map` -/
structure MemoryMap where
  size : UInt32
  baseAddrLow : UInt32
  baseAddrHigh : UInt32
  lengthLow : UInt32
  lengthHigh : UInt32
  type : UInt32

/-- `sizeof( multiboot::memory_map )` -/
def SIZEOF_MEMORY_MAP : Nat := 24

/-- `multiboot_info`, with what the memory holds at the two addresses in it. -/
structure MultibootInfo where
  flags : UInt32
  num : UInt32
  elfSec : Nat → Elf32Shdr
  mmapLength : UInt32
  mmap : Nat → MemoryMap

namespace MultibootInfo

/-- `memory_map_field_present` -/
def memoryMapFieldPresent (info : MultibootInfo) : Bool :=
  info.flags &&& 0x40 != 0

def sections (info : MultibootInfo) : List Elf32Shdr :=
  (List.range info.num.toNat).map info.elfSec

/-- The entries of the memory map, none if there is no map. -/
def entries (info : MultibootInfo) : List MemoryMap :=
  if info.memoryMapFieldPresent then
    (List.range (info.mmapLength.toNat / SIZEOF_MEMORY_MAP)).map info.mmap
  else []

end MultibootInfo

/-- How many areas the array has room for. -/
def AREAS : Nat := 10

/-- `sizeof( areas )`: two pointers each. -/
def SIZEOF_AREAS : Nat := AREAS * 8

/-- `memory` -/
structure Memory where
  areas : Vector MemoryArea AREAS
  areaCount : UInt8

namespace Memory

inductive Fault where
  | areas

/-- The constructor. -/
def boot : Memory where
  areas := Vector.replicate AREAS ⟨0, 0⟩
  areaCount := 0

/-- The loop over the sections. -/
def highest (max : UInt32) : List Elf32Shdr → UInt32
  | [] => max
  | s :: l =>
      if s.shType ≠ 0 then
        let val := s.shAddr + s.shSize
        highest (if val > max then val else max) l
      else highest max l

/-- The lowest usable address, from the highest address of a section. -/
def lowestUsable (max : UInt32) : UInt32 :=
  (if max &&& 0x00FFFF ≠ 0 then max + 0x010000 else max) &&& 0xFFFF0000

/-- Stores an area in the slot `area_count` says. -/
def store (m : Memory) (low high : UInt32) : Checked Fault Memory :=
  if h : m.areaCount.toNat < AREAS then
    .ok
      { areas := m.areas.set m.areaCount.toNat ⟨low.toNat, high.toNat⟩ h
        areaCount := m.areaCount + 1 }
  else .error (.fault .areas)

/-- One turn of the loop over the memory map. -/
def examine (max : UInt32) (m : Memory) (e : MemoryMap) :
    Checked Fault Memory :=
  if e.size ≠ 20 then .ok m
  else if e.baseAddrLow = 0 ∧ e.lengthLow ≤ 640 * 1024 ∧ e.type = 1 then .ok m
  else if e.baseAddrLow ≥ 1 * 1024 * 1024 ∧ e.type = 1 then
    let low := e.baseAddrLow
    let high := low + e.lengthLow
    let low := if low < max then max else low
    if low ≥ high ∨ m.areaCount.toNat = SIZEOF_AREAS then .ok m
    else m.store low high
  else .ok m

/-- `init` -/
def init (m : Memory) (info : MultibootInfo) : Checked Fault Memory :=
  info.entries.foldlM (examine (lowestUsable (highest 0 info.sections))) m

end Memory

end Iposix.Devices
