import Iposix.Core.GlobalDescriptorTable

/-!
# The descriptor of a task state segment

The constructor takes a base and a limit apart without loss, as far as the
fields go: the base comes back as it was, the limit up to its lowest twenty
bits. For a task state segment it is given the address of the end of the
structure for a limit, not the offset of its last byte. The descriptor is a
usable one only where the lowest twenty bits of that address are such an offset
by chance: the structure lies across a multiple of a mebibyte.
-/

namespace Iposix.Core

open Iposix.Lib

namespace MemoryDescriptor

variable {type : SegmentType} {present highGranularity : Bool}
  {base limit : Nat}

/-- The last byte of a segment, counted from its base: the unit of the limit is
a byte or a page. -/
def lastByte (d : MemoryDescriptor) : Nat :=
  if d.granularity = 0 then d.limit else 4096 * d.limit + 4095

theorem base_fields (h : base < 4294967296) :
    (fields present base limit highGranularity).base = base := by
  have hparts : base / 16777216 % 256 * 16777216 + base / 65536 % 256 * 65536 +
      base % 65536 = base := by omega
  show u32 (base / 16777216 % 256 * 16777216 + base / 65536 % 256 * 65536 +
    base % 65536 : Nat) = base
  rw [hparts, u32_of_lt h]

theorem limit_fields :
    (fields present base limit highGranularity).limit = limit % 1048576 := by
  have hparts : limit / 65536 % 16 * 65536 + limit % 65536 =
      limit % 1048576 := by omega
  show u32 (limit / 65536 % 16 * 65536 + limit % 65536 : Nat) = _
  rw [hparts, u32_of_lt (by omega)]

/-- The type of a segment does not touch its place. -/
theorem new_place (present : Bool) (base limit : Nat) (highGranularity : Bool)
    (h : type ≠ .nullPointerSegmentDescriptor) :
    (new type present base limit highGranularity).base =
        (fields present base limit highGranularity).base ∧
      (new type present base limit highGranularity).limit =
        (fields present base limit highGranularity).limit ∧
      (new type present base limit highGranularity).granularity =
        (fields present base limit highGranularity).granularity := by
  cases type with
  | nullPointerSegmentDescriptor => exact absurd rfl h
  | kernelCodeSegmentDescriptor | kernelDataSegmentDescriptor
  | userCodeSegmentDescriptor | userDataSegmentDescriptor
  | taskStateSegmentDescriptor | localDescriptorTableDescriptor =>
      exact ⟨rfl, rfl, rfl⟩

theorem base_new (h : type ≠ .nullPointerSegmentDescriptor)
    (hbase : base < 4294967296) :
    (new type present base limit highGranularity).base = base :=
  (new_place present base limit highGranularity h).1.trans (base_fields hbase)

/-- A segment measured in bytes keeps twenty bits of its limit. -/
theorem lastByte_new (h : type ≠ .nullPointerSegmentDescriptor) :
    (new type present base limit true).lastByte = limit % 1048576 := by
  obtain ⟨-, hlimit, hunit⟩ := new_place present base limit true h
  have hbyte : (fields present base limit true).granularity = 0 := rfl
  rw [lastByte, hunit, hbyte, if_pos rfl, hlimit, limit_fields]

end MemoryDescriptor

namespace GlobalDescriptorTable

variable {gdt : GlobalDescriptorTable} {n tss : Nat}

/-- The descriptor of a task state segment at `tss`: it starts there, holds what
the hardware defines, and ends within the structure. -/
structure Describes (d : MemoryDescriptor) (tss : Nat) : Prop where
  base : d.base = tss
  covers : TaskStateSegment.HARDWARE_BYTES ≤ d.lastByte + 1
  within : d.lastByte + 1 ≤ TaskStateSegment.BYTES

instance (d : MemoryDescriptor) (tss : Nat) : Decidable (Describes d tss) :=
  decidable_of_iff
    (d.base = tss ∧ TaskStateSegment.HARDWARE_BYTES ≤ d.lastByte + 1 ∧
      d.lastByte + 1 ≤ TaskStateSegment.BYTES)
    ⟨fun ⟨h₁, h₂, h₃⟩ => ⟨h₁, h₂, h₃⟩, fun ⟨h₁, h₂, h₃⟩ => ⟨h₁, h₂, h₃⟩⟩

theorem setTaskStateSegment_table (hfirst : FIRST_FREE_SEGMENT ≤ n)
    (hsize : n < GDT_SIZE) :
    (gdt.setTaskStateSegment n tss).table n =
      .new .taskStateSegmentDescriptor true tss
        (u32 (tss + TaskStateSegment.BYTES : Nat)) true := by
  rw [setTaskStateSegment, if_pos ⟨hfirst, hsize⟩]
  exact if_pos rfl

theorem setTaskStateSegment_lastByte (hfirst : FIRST_FREE_SEGMENT ≤ n)
    (hsize : n < GDT_SIZE) :
    ((gdt.setTaskStateSegment n tss).table n).lastByte =
      (tss + TaskStateSegment.BYTES) % 1048576 := by
  rw [setTaskStateSegment_table hfirst hsize,
    MemoryDescriptor.lastByte_new (fun h => by cases h)]
  simp only [u32]
  omega

/-- The descriptor that is installed is one of the segment exactly where the
structure lies across a multiple of 2^20. -/
theorem setTaskStateSegment_describes_iff (gdt : GlobalDescriptorTable)
    (hfirst : FIRST_FREE_SEGMENT ≤ n) (hsize : n < GDT_SIZE)
    (halign : tss % 128 = 0) (htss : tss < 4294967296) :
    Describes ((gdt.setTaskStateSegment n tss).table n) tss ↔
      1048576 < tss % 1048576 + TaskStateSegment.BYTES := by
  have hbytes : TaskStateSegment.BYTES = 3712 := rfl
  have hhardware : TaskStateSegment.HARDWARE_BYTES = 104 := rfl
  have hlast : ((gdt.setTaskStateSegment n tss).table n).lastByte = _ :=
    setTaskStateSegment_lastByte hfirst hsize
  constructor
  · rintro ⟨-, hcovers, hwithin⟩
    rw [hlast] at hcovers hwithin
    omega
  · intro hacross
    refine ⟨?_, by rw [hlast]; omega, by rw [hlast]; omega⟩
    rw [setTaskStateSegment_table hfirst hsize]
    exact MemoryDescriptor.base_new (fun h => by cases h) htss

/-- A table of null segments. -/
def flushed : GlobalDescriptorTable :=
  ⟨fun _ => .new .nullPointerSegmentDescriptor false 0 0xFFFFF false⟩

theorem setTaskStateSegment_across :
    Describes ((flushed.setTaskStateSegment 5 0x1FF800).table 5) 0x1FF800 :=
  (setTaskStateSegment_describes_iff flushed (by decide) (by decide) (by decide)
    (by decide)).2 (by decide)

/-- At 0x110000 the segment is 0x10E81 bytes long, for a structure of 0xE80: what
the address has below 2^20 is a part of the limit. -/
theorem setTaskStateSegment_too_long :
    (∀ gdt : GlobalDescriptorTable,
      ((gdt.setTaskStateSegment 5 0x110000).table 5).lastByte = 0x10E80) ∧
    ¬ Describes ((flushed.setTaskStateSegment 5 0x110000).table 5) 0x110000 :=
  ⟨fun _ => setTaskStateSegment_lastByte (by decide) (by decide),
    by decide +kernel⟩

end GlobalDescriptorTable

end Iposix.Core
