import Iposix.Lib.LittleEndian
import Iposix.Lib.Word

/-!
# The cluster table

`clustertable_t`: the FAT, kept as the bytes it was read as, and the questions
asked of it. The bytes are a total function of the offset from `data`, since
`value` compares nothing with `size_bytes`; what lies behind the table is
whatever the memory holds.

The three queries `is_free`, `is_defect` and `is_end` look at the entry
`cluster + 2`; `successor` takes `add` off first.
-/

namespace Iposix.Fs

open Iposix.Lib

/-- `fat_type_t` -/
inductive FatType where
  | fat12
  | fat16
  | fat32
  deriving DecidableEq

/-- `clustertable_t` -/
structure ClusterTable where
  /-- The bytes behind the pointer, `none` for a null pointer. -/
  data : Option (Nat → UInt8)
  add : Nat
  type : FatType

namespace ClusterTable

/-- The size of `clustertable_data_t`. -/
def BYTES : Nat := 12

def FAT12_ENTRYS : Nat := 8
def FAT16_ENTRYS : Nat := 6
def FAT32_ENTRYS : Nat := 3

/-- `FAT12_FREE`, `FAT16_FREE`, `FAT32_FREE` -/
def free : FatType → Nat
  | .fat12 => 0x0
  | .fat16 => 0x0
  | .fat32 => 0x0

/-- `FAT12_DEFECT`, `FAT16_DEFECT`, `FAT32_DEFECT` -/
def defect : FatType → Nat
  | .fat12 => 0xFF7
  | .fat16 => 0xFFF7
  | .fat32 => 0x0FFFFFF7

/-- `FAT12_END`, `FAT16_END`, `FAT32_END` -/
def «end» : FatType → Nat
  | .fat12 => 0xFF8
  | .fat16 => 0xFFF8
  | .fat32 => 0x0FFFFFF8

/-- `cl_fat12_entry_t` -/
structure ClFat12Entry where
  value0 : Nat
  value1 : Nat
  value2 : Nat
  value3 : Nat
  value4 : Nat
  value5 : Nat
  value6 : Nat
  value7 : Nat

/-- The record at `a`: packed, twelve bits a field, from the lowest bit up. -/
def ClFat12Entry.ofBytes (data : Nat → UInt8) (a : Nat) : ClFat12Entry :=
  let record := load BYTES data a
  { value0 := record % 2 ^ 12
    value1 := record / 2 ^ 12 % 2 ^ 12
    value2 := record / 2 ^ 24 % 2 ^ 12
    value3 := record / 2 ^ 36 % 2 ^ 12
    value4 := record / 2 ^ 48 % 2 ^ 12
    value5 := record / 2 ^ 60 % 2 ^ 12
    value6 := record / 2 ^ 72 % 2 ^ 12
    value7 := record / 2 ^ 84 % 2 ^ 12 }

/-- The switch of `value` over the fields of a record. -/
def fat12Value (data : Nat → UInt8) (cluster : Nat) : Nat :=
  let fat12Entry := ClFat12Entry.ofBytes data (BYTES * (cluster / FAT12_ENTRYS))
  match cluster % FAT12_ENTRYS with
  | 0 => fat12Entry.value0
  | 1 => fat12Entry.value1
  | 2 => fat12Entry.value2
  | 3 => fat12Entry.value3
  | 4 => fat12Entry.value4
  | 5 => fat12Entry.value5
  | 6 => fat12Entry.value6
  | 7 => fat12Entry.value7
  | _ => 0

/-- `value`. The bit fields `value0` to `value7` of a packed record are its
bits in steps of twelve, from the lowest up. -/
def value (t : ClusterTable) (cluster : Nat) : Nat :=
  match t.data with
  | none => 0
  | some data =>
      match t.type with
      | .fat12 =>
          load BYTES data (BYTES * (cluster / FAT12_ENTRYS)) /
            2 ^ (12 * (cluster % FAT12_ENTRYS)) % 4096
      | .fat16 =>
          load 2 data
            (BYTES * (cluster / FAT16_ENTRYS) + 2 * (cluster % FAT16_ENTRYS))
      | .fat32 =>
          load 4 data
            (BYTES * (cluster / FAT32_ENTRYS) + 4 * (cluster % FAT32_ENTRYS))

def isFree (t : ClusterTable) (cluster : Nat) : Bool :=
  t.value (u32 (cluster + 2)) == free t.type

def isDefect (t : ClusterTable) (cluster : Nat) : Bool :=
  t.value (u32 (cluster + 2)) == defect t.type

def isEnd (t : ClusterTable) (cluster : Nat) : Bool :=
  decide (t.value (u32 (cluster + 2)) ≥ «end» t.type)

def hasSuccessor (t : ClusterTable) (cluster : Nat) : Bool :=
  !(t.isFree cluster || t.isDefect cluster || t.isEnd cluster)

/-- `successor`; it answers for a cluster without one as well. -/
def successor (t : ClusterTable) (cluster : Nat) : Nat :=
  u32 (t.value (u32 (cluster - t.add + 2)) + t.add - 2)

/-- The step of a chain walk: `has_successor`, then `successor`. -/
def next (t : ClusterTable) (cluster : Nat) : Option Nat :=
  if t.hasSuccessor cluster then some (t.successor cluster) else none

/-- The loop of `chain_length`; `none` when the fuel runs out. -/
def chainLoop (t : ClusterTable) : (fuel cluster length : Nat) → Option Nat
  | 0, _, _ => none
  | fuel + 1, cluster, length =>
      if t.hasSuccessor cluster then
        chainLoop t fuel (t.successor cluster) (u32 (length + 1))
      else some length

/-- `chain_length` -/
def chainLength (t : ClusterTable) (fuel cluster : Nat) : Option Nat :=
  t.chainLoop fuel cluster
    (if !(t.isFree cluster || t.isDefect cluster) then 1 else 0)

end ClusterTable

end Iposix.Fs
