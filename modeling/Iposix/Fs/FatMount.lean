import Iposix.Fs.FatFs
import Iposix.Lib.Checked

/-!
# Mounting a FAT image, with its accesses checked

`fat_fs::init` reads the boot sector and the first file allocation table and
dumps statistics of the table. Nothing that it reads is checked. The model here
is the one of the cluster table and of `cluster_io` again, with each division
and each lookup in the table made visible: a lookup whose entry lies outside
the table that was loaded is a fault, and so is a division by zero.

An image is its bytes. The array for the table is taken to be allocated.
-/

namespace Iposix.Fs

open Iposix.Lib

/-- What goes wrong. -/
inductive Fault where
  | divisionByZero
  | outsideTable
  deriving DecidableEq

/-- `clustertable_t` after `size` and the read of the table. -/
structure LoadedTable extends ClusterTable where
  sizeBytes : Nat

namespace LoadedTable

/-- The size of an entry in bits. -/
def entryBits : FatType → Nat
  | .fat12 => 12
  | .fat16 => 16
  | .fat32 => 32

/-- The entry lies inside the table. -/
def Inside (t : LoadedTable) (cluster : Nat) : Prop :=
  entryBits t.type * (cluster + 1) ≤ 8 * t.sizeBytes

instance (t : LoadedTable) (cluster : Nat) : Decidable (t.Inside cluster) :=
  inferInstanceAs (Decidable (_ ≤ _))

/-- `value` -/
def checkedValue (t : LoadedTable) (cluster : Nat) : Checked Fault Nat := do
  check (t.Inside cluster) .outsideTable
  return t.value cluster

/-- `is_free` -/
def checkedIsFree (t : LoadedTable) (cluster : Nat) : Checked Fault Bool := do
  let value ← t.checkedValue (u32 (cluster + 2))
  return value == ClusterTable.free t.type

/-- `is_defect` -/
def checkedIsDefect (t : LoadedTable) (cluster : Nat) : Checked Fault Bool := do
  let value ← t.checkedValue (u32 (cluster + 2))
  return value == ClusterTable.defect t.type

/-- `is_end` -/
def checkedIsEnd (t : LoadedTable) (cluster : Nat) : Checked Fault Bool := do
  let value ← t.checkedValue (u32 (cluster + 2))
  return decide (value ≥ ClusterTable.end t.type)

/-- `has_successor`: a question is not asked when an earlier one decides. -/
def checkedHasSuccessor (t : LoadedTable) (cluster : Nat) :
    Checked Fault Bool := do
  let isFree ← t.checkedIsFree cluster
  if isFree then return false
  else
    let isDefect ← t.checkedIsDefect cluster
    if isDefect then return false
    else
      let isEnd ← t.checkedIsEnd cluster
      return !isEnd

/-- `successor`: it asks `has_successor` as well, of the shifted number. -/
def checkedSuccessor (t : LoadedTable) (cluster : Nat) : Checked Fault Nat := do
  let cluster := u32 (cluster - t.add + 2)
  let value ← t.checkedValue cluster
  let _ ← t.checkedHasSuccessor cluster
  return u32 (value + t.add - 2)

/-- The loop of `chain_length`. -/
def chainLoop (t : LoadedTable) :
    (fuel cluster length : Nat) → Checked Fault Nat
  | 0, _, _ => .error .outOfFuel
  | fuel + 1, cluster, length => do
      let more ← t.checkedHasSuccessor cluster
      if more then
        let cluster ← t.checkedSuccessor cluster
        chainLoop t fuel cluster (u32 (length + 1))
      else return length

/-- `chain_length` -/
def checkedChainLength (t : LoadedTable) (fuel cluster : Nat) :
    Checked Fault Nat := do
  let isFree ← t.checkedIsFree cluster
  if isFree then t.chainLoop fuel cluster 0
  else
    let isDefect ← t.checkedIsDefect cluster
    t.chainLoop fuel cluster (if isDefect then 0 else 1)

/-- How many entries `dump` takes the table to have. -/
def clusters (t : LoadedTable) : Nat :=
  match t.type with
  | .fat12 =>
      u32 (t.sizeBytes * ClusterTable.FAT12_ENTRYS : Nat) / ClusterTable.BYTES
  | .fat16 => t.sizeBytes / 2
  | .fat32 => t.sizeBytes / 4

/-- The loop of `dump`, of which the lookups are kept. -/
def dumpLoop (t : LoadedTable) : (turns i : Nat) → Checked Fault PUnit
  | 0, _ => return ⟨⟩
  | turns + 1, i => do
      let _ ← t.checkedValue i
      let isFree ← t.checkedIsFree i
      if isFree then dumpLoop t turns (i + 1)
      else
        let _ ← t.checkedIsDefect i
        dumpLoop t turns (i + 1)

def dump (t : LoadedTable) : Checked Fault PUnit := t.dumpLoop t.clusters 0

end LoadedTable

/-! ## Mounting -/

/-- The fields of the boot sector that place a cluster. -/
def readBootsector (sector : Nat → UInt8) : FatBootsector where
  bytesPerSector := UInt16.ofNat (load 2 sector 11)
  sectorPerCluster := sector 13
  reservedSectors := UInt16.ofNat (load 2 sector 14)
  fatCopies := sector 16
  sectorsPerFat := UInt16.ofNat (load 2 sector 22)

def maxDirEntrysInRoot (sector : Nat → UInt8) : Nat := load 2 sector 17

/-- The size of `fat_directory_entry_t`. -/
def DIRECTORY_ENTRY_SIZE : Nat := 32

/-- A mounted `fat_fs`. -/
structure MountedFat where
  clustertable : LoadedTable
  fatBootsector : FatBootsector

namespace MountedFat

/-- The filesystem without the checks. -/
def toFatFs (fs : MountedFat) : FatFs where
  clustertable := fs.clustertable.toClusterTable
  fatBootsector := fs.fatBootsector

end MountedFat

def clusterSizeOf (boot : FatBootsector) : Nat :=
  boot.bytesPerSector.toNat * boot.sectorPerCluster.toNat

/-- The size of the table, in bytes. -/
def tableSizeOf (boot : FatBootsector) : Nat :=
  boot.sectorsPerFat.toNat * boot.bytesPerSector.toNat

/-- `norm_node_cluster_add` -/
def normNodeClusterAdd (type : FatType) (sector : Nat → UInt8) :
    Checked Fault Nat :=
  match type with
  | .fat32 => return 0
  | .fat12 | .fat16 => do
      let clusterSize := clusterSizeOf (readBootsector sector)
      check (clusterSize ≠ 0) .divisionByZero
      return maxDirEntrysInRoot sector * DIRECTORY_ENTRY_SIZE / clusterSize

/-- `fat_fs::init`: the two reads and the dump of the table. -/
def fatInit (type : FatType) (image : Nat → UInt8) :
    Checked Fault MountedFat := do
  let boot := readBootsector image
  let base := boot.reservedSectors.toNat * boot.bytesPerSector.toNat
  let add ← normNodeClusterAdd type image
  let table : LoadedTable :=
    { data := some (window image base)
      add := add
      type := type
      sizeBytes := tableSizeOf boot }
  table.dump
  return { clustertable := table, fatBootsector := boot }

/-! ## Cluster input and output -/

namespace MountedFat

variable (fs : MountedFat)

/-- `single_cluster_io` -/
def checkedSingleClusterIo (ioType : FatIoType) (cluster offset : Nat)
    (container buffer : Nat → UInt8) (length : Nat) :
    Checked Fault ((Nat → UInt8) × (Nat → UInt8)) :=
  if u32 (offset + length) > fs.toFatFs.clusterSize then
    return (container, buffer)
  else do
    check (fs.fatBootsector.sectorPerCluster.toNat ≠ 0) .divisionByZero
    return fs.toFatFs.singleClusterIo ioType cluster offset container buffer
      length

/-- The first loop of `cluster_io`; `none` is its early return. -/
def checkedSkipClusters : (skip cluster : Nat) → Checked Fault (Option Nat)
  | 0, cluster => return some cluster
  | skip + 1, cluster => do
      let more ← fs.clustertable.checkedHasSuccessor cluster
      if more then
        let cluster ← fs.clustertable.checkedSuccessor cluster
        checkedSkipClusters skip cluster
      else return none

/-- The second loop of `cluster_io`. -/
def checkedTransfer (ioType : FatIoType) (length : Nat) :
    (fuel cluster skipBytes position remain : Nat) →
      (container buffer : Nat → UInt8) →
      Checked Fault ((Nat → UInt8) × (Nat → UInt8))
  | 0, _, _, _, _, _, _ => .error .outOfFuel
  | fuel + 1, cluster, skipBytes, position, remain, container, buffer =>
      if position < length then do
        let maxLen := u32 (fs.toFatFs.clusterSize - skipBytes)
        let len := if remain > maxLen then maxLen else remain
        let (container, out) ← fs.checkedSingleClusterIo ioType cluster
          skipBytes container (window buffer position) len
        let buffer := graft buffer position out
        let remain := u32 (remain - len)
        let position := u32 (position + len)
        if remain > 0 then
          let more ← fs.clustertable.checkedHasSuccessor cluster
          if more then
            let cluster ← fs.clustertable.checkedSuccessor cluster
            checkedTransfer ioType length fuel cluster 0 position remain
              container buffer
          else return (container, buffer)
        else return (container, buffer)
      else return (container, buffer)

/-- `cluster_io` -/
def checkedClusterIo (fuel : Nat) (ioType : FatIoType)
    (startCluster offset : Nat) (container buffer : Nat → UInt8)
    (length : Nat) : Checked Fault ((Nat → UInt8) × (Nat → UInt8)) := do
  let clusterSize := fs.toFatFs.clusterSize
  check (clusterSize ≠ 0) .divisionByZero
  let skipped ← fs.checkedSkipClusters (u32 (offset / clusterSize : Nat))
    startCluster
  match skipped with
  | none => return (container, buffer)
  | some cluster =>
      fs.checkedTransfer ioType length fuel cluster
        (u32 (offset % clusterSize : Nat)) 0 length container buffer

end MountedFat

end Iposix.Fs
