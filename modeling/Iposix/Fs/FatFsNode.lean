import Iposix.Fs.FatMount
import Iposix.Fs.Filehandle

/-!
# Directories of a FAT filesystem

A directory is a chain of clusters filled with entries of 32 bytes. To find a
name, `entry_by_name` asks for the length of the chain and then reads cluster by
cluster until it has found the name or an entry that was never used. What is
found becomes a node whose first cluster is normalised: a cluster number starts
at 2, and on FAT12 and FAT16 the root directory lies in front of the first
cluster.

A name is the bytes of a `std::string`. The times of an entry are left out, and
so is its dump.
-/

namespace Iposix.Fs

open Iposix.Lib

/-- A `fat_fs` with the field of its boot sector that sizes the root directory. -/
structure FatVolume extends FatFs where
  maxDirEntrysInRoot : UInt16

/-- `fat_directory_entry_t` -/
structure FatDirectoryEntry where
  name : List UInt8
  extension : List UInt8
  volumeLabel : Bool
  directory : Bool
  clusterHigh : Nat
  clusterLow : Nat
  size : Nat

namespace FatDirectoryEntry

/-- `entrys[j]` of an array of entries. -/
def ofBytes (entrys : Nat → UInt8) (j : Nat) : FatDirectoryEntry :=
  let entry := window entrys (DIRECTORY_ENTRY_SIZE * j)
  { name := (List.range 8).map entry
    extension := (List.range 3).map (window entry 8)
    volumeLabel := (entry 11).toNat.testBit 3
    directory := (entry 11).toNat.testBit 4
    clusterHigh := load 2 entry 20
    clusterLow := load 2 entry 26
    size := load 4 entry 28 }

variable (entry : FatDirectoryEntry)

/-- `cluster` -/
def cluster (type : FatType) : Nat :=
  match type with
  | .fat32 => entry.clusterLow ||| entry.clusterHigh <<< 16
  | .fat12 | .fat16 => entry.clusterLow

def charOk (value : UInt8) : Bool := value != 0 && value != 32

/-- 'A' to 'Z' become 'a' to 'z'. -/
def toLower (value : UInt8) : UInt8 :=
  if 65 ≤ value && value ≤ 90 then value + 32 else value

/-- `filename` -/
def filename : List UInt8 :=
  let extension := entry.extension.takeWhile charOk
  let filename := entry.name.takeWhile charOk
  let filename :=
    if extension.isEmpty then filename else filename ++ [46] ++ extension
  filename.map toLower

end FatDirectoryEntry

/-! ## Looking up a name -/

/-- How the loop over the entries of one cluster ends. -/
inductive Scanned where
  | found (entry : FatDirectoryEntry)
  | abort
  | exhausted

/-- The loop of `entry_by_name` over the entries of one cluster. -/
def scanEntrys (name : List UInt8) (entrys : Nat → UInt8) :
    (turns j : Nat) → Scanned
  | 0, _ => .exhausted
  | turns + 1, j =>
      let entry := FatDirectoryEntry.ofBytes entrys j
      if entry.volumeLabel then scanEntrys name entrys turns (j + 1)
      else if entry.name.head? = some 0 then .abort
      else if entry.filename = name then .found entry
      else scanEntrys name entrys turns (j + 1)

namespace FatFsNode

/-- The loop of `entry_by_name` over the clusters. -/
def searchClusters (node : FatFsNode) (container : Nat → UInt8)
    (name : List UInt8) : (turns offset : Nat) → (entrys : Nat → UInt8) →
      Option (Option FatDirectoryEntry)
  | 0, _, _ => some none
  | turns + 1, offset, entrys =>
      let clustersize := node.fs.clusterSize
      match node.readPure container offset entrys clustersize with
      | none => none
      | some entrys =>
          match scanEntrys name entrys (clustersize / DIRECTORY_ENTRY_SIZE) 0 with
          | .found entry => some (some entry)
          | .abort => some none
          | .exhausted =>
              searchClusters node container name turns
                (u64 (offset + clustersize : Nat)) entrys

/-- `entry_by_name`; `none` when the fuel for `chain_length` runs out. -/
def entryByName (node : FatFsNode) (container : Nat → UInt8)
    (name : List UInt8) (fuel : Nat) : Option (Option FatDirectoryEntry) :=
  if !node.isDirectory then some none
  else
    match node.fs.clustertable.chainLength fuel node.cluster with
    | none => none
    | some clusters => node.searchClusters container name clusters 0 fun _ => 0

end FatFsNode

/-! ## Opening what was found -/

namespace FatVolume

variable (fs : FatVolume)

/-- `norm_node_cluster_add` -/
def normNodeClusterAdd : Nat :=
  match fs.clustertable.type with
  | .fat12 | .fat16 =>
      u32 (fs.maxDirEntrysInRoot.toNat * DIRECTORY_ENTRY_SIZE /
        fs.clusterSize : Nat)
  | .fat32 => 0

/-- The cluster of a new node: the root directory has number 0 and keeps it. -/
def normCluster (cluster : Nat) : Nat :=
  if cluster = 0 then cluster
  else u32 (u32 ((cluster : Int) - 2) + fs.normNodeClusterAdd)

/-- `fat_fs_node::open_subnode`, of a node of this filesystem. -/
def openSubnode (node : FatFsNode) (container : Nat → UInt8)
    (subname : List UInt8) (fuel : Nat) : Option (Option FatFsNode) :=
  if !node.isDirectory then some none
  else
    match node.entryByName container subname fuel with
    | none => none
    | some none => some none
    | some (some entry) =>
        some (some
          { node with
            isDirectory := entry.directory
            cluster := fs.normCluster (entry.cluster fs.clustertable.type)
            size := entry.size })

end FatVolume

end Iposix.Fs
