import Iposix.Fs.ClusterTable

/-!
# Cluster input and output

`fat_fs::cluster_io` moves a byte range of a cluster chain between a buffer
and the container: it first skips whole clusters, then goes piece by piece,
each piece inside one cluster and handed to `single_cluster_io`.

The container is its bytes. `i_fs::read` and `i_fs::write` pass a range on to
the container's node, which is taken to transfer what it is asked for.
-/

namespace Iposix.Fs

open Iposix.Lib

/-- The fields of `fat_bootsector_t` that place a cluster. -/
structure FatBootsector where
  bytesPerSector : UInt16
  sectorPerCluster : UInt8
  reservedSectors : UInt16
  fatCopies : UInt8
  sectorsPerFat : UInt16

/-- `fat_fs` -/
structure FatFs where
  clustertable : ClusterTable
  fatBootsector : FatBootsector

/-- `fat_io_type_t` -/
inductive FatIoType where
  | clusterRead
  | clusterWrite

namespace FatFs

variable (fs : FatFs)

/-- `cluster_size()`; the product of the two small fields fits. -/
def clusterSize : Nat :=
  fs.fatBootsector.bytesPerSector.toNat *
    fs.fatBootsector.sectorPerCluster.toNat

/-- `base_cluster`: the clusters in front of cluster zero. -/
def baseCluster : Nat :=
  (fs.fatBootsector.reservedSectors.toNat +
      fs.fatBootsector.sectorsPerFat.toNat * fs.fatBootsector.fatCopies.toNat) /
    fs.fatBootsector.sectorPerCluster.toNat

/-- Where a cluster starts: computed in 32 bits, then widened. -/
def clusterBase (cluster : Nat) : Nat :=
  u32 (u32 (fs.baseCluster + cluster) * fs.clusterSize)

/-- `single_cluster_io`: the container and the buffer afterwards. -/
def singleClusterIo (ioType : FatIoType) (cluster offset : Nat)
    (container buffer : Nat → UInt8) (length : Nat) :
    (Nat → UInt8) × (Nat → UInt8) :=
  if u32 (offset + length) > fs.clusterSize then (container, buffer)
  else
    let base := u64 (fs.clusterBase cluster + offset)
    match ioType with
    | .clusterRead =>
        (container, splice buffer 0 length (window container base))
    | .clusterWrite => (splice container base length buffer, buffer)

/-- The first loop of `cluster_io`; `none` is its early return. -/
def skipClusters : Nat → Nat → Option Nat
  | 0, cluster => some cluster
  | skip + 1, cluster =>
      if fs.clustertable.hasSuccessor cluster then
        skipClusters skip (fs.clustertable.successor cluster)
      else none

/-- The second loop of `cluster_io`; `none` when the fuel runs out. -/
def transfer (ioType : FatIoType) (length : Nat) :
    Nat → (cluster skipBytes position remain : Nat) →
      (container buffer : Nat → UInt8) →
      Option ((Nat → UInt8) × (Nat → UInt8))
  | 0, _, _, _, _, _, _ => none
  | fuel + 1, cluster, skipBytes, position, remain, container, buffer =>
      if position < length then
        let maxLen := u32 (fs.clusterSize - skipBytes)
        let len := if remain > maxLen then maxLen else remain
        let (container, out) := fs.singleClusterIo ioType cluster skipBytes
          container (window buffer position) len
        let buffer := graft buffer position out
        let remain := u32 (remain - len)
        let position := u32 (position + len)
        if remain > 0 && fs.clustertable.hasSuccessor cluster then
          transfer ioType length fuel (fs.clustertable.successor cluster) 0
            position remain container buffer
        else some (container, buffer)
      else some (container, buffer)

/-- `cluster_io`: the container and the buffer afterwards. -/
def clusterIo (fuel : Nat) (ioType : FatIoType) (startCluster offset : Nat)
    (container buffer : Nat → UInt8) (length : Nat) :
    Option ((Nat → UInt8) × (Nat → UInt8)) :=
  match fs.skipClusters (u32 (offset / fs.clusterSize : Nat)) startCluster with
  | none => some (container, buffer)
  | some cluster =>
      fs.transfer ioType length fuel cluster
        (u32 (offset % fs.clusterSize : Nat)) 0 length container buffer

end FatFs

end Iposix.Fs
