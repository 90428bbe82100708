import Iposix.Fs.DevFsNode
import Iposix.Fs.Filehandle

/-!
# A filesystem and its container

`i_fs::read` and `i_fs::write` hand a range to the container, which normally is
a node of the device filesystem: a part of a drive. Here the cluster input and
output of a FAT filesystem and what its nodes make of it are written over such a
container, whose state changes as the drive behind it works. A call that does
not return is none.
-/

namespace Iposix.Fs

open Iposix.Lib

open Iposix.Devices (Bytes)

/-- What `i_fs` asks of `container`; `σ` is the state of all that is behind
it. -/
structure Container (σ : Type*) where
  /-- `container->read( offset, buffer, length )` -/
  read : σ → Nat → Bytes → Nat → Option (Bytes × σ)
  /-- `container->write( offset, buffer, length )` -/
  write : σ → Nat → Bytes → Nat → Option σ

/-- A node of the device filesystem as a container. -/
def Container.ofNode {σ : Type*} (devices : NodeDevices σ) (n : DevFsNode) :
    Container σ where
  read := n.read devices
  write := n.write devices

namespace FatFs

variable {σ : Type*} (container : Container σ) (fs : FatFs)

/-- `single_cluster_io`: the state of the container and the buffer
afterwards. -/
def singleClusterIoOn (ioType : FatIoType) (cluster offset : Nat) (dev : σ)
    (buffer : Bytes) (length : Nat) : Option (σ × Bytes) :=
  if u32 (offset + length) > fs.clusterSize then some (dev, buffer)
  else
    let base := u64 (fs.clusterBase cluster + offset)
    match ioType with
    | .clusterRead =>
        (container.read dev base buffer length).map fun (buffer, dev) =>
          (dev, buffer)
    | .clusterWrite =>
        (container.write dev base buffer length).map fun dev => (dev, buffer)

/-- The second loop of `cluster_io`; the first does not touch the container. -/
def transferOn (ioType : FatIoType) (length : Nat) :
    Nat → (cluster skipBytes position remain : Nat) → σ → Bytes →
      Option (σ × Bytes)
  | 0, _, _, _, _, _, _ => none
  | fuel + 1, cluster, skipBytes, position, remain, dev, buffer =>
      if position < length then
        let maxLen := u32 (fs.clusterSize - skipBytes)
        let len := if remain > maxLen then maxLen else remain
        match fs.singleClusterIoOn container ioType cluster skipBytes dev
          (window buffer position) len with
        | none => none
        | some (dev, out) =>
            let buffer := graft buffer position out
            let remain := u32 (remain - len)
            let position := u32 (position + len)
            if remain > 0 && fs.clustertable.hasSuccessor cluster then
              transferOn ioType length fuel (fs.clustertable.successor cluster)
                0 position remain dev buffer
            else some (dev, buffer)
      else some (dev, buffer)

/-- `cluster_io` -/
def clusterIoOn (fuel : Nat) (ioType : FatIoType) (startCluster offset : Nat)
    (dev : σ) (buffer : Bytes) (length : Nat) : Option (σ × Bytes) :=
  match fs.skipClusters (u32 (offset / fs.clusterSize : Nat)) startCluster with
  | none => some (dev, buffer)
  | some cluster =>
      fs.transferOn container ioType length fuel cluster
        (u32 (offset % fs.clusterSize : Nat)) 0 length dev buffer

end FatFs

namespace FatFsNode

variable {σ : Type*} (container : Container σ) (node : FatFsNode)

/-- `fat_fs_node::read`: the buffer and the container afterwards. -/
def readOn (dev : σ) (offset : Nat) (buffer : Bytes) (length : Nat) :
    Option (Bytes × σ) :=
  if node.isDirectory then some (buffer, dev)
  else
    let length :=
      if u64 (offset + length : Nat) > node.size then
        u32 ((node.size : Int) - offset)
      else length
    (node.fs.clusterIoOn container (length + 1) .clusterRead node.cluster offset
      dev buffer length).map Prod.swap

/-- `fat_fs_node::write`: the container afterwards. -/
def writeOn (dev : σ) (offset : Nat) (buffer : Bytes) (length : Nat) :
    Option σ :=
  if node.isDirectory then some dev
  else
    let length :=
      if u64 (offset + length : Nat) > node.size then
        u32 ((node.size : Int) - offset)
      else length
    (node.fs.clusterIoOn container (length + 1) .clusterWrite node.cluster offset
      dev buffer length).map Prod.fst

end FatFsNode

end Iposix.Fs
