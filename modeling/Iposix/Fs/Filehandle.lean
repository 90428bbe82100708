import Iposix.Fs.FatFs

/-!
# Reading through a descriptor

A user-level `read` goes through four layers: the wrapper that fills in the
message, the dispatcher that looks up the descriptor, the handle that keeps the
position, and the node of the file, which cuts the request down to the file and
hands it to `cluster_io`.

None of the layers reports how many bytes it moved. A map of handles that has
no entry for a descriptor answers with a null handle.
-/

namespace Iposix.Fs

open Iposix.Lib

/-- `error_type`, of the calls that are modelled. -/
inductive ErrorType where
  | none
  | eNoSuchEntry
  | eBadFiledescriptor
  | eNoMem
  | eIllegalSeek
  deriving DecidableEq

/-- `fat_fs_node`; `size` is the size in its directory entry. -/
structure FatFsNode where
  fs : FatFs
  isDirectory : Bool
  cluster : Nat
  size : Nat

/-- `filehandle` -/
structure Filehandle where
  node : Option FatFsNode
  offset : Int

namespace FatFsNode

/-- `read_pure`: the buffer afterwards. Each round of the loop in `cluster_io`
moves a byte at least. -/
def readPure (node : FatFsNode) (container : Nat → UInt8) (offset : Nat)
    (buffer : Nat → UInt8) (length : Nat) : Option (Nat → UInt8) :=
  (node.fs.clusterIo (length + 1) .clusterRead node.cluster offset container
    buffer length).map Prod.snd

/-- `fat_fs_node::read` -/
def read (node : FatFsNode) (container : Nat → UInt8) (offset : Nat)
    (buffer : Nat → UInt8) (length : Nat) : Option (Nat → UInt8) :=
  if node.isDirectory then some buffer
  else
    let length :=
      if u64 (offset + length : Nat) > node.size then
        u32 ((node.size : Int) - offset)
      else length
    node.readPure container offset buffer length

/-- `write_pure`: the container afterwards. -/
def writePure (node : FatFsNode) (container : Nat → UInt8) (offset : Nat)
    (buffer : Nat → UInt8) (length : Nat) : Option (Nat → UInt8) :=
  (node.fs.clusterIo (length + 1) .clusterWrite node.cluster offset container
    buffer length).map Prod.fst

/-- `fat_fs_node::write` -/
def write (node : FatFsNode) (container : Nat → UInt8) (offset : Nat)
    (buffer : Nat → UInt8) (length : Nat) : Option (Nat → UInt8) :=
  if node.isDirectory then some container
  else
    let length :=
      if u64 (offset + length : Nat) > node.size then
        u32 ((node.size : Int) - offset)
      else length
    node.writePure container offset buffer length

end FatFsNode

namespace Filehandle

/-- `filehandle::read`: its result, the handle and the buffer. -/
def read (fh : Filehandle) (container : Nat → UInt8) (buffer : Nat → UInt8)
    (length : Nat) : Option (Nat × Filehandle × (Nat → UInt8)) :=
  match fh.node with
  | none => some (0, fh, buffer)
  | some node =>
      match node.read container (u64 fh.offset) buffer length with
      | none => none
      | some out =>
          let offset := i64 (fh.offset + length)
          some (u32 offset, { fh with offset := offset }, out)

end Filehandle

/-- The `filehandles` of a process. -/
abbrev Filehandles := Nat → Option Filehandle

/-- The `read_call` of the dispatcher. -/
def readCall (handles : Filehandles) (container : Nat → UInt8)
    (fileDescriptor : Int) (buffer : Nat → UInt8) (length : Nat) :
    Option (ErrorType × Filehandles × (Nat → UInt8)) :=
  match handles (u32 fileDescriptor) with
  | none => some (.eBadFiledescriptor, handles, buffer)
  | some fd =>
      match fd.read container buffer length with
      | none => none
      | some (_, fd, out) =>
          some (.none, Function.update handles (u32 fileDescriptor) (some fd),
            out)

/-- The user-level `read`. -/
def userRead (handles : Filehandles) (container : Nat → UInt8) (file : Int)
    (ptr : Nat → UInt8) (len : Nat) :
    Option (Int × Filehandles × (Nat → UInt8)) :=
  match readCall handles container file ptr len with
  | none => none
  | some (error, handles, ptr) =>
      some (if error = .none then i32 len else -1, handles, ptr)

end Iposix.Fs
