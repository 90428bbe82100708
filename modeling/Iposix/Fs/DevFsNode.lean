import Iposix.Devices.BlockDevice

/-!
# Nodes of the device filesystem

`dev_fs_node` is a directory, a part of a drive or a console. `read` and `write`
of a part of a drive add the offset to the address the part begins at, and ask
the drive for this range if the check of the bounds lets them. What the drive
answers is dropped.

The drive and the console are a parameter: a type `σ` of their states and the
calls a node makes. A call that does not return is none.
-/

namespace Iposix.Fs

open Iposix.Lib

open Iposix.Devices (Bytes)

/-- `dev_fs_node_type_t` -/
inductive DevFsNodeType where
  | pseudoNode
  | blockNode
  | charNode
  deriving DecidableEq

/-- What `drive` and `console` do for a node. -/
structure NodeDevices (σ : Type*) where
  /-- `drive->read( base, buffer, length )` -/
  driveRead : σ → Nat → Bytes → Nat → Option (Bytes × σ)
  /-- `drive->write( base, buffer, length )` -/
  driveWrite : σ → Nat → Bytes → Nat → Option σ
  /-- `console->read( buffer, length )` -/
  consoleRead : σ → Bytes → Nat → Option (Bytes × σ)
  /-- `console->write( buffer, length )` -/
  consoleWrite : σ → Bytes → Nat → Option σ

/-- `dev_fs_node`, without its name and its subnodes. -/
structure DevFsNode where
  isDirectory : Bool
  nodeType : DevFsNodeType
  firstAddress : Nat
  lastAddress : Nat
  deriving DecidableEq

namespace DevFsNode

/-- The constructor of a part of a drive. -/
def ofDrive (firstAddress lastAddress : Nat) : DevFsNode where
  isDirectory := false
  nodeType := .blockNode
  firstAddress := firstAddress
  lastAddress := lastAddress

variable {σ : Type*} (devices : NodeDevices σ) (n : DevFsNode)

/-- `dev_fs_node::read`: the buffer and the devices afterwards. -/
def read (dev : σ) (offset : Nat) (buffer : Bytes) (length : Nat) :
    Option (Bytes × σ) :=
  if n.isDirectory then some (buffer, dev)
  else
    match n.nodeType with
    | .pseudoNode => some (buffer, dev)
    | .blockNode =>
        let base := u64 (n.firstAddress + offset : Nat)
        let up := u64 (n.firstAddress + offset + length : Nat)
        -- check bounds
        if base < up ∧ up ≤ n.lastAddress then
          devices.driveRead dev base buffer length
        else some (buffer, dev)
    | .charNode => devices.consoleRead dev buffer length

/-- `dev_fs_node::write`: the devices afterwards. -/
def write (dev : σ) (offset : Nat) (buffer : Bytes) (length : Nat) : Option σ :=
  if n.isDirectory then some dev
  else
    match n.nodeType with
    | .pseudoNode => some dev
    | .blockNode =>
        let base := u64 (n.firstAddress + offset : Nat)
        let up := u64 (n.firstAddress + offset + length : Nat)
        -- check bounds
        if base < up ∧ up ≤ n.lastAddress then
          devices.driveWrite dev base buffer length
        else some dev
    | .charNode => devices.consoleWrite dev buffer length

end DevFsNode

end Iposix.Fs
