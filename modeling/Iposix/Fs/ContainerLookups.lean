import Iposix.Fs.Container
import Iposix.Fs.Namespace

/-!
# Lookups over a container

An open reads the directories it passes from the container, and each read
changes the state of what is behind it. Here `open_node` carries this state from
name to name, and so do the functions of a FAT volume that it comes to. A call
that does not return is none.
-/

namespace Iposix.Fs

open Iposix.Lib

open Iposix.Devices (Bytes)

universe u v

/-! ## Directories of a FAT filesystem -/

namespace FatFsNode

variable {σ : Type u} (container : Container σ) (node : FatFsNode)

/-- `read_pure`: the buffer and the container afterwards. -/
def readPureOn (dev : σ) (offset : Nat) (buffer : Bytes) (length : Nat) :
    Option (Bytes × σ) :=
  (node.fs.clusterIoOn container (length + 1) .clusterRead node.cluster offset
    dev buffer length).map Prod.swap

/-- The loop of `entry_by_name` over the clusters. -/
def searchClustersOn (name : List UInt8) : (turns offset : Nat) →
    (entrys : Bytes) → σ → Option (Option FatDirectoryEntry × σ)
  | 0, _, _, dev => some (none, dev)
  | turns + 1, offset, entrys, dev =>
      let clustersize := node.fs.clusterSize
      match node.readPureOn container dev offset entrys clustersize with
      | none => none
      | some (entrys, dev) =>
          match scanEntrys name entrys (clustersize / DIRECTORY_ENTRY_SIZE) 0 with
          | .found entry => some (some entry, dev)
          | .abort => some (none, dev)
          | .exhausted =>
              searchClustersOn name turns (u64 (offset + clustersize : Nat))
                entrys dev

/-- `entry_by_name` -/
def entryByNameOn (dev : σ) (name : List UInt8) (fuel : Nat) :
    Option (Option FatDirectoryEntry × σ) :=
  if !node.isDirectory then some (none, dev)
  else
    match node.fs.clustertable.chainLength fuel node.cluster with
    | none => none
    | some clusters =>
        node.searchClustersOn container name clusters 0 (fun _ => 0) dev

end FatFsNode

/-- `fat_fs_node::open_subnode` -/
def FatVolume.openSubnodeOn {σ : Type u} (fs : FatVolume)
    (container : Container σ) (dev : σ) (node : FatFsNode)
    (subname : List UInt8) (fuel : Nat) : Option (Option FatFsNode × σ) :=
  if !node.isDirectory then some (none, dev)
  else
    match node.entryByNameOn container dev subname fuel with
    | none => none
    | some (none, dev) => some (none, dev)
    | some (some entry, dev) =>
        some (some
          { node with
            isDirectory := entry.directory
            cluster := fs.normCluster (entry.cluster fs.clustertable.type)
            size := entry.size }, dev)

/-! ## Names -/

/-- `Directories` of filesystems that lie on devices. -/
structure DirectoriesOn (σ : Type u) (α : Type v) where
  isDirectory : α → Bool
  openSubnode : σ → α → (subname : Path) → Option (Option α × σ)

/-- The nodes of one FAT volume. -/
def FatVolume.directoriesOn {σ : Type u} (fs : FatVolume)
    (container : Container σ) (fuel : Nat) : DirectoriesOn σ FatFsNode where
  isDirectory := FatFsNode.isDirectory
  openSubnode := fun dev node subname =>
    fs.openSubnodeOn container dev node (nameBytes subname) fuel

namespace Namespace

variable {σ : Type u} {α : Type v} (dirs : DirectoriesOn σ α)

/-- `i_fs::open_subnode` -/
def openSubnodeOn (s : Namespace α) (dev : σ) (node : Nat)
    (fullname subname : Path) : Option (Namespace α × Option Nat × σ) :=
  match s.vfs.openNodes fullname with
  | some ret => some (s, some ret, dev)
  | none =>
      match s.vfs.mountedFilesystems fullname with
      | some ret => some (s, some ret, dev)
      | none =>
          if subname.isEmpty then some (s, some node, dev)
          else if (s.vfs.nodes node).isDirectory then
            match dirs.openSubnode dev (s.content node) subname with
            | none => none
            | some (none, dev) => some (s, none, dev)
            | some (some data, dev) =>
                let (vfs, ret) := s.vfs.newNode fullname (dirs.isDirectory data)
                some (⟨vfs, Function.update s.content ret data⟩, some ret, dev)
          else some (s, none, dev)

/-- The loop of `open_node` over the tokens. -/
def walkOn : Namespace α → σ → (base : Option Nat) → (fullname : Path) →
    (separator : Bool) → List Path → Option (Namespace α × Option Nat × σ)
  | s, dev, base, _, _, [] => some (s, base, dev)
  | s, dev, none, _, _, _ :: _ => some (s, none, dev)
  | s, dev, some base, fullname, separator, token :: tokens =>
      let fullname :=
        (if separator then fullname ++ ['/'] else fullname) ++ token
      match s.openSubnodeOn dirs dev base fullname token with
      | none => none
      | some (s, base, dev) => walkOn s dev base fullname true tokens

/-- `open_node` -/
def openNodeOn (s : Namespace α) (dev : σ) (name : Path) :
    Option (Namespace α × Option Nat × σ) :=
  match cleanPath name with
  | [] => some (s, none, dev)
  | first :: tokens =>
      if first = ['/'] then
        match s.vfs.mountedFilesystems ['/'] with
        | none => some (s, none, dev)
        | some base =>
            match walkOn dirs s dev (some base) ['/'] false tokens with
            | none => none
            | some (s, none, dev) => some (s, none, dev)
            | some (s, some base, dev) =>
                some ({ s with vfs := s.vfs.open base }, some base, dev)
      else some (s, none, dev)

/-- `step`, with the devices. -/
def stepOn (o : Namespace α × σ) : Use α → Option (Namespace α × σ)
  | .open name =>
      (o.1.openNodeOn dirs o.2 name).map fun (s, _, dev) => (s, dev)
  | .close node => some (o.1.closeNode node, o.2)
  | .mount mountpoint root => some (o.1.mountRoot mountpoint root, o.2)
  | .umount mountpoint => some (o.1.umount mountpoint, o.2)

end Namespace

end Iposix.Fs
