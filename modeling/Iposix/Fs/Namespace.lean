import Iposix.Fs.Lookups
import Iposix.Fs.FatFsNode

/-!
# Nodes and what they contain

A node has data of its own behind the fields that all nodes have: an entry of a
directory, a part of a drive. `Namespace` keeps it beside the maps of `i_fs`, and
a directory answers from it when it is asked for a subnode. What a filesystem
does is a parameter; a lookup that does not come back is none.
-/

namespace Iposix.Fs

universe u

/-- The data of the nodes, `is_directory` of a new node, and the virtual
`open_subnode`: the data of the node it makes. -/
structure Directories (α : Type u) where
  isDirectory : α → Bool
  openSubnode : α → (subname : Path) → Option (Option α)

structure Namespace (α : Type u) where
  vfs : Vfs
  content : Nat → α

namespace Namespace

variable {α : Type u} (dirs : Directories α) (s : Namespace α)

/-- A constructor of a node. -/
def newNode (path : Path) (data : α) : Namespace α × Nat :=
  let (vfs, node) := s.vfs.newNode path (dirs.isDirectory data)
  (⟨vfs, Function.update s.content node data⟩, node)

/-- `i_fs::open_subnode` -/
def openSubnode (node : Nat) (fullname subname : Path) :
    Option (Namespace α × Option Nat) :=
  match s.vfs.openNodes fullname with
  | some ret => some (s, some ret)
  | none =>
      match s.vfs.mountedFilesystems fullname with
      | some ret => some (s, some ret)
      | none =>
          if subname.isEmpty then some (s, some node)
          else if (s.vfs.nodes node).isDirectory then
            match dirs.openSubnode (s.content node) subname with
            | none => none
            | some none => some (s, none)
            | some (some data) =>
                let (s, ret) := s.newNode dirs fullname data
                some (s, some ret)
          else some (s, none)

/-- The loop of `open_node` over the tokens. -/
def walk : Namespace α → (base : Option Nat) → (fullname : Path) →
    (separator : Bool) → List Path → Option (Namespace α × Option Nat)
  | s, base, _, _, [] => some (s, base)
  | s, none, _, _, _ :: _ => some (s, none)
  | s, some base, fullname, separator, token :: tokens =>
      let fullname :=
        (if separator then fullname ++ ['/'] else fullname) ++ token
      match s.openSubnode dirs base fullname token with
      | none => none
      | some (s, base) => walk s base fullname true tokens

/-- `open_node` -/
def openNode (name : Path) : Option (Namespace α × Option Nat) :=
  match cleanPath name with
  | [] => some (s, none)
  | first :: tokens =>
      if first = ['/'] then
        match s.vfs.mountedFilesystems ['/'] with
        | none => some (s, none)
        | some base =>
            match walk dirs s (some base) ['/'] false tokens with
            | none => none
            | some (s, none) => some (s, none)
            | some (s, some base) =>
                some ({ s with vfs := s.vfs.open base }, some base)
      else some (s, none)

def closeNode (node : Nat) : Namespace α :=
  { s with vfs := s.vfs.closeNode node }

/-- `mount` on a container: the root node of the new filesystem. -/
def mountRoot (mountpoint : Path) (root : α) : Namespace α :=
  { vfs := s.vfs.mountRoot mountpoint
    content := Function.update s.content s.vfs.next root }

def umount (mountpoint : Path) : Namespace α :=
  { s with vfs := s.vfs.umount mountpoint }

/-- `i_fs_init`; `content` is the data of nodes that do not exist. -/
def init (content : Nat → α) : Namespace α := ⟨.init, content⟩

inductive Use (α : Type u) where
  | open (name : Path)
  | close (node : Nat)
  | mount (mountpoint : Path) (root : α)
  | umount (mountpoint : Path)

def step : Use α → Option (Namespace α)
  | .open name => (s.openNode dirs name).map Prod.fst
  | .close node => some (s.closeNode node)
  | .mount mountpoint root => some (s.mountRoot mountpoint root)
  | .umount mountpoint => some (s.umount mountpoint)

end Namespace

/-! ## FAT filesystems -/

/-- The bytes of a name. -/
def nameBytes (name : Path) : List UInt8 := name.map fun c => c.toNat.toUInt8

/-- The nodes of one FAT volume. -/
def FatVolume.directories (fs : FatVolume) (container : Nat → UInt8)
    (fuel : Nat) : Directories FatFsNode where
  isDirectory := FatFsNode.isDirectory
  openSubnode := fun node subname =>
    fs.openSubnode node container (nameBytes subname) fuel

end Iposix.Fs
