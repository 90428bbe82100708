import Iposix.Fs.FileCalls
import Iposix.Lib.Checked

/-!
# Lookups that look

`find( key )->second` reads what no entry holds if the key is not there, and
`tokens[0]` if there are no tokens. Here the functions of the filesystem layer
stop in such a place, and where they use a null node. Otherwise they are those
of the virtual filesystem and of the dispatcher, which take an absent key for a
null pointer.

A map holds no null pointers; the branches for a null entry are kept. A node of
the device filesystem has a map of its subnodes; what the directories of other
filesystems answer is an argument. A call of a device that does not come back
is no fault.
-/

namespace Iposix.Fs.Lookups

open Iposix.Lib
open Iposix.Fs.FileCalls

inductive Fault where
  | endIterator
  | noToken
  | nullNode
  deriving DecidableEq

abbrev Run := Checked Fault

/-- `find( key )->second` -/
def second {κ : Type} (find : κ → Option Nat) (key : κ) : Run (Option Nat) :=
  match find key with
  | some entry => .ok (some entry)
  | none => .error (.fault .endIterator)

/-- `node->`, of a pointer. -/
def deref (node : Option Nat) : Run Nat :=
  match node with
  | some node => .ok node
  | none => .error (.fault .nullNode)

/-- The kernel, with the maps of the device nodes; `devRoot` is the node of the
device filesystem itself. -/
structure System (ω : Type) where
  kernel : Kernel ω
  subnodes : Nat → Option (Path → Option Nat)
  devRoot : Nat

variable {ω : Type}

namespace System

variable (methods : NodeMethods ω) (s : System ω)

def vfs : Vfs := s.kernel.vfs

def setVfs (vfs : Vfs) : System ω :=
  { s with kernel := { s.kernel with vfs := vfs } }

/-- The constructors of the nodes. -/
def newNode (path : Path) (isDirectory : Bool)
    (subnodes : Option (Path → Option Nat)) : System ω × Nat :=
  let (vfs, node) := s.vfs.newNode path isDirectory
  ({ s.setVfs vfs with
      subnodes := Function.update s.subnodes node subnodes },
    node)

/-! ## The device filesystem -/

/-- `dev_fs_node::add_subnode` -/
def addSubnode (node : Nat) (subnode : Option Nat) : System ω :=
  if (s.vfs.nodes node).isDirectory then
    match subnode, s.subnodes node with
    | some subnode, some subnodes =>
        { s with
          subnodes := Function.update s.subnodes node
            (some (Function.update subnodes (s.vfs.nodes subnode).path
              (some subnode))) }
    | _, _ => s
  else s

/-- `dev_fs_node::open_subnode`, on a node with these subnodes. -/
def devOpenSubnode (node : Nat) (subnodes : Path → Option Nat)
    (fullname subname : Path) : Run (System ω × Option Nat) :=
  if (s.vfs.nodes node).isDirectory then do
    match ← second subnodes subname with
    | some toCopy =>
        let (s, ret) := s.newNode fullname (s.vfs.nodes toCopy).isDirectory
          (s.subnodes toCopy)
        return (s, some ret)
    | none => return (s, none)
  else return (s, none)

/-- The virtual `open_subnode`. -/
def nodeOpenSubnode (sub : Subnodes) (node : Nat) (fullname subname : Path) :
    Run (System ω × Option Nat) :=
  match s.subnodes node with
  | some subnodes => s.devOpenSubnode node subnodes fullname subname
  | none =>
      match sub node fullname subname with
      | none => return (s, none)
      | some isDirectory =>
          let (s, ret) := s.newNode fullname isDirectory none
          return (s, some ret)

/-! ## `i_fs` -/

/-- `close_node`. The path is logged before the pointer is looked at. -/
def closeNode (node : Option Nat) : Run (System ω) := do
  let node ← deref node
  let path := (s.vfs.nodes node).path
  if (s.vfs.nodes node).uses ≤ 1 then
    match ← second s.vfs.openNodes path with
    | some _ =>
        return s.setVfs { s.vfs with
          openNodes := Function.update s.vfs.openNodes path none }
    | none => return s
  else return s.setVfs (s.vfs.setUses node ((s.vfs.nodes node).uses - 1))

/-- `open_subnode` -/
def openSubnode (sub : Subnodes) (node : Option Nat)
    (fullname subname : Path) : Run (System ω × Option Nat) := do
  match ← second s.vfs.openNodes fullname with
  | some ret => return (s, some ret)
  | none =>
      match ← second s.vfs.mountedFilesystems fullname with
      | some ret => return (s, some ret)
      | none =>
          if subname.isEmpty then return (s, node)
          else
            match node with
            | some node =>
                if (s.vfs.nodes node).isDirectory then
                  s.nodeOpenSubnode sub node fullname subname
                else return (s, none)
            | none => return (s, none)

/-- The loop of `open_node` over the tokens. -/
def walk (sub : Subnodes) :
    System ω → (base : Option Nat) → (fullname : Path) → (separator : Bool) →
      List Path → Run (System ω × Option Nat)
  | s, base, _, _, [] => return (s, base)
  | s, none, _, _, _ :: _ => return (s, none)
  | s, some base, fullname, separator, token :: tokens => do
      let fullname :=
        (if separator then fullname ++ ['/'] else fullname) ++ token
      let (s, base) ← s.openSubnode sub (some base) fullname token
      walk sub s base fullname true tokens

/-- `open_node` -/
def openNode (sub : Subnodes) (name : Path) : Run (System ω × Option Nat) :=
  match cleanPath name with
  | [] => .error (.fault .noToken)
  | first :: tokens =>
      if first = ['/'] then do
        match ← second s.vfs.mountedFilesystems ['/'] with
        | none => return (s, none)
        | some base =>
            match ← walk sub s (some base) ['/'] false tokens with
            | (s, none) => return (s, none)
            | (s, some base) => return (s.setVfs (s.vfs.open base), some base)
      else return (s, none)

/-- `mount` on a container. -/
def mountRoot (type : FsType) (mountpoint : Path) : System ω :=
  let (s, root) := s.newNode mountpoint true
    (if type = .devFs then s.subnodes s.devRoot else none)
  s.setVfs { s.vfs with
    mountedFilesystems :=
      Function.update s.vfs.mountedFilesystems mountpoint (some root) }

/-- `mount` by name -/
def mount (sub : Subnodes) (type : FsType) (mountpoint nodename : Path) :
    Run (System ω) := do
  let (s, node) ←
    if nodename.isEmpty then pure (s, none) else s.openNode sub nodename
  if node.isSome || type = .devFs then return s.mountRoot type mountpoint
  else return s

/-- `mount_root_dummy` -/
def mountRootDummy : Run (System ω) := do
  match ← second s.vfs.mountedFilesystems ['/'] with
  | some _ => return s
  | none =>
      let (s, root) := s.newNode ['/'] true none
      return s.setVfs { s.vfs with
        mountedFilesystems :=
          Function.update s.vfs.mountedFilesystems ['/'] (some root) }

def umount (mountpoint : Path) : System ω :=
  s.setVfs { s.vfs with
    mountedFilesystems :=
      Function.update s.vfs.mountedFilesystems mountpoint none }

/-! ## Descriptors -/

/-- `get_filehandle` -/
def getFilehandle (process filedescriptor : Nat) : Run (Option Nat) :=
  second (s.kernel.holders process).getFilehandle filedescriptor

/-- `remove_filehandle` -/
def removeFilehandle (process filedescriptor : Nat) :
    Run (System ω × Option Nat) := do
  let _ ← second (s.kernel.holders process).getFilehandle filedescriptor
  let (holder, file) :=
    (s.kernel.holders process).removeFilehandle s.kernel.filehandles
      filedescriptor
  return ({ s with kernel := s.kernel.setHolder process holder }, file)

/-- A file call: what it looks up first, and what is left to do. -/
def fileCall (call : Call) : Run (System ω) :=
  match call with
  | .openCall process sub pathName flags createMode => do
      match ← s.openNode sub pathName with
      | (s, some file) =>
          return { s with
            kernel :=
              (s.kernel.pushFilehandle process file flags createMode).1 }
      | (s, none) => return s
  | .closeCall process fileDescriptor => do
      match ← s.removeFilehandle process (u32 fileDescriptor) with
      | (s, some file) => s.closeNode (some file)
      | (s, none) => return s
  | .readCall process fileDescriptor .. | .writeCall process fileDescriptor ..
  | .lseekCall process fileDescriptor .. | .fstatCall process fileDescriptor .. =>
      do
        let _ ← s.getFilehandle process (u32 fileDescriptor)
        match s.kernel.dispatchSyscall methods call with
        | some (_, kernel) => return { s with kernel := kernel }
        | none => .error .outOfFuel
  | .forkCall process copied =>
      return { s with kernel := (s.kernel.forkCall process copied).2 }

end System

/-! ## Runs -/

/-- What the kernel does with its filesystem layer. -/
inductive Request where
  | fileCall (call : Call)
  | openNode (sub : Subnodes) (name : Path)
  | closeNode (node : Option Nat)
  | openSubnode (sub : Subnodes) (node : Option Nat) (fullname subname : Path)
  | mount (sub : Subnodes) (type : FsType) (mountpoint nodename : Path)
  | mountRootDummy
  | umount (mountpoint : Path)
  | newDevNode (path : Path) (isDirectory : Bool)
  | addSubnode (node : Nat) (subnode : Option Nat)
  | devOpenSubnode (node : Nat) (fullname subname : Path)

namespace System

def step (methods : NodeMethods ω) (s : System ω) : Request → Run (System ω)
  | .fileCall call => s.fileCall methods call
  | .openNode sub name => do return (← s.openNode sub name).1
  | .closeNode node => s.closeNode node
  | .openSubnode sub node fullname subname =>
      do return (← s.openSubnode sub node fullname subname).1
  | .mount sub type mountpoint nodename =>
      s.mount sub type mountpoint nodename
  | .mountRootDummy => s.mountRootDummy
  | .umount mountpoint => return s.umount mountpoint
  | .newDevNode path isDirectory =>
      return (s.newNode path isDirectory (some fun _ => none)).1
  | .addSubnode node subnode => return s.addSubnode node subnode
  | .devOpenSubnode node fullname subname =>
      match s.subnodes node with
      | some subnodes =>
          do return (← s.devOpenSubnode node subnodes fullname subname).1
      | none => return s

/-- `i_fs_init`, no process has a file open, and the device filesystem has its
root node. -/
def boot (world : ω) (filehandles : Nat → FileCalls.Filehandle) (count : Nat) :
    System ω where
  kernel :=
    ⟨(Vfs.init.newNode "dev_root".toList true).1, world, filehandles, 0,
      fun _ => .empty, count⟩
  subnodes := Function.update (fun _ => none) 0 (some fun _ => none)
  devRoot := 0

end System

end Iposix.Fs.Lookups
