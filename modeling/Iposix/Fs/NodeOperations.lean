import Iposix.Lib.Word
import Mathlib.Logic.Function.Basic

/-!
# The virtual filesystem: opening, closing and mounting

`i_fs` keeps two maps from path names to nodes: the mounted filesystems, by
their root nodes, and the open nodes. A node is an object of its own, known by
its number here; a node that no pointer leads to any more is left in place.

What a directory answers when it is asked for a subnode is the filesystem's
business and may change from call to call, so it is an argument: for a node, the
complete name and the name of the entry whether there is one, and whether it is
a directory. Whatever the filesystem, the new node has the complete name as its
path and no uses. A map that has no entry for a name answers with a null
pointer, and a path without a token with a null pointer too.
-/

namespace Iposix.Fs

open Iposix.Lib

abbrev Path := List Char

/-- `i_fs_node` -/
structure FsNode where
  path : Path
  isDirectory : Bool
  uses : Nat
  deriving Inhabited

/-- The static part of `i_fs`, and the nodes. -/
structure Vfs where
  nodes : Nat → FsNode
  next : Nat
  mountedFilesystems : Path → Option Nat
  openNodes : Path → Option Nat

/-- `i_fs_type_t` -/
inductive FsType where
  | devFs
  | fat12Fs
  | fat16Fs
  | fat32Fs
  deriving DecidableEq

/-- What `open_subnode` of a node answers for a full name and a name. -/
abbrev Subnodes := Nat → Path → Path → Option Bool

/-! ## `clean_path` -/

/-- The local variables of `clean_path`. -/
structure CleanPath where
  tokens : List Path
  token : Path
  deletableTokens : Nat
  firstToken : Bool

namespace CleanPath

/-- `case '/'` -/
def slash (c : CleanPath) : CleanPath :=
  let token :=
    if c.firstToken && c.token.isEmpty then c.token ++ ['/'] else c.token
  if !token.isEmpty && (c.firstToken || token != ['.']) then
    { tokens := c.tokens ++ [token]
      token := []
      deletableTokens :=
        if token != ['/'] then c.deletableTokens + 1 else c.deletableTokens
      firstToken := false }
  else { c with token := [] }

/-- `case '.'` -/
def dot (c : CleanPath) : CleanPath :=
  let token := c.token ++ ['.']
  if token = ['.', '.'] then
    if c.deletableTokens > 0 then
      { c with
        tokens := c.tokens.dropLast
        deletableTokens := c.deletableTokens - 1
        token := [] }
    else
      { c with
        tokens := c.tokens ++ [token]
        firstToken := false
        token := [] }
  else { c with token := token }

def step (c : CleanPath) (letter : Char) : CleanPath :=
  if letter = '/' then c.slash
  else if letter = '.' then c.dot
  else { c with token := c.token ++ [letter] }

end CleanPath

/-- `clean_path` -/
def cleanPath (path : Path) : List Path :=
  let c := path.foldl CleanPath.step ⟨[], [], 0, true⟩
  if c.token.isEmpty then c.tokens else c.tokens ++ [c.token]

/-! ## Nodes -/

namespace Vfs

/-- `i_fs_init`, with no node so far. -/
def init : Vfs where
  nodes := fun _ => default
  next := 0
  mountedFilesystems := fun _ => none
  openNodes := fun _ => none

variable (s : Vfs)

/-- The constructor of `i_fs_node`. -/
def newNode (path : Path) (isDirectory : Bool) : Vfs × Nat :=
  ({ s with
      nodes := Function.update s.nodes s.next ⟨path, isDirectory, 0⟩
      next := s.next + 1 },
    s.next)

def setUses (node uses : Nat) : Vfs :=
  { s with
    nodes := Function.update s.nodes node { s.nodes node with uses := uses } }

/-- `i_fs::open` -/
def «open» (node : Nat) : Vfs :=
  let path := (s.nodes node).path
  if path.isEmpty then s
  else
    { s.setUses node (u32 ((s.nodes node).uses + 1)) with
      openNodes := Function.update s.openNodes path (some node) }

/-- `close_node` -/
def closeNode (node : Nat) : Vfs :=
  let path := (s.nodes node).path
  if (s.nodes node).uses ≤ 1 then
    match s.openNodes path with
    | some _ => { s with openNodes := Function.update s.openNodes path none }
    | none => s
  else s.setUses node ((s.nodes node).uses - 1)

/-- `open_subnode` -/
def openSubnode (sub : Subnodes) (node : Nat) (fullname subname : Path) :
    Vfs × Option Nat :=
  match s.openNodes fullname with
  | some ret => (s, some ret)
  | none =>
      match s.mountedFilesystems fullname with
      | some ret => (s, some ret)
      | none =>
          if subname.isEmpty then (s, some node)
          else if (s.nodes node).isDirectory then
            match sub node fullname subname with
            | none => (s, none)
            | some isDirectory =>
                let (s, ret) := s.newNode fullname isDirectory
                (s, some ret)
          else (s, none)

/-- The loop of `open_node` over the tokens. -/
def walk (sub : Subnodes) :
    Vfs → (base : Option Nat) → (fullname : Path) → (separator : Bool) →
      List Path → Vfs × Option Nat
  | s, base, _, _, [] => (s, base)
  | s, none, _, _, _ :: _ => (s, none)
  | s, some base, fullname, separator, token :: tokens =>
      let fullname :=
        (if separator then fullname ++ ['/'] else fullname) ++ token
      let (s, base) := s.openSubnode sub base fullname token
      walk sub s base fullname true tokens

/-- `open_node` up to the call of `open`. -/
def resolve (sub : Subnodes) (name : Path) : Vfs × Option Nat :=
  match cleanPath name with
  | [] => (s, none)
  | first :: tokens =>
      if first = ['/'] then
        match s.mountedFilesystems ['/'] with
        | none => (s, none)
        | some base => walk sub s (some base) ['/'] false tokens
      else (s, none)

/-- `open_node` -/
def openNode (sub : Subnodes) (name : Path) : Vfs × Option Nat :=
  match s.resolve sub name with
  | (s, none) => (s, none)
  | (s, some base) => (s.open base, some base)

/-! ## Mounting -/

/-- `mount` on a container: the root node of the new filesystem. -/
def mountRoot (mountpoint : Path) : Vfs :=
  let (s, root) := s.newNode mountpoint true
  { s with
    mountedFilesystems :=
      Function.update s.mountedFilesystems mountpoint (some root) }

/-- `mount` by name: the container it opened is kept by the filesystem. -/
def mount (sub : Subnodes) (type : FsType) (mountpoint nodename : Path) :
    Vfs × Option Nat :=
  let (s, node) :=
    if nodename.isEmpty then (s, none) else s.openNode sub nodename
  if node.isSome || type = .devFs then (s.mountRoot mountpoint, node)
  else (s, node)

/-- `mount_root_dummy` -/
def mountRootDummy : Vfs :=
  match s.mountedFilesystems ['/'] with
  | some _ => s
  | none => s.mountRoot ['/']

def umount (mountpoint : Path) : Vfs :=
  { s with
    mountedFilesystems :=
      Function.update s.mountedFilesystems mountpoint none }

end Vfs

end Iposix.Fs
