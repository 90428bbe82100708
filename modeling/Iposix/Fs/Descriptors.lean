import Iposix.Fs.NodeOperations

/-!
# Open files of processes

A process holds file handles under descriptor numbers. A handle is the node it
refers to here; its position is left out. `open` and `close` go through the
virtual filesystem, `fork` gives the child the handles of its parent.

Processes are known by the order in which they were created.
-/

namespace Iposix.Fs

open Iposix.Lib

/-- `filehandle_holder` -/
structure FilehandleHolder where
  filehandles : Nat → Option Nat
  fdCounter : Nat

namespace FilehandleHolder

def empty : FilehandleHolder where
  filehandles := fun _ => none
  fdCounter := 0

variable (h : FilehandleHolder)

/-- `push_filehandle`: the holder and the descriptor. -/
def pushFilehandle (file : Nat) : FilehandleHolder × Nat :=
  ({ filehandles := Function.update h.filehandles h.fdCounter (some file)
     fdCounter := u32 (h.fdCounter + 1) },
    h.fdCounter)

/-- `copy_filehandles`: the handles are copied, not their nodes' uses. -/
def copyFilehandles (holder : FilehandleHolder) : FilehandleHolder where
  filehandles := fun fd => (holder.filehandles fd).or (h.filehandles fd)
  fdCounter := holder.fdCounter

/-- `remove_filehandle`: the holder and the node. -/
def removeFilehandle (filedescriptor : Nat) :
    FilehandleHolder × Option Nat :=
  match h.filehandles filedescriptor with
  | some node =>
      ({ h with
          filehandles := Function.update h.filehandles filedescriptor none },
        some node)
  | none => (h, none)

end FilehandleHolder

/-- The filesystem and the processes, `count` of them. -/
structure Processes where
  vfs : Vfs
  holders : Nat → FilehandleHolder
  count : Nat

/-- The system calls of a process; `copied` says whether its address space
could be copied. -/
inductive Syscall where
  | openCall (process : Nat) (sub : Subnodes) (pathName : Path)
  | closeCall (process : Nat) (fileDescriptor : Int)
  | forkCall (process : Nat) (copied : Bool)

namespace Processes

variable (s : Processes)

def setHolder (process : Nat) (holder : FilehandleHolder) : Processes :=
  { s with holders := Function.update s.holders process holder }

/-- The `open_call` of the dispatcher. -/
def openCall (process : Nat) (sub : Subnodes) (pathName : Path) : Processes :=
  match s.vfs.openNode sub pathName with
  | (vfs, none) => { s with vfs := vfs }
  | (vfs, some file) =>
      { s with vfs := vfs }.setHolder process
        ((s.holders process).pushFilehandle file).1

/-- The `close_call` of the dispatcher. -/
def closeCall (process : Nat) (fileDescriptor : Int) : Processes :=
  match (s.holders process).removeFilehandle (u32 fileDescriptor) with
  | (_, none) => s
  | (holder, some file) =>
      { s with vfs := s.vfs.closeNode file }.setHolder process holder

/-- `fork_process` -/
def forkCall (process : Nat) (copied : Bool) : Processes :=
  if copied then
    { s with
      holders := Function.update s.holders s.count
        (FilehandleHolder.empty.copyFilehandles (s.holders process))
      count := s.count + 1 }
  else s

/-- A call is made by a process that is there. -/
def step : Syscall → Option Processes
  | .openCall process sub pathName =>
      if process < s.count then some (s.openCall process sub pathName) else none
  | .closeCall process fileDescriptor =>
      if process < s.count then some (s.closeCall process fileDescriptor)
      else none
  | .forkCall process copied =>
      if process < s.count then some (s.forkCall process copied) else none

end Processes

end Iposix.Fs
