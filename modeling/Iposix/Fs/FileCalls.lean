import Iposix.Fs.Filehandle
import Iposix.Fs.NodeOperations
import Mathlib.Data.List.AList

/-!
# The file calls of the dispatcher

The calls work on any node, so what the virtual functions of the nodes do is a
parameter; a call that does not come back has no next state. File handles are
objects of their own, known by their numbers here, since a fork makes parent and
child share them; each process has its own map from descriptors to handles. A
map that has no entry for a descriptor answers with a null handle.

Processes are known by the order in which they were created.
-/

namespace Iposix.Fs.FileCalls

open Iposix.Lib

universe u

variable {ω : Type u}

def SEEK_SET : Int := 0
def SEEK_CUR : Int := 1
def SEEK_END : Int := 2

def EBADF : Nat := 9
def ESPIPE : Nat := 29

/-- What becomes of a number returned as a `bool`. -/
def bool (n : Nat) : Bool := n != 0

/-- The virtual functions of the nodes and their `is_tty`; `ω` is what the
devices hold. -/
structure NodeMethods (ω : Type u) where
  isTty : Nat → Bool
  length : ω → Nat → Nat
  read : ω → Nat → (offset : Nat) → (buffer : Nat → UInt8) → (length : Nat) →
    Option (ω × (Nat → UInt8))
  write : ω → Nat → (offset : Nat) → (buffer : Nat → UInt8) → (length : Nat) →
    Option ω
  stat : ω → Nat → Nat → UInt8

/-! ## Handles -/

/-- `filehandle` -/
structure Filehandle where
  node : Option Nat
  flags : UInt8
  mode : UInt8
  fd : Nat
  offset : Int

namespace Filehandle

variable (fh : Filehandle) (methods : NodeMethods ω) (world : ω)

/-- `filehandle::read`: its result, the handle, the devices and the buffer. -/
def read (buffer : Nat → UInt8) (length : Nat) :
    Option (Nat × Filehandle × ω × (Nat → UInt8)) :=
  match fh.node with
  | none => some (0, fh, world, buffer)
  | some node => do
      let (world, buffer) ←
        methods.read world node (u64 fh.offset) buffer length
      let offset := i64 (fh.offset + length)
      some (u32 offset, { fh with offset := offset }, world, buffer)

/-- `filehandle::write` -/
def write (buffer : Nat → UInt8) (length : Nat) :
    Option (Nat × Filehandle × ω) :=
  match fh.node with
  | none => some (0, fh, world)
  | some node => do
      let world ← methods.write world node (u64 fh.offset) buffer length
      let offset := i64 (fh.offset + length)
      some (u32 offset, { fh with offset := offset }, world)

/-- A case of `seek`: the position it is asked for, if the file has it. -/
def seekTo (position length : Int) : Bool × Filehandle :=
  if position < length ∧ position ≥ 0 then
    (bool 0, { fh with offset := position })
  else (bool ESPIPE, fh)

/-- `filehandle::seek`: its result and the handle. -/
def seek (offset direction : Int) : Bool × Filehandle :=
  match fh.node with
  | none => (bool 0, fh)
  | some node =>
      let length := i64 (methods.length world node)
      if methods.isTty node then (bool EBADF, fh)
      else if direction = SEEK_SET then fh.seekTo offset length
      else if direction = SEEK_CUR then
        fh.seekTo (i64 (fh.offset + offset)) length
      else if direction = SEEK_END then
        fh.seekTo (i64 (length + offset)) length
      else (bool 0, fh)

/-- `filehandle::stat`: its result and the buffer. -/
def stat (st : Nat → UInt8) : Bool × (Nat → UInt8) :=
  match fh.node with
  | none => (false, st)
  | some node => (true, methods.stat world node)

end Filehandle

/-! ## Holders -/

/-- `filehandle_holder`, with the numbers of the handles. -/
structure FilehandleHolder where
  filehandles : AList fun _ : Nat => Nat
  fdCounter : Nat

namespace FilehandleHolder

/-- The constructor. -/
def empty : FilehandleHolder where
  filehandles := ∅
  fdCounter := 0

variable (h : FilehandleHolder) (fhs : Nat → Filehandle)

/-- `get_filehandle` -/
def getFilehandle (filedescriptor : Nat) : Option Nat :=
  h.filehandles.lookup filedescriptor

/-- The private `push_filehandle`: under the number the handle itself has. -/
def pushHandle (fh : Nat) : FilehandleHolder :=
  { h with filehandles := h.filehandles.insert (fhs fh).fd fh }

/-- `copy_filehandles` -/
def copyFilehandles (holder : FilehandleHolder) : FilehandleHolder :=
  { holder.filehandles.foldl (fun h _ fh => h.pushHandle fhs fh) h with
    fdCounter := holder.fdCounter }

/-- `remove_filehandle`: the holder and the node. -/
def removeFilehandle (filedescriptor : Nat) : FilehandleHolder × Option Nat :=
  match h.filehandles.lookup filedescriptor with
  | none => (h, none)
  | some fh =>
      ({ h with filehandles := h.filehandles.erase filedescriptor },
        (fhs fh).node)

end FilehandleHolder

/-! ## The dispatcher -/

/-- The filesystem, the devices, the handles and the processes, `count` of
them. -/
structure Kernel (ω : Type u) where
  vfs : Vfs
  world : ω
  filehandles : Nat → Filehandle
  next : Nat
  holders : Nat → FilehandleHolder
  count : Nat

/-- What the dispatcher writes into the message. -/
structure Reply where
  error : ErrorType := .none
  fileDescriptor : Option Nat := none
  buffer : Option (Nat → UInt8) := none

/-- A call with its process. `copied` says whether the address space could be
copied. -/
inductive Call where
  | openCall (process : Nat) (sub : Subnodes) (pathName : Path)
      (flags createMode : UInt8)
  | closeCall (process : Nat) (fileDescriptor : Int)
  | readCall (process : Nat) (fileDescriptor : Int) (buffer : Nat → UInt8)
      (length : Nat)
  | writeCall (process : Nat) (fileDescriptor : Int) (buffer : Nat → UInt8)
      (length : Nat)
  | lseekCall (process : Nat) (fileDescriptor : Int) (offset number : Int)
  | fstatCall (process : Nat) (fileDescriptor : Int) (st : Nat → UInt8)
  | forkCall (process : Nat) (copied : Bool)

def Call.process : Call → Nat
  | .openCall process .. | .closeCall process .. | .readCall process ..
  | .writeCall process .. | .lseekCall process .. | .fstatCall process ..
  | .forkCall process .. => process

namespace Kernel

variable (methods : NodeMethods ω) (s : Kernel ω)

def setHolder (process : Nat) (holder : FilehandleHolder) : Kernel ω :=
  { s with holders := Function.update s.holders process holder }

def setFilehandle (fh : Nat) (filehandle : Filehandle) : Kernel ω :=
  { s with filehandles := Function.update s.filehandles fh filehandle }

/-- `push_filehandle` of a process: a new handle under the next descriptor. -/
def pushFilehandle (process file : Nat) (flags mode : UInt8) :
    Kernel ω × Nat :=
  let holder := s.holders process
  let fh : Filehandle := ⟨some file, flags, mode, holder.fdCounter, 0⟩
  let t := { s.setFilehandle s.next fh with next := s.next + 1 }
  let holder := { holder with fdCounter := u32 (holder.fdCounter + 1) }
  (t.setHolder process (holder.pushHandle t.filehandles s.next), fh.fd)

def openCall (process : Nat) (sub : Subnodes) (pathName : Path)
    (flags createMode : UInt8) : Reply × Kernel ω :=
  match s.vfs.openNode sub pathName with
  | (vfs, some file) =>
      let (s, fileDescriptor) :=
        { s with vfs := vfs }.pushFilehandle process file flags createMode
      ({ fileDescriptor := some fileDescriptor }, s)
  | (vfs, none) => ({ error := .eNoSuchEntry }, { s with vfs := vfs })

def closeCall (process : Nat) (fileDescriptor : Int) : Reply × Kernel ω :=
  let (holder, file) :=
    (s.holders process).removeFilehandle s.filehandles (u32 fileDescriptor)
  let s := s.setHolder process holder
  match file with
  | some file => ({}, { s with vfs := s.vfs.closeNode file })
  | none => ({ error := .eBadFiledescriptor }, s)

def readCall (process : Nat) (fileDescriptor : Int) (buffer : Nat → UInt8)
    (length : Nat) : Option (Reply × Kernel ω) :=
  match (s.holders process).getFilehandle (u32 fileDescriptor) with
  | some fd => do
      let (_, fh, world, buffer) ←
        (s.filehandles fd).read methods s.world buffer length
      some ({ buffer := some buffer },
        { s with world := world }.setFilehandle fd fh)
  | none => some ({ error := .eBadFiledescriptor }, s)

def writeCall (process : Nat) (fileDescriptor : Int) (buffer : Nat → UInt8)
    (length : Nat) : Option (Reply × Kernel ω) :=
  match (s.holders process).getFilehandle (u32 fileDescriptor) with
  | some fd => do
      let (_, fh, world) ←
        (s.filehandles fd).write methods s.world buffer length
      some ({}, { s with world := world }.setFilehandle fd fh)
  | none => some ({ error := .eBadFiledescriptor }, s)

def lseekCall (process : Nat) (fileDescriptor : Int) (offset number : Int) :
    Reply × Kernel ω :=
  match (s.holders process).getFilehandle (u32 fileDescriptor) with
  | some fd =>
      let (success, fh) :=
        (s.filehandles fd).seek methods s.world offset number
      ({ error := if !success then .eIllegalSeek else .none },
        s.setFilehandle fd fh)
  | none => ({ error := .eBadFiledescriptor }, s)

def fstatCall (process : Nat) (fileDescriptor : Int) (st : Nat → UInt8) :
    Reply × Kernel ω :=
  match (s.holders process).getFilehandle (u32 fileDescriptor) with
  | some fd =>
      let (success, st) := (s.filehandles fd).stat methods s.world st
      ({ error := if !success then .eNoSuchEntry else .none
         buffer := some st }, s)
  | none => ({ error := .eBadFiledescriptor }, s)

/-- `fork_process` -/
def forkCall (process : Nat) (copied : Bool) : Reply × Kernel ω :=
  if copied then
    let child :=
      FilehandleHolder.empty.copyFilehandles s.filehandles (s.holders process)
    ({}, { s.setHolder s.count child with count := s.count + 1 })
  else ({ error := .eNoMem }, s)

/-- The file calls of `real_dispatch_syscall`. -/
def dispatchSyscall : Call → Option (Reply × Kernel ω)
  | .openCall process sub pathName flags createMode =>
      some (s.openCall process sub pathName flags createMode)
  | .closeCall process fileDescriptor =>
      some (s.closeCall process fileDescriptor)
  | .readCall process fileDescriptor buffer length =>
      s.readCall methods process fileDescriptor buffer length
  | .writeCall process fileDescriptor buffer length =>
      s.writeCall methods process fileDescriptor buffer length
  | .lseekCall process fileDescriptor offset number =>
      some (s.lseekCall methods process fileDescriptor offset number)
  | .fstatCall process fileDescriptor st =>
      some (s.fstatCall methods process fileDescriptor st)
  | .forkCall process copied => some (s.forkCall process copied)

/-- A call is made by a process that is there. -/
def step (call : Call) : Option (Reply × Kernel ω) :=
  if call.process < s.count then s.dispatchSyscall methods call else none

/-- The user-level `lseek`: its result, the error and the kernel. The offset
comes back from the message as it went in. -/
def userLseek (process : Nat) (file offset seekType : Int) :
    Int × ErrorType × Kernel ω :=
  let (msg, s) := s.lseekCall methods process file offset seekType
  (if msg.error ≠ .none then -1 else offset, msg.error, s)

end Kernel

end Iposix.Fs.FileCalls
