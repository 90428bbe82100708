import Iposix.Vm.ProgramBreak

/-!
# The ELF loader

`load_elf` gives the current process the address space a file describes: it
frees what the process has, gives every program header the memory it asks for,
copies the contents of the loadable ones, and enters the program if nothing has
failed. It goes on after a failure; only the result remembers it.

A file is what reading it leaves in a buffer. The loader does not clear its
buffers before it reads into them, so what they held is a parameter, and so is
what `new` delivers. Where `new` throws, the kernel dies. Counting the uses of
the node is not part of this, and neither are alignment and access rights,
which are only logged.
-/

namespace Iposix.Elf

open Iposix.Lib
open Iposix.Vm

def PT_NULL : Nat := 0

def PT_LOAD : Nat := 1

def ELFMAG : List UInt8 := [0x7f, 0x45, 0x4c, 0x46]

def INITIAL_ELF_STACKSIZE : Nat := 4096

def INITIAL_STACK_BASE : Nat := u32 (0 - INITIAL_ELF_STACKSIZE)

def INITIAL_STACK_POINTER : Nat := u32 (0 - 4)

/-- `i_fs_node::read`: the buffer afterwards. -/
abbrev FileRead := (offset length : Nat) → (Nat → UInt8) → Nat → UInt8

/-- What the memory of the loader's own variables held, and what
`new uint8_t[size]` delivers for a header, nothing if it throws. -/
structure Scratch where
  elfHeader : Nat → UInt8
  pHdr : Nat → Nat → UInt8
  new : (header size : Nat) → Option (Nat → UInt8)

/-! ## Headers -/

/-- `Elf32_Ehdr`, what the loader uses of it. -/
structure Elf32Ehdr where
  eIdent : Nat → UInt8
  eEntry : Nat
  ePhoff : Nat
  ePhnum : Nat

def Elf32Ehdr.ofBytes (bytes : Nat → UInt8) : Elf32Ehdr where
  eIdent := bytes
  eEntry := load 4 bytes 24
  ePhoff := load 4 bytes 28
  ePhnum := load 2 bytes 44

/-- The comparison with `ELFMAG`. -/
def Elf32Ehdr.isElf (elfHeader : Elf32Ehdr) : Bool :=
  (List.range 4).all fun i => elfHeader.eIdent i == ELFMAG.getD i 0

/-- `Elf32_Phdr`, what the loader uses of it. -/
structure Elf32Phdr where
  pType : Nat
  pOffset : Nat
  pVaddr : Nat
  pFilesz : Nat
  pMemsz : Nat
  deriving DecidableEq

def Elf32Phdr.ofBytes (bytes : Nat → UInt8) : Elf32Phdr where
  pType := load 4 bytes 0
  pOffset := load 4 bytes 4
  pVaddr := load 4 bytes 8
  pFilesz := load 4 bytes 16
  pMemsz := load 4 bytes 20

/-- The header of the file, in the loader's variable. -/
def elfHeader (scratch : Scratch) (file : FileRead) : Elf32Ehdr :=
  .ofBytes (file 0 52 scratch.elfHeader)

/-! ## Areas -/

/-- `allocate_area` -/
def allocateArea (mm : PageManager) (process : ProcessType) (M : Machine)
    (vaddr size : Nat) : Bool × ProcessType × Machine :=
  let areaEnd := u64 (vaddr + size : Nat)
  let process :=
    if process.heapTop < areaEnd then { process with heapTop := u32 areaEnd }
    else process
  let (ret, M) := vmalloc mm M (u32 size) process.ptable vaddr
  (vaddr == ret, process, M)

/-- `allocate_stack` -/
def allocateStack (mm : PageManager) (process : ProcessType) (M : Machine) :
    Bool × Machine :=
  let (ret, M) :=
    vmalloc mm M INITIAL_ELF_STACKSIZE process.ptable INITIAL_STACK_BASE
  (ret == INITIAL_STACK_BASE, M)

/-- `copy_to_area` for the header with this number. What `copy_in` answers is
not looked at. -/
def copyToArea (scratch : Scratch) (process : ProcessType) (M : Machine)
    (file : FileRead) (header fileOffset vaddr size : Nat) : Option Machine :=
  (scratch.new header size).map fun buffer =>
    (copyIn M process.ptable vaddr (some (file fileOffset size buffer)) size
      false).2.1

/-! ## The loader -/

/-- The loop over the program headers: whether all went well, nothing if `new`
has thrown. -/
def loadSegments (mm : PageManager) (scratch : Scratch) (file : FileRead) :
    (turns i offset : Nat) → (success : Bool) → ProcessType → Machine →
      Option Bool × ProcessType × Machine
  | 0, _, _, success, process, M => (some success, process, M)
  | turns + 1, i, offset, success, process, M =>
      let pHdr := Elf32Phdr.ofBytes (file offset 32 (scratch.pHdr i))
      let (allocated, process, M) :=
        allocateArea mm process M pHdr.pVaddr pHdr.pMemsz
      let success := success && allocated
      if pHdr.pType = PT_NULL then
        loadSegments mm scratch file turns (i + 1) (offset + 32) success
          process M
      else if pHdr.pType = PT_LOAD then
        match copyToArea scratch process M file i pHdr.pOffset pHdr.pVaddr
          pHdr.pFilesz with
        | none => (none, process, M)
        | some M =>
            loadSegments mm scratch file turns (i + 1) (offset + 32) success
              process M
      else
        loadSegments mm scratch file turns (i + 1) (offset + 32) false process
          M

/-- How `load_elf` ends: the kernel dies, it returns false, or it goes to
`jump_in`. -/
inductive Outcome where
  | died
  | failed
  | jumpIn (stackPointer entryPoint : Nat)
  deriving DecidableEq

/-- `load_elf` -/
def loadElf (mm : PageManager) (scratch : Scratch)
    (curProcess : Option ProcessType) (file : Option FileRead) (M : Machine) :
    Outcome × Option ProcessType × Machine :=
  match curProcess, file with
  | none, _ => (.failed, none, M)
  | some process, none => (.failed, some process, M)
  | some process, some file =>
      let elfHeader := elfHeader scratch file
      if !elfHeader.isElf then (.failed, some process, M)
      else
        let (_, M) :=
          resetAddressSpace mm M (some process.ptable) process.ptable
        let process := { process with heapTop := 0 }
        match loadSegments mm scratch file elfHeader.ePhnum 0 elfHeader.ePhoff
          true process M with
        | (none, process, M) => (.died, some process, M)
        | (some false, process, M) => (.failed, some process, M)
        | (some true, process, M) =>
            let (success, M) := allocateStack mm process M
            if !success then (.failed, some process, M)
            else
              (.jumpIn INITIAL_STACK_POINTER elfHeader.eEntry, some process, M)

end Iposix.Elf
