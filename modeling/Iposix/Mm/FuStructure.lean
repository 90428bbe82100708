import Iposix.Lib.LittleEndian

/-!
# Free/used structures

`fu_structure`, the header the kernel heap keeps in front of each block, in
the memory it describes. A pointer is an address; a field is read and written
where the 32-bit layout puts it: a byte for `free`, four bytes each for
`previous`, `next` and `allocated_memory`, eight for `size`.
-/

namespace Iposix.Mm.FuStructure

open Iposix.Lib

/-- `sizeof( fu_structure )` -/
def SIZEOF : Nat := 24

def free (m : Nat → UInt8) (p : Nat) : Bool := load 1 m p != 0
def previous (m : Nat → UInt8) (p : Nat) : Nat := load 4 m (p + 4)
def next (m : Nat → UInt8) (p : Nat) : Nat := load 4 m (p + 8)
def allocatedMemory (m : Nat → UInt8) (p : Nat) : Nat := load 4 m (p + 12)
def size (m : Nat → UInt8) (p : Nat) : Nat := load 8 m (p + 16)

def setFree (m : Nat → UInt8) (p : Nat) (v : Bool) : Nat → UInt8 :=
  store 1 m p (if v then 1 else 0)
def setPrevious (m : Nat → UInt8) (p v : Nat) : Nat → UInt8 :=
  store 4 m (p + 4) v
def setNext (m : Nat → UInt8) (p v : Nat) : Nat → UInt8 :=
  store 4 m (p + 8) v
def setAllocatedMemory (m : Nat → UInt8) (p v : Nat) : Nat → UInt8 :=
  store 4 m (p + 12) v
def setSize (m : Nat → UInt8) (p v : Nat) : Nat → UInt8 :=
  store 8 m (p + 16) v

end Iposix.Mm.FuStructure
