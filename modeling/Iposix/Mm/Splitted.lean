import Iposix.Lib.Word
import Iposix.Mm.FuStructure

/-!
# The physical memory manager

`splitted<4096>`: a kernel heap growing up from `first_address` and pages
handed out down from `last_address`, with `cur_kernel_bound` and
`cur_user_bound` between them. The memory managed is part of the state, since
both the heap's structures and the page bitmap live in it.

Addresses are numbers below `2^32`, sizes numbers below `2^64`; every
assignment reduces to the width of what is assigned. The loop over the
structures runs on fuel; the other loops are bounded by their counters.
-/

namespace Iposix.Mm

open Iposix.Lib

def PAGE_SIZE : Nat := 4096

/-- `memory_area` -/
structure MemoryArea where
  low : Nat
  high : Nat

/-- `bitmap` -/
structure Bitmap where
  data : Nat
  memSize : Nat
  entrys : Nat

namespace Bitmap

/-- Where `operator[]` finds the bits of an entry; `size_t` has 32 bits. -/
def byteOf (bm : Bitmap) (entry : Nat) : Nat := u32 (bm.data + u32 entry / 4)

/-- `free_mask` -/
def freeMask (entry : Nat) : UInt8 := 1 <<< UInt8.ofNat (2 * entry % 8)

/-- `kernel_mask` -/
def kernelMask (entry : Nat) : UInt8 := 2 <<< UInt8.ofNat (2 * entry % 8)

/-- `free()` of an entry: the bit is clear. -/
def free (bm : Bitmap) (m : Nat → UInt8) (entry : Nat) : Bool :=
  m (bm.byteOf entry) &&& freeMask entry != freeMask entry

/-- `kernel()` of an entry: the bit is set. -/
def kernel (bm : Bitmap) (m : Nat → UInt8) (entry : Nat) : Bool :=
  m (bm.byteOf entry) &&& kernelMask entry == kernelMask entry

/-- `free( is_free )` of an entry -/
def setFree (bm : Bitmap) (m : Nat → UInt8) (entry : Nat) (isFree : Bool) :
    Nat → UInt8 :=
  let byte := m (bm.byteOf entry)
  splice m (bm.byteOf entry) 1 fun _ =>
    if isFree then byte &&& ~~~freeMask entry else byte ||| freeMask entry

/-- `kernel( is_kernel )` of an entry -/
def setKernel (bm : Bitmap) (m : Nat → UInt8) (entry : Nat)
    (isKernel : Bool) : Nat → UInt8 :=
  let byte := m (bm.byteOf entry)
  splice m (bm.byteOf entry) 1 fun _ =>
    if isKernel then byte ||| kernelMask entry
    else byte &&& ~~~kernelMask entry

/-- The fields `set_to` computes; it also clears `entrys` bytes at `addr`. -/
def setTo (addr entrys : Nat) : Bitmap where
  data := addr
  memSize := entrys / 4
  entrys := u64 (entrys - (entrys / 4 / PAGE_SIZE + 1 : Nat))

/-- The loop of `set_to`, which clears `entrys` bytes. -/
def clear (m : Nat → UInt8) (addr : Nat) : (entrys : Nat) → Nat → UInt8
  | 0 => m
  | i + 1 => splice (clear m addr i) (u32 (addr + i : Nat)) 1 fun _ => 0

end Bitmap

/-- `splitted`, together with the memory. -/
structure Splitted where
  mem : Nat → UInt8
  isInitialized : Bool
  firstAddress : Nat
  curKernelBound : Nat
  maxKernelBound : Nat
  curUserBound : Nat
  lastAddress : Nat
  pageBm : Bitmap
  firstStructure : Nat

namespace Splitted

open FuStructure

/-- The constructor. -/
def init (mem : Nat → UInt8) : Splitted where
  mem := mem
  isInitialized := false
  firstAddress := 0
  curKernelBound := 0
  maxKernelBound := 0
  curUserBound := 0
  lastAddress := 0
  pageBm := ⟨0, 0, 0⟩
  firstStructure := 0

/-- The next page boundary from `low` on. -/
def roundUp (low : Nat) : Nat :=
  if low % PAGE_SIZE ≠ 0 then u32 (low + (PAGE_SIZE - low % PAGE_SIZE : Nat))
  else low

/-- `set_memory_areas`, given the area `get_memory_areas` delivers. The source
rounds a copy of `high` down as well, which nothing reads. -/
def setMemoryAreas (s : Splitted) (area : MemoryArea) : Splitted :=
  if !s.isInitialized then
    let bmEntrys := u32 ((area.high : Int) - area.low) / PAGE_SIZE
    let bm := Bitmap.setTo area.low bmEntrys
    let low := roundUp (u32 (area.low + bm.memSize))
    { s with
      mem := splice s.mem area.low bmEntrys fun _ => 0
      pageBm := bm
      firstAddress := low
      curKernelBound := low
      maxKernelBound := low
      curUserBound := area.high
      lastAddress := area.high
      isInitialized := true }
  else s

/-- The search of `kernel_malloc`: the structure it stops at, null at the end
of the chain, and the one before. -/
def findFit (m : Nat → UInt8) (request : Nat) :
    Nat → (cur prev : Nat) → Option (Nat × Nat)
  | 0, _, _ => none
  | fuel + 1, cur, prev =>
      if cur ≠ 0 && !(free m cur && decide (size m cur ≥ request)) then
        findFit m request fuel (next m cur) cur
      else some (cur, prev)

/-- A new structure is the first one, or is told to the one before it. -/
def linkNew (firstStructure : Nat) (m : Nat → UInt8) (prev cur : Nat) :
    Nat → UInt8 :=
  if firstStructure = 0 then m
  else if prev ≠ 0 then setNext m prev cur
  else m

/-- The end of the chain is reached: a new structure behind the last one. -/
def extend (s : Splitted) (prev request : Nat) : Nat × Splitted :=
  let newKernelBound := u32 (u32 (s.curKernelBound + SIZEOF) + request)
  if newKernelBound > s.curUserBound then (0, s)
  else
    let cur := s.curKernelBound
    let m := setFree s.mem cur false
    let m := setPrevious m cur prev
    let m := setNext m cur 0
    let m := setAllocatedMemory m cur (u32 (s.curKernelBound + SIZEOF))
    let m := setSize m cur request
    let m := linkNew s.firstStructure m prev cur
    (allocatedMemory m cur,
      { s with
        mem := m
        maxKernelBound :=
          if newKernelBound > s.maxKernelBound then newKernelBound
          else s.maxKernelBound
        curKernelBound := newKernelBound
        firstStructure :=
          if s.firstStructure = 0 then cur else s.firstStructure })

/-- The rest of a block that is larger than needed becomes a free block. The
block behind it is told without asking whether there is one. -/
def split (m : Nat → UInt8) (cur request : Nat) : Nat → UInt8 :=
  let remain := size m cur - request
  if remain > SIZEOF then
    let remain := remain - SIZEOF
    let m := setSize m cur request
    let newFu := u32 (allocatedMemory m cur + request)
    let m := setFree m newFu true
    let m := setPrevious m newFu cur
    let m := setNext m newFu (next m cur)
    let m := setAllocatedMemory m newFu (u32 (newFu + SIZEOF))
    let m := setSize m newFu remain
    let m := setPrevious m (next m cur) newFu
    setNext m cur newFu
  else m

/-- A free block is taken, and cut if it is larger than needed. -/
def reuse (m : Nat → UInt8) (cur request : Nat) : Nat → UInt8 :=
  let m := setFree m cur false
  if size m cur > request then split m cur request else m

/-- More links than there are addresses are not followed. -/
def FUEL : Nat := 4294967296

/-- `kernel_malloc` -/
def kernelMalloc (s : Splitted) (request : Nat) : Option (Nat × Splitted) :=
  match findFit s.mem request FUEL s.firstStructure 0 with
  | none => none
  | some (cur, prev) =>
      if cur = 0 then some (s.extend prev request)
      else if free s.mem cur && decide (size s.mem cur ≥ request) then
        let m := reuse s.mem cur request
        some (allocatedMemory m cur, { s with mem := m })
      else some (0, s)

/-- Both merges of `kernel_free`: `cur` takes in the block behind it. -/
def merge (m : Nat → UInt8) (cur killed : Nat) : Nat → UInt8 :=
  let next := next m killed
  let m := setSize m cur (size m cur + SIZEOF)
  let m := setSize m cur (size m cur + size m killed)
  let m := setNext m cur next
  if next ≠ 0 then setPrevious m next cur else m

/-- `kernel_free` -/
def kernelFree (s : Splitted) (addr : Nat) : Bool × Splitted :=
  let cur := u32 ((addr : Int) - SIZEOF)
  if cur ≠ 0 ∧ addr = allocatedMemory s.mem cur then
    let prev := previous s.mem cur
    let (m, cur) :=
      if prev ≠ 0 ∧ free s.mem prev then (merge s.mem prev cur, prev)
      else (s.mem, cur)
    let m :=
      if next m cur ≠ 0 ∧ free m (next m cur) then merge m cur (next m cur)
      else m
    (true, { s with mem := setFree m cur true })
  else (false, s)

/-- The search of `page_alloc`: the index and address it stops at, and the
memory with the entry marked; entry zero is never looked at. -/
def findPage (bm : Bitmap) (kernel : Bool) (m : Nat → UInt8) :
    (i ret : Nat) → Nat × Nat × (Nat → UInt8)
  | 0, ret => (0, ret, m)
  | i + 1, ret =>
      if bm.free m (i + 1) then
        (i + 1, ret, bm.setKernel (bm.setFree m (i + 1) false) (i + 1) kernel)
      else findPage bm kernel m i (u32 ((ret : Int) - PAGE_SIZE))

/-- `page_alloc` -/
def pageAlloc (s : Splitted) (kernel : Bool) : Nat × Splitted :=
  let (i, ret, m) := findPage s.pageBm kernel s.mem
    (u64 ((s.pageBm.entrys : Int) - 1)) (u32 ((s.lastAddress : Int) - PAGE_SIZE))
  if ret = 0 then (ret, { s with mem := m })
  else if s.curKernelBound > ret then
    (0, { s with
      mem := s.pageBm.setKernel (s.pageBm.setFree m i true) i false })
  else
    let clear := s.maxKernelBound > ret
    (ret, { s with
      mem :=
        if clear then
          splice m ret ((s.maxKernelBound - ret + 3) / 4 * 4) fun _ => 0
        else m
      maxKernelBound := if clear then ret else s.maxKernelBound
      curUserBound := if s.curUserBound > ret then ret else s.curUserBound })

/-- The loop of `page_free` over the entries from `j` on. The entry it asks is
`i`, the one just freed, each time. -/
def advanceUserBound (bm : Bitmap) (m : Nat → UInt8) (i : Nat) :
    (turns bound : Nat) → Nat
  | 0, bound => bound
  | turns + 1, bound =>
      if bm.free m i then
        advanceUserBound bm m i turns (u32 (bound + PAGE_SIZE))
      else bound

/-- `page_free` -/
def pageFree (s : Splitted) (addr : Nat) : Bool × Splitted :=
  let i := u32 ((addr : Int) - s.firstAddress) / PAGE_SIZE
  if s.pageBm.free s.mem i then (false, s)
  else
    let m := s.pageBm.setFree s.mem i true
    (true, { s with
      mem := m
      curUserBound :=
        if addr = s.curUserBound then
          advanceUserBound s.pageBm m i (s.pageBm.entrys - i) s.curUserBound
        else s.curUserBound })

/-- `malloc` -/
def malloc (s : Splitted) (request : Nat) (kernel aligned : Bool) :
    Option (Nat × Splitted) :=
  if s.isInitialized then
    if kernel && !aligned then s.kernelMalloc request
    else if (if request > PAGE_SIZE then request else PAGE_SIZE) = PAGE_SIZE then
      some (s.pageAlloc kernel)
    else some (0, s)
  else some (0, s)

/-- `free` -/
def free (s : Splitted) (addr : Nat) (kernel : Bool) : Bool × Splitted :=
  if s.isInitialized then
    if kernel && decide (addr ≥ s.firstAddress) &&
        decide (addr ≤ s.curKernelBound) then s.kernelFree addr
    else if !kernel && decide (addr ≥ s.curUserBound) &&
        decide (addr ≤ s.lastAddress) then s.pageFree addr
    else (false, s)
  else (false, s)

end Splitted

end Iposix.Mm
