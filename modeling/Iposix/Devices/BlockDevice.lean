import Iposix.Lib.Flat
import Iposix.Lib.Word

/-!
# The block layer

`i_block_device` turns the two block transfers a driver implements,
`read_block` and `write_block`, into byte-granular `read` and `write`. Both
run in three parts: a head that starts inside a block, a body of whole blocks
that the driver may transfer in several shorter pieces, and a tail that ends
inside a block. Head and tail of a write read their block first, change it in
`tmp` and write it back.

The driver is a parameter: a type `σ` of its states and the two transfers. A
transfer answers what the source's returns, the number of blocks or `-1`.
-/

namespace Iposix.Devices

open Iposix.Lib

/-- Byte contents of a buffer, from the address the pointer holds on. -/
abbrev Bytes := Nat → UInt8

/-- What a class derived from `i_block_device` supplies. -/
structure BlockDevice (σ : Type*) where
  /-- `block_size()` -/
  blockSize : Nat
  /-- `read_block(base_sector, buffer, length)`: the answer, the buffer and
  the device afterwards. -/
  readBlock : σ → Nat → Bytes → Nat → Int × Bytes × σ
  /-- `write_block(base_sector, buffer, length)` -/
  writeBlock : σ → Nat → Bytes → Nat → Int × σ

/-- The locals `read` and `write` carry from part to part. -/
structure Cursor where
  baseBlock : Nat
  position : Nat
  remain : Nat
  success : Bool

namespace BlockDevice

variable {σ : Type*} (d : BlockDevice σ)

/-- The bookkeeping after the head: `len` bytes went by, and one block. -/
def passHead (c : Cursor) (len : Nat) (ok : Bool) : Cursor :=
  { baseBlock := u64 (c.baseBlock + 1)
    position := u32 (c.position + len)
    remain := u32 (c.remain - len)
    success := c.success && ok }

/-- The bookkeeping after one turn of the body loop. A failed transfer leaves
everything but `success` alone. -/
def passBody (c : Cursor) (transfered : Int) : Cursor :=
  if c.success && transfered != -1 then
    { baseBlock := u64 (c.baseBlock + transfered)
      position := u32 (c.position + transfered * d.blockSize)
      remain := u32 (c.remain - transfered * d.blockSize)
      success := true }
  else { c with success := false }

/-- The cursor both functions start with. -/
def start (baseAddress length : Nat) : Cursor :=
  { baseBlock := baseAddress / d.blockSize
    position := 0
    remain := length
    success := true }

/-- `len` of the head: the rest of its block, or less. -/
def headLen (baseAddress length : Nat) : Nat :=
  let maxLen := u32 (d.blockSize - (baseAddress % d.blockSize : Nat))
  if length > maxLen then maxLen else length

/-- The head of `read`; the cursor, the device, the buffer and `tmp`. -/
def readHead (dev : σ) (baseAddress : Nat) (buf : Bytes) (length : Nat)
    (tmp : Bytes) : Cursor × σ × Bytes × Bytes :=
  let c := d.start baseAddress length
  let skipBytes := baseAddress % d.blockSize
  if skipBytes > 0 then
    let len := d.headLen baseAddress length
    let (transfered, tmp, dev) := d.readBlock dev c.baseBlock tmp 1
    let buf := splice buf c.position len (window tmp skipBytes)
    (passHead c len (transfered != -1), dev, buf, tmp)
  else (c, dev, buf, tmp)

/-- The body loop of `read`; `none` when the fuel runs out. -/
def readBody : Nat → Cursor → σ → Bytes → Option (Cursor × σ × Bytes)
  | 0, _, _, _ => none
  | fuel + 1, c, dev, buf =>
      if c.remain > d.blockSize && c.success then
        let blocks := c.remain / d.blockSize
        let (transfered, out, dev) :=
          d.readBlock dev c.baseBlock (window buf c.position) blocks
        readBody fuel (d.passBody c transfered) dev (graft buf c.position out)
      else some (c, dev, buf)

/-- The tail of `read`. Here `skip_bytes` is zero, whether or not there was a
head. -/
def readTail (c : Cursor) (dev : σ) (buf tmp : Bytes) : Bool × σ × Bytes :=
  if c.remain > 0 && c.success then
    let (transfered, tmp, dev) := d.readBlock dev c.baseBlock tmp 1
    (transfered != -1, dev, splice buf c.position c.remain tmp)
  else (c.success, dev, buf)

/-- `i_block_device::read`: the answer, the buffer and the device. `tmp` is
the array `new uint8_t[block_size]` delivers, with whatever it holds. -/
def read (fuel : Nat) (dev : σ) (baseAddress : Nat) (buf : Bytes) (length : Nat)
    (tmp : Bytes) : Option (Int × Bytes × σ) :=
  let (c, dev, buf, tmp) := d.readHead dev baseAddress buf length tmp
  match d.readBody fuel c dev buf with
  | none => none
  | some (c, dev, buf) =>
      let (success, dev, buf) := d.readTail c dev buf tmp
      some (if success then i32 length else -1, buf, dev)

/-- The head of `write`: read the block, change it in `tmp`, write it back. -/
def writeHead (dev : σ) (baseAddress : Nat) (buf : Bytes) (length : Nat)
    (tmp : Bytes) : Cursor × σ × Bytes :=
  let c := d.start baseAddress length
  let skipBytes := baseAddress % d.blockSize
  if skipBytes > 0 then
    let len := d.headLen baseAddress length
    let (readIn, tmp, dev) := d.readBlock dev c.baseBlock tmp 1
    let tmp := splice tmp skipBytes len (window buf c.position)
    let (written, dev) := d.writeBlock dev c.baseBlock tmp 1
    (passHead c len (readIn != -1 && written != -1), dev, tmp)
  else (c, dev, tmp)

/-- The body loop of `write`. -/
def writeBody (buf : Bytes) : Nat → Cursor → σ → Option (Cursor × σ)
  | 0, _, _ => none
  | fuel + 1, c, dev =>
      if c.remain > d.blockSize && c.success then
        let blocks := c.remain / d.blockSize
        let (transfered, dev) :=
          d.writeBlock dev c.baseBlock (window buf c.position) blocks
        writeBody buf fuel (d.passBody c transfered) dev
      else some (c, dev)

/-- The tail of `write`. -/
def writeTail (buf : Bytes) (c : Cursor) (dev : σ) (tmp : Bytes) : Bool × σ :=
  if c.remain > 0 && c.success then
    let (readIn, tmp, dev) := d.readBlock dev c.baseBlock tmp 1
    let tmp := splice tmp 0 c.remain (window buf c.position)
    let (written, dev) := d.writeBlock dev c.baseBlock tmp 1
    (readIn != -1 && written != -1, dev)
  else (c.success, dev)

/-- `i_block_device::write`: the answer and the device. -/
def write (fuel : Nat) (dev : σ) (baseAddress : Nat) (buf : Bytes) (length : Nat)
    (tmp : Bytes) : Option (Int × σ) :=
  let (c, dev, tmp) := d.writeHead dev baseAddress buf length tmp
  match d.writeBody buf fuel c dev with
  | none => none
  | some (c, dev) =>
      let (success, dev) := d.writeTail buf c dev tmp
      some (if success then i32 length else -1, dev)

end BlockDevice

end Iposix.Devices
