import Mathlib.Logic.Function.Basic

/-!
# The text screen

The video memory is 25 rows of 80 cells, one behind the other; a cell is a
character and its colors. Every store is recorded by its index, and what
`move_hardware_cursor` sends to the ports by port and value.

The cursor stays on the screen, so its coordinates need no width.
-/

namespace Iposix.Devices

/-- `video` -/
structure Video where
  cursorX : Nat
  cursorY : Nat
  colors : UInt16
  videomem : Nat → UInt16
  stored : List Nat
  ports : List (Nat × Nat)

namespace Video

/-- `c | this->colors` -/
def cell (colors : UInt16) (c : UInt8) : UInt16 := c.toUInt16 ||| colors

/-- `this->videomem[i] = w` -/
def store (v : Video) (i : Nat) (w : UInt16) : Video :=
  { v with
    videomem := Function.update v.videomem i w
    stored := i :: v.stored }

/-- The loops of `clear` and `scroll`: `turns` cells from `i` on are stored
to, one after the other. -/
def storeFrom (f : Video → Nat → UInt16) : (turns i : Nat) → Video → Video
  | 0, _, v => v
  | turns + 1, i, v => storeFrom f turns (i + 1) (v.store i (f v i))

def blank (v : Video) (_ : Nat) : UInt16 := cell v.colors 0x20

def below (v : Video) (i : Nat) : UInt16 := v.videomem (i + 80)

/-- `clear` -/
def clear (v : Video) : Video :=
  { storeFrom blank (80 * 25) 0 v with cursorX := 0, cursorY := 0 }

/-- `scroll` -/
def scroll (v : Video) : Video :=
  if v.cursorY ≥ 25 then
    let v := storeFrom below (80 * 24) 0 v
    let v := storeFrom blank 80 (80 * 24) v
    { v with cursorY := 24 }
  else v

/-- `move_hardware_cursor` -/
def moveHardwareCursor (v : Video) : Video :=
  let index := (v.cursorY * 80 + v.cursorX) % 65536
  { v with
    ports := v.ports ++ [(0x3D4, 14), (0x3D5, index / 256 % 256), (0x3D4, 15),
      (0x3D5, index % 256)] }

/-- What `put` does with a character before it looks at the right edge.
`char` is signed, so only 0x20 to 0x7F are `>= ' '`. -/
def putChar (v : Video) (c : UInt8) : Video :=
  if c = 0x08 then
    if v.cursorX ≠ 0 then { v with cursorX := v.cursorX - 1 } else v
  else if c = 0x09 then { v with cursorX := (v.cursorX + 8) / 8 * 8 }
  else if c = 0x0D then { v with cursorX := 0 }
  else if c = 0x0A then { v with cursorX := 0, cursorY := v.cursorY + 1 }
  else if 0x20 ≤ c ∧ c < 0x80 then
    { v.store (v.cursorY * 80 + v.cursorX) (cell v.colors c) with
      cursorX := v.cursorX + 1 }
  else v

/-- What it does at the right edge. -/
def wrapLine (v : Video) : Video :=
  if v.cursorX ≥ 80 then { v with cursorX := 0, cursorY := v.cursorY + 1 }
  else v

/-- `put` -/
def put (v : Video) (c : UInt8) : Video :=
  (v.putChar c).wrapLine.scroll.moveHardwareCursor

end Video

end Iposix.Devices
