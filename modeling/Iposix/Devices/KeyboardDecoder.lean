import Iposix.Devices.Keyboard

/-!
# What the keyboard types

`get_next_key` takes the next scancode from the buffer and turns it into a
character. It keeps what it needs to know about earlier scancodes in flags: the
modifiers held down, caps lock, and that the scancode before was the prefix of
an escaped one. `get_next_event` answers zero when there is nothing, and
`get_next_key` goes on with that zero as with any scancode.

`super_state` is never read or written after the constructor and left out.
-/

namespace Iposix.Devices.Keyboard

/-- A zero of the source: no character. -/
def nul : Char := '\x00'

/-- A row of the table of keys. -/
structure Key where
  normal : Char
  shift : Char
  altGr : Char
  escaped : Char

/-- `keyboard_german`, whose other rows are zero. -/
def keyboardGerman : Nat → Key
  | 0x02 => ⟨'1', '!', nul, nul⟩
  | 0x03 => ⟨'2', '\x22', nul, nul⟩
  | 0x04 => ⟨'3', nul, nul, nul⟩
  | 0x05 => ⟨'4', '$', nul, nul⟩
  | 0x06 => ⟨'5', '%', nul, nul⟩
  | 0x07 => ⟨'6', '&', nul, nul⟩
  | 0x08 => ⟨'7', '/', '\x7b', nul⟩
  | 0x09 => ⟨'8', '(', '[', nul⟩
  | 0x0A => ⟨'9', ')', ']', nul⟩
  | 0x0B => ⟨'0', '=', '\x7d', nul⟩
  | 0x0C => ⟨nul, '?', '\x5c', nul⟩
  | 0x0D => ⟨nul, '\x60', nul, nul⟩
  | 0x0E => ⟨'\x08', '\x08', nul, nul⟩
  | 0x0F => ⟨'\x09', nul, nul, nul⟩
  | 0x10 => ⟨'q', 'Q', '@', nul⟩
  | 0x11 => ⟨'w', 'W', nul, nul⟩
  | 0x12 => ⟨'e', 'E', nul, nul⟩
  | 0x13 => ⟨'r', 'R', nul, nul⟩
  | 0x14 => ⟨'t', 'T', nul, nul⟩
  | 0x15 => ⟨'z', 'Z', nul, nul⟩
  | 0x16 => ⟨'u', 'U', nul, nul⟩
  | 0x17 => ⟨'i', 'I', nul, nul⟩
  | 0x18 => ⟨'o', 'O', nul, nul⟩
  | 0x19 => ⟨'p', 'P', nul, nul⟩
  | 0x1B => ⟨'+', '*', '~', nul⟩
  | 0x1C => ⟨'\x0a', nul, nul, '\x0a'⟩
  | 0x1E => ⟨'a', 'A', nul, nul⟩
  | 0x1F => ⟨'s', 'S', nul, nul⟩
  | 0x20 => ⟨'d', 'D', nul, nul⟩
  | 0x21 => ⟨'f', 'F', nul, nul⟩
  | 0x22 => ⟨'g', 'G', nul, nul⟩
  | 0x23 => ⟨'h', 'H', nul, nul⟩
  | 0x24 => ⟨'j', 'J', nul, nul⟩
  | 0x25 => ⟨'k', 'K', nul, nul⟩
  | 0x26 => ⟨'l', 'L', nul, nul⟩
  | 0x29 => ⟨'^', nul, nul, nul⟩
  | 0x2B => ⟨'#', '\x27', nul, nul⟩
  | 0x2C => ⟨'y', 'Y', nul, nul⟩
  | 0x2D => ⟨'x', 'X', nul, nul⟩
  | 0x2E => ⟨'c', 'C', nul, nul⟩
  | 0x2F => ⟨'v', 'V', nul, nul⟩
  | 0x30 => ⟨'b', 'B', nul, nul⟩
  | 0x31 => ⟨'n', 'N', nul, nul⟩
  | 0x32 => ⟨'m', 'M', nul, nul⟩
  | 0x33 => ⟨',', ';', nul, nul⟩
  | 0x34 => ⟨'.', ':', nul, nul⟩
  | 0x35 => ⟨'-', '_', nul, '/'⟩
  | 0x37 => ⟨'*', nul, nul, nul⟩
  | 0x39 => ⟨' ', ' ', nul, nul⟩
  | 0x47 => ⟨'7', nul, nul, nul⟩
  | 0x48 => ⟨'8', nul, nul, nul⟩
  | 0x49 => ⟨'9', nul, nul, nul⟩
  | 0x4A => ⟨'-', nul, nul, nul⟩
  | 0x4B => ⟨'4', nul, nul, nul⟩
  | 0x4C => ⟨'5', nul, nul, nul⟩
  | 0x4D => ⟨'6', nul, nul, nul⟩
  | 0x4E => ⟨'+', nul, nul, nul⟩
  | 0x4F => ⟨'1', nul, nul, nul⟩
  | 0x50 => ⟨'2', nul, nul, nul⟩
  | 0x51 => ⟨'3', nul, nul, nul⟩
  | 0x52 => ⟨'0', nul, nul, nul⟩
  | 0x53 => ⟨',', nul, nul, nul⟩
  | 0x56 => ⟨'<', '>', '|', nul⟩
  | _ => ⟨nul, nul, nul, nul⟩

def LEFT_SHIFT_PRESSED : UInt8 := 0x2A
def LEFT_SHIFT_RELEASED : UInt8 := 0xAA
def RIGHT_SHIFT_PRESSED : UInt8 := 0x36
def RIGHT_SHIFT_RELEASED : UInt8 := 0xB6
def CAPS_LOCK_PART1 : UInt8 := 0x3A
def CAPS_LOCK_PART2 : UInt8 := 0xBA
def LEFT_CTRL_PRESSED : UInt8 := 0x1D
def LEFT_CTRL_RELEASED : UInt8 := 0x9D
def ALT_PRESSED : UInt8 := 0x38
def ALT_RELEASED : UInt8 := 0xB8
def ESCAPE : UInt8 := 0xE0
def BREAK_BIT : UInt8 := 0x80

/-- The flags of `keyboard`, as the constructor sets them. -/
structure Decoder where
  leftShiftState : Bool := false
  rightShiftState : Bool := false
  capsLockState : Bool := false
  capsLockIgnoreOne : Bool := false
  leftCtrlState : Bool := false
  rightCtrlState : Bool := false
  altState : Bool := false
  altGrState : Bool := false
  escaped : Bool := false
  deriving DecidableEq

namespace Decoder

/-- Both branches of `CAPS_LOCK_PART1` before `escaped` is reset. -/
def capsLock (d : Decoder) : Decoder :=
  { d with
    capsLockState :=
      if !d.capsLockIgnoreOne then !d.capsLockState else d.capsLockState
    capsLockIgnoreOne := !d.capsLockIgnoreOne }

/-- The `default` branch of the switch. -/
def character (d : Decoder) (scancode : UInt8) : Char × Decoder :=
  if scancode &&& BREAK_BIT ≠ 0 then (nul, d)
  else if scancode > 128 then (nul, d)
  else if d.escaped then
    ((keyboardGerman scancode.toNat).escaped, { d with escaped := false })
  else if d.altGrState then ((keyboardGerman scancode.toNat).altGr, d)
  else if d.leftShiftState || d.rightShiftState || d.capsLockState then
    ((keyboardGerman scancode.toNat).shift, d)
  else ((keyboardGerman scancode.toNat).normal, d)

/-- `get_next_key` from where it has its scancode. -/
def decode (d : Decoder) (scancode : UInt8) : Char × Decoder :=
  if scancode = CAPS_LOCK_PART2 then (nul, d)
  else if scancode = CAPS_LOCK_PART1 then
    if d.escaped then (nul, { d.capsLock with escaped := false })
    else (nul, d.capsLock)
  else if scancode = LEFT_SHIFT_PRESSED then
    if d.escaped then (nul, { d with leftShiftState := true, escaped := false })
    else (nul, { d with leftShiftState := true })
  else if scancode = LEFT_SHIFT_RELEASED then
    if d.escaped then (nul, { d with leftShiftState := false, escaped := false })
    else (nul, { d with leftShiftState := false })
  else if scancode = RIGHT_SHIFT_PRESSED then
    if d.escaped then (nul, { d with rightShiftState := true, escaped := false })
    else (nul, { d with rightShiftState := true })
  else if scancode = RIGHT_SHIFT_RELEASED then
    if d.escaped then
      (nul, { d with rightShiftState := false, escaped := false })
    else (nul, { d with rightShiftState := false })
  else if scancode = LEFT_CTRL_PRESSED then
    if d.escaped then (nul, { d with leftCtrlState := true, escaped := false })
    else (nul, { d with leftCtrlState := true })
  else if scancode = LEFT_CTRL_RELEASED then
    if d.escaped then (nul, { d with leftCtrlState := false, escaped := false })
    else (nul, { d with leftCtrlState := false })
  else if scancode = ALT_PRESSED then
    if d.escaped then (nul, { d with altGrState := true, escaped := false })
    else (nul, { d with altState := true })
  else if scancode = ALT_RELEASED then
    if d.escaped then (nul, { d with altGrState := false, escaped := false })
    else (nul, { d with altState := false })
  -- no `break` after this one
  else if scancode = ESCAPE then { d with escaped := true }.character scancode
  else d.character scancode

end Decoder

/-- `get_next_key` when nothing interrupts it. -/
def getNextKey (k : Keyboard) (d : Decoder) : Char × Keyboard × Decoder :=
  let (scancode, k) := k.getNextEvent
  let (ret, d) := d.decode scancode
  (ret, k, d)

/-! ## Interrupts -/

/-- The keyboard while `get_next_key` is called again and again, with the
characters other than zero it has returned. -/
structure Typing where
  system : System
  decoder : Decoder
  typed : List Char

namespace Typing

def boot (buffer : Nat → UInt8) : Typing where
  system := System.boot buffer
  decoder := {}
  typed := []

/-- What the call of `get_next_event` answers, if its next step is its last. -/
def answer (s : System) : Option UInt8 :=
  match s.reader with
  | .idle => if s.keyboard.available then none else some 0
  | .found => none
  | .taken ret => some ret

/-- The rest of `get_next_key`. It looks at the flags only, which no interrupt
touches. -/
def press (t : Typing) (scancode : UInt8) : Typing :=
  let (ret, decoder) := t.decoder.decode scancode
  { t with
    decoder := decoder
    typed := if ret = nul then t.typed else t.typed ++ [ret] }

def step (t : Typing) : Action → Option Typing
  | .interrupt event => some { t with system := t.system.interrupt event }
  | .read =>
      match answer t.system with
      | none => some { t with system := t.system.read }
      | some scancode => some ({ t with system := t.system.read }.press scancode)

end Typing

end Iposix.Devices.Keyboard
