import Iposix.Devices.KeyboardDecoder
import Iposix.Devices.Video
import Iposix.Fs.DevFsNode
import Iposix.Fs.FileCalls

/-!
# The console

`i_console` writes to the screen and reads from the keyboard; `stdin`, `stdout`
and `stderr` are three of them that share both. A read stores one character,
however many are asked for, and does not wait: while nothing is typed that
character is what `get_next_key` makes of an empty buffer.

The system gate switches interrupts off, so that the keyboard is heard between
the calls. The other nodes of the kernel are a parameter.
-/

namespace Iposix.Devices

universe u

structure Console where
  video : Video
  keyboard : Keyboard
  decoder : Keyboard.Decoder

namespace Console

/-- The bytes of a buffer as they are written. -/
def text (buffer : Bytes) (length : Nat) : List UInt8 :=
  (List.range length).map buffer

/-- `i_console::write` -/
def write (c : Console) (buffer : Bytes) (length : Nat) : Nat × Console :=
  (length, { c with video := (text buffer length).foldl Video.put c.video })

/-- `i_console::read`: its result, the buffer and the console. -/
def read (c : Console) (buffer : Bytes) (_length : Nat) :
    Nat × Bytes × Console :=
  let (key, keyboard, decoder) := c.keyboard.getNextKey c.decoder
  (1, Function.update buffer 0 key.toNat.toUInt8,
    { c with keyboard := keyboard, decoder := decoder })

/-- `clear` -/
def clear (c : Console) : Console := { c with video := c.video.clear }

/-- `handle_interrupt` of the keyboard. -/
def interrupt (c : Console) (scancode : UInt8) : Console :=
  { c with keyboard := c.keyboard.pushEvent scancode }

/-- The constructor of the keyboard, and a screen that has been cleared. -/
def boot (video : Video) (buffer : Nat → UInt8) : Console where
  video := video.clear
  keyboard := ⟨buffer, 0, 0⟩
  decoder := {}

/-- A console node has no drive. -/
def devices : Fs.NodeDevices Console where
  driveRead := fun _ _ _ _ => none
  driveWrite := fun _ _ _ _ => none
  consoleRead := fun c buffer length => some (c.read buffer length).2
  consoleWrite := fun c buffer length => some (c.write buffer length).2

end Console

end Iposix.Devices

namespace Iposix.Fs

/-- The constructor of a console node. -/
def DevFsNode.ofConsole : DevFsNode where
  isDirectory := false
  nodeType := .charNode
  firstAddress := 0
  lastAddress := 0

end Iposix.Fs

namespace Iposix.Fs.FileCalls

open Iposix.Devices

universe u v

variable {ω : Type u} {δ : Type v}

/-- The console nodes, and the others with what they are based on. -/
def consoleMethods (isConsole : Nat → Bool) (others : NodeMethods δ) :
    NodeMethods (Console × δ) where
  isTty := fun node => isConsole node || others.isTty node
  length := fun w node => if isConsole node then 0 else others.length w.2 node
  read := fun w node offset buffer length =>
    if isConsole node then
      (DevFsNode.ofConsole.read Console.devices w.1 offset buffer length).map
        fun (buffer, console) => ((console, w.2), buffer)
    else
      (others.read w.2 node offset buffer length).map
        fun (other, buffer) => ((w.1, other), buffer)
  write := fun w node offset buffer length =>
    if isConsole node then
      (DevFsNode.ofConsole.write Console.devices w.1 offset buffer length).map
        fun console => (console, w.2)
    else
      (others.write w.2 node offset buffer length).map fun other => (w.1, other)
  stat := fun w node => others.stat w.2 node

/-- A keyboard interrupt concerns the console only. -/
def consoleInterrupt (w : Console × δ) (scancode : UInt8) : Console × δ :=
  (w.1.interrupt scancode, w.2)

/-- A key that is pressed or released, or a call. -/
inductive Event where
  | interrupt (scancode : UInt8)
  | call (call : Call)

namespace Kernel

variable (methods : NodeMethods ω) (interrupt : ω → UInt8 → ω)

/-- What an event answers, and the kernel after it. -/
def happen (s : Kernel ω) : Event → Option (List Reply × Kernel ω)
  | .interrupt scancode =>
      some ([], { s with world := interrupt s.world scancode })
  | .call call => (s.step methods call).map fun (r, s) => ([r], s)

/-- A run of events. -/
def run : List Event → Kernel ω → Option (List Reply × Kernel ω)
  | [], s => some ([], s)
  | e :: events, s => do
      let (r, s) ← s.happen methods interrupt e
      let (rs, s) ← run events s
      some (r ++ rs, s)

end Kernel

end Iposix.Fs.FileCalls
