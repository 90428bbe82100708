import Mathlib.Logic.Function.Basic

/-!
# The keyboard buffer

The interrupt handler puts scancodes into a ring of 128 slots, and
`get_next_event` takes them out. The handler runs to its end; `get_next_event`
does not switch it off, so it can run between any two of the steps that function
takes. A machine here is the ring and where the reader is, with the scancodes
accepted and delivered so far and the slots accessed.

Both indices stay so small that their sixteen bits do not matter.
-/

namespace Iposix.Devices

/-- `keyboard`: the buffer and its indices. -/
structure Keyboard where
  buffer : Nat → UInt8
  bufferInIndex : Nat
  bufferOutIndex : Nat

namespace Keyboard

def BUFFER_SIZE : Nat := 128

/-- The test of `push_event` that there is no room. `buffer_out_index - 1` is
computed in `int`: minus one for zero. -/
def full (k : Keyboard) : Bool :=
  (k.bufferInIndex : Int) == (k.bufferOutIndex : Int) - 1 ||
    (k.bufferInIndex == BUFFER_SIZE - 1 && k.bufferOutIndex == 0)

/-- `push_event` -/
def pushEvent (k : Keyboard) (event : UInt8) : Keyboard :=
  if k.full then k
  else
    let index := k.bufferInIndex + 1
    { k with
      buffer := Function.update k.buffer k.bufferInIndex event
      bufferInIndex := if index ≥ BUFFER_SIZE then 0 else index }

/-- The test of `get_next_event` that there is something. -/
def available (k : Keyboard) : Bool := k.bufferInIndex != k.bufferOutIndex

/-- `ret = buffer[buffer_out_index++]` -/
def take (k : Keyboard) : UInt8 × Keyboard :=
  (k.buffer k.bufferOutIndex,
    { k with bufferOutIndex := k.bufferOutIndex + 1 })

/-- The last step of `get_next_event`. -/
def wrap (k : Keyboard) : Keyboard :=
  if k.bufferOutIndex ≥ BUFFER_SIZE then { k with bufferOutIndex := 0 } else k

/-- `get_next_event` when nothing interrupts it. -/
def getNextEvent (k : Keyboard) : UInt8 × Keyboard :=
  if k.available then (k.take.1, k.take.2.wrap) else (0, k)

/-! ## Interrupts -/

/-- Where `get_next_event` is. -/
inductive Reader where
  /-- not called -/
  | idle
  /-- found the indices different -/
  | found
  /-- has read the slot, and not looked at the new index -/
  | taken (ret : UInt8)
  deriving DecidableEq

structure System where
  keyboard : Keyboard
  reader : Reader
  accepted : List UInt8
  delivered : List UInt8
  accessed : List Nat

/-- An interrupt with its scancode, or the next step of the reader. -/
inductive Action where
  | interrupt (event : UInt8)
  | read

namespace System

def boot (buffer : Nat → UInt8) : System where
  keyboard := ⟨buffer, 0, 0⟩
  reader := .idle
  accepted := []
  delivered := []
  accessed := []

def interrupt (s : System) (event : UInt8) : System :=
  if s.keyboard.full then { s with keyboard := s.keyboard.pushEvent event }
  else
    { s with
      keyboard := s.keyboard.pushEvent event
      accepted := s.accepted ++ [event]
      accessed := s.keyboard.bufferInIndex :: s.accessed }

/-- The next step of `get_next_event`; a call that finds nothing answers at
once. -/
def read (s : System) : System :=
  match s.reader with
  | .idle => if s.keyboard.available then { s with reader := .found } else s
  | .found =>
      { s with
        keyboard := s.keyboard.take.2
        reader := .taken s.keyboard.take.1
        accessed := s.keyboard.bufferOutIndex :: s.accessed }
  | .taken ret =>
      { s with
        keyboard := s.keyboard.wrap
        reader := .idle
        delivered := s.delivered ++ [ret] }

def step (s : System) : Action → Option System
  | .interrupt event => some (s.interrupt event)
  | .read => some s.read

/-- What has been read out of the ring: what was delivered and what a call is
about to deliver. -/
def readOut (s : System) : List UInt8 :=
  match s.reader with
  | .taken ret => s.delivered ++ [ret]
  | _ => s.delivered

end System

end Keyboard

end Iposix.Devices
