import Iposix.Devices.Console
import Iposix.Proofs.KeyboardQueue
import Iposix.Proofs.SyscallsOnDrive
import Iposix.Proofs.VideoTerminal

/-!
# One console for all processes

Ring buffer, flags and video memory are an implementation of something simpler:
a `Tty` is an endless terminal and the scancodes that nobody has read yet. All
processes, through whatever descriptors and in whatever order, with the keyboard
in between, are answered as if they had one of these.
-/

namespace Iposix.Devices

open Iposix.Lib

/-- `colors` is what the screen was cleared with. -/
structure Tty (colors : UInt16) where
  terminal : Terminal
  unread : List UInt8
  decoder : Keyboard.Decoder

namespace Tty

variable {colors : UInt16} (t : Tty colors)

def boot : Tty colors where
  terminal := .empty colors
  unread := []
  decoder := {}

def write (text : List UInt8) : Tty colors :=
  { t with terminal := text.foldl (Terminal.put colors) t.terminal }

/-- The next scancode becomes a character; if there is none, zero does. -/
def read : UInt8 × Tty colors :=
  let (key, decoder) := t.decoder.decode (t.unread.headD 0)
  (key.toNat.toUInt8, { t with unread := t.unread.tail, decoder := decoder })

/-- There is room for 127 scancodes, and what comes when it is full is lost. -/
def interrupt (scancode : UInt8) : Tty colors :=
  if t.unread.length < 127 then { t with unread := t.unread ++ [scancode] }
  else t

end Tty

/-! ## The keyboard -/

namespace Keyboard

/-- The scancodes in the ring. -/
structure Queued (k : Keyboard) (unread : List UInt8) : Prop where
  holds : Holds BUFFER_SIZE k.buffer k.bufferOutIndex unread
  writer : k.bufferInIndex = (k.bufferOutIndex + unread.length) % BUFFER_SIZE
  below : k.bufferOutIndex < BUFFER_SIZE

namespace Queued

variable {k : Keyboard} {unread : List UInt8}

theorem boot (buffer : Nat → UInt8) : Queued ⟨buffer, 0, 0⟩ [] :=
  ⟨.nil (by decide), rfl, Nat.zero_lt_succ _⟩

theorem pushEvent (h : Queued k unread) (event : UInt8) :
    Queued (k.pushEvent event)
      (if unread.length < 127 then unread ++ [event] else unread) := by
  have hfull := full_iff h.holds.room (Nat.le_of_lt h.below) h.writer
  have hlt : unread.length < 128 := h.holds.room
  rw [Keyboard.pushEvent]
  split
  next hyes =>
    have hlast : unread.length = 127 := hfull.1 hyes
    rw [if_neg (by omega)]
    exact h
  next hno =>
    have hroom : unread.length < 127 := by
      have hne : unread.length ≠ 127 := fun heq => hno (hfull.2 heq)
      omega
    have hslot := h.writer
    rw [if_pos hroom]
    refine ⟨?_, ?_, h.below⟩
    · show Holds _ (Function.update _ k.bufferInIndex event) _ _
      rw [hslot]
      exact h.holds.push (Nat.succ_lt_succ hroom)
    · show (if k.bufferInIndex + 1 ≥ BUFFER_SIZE then 0
        else k.bufferInIndex + 1) = _
      rw [List.length_append, List.length_singleton]
      split
      all_goals
        simp only [BUFFER_SIZE] at *
        omega

theorem getNextEvent (h : Queued k unread) :
    k.getNextEvent.1 = unread.headD 0 ∧
      Queued k.getNextEvent.2 unread.tail := by
  have havail := available_iff h.holds.room h.below h.writer
  rw [Keyboard.getNextEvent]
  cases unread with
  | nil =>
      rw [if_neg fun hyes => havail.1 hyes rfl]
      exact ⟨rfl, h⟩
  | cons event rest =>
      rw [if_pos (havail.2 (Nat.succ_ne_zero _))]
      have hhead := h.holds.head
      have hbelow := h.below
      have hwriter := h.writer
      rw [Nat.mod_eq_of_lt hbelow] at hhead
      refine ⟨hhead, ?_⟩
      rw [List.tail_cons, wrap]
      split
      next hlast =>
        have hlast : k.bufferOutIndex + 1 = BUFFER_SIZE :=
          Nat.le_antisymm hbelow hlast
        refine ⟨h.holds.pop.congr ?_, ?_, Nat.zero_lt_succ _⟩
        · show 0 % BUFFER_SIZE = (k.bufferOutIndex + 1) % BUFFER_SIZE
          rw [hlast]
          rfl
        · simp only [take, BUFFER_SIZE, List.length_cons] at *
          omega
      next hmore =>
        refine ⟨h.holds.pop, ?_, Nat.lt_of_not_le hmore⟩
        simp only [take, BUFFER_SIZE, List.length_cons] at *
        omega

end Queued

end Keyboard

/-! ## The console -/

/-- What the console shows and holds is the `Tty`. -/
structure Console.Is {colors : UInt16} (earlier : List Nat) (c : Console)
    (t : Tty colors) : Prop where
  screen : c.video.OnScreen colors earlier t.terminal
  queued : c.keyboard.Queued t.unread
  decoder : c.decoder = t.decoder

namespace Console.Is

variable {colors : UInt16} {earlier : List Nat} {c : Console} {t : Tty colors}

theorem boot (video : Video) (buffer : Nat → UInt8) :
    (Console.boot video buffer).Is video.stored
      (Tty.boot : Tty video.colors) :=
  ⟨Video.clear_onScreen video, .boot buffer, rfl⟩

theorem interrupt (h : c.Is earlier t) (scancode : UInt8) :
    (c.interrupt scancode).Is earlier (t.interrupt scancode) := by
  have hqueued := h.queued.pushEvent scancode
  rw [Tty.interrupt]
  split at hqueued
  next hroom =>
    rw [if_pos hroom]
    exact ⟨h.screen, hqueued, h.decoder⟩
  next hfull =>
    rw [if_neg hfull]
    exact ⟨h.screen, hqueued, h.decoder⟩

theorem write (h : c.Is earlier t) (buffer : Bytes) (length : Nat) :
    (c.write buffer length).2.Is earlier (t.write (text buffer length)) := by
  refine ⟨?_, h.queued, h.decoder⟩
  have hscreen := h.screen
  show Video.OnScreen colors earlier ((text buffer length).foldl Video.put c.video)
    ((text buffer length).foldl (Terminal.put colors) t.terminal)
  generalize text buffer length = l, c.video = v, t.terminal = u at hscreen
  induction l generalizing v u with
  | nil => exact hscreen
  | cons byte l ih => exact ih _ _ (Video.put_onScreen hscreen byte)

theorem read (h : c.Is earlier t) (buffer : Bytes) (length : Nat) :
    (c.read buffer length).2.1 = Function.update buffer 0 t.read.1 ∧
      (c.read buffer length).2.2.Is earlier t.read.2 := by
  obtain ⟨hevent, hqueued⟩ := h.queued.getNextEvent
  have hdecode : c.decoder.decode c.keyboard.getNextEvent.1 =
      t.decoder.decode (t.unread.headD 0) := by
    rw [hevent, h.decoder]
  refine ⟨?_, ⟨h.screen, hqueued, ?_⟩⟩
  · show Function.update buffer 0
      (c.decoder.decode c.keyboard.getNextEvent.1).1.toNat.toUInt8 = _
    rw [hdecode]
    rfl
  · show (c.decoder.decode c.keyboard.getNextEvent.1).2 = _
    rw [hdecode]
    rfl

end Console.Is

end Iposix.Devices

/-! ## All processes -/

namespace Iposix.Fs.FileCalls

open Iposix.Devices
open Iposix.Lib

universe u v

variable {ω : Type u} {δ : Type v} {colors : UInt16} {earlier : List Nat}

/-- The console nodes over a `Tty`. -/
def ttyMethods (isConsole : Nat → Bool) (others : NodeMethods δ) :
    NodeMethods (Tty colors × δ) where
  isTty := fun node => isConsole node || others.isTty node
  length := fun w node => if isConsole node then 0 else others.length w.2 node
  read := fun w node offset buffer length =>
    if isConsole node then
      some ((w.1.read.2, w.2), Function.update buffer 0 w.1.read.1)
    else
      (others.read w.2 node offset buffer length).map
        fun (other, buffer) => ((w.1, other), buffer)
  write := fun w node offset buffer length =>
    if isConsole node then some (w.1.write (Console.text buffer length), w.2)
    else
      (others.write w.2 node offset buffer length).map fun other => (w.1, other)
  stat := fun w node => others.stat w.2 node

def ttyInterrupt (w : Tty colors × δ) (scancode : UInt8) : Tty colors × δ :=
  (w.1.interrupt scancode, w.2)

/-- The calls of the nodes come back. -/
structure NodeMethods.Returns (methods : NodeMethods ω) : Prop where
  read : ∀ w node offset buffer length,
    (methods.read w node offset buffer length).isSome
  write : ∀ w node offset buffer length,
    (methods.write w node offset buffer length).isSome

/-- The console is the `Tty`, and everything else is the same. -/
def SameTty (earlier : List Nat) (w : Console × δ) (w' : Tty colors × δ) :
    Prop :=
  w.1.Is earlier w'.1 ∧ w.2 = w'.2

theorem consoleMethods_simulates (isConsole : Nat → Bool)
    {others : NodeMethods δ} (h : others.Returns) :
    (consoleMethods isConsole others).Simulates
      (ttyMethods isConsole others)
      (SameTty earlier : Console × δ → Tty colors × δ → Prop)
      fun _ _ _ => True where
  isTty := rfl
  length hR := by simp only [consoleMethods, ttyMethods, hR.2]
  stat hR := by simp only [consoleMethods, ttyMethods, hR.2]
  read {w w' node offset length} buffer hR _ := by
    obtain ⟨his, hsame⟩ := hR
    simp only [consoleMethods, ttyMethods]
    cases isConsole node with
    | true =>
        obtain ⟨hbuffer, hread⟩ := his.read buffer length
        refine ⟨_, (w'.1.read.2, w'.2), _, rfl, ?_, hread, hsame⟩
        simp only [if_true, hbuffer]
    | false =>
        obtain ⟨⟨other, out⟩, hread⟩ :=
          Option.isSome_iff_exists.1 (h.read w'.2 node offset buffer length)
        simp only [hsame, hread]
        exact ⟨_, _, _, rfl, rfl, his, rfl⟩
  write {w w' node offset length} buffer hR _ := by
    obtain ⟨his, hsame⟩ := hR
    simp only [consoleMethods, ttyMethods]
    cases isConsole node with
    | true => exact ⟨_, _, rfl, rfl, his.write buffer length, hsame⟩
    | false =>
        obtain ⟨other, hwrite⟩ :=
          Option.isSome_iff_exists.1 (h.write w'.2 node offset buffer length)
        simp only [hsame, hwrite]
        exact ⟨_, _, rfl, rfl, his, rfl⟩

theorem interrupt_simulates {w : Console × δ} {w' : Tty colors × δ}
    (h : SameTty earlier w w') (scancode : UInt8) :
    SameTty earlier (consoleInterrupt w scancode) (ttyInterrupt w' scancode) :=
  ⟨h.1.interrupt scancode, h.2⟩

namespace Kernel

variable {ω' : Type v} {methods : NodeMethods ω} {methods' : NodeMethods ω'}
  {R : ω → ω' → Prop} {interrupt : ω → UInt8 → ω} {interrupt' : ω' → UInt8 → ω'}

/-- A call is made by a process that is there. -/
def Possible (s : Kernel ω) : Event → Prop
  | .interrupt _ => True
  | .call call => call.process < s.count

instance (s : Kernel ω) (e : Event) : Decidable (s.Possible e) :=
  match e with
  | .interrupt _ => .isTrue trivial
  | .call call => inferInstanceAs (Decidable (call.process < s.count))

/-- An event without the answers. -/
def advanceTo (methods : NodeMethods ω) (interrupt : ω → UInt8 → ω)
    (s : Kernel ω) (e : Event) : Option (Kernel ω) :=
  (s.happen methods interrupt e).map Prod.snd

theorem happen_simulates (h : methods.Simulates methods' R fun _ _ _ => True)
    (hinterrupt : ∀ w w' scancode, R w w' →
      R (interrupt w scancode) (interrupt' w' scancode))
    {s : Kernel ω'} {w : ω} (hR : R w s.world) {e : Event}
    (hpossible : s.Possible e) :
    ∃ rs t u, s.happen methods' interrupt' e = some (rs, t) ∧
      (s.inWorld w).happen methods interrupt e = some (rs, t.inWorld u) ∧
      R u t.world := by
  cases e with
  | interrupt scancode =>
      exact ⟨[], _, interrupt w scancode, rfl, rfl, hinterrupt _ _ scancode hR⟩
  | call call =>
      have hallows : s.Allows (fun _ _ _ => True) call := by
        refine ⟨hpossible, ?_⟩
        split
        · exact fun _ _ _ _ => trivial
        · exact fun _ _ _ _ => trivial
        · trivial
      obtain ⟨r, t, u, hstep, hstep', hu⟩ := step_simulates h hR hallows
      refine ⟨[r], t, u, ?_, ?_, hu⟩
      · rw [happen, hstep]
        rfl
      · rw [happen, hstep']
        rfl

theorem run_simulates (h : methods.Simulates methods' R fun _ _ _ => True)
    (hinterrupt : ∀ w w' scancode, R w w' →
      R (interrupt w scancode) (interrupt' w' scancode)) :
    ∀ {events : List Event} {s : Kernel ω'} {w : ω}, R w s.world →
      Meets (advanceTo methods' interrupt') Possible s events →
      ∃ rs t u, s.run methods' interrupt' events = some (rs, t) ∧
        (s.inWorld w).run methods interrupt events = some (rs, t.inWorld u) ∧
        R u t.world := by
  intro events
  induction events with
  | nil => intro s w hR _; exact ⟨[], s, w, rfl, rfl, hR⟩
  | cons e events ih =>
      intro s w hR ⟨hpossible, hrest⟩
      obtain ⟨r, t, u, hhappen, hhappen', hu⟩ :=
        happen_simulates h hinterrupt hR hpossible
      obtain ⟨rs, t', u', hrun, hrun', hu'⟩ :=
        ih hu (hrest t (by rw [advanceTo, hhappen]; rfl))
      refine ⟨r ++ rs, t', u', ?_, ?_, hu'⟩
      · simp only [run, hhappen, hrun, Option.bind_eq_bind, Option.bind_some]
      · simp only [run, hhappen', hrun', Option.bind_eq_bind, Option.bind_some]

/-- Keys and calls of any processes in any order, from the boot of the console
on: they are all answered as over one `Tty`, and the screen shows the last rows
of its terminal. -/
theorem console_shared (video : Video) (buffer : Nat → UInt8)
    (isConsole : Nat → Bool) {others : NodeMethods δ} (hothers : others.Returns)
    (s : Kernel (Tty video.colors × δ)) (hs : s.world.1 = Tty.boot)
    (events : List Event)
    (hpossible : Meets (advanceTo (ttyMethods isConsole others) ttyInterrupt)
      Possible s events) :
    ∃ rs t console,
      s.run (ttyMethods isConsole others) ttyInterrupt events = some (rs, t) ∧
      (s.inWorld (Console.boot video buffer, s.world.2)).run
          (consoleMethods isConsole others) consoleInterrupt events =
        some (rs, t.inWorld (console, t.world.2)) ∧
      console.video.cursorX < 80 ∧ console.video.cursorY < 25 ∧
      ∀ y x, y < 25 → x < 80 → console.video.videomem (80 * y + x) =
        t.world.1.terminal.cell (t.world.1.terminal.row - 24 + y) x := by
  have hR : SameTty video.stored (Console.boot video buffer, s.world.2)
      s.world := ⟨hs ▸ .boot video buffer, rfl⟩
  obtain ⟨rs, t, ⟨console, other⟩, hrun, hrun', his, hsame⟩ :=
    run_simulates (consoleMethods_simulates isConsole hothers)
      (fun _ _ scancode hR => interrupt_simulates hR scancode) hR hpossible
  obtain rfl : other = t.world.2 := hsame
  exact ⟨rs, t, console, hrun, hrun', his.screen.cursorX, his.screen.cursorY,
    his.screen.window.cell⟩

/-- Two processes share a handle of the console. -/
def holdConsole : Kernel (Tty 0x0F00 × Unit) where
  vfs := Vfs.init
  world := (.boot, ())
  filehandles := fun _ => ⟨some 0, 0, 0, 0, 0⟩
  next := 1
  holders := fun _ => ⟨AList.singleton 0 0, 1⟩
  count := 2

/-- One of them echoes what the other has read. -/
def echoed : List Event :=
  [.interrupt 0x1E, .call (.readCall 0 0 (fun _ => 0) 80),
    .call (.writeCall 1 0 (fun _ => 97) 1)]

theorem echoed_shared :
    ∃ rs t console,
      holdConsole.run (ttyMethods (fun _ => true) idleNodes) ttyInterrupt
        echoed = some (rs, t) ∧
      (holdConsole.inWorld
          (Console.boot ⟨0, 0, 0x0F00, fun _ => 0, [], []⟩ fun _ => 0, ())).run
          (consoleMethods (fun _ => true) idleNodes) consoleInterrupt echoed =
        some (rs, t.inWorld (console, ())) ∧
      console.video.cursorX < 80 ∧ console.video.cursorY < 25 ∧
      ∀ y x, y < 25 → x < 80 → console.video.videomem (80 * y + x) =
        t.world.1.terminal.cell (t.world.1.terminal.row - 24 + y) x :=
  console_shared ⟨0, 0, 0x0F00, fun _ => 0, [], []⟩ _ _
    ⟨fun _ _ _ _ _ => rfl, fun _ _ _ _ _ => rfl⟩ holdConsole rfl echoed
    (by decide +kernel)

example : (holdConsole.run (ttyMethods (fun _ => true) idleNodes) ttyInterrupt
    echoed).map (fun (rs, t) => (rs.map fun r => r.buffer.map fun b => b 0,
      t.world.1.terminal.column)) = some ([some 97, none], 1) := by
  decide +kernel

end Kernel

end Iposix.Fs.FileCalls
