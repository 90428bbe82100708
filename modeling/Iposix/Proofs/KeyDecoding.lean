import Iposix.Devices.KeyboardDecoder
import Iposix.Proofs.KeyboardQueue

/-!
# Polling and the keys typed

What `get_next_key` has typed and its flags should follow from the scancodes
alone. They do as long as no call on an empty buffer is made while `escaped` is
set: the zero such a call decodes has no character of its own in any column, so
a call of that kind leaves everything as it is, unless the zero is taken for the
second half of an escaped key. Then the flag is gone when that half comes.

The ring delivers the scancodes in order however the calls fall, so that what
was typed is the decoding of what was delivered, and at the end of everything.
-/

namespace Iposix.Devices.Keyboard.Typing

open Iposix.Lib

variable {t t' : Typing} {actions : List Action}

/-! ## One scancode -/

/-- `press` on what it changes. -/
def enter (p : List Char × Decoder) (scancode : UInt8) : List Char × Decoder :=
  let (ret, decoder) := p.2.decode scancode
  (if ret = nul then p.1 else p.1 ++ [ret], decoder)

theorem character_zero {d : Decoder} (h : d.escaped = false) :
    d.character 0 = (nul, d) := by
  rw [Decoder.character, if_neg (by decide), if_neg (by decide), h,
    if_neg Bool.false_ne_true]
  split
  · rfl
  · split <;> rfl

theorem decode_zero (d : Decoder) : d.decode 0 = d.character 0 := by
  simp only [Decoder.decode, CAPS_LOCK_PART2, CAPS_LOCK_PART1,
    LEFT_SHIFT_PRESSED, LEFT_SHIFT_RELEASED, RIGHT_SHIFT_PRESSED,
    RIGHT_SHIFT_RELEASED, LEFT_CTRL_PRESSED, LEFT_CTRL_RELEASED, ALT_PRESSED,
    ALT_RELEASED, ESCAPE]
  rfl

/-- A call on an empty buffer goes unnoticed exactly when no escaped key is
half way in. -/
theorem press_zero_iff : t.press 0 = t ↔ t.decoder.escaped = false := by
  constructor
  · intro h
    rw [← congrArg (fun u => u.decoder.escaped) h]
    cases hesc : t.decoder.escaped with
    | true =>
        show (t.decoder.decode 0).2.escaped = false
        rw [decode_zero, Decoder.character, if_neg (by decide),
          if_neg (by decide), if_pos hesc]
    | false =>
        show (t.decoder.decode 0).2.escaped = false
        rw [decode_zero, character_zero hesc]
        exact hesc
  · intro h
    rw [press, decode_zero, character_zero h]
    rfl

/-- A call that nothing interrupts is its three steps. -/
theorem read_getNextKey (hidle : t.system.reader = .idle)
    (havail : t.system.keyboard.available = true) :
    ∃ t', [.read, .read, .read].foldlM step t = some t' ∧
      (t'.system.keyboard, t'.decoder) =
        (getNextKey t.system.keyboard t.decoder).2 := by
  obtain ⟨⟨k, reader, accepted, delivered, accessed⟩, d, typed⟩ := t
  dsimp only at hidle havail
  subst hidle
  simp only [List.foldlM_cons, step, answer, havail, if_true, System.read,
    getNextKey, getNextEvent]
  exact ⟨_, rfl, rfl⟩

/-! ## Runs -/

/-- The scancodes that come in. -/
def scancodes : List Action → List UInt8
  | [] => []
  | .interrupt event :: l => event :: scancodes l
  | .read :: l => scancodes l

/-- No scancode comes while 127 are still to be read. -/
def Room (t : Typing) : Action → Prop
  | .interrupt _ =>
      t.system.accepted.length < t.system.readOut.length + (BUFFER_SIZE - 1)
  | .read => True

/-- No call is made on an empty buffer while `escaped` is set. -/
def Quiet (t : Typing) : Action → Prop
  | .interrupt _ => True
  | .read => t.system.reader = .idle → t.system.keyboard.available = false →
      t.decoder.escaped = false

instance (t : Typing) : (a : Action) → Decidable (Room t a)
  | .interrupt _ => inferInstanceAs (Decidable (_ < _))
  | .read => inferInstanceAs (Decidable True)

instance (t : Typing) : (a : Action) → Decidable (Quiet t a)
  | .interrupt _ => inferInstanceAs (Decidable True)
  | .read => inferInstanceAs (Decidable (_ → _ → _))

/-- A schedule of interrupts and calls that takes in these scancodes and reads
them all. -/
structure Consumes (codes : List UInt8) (buffer : Nat → UInt8)
    (actions : List Action) (t : Typing) : Prop where
  run : actions.foldlM step (boot buffer) = some t
  room : Meets step Room (boot buffer) actions
  incoming : scancodes actions = codes
  consumed : t.system.delivered.length = codes.length

theorem step_system (t : Typing) (a : Action) :
    ∃ t', step t a = some t' ∧ t.system.step a = some t'.system := by
  cases a with
  | interrupt event => exact ⟨_, rfl, rfl⟩
  | read =>
      rw [step]
      cases answer t.system with
      | none => exact ⟨_, rfl, rfl⟩
      | some scancode => exact ⟨_, rfl, rfl⟩

/-- The ring is one, and the keys typed are those of what it delivered. -/
structure Decoded (t : Typing) : Prop where
  ring : ∃ unread, RingInv t.system unread
  typed : (t.typed, t.decoder) = t.system.delivered.foldl enter ([], {})

theorem boot_decoded (buffer : Nat → UInt8) : Decoded (boot buffer) :=
  ⟨⟨[], RingInv.boot buffer⟩, rfl⟩

theorem step_ring (h : ∃ unread, RingInv t.system unread) {a : Action}
    (ht : step t a = some t') : ∃ unread, RingInv t'.system unread := by
  obtain ⟨unread, hring⟩ := h
  obtain ⟨u, hu, hsystem⟩ := step_system t a
  rw [ht] at hu
  cases hu
  cases a with
  | interrupt event =>
      rw [← Option.some.inj hsystem]
      exact hring.interrupt event
  | read =>
      rw [← Option.some.inj hsystem]
      exact hring.read

theorem step_decoded (h : Decoded t) {a : Action} (hquiet : Quiet t a) :
    ∃ t', step t a = some t' ∧ Decoded t' := by
  cases a with
  | interrupt event =>
      refine ⟨_, rfl, step_ring h.ring (a := .interrupt event) rfl, ?_⟩
      show (t.typed, t.decoder) =
        (t.system.interrupt event).delivered.foldl enter ([], {})
      rw [h.typed, System.interrupt]
      split <;> rfl
  | read =>
      obtain ⟨t', ht', -⟩ := step_system t .read
      refine ⟨t', ht', step_ring h.ring ht', ?_⟩
      rw [step] at ht'
      cases hreader : t.system.reader with
      | idle =>
          cases havail : t.system.keyboard.available with
          | true =>
              have hanswer : answer t.system = none := by
                rw [answer, hreader]
                exact if_pos havail
              rw [hanswer, System.read, hreader] at ht'
              dsimp only at ht'
              rw [if_pos havail] at ht'
              cases ht'
              exact h.typed
          | false =>
              have hno : ¬ t.system.keyboard.available = true :=
                havail ▸ Bool.false_ne_true
              have hanswer : answer t.system = some 0 := by
                rw [answer, hreader]
                exact if_neg hno
              rw [hanswer, System.read, hreader] at ht'
              dsimp only at ht'
              rw [if_neg hno] at ht'
              cases ht'
              have hpress : t.press 0 = t :=
                press_zero_iff.2 (hquiet hreader havail)
              show ((t.press 0).typed, (t.press 0).decoder) =
                (t.press 0).system.delivered.foldl enter ([], {})
              rw [hpress]
              exact h.typed
      | found =>
          rw [answer, hreader, System.read, hreader] at ht'
          cases ht'
          exact h.typed
      | taken ret =>
          rw [answer, hreader, System.read, hreader] at ht'
          cases ht'
          show enter (t.typed, t.decoder) ret =
            (t.system.delivered ++ [ret]).foldl enter ([], {})
          rw [List.foldl_append, ← h.typed]
          rfl

/-- Whenever the calls are made, what is typed is the decoding of what was
delivered. -/
theorem run_decoded {buffer : Nat → UInt8}
    (hquiet : Meets step Quiet (boot buffer) actions)
    (hrun : actions.foldlM step (boot buffer) = some t) : Decoded t :=
  (along_of_invariant (P := Decoded) (fun _ h => h)
    (fun _ _ h hq => step_decoded h hq) (boot_decoded buffer) hquiet).last hrun

/-! ## Two schedules -/

theorem interrupt_accepted {s : System} (hring : ∃ unread, RingInv s unread)
    (hroom : s.accepted.length < s.readOut.length + (BUFFER_SIZE - 1))
    (event : UInt8) : (s.interrupt event).accepted = s.accepted ++ [event] := by
  obtain ⟨unread, hring⟩ := hring
  have hlength := congrArg List.length hring.accepted
  rw [List.length_append] at hlength
  have hfull : ¬ s.keyboard.full = true := fun h => by
    have := (full_iff hring.holds.room hring.upto hring.writer).1 h
    omega
  rw [System.interrupt, if_neg hfull]

theorem read_accepted (s : System) : s.read.accepted = s.accepted := by
  rw [System.read]
  cases s.reader with
  | idle => dsimp only; split <;> rfl
  | found => rfl
  | taken ret => rfl

/-- While there is room nothing is refused. -/
theorem run_accepted (hring : ∃ unread, RingInv t.system unread)
    (hroom : Meets step Room t actions)
    (hrun : actions.foldlM step t = some t') :
    (∃ unread, RingInv t'.system unread) ∧
      t'.system.accepted = t.system.accepted ++ scancodes actions := by
  induction actions generalizing t with
  | nil =>
      cases hrun
      exact ⟨hring, (List.append_nil _).symm⟩
  | cons a l ih =>
      obtain ⟨u, hu, hsystem⟩ := step_system t a
      rw [List.foldlM_cons, hu] at hrun
      obtain ⟨hring', haccepted⟩ := ih (step_ring hring hu) (hroom.2 u hu) hrun
      refine ⟨hring', ?_⟩
      rw [haccepted]
      cases a with
      | interrupt event =>
          rw [← Option.some.inj hsystem,
            interrupt_accepted hring hroom.1, List.append_assoc]
          rfl
      | read =>
          rw [← Option.some.inj hsystem, read_accepted]
          rfl

theorem Consumes.delivered {codes : List UInt8} {buffer : Nat → UInt8}
    (h : Consumes codes buffer actions t) : t.system.delivered = codes := by
  obtain ⟨⟨unread, hring⟩, haccepted⟩ :=
    run_accepted ⟨[], RingInv.boot buffer⟩ h.room h.run
  have hall : t.system.accepted = codes := haccepted.trans h.incoming
  have hprefix := hring.queue.ordered
  rw [hall] at hprefix
  exact hprefix.eq_of_length h.consumed

/-- The same scancodes type the same keys and leave the same flags, whatever the
schedule. -/
theorem decoding_schedule_independent {codes : List UInt8}
    {buffer₁ buffer₂ : Nat → UInt8} {actions₁ actions₂ : List Action}
    {t₁ t₂ : Typing} (h₁ : Consumes codes buffer₁ actions₁ t₁)
    (h₂ : Consumes codes buffer₂ actions₂ t₂)
    (hquiet₁ : Meets step Quiet (boot buffer₁) actions₁)
    (hquiet₂ : Meets step Quiet (boot buffer₂) actions₂) :
    t₁.typed = t₂.typed ∧ t₁.decoder = t₂.decoder := by
  have hfirst := (run_decoded hquiet₁ h₁.run).typed
  have hsecond := (run_decoded hquiet₂ h₂.run).typed
  rw [h₁.delivered] at hfirst
  rw [h₂.delivered, ← hfirst] at hsecond
  exact ⟨(congrArg Prod.fst hsecond).symm, (congrArg Prod.snd hsecond).symm⟩

/-- A scancode and the call that reads it, step by step. -/
def keystroke (scancode : UInt8) : List Action :=
  [.interrupt scancode, .read, .read, .read]

theorem shifted_schedule_independent :
    ∃ t₁ t₂ : Typing,
      Consumes [0x2A, 0x1E] (fun _ => 0) (keystroke 0x2A ++ keystroke 0x1E) t₁ ∧
      Consumes [0x2A, 0x1E] (fun _ => 0)
        ([.read, .interrupt 0x2A, .interrupt 0x1E] ++ List.replicate 7 .read)
        t₂ ∧
      t₁.typed = t₂.typed ∧ t₁.decoder = t₂.decoder := by
  have h₁ : Consumes [0x2A, 0x1E] (fun _ => 0)
      (keystroke 0x2A ++ keystroke 0x1E) _ :=
    ⟨rfl, by decide +kernel, rfl, rfl⟩
  have h₂ : Consumes [0x2A, 0x1E] (fun _ => 0)
      ([.read, .interrupt 0x2A, .interrupt 0x1E] ++ List.replicate 7 .read) _ :=
    ⟨rfl, by decide +kernel, rfl, rfl⟩
  exact ⟨_, _, h₁, h₂, decoding_schedule_independent h₁ h₂
    (by decide +kernel) (by decide +kernel)⟩

/-- The gray slash is an escaped minus: a call on the empty buffer between its
two scancodes makes it a minus. -/
theorem polled_slash_dependent :
    ∃ t₁ t₂ : Typing,
      Consumes [0xE0, 0x35] (fun _ => 0) (keystroke 0xE0 ++ keystroke 0x35) t₁ ∧
      Consumes [0xE0, 0x35] (fun _ => 0)
        (keystroke 0xE0 ++ .read :: keystroke 0x35) t₂ ∧
      t₁.typed = ['/'] ∧ t₂.typed = ['-'] :=
  ⟨_, _, ⟨rfl, by decide +kernel, rfl, rfl⟩, ⟨rfl, by decide +kernel, rfl, rfl⟩,
    by decide +kernel, by decide +kernel⟩

end Iposix.Devices.Keyboard.Typing
