import Iposix.Devices.KeyboardDecoder
import Iposix.Lib.Bits
import Mathlib.Data.List.Induction

/-!
# How long an escape lasts

`escaped` says that an escaped scancode will follow. Make codes take it back,
whether they are of a character or of a modifier, and so do the break codes of
the modifiers. Every other break code leaves it as it was: the branch for
characters only looks at make codes, and the one for the second part of caps
lock does nothing. So the flag is right after each scancode as long as none of
these follows an escape, and the release of an extended key other than a
modifier leaves an escape behind for the next plain key.
-/

namespace Iposix.Devices.Keyboard.Decoder

open Iposix.Lib

variable {d : Decoder} {c k : UInt8}

/-- The break codes that take `escaped` back. -/
def releases : List UInt8 :=
  [LEFT_SHIFT_RELEASED, RIGHT_SHIFT_RELEASED, LEFT_CTRL_RELEASED, ALT_RELEASED]

/-- A scancode that leaves `escaped` as it is. -/
def Passes (c : UInt8) : Prop :=
  c &&& BREAK_BIT ≠ 0 ∧ c ≠ ESCAPE ∧ c ∉ releases

instance (c : UInt8) : Decidable (Passes c) :=
  inferInstanceAs (Decidable (_ ∧ _ ∧ _))

/-- A scancode decides about `escaped` without looking at the other flags. -/
theorem decode_escaped (d : Decoder) (c : UInt8) :
    (d.decode c).2.escaped =
      if c = ESCAPE then true else if Passes c then d.escaped else false := by
  have htable : ∀ e : Bool, (({ escaped := e } : Decoder).decode c).2.escaped =
      if c = ESCAPE then true else if Passes c then e else false :=
    forall_byte c (by decide +kernel)
  have hflag : (d.decode c).2.escaped =
      (({ escaped := d.escaped } : Decoder).decode c).2.escaped := by
    simp only [decode, character, capsLock, apply_ite Prod.snd,
      apply_ite Decoder.escaped, ite_self]
  rw [hflag, htable]

/-! ## Sequences of scancodes -/

/-- The flags after the scancodes. -/
def decodeAll (d : Decoder) (codes : List UInt8) : Decoder :=
  codes.foldl (fun d c => (d.decode c).2) d

theorem decodeAll_snoc (d : Decoder) (pre : List UInt8) (c : UInt8) :
    d.decodeAll (pre ++ [c]) = ((d.decodeAll pre).decode c).2 := by
  rw [decodeAll, List.foldl_append]
  rfl

/-- After the scancodes an escaped one is to follow. -/
def Pending (d : Decoder) (codes : List UInt8) : Prop :=
  codes.getLast?.elim (d.escaped = true) fun c => c = ESCAPE

theorem pending_snoc (d : Decoder) (pre : List UInt8) (c : UInt8) :
    d.Pending (pre ++ [c]) ↔ c = ESCAPE := by
  rw [Pending, List.getLast?_concat]
  rfl

/-- After each of the scancodes the flag says what it should. -/
def Follows (d : Decoder) (codes : List UInt8) : Prop :=
  ∀ pre c, pre ++ [c] <+: codes →
    ((d.decodeAll (pre ++ [c])).escaped = true ↔ c = ESCAPE)

/-- No scancode that leaves the flag alone comes where an escaped one should. -/
def Consumed (d : Decoder) (codes : List UInt8) : Prop :=
  ∀ pre c, pre ++ [c] <+: codes → d.Pending pre → ¬ Passes c

theorem Follows.escaped {codes pre : List UInt8} (h : d.Follows codes)
    (hpre : pre <+: codes) (hpending : d.Pending pre) :
    (d.decodeAll pre).escaped = true := by
  cases hlast : pre using List.reverseRecOn with
  | nil =>
      rw [hlast] at hpending
      exact hpending
  | append_singleton l c =>
      rw [hlast] at hpre hpending
      exact (h l c hpre).2 ((pending_snoc d l c).1 hpending)

theorem escaped_step (pre : List UInt8)
    (h : (d.decodeAll pre).escaped = true → ¬ Passes c) :
    (d.decodeAll (pre ++ [c])).escaped = true ↔ c = ESCAPE := by
  rw [decodeAll_snoc, decode_escaped]
  by_cases hc : c = ESCAPE
  · simp [hc]
  · by_cases hpass : Passes c
    · have hnot : (d.decodeAll pre).escaped = false :=
        Bool.eq_false_iff.2 fun hset => h hset hpass
      simp [hc, hpass, hnot]
    · simp [hc, hpass]

/-- The flag follows the escapes exactly when each of them is consumed by the
scancode behind it. -/
theorem follows_iff (d : Decoder) (codes : List UInt8) :
    d.Follows codes ↔ d.Consumed codes := by
  constructor
  · intro h pre c hpre hpending hpass
    have hset := h.escaped ((List.prefix_append pre [c]).trans hpre) hpending
    have hkept : (d.decodeAll (pre ++ [c])).escaped = true := by
      rw [decodeAll_snoc, decode_escaped, if_neg hpass.2.1, if_pos hpass, hset]
    exact hpass.2.1 ((h pre c hpre).1 hkept)
  · intro h
    have hpending : ∀ pre, pre <+: codes →
        (d.decodeAll pre).escaped = true → d.Pending pre := by
      intro pre
      induction pre using List.reverseRecOn with
      | nil => exact fun _ hset => hset
      | append_singleton l c ih =>
          intro hpre hset
          have hl := (List.prefix_append l [c]).trans hpre
          exact (pending_snoc d l c).2
            ((escaped_step l fun hset => h l c hpre (ih hl hset)).1 hset)
    intro pre c hpre
    exact escaped_step pre fun hset => h pre c hpre
      (hpending pre ((List.prefix_append pre [c]).trans hpre) hset)

/-! ## Plain keys -/

/-- The scancode of a key that types a character by itself. -/
def Plain (c : UInt8) : Prop :=
  c &&& BREAK_BIT = 0 ∧
    c ∉ [CAPS_LOCK_PART1, LEFT_SHIFT_PRESSED, RIGHT_SHIFT_PRESSED,
      LEFT_CTRL_PRESSED, ALT_PRESSED]

instance (c : UInt8) : Decidable (Plain c) :=
  inferInstanceAs (Decidable (_ ∧ _))

/-- The column of the table of keys that the modifiers choose. -/
inductive Column where
  | normal
  | shift
  | altGr
  deriving DecidableEq

def column (d : Decoder) : Column :=
  if d.altGrState then .altGr
  else if d.leftShiftState || d.rightShiftState || d.capsLockState then .shift
  else .normal

def Column.pick : Column → Key → Char
  | .normal, key => key.normal
  | .shift, key => key.shift
  | .altGr, key => key.altGr

theorem decode_plain (h : Plain c) :
    (d.decode c).1 =
      if d.escaped then (keyboardGerman c.toNat).escaped
      else d.column.pick (keyboardGerman c.toNat) := by
  have hmake : ∀ {e : UInt8}, e &&& BREAK_BIT ≠ 0 → c ≠ e := by
    intro e he heq
    exact he (heq ▸ h.1)
  have hplain := h.2
  simp only [List.mem_cons, List.not_mem_nil, or_false, not_or] at hplain
  obtain ⟨h₁, h₂, h₃, h₄, h₅⟩ := hplain
  have htable : c &&& BREAK_BIT = 0 → ¬ c > 128 :=
    forall_byte c (by decide +kernel)
  have hsmall := htable h.1
  rw [decode, if_neg (hmake (by decide)), if_neg h₁, if_neg h₂,
    if_neg (hmake (by decide)), if_neg h₃, if_neg (hmake (by decide)),
    if_neg h₄, if_neg (hmake (by decide)), if_neg h₅,
    if_neg (hmake (by decide)), if_neg (hmake (by decide)), character,
    if_neg (fun hne => hne h.1), if_neg hsmall, column]
  split
  · rfl
  · split
    · rfl
    · split <;> rfl

/-- The q has a character of its own in each column, and none as an extended
key. -/
theorem decode_q (d : Decoder) :
    (d.escaped = false →
      (d.decode 0x10).1 = d.column.pick ⟨'q', 'Q', '@', nul⟩) ∧
    (d.escaped = true → (d.decode 0x10).1 = nul) := by
  have hq := decode_plain (d := d) (c := 0x10) (by decide)
  constructor
  · intro hd
    rw [hd, if_neg Bool.false_ne_true] at hq
    exact hq
  · intro hd
    rw [hd, if_pos rfl] at hq
    exact hq

/-- The break code of a key. -/
def released (k : UInt8) : UInt8 := k ||| BREAK_BIT

/-- An extended key, pressed and released. -/
def stroke (k : UInt8) : List UInt8 := [ESCAPE, k, ESCAPE, released k]

/-- The flags without the modifier that the break code belongs to. -/
def letGo (d : Decoder) (c : UInt8) : Decoder :=
  if c = LEFT_SHIFT_RELEASED then { d with leftShiftState := false }
  else if c = RIGHT_SHIFT_RELEASED then { d with rightShiftState := false }
  else if c = LEFT_CTRL_RELEASED then { d with leftCtrlState := false }
  else if c = ALT_RELEASED then { d with altGrState := false }
  else d

/-- An extended modifier is let go, and nothing else is left of it. -/
theorem decodeAll_stroke_modifier (hd : d.escaped = false)
    (hk : released k ∈ releases) (hmake : k &&& BREAK_BIT = 0) :
    d.decodeAll (stroke k) = d.letGo (released k) := by
  have htable : k &&& BREAK_BIT = 0 → released k ∈ releases →
      k ∈ [LEFT_SHIFT_PRESSED, RIGHT_SHIFT_PRESSED, LEFT_CTRL_PRESSED,
        ALT_PRESSED] := forall_byte k (by decide +kernel)
  obtain ⟨ls, rs, caps, ignore, lc, rc, alt, altGr, esc⟩ := d
  obtain rfl : esc = false := hd
  have hmem := htable hmake hk
  simp only [List.mem_cons, List.not_mem_nil, or_false] at hmem
  obtain rfl | rfl | rfl | rfl := hmem <;> rfl

/-- Every other one leaves an escape behind. -/
theorem decodeAll_stroke_escaped (hk : released k ∉ releases) :
    (d.decodeAll (stroke k)).escaped = true := by
  have hbreak : released k &&& BREAK_BIT ≠ 0 := forall_byte k (by decide +kernel)
  have hsplit : stroke k = [ESCAPE, k, ESCAPE] ++ [released k] := rfl
  have hagain : (d.decodeAll [ESCAPE, k, ESCAPE]).escaped = true := by
    have hlast : [ESCAPE, k, ESCAPE] = [ESCAPE, k] ++ [ESCAPE] := rfl
    rw [hlast, decodeAll_snoc, decode_escaped, if_pos rfl]
  rw [hsplit, decodeAll_snoc, decode_escaped]
  by_cases hesc : released k = ESCAPE
  · rw [if_pos hesc]
  · rw [if_neg hesc, if_pos ⟨hbreak, hesc, hk⟩, hagain]

/-- Plain keys type the same before and after an extended key exactly if it is a
modifier that did not matter when it was let go. -/
theorem stroke_plain_iff (hd : d.escaped = false) (hmake : k &&& BREAK_BIT = 0) :
    (∀ c, Plain c →
      ((d.decodeAll (stroke k)).decode c).1 = (d.decode c).1) ↔
      released k ∈ releases ∧ (d.letGo (released k)).column = d.column := by
  constructor
  · intro h
    have hq := h 0x10 (by decide)
    rw [(decode_q d).1 hd] at hq
    by_cases hk : released k ∈ releases
    · refine ⟨hk, ?_⟩
      have hlet := decodeAll_stroke_modifier hd hk hmake
      have hesc : (d.decodeAll (stroke k)).escaped = false := by
        rw [hlet]
        simp only [letGo, apply_ite Decoder.escaped, hd, ite_self]
      rw [(decode_q _).1 hesc, hlet] at hq
      revert hq
      generalize (d.letGo (released k)).column = a
      generalize d.column = b
      cases a <;> cases b <;> decide
    · rw [(decode_q _).2 (decodeAll_stroke_escaped hk)] at hq
      refine absurd hq ?_
      generalize d.column = b
      cases b <;> decide
  · intro ⟨hk, hcolumn⟩ c hc
    have hlet := decodeAll_stroke_modifier hd hk hmake
    have hesc : (d.letGo (released k)).escaped = d.escaped := by
      simp only [letGo, apply_ite Decoder.escaped, ite_self]
    rw [hlet, decode_plain hc, decode_plain hc, hesc, hcolumn]

/-- What becomes of the flag, and of the plain keys behind an extended one. -/
theorem escape_lasts_iff (d : Decoder) (codes : List UInt8) :
    (d.Follows codes ↔ d.Consumed codes) ∧
      ∀ k, k &&& BREAK_BIT = 0 → d.escaped = false →
        ((∀ c, Plain c →
          ((d.decodeAll (stroke k)).decode c).1 = (d.decode c).1) ↔
          released k ∈ releases ∧ (d.letGo (released k)).column = d.column) :=
  ⟨follows_iff d codes, fun _ hmake hd => stroke_plain_iff hd hmake⟩

/-- The right ctrl leaves nothing behind. -/
theorem escape_lasts_ctrl :
    ((({} : Decoder).decodeAll (stroke 0x1D)).decode 0x10).1 = 'q' :=
  ((escape_lasts_iff {} []).2 0x1D (by decide) rfl).2 (by decide) 0x10
    (by decide)

/-- The gray slash and then the q: the escape of the release is still there. -/
theorem escape_lasts_slash :
    (({} : Decoder).decodeAll (stroke 0x35)).escaped = true ∧
      ¬ ({} : Decoder).Follows (stroke 0x35) ∧
      (({} : Decoder).decode 0x10).1 = 'q' ∧
      ((({} : Decoder).decodeAll (stroke 0x35)).decode 0x10).1 = nul := by
  refine ⟨by decide +kernel, fun h => ?_, by decide +kernel, by decide +kernel⟩
  have hlast := (h [ESCAPE, 0x35, ESCAPE] 0xB5 (List.prefix_refl _)).1
    (by decide +kernel)
  exact absurd hlast (by decide)

end Iposix.Devices.Keyboard.Decoder
