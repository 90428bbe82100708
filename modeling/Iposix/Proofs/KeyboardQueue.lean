import Iposix.Devices.Keyboard
import Iposix.Lib.Fifo
import Iposix.Lib.Run

/-!
# The keyboard buffer is a queue

Between any two steps the slots from `buffer_out_index` on hold what was
accepted and not read yet, and `buffer_in_index` is where they end. While the
reader has taken a slot and not wrapped its index, that index may be 128, which
is slot 0 again; both tests give the right answer for it, since the writer's
index is never 128.
-/

namespace Iposix.Devices.Keyboard

open Iposix.Lib

variable {s : System}

/-- A call that nothing interrupts is its three steps. -/
theorem read_getNextEvent (hidle : s.reader = .idle)
    (havail : s.keyboard.available = true) :
    s.read.read.read.keyboard = s.keyboard.getNextEvent.2 ∧
      s.read.read.read.delivered =
        s.delivered ++ [s.keyboard.getNextEvent.1] := by
  have hfound : s.read = { s with reader := .found } := by
    rw [System.read, hidle]
    exact if_pos havail
  rw [hfound, getNextEvent, if_pos havail]
  exact ⟨rfl, rfl⟩

/-- What the readers may rely on at any time. -/
structure Queue (s : System) : Prop where
  ordered : s.delivered <+: s.accepted
  refused : s.keyboard.full = true →
    s.accepted.length = s.readOut.length + (BUFFER_SIZE - 1)
  inside : ∀ i, i ∈ s.accessed → i < BUFFER_SIZE

/-- `unread` is what is still in the ring. -/
structure RingInv (s : System) (unread : List UInt8) : Prop where
  holds : Holds BUFFER_SIZE s.keyboard.buffer s.keyboard.bufferOutIndex unread
  accepted : s.accepted = s.readOut ++ unread
  writer : s.keyboard.bufferInIndex =
    (s.keyboard.bufferOutIndex + unread.length) % BUFFER_SIZE
  below : (∀ ret, s.reader ≠ .taken ret) →
    s.keyboard.bufferOutIndex < BUFFER_SIZE
  upto : s.keyboard.bufferOutIndex ≤ BUFFER_SIZE
  found : s.reader = .found → unread ≠ []
  inside : ∀ i, i ∈ s.accessed → i < BUFFER_SIZE

variable {unread : List UInt8}

theorem full_iff {k : Keyboard} {n : Nat} (hn : n < BUFFER_SIZE)
    (hout : k.bufferOutIndex ≤ BUFFER_SIZE)
    (hin : k.bufferInIndex = (k.bufferOutIndex + n) % BUFFER_SIZE) :
    k.full = true ↔ n = BUFFER_SIZE - 1 := by
  simp only [full, BUFFER_SIZE, Bool.or_eq_true, Bool.and_eq_true,
    beq_iff_eq] at *
  omega

theorem available_iff {k : Keyboard} {n : Nat} (hn : n < BUFFER_SIZE)
    (hout : k.bufferOutIndex < BUFFER_SIZE)
    (hin : k.bufferInIndex = (k.bufferOutIndex + n) % BUFFER_SIZE) :
    k.available = true ↔ n ≠ 0 := by
  simp only [available, BUFFER_SIZE, bne_iff_ne, ne_eq] at *
  omega

namespace RingInv

theorem queue (h : RingInv s unread) : Queue s := by
  refine ⟨?_, fun hfull => ?_, h.inside⟩
  · rw [h.accepted, System.readOut]
    split
    · rw [List.append_assoc]
      exact List.prefix_append _ _
    · exact List.prefix_append _ _
  · rw [h.accepted, List.length_append,
      (full_iff h.holds.room h.upto h.writer).1 hfull]

theorem boot (buffer : Nat → UInt8) : RingInv (System.boot buffer) [] :=
  ⟨.nil (by decide), rfl, rfl, fun _ => Nat.zero_lt_succ _, Nat.zero_le _, nofun,
    nofun⟩

theorem interrupt (h : RingInv s unread) (event : UInt8) :
    ∃ unread, RingInv (s.interrupt event) unread := by
  rw [System.interrupt, pushEvent]
  cases hfull : s.keyboard.full with
  | true => exact ⟨unread, h⟩
  | false =>
      have hroom : unread.length + 1 < BUFFER_SIZE := by
        have hiff := full_iff h.holds.room h.upto h.writer
        have hlt := h.holds.room
        rw [hfull] at hiff
        have hne : unread.length ≠ BUFFER_SIZE - 1 := fun heq =>
          Bool.false_ne_true (hiff.2 heq)
        omega
      have hslot := h.writer
      have hin : s.keyboard.bufferInIndex < BUFFER_SIZE :=
        hslot ▸ Nat.mod_lt _ (by decide)
      refine ⟨unread ++ [event], ?_, ?_, ?_, h.below, h.upto,
        fun _ => List.append_ne_nil_of_right_ne_nil _ (List.cons_ne_nil _ _),
        fun i hi => ?_⟩
      · show Holds _ (Function.update _ s.keyboard.bufferInIndex event) _ _
        rw [hslot]
        exact h.holds.push hroom
      · show s.accepted ++ [event] = s.readOut ++ (unread ++ [event])
        rw [h.accepted, List.append_assoc]
      · show (if s.keyboard.bufferInIndex + 1 ≥ BUFFER_SIZE then 0
          else s.keyboard.bufferInIndex + 1) = _
        rw [List.length_append, List.length_singleton]
        show _ = (s.keyboard.bufferOutIndex + (unread.length + 1)) % BUFFER_SIZE
        split
        all_goals
          simp only [BUFFER_SIZE] at *
          omega
      · rcases List.mem_cons.1 hi with rfl | hi
        · exact hin
        · exact h.inside i hi

theorem read (h : RingInv s unread) : ∃ unread, RingInv s.read unread := by
  rw [System.read]
  cases hreader : s.reader with
  | idle =>
      have hbelow := h.below fun ret => by rw [hreader]; nofun
      have hout : s.readOut = s.delivered := by rw [System.readOut, hreader]
      dsimp only
      split
      next havail =>
        have hne := (available_iff h.holds.room hbelow h.writer).1 havail
        refine ⟨unread, h.holds, ?_, h.writer, fun _ => hbelow, h.upto,
          fun _ hnil => hne (hnil ▸ rfl), h.inside⟩
        rw [h.accepted, hout]
        rfl
      next => exact ⟨unread, h⟩
  | found =>
      have hbelow := h.below fun ret => by rw [hreader]; nofun
      have hout : s.readOut = s.delivered := by rw [System.readOut, hreader]
      cases hunread : unread with
      | nil => exact absurd hunread (h.found hreader)
      | cons x rest =>
          subst hunread
          have hhead := h.holds.head
          have hwriter := h.writer
          rw [Nat.mod_eq_of_lt hbelow] at hhead
          rw [List.length_cons] at hwriter
          refine ⟨rest, h.holds.pop, ?_, ?_, fun hno => absurd rfl (hno _),
            hbelow, nofun, fun i hi => ?_⟩
          · show s.accepted = s.delivered ++ [s.keyboard.buffer _] ++ rest
            rw [h.accepted, hout, hhead, List.append_assoc]
            rfl
          · show s.keyboard.bufferInIndex =
              (s.keyboard.bufferOutIndex + 1 + rest.length) % BUFFER_SIZE
            rw [hwriter, Nat.add_right_comm, Nat.add_assoc]
          · rcases List.mem_cons.1 hi with rfl | hi
            · exact hbelow
            · exact h.inside i hi
  | taken ret =>
      have hout : s.readOut = s.delivered ++ [ret] := by
        rw [System.readOut, hreader]
      have hupto := h.upto
      have haccepted : s.accepted = s.delivered ++ [ret] ++ unread := by
        rw [h.accepted, hout]
      dsimp only [wrap]
      split
      next hge =>
        have heq : s.keyboard.bufferOutIndex = BUFFER_SIZE :=
          Nat.le_antisymm hupto hge
        have hwriter := h.writer
        have hholds := h.holds
        have hmod : 0 % BUFFER_SIZE = BUFFER_SIZE % BUFFER_SIZE := by decide
        rw [heq] at hholds hwriter
        refine ⟨unread, hholds.congr hmod, haccepted, ?_,
          fun _ => Nat.zero_lt_succ _, Nat.zero_le _, nofun, h.inside⟩
        rw [Nat.add_mod_left] at hwriter
        show s.keyboard.bufferInIndex = (0 + unread.length) % BUFFER_SIZE
        rw [hwriter, Nat.zero_add]
      next hlt =>
        exact ⟨unread, h.holds, haccepted, h.writer,
          fun _ => Nat.lt_of_not_ge hlt, hupto, nofun, h.inside⟩

end RingInv

/-- Whenever interrupts come, the ring is a queue. -/
theorem interleaved_queue (buffer : Nat → UInt8) (actions : List Action) :
    Along System.step Queue (System.boot buffer) actions := by
  refine along_of_invariant (I := fun s => ∃ unread, RingInv s unread)
    (V := fun _ _ => True) (fun _ ⟨_, h⟩ => h.queue) (fun s action ⟨_, h⟩ _ => ?_)
    ⟨[], RingInv.boot buffer⟩ ?_
  · cases action with
    | interrupt event => exact ⟨_, rfl, h.interrupt event⟩
    | read => exact ⟨_, rfl, h.read⟩
  · suffices hall : ∀ (s : System) (l : List Action),
        Meets System.step (fun _ _ => True) s l from hall _ _
    intro s l
    induction l generalizing s with
    | nil => trivial
    | cons action l ih => exact ⟨trivial, fun t _ => ih t⟩

end Iposix.Devices.Keyboard
