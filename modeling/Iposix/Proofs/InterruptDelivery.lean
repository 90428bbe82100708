import Iposix.Core.InterruptDescriptorTable
import Iposix.Lib.Run

/-!
# Interrupts reach their handlers

A line that a device raises goes through the controllers, the gate of its
interrupt number, the routine that the gate leads to and the table of handlers.
After `init_idt`, and whatever drivers have asked for since, it ends at the
handler that was registered last, and the controllers are ready for the next
one. An interrupt that nothing was set up for ends at the handler of line 0.

`Wanted` is what the drivers have asked for: a handler and a mask for each line.
`Ready` says that the table carries it out.
-/

namespace Iposix.Core

open Iposix.Lib

universe u

variable {Handler : Type u} {idt : InterruptDescriptorTable Handler}
  {address : Stub → Nat} {code : Nat → Option Stub}

/-! ## From a line to a handler -/

namespace Stub

/-- The routines that there are. -/
def Present : Stub → Prop
  | .isr n => n < 32 ∨ n = 128
  | .irq n => n < 16
  | .uninitilized => True

instance : (s : Stub) → Decidable s.Present
  | .isr _ => inferInstanceAs (Decidable (_ ∨ _))
  | .irq _ => inferInstanceAs (Decidable (_ < _))
  | .uninitilized => inferInstanceAs (Decidable True)

end Stub

/-- The linker has put the routines where `address` says, and this is what is
executed there. -/
structure Linked (address : Stub → Nat) (code : Nat → Option Stub) : Prop where
  small : ∀ s, s.Present → address s < 4294967296
  code : ∀ s, s.Present → code (address s) = some s

namespace InterruptDescriptorTable

/-- The processor takes interrupt `vector`: the routine behind the gate runs. -/
def take (code : Nat → Option Stub) (idt : InterruptDescriptorTable Handler)
    (vector : Nat) :
    Option (Option (Routine Handler) × InterruptDescriptorTable Handler) :=
  let gate := Gate.ofFlat (idt.table vector).flat
  if gate.present then
    (code gate.offset).map fun stub =>
      idt.dispatchInterrupt (i32 stub.irqWord) (i32 stub.isrWord)
  else none

/-- A device raises `line`. -/
def deliver (code : Nat → Option Stub) (idt : InterruptDescriptorTable Handler)
    (line : Nat) :
    Option (Option (Routine Handler) × InterruptDescriptorTable Handler) :=
  (idt.pic.raise line).bind fun (vector, pic) =>
    { idt with pic := pic }.take code vector

/-- A program executes `int vector` in privilege level `cpl`. -/
def interruptFrom (code : Nat → Option Stub) (cpl : Nat)
    (idt : InterruptDescriptorTable Handler) (vector : Nat) :
    Option (Option (Routine Handler) × InterruptDescriptorTable Handler) :=
  if cpl ≤ (Gate.ofFlat (idt.table vector).flat).dpl then idt.take code vector
  else none

/-! ## Gates -/

/-- What is read of a gate is what was put into it. -/
theorem ofFlat_new {offset : Nat} (h : offset < 4294967296)
    (type : DescriptorType) (lvl : PrivilegeLevel) :
    Gate.ofFlat (GateDescriptor.new offset type true lvl).flat =
      { offset := offset
        selector := 8
        type := (GateDescriptor.new offset type true lvl).type
        dpl := lvl.number
        present := true } := by
  have htype : (GateDescriptor.new offset type true lvl).type < 32 := by
    cases type
    · exact (by decide : GateDescriptor.INTERRUPT_GATE_DESCRIPTOR_CODE < 32)
    · exact (by decide : GateDescriptor.TRAP_GATE_DESCRIPTOR_CODE < 32)
  have hlvl : lvl.number < 4 := by
    cases lvl <;> decide
  rw [show (GateDescriptor.new offset type true lvl).flat = offset % 65536 +
    65536 * (8 + 65536 * (0 + 256 * ((GateDescriptor.new offset type true
      lvl).type + 32 * (lvl.number + 4 * (1 + 2 * (offset / 65536 %
        65536)))))) from rfl]
  generalize (GateDescriptor.new offset type true lvl).type = t at htype ⊢
  generalize lvl.number = d at hlvl ⊢
  have hlow : offset % 65536 < 65536 := Nat.mod_lt _ (by decide)
  have hhigh : offset / 65536 % 65536 < 65536 := Nat.mod_lt _ (by decide)
  have hoffset : offset % 65536 + 65536 * (offset / 65536 % 65536) = offset := by
    omega
  generalize offset % 65536 = low at hlow hoffset ⊢
  generalize offset / 65536 % 65536 = high at hhigh hoffset ⊢
  generalize hn : low + 65536 * (8 + 65536 * (0 + 256 * (t + 32 * (d + 4 * (1 +
    2 * high))))) = n
  -- one field after the other is cut off
  have h₁ : n / 65536 = 8 + 65536 * (256 * (t + 32 * (d + 4 * (1 +
    2 * high)))) := by omega
  have h₂ : n / 1099511627776 = t + 32 * (d + 4 * (1 + 2 * high)) := by
    rw [show 1099511627776 = 65536 * 16777216 from rfl,
      ← Nat.div_div_eq_div_mul, h₁]
    omega
  have h₃ : n / 35184372088832 = d + 4 * (1 + 2 * high) := by
    rw [show 35184372088832 = 1099511627776 * 32 from rfl,
      ← Nat.div_div_eq_div_mul, h₂]
    omega
  have h₄ : n / 140737488355328 = 1 + 2 * high := by
    rw [show 140737488355328 = 35184372088832 * 4 from rfl,
      ← Nat.div_div_eq_div_mul, h₃]
    omega
  have h₅ : n / 281474976710656 = high := by
    rw [show 281474976710656 = 140737488355328 * 2 from rfl,
      ← Nat.div_div_eq_div_mul, h₄]
    omega
  simp only [Gate.ofFlat, Gate.mk.injEq, decide_eq_true_eq, h₁, h₂, h₃, h₄, h₅]
  omega

/-- The routine and the privilege level of each interrupt. -/
def stubOf (vector : Nat) : Stub :=
  if vector < 32 then .isr vector
  else if vector < 48 then .irq (vector - 32)
  else if vector = 128 then .isr 128
  else .uninitilized

def levelOf (vector : Nat) : PrivilegeLevel :=
  if 32 ≤ vector ∧ vector < 48 then .system else .user

def typeOf (vector : Nat) : DescriptorType :=
  if vector < 3 then .trapGateDescriptor
  else if vector < 6 then .interruptGateDescriptor
  else if vector < 32 then .trapGateDescriptor
  else if vector < 48 then .interruptGateDescriptor
  else if vector = 128 then .interruptGateDescriptor
  else .trapGateDescriptor

/-- The gate that `init_idt` gives to an interrupt. -/
def gateOf (address : Stub → Nat) (vector : Nat) : GateDescriptor :=
  .new (address (stubOf vector)) (typeOf vector) true (levelOf vector)

theorem present_stubOf (vector : Nat) : (stubOf vector).Present := by
  rw [stubOf]
  split
  next h => exact .inl h
  next =>
    split
    next h =>
      show vector - 32 < 16
      omega
    next =>
      split
      · exact .inr rfl
      · trivial

/-- A loop that sets the gates from `k` on that are in a list. -/
theorem table_foldl {k : Nat} {g : Nat → GateDescriptor} :
    ∀ (l : List Nat) (idt : InterruptDescriptorTable Handler),
      (l.foldl (fun idt i => idt.setGate (k + i) (g i)) idt).irqHandler =
          idt.irqHandler ∧
        (l.foldl (fun idt i => idt.setGate (k + i) (g i)) idt).pic = idt.pic ∧
        ∀ v, (l.foldl (fun idt i => idt.setGate (k + i) (g i)) idt).table v =
          if k ≤ v ∧ v - k ∈ l then g (v - k) else idt.table v := by
  intro l
  induction l with
  | nil => intro idt; exact ⟨rfl, rfl, fun v => (if_neg fun h => nomatch h.2).symm⟩
  | cons i l ih =>
      intro idt
      obtain ⟨hirq, hpic, htable⟩ := ih (idt.setGate (k + i) (g i))
      refine ⟨hirq, hpic, fun v => ?_⟩
      rw [List.foldl_cons, htable]
      by_cases hmem : k ≤ v ∧ v - k ∈ l
      · rw [if_pos hmem, if_pos ⟨hmem.1, List.mem_cons_of_mem i hmem.2⟩]
      · rw [if_neg hmem]
        by_cases heq : v = k + i
        · subst heq
          rw [Nat.add_sub_cancel_left,
            if_pos ⟨Nat.le_add_right k i, List.mem_cons_self⟩]
          exact if_pos rfl
        · rw [if_neg fun ⟨hle, h⟩ => (List.mem_cons.1 h).elim
            (fun hi => heq (by omega)) fun h => hmem ⟨hle, h⟩]
          exact if_neg heq

theorem table_foldl_zero {g : Nat → GateDescriptor} (l : List Nat)
    (idt : InterruptDescriptorTable Handler) (v : Nat) :
    (l.foldl (fun idt i => idt.setGate i (g i)) idt).table v =
      if v ∈ l then g v else idt.table v := by
  have htable := (table_foldl (k := 0) (g := g) l idt).2.2 v
  simpa only [Nat.zero_add, Nat.zero_le, true_and, Nat.sub_zero] using htable

theorem table_setTrapGates {a : Nat → Nat} (l : List Nat)
    (idt : InterruptDescriptorTable Handler) (v : Nat) :
    (l.foldl (fun idt i => idt.setTrapGate i (a i)) idt).table v =
      if v ∈ l then .new (a v) .trapGateDescriptor true .user
      else idt.table v :=
  table_foldl_zero l idt v

theorem table_setSystemGates {a : Nat → Nat} (l : List Nat)
    (idt : InterruptDescriptorTable Handler) (v : Nat) :
    (l.foldl (fun idt i => idt.setSystemGate i (a i)) idt).table v =
      if v ∈ l then .new (a v) .interruptGateDescriptor true .user
      else idt.table v :=
  table_foldl_zero l idt v

/-- A loop that removes handlers. -/
theorem irqHandler_foldl : ∀ (l : List Nat)
    (idt : InterruptDescriptorTable Handler),
    (l.foldl removeIrqHandler idt).table = idt.table ∧
      (l.foldl removeIrqHandler idt).pic = idt.pic ∧
      ∀ i, i < IRQs →
        (l.foldl removeIrqHandler idt).irqHandler i =
          if i ∈ l then ⟨.dummyInterruptHandler, false⟩
          else idt.irqHandler i := by
  intro l
  induction l with
  | nil => intro idt; exact ⟨rfl, rfl, fun _ _ => rfl⟩
  | cons irq l ih =>
      intro idt
      obtain ⟨htable, hpic, hirq⟩ := ih (idt.removeIrqHandler irq)
      have hkept : (idt.removeIrqHandler irq).table = idt.table ∧
          (idt.removeIrqHandler irq).pic = idt.pic := by
        rw [removeIrqHandler, setHandler]
        split <;> exact ⟨rfl, rfl⟩
      refine ⟨htable.trans hkept.1, hpic.trans hkept.2, fun i hi => ?_⟩
      rw [List.foldl_cons, hirq i hi]
      by_cases hmem : i ∈ l
      · rw [if_pos hmem, if_pos (List.mem_cons_of_mem irq hmem)]
      · rw [if_neg hmem, removeIrqHandler, setHandler]
        by_cases heq : i = irq
        · subst heq
          rw [if_pos hi, if_pos List.mem_cons_self]
          exact if_pos rfl
        · rw [if_neg fun h => (List.mem_cons.1 h).elim heq hmem]
          split
          · exact if_neg heq
          · rfl

/-- Both controllers wait for the mask, with nothing in service and the numbers
of the interrupts behind the exceptions. -/
def idle (masterMask slaveMask : UInt8) : Pic8259A where
  master := ⟨32, 4, 1, masterMask, 0, .mask, false, true⟩
  slave := ⟨40, 2, 1, slaveMask, 0, .mask, false, true⟩

/-- What `init_idt` leaves behind. -/
theorem initIdt_spec (address : Stub → Nat)
    (idt : InterruptDescriptorTable Handler) :
    (∀ v, v < 256 → (initIdt address idt).table v = gateOf address v) ∧
      (∀ i, i < IRQs → (initIdt address idt).irqHandler i =
        ⟨.dummyInterruptHandler, false⟩) ∧
      (initIdt address idt).pic = idle 0 0 := by
  simp only [initIdt]
  generalize h₀ : (List.range IDT_SIZE).foldl _ idt = idt₀
  generalize h₁ : [0, 1, 2].foldl _ idt₀ = idt₁
  generalize h₂ : [3, 4, 5].foldl _ idt₁ = idt₂
  generalize h₃ : [6, 7, 8, 9, 10, 11, 12, 13, 14, 15, 16, 17].foldl _ idt₂ =
    idt₃
  generalize h₄ : [18, 19, 20, 21, 22, 23, 24, 25, 26, 27, 28, 29, 30,
    31].foldl _ idt₃ = idt₄
  generalize h₅ : (List.range 16).foldl _ _ = idt₅
  generalize h₆ : (List.range IRQs).foldl removeIrqHandler idt₅ = idt₆
  have t₀ := fun v => congrArg (fun idt => idt.table v) h₀
  have t₁ := fun v => congrArg (fun idt => idt.table v) h₁
  have t₂ := fun v => congrArg (fun idt => idt.table v) h₂
  have t₃ := fun v => congrArg (fun idt => idt.table v) h₃
  have t₄ := fun v => congrArg (fun idt => idt.table v) h₄
  simp only [table_setTrapGates, table_setSystemGates] at t₀ t₁ t₂ t₃ t₄
  obtain ⟨-, p₅, t₅⟩ : idt₅.irqHandler = idt₄.irqHandler ∧
      idt₅.pic = idle 0 0 ∧ ∀ v, idt₅.table v =
        if 32 ≤ v ∧ v - 32 ∈ List.range 16 then
          .new (address (.irq (v - 32))) .interruptGateDescriptor true .system
        else idt₄.table v := by
    rw [← h₅]
    exact table_foldl (List.range 16) { idt₄ with pic := idle 0 0 }
  obtain ⟨t₆, p₆, i₆⟩ := irqHandler_foldl (List.range IRQs) idt₅
  rw [h₆] at t₆ p₆ i₆
  refine ⟨fun v hv => ?_, fun i hi => ?_, p₆.trans p₅⟩
  · have m₁ : v ∈ [0, 1, 2] ↔ v < 3 := by
      simp only [List.mem_cons, List.not_mem_nil, or_false]
      omega
    have m₂ : v ∈ [3, 4, 5] ↔ 3 ≤ v ∧ v < 6 := by
      simp only [List.mem_cons, List.not_mem_nil, or_false]
      omega
    have m₃ : v ∈ [6, 7, 8, 9, 10, 11, 12, 13, 14, 15, 16, 17] ↔
        6 ≤ v ∧ v < 18 := by
      simp only [List.mem_cons, List.not_mem_nil, or_false]
      omega
    have m₄ : v ∈ [18, 19, 20, 21, 22, 23, 24, 25, 26, 27, 28, 29, 30, 31] ↔
        18 ≤ v ∧ v < 32 := by
      simp only [List.mem_cons, List.not_mem_nil, or_false]
      omega
    have htable : (idt₆.setSystemGate SYSTEM_GATE
        (address (.isr 128))).table v = if v = 128 then
          .new (address (.isr 128)) .interruptGateDescriptor true .user
        else idt₆.table v := rfl
    rw [htable, t₆, t₅, ← t₄, ← t₃, ← t₂, ← t₁, ← t₀, gateOf, stubOf, typeOf,
      levelOf]
    simp only [m₁, m₂, m₃, m₄, List.mem_range]
    rw [if_pos (show v < IDT_SIZE from hv)]
    rcases Nat.lt_or_ge v 32 with hlow | hlow
    · rw [if_neg (by omega : ¬ v = 128),
        if_neg (by omega : ¬ (32 ≤ v ∧ v - 32 < 16)), if_pos hlow,
        if_neg (by omega : ¬ (32 ≤ v ∧ v < 48)), if_pos hlow]
      split_ifs <;> first | rfl | omega
    · rw [if_neg (by omega : ¬ v < 32), if_neg (by omega : ¬ v < 3),
        if_neg (by omega : ¬ v < 6), if_neg (by omega : ¬ v < 32),
        if_neg (by omega : ¬ (18 ≤ v ∧ v < 32)),
        if_neg (by omega : ¬ (6 ≤ v ∧ v < 18)),
        if_neg (by omega : ¬ (3 ≤ v ∧ v < 6))]
      split_ifs <;> first | rfl | omega
  · exact (i₆ i hi).trans (if_pos (List.mem_range.2 hi))

/-! ## Controllers at rest -/

variable {m s : UInt8}

theorem accepts_master {k : Nat} :
    (idle m s).master.Accepts k ↔ bit m k = false :=
  ⟨And.left, fun h => ⟨h, Nat.zero_mod _⟩⟩

theorem accepts_slave {k : Nat} :
    (idle m s).slave.Accepts k ↔ bit s k = false :=
  ⟨And.left, fun h => ⟨h, Nat.zero_mod _⟩⟩

/-- The end of the one interrupt in service. -/
theorem end_of_only : ∀ k, k < 8 →
    ((0 : UInt8) ||| 1 <<< UInt8.ofNat k) &&&
      (((0 : UInt8) ||| 1 <<< UInt8.ofNat k) - 1) = 0 := by decide

theorem serve_ended {c : Controller8259A} (hrest : c.inService = 0) {k : Nat}
    (hk : k < 8) : (c.serve k).command Pic8259A.END_OF_INTERRUPT = c := by
  have hend := end_of_only k hk
  rw [← hrest] at hend
  show { c with inService := _ } = c
  rw [Controller8259A.serve]
  dsimp only
  rw [hend]

/-- The end of no interrupt. -/
theorem end_of_none : (idle m s).sendEndOfInterrupt 0 = idle m s := by
  have hnone : (0 : UInt8) &&& (0 - 1) = 0 := by decide
  have hmaster : (idle m s).master.command Pic8259A.END_OF_INTERRUPT =
      (idle m s).master := by
    show { (idle m s).master with inService := (0 : UInt8) &&& (0 - 1) } = _
    rw [hnone]
    rfl
  exact congrArg (Pic8259A.mk · _) hmaster

/-- A line that is passed on is the only one in service, and when its end is
signalled the controllers are at rest again. -/
theorem raise_idle {n : Nat} (hn : n < 16)
    (hopen : bit (if n < 8 then m else s) (n % 8) = false)
    (hcascade : 8 ≤ n → bit m 2 = false) :
    ∃ pic, (idle m s).raise n = some (32 + n, pic) ∧
      pic.sendEndOfInterrupt n = idle m s := by
  rw [Pic8259A.raise]
  by_cases hlow : n < 8
  · rw [if_pos hlow, Nat.mod_eq_of_lt hlow] at hopen
    rw [if_pos hlow, if_pos (accepts_master.2 hopen)]
    refine ⟨_, rfl, ?_⟩
    rw [Pic8259A.sendEndOfInterrupt, if_pos hn, if_neg (by omega)]
    exact congrArg (Pic8259A.mk · _) (serve_ended rfl hlow)
  · rw [if_neg hlow] at hopen
    have hmod : n % 8 = n - 8 := by omega
    rw [hmod] at hopen
    rw [if_neg hlow, if_pos ⟨accepts_slave.2 hopen,
      accepts_master.2 (hcascade (by omega)), (by decide : bit 4 2 = true), rfl⟩]
    refine ⟨_, congrArg some (Prod.ext ?_ rfl), ?_⟩
    · show 40 + (n - 8) = 32 + n
      omega
    · rw [Pic8259A.sendEndOfInterrupt, if_pos hn, if_pos (by omega)]
      exact congrArg₂ Pic8259A.mk (serve_ended rfl (by omega))
        (serve_ended rfl (by omega))

/-- A line that is held back. -/
theorem raise_masked {n : Nat} (hn : n < 16)
    (hclosed : bit (if n < 8 then m else s) (n % 8) = true ∨
      8 ≤ n ∧ bit m 2 = true) :
    (idle m s).raise n = none := by
  rw [Pic8259A.raise]
  by_cases hlow : n < 8
  · rw [if_pos hlow, Nat.mod_eq_of_lt hlow] at hclosed
    rw [if_pos hlow, if_neg fun h => ?_]
    rcases hclosed with hclosed | ⟨hle, -⟩
    · rw [accepts_master.1 h] at hclosed
      cases hclosed
    · omega
  · have hmod : n % 8 = n - 8 := by omega
    rw [if_neg hlow, hmod] at hclosed
    rw [if_neg hlow, if_neg fun h => ?_]
    obtain ⟨hslave, hmaster, -⟩ := h
    rcases hclosed with hclosed | ⟨-, hclosed⟩
    · rw [accepts_slave.1 hslave] at hclosed
      cases hclosed
    · rw [accepts_master.1 hmaster] at hclosed
      cases hclosed

/-- The mask of one line is set. -/
theorem maskInterrupt_idle {irq : Nat} (hirq : irq < 16) (present : Bool) :
    ∃ m' s', (idle m s).maskInterrupt irq present = idle m' s' ∧
      ∀ n, n < 16 → bit (if n < 8 then m' else s') (n % 8) =
        if n = irq then !present
        else bit (if n < 8 then m else s) (n % 8) := by
  have hmask : ∀ k, k < 8 →
      Pic8259A.lineMask k = some (1 <<< UInt8.ofNat k) := by decide
  have hbit : ∀ (b : UInt8) (k j : Nat), k < 8 → j < 8 →
      bit (if present then b &&& ~~~(1 <<< UInt8.ofNat k)
        else b ||| (1 <<< UInt8.ofNat k)) j =
        if j = k then !present else bit b j := by
    intro b k j hk hj
    cases present with
    | false =>
        rw [if_neg Bool.false_ne_true, bit_or_mask b hk]
        by_cases heq : j = k
        · simp [heq]
        · simp [heq, Ne.symm heq]
    | true =>
        rw [if_pos rfl, bit_and_not_mask b hk hj]
        by_cases heq : j = k
        · simp [heq]
        · simp [heq, Ne.symm heq]
  rw [Pic8259A.maskInterrupt, if_neg (by omega)]
  dsimp only
  by_cases hlow : irq < 8
  · rw [if_neg (by omega), if_neg (by omega), hmask irq hlow]
    refine ⟨_, s, rfl, fun n hn => ?_⟩
    by_cases hn8 : n < 8
    · rw [if_pos hn8, if_pos hn8, Nat.mod_eq_of_lt hn8]
      exact hbit m irq n hlow hn8
    · rw [if_neg hn8, if_neg hn8, if_neg (by omega)]
  · rw [if_pos (by omega), if_pos (by omega), hmask (irq - 8) (by omega)]
    refine ⟨m, _, rfl, fun n hn => ?_⟩
    by_cases hn8 : n < 8
    · rw [if_pos hn8, if_pos hn8, if_neg (by omega)]
    · have hmod : n % 8 = n - 8 := by omega
      rw [if_neg hn8, if_neg hn8, hmod]
      refine (hbit s (irq - 8) (n - 8) (by omega) (by omega)).trans ?_
      exact if_congr (by omega) rfl rfl

/-! ## What the drivers have asked for -/

/-- What happens: a call of a driver, a device that raises a line, or a user
process that executes `int`. -/
inductive Event (Handler : Type u) where
  | registerIrqHandler (irq : Nat) (h : ServiceRoutine Handler)
  | removeIrqHandler (irq : Nat)
  | enableIrqHandler (irq : Nat)
  | disableIrqHandler (irq : Nat)
  | setIrqUsability (irq : Nat) (present : Bool)
  | line (n : Fin 16)
  | int (vector : Fin 256)

def happen (code : Nat → Option Stub) (idt : InterruptDescriptorTable Handler) :
    Event Handler → InterruptDescriptorTable Handler
  | .registerIrqHandler irq h => idt.registerIrqHandler irq h
  | .removeIrqHandler irq => idt.removeIrqHandler irq
  | .enableIrqHandler irq => idt.enableIrqHandler irq
  | .disableIrqHandler irq => idt.disableIrqHandler irq
  | .setIrqUsability irq present => idt.setIrqUsability irq present
  | .line n => ((idt.deliver code n).map Prod.snd).getD idt
  | .int vector => ((idt.interruptFrom code 3 vector).map Prod.snd).getD idt

/-- A handler for each line, and whether it is masked. -/
structure Wanted (Handler : Type u) where
  routine : Nat → ServiceRoutine Handler
  masked : Nat → Bool

namespace Wanted

/-- After `init_idt`. -/
def start : Wanted Handler := ⟨fun _ => ⟨.dummyInterruptHandler, false⟩,
  fun _ => false⟩

def set (w : Wanted Handler) (irq : Nat) (h : ServiceRoutine Handler) :
    Wanted Handler :=
  { w with routine := fun i => if i = irq then h else w.routine i }

def ask (w : Wanted Handler) : Event Handler → Wanted Handler
  | .registerIrqHandler irq h => w.set irq h
  | .removeIrqHandler irq => w.set irq ⟨.dummyInterruptHandler, false⟩
  | .enableIrqHandler irq => w.set irq { w.routine irq with enabled := true }
  | .disableIrqHandler irq => w.set irq { w.routine irq with enabled := false }
  | .setIrqUsability irq present =>
      { w with masked := fun i => if i = irq then !present else w.masked i }
  | .line _ => w
  | .int _ => w

/-- Where line `n` ends, if it gets through: at the handler, if that is
enabled. -/
def reached (w : Wanted Handler) (n : Nat) : Option (Option (Routine Handler)) :=
  if w.masked n = true ∨ 8 ≤ n ∧ w.masked 2 = true then none
  else some (w.routine n).call

/-- Where `int vector` ends for a user process; what is kept for the hardware
is refused. -/
def reachedByInt (w : Wanted Handler) (vector : Nat) :
    Option (Option (Routine Handler)) :=
  if 32 ≤ vector ∧ vector < 48 then none
  else if vector < EXCEPTIONs then some (some .exceptionHandler)
  else if vector < 32 then some (some .dummyDummyHandler)
  else if vector = SYSTEM_GATE then some (some .syscallHandler)
  else some (w.routine 0).call

end Wanted

/-- The table carries out what is wanted. -/
structure Ready (address : Stub → Nat) (idt : InterruptDescriptorTable Handler)
    (w : Wanted Handler) : Prop where
  gates : ∀ v, v < 256 → idt.table v = gateOf address v
  handlers : ∀ i, i < 16 → idt.irqHandler i = w.routine i
  masks : ∃ m s, idt.pic = idle m s ∧
    ∀ n, n < 16 → bit (if n < 8 then m else s) (n % 8) = w.masked n

variable {w : Wanted Handler}

theorem ready_initIdt (address : Stub → Nat)
    (idt : InterruptDescriptorTable Handler) :
    Ready address (initIdt address idt) .start := by
  obtain ⟨hgates, hhandlers, hpic⟩ := initIdt_spec address idt
  refine ⟨hgates, hhandlers, 0, 0, hpic, fun n hn => ?_⟩
  rw [ite_self]
  exact Nat.zero_testBit _

/-- An interrupt whose gate is as `init_idt` set it. -/
theorem take_eq (hl : Linked address code) {vector : Nat}
    (hgate : idt.table vector = gateOf address vector) :
    idt.take code vector = some (idt.dispatchInterrupt
      (i32 (stubOf vector).irqWord) (i32 (stubOf vector).isrWord)) := by
  have hpresent := present_stubOf vector
  rw [take, hgate, gateOf, ofFlat_new (hl.small _ hpresent)]
  dsimp only
  rw [if_pos rfl, hl.code _ hpresent]
  rfl

/-- A hardware interrupt. -/
theorem dispatch_irq {n : Nat} (hn : n < 16) (exceptionNumber : Int) :
    idt.dispatchInterrupt (i32 n) exceptionNumber =
      ((idt.irqHandler n).call,
        { idt with pic := idt.pic.sendEndOfInterrupt n }) := by
  have hmod : n % 256 = n := Nat.mod_eq_of_lt (by omega)
  rw [i32_of_lt (by omega), dispatchInterrupt, if_pos (Int.natCast_nonneg n),
    Int.toNat_natCast, hmod]

/-- An interrupt whose routine pushes the number of an exception. -/
theorem dispatch_isr {n : Nat} (hn : n < 256) :
    idt.dispatchInterrupt (i32 (Stub.isr n).irqWord) (i32 (Stub.isr n).isrWord) =
      (if n < EXCEPTIONs then some .exceptionHandler
        else if n = SYSTEM_GATE then some .syscallHandler
        else some .dummyDummyHandler, idt) := by
  have hnone : i32 (Stub.isr n).irqWord = -1 := by
    exact (by decide : i32 Stub.NONE = -1)
  have hword : i32 (Stub.isr n).isrWord = n := i32_of_lt (by
    show n < 2147483648
    omega)
  have hgate : (n : Int) = (SYSTEM_GATE : Nat) ↔ n = SYSTEM_GATE := Int.natCast_inj
  have hexception : (n : Int) ≥ 0 ∧ (n : Int) < (EXCEPTIONs : Nat) ↔
    n < EXCEPTIONs := by omega
  rw [hnone, hword, dispatchInterrupt, if_neg (by decide)]
  simp only [hgate, hexception]
  have hapart : EXCEPTIONs ≤ SYSTEM_GATE := by decide
  split_ifs <;> first | rfl | omega

/-- A line ends where it should, and nothing else happens. -/
theorem Ready.deliver (hl : Linked address code) (h : Ready address idt w)
    {n : Nat} (hn : n < 16) :
    idt.deliver code n = (w.reached n).map fun r => (r, idt) := by
  obtain ⟨m, s, hpic, hmasks⟩ := h.masks
  have hcascade : 8 ≤ n → bit m 2 = w.masked 2 := fun _ => hmasks 2 (by decide)
  rw [InterruptDescriptorTable.deliver, hpic, Wanted.reached]
  by_cases hclosed : w.masked n = true ∨ 8 ≤ n ∧ w.masked 2 = true
  · rw [if_pos hclosed, raise_masked hn]
    · rfl
    · rw [hmasks n hn]
      exact hclosed.imp_right fun ⟨hle, hmask⟩ =>
        ⟨hle, (hcascade hle).trans hmask⟩
  · rw [if_neg hclosed]
    obtain ⟨pic, hraise, hend⟩ := raise_idle hn
      ((hmasks n hn).trans (Bool.eq_false_of_not_eq_true fun hmask =>
        hclosed (.inl hmask)))
      fun hle => (hcascade hle).trans (Bool.eq_false_of_not_eq_true
        fun hmask => hclosed (.inr ⟨hle, hmask⟩))
    have hstub : stubOf (32 + n) = .irq n := by
      rw [stubOf, if_neg (by omega), if_pos (by omega), Nat.add_sub_cancel_left]
    rw [hraise, Option.bind_some]
    dsimp only
    have htake : { idt with pic := pic }.take code (32 + n) = _ :=
      take_eq hl (h.gates (32 + n) (by omega))
    rw [htake, hstub]
    refine congrArg some ((dispatch_irq hn _).trans ?_)
    dsimp only
    rw [h.handlers n hn, hend, ← hpic]

/-- So does a software interrupt. -/
theorem Ready.interruptFrom (hl : Linked address code)
    (h : Ready address idt w) {vector : Nat} (hv : vector < 256) :
    idt.interruptFrom code 3 vector =
      (w.reachedByInt vector).map fun r => (r, idt) := by
  obtain ⟨m, s, hpic, -⟩ := h.masks
  have hlevel : (Gate.ofFlat (idt.table vector).flat).dpl =
      (levelOf vector).number := by
    rw [h.gates vector hv, gateOf,
      ofFlat_new (hl.small _ (present_stubOf vector))]
  rw [InterruptDescriptorTable.interruptFrom, hlevel,
    take_eq hl (h.gates vector hv), levelOf, Wanted.reachedByInt]
  by_cases hhardware : 32 ≤ vector ∧ vector < 48
  · rw [if_pos hhardware, if_pos hhardware, if_neg (by decide)]
    rfl
  · rw [if_neg hhardware, if_neg hhardware, if_pos (by decide), stubOf]
    by_cases hlow : vector < 32
    · rw [if_pos hlow, dispatch_isr hv,
        if_neg (show ¬ vector = SYSTEM_GATE from Nat.ne_of_lt
          (Nat.lt_trans hlow (by decide))), if_pos hlow]
      split_ifs <;> rfl
    · rw [if_neg hlow, if_neg (by omega : ¬ vector < 48)]
      by_cases hsystem : vector = 128
      · subst hsystem
        rw [if_pos rfl, dispatch_isr (by decide)]
        rfl
      · rw [if_neg hsystem, if_neg (show ¬ vector < EXCEPTIONs from
          fun hlt => hlow (Nat.lt_trans hlt (by decide))), if_neg hlow,
          if_neg (show ¬ vector = SYSTEM_GATE from hsystem)]
        refine congrArg some ((dispatch_irq (by decide) _).trans ?_)
        refine Prod.ext (congrArg ServiceRoutine.call
          (h.handlers 0 (by decide))) ?_
        show { idt with pic := idt.pic.sendEndOfInterrupt 0 } = idt
        rw [hpic, end_of_none, ← hpic]

/-- A handler that is set is the one that is wanted. -/
theorem Ready.set (h : Ready address idt w) (irq : Nat)
    (sr : ServiceRoutine Handler) :
    Ready address (idt.setHandler irq sr) (w.set irq sr) := by
  rw [setHandler]
  split
  next =>
    refine ⟨h.gates, fun i hi => ?_, h.masks⟩
    show (if i = irq then sr else _) = if i = irq then sr else _
    rw [h.handlers i hi]
  next hirq =>
    have hne : ∀ i, i < 16 → i ≠ irq := by
      rintro i hi rfl
      exact hirq hi
    refine ⟨h.gates, fun i hi => ?_, h.masks⟩
    exact (h.handlers i hi).trans (if_neg (hne i hi)).symm

theorem setHandler_congr {irq : Nat} {sr sr' : ServiceRoutine Handler}
    (h : irq < 16 → sr = sr') :
    idt.setHandler irq sr = idt.setHandler irq sr' := by
  rw [setHandler, setHandler]
  split
  next hirq => rw [h hirq]
  next => rfl

theorem Ready.setIrqUsability (h : Ready address idt w) (irq : Nat)
    (present : Bool) : Ready address (idt.setIrqUsability irq present)
      (w.ask (.setIrqUsability irq present)) := by
  obtain ⟨m, s, hpic, hmasks⟩ := h.masks
  rw [InterruptDescriptorTable.setIrqUsability]
  split
  next hirq =>
    have hmod : irq % 256 = irq :=
      Nat.mod_eq_of_lt (Nat.lt_trans hirq (by decide))
    obtain ⟨m', s', hmask, hbits⟩ :=
      maskInterrupt_idle (m := m) (s := s) hirq present
    rw [hmod, hpic, hmask]
    refine ⟨h.gates, h.handlers, m', s', rfl, fun n hn => ?_⟩
    rw [hbits n hn, hmasks n hn]
    rfl
  next hirq =>
    refine ⟨h.gates, h.handlers, m, s, hpic, fun n hn => ?_⟩
    rw [hmasks n hn]
    refine (if_neg ?_).symm
    rintro rfl
    exact hirq hn

/-- Whatever happens, the table goes on carrying out what is wanted. -/
theorem Ready.happen (hl : Linked address code) (h : Ready address idt w)
    (e : Event Handler) : Ready address (happen code idt e) (w.ask e) := by
  cases e with
  | registerIrqHandler irq sr => exact h.set irq sr
  | removeIrqHandler irq => exact h.set irq _
  | enableIrqHandler irq =>
      have hset := h.set irq { w.routine irq with enabled := true }
      have hsame : idt.enableIrqHandler irq = idt.setHandler irq _ :=
        setHandler_congr fun hirq => by rw [h.handlers irq hirq]
      rwa [← hsame] at hset
  | disableIrqHandler irq =>
      have hset := h.set irq { w.routine irq with enabled := false }
      have hsame : idt.disableIrqHandler irq = idt.setHandler irq _ :=
        setHandler_congr fun hirq => by rw [h.handlers irq hirq]
      rwa [← hsame] at hset
  | setIrqUsability irq present => exact h.setIrqUsability irq present
  | line n =>
      show Ready address (((idt.deliver code n).map Prod.snd).getD idt) w
      rw [h.deliver hl n.isLt]
      cases w.reached n <;> exact h
  | int vector =>
      show Ready address (((idt.interruptFrom code 3 vector).map
        Prod.snd).getD idt) w
      rw [h.interruptFrom hl vector.isLt]
      cases w.reachedByInt vector <;> exact h

theorem Ready.run (hl : Linked address code) (events : List (Event Handler)) :
    ∀ {idt : InterruptDescriptorTable Handler} {w : Wanted Handler},
      Ready address idt w →
      Ready address (events.foldl (InterruptDescriptorTable.happen code) idt)
        (events.foldl Wanted.ask w) := by
  induction events with
  | nil => intro _ _ h; exact h
  | cons e events ih => intro _ _ h; exact ih (h.happen hl e)

/-- After `init_idt`, whatever drivers and processes have done since, a line
that a device raises ends at the handler that was registered for it last, if
nobody has masked the line or disabled the handler, and leaves the table and the
controllers ready for the next one. -/
theorem line_reaches_handler (hl : Linked address code)
    (idt : InterruptDescriptorTable Handler) (events : List (Event Handler))
    (n : Fin 16) :
    (events.foldl (happen code) (initIdt address idt)).deliver code n =
      ((events.foldl Wanted.ask .start).reached n).map fun r =>
        (r, events.foldl (happen code) (initIdt address idt)) :=
  ((ready_initIdt address idt).run hl events).deliver hl n.isLt

/-- A user process that executes `int` with the number of no hardware interrupt
is let through, and with the number of nothing at all it calls the handler of
line 0. -/
theorem int_reaches_handler (hl : Linked address code)
    (idt : InterruptDescriptorTable Handler) (events : List (Event Handler))
    (vector : Fin 256) :
    (events.foldl (happen code) (initIdt address idt)).interruptFrom code 3
        vector =
      ((events.foldl Wanted.ask .start).reachedByInt vector).map fun r =>
        (r, events.foldl (happen code) (initIdt address idt)) :=
  ((ready_initIdt address idt).run hl events).interruptFrom hl vector.isLt

/-! ## Routines in a row -/

/-- One routine every sixteen bytes. -/
def inARow : Stub → Nat
  | .isr n => 16 * n
  | .irq n => 4096 + 16 * n
  | .uninitilized => 8192

def rowCode (a : Nat) : Option Stub :=
  if a < 4096 then some (.isr (a / 16))
  else if a < 8192 then some (.irq ((a - 4096) / 16))
  else some .uninitilized

theorem linked_inARow : Linked inARow rowCode := by
  constructor
  · intro s hs
    cases s with
    | isr n =>
        have hn : n < 32 ∨ n = 128 := hs
        show 16 * n < 4294967296
        omega
    | irq n =>
        have hn : n < 16 := hs
        show 4096 + 16 * n < 4294967296
        omega
    | uninitilized => decide
  · intro s hs
    cases s with
    | isr n =>
        have hn : n < 32 ∨ n = 128 := hs
        show rowCode (16 * n) = some (.isr n)
        rw [rowCode, if_pos (by omega), Nat.mul_div_cancel_left n (by decide)]
    | irq n =>
        have hn : n < 16 := hs
        show rowCode (4096 + 16 * n) = some (.irq n)
        rw [rowCode, if_neg (by omega), if_pos (by omega),
          Nat.add_sub_cancel_left, Nat.mul_div_cancel_left n (by decide)]
    | uninitilized => rfl

/-- A table of a driver whose handlers have numbers. -/
def beforeInit : InterruptDescriptorTable Nat :=
  ⟨fun _ => .new 0 .interruptGateDescriptor false .unusedLevel1,
    fun _ => ⟨.dummyDummyHandler, false⟩, idle 0 0⟩

theorem timer_reaches_handler :
    ([.registerIrqHandler 0 ⟨.handler 7, true⟩, .setIrqUsability 3 false,
        .line 0, .int 48].foldl (happen rowCode)
        (initIdt inARow beforeInit)).deliver rowCode (0 : Fin 16) =
      some (some (.handler 7), [.registerIrqHandler 0 ⟨.handler 7, true⟩,
        .setIrqUsability 3 false, .line 0, .int 48].foldl (happen rowCode)
        (initIdt inARow beforeInit)) :=
  line_reaches_handler linked_inARow beforeInit
    [.registerIrqHandler 0 ⟨.handler 7, true⟩, .setIrqUsability 3 false,
      .line 0, .int 48] 0

theorem int_48_reaches_timer :
    ([.registerIrqHandler 0 ⟨.handler 7, true⟩].foldl (happen rowCode)
        (initIdt inARow beforeInit)).interruptFrom rowCode 3 (48 : Fin 256) =
      some (some (.handler 7),
        [.registerIrqHandler 0 ⟨.handler 7, true⟩].foldl (happen rowCode)
          (initIdt inARow beforeInit)) :=
  int_reaches_handler linked_inARow beforeInit
    [.registerIrqHandler 0 ⟨.handler 7, true⟩] 48

end InterruptDescriptorTable

end Iposix.Core
