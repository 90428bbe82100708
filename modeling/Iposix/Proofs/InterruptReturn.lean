import Iposix.Core.InterruptServiceRoutine
import Iposix.Proofs.InterruptDelivery

/-!
# Taking an interrupt and coming back

What the processor and a routine of `isr.asm` push is an `isr_registers`,
followed by the stack that a user process had, if there is exactly one error
code: the one of the processor or the one of the routine. Then `isr_handler`
sees the registers of the program that was interrupted, and if it leaves them
alone the program goes on as if nothing had happened, but for the segment
registers that are not saved.

The proof pushes everything at once. The stack then holds a list that is known
from its first word to its last, and the way back only reads it.
-/

namespace Iposix.Core

open Iposix.Lib

variable {p : Processor} {s : Stub} {gate : Gate} {ss0 esp0 : Nat}
  {errorCode : Option Nat}

/-- The stack an interrupt is taken on. -/
def Processor.kernelStack (p : Processor) (esp0 : Nat) : DownStack :=
  if p.cs % 4 = 0 then p.stack else ⟨p.stack.mem, esp0⟩

/-- The stack of a user process, which is pushed first. -/
def Processor.userStack (p : Processor) : List Nat :=
  if p.cs % 4 = 0 then [] else [p.stack.sp, p.ss]

/-- The error codes, the last one first. -/
def Stub.errorCodes (s : Stub) (errorCode : Option Nat) : List Nat :=
  (if s.pushesErrorCode then [0] else []) ++ errorCode.toList

/-- The words between the kernel's stack and `isr_registers`, and the ones of
that. -/
def Stub.pushed (s : Stub) (p : Processor) (esp : Nat)
    (errorCode : Option Nat) : List Nat :=
  [p.cr2, p.ds, p.general.edi, p.general.esi, p.general.ebp, esp,
    p.general.ebx, p.general.edx, p.general.ecx, p.general.eax, s.isrWord,
    s.irqWord] ++ s.errorCodes errorCode ++ [p.eip, p.cs, p.eflags] ++
    p.userStack

/-- Where the stack pointer was before `pushad`. -/
def Stub.pushadEsp (s : Stub) (p : Processor) (esp0 : Nat)
    (errorCode : Option Nat) : Nat :=
  (p.kernelStack esp0).sp -
    4 * ((s.errorCodes errorCode).length + p.userStack.length + 5)

theorem stack_interrupt (gate : Gate) (ss0 esp0 : Nat)
    (errorCode : Option Nat) :
    (p.interrupt gate ss0 esp0 errorCode).stack =
      (p.kernelStack esp0).pushAll (p.userStack.reverse ++
        [p.eflags, p.cs, p.eip] ++ errorCode.toList) := by
  rw [Processor.interrupt, Processor.kernelStack, Processor.userStack]
  dsimp only
  split <;> rfl

theorem stack_enter (p : Processor) :
    (s.enter p).stack = p.stack.pushAll
      ((if s.pushesErrorCode then [0] else []) ++ [s.irqWord, s.isrWord]) := rfl

/-- All that is pushed is pushed on one stack. -/
theorem pushRegisters_enter (gate : Gate) (ss0 esp0 : Nat)
    (errorCode : Option Nat) :
    pushRegisters (s.enter (p.interrupt gate ss0 esp0 errorCode)) =
      (p.kernelStack esp0).pushAll
        (s.pushed p (s.pushadEsp p esp0 errorCode) errorCode).reverse := by
  have hesp : (s.enter (p.interrupt gate ss0 esp0 errorCode)).stack.sp =
      s.pushadEsp p esp0 errorCode := by
    rw [stack_enter, stack_interrupt, DownStack.pushAll_append,
      DownStack.sp_pushAll, Stub.pushadEsp, Stub.errorCodes]
    simp only [List.length_append, List.length_cons, List.length_nil,
      List.length_reverse]
    omega
  rw [pushRegisters, hesp, stack_enter, stack_interrupt,
    DownStack.pushAll_append, DownStack.pushAll_append]
  refine congrArg _ ?_
  have hcodes : ((if s.pushesErrorCode then [0] else []) : List Nat).reverse =
      if s.pushesErrorCode then [0] else [] := by
    split <;> rfl
  have hcode : errorCode.toList.reverse = errorCode.toList := by
    cases errorCode <;> rfl
  simp only [Stub.pushed, Stub.errorCodes, List.reverse_append,
    List.reverse_cons, List.nil_append, List.cons_append, hcodes, hcode,
    List.append_assoc]
  rfl

theorem Stub.length_pushed (s : Stub) (p : Processor) (esp : Nat)
    (errorCode : Option Nat) : (s.pushed p esp errorCode).length =
      (s.errorCodes errorCode).length + p.userStack.length + 15 := by
  simp only [pushed, List.length_append, List.length_cons, List.length_nil]
  omega

/-- The kernel's stack has room for all of it. -/
def Room (s : Stub) (p : Processor) (esp0 : Nat) (errorCode : Option Nat) :
    Prop :=
  4 * ((s.errorCodes errorCode).length + p.userStack.length + 15) ≤
    (p.kernelStack esp0).sp

/-- What `isr_handler` finds on the stack. -/
theorem holds_pushed (gate : Gate) (ss0 : Nat)
    (hroom : Room s p esp0 errorCode) :
    (pushRegisters (s.enter (p.interrupt gate ss0 esp0 errorCode))).Holds
      (s.pushed p (s.pushadEsp p esp0 errorCode) errorCode) := by
  have h : ((p.kernelStack esp0).pushAll
      (s.pushed p (s.pushadEsp p esp0 errorCode) errorCode).reverse).Holds
        ((s.pushed p (s.pushadEsp p esp0 errorCode)
          errorCode).reverse.reverse ++ []) :=
    DownStack.holds_nil.pushAll
      (by rw [List.length_reverse, s.length_pushed]; exact hroom)
  rwa [List.reverse_reverse, List.append_nil, ← pushRegisters_enter gate ss0]
    at h

/-- The registers of the program that was interrupted. -/
def Stub.frame (s : Stub) (p : Processor) (esp code : Nat) : IsrRegisters where
  cr2 := p.cr2
  dataSegmentSelector := p.ds
  edi := p.general.edi
  esi := p.general.esi
  ebp := p.general.ebp
  esp := esp
  ebx := p.general.ebx
  edx := p.general.edx
  ecx := p.general.ecx
  eax := p.general.eax
  exceptionNumber := s.isrWord
  irqNumber := s.irqWord
  errorCode := code
  eip := p.eip
  codeSegmentSelector := p.cs
  eflags := p.eflags

theorem Stub.pushed_of_one {code : Nat}
    (hone : s.errorCodes errorCode = [code]) (esp : Nat) :
    s.pushed p esp errorCode = (s.frame p esp code).words ++ p.userStack := by
  rw [pushed, hone]
  rfl

theorem top_pushed {code : Nat} (gate : Gate) (ss0 : Nat)
    (hroom : Room s p esp0 errorCode)
    (hone : s.errorCodes errorCode = [code]) :
    (pushRegisters (s.enter (p.interrupt gate ss0 esp0 errorCode))).top 16 =
      (s.frame p (s.pushadEsp p esp0 errorCode) code).words := by
  have hholds := holds_pushed gate ss0 hroom
  rw [Stub.pushed_of_one hone] at hholds
  exact hholds.top (by rw [List.length_append]; exact Nat.le_add_right 16 _)

/-- With one error code `isr_handler` is given the registers. -/
theorem Stub.registers_of_one {code : Nat} (gate : Gate) (ss0 : Nat)
    (hroom : Room s p esp0 errorCode)
    (hone : s.errorCodes errorCode = [code]) :
    s.registers (p.interrupt gate ss0 esp0 errorCode) =
      s.frame p (s.pushadEsp p esp0 errorCode) code := by
  rw [registers, top_pushed gate ss0 hroom hone]
  rfl

/-- With another number of them it takes other words for the address and the
code segment. -/
theorem Stub.registers_eip {eip cs : Nat} (gate : Gate) (ss0 : Nat)
    (hroom : Room s p esp0 errorCode)
    (heip : (s.pushed p (s.pushadEsp p esp0 errorCode) errorCode)[13]? =
      some eip)
    (hcs : (s.pushed p (s.pushadEsp p esp0 errorCode) errorCode)[14]? =
      some cs) :
    (s.registers (p.interrupt gate ss0 esp0 errorCode)).eip = eip ∧
      (s.registers (p.interrupt gate ss0 esp0 errorCode)).codeSegmentSelector =
        cs := by
  have hholds := holds_pushed gate ss0 hroom
  exact ⟨hholds.getD_top (by decide : 13 < 16) heip 0,
    hholds.getD_top (by decide : 14 < 16) hcs 0⟩

/-! ## The way back -/

/-- The program goes on with the registers `r`, but for the stack pointer that
`pushad` pushed and the segment registers that take the data segment. Its stack
is where it was and so is the memory, but for the part of the kernel's stack
below its top. -/
structure Resumes (p : Processor) (esp0 : Nat) (r : IsrRegisters)
    (p' : Processor) : Prop where
  general : p'.general = ⟨r.edi, r.esi, r.ebp, r.ebx, r.edx, r.ecx, r.eax⟩
  data : p'.ds = r.dataSegmentSelector % 65536
  others : p'.es = p'.ds ∧ p'.fs = p'.ds ∧ p'.gs = p'.ds
  code : p'.cs = r.codeSegmentSelector
  eip : p'.eip = r.eip
  eflags : p'.eflags = r.eflags
  stack : p'.ss = p.ss ∧ p'.stack.sp = p.stack.sp
  memory : ∀ a, a + 72 < (p.kernelStack esp0).sp ∨ (p.kernelStack esp0).sp ≤ a →
    p'.stack.mem a = p.stack.mem a

/-- What `iret` finds after the registers are popped. -/
theorem popRegisters_spec {q : Processor} {st : DownStack} {r : IsrRegisters}
    {l : List Nat} (h : st.Holds (r.words ++ l)) :
    (popRegisters q st).general =
        ⟨r.edi, r.esi, r.ebp, r.ebx, r.edx, r.ecx, r.eax⟩ ∧
      (popRegisters q st).ds = r.dataSegmentSelector % 65536 ∧
      (popRegisters q st).stack.Holds
        ([r.eip, r.codeSegmentSelector, r.eflags] ++ l) ∧
      (popRegisters q st).stack = ⟨st.mem, st.sp + 52⟩ := by
  have h₂ := (h.drop 1).drop 1
  refine ⟨?_, congrArg (· % 65536) ((h.drop 1) 0 r.dataSegmentSelector rfl),
    (h₂.drop 8).drop 3, rfl⟩
  show GeneralRegisters.mk _ _ _ _ _ _ _ = _
  rw [h₂ 0 r.edi rfl, h₂ 1 r.esi rfl, h₂ 2 r.ebp rfl, h₂ 4 r.ebx rfl,
    h₂ 5 r.edx rfl, h₂ 6 r.ecx rfl, h₂ 7 r.eax rfl]

/-- The way back from a stack that holds `r` to a program that was interrupted
in the privilege level of `r`. -/
theorem iret_spec {q : Processor} {st : DownStack} {r : IsrRegisters}
    (hgate : q.cs % 4 = 0) (hss : p.cs % 4 = 0 → q.ss = p.ss)
    (hlevel : r.codeSegmentSelector % 4 = p.cs % 4)
    (hsp : st.sp + 4 * (p.userStack.length + 16) = (p.kernelStack esp0).sp)
    (hholds : st.Holds (r.words ++ p.userStack))
    (hmem : ∀ a, a + 72 < (p.kernelStack esp0).sp ∨
      (p.kernelStack esp0).sp ≤ a → st.mem a = p.stack.mem a) :
    Resumes p esp0 r (popRegisters q st).iret := by
  obtain ⟨hgeneral, hd, hback, hpopped⟩ := popRegisters_spec (q := q) hholds
  have hpop : (popRegisters q st).cs = q.cs ∧ (popRegisters q st).ss = q.ss ∧
      (popRegisters q st).es = (popRegisters q st).ds ∧
      (popRegisters q st).fs = (popRegisters q st).ds ∧
      (popRegisters q st).gs = (popRegisters q st).ds := ⟨rfl, rfl, rfl, rfl, rfl⟩
  generalize popRegisters q st = q' at hgeneral hd hback hpopped hpop ⊢
  obtain ⟨hcs, hss', hothers⟩ := hpop
  rw [Processor.iret, hback 0 r.eip rfl, hback 1 r.codeSegmentSelector rfl,
    hback 2 r.eflags rfl, hcs, hgate, hlevel]
  by_cases hkernel : p.cs % 4 = 0
  · rw [if_pos hkernel]
    rw [Processor.userStack, Processor.kernelStack, if_pos hkernel,
      if_pos hkernel] at hsp
    refine ⟨hgeneral, hd, hothers, rfl, rfl, rfl,
      ⟨hss'.trans (hss hkernel), ?_⟩, fun a ha => ?_⟩
    · show (q'.stack.drop 3).sp = _
      rw [DownStack.drop, hpopped, ← hsp]
      exact Nat.add_assoc st.sp 52 12
    · show (q'.stack.drop 3).mem a = _
      rw [DownStack.drop, hpopped]
      exact hmem a ha
  · rw [if_neg hkernel]
    rw [Processor.userStack, if_neg hkernel] at hback
    refine ⟨hgeneral, hd, hothers, rfl, rfl, rfl,
      ⟨hback 4 p.ss rfl, hback 3 p.stack.sp rfl⟩, fun a ha => ?_⟩
    show q'.stack.mem a = _
    rw [hpopped]
    exact hmem a ha

/-- With one error code, what `isr_handler` leaves in its argument is what the
program goes on with. -/
theorem Stub.run_resumes {code : Nat} (hgate : gate.selector % 4 = 0)
    (hroom : Room s p esp0 errorCode)
    (hone : s.errorCodes errorCode = [code])
    {isrHandler : IsrRegisters → IsrRegisters}
    (hlevel : (isrHandler (s.registers
      (p.interrupt gate ss0 esp0 errorCode))).codeSegmentSelector % 4 =
        p.cs % 4) :
    Resumes p esp0
      (isrHandler (s.registers (p.interrupt gate ss0 esp0 errorCode)))
      (s.run isrHandler (p.interrupt gate ss0 esp0 errorCode)) := by
  have hholds := holds_pushed gate ss0 hroom
  have hstack := pushRegisters_enter (s := s) (p := p) gate ss0 esp0 errorCode
  rw [pushed_of_one hone] at hholds hstack
  rw [Room, hone] at hroom
  rw [run]
  have hentered : (s.enter (p.interrupt gate ss0 esp0 errorCode)).cs =
      gate.selector := rfl
  have hss : p.cs % 4 = 0 →
      (s.enter (p.interrupt gate ss0 esp0 errorCode)).ss = p.ss :=
    fun hkernel => if_pos hkernel
  generalize isrHandler (s.registers (p.interrupt gate ss0 esp0 errorCode)) = r
    at hlevel ⊢
  generalize pushRegisters (s.enter (p.interrupt gate ss0 esp0 errorCode)) = st
    at hholds hstack ⊢
  generalize s.enter (p.interrupt gate ss0 esp0 errorCode) = q at hentered hss ⊢
  have hlength : ((s.frame p (s.pushadEsp p esp0 errorCode) code).words ++
      p.userStack).reverse.length = p.userStack.length + 16 := by
    rw [List.length_reverse, List.length_append]
    exact Nat.add_comm _ _
  have huser : p.userStack.length ≤ 2 := by
    rw [Processor.userStack]
    split
    · exact Nat.zero_le 2
    · exact Nat.le_refl 2
  rw [List.length_singleton] at hroom
  have hsp : st.sp + 4 * (p.userStack.length + 16) =
      (p.kernelStack esp0).sp := by
    rw [hstack, DownStack.sp_pushAll, hlength]
    omega
  refine iret_spec (by rw [hentered]; exact hgate) hss hlevel hsp
    (hholds.poke rfl) fun a ha => ?_
  have hwords : r.words.length = 16 := rfl
  rw [DownStack.mem_poke (by rw [hwords]; omega), hstack,
    DownStack.mem_pushAll _ _ a (by rw [hlength]; omega)
      (by rw [hlength]; omega), Processor.kernelStack]
  split <;> rfl

/-! ## Every interrupt -/

/-- What makes the processor take an interrupt: an exception or a device, or the
instruction `int`. -/
inductive Cause where
  | processor (code : Nat)
  | instruction
  deriving DecidableEq

namespace Cause

/-- The processor has an error code for some of its exceptions. -/
def pushedCode (cause : Cause) (vector : Nat) : Option Nat :=
  match cause with
  | .processor code =>
      if vector = 8 ∨ 10 ≤ vector ∧ vector ≤ 14 ∨ vector = 17 then some code
      else none
  | .instruction => none

/-- The routine of the interrupt knows whether there is one. -/
def Known (cause : Cause) (vector : Nat) : Prop :=
  match cause with
  | .processor _ => vector ≠ 17
  | .instruction => ¬ (vector = 8 ∨ 10 ≤ vector ∧ vector ≤ 14)

instance (vector : Nat) : (cause : Cause) → Decidable (cause.Known vector)
  | .processor _ => inferInstanceAs (Decidable (_ ≠ _))
  | .instruction => inferInstanceAs (Decidable (¬ _))

/-- What the routine takes for the address and the code segment, if it does not
know. -/
def mistaken (cause : Cause) (p : Processor) : Nat × Nat :=
  match cause with
  | .processor code => (code, p.eip)
  | .instruction => (p.cs, p.eflags)

end Cause

namespace InterruptDescriptorTable

universe u

variable {Handler : Type u} {address : Stub → Nat} {code : Nat → Option Stub}

theorem pushesErrorCode_stubOf (vector : Nat) :
    (stubOf vector).pushesErrorCode = true ↔
      ¬ (vector = 8 ∨ 10 ≤ vector ∧ vector ≤ 14) := by
  rw [stubOf]
  split
  next =>
    simp only [Stub.pushesErrorCode, Bool.not_eq_true', Bool.or_eq_false_iff,
      beq_eq_false_iff_ne]
    omega
  next =>
    refine iff_of_true ?_ (by omega)
    split
    next => rfl
    next => split <;> rfl

theorem errorCodes_of_known {cause : Cause} {vector : Nat}
    (h : cause.Known vector) :
    (stubOf vector).errorCodes (cause.pushedCode vector) =
      [(cause.pushedCode vector).getD 0] := by
  rw [Stub.errorCodes]
  by_cases hpushes : (stubOf vector).pushesErrorCode = true
  · have hnone : cause.pushedCode vector = none := by
      cases cause with
      | processor code =>
          have hvector := (pushesErrorCode_stubOf vector).1 hpushes
          have hne : vector ≠ 17 := h
          exact if_neg (by omega)
      | instruction => rfl
    rw [if_pos hpushes, hnone]
    rfl
  · have hvector := mt (pushesErrorCode_stubOf vector).2 hpushes
    cases cause with
    | processor code =>
        have hcode : (Cause.processor code).pushedCode vector = some code :=
          if_pos (by omega)
        rw [if_neg hpushes, hcode]
        rfl
    | instruction => exact absurd h hvector

/-- The words where the address and the code segment should be. -/
theorem pushed_of_not_known {cause : Cause} {vector : Nat}
    (h : ¬ cause.Known vector) (p : Processor) (esp : Nat) :
    ((stubOf vector).pushed p esp (cause.pushedCode vector))[13]? =
        some (cause.mistaken p).1 ∧
      ((stubOf vector).pushed p esp (cause.pushedCode vector))[14]? =
        some (cause.mistaken p).2 := by
  cases cause with
  | processor code =>
      obtain rfl : vector = 17 := Decidable.not_not.1 h
      exact ⟨rfl, rfl⟩
  | instruction =>
      have hpushes : ¬ (stubOf vector).pushesErrorCode = true :=
        fun hpushes => h ((pushesErrorCode_stubOf vector).1 hpushes)
      rw [Stub.pushed, Stub.errorCodes, if_neg hpushes]
      exact ⟨rfl, rfl⟩

/-- The processor takes interrupt `vector`: what `isr_handler` is given, and the
processor after the routine. -/
def serve (code : Nat → Option Stub) (idt : InterruptDescriptorTable Handler)
    (isrHandler : IsrRegisters → IsrRegisters) (ss0 esp0 : Nat) (cause : Cause)
    (vector : Nat) (p : Processor) : Option (IsrRegisters × Processor) :=
  let gate := Gate.ofFlat (idt.table vector).flat
  let p := p.interrupt gate ss0 esp0 (cause.pushedCode vector)
  (code gate.offset).map fun stub => (stub.registers p, stub.run isrHandler p)

/-- With the gates of `init_idt`, `isr_handler` is given the registers of the
program that is interrupted and what it makes of them is what the program goes
on with, if the routine knows whether there is an error code: for all but the
alignment check, and `int` with the number of an exception that has one. For
these the address and the code segment it is given are others. -/
theorem interrupt_resumes (hl : Linked address code)
    (idt : InterruptDescriptorTable Handler) (events : List (Event Handler))
    (isrHandler : IsrRegisters → IsrRegisters) (ss0 esp0 : Nat) (cause : Cause)
    (vector : Fin 256) (p : Processor)
    (hroom : Room (stubOf vector) p esp0 (cause.pushedCode vector)) :
    ∃ given p', serve code (events.foldl (happen code) (initIdt address idt))
        isrHandler ss0 esp0 cause vector p = some (given, p') ∧
      if cause.Known vector then
        (∃ esp, given = (stubOf vector).frame p esp
          ((cause.pushedCode vector).getD 0)) ∧
        ((isrHandler given).codeSegmentSelector % 4 = p.cs % 4 →
          Resumes p esp0 (isrHandler given) p')
      else (given.eip, given.codeSegmentSelector) = cause.mistaken p := by
  have hready := (ready_initIdt address idt).run hl events
  have hpresent := present_stubOf vector
  have hgate : Gate.ofFlat ((events.foldl (happen code)
      (initIdt address idt)).table vector).flat = _ :=
    (congrArg (fun g => Gate.ofFlat (GateDescriptor.flat g))
      (hready.gates vector vector.isLt)).trans
      (ofFlat_new (hl.small _ hpresent) _ _)
  rw [serve]
  rw [hgate, hl.code _ hpresent]
  refine ⟨_, _, rfl, ?_⟩
  split
  next hknown =>
    have hone := errorCodes_of_known hknown
    exact ⟨⟨_, Stub.registers_of_one _ ss0 hroom hone⟩,
      Stub.run_resumes (by decide : 8 % 4 = 0) hroom hone⟩
  next hknown =>
    have hwords := pushed_of_not_known hknown p
      ((stubOf vector).pushadEsp p esp0 (cause.pushedCode vector))
    obtain ⟨heip, hcs⟩ := Stub.registers_eip _ ss0 hroom hwords.1 hwords.2
    exact Prod.ext heip hcs

/-- A user process whose stack is at 64 KiB. -/
def interrupted : Processor where
  general := ⟨1, 2, 3, 4, 5, 6, 7⟩
  ds := 35
  es := 35
  fs := 35
  gs := 35
  cs := 27
  ss := 35
  eip := 4096
  eflags := 514
  cr2 := 0
  stack := ⟨fun _ => 0, 65536⟩

theorem page_fault_resumes :
    ∃ given p', serve rowCode ([].foldl (happen rowCode)
        (initIdt inARow beforeInit)) id 16 131072 (.processor 6) (14 : Fin 256)
          interrupted = some (given, p') ∧
      if (Cause.processor 6).Known (14 : Fin 256) then
        (∃ esp, given = (stubOf (14 : Fin 256)).frame interrupted esp
          (((Cause.processor 6).pushedCode (14 : Fin 256)).getD 0)) ∧
        ((id given).codeSegmentSelector % 4 = interrupted.cs % 4 →
          Resumes interrupted 131072 (id given) p')
      else (given.eip, given.codeSegmentSelector) =
        (Cause.processor 6).mistaken interrupted :=
  interrupt_resumes linked_inARow beforeInit [] id 16 131072 (.processor 6) 14
    interrupted (by unfold Room; decide)

end InterruptDescriptorTable

end Iposix.Core
