import Iposix.Proofs.Rotation
import Iposix.Sched.Scheduler

/-!
# Who is running

The running process is known twice: to the processor, whose context is its
own, and to the strategy, as the process of `cur`. `Consistent` says that the
two agree and that every saved context is that of the process it is saved in.

`context_switch` moves both together. `assign_process` moves the processor
only, so it keeps them together exactly when it assigns the process that runs
already. `resign_process` moves the strategy once before `context_switch` asks
it who is running, so it keeps them together exactly when that first move goes
nowhere. `along_consistent_iff` says that nothing else ever separates them.
-/

namespace Iposix.Sched

open Iposix.Lib

universe u

variable {Process : Type u}

namespace RoundRobin

variable {s : RoundRobin Process}

/-- There is a list and `cur` is on it. -/
def Ready (s : RoundRobin Process) : Prop := ∃ r, s.Represents (some r)

/-- The process of the node behind the current one, cyclically. -/
def upcoming (s : RoundRobin Process) : Option Process := do
  let n ← s.nodes s.cur
  let n ← s.nodes (if n.next ≠ 0 then n.next else s.listHead)
  some n.process

theorem Ready.getNextProcess (h : s.Ready) :
    ∃ p t, s.getNextProcess = some (some p, t) ∧ s.upcoming = some p ∧
      t.Ready ∧ t.getCurrentProcess = some (some p) := by
  obtain ⟨r, hr⟩ := h
  obtain ⟨n, hn, hgo⟩ := getNextProcess_some hr
  refine ⟨n.process, _, hgo, ?_, ⟨r.next, getNextProcess_represents hr⟩, ?_⟩
  · obtain ⟨m, hm, hlink⟩ := link_eq hr
    rw [upcoming, hm]
    simp only [Option.bind_eq_bind, Option.bind_some, hlink, hn]
  · have hmem : r.next.cur ∈ r.items := r.items_next ▸ r.next.cur_mem
    rw [RoundRobin.getCurrentProcess, if_pos (hr.1.ne_zero _ hmem)]
    simp only [hn, Option.map_some]

theorem Ready.pushNew {pl : Nat} (h : s.Ready) (hf : s.Fresh pl)
    (process : Process) :
    (s.pushNew pl process).Ready ∧
      (s.pushNew pl process).getCurrentProcess = s.getCurrentProcess := by
  obtain ⟨r, hr⟩ := h
  rcases Nat.eq_zero_or_pos pl with rfl | hpl
  · rw [pushNew_zero]
    exact ⟨⟨r, hr⟩, rfl⟩
  · have hpl' : pl ≠ 0 := Nat.ne_of_gt hpl
    have hmem : s.cur ∈ r.items := hr.2 ▸ r.cur_mem
    have hne : s.cur ≠ 0 := hr.1.ne_zero _ hmem
    have hcp : s.cur ≠ pl := fun hcp => hf.not_mem hpl' hr.1 (hcp ▸ hmem)
    refine ⟨⟨_, pushNew_represents process hr hpl' hf⟩, ?_⟩
    rw [RoundRobin.pushNew, if_pos hpl']
    simp only [RoundRobin.getCurrentProcess, if_neg hne, if_neg hcp]

end RoundRobin

namespace Scheduler

variable {s : Scheduler Process}

/-- Both notions of the running process agree, and no saved context belongs
to another process. -/
structure Consistent (s : Scheduler Process) : Prop where
  switches : ∀ e, e ∈ s.switches → e.prev = e.onCpu
  saved : ∀ p, (s.saved p).owner = p
  current : s.strategy.getCurrentProcess = some (some s.running)

/-- The calls that keep the strategy in step with the processor. -/
def InStep (s : Scheduler Process) : Call Process → Prop
  | .assignProcess process =>
      s.strategy.getCurrentProcess = some (some process)
  | .resignProcess =>
      s.strategy.getCurrentProcess = some s.strategy.upcoming
  | _ => True

variable [DecidableEq Process]

/-- A switch away from the running process saves its context where it belongs
and lets `next` run. -/
theorem switchTo_spec (hswitches : ∀ e, e ∈ s.switches → e.prev = e.onCpu)
    (hsaved : ∀ p, (s.saved p).owner = p) (next : Process) :
    (s.switchTo s.running next).running = next ∧
      (∀ e, e ∈ (s.switchTo s.running next).switches → e.prev = e.onCpu) ∧
      ∀ p, ((s.switchTo s.running next).saved p).owner = p := by
  have hsaved' : ∀ p, ((s.switchTo s.running next).saved p).owner = p := by
    intro p
    simp only [Scheduler.switchTo]
    split
    · next hp => exact hp.symm
    · exact hsaved p
  refine ⟨hsaved' next, fun e he => ?_, hsaved'⟩
  rcases List.mem_cons.1 he with rfl | he
  · rfl
  · exact hswitches e he

omit [DecidableEq Process] in
theorem pushNew_spec {pl : Nat} (h : s.Consistent) (hr : s.strategy.Ready)
    (hf : s.strategy.Fresh pl) (process : Process) :
    (s.pushNew pl process).strategy.Ready ∧
      (s.pushNew pl process).Consistent := by
  obtain ⟨hready, hcur⟩ := hr.pushNew hf process
  exact ⟨hready, h.switches, h.saved, hcur.trans h.current⟩

theorem newProcess_spec {pl : Nat} (h : s.Consistent)
    (hr : s.strategy.Ready) (hf : s.strategy.Fresh pl)
    (child : Option Process) (copied : Bool) (registers : Registers) :
    ∃ b t, s.newProcess child copied registers pl = some (b, t) ∧
      t.strategy.Ready ∧ t.Consistent := by
  simp only [newProcess, h.current, Option.bind_eq_bind, Option.bind_some]
  cases child with
  | none => exact ⟨true, s, rfl, hr, h⟩
  | some child =>
      cases copied with
      | false =>
          exact ⟨false, _, rfl, hr, h.switches, h.saved, h.current⟩
      | true =>
          refine ⟨true, _, rfl, ?_⟩
          refine pushNew_spec ?_ ?_ ?_ child
          · refine ⟨h.switches, fun p => ?_, h.current⟩
            simp only
            split
            · next hp => exact hp.symm
            · exact h.saved p
          · exact hr
          · exact hf

theorem contextSwitch_spec (h : s.Consistent) (hr : s.strategy.Ready) :
    ∃ t, s.contextSwitch = some t ∧ t.strategy.Ready ∧ t.Consistent := by
  obtain ⟨p, strategy, hgo, _, hready, hcur⟩ := hr.getNextProcess
  rw [contextSwitch, h.current, hgo]
  simp only [Option.bind_eq_bind, Option.bind_some]
  split
  · obtain ⟨hrun, hswitches, hsaved⟩ :=
      switchTo_spec (s := { s with strategy := strategy }) h.switches h.saved p
    exact ⟨_, rfl, hready, hswitches, hsaved,
      hcur.trans (congrArg (fun q => some (some q)) hrun.symm)⟩
  · next hsame =>
      have heq : s.running = p := by simpa using hsame
      refine ⟨_, rfl, hready, h.switches, h.saved, ?_⟩
      rw [← heq] at hcur
      exact hcur

theorem assignProcess_spec (h : s.Consistent) (hr : s.strategy.Ready)
    (process : Process) :
    ∃ t, s.assignProcess process = some t ∧ t.strategy.Ready ∧
      (t.Consistent ↔ s.strategy.getCurrentProcess = some (some process)) := by
  obtain ⟨hrun, hswitches, hsaved⟩ := switchTo_spec h.switches h.saved process
  refine ⟨s.switchTo s.running process, ?_, hr, fun ht => ?_, fun hp => ?_⟩
  · rw [assignProcess, h.current]
    rfl
  · rw [← hrun]
    exact ht.current
  · refine ⟨hswitches, hsaved, ?_⟩
    rw [hrun]
    exact hp

/-- The strategy moves before `context_switch` asks it who is running: unless
it stays on the running process, either a foreign context is saved or the
strategy is left on a process that does not run. -/
theorem resignProcess_spec (h : s.Consistent) (hr : s.strategy.Ready) :
    ∃ t, s.resignProcess = some t ∧ t.strategy.Ready ∧
      (t.Consistent ↔
        s.strategy.getCurrentProcess = some s.strategy.upcoming) := by
  obtain ⟨p, strategy, hgo, hup, hready, hcur⟩ := hr.getNextProcess
  rw [resignProcess, hgo, hup, h.current]
  simp only [Option.bind_eq_bind, Option.bind_some, Option.some.injEq]
  by_cases hsame : s.running = p
  · -- the first move goes nowhere, the rest is a context switch
    have hmoved : Consistent { s with strategy := strategy } := by
      rw [← hsame] at hcur
      exact ⟨h.switches, h.saved, hcur⟩
    obtain ⟨t, ht, hready', ht'⟩ := contextSwitch_spec hmoved hready
    rw [ht]
    exact ⟨t, rfl, hready', iff_of_true ht' hsame⟩
  · obtain ⟨q, strategy', hgo', _, hready', hcur'⟩ := hready.getNextProcess
    rw [contextSwitch]
    simp only [hcur, hgo', Option.bind_eq_bind, Option.bind_some]
    refine ⟨_, rfl, ?_, iff_of_false (fun ht => ?_) hsame⟩
    · split <;> exact hready'
    · split at ht
      · exact hsame (ht.switches ⟨p, q, s.running⟩ List.mem_cons_self).symm
      · next hpq =>
          have heq : p = q := by simpa using hpq
          have hrun := ht.current
          simp only [hcur', Option.some.injEq] at hrun
          exact hsame (hrun.symm.trans heq.symm)

theorem step_spec (h : s.Consistent) (hr : s.strategy.Ready)
    {call : Call Process} (hf : s.Fresh call) :
    ∃ t, s.step call = some t ∧ t.strategy.Ready ∧
      (t.Consistent ↔ s.InStep call) := by
  cases call with
  | execute registers =>
      exact ⟨_, rfl, hr,
        iff_of_true ⟨h.switches, h.saved, h.current⟩ trivial⟩
  | pushNew pl process =>
      obtain ⟨hready, ht⟩ := pushNew_spec h hr hf process
      exact ⟨_, rfl, hready, iff_of_true ht trivial⟩
  | newProcess child copied registers pl =>
      obtain ⟨b, t, ht, hready, hcons⟩ :=
        newProcess_spec h hr hf child copied registers
      refine ⟨t, ?_, hready, iff_of_true hcons trivial⟩
      rw [step, ht, Option.map_some]
  | contextSwitch =>
      obtain ⟨t, ht, hready, hcons⟩ := contextSwitch_spec h hr
      exact ⟨t, ht, hready, iff_of_true hcons trivial⟩
  | assignProcess process => exact assignProcess_spec h hr process
  | resignProcess => exact resignProcess_spec h hr

/-! ## Runs from `put_process0` -/

theorem putProcess0_spec (process0 : Process) (registers : Registers)
    (fields : Process → Registers) (pid : Process → Nat) (pl : Nat) :
    let s := (boot process0 registers fields pid).putProcess0 pl process0
    (pl = 0 → ¬ s.Consistent) ∧
      (pl ≠ 0 → s.strategy.Ready ∧ s.Consistent) := by
  refine ⟨?_, fun hpl => ⟨⟨_, RoundRobin.pushNew_represents process0
    RoundRobin.init_represents hpl fun _ => rfl⟩, ?_, fun _ => rfl, ?_⟩⟩
  · rintro rfl h
    have hcur := h.current
    simp [putProcess0, pushNew, boot, RoundRobin.pushNew_zero,
      RoundRobin.init, RoundRobin.getCurrentProcess] at hcur
  · intro e he
    cases he
  · simp [putProcess0, pushNew, boot, RoundRobin.pushNew, RoundRobin.init,
      RoundRobin.getCurrentProcess, hpl, running]

/-- A run keeps the strategy and the processor consistent exactly when the
kernel's own list node could be allocated and every call is in step. -/
theorem along_consistent_iff (process0 : Process) (registers : Registers)
    (fields : Process → Registers) (pid : Process → Nat) (pl : Nat)
    (calls : List (Call Process))
    (hfresh : Meets step Fresh
      ((boot process0 registers fields pid).putProcess0 pl process0) calls) :
    Along step Consistent
        ((boot process0 registers fields pid).putProcess0 pl process0) calls ↔
      pl ≠ 0 ∧ Meets step InStep
        ((boot process0 registers fields pid).putProcess0 pl process0)
        calls := by
  obtain ⟨hnull, hput⟩ := putProcess0_spec process0 registers fields pid pl
  generalize (boot process0 registers fields pid).putProcess0 pl process0 = s
    at *
  have hrule : pl ≠ 0 →
      (Along step Consistent s calls ↔ Meets step InStep s calls) :=
    fun hpl => along_iff_meets (I := fun s => s.strategy.Ready)
      (fun _ _ hr h hf => step_spec h hr hf) (hput hpl).1 (hput hpl).2 hfresh
  constructor
  · intro h
    have hpl : pl ≠ 0 := fun hpl => hnull hpl h.head
    exact ⟨hpl, (hrule hpl).1 h⟩
  · intro ⟨hpl, h⟩
    exact (hrule hpl).2 h

/-- Two processes taking turns on timer interrupts. -/
theorem timerRun_consistent :
    let fields : Nat → Registers := fun p => ⟨p, p, p, p⟩
    Along step Consistent
      ((boot 0 (fields 0) fields fun _ => 0).putProcess0 8 0)
      [.pushNew 16 1, .contextSwitch, .execute ⟨5, 5, 5, 5⟩, .contextSwitch] := by
  intro fields
  refine (along_consistent_iff 0 (fields 0) fields (fun _ => 0) 8 _ ?_).2 ?_
  · exact ⟨fun _ => rfl, fun _ _ => ⟨trivial, fun _ _ => ⟨trivial,
      fun _ _ => ⟨trivial, fun _ _ => trivial⟩⟩⟩⟩
  · exact ⟨by decide, trivial, fun _ _ => ⟨trivial, fun _ _ => ⟨trivial,
      fun _ _ => ⟨trivial, fun _ _ => trivial⟩⟩⟩⟩

/-- Process 0 assigns process 1 and a timer interrupt follows: the context
switch saves the context of process 1 in process 0. -/
theorem assignProcess_misplaces :
    let fields : Nat → Registers := fun p => ⟨p, p, p, p⟩
    let s := (boot 0 (fields 0) fields fun _ => 0).putProcess0 8 0
    let calls : List (Call Nat) :=
      [.pushNew 16 1, .assignProcess 1, .contextSwitch]
    Meets step Fresh s calls ∧ ¬ Along step Consistent s calls ∧
      ∃ t, calls.foldlM step s = some t ∧ (t.saved 0).owner = 1 := by
  intro fields s calls
  have hfresh : Meets step Fresh s calls := by
    refine ⟨fun _ => rfl, fun t ht => ⟨trivial, fun t ht => ⟨trivial,
      fun t ht => trivial⟩⟩⟩
  refine ⟨hfresh, fun h => ?_, _, rfl, rfl⟩
  obtain ⟨_, t, ht, _, t', ht', hbad⟩ := h
  cases ht
  cases ht'
  have hcur := hbad.head.current
  simp [s, putProcess0, boot, pushNew, switchTo, RoundRobin.pushNew,
    RoundRobin.init, RoundRobin.getCurrentProcess, running] at hcur

end Scheduler

end Iposix.Sched
