import Iposix.Proofs.ContextSave
import Iposix.Proofs.StackCopy
import Iposix.Sched.Fork

/-!
# A fork returns twice

The parent is answered with the process number of the child, which no process
has had before. The child is answered with zero, once, and that is when it gets
the processor for the first time. Whatever happens in between: the child `Waits`
with its locals on its own stack, the reference among them, which the copy has
moved, and nobody touches that stack before the child does.
-/

namespace Iposix.Sched

open Iposix.Lib

universe u

variable {Process : Type u}

/-! ## Writing words -/

/-- Words that do not overlap. -/
def Apart (a b : Nat) : Prop := a + 4 ≤ b ∨ b + 4 ≤ a

theorem load_writes_of_apart {a : Nat} : ∀ {writes : List (Nat × Nat)}
    {m : Nat → UInt8}, (∀ w, w ∈ writes → Apart a w.1) →
    load 4 (writes.foldl (fun m w => store 4 m w.1 w.2) m) a = load 4 m a := by
  intro writes
  induction writes with
  | nil => intro m _; rfl
  | cons w writes ih =>
      intro m h
      rw [List.foldl_cons, ih fun v hv => h v (List.mem_cons_of_mem w hv)]
      exact load_store_of_disjoint (h w List.mem_cons_self)

/-- A word that is written is read, if no other write overlaps. -/
theorem load_writes {a v : Nat} : ∀ {writes : List (Nat × Nat)}
    {m : Nat → UInt8}, writes.Pairwise (fun w w' => Apart w.1 w'.1) →
    (a, v) ∈ writes →
    load 4 (writes.foldl (fun m w => store 4 m w.1 w.2) m) a =
      v % 4294967296 := by
  intro writes
  induction writes with
  | nil => intro m _ h; cases h
  | cons w writes ih =>
      intro m hpair hmem
      obtain ⟨hfirst, hrest⟩ := List.pairwise_cons.1 hpair
      rw [List.foldl_cons]
      rcases List.mem_cons.1 hmem with rfl | hmem
      · rw [load_writes_of_apart hfirst]
        exact load_store 4 m a v
      · exact ih hrest hmem

theorem writes_apply {b : Nat} : ∀ {writes : List (Nat × Nat)}
    {m : Nat → UInt8}, (∀ w, w ∈ writes → b < w.1 ∨ w.1 + 4 ≤ b) →
    writes.foldl (fun m w => store 4 m w.1 w.2) m b = m b := by
  intro writes
  induction writes with
  | nil => intro m _; rfl
  | cons w writes ih =>
      intro m h
      rw [List.foldl_cons, ih fun v hv => h v (List.mem_cons_of_mem w hv)]
      exact store_apply_of_disjoint (h w List.mem_cons_self)

/-! ## Stacks -/

/-- The kernel stack with this base, `KERNEL_STACK_SIZE` words. -/
def OnStack (base a : Nat) : Prop := base ≤ a + 65532 ∧ a < base + 4

/-- A stack as a process has it. -/
structure StackOk (base : Nat) : Prop where
  aligned : base % 4 = 0
  low : 65532 ≤ base
  high : base + 4 ≤ 4294967296

def StacksApart (base base' : Nat) : Prop :=
  base + 65536 ≤ base' ∨ base' + 65536 ≤ base

theorem StacksApart.not_onStack {base base' a : Nat}
    (h : StacksApart base base') (ha : OnStack base a) : ¬ OnStack base' a := by
  rw [StacksApart] at h
  rw [OnStack] at ha ⊢
  omega

namespace Layout

/-- The locals lie between the stack pointer and the base, and apart. -/
structure Fits (l : Layout) (base esp : Nat) : Prop where
  aligned : esp % 4 = 0
  onStack : base ≤ esp + 65532
  offsets : ∀ d, d ∈ [l.reference, l.childPid, l.parentPid, l.preparedChildPid,
    l.preparedParentPid] → 4 ≤ d ∧ d % 4 = 0 ∧ esp + d < base
  apart : [l.reference, l.childPid, l.parentPid, l.preparedChildPid,
    l.preparedParentPid].Pairwise Apart

variable {l : Layout} {base esp childPid parentPid : Nat}

theorem Fits.childPid_lt (h : l.Fits base esp) : esp + l.childPid < base :=
  (h.offsets _ (by simp)).2.2

/-- What is read of the locals after they are written. -/
theorem load_locals (h : l.Fits base esp) (hbase : base < 4294967296)
    (hchild : childPid < 4294967296) (hparent : parentPid < 4294967296)
    (m : Nat → UInt8) :
    let m' := (l.locals esp childPid parentPid).foldl
      (fun m w => store 4 m w.1 w.2) m
    load 4 m' (esp + l.reference) = esp + l.childPid ∧
      load 4 m' (esp + l.childPid) = childPid ∧
      load 4 m' (esp + l.parentPid) = parentPid ∧
      load 4 m' (esp + l.preparedChildPid) = childPid ∧
      load 4 m' (esp + l.preparedParentPid) = parentPid := by
  intro m'
  have hpair : (l.locals esp childPid parentPid).Pairwise
      fun w w' => Apart w.1 w'.1 := by
    have happart : ([l.reference, l.childPid, l.parentPid, l.preparedChildPid,
        l.preparedParentPid].map (esp + ·)).Pairwise Apart :=
      List.pairwise_map.2 (h.apart.imp fun hab => by
        rw [Apart] at hab ⊢
        omega)
    exact (List.pairwise_map (f := Prod.fst)).1 happart
  have hread : ∀ {a v}, (a, v) ∈ l.locals esp childPid parentPid →
      v < 4294967296 → load 4 m' a = v := fun hmem hv =>
    (load_writes hpair hmem).trans (Nat.mod_eq_of_lt hv)
  have hvar := h.childPid_lt
  refine ⟨hread ?_ (by omega), hread ?_ hchild, hread ?_ hparent,
    hread ?_ hchild, hread ?_ hparent⟩
  all_goals simp [locals]

/-- They are written on the stack. -/
theorem locals_onStack (h : l.Fits base esp) (hbase : base % 4 = 0)
    {w : Nat × Nat} (hw : w ∈ l.locals esp childPid parentPid) :
    base ≤ w.1 + 65532 ∧ w.1 + 4 ≤ base := by
  have haligned := h.aligned
  have honStack := h.onStack
  have hall := h.offsets
  simp only [locals, List.mem_cons, List.not_mem_nil, or_false] at hw
  simp only [List.mem_cons, List.not_mem_nil, or_false, forall_eq_or_imp,
    forall_eq] at hall
  rcases hw with rfl | rfl | rfl | rfl | rfl <;> dsimp only <;> omega

end Layout

/-! ## The scheduler -/

theorem RoundRobin.nodes_pushNew {s : RoundRobin Process} {pl a : Nat}
    {process : Process} {n : ProcessList Process}
    (h : (s.pushNew pl process).nodes a = some n) :
    s.nodes a = some n ∨ n.process = process := by
  rw [pushNew] at h
  split at h
  next =>
    dsimp only at h
    split at h
    · cases h
      exact .inr rfl
    · exact .inl h
  next => exact .inl h

theorem RoundRobin.nodes_getNextProcess {s t : RoundRobin Process}
    {p : Process} (hr : s.Ready) (h : s.getNextProcess = some (some p, t)) :
    t.nodes = s.nodes ∧ ∃ a n, s.nodes a = some n ∧ n.process = p := by
  obtain ⟨r, hr⟩ := hr
  obtain ⟨n, hn, hgo⟩ := getNextProcess_some hr
  rw [hgo] at h
  cases h
  exact ⟨rfl, _, n, hn, rfl⟩

namespace Scheduler

variable {s : Scheduler Process} [DecidableEq Process]

/-- What a context switch leaves: the next process runs, with what it had saved,
and the one before has saved what it had. -/
structure Switched (s t : Scheduler Process) : Prop where
  ready : t.strategy.Ready
  consistent : t.Consistent
  nodes : t.strategy.nodes = s.strategy.nodes
  pids : t.pid = s.pid ∧ t.nextPid = s.nextPid
  listed : ∃ a n, s.strategy.nodes a = some n ∧ n.process = t.running
  saved : ∀ p, p ≠ s.running → t.saved p = s.saved p
  moved : t.running = s.running ∧ t.cpu = s.cpu ∨
    t.running ≠ s.running ∧ t.cpu = s.saved t.running ∧
      t.saved s.running = s.cpu

theorem contextSwitch_switched (h : s.Consistent) (hr : s.strategy.Ready) :
    ∃ t, s.contextSwitch = some t ∧ s.Switched t := by
  obtain ⟨t, hswitch, hready, hconsistent⟩ := contextSwitch_spec h hr
  refine ⟨t, hswitch, ?_⟩
  obtain ⟨p, strategy, hgo, -, -, -⟩ := hr.getNextProcess
  obtain ⟨hnodes, a, n, hn, hp⟩ := RoundRobin.nodes_getNextProcess hr hgo
  rw [contextSwitch, h.current, hgo] at hswitch
  simp only [Option.bind_eq_bind, Option.bind_some, Option.some.injEq]
    at hswitch
  split at hswitch
  next hne =>
    have hne : s.running ≠ p := hne
    have hcpu : t.cpu = s.saved p := by
      rw [← hswitch]
      exact if_neg fun heq => hne heq.symm
    have hrunning : t.running = p := by
      rw [running, hcpu]
      exact h.saved p
    subst hswitch
    refine ⟨hready, hconsistent, hnodes, ⟨rfl, rfl⟩, ⟨a, n, hn, ?_⟩,
      fun q hq => if_neg hq, .inr ⟨?_, ?_, if_pos rfl⟩⟩
    · exact hp.trans hrunning.symm
    · rw [hrunning]
      exact fun heq => hne heq.symm
    · rw [hrunning]
      exact hcpu
  next heq =>
    have heq : s.running = p := Decidable.not_not.1 heq
    subst hswitch
    exact ⟨hready, hconsistent, hnodes, ⟨rfl, rfl⟩, ⟨a, n, hn, hp.trans heq.symm⟩,
      fun _ _ => rfl, .inl ⟨rfl, rfl⟩⟩

end Scheduler

namespace ForkSystem

variable {l : Layout} {s : ForkSystem Process}

/-! ## Children that have not run yet -/

/-- A child that has not run yet: it is about to return from `get_eip`, and its
locals lie on its own stack. -/
structure Waits (l : Layout) (s : ForkSystem Process) (c : Process) : Prop where
  mem : c ∈ s.processes
  notRunning : c ≠ s.sched.running
  eip : (s.sched.saved c).registers.eip = l.prepareEip
  fits : l.Fits (s.base c) (s.sched.saved c).registers.esp
  reference : load 4 s.memory
    ((s.sched.saved c).registers.esp + l.reference) =
      (s.sched.saved c).registers.esp + l.childPid
  parents : load 4 s.memory
      ((s.sched.saved c).registers.esp + l.preparedChildPid) ≠
    load 4 s.memory ((s.sched.saved c).registers.esp + l.parentPid)

/-- A process that runs or has run. -/
def Started (l : Layout) (s : ForkSystem Process) (p : Process) : Prop :=
  p = s.sched.running ∨ (s.sched.saved p).registers.eip ≠ l.prepareEip

theorem Waits.not_started {c : Process} (h : s.Waits l c) : ¬ s.Started l c :=
  fun hs => hs.elim h.notRunning fun heip => heip h.eip

/-- What holds whenever a process runs. -/
structure Inv (l : Layout) (s : ForkSystem Process) : Prop where
  consistent : s.sched.Consistent
  ready : s.sched.strategy.Ready
  running : s.sched.running ∈ s.processes
  listed : ∀ a n, s.sched.strategy.nodes a = some n → n.process ∈ s.processes
  pid_lt : ∀ p, p ∈ s.processes → s.sched.pid p < s.sched.nextPid
  nextPid_pos : 0 < s.sched.nextPid
  pid_inj : ∀ p q, p ∈ s.processes → q ∈ s.processes →
    s.sched.pid p = s.sched.pid q → p = q
  stackOk : ∀ p, p ∈ s.processes → StackOk (s.base p)
  apart : ∀ p q, p ∈ s.processes → q ∈ s.processes → p ≠ q →
    StacksApart (s.base p) (s.base q)
  states : ∀ p, p ∈ s.processes → s.Waits l p ∨ s.Started l p

/-- A process object that `new` may deliver: it is none that there is. -/
structure NewProcess (s : ForkSystem Process) (c : Process) : Prop where
  notMem : c ∉ s.processes
  stack : StackOk (s.base c)
  apart : ∀ p, p ∈ s.processes → StacksApart (s.base p) (s.base c)

/-- What is taken for granted of an event. A fork happens on the stack of the
process that runs, process numbers are no addresses of stacks, and a process
leaves the stacks of the others alone. -/
def Allowed (l : Layout) (s : ForkSystem Process) : Event Process → Prop
  | .forkCall child _ esp _ _ pl =>
      (∀ c, child = some c → s.NewProcess c) ∧
        l.Fits (s.base s.sched.running) esp ∧ s.sched.nextPid < esp ∧
        s.sched.strategy.Fresh pl
  | .newProcess child _ registers pl =>
      (∀ c, child = some c → s.NewProcess c) ∧
        registers.eip ≠ l.prepareEip ∧ s.sched.nextPid + 1 < 4294967296 ∧
        s.sched.strategy.Fresh pl
  | .work memory => ∀ p, p ∈ s.processes → p ≠ s.sched.running →
      ∀ a, OnStack (s.base p) a → memory a = s.memory a
  | .tick .. => True

/-- A waiting child is not affected by what leaves its context and its stack
alone. -/
theorem Waits.of_same {t : ForkSystem Process} {c : Process}
    (h : s.Waits l c) (hstack : StackOk (s.base c)) (hmem : c ∈ t.processes)
    (hrunning : c ≠ t.sched.running)
    (hsaved : t.sched.saved c = s.sched.saved c) (hbase : t.base = s.base)
    (hmemory : ∀ a, OnStack (s.base c) a → t.memory a = s.memory a) :
    t.Waits l c := by
  have hload : ∀ d, d ∈ [l.reference, l.childPid, l.parentPid,
      l.preparedChildPid, l.preparedParentPid] →
      load 4 t.memory ((s.sched.saved c).registers.esp + d) =
        load 4 s.memory ((s.sched.saved c).registers.esp + d) := by
    intro d hd
    obtain ⟨-, h₂, h₃⟩ := h.fits.offsets d hd
    have h₁ := h.fits.onStack
    have h₄ := h.fits.aligned
    have h₅ := hstack.aligned
    refine load_congr fun a ha ha' => hmemory a ?_
    rw [OnStack]
    omega
  refine ⟨hmem, hrunning, ?_, ?_, ?_, ?_⟩
  · rw [hsaved]
    exact h.eip
  · rw [hsaved, hbase]
    exact h.fits
  · rw [hsaved, hload _ (by simp)]
    exact h.reference
  · rw [hsaved, hload _ (by simp), hload _ (by simp)]
    exact h.parents

/-! ## What an event leaves alone -/

/-- The process that runs goes on, and there are no other processes. -/
structure Keeps (s t : ForkSystem Process) : Prop where
  running : t.sched.running = s.sched.running
  consistent : t.sched.Consistent
  ready : t.sched.strategy.Ready
  nodes : t.sched.strategy.nodes = s.sched.strategy.nodes
  processes : t.processes = s.processes
  pid : ∀ p, p ∈ s.processes → t.sched.pid p = s.sched.pid p
  nextPid : s.sched.nextPid ≤ t.sched.nextPid
  base : t.base = s.base
  saved : t.sched.saved = s.sched.saved
  memory : ∀ p, p ∈ s.processes → p ≠ s.sched.running →
    ∀ a, OnStack (s.base p) a → t.memory a = s.memory a

theorem Inv.keeps {t : ForkSystem Process} (h : s.Inv l) (hk : Keeps s t) :
    t.Inv l ∧ (∀ c, s.Waits l c → t.Waits l c) ∧
      ∀ p, s.Started l p → t.Started l p := by
  have hwaits : ∀ c, s.Waits l c → t.Waits l c := fun c hc =>
    hc.of_same (h.stackOk c hc.mem) (hk.processes ▸ hc.mem)
      (hk.running ▸ hc.notRunning) (congrFun hk.saved c) hk.base
      (hk.memory c hc.mem hc.notRunning)
  have hstarted : ∀ p, s.Started l p → t.Started l p := by
    intro p hp
    rw [Started, hk.running, hk.saved]
    exact hp
  refine ⟨⟨hk.consistent, hk.ready, ?_, fun a n hn => ?_, fun p hp => ?_, ?_,
    fun p q hp hq hpq => ?_, fun p hp => ?_, fun p q hp hq hpq => ?_,
    fun p hp => ?_⟩, hwaits, hstarted⟩
  · rw [hk.running, hk.processes]
    exact h.running
  · rw [hk.nodes] at hn
    rw [hk.processes]
    exact h.listed a n hn
  · rw [hk.processes] at hp
    rw [hk.pid p hp]
    exact Nat.lt_of_lt_of_le (h.pid_lt p hp) hk.nextPid
  · exact Nat.lt_of_lt_of_le h.nextPid_pos hk.nextPid
  · rw [hk.processes] at hp hq
    rw [hk.pid p hp, hk.pid q hq] at hpq
    exact h.pid_inj p q hp hq hpq
  · rw [hk.processes] at hp
    rw [hk.base]
    exact h.stackOk p hp
  · rw [hk.processes] at hp hq
    rw [hk.base]
    exact h.apart p q hp hq hpq
  · rw [hk.processes] at hp
    exact (h.states p hp).imp (hwaits p) (hstarted p)

theorem Inv.answer (h : s.Inv l) (value : Nat) : Keeps s (s.answer value) :=
  ⟨rfl, h.consistent, h.ready, rfl, rfl, fun _ _ => rfl, Nat.le_refl _, rfl, rfl,
    fun _ _ _ _ _ => rfl⟩

/-- The process that runs goes on, and there is one more. -/
structure Adds (l : Layout) (s t : ForkSystem Process) (c : Process) :
    Prop where
  fresh : s.NewProcess c
  running : t.sched.running = s.sched.running
  consistent : t.sched.Consistent
  ready : t.sched.strategy.Ready
  nodes : ∀ a n, t.sched.strategy.nodes a = some n →
    s.sched.strategy.nodes a = some n ∨ n.process = c
  processes : t.processes = c :: s.processes
  pid : ∀ p, p ≠ c → t.sched.pid p = s.sched.pid p
  childPid : t.sched.pid c = s.sched.nextPid
  nextPid : t.sched.nextPid = s.sched.nextPid + 1
  base : t.base = s.base
  saved : ∀ p, p ≠ c → t.sched.saved p = s.sched.saved p
  memory : ∀ p, p ∈ s.processes → p ≠ s.sched.running →
    ∀ a, OnStack (s.base p) a → t.memory a = s.memory a
  state : t.Waits l c ∨ t.Started l c

theorem Inv.adds {t : ForkSystem Process} {c : Process} (h : s.Inv l)
    (ha : Adds l s t c) : t.Inv l ∧ (∀ p, s.Waits l p → t.Waits l p) ∧
      ∀ p, p ∈ s.processes → s.Started l p → t.Started l p := by
  have hold : ∀ {p}, p ∈ s.processes → p ≠ c := fun hp heq =>
    ha.fresh.notMem (heq ▸ hp)
  have hmem : ∀ {p}, p ∈ t.processes ↔ p = c ∨ p ∈ s.processes := by
    intro p
    rw [ha.processes]
    exact List.mem_cons
  have hwaits : ∀ p, s.Waits l p → t.Waits l p := fun p hp =>
    hp.of_same (h.stackOk p hp.mem) (hmem.2 (.inr hp.mem))
      (ha.running ▸ hp.notRunning) (ha.saved p (hold hp.mem)) ha.base
      (ha.memory p hp.mem hp.notRunning)
  have hstarted : ∀ p, p ∈ s.processes → s.Started l p → t.Started l p := by
    intro p hp hs
    rw [Started, ha.running, ha.saved p (hold hp)]
    exact hs
  refine ⟨⟨ha.consistent, ha.ready, ?_, fun a n hn => ?_, fun p hp => ?_, ?_,
    fun p q hp hq hpq => ?_, fun p hp => ?_, fun p q hp hq hpq => ?_,
    fun p hp => ?_⟩, hwaits, hstarted⟩
  · rw [ha.running]
    exact hmem.2 (.inr h.running)
  · rcases ha.nodes a n hn with hn | heq
    · exact hmem.2 (.inr (h.listed a n hn))
    · exact hmem.2 (.inl heq)
  · rw [ha.nextPid]
    rcases hmem.1 hp with rfl | hp
    · rw [ha.childPid]
      exact Nat.lt_succ_self _
    · rw [ha.pid p (hold hp)]
      exact Nat.lt_succ_of_lt (h.pid_lt p hp)
  · rw [ha.nextPid]
    exact Nat.succ_pos _
  · rcases hmem.1 hp with rfl | hp <;> rcases hmem.1 hq with rfl | hq
    · rfl
    · rw [ha.childPid, ha.pid q (hold hq)] at hpq
      exact absurd (h.pid_lt q hq) (hpq ▸ Nat.lt_irrefl _)
    · rw [ha.childPid, ha.pid p (hold hp)] at hpq
      exact absurd (h.pid_lt p hp) (hpq ▸ Nat.lt_irrefl _)
    · rw [ha.pid p (hold hp), ha.pid q (hold hq)] at hpq
      exact h.pid_inj p q hp hq hpq
  · rw [ha.base]
    rcases hmem.1 hp with rfl | hp
    · exact ha.fresh.stack
    · exact h.stackOk p hp
  · rw [ha.base]
    rcases hmem.1 hp with rfl | hp <;> rcases hmem.1 hq with rfl | hq
    · exact absurd rfl hpq
    · exact Or.symm (ha.fresh.apart q hq)
    · exact ha.fresh.apart p hp
    · exact h.apart p q hp hq hpq
  · rcases hmem.1 hp with rfl | hp
    · exact ha.state
    · exact (h.states p hp).imp (hwaits p) (hstarted p hp)

/-! ## The end of a fork -/

theorem finish_parent {esp ret pl : Nat} {c : Process}
    (h : ret = load 4 s.memory (esp + l.parentPid)) :
    s.finish l esp ret pl c =
      { s with sched := s.sched.pushNew pl c }.answer
        (load 4 s.memory (esp + l.childPid)) := by
  rw [finish, Layout.afterPrepare, if_neg (not_not.2 h)]
  rfl

theorem finish_child {esp ret pl : Nat} {c : Process}
    (h : ret ≠ load 4 s.memory (esp + l.parentPid))
    (href : load 4 s.memory (esp + l.reference) = esp + l.childPid) :
    s.finish l esp ret pl c =
      { s with memory := store 4 s.memory (esp + l.childPid) 0 }.answer 0 := by
  have hzero : load 4 (store 4 s.memory (esp + l.childPid) 0)
      (esp + l.childPid) = 0 := load_store 4 s.memory _ 0
  rw [finish, Layout.afterPrepare, if_pos h, href]
  simp only [Bool.false_eq_true, if_false, hzero]

/-! ## The copy of the stack -/

variable [DecidableEq Process]

/-- The stack of the child after `prepare`: words that are no addresses of the
parent's stack are copied, addresses are moved. -/
structure Prepared (l : Layout) (s t : ForkSystem Process) (cur c : Process)
    (esp top : Nat) : Prop where
  depth : top + (s.base cur - esp) = s.base c
  saved : (t.sched.saved c).owner = c ∧
    (t.sched.saved c).registers.eip = l.prepareEip ∧
    (t.sched.saved c).registers.esp = top
  word : ∀ d, 4 ≤ d → d % 4 = 0 → esp + d < s.base cur →
    load 4 s.memory (esp + d) ≤ esp →
    load 4 t.memory (top + d) = load 4 s.memory (esp + d)
  address : ∀ d e, 4 ≤ d → d % 4 = 0 → esp + d < s.base cur → 0 < e →
    esp + e < s.base cur → load 4 s.memory (esp + d) = esp + e →
    load 4 t.memory (top + d) = top + e
  memory : ∀ a, ¬ OnStack (s.base c) a → t.memory a = s.memory a

/-- What `prepare` changes besides. -/
structure SavedOnly (s t : ForkSystem Process) (c : Process) : Prop where
  strategy : t.sched.strategy = s.sched.strategy
  cpu : t.sched.cpu = s.sched.cpu
  pid : t.sched.pid = s.sched.pid
  nextPid : t.sched.nextPid = s.sched.nextPid
  switches : t.sched.switches = s.sched.switches
  saved : ∀ p, p ≠ c → t.sched.saved p = s.sched.saved p
  processes : t.processes = s.processes
  base : t.base = s.base
  answers : t.answers = s.answers

theorem prepare_spec {cur c : Process} {esp : Nat}
    (hfits : l.Fits (s.base cur) esp) (hcur : StackOk (s.base cur))
    (hc : StackOk (s.base c)) (hapart : StacksApart (s.base cur) (s.base c))
    (ebp pageTablePtr : Nat) :
    ∃ t top, s.prepare l cur c esp ebp pageTablePtr = some t ∧
      Prepared l s t cur c esp top ∧ SavedOnly s t c := by
  have hesp := hfits.aligned
  have honStack := hfits.onStack
  have hvar := hfits.childPid_lt
  obtain ⟨hcur₁, hcur₂, hcur₃⟩ := hcur
  obtain ⟨hc₁, hc₂, hc₃⟩ := hc
  rw [StacksApart] at hapart
  obtain ⟨m', hrun, hwords, hframe⟩ := copyAndAdaptStack_spec
    ⟨hesp, hcur₁⟩ (by omega) (by omega)
    (by omega : s.base c < 4294967296) (by omega) (by omega)
    (Nat.lt_succ_self (s.base cur - esp)) s.memory ebp
  have hmoved : ∀ j, esp + j ≤ s.base cur →
      moved (s.base cur) (s.base c) (esp + j) =
        moved (s.base cur) (s.base c) esp + j := by
    intro j hj
    rw [moved_word (by omega) (by omega) (by omega) hj]
    exact congrArg (· + j) (moved_word (j := 0) (by omega) (by omega) (by omega)
      (by omega)).symm
  have htop : moved (s.base cur) (s.base c) esp + (s.base cur - esp) =
      s.base c := by
    have hzero : moved (s.base cur) (s.base c) (esp + 0) =
        s.base c - (s.base cur - esp) + 0 :=
      moved_word (by omega) (by omega) (by omega) (by omega)
    rw [Nat.add_zero] at hzero
    omega
  generalize moved (s.base cur) (s.base c) esp = top at *
  have hword : ∀ d, 4 ≤ d → d % 4 = 0 → esp + d < s.base cur →
      load 4 m' (top + d) = adapt (s.base cur) esp
        (i32 (u32 ((s.base c : Int) - s.base cur)))
        (load 4 s.memory (esp + d)) := by
    intro d hd hd₄ hlt
    obtain ⟨j, rfl⟩ : ∃ j, d = 4 * j := ⟨d / 4, by omega⟩
    exact hwords j (by omega) (by omega)
  have hprepare : s.prepare l cur c esp ebp pageTablePtr = some { s with
      memory := m'
      sched := { s.sched with
        saved := Function.update s.sched.saved c ⟨c, ⟨top,
          moved (s.base cur) (s.base c) ebp, l.prepareEip, pageTablePtr⟩⟩ } } := by
    rw [prepare, ProcessScheduleData.prepare, ProcessScheduleData.copyStack, hrun]
  refine ⟨_, top, hprepare, ⟨htop, ?_, fun d hd hd₄ hlt hle => ?_,
    fun d e hd hd₄ hlt hpos he heq => ?_, fun a ha => ?_⟩, ⟨rfl, rfl, rfl, rfl,
    rfl, fun p hp => Function.update_of_ne hp .., rfl, rfl, rfl⟩⟩
  · simp only [Function.update_self]
    exact ⟨trivial, trivial, trivial⟩
  · rw [hword d hd hd₄ hlt]
    exact if_neg fun h => absurd h.1 (Nat.not_lt.2 hle)
  · rw [hword d hd hd₄ hlt, heq, adapt, if_pos ⟨by omega, he⟩, add_movement]
    exact hmoved e (by omega)
  · refine hframe a ?_
    rw [OnStack] at ha
    omega

/-! ## The events -/

/-- A fork that fails answers so. -/
theorem forkCall_fails (h : s.Inv l) {child : Option Process} {copied : Bool}
    {esp ebp pageTablePtr pl : Nat}
    (hallowed : s.Allowed l (.forkCall child copied esp ebp pageTablePtr pl))
    (hfails : child = none ∨ copied = false) :
    ∃ t, s.forkCall l child copied esp ebp pageTablePtr pl = some t ∧
      Keeps s t ∧
      t.answers = (s.sched.running, 4294967295) :: s.answers := by
  obtain ⟨hnew, hfits, hpids, -⟩ := hallowed
  have hlt := hfits.childPid_lt
  have hhigh := (h.stackOk _ h.running).high
  have hnext : u32 (s.sched.nextPid + 1 : Nat) = s.sched.nextPid + 1 :=
    u32_of_lt (by omega)
  rw [forkCall, h.consistent.current]
  simp only [Option.bind_eq_bind, Option.bind_some]
  cases child with
  | none =>
      exact ⟨_, rfl, h.answer _, rfl⟩
  | some c =>
      obtain rfl : copied = false := hfails.resolve_left nofun
      have hc := hnew c rfl
      refine ⟨_, rfl, ⟨rfl, ⟨h.consistent.switches, h.consistent.saved,
        h.consistent.current⟩, h.ready, rfl, rfl, fun p hp => ?_, ?_, rfl, rfl,
        fun _ _ _ _ _ => rfl⟩, rfl⟩
      · have hne : p ≠ c := fun heq => hc.notMem (heq ▸ hp)
        exact Function.update_of_ne hne ..
      · show s.sched.nextPid ≤ u32 (s.sched.nextPid + 1 : Nat)
        rw [hnext]
        exact Nat.le_succ _

/-- A fork that succeeds answers with a new process number and leaves a child
that waits. -/
theorem forkCall_succeeds (h : s.Inv l) {c : Process}
    {esp ebp pageTablePtr pl : Nat}
    (hallowed : s.Allowed l (.forkCall (some c) true esp ebp pageTablePtr pl)) :
    ∃ t, s.forkCall l (some c) true esp ebp pageTablePtr pl = some t ∧
      Adds l s t c ∧ t.Waits l c ∧
      t.answers = (s.sched.running, s.sched.nextPid) :: s.answers := by
  obtain ⟨hnew, hfits, hpids, hpl⟩ := hallowed
  have hc := hnew c rfl
  have hlt := hfits.childPid_lt
  have hcur := h.stackOk _ h.running
  have hapart := hc.apart _ h.running
  have hhigh := hcur.high
  have hpid := h.pid_lt _ h.running
  have hne : s.sched.running ≠ c := fun heq => hc.notMem (heq ▸ h.running)
  have hnext : u32 (s.sched.nextPid + 1 : Nat) = s.sched.nextPid + 1 :=
    u32_of_lt (by omega)
  rw [forkCall, h.consistent.current]
  simp only [Option.bind_eq_bind, Option.bind_some, Bool.not_true,
    Bool.false_eq_true, if_false]
  have hchildPid : (s.setPid c).sched.pid c = s.sched.nextPid :=
    Function.update_self ..
  have hparentPid : (s.setPid c).sched.pid s.sched.running =
      s.sched.pid s.sched.running := Function.update_of_ne hne ..
  rw [hchildPid, hparentPid]
  obtain ⟨href, hvar, hparent, hprepared, hreturned⟩ := l.load_locals hfits
    (by omega) (by omega : s.sched.nextPid < 4294967296)
    (by omega : s.sched.pid s.sched.running < 4294967296) s.memory
  have hlocals : ∀ a, ¬ OnStack (s.base s.sched.running) a →
      (l.locals esp s.sched.nextPid (s.sched.pid s.sched.running)).foldl
        (fun m w => store 4 m w.1 w.2) s.memory a = s.memory a := by
    intro a ha
    refine writes_apply fun w hw => ?_
    have := l.locals_onStack hfits hcur.aligned hw
    rw [OnStack] at ha
    omega
  let s₃ : ForkSystem Process := { (s.setPid c).write (l.locals esp
    s.sched.nextPid (s.sched.pid s.sched.running)) with
      processes := c :: s.processes }
  obtain ⟨t, top, hprepare, hprep, hsame⟩ :=
    prepare_spec (s := s₃) hfits hcur hc.stack hapart ebp pageTablePtr
  have hread : ∀ d, d ∈ [l.reference, l.childPid, l.parentPid,
      l.preparedChildPid, l.preparedParentPid] →
      load 4 t.memory (esp + d) = load 4 s₃.memory (esp + d) := by
    intro d hd
    obtain ⟨-, h₂, h₃⟩ := hfits.offsets d hd
    have h₁ := hfits.onStack
    have h₄ := hfits.aligned
    have h₅ := hcur.aligned
    refine load_congr fun a ha ha' => hprep.memory a ?_
    refine hapart.not_onStack ?_
    rw [OnStack]
    omega
  have hmove : ∀ d, d ∈ [l.reference, l.childPid, l.parentPid,
      l.preparedChildPid, l.preparedParentPid] →
      4 ≤ d ∧ d % 4 = 0 ∧ esp + d < s.base s.sched.running := hfits.offsets
  have hprepare' : s₃.prepare l s.sched.running c esp ebp pageTablePtr =
      some t := hprepare
  have hequal : load 4 t.memory (esp + l.preparedParentPid) =
      load 4 t.memory (esp + l.parentPid) := by
    rw [hread _ (by simp), hread _ (by simp)]
    exact hreturned.trans hparent.symm
  have hrunning : t.sched.running = s.sched.running :=
    congrArg Context.owner hsame.cpu
  have hconsistent : t.sched.Consistent := by
    refine ⟨?_, fun p => ?_, ?_⟩
    · rw [hsame.switches]
      exact h.consistent.switches
    · by_cases hp : p = c
      · rw [hp]
        exact hprep.saved.1
      · rw [hsame.saved p hp]
        exact h.consistent.saved p
    · rw [hsame.strategy, hrunning]
      exact h.consistent.current
  have hready : t.sched.strategy.Ready := by
    rw [hsame.strategy]
    exact h.ready
  obtain ⟨hready', hconsistent'⟩ := Scheduler.pushNew_spec hconsistent hready
    (by rw [hsame.strategy]; exact hpl) c
  have hwaits : Waits l ({ t with sched := t.sched.pushNew pl c }.answer
      (load 4 t.memory (esp + l.childPid))) c := by
    obtain ⟨-, heip, hesp⟩ := hprep.saved
    have hdepth : top + (s.base s.sched.running - esp) = s.base c := hprep.depth
    have hbase : t.base = s.base := hsame.base
    refine ⟨?_, ?_, heip, ?_, ?_, ?_⟩
    · show c ∈ t.processes
      rw [hsame.processes]
      exact List.mem_cons_self
    · show c ≠ t.sched.running
      rw [hrunning]
      exact hne.symm
    · show l.Fits (t.base c) (t.sched.saved c).registers.esp
      have h₁ := hfits.onStack
      have h₂ := hfits.aligned
      have h₃ := hcur.aligned
      have h₄ := hc.stack.aligned
      rw [hesp, hbase]
      refine ⟨by omega, by omega, fun d hd => ?_, hfits.apart⟩
      obtain ⟨hd₁, hd₂, hd₃⟩ := hmove d hd
      exact ⟨hd₁, hd₂, by omega⟩
    · show load 4 t.memory ((t.sched.saved c).registers.esp + l.reference) =
        (t.sched.saved c).registers.esp + l.childPid
      obtain ⟨h₁, h₂, h₃⟩ := hmove l.reference (by simp)
      obtain ⟨h₄, -, h₅⟩ := hmove l.childPid (by simp)
      rw [hesp]
      exact hprep.address _ _ h₁ h₂ h₃ (by omega) h₅ href
    · show load 4 t.memory
          ((t.sched.saved c).registers.esp + l.preparedChildPid) ≠
        load 4 t.memory ((t.sched.saved c).registers.esp + l.parentPid)
      obtain ⟨h₁, h₂, h₃⟩ := hmove l.preparedChildPid (by simp)
      obtain ⟨h₄, h₅, h₆⟩ := hmove l.parentPid (by simp)
      have hchild : load 4 s₃.memory (esp + l.preparedChildPid) =
          s.sched.nextPid := hprepared
      have hcurrent : load 4 s₃.memory (esp + l.parentPid) =
          s.sched.pid s.sched.running := hparent
      rw [hesp, hprep.word _ h₁ h₂ h₃ (by omega),
        hprep.word _ h₄ h₅ h₆ (by omega), hchild, hcurrent]
      exact Nat.ne_of_gt hpid
  refine ⟨{ t with sched := t.sched.pushNew pl c }.answer
    (load 4 t.memory (esp + l.childPid)), ?_, ?_, hwaits, ?_⟩
  · show Option.bind (s₃.prepare l s.sched.running c esp ebp pageTablePtr) _ = _
    rw [hprepare', Option.bind_some, finish_parent hequal]
  · refine ⟨hc, hrunning, hconsistent', hready', fun a n hn => ?_,
      hsame.processes, fun p hp => ?_, ?_, ?_, hsame.base, fun p hp => ?_,
      fun p hp hp' a ha => ?_, .inl hwaits⟩
    · exact (RoundRobin.nodes_pushNew hn).imp_left fun hn =>
        hsame.strategy ▸ hn
    · show t.sched.pid p = _
      rw [hsame.pid]
      exact Function.update_of_ne hp ..
    · show t.sched.pid c = _
      rw [hsame.pid]
      exact hchildPid
    · show t.sched.nextPid = _
      rw [hsame.nextPid]
      exact hnext
    · exact hsame.saved p hp
    · show t.memory a = s.memory a
      have hcopy : ¬ OnStack (s.base c) a := (hc.apart p hp).not_onStack ha
      have hlocal : ¬ OnStack (s.base s.sched.running) a :=
        (h.apart p _ hp h.running hp').not_onStack ha
      exact (hprep.memory a hcopy).trans (hlocals a hlocal)
  · show (t.sched.running, load 4 t.memory (esp + l.childPid)) :: t.answers = _
    have hanswer : load 4 t.memory (esp + l.childPid) = s.sched.nextPid :=
      (hread _ (by simp)).trans hvar
    rw [hanswer, hrunning, hsame.answers]
    rfl

/-- `new_process` answers nobody. -/
theorem newProcess_spec (h : s.Inv l) {child : Option Process} {copied : Bool}
    {registers : Registers} {pl : Nat}
    (hallowed : s.Allowed l (.newProcess child copied registers pl)) :
    ∃ t, s.newProcess child copied registers pl = some t ∧
      (Keeps s t ∨ ∃ c, Adds l s t c) ∧ t.answers = s.answers := by
  obtain ⟨hnew, heip, -, hpl⟩ := hallowed
  obtain ⟨b, sched, hrun, hready, hconsistent⟩ :=
    Scheduler.newProcess_spec h.consistent h.ready hpl child copied registers
  refine ⟨{ s with
    sched := sched
    processes := if b then child.toList ++ s.processes else s.processes },
    by rw [newProcess, hrun]; rfl, ?_, rfl⟩
  simp only [Scheduler.newProcess, h.consistent.current, Option.bind_eq_bind,
    Option.bind_some] at hrun
  cases child with
  | none =>
      cases hrun
      exact .inl ⟨rfl, hconsistent, hready, rfl, rfl, fun _ _ => rfl,
        Nat.le_refl _, rfl, rfl, fun _ _ _ _ _ => rfl⟩
  | some c =>
      have hc := hnew c rfl
      have hne : ∀ {p}, p ∈ s.processes → p ≠ c := fun hp heq =>
        hc.notMem (heq ▸ hp)
      cases copied with
      | false =>
          cases hrun
          exact .inl ⟨rfl, hconsistent, hready, rfl, rfl,
            fun p hp => if_neg (hne hp), Nat.le_succ _, rfl, rfl,
            fun _ _ _ _ _ => rfl⟩
      | true =>
          cases hrun
          refine .inr ⟨c, hc, rfl, hconsistent, hready, fun a n hn => ?_, rfl,
            fun p hp => if_neg hp, if_pos rfl, rfl, rfl, fun p hp => if_neg hp,
            fun _ _ _ _ _ => rfl, .inr (.inr ?_)⟩
          · exact RoundRobin.nodes_pushNew hn
          · -- it starts where `new_process` is told to start it
            show (ite (c = c) _ _ : Context Process).registers.eip ≠ _
            rw [if_pos rfl]
            exact heip

/-- A switch: whoever ran before is in `switch_to`. -/
theorem Inv.switched {t : Scheduler Process} {esp ebp cr3 : Nat}
    {m : Nat → UInt8} (h : s.Inv l)
    (ht : Scheduler.Switched { s.sched with
      cpu := ⟨s.sched.running, ⟨esp, ebp, l.switchEip, cr3⟩⟩ } t)
    (hm : ∀ p, p ∈ s.processes → p ≠ t.running →
      ∀ a, OnStack (s.base p) a → m a = s.memory a) :
    Inv l { s with sched := t, memory := m } ∧
      (∀ c, s.Waits l c → c ≠ t.running →
        Waits l { s with sched := t, memory := m } c) ∧
      ∀ p, s.Started l p → Started l { s with sched := t, memory := m } p := by
  have hsaved : ∀ p, p ≠ s.sched.running → t.saved p = s.sched.saved p :=
    ht.saved
  have hwaits : ∀ c, s.Waits l c → c ≠ t.running →
      Waits l { s with sched := t, memory := m } c := fun c hc hrunning =>
    hc.of_same (h.stackOk c hc.mem) hc.mem hrunning
      (hsaved c hc.notRunning) rfl (hm c hc.mem hrunning)
  have hstarted : ∀ p, s.Started l p →
      Started l { s with sched := t, memory := m } p := by
    intro p hp
    by_cases hold : p = s.sched.running
    · subst hold
      rcases ht.moved with ⟨hsame, -⟩ | ⟨-, -, hcpu⟩
      · exact .inl hsame.symm
      · have hcpu : t.saved s.sched.running =
            ⟨s.sched.running, ⟨esp, ebp, l.switchEip, cr3⟩⟩ := hcpu
        refine .inr ?_
        show (t.saved s.sched.running).registers.eip ≠ _
        rw [hcpu]
        exact l.eip_ne.symm
    · refine .inr ?_
      show (t.saved p).registers.eip ≠ _
      rw [hsaved p hold]
      exact hp.resolve_left hold
  obtain ⟨a, n, hn, hprocess⟩ := ht.listed
  have hpid : t.pid = s.sched.pid := ht.pids.1
  have hnext : t.nextPid = s.sched.nextPid := ht.pids.2
  refine ⟨⟨ht.consistent, ht.ready, hprocess ▸ h.listed a n hn,
    fun a n hn => h.listed a n (ht.nodes ▸ hn), fun p hp => ?_, ?_,
    fun p q hp hq hpq => ?_, h.stackOk, h.apart, fun p hp => ?_⟩, hwaits,
    hstarted⟩
  · show t.pid p < t.nextPid
    rw [hpid, hnext]
    exact h.pid_lt p hp
  · show 0 < t.nextPid
    rw [hnext]
    exact h.nextPid_pos
  · have hpq : t.pid p = t.pid q := hpq
    rw [hpid] at hpq
    exact h.pid_inj p q hp hq hpq
  · by_cases hrunning : p = t.running
    · exact .inr (.inl hrunning)
    · exact (h.states p hp).imp (fun hw => hwaits p hw hrunning) (hstarted p)

/-- A timer interrupt answers the process it switches to, with zero, if and only
if that is a child that has not run yet. -/
theorem tick_spec (h : s.Inv l) (esp ebp cr3 pl : Nat) :
    ∃ t, s.tick l esp ebp cr3 pl = some t ∧ t.Inv l ∧
      t.processes = s.processes ∧ t.sched.pid = s.sched.pid ∧
      (∀ c, s.Waits l c → c ≠ t.sched.running → t.Waits l c) ∧
      (∀ p, s.Started l p → t.Started l p) ∧
      (¬ s.Waits l t.sched.running ∧ t.answers = s.answers ∨
        s.Waits l t.sched.running ∧
          t.answers = (t.sched.running, 0) :: s.answers) := by
  have hconsistent : Scheduler.Consistent { s.sched with
      cpu := ⟨s.sched.running, ⟨esp, ebp, l.switchEip, cr3⟩⟩ } :=
    ⟨h.consistent.switches, h.consistent.saved, h.consistent.current⟩
  obtain ⟨sched, hswitch, ht⟩ :=
    Scheduler.contextSwitch_switched hconsistent h.ready
  have htick : s.tick l esp ebp cr3 pl =
      if sched.cpu.registers.eip = l.prepareEip then
        some (finish l { s with sched := sched } sched.cpu.registers.esp
          (load 4 s.memory (sched.cpu.registers.esp + l.preparedChildPid)) pl
          sched.running)
      else some { s with sched := sched } := by
    rw [tick]
    simp only [hswitch, Option.bind_eq_bind, Option.bind_some]
  by_cases hw : s.Waits l sched.running
  · -- it has saved its context, so it has not been running
    have hcpu : sched.cpu = s.sched.saved sched.running := by
      rcases ht.moved with ⟨hsame, -⟩ | ⟨-, hcpu, -⟩
      · exact absurd hsame hw.notRunning
      · exact hcpu
    have hfits := hw.fits
    have hlt := hfits.childPid_lt
    have hstack := h.stackOk _ hw.mem
    have honStack := hfits.onStack
    obtain ⟨-, hd, -⟩ := hfits.offsets l.childPid (by simp)
    have haligned := hfits.aligned
    have hbase := hstack.aligned
    have hm : ∀ p, p ∈ s.processes → p ≠ sched.running →
        ∀ a, OnStack (s.base p) a → store 4 s.memory
          ((s.sched.saved sched.running).registers.esp + l.childPid) 0 a =
            s.memory a := by
      intro p hp hne a ha
      have hother := (h.apart p _ hp hw.mem hne).not_onStack ha
      refine store_apply_of_disjoint ?_
      rw [OnStack] at hother
      omega
    obtain ⟨hinv, hwaits, hstarted⟩ := h.switched ht hm
    obtain ⟨hinv', hwaits', hstarted'⟩ := hinv.keeps (hinv.answer 0)
    refine ⟨answer { s with
      sched := sched
      memory := store 4 s.memory
        ((s.sched.saved sched.running).registers.esp + l.childPid) 0 } 0,
      ?_, hinv', rfl, ht.pids.1, fun c hc hne => hwaits' c (hwaits c hc hne),
      fun p hp => hstarted' p (hstarted p hp), .inr ⟨hw, rfl⟩⟩
    rw [htick, hcpu, if_pos hw.eip]
    exact congrArg some (finish_child (s := { s with sched := sched })
      hw.parents hw.reference)
  · have heip : sched.cpu.registers.eip ≠ l.prepareEip := by
      rcases ht.moved with ⟨-, hcpu⟩ | ⟨hne, hcpu, -⟩
      · rw [hcpu]
        exact l.eip_ne.symm
      · obtain ⟨a, n, hn, hprocess⟩ := ht.listed
        rw [hcpu]
        exact ((h.states _ (hprocess ▸ h.listed a n hn)).resolve_left
          hw).resolve_left hne
    obtain ⟨hinv, hwaits, hstarted⟩ := h.switched ht fun _ _ _ _ _ => rfl
    refine ⟨_, ?_, hinv, rfl, ht.pids.1, hwaits, hstarted, .inl ⟨hw, rfl⟩⟩
    rw [htick, if_neg heip]

/-! ## Runs -/

/-- The answers of one process. -/
def answersOf (s : ForkSystem Process) (p : Process) : List Nat :=
  (s.answers.filter fun a => a.1 = p).map Prod.snd

/-- A child of a fork: either it has not run and has not been answered, or its
first answer was zero and none after it. -/
structure Child (l : Layout) (c : Process) (s : ForkSystem Process) : Prop where
  mem : c ∈ s.processes
  answers : s.Waits l c ∧ s.answersOf c = [] ∨
    s.Started l c ∧ ∃ later, s.answersOf c = later ++ [0] ∧ 0 ∉ later

theorem answersOf_other {t : ForkSystem Process} {p q : Process} {v : Nat}
    (h : t.answers = (q, v) :: s.answers) (hne : q ≠ p) :
    t.answersOf p = s.answersOf p := by
  rw [answersOf, h, List.filter_cons_of_neg (by simpa using hne)]
  rfl

theorem answersOf_self {t : ForkSystem Process} {p : Process} {v : Nat}
    (h : t.answers = (p, v) :: s.answers) :
    t.answersOf p = v :: s.answersOf p := by
  rw [answersOf, h, List.filter_cons_of_pos (by simp)]
  rfl

/-- The process that runs may get an answer other than zero. -/
theorem Child.answered {t : ForkSystem Process} {c : Process}
    (h : Child l c s) (hmem : c ∈ t.processes)
    (hwaits : s.Waits l c → t.Waits l c)
    (hstarted : s.Started l c → t.Started l c)
    (hanswers : t.answers = s.answers ∨
      ∃ v, v ≠ 0 ∧ t.answers = (s.sched.running, v) :: s.answers) :
    Child l c t := by
  refine ⟨hmem, ?_⟩
  rcases hanswers with hsame | ⟨v, hv, hanswer⟩
  · have hsame : t.answersOf c = s.answersOf c := by
      rw [answersOf, hsame]
      rfl
    rw [hsame]
    exact h.answers.imp (And.imp_left hwaits) (And.imp_left hstarted)
  · rcases h.answers with ⟨hw, hnone⟩ | ⟨hs, later, hlater, hzero⟩
    · refine .inl ⟨hwaits hw, ?_⟩
      rw [answersOf_other hanswer hw.notRunning.symm]
      exact hnone
    · refine .inr ⟨hstarted hs, ?_⟩
      by_cases hrunning : s.sched.running = c
      · rw [hrunning] at hanswer
        refine ⟨v :: later, ?_, ?_⟩
        · rw [answersOf_self hanswer, hlater]
          rfl
        · rw [List.mem_cons, not_or]
          exact ⟨hv.symm, hzero⟩
      · exact ⟨later, (answersOf_other hanswer hrunning).trans hlater, hzero⟩
/-- Who has been answered is there. -/
def Known (s : ForkSystem Process) : Prop :=
  ∀ a, a ∈ s.answers → a.1 ∈ s.processes

theorem Known.answersOf_nil (h : s.Known) {c : Process}
    (hc : c ∉ s.processes) : s.answersOf c = [] := by
  rw [answersOf, List.map_eq_nil_iff, List.filter_eq_nil_iff]
  intro a ha heq
  exact hc (of_decide_eq_true heq ▸ h a ha)

/-- What every event does. -/
structure Goes (l : Layout) (s t : ForkSystem Process) : Prop where
  inv : t.Inv l
  mem : ∀ p, p ∈ s.processes → p ∈ t.processes
  pid : ∀ p, p ∈ s.processes → t.sched.pid p = s.sched.pid p
  known : s.Known → t.Known
  child : ∀ c, Child l c s → Child l c t

/-- Unless the processor changes hands, nobody is answered zero. -/
theorem Inv.goes {t : ForkSystem Process} (h : s.Inv l)
    (hk : Keeps s t ∨ ∃ c, Adds l s t c)
    (hanswers : t.answers = s.answers ∨
      ∃ v, v ≠ 0 ∧ t.answers = (s.sched.running, v) :: s.answers) :
    Goes l s t := by
  obtain ⟨hinv, hwaits, hstarted, hmem, hpid⟩ : t.Inv l ∧
      (∀ p, s.Waits l p → t.Waits l p) ∧
      (∀ p, p ∈ s.processes → s.Started l p → t.Started l p) ∧
      (∀ p, p ∈ s.processes → p ∈ t.processes) ∧
      ∀ p, p ∈ s.processes → t.sched.pid p = s.sched.pid p := by
    rcases hk with hk | ⟨c, ha⟩
    · obtain ⟨hinv, hwaits, hstarted⟩ := h.keeps hk
      exact ⟨hinv, hwaits, fun p _ => hstarted p,
        fun p hp => hk.processes ▸ hp, hk.pid⟩
    · obtain ⟨hinv, hwaits, hstarted⟩ := h.adds ha
      exact ⟨hinv, hwaits, hstarted,
        fun p hp => ha.processes ▸ List.mem_cons_of_mem c hp,
        fun p hp => ha.pid p fun heq => ha.fresh.notMem (heq ▸ hp)⟩
  refine ⟨hinv, hmem, hpid, fun hknown a ha => ?_, fun c hc =>
    hc.answered (hmem c hc.mem) (hwaits c) (hstarted c hc.mem) hanswers⟩
  rcases hanswers with hsame | ⟨v, -, hanswer⟩
  · exact hmem _ (hknown a (hsame ▸ ha))
  · rw [hanswer] at ha
    rcases List.mem_cons.1 ha with rfl | ha
    · exact hmem _ h.running
    · exact hmem _ (hknown a ha)

theorem tick_goes (h : s.Inv l) (esp ebp cr3 pl : Nat) :
    ∃ t, s.tick l esp ebp cr3 pl = some t ∧ Goes l s t := by
  obtain ⟨t, htick, hinv, hprocesses, hpid, hwaits, hstarted, hanswers⟩ :=
    tick_spec h esp ebp cr3 pl
  have hmem : ∀ p, p ∈ s.processes → p ∈ t.processes := fun p hp =>
    hprocesses ▸ hp
  refine ⟨t, htick, hinv, hmem, fun p _ => congrFun hpid p, ?_, ?_⟩
  · intro hknown a ha
    rcases hanswers with ⟨-, hsame⟩ | ⟨hw, hanswer⟩
    · exact hmem _ (hknown a (hsame ▸ ha))
    · rw [hanswer] at ha
      rcases List.mem_cons.1 ha with rfl | ha
      · exact hmem _ hw.mem
      · exact hmem _ (hknown a ha)
  · intro c hc
    refine ⟨hmem c hc.mem, ?_⟩
    have hsame : c ≠ t.sched.running ∨ t.answers = s.answers →
        t.answersOf c = s.answersOf c := by
      intro hor
      rcases hanswers with ⟨-, hanswer⟩ | ⟨-, hanswer⟩
      · rw [answersOf, hanswer]
        rfl
      · refine answersOf_other hanswer fun heq => ?_
        refine hor.elim (fun hne => hne heq.symm) fun hsame => ?_
        rw [hanswer] at hsame
        exact List.cons_ne_self _ _ hsame
    rcases hc.answers with ⟨hw, hnone⟩ | ⟨hs, hlater⟩
    · by_cases hrunning : c = t.sched.running
      · -- it returns from `get_eip`
        rcases hanswers with ⟨hnot, -⟩ | ⟨-, hanswer⟩
        · exact absurd (hrunning ▸ hw) hnot
        · rw [← hrunning] at hanswer
          refine .inr ⟨.inl hrunning, [], ?_, List.not_mem_nil⟩
          rw [answersOf_self hanswer, hnone]
          rfl
      · exact .inl ⟨hwaits c hw hrunning, (hsame (.inl hrunning)).trans hnone⟩
    · refine .inr ⟨hstarted c hs, ?_⟩
      rw [hsame]
      · exact hlater
      · by_cases hrunning : c = t.sched.running
        · rcases hanswers with ⟨-, hanswer⟩ | ⟨hw, -⟩
          · exact .inr hanswer
          · exact absurd (hrunning ▸ hs) hw.not_started
        · exact .inl hrunning

theorem step_goes (h : s.Inv l) (e : Event Process) (hallowed : s.Allowed l e) :
    ∃ t, step l s e = some t ∧ Goes l s t := by
  cases e with
  | forkCall child copied esp ebp pageTablePtr pl =>
      by_cases hfails : child = none ∨ copied = false
      · obtain ⟨t, ht, hk, hanswer⟩ := forkCall_fails h hallowed hfails
        exact ⟨t, ht, h.goes (.inl hk) (.inr ⟨_, by decide, hanswer⟩)⟩
      · obtain ⟨hchild, hcopied⟩ := not_or.1 hfails
        obtain ⟨c, rfl⟩ := Option.ne_none_iff_exists'.1 hchild
        obtain rfl : copied = true := by simpa using hcopied
        obtain ⟨t, ht, ha, -, hanswer⟩ := forkCall_succeeds h hallowed
        exact ⟨t, ht, h.goes (.inr ⟨c, ha⟩)
          (.inr ⟨_, Nat.ne_of_gt h.nextPid_pos, hanswer⟩)⟩
  | newProcess child copied registers pl =>
      obtain ⟨t, ht, hk, hsame⟩ := newProcess_spec h hallowed
      exact ⟨t, ht, h.goes hk (.inl hsame)⟩
  | work memory =>
      exact ⟨_, rfl, h.goes (.inl ⟨rfl, h.consistent, h.ready, rfl, rfl,
        fun _ _ => rfl, Nat.le_refl _, rfl, rfl, hallowed⟩) (.inl rfl)⟩
  | tick esp ebp cr3 pl => exact tick_goes h esp ebp cr3 pl

/-- A run of events never gets stuck, and does what each of them does. -/
theorem run_goes : ∀ {events : List (Event Process)} {s : ForkSystem Process},
    s.Inv l → Meets (step l) (Allowed l) s events →
    ∃ t, events.foldlM (step l) s = some t ∧ Goes l s t := by
  intro events
  induction events with
  | nil =>
      intro s h _
      exact ⟨s, rfl, h, fun _ hp => hp, fun _ _ => rfl, id, fun _ => id⟩
  | cons e events ih =>
      intro s h ⟨hallowed, hrest⟩
      obtain ⟨t, ht, hgoes⟩ := step_goes h e hallowed
      obtain ⟨u, hu, hgoes'⟩ := ih hgoes.inv (hrest t ht)
      refine ⟨u, ?_, hgoes'.inv, fun p hp => hgoes'.mem p (hgoes.mem p hp),
        fun p hp => ?_, fun hknown => hgoes'.known (hgoes.known hknown),
        fun c hc => hgoes'.child c (hgoes.child c hc)⟩
      · rw [List.foldlM_cons, ht]
        exact hu
      · exact (hgoes'.pid p (hgoes.mem p hp)).trans (hgoes.pid p hp)
theorem boot_inv (l : Layout) (process0 : Process) (registers : Registers)
    (fields : Process → Registers) (pid : Process → Nat) {pl : Nat}
    (hpl : pl ≠ 0) (memory : Nat → UInt8) {base : Process → Nat}
    (hbase : StackOk (base process0)) :
    Inv l (boot process0 registers fields pid pl memory base) ∧
      Known (boot process0 registers fields pid pl memory base) := by
  obtain ⟨hready, hconsistent⟩ :=
    (Scheduler.putProcess0_spec process0 registers fields pid pl).2 hpl
  have hpid : (boot process0 registers fields pid pl memory base).sched.pid
      process0 = 0 := if_pos rfl
  have honly : ∀ {p}, p ∈ [process0] → p = process0 := List.mem_singleton.1
  refine ⟨⟨hconsistent, hready, List.mem_singleton_self _, fun a n hn => ?_,
    fun p hp => ?_, Nat.zero_lt_one, fun p q hp hq _ => ?_, fun p hp => ?_,
    fun p q hp hq hne => ?_, fun p hp => .inr (.inl (honly hp))⟩, nofun⟩
  · rcases RoundRobin.nodes_pushNew hn with hn | heq
    · cases hn
    · exact List.mem_singleton.2 heq
  · rw [honly hp, hpid]
    exact Nat.zero_lt_one
  · exact (honly hp).trans (honly hq).symm
  · exact honly hp ▸ hbase
  · exact absurd ((honly hp).trans (honly hq).symm) hne

/-- A fork that succeeds is answered twice: in the parent at once, with a number
that stays the child's own, and in the child when it first runs, with zero,
which it is never answered again. -/
theorem fork_returns_twice (l : Layout) (process0 : Process)
    (registers : Registers) (fields : Process → Registers)
    (pid : Process → Nat) {pl₀ : Nat} (hpl : pl₀ ≠ 0) (memory : Nat → UInt8)
    {base : Process → Nat} (hbase : StackOk (base process0))
    {before after : List (Event Process)} {c : Process}
    {esp ebp pageTablePtr pl : Nat}
    (hallowed : Meets (step l) (Allowed l)
      (boot process0 registers fields pid pl₀ memory base)
      (before ++ .forkCall (some c) true esp ebp pageTablePtr pl :: after)) :
    ∃ s t u,
      before.foldlM (step l)
        (boot process0 registers fields pid pl₀ memory base) = some s ∧
      step l s (.forkCall (some c) true esp ebp pageTablePtr pl) = some t ∧
      after.foldlM (step l) t = some u ∧
      t.answers = (s.sched.running, s.sched.nextPid) :: s.answers ∧
      s.sched.nextPid ≠ 0 ∧
      (∀ p, p ∈ u.processes → (u.sched.pid p = s.sched.nextPid ↔ p = c)) ∧
      (u.sched.running ≠ c ∧ u.answersOf c = [] ∨
        ∃ later, u.answersOf c = later ++ [0] ∧ 0 ∉ later) := by
  obtain ⟨hboot, hknown⟩ :=
    boot_inv l process0 registers fields pid hpl memory hbase
  obtain ⟨s, hs, hgoes⟩ := run_goes hboot hallowed.left
  obtain ⟨hfork, hafter⟩ := hallowed.right hs
  obtain ⟨t, ht, hadds, hwaits, hanswer⟩ := forkCall_succeeds hgoes.inv hfork
  have hpos := hgoes.inv.nextPid_pos
  have hnext : (s.sched.running, s.sched.nextPid).2 ≠ 0 := Nat.ne_of_gt hpos
  have hc : Child l c t := by
    refine ⟨hwaits.mem, .inl ⟨hwaits, ?_⟩⟩
    have hne : s.sched.running ≠ c := fun heq =>
      hadds.fresh.notMem (heq ▸ hgoes.inv.running)
    rw [answersOf_other hanswer hne]
    exact (hgoes.known hknown).answersOf_nil hadds.fresh.notMem
  obtain ⟨u, hu, hgoes'⟩ := run_goes (hgoes.inv.adds hadds).1 (hafter t ht)
  have hchild := hgoes'.child c hc
  have hpid : u.sched.pid c = s.sched.nextPid :=
    (hgoes'.pid c hwaits.mem).trans hadds.childPid
  refine ⟨s, t, u, hs, ht, hu, hanswer, hnext, fun p hp => ⟨fun heq => ?_,
    fun heq => heq ▸ hpid⟩, ?_⟩
  · exact hgoes'.inv.pid_inj p c hp hchild.mem (heq.trans hpid.symm)
  · exact hchild.answers.imp (fun h => ⟨h.1.notRunning.symm, h.2⟩) And.right
/-- Five locals, one behind the other. -/
def fiveLocals : Layout where
  childPid := 20
  reference := 12
  parentPid := 16
  preparedChildPid := 4
  preparedParentPid := 8
  prepareEip := 1
  switchEip := 2
  eip_ne := by decide

theorem forkThenTick_returns_twice :
    ∃ s t u : ForkSystem Nat,
      [].foldlM (step fiveLocals) (boot 0 ⟨131008, 131036, 3, 0⟩
        (fun _ => ⟨0, 0, 0, 0⟩) (fun _ => 0) 8 (fun _ => 0)
        (fun p => 131072 * (p + 1))) = some s ∧
      step fiveLocals s (.forkCall (some 1) true 131008 131036 4096 16) =
        some t ∧
      [.tick 131000 131036 0 16].foldlM (step fiveLocals) t = some u ∧
      t.answers = (s.sched.running, s.sched.nextPid) :: s.answers ∧
      s.sched.nextPid ≠ 0 ∧
      (∀ p, p ∈ u.processes → (u.sched.pid p = s.sched.nextPid ↔ p = 1)) ∧
      (u.sched.running ≠ 1 ∧ u.answersOf 1 = [] ∨
        ∃ later, u.answersOf 1 = later ++ [0] ∧ 0 ∉ later) := by
  refine fork_returns_twice fiveLocals 0 _ _ _ (by decide) _
    ⟨by decide, by decide, by decide⟩
    ⟨⟨?_, ⟨by decide, by decide, by decide, by simp [fiveLocals, Apart]⟩,
      by decide, fun _ => rfl⟩, fun _ _ => ⟨trivial, fun _ _ => trivial⟩⟩
  rintro c ⟨⟩
  refine ⟨by decide, ⟨by decide, by decide, by decide⟩, fun p hp => ?_⟩
  rw [List.mem_singleton.1 hp]
  exact .inl (by decide)

end ForkSystem

end Iposix.Sched
