import Iposix.Proofs.KernelWindow

/-!
# Processes over a run

Processes are constructed, map and unmap memory, are reset and copied, in any
order. Whichever process is the current one when memory is freed, it is one of
them.
-/

namespace Iposix.Vm

open Iposix.Lib

variable {mm : PageManager} {M : Machine} {dm ptable p : Nat}
  {dirs : List Nat}

/-! ## Constructing a process -/

theorem load_zeroed (m : Nat → UInt8) {k : Nat} (hk : k < 1024) :
    load 4 (splice m p 4096 fun _ => 0) (p + 4 * k) = 0 := by
  refine (load_spelled (v := 0) fun j hj => ?_).trans (Nat.zero_mod _)
  rw [splice_mem (by omega) (by omega), Nat.zero_div]
  rfl

theorem fillDirectMapping_spec (dm : Nat) : ∀ turns d m, d + turns ≤ 1024 →
    (∀ q, 4096 ∣ q → 4096 ∣ dm → q ≠ dm →
      SamePage 4096 m (fillDirectMapping dm turns d m) q) ∧
    ∀ k, load 4 (fillDirectMapping dm turns d m) (dm + 4 * k) =
      if d ≤ k ∧ k < d + turns then (directMappingEntry k).flat
      else load 4 m (dm + 4 * k) := by
  intro turns
  induction turns with
  | zero =>
      intro d m _
      exact ⟨fun _ _ _ _ => SamePage.refl _ _, fun k => by
        rw [if_neg (by omega)]; rfl⟩
  | succ turns ih =>
      intro d m hle
      obtain ⟨hsame, hload⟩ := ih (d + 1)
        (writeEntry m (dm + 4 * d) (directMappingEntry d)) (by omega)
      refine ⟨fun q hq hdm hne => (samePage_writeEntry hq hdm hne
        (by omega)).trans (hsame q hq hdm hne), fun k => ?_⟩
      rw [fillDirectMapping, hload, writeEntry]
      rcases Nat.lt_trichotomy k d with hk | rfl | hk
      · rw [if_neg (by omega), if_neg (by omega),
          load_store_of_disjoint (by omega)]
      · rw [if_neg (by omega), if_pos (by omega), load_store]
        exact Nat.mod_eq_of_lt (Entry.flat_lt _)
      · rw [load_store_of_disjoint (by omega)]
        exact if_congr (by omega) rfl rfl

theorem copyDirectMapping_spec (hp : 4096 ∣ p) (hdm : 4096 ∣ dm)
    (hne : dm ≠ p) : ∀ turns d m, d + turns ≤ 1024 →
    (∀ q, 4096 ∣ q → q ≠ p →
      SamePage 4096 m (copyDirectMapping p dm turns d m) q) ∧
    ∀ k, load 4 (copyDirectMapping p dm turns d m) (p + 4 * k) =
      if d ≤ k ∧ k < d + turns then load 4 m (dm + 4 * k)
      else load 4 m (p + 4 * k) := by
  intro turns
  induction turns with
  | zero =>
      intro d m _
      exact ⟨fun _ _ _ => SamePage.refl _ _, fun k => by
        rw [if_neg (by omega)]; rfl⟩
  | succ turns ih =>
      intro d m hle
      have hstep : ∀ q, 4096 ∣ q → q ≠ p →
          SamePage 4096 m (copyEntry m p dm d) q := fun q hq hqp =>
        samePage_store hq hp hqp (by omega)
      obtain ⟨hsame, hload⟩ := ih (d + 1) (copyEntry m p dm d) (by omega)
      refine ⟨fun q hq hqp => (hstep q hq hqp).trans (hsame q hq hqp),
        fun k => ?_⟩
      rw [copyDirectMapping, hload]
      rcases Nat.lt_trichotomy k d with hk | rfl | hk
      · rw [if_neg (by omega), if_neg (by omega), copyEntry,
          load_store_of_disjoint (by omega)]
      · rw [if_neg (by omega), if_pos (by omega), copyEntry, load_store]
        exact Nat.mod_eq_of_lt (load_lt m 4 _)
      · by_cases hin : d + 1 ≤ k ∧ k < d + 1 + turns
        · rw [if_pos hin, if_pos (by omega)]
          exact (hstep dm hdm hne).load (by omega) (by omega)
        · rw [if_neg hin, if_neg (by omega), copyEntry,
            load_store_of_disjoint (by omega)]

/-- A page of zeros becomes a directory. -/
theorem WindowInv.addDirectory (h : WindowInv M dm dirs)
    (hk : Kernel M.log p) (hne : p ∉ dm :: dirs)
    (hfree : ∀ q, q ∈ dirs → ∀ d, 32 ≤ d → d < 1024 →
      (readEntry M.mem (q + 4 * d)).presence = true →
      (readEntry M.mem (q + 4 * d)).address ≠ p)
    (hzero : ∀ k, k < 1024 → load 4 M.mem (p + 4 * k) = 0) :
    WindowInv { M with mem := copyDirectMapping p dm 32 0 M.mem } dm
      (p :: dirs) := by
  have hdm : dm ≠ p := fun heq => hne (heq ▸ List.mem_cons_self)
  obtain ⟨hsame, hload⟩ := copyDirectMapping_spec (h.aligned p hk)
    (h.dvd List.mem_cons_self) hdm 32 0 M.mem (by decide)
  have hold : ∀ q, q ∈ dirs → q ≠ p := by
    rintro q hq rfl
    exact hne (List.mem_cons_of_mem dm hq)
  have hsame' : ∀ q, q ∈ dirs →
      SamePage 4096 M.mem (copyDirectMapping p dm 32 0 M.mem) q := fun q hq =>
    hsame q (h.dvd (List.mem_cons_of_mem dm hq)) (hold q hq)
  refine ⟨h.aligned, fun q hq => ?_, fun hmem => ?_, fun d hd => ?_,
    fun q hq d hd => ?_, fun q hq d h₁ h₂ hpres => ?_⟩
  · rcases List.mem_cons.1 hq with rfl | hq
    · exact h.kernel q List.mem_cons_self
    · rcases List.mem_cons.1 hq with rfl | hq
      · exact hk
      · exact h.kernel q (List.mem_cons_of_mem dm hq)
  · rcases List.mem_cons.1 hmem with heq | hmem
    · exact hdm heq
    · exact h.apart hmem
  · rw [(hsame dm (h.dvd List.mem_cons_self) hdm).load (by omega) (by omega)]
    exact h.shared d hd
  · rcases List.mem_cons.1 hq with rfl | hq
    · rw [hload, if_pos (by omega)]
      exact h.shared d (by omega)
    · rw [(hsame' q hq).load (by omega) (by omega)]
      exact h.window q hq d hd
  · rcases List.mem_cons.1 hq with rfl | hq
    · rw [readEntry, hload, if_neg (by omega), hzero d h₂] at hpres
      cases hpres
    · rw [readEntry_of_samePage (hsame' q hq) h₂] at hpres ⊢
      obtain ⟨hsize, hdirect, hkernel, havoid⟩ := h.upper q hq d h₁ h₂ hpres
      refine ⟨hsize, hdirect, hkernel, fun hmem => ?_⟩
      rcases List.mem_cons.1 hmem with heq | hmem
      · exact havoid (heq ▸ List.mem_cons_self)
      · rcases List.mem_cons.1 hmem with heq | hmem
        · exact hfree q hq d h₁ h₂ hpres heq
        · exact havoid (List.mem_cons_of_mem dm hmem)

theorem createPageTable_eq (h₀ : mm.malloc M true ≠ 0) :
    createPageTable mm M = (mm.malloc M true,
      { mem := splice M.mem (mm.malloc M true) 4096 fun _ => 0
        log := .alloc true (mm.malloc M true) :: M.log }) := by
  rw [createPageTable, PageManager.alloc]
  exact if_neg h₀

theorem newProcess_eq (h₀ : mm.malloc M true ≠ 0) (hdm : dm ≠ 0) :
    newProcess mm M dm = (mm.malloc M true, dm,
      { mem := copyDirectMapping (mm.malloc M true) dm 32 0
          (splice M.mem (mm.malloc M true) 4096 fun _ => 0)
        log := .alloc true (mm.malloc M true) :: M.log }) := by
  rw [newProcess, createPageTable_eq h₀]
  dsimp only
  rw [if_neg hdm]

/-- A further process. -/
theorem WindowInv.newProcess (hfresh : mm.Fresh) (h : WindowInv M dm dirs)
    (h₀ : mm.malloc M true ≠ 0) :
    WindowInv (newProcess mm M dm).2.2 dm (mm.malloc M true :: dirs) := by
  have hne : mm.malloc M true ∉ dm :: dirs := fun hmem =>
    hfresh.unused M true h₀ (.inl (h.kernel _ hmem))
  have hzeroed := (h.pushTable (hfresh.aligned M true)).splice
    (g := fun _ => 0) (hfresh.aligned M true) hne (Nat.le_refl _)
    (Nat.le_refl _)
  rw [newProcess_eq h₀ (h.ne_zero List.mem_cons_self)]
  refine hzeroed.addDirectory (kernel_alloc.2 (.inl ⟨rfl, h₀⟩)) hne
    (fun q hq d h₁ h₂ hpres heq => ?_) fun k hk => load_zeroed M.mem hk
  -- the page tables there are were in use
  have hsame : SamePage 4096 M.mem
      (Lib.splice M.mem (mm.malloc M true) 4096 fun _ => 0) q :=
    samePage_splice (h.dvd (List.mem_cons_of_mem dm hq))
      (hfresh.aligned M true) (fun hqp => hne (hqp ▸
        List.mem_cons_of_mem dm hq)) (Nat.le_refl _) (Nat.le_refl _)
  have hread := readEntry_of_samePage hsame h₂
  rw [hread] at hpres heq
  rcases (h.upper q hq d h₁ h₂ hpres).2.2.1 with hnull | hkernel
  · exact h₀ (heq.symm.trans hnull)
  · exact hfresh.unused M true h₀ (.inl (heq ▸ hkernel))

/-- A page of zeros next to a direct mapping that was just made. -/
theorem WindowInv.first {m : Nat → UInt8} {log : List Event}
    (haligned : ∀ q, Kernel log q → 4096 ∣ q) (hdm : Kernel log dm)
    (hp : Kernel log p) (hne : p ≠ dm)
    (hshared : ∀ d, d < 1024 →
      load 4 m (dm + 4 * d) = (directMappingEntry d).flat)
    (hzero : ∀ k, k < 1024 → load 4 m (p + 4 * k) = 0) :
    WindowInv ⟨copyDirectMapping p dm 32 0 m, log⟩ dm [p] := by
  have hinv : WindowInv ⟨m, log⟩ dm [] :=
    ⟨haligned, fun q hq => by rwa [List.mem_singleton.1 hq],
      List.not_mem_nil, hshared, fun _ hq => (nomatch hq),
      fun _ hq => (nomatch hq)⟩
  exact hinv.addDirectory hp (fun hmem => hne (List.mem_singleton.1 hmem))
    (fun _ hq => nomatch hq) hzero

/-- The first process makes the direct mapping. -/
theorem newProcess_first (hfresh : mm.Fresh)
    (haligned : ∀ q, Kernel M.log q → 4096 ∣ q)
    (h₁ : (newProcess mm M 0).1 ≠ 0) (h₂ : (newProcess mm M 0).2.1 ≠ 0) :
    WindowInv (newProcess mm M 0).2.2 (newProcess mm M 0).2.1
      [(newProcess mm M 0).1] := by
  have hp₀ : mm.malloc M true ≠ 0 := by
    intro h₀
    refine h₁ ?_
    rw [newProcess, createPageTable, PageManager.alloc]
    simp [h₀]
  rw [newProcess, createPageTable_eq hp₀] at h₂ ⊢
  generalize hM : Machine.mk (splice M.mem (mm.malloc M true) 4096 fun _ => 0)
    (.alloc true (mm.malloc M true) :: M.log) = M₁ at h₂ ⊢
  have hkernel : Kernel M₁.log (mm.malloc M true) := by
    subst hM
    exact kernel_alloc.2 (.inl ⟨rfl, hp₀⟩)
  have haligned₁ : ∀ q, Kernel M₁.log q → 4096 ∣ q := by
    subst hM
    intro q hq
    rcases kernel_alloc.1 hq with ⟨rfl, _⟩ | hq
    · exact hfresh.aligned M true
    · exact haligned q hq
  have hzero : ∀ k, k < 1024 →
      load 4 M₁.mem (mm.malloc M true + 4 * k) = 0 := by
    subst hM
    exact fun k hk => load_zeroed M.mem hk
  generalize mm.malloc M true = ptable at hkernel hzero ⊢
  dsimp only at h₂ ⊢
  rw [if_pos rfl] at h₂ ⊢
  have hd₀ : mm.malloc M₁ true ≠ 0 := by
    intro h₀
    refine h₂ ?_
    rw [createPageTable, PageManager.alloc]
    simp [h₀]
  rw [createPageTable_eq hd₀]
  dsimp only
  have hne : ptable ≠ mm.malloc M₁ true := by
    rintro rfl
    exact hfresh.unused M₁ true hd₀ (.inl hkernel)
  have haligned₂ : ∀ q, Kernel (.alloc true (mm.malloc M₁ true) :: M₁.log) q →
      4096 ∣ q := by
    intro q hq
    rcases kernel_alloc.1 hq with ⟨rfl, _⟩ | hq
    · exact hfresh.aligned M₁ true
    · exact haligned₁ q hq
  obtain ⟨hsame, hload⟩ := fillDirectMapping_spec (mm.malloc M₁ true) 1024 0
    (splice M₁.mem (mm.malloc M₁ true) 4096 fun _ => 0) (by decide)
  refine WindowInv.first haligned₂ (kernel_alloc.2 (.inl ⟨rfl, hd₀⟩))
    (kernel_cons _ hkernel) hne (fun d hd => ?_) fun k hk => ?_
  · rw [hload, if_pos (by omega)]
  · have hp := haligned₁ _ hkernel
    have hd := hfresh.aligned M₁ true
    rw [(hsame ptable hp hd hne).load (by omega) (by omega),
      (samePage_splice hp hd hne (Nat.le_refl _) (Nat.le_refl _)).load
        (by omega) (by omega)]
    exact hzero k hk

/-! ## Runs -/

/-- The machine with the directories of its processes. -/
structure System where
  machine : Machine
  directMapping : Nat
  processes : List Nat

/-- What is done with processes; `current` is the one that runs when memory is
freed. -/
inductive Operation where
  | newProcess
  | addVirtualMemory (ptable : Nat) (addresses : List Nat) (vaddr : Nat)
  | removeVirtualMemory (ptable vaddr : Nat)
  | resetAddressSpace (current : Option Nat) (ptable : Nat)
  | copyAddressSpace (ptable other : Nat)

namespace System

/-- Nothing has been constructed, and no page handed out. -/
def boot (mem : Nat → UInt8) : System := ⟨⟨mem, []⟩, 0, []⟩

def step (mm : PageManager) (σ : System) : Operation → Option System
  | .newProcess =>
      let new := Vm.newProcess mm σ.machine σ.directMapping
      some ⟨new.2.2, new.2.1, new.1 :: σ.processes⟩
  | .addVirtualMemory ptable addresses vaddr =>
      some { σ with machine :=
        (Vm.addVirtualMemory mm σ.machine ptable addresses vaddr).2 }
  | .removeVirtualMemory ptable vaddr =>
      some { σ with machine :=
        (Vm.removeVirtualMemory σ.machine ptable vaddr).2 }
  | .resetAddressSpace current ptable =>
      some { σ with machine :=
        (Vm.resetAddressSpace mm σ.machine current ptable).2 }
  | .copyAddressSpace ptable other =>
      some { σ with machine :=
        (Vm.copyAddressSpace mm σ.machine ptable other).2 }

/-- Operations are called on processes there are, and a constructor gets its
directories. -/
def Legal (mm : PageManager) (σ : System) : Operation → Prop
  | .newProcess =>
      (Vm.newProcess mm σ.machine σ.directMapping).1 ≠ 0 ∧
        (Vm.newProcess mm σ.machine σ.directMapping).2.1 ≠ 0
  | .addVirtualMemory ptable _ _ => ptable ∈ σ.processes
  | .removeVirtualMemory ptable _ => ptable ∈ σ.processes
  | .resetAddressSpace current ptable =>
      ptable ∈ σ.processes ∧ ∀ c, c ∈ current → c ∈ σ.processes
  | .copyAddressSpace ptable other =>
      ptable ∈ σ.processes ∧ other ∈ σ.processes

instance (mm : PageManager) (σ : System) :
    (op : Operation) → Decidable (σ.Legal mm op)
  | .newProcess => inferInstanceAs (Decidable (_ ∧ _))
  | .addVirtualMemory _ _ _ => inferInstanceAs (Decidable (_ ∈ _))
  | .removeVirtualMemory _ _ => inferInstanceAs (Decidable (_ ∈ _))
  | .resetAddressSpace _ _ => inferInstanceAs (Decidable (_ ∧ _))
  | .copyAddressSpace _ _ => inferInstanceAs (Decidable (_ ∧ _))

/-- The direct mapping is as it was made, and every directory starts with its
first 32 entries, so below 128 MiB addresses are translated to themselves. -/
structure Window (σ : System) : Prop where
  shared : σ.processes ≠ [] → ∀ d, d < 1024 →
    readEntry σ.machine.mem (σ.directMapping + 4 * d) = directMappingEntry d
  entries : ∀ p, p ∈ σ.processes → ∀ d, d < 32 →
    load 4 σ.machine.mem (p + 4 * d) =
      load 4 σ.machine.mem (σ.directMapping + 4 * d)
  translated : ∀ p, p ∈ σ.processes → ∀ v, v < 134217728 →
    getPhysAddress σ.machine.mem p v = v

/-- Either nothing has been constructed, or the window stands. -/
structure Inv (σ : System) : Prop where
  aligned : ∀ p, Kernel σ.machine.log p → 4096 ∣ p
  empty : σ.directMapping = 0 → σ.processes = []
  window : σ.directMapping ≠ 0 →
    WindowInv σ.machine σ.directMapping σ.processes

variable {σ : System}

theorem Inv.of_window (h : WindowInv σ.machine σ.directMapping σ.processes) :
    Inv σ :=
  ⟨h.aligned, fun h₀ => absurd h₀ (h.ne_zero List.mem_cons_self), fun _ => h⟩

theorem Inv.of_mem (h : Inv σ) (hp : p ∈ σ.processes) :
    WindowInv σ.machine σ.directMapping σ.processes := by
  refine h.window fun h₀ => ?_
  rw [h.empty h₀] at hp
  cases hp

theorem Inv.holds (h : Inv σ) : Window σ := by
  refine ⟨fun hne d hd => ?_, fun p hp d hd => ?_, fun p hp v hv => ?_⟩
  · obtain ⟨p, hp⟩ := List.exists_mem_of_ne_nil _ hne
    rw [readEntry, (h.of_mem hp).shared d hd, Entry.ofFlat_flat]
  · rw [(h.of_mem hp).window p hp d hd, (h.of_mem hp).shared d (by omega)]
  · refine getPhysAddress_of_window hv ((h.of_mem hp).window p hp _ ?_)
    rw [dir]
    omega

theorem Inv.step (hfresh : mm.Fresh) (h : Inv σ) (op : Operation)
    (hlegal : σ.Legal mm op) : ∃ σ', σ.step mm op = some σ' ∧ Inv σ' := by
  cases op with
  | newProcess =>
      refine ⟨⟨(Vm.newProcess mm σ.machine σ.directMapping).2.2,
        (Vm.newProcess mm σ.machine σ.directMapping).2.1,
        (Vm.newProcess mm σ.machine σ.directMapping).1 :: σ.processes⟩, rfl, ?_⟩
      by_cases hdm : σ.directMapping = 0
      · rw [Legal, hdm] at hlegal
        have hfirst := newProcess_first hfresh h.aligned hlegal.1 hlegal.2
        rw [hdm, h.empty hdm]
        exact Inv.of_window hfirst
      · have h₀ : mm.malloc σ.machine true ≠ 0 := by
          intro h₀
          refine hlegal.1 ?_
          rw [Vm.newProcess, createPageTable, PageManager.alloc]
          simp [h₀]
        have hnext := (h.window hdm).newProcess hfresh h₀
        rw [newProcess_eq h₀ hdm] at hnext ⊢
        exact Inv.of_window hnext
  | addVirtualMemory ptable addresses vaddr =>
      exact ⟨_, rfl, Inv.of_window
        ((h.of_mem hlegal).addVirtualMemory hfresh hlegal addresses vaddr)⟩
  | removeVirtualMemory ptable vaddr =>
      exact ⟨_, rfl, Inv.of_window
        ((h.of_mem hlegal).removeVirtualMemory hlegal vaddr)⟩
  | resetAddressSpace current ptable =>
      exact ⟨_, rfl, Inv.of_window
        ((h.of_mem hlegal.1).resetAddressSpace hlegal.2)⟩
  | copyAddressSpace ptable other =>
      exact ⟨_, rfl, Inv.of_window
        ((h.of_mem hlegal.1).copyAddressSpace hfresh hlegal.1 hlegal.2)⟩

/-- The window stands in every state of every run. -/
theorem window_stands (hfresh : mm.Fresh) (mem : Nat → UInt8)
    {ops : List Operation} (hlegal : Meets (step mm) (Legal mm) (boot mem) ops) :
    Along (step mm) Window (boot mem) ops :=
  along_of_invariant (I := Inv) (fun _ h => h.holds)
    (fun _ op h => h.step hfresh op)
    ⟨fun _ hp => (nomatch hp.2), fun _ => rfl, fun hdm => absurd rfl hdm⟩ hlegal

theorem construct_window :
    Along (step counting) Window (boot fun _ => 0)
      [.newProcess, .addVirtualMemory 4096 [0x500000] 0] :=
  window_stands counting_fresh _ (by decide +kernel)

end System

end Iposix.Vm
