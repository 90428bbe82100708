import Iposix.Proofs.Confined
import Iposix.Proofs.CopyIn
import Iposix.Proofs.ForkCopy
import Iposix.Proofs.Reset
import Iposix.Proofs.WindowRuns

/-!
# Processes have memories of their own

Over whole runs of constructing processes, giving them memory, taking it back,
forking, copying into them and letting them write, what a process sees above the
kernel's window behaves as an array that nobody else has a hand in. `Allowed`
says, for each action, what becomes of the arrays.

The invariant is `Owned`: no page is mapped twice, and none is a table. Each
action is shown to keep it, and to leave the entries and the pages of all the
other processes as they are.
-/

namespace Iposix.Vm

open Iposix.Lib

/-! ## Actions -/

/-- What is done to processes, by themselves or by the kernel on their behalf. -/
inductive Action where
  | construct
  | allocate (ptable size base : Nat)
  | free (ptable vaddr : Nat)
  | reset (ptable : Nat)
  | fork (child parent : Nat)
  | copyIn (ptable vaddr : Nat) (buffer : Nat → UInt8) (size : Nat)
  | store (ptable vaddr : Nat) (value : UInt8)

/-- The addresses above the window. -/
def AboveWindow (v : Nat) : Prop := 134217728 ≤ v ∧ v < 4294967296

instance (v : Nat) : Decidable (AboveWindow v) :=
  inferInstanceAs (Decidable (_ ∧ _))

namespace System

def act (mm : PageManager) (σ : System) : Action → Option System
  | .construct =>
      let new := Vm.newProcess mm σ.machine σ.directMapping
      some ⟨new.2.2, new.2.1, new.1 :: σ.processes⟩
  | .allocate ptable size base =>
      some { σ with machine := (vmalloc mm σ.machine size ptable base).2 }
  | .free ptable vaddr =>
      some { σ with machine := (virtualFree mm σ.machine (some ptable) vaddr).2 }
  | .reset ptable =>
      some { σ with machine :=
        (Vm.resetAddressSpace mm σ.machine (some ptable) ptable).2 }
  | .fork child parent =>
      some { σ with machine :=
        (Vm.copyAddressSpace mm σ.machine child parent).2 }
  | .copyIn ptable vaddr buffer size =>
      some { σ with machine :=
        (Vm.copyIn σ.machine ptable vaddr (some buffer) size false).2.1 }
  | .store ptable vaddr value =>
      some { σ with machine := { σ.machine with
        mem := writeByte σ.machine.mem ptable (vaddr, value) } }

/-- No page table was missing. -/
def TablesGiven (M : Machine) : Prop := Event.alloc true 0 ∉ M.log

instance (M : Machine) : Decidable (TablesGiven M) :=
  inferInstanceAs (Decidable (_ ∉ _))

/-- The process maps nothing above the window yet. -/
def Blank (m : Nat → UInt8) (ptable : Nat) : Prop :=
  ∀ d, d < 1024 → 32 ≤ d → (readEntry m (ptable + 4 * d)).presence = false

instance (m : Nat → UInt8) (ptable : Nat) : Decidable (Blank m ptable) :=
  Nat.decidableBallLT 1024 fun d _ =>
    32 ≤ d → (readEntry m (ptable + 4 * d)).presence = false

/-- Actions are taken on processes there are; pages are freed by their address,
user memory lies above the window, and a fork that fails is not gone on with. -/
def Permitted (mm : PageManager) (σ : System) : Action → Prop
  | .construct =>
      (Vm.newProcess mm σ.machine σ.directMapping).1 ≠ 0 ∧
        (Vm.newProcess mm σ.machine σ.directMapping).2.1 ≠ 0
  | .allocate ptable size base =>
      ptable ∈ σ.processes ∧
        TablesGiven (vmalloc mm σ.machine size ptable base).2
  | .free ptable vaddr =>
      ptable ∈ σ.processes ∧ AboveWindow vaddr ∧ vaddr % 4096 = 0
  | .reset ptable => ptable ∈ σ.processes
  | .fork child parent =>
      child ∈ σ.processes ∧ parent ∈ σ.processes ∧ parent ≠ child ∧
        Blank σ.machine.mem child ∧
        (Vm.copyAddressSpace mm σ.machine child parent).1 = true ∧
        TablesGiven (Vm.copyAddressSpace mm σ.machine child parent).2
  | .copyIn ptable vaddr _ _ => ptable ∈ σ.processes ∧ AboveWindow vaddr
  | .store ptable vaddr _ => ptable ∈ σ.processes ∧ AboveWindow vaddr

instance (mm : PageManager) (σ : System) :
    (a : Action) → Decidable (σ.Permitted mm a)
  | .construct => inferInstanceAs (Decidable (_ ∧ _))
  | .allocate _ _ _ => inferInstanceAs (Decidable (_ ∧ _))
  | .free _ _ => inferInstanceAs (Decidable (_ ∧ _))
  | .reset _ => inferInstanceAs (Decidable (_ ∈ _))
  | .fork _ _ => inferInstanceAs (Decidable (_ ∧ _))
  | .copyIn _ _ _ _ => inferInstanceAs (Decidable (_ ∧ _))
  | .store _ _ _ => inferInstanceAs (Decidable (_ ∧ _))

/-! ## What the processes see -/

/-- The memory of a process above the window. -/
abbrev Memory := Nat → Option UInt8

def memory (σ : System) (p : Nat) : Memory := readByte σ.machine.mem p

/-- The process whose memory an action may change; a new process is none of
those there are. -/
def changes : Action → Option Nat
  | .construct => none
  | .allocate p _ _ | .free p _ | .reset p | .copyIn p _ _ _ | .store p _ _ =>
      some p
  | .fork child _ => some child

/-- What becomes of the memory of the process concerned, `m` before and `m'`
afterwards. -/
def Effect (σ σ' : System) : Action → Prop
  | .construct =>
      ∀ p, p ∈ σ'.processes → p ∉ σ.processes → ∀ v, AboveWindow v →
        σ'.memory p v = none
  | .allocate p _ _ =>
      ∀ v b, AboveWindow v → σ.memory p v = some b → σ'.memory p v = some b
  | .free p vaddr =>
      ∀ v, AboveWindow v →
        if v / 4096 = vaddr / 4096
        then σ'.memory p v = σ.memory p v ∨ σ'.memory p v = none
        else σ'.memory p v = σ.memory p v
  | .reset p =>
      ∀ v, AboveWindow v →
        σ'.memory p v = σ.memory p v ∨ σ'.memory p v = none
  | .fork child parent =>
      ∀ v, AboveWindow v → σ'.memory child v = σ.memory parent v
  | .copyIn p vaddr buffer size =>
      ∃ pos, pos ≤ size ∧ ∀ v, AboveWindow v →
        σ'.memory p v =
          if vaddr ≤ v ∧ v < vaddr + pos then some (buffer (v - vaddr))
          else σ.memory p v
  | .store p vaddr value =>
      ∀ v, AboveWindow v →
        σ'.memory p v =
          if v = vaddr then (σ.memory p v).map fun _ => value
          else σ.memory p v

/-- Only the memory of the process concerned changes, and it changes as it
should. -/
structure Allowed (σ : System) (a : Action) (σ' : System) : Prop where
  processes : ∀ p, p ∈ σ.processes → p ∈ σ'.processes
  others : ∀ q, q ∈ σ.processes → changes a ≠ some q → ∀ v, AboveWindow v →
    σ'.memory q v = σ.memory q v
  effect : Effect σ σ' a

end System

/-! ## The invariant -/

variable {mm : PageManager} {M M' : Machine} {dm ptable q v : Nat}
  {dirs : List Nat}

theorem AboveWindow.dir (h : AboveWindow v) : 32 ≤ dir v := by
  rw [dir_eq h.2]
  have := h.1
  omega

/-- Where the entry and the page are the same, the byte is. -/
theorem Tables.readByte_same {dm' : Nat} {dirs' : List Nat}
    (h : Tables M dm dirs) (hq : q ∈ dirs) (h' : Tables M' dm' dirs')
    (hq' : q ∈ dirs') (hv : AboveWindow v)
    (hpte : pteAt M'.mem q (dir v) (page v) = pteAt M.mem q (dir v) (page v))
    (hpage : ∀ e, pteAt M.mem q (dir v) (page v) = some e →
      SamePage 4096 M.mem M'.mem e.address) :
    readByte M'.mem q v = readByte M.mem q v := by
  rw [readByte, readByte, h.translate_eq hq hv.dir,
    h'.translate_eq hq' hv.dir, hpte]
  cases he : pteAt M.mem q (dir v) (page v) with
  | none => rfl
  | some e => exact congrArg some (hpage e he _ (Nat.mod_lt _ (by decide)))

/-- A page that is not mapped is not read. -/
theorem Tables.readByte_none (h : Tables M dm dirs) (hq : q ∈ dirs)
    (hv : AboveWindow v) (hpte : pteAt M.mem q (dir v) (page v) = none) :
    readByte M.mem q v = none := by
  rw [readByte, h.translate_eq hq hv.dir, hpte]
  rfl

/-- Processes that all map nothing. -/
theorem owned_of_blank (h : WindowInv M dm dirs)
    (hblank : ∀ q, q ∈ dirs → ∀ d, 32 ≤ d → d < 1024 →
      (readEntry M.mem (q + 4 * d)).presence = false) : Owned M dm dirs := by
  have hno : ∀ q, q ∈ dirs → ∀ d, 32 ≤ d → d < 1024 →
      (readEntry M.mem (q + 4 * d)).presence ≠ true := fun q hq d h₁ h₂ => by
    rw [hblank q hq d h₁ h₂]
    exact Bool.false_ne_true
  have hnone : ∀ q, q ∈ dirs → ∀ d, 32 ≤ d → d < 1024 → ∀ p e,
      pteAt M.mem q d p ≠ some e := fun q hq d h₁ h₂ p e he => by
    rw [pteAt_absent (hblank q hq d h₁ h₂)] at he
    cases he
  exact ⟨⟨h, fun q hq d h₁ h₂ hpres => absurd hpres (hno q hq d h₁ h₂),
    fun q hq d h₁ h₂ hpres => absurd hpres (hno q hq d h₁ h₂),
    fun q hq d h₁ h₂ p _ e he => absurd he (hnone q hq d h₁ h₂ p e)⟩,
    fun q hq d h₁ h₂ p _ e he => absurd he (hnone q hq d h₁ h₂ p e)⟩

/-! ## What each action does -/

/-- The others see what they saw. -/
def OthersSee (M M' : Machine) (dirs : List Nat) (ptable : Nat) : Prop :=
  ∀ q, q ∈ dirs → q ≠ ptable → ∀ v, AboveWindow v →
    readByte M'.mem q v = readByte M.mem q v

/-- The page of an entry of `q` is not written when memory is given to
`ptable`. -/
theorem Extended.page_kept (h : Extended M M' dm dirs ptable)
    (hp : ptable ∈ dirs) (hq : q ∈ dirs) (hv : AboveWindow v) {e : Entry}
    (he : pteAt M.mem q (dir v) (page v) = some e) :
    SamePage 4096 M.mem M'.mem e.address := by
  refine h.kept _ (address_dvd e) fun hpriv => ?_
  have hmapped := h.maps q hq _ hv.dir (dir_lt v) _ (page_lt v) e he
  exact (h.spaces.frames q hq _ hv.dir (dir_lt v) _ (page_lt v) e hmapped).2.2
    (h.spaces.kernel_of_private hp hpriv)

theorem vmalloc_private (hfresh : mm.Fresh) (h : Owned M dm dirs)
    (hp : ptable ∈ dirs) (size base : Nat)
    (hgiven : System.TablesGiven (vmalloc mm M size ptable base).2) :
    Owned (vmalloc mm M size ptable base).2 dm dirs ∧
      OthersSee M (vmalloc mm M size ptable base).2 dirs ptable ∧
      ∀ v b, AboveWindow v → readByte M.mem ptable v = some b →
        readByte (vmalloc mm M size ptable base).2.mem ptable v = some b := by
  obtain ⟨hext, hserved⟩ := vmalloc_spec hfresh h.spaces hp size base
    (.of_notMem hgiven)
  generalize (vmalloc mm M size ptable base).2 = M' at hext hserved ⊢
  have htables := h.spaces.toTables
  refine ⟨h.served hext hserved, fun q hq hne v hv => ?_, fun v b hv hb => ?_⟩
  · refine htables.readByte_same hq hext.spaces.toTables hq hv ?_ fun e he =>
      hext.page_kept hp hq hv he
    rcases hserved with ⟨_, hsame⟩ | ⟨_, _, _, frame, hplaced⟩
    · exact hsame q hq _ hv.dir (dir_lt v) _ (page_lt v)
    · exact hplaced.others q hq _ hv.dir (dir_lt v) _ (page_lt v)
        fun hall => hne hall.1
  · cases he : pteAt M.mem ptable (dir v) (page v) with
    | none =>
        rw [htables.readByte_none hp hv he] at hb
        cases hb
    | some e =>
        rw [htables.readByte_same hp hext.spaces.toTables hp hv
          ((hext.maps ptable hp _ hv.dir (dir_lt v) _ (page_lt v) e he).trans
            he.symm) fun e he => hext.page_kept hp hp hv he]
        exact hb

/-- A mapped page that is freed. -/
theorem withoutPage_private (h : Owned M dm dirs) (hp : ptable ∈ dirs)
    (hv : AboveWindow v) {e : Entry}
    (he : pteAt M.mem ptable (dir v) (page v) = some e) :
    Owned (withoutPage M ptable (dir v) (page v) e) dm dirs ∧
      OthersSee M (withoutPage M ptable (dir v) (page v) e) dirs ptable ∧
      ∀ w, AboveWindow w →
        readByte (withoutPage M ptable (dir v) (page v) e).mem ptable w =
          if w / 4096 = v / 4096 then none else readByte M.mem ptable w := by
  have hs := h.spaces
  have hpres := (pteAt_some he).1
  have howned := h.withoutPage hp hv.dir (dir_lt v) (page_lt v) he
  have hpte := fun q w hq (hw : AboveWindow w) => pteAt_withoutPage hs hp hv.dir
    (dir_lt v) (page_lt v) (e := e) hpres q (dir w) (page w) hq hw.dir (dir_lt w)
    (page_lt w)
  -- what is written is a table
  have hkept : ∀ q, q ∈ dirs → ∀ w, AboveWindow w → ∀ e',
      pteAt M.mem q (dir w) (page w) = some e' →
      SamePage 4096 M.mem (withoutPage M ptable (dir v) (page v) e).mem
        e'.address := by
    intro q hq w hw e' he'
    refine samePage_writeEntry (address_dvd e') (address_dvd _) (fun heq => ?_)
      (page_lt v)
    refine (hs.frames q hq _ hw.dir (dir_lt w) _ (page_lt w) e' he').2.2 ?_
    rw [heq]
    exact hs.tables ptable hp _ hv.dir (dir_lt v) hpres
  refine ⟨howned, fun q hq hne w hw => ?_, fun w hw => ?_⟩
  · refine hs.toTables.readByte_same hq howned.spaces.toTables hq hw ?_
      (hkept q hq w hw)
    rw [hpte q w hq hw, if_neg fun hall => hne hall.1]
  · have hnumber := number_eq hw.2
    have hnumber' := number_eq hv.2
    have hlt := page_lt v
    have hlt' := page_lt w
    split
    next heq =>
      refine howned.spaces.toTables.readByte_none hp hw ?_
      rw [hpte ptable w hp hw, if_pos ⟨rfl, by omega, by omega⟩]
    next hne =>
      have hother : ¬ (ptable = ptable ∧ dir w = dir v ∧ page w = page v) := by
        intro ⟨_, hd, hpg⟩
        refine hne ?_
        rw [← hnumber, ← hnumber', hd, hpg]
      refine hs.toTables.readByte_same hp howned.spaces.toTables hp hw ?_
        (hkept ptable hp w hw)
      rw [hpte ptable w hp hw, if_neg hother]

/-- An address of a page, from its parts. -/
theorem normal_of_aligned (hv : AboveWindow v) (hal : v % 4096 = 0) :
    normal (dir v) (page v) 0 = v := by
  rw [normal, dir_eq hv.2, page_eq]
  have := hv.2
  omega

theorem virtualFree_private (mm : PageManager) (h : Owned M dm dirs)
    (hp : ptable ∈ dirs) (hv : AboveWindow v) (hal : v % 4096 = 0) :
    Owned (virtualFree mm M (some ptable) v).2 dm dirs ∧
      OthersSee M (virtualFree mm M (some ptable) v).2 dirs ptable ∧
      ∀ w, AboveWindow w →
        if w / 4096 = v / 4096
        then readByte (virtualFree mm M (some ptable) v).2.mem ptable w =
            readByte M.mem ptable w ∨
          readByte (virtualFree mm M (some ptable) v).2.mem ptable w = none
        else readByte (virtualFree mm M (some ptable) v).2.mem ptable w =
          readByte M.mem ptable w := by
  have hs := h.spaces
  have hsame : ∀ {M' : Machine}, M'.mem = M.mem → Owned M' dm dirs →
      Owned M' dm dirs ∧ OthersSee M M' dirs ptable ∧
        ∀ w, AboveWindow w →
          if w / 4096 = v / 4096
          then readByte M'.mem ptable w = readByte M.mem ptable w ∨
            readByte M'.mem ptable w = none
          else readByte M'.mem ptable w = readByte M.mem ptable w := by
    intro M' hmem howned
    refine ⟨howned, fun q _ _ w _ => by rw [hmem], fun w _ => ?_⟩
    rw [hmem]
    split
    · exact .inl rfl
    · rfl
  cases he : pteAt M.mem ptable (dir v) (page v) with
  | none =>
      rw [virtualFree_absent hs.toTables hp hv.dir he]
      exact hsame rfl h
  | some e =>
      have heq : virtualFree mm M (some ptable) (normal (dir v) (page v) 0) = _ :=
        virtualFree_eq hs hp hv.dir (dir_lt v) (page_lt v) he
      rw [normal_of_aligned hv hal] at heq
      rw [heq]
      cases mm.free M e.address with
      | false =>
          refine hsame rfl (h.sameMaps (hs.relog
            (fun t => kernel_of_ne (by simp)) fun q hq d h₁ h₂ p hlt e' he' =>
              (hs.frames q hq d h₁ h₂ p hlt e' he').2.1)
            fun _ _ _ _ _ _ _ => rfl)
      | true =>
          obtain ⟨howned, hothers, hmine⟩ := withoutPage_private h hp hv he
          refine ⟨howned, hothers, fun w hw => ?_⟩
          have hbyte := hmine w hw
          split
          next hpage =>
            rw [if_pos hpage] at hbyte
            exact .inr hbyte
          next hpage =>
            rw [if_neg hpage] at hbyte
            exact hbyte

theorem resetAddressSpace_private (mm : PageManager) (h : Owned M dm dirs)
    (hp : ptable ∈ dirs) :
    Owned (resetAddressSpace mm M (some ptable) ptable).2 dm dirs ∧
      OthersSee M (resetAddressSpace mm M (some ptable) ptable).2 dirs ptable ∧
      ∀ v, AboveWindow v →
        readByte (resetAddressSpace mm M (some ptable) ptable).2.mem ptable v =
            readByte M.mem ptable v ∨
          readByte (resetAddressSpace mm M (some ptable) ptable).2.mem ptable v =
            none := by
  obtain ⟨hreleased, -⟩ := resetAddressSpace_spec mm h hp
  generalize (resetAddressSpace mm M (some ptable) ptable).2 = M' at hreleased ⊢
  have hs := h.spaces
  have hs' := hreleased.owned.spaces
  have hkept : ∀ q, q ∈ dirs → ∀ v, AboveWindow v → ∀ e,
      pteAt M.mem q (dir v) (page v) = some e →
      SamePage 4096 M.mem M'.mem e.address := fun q hq v hv e he =>
    hreleased.kept _ (address_dvd e) fun hpriv =>
      (hs.frames q hq _ hv.dir (dir_lt v) _ (page_lt v) e he).2.2
        (hs.kernel_of_private hp hpriv)
  refine ⟨hreleased.owned, fun q hq hne v hv => ?_, fun v hv => ?_⟩
  · exact hs.toTables.readByte_same hq hs'.toTables hq hv
      (hreleased.others q hq hne _ hv.dir (dir_lt v) _ (page_lt v))
      (hkept q hq v hv)
  · cases he : pteAt M'.mem ptable (dir v) (page v) with
    | none => exact .inr (hs'.toTables.readByte_none hp hv he)
    | some e =>
        obtain ⟨he₀, -⟩ :=
          hreleased.maps _ hv.dir (dir_lt v) _ (page_lt v) e he
        exact .inl (hs.toTables.readByte_same hp hs'.toTables hp hv
          (he.trans he₀.symm) (hkept ptable hp v hv))

/-- A process that starts blank and gets copies. -/
theorem Copied.owned {child parent : Nat} {done : Nat → Nat → Prop}
    (h : Copied M M' dm dirs child parent done) (h₀ : Owned M dm dirs)
    (hc : child ∈ dirs) : Owned M' dm dirs := by
  -- a page of the child was not in use, a page of another one was
  have hnew : ∀ d, 32 ≤ d → d < 1024 → ∀ p, p < 1024 → ∀ e,
      pteAt M'.mem child d p = some e → ¬ InUse M.log e.address :=
    fun d h₁ h₂ p hp e he => (h.maps d h₁ h₂ p hp e he).2.1
  have hold : ∀ q, q ∈ dirs → q ≠ child → ∀ d, 32 ≤ d → d < 1024 → ∀ p,
      p < 1024 → ∀ e, pteAt M'.mem q d p = some e →
      pteAt M.mem q d p = some e ∧ InUse M.log e.address := by
    intro q hq hne d h₁ h₂ p hp e he
    rw [h.pteAt_parent h₀.spaces hc hq hne h₁ h₂ hp] at he
    exact ⟨he, .inr (h₀.spaces.frames q hq d h₁ h₂ p hp e he).2.1⟩
  refine ⟨h.spaces, fun q hq d h₁ h₂ p hp e he r hr d' h₁' h₂' p' hp' e' he'
    heq => ?_⟩
  by_cases hqc : q = child <;> by_cases hrc : r = child
  · subst hqc hrc
    obtain ⟨hd, hpp⟩ := h.single d h₁ h₂ p hp e he d' h₁' h₂' p' hp' e' he' heq
    exact ⟨rfl, hd, hpp⟩
  · subst hqc
    exact absurd (heq ▸ (hold r hr hrc d' h₁' h₂' p' hp' e' he').2)
      (hnew d h₁ h₂ p hp e he)
  · subst hrc
    exact absurd (heq ▸ (hold q hq hqc d h₁ h₂ p hp e he).2)
      (hnew d' h₁' h₂' p' hp' e' he')
  · exact h₀.single q hq d h₁ h₂ p hp e (hold q hq hqc d h₁ h₂ p hp e he).1
      r hr d' h₁' h₂' p' hp' e' (hold r hr hrc d' h₁' h₂' p' hp' e' he').1 heq

theorem copyAddressSpace_private (hfresh : mm.Fresh) (h : Owned M dm dirs)
    {child parent : Nat} (hc : child ∈ dirs) (hparent : parent ∈ dirs)
    (hne : parent ≠ child) (hblank : System.Blank M.mem child)
    (hdone : (copyAddressSpace mm M child parent).1 = true)
    (hgiven : System.TablesGiven (copyAddressSpace mm M child parent).2) :
    Owned (copyAddressSpace mm M child parent).2 dm dirs ∧
      OthersSee M (copyAddressSpace mm M child parent).2 dirs child ∧
      ∀ v, AboveWindow v →
        readByte (copyAddressSpace mm M child parent).2.mem child v =
          readByte M.mem parent v := by
  have hs := h.spaces
  have hdir : copyAddressSpace mm M child parent =
    copyDirectory mm child parent 1024 0 M := rfl
  rw [hdir] at hdone hgiven ⊢
  have hcopied := copyDirectory_copied hfresh hs hc hparent hne 1024 0 M
    (by decide) (Copied.start hs fun d h₁ h₂ => hblank d h₂ h₁) hdone hgiven
  have hall : Copied M _ dm dirs child parent fun d _ => d < 1024 :=
    hcopied.extend (fun d _ hd => by omega) fun d _ _ p _ hd => .inl (by omega)
  have hforked := hall.forked hs hc hparent hne
  refine ⟨hcopied.owned h hc, fun q hq hqc v hv =>
    (hforked.others q hq hqc v).2 hv.dir, fun v hv => ?_⟩
  cases ha : translate M.mem parent v with
  | none =>
      have hnone := hforked.translated v
      rw [ha] at hnone
      rw [readByte, readByte, ha, Option.map_none, Option.map_eq_none_iff]
      rw [← Option.not_isSome_iff_eq_none, hnone]
      exact Bool.false_ne_true
  | some a =>
      obtain ⟨b, hb, -, hmod, hbytes, -⟩ := hforked.copied v a hv.dir ha
      have hbyte := hbytes (a % 4096) (Nat.mod_lt _ (by decide))
      rw [Nat.div_add_mod, ← hmod, Nat.div_add_mod] at hbyte
      rw [readByte, readByte, ha, hb, Option.map_some, Option.map_some]
      exact congrArg some hbyte

/-- What a process maps is all that is written. -/
theorem Owned.written (h : Owned M dm dirs) (hp : ptable ∈ dirs)
    (hkernel : ∀ t, Kernel M'.log t ↔ Kernel M.log t)
    (huser : ∀ f, User M'.log f ↔ User M.log f)
    (hmem : ∀ b, (∀ w, AboveWindow w → translate M.mem ptable w ≠ some b) →
      M'.mem b = M.mem b) :
    Owned M' dm dirs ∧ OthersSee M M' dirs ptable ∧
      ∀ q, q ∈ dirs → ∀ w, translate M'.mem q w = translate M.mem q w := by
  have hs := h.spaces
  have htables : ∀ t, Kernel M.log t → SamePage 4096 M.mem M'.mem t :=
    fun t ht k hk => hmem _ fun w hw ha =>
      hs.kernel_apart hp ht hk hw.dir ha rfl
  have hspaces : Spaces M' dm dirs :=
    hs.congr htables (fun t => (hkernel t).2)
      (fun t ht => hs.window.aligned t ((hkernel t).1 ht))
      fun f hu hk => ⟨(huser f).2 hu, fun hk' => hk ((hkernel f).1 hk')⟩
  have htrans : ∀ q, q ∈ dirs → ∀ w,
      translate M'.mem q w = translate M.mem q w := fun q hq w =>
    hs.toTables.translate_congr htables hq w
  refine ⟨h.sameMaps hspaces fun q hq d h₁ h₂ p hlt =>
    hs.toTables.pteAt_congr hq h₁ h₂ hlt htables, fun q hq hne w hw => ?_,
    htrans⟩
  rw [readByte, readByte, htrans q hq w]
  cases hb : translate M.mem q w with
  | none => rfl
  | some b =>
      refine congrArg some (hmem b fun x hx hbx => hne ?_)
      obtain ⟨e, he, rfl⟩ := hs.toTables.translate_above hq hw.dir hb
      obtain ⟨e', he', heq⟩ := hs.toTables.translate_above hp hx.dir hbx
      have ho : offset w < 4096 := Nat.mod_lt _ (by decide)
      have ho' : offset x < 4096 := Nat.mod_lt _ (by decide)
      have haddr : e.address = e'.address := by
        have h₁ := address_dvd e
        have h₂ := address_dvd e'
        omega
      exact (h.single q hq _ hw.dir (dir_lt w) _ (page_lt w) e he ptable hp _
        hx.dir (dir_lt x) _ (page_lt x) e' he' haddr).1

/-- Different addresses of a process lead to different bytes. -/
theorem Owned.above_inj (h : Owned M dm dirs) (hp : ptable ∈ dirs)
    {w b : Nat} (hv : AboveWindow v) (hw : AboveWindow w)
    (hvb : translate M.mem ptable v = some b)
    (hwb : translate M.mem ptable w = some b) : v = w :=
  h.translate_inj hp hv.dir hw.dir hv.2 hw.2 hvb hwb

theorem copyIn_private (h : Owned M dm dirs) (hp : ptable ∈ dirs)
    (hv : AboveWindow v) (buffer : Nat → UInt8) (size : Nat) :
    Owned (copyIn M ptable v (some buffer) size false).2.1 dm dirs ∧
      OthersSee M (copyIn M ptable v (some buffer) size false).2.1 dirs
        ptable ∧
      ∃ pos, pos ≤ size ∧ ∀ w, AboveWindow w →
        readByte (copyIn M ptable v (some buffer) size false).2.1.mem ptable w =
          if v ≤ w ∧ w < v + pos then some (buffer (w - v))
          else readByte M.mem ptable w := by
  obtain ⟨pos, hle, hend, hcopy, -⟩ :=
    copyIn_spec h hp hv.dir hv.2 buffer size
  generalize (copyIn M ptable v (some buffer) size false).2.1 = M' at hcopy ⊢
  have hin : ∀ w, v ≤ w → w < v + pos → AboveWindow w := fun w h₁ h₂ =>
    ⟨Nat.le_trans hv.1 h₁, by omega⟩
  obtain ⟨howned, hothers, htrans⟩ := h.written hp
    (fun t => kernel_copies hcopy.log fun e ⟨w, a, n, _, heq, _⟩ =>
      ⟨w, a, n, heq⟩)
    (fun f => user_copies hcopy.log fun e ⟨w, a, n, _, heq, _⟩ =>
      ⟨w, a, n, heq⟩)
    fun b hb => hcopy.others b fun w h₁ h₂ => hb w (hin w h₁ h₂)
  refine ⟨howned, hothers, pos, hle, fun w hw => ?_⟩
  rw [readByte, readByte, htrans ptable hp w]
  split
  next hwin =>
    obtain ⟨b, hb, hbyte⟩ := hcopy.bytes (w - v) (by omega)
    rw [Nat.add_sub_cancel' hwin.1] at hb
    rw [hb, Option.map_some, hbyte]
  next hout =>
    cases hb : translate M.mem ptable w with
    | none => rfl
    | some b =>
        refine congrArg some (hcopy.others b fun x h₁ h₂ hx => hout ?_)
        exact h.above_inj hp (hin x h₁ h₂) hw hx hb ▸ ⟨h₁, h₂⟩

/-- A process writes one of its bytes. -/
theorem writeByte_private (h : Owned M dm dirs) (hp : ptable ∈ dirs)
    (hv : AboveWindow v) (value : UInt8) :
    Owned { M with mem := writeByte M.mem ptable (v, value) } dm dirs ∧
      OthersSee M { M with mem := writeByte M.mem ptable (v, value) } dirs
        ptable ∧
      ∀ w, AboveWindow w →
        readByte (writeByte M.mem ptable (v, value)) ptable w =
          if w = v then (readByte M.mem ptable w).map fun _ => value
          else readByte M.mem ptable w := by
  have hwrite : ∀ b, writeByte M.mem ptable (v, value) b =
      if translate M.mem ptable v = some b then value else M.mem b := by
    intro b
    rw [writeByte]
    cases ha : translate M.mem ptable v with
    | none => rfl
    | some a =>
        show splice M.mem a 1 (fun _ => value) b = _
        by_cases hab : a = b
        · rw [if_pos (congrArg some hab), splice_mem (by omega) (by omega)]
        · rw [if_neg fun heq => hab (Option.some.inj heq)]
          rcases Nat.lt_or_gt_of_ne hab with hlt | hlt
          · exact splice_ge hlt
          · exact splice_lt hlt
  generalize writeByte M.mem ptable (v, value) = m at hwrite ⊢
  obtain ⟨howned, hothers, htrans⟩ : Owned ⟨m, M.log⟩ dm dirs ∧
      OthersSee M ⟨m, M.log⟩ dirs ptable ∧ _ :=
    h.written hp (fun _ => Iff.rfl) (fun _ => Iff.rfl)
      fun b hb => (hwrite b).trans (if_neg (hb v hv))
  refine ⟨howned, hothers, fun w hw => ?_⟩
  rw [readByte, readByte, htrans ptable hp w]
  cases hb : translate M.mem ptable w with
  | none => exact (ite_self _).symm
  | some b =>
      rw [Option.map_some, Option.map_some, Option.map_some, hwrite]
      by_cases hwv : w = v
      · rw [if_pos hwv, if_pos (hwv ▸ hb)]
      · rw [if_neg hwv, if_neg fun ha => hwv (h.above_inj hp hw hv hb ha)]

/-! ## Constructing a process -/

/-- A further process maps nothing, and the others see what they saw. -/
theorem newProcess_private (hfresh : mm.Fresh) (h : Owned M dm dirs)
    (h₀ : mm.malloc M true ≠ 0) :
    Owned (newProcess mm M dm).2.2 dm (mm.malloc M true :: dirs) ∧
      (∀ q, q ∈ dirs → ∀ v, AboveWindow v →
        readByte (newProcess mm M dm).2.2.mem q v = readByte M.mem q v) ∧
      ∀ v, AboveWindow v →
        readByte (newProcess mm M dm).2.2.mem (mm.malloc M true) v = none := by
  have hs := h.spaces
  have hs' := hs.newProcess hfresh h₀
  have hunused := hfresh.unused M true h₀
  have hkept : ∀ t, 4096 ∣ t → InUse M.log t →
      SamePage 4096 M.mem (newProcess mm M dm).2.2.mem t := fun t ht hu =>
    samePage_newProcess hfresh hs.window h₀ ht fun heq => hunused (heq ▸ hu)
  have hpte : ∀ q, q ∈ dirs → ∀ d, 32 ≤ d → d < 1024 → ∀ p, p < 1024 →
      pteAt (newProcess mm M dm).2.2.mem q d p = pteAt M.mem q d p :=
    fun q hq d h₁ h₂ p hlt => hs.toTables.pteAt_congr hq h₁ h₂ hlt
      fun t ht => hkept t (hs.window.aligned t ht) (.inl ht)
  have hnone : ∀ d, 32 ≤ d → d < 1024 → ∀ p,
      pteAt (newProcess mm M dm).2.2.mem (mm.malloc M true) d p = none :=
    fun d h₁ h₂ p =>
      pteAt_absent (newProcess_blank hfresh hs.window h₀ h₁ h₂)
  have hold : ∀ q, q ∈ mm.malloc M true :: dirs → ∀ d, 32 ≤ d → d < 1024 →
      ∀ p, p < 1024 → ∀ e,
      pteAt (newProcess mm M dm).2.2.mem q d p = some e →
      q ∈ dirs ∧ pteAt M.mem q d p = some e := by
    intro q hq d h₁ h₂ p hlt e he
    rcases List.mem_cons.1 hq with rfl | hq
    · rw [hnone d h₁ h₂ p] at he
      cases he
    · exact ⟨hq, (hpte q hq d h₁ h₂ p hlt).symm.trans he⟩
  refine ⟨⟨hs', fun q hq d h₁ h₂ p hlt e he r hr d' h₁' h₂' p' hlt' e' he' =>
    ?_⟩, fun q hq v hv => ?_, fun v hv => ?_⟩
  · obtain ⟨hq, he⟩ := hold q hq d h₁ h₂ p hlt e he
    obtain ⟨hr, he'⟩ := hold r hr d' h₁' h₂' p' hlt' e' he'
    exact h.single q hq d h₁ h₂ p hlt e he r hr d' h₁' h₂' p' hlt' e' he'
  · exact hs.toTables.readByte_same hq hs'.toTables
      (List.mem_cons_of_mem _ hq) hv (hpte q hq _ hv.dir (dir_lt v) _ (page_lt v))
      fun e he => hkept _ (address_dvd e)
        (.inr (hs.frames q hq _ hv.dir (dir_lt v) _ (page_lt v) e he).2.1)
  · exact hs'.toTables.readByte_none List.mem_cons_self hv
      (hnone _ hv.dir (dir_lt v) _)

theorem malloc_of_newProcess (h : (newProcess mm M dm).1 ≠ 0) :
    mm.malloc M true ≠ 0 := by
  intro h₀
  refine h ?_
  rw [newProcess, createPageTable, PageManager.alloc]
  simp [h₀]

/-- The first process maps nothing above the window. -/
theorem newProcess_first_blank (hfresh : mm.Fresh)
    (haligned : ∀ t, Kernel M.log t → 4096 ∣ t)
    (h₁ : (newProcess mm M 0).1 ≠ 0) (h₂ : (newProcess mm M 0).2.1 ≠ 0)
    {d : Nat} (hlow : 32 ≤ d) (hlt : d < 1024) :
    (readEntry (newProcess mm M 0).2.2.mem
      ((newProcess mm M 0).1 + 4 * d)).presence = false := by
  have hinv := newProcess_first hfresh haligned h₁ h₂
  have hne : (newProcess mm M 0).2.1 ≠ (newProcess mm M 0).1 := fun heq =>
    hinv.apart (List.mem_singleton.2 heq)
  have hp := hinv.dvd (List.mem_cons_of_mem _ (List.mem_singleton.2 rfl))
  have hdm := hinv.dvd List.mem_cons_self
  have hp₀ : mm.malloc M true ≠ 0 := malloc_of_newProcess h₁
  rw [newProcess, createPageTable_eq hp₀] at hne hp hdm h₂ ⊢
  dsimp only at hne hp hdm h₂ ⊢
  rw [if_pos rfl] at hne hdm h₂ ⊢
  generalize hM : Machine.mk (splice M.mem (mm.malloc M true) 4096 fun _ => 0)
    (.alloc true (mm.malloc M true) :: M.log) = M₁ at hne hdm h₂ ⊢
  have hzero : load 4 M₁.mem (mm.malloc M true + 4 * d) = 0 := by
    subst hM
    exact load_zeroed M.mem hlt
  have hd₀ : mm.malloc M₁ true ≠ 0 := by
    intro h₀
    refine h₂ ?_
    rw [createPageTable, PageManager.alloc]
    simp [h₀]
  rw [createPageTable_eq hd₀] at hne hdm ⊢
  -- neither the direct mapping nor its copy reaches these entries
  rw [readEntry, (copyDirectMapping_spec hp hdm hne 32 0 _ (by decide)).2,
    if_neg (by omega), ((fillDirectMapping_spec _ 1024 0 _ (by decide)).1 _ hp
      hdm hne.symm).load (by omega) (by omega),
    (samePage_splice hp hdm hne.symm (Nat.le_refl _) (Nat.le_refl _)).load
      (by omega) (by omega), hzero]
  rfl

/-! ## Runs -/

namespace System

variable {σ σ' : System} {a : Action}

/-- Either nothing has been constructed, or every page has one owner. -/
structure Private (σ : System) : Prop where
  aligned : ∀ t, Kernel σ.machine.log t → 4096 ∣ t
  empty : σ.directMapping = 0 → σ.processes = []
  owned : σ.directMapping ≠ 0 → Owned σ.machine σ.directMapping σ.processes

theorem Private.of_owned
    (h : Owned σ.machine σ.directMapping σ.processes) : Private σ :=
  ⟨h.spaces.window.aligned,
    fun h₀ => absurd h₀ (h.spaces.window.ne_zero List.mem_cons_self),
    fun _ => h⟩

theorem Private.of_mem (h : Private σ) {p : Nat} (hp : p ∈ σ.processes) :
    Owned σ.machine σ.directMapping σ.processes := by
  refine h.owned fun h₀ => ?_
  rw [h.empty h₀] at hp
  cases hp

theorem Private.boot (mem : Nat → UInt8) : Private (boot mem) :=
  ⟨fun _ ht => (nomatch ht.2), fun _ => rfl, fun hdm => absurd rfl hdm⟩

/-- An action on the process `p`. -/
theorem Private.on {p : Nat} (howned : Owned M' σ.directMapping σ.processes)
    (hothers : OthersSee σ.machine M' σ.processes p)
    (hchanges : changes a = some p)
    (heffect : Effect σ { σ with machine := M' } a) :
    Private { σ with machine := M' } ∧ Allowed σ a { σ with machine := M' } :=
  ⟨.of_owned howned, fun _ hp => hp, fun q hq hne v hv =>
    hothers q hq (fun heq => hne (heq ▸ hchanges)) v hv, heffect⟩

theorem Private.construct (hfresh : mm.Fresh) (h : Private σ)
    (hperm : σ.Permitted mm .construct) :
    ∃ σ', σ.act mm .construct = some σ' ∧ Private σ' ∧
      Allowed σ .construct σ' := by
  refine ⟨⟨(newProcess mm σ.machine σ.directMapping).2.2,
    (newProcess mm σ.machine σ.directMapping).2.1,
    (newProcess mm σ.machine σ.directMapping).1 :: σ.processes⟩, rfl, ?_⟩
  by_cases hdm : σ.directMapping = 0
  · rw [Permitted, hdm] at hperm
    obtain ⟨h₁, h₂⟩ := hperm
    have hnone := h.empty hdm
    rw [hdm]
    have howned : Owned (newProcess mm σ.machine 0).2.2
        (newProcess mm σ.machine 0).2.1
        ((newProcess mm σ.machine 0).1 :: σ.processes) := by
      rw [hnone]
      refine owned_of_blank (newProcess_first hfresh h.aligned h₁ h₂)
        fun q hq d hlow hlt => ?_
      rw [List.mem_singleton.1 hq]
      exact newProcess_first_blank hfresh h.aligned h₁ h₂ hlow hlt
    refine ⟨.of_owned howned, fun _ hp => List.mem_cons_of_mem _ hp,
      fun q hq => ?_, fun p hp _ v hv => ?_⟩
    · rw [hnone] at hq
      cases hq
    · refine howned.spaces.toTables.readByte_none hp hv (pteAt_absent ?_)
      rw [hnone] at hp
      rw [List.mem_singleton.1 hp]
      exact newProcess_first_blank hfresh h.aligned h₁ h₂ hv.dir (dir_lt v)
  · have h₀ := malloc_of_newProcess hperm.1
    obtain ⟨howned, hothers, hblank⟩ :=
      newProcess_private hfresh (h.owned hdm) h₀
    have heq := newProcess_eq h₀ hdm
    have hptable : (newProcess mm σ.machine σ.directMapping).1 =
      mm.malloc σ.machine true := congrArg Prod.fst heq
    have hmapping : (newProcess mm σ.machine σ.directMapping).2.1 =
      σ.directMapping := congrArg (fun new => new.2.1) heq
    rw [hptable, hmapping]
    refine ⟨.of_owned howned, fun _ hp => List.mem_cons_of_mem _ hp,
      fun q hq _ v hv => hothers q hq v hv, fun p hp hnew v hv => ?_⟩
    rcases List.mem_cons.1 hp with rfl | hp
    · exact hblank v hv
    · exact absurd hp hnew

/-- What an action does, from a state in which every page has one owner. -/
theorem Private.act (hfresh : mm.Fresh) (h : Private σ) (a : Action)
    (hperm : σ.Permitted mm a) :
    ∃ σ', σ.act mm a = some σ' ∧ Private σ' ∧ Allowed σ a σ' := by
  cases a with
  | construct => exact h.construct hfresh hperm
  | allocate ptable size base =>
      obtain ⟨hp, hgiven⟩ := hperm
      obtain ⟨howned, hothers, heffect⟩ :=
        vmalloc_private hfresh (h.of_mem hp) hp size base hgiven
      exact ⟨_, rfl, Private.on howned hothers rfl heffect⟩
  | free ptable vaddr =>
      obtain ⟨hp, hv, hal⟩ := hperm
      obtain ⟨howned, hothers, heffect⟩ :=
        virtualFree_private mm (h.of_mem hp) hp hv hal
      exact ⟨_, rfl, Private.on howned hothers rfl heffect⟩
  | reset ptable =>
      obtain ⟨howned, hothers, heffect⟩ :=
        resetAddressSpace_private mm (h.of_mem hperm) hperm
      exact ⟨_, rfl, Private.on howned hothers rfl heffect⟩
  | fork child parent =>
      obtain ⟨hc, hparent, hne, hblank, hdone, hgiven⟩ := hperm
      obtain ⟨howned, hothers, heffect⟩ := copyAddressSpace_private hfresh
        (h.of_mem hc) hc hparent hne hblank hdone hgiven
      exact ⟨_, rfl, Private.on howned hothers rfl heffect⟩
  | copyIn ptable vaddr buffer size =>
      obtain ⟨hp, hv⟩ := hperm
      obtain ⟨howned, hothers, heffect⟩ :=
        copyIn_private (h.of_mem hp) hp hv buffer size
      exact ⟨_, rfl, Private.on howned hothers rfl heffect⟩
  | store ptable vaddr value =>
      obtain ⟨hp, hv⟩ := hperm
      obtain ⟨howned, hothers, heffect⟩ :=
        writeByte_private (h.of_mem hp) hp hv value
      exact ⟨_, rfl, Private.on howned hothers rfl heffect⟩

theorem Private.act_private (hfresh : mm.Fresh) (h : Private σ) (a : Action)
    (hperm : σ.Permitted mm a) : ∃ σ', σ.act mm a = some σ' ∧ Private σ' := by
  obtain ⟨σ', hact, hpriv, -⟩ := h.act hfresh a hperm
  exact ⟨σ', hact, hpriv⟩

/-- No two processes share a page, none maps a page twice, and none maps a page
of the kernel: neither a directory nor a table. -/
structure Apart (σ : System) : Prop where
  single : ∀ p, p ∈ σ.processes → ∀ q, q ∈ σ.processes → ∀ v, AboveWindow v →
    ∀ w, AboveWindow w → ∀ a b, translate σ.machine.mem p v = some a →
      translate σ.machine.mem q w = some b → a / 4096 = b / 4096 →
      p = q ∧ v / 4096 = w / 4096
  user : ∀ p, p ∈ σ.processes → ∀ v, AboveWindow v → ∀ a,
    translate σ.machine.mem p v = some a →
      ∀ t, Kernel σ.machine.log t → a / 4096 ≠ t / 4096

theorem Private.apart (h : Private σ) : Apart σ := by
  refine ⟨fun p hp q hq v hv w hw a b ha hb heq => ?_,
    fun p hp v hv a ha t ht heq => ?_⟩
  · have howned := h.of_mem hp
    have htables := howned.spaces.toTables
    obtain ⟨e, he, rfl⟩ := htables.translate_above hp hv.dir ha
    obtain ⟨e', he', rfl⟩ := htables.translate_above hq hw.dir hb
    have ho : offset v < 4096 := Nat.mod_lt _ (by decide)
    have ho' : offset w < 4096 := Nat.mod_lt _ (by decide)
    have haddr : e.address = e'.address := by
      have h₁ := address_dvd e
      have h₂ := address_dvd e'
      omega
    obtain ⟨hpq, hd, hpage⟩ := howned.single p hp _ hv.dir (dir_lt v) _
      (page_lt v) e he q hq _ hw.dir (dir_lt w) _ (page_lt w) e' he' haddr
    exact ⟨hpq, by rw [← number_eq hv.2, ← number_eq hw.2, hd, hpage]⟩
  · have hs := (h.of_mem hp).spaces
    have hal := h.aligned t ht
    have hdiv : a - t < 4096 ∧ t ≤ a := by omega
    exact hs.kernel_apart hp ht hdiv.1 hv.dir ha (by omega)

/-- In every reachable state the pages of the processes are apart. -/
theorem frames_apart (hfresh : mm.Fresh) (mem : Nat → UInt8)
    {actions : List Action}
    (hperm : Meets (act mm) (Permitted mm) (boot mem) actions) :
    Along (act mm) Apart (boot mem) actions :=
  along_of_invariant (fun _ h => h.apart)
    (fun _ a h ha => h.act_private hfresh a ha) (Private.boot mem) hperm

/-- Two processes, one of which gets a page, writes to it and gives it back. -/
def twoProcesses : List Action :=
  [.construct, .construct, .allocate 4096 1 268435456,
    .store 4096 268435456 5, .free 4096 268435456]

theorem twoProcesses_apart :
    Along (act counting) Apart (boot fun _ => 0) twoProcesses :=
  frames_apart counting_fresh _ (by decide +kernel)

/-- Every action of every run changes the memory of the process it is for, and
no other. -/
theorem memories_private (hfresh : mm.Fresh) (mem : Nat → UInt8)
    {actions : List Action}
    (hperm : Meets (act mm) (Permitted mm) (boot mem) actions) :
    Every (act mm) Allowed (boot mem) actions :=
  every_of_invariant (fun _ a (h : Private _) ha => h.act hfresh a ha)
    (.boot mem) hperm

theorem twoProcesses_private :
    Every (act counting) Allowed (boot fun _ => 0) twoProcesses :=
  memories_private counting_fresh _ (by decide +kernel)

/-- Whatever the others do, and whatever is done to them, a process finds its
memory as it left it. -/
theorem memory_untouched (hfresh : mm.Fresh) (mem : Nat → UInt8)
    {before after : List Action}
    (hperm : Meets (act mm) (Permitted mm) (boot mem) (before ++ after))
    (hreached : before.foldlM (act mm) (boot mem) = some σ)
    {q : Nat} (hq : q ∈ σ.processes)
    (hothers : ∀ a, a ∈ after → changes a ≠ some q) :
    Along (act mm) (fun τ => q ∈ τ.processes ∧
      ∀ v, AboveWindow v → τ.memory q v = σ.memory q v) σ after := by
  have hσ : Private σ := (along_of_invariant (fun _ h => h)
    (fun _ a h ha => h.act_private hfresh a ha) (.boot mem) hperm.left).last
      hreached
  have hrest := (hperm.right hreached).and
    (meets_of_forall (C := fun _ a => changes a ≠ some q)
      (fun a ha _ => hothers a ha) σ)
  refine along_of_invariant (I := fun τ => Private τ ∧ q ∈ τ.processes ∧
    ∀ v, AboveWindow v → τ.memory q v = σ.memory q v) (fun _ h => h.2)
    (fun τ a ⟨hτ, hqτ, hsame⟩ ⟨hperm, hne⟩ => ?_) ⟨hσ, hq, fun _ _ => rfl⟩ hrest
  obtain ⟨τ', hact, hτ', hallowed⟩ := hτ.act hfresh a hperm
  exact ⟨τ', hact, hτ', hallowed.processes q hqτ, fun v hv =>
    (hallowed.others q hqτ hne v hv).trans (hsame v hv)⟩

theorem twoProcesses_untouched :
    ∃ σ, (twoProcesses.take 2).foldlM (act counting) (boot fun _ => 0) = some σ ∧
      12288 ∈ σ.processes ∧
      Along (act counting) (fun τ => 12288 ∈ τ.processes ∧
        ∀ v, AboveWindow v → τ.memory 12288 v = σ.memory 12288 v) σ
        (twoProcesses.drop 2) :=
  ⟨_, rfl, by decide +kernel, memory_untouched counting_fresh _
    (by decide +kernel : Meets _ _ _ (twoProcesses.take 2 ++ twoProcesses.drop 2))
    rfl (by decide +kernel) (by decide)⟩

end System

end Iposix.Vm
