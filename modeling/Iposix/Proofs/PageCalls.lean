import Iposix.Proofs.CopyIn
import Iposix.Proofs.Mapping
import Iposix.Proofs.Reset

/-!
# Calls of the page manager

The virtual memory knows the page manager only by its answers. So what holds of
the log, and is kept by every request and by giving back a page that a process
has, holds after every one of its functions (`LogRule`); and two page managers
cannot be told apart while they give the same answers (`Alike`). Only `malloc`
may differ between the two: a page that is given back goes to the same `free`.
-/

namespace Iposix.Vm

variable {mm : PageManager} {M M₀ : Machine} {I : List Event → Prop}
  {ptable d : Nat}

/-! ## What is logged -/

namespace LogRule

variable (h : LogRule mm I)

include h

theorem freeAll : ∀ (gs : List Nat) {M : Machine}, I M.log → gs.Nodup →
    (∀ g, g ∈ gs → User M.log g) → I (freeAll mm M gs).log := by
  intro gs
  induction gs with
  | nil => intro M hI _ _; exact hI
  | cons g gs ih =>
      intro M hI hnodup hgs
      obtain ⟨hg, hnodup⟩ := List.nodup_cons.1 hnodup
      refine ih (h.free M g hI (hgs g List.mem_cons_self)) hnodup
        fun g' hg' => ?_
      have huser := hgs g' (List.mem_cons_of_mem g hg')
      show User (.free g (mm.free M g) :: M.log) g'
      cases mm.free M g with
      | false => exact huser
      | true => exact ⟨fun heq => hg (heq ▸ hg'), huser⟩

/-- A call that fails gives back what it was given. -/
theorem allocAll (hfresh : mm.Fresh) : ∀ (pages : Nat) {fs : List Nat}
    {M : Machine}, Held M₀ M fs → I M.log →
      I (allocAll mm pages fs M).2.log := by
  intro pages
  induction pages with
  | zero => intro fs M _ hI; exact hI
  | succ pages ih =>
      intro fs M hheld hI
      rw [Vm.allocAll]
      dsimp only
      split
      · exact h.freeAll fs (h.alloc M false hI) hheld.nodup fun g hg =>
          .inr (hheld.frames g hg).2.2.2.2
      next h₀ => exact ih (hheld.alloc hfresh h₀) (h.alloc M false hI)

theorem tableAt (hI : I M.log) : I (tableAt mm M ptable d).2.log := by
  rcases tableAt_cases mm M ptable d with ⟨_, _, heq⟩ | ⟨_, _, heq⟩ |
    ⟨_, heq⟩ <;> rw [heq]
  · exact hI
  · exact hI
  · exact h.alloc M true hI

theorem tableRule (ptable : Nat) :
    TableRule mm ptable (fun M => I M.log) fun _ _ => True :=
  ⟨fun _ _ hI _ => h.tableAt hI, fun _ _ _ _ _ _ => trivial,
    fun _ _ _ _ _ _ _ _ => trivial⟩

theorem vmalloc (hfresh : mm.Fresh) (hI : I M.log) (size ptable v : Nat) :
    I (vmalloc mm M size ptable v).2.log := by
  rw [Vm.vmalloc]
  split
  · exact hI
  · rw [virtualMalloc, ← pagesFor]
    have hgot := h.allocAll hfresh (pagesFor size) (Held.start M) hI
    generalize Vm.allocAll mm (pagesFor size) [] M = got at hgot ⊢
    rcases got with ⟨_ | fs, M'⟩
    · exact hgot
    · exact (h.tableRule ptable).addVirtualMemory
        (fun _ _ _ _ hI _ => ⟨hI, fun _ _ => trivial⟩) hgot

theorem copyTable (hfresh : mm.Fresh) (ptable other d table : Nat) :
    ∀ turns page M, I M.log →
      I (copyTable mm ptable other d table turns page M).2.log := by
  intro turns
  induction turns with
  | zero => intro page M hI; exact hI
  | succ turns ih =>
      intro page M hI
      have hgot := h.vmalloc hfresh hI PAGE_SIZE ptable (normal d page 0)
      rw [Vm.copyTable]
      dsimp only
      split
      · split
        · exact hgot
        · exact ih _ _ (h.copy _ _ _ _ hgot)
      · exact ih _ _ hI

theorem copyDirectory (hfresh : mm.Fresh) (ptable other : Nat) :
    ∀ turns d M, I M.log →
      I (copyDirectory mm ptable other turns d M).2.log := by
  intro turns
  induction turns with
  | zero => intro d M hI; exact hI
  | succ turns ih =>
      intro d M hI
      rw [Vm.copyDirectory]
      split
      · exact ih _ _ hI
      · split
        · have hgot := h.copyTable hfresh ptable other d
            (readEntry M.mem (other + 4 * d)).address 1024 0 M hI
          generalize Vm.copyTable mm ptable other d _ 1024 0 M = got at hgot ⊢
          rcases got with ⟨_ | _, M'⟩
          · exact hgot
          · exact ih _ _ hgot
        · exact ih _ _ hI

theorem createPageTable (hI : I M.log) : I (createPageTable mm M).2.log := by
  rw [Vm.createPageTable]
  dsimp only
  split <;> exact h.alloc M true hI

theorem newProcess (hI : I M.log) (dm : Nat) :
    I (newProcess mm M dm).2.2.log := by
  have hI' := h.createPageTable hI
  have hI'' := h.createPageTable hI'
  rw [Vm.newProcess]
  generalize Vm.createPageTable mm M = new at hI' hI'' ⊢
  by_cases hdm : dm = 0
  · simp only [hdm, if_true]
    exact hI''
  · simp only [hdm, if_false]
    exact hI'

/-- The page of an entry is one that the process has. -/
theorem virtualFree {dm p : Nat} {dirs : List Nat} (hs : Spaces M dm dirs)
    (hp : ptable ∈ dirs) (h₁ : 32 ≤ d) (h₂ : d < 1024) (hlt : p < 1024)
    (hI : I M.log) :
    I (virtualFree mm M (some ptable) (normal d p 0)).2.log := by
  have hdir := dir_normal h₂ hlt (by decide : 0 < 4096)
  have hpage := page_normal (d := d) hlt (by decide : 0 < 4096)
  cases he : pteAt M.mem ptable d p with
  | none =>
      rw [virtualFree_absent hs.toTables hp (by rwa [hdir])
        (by rwa [hdir, hpage])]
      exact hI
  | some e =>
      have hfreed := h.free M e.address hI
        (hs.frames ptable hp d h₁ h₂ p hlt e he).2.1
      rw [virtualFree_eq hs hp h₁ h₂ hlt he]
      cases hfree : mm.free M e.address <;> rw [hfree] at hfreed <;>
        exact hfreed

theorem copyIn {v size : Nat} {buffer : Nat → UInt8} (hv : v ≠ 0)
    (hlt : v < 4294967296) (hI : I M.log) :
    I (copyIn M ptable v (some buffer) size false).2.1.log := by
  have hmove : MoveRule ptable buffer v size fun _ M' => I M'.log :=
    fun _ _ _ hI _ _ _ _ _ => h.copy _ _ _ _ hI
  obtain ⟨_, _, hI', _⟩ := copyIn_rule hmove hI hv hlt
  exact hI'

end LogRule

/-! ## Answers that are the same -/

/-- As long as the log has the property, the answers of `mm'` are those of
`mm`. -/
structure Alike (mm mm' : PageManager) (I : List Event → Prop) : Prop where
  rule : LogRule mm I
  malloc : ∀ M kernel, I M.log → mm'.malloc M kernel = mm.malloc M kernel
  free : mm'.free = mm.free

namespace Alike

variable {mm' : PageManager} (h : Alike mm mm' I)

include h

theorem alloc (hI : I M.log) (kernel : Bool) :
    mm'.alloc M kernel = mm.alloc M kernel := by
  rw [PageManager.alloc, h.malloc M kernel hI, PageManager.alloc]

theorem release (M : Machine) (page : Nat) :
    mm'.release M page = mm.release M page := by
  rw [PageManager.release, h.free, PageManager.release]

theorem freeAll : ∀ (gs : List Nat) (M : Machine),
    freeAll mm' M gs = freeAll mm M gs := by
  intro gs
  induction gs with
  | nil => intro M; rfl
  | cons g gs ih => intro M; rw [Vm.freeAll, h.release, ih, Vm.freeAll]

theorem allocAll : ∀ (pages : Nat) (fs : List Nat) {M : Machine}, I M.log →
    allocAll mm' pages fs M = allocAll mm pages fs M := by
  intro pages
  induction pages with
  | zero => intro fs M _; rfl
  | succ pages ih =>
      intro fs M hI
      have hI' : I (mm.alloc M false).2.log := h.rule.alloc M false hI
      simp only [Vm.allocAll, h.alloc hI, h.freeAll, ih _ hI']

theorem createPageTable (hI : I M.log) :
    createPageTable mm' M = createPageTable mm M := by
  rw [Vm.createPageTable, h.alloc hI, Vm.createPageTable]

theorem tableAt (hI : I M.log) :
    tableAt mm' M ptable d = tableAt mm M ptable d := by
  rw [Vm.tableAt, h.createPageTable hI, Vm.tableAt]

theorem searchAny (total : Nat) : ∀ (turns d : Nat) (used : List Nat)
    (count vpage : Nat) {M : Machine}, I M.log →
      searchAny mm' ptable total turns d used count vpage M =
        searchAny mm ptable total turns d used count vpage M := by
  intro turns
  induction turns with
  | zero => intro d used count vpage M _; rfl
  | succ turns ih =>
      intro d used count vpage M hI
      have hI' : I (Vm.tableAt mm M ptable d).2.log := h.rule.tableAt hI
      rw [Vm.searchAny, h.tableAt hI, Vm.searchAny]
      generalize Vm.tableAt mm M ptable d = found at hI' ⊢
      rcases found with ⟨_ | table, M'⟩
      · rfl
      · dsimp only
        rw [ih _ _ _ _ hI']

theorem searchAt : ∀ (turns d page : Nat) (used : List Nat) (count : Nat)
    {M : Machine}, I M.log →
      searchAt mm' ptable turns d page used count M =
        searchAt mm ptable turns d page used count M := by
  intro turns
  induction turns with
  | zero => intro d page used count M _; rfl
  | succ turns ih =>
      intro d page used count M hI
      have hI' : I (Vm.tableAt mm M ptable d).2.log := h.rule.tableAt hI
      rw [Vm.searchAt, h.tableAt hI, Vm.searchAt]
      generalize Vm.tableAt mm M ptable d = found at hI' ⊢
      rcases found with ⟨_ | table, M'⟩
      · rfl
      · simp only [ih _ _ _ _ hI']

theorem addVirtualMemory (hI : I M.log) (addresses : List Nat) (v : Nat) :
    addVirtualMemory mm' M ptable addresses v =
      addVirtualMemory mm M ptable addresses v := by
  rw [Vm.addVirtualMemory, h.searchAny _ _ _ _ _ _ hI,
    h.searchAt _ _ _ _ _ hI, Vm.addVirtualMemory]

theorem vmalloc (hfresh : mm.Fresh) (hI : I M.log) (size ptable v : Nat) :
    vmalloc mm' M size ptable v = vmalloc mm M size ptable v := by
  have hI' := h.rule.allocAll hfresh (pagesFor size) (Held.start M) hI
  rw [Vm.vmalloc, Vm.vmalloc, virtualMalloc, virtualMalloc, ← pagesFor,
    h.allocAll _ _ hI]
  generalize Vm.allocAll mm (pagesFor size) [] M = got at hI' ⊢
  rcases got with ⟨_ | fs, M'⟩
  · rfl
  · dsimp only
    rw [h.addVirtualMemory hI']

theorem copyTable (hfresh : mm.Fresh) (ptable other d table : Nat) :
    ∀ (turns page : Nat) {M : Machine}, I M.log →
      copyTable mm' ptable other d table turns page M =
        copyTable mm ptable other d table turns page M := by
  intro turns
  induction turns with
  | zero => intro page M _; rfl
  | succ turns ih =>
      intro page M hI
      have hI' := h.rule.vmalloc hfresh hI PAGE_SIZE ptable (normal d page 0)
      have hrest := fun w a n m => ih (page + 1)
        (M := ⟨m, .copy w a n :: (Vm.vmalloc mm M PAGE_SIZE ptable
          (normal d page 0)).2.log⟩) (h.rule.copy _ _ _ _ hI')
      simp only [Vm.copyTable, h.vmalloc hfresh hI, ih _ hI, hrest]

theorem copyDirectory (hfresh : mm.Fresh) (ptable other : Nat) :
    ∀ (turns d : Nat) {M : Machine}, I M.log →
      copyDirectory mm' ptable other turns d M =
        copyDirectory mm ptable other turns d M := by
  intro turns
  induction turns with
  | zero => intro d M _; rfl
  | succ turns ih =>
      intro d M hI
      have hI' := h.rule.copyTable hfresh ptable other d
        (readEntry M.mem (other + 4 * d)).address 1024 0 M hI
      have hcopied := fun m => ih (d + 1) (M := { M with mem := m }) hI
      simp only [Vm.copyDirectory, h.copyTable hfresh ptable other _ _ _ _ hI,
        ih _ hI, hcopied]
      generalize Vm.copyTable mm ptable other d _ 1024 0 M = got at hI' ⊢
      rcases got with ⟨_ | _, M'⟩
      · rfl
      · simp only [ih _ hI']

theorem newProcess (hI : I M.log) (dm : Nat) :
    newProcess mm' M dm = newProcess mm M dm := by
  have hI' := h.rule.createPageTable hI
  rw [Vm.newProcess, h.createPageTable hI, Vm.newProcess]
  dsimp only
  rw [h.createPageTable hI']

/-! Nothing is asked for on the way. -/

theorem virtualFree (M : Machine) (current : Option Nat) (addr : Nat) :
    virtualFree mm' M current addr = virtualFree mm M current addr := by
  simp only [Vm.virtualFree, h.release]

theorem resetTable (current : Option Nat) (d table : Nat) :
    ∀ (turns page : Nat) (success : Bool) (M : Machine),
      resetTable mm' current d table turns page success M =
        resetTable mm current d table turns page success M := by
  intro turns
  induction turns with
  | zero => intro page success M; rfl
  | succ turns ih =>
      intro page success M
      simp only [Vm.resetTable, h.virtualFree, ih]

theorem resetAddressSpace (M : Machine) (current : Option Nat)
    (ptable : Nat) :
    resetAddressSpace mm' M current ptable =
      resetAddressSpace mm M current ptable := by
  suffices hloop : ∀ turns d success M,
      resetDirectory mm' current ptable turns d success M =
        resetDirectory mm current ptable turns d success M from hloop _ _ _ M
  intro turns
  induction turns with
  | zero => intro d success M; rfl
  | succ turns ih =>
      intro d success M
      simp only [resetDirectory, h.resetTable, ih]

end Alike

end Iposix.Vm
