import Iposix.Proofs.FreeEntries
import Iposix.Proofs.ForkCopy
import Iposix.Proofs.Mapping
import Iposix.Vm.SplittedManager

/-!
# Calls of virtual_mm that fail

What `malloc` and `free` leave behind in the page manager when they report a
failure. `malloc` gives back what it got if a page is missing, but not if the
pages cannot be mapped; `free` gives the page back before it asks whether there
is an entry to clear.
-/

namespace Iposix.Vm

open Iposix.Lib Iposix.Mm

variable {s₀ : Splitted} {M M' : Machine} {log : List Event}

/-! ## The manager -/

theorem malloc_ready {s : Splitted} (h : Ready s) (kernel : Bool) :
    s.malloc PAGE_SIZE kernel kernel = some (s.pageAlloc kernel) := by
  rw [malloc_page h.isInitialized PAGE_SIZE (by cases kernel <;> simp),
    if_pos (by decide)]

theorem ready_after (h : Ready s₀) : ∀ log, Ready (after s₀ log) := by
  intro log
  induction log with
  | nil => exact h
  | cons e log ih =>
      cases e with
      | alloc kernel p =>
          rw [after, malloc_ready ih]
          exact ih.pageAlloc kernel
      | free p done => exact ih.free p
      | copy vaddr paddr size => exact ih

theorem after_alloc (h : Ready s₀) (kernel : Bool) (p : Nat) :
    after s₀ (.alloc kernel p :: log) = ((after s₀ log).pageAlloc kernel).2 := by
  rw [after, malloc_ready (ready_after h log)]

theorem splittedManager_malloc (h : Ready s₀) (M : Machine) (kernel : Bool) :
    (splittedManager s₀).malloc M kernel =
      ((after s₀ M.log).pageAlloc kernel).1 := by
  rw [splittedManager]
  dsimp only
  rw [malloc_ready (ready_after h M.log)]

theorem after_freeAll : ∀ (addresses : List Nat) (M : Machine),
    after s₀ (freeAll (splittedManager s₀) M addresses).log =
      releaseAll (after s₀ M.log) addresses := by
  intro addresses
  induction addresses with
  | nil => intro M; rfl
  | cons addr addresses ih =>
      intro M
      rw [freeAll, ih]
      rfl

/-- The tables made on the way to a mapping take no page out of use. -/
theorem used_tables (h : Ready s₀) {i : Nat} {log log' : List Event}
    (hlog : Logged (fun e => ∃ q, e = .alloc true q) log log')
    (hi : i < (after s₀ log).pageBm.entrys) (hused : Used (after s₀ log) i) :
    i < (after s₀ log').pageBm.entrys ∧ Used (after s₀ log') i := by
  obtain ⟨new, rfl, hnew⟩ := hlog
  induction new with
  | nil => exact ⟨hi, hused⟩
  | cons e new ih =>
      obtain ⟨q, rfl⟩ := hnew e List.mem_cons_self
      obtain ⟨hi', hused'⟩ := ih fun e he => hnew e (List.mem_cons_of_mem _ he)
      have hready := ready_after h (new ++ log)
      rw [List.cons_append, after_alloc h true q]
      exact ⟨(pageFrame_pageAlloc hready true).pageBm.symm ▸ hi',
        used_pageAlloc hready true hi' hused'⟩

/-- Where there is nothing left to give, tables do not take anything either. -/
theorem sameUse_tables (h : Ready s₀) {s : Splitted} {log log' : List Event}
    (hlog : Logged (fun e => ∃ q, e = .alloc true q) log log')
    (ht : TakenLast s (after s₀ log) []) (hfree : freeEntrys (after s₀ log) = ∅) :
    TakenLast s (after s₀ log') [] := by
  obtain ⟨new, rfl, hnew⟩ := hlog
  refine And.left (b := freeEntrys (after s₀ (new ++ log)) = ∅) ?_
  induction new with
  | nil => exact ⟨ht, hfree⟩
  | cons e new ih =>
      obtain ⟨q, rfl⟩ := hnew e List.mem_cons_self
      obtain ⟨ht', hfree'⟩ := ih fun e he => hnew e (List.mem_cons_of_mem _ he)
      rw [List.cons_append, after_alloc h true q]
      exact (ht'.none hfree' true).2

/-! ## malloc -/

/-- What the loop of `malloc` leaves behind: the entries it took, and nothing
else; or it has given back all of them. -/
theorem allocAll_taken (h : Ready s₀) (s : Splitted) :
    ∀ (pages : Nat) (addresses js : List Nat) (M : Machine),
      TakenLast s (after s₀ M.log) js →
      (pageAt s 0 < s.curKernelBound → addresses = js.map (pageAt s)) →
      ∃ js' M', TakenLast s (after s₀ M'.log) js' ∧
        (js' = [] ↔ js = [] ∧ (pages = 0 ∨ freeEntrys (after s₀ M.log) = ∅)) ∧
        ((∃ found, allocAll (splittedManager s₀) pages addresses M =
            (some found, M') ∧
          ¬ ((freeEntrys (after s₀ M.log)).card < pages ∧
            pageAt s 0 < s.curKernelBound)) ∨
          (allocAll (splittedManager s₀) pages addresses M =
              (none, freeAll (splittedManager s₀) M' (js'.map (pageAt s))) ∧
            (freeEntrys (after s₀ M.log)).card < pages ∧
            pageAt s 0 < s.curKernelBound)) := by
  intro pages
  induction pages with
  | zero =>
      intro addresses js M ht _
      exact ⟨js, M, ht, by simp, .inl ⟨addresses, rfl, by simp⟩⟩
  | succ pages ih =>
      intro addresses js M ht haddr
      have hafter : after s₀ ((splittedManager s₀).alloc M false).2.log =
          ((after s₀ M.log).pageAlloc false).2 := after_alloc h false _
      have hret : ((splittedManager s₀).alloc M false).1 =
          ((after s₀ M.log).pageAlloc false).1 := splittedManager_malloc h M false
      rw [allocAll]
      dsimp only
      rcases Finset.eq_empty_or_nonempty (freeEntrys (after s₀ M.log)) with
        hfree | hfree
      · obtain ⟨hpage, ht', hfree'⟩ := ht.none hfree false
        rw [← hafter] at ht' hfree'
        rw [hret, hpage]
        by_cases hk : s.curKernelBound ≤ pageAt s 0
        · -- page zero, as often as it is asked for
          obtain ⟨js', M', ht'', hnil, hres⟩ := ih (addresses ++ [pageAt s 0]) js _
            ht' fun hlt => absurd hk (Nat.not_le_of_lt hlt)
          have hpos := ht'.bound_pos
          rw [if_pos hk, if_neg (by omega)]
          rw [hfree'] at hnil hres
          rw [hfree]
          refine ⟨js', M', ht'', by simpa using hnil, ?_⟩
          rcases hres with ⟨found, hgo, _⟩ | ⟨_, _, hbad⟩
          · exact .inl ⟨found, hgo, fun hbad => absurd hk (Nat.not_le_of_lt hbad.2)⟩
          · exact absurd hk (Nat.not_le_of_lt hbad)
        · rw [if_neg hk, if_pos rfl, haddr (Nat.lt_of_not_le hk)]
          exact ⟨js, _, ht', by simp [hfree], .inr ⟨rfl, by simp [hfree],
            Nat.lt_of_not_le hk⟩⟩
      · obtain ⟨j, hj, hpage, ht', hfree'⟩ := ht.taken hfree false
        rw [← hafter] at ht' hfree'
        have hk := (mem_freeEntrys.1 (ht.mem_freeEntrys.1 hj).1).2.2.2
        have hpos := ht.bound_pos
        have hcard := Finset.card_erase_of_mem hj
        have hcard_pos := Finset.card_pos.2 hfree
        obtain ⟨js', M', ht'', hnil, hres⟩ := ih (addresses ++ [pageAt s j])
          (js ++ [j]) _ ht' fun hlt => by rw [haddr hlt, List.map_append]; rfl
        rw [hfree', hcard] at hres
        rw [hret, hpage, if_neg (by omega)]
        refine ⟨js', M', ht'', ?_, ?_⟩
        · rw [hnil]
          simp [hfree.ne_empty]
        · rcases hres with ⟨found, hgo, hnot⟩ | ⟨hgo, hlt, hbad⟩
          · exact .inl ⟨found, hgo, fun hbad => hnot ⟨by omega, hbad.2⟩⟩
          · exact .inr ⟨hgo, by omega, hbad⟩

/-- The pages there are to give. -/
def freePages (s : Splitted) : Nat := (freeEntrys s).card

/-- What has to hold for a failed `malloc` to leave the pages in use as they
are: no page was taken, or all of them could be given back. -/
def GivesBack (s : Splitted) (pages : Nat) : Prop :=
  pages = 0 ∨ freePages s = 0 ∨
    (freePages s < pages ∧ pageAt s 0 < s.curKernelBound ∧ Agrees s)

theorem virtualMalloc_failed (h : Ready s₀) (size ptable base : Nat)
    (hfail : (virtualMalloc (splittedManager s₀) M size ptable base).1 = 0) :
    SameUse (after s₀ M.log) (after s₀
        (virtualMalloc (splittedManager s₀) M size ptable base).2.log) ↔
      GivesBack (after s₀ M.log) (pagesFor size) := by
  have hstart := TakenLast.start (ready_after h M.log)
  generalize hs : after s₀ M.log = s at hstart ⊢
  obtain ⟨js, M₁, ht, hnil, hres⟩ := allocAll_taken h s (pagesFor size) [] [] M
    (hs.symm ▸ hstart) fun _ => rfl
  rw [hs] at hnil hres
  have hnil' : js = [] ↔ pagesFor size = 0 ∨ freePages s = 0 := by
    rw [hnil, freePages, Finset.card_eq_zero]
    simp
  rw [virtualMalloc, ← pagesFor] at hfail ⊢
  rcases hres with ⟨found, hgo, hnot⟩ | ⟨hgo, hlt, hk⟩
  · -- the pages there are cannot be mapped
    rw [hgo] at hfail ⊢
    dsimp only at hfail ⊢
    have hlog := addVirtualMemory_logged (fun q => ⟨q, rfl⟩)
      (P := fun e => ∃ q, e = .alloc true q) (splittedManager s₀) M₁ ptable
      found base
    by_cases hjs : js = []
    · rw [hjs] at ht
      have hsame : ∀ {t}, TakenLast s t [] → SameUse s t := fun ht i hi => by
        simp [ht.used i hi]
      rcases hnil'.1 hjs with h0 | h0
      · rw [h0, allocAll] at hgo
        cases hgo
        exact iff_of_true (hsame ht) (.inl h0)
      · refine iff_of_true (hsame (sameUse_tables h hlog ht ?_)) (.inr (.inl h0))
        rw [Finset.eq_empty_iff_forall_notMem]
        intro i hi
        have hmem := (ht.mem_freeEntrys.1 hi).1
        rw [Finset.card_eq_zero.1 h0] at hmem
        cases hmem
    · refine iff_of_false (fun hsame => ?_) ?_
      · obtain ⟨j, hj⟩ := List.exists_mem_of_ne_nil js hjs
        obtain ⟨hi, hnot, _⟩ := ht.page hj
        have hused := (ht.used j hi).2 (.inr hj)
        exact hnot ((hsame j hi).1
          (used_tables h hlog (ht.frame.pageBm.symm ▸ hi) hused).2)
      · rintro (h0 | h0 | ⟨hlt, hk, _⟩)
        · exact hjs (hnil'.2 (.inl h0))
        · exact hjs (hnil'.2 (.inr h0))
        · exact hnot ⟨hlt, hk⟩
  · -- a page is missing: those there are have been given back
    rw [hgo]
    dsimp only
    rw [after_freeAll]
    by_cases hjs : js = []
    · rw [hjs] at ht ⊢
      refine iff_of_true (fun i hi => ?_) ?_
      · simp [releaseAll, ht.used i hi]
      · rcases hnil'.1 hjs with h0 | h0
        · exact .inl h0
        · exact .inr (.inl h0)
    · constructor
      · intro hsame
        exact .inr (.inr ⟨hlt, hk, by_contra fun hbad => ht.leaks hjs hbad hsame⟩)
      · rintro (h0 | h0 | ⟨_, _, hagree⟩)
        · exact absurd (hnil'.2 (.inl h0)) hjs
        · exact absurd (hnil'.2 (.inr h0)) hjs
        · exact ht.restored hagree

/-- A `malloc` for a process, or a `vmalloc`, that reports a failure leaves the
pages in use as they were just when it has been able to give them back. -/
theorem virtualMalloc_failed_iff (h : Ready s₀) (M : Machine)
    (size ptable base : Nat) :
    ((virtualMalloc (splittedManager s₀) M size ptable base).1 = 0 →
      (SameUse (after s₀ M.log) (after s₀
          (virtualMalloc (splittedManager s₀) M size ptable base).2.log) ↔
        GivesBack (after s₀ M.log) (pagesFor size))) ∧
    ((vmalloc (splittedManager s₀) M size ptable base).1 = 0 →
      (SameUse (after s₀ M.log) (after s₀
          (vmalloc (splittedManager s₀) M size ptable base).2.log) ↔
        base = 0 ∨ GivesBack (after s₀ M.log) (pagesFor size))) := by
  refine ⟨virtualMalloc_failed h size ptable base, fun hfail => ?_⟩
  rw [vmalloc] at hfail ⊢
  by_cases hbase : base = 0
  · rw [if_pos hbase]
    exact iff_of_true (fun _ _ => Iff.rfl) (.inl hbase)
  · rw [if_neg hbase] at hfail ⊢
    rw [virtualMalloc_failed h size ptable base hfail]
    exact ⟨.inr, fun hgives => hgives.resolve_left hbase⟩

/-- One page that is not to be mapped where the kernel is. -/
theorem virtualMalloc_failed_smallArea :
    (SameUse smallArea (after smallArea (virtualMalloc (splittedManager smallArea)
        ⟨forkMachine.mem, []⟩ 1 12288 4096).2.log) ↔
      GivesBack smallArea 1) ∧
    (SameUse smallArea (after smallArea (vmalloc (splittedManager smallArea)
        ⟨forkMachine.mem, []⟩ 1 12288 4096).2.log) ↔
      4096 = 0 ∨ GivesBack smallArea 1) :=
  have hiff := virtualMalloc_failed_iff smallArea_ready ⟨forkMachine.mem, []⟩ 1
    12288 4096
  ⟨hiff.1 (by decide +kernel), hiff.2 (by decide +kernel)⟩

/-- It stays in use. -/
theorem virtualMalloc_failed_leaks :
    (virtualMalloc (splittedManager smallArea) ⟨forkMachine.mem, []⟩ 1 12288
        4096).1 = 0 ∧
      ¬ SameUse smallArea (after smallArea (virtualMalloc
        (splittedManager smallArea) ⟨forkMachine.mem, []⟩ 1 12288 4096).2.log) := by
  decide +kernel

/-! ## free -/

/-- The entry `page_free` computes. -/
def freedEntry (s : Splitted) (addr : Nat) : Nat :=
  u32 ((addr : Int) - s.firstAddress) / 4096

/-- The address belongs to a 4 MiB page, and what lies there is taken back by
the page manager. -/
structure InDirectPage (s : Splitted) (m : Nat → UInt8) (ptable addr : Nat) :
    Prop where
  direct : (readEntry m (ptable + 4 * dir addr)).pageSize = true
  mapped : getPhysAddress m ptable addr ≠ 0
  lower : s.curUserBound ≤ getPhysAddress m ptable addr
  upper : getPhysAddress m ptable addr ≤ s.lastAddress
  entry : freedEntry s (getPhysAddress m ptable addr) < s.pageBm.entrys
  used : Used s (freedEntry s (getPhysAddress m ptable addr))

theorem free_refused {s : Splitted} {addr : Nat}
    (h : (s.free addr false).1 = false) : (s.free addr false).2 = s := by
  rw [free_page] at h ⊢
  split at h
  next hin =>
    rw [if_pos hin]
    rw [Splitted.pageFree] at h ⊢
    dsimp only at h ⊢
    split at h
    next hfree => rw [if_pos hfree]
    next => cases h
  next hout => rw [if_neg hout]

/-- The address a page is taken back at. -/
theorem free_taken {s : Splitted} {addr : Nat} (h : (s.free addr false).1 = true) :
    s.curUserBound ≤ addr ∧ addr ≤ s.lastAddress ∧
      s.free addr false = s.pageFree addr := by
  rw [free_page] at h ⊢
  split at h
  next hin => exact ⟨hin.2.1, hin.2.2, if_pos hin⟩
  next => cases h

/-- Where an address leads somewhere, only a 4 MiB page keeps its entry. -/
theorem removeVirtualMemory_refused {ptable addr : Nat}
    (hmapped : getPhysAddress M.mem ptable addr ≠ 0)
    (hfail : (removeVirtualMemory M ptable addr).1 = false) :
    (readEntry M.mem (ptable + 4 * dir addr)).pageSize = true ∧
      removeVirtualMemory M ptable addr = (false, M) := by
  rw [getPhysAddress] at hmapped
  rw [removeVirtualMemory] at hfail ⊢
  dsimp only at hmapped hfail ⊢
  by_cases hpres : (readEntry M.mem (ptable + 4 * dir addr)).presence = true
  · simp only [hpres, Bool.not_true, Bool.false_eq_true, if_false]
      at hmapped hfail ⊢
    by_cases hsize : (readEntry M.mem (ptable + 4 * dir addr)).pageSize = true
    · exact ⟨hsize, by rw [if_pos hsize]⟩
    · rw [if_neg hsize] at hmapped hfail
      split at hmapped
      · exact absurd rfl hmapped
      next hpte =>
        rw [if_neg hpte] at hfail
        cases hfail
  · exact absurd (by simp [hpres]) hmapped

/-- A `free` that reports a failure changes nothing, but for addresses that
belong to a 4 MiB page. -/
theorem virtualFree_failed_iff (h : Ready s₀) (M : Machine) (current : Option Nat)
    (addr : Nat)
    (hfail : (virtualFree (splittedManager s₀) M current addr).1 = false) :
    (SameUse (after s₀ M.log) (after s₀
        (virtualFree (splittedManager s₀) M current addr).2.log) ∧
      ∀ ptable, ptable ∈ current → ∀ w,
        translate (virtualFree (splittedManager s₀) M current addr).2.mem ptable w =
          translate M.mem ptable w) ↔
    ¬ ∃ ptable, ptable ∈ current ∧
      InDirectPage (after s₀ M.log) M.mem ptable addr := by
  have hready := ready_after h M.log
  cases current with
  | none =>
      exact iff_of_true ⟨fun _ _ => Iff.rfl, fun _ hp => nomatch hp⟩
        fun ⟨_, hp, _⟩ => nomatch hp
  | some ptable =>
      have hsome : (∃ p, p ∈ some ptable ∧
          InDirectPage (after s₀ M.log) M.mem p addr) ↔
          InDirectPage (after s₀ M.log) M.mem ptable addr := by simp
      rw [hsome]
      rw [virtualFree] at hfail ⊢
      dsimp only at hfail ⊢
      by_cases hreal : getPhysAddress M.mem ptable addr = 0
      · rw [if_pos hreal]
        exact iff_of_true ⟨fun _ _ => Iff.rfl, fun _ _ _ => rfl⟩
          fun hin => hin.mapped hreal
      rw [if_neg hreal] at hfail ⊢
      have hafter : after s₀ ((splittedManager s₀).release M
          (getPhysAddress M.mem ptable addr)).2.log =
            ((after s₀ M.log).free (getPhysAddress M.mem ptable addr)
              false).2 := rfl
      have hfreed : ((splittedManager s₀).release M
          (getPhysAddress M.mem ptable addr)).1 =
            ((after s₀ M.log).free (getPhysAddress M.mem ptable addr)
              false).1 := rfl
      have hmem : ((splittedManager s₀).release M
          (getPhysAddress M.mem ptable addr)).2.mem = M.mem := rfl
      generalize (splittedManager s₀).release M (getPhysAddress M.mem ptable addr) =
        r at hafter hfreed hmem hfail ⊢
      generalize after s₀ M.log = s at hready hafter hfreed ⊢
      obtain ⟨freed, M'⟩ := r
      dsimp only at hafter hfreed hmem hfail ⊢
      by_cases hdone : freed = true
      · rw [hdone, Bool.not_true, if_neg (by simp)] at hfail ⊢
        rw [hdone] at hfreed
        obtain ⟨hlower, hupper, hpage⟩ := free_taken hfreed.symm
        obtain ⟨hsize, hkept⟩ :=
          removeVirtualMemory_refused (hmem.symm ▸ hreal) hfail
        rw [hkept, hafter, hpage]
        dsimp only
        rw [hmem] at hsize ⊢
        constructor
        · rintro ⟨hsame, _⟩ hin
          exact ((pageFree_used (hready.usable.inside hin.entry) _).1
            ((hsame _ hin.entry).2 hin.used)).2 rfl
        · refine fun hnot => ⟨fun i hi => ?_, fun p _ w => rfl⟩
          rw [pageFree_used (hready.usable.inside hi)]
          refine ⟨And.left, fun hused => ⟨hused, fun heq => hnot ?_⟩⟩
          subst heq
          exact ⟨hsize, hreal, hlower, hupper, hi, hused⟩
      · have hdone' : freed = false := Bool.eq_false_iff.2 hdone
        rw [hdone', Bool.not_false, if_pos rfl]
        rw [hdone'] at hfreed
        rw [hafter, free_refused hfreed.symm, hmem]
        refine iff_of_true ⟨fun _ _ => Iff.rfl, fun _ _ _ => rfl⟩ fun hin => ?_
        have htaken : s.free (getPhysAddress M.mem ptable addr) false =
            s.pageFree (getPhysAddress M.mem ptable addr) := by
          rw [free_page, if_pos ⟨hready.isInitialized, hin.lower, hin.upper⟩]
        have hused := hin.used
        rw [htaken, Splitted.pageFree, Mm.PAGE_SIZE] at hfreed
        rw [Used, freedEntry] at hused
        simp [hused] at hfreed

/-- The kernel's second page, which the manager does not have. -/
theorem virtualFree_failed_smallArea :
    (SameUse smallArea (after smallArea (virtualFree (splittedManager smallArea)
        ⟨forkMachine.mem, []⟩ (some 12288) 4096).2.log) ∧
      ∀ ptable, ptable ∈ some 12288 → ∀ w,
        translate (virtualFree (splittedManager smallArea) ⟨forkMachine.mem, []⟩
          (some 12288) 4096).2.mem ptable w =
            translate forkMachine.mem ptable w) ↔
    ¬ ∃ ptable, ptable ∈ some 12288 ∧
      InDirectPage smallArea forkMachine.mem ptable 4096 :=
  virtualFree_failed_iff smallArea_ready ⟨forkMachine.mem, []⟩ (some 12288) 4096
    (by decide +kernel)

/-- A page somebody has got is taken away through the kernel's mapping of it. -/
theorem virtualFree_failed_releases :
    ((splittedManager smallArea).alloc ⟨forkMachine.mem, []⟩ false).1 = 0x10F000 ∧
      (virtualFree (splittedManager smallArea)
        ((splittedManager smallArea).alloc ⟨forkMachine.mem, []⟩ false).2
        (some 12288) 0x10F000).1 = false ∧
      ¬ SameUse (after smallArea [.alloc false 0x10F000]) (after smallArea
        (virtualFree (splittedManager smallArea)
          ((splittedManager smallArea).alloc ⟨forkMachine.mem, []⟩ false).2
          (some 12288) 0x10F000).2.log) := by
  decide +kernel

end Iposix.Vm
