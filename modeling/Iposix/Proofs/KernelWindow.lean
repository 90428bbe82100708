import Iposix.Lib.Run
import Iposix.Proofs.PageUse

/-!
# The kernel's window

The first 32 entries of every directory are those of the shared direct mapping,
whatever is mapped, unmapped, copied or reset.

`WindowInv` also says what makes this last: an entry above the window that is
present leads to a page table, and a page table is never a directory. So
filling entries of page tables misses every directory, and the pages copied to
are none either, for the page manager had them unused.
-/

namespace Iposix.Vm

open Iposix.Lib

/-- An entry above the window is absent or leads to a page table, which is the
null page if the page manager had none. -/
def TableEntry (log : List Event) (avoid : List Nat) (e : Entry) : Prop :=
  e.presence = true →
    e.pageSize = false ∧ e.directMapped = false ∧
      (e.address = 0 ∨ Kernel log e.address) ∧ e.address ∉ avoid

/-- `dm` is the direct mapping and `dirs` are the directories. -/
structure WindowInv (M : Machine) (dm : Nat) (dirs : List Nat) : Prop where
  aligned : ∀ p, Kernel M.log p → 4096 ∣ p
  kernel : ∀ p, p ∈ dm :: dirs → Kernel M.log p
  apart : dm ∉ dirs
  shared : ∀ d, d < 1024 →
    load 4 M.mem (dm + 4 * d) = (directMappingEntry d).flat
  window : ∀ p, p ∈ dirs → ∀ d, d < 32 →
    load 4 M.mem (p + 4 * d) = (directMappingEntry d).flat
  upper : ∀ p, p ∈ dirs → ∀ d, 32 ≤ d → d < 1024 →
    TableEntry M.log (dm :: dirs) (readEntry M.mem (p + 4 * d))

/-- An entry of a page that is no directory. -/
def EntryOf (avoid : List Nat) (a : Nat) : Prop :=
  ∃ t k, a = t + 4 * k ∧ k < 1024 ∧ 4096 ∣ t ∧ t ∉ avoid

variable {mm : PageManager} {M : Machine} {dm ptable other p : Nat}
  {dirs : List Nat}

theorem directMappingEntry_flat {d : Nat} (hd : d < 1024) :
    (directMappingEntry d).flat = 4194304 * d + 907 := by
  have hbit : (4194304 * d / 64 % 2 == 1) = false := by
    rw [beq_eq_false_iff_ne]
    omega
  simp only [directMappingEntry, Entry.flat, Entry.ofFlat, normal,
    Nat.mul_zero, Nat.add_zero, hbit, Bool.toNat_true, Bool.toNat_false,
    Fin.val_ofNat]
  omega

theorem getPhysAddress_of_window {m : Nat → UInt8} {v : Nat}
    (hv : v < 134217728)
    (h : load 4 m (ptable + 4 * dir v) = (directMappingEntry (dir v)).flat) :
    getPhysAddress m ptable v = v := by
  have hflat := directMappingEntry_flat (dir_lt v)
  have he : readEntry m (ptable + 4 * dir v) = directMappingEntry (dir v) := by
    rw [readEntry, h, Entry.ofFlat_flat]
  rw [getPhysAddress, he]
  show (directMappingEntry (dir v)).flat / 4194304 * 4194304 + v % 4194304 = v
  rw [hflat, dir]
  omega

namespace WindowInv

theorem readEntry_window (h : WindowInv M dm dirs) (hp : p ∈ dirs) {d : Nat}
    (hd : d < 32) : readEntry M.mem (p + 4 * d) = directMappingEntry d := by
  rw [readEntry, h.window p hp d hd, Entry.ofFlat_flat]

theorem dvd (h : WindowInv M dm dirs) (hp : p ∈ dm :: dirs) : 4096 ∣ p :=
  h.aligned p (h.kernel p hp)

theorem ne_zero (h : WindowInv M dm dirs) (hp : p ∈ dm :: dirs) : p ≠ 0 :=
  (h.kernel p hp).1

/-- Whatever leaves the directories alone keeps the window. -/
theorem congr (h : WindowInv M dm dirs) {M' : Machine}
    (hmem : ∀ p, p ∈ dm :: dirs → SamePage 4096 M.mem M'.mem p)
    (hlog : ∀ p, Kernel M.log p → Kernel M'.log p)
    (haligned : ∀ p, Kernel M'.log p → 4096 ∣ p) : WindowInv M' dm dirs := by
  refine ⟨haligned, fun p hp => hlog p (h.kernel p hp), h.apart,
    fun d hd => ?_, fun p hp d hd => ?_, fun p hp d h₁ h₂ hpres => ?_⟩
  · rw [(hmem dm List.mem_cons_self).load (by omega) (by omega)]
    exact h.shared d hd
  · rw [(hmem p (List.mem_cons_of_mem dm hp)).load (by omega) (by omega)]
    exact h.window p hp d hd
  · rw [readEntry_of_samePage (hmem p (List.mem_cons_of_mem dm hp)) h₂]
      at hpres ⊢
    obtain ⟨hsize, hdirect, hkernel, havoid⟩ := h.upper p hp d h₁ h₂ hpres
    exact ⟨hsize, hdirect, hkernel.imp_right (hlog _), havoid⟩

/-- What is written in a page that is no directory. -/
theorem splice (h : WindowInv M dm dirs) {q a l : Nat} {g : Nat → UInt8}
    (hq : 4096 ∣ q) (hne : q ∉ dm :: dirs) (h₁ : q ≤ a) (h₂ : a + l ≤ q + 4096) :
    WindowInv { M with mem := Lib.splice M.mem a l g } dm dirs := by
  refine h.congr (fun p hp => samePage_splice (h.dvd hp) hq ?_ h₁ h₂)
    (fun _ hk => hk) h.aligned
  rintro rfl
  exact hne hp

theorem writeEntry (h : WindowInv M dm dirs) {a : Nat}
    (ha : EntryOf (dm :: dirs) a) (e : Entry) :
    WindowInv { M with mem := Vm.writeEntry M.mem a e } dm dirs := by
  obtain ⟨t, k, rfl, hk, ht, hne⟩ := ha
  rw [Vm.writeEntry, store]
  exact h.splice ht hne (by omega) (by omega)

/-- Events that hand out no page for a table. -/
theorem push (h : WindowInv M dm dirs) {e : Event}
    (he : ∀ q, e ≠ .alloc true q) :
    WindowInv { M with log := e :: M.log } dm dirs :=
  h.congr (fun _ _ => SamePage.refl _ _) (fun _ => kernel_cons e)
    fun p hp => h.aligned p ((kernel_of_ne he).1 hp)

theorem pushTable (h : WindowInv M dm dirs) {q : Nat} (hq : 4096 ∣ q) :
    WindowInv { M with log := .alloc true q :: M.log } dm dirs := by
  refine h.congr (fun _ _ => SamePage.refl _ _) (fun _ => kernel_cons _)
    fun p hp => ?_
  rcases kernel_alloc.1 hp with ⟨rfl, _⟩ | hp
  · exact hq
  · exact h.aligned p hp

/-- The window's entries are written with what they hold. -/
theorem store_window (h : WindowInv M dm dirs) (hp : ptable ∈ dirs) {d w : Nat}
    (hd : d < 32) (hw : w = (directMappingEntry d).flat) :
    store 4 M.mem (ptable + 4 * d) w = M.mem := by
  rw [hw, ← h.window ptable hp d hd, store_load]

/-- An entry above it is filled. -/
theorem setEntry (h : WindowInv M dm dirs) (hp : ptable ∈ dirs) {d : Nat}
    (h₁ : 32 ≤ d) (h₂ : d < 1024) {e : Entry}
    (he : TableEntry M.log (dm :: dirs) e) :
    WindowInv { M with mem := Vm.writeEntry M.mem (ptable + 4 * d) e } dm
      dirs := by
  have hsame : ∀ q, q ∈ dm :: dirs → q ≠ ptable → SamePage 4096 M.mem
      (Vm.writeEntry M.mem (ptable + 4 * d) e) q := fun q hq hne =>
    samePage_writeEntry (h.dvd hq) (h.dvd (List.mem_cons_of_mem dm hp)) hne h₂
  refine ⟨h.aligned, h.kernel, h.apart, fun d' hd' => ?_,
    fun q hq d' hd' => ?_, fun q hq d' h₁' h₂' => ?_⟩
  · have hne : dm ≠ ptable := fun heq => h.apart (heq ▸ hp)
    rw [(hsame dm List.mem_cons_self hne).load (by omega) (by omega)]
    exact h.shared d' hd'
  · by_cases hqp : q = ptable
    · subst hqp
      rw [Vm.writeEntry, load_store_of_disjoint (by omega)]
      exact h.window q hq d' hd'
    · rw [(hsame q (List.mem_cons_of_mem dm hq) hqp).load (by omega) (by omega)]
      exact h.window q hq d' hd'
  · by_cases hqp : q = ptable
    · subst hqp
      by_cases hdd : d' = d
      · subst hdd
        rwa [readEntry_writeEntry]
      · rw [readEntry_writeEntry_of_ne (Ne.symm hdd)]
        exact h.upper q hq d' h₁' h₂'
    · rw [readEntry_of_samePage (hsame q (List.mem_cons_of_mem dm hq) hqp) h₂']
      exact h.upper q hq d' h₁' h₂'

theorem tableEntry_spec (hfresh : mm.Fresh) (h : WindowInv M dm dirs) :
    TableEntry (.alloc true (mm.malloc M true) :: M.log) (dm :: dirs)
      (tableEntry (mm.malloc M true)) := by
  intro _
  have haddr := address_tableEntry (hfresh.aligned M true)
    (hfresh.bounded M true)
  rw [haddr]
  refine ⟨rfl, rfl, ?_, fun hmem => ?_⟩
  · by_cases h₀ : mm.malloc M true = 0
    · exact .inl h₀
    · exact .inr (kernel_alloc.2 (.inl ⟨rfl, h₀⟩))
  · exact hfresh.unused M true (h.ne_zero hmem) (.inl (h.kernel _ hmem))

/-- Making a table keeps the window. -/
theorem withTable (hfresh : mm.Fresh) (h : WindowInv M dm dirs)
    (hp : ptable ∈ dirs) {d : Nat} (h₁ : 32 ≤ d) (h₂ : d < 1024) :
    WindowInv (withTable mm M ptable d) dm dirs := by
  have hentry := h.tableEntry_spec hfresh
  have hpush := h.pushTable (hfresh.aligned M true)
  rw [Vm.withTable]
  by_cases h₀ : mm.malloc M true = 0
  · rw [if_pos h₀]
    exact hpush.setEntry hp h₁ h₂ hentry
  · rw [if_neg h₀]
    have hne : mm.malloc M true ∉ dm :: dirs := fun hmem =>
      hfresh.unused M true h₀ (.inl (h.kernel _ hmem))
    exact (hpush.splice (g := fun _ => 0) (hfresh.aligned M true) hne
      (Nat.le_refl _) (Nat.le_refl _)).setEntry hp h₁ h₂ hentry

/-- An absent entry lies above the window. -/
theorem above (h : WindowInv M dm dirs) (hp : ptable ∈ dirs) {d : Nat}
    (he : (readEntry M.mem (ptable + 4 * d)).pageSize = false ∨
      (readEntry M.mem (ptable + 4 * d)).presence = false) : 32 ≤ d := by
  refine Nat.le_of_not_lt fun hd => ?_
  rw [h.readEntry_window hp hd] at he
  rcases he with he | he <;> cases he

theorem tableRule (hfresh : mm.Fresh) (hp : ptable ∈ dirs) :
    TableRule mm ptable (fun M => WindowInv M dm dirs)
      fun _ a => EntryOf (dm :: dirs) a := by
  refine ⟨fun M d h hd => ?_, fun _ _ _ _ _ ha => ha,
    fun M d t k h hd ht hk => ⟨t, k, rfl, hk, ?_⟩⟩
  · rcases tableAt_cases mm M ptable d with ⟨_, _, heq⟩ | ⟨_, _, heq⟩ |
      ⟨hpres, heq⟩ <;> rw [heq]
    · exact h
    · exact h
    · exact h.withTable hfresh hp (h.above hp (.inr hpres)) hd
  · rcases tableAt_cases mm M ptable d with ⟨_, _, heq⟩ | ⟨hpres, hsize, heq⟩ |
      ⟨hpres, heq⟩ <;> rw [heq] at ht <;> cases ht
    · exact ⟨address_dvd _,
        (h.upper ptable hp d (h.above hp (.inl hsize)) hd hpres).2.2.2⟩
    · exact ⟨address_dvd _, (h.tableEntry_spec hfresh rfl).2.2.2⟩

theorem addVirtualMemory (hfresh : mm.Fresh) (h : WindowInv M dm dirs)
    (hp : ptable ∈ dirs) (addresses : List Nat) (v : Nat) :
    WindowInv (addVirtualMemory mm M ptable addresses v).2 dm dirs :=
  (tableRule hfresh hp).addVirtualMemory
    (fun _ _ _ _ h ha => ⟨h.writeEntry ha _, fun _ hb => hb⟩) h

theorem removeVirtualMemory (h : WindowInv M dm dirs) (hp : ptable ∈ dirs)
    (v : Nat) : WindowInv (removeVirtualMemory M ptable v).2 dm dirs := by
  rw [Vm.removeVirtualMemory]
  dsimp only
  cases hpres : (readEntry M.mem (ptable + 4 * dir v)).presence with
  | false => exact h
  | true =>
      cases hsize : (readEntry M.mem (ptable + 4 * dir v)).pageSize with
      | true => exact h
      | false =>
          rw [if_neg (by simp), if_neg (by simp)]
          have he := h.upper ptable hp (dir v) (h.above hp (.inl hsize))
            (dir_lt v) hpres
          split
          · exact h
          · exact h.writeEntry ⟨_, page v, rfl, page_lt v, address_dvd _,
              he.2.2.2⟩ _

theorem virtualFree (h : WindowInv M dm dirs) {current : Option Nat}
    (hc : ∀ c, c ∈ current → c ∈ dirs) (addr : Nat) :
    WindowInv (virtualFree mm M current addr).2 dm dirs := by
  cases current with
  | none => exact h
  | some c =>
      rw [Vm.virtualFree]
      dsimp only [PageManager.release]
      have hlog := h.push (e := .free (getPhysAddress M.mem c addr)
        (mm.free M (getPhysAddress M.mem c addr))) fun _ heq => nomatch heq
      split
      · exact h
      · split
        · exact hlog
        · exact hlog.removeVirtualMemory (hc c rfl) addr

theorem resetTable {current : Option Nat} (hc : ∀ c, c ∈ current → c ∈ dirs)
    {d t : Nat} : ∀ turns page success M, WindowInv M dm dirs →
      WindowInv (resetTable mm current d t turns page success M).2 dm dirs := by
  intro turns
  induction turns with
  | zero => intro page success M h; exact h
  | succ turns ih =>
      intro page success M h
      rw [Vm.resetTable]
      dsimp only
      split
      · exact ih _ _ _ (h.virtualFree hc _)
      · exact ih _ _ _ h

theorem resetAddressSpace {current : Option Nat}
    (hc : ∀ c, c ∈ current → c ∈ dirs) (h : WindowInv M dm dirs) :
    WindowInv (resetAddressSpace mm M current ptable).2 dm dirs := by
  suffices hloop : ∀ turns d success M, WindowInv M dm dirs →
      WindowInv (resetDirectory mm current ptable turns d success M).2 dm
        dirs from hloop 1024 0 true M h
  intro turns
  induction turns with
  | zero => intro d success M h; exact h
  | succ turns ih =>
      intro d success M h
      rw [resetDirectory]
      dsimp only
      split
      · exact ih _ _ _ (resetTable hc _ _ _ _ h)
      · exact ih _ _ _ h

theorem alloc (hfresh : mm.Fresh) (h : WindowInv M dm dirs) (kernel : Bool) :
    WindowInv (mm.alloc M kernel).2 dm dirs := by
  cases kernel with
  | true => exact h.pushTable (hfresh.aligned M true)
  | false => exact h.push fun _ heq => nomatch heq

theorem freeAll (h : WindowInv M dm dirs) :
    ∀ addresses, WindowInv (freeAll mm M addresses) dm dirs := by
  intro addresses
  induction addresses generalizing M with
  | nil => exact h
  | cons addr addresses ih => exact ih (h.push fun _ heq => nomatch heq)

theorem allocAll (hfresh : mm.Fresh) (h : WindowInv M dm dirs) :
    ∀ pages addresses, WindowInv (allocAll mm pages addresses M).2 dm dirs := by
  intro pages
  induction pages generalizing M with
  | zero => intro addresses; exact h
  | succ pages ih =>
      intro addresses
      have halloc := h.alloc hfresh false
      rw [Vm.allocAll]
      dsimp only
      split
      · exact halloc.freeAll addresses
      · exact ih halloc _

theorem vmalloc (hfresh : mm.Fresh) (h : WindowInv M dm dirs)
    (hp : ptable ∈ dirs) (size base : Nat) :
    WindowInv (vmalloc mm M size ptable base).2 dm dirs := by
  rw [Vm.vmalloc]
  split
  · exact h
  · rw [virtualMalloc]
    have hall := h.allocAll hfresh
      (size / PAGE_SIZE + if size % PAGE_SIZE ≠ 0 then 1 else 0) []
    generalize Vm.allocAll mm _ [] M = found at hall ⊢
    rcases found with ⟨_ | addresses, M'⟩
    · exact hall
    · exact hall.addVirtualMemory hfresh hp addresses base

/-- A page that `vmalloc` has mapped above the window is the one it was
given. -/
theorem vmalloc_mapped (hfresh : mm.Fresh) (h : WindowInv M dm dirs)
    (hp : ptable ∈ dirs) {v : Nat} (hv : v ≠ 0)
    (hmapped : (Vm.vmalloc mm M PAGE_SIZE ptable v).1 = v) :
    getPhysAddress (Vm.vmalloc mm M PAGE_SIZE ptable v).2.mem ptable v =
        mm.malloc M false + offset v ∧ mm.malloc M false ≠ 0 := by
  obtain ⟨h₀, t, M', htable, heq⟩ := vmalloc_page_mapped hv hmapped
  have hM' := (tableRule hfresh hp).inv _ (dir v) (h.alloc hfresh false)
    (dir_lt v)
  rw [htable] at hM'
  obtain ⟨h₁, h₂, h₃⟩ := tableAt_entry htable
  have habove := hM'.above hp (.inl h₂)
  have hne := (hM'.upper ptable hp _ habove (dir_lt v) h₁).2.2.2
  rw [heq]
  refine ⟨getPhysAddress_mapped h₁ h₂ h₃ (h.dvd (List.mem_cons_of_mem _ hp))
    ?_ (hfresh.aligned M false) (hfresh.bounded M false), h₀⟩
  rintro rfl
  exact hne (h₃.symm ▸ List.mem_cons_of_mem _ hp)

theorem copyTable (hfresh : mm.Fresh) (hp : ptable ∈ dirs) {d : Nat}
    (h₁ : 32 ≤ d) (h₂ : d < 1024) (t other : Nat) :
    ∀ turns page M, page + turns ≤ 1024 → WindowInv M dm dirs →
      WindowInv (copyTable mm ptable other d t turns page M).2 dm dirs := by
  intro turns
  induction turns with
  | zero => intro page M _ h; exact h
  | succ turns ih =>
      intro page M hle h
      have hv : normal d page 0 ≠ 0 := by
        simp only [normal]
        omega
      rw [Vm.copyTable]
      dsimp only
      split
      · split
        · exact h.vmalloc hfresh hp _ _
        next hmapped =>
          have hmapped := Decidable.not_not.1 hmapped
          obtain ⟨hphys, h₀⟩ := h.vmalloc_mapped hfresh hp hv hmapped
          rw [offset_normal (by decide), Nat.add_zero] at hphys
          rw [hmapped, hphys]
          have hne : mm.malloc M false ∉ dm :: dirs := fun hmem =>
            hfresh.unused M false h₀ (.inl (h.kernel _ hmem))
          refine ih _ _ (by omega) ?_
          exact ((h.vmalloc hfresh hp _ _).splice (hfresh.aligned M false) hne
            (Nat.le_refl _) (Nat.le_refl _)).push fun _ heq => by cases heq
      · exact ih _ _ (by omega) h

theorem copyAddressSpace (hfresh : mm.Fresh) (h : WindowInv M dm dirs)
    (hp : ptable ∈ dirs) (ho : other ∈ dirs) :
    WindowInv (copyAddressSpace mm M ptable other).2 dm dirs := by
  suffices hloop : ∀ turns d M, d + turns ≤ 1024 → WindowInv M dm dirs →
      WindowInv (copyDirectory mm ptable other turns d M).2 dm dirs from
    hloop 1024 0 M (by decide) h
  intro turns
  induction turns with
  | zero => intro d M _ h; exact h
  | succ turns ih =>
      intro d M hle h
      rw [copyDirectory]
      rcases Nat.lt_or_ge d 32 with hd | hd
      · -- an entry of the window is copied onto itself
        have hdirect : ((directMappingEntry d).presence &&
            (directMappingEntry d).directMapped) = true := rfl
        rw [h.readEntry_window ho hd, if_pos hdirect, copyEntry,
          h.store_window hp hd (h.window _ ho d hd)]
        exact ih _ _ (by omega) h
      · have he := h.upper other ho d hd (by omega)
        cases hpres : (readEntry M.mem (other + 4 * d)).presence with
        | false => exact ih _ _ (by omega) h
        | true =>
            have hcopy := copyTable hfresh hp hd (by omega)
              (readEntry M.mem (other + 4 * d)).address other 1024 0 M
              (by omega) h
            rw [(he hpres).2.1, if_neg (by simp), if_pos (by rfl)]
            generalize Vm.copyTable mm ptable other d _ 1024 0 M = copied
              at hcopy ⊢
            rcases copied with ⟨_ | _, M'⟩
            · exact hcopy
            · exact ih _ _ (by omega) hcopy

end WindowInv

end Iposix.Vm
