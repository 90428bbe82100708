import Iposix.Lib.Aligned
import Iposix.Vm.VirtualMm

/-!
# Pages in use

Which pages are in use follows from the log: those handed out for tables, which
are never given back, and those handed out to processes and not given back
since. `Fresh` is what the kernel relies on when it asks for a page, that it
gets a whole one which nobody is using.

The rest are rules for the searches of `add_virtual_memory`: they touch memory
only through `tableAt`, and what they find are entries of the tables it
delivers.
-/

namespace Iposix.Vm

open Iposix.Lib

/-- The page was handed out for a table. -/
def Kernel (log : List Event) (p : Nat) : Prop :=
  p ≠ 0 ∧ Event.alloc true p ∈ log

/-- The page was handed out to a process and has not been given back. -/
def User : List Event → Nat → Prop
  | [], _ => False
  | .alloc false q :: log, p => (p = q ∧ p ≠ 0) ∨ User log p
  | .free q true :: log, p => p ≠ q ∧ User log p
  | _ :: log, p => User log p

def InUse (log : List Event) (p : Nat) : Prop := Kernel log p ∨ User log p

/-- The page manager hands out whole pages that are not in use. -/
structure PageManager.Fresh (mm : PageManager) : Prop where
  aligned : ∀ M kernel, 4096 ∣ mm.malloc M kernel
  bounded : ∀ M kernel, mm.malloc M kernel < 4294967296
  unused : ∀ M kernel, mm.malloc M kernel ≠ 0 →
    ¬ InUse M.log (mm.malloc M kernel)

variable {mm : PageManager} {M M' : Machine} {log : List Event}
  {ptable p q v : Nat}

theorem user_ne_zero : ∀ (log : List Event) {p : Nat}, User log p → p ≠ 0
  | .alloc false _ :: log, _, h => h.elim And.right (user_ne_zero log)
  | .alloc true _ :: log, _, h => user_ne_zero log h
  | .free _ true :: log, _, h => user_ne_zero log h.2
  | .free _ false :: log, _, h => user_ne_zero log h
  | .copy _ _ _ :: log, _, h => user_ne_zero log h

theorem kernel_cons (e : Event) (h : Kernel log p) : Kernel (e :: log) p :=
  ⟨h.1, List.mem_cons_of_mem e h.2⟩

theorem kernel_alloc : Kernel (.alloc true q :: log) p ↔
    (p = q ∧ p ≠ 0) ∨ Kernel log p := by
  simp only [Kernel, List.mem_cons, Event.alloc.injEq, true_and]
  tauto

theorem kernel_of_ne {e : Event} (he : ∀ q, e ≠ .alloc true q) :
    Kernel (e :: log) p ↔ Kernel log p := by
  simp only [Kernel, List.mem_cons]
  exact ⟨fun ⟨h₀, h⟩ => ⟨h₀, h.resolve_left fun heq => he p heq.symm⟩,
    fun ⟨h₀, h⟩ => ⟨h₀, .inr h⟩⟩

instance (log : List Event) (p : Nat) : Decidable (Kernel log p) :=
  inferInstanceAs (Decidable (_ ∧ _))

instance decidableUser : (log : List Event) → (p : Nat) →
    Decidable (User log p)
  | [], _ => inferInstanceAs (Decidable False)
  | .alloc false q :: log, p =>
      let _ := decidableUser log p
      inferInstanceAs (Decidable ((p = q ∧ p ≠ 0) ∨ User log p))
  | .free q true :: log, p =>
      let _ := decidableUser log p
      inferInstanceAs (Decidable (p ≠ q ∧ User log p))
  | .alloc true _ :: log, p => decidableUser log p
  | .free _ false :: log, p => decidableUser log p
  | .copy _ _ _ :: log, p => decidableUser log p

instance (log : List Event) (p : Nat) : Decidable (InUse log p) :=
  inferInstanceAs (Decidable (_ ∨ _))

/-- A page manager that hands out one page after the other and takes all
back. -/
def counting : PageManager where
  malloc M _ :=
    let p := 4096 * (M.log.length + 1)
    if p < 4294967296 ∧ ¬ InUse M.log p then p else 0
  free _ _ := true

theorem counting_fresh : counting.Fresh := by
  refine ⟨fun M kernel => ?_, fun M kernel => ?_, fun M kernel h => ?_⟩
  · simp only [counting]
    split
    · exact ⟨_, rfl⟩
    · exact ⟨0, rfl⟩
  · simp only [counting]
    split <;> omega
  · simp only [counting] at h ⊢
    split at h
    next hp =>
      rw [if_pos hp]
      exact hp.2
    next => exact absurd rfl h

/-- What it takes for a property of the log to survive what is done with the
page manager: pages are given back only while a process has them. -/
structure LogRule (mm : PageManager) (I : List Event → Prop) : Prop where
  alloc : ∀ M kernel, I M.log → I (.alloc kernel (mm.malloc M kernel) :: M.log)
  free : ∀ M page, I M.log → User M.log page →
    I (.free page (mm.free M page) :: M.log)
  copy : ∀ log w a n, I log → I (.copy w a n :: log)

/-! ## Virtual addresses -/

theorem dir_normal {d p o : Nat} (hd : d < 1024) (hp : p < 1024)
    (ho : o < 4096) : dir (normal d p o) = d := by
  simp only [dir, normal]
  omega

theorem page_normal {d p o : Nat} (hp : p < 1024) (ho : o < 4096) :
    page (normal d p o) = p := by
  simp only [page, normal]
  omega

theorem offset_normal {d p o : Nat} (ho : o < 4096) :
    offset (normal d p o) = o := by
  simp only [offset, normal]
  omega

theorem dir_lt (v : Nat) : dir v < 1024 := Nat.mod_lt _ (by decide)

theorem page_lt (v : Nat) : page v < 1024 := Nat.mod_lt _ (by decide)

/-! ## Entries of pages -/

theorem address_dvd (e : Entry) : 4096 ∣ e.address := ⟨_, rfl⟩

theorem address_lt (e : Entry) : e.address < 4294967296 := by
  have hlt := e.pageFrameAddress.isLt
  rw [Entry.address]
  omega

theorem address_tableEntry (hp : 4096 ∣ p) (hlt : p < 4294967296) :
    (tableEntry p).address = p := by
  show 4096 * (p / 4096 % 1048576) = p
  omega

theorem address_mappedEntry (e : Entry) (hp : 4096 ∣ p)
    (hlt : p < 4294967296) : (mappedEntry e p).address = p := by
  show 4096 * (p / 4096 % 1048576) = p
  omega

theorem readEntry_of_samePage {m m' : Nat → UInt8} {k : Nat}
    (h : SamePage 4096 m m' p) (hk : k < 1024) :
    readEntry m' (p + 4 * k) = readEntry m (p + 4 * k) := by
  rw [readEntry, readEntry, h.load (by omega) (by omega)]

theorem samePage_store {m : Nat → UInt8} {k w : Nat} (hp : 4096 ∣ p)
    (hq : 4096 ∣ q) (hne : p ≠ q) (hk : k < 1024) :
    SamePage 4096 m (store 4 m (q + 4 * k) w) p := by
  rw [store]
  exact samePage_splice hp hq hne (by omega) (by omega)

theorem samePage_writeEntry {m : Nat → UInt8} {k : Nat} {e : Entry}
    (hp : 4096 ∣ p) (hq : 4096 ∣ q) (hne : p ≠ q) (hk : k < 1024) :
    SamePage 4096 m (writeEntry m (q + 4 * k) e) p :=
  samePage_store hp hq hne hk

theorem readEntry_writeEntry_of_ne {m : Nat → UInt8} {k l : Nat} {e : Entry}
    (hne : k ≠ l) :
    readEntry (writeEntry m (q + 4 * k) e) (q + 4 * l) =
      readEntry m (q + 4 * l) :=
  readEntry_writeEntry_of_disjoint (by omega)

/-! ## What the searches do -/

/-- The machine after `tableAt` has made a table. -/
def withTable (mm : PageManager) (M : Machine) (ptable dir : Nat) : Machine where
  mem := writeEntry
    (if mm.malloc M true = 0 then M.mem
      else splice M.mem (mm.malloc M true) 4096 fun _ => 0)
    (ptable + 4 * dir) (tableEntry (mm.malloc M true))
  log := .alloc true (mm.malloc M true) :: M.log

theorem tableAt_cases (mm : PageManager) (M : Machine) (ptable d : Nat) :
    ((readEntry M.mem (ptable + 4 * d)).presence = true ∧
      (readEntry M.mem (ptable + 4 * d)).pageSize = true ∧
      tableAt mm M ptable d = (none, M)) ∨
    ((readEntry M.mem (ptable + 4 * d)).presence = true ∧
      (readEntry M.mem (ptable + 4 * d)).pageSize = false ∧
      tableAt mm M ptable d =
        (some (readEntry M.mem (ptable + 4 * d)).address, M)) ∨
    ((readEntry M.mem (ptable + 4 * d)).presence = false ∧
      tableAt mm M ptable d =
        (some (tableEntry (mm.malloc M true)).address,
          withTable mm M ptable d)) := by
  rw [tableAt]
  dsimp only
  cases hpres : (readEntry M.mem (ptable + 4 * d)).presence with
  | true =>
      cases hsize : (readEntry M.mem (ptable + 4 * d)).pageSize with
      | true => exact .inl ⟨rfl, rfl, rfl⟩
      | false => exact .inr (.inl ⟨rfl, rfl, rfl⟩)
  | false =>
      refine .inr (.inr ⟨rfl, ?_⟩)
      rw [withTable, createPageTable, PageManager.alloc]
      by_cases h₀ : mm.malloc M true = 0
      · simp [h₀]
      · simp [h₀]

/-- What it takes for an invariant to survive the searches, with a property of
the entries they find. -/
structure TableRule (mm : PageManager) (ptable : Nat) (I : Machine → Prop)
    (Q : Machine → Nat → Prop) : Prop where
  inv : ∀ M d, I M → d < 1024 → I (tableAt mm M ptable d).2
  mono : ∀ M d a, I M → d < 1024 → Q M a → Q (tableAt mm M ptable d).2 a
  entry : ∀ M d t p, I M → d < 1024 →
    (tableAt mm M ptable d).1 = some t → p < 1024 →
    Q (tableAt mm M ptable d).2 (t + 4 * p)

/-- One more entry of the table is on the list. -/
theorem mem_push {used : List Nat} {table page b : Nat} (hpage : page < 1024)
    (hb : b ∈ used ++ [table + 4 * page]) :
    b ∈ used ∨ ∃ p, p < 1024 ∧ b = table + 4 * p := by
  rcases List.mem_append.1 hb with hb | hb
  · exact .inl hb
  · exact .inr ⟨page, hpage, List.mem_singleton.1 hb⟩

theorem findFree_mem {m : Nat → UInt8} {table total : Nat} :
    ∀ turns page used count vpage a, page + turns ≤ 1024 →
      a ∈ (findFree m table total turns page used count vpage).1 →
      a ∈ used ∨ ∃ p, p < 1024 ∧ a = table + 4 * p := by
  intro turns
  induction turns with
  | zero => intro page used count vpage a _ ha; exact .inl ha
  | succ turns ih =>
      intro page used count vpage a hle ha
      have hpage : page < 1024 := by omega
      rw [findFree] at ha
      dsimp only at ha
      split at ha
      · rcases ih _ _ _ _ a (by omega) ha with hnil | hp
        · cases hnil
        · exact .inr hp
      · split at ha
        · exact mem_push hpage ha
        · rcases ih _ _ _ _ a (by omega) ha with hb | hp
          · exact mem_push hpage hb
          · exact .inr hp

theorem claimFree_mem {m : Nat → UInt8} {table : Nat} {found : List Nat × Nat} :
    ∀ turns page used count a, page + turns ≤ 1024 →
      claimFree m table turns page used count = some found → a ∈ found.1 →
      a ∈ used ∨ ∃ p, p < 1024 ∧ a = table + 4 * p := by
  intro turns
  induction turns with
  | zero =>
      intro page used count a _ hfound ha
      cases hfound
      exact .inl ha
  | succ turns ih =>
      intro page used count a hle hfound ha
      have hpage : page < 1024 := by omega
      rw [claimFree] at hfound
      dsimp only at hfound
      split at hfound
      · cases hfound
      · split at hfound
        · cases hfound
          exact mem_push hpage ha
        · rcases ih _ _ _ a (by omega) hfound ha with hb | hp
          · exact mem_push hpage hb
          · exact .inr hp

section Rules

variable {I : Machine → Prop} {Q : Machine → Nat → Prop}

theorem TableRule.searchAny (h : TableRule mm ptable I Q) (total : Nat) :
    ∀ turns d used count vpage M, d + turns ≤ 1024 → I M →
      (∀ a, a ∈ used → Q M a) →
      I (searchAny mm ptable total turns d used count vpage M).2 ∧
      ∀ found, (searchAny mm ptable total turns d used count vpage M).1 =
        some found → ∀ a, a ∈ found.1 →
          Q (searchAny mm ptable total turns d used count vpage M).2 a := by
  intro turns
  induction turns with
  | zero => intro d used count vpage M _ hI _; exact ⟨hI, fun _ h => nomatch h⟩
  | succ turns ih =>
      intro d used count vpage M hle hI hused
      have hinv := h.inv M d hI (by omega)
      have hmono := h.mono M d
      have hentry := h.entry M d
      rw [Vm.searchAny]
      rcases htable : tableAt mm M ptable d with ⟨_ | table, M₁⟩ <;>
        rw [htable] at hinv hmono hentry
      · exact ⟨hinv, fun _ hnone => nomatch hnone⟩
      · have hmem : ∀ a, a ∈ (findFree M₁.mem table total 1024 0 used count
            vpage).1 → Q M₁ a := by
          intro a ha
          rcases findFree_mem 1024 0 used count vpage a (by omega) ha with
            ha | ⟨p, hp, rfl⟩
          · exact hmono a hI (by omega) (hused a ha)
          · exact hentry table p hI (by omega) rfl hp
        dsimp only
        split
        · refine ⟨hinv, fun found hfound => ?_⟩
          cases hfound
          exact hmem
        · exact ih _ _ _ _ _ (by omega) hinv hmem

theorem TableRule.searchAt (h : TableRule mm ptable I Q) :
    ∀ turns d page used count M, d + turns ≤ 1024 → page < 1024 → I M →
      (∀ a, a ∈ used → Q M a) →
      I (searchAt mm ptable turns d page used count M).2 ∧
      ∀ found, (searchAt mm ptable turns d page used count M).1 = some found →
        ∀ a, a ∈ found →
          Q (searchAt mm ptable turns d page used count M).2 a := by
  intro turns
  induction turns with
  | zero =>
      intro d page used count M _ _ hI hused
      refine ⟨hI, fun found hfound => ?_⟩
      cases hfound
      exact hused
  | succ turns ih =>
      intro d page used count M hle hpage hI hused
      have hinv := h.inv M d hI (by omega)
      have hmono := h.mono M d
      have hentry := h.entry M d
      rw [Vm.searchAt]
      rcases htable : tableAt mm M ptable d with ⟨_ | table, M₁⟩ <;>
        rw [htable] at hinv hmono hentry
      · exact ⟨hinv, fun _ hnone => nomatch hnone⟩
      · dsimp only
        rcases hclaim : claimFree M₁.mem table (1024 - page) page used count
          with _ | ⟨used', count'⟩
        · exact ⟨hinv, fun _ hnone => nomatch hnone⟩
        · have hmem : ∀ a, a ∈ used' → Q M₁ a := by
            intro a ha
            rcases claimFree_mem _ _ _ _ a (by omega) hclaim ha with
              ha | ⟨p, hp, rfl⟩
            · exact hmono a hI (by omega) (hused a ha)
            · exact hentry table p hI (by omega) rfl hp
          dsimp only
          split
          · refine ⟨hinv, fun found hfound => ?_⟩
            cases hfound
            exact hmem
          · exact ih _ _ _ _ _ (by omega) (by decide) hinv hmem

/-- The machine after an entry has been given a page. -/
def withEntry (M : Machine) (entry addr : Nat) : Machine :=
  { M with
    mem := writeEntry M.mem entry (mappedEntry (readEntry M.mem entry) addr) }

theorem mapAll_rule {addresses : List Nat}
    (hmap : ∀ M a addr, addr ∈ addresses → I M → Q M a →
      I (withEntry M a addr) ∧ ∀ b, Q M b → Q (withEntry M a addr) b) :
    ∀ used l M, (∀ addr, addr ∈ l → addr ∈ addresses) → I M →
      (∀ a, a ∈ used → Q M a) → I { M with mem := mapAll M.mem used l } := by
  intro used
  induction used with
  | nil => intro l M _ hI _; exact hI
  | cons a used ih =>
      intro l M hl hI hused
      cases l with
      | nil => exact hI
      | cons addr l =>
          obtain ⟨hI', hQ⟩ := hmap M a addr (hl addr List.mem_cons_self) hI
            (hused a List.mem_cons_self)
          exact ih l (withEntry M a addr)
            (fun b hb => hl b (List.mem_cons_of_mem _ hb)) hI'
            fun b hb => hQ b (hused b (List.mem_cons_of_mem a hb))

/-- Adding memory keeps what making tables and filling entries keep. -/
theorem TableRule.addVirtualMemory (h : TableRule mm ptable I Q)
    {addresses : List Nat}
    (hmap : ∀ M a addr, addr ∈ addresses → I M → Q M a →
      I (withEntry M a addr) ∧ ∀ b, Q M b → Q (withEntry M a addr) b)
    (hI : I M) : I (addVirtualMemory mm M ptable addresses v).2 := by
  rw [Vm.addVirtualMemory]
  split
  · exact hI
  · split
    · obtain ⟨hinv, hmem⟩ := h.searchAny addresses.length (1024 - 512) 512 []
        addresses.length 0 M (by decide) hI (fun _ ha => nomatch ha)
      rcases hs : Vm.searchAny mm ptable addresses.length (1024 - 512) 512 []
          addresses.length 0 M with ⟨_ | ⟨used, w⟩, M₁⟩ <;>
        rw [hs] at hinv hmem
      · exact hinv
      · exact mapAll_rule hmap used addresses M₁ (fun _ ha => ha) hinv
          (hmem _ rfl)
    · obtain ⟨hinv, hmem⟩ := h.searchAt (1024 - dir v) (dir v) (page v) []
        addresses.length M (by have := dir_lt v; omega) (page_lt v) hI
        (fun _ ha => nomatch ha)
      rcases hs : Vm.searchAt mm ptable (1024 - dir v) (dir v) (page v) []
          addresses.length M with ⟨_ | used, M₁⟩ <;>
        rw [hs] at hinv hmem
      · exact hinv
      · exact mapAll_rule hmap used addresses M₁ (fun _ ha => ha) hinv
          (hmem _ rfl)

end Rules

/-- One page, at an address of its own. -/
theorem vmalloc_page (mm : PageManager) (M : Machine) (ptable : Nat)
    (hv : v ≠ 0) :
    vmalloc mm M PAGE_SIZE ptable v =
      if mm.malloc M false = 0 then (0, (mm.alloc M false).2)
      else
        match tableAt mm (mm.alloc M false).2 ptable (dir v) with
        | (none, M') => (0, M')
        | (some table, M') =>
            if (readEntry M'.mem (table + 4 * page v)).presence then (0, M')
            else (v, withEntry M' (table + 4 * page v) (mm.malloc M false)) := by
  have hdir : 1024 - dir v = (1023 - dir v) + 1 := by
    have hd := dir_lt v
    omega
  have hpage : 1024 - page v = (1023 - page v) + 1 := by
    have hp := page_lt v
    omega
  rw [vmalloc, if_neg hv, virtualMalloc]
  simp only [PAGE_SIZE, Nat.div_self (by decide : 0 < 4096), Nat.mod_self]
  simp only [ne_eq, not_true_eq_false, if_false, Nat.add_zero, allocAll,
    PageManager.alloc]
  by_cases h₀ : mm.malloc M false = 0
  · simp only [h₀, if_true, freeAll]
  · simp only [h₀, if_false, List.nil_append, addVirtualMemory,
      List.length_cons, List.length_nil, Nat.zero_add, hv, hdir,
      Nat.one_ne_zero]
    rw [searchAt]
    rcases tableAt mm _ ptable (dir v) with ⟨_ | table, M'⟩
    · rfl
    · dsimp only
      rw [hpage, claimFree]
      dsimp only
      by_cases hpres : (readEntry M'.mem (table + 4 * page v)).presence = true
      · simp only [hpres, if_true]
      · simp only [hpres]
        rfl

/-- What it takes for one page to be mapped. -/
theorem vmalloc_page_mapped (hv : v ≠ 0)
    (h : (vmalloc mm M PAGE_SIZE ptable v).1 = v) :
    mm.malloc M false ≠ 0 ∧
      ∃ t M', tableAt mm (mm.alloc M false).2 ptable (dir v) = (some t, M') ∧
        (vmalloc mm M PAGE_SIZE ptable v).2 =
          withEntry M' (t + 4 * page v) (mm.malloc M false) := by
  rw [vmalloc_page mm M ptable hv] at h ⊢
  by_cases h₀ : mm.malloc M false = 0
  · rw [if_pos h₀] at h
    exact absurd h.symm hv
  rw [if_neg h₀] at h ⊢
  refine ⟨h₀, ?_⟩
  rcases htable : tableAt mm (mm.alloc M false).2 ptable (dir v) with
    ⟨_ | t, M'⟩ <;> rw [htable] at h
  · exact absurd h.symm hv
  · dsimp only at h ⊢
    split at h
    · exact absurd h.symm hv
    next hpres => exact ⟨t, M', rfl, by rw [if_neg hpres]⟩

/-- The entry behind which a table was found or made leads to it. -/
theorem tableAt_entry {d t : Nat} {M' : Machine}
    (h : tableAt mm M ptable d = (some t, M')) :
    (readEntry M'.mem (ptable + 4 * d)).presence = true ∧
      (readEntry M'.mem (ptable + 4 * d)).pageSize = false ∧
      (readEntry M'.mem (ptable + 4 * d)).address = t := by
  rcases tableAt_cases mm M ptable d with ⟨_, _, heq⟩ | ⟨hpres, hsize, heq⟩ |
    ⟨_, heq⟩ <;> rw [heq] at h <;> cases h
  · exact ⟨hpres, hsize, rfl⟩
  · rw [withTable, readEntry_writeEntry]
    exact ⟨rfl, rfl, rfl⟩

/-- A page that has just been mapped is found. -/
theorem getPhysAddress_mapped {m : Nat → UInt8} {e : Entry} {t a : Nat}
    (hpres : (readEntry m (ptable + 4 * dir v)).presence = true)
    (hsize : (readEntry m (ptable + 4 * dir v)).pageSize = false)
    (htable : (readEntry m (ptable + 4 * dir v)).address = t)
    (hp : 4096 ∣ ptable) (hne : ptable ≠ t) (ha : 4096 ∣ a)
    (hlt : a < 4294967296) :
    getPhysAddress (writeEntry m (t + 4 * page v) (mappedEntry e a)) ptable v =
      a + offset v := by
  have hsame : SamePage 4096 m
      (writeEntry m (t + 4 * page v) (mappedEntry e a)) ptable :=
    samePage_writeEntry hp (htable ▸ address_dvd _) hne (page_lt v)
  rw [getPhysAddress, readEntry_of_samePage hsame (dir_lt v)]
  simp only [hpres, hsize, htable, readEntry_writeEntry,
    address_mappedEntry e ha hlt]
  rfl

end Iposix.Vm
