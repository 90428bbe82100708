import Iposix.Proofs.WindowRuns

/-!
# Address spaces

The page tables of all processes are different pages, and so is every page
mapped different from every table: tables are pages handed out for tables,
what is mapped are pages handed out to processes. `Tables` and `Spaces` say so
of a machine with its directories. Four things happen to such a machine: memory
that holds no table changes, a page is handed out, a table is made, an entry of
a table is written. The last two change the mapping in one place, which `pteAt`
shows.
-/

namespace Iposix.Vm

open Iposix.Lib

/-- The page table entry for a page, if it is there and present. -/
def pteAt (m : Nat → UInt8) (ptable d p : Nat) : Option Entry :=
  let pde := readEntry m (ptable + 4 * d)
  if pde.presence && !pde.pageSize then
    let pte := readEntry m (pde.address + 4 * p)
    if pte.presence then some pte else none
  else none

/-- What an address is translated to. -/
def translate (m : Nat → UInt8) (ptable v : Nat) : Option Nat :=
  let pde := readEntry m (ptable + 4 * dir v)
  if pde.presence && pde.pageSize then
    some (pde.flat / 4194304 * 4194304 + v % 4194304)
  else (pteAt m ptable (dir v) (page v)).map fun pte => pte.address + offset v

theorem getPhysAddress_eq (m : Nat → UInt8) (ptable v : Nat) :
    getPhysAddress m ptable v = (translate m ptable v).getD 0 := by
  rw [getPhysAddress, translate, pteAt]
  dsimp only
  cases (readEntry m (ptable + 4 * dir v)).presence with
  | false => rfl
  | true =>
      cases (readEntry m (ptable + 4 * dir v)).pageSize with
      | true => rfl
      | false =>
          cases (readEntry m ((readEntry m (ptable + 4 * dir v)).address +
            4 * page v)).presence <;> rfl

theorem translate_of_pteAt {m : Nat → UInt8} {ptable v : Nat} {e : Entry}
    (h : pteAt m ptable (dir v) (page v) = some e) :
    translate m ptable v = some (e.address + offset v) := by
  have hsize : ¬ ((readEntry m (ptable + 4 * dir v)).presence &&
      (readEntry m (ptable + 4 * dir v)).pageSize) = true := by
    intro hboth
    rw [Bool.and_eq_true] at hboth
    rw [pteAt] at h
    dsimp only at h
    rw [hboth.1, hboth.2] at h
    cases h
  rw [translate]
  rw [if_neg hsize, h]
  rfl

/-- A page is translated as a whole. -/
theorem translate_add {m : Nat → UInt8} {ptable v a j : Nat}
    (ha : translate m ptable v = some a) (hj : offset v + j < 4096) :
    translate m ptable (v + j) = some (a + j) := by
  rw [offset] at hj
  have hdir : dir (v + j) = dir v := by
    rw [dir, dir]
    omega
  have hpage : page (v + j) = page v := by
    rw [page, page]
    omega
  have hoffset : offset (v + j) = offset v + j := by
    rw [offset, offset]
    omega
  have hlow : (v + j) % 4194304 = v % 4194304 + j := by omega
  rw [translate] at ha ⊢
  rw [hdir, hpage, hoffset, hlow]
  split at ha
  next hbig =>
    cases ha
    rw [if_pos hbig, Nat.add_assoc]
  next hbig =>
    obtain ⟨e, he, rfl⟩ := Option.map_eq_some_iff.1 ha
    rw [if_neg hbig, he, Option.map_some, Nat.add_assoc]

/-- A page is mapped as a whole. -/
theorem translate_isSome {m : Nat → UInt8} {ptable v w : Nat}
    (h : v / 4096 = w / 4096) :
    (translate m ptable v).isSome = (translate m ptable w).isSome := by
  have hdir : dir v = dir w := by
    rw [dir, dir]
    omega
  have hpage : page v = page w := by rw [page, page, h]
  rw [translate, translate, hdir, hpage]
  split
  · rfl
  · rw [Option.isSome_map, Option.isSome_map]

/-- `dirs` are the directories; none of their page tables is the null page. -/
structure Tables (M : Machine) (dm : Nat) (dirs : List Nat) : Prop where
  window : WindowInv M dm dirs
  tables : ∀ q, q ∈ dirs → ∀ d, 32 ≤ d → d < 1024 →
    (readEntry M.mem (q + 4 * d)).presence = true →
    Kernel M.log (readEntry M.mem (q + 4 * d)).address
  distinct : ∀ q, q ∈ dirs → ∀ d, 32 ≤ d → d < 1024 →
    (readEntry M.mem (q + 4 * d)).presence = true →
    ∀ q', q' ∈ dirs → ∀ d', 32 ≤ d' → d' < 1024 →
      (readEntry M.mem (q' + 4 * d')).presence = true →
      (readEntry M.mem (q + 4 * d)).address =
        (readEntry M.mem (q' + 4 * d')).address → q = q' ∧ d = d'

/-- What the tables map are pages handed out to processes. -/
structure Spaces (M : Machine) (dm : Nat) (dirs : List Nat) : Prop where
  window : WindowInv M dm dirs
  tables : ∀ q, q ∈ dirs → ∀ d, 32 ≤ d → d < 1024 →
    (readEntry M.mem (q + 4 * d)).presence = true →
    Kernel M.log (readEntry M.mem (q + 4 * d)).address
  distinct : ∀ q, q ∈ dirs → ∀ d, 32 ≤ d → d < 1024 →
    (readEntry M.mem (q + 4 * d)).presence = true →
    ∀ q', q' ∈ dirs → ∀ d', 32 ≤ d' → d' < 1024 →
      (readEntry M.mem (q' + 4 * d')).presence = true →
      (readEntry M.mem (q + 4 * d)).address =
        (readEntry M.mem (q' + 4 * d')).address → q = q' ∧ d = d'
  frames : ∀ q, q ∈ dirs → ∀ d, 32 ≤ d → d < 1024 → ∀ p, p < 1024 →
    ∀ e, pteAt M.mem q d p = some e →
      e.directMapped = false ∧ User M.log e.address ∧ ¬ Kernel M.log e.address

variable {mm : PageManager} {M M' : Machine} {dm ptable q : Nat}
  {dirs : List Nat} {d p : Nat}

theorem pteAt_absent {m : Nat → UInt8}
    (h : (readEntry m (ptable + 4 * d)).presence = false) :
    pteAt m ptable d p = none := by
  rw [pteAt]
  dsimp only
  rw [h]
  rfl

theorem pteAt_table {m : Nat → UInt8} {t : Nat}
    (h₁ : (readEntry m (ptable + 4 * d)).presence = true)
    (h₂ : (readEntry m (ptable + 4 * d)).pageSize = false)
    (h₃ : (readEntry m (ptable + 4 * d)).address = t) :
    pteAt m ptable d p =
      if (readEntry m (t + 4 * p)).presence then
        some (readEntry m (t + 4 * p))
      else none := by
  rw [pteAt]
  dsimp only
  rw [h₁, h₂, h₃]
  rfl

/-- The mapping of a directory is read from it and from its tables. -/
theorem pteAt_congr {m m' : Nat → UInt8} (hp : p < 1024)
    (hdir : readEntry m' (ptable + 4 * d) = readEntry m (ptable + 4 * d))
    (htable : (readEntry m (ptable + 4 * d)).presence = true →
      SamePage 4096 m m' (readEntry m (ptable + 4 * d)).address) :
    pteAt m' ptable d p = pteAt m ptable d p := by
  rw [pteAt, pteAt, hdir]
  dsimp only
  cases hpres : (readEntry m (ptable + 4 * d)).presence with
  | false => rfl
  | true => rw [readEntry_of_samePage (htable hpres) hp]

theorem translate_congr {m m' : Nat → UInt8} {v : Nat}
    (hdir : SamePage 4096 m m' ptable)
    (htable : (readEntry m (ptable + 4 * dir v)).presence = true →
      (readEntry m (ptable + 4 * dir v)).pageSize = false →
      SamePage 4096 m m' (readEntry m (ptable + 4 * dir v)).address) :
    translate m' ptable v = translate m ptable v := by
  rw [translate, translate, readEntry_of_samePage hdir (dir_lt v)]
  cases hpres : (readEntry m (ptable + 4 * dir v)).presence with
  | false =>
      rw [pteAt_absent hpres, pteAt_absent]
      rwa [readEntry_of_samePage hdir (dir_lt v)]
  | true =>
      cases hsize : (readEntry m (ptable + 4 * dir v)).pageSize with
      | true => rfl
      | false =>
          rw [pteAt_congr (page_lt v) (readEntry_of_samePage hdir (dir_lt v))
            fun _ => htable hpres hsize]

theorem Spaces.toTables (h : Spaces M dm dirs) : Tables M dm dirs :=
  ⟨h.window, h.tables, h.distinct⟩

theorem Tables.spaces (h : Tables M dm dirs)
    (hframes : ∀ q, q ∈ dirs → ∀ d, 32 ≤ d → d < 1024 → ∀ p, p < 1024 →
      ∀ e, pteAt M.mem q d p = some e →
        e.directMapped = false ∧ User M.log e.address ∧
          ¬ Kernel M.log e.address) : Spaces M dm dirs :=
  ⟨h.window, h.tables, h.distinct, hframes⟩

namespace Tables

theorem pageSize (h : Tables M dm dirs) (hq : q ∈ dirs) (h₁ : 32 ≤ d)
    (h₂ : d < 1024) (hpres : (readEntry M.mem (q + 4 * d)).presence = true) :
    (readEntry M.mem (q + 4 * d)).pageSize = false :=
  (h.window.upper q hq d h₁ h₂ hpres).1

theorem pteAt_congr (h : Tables M dm dirs) {m' : Nat → UInt8} (hq : q ∈ dirs)
    (h₁ : 32 ≤ d) (h₂ : d < 1024) (hp : p < 1024)
    (hmem : ∀ t, Kernel M.log t → SamePage 4096 M.mem m' t) :
    pteAt m' q d p = pteAt M.mem q d p :=
  Vm.pteAt_congr hp (readEntry_of_samePage
    (hmem q (h.window.kernel q (List.mem_cons_of_mem dm hq))) h₂)
    fun hpres => hmem _ (h.tables q hq d h₁ h₂ hpres)

/-- Whatever leaves the tables alone. -/
theorem congr (h : Tables M dm dirs)
    (hmem : ∀ t, Kernel M.log t → SamePage 4096 M.mem M'.mem t)
    (hlog : ∀ t, Kernel M.log t → Kernel M'.log t)
    (haligned : ∀ t, Kernel M'.log t → 4096 ∣ t) : Tables M' dm dirs := by
  have hdir : ∀ t, t ∈ dm :: dirs → SamePage 4096 M.mem M'.mem t :=
    fun t ht => hmem t (h.window.kernel t ht)
  have hread : ∀ t, t ∈ dirs → ∀ k, k < 1024 →
      readEntry M'.mem (t + 4 * k) = readEntry M.mem (t + 4 * k) :=
    fun t ht k hk => readEntry_of_samePage
      (hdir t (List.mem_cons_of_mem dm ht)) hk
  refine ⟨h.window.congr hdir hlog haligned, fun t ht k h₁ h₂ hpres => ?_,
    fun t ht k h₁ h₂ hpres t' ht' k' h₁' h₂' hpres' heq => ?_⟩
  · rw [hread t ht k h₂] at hpres ⊢
    exact hlog _ (h.tables t ht k h₁ h₂ hpres)
  · rw [hread t ht k h₂] at hpres heq
    rw [hread t' ht' k' h₂'] at hpres' heq
    exact h.distinct t ht k h₁ h₂ hpres t' ht' k' h₁' h₂' hpres' heq

/-- The entry of a present table is not in any other. -/
theorem table_ne (h : Tables M dm dirs) (hq : q ∈ dirs) (h₁ : 32 ≤ d)
    (h₂ : d < 1024) (hpres : (readEntry M.mem (q + 4 * d)).presence = true)
    {r : Nat} (hr : r ∈ dm :: dirs) :
    (readEntry M.mem (q + 4 * d)).address ≠ r := by
  rintro rfl
  exact (h.window.upper q hq d h₁ h₂ hpres).2.2.2 hr

/-- An entry of a page table is written. -/
theorem pteAt_write (h : Tables M dm dirs) (hp : ptable ∈ dirs)
    (h₁ : 32 ≤ d) (h₂ : d < 1024) (hlt : p < 1024)
    (hpres : (readEntry M.mem (ptable + 4 * d)).presence = true) (e : Entry)
    (q d' p' : Nat) (hq : q ∈ dirs) (h₁' : 32 ≤ d') (h₂' : d' < 1024)
    (hlt' : p' < 1024) :
    pteAt (writeEntry M.mem
        ((readEntry M.mem (ptable + 4 * d)).address + 4 * p) e) q d' p' =
      if q = ptable ∧ d' = d ∧ p' = p then
        if e.presence then some e else none
      else pteAt M.mem q d' p' := by
  generalize ht : (readEntry M.mem (ptable + 4 * d)).address = t
  have hdvd : 4096 ∣ t := ht ▸ address_dvd _
  have hsame : ∀ r, 4096 ∣ r → r ≠ t →
      SamePage 4096 M.mem (writeEntry M.mem (t + 4 * p) e) r :=
    fun r hr hne => samePage_writeEntry hr hdvd hne hlt
  have hdir : ∀ r, r ∈ dirs →
      SamePage 4096 M.mem (writeEntry M.mem (t + 4 * p) e) r := by
    intro r hr
    have hr := List.mem_cons_of_mem dm hr
    exact hsame r (h.window.dvd hr) fun heq =>
      h.table_ne hp h₁ h₂ hpres hr (ht.trans heq.symm)
  by_cases hqd : q = ptable ∧ d' = d
  · obtain ⟨rfl, rfl⟩ := hqd
    have hread := readEntry_of_samePage (hdir q hq) h₂
    have hsize := h.pageSize hq h₁ h₂ hpres
    rw [pteAt_table (t := t) (by rw [hread, hpres]) (by rw [hread, hsize])
      (by rw [hread, ht]), pteAt_table hpres hsize ht]
    by_cases hpp : p' = p
    · subst hpp
      rw [readEntry_writeEntry, if_pos (⟨rfl, rfl, rfl⟩ : q = q ∧ _)]
    · have hno : ¬ (q = q ∧ d' = d' ∧ p' = p) := fun hall => hpp hall.2.2
      rw [readEntry_writeEntry_of_ne (Ne.symm hpp), if_neg hno]
  · rw [if_neg fun hall => hqd ⟨hall.1, hall.2.1⟩]
    refine Vm.pteAt_congr hlt' (readEntry_of_samePage (hdir q hq) h₂')
      fun hpres' => hsame _ (address_dvd _) fun heq => hqd ?_
    have hboth := h.distinct q hq d' h₁' h₂' hpres' ptable hp d h₁ h₂ hpres
      (heq.trans ht.symm)
    exact hboth

theorem writeEntry (h : Tables M dm dirs) (hp : ptable ∈ dirs) (h₁ : 32 ≤ d)
    (h₂ : d < 1024) (hlt : p < 1024)
    (hpres : (readEntry M.mem (ptable + 4 * d)).presence = true) (e : Entry) :
    Tables
      { M with
        mem := Vm.writeEntry M.mem
          ((readEntry M.mem (ptable + 4 * d)).address + 4 * p) e } dm dirs := by
  have hread : ∀ r, r ∈ dirs → ∀ k, k < 1024 →
      readEntry (Vm.writeEntry M.mem
        ((readEntry M.mem (ptable + 4 * d)).address + 4 * p) e) (r + 4 * k) =
        readEntry M.mem (r + 4 * k) := by
    intro r hr k hk
    have hr := List.mem_cons_of_mem dm hr
    exact readEntry_of_samePage (samePage_writeEntry (h.window.dvd hr)
      (address_dvd _) (h.table_ne hp h₁ h₂ hpres hr).symm hlt) hk
  refine ⟨h.window.writeEntry ⟨_, p, rfl, hlt, address_dvd _,
    (h.window.upper ptable hp d h₁ h₂ hpres).2.2.2⟩ e,
    fun t ht k h₁ h₂ hpres => ?_,
    fun t ht k h₁ h₂ hpres t' ht' k' h₁' h₂' hpres' heq => ?_⟩
  · rw [hread t ht k h₂] at hpres ⊢
    exact h.tables t ht k h₁ h₂ hpres
  · rw [hread t ht k h₂] at hpres heq
    rw [hread t' ht' k' h₂'] at hpres' heq
    exact h.distinct t ht k h₁ h₂ hpres t' ht' k' h₁' h₂' hpres' heq

/-- The directories after a table has been made. -/
theorem readEntry_withTable (hfresh : mm.Fresh) (h : Tables M dm dirs)
    (hp : ptable ∈ dirs) (h₂ : d < 1024) (h₀ : mm.malloc M true ≠ 0)
    {r k : Nat} (hr : r ∈ dirs) (hk : k < 1024) :
    readEntry (withTable mm M ptable d).mem (r + 4 * k) =
      if r = ptable ∧ k = d then tableEntry (mm.malloc M true)
      else readEntry M.mem (r + 4 * k) := by
  have hdvd : ∀ r, r ∈ dirs → 4096 ∣ r := fun r hr =>
    h.window.dvd (List.mem_cons_of_mem dm hr)
  have hne : r ≠ mm.malloc M true := by
    rintro rfl
    exact hfresh.unused M true h₀
      (.inl (h.window.kernel _ (List.mem_cons_of_mem dm hr)))
  have hzero : readEntry (Lib.splice M.mem (mm.malloc M true) 4096 fun _ => 0)
      (r + 4 * k) = readEntry M.mem (r + 4 * k) :=
    readEntry_of_samePage (samePage_splice (hdvd r hr) (hfresh.aligned M true)
      hne (Nat.le_refl _) (Nat.le_refl _)) hk
  rw [Vm.withTable, if_neg h₀]
  by_cases hrp : r = ptable
  · subst hrp
    by_cases hkd : k = d
    · subst hkd
      rw [readEntry_writeEntry, if_pos ⟨rfl, rfl⟩]
    · rw [readEntry_writeEntry_of_ne (Ne.symm hkd), hzero,
        if_neg fun hall => hkd hall.2]
  · rw [readEntry_of_samePage (samePage_writeEntry (hdvd r hr) (hdvd ptable hp)
      hrp h₂) hk, hzero, if_neg fun hall => hrp hall.1]

/-- Pages other than the new table and the directory. -/
theorem samePage_withTable (hfresh : mm.Fresh) (h : Tables M dm dirs)
    (hp : ptable ∈ dirs) (h₂ : d < 1024) {t : Nat} (ht : 4096 ∣ t)
    (hne : t ≠ mm.malloc M true ∨ mm.malloc M true = 0) (hpt : t ≠ ptable) :
    SamePage 4096 M.mem (Vm.withTable mm M ptable d).mem t := by
  have hdvd := h.window.dvd (List.mem_cons_of_mem dm hp)
  rw [Vm.withTable]
  split
  · exact samePage_writeEntry ht hdvd hpt h₂
  next h₀ =>
    exact (samePage_splice ht (hfresh.aligned M true)
      (hne.resolve_right h₀) (Nat.le_refl _) (Nat.le_refl _)).trans
      (samePage_writeEntry ht hdvd hpt h₂)

/-- A new table maps nothing. -/
theorem pteAt_withTable (hfresh : mm.Fresh) (h : Tables M dm dirs)
    (hp : ptable ∈ dirs) (h₂ : d < 1024) (h₀ : mm.malloc M true ≠ 0)
    (habsent : (readEntry M.mem (ptable + 4 * d)).presence = false)
    {q d' p' : Nat} (hq : q ∈ dirs) (h₁' : 32 ≤ d') (h₂' : d' < 1024)
    (hlt' : p' < 1024) :
    pteAt (Vm.withTable mm M ptable d).mem q d' p' = pteAt M.mem q d' p' := by
  have hread := h.readEntry_withTable hfresh hp h₂ h₀ hq h₂'
  by_cases hqd : q = ptable ∧ d' = d
  · obtain ⟨rfl, rfl⟩ := hqd
    have hpt : mm.malloc M true ≠ q := fun heq => hfresh.unused M true h₀
      (.inl (heq ▸ h.window.kernel _ (List.mem_cons_of_mem dm hq)))
    rw [if_pos ⟨rfl, rfl⟩] at hread
    rw [pteAt_absent habsent, pteAt_table (by rw [hread]; rfl)
      (by rw [hread]; rfl) (by rw [hread]), address_tableEntry
      (hfresh.aligned M true) (hfresh.bounded M true)]
    refine if_neg ?_
    have hzero : readEntry (Vm.withTable mm M q d').mem
        (mm.malloc M true + 4 * p') = .ofFlat 0 := by
      rw [Vm.withTable, if_neg h₀, readEntry_of_samePage (samePage_writeEntry
        (hfresh.aligned M true) (h.window.dvd (List.mem_cons_of_mem dm hq)) hpt
        h₂) hlt', readEntry, load_zeroed M.mem hlt']
    rw [hzero]
    decide
  · rw [if_neg hqd] at hread
    refine Vm.pteAt_congr hlt' hread fun hpres =>
      h.samePage_withTable hfresh hp h₂ (address_dvd _) (.inl fun heq => ?_)
        (h.table_ne hq h₁' h₂' hpres (List.mem_cons_of_mem dm hp))
    exact hfresh.unused M true h₀
      (.inl (heq ▸ h.tables q hq d' h₁' h₂' hpres))

theorem withTable (hfresh : mm.Fresh) (h : Tables M dm dirs)
    (hp : ptable ∈ dirs) (h₁ : 32 ≤ d) (h₂ : d < 1024)
    (h₀ : mm.malloc M true ≠ 0) : Tables (withTable mm M ptable d) dm dirs := by
  have hunused := hfresh.unused M true h₀
  have haddr := address_tableEntry (hfresh.aligned M true)
    (hfresh.bounded M true)
  have hread : ∀ r, r ∈ dirs → ∀ k, k < 1024 → _ := fun r hr k hk =>
    h.readEntry_withTable hfresh hp h₂ h₀ hr hk
  have hlog : ∀ t, Kernel M.log t → Kernel (Vm.withTable mm M ptable d).log t :=
    fun t => kernel_cons _
  refine ⟨h.window.withTable hfresh hp h₁ h₂, fun t ht k h₁' h₂' hpres => ?_,
    fun t ht k h₁' h₂' hpres t' ht' k' h₁'' h₂'' hpres' heq => ?_⟩
  · rw [hread t ht k h₂'] at hpres ⊢
    split at hpres
    next hall =>
      rw [if_pos hall, haddr]
      exact kernel_alloc.2 (.inl ⟨rfl, h₀⟩)
    next hall =>
      rw [if_neg hall]
      exact hlog _ (h.tables t ht k h₁' h₂' hpres)
  · rw [hread t ht k h₂'] at hpres heq
    rw [hread t' ht' k' h₂''] at hpres' heq
    by_cases hall : t = ptable ∧ k = d <;> by_cases hall' : t' = ptable ∧ k' = d
    · exact ⟨hall.1.trans hall'.1.symm, hall.2.trans hall'.2.symm⟩
    · rw [if_neg hall'] at hpres' heq
      rw [if_pos hall, haddr] at heq
      exact absurd (.inl (heq ▸ h.tables t' ht' k' h₁'' h₂'' hpres')) hunused
    · rw [if_neg hall] at hpres heq
      rw [if_pos hall', haddr] at heq
      exact absurd (.inl (heq ▸ h.tables t ht k h₁' h₂' hpres)) hunused
    · rw [if_neg hall] at hpres heq
      rw [if_neg hall'] at hpres' heq
      exact h.distinct t ht k h₁' h₂' hpres t' ht' k' h₁'' h₂'' hpres' heq

/-! ## Reading through tables -/

/-- Above the window an address is translated by the entry for its page. -/
theorem translate_eq (h : Tables M dm dirs) (hq : q ∈ dirs) {v : Nat}
    (hv : 32 ≤ dir v) : translate M.mem q v =
      (pteAt M.mem q (dir v) (page v)).map fun e => e.address + offset v := by
  have hno : ¬ ((readEntry M.mem (q + 4 * dir v)).presence &&
      (readEntry M.mem (q + 4 * dir v)).pageSize) = true := by
    intro hboth
    rw [Bool.and_eq_true] at hboth
    rw [h.pageSize hq hv (dir_lt v) hboth.1] at hboth
    cases hboth.2
  rw [translate, if_neg hno]

theorem translate_above (h : Tables M dm dirs) (hq : q ∈ dirs) {v a : Nat}
    (hv : 32 ≤ dir v) (ha : translate M.mem q v = some a) :
    ∃ e, pteAt M.mem q (dir v) (page v) = some e ∧
      a = e.address + offset v := by
  rw [h.translate_eq hq hv] at ha
  obtain ⟨e, he, rfl⟩ := Option.map_eq_some_iff.1 ha
  exact ⟨e, he, rfl⟩

/-- What leaves the tables alone leaves the translations alone. -/
theorem translate_congr (h : Tables M dm dirs) {m' : Nat → UInt8}
    (hmem : ∀ t, Kernel M.log t → SamePage 4096 M.mem m' t) (hq : q ∈ dirs)
    (v : Nat) : translate m' q v = translate M.mem q v :=
  Vm.translate_congr
    (hmem q (h.window.kernel q (List.mem_cons_of_mem dm hq)))
    fun hpres hsize => hmem _ (h.tables q hq _
      (h.window.above hq (.inl hsize)) (dir_lt v) hpres)

end Tables

namespace Spaces

/-- Whatever leaves the tables alone and keeps pages in use. -/
theorem congr (h : Spaces M dm dirs)
    (hmem : ∀ t, Kernel M.log t → SamePage 4096 M.mem M'.mem t)
    (hlog : ∀ t, Kernel M.log t → Kernel M'.log t)
    (haligned : ∀ t, Kernel M'.log t → 4096 ∣ t)
    (huser : ∀ f, User M.log f → ¬ Kernel M.log f →
      User M'.log f ∧ ¬ Kernel M'.log f) : Spaces M' dm dirs := by
  refine (h.toTables.congr hmem hlog haligned).spaces
    fun t ht k h₁ h₂ l hl e he => ?_
  rw [h.toTables.pteAt_congr ht h₁ h₂ hl hmem] at he
  obtain ⟨hdirect, hu, hk⟩ := h.frames t ht k h₁ h₂ l hl e he
  exact ⟨hdirect, huser _ hu hk⟩

/-- A page is handed out. -/
theorem alloc (hfresh : mm.Fresh) (h : Spaces M dm dirs) :
    Spaces (mm.alloc M false).2 dm dirs :=
  h.congr (fun _ _ => SamePage.refl _ _) (fun _ => kernel_cons _)
    (h.window.alloc hfresh false).aligned fun _ hu hk =>
      ⟨.inr hu, fun hk' => hk ((kernel_of_ne (by simp)).1 hk')⟩

/-- Something is written to a page that is no table. -/
theorem splice (h : Spaces M dm dirs) {f a l : Nat} {g : Nat → UInt8}
    (hf : 4096 ∣ f) (hne : ¬ Kernel M.log f) (h₁ : f ≤ a)
    (h₂ : a + l ≤ f + 4096) :
    Spaces { M with mem := Lib.splice M.mem a l g } dm dirs := by
  refine h.congr (fun t ht => samePage_splice (h.window.aligned t ht) hf ?_ h₁
    h₂) (fun _ hk => hk) h.window.aligned fun _ hu hk => ⟨hu, hk⟩
  rintro rfl
  exact hne ht

theorem writeEntry (h : Spaces M dm dirs) (hp : ptable ∈ dirs) (h₁ : 32 ≤ d)
    (h₂ : d < 1024) (hlt : p < 1024)
    (hpres : (readEntry M.mem (ptable + 4 * d)).presence = true) {e : Entry}
    (he : e.presence = true → e.directMapped = false ∧
      User M.log e.address ∧ ¬ Kernel M.log e.address) :
    Spaces
      { M with
        mem := Vm.writeEntry M.mem
          ((readEntry M.mem (ptable + 4 * d)).address + 4 * p) e } dm dirs := by
  refine (h.toTables.writeEntry hp h₁ h₂ hlt hpres e).spaces
    fun t ht k h₁' h₂' l hl e' he' => ?_
  rw [h.toTables.pteAt_write hp h₁ h₂ hlt hpres e t k l ht h₁' h₂' hl] at he'
  split at he'
  · split at he'
    next hepres =>
      cases he'
      exact he hepres
    next => cases he'
  · exact h.frames t ht k h₁' h₂' l hl e' he'

theorem withTable (hfresh : mm.Fresh) (h : Spaces M dm dirs)
    (hp : ptable ∈ dirs) (h₁ : 32 ≤ d) (h₂ : d < 1024)
    (h₀ : mm.malloc M true ≠ 0)
    (habsent : (readEntry M.mem (ptable + 4 * d)).presence = false) :
    Spaces (withTable mm M ptable d) dm dirs := by
  refine (h.toTables.withTable hfresh hp h₁ h₂ h₀).spaces
    fun t ht k h₁' h₂' l hl e he => ?_
  rw [h.toTables.pteAt_withTable hfresh hp h₂ h₀ habsent ht h₁' h₂' hl] at he
  obtain ⟨hdirect, hu, hk⟩ := h.frames t ht k h₁' h₂' l hl e he
  refine ⟨hdirect, hu, fun hk' => ?_⟩
  rcases kernel_alloc.1 hk' with ⟨heq, _⟩ | hk'
  · exact hfresh.unused M true h₀ (.inr (heq ▸ hu))
  · exact hk hk'

/-- What a process maps above the window is no table. -/
theorem kernel_apart (h : Spaces M dm dirs) (hq : q ∈ dirs) {t k v a : Nat}
    (ht : Kernel M.log t) (hk : k < 4096) (hv : 32 ≤ dir v)
    (ha : translate M.mem q v = some a) : t + k ≠ a := by
  obtain ⟨e, he, rfl⟩ := h.toTables.translate_above hq hv ha
  obtain ⟨_, _, hke⟩ := h.frames q hq _ hv (dir_lt v) _ (page_lt v) e he
  have hne : t ≠ e.address := fun heq => hke (heq ▸ ht)
  have ho : offset v < 4096 := Nat.mod_lt _ (by decide)
  rcases aligned_disjoint (h.window.aligned t ht) (address_dvd e) hne with
    hlt | hlt <;> omega

end Spaces

/-! ## Constructing a process -/

/-- What the constructor writes is the new directory. -/
theorem samePage_newProcess (hfresh : mm.Fresh) (h : WindowInv M dm dirs)
    (h₀ : mm.malloc M true ≠ 0) {t : Nat} (ht : 4096 ∣ t)
    (hne : t ≠ mm.malloc M true) :
    SamePage 4096 M.mem (newProcess mm M dm).2.2.mem t := by
  have hdm : dm ≠ mm.malloc M true := fun heq => hfresh.unused M true h₀
    (.inl (heq ▸ h.kernel _ List.mem_cons_self))
  rw [newProcess_eq h₀ (h.ne_zero List.mem_cons_self)]
  exact (samePage_splice ht (hfresh.aligned M true) hne (Nat.le_refl _)
    (Nat.le_refl _)).trans ((copyDirectMapping_spec (hfresh.aligned M true)
      (h.dvd List.mem_cons_self) hdm 32 0 _ (by decide)).1 t ht hne)

/-- A process that was just constructed maps nothing above the window. -/
theorem newProcess_blank (hfresh : mm.Fresh) (h : WindowInv M dm dirs)
    (h₀ : mm.malloc M true ≠ 0) {d : Nat} (h₁ : 32 ≤ d) (h₂ : d < 1024) :
    (readEntry (newProcess mm M dm).2.2.mem
      (mm.malloc M true + 4 * d)).presence = false := by
  have hdm : dm ≠ mm.malloc M true := fun heq => hfresh.unused M true h₀
    (.inl (heq ▸ h.kernel _ List.mem_cons_self))
  rw [newProcess_eq h₀ (h.ne_zero List.mem_cons_self), readEntry,
    (copyDirectMapping_spec (hfresh.aligned M true)
      (h.dvd List.mem_cons_self) hdm 32 0 _ (by decide)).2,
    if_neg (by omega), load_zeroed M.mem h₂]
  rfl

theorem Spaces.newProcess (hfresh : mm.Fresh) (h : Spaces M dm dirs)
    (h₀ : mm.malloc M true ≠ 0) :
    Spaces (newProcess mm M dm).2.2 dm (mm.malloc M true :: dirs) := by
  have hunused := hfresh.unused M true h₀
  have hlog : (Vm.newProcess mm M dm).2.2.log =
      .alloc true (mm.malloc M true) :: M.log := by
    rw [newProcess_eq h₀ (h.window.ne_zero List.mem_cons_self)]
  have hsame : ∀ t, Kernel M.log t →
      SamePage 4096 M.mem (Vm.newProcess mm M dm).2.2.mem t := fun t ht =>
    samePage_newProcess hfresh h.window h₀ (h.window.aligned t ht)
      fun heq => hunused (.inl (heq ▸ ht))
  -- only the processes that were there have entries above the window
  have hold : ∀ t, t ∈ mm.malloc M true :: dirs → ∀ k, 32 ≤ k → k < 1024 →
      (readEntry (Vm.newProcess mm M dm).2.2.mem (t + 4 * k)).presence = true →
      t ∈ dirs ∧ readEntry (Vm.newProcess mm M dm).2.2.mem (t + 4 * k) =
        readEntry M.mem (t + 4 * k) := by
    intro t ht k h₁ h₂ hpres
    rcases List.mem_cons.1 ht with rfl | ht
    · rw [newProcess_blank hfresh h.window h₀ h₁ h₂] at hpres
      cases hpres
    · exact ⟨ht, readEntry_of_samePage (hsame t
        (h.window.kernel t (List.mem_cons_of_mem dm ht))) h₂⟩
  refine ⟨h.window.newProcess hfresh h₀, fun t ht k h₁ h₂ hpres => ?_,
    fun t ht k h₁ h₂ hpres t' ht' k' h₁' h₂' hpres' heq => ?_,
    fun t ht k h₁ h₂ l hl e he => ?_⟩
  · obtain ⟨ht, hread⟩ := hold t ht k h₁ h₂ hpres
    rw [hread] at hpres ⊢
    rw [hlog]
    exact kernel_cons _ (h.tables t ht k h₁ h₂ hpres)
  · obtain ⟨ht, hread⟩ := hold t ht k h₁ h₂ hpres
    obtain ⟨ht', hread'⟩ := hold t' ht' k' h₁' h₂' hpres'
    rw [hread] at hpres heq
    rw [hread'] at hpres' heq
    exact h.distinct t ht k h₁ h₂ hpres t' ht' k' h₁' h₂' hpres' heq
  · cases hpres : (readEntry (Vm.newProcess mm M dm).2.2.mem
      (t + 4 * k)).presence with
    | false =>
        rw [pteAt_absent hpres] at he
        cases he
    | true =>
        obtain ⟨ht, _⟩ := hold t ht k h₁ h₂ hpres
        rw [h.toTables.pteAt_congr ht h₁ h₂ hl hsame] at he
        obtain ⟨hdirect, hu, hk⟩ := h.frames t ht k h₁ h₂ l hl e he
        rw [hlog]
        refine ⟨hdirect, hu, fun hk' => ?_⟩
        rcases kernel_alloc.1 hk' with ⟨heq, _⟩ | hk'
        · exact hunused (.inr (heq ▸ hu))
        · exact hk hk'
/-! ## Bytes -/

theorem WindowInv.translate_window (h : WindowInv M dm dirs) (hq : q ∈ dirs)
    {v : Nat} (hv : dir v < 32) :
    translate M.mem q v =
      some ((directMappingEntry (dir v)).flat / 4194304 * 4194304 +
        v % 4194304) := by
  rw [translate, h.readEntry_window hq hv]
  rfl

/-- What keeps the entries keeps the translations. -/
theorem Tables.translate_same (h : Tables M dm dirs) (h' : Tables M' dm dirs)
    (hq : q ∈ dirs) {v : Nat}
    (hsame : 32 ≤ dir v → pteAt M'.mem q (dir v) (page v) =
      pteAt M.mem q (dir v) (page v)) :
    translate M'.mem q v = translate M.mem q v := by
  by_cases hv : dir v < 32
  · rw [h.window.translate_window hq hv, h'.window.translate_window hq hv]
  · have hv : 32 ≤ dir v := Nat.le_of_not_lt hv
    rw [h.translate_eq hq hv, h'.translate_eq hq hv, hsame hv]

/-- The byte a process reads. -/
def readByte (m : Nat → UInt8) (ptable v : Nat) : Option UInt8 :=
  (translate m ptable v).map m

/-- A process writes a byte. -/
def writeByte (m : Nat → UInt8) (ptable : Nat) (w : Nat × UInt8) :
    Nat → UInt8 :=
  (translate m ptable w.1).elim m fun a => splice m a 1 fun _ => w.2

/-- Writes of a process above the window change nothing but what it maps
there. -/
theorem Spaces.writes (h : Spaces M dm dirs) (hq : q ∈ dirs) :
    ∀ ws : List (Nat × UInt8), (∀ w, w ∈ ws → 32 ≤ dir w.1) →
      ∀ b, (∀ v a, 32 ≤ dir v → translate M.mem q v = some a → b ≠ a) →
        ws.foldl (fun m w => writeByte m q w) M.mem b = M.mem b := by
  suffices hgen : ∀ (ws : List (Nat × UInt8)) (m : Nat → UInt8),
      (∀ w, w ∈ ws → 32 ≤ dir w.1) →
      (∀ b, (∀ v a, 32 ≤ dir v → translate M.mem q v = some a → b ≠ a) →
        m b = M.mem b) →
      ∀ b, (∀ v a, 32 ≤ dir v → translate M.mem q v = some a → b ≠ a) →
        ws.foldl (fun m w => writeByte m q w) m b = M.mem b from
    fun ws hws b hb => hgen ws M.mem hws (fun _ _ => rfl) b hb
  intro ws
  induction ws with
  | nil => intro m _ hm b hb; exact hm b hb
  | cons w ws ih =>
      intro m hws hm
      refine ih _ (fun w' hw' => hws w' (List.mem_cons_of_mem w hw'))
        fun b hb => ?_
      have htables : ∀ t, Kernel M.log t → SamePage 4096 M.mem m t :=
        fun t ht k hk => hm (t + k) fun _ _ hv ha =>
          h.kernel_apart hq ht hk hv ha
      show writeByte m q w b = M.mem b
      rw [writeByte, h.toTables.translate_congr htables hq w.1]
      cases ha : translate M.mem q w.1 with
      | none => exact hm b hb
      | some a =>
          have hne := hb w.1 a (hws w List.mem_cons_self) ha
          show Lib.splice m a 1 (fun _ => w.2) b = M.mem b
          rcases Nat.lt_or_gt_of_ne hne with hlt | hlt
          · rw [splice_lt hlt]
            exact hm b hb
          · rw [splice_ge hlt]
            exact hm b hb

end Iposix.Vm
