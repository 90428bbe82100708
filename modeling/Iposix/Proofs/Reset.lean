import Iposix.Proofs.Mapping

/-!
# Resetting an address space

`reset_address_space` walks over the pages of the current process and frees
each one. `Released` is where it stands: the process maps only what it did, and
nothing below page number `n` if no page has been refused so far; the other
processes map what they did.
-/

namespace Iposix.Vm

open Iposix.Lib

variable {mm : PageManager} {M M' M₀ : Machine} {dm ptable q n : Nat}
  {dirs : List Nat} {d p : Nat} {ok : Bool}

/-! ## One page -/

theorem pteAt_some {m : Nat → UInt8} {e : Entry}
    (h : pteAt m ptable d p = some e) :
    (readEntry m (ptable + 4 * d)).presence = true ∧
      (readEntry m (ptable + 4 * d)).pageSize = false ∧
      readEntry m ((readEntry m (ptable + 4 * d)).address + 4 * p) = e ∧
      e.presence = true := by
  rw [pteAt] at h
  dsimp only at h
  cases hpres : (readEntry m (ptable + 4 * d)).presence with
  | false =>
      rw [hpres] at h
      cases h
  | true =>
      cases hsize : (readEntry m (ptable + 4 * d)).pageSize with
      | true =>
          rw [hpres, hsize] at h
          cases h
      | false =>
          rw [hpres, hsize] at h
          simp only [Bool.not_false, Bool.and_self, if_true] at h
          split at h
          next hpte =>
            cases h
            exact ⟨rfl, rfl, rfl, hpte⟩
          next => cases h

/-- The entry of a mapped page is cleared. -/
theorem removeVirtualMemory_of_pteAt {v : Nat} {e : Entry}
    (he : pteAt M.mem ptable (dir v) (page v) = some e) :
    removeVirtualMemory M ptable v =
      (true,
        { M with
          mem := writeEntry M.mem
            ((readEntry M.mem (ptable + 4 * dir v)).address + 4 * page v)
            { e with presence := false } }) := by
  obtain ⟨hpres, hsize, hread, hepres⟩ := pteAt_some he
  rw [removeVirtualMemory]
  dsimp only
  rw [hpres, hsize, hread, hepres]
  rfl

/-- The machine after a page has been given back and its entry cleared. -/
def withoutPage (M : Machine) (ptable d p : Nat) (e : Entry) : Machine where
  mem := writeEntry M.mem
    ((readEntry M.mem (ptable + 4 * d)).address + 4 * p)
    { e with presence := false }
  log := .free e.address true :: M.log

theorem virtualFree_eq (h : Spaces M dm dirs) (hp : ptable ∈ dirs)
    (h₁ : 32 ≤ d) (h₂ : d < 1024) (hlt : p < 1024) {e : Entry}
    (he : pteAt M.mem ptable d p = some e) :
    virtualFree mm M (some ptable) (normal d p 0) =
      if mm.free M e.address then (true, withoutPage M ptable d p e)
      else (false, { M with log := .free e.address false :: M.log }) := by
  have hdir := dir_normal h₂ hlt (by decide : 0 < 4096)
  have hpage := page_normal (d := d) hlt (by decide : 0 < 4096)
  have hphys : getPhysAddress M.mem ptable (normal d p 0) = e.address := by
    rw [getPhysAddress_eq, translate_of_pteAt (e := e) (by rwa [hdir, hpage]),
      offset_normal (by decide), Option.getD_some, Nat.add_zero]
  have hne := user_ne_zero _ (h.frames ptable hp d h₁ h₂ p hlt e he).2.1
  rw [virtualFree]
  dsimp only
  rw [hphys, if_neg hne, PageManager.release]
  dsimp only
  cases mm.free M e.address with
  | false => rfl
  | true =>
      simp only [Bool.not_true, Bool.false_eq_true, if_false, if_true]
      rw [removeVirtualMemory_of_pteAt (e := e) (by rwa [hdir, hpage]), hdir,
        hpage]
      rfl

theorem virtualFree_absent (h : Tables M dm dirs) (hp : ptable ∈ dirs) {v : Nat}
    (hv : 32 ≤ dir v) (he : pteAt M.mem ptable (dir v) (page v) = none) :
    virtualFree mm M (some ptable) v = (false, M) := by
  have hphys : getPhysAddress M.mem ptable v = 0 := by
    rw [getPhysAddress_eq, h.translate_eq hp hv, he]
    rfl
  rw [virtualFree]
  dsimp only
  rw [if_pos hphys]

/-- Another record of the same memory, which keeps the mapped pages in use. -/
theorem Spaces.relog (h : Spaces M dm dirs) {log : List Event}
    (hkernel : ∀ t, Kernel log t ↔ Kernel M.log t)
    (huser : ∀ q, q ∈ dirs → ∀ d, 32 ≤ d → d < 1024 → ∀ p, p < 1024 →
      ∀ e, pteAt M.mem q d p = some e → User log e.address) :
    Spaces { M with log := log } dm dirs := by
  refine ⟨h.window.congr (fun _ _ => SamePage.refl _ _)
      (fun t => (hkernel t).2) fun t ht => h.window.aligned t ((hkernel t).1 ht),
    fun q hq d h₁ h₂ hpres => (hkernel _).2 (h.tables q hq d h₁ h₂ hpres),
    h.distinct, fun q hq d h₁ h₂ p hp e he => ?_⟩
  obtain ⟨hdirect, _, hk⟩ := h.frames q hq d h₁ h₂ p hp e he
  exact ⟨hdirect, huser q hq d h₁ h₂ p hp e he, fun hk' =>
    hk ((hkernel _).1 hk')⟩

theorem pteAt_withoutPage (h : Spaces M dm dirs) (hp : ptable ∈ dirs)
    (h₁ : 32 ≤ d) (h₂ : d < 1024) (hlt : p < 1024) {e : Entry}
    (hpres : (readEntry M.mem (ptable + 4 * d)).presence = true)
    (q d' p' : Nat) (hq : q ∈ dirs) (h₁' : 32 ≤ d') (h₂' : d' < 1024)
    (hlt' : p' < 1024) :
    pteAt (withoutPage M ptable d p e).mem q d' p' =
      if q = ptable ∧ d' = d ∧ p' = p then none else pteAt M.mem q d' p' := by
  rw [withoutPage, h.toTables.pteAt_write hp h₁ h₂ hlt hpres _ q d' p' hq h₁'
    h₂' hlt']
  rfl

theorem Owned.withoutPage (h : Owned M dm dirs) (hp : ptable ∈ dirs)
    (h₁ : 32 ≤ d) (h₂ : d < 1024) (hlt : p < 1024) {e : Entry}
    (he : pteAt M.mem ptable d p = some e) :
    Owned (withoutPage M ptable d p e) dm dirs := by
  have hpres := (pteAt_some he).1
  have hpte := pteAt_withoutPage h.spaces hp h₁ h₂ hlt (e := e) hpres
  have hold : ∀ q, q ∈ dirs → ∀ d', 32 ≤ d' → d' < 1024 → ∀ p', p' < 1024 →
      ∀ e', pteAt (Vm.withoutPage M ptable d p e).mem q d' p' = some e' →
      ¬ (q = ptable ∧ d' = d ∧ p' = p) ∧ pteAt M.mem q d' p' = some e' := by
    intro q hq d' h₁' h₂' p' hp' e' he'
    rw [hpte q d' p' hq h₁' h₂' hp'] at he'
    split at he'
    · cases he'
    next hno => exact ⟨hno, he'⟩
  refine ⟨?_, fun q hq d' h₁' h₂' p' hp' e' he' r hr d'' h₁'' h₂'' p'' hp'' e''
    he'' heq => h.single q hq d' h₁' h₂' p' hp' e'
      (hold q hq d' h₁' h₂' p' hp' e' he').2 r hr d'' h₁'' h₂'' p'' hp'' e''
      (hold r hr d'' h₁'' h₂'' p'' hp'' e'' he'').2 heq⟩
  refine (h.spaces.writeEntry hp h₁ h₂ hlt hpres
    (e := { e with presence := false }) (nomatch ·)).relog
    (fun t => kernel_of_ne (by simp)) fun q hq d' h₁' h₂' p' hp' e' he' => ?_
  obtain ⟨hno, he'⟩ := hold q hq d' h₁' h₂' p' hp' e' he'
  obtain ⟨_, hu, _⟩ := h.spaces.frames q hq d' h₁' h₂' p' hp' e' he'
  -- the page given back is mapped nowhere else
  exact ⟨fun heq => hno (h.single q hq d' h₁' h₂' p' hp' e' he' ptable hp d h₁
    h₂ p hlt e he heq), hu⟩

/-! ## Where the walk stands -/

/-- The page manager takes back what is in use. -/
def PageManager.TakesBack (mm : PageManager) : Prop :=
  ∀ M f, User M.log f → mm.free M f = true

theorem counting_takesBack : counting.TakesBack := fun _ _ _ => rfl

structure Released (mm : PageManager) (M₀ M : Machine) (dm : Nat)
    (dirs : List Nat) (ptable n : Nat) (ok : Bool) : Prop where
  owned : Owned M dm dirs
  entries : ∀ q, q ∈ dirs → ∀ k, k < 1024 →
    readEntry M.mem (q + 4 * k) = readEntry M₀.mem (q + 4 * k)
  others : ∀ q, q ∈ dirs → q ≠ ptable → ∀ d, 32 ≤ d → d < 1024 →
    ∀ p, p < 1024 → pteAt M.mem q d p = pteAt M₀.mem q d p
  maps : ∀ d, 32 ≤ d → d < 1024 → ∀ p, p < 1024 →
    ∀ e, pteAt M.mem ptable d p = some e →
      pteAt M₀.mem ptable d p = some e ∧ (ok = true → n ≤ 1024 * d + p)
  kept : ∀ t, 4096 ∣ t → ¬ Private M₀.mem ptable t →
    SamePage 4096 M₀.mem M.mem t
  log : Logged (fun e => ∃ q done, e = .free q done ∧
    (mm.TakesBack → done = true)) M₀.log M.log
  rule : ∀ I, LogRule mm I → I M₀.log → I M.log
  success : Accepted M₀.log M.log → ok = true

theorem Released.start (h : Owned M dm dirs) :
    Released mm M M dm dirs ptable 0 true :=
  ⟨h, fun _ _ _ _ => rfl, fun _ _ _ _ _ _ _ _ => rfl,
    fun _ _ _ _ _ _ he => ⟨he, fun _ => Nat.zero_le _⟩,
    fun _ _ _ => SamePage.refl _ _, .refl _ _, fun _ _ hI => hI, fun _ => rfl⟩

theorem Released.accepted (h : Released mm M₀ M dm dirs ptable n ok)
    (htakes : mm.TakesBack) : Accepted M₀.log M.log := by
  refine h.log.without ?_
  rintro _ ⟨q, done, rfl, hdone⟩ ⟨q', heq⟩
  cases heq
  cases hdone htakes

/-- Pages that are not mapped need not be freed. -/
theorem Released.skip (h : Released mm M₀ M dm dirs ptable n ok) {n' : Nat}
    (hnone : ∀ d, 32 ≤ d → d < 1024 → ∀ p, p < 1024 → n ≤ 1024 * d + p →
      1024 * d + p < n' → pteAt M.mem ptable d p = none) :
    Released mm M₀ M dm dirs ptable n' ok := by
  refine ⟨h.owned, h.entries, h.others, fun d h₁ h₂ p hp e he => ?_, h.kept,
    h.log, h.rule, h.success⟩
  obtain ⟨he₀, hn⟩ := h.maps d h₁ h₂ p hp e he
  refine ⟨he₀, fun hok => Nat.le_of_not_lt fun hlt => ?_⟩
  rw [hnone d h₁ h₂ p hp (hn hok) hlt] at he
  cases he

/-- The next page, which is mapped. -/
theorem Released.free (h : Released mm M₀ M dm dirs ptable (1024 * d + p) ok)
    (hp : ptable ∈ dirs) (h₁ : 32 ≤ d) (h₂ : d < 1024) (hlt : p < 1024)
    {e : Entry} (he : pteAt M.mem ptable d p = some e) :
    Released mm M₀ (virtualFree mm M (some ptable) (normal d p 0)).2 dm dirs
      ptable (1024 * d + (p + 1))
      (ok && (virtualFree mm M (some ptable) (normal d p 0)).1) := by
  have hs := h.owned.spaces
  have hpres := (pteAt_some he).1
  have huser := (hs.frames ptable hp d h₁ h₂ p hlt e he).2.1
  have hrule : ∀ I, LogRule mm I → I M₀.log →
      I (.free e.address (mm.free M e.address) :: M.log) := fun I hI h₀ =>
    hI.free M e.address (h.rule I hI h₀) huser
  rw [virtualFree_eq hs hp h₁ h₂ hlt he]
  cases hfree : mm.free M e.address <;> rw [hfree] at hrule
  case false =>
      refine ⟨h.owned.sameMaps (hs.relog (fun t => kernel_of_ne (by simp))
          fun q hq d h₁ h₂ p hp e he => (hs.frames q hq d h₁ h₂ p hp e he).2.1)
          fun _ _ _ _ _ _ _ => rfl,
        h.entries, h.others, fun d' h₁' h₂' p' hp' e' he' =>
          ⟨(h.maps d' h₁' h₂' p' hp' e' he').1, fun hok => ?_⟩,
        h.kept, h.log.cons ⟨_, _, rfl, fun htakes => ?_⟩, hrule,
        fun haccepted => ?_⟩
      · rw [Bool.and_comm] at hok
        cases hok
      · rw [htakes M _ huser] at hfree
        cases hfree
      · obtain ⟨new, hlog, _⟩ := h.log
        exact absurd ⟨_, rfl⟩ (haccepted (.free e.address false :: new)
          (congrArg (List.cons _) hlog) _ List.mem_cons_self)
  case true =>
      have hpte := pteAt_withoutPage hs hp h₁ h₂ hlt (e := e) hpres
      have hread := fun q hq k hk => hs.toTables.readEntry_write hp h₁ h₂ hlt hpres
        { e with presence := false } (q := q) (k := k) hq hk
      refine ⟨h.owned.withoutPage hp h₁ h₂ hlt he,
        fun q hq k hk => (hread q hq k hk).trans (h.entries q hq k hk),
        fun q hq hne d' h₁' h₂' p' hp' => ?_,
        fun d' h₁' h₂' p' hp' e' he' => ?_, fun t ht hno => ?_,
        h.log.cons ⟨_, _, rfl, fun _ => rfl⟩, hrule,
        fun haccepted => by
          rw [h.success (haccepted.left (List.suffix_cons _ _))]; rfl⟩
      · refine (hpte q d' p' hq h₁' h₂' hp').trans ?_
        rw [if_neg fun hall => hne hall.1]
        exact h.others q hq hne d' h₁' h₂' p' hp'
      · replace he' := (hpte ptable d' p' hp h₁' h₂' hp').symm.trans he'
        split at he'
        · cases he'
        next hno =>
          obtain ⟨he₀, hn⟩ := h.maps d' h₁' h₂' p' hp' e' he'
          refine ⟨he₀, fun hok => ?_⟩
          have hle := hn (by simpa using hok)
          have hother : ¬ (d' = d ∧ p' = p) := fun hall => hno ⟨rfl, hall⟩
          omega
      · refine (h.kept t ht hno).trans (samePage_writeEntry ht (address_dvd _)
          (fun heq => hno (.inr ⟨d, h₁, h₂, ?_⟩)) hlt)
        rw [← h.entries ptable hp d h₂]
        exact ⟨hpres, heq.symm⟩

/-! ## The whole walk -/

theorem resetTable_released (hp : ptable ∈ dirs) (h₁ : 32 ≤ d) (h₂ : d < 1024)
    {table : Nat} (hpres₀ : (readEntry M₀.mem (ptable + 4 * d)).presence = true)
    (htable : (readEntry M₀.mem (ptable + 4 * d)).address = table) :
    ∀ turns page ok M, page + turns = 1024 →
      Released mm M₀ M dm dirs ptable (1024 * d + page) ok →
      Released mm M₀ (resetTable mm (some ptable) d table turns page ok M).2 dm
        dirs ptable (1024 * (d + 1))
        (resetTable mm (some ptable) d table turns page ok M).1 := by
  intro turns
  induction turns with
  | zero =>
      intro page ok M hpage h
      obtain rfl : page = 1024 := by omega
      exact h
  | succ turns ih =>
      intro page ok M hpage h
      have hs := h.owned.spaces
      have hentry := h.entries ptable hp d h₂
      have hpte : pteAt M.mem ptable d page =
          if (readEntry M.mem (table + 4 * page)).presence then
            some (readEntry M.mem (table + 4 * page)) else none :=
        pteAt_table (by rw [hentry, hpres₀])
          (hs.toTables.pageSize hp h₁ h₂ (by rw [hentry, hpres₀]))
          (by rw [hentry, htable])
      rw [resetTable]
      dsimp only
      split
      next hboth =>
        rw [Bool.and_eq_true] at hboth
        rw [if_pos hboth.1] at hpte
        exact ih (page + 1) _ _ (by omega) (h.free hp h₁ h₂ (by omega) hpte)
      next hnot =>
        refine ih (page + 1) ok M (by omega) (h.skip fun d' h₁' h₂' p' hp' hle
          hlt => ?_)
        obtain rfl : d' = d := by omega
        obtain rfl : p' = page := by omega
        rw [hpte]
        refine if_neg fun hpres => hnot ?_
        rw [if_pos hpres] at hpte
        have hdirect := (hs.frames ptable hp d' h₁' h₂' p' hp' _ hpte).1
        rw [hpres, hdirect]
        rfl

theorem resetDirectory_released (hp : ptable ∈ dirs) :
    ∀ turns d ok M, d + turns = 1024 →
      Released mm M₀ M dm dirs ptable (1024 * d) ok →
      Released mm M₀ (resetDirectory mm (some ptable) ptable turns d ok M).2 dm
        dirs ptable 1048576
        (resetDirectory mm (some ptable) ptable turns d ok M).1 := by
  intro turns
  induction turns with
  | zero =>
      intro d ok M hd h
      obtain rfl : d = 1024 := by omega
      exact h
  | succ turns ih =>
      intro d ok M hd h
      have hs := h.owned.spaces
      rw [resetDirectory]
      dsimp only
      split
      next hboth =>
        rw [Bool.and_eq_true] at hboth
        have h₁ : 32 ≤ d := by
          refine Nat.le_of_not_lt fun hlt => ?_
          rw [hs.window.readEntry_window hp hlt] at hboth
          cases hboth.2
        have hentry := h.entries ptable hp d (by omega)
        exact ih (d + 1) _ _ (by omega) (resetTable_released hp h₁ (by omega)
          (by rw [← hentry, hboth.1]) (by rw [hentry]) 1024 0 ok M (by omega) h)
      next hnot =>
        refine ih (d + 1) ok M (by omega) (h.skip fun d' h₁' h₂' p' hp' hle
          hlt => ?_)
        obtain rfl : d' = d := by omega
        refine pteAt_absent ?_
        cases hpres : (readEntry M.mem (ptable + 4 * d')).presence with
        | false => rfl
        | true =>
            have hdirect :=
              (hs.window.upper ptable hp d' h₁' h₂' hpres).2.1
            rw [hpres, hdirect] at hnot
            exact absurd rfl hnot

/-- What the walk leaves, and that it leaves nothing if all pages were taken
back. -/
theorem resetAddressSpace_spec (mm : PageManager) (h : Owned M dm dirs)
    (hp : ptable ∈ dirs) :
    Released mm M (resetAddressSpace mm M (some ptable) ptable).2 dm dirs ptable
        1048576 (resetAddressSpace mm M (some ptable) ptable).1 ∧
      ((resetAddressSpace mm M (some ptable) ptable).1 = true →
        ∀ d, 32 ≤ d → d < 1024 → ∀ p, p < 1024 →
          pteAt (resetAddressSpace mm M (some ptable) ptable).2.mem ptable d
            p = none) := by
  have hreleased : Released mm M (resetAddressSpace mm M (some ptable) ptable).2
      dm dirs ptable 1048576 (resetAddressSpace mm M (some ptable) ptable).1 :=
    resetDirectory_released hp 1024 0 true M rfl (.start h)
  refine ⟨hreleased, fun hok d h₁ h₂ p hlt => ?_⟩
  cases he : pteAt (resetAddressSpace mm M (some ptable) ptable).2.mem ptable d
      p with
  | none => rfl
  | some e =>
      have hle := (hreleased.maps d h₁ h₂ p hlt e he).2 hok
      omega

/-- Where the process has no tables there is nothing to free. -/
theorem resetAddressSpace_blank (mm : PageManager) (h : WindowInv M dm dirs)
    (hp : ptable ∈ dirs) (current : Option Nat)
    (hblank : ∀ d, 32 ≤ d → d < 1024 →
      (readEntry M.mem (ptable + 4 * d)).presence = false) :
    resetAddressSpace mm M current ptable = (true, M) := by
  suffices hloop : ∀ turns d, d + turns ≤ 1024 →
      resetDirectory mm current ptable turns d true M = (true, M) from
    hloop 1024 0 (Nat.le_refl _)
  intro turns
  induction turns with
  | zero => intro d _; rfl
  | succ turns ih =>
      intro d hd
      have hskip : ((readEntry M.mem (ptable + 4 * d)).presence &&
          !(readEntry M.mem (ptable + 4 * d)).directMapped) = false := by
        by_cases hwindow : d < 32
        · rw [h.readEntry_window hp hwindow]
          rfl
        · rw [hblank d (by omega) (by omega)]
          rfl
      rw [resetDirectory]
      dsimp only
      rw [hskip]
      exact ih (d + 1) (by omega)

end Iposix.Vm
