import Iposix.Proofs.Spaces

/-!
# Copying an address space

`copy_address_space` walks over the tables of the parent and gives the child a
page of its own for each page it finds. `Copied` is where the walk stands: what
was in use when it began is as it was, apart from the child's directory, and
the child maps copies of those pages of the parent that are done.
-/

namespace Iposix.Vm

open Iposix.Lib

variable {mm : PageManager} {M M' M₀ : Machine} {dm ptable child parent : Nat}
  {dirs : List Nat} {d p : Nat} {done done' : Nat → Nat → Prop}

/-! ## The log only grows -/

/-- What was added to a log, all of one kind. -/
def Logged (P : Event → Prop) (log log' : List Event) : Prop :=
  ∃ new, log' = new ++ log ∧ ∀ e, e ∈ new → P e

section Logged

variable {P Q : Event → Prop} {log log' log'' : List Event}

theorem Logged.refl (P : Event → Prop) (log : List Event) : Logged P log log :=
  ⟨[], rfl, fun _ h => nomatch h⟩

theorem Logged.trans (h : Logged P log log') (h' : Logged P log' log'') :
    Logged P log log'' := by
  obtain ⟨new, rfl, hnew⟩ := h
  obtain ⟨new', rfl, hnew'⟩ := h'
  exact ⟨new' ++ new, (List.append_assoc _ _ _).symm, fun e he =>
    (List.mem_append.1 he).elim (hnew' e) (hnew e)⟩

theorem Logged.cons {e : Event} (h : Logged P log log') (he : P e) :
    Logged P log (e :: log') :=
  h.trans ⟨[e], rfl, fun _ hmem => List.mem_singleton.1 hmem ▸ he⟩

theorem Logged.suffix (h : Logged P log log') : log <:+ log' := by
  obtain ⟨new, rfl, _⟩ := h
  exact List.suffix_append new log

/-- Nothing of this kind happened between the two. -/
def Without (P : Event → Prop) (log log' : List Event) : Prop :=
  ∀ new, log' = new ++ log → ∀ e, e ∈ new → ¬ P e

theorem Without.left (h : Without P log log'') (hs : log' <:+ log'') :
    Without P log log' := by
  obtain ⟨later, rfl⟩ := hs
  rintro new rfl e he
  exact h (later ++ new) (List.append_assoc _ _ _).symm e
    (List.mem_append_right later he)

theorem Without.right (h : Without P log log'') (hs : log <:+ log') :
    Without P log' log'' := by
  obtain ⟨new, rfl⟩ := hs
  rintro later rfl e he
  exact h (later ++ new) (List.append_assoc _ _ _).symm e
    (List.mem_append_left new he)

theorem Logged.without (h : Logged Q log log') (hP : ∀ e, Q e → ¬ P e) :
    Without P log log' := by
  obtain ⟨new, rfl, hnew⟩ := h
  intro new' heq e he
  exact hP e (hnew e (List.append_cancel_right heq ▸ he))

/-- No page table was refused. -/
abbrev Granted : List Event → List Event → Prop :=
  Without fun e => e = .alloc true 0

/-- No page that was given back was refused. -/
abbrev Accepted : List Event → List Event → Prop :=
  Without fun e => ∃ q, e = .free q false

theorem Granted.of_notMem (h : Event.alloc true 0 ∉ log') :
    Granted log log' := by
  rintro new rfl _ he rfl
  exact h (List.mem_append_left log he)

theorem tableAt_logged (hP : ∀ q, P (.alloc true q)) (mm : PageManager)
    (M : Machine) (ptable d : Nat) :
    Logged P M.log (tableAt mm M ptable d).2.log := by
  rcases tableAt_cases mm M ptable d with ⟨_, _, heq⟩ | ⟨_, _, heq⟩ |
    ⟨_, heq⟩ <;> rw [heq]
  · exact .refl P _
  · exact .refl P _
  · exact (Logged.refl P _).cons (hP _)

/-- The searches of `add_virtual_memory` log the tables they make. -/
theorem loggedRule (hP : ∀ q, P (.alloc true q)) (mm : PageManager)
    (M : Machine) (ptable : Nat) :
    TableRule mm ptable (fun M' => Logged P M.log M'.log) fun _ _ => True :=
  ⟨fun M' d h _ => h.trans (tableAt_logged hP mm M' ptable d),
    fun _ _ _ _ _ _ => trivial, fun _ _ _ _ _ _ _ _ => trivial⟩

theorem addVirtualMemory_logged (hP : ∀ q, P (.alloc true q))
    (mm : PageManager) (M : Machine) (ptable : Nat) (addresses : List Nat)
    (v : Nat) :
    Logged P M.log (addVirtualMemory mm M ptable addresses v).2.log :=
  (loggedRule hP mm M ptable).addVirtualMemory
    (fun _ _ _ _ h _ => ⟨h, fun _ _ => trivial⟩) (.refl P _)

end Logged

theorem addVirtualMemory_suffix (mm : PageManager) (M : Machine) (ptable : Nat)
    (addresses : List Nat) (v : Nat) :
    M.log <:+ (addVirtualMemory mm M ptable addresses v).2.log :=
  (addVirtualMemory_logged (P := fun _ => True) (fun _ => trivial) mm M ptable
    addresses v).suffix

theorem freeAll_suffix (mm : PageManager) :
    ∀ addresses M, M.log <:+ (freeAll mm M addresses).log := by
  intro addresses
  induction addresses with
  | nil => intro M; exact List.suffix_rfl
  | cons addr addresses ih =>
      intro M
      exact (List.suffix_cons _ _).trans (ih (mm.release M addr).2)

theorem allocAll_suffix (mm : PageManager) :
    ∀ pages addresses M, M.log <:+ (allocAll mm pages addresses M).2.log := by
  intro pages
  induction pages with
  | zero => intro addresses M; exact List.suffix_rfl
  | succ pages ih =>
      intro addresses M
      rw [allocAll]
      dsimp only
      have halloc : M.log <:+ (mm.alloc M false).2.log := List.suffix_cons _ _
      split
      · exact halloc.trans (freeAll_suffix mm addresses _)
      · exact halloc.trans (ih _ _)

theorem vmalloc_suffix (mm : PageManager) (M : Machine)
    (size ptable base : Nat) :
    M.log <:+ (vmalloc mm M size ptable base).2.log := by
  rw [vmalloc]
  split
  · exact List.suffix_rfl
  · rw [virtualMalloc]
    have hall := allocAll_suffix mm
      (size / PAGE_SIZE + if size % PAGE_SIZE ≠ 0 then 1 else 0) [] M
    generalize allocAll mm _ [] M = found at hall ⊢
    rcases found with ⟨_ | addresses, M'⟩
    · exact hall
    · exact hall.trans (addVirtualMemory_suffix mm M' ptable addresses base)

theorem copyTable_suffix (mm : PageManager) (ptable other d t : Nat) :
    ∀ turns page M,
      M.log <:+ (copyTable mm ptable other d t turns page M).2.log := by
  intro turns
  induction turns with
  | zero => intro page M; exact List.suffix_rfl
  | succ turns ih =>
      intro page M
      have halloc := vmalloc_suffix mm M PAGE_SIZE ptable (normal d page 0)
      rw [copyTable]
      dsimp only
      split
      · split
        · exact halloc
        · refine List.IsSuffix.trans ?_ (ih _ _)
          exact halloc.trans (List.suffix_cons _ _)
      · exact ih _ _

/-! ## Where the walk stands -/

structure Copied (M₀ M : Machine) (dm : Nat) (dirs : List Nat)
    (child parent : Nat) (done : Nat → Nat → Prop) : Prop where
  spaces : Spaces M dm dirs
  inUse : ∀ q, InUse M₀.log q → InUse M.log q
  kept : ∀ q, InUse M₀.log q → 4096 ∣ q → q ≠ child →
    SamePage 4096 M₀.mem M.mem q
  tables : ∀ d, 32 ≤ d → d < 1024 →
    (readEntry M.mem (child + 4 * d)).presence = true →
    ¬ InUse M₀.log (readEntry M.mem (child + 4 * d)).address
  maps : ∀ d, 32 ≤ d → d < 1024 → ∀ p, p < 1024 →
    ∀ e, pteAt M.mem child d p = some e →
      done d p ∧ ¬ InUse M₀.log e.address ∧
        ∃ e₀, pteAt M₀.mem parent d p = some e₀ ∧
          ∀ k, k < 4096 → M.mem (e.address + k) = M₀.mem (e₀.address + k)
  complete : ∀ d, 32 ≤ d → d < 1024 → ∀ p, p < 1024 → done d p →
    ∀ e₀, pteAt M₀.mem parent d p = some e₀ →
      ∃ e, pteAt M.mem child d p = some e
  single : ∀ d, 32 ≤ d → d < 1024 → ∀ p, p < 1024 →
    ∀ e, pteAt M.mem child d p = some e →
      ∀ d', 32 ≤ d' → d' < 1024 → ∀ p', p' < 1024 →
        ∀ e', pteAt M.mem child d' p' = some e' →
          e.address = e'.address → d = d' ∧ p = p'

/-- A page of the parent that is not mapped needs no copy. -/
theorem Copied.extend (h : Copied M₀ M dm dirs child parent done)
    (hsub : ∀ d p, done d p → done' d p)
    (hnew : ∀ d, 32 ≤ d → d < 1024 → ∀ p, p < 1024 → done' d p →
      done d p ∨ pteAt M₀.mem parent d p = none) :
    Copied M₀ M dm dirs child parent done' := by
  refine ⟨h.spaces, h.inUse, h.kept, h.tables, fun d h₁ h₂ p hp e he => ?_,
    fun d h₁ h₂ p hp hdone e₀ he₀ => ?_, h.single⟩
  · obtain ⟨hdone, hrest⟩ := h.maps d h₁ h₂ p hp e he
    exact ⟨hsub d p hdone, hrest⟩
  · rcases hnew d h₁ h₂ p hp hdone with hdone | hnone
    · exact h.complete d h₁ h₂ p hp hdone e₀ he₀
    · rw [hnone] at he₀
      cases he₀

/-- A page is handed out. -/
theorem Copied.alloc (hfresh : mm.Fresh)
    (h : Copied M₀ M dm dirs child parent done) :
    Copied M₀ (mm.alloc M false).2 dm dirs child parent done :=
  ⟨h.spaces.alloc hfresh, fun q hq => (h.inUse q hq).imp (kernel_cons _) .inr,
    h.kept, h.tables, h.maps, h.complete, h.single⟩

/-- A table is found or made for the child. -/
theorem Copied.tableAt (hfresh : mm.Fresh)
    (h : Copied M₀ M dm dirs child parent done) (hc : child ∈ dirs)
    (h₁ : 32 ≤ d) (h₂ : d < 1024) {t : Nat}
    (ht : Vm.tableAt mm M child d = (some t, M'))
    (hnull : Event.alloc true 0 ∉ M'.log) :
    Copied M₀ M' dm dirs child parent done ∧
      (∀ q, q ∈ dirs → ∀ d', 32 ≤ d' → d' < 1024 → ∀ p, p < 1024 →
        pteAt M'.mem q d' p = pteAt M.mem q d' p) ∧
      (∀ f, User M.log f → ¬ Kernel M.log f →
        User M'.log f ∧ ¬ Kernel M'.log f) := by
  rcases tableAt_cases mm M child d with ⟨_, _, heq⟩ | ⟨_, _, heq⟩ |
    ⟨habsent, heq⟩ <;> rw [heq] at ht <;> cases ht
  · exact ⟨h, fun _ _ _ _ _ _ _ => rfl, fun _ hu hk => ⟨hu, hk⟩⟩
  · have h₀ : mm.malloc M true ≠ 0 := by
      intro h₀
      refine hnull ?_
      rw [withTable, h₀]
      exact List.mem_cons_self
    have hunused := hfresh.unused M true h₀
    have hpte : ∀ q, q ∈ dirs → ∀ d', 32 ≤ d' → d' < 1024 →
        ∀ p, p < 1024 →
        pteAt (withTable mm M child d).mem q d' p = pteAt M.mem q d' p :=
      fun q hq d' h₁' h₂' p hp =>
        h.spaces.toTables.pteAt_withTable hfresh hc h₂ h₀ habsent hq h₁' h₂' hp
    have hsame : ∀ q, InUse M.log q → 4096 ∣ q → q ≠ child →
        SamePage 4096 M.mem (withTable mm M child d).mem q :=
      fun q hq hdvd hne => h.spaces.toTables.samePage_withTable hfresh hc h₂ hdvd
        (.inl fun heq => hunused (heq ▸ hq)) hne
    have hchild := h.spaces.window.kernel child (List.mem_cons_of_mem dm hc)
    refine ⟨⟨h.spaces.withTable hfresh hc h₁ h₂ h₀ habsent,
      fun q hq => (h.inUse q hq).imp (kernel_cons _) id,
      fun q hq hdvd hne => (h.kept q hq hdvd hne).trans
        (hsame q (h.inUse q hq) hdvd hne), fun d' h₁' h₂' => ?_,
      fun d' h₁' h₂' p hp e he => ?_, fun d' h₁' h₂' p hp hdone e₀ he₀ => ?_,
      fun d' h₁' h₂' p hp e he d'' h₁'' h₂'' p' hp' e' he' => ?_⟩, hpte,
      fun f hu hk => ⟨hu, fun hk' => ?_⟩⟩
    · rw [h.spaces.toTables.readEntry_withTable hfresh hc h₂ h₀ hc h₂']
      split
      · intro _ hin
        rw [address_tableEntry (hfresh.aligned M true)
          (hfresh.bounded M true)] at hin
        exact hunused (h.inUse _ hin)
      · exact h.tables d' h₁' h₂'
    · rw [hpte child hc d' h₁' h₂' p hp] at he
      obtain ⟨hdone, hin, e₀, he₀, hbytes⟩ := h.maps d' h₁' h₂' p hp e he
      obtain ⟨_, hu, hk⟩ := h.spaces.frames child hc d' h₁' h₂' p hp e he
      refine ⟨hdone, hin, e₀, he₀, fun k hlt => ?_⟩
      rw [hsame e.address (.inr hu) (address_dvd e)
        (fun heq => hk (heq ▸ hchild)) k hlt]
      exact hbytes k hlt
    · rw [hpte child hc d' h₁' h₂' p hp]
      exact h.complete d' h₁' h₂' p hp hdone e₀ he₀
    · rw [hpte child hc d' h₁' h₂' p hp] at he
      rw [hpte child hc d'' h₁'' h₂'' p' hp'] at he'
      exact h.single d' h₁' h₂' p hp e he d'' h₁'' h₂'' p' hp' e' he'
    · rcases kernel_alloc.1 hk' with ⟨rfl, _⟩ | hk'
      · exact hunused (.inr hu)
      · exact hk hk'

/-- The page `a`, which nobody uses, is mapped for page `p` behind entry `d`
and becomes a copy of the parent's. -/
theorem Copied.map (h : Copied M₀ M dm dirs child parent done)
    (hs₀ : Spaces M₀ dm dirs) (hc : child ∈ dirs) (hparent : parent ∈ dirs)
    (h₁ : 32 ≤ d) (h₂ : d < 1024) (hp : p < 1024)
    (hpres : (readEntry M.mem (child + 4 * d)).presence = true)
    {a : Nat} (ha : 4096 ∣ a) (hlt : a < 4294967296) (hu : User M.log a)
    (hk : ¬ Kernel M.log a) (hnew : ¬ InUse M₀.log a)
    (hmapped : ∀ d', 32 ≤ d' → d' < 1024 → ∀ p', p' < 1024 →
      ∀ e, pteAt M.mem child d' p' = some e → e.address ≠ a)
    {e e₀ : Entry} (he₀ : pteAt M₀.mem parent d p = some e₀) {v : Nat}
    {t : Nat} (ht : (readEntry M.mem (child + 4 * d)).address = t) :
    Copied M₀
      { mem := splice (writeEntry M.mem (t + 4 * p) (mappedEntry e a)) a 4096
          (window (writeEntry M.mem (t + 4 * p) (mappedEntry e a)) e₀.address)
        log := .copy v a 4096 :: M.log } dm dirs child parent
      (fun d' p' => done d' p' ∨ (d' = d ∧ p' = p)) := by
  subst ht
  have hchild := h.spaces.window.kernel child (List.mem_cons_of_mem dm hc)
  have htable := h.spaces.tables child hc d h₁ h₂ hpres
  have haddr : (mappedEntry e a).address = a := address_mappedEntry e ha hlt
  have hfill := h.spaces.writeEntry hc h₁ h₂ hp hpres
    (e := mappedEntry e a) fun _ => ⟨rfl, haddr.symm ▸ hu, haddr.symm ▸ hk⟩
  have hpte := fun q hq d' h₁' h₂' p' hp' =>
    h.spaces.toTables.pteAt_write hc h₁ h₂ hp hpres (mappedEntry e a) q d' p'
      hq h₁' h₂' hp'
  -- pages other than the table and the page itself
  have hsame : ∀ q, 4096 ∣ q →
      q ≠ (readEntry M.mem (child + 4 * d)).address →
      SamePage 4096 M.mem (writeEntry M.mem
        ((readEntry M.mem (child + 4 * d)).address + 4 * p) (mappedEntry e a))
        q := fun q hq hne => samePage_writeEntry hq (address_dvd _) hne hp
  generalize hm : writeEntry M.mem
    ((readEntry M.mem (child + 4 * d)).address + 4 * p) (mappedEntry e a) = m
    at hfill hpte hsame ⊢
  have hcopy : ∀ q, 4096 ∣ q → q ≠ a →
      SamePage 4096 m (splice m a 4096 (window m e₀.address)) q :=
    fun q hq hne => samePage_splice hq ha hne (Nat.le_refl _) (Nat.le_refl _)
  have hspaces := hfill.splice (g := window m e₀.address) ha hk
    (Nat.le_refl _) (Nat.le_refl _)
  have hpte' : ∀ q, q ∈ dirs → ∀ d', 32 ≤ d' → d' < 1024 →
      ∀ p', p' < 1024 →
      pteAt (splice m a 4096 (window m e₀.address)) q d' p' =
        if q = child ∧ d' = d ∧ p' = p then some (mappedEntry e a)
        else pteAt M.mem q d' p' := by
    intro q hq d' h₁' h₂' p' hp'
    rw [hfill.toTables.pteAt_congr hq h₁' h₂' hp' fun r hr =>
      hcopy r (hfill.window.aligned r hr) fun heq => hk (heq ▸ hr)]
    exact hpte q hq d' h₁' h₂' p' hp'
  have hread : ∀ k, k < 1024 →
      readEntry (splice m a 4096 (window m e₀.address)) (child + 4 * k) =
        readEntry M.mem (child + 4 * k) := by
    intro k hlt
    have hdvd := h.spaces.window.aligned child hchild
    refine readEntry_of_samePage ((hsame child hdvd fun heq => ?_).trans
      (hcopy child hdvd fun heq => hk (heq ▸ hchild))) hlt
    exact h.spaces.toTables.table_ne hc h₁ h₂ hpres
      (List.mem_cons_of_mem dm hc) heq.symm
  refine ⟨hspaces.congr (fun _ _ => SamePage.refl _ _) (fun _ => kernel_cons _)
      (hspaces.window.push (by simp)).aligned
      (fun f hu hk => ⟨hu, fun hk' => hk ((kernel_of_ne (by simp)).1 hk')⟩),
    fun q hq => (h.inUse q hq).imp (kernel_cons _) id,
    fun q hq hdvd hne => ?_, fun d' h₁' h₂' hpres' => ?_,
    fun d' h₁' h₂' p' hp' e' he' => ?_,
    fun d' h₁' h₂' p' hp' hdone e' he' => ?_,
    fun d' h₁' h₂' p' hp' e' he' d'' h₁'' h₂'' p'' hp'' e'' he'' heq => ?_⟩
  · refine (h.kept q hq hdvd hne).trans ((hsame q hdvd fun heq => ?_).trans
      (hcopy q hdvd fun heq => hnew (heq ▸ hq)))
    exact h.tables d h₁ h₂ hpres (heq ▸ hq)
  · rw [hread d' h₂'] at hpres' ⊢
    exact h.tables d' h₁' h₂' hpres'
  · rw [hpte' child hc d' h₁' h₂' p' hp'] at he'
    split at he'
    next hall =>
      cases he'
      obtain ⟨_, rfl, rfl⟩ := hall
      obtain ⟨_, hu₀, hk₀⟩ := hs₀.frames parent hparent d' h₁ h₂ p' hp e₀ he₀
      have hkept := h.kept e₀.address (.inr hu₀) (address_dvd e₀) fun heq =>
        hk₀ (heq ▸ hs₀.window.kernel child (List.mem_cons_of_mem dm hc))
      have hsrc := hsame e₀.address (address_dvd e₀) fun heq =>
        h.tables d' h₁ h₂ hpres (heq ▸ .inr hu₀)
      refine ⟨.inr ⟨rfl, rfl⟩, haddr.symm ▸ hnew, e₀, he₀, fun k hlt => ?_⟩
      rw [haddr]
      show splice m a 4096 (window m e₀.address) (a + k) = _
      rw [splice_add _ _ hlt, window_apply, hsrc k hlt, hkept k hlt]
    next =>
      obtain ⟨hdone, hin, e₁, he₁, hbytes⟩ := h.maps d' h₁' h₂' p' hp' e' he'
      obtain ⟨_, _, hk'⟩ := h.spaces.frames child hc d' h₁' h₂' p' hp' e' he'
      have hkeep := (hsame e'.address (address_dvd e') fun heq =>
        hk' (heq ▸ htable)).trans (hcopy e'.address (address_dvd e')
          (hmapped d' h₁' h₂' p' hp' e' he'))
      exact ⟨.inl hdone, hin, e₁, he₁, fun k hlt =>
        (hkeep k hlt).trans (hbytes k hlt)⟩
  · rw [hpte' child hc d' h₁' h₂' p' hp']
    split
    · exact ⟨_, rfl⟩
    next hno =>
      rcases hdone with hdone | hhere
      · exact h.complete d' h₁' h₂' p' hp' hdone e' he'
      · exact absurd ⟨rfl, hhere⟩ hno
  · rw [hpte' child hc d' h₁' h₂' p' hp'] at he'
    rw [hpte' child hc d'' h₁'' h₂'' p'' hp''] at he''
    split at he' <;> split at he''
    next hall hall' =>
      exact ⟨hall.2.1.trans hall'.2.1.symm, hall.2.2.trans hall'.2.2.symm⟩
    next hall hno =>
      cases he'
      exact absurd (heq.symm.trans haddr)
        (hmapped d'' h₁'' h₂'' p'' hp'' e'' he'')
    next hno hall =>
      cases he''
      exact absurd (heq.trans haddr) (hmapped d' h₁' h₂' p' hp' e' he')
    next hno hno' =>
      exact h.single d' h₁' h₂' p' hp' e' he' d'' h₁'' h₂'' p'' hp'' e'' he''
        heq

theorem Copied.pteAt_parent (h : Copied M₀ M dm dirs child parent done)
    (hs₀ : Spaces M₀ dm dirs) (hc : child ∈ dirs) {q : Nat} (hq : q ∈ dirs)
    (hne : q ≠ child) (h₁ : 32 ≤ d) (h₂ : d < 1024) (hp : p < 1024) :
    pteAt M.mem q d p = pteAt M₀.mem q d p := by
  have hkernel := hs₀.window.kernel q (List.mem_cons_of_mem dm hq)
  refine pteAt_congr hp (readEntry_of_samePage (h.kept q (.inl hkernel)
    (hs₀.window.aligned q hkernel) hne) h₂) fun hpres =>
    h.kept _ (.inl (hs₀.tables q hq d h₁ h₂ hpres)) (address_dvd _)
      (hs₀.toTables.table_ne hq h₁ h₂ hpres (List.mem_cons_of_mem dm hc))

/-- The copy of one page, once it has been mapped. -/
theorem Copied.copyPage (hfresh : mm.Fresh) (hs₀ : Spaces M₀ dm dirs)
    (h : Copied M₀ M dm dirs child parent done) (hc : child ∈ dirs)
    (hparent : parent ∈ dirs) (hne : parent ≠ child) (h₁ : 32 ≤ d)
    (h₂ : d < 1024) (hp : p < 1024) {e₀ : Entry}
    (he₀ : pteAt M₀.mem parent d p = some e₀)
    (hmapped : (vmalloc mm M PAGE_SIZE child (normal d p 0)).1 = normal d p 0)
    (hnull : Event.alloc true 0 ∉
      (vmalloc mm M PAGE_SIZE child (normal d p 0)).2.log) {v phys1 phys2 : Nat}
    (hphys1 : getPhysAddress (vmalloc mm M PAGE_SIZE child (normal d p 0)).2.mem
      child (normal d p 0) = phys1)
    (hphys2 : getPhysAddress (vmalloc mm M PAGE_SIZE child (normal d p 0)).2.mem
      parent (normal d p 0) = phys2) :
    Copied M₀
      { mem := splice (vmalloc mm M PAGE_SIZE child (normal d p 0)).2.mem phys1
          PAGE_SIZE (window (vmalloc mm M PAGE_SIZE child (normal d p 0)).2.mem
            phys2)
        log := .copy v phys1 PAGE_SIZE ::
          (vmalloc mm M PAGE_SIZE child (normal d p 0)).2.log } dm dirs child
      parent (fun d' p' => done d' p' ∨ (d' = d ∧ p' = p)) := by
  have hv : normal d p 0 ≠ 0 := by
    simp only [normal]
    omega
  have hd := dir_normal h₂ hp (by decide : 0 < 4096)
  have hpg := page_normal (d := d) hp (by decide : 0 < 4096)
  have ho : offset (normal d p 0) = 0 := offset_normal (by decide)
  obtain ⟨hone, h₀⟩ :=
    h.spaces.window.vmalloc_mapped hfresh hc hv hmapped
  obtain ⟨_, t, M₂, htable, heq⟩ := vmalloc_page_mapped hv hmapped
  rw [ho, Nat.add_zero] at hone
  rw [hd] at htable
  rw [hpg] at heq
  have hunused := hfresh.unused M false h₀
  have hu : User (mm.alloc M false).2.log (mm.malloc M false) := .inl ⟨rfl, h₀⟩
  have hk : ¬ Kernel (mm.alloc M false).2.log (mm.malloc M false) := fun hk =>
    hunused (.inl ((kernel_of_ne (by simp)).1 hk))
  obtain ⟨htpres, htsize, htaddr⟩ := tableAt_entry htable
  obtain ⟨h₃, hpte, hkeep⟩ := (h.alloc hfresh).tableAt hfresh hc h₁ h₂ htable
    (by rw [heq] at hnull; exact hnull)
  obtain ⟨hu₂, hk₂⟩ := hkeep _ hu hk
  -- the page copied from is still the parent's
  have hparentPte := h₃.spaces.toTables.pteAt_write hc h₁ h₂ hp htpres
    (mappedEntry (readEntry M₂.mem (t + 4 * p)) (mm.malloc M false)) parent d p
    hparent h₁ h₂ hp
  rw [if_neg fun hall => hne hall.1, h₃.pteAt_parent hs₀ hc hparent hne h₁ h₂
    hp, he₀, htaddr] at hparentPte
  have hsource : phys2 = e₀.address := by
    rw [← hphys2, getPhysAddress_eq, heq, translate_of_pteAt (e := e₀), ho]
    · rfl
    · rw [hd, hpg]
      exact hparentPte
  rw [hsource, ← hphys1, hone, heq]
  refine h₃.map hs₀ hc hparent h₁ h₂ hp htpres (hfresh.aligned M false)
    (hfresh.bounded M false) hu₂ hk₂ (fun hin => hunused (h.inUse _ hin))
    (fun d' h₁' h₂' p' hp' e he haddr => ?_) he₀ htaddr
  rw [hpte child hc d' h₁' h₂' p' hp'] at he
  obtain ⟨_, hue, _⟩ := h.spaces.frames child hc d' h₁' h₂' p' hp' e he
  exact hunused (.inr (haddr ▸ hue))

/-- The copy of one table. -/
theorem copyTable_copied (hfresh : mm.Fresh) (hs₀ : Spaces M₀ dm dirs)
    (hc : child ∈ dirs) (hparent : parent ∈ dirs) (hne : parent ≠ child)
    (h₁ : 32 ≤ d) (h₂ : d < 1024)
    (hpres : (readEntry M₀.mem (parent + 4 * d)).presence = true) {t : Nat}
    (ht : (readEntry M₀.mem (parent + 4 * d)).address = t) :
    ∀ turns p M, p + turns ≤ 1024 →
      Copied M₀ M dm dirs child parent
        (fun d' p' => d' < d ∨ (d' = d ∧ p' < p)) →
      (copyTable mm child parent d t turns p M).1 = true →
      Event.alloc true 0 ∉ (copyTable mm child parent d t turns p M).2.log →
      Copied M₀ (copyTable mm child parent d t turns p M).2 dm dirs child parent
        (fun d' p' => d' < d ∨ (d' = d ∧ p' < p + turns)) := by
  intro turns
  induction turns with
  | zero => intro p M _ h _ _; exact h
  | succ turns ih =>
      intro p M hle h hdone hnull
      have hp : p < 1024 := by omega
      have hread : readEntry M.mem (t + 4 * p) = readEntry M₀.mem (t + 4 * p) := by
        subst ht
        exact readEntry_of_samePage (h.kept _
          (.inl (hs₀.tables parent hparent d h₁ h₂ hpres)) (address_dvd _)
          (hs₀.toTables.table_ne hparent h₁ h₂ hpres
            (List.mem_cons_of_mem dm hc))) hp
      have hpte := pteAt_table (p := p) hpres
        (hs₀.toTables.pageSize hparent h₁ h₂ hpres) ht
      have hlast : p + (turns + 1) = p + 1 + turns := by omega
      rw [copyTable] at hdone hnull ⊢
      dsimp only at hdone hnull ⊢
      rw [hread] at hdone hnull ⊢
      rw [hlast]
      cases he : (readEntry M₀.mem (t + 4 * p)).presence with
      | false =>
          rw [he] at hdone hnull
          rw [he, if_neg (by simp)] at hpte
          refine ih (p + 1) M (by omega) (h.extend (fun d' p' hd' => ?_)
            fun d' _ _ p' _ hd' => ?_) hdone hnull
          · omega
          · by_cases hhere : d' = d ∧ p' = p
            · exact .inr (by rw [hhere.1, hhere.2, hpte])
            · exact .inl (by omega)
      | true =>
          rw [he, if_pos rfl] at hpte
          obtain ⟨hdirect, hu₀, hk₀⟩ :=
            hs₀.frames parent hparent d h₁ h₂ p hp _ hpte
          have hv : normal d p 0 ≠ 0 := by
            simp only [normal]
            omega
          rw [he, hdirect, if_pos (by rfl)] at hdone hnull
          rw [hdirect, if_pos (by rfl)]
          by_cases hmapped : (vmalloc mm M PAGE_SIZE child (normal d p 0)).1 =
              normal d p 0
          · rw [if_neg (not_not.2 hmapped)] at hdone hnull ⊢
            rw [hmapped] at hdone hnull ⊢
            have hlog := copyTable_suffix mm child parent d t turns (p + 1)
            have hcopied := h.copyPage hfresh hs₀ hc hparent hne h₁ h₂ hp hpte
              hmapped (fun hin => hnull ((hlog _).subset
                (List.mem_cons_of_mem _ hin))) (v := normal d p 0) rfl rfl
            refine ih (p + 1) _ (by omega) (hcopied.extend
              (fun d' p' hd' => by omega) fun d' _ _ p' _ hd' =>
                .inl (by omega)) hdone hnull
          · rw [if_pos hmapped] at hdone
            cases hdone

theorem copyDirectory_suffix (mm : PageManager) (ptable other : Nat) :
    ∀ turns d M,
      M.log <:+ (copyDirectory mm ptable other turns d M).2.log := by
  intro turns
  induction turns with
  | zero => intro d M; exact List.suffix_rfl
  | succ turns ih =>
      intro d M
      rw [copyDirectory]
      split
      · exact ih (d + 1) { M with mem := copyEntry M.mem ptable other d }
      · split
        · have htable := copyTable_suffix mm ptable other d
            (readEntry M.mem (other + 4 * d)).address 1024 0 M
          generalize copyTable mm ptable other d _ 1024 0 M = copied
            at htable ⊢
          rcases copied with ⟨_ | _, M'⟩
          · exact htable
          · exact htable.trans (ih _ _)
        · exact ih _ _

/-- The copy of the directory from entry `d` on. -/
theorem copyDirectory_copied (hfresh : mm.Fresh) (hs₀ : Spaces M₀ dm dirs)
    (hc : child ∈ dirs) (hparent : parent ∈ dirs) (hne : parent ≠ child) :
    ∀ turns d M, d + turns ≤ 1024 →
      Copied M₀ M dm dirs child parent (fun d' _ => d' < d) →
      (copyDirectory mm child parent turns d M).1 = true →
      Event.alloc true 0 ∉ (copyDirectory mm child parent turns d M).2.log →
      Copied M₀ (copyDirectory mm child parent turns d M).2 dm dirs child parent
        (fun d' _ => d' < d + turns) := by
  intro turns
  induction turns with
  | zero => intro d M _ h _ _; exact h
  | succ turns ih =>
      intro d M hle h hdone hnull
      have hlast : d + (turns + 1) = d + 1 + turns := by omega
      rw [copyDirectory] at hdone hnull ⊢
      rw [hlast]
      rcases Nat.lt_or_ge d 32 with hd | hd
      · have hwindow := h.spaces.window
        have hdirect : ((directMappingEntry d).presence &&
            (directMappingEntry d).directMapped) = true := rfl
        rw [hwindow.readEntry_window hparent hd, if_pos hdirect, copyEntry,
          hwindow.store_window hc hd (hwindow.window _ hparent d hd)]
          at hdone hnull ⊢
        exact ih (d + 1) M (by omega) (h.extend (fun d' _ hd' => by omega)
          fun d' h₁ _ _ _ hd' => .inl (by omega)) hdone hnull
      have hd₂ : d < 1024 := by omega
      have hkernel := hs₀.window.kernel parent (List.mem_cons_of_mem dm hparent)
      have hread := readEntry_of_samePage (h.kept parent (.inl hkernel)
        (hs₀.window.aligned parent hkernel) hne) hd₂
      rw [hread] at hdone hnull ⊢
      cases hpres : (readEntry M₀.mem (parent + 4 * d)).presence with
      | false =>
          rw [hpres] at hdone hnull
          refine ih (d + 1) M (by omega) (h.extend (fun d' _ hd' => by omega)
            fun d' _ _ p' _ hd' => ?_) hdone hnull
          by_cases hhere : d' = d
          · exact .inr (by rw [hhere, pteAt_absent hpres])
          · exact .inl (by omega)
      | true =>
          have hdirect :=
            (hs₀.window.upper parent hparent d hd hd₂ hpres).2.1
          rw [hpres, hdirect, if_neg (by simp), if_pos (by rfl)] at hdone hnull
          rw [hdirect, if_neg (by simp), if_pos (by rfl)]
          have hcopied := copyTable_copied hfresh hs₀ hc hparent hne hd hd₂
            hpres rfl 1024 0 M (by omega) (h.extend (fun d' p' hd' => .inl hd')
              fun d' _ _ p' _ hd' => .inl (by omega))
          generalize copyTable mm child parent d _ 1024 0 M = copied
            at hcopied hdone hnull ⊢
          rcases copied with ⟨_ | _, M'⟩
          · cases hdone
          · have hlog := copyDirectory_suffix mm child parent turns (d + 1) M'
            refine ih (d + 1) M' (by omega) ((hcopied rfl fun hin =>
              hnull (hlog.subset hin)).extend (fun d' p' hd' => by omega)
                fun d' _ _ p' hp' hd' => .inl (by omega)) hdone hnull

theorem Copied.start (hs₀ : Spaces M₀ dm dirs)
    (hblank : ∀ d, 32 ≤ d → d < 1024 →
      (readEntry M₀.mem (child + 4 * d)).presence = false) :
    Copied M₀ M₀ dm dirs child parent (fun d' _ => d' < 0) := by
  have hnone : ∀ d, 32 ≤ d → d < 1024 → ∀ p e,
      pteAt M₀.mem child d p ≠ some e := by
    intro d h₁ h₂ p e he
    rw [pteAt_absent (hblank d h₁ h₂)] at he
    cases he
  refine ⟨hs₀, fun _ hq => hq, fun _ _ _ _ => SamePage.refl _ _,
    fun d h₁ h₂ hpres => ?_,
    fun d h₁ h₂ p _ e he => absurd he (hnone d h₁ h₂ p e),
    fun _ _ _ _ _ hd => absurd hd (Nat.not_lt_zero _),
    fun d h₁ h₂ p _ e he => absurd he (hnone d h₁ h₂ p e)⟩
  rw [hblank d h₁ h₂] at hpres
  cases hpres

/-! ## What the copy is for -/

/-- `child` maps copies of what `parent` maps, and nobody sees what the other
writes. The window, which all share, is left out. -/
structure Forked (M₀ M : Machine) (dirs : List Nat) (child parent : Nat) :
    Prop where
  translated : ∀ v, (translate M.mem child v).isSome =
    (translate M₀.mem parent v).isSome
  direct : ∀ v, dir v < 32 →
    translate M.mem child v = translate M₀.mem parent v
  copied : ∀ v a, 32 ≤ dir v → translate M₀.mem parent v = some a →
    ∃ b, translate M.mem child v = some b ∧ b / 4096 ≠ a / 4096 ∧
      b % 4096 = a % 4096 ∧
      (∀ k, k < 4096 →
        M.mem (4096 * (b / 4096) + k) = M₀.mem (4096 * (a / 4096) + k)) ∧
      ∀ q, q ∈ dirs → ∀ w c, 32 ≤ dir w → translate M.mem q w = some c →
        c / 4096 = b / 4096 → q = child ∧ dir w = dir v ∧ page w = page v
  others : ∀ q, q ∈ dirs → q ≠ child → ∀ v,
    translate M.mem q v = translate M₀.mem q v ∧
      (32 ≤ dir v → readByte M.mem q v = readByte M₀.mem q v)
  isolated : ∀ q, q ∈ dirs → q ≠ child → ∀ ws : List (Nat × UInt8),
    (∀ w, w ∈ ws → 32 ≤ dir w.1) → ∀ v, 32 ≤ dir v →
      readByte (ws.foldl (fun m w => writeByte m child w) M.mem) q v =
          readByte M.mem q v ∧
        readByte (ws.foldl (fun m w => writeByte m q w) M.mem) child v =
          readByte M.mem child v

/-- Pages mapped by the child and by somebody else are different. -/
theorem Copied.apart (h : Copied M₀ M dm dirs child parent done)
    (hs₀ : Spaces M₀ dm dirs) (hc : child ∈ dirs) {q : Nat} (hq : q ∈ dirs)
    (hne : q ≠ child) {v w a b : Nat} (hv : 32 ≤ dir v) (hw : 32 ≤ dir w)
    (ha : translate M.mem child v = some a)
    (hb : translate M.mem q w = some b) : b / 4096 ≠ a / 4096 := by
  obtain ⟨e, he, rfl⟩ := h.spaces.toTables.translate_above hc hv ha
  obtain ⟨e', he', rfl⟩ := h.spaces.toTables.translate_above hq hw hb
  have hnew := (h.maps _ hv (dir_lt v) _ (page_lt v) e he).2.1
  rw [h.pteAt_parent hs₀ hc hq hne hw (dir_lt w) (page_lt w)] at he'
  obtain ⟨_, hu, _⟩ := hs₀.frames q hq _ hw (dir_lt w) _ (page_lt w) e' he'
  have hdiff : e'.address ≠ e.address := fun heq => hnew (heq ▸ .inr hu)
  have ho : offset v < 4096 := Nat.mod_lt _ (by decide)
  have ho' : offset w < 4096 := Nat.mod_lt _ (by decide)
  rcases aligned_disjoint (address_dvd e') (address_dvd e) hdiff with hlt | hlt
  all_goals
    rw [Entry.address, Entry.address] at hlt ⊢
    omega

/-- What others read after writes of a process above the window. -/
theorem readByte_writes {q r : Nat} (h : Spaces M dm dirs) (hq : q ∈ dirs)
    (hr : r ∈ dirs) {ws : List (Nat × UInt8)}
    (hws : ∀ w, w ∈ ws → 32 ≤ dir w.1) {v : Nat}
    (hne : ∀ w a b, 32 ≤ dir w → translate M.mem q w = some a →
      translate M.mem r v = some b → b / 4096 ≠ a / 4096) :
    readByte (ws.foldl (fun m w => writeByte m q w) M.mem) r v =
      readByte M.mem r v := by
  have hwrites := h.writes hq ws hws
  rw [readByte, readByte, h.toTables.translate_congr (fun t ht k hk =>
    hwrites (t + k) fun _ _ hw ha => h.kernel_apart hq ht hk hw ha) hr]
  cases hb : translate M.mem r v with
  | none => rfl
  | some b =>
      refine congrArg some (hwrites b fun w a hw ha heq => ?_)
      exact hne w a b hw ha hb (by rw [heq])

theorem Copied.forked
    (h : Copied M₀ M dm dirs child parent (fun d _ => d < 1024))
    (hs₀ : Spaces M₀ dm dirs) (hc : child ∈ dirs) (hparent : parent ∈ dirs)
    (hne : parent ≠ child) : Forked M₀ M dirs child parent := by
  have hothers : ∀ q, q ∈ dirs → q ≠ child → ∀ v,
      translate M.mem q v = translate M₀.mem q v := by
    intro q hq hqc v
    have hkernel := hs₀.window.kernel q (List.mem_cons_of_mem dm hq)
    refine translate_congr (h.kept q (.inl hkernel)
      (hs₀.window.aligned q hkernel) hqc) fun hpres hsize => ?_
    have habove := hs₀.window.above hq (.inl hsize)
    exact h.kept _ (.inl (hs₀.tables q hq _ habove (dir_lt v) hpres))
      (address_dvd _) (hs₀.toTables.table_ne hq habove (dir_lt v) hpres
        (List.mem_cons_of_mem dm hc))
  have hcopied : ∀ v a, 32 ≤ dir v → translate M₀.mem parent v = some a →
      ∃ b, translate M.mem child v = some b ∧ b % 4096 = a % 4096 ∧
        ∀ k, k < 4096 →
          M.mem (4096 * (b / 4096) + k) = M₀.mem (4096 * (a / 4096) + k) := by
    intro v a hv ha
    obtain ⟨e₀, he₀, rfl⟩ := hs₀.toTables.translate_above hparent hv ha
    obtain ⟨e, he⟩ := h.complete _ hv (dir_lt v) _ (page_lt v) (dir_lt v) e₀ he₀
    obtain ⟨_, _, e₁, he₁, hbytes⟩ := h.maps _ hv (dir_lt v) _ (page_lt v) e he
    obtain rfl : e₁ = e₀ := Option.some.inj (he₁.symm.trans he₀)
    have ho : offset v < 4096 := Nat.mod_lt _ (by decide)
    have hpage : ∀ f : Entry, 4096 * ((f.address + offset v) / 4096) =
        f.address := by
      intro f
      rw [Entry.address]
      omega
    refine ⟨_, translate_of_pteAt he, ?_, fun k hk => ?_⟩
    · rw [Entry.address, Entry.address]
      omega
    · rw [hpage e, hpage e₁]
      exact hbytes k hk
  have hdirect : ∀ v, dir v < 32 →
      translate M.mem child v = translate M₀.mem parent v := fun v hv => by
    rw [h.spaces.window.translate_window hc hv,
      hs₀.window.translate_window hparent hv]
  refine ⟨fun v => ?_, hdirect, fun v a hv ha => ?_,
    fun q hq hqc v => ⟨hothers q hq hqc v, fun hv => ?_⟩,
    fun q hq hqc ws hws v hv => ⟨?_, ?_⟩⟩
  · rcases Nat.lt_or_ge (dir v) 32 with hv | hv
    · rw [hdirect v hv]
    · cases ha : translate M₀.mem parent v with
      | some a =>
          obtain ⟨b, hb, _⟩ := hcopied v a hv ha
          rw [hb]
          rfl
      | none =>
          cases hb : translate M.mem child v with
          | none => rfl
          | some b =>
              obtain ⟨e, he, rfl⟩ := h.spaces.toTables.translate_above hc hv hb
              obtain ⟨_, _, e₀, he₀, _⟩ :=
                h.maps _ hv (dir_lt v) _ (page_lt v) e he
              rw [translate_of_pteAt he₀] at ha
              cases ha
  · obtain ⟨b, hb, hmod, hbytes⟩ := hcopied v a hv ha
    rw [← hothers parent hparent hne v] at ha
    refine ⟨b, hb, fun heq => h.apart hs₀ hc hparent hne hv hv hb ha heq.symm,
      hmod, hbytes, fun q hq w c hw hcw heq => ?_⟩
    by_cases hqc : q = child
    · subst hqc
      obtain ⟨e, he, rfl⟩ := h.spaces.toTables.translate_above hc hv hb
      obtain ⟨e', he', rfl⟩ := h.spaces.toTables.translate_above hc hw hcw
      have ho : offset v < 4096 := Nat.mod_lt _ (by decide)
      have ho' : offset w < 4096 := Nat.mod_lt _ (by decide)
      have hsame : e'.address = e.address := by
        rw [Entry.address, Entry.address] at heq ⊢
        omega
      exact ⟨rfl, h.single _ hw (dir_lt w) _ (page_lt w) e' he' _ hv (dir_lt v)
        _ (page_lt v) e he hsame⟩
    · exact absurd heq (h.apart hs₀ hc hq hqc hv hw hb hcw)
  · rw [readByte, readByte, hothers q hq hqc v]
    cases ha : translate M₀.mem q v with
    | none => rfl
    | some a =>
        obtain ⟨e, he, rfl⟩ := hs₀.toTables.translate_above hq hv ha
        obtain ⟨_, hu, hk⟩ := hs₀.frames q hq _ hv (dir_lt v) _ (page_lt v) e he
        refine congrArg some (h.kept e.address (.inr hu) (address_dvd e)
          (fun heq => hk (heq ▸ hs₀.window.kernel child
            (List.mem_cons_of_mem dm hc))) _ (Nat.mod_lt _ (by decide)))
  · exact readByte_writes h.spaces hc hq hws fun w a b hw ha hb =>
      h.apart hs₀ hc hq hqc hw hv ha hb
  · exact readByte_writes h.spaces hq hc hws fun w a b hw ha hb heq =>
      h.apart hs₀ hc hq hqc hv hw hb ha heq.symm

/-- A fork that succeeds: the child, which maps nothing yet above the window,
gets copies of the parent's pages. -/
theorem copyAddressSpace_forks (hfresh : mm.Fresh) (hs₀ : Spaces M dm dirs)
    (hc : child ∈ dirs) (hparent : parent ∈ dirs) (hne : parent ≠ child)
    (hblank : ∀ d, 32 ≤ d → d < 1024 →
      (readEntry M.mem (child + 4 * d)).presence = false)
    (hdone : (copyAddressSpace mm M child parent).1 = true)
    (hnull : Event.alloc true 0 ∉ (copyAddressSpace mm M child parent).2.log) :
    Spaces (copyAddressSpace mm M child parent).2 dm dirs ∧
      Forked M (copyAddressSpace mm M child parent).2 dirs child parent := by
  have hcopied := copyDirectory_copied hfresh hs₀ hc hparent hne 1024 0 M
    (by decide) (Copied.start hs₀ hblank) hdone hnull
  exact ⟨hcopied.spaces, (hcopied.extend (fun d _ hd => by omega)
    fun d _ _ p _ hd => .inl (by omega)).forked hs₀ hc hparent hne⟩

/-! ## A fork

Page 1 is the direct mapping. The parent in page 2 has one page, whose entry is
in page 4; the child in page 3 maps nothing yet. -/

/-- Memory given by the words of its pages. -/
def pageWords (f : Nat → Nat → Nat) : Nat → UInt8 := fun a =>
  UInt8.ofNat (f (a / 4096) (a % 4096 / 4) / 256 ^ (a % 4))

theorem load_pageWords (f : Nat → Nat → Nat) {p k : Nat} (hk : k < 1024) :
    load 4 (pageWords f) (4096 * p + 4 * k) = f p k % 4294967296 := by
  refine load_spelled fun j hj => ?_
  have hpage : (4096 * p + 4 * k + j) / 4096 = p := by omega
  have hword : (4096 * p + 4 * k + j) % 4096 / 4 = k := by omega
  have hbyte : (4096 * p + 4 * k + j) % 4 = j := by omega
  rw [pageWords, hpage, hword, hbyte]

def forkWords (p k : Nat) : Nat :=
  if p = 1 ∨ (p = 2 ∨ p = 3) ∧ k < 32 then 4194304 * k + 907
  else if p = 2 ∧ k = 1023 then 16399
  else if p = 4 ∧ k = 1023 then 20495
  else 0

def forkMachine : Machine where
  mem := pageWords forkWords
  log := [.alloc false 20480, .alloc true 16384, .alloc true 12288,
    .alloc true 8192, .alloc true 4096]

theorem readEntry_forkMachine {k : Nat} (p : Nat) (hk : k < 1024) :
    readEntry forkMachine.mem (4096 * p + 4 * k) = .ofFlat (forkWords p k) := by
  have hlt : forkWords p k < 4294967296 := by
    rw [forkWords]
    split_ifs <;> omega
  rw [readEntry, forkMachine, load_pageWords _ hk, Nat.mod_eq_of_lt hlt]

/-- The parent's table is the only one. -/
theorem forkMachine_present {q : Nat} (hq : q ∈ [8192, 12288])
    (h₁ : 32 ≤ d) (h₂ : d < 1024)
    (hpres : (readEntry forkMachine.mem (q + 4 * d)).presence = true) :
    q = 8192 ∧ d = 1023 := by
  by_contra hno
  have hpair : q = 8192 ∨ q = 12288 := by simpa using hq
  have habsent : forkWords (q / 4096) d = 0 := by
    rw [forkWords]
    rcases hpair with rfl | rfl <;> split_ifs <;> omega
  have hpage : q = 4096 * (q / 4096) := by
    rcases hpair with rfl | rfl <;> rfl
  rw [hpage, readEntry_forkMachine _ h₂, habsent] at hpres
  revert hpres
  decide

theorem forkMachine_window : WindowInv forkMachine 4096 [8192, 12288] := by
  have hshared : ∀ p, (p = 1 ∨ p = 2 ∨ p = 3) → ∀ d, d < 1024 →
      (p = 1 ∨ d < 32) → load 4 forkMachine.mem (4096 * p + 4 * d) =
        (directMappingEntry d).flat := by
    intro p hp d hd hpd
    rw [forkMachine, load_pageWords _ hd, directMappingEntry_flat hd,
      forkWords, if_pos (by omega)]
    omega
  refine ⟨fun p hp => ?_, by decide, by decide,
    fun d hd => hshared 1 (.inl rfl) d hd (.inl rfl), fun p hp d hd => ?_,
    fun p hp d h₁ h₂ hpres => ?_⟩
  · have hmem := hp.2
    simp only [forkMachine, List.mem_cons, Event.alloc.injEq, true_and,
      List.not_mem_nil, or_false] at hmem
    omega
  · have hpair : p = 8192 ∨ p = 12288 := by simpa using hp
    rcases hpair with rfl | rfl
    · exact hshared 2 (.inr (.inl rfl)) d (by omega) (.inr hd)
    · exact hshared 3 (.inr (.inr rfl)) d (by omega) (.inr hd)
  · obtain ⟨rfl, rfl⟩ := forkMachine_present hp h₁ h₂ hpres
    have hread := readEntry_forkMachine 2 (by decide : 1023 < 1024)
    rw [hread]
    decide

/-- Only the parent's last page is mapped. -/
theorem forkMachine_mapped {q : Nat} (hq : q ∈ [8192, 12288]) (h₁ : 32 ≤ d)
    (h₂ : d < 1024) (hp : p < 1024) {e : Entry}
    (he : pteAt forkMachine.mem q d p = some e) :
    q = 8192 ∧ d = 1023 ∧ p = 1023 ∧ e = .ofFlat 20495 := by
  have htable := readEntry_forkMachine 2 (by decide : 1023 < 1024)
  cases hpres : (readEntry forkMachine.mem (q + 4 * d)).presence with
  | false =>
      rw [pteAt_absent hpres] at he
      cases he
  | true =>
      obtain ⟨rfl, rfl⟩ := forkMachine_present hq h₁ h₂ hpres
      rw [pteAt_table (t := 16384) hpres (by rw [htable]; decide)
        (by rw [htable]; decide), readEntry_forkMachine 4 hp] at he
      have hword : p ≠ 1023 → forkWords 4 p = 0 := fun hne => by
        rw [forkWords]
        split_ifs <;> omega
      by_cases hlast : p = 1023
      · subst hlast
        rw [if_pos (by decide)] at he
        cases he
        exact ⟨rfl, rfl, rfl, rfl⟩
      · rw [hword hlast, if_neg (by decide)] at he
        cases he

theorem forkMachine_spaces : Spaces forkMachine 4096 [8192, 12288] := by
  have htable := readEntry_forkMachine 2 (by decide : 1023 < 1024)
  refine ⟨forkMachine_window, fun q hq d h₁ h₂ hpres => ?_,
    fun q hq d h₁ h₂ hpres q' hq' d' h₁' h₂' hpres' _ => ?_,
    fun q hq d h₁ h₂ p hp e he => ?_⟩
  · obtain ⟨rfl, rfl⟩ := forkMachine_present hq h₁ h₂ hpres
    rw [htable]
    decide
  · obtain ⟨rfl, rfl⟩ := forkMachine_present hq h₁ h₂ hpres
    obtain ⟨rfl, rfl⟩ := forkMachine_present hq' h₁' h₂' hpres'
    exact ⟨rfl, rfl⟩
  · obtain ⟨rfl, rfl, rfl, rfl⟩ := forkMachine_mapped hq h₁ h₂ hp he
    decide

/-- Copying the window onto itself. -/
theorem copyDirectory_window (h : WindowInv M dm dirs) (hc : child ∈ dirs)
    (hparent : parent ∈ dirs) (n : Nat) :
    ∀ k d, d + k ≤ 32 → copyDirectory mm child parent (k + n) d M =
      copyDirectory mm child parent n (d + k) M := by
  intro k
  induction k with
  | zero => intro d _; rw [Nat.zero_add, Nat.add_zero]
  | succ k ih =>
      intro d hd
      have hentry := h.readEntry_window hparent (by omega : d < 32)
      rw [Nat.add_right_comm, copyDirectory, hentry, if_pos (by rfl), copyEntry,
        h.store_window hc (by omega) (h.window parent hparent d (by omega)),
        ih _ (by omega), Nat.add_right_comm, Nat.add_assoc]

/-- Entries that are not there are passed over. -/
theorem copyDirectory_absent (n : Nat) :
    ∀ k d, (∀ i, i < k →
      (readEntry M.mem (parent + 4 * (d + i))).presence = false) →
    copyDirectory mm child parent (k + n) d M =
      copyDirectory mm child parent n (d + k) M := by
  intro k
  induction k with
  | zero => intro d _; rw [Nat.zero_add, Nat.add_zero]
  | succ k ih =>
      intro d habsent
      have hhere : (readEntry M.mem (parent + 4 * d)).presence = false :=
        habsent 0 (Nat.succ_pos k)
      have hrest : ∀ i, i < k →
          (readEntry M.mem (parent + 4 * (d + 1 + i))).presence = false := by
        intro i hi
        rw [Nat.add_assoc, Nat.add_comm 1 i]
        exact habsent (i + 1) (Nat.succ_lt_succ hi)
      rw [Nat.add_right_comm, copyDirectory, hhere]
      simp only [Bool.false_and, Bool.false_eq_true, if_false]
      rw [ih _ hrest, Nat.add_assoc, Nat.add_comm 1 k]

/-- The child's copy is page 6, which the window shows at its own address. -/
theorem forkMachine_copied :
    (copyAddressSpace counting forkMachine 12288 8192).1 = true ∧
      Event.alloc true 0 ∉
        (copyAddressSpace counting forkMachine 12288 8192).2.log ∧
      translate (copyAddressSpace counting forkMachine 12288 8192).2.mem
        12288 0xFFFFF000 = some 24576 ∧
      translate (copyAddressSpace counting forkMachine 12288 8192).2.mem
        12288 24576 = some 24576 ∧
      readByte (copyAddressSpace counting forkMachine 12288 8192).2.mem
        12288 0xFFFFF000 = some 0 ∧
      readByte (writeByte
        (copyAddressSpace counting forkMachine 12288 8192).2.mem 8192
        (24576, 1)) 12288 0xFFFFF000 = some 1 := by
  have habsent : ∀ i, i < 991 →
      (readEntry forkMachine.mem (8192 + 4 * (32 + i))).presence = false := by
    intro i hi
    by_contra hpres
    have hlast := (forkMachine_present (by decide) (by omega) (by omega)
      (Bool.not_eq_false _ ▸ hpres)).2
    omega
  rw [copyAddressSpace, copyDirectory_window forkMachine_window (by decide)
    (by decide) 992 32 0 (by decide), copyDirectory_absent 1 991 32 habsent]
  decide +kernel

theorem forkMachine_blank (h₁ : 32 ≤ d) (h₂ : d < 1024) :
    (readEntry forkMachine.mem (12288 + 4 * d)).presence = false := by
  cases hpres : (readEntry forkMachine.mem (12288 + 4 * d)).presence with
  | false => rfl
  | true =>
      have hchild := (forkMachine_present (by decide) h₁ h₂ hpres).1
      exact absurd hchild (by decide)

theorem copyAddressSpace_forkMachine :
    Spaces (copyAddressSpace counting forkMachine 12288 8192).2 4096
        [8192, 12288] ∧
      Forked forkMachine (copyAddressSpace counting forkMachine 12288 8192).2
        [8192, 12288] 12288 8192 :=
  copyAddressSpace_forks counting_fresh forkMachine_spaces (by decide)
    (by decide) (by decide) (fun _ => forkMachine_blank) forkMachine_copied.1
    forkMachine_copied.2.1

/-- After this fork the child's page is also mapped in the window, of the child
and of the parent, and what is written through the parent's window is read
through the child's page. -/
theorem copyAddressSpace_window_visible :
    counting.Fresh ∧ Spaces forkMachine 4096 [8192, 12288] ∧
      (∀ d, 32 ≤ d → d < 1024 →
        (readEntry forkMachine.mem (12288 + 4 * d)).presence = false) ∧
      (copyAddressSpace counting forkMachine 12288 8192).1 = true ∧
      ∃ v w a, v / 4096 ≠ w / 4096 ∧ 32 ≤ dir v ∧
        translate (copyAddressSpace counting forkMachine 12288 8192).2.mem
          12288 v = some a ∧
        translate (copyAddressSpace counting forkMachine 12288 8192).2.mem
          12288 w = some a ∧
        readByte (writeByte
          (copyAddressSpace counting forkMachine 12288 8192).2.mem 8192
          (w, 1)) 12288 v ≠
          readByte (copyAddressSpace counting forkMachine 12288 8192).2.mem
            12288 v := by
  obtain ⟨hdone, _, hv, hw, hread, hwritten⟩ := forkMachine_copied
  refine ⟨counting_fresh, forkMachine_spaces, fun _ => forkMachine_blank, hdone,
    0xFFFFF000, 24576, 24576, by decide, by decide, hv, hw, ?_⟩
  rw [hread, hwritten]
  decide

end Iposix.Vm
