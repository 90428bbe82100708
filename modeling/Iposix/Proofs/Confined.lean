import Iposix.Proofs.CopyIn
import Iposix.Proofs.Reset

/-!
# A process that is filled

A process whose address space was reset is given memory and gets contents
copied into it. As long as the copies go to addresses above the kernel's
window, they go to pages that the process was given since: all that is mapped
there is new, and a page that was given out was in nobody's use.

`Filling` is what each of these steps keeps.
-/

namespace Iposix.Vm

open Iposix.Lib

variable {mm : PageManager} {M M' M₀ : Machine} {dm ptable q : Nat}
  {dirs : List Nat} {new new' log : List Event}

/-- The page was handed out to a process. -/
def Given (log : List Event) (f : Nat) : Prop :=
  f ≠ 0 ∧ Event.alloc false f ∈ log

/-- Copies go to addresses above the window, and into pages handed out
before. -/
def CopiesConfined : List Event → Prop
  | [] => True
  | .copy w a n :: log =>
      (134217728 ≤ w ∧ ∃ f, Given log f ∧ f ≤ a ∧ a + n ≤ f + 4096) ∧
        CopiesConfined log
  | .alloc _ _ :: log => CopiesConfined log
  | .free _ _ :: log => CopiesConfined log

/-- What a process has changed since `M₀`: its own tables, which were handed out
for that, and pages that were handed out since. The events since are `new`. -/
structure Confined (M₀ M : Machine) (dirs : List Nat) (ptable : Nat)
    (new : List Event) : Prop where
  log : M.log = new ++ M₀.log
  copies : CopiesConfined new
  memory : ∀ t, 4096 ∣ t → ¬ (Kernel M.log t ∧ Private M.mem ptable t) →
    ¬ Given new t → SamePage 4096 M₀.mem M.mem t
  others : ∀ q, q ∈ dirs → q ≠ ptable → ∀ v, 32 ≤ dir v →
    readByte M.mem q v = readByte M₀.mem q v

/-! ## Logs -/

theorem Given.append (h : Given new q) : Given (new' ++ new) q :=
  ⟨h.1, List.mem_append_right new' h.2⟩

theorem kernel_append (h : Kernel log q) : Kernel (new ++ log) q :=
  ⟨h.1, List.mem_append_right new h.2⟩

/-- A page in use was in use before or was handed out since. -/
theorem user_append {f : Nat} : ∀ {new : List Event}, User (new ++ log) f →
    Given new f ∨ User log f := by
  intro new
  induction new with
  | nil => intro h; exact .inr h
  | cons e new ih =>
      intro h
      have hold : User (new ++ log) f → Given (e :: new) f ∨ User log f :=
        fun h => (ih h).imp_left fun hg => ⟨hg.1, List.mem_cons_of_mem e hg.2⟩
      cases e with
      | alloc kernel q =>
          cases kernel with
          | true => exact hold h
          | false =>
              rcases h with ⟨rfl, h₀⟩ | h
              · exact .inl ⟨h₀, List.mem_cons_self⟩
              · exact hold h
      | free q done =>
          cases done with
          | true => exact hold h.2
          | false => exact hold h
      | copy w a n => exact hold h

theorem copiesConfined_append (h : CopiesConfined log) :
    ∀ {new : List Event}, (∀ e, e ∈ new → ∀ w a n, e ≠ .copy w a n) →
      CopiesConfined (new ++ log) := by
  intro new
  induction new with
  | nil => intro _; exact h
  | cons e new ih =>
      intro hnew
      have hrest := ih fun e' he' => hnew e' (List.mem_cons_of_mem e he')
      cases e with
      | alloc kernel q => exact hrest
      | free q done => exact hrest
      | copy w a n => exact absurd rfl (hnew _ List.mem_cons_self w a n)

theorem CopiesConfined.of_append : ∀ {new : List Event},
    CopiesConfined (new ++ log) → CopiesConfined log := by
  intro new
  induction new with
  | nil => exact fun h => h
  | cons e new ih =>
      intro h
      cases e with
      | alloc kernel q => exact ih h
      | free q done => exact ih h
      | copy w a n => exact ih h.2

/-- No copy of a confined log went to the window. -/
theorem CopiesConfined.above : ∀ {log : List Event}, CopiesConfined log →
    ∀ {w a n}, Event.copy w a n ∈ log → 134217728 ≤ w := by
  intro log
  induction log with
  | nil => intro _ w a n h; cases h
  | cons e log ih =>
      intro h w a n hmem
      rcases List.mem_cons.1 hmem with rfl | hrest
      · exact h.1.1
      · cases e with
        | alloc kernel q => exact ih h hrest
        | free q done => exact ih h hrest
        | copy w' a' n' => exact ih h.2 hrest

section Copies

/-- Copies change nothing about which pages are in use. -/
theorem kernel_copies {P : Event → Prop} {log' : List Event} {t : Nat}
    (h : Logged P log log') (hP : ∀ e, P e → ∃ w a n, e = .copy w a n) :
    Kernel log' t ↔ Kernel log t := by
  obtain ⟨new, rfl, hnew⟩ := h
  refine ⟨fun hk => ⟨hk.1, ?_⟩, kernel_append⟩
  rcases List.mem_append.1 hk.2 with hmem | hmem
  · obtain ⟨w, a, n, heq⟩ := hP _ (hnew _ hmem)
    cases heq
  · exact hmem

theorem user_copies {P : Event → Prop} {log' : List Event} {f : Nat}
    (h : Logged P log log') (hP : ∀ e, P e → ∃ w a n, e = .copy w a n) :
    User log' f ↔ User log f := by
  obtain ⟨new, rfl, hnew⟩ := h
  induction new with
  | nil => exact Iff.rfl
  | cons e new ih =>
      obtain ⟨w, a, n, rfl⟩ := hP _ (hnew e List.mem_cons_self)
      exact ih fun e' he' => hnew e' (List.mem_cons_of_mem _ he')

end Copies

/-! ## The steps -/

structure Filling (M₀ M : Machine) (dm : Nat) (dirs : List Nat)
    (ptable : Nat) (new : List Event) : Prop where
  log : M.log = new ++ M₀.log
  owned : Owned M dm dirs
  mine : ∀ d, 32 ≤ d → d < 1024 → ∀ p, p < 1024 →
    ∀ e, pteAt M.mem ptable d p = some e → Given new e.address
  theirs : ∀ q, q ∈ dirs → q ≠ ptable → ∀ d, 32 ≤ d → d < 1024 →
    ∀ p, p < 1024 → pteAt M.mem q d p = pteAt M₀.mem q d p
  kept : ∀ t, 4096 ∣ t → ¬ Private M.mem ptable t → ¬ Given new t →
    SamePage 4096 M₀.mem M.mem t
  apart : ∀ f, Given new f → ∀ q, q ∈ dirs → q ≠ ptable → ∀ d, 32 ≤ d →
    d < 1024 → ∀ p, p < 1024 → ∀ e, pteAt M₀.mem q d p = some e →
      e.address ≠ f
  copies : CopiesConfined new
  idle : ∀ f, 4096 ∣ f → ¬ InUse M.log f → SamePage 4096 M₀.mem M.mem f

/-- The address space has been reset, and all pages were taken back. -/
theorem Filling.start (h : Owned M dm dirs) (hp : ptable ∈ dirs)
    (haccepted : Accepted M.log
      (resetAddressSpace mm M (some ptable) ptable).2.log) :
    ∃ new, Filling M (resetAddressSpace mm M (some ptable) ptable).2 dm dirs
      ptable new := by
  obtain ⟨hreleased, hblank⟩ := resetAddressSpace_spec mm h hp
  have hentries := hreleased.entries ptable hp
  have hprivate : ∀ t, Private M.mem ptable t →
      Private (resetAddressSpace mm M (some ptable) ptable).2.mem ptable t :=
    fun t => Private.mono fun d hd _ => hentries d hd
  obtain ⟨new, hlog, hnew⟩ := hreleased.log
  refine ⟨new, hlog, hreleased.owned, fun d h₁ h₂ p hlt e he => ?_,
    hreleased.others, fun t ht hno _ => hreleased.kept t ht fun hpriv =>
      hno (hprivate t hpriv), fun f hf => ?_, ?_, fun f hf hidle => ?_⟩
  · rw [hblank (hreleased.success haccepted) d h₁ h₂ p hlt] at he
    cases he
  · obtain ⟨_, _, heq, _⟩ := hnew _ hf.2
    cases heq
  · have hnil : new = new ++ [] := (List.append_nil new).symm
    rw [hnil]
    refine copiesConfined_append (show CopiesConfined [] from trivial)
      fun e he w a n heq => ?_
    obtain ⟨_, _, hfree, _⟩ := hnew e he
    rw [hfree] at heq
    cases heq
  · refine hreleased.kept f hf fun hpriv => hidle (.inl ?_)
    rw [hlog]
    exact kernel_append (h.spaces.kernel_of_private hp hpriv)

/-- Memory was asked for. -/
theorem Filling.vmalloc (hfresh : mm.Fresh)
    (h : Filling M₀ M dm dirs ptable new) (hp : ptable ∈ dirs) (size v : Nat)
    (hnull : Granted M.log (vmalloc mm M size ptable v).2.log) :
    ∃ new', Filling M₀ (vmalloc mm M size ptable v).2 dm dirs ptable
      new' := by
  obtain ⟨hext, hserved⟩ := vmalloc_spec hfresh h.owned.spaces hp size v hnull
  obtain ⟨new', hlog, hnew⟩ := vmalloc_logged hfresh M size ptable v
  have howned := h.owned.served hext hserved
  generalize Vm.vmalloc mm M size ptable v = r at hext hserved hlog howned
  obtain ⟨v', M'⟩ := r
  dsimp only at hext hserved hlog howned ⊢
  -- an entry is new or was there before
  have hcases : ∀ q, q ∈ dirs → ∀ d, 32 ≤ d → d < 1024 → ∀ p, p < 1024 →
      ∀ e, pteAt M'.mem q d p = some e →
        (q = ptable ∧ ¬ InUse M.log e.address) ∨
          pteAt M.mem q d p = some e := by
    intro q hq d h₁ h₂ p hlt e he
    rcases hserved with ⟨_, hsame⟩ | ⟨_, _, _, frame, hplaced⟩
    · exact .inr ((hsame q hq d h₁ h₂ p hlt).symm.trans he)
    · refine (hplaced.cases hq h₁ h₂ hlt he).imp_left ?_
      rintro ⟨rfl, i, hi, _, haddr⟩
      rw [haddr]
      exact ⟨rfl, (hplaced.unused i hi).2.2⟩
  refine ⟨new' ++ new, ?_, howned, fun d h₁ h₂ p hlt e he => ?_,
    fun q hq hne d h₁ h₂ p hlt => ?_, fun t ht hno hgiven => ?_,
    fun f hf q hq hne d h₁ h₂ p hlt e he heq => ?_, ?_,
    fun f hf hidle => ?_⟩
  · rw [hlog, h.log, List.append_assoc]
  · rcases hcases ptable hp d h₁ h₂ p hlt e he with ⟨_, hunused⟩ | he₀
    · have hu := (howned.spaces.frames ptable hp d h₁ h₂ p hlt e he).2.1
      rw [hlog] at hu
      rcases user_append hu with hgiven | hu
      · exact ⟨hgiven.1, List.mem_append_left new hgiven.2⟩
      · exact absurd (.inr hu) hunused
    · exact (h.mine d h₁ h₂ p hlt e he₀).append
  · rw [← h.theirs q hq hne d h₁ h₂ p hlt]
    cases he : pteAt M.mem q d p with
    | some e => exact hext.maps q hq d h₁ h₂ p hlt e he
    | none =>
        cases he' : pteAt M'.mem q d p with
        | none => rfl
        | some e =>
            rcases hcases q hq d h₁ h₂ p hlt e he' with ⟨rfl, _⟩ | he₀
            · exact absurd rfl hne
            · rw [he] at he₀
              cases he₀
  · exact (h.kept t ht (fun hpriv => hno (hpriv.mono hext.entries)) fun hg =>
      hgiven hg.append).trans (hext.kept t ht hno)
  · rcases List.mem_append.1 hf.2 with hmem | hmem
    · rw [← h.theirs q hq hne d h₁ h₂ p hlt] at he
      have hu := (h.owned.spaces.frames q hq d h₁ h₂ p hlt e he).2.1
      rcases (hnew _ hmem).2 with h₀ | hunused
      · exact hf.1 h₀
      · exact hunused (.inr (heq ▸ hu))
    · exact h.apart f ⟨hf.1, hmem⟩ q hq hne d h₁ h₂ p hlt e he heq
  · refine copiesConfined_append h.copies fun e he w a n heq => ?_
    have hreq := hnew e he
    rw [heq] at hreq
    exact hreq
  · refine (h.idle f hf fun hin => hidle ?_).trans (hext.kept f hf fun hpriv =>
      hidle (.inl (howned.spaces.kernel_of_private hp hpriv)))
    exact hin.imp (hext.kernel f) (hext.user f)

/-- A copy to an address above the window. -/
theorem Filling.copy (h : Filling M₀ M dm dirs ptable new) (hp : ptable ∈ dirs)
    {v : Nat} (hv : 32 ≤ dir v) {M' : Machine} {buffer : Nat → UInt8}
    {pos : Nat} (hend : v + pos ≤ 4294967296)
    (hcopy : Copying M M' ptable buffer v pos) :
    ∃ new', Filling M₀ M' dm dirs ptable new' := by
  have hs := h.owned.spaces
  have htables : ∀ t, Kernel M.log t → SamePage 4096 M.mem M'.mem t :=
    fun t => hcopy.kernel hs hp hv hend
  have hkernel : ∀ t, Kernel M'.log t ↔ Kernel M.log t := fun t =>
    kernel_copies hcopy.log fun e ⟨w, a, n, _, heq, _⟩ => ⟨w, a, n, heq⟩
  have huser : ∀ f, User M'.log f ↔ User M.log f := fun f =>
    user_copies hcopy.log fun e ⟨w, a, n, _, heq, _⟩ => ⟨w, a, n, heq⟩
  have hpte := hcopy.sameMaps hs hp hv hend
  have hspaces : Spaces M' dm dirs :=
    hs.congr htables (fun t => (hkernel t).2)
      (fun t ht => hs.window.aligned t ((hkernel t).1 ht))
      fun f hu hk => ⟨(huser f).2 hu, fun hk' => hk ((hkernel f).1 hk')⟩
  -- a page the process does not map is not written
  have hpage : ∀ t, 4096 ∣ t → (∀ d, 32 ≤ d → d < 1024 → ∀ p, p < 1024 →
      ∀ e, pteAt M.mem ptable d p = some e → e.address ≠ t) →
      SamePage 4096 M.mem M'.mem t := by
    intro t ht hno k hk
    refine hcopy.others _ fun w h₁ h₂ hw => ?_
    have hwin := dir_le hv h₁ (by omega)
    obtain ⟨e, he, heq⟩ := hs.toTables.translate_above hp hwin hw
    have hne := hno _ hwin (dir_lt w) _ (page_lt w) e he
    have ho : offset w < 4096 := Nat.mod_lt _ (by decide)
    rcases aligned_disjoint ht (address_dvd e) hne.symm with hlt | hlt <;> omega
  obtain ⟨new', hlog, hnew⟩ := hcopy.log
  refine ⟨new' ++ new, ?_, h.owned.sameMaps hspaces hpte,
    fun d h₁ h₂ p hlt e he => ?_, fun q hq hne d h₁ h₂ p hlt =>
      (hpte q hq d h₁ h₂ p hlt).trans (h.theirs q hq hne d h₁ h₂ p hlt),
    fun t ht hno hgiven => ?_,
    fun f hf q hq hne d h₁ h₂ p hlt e he heq => ?_, ?_,
    fun f hf hidle => ?_⟩
  · rw [hlog, h.log, List.append_assoc]
  · rw [hpte ptable hp d h₁ h₂ p hlt] at he
    exact (h.mine d h₁ h₂ p hlt e he).append
  · have hdirectory := htables ptable
      (hs.window.kernel ptable (List.mem_cons_of_mem dm hp))
    refine (h.kept t ht (fun hpriv => hno (hpriv.mono fun d hd _ =>
      readEntry_of_samePage hdirectory hd)) fun hg =>
        hgiven hg.append).trans (hpage t ht fun d h₁ h₂ p hlt e he heq => ?_)
    exact hgiven (heq ▸ h.mine d h₁ h₂ p hlt e he).append
  · rcases List.mem_append.1 hf.2 with hmem | hmem
    · obtain ⟨_, _, _, _, hevent, _⟩ := hnew _ hmem
      cases hevent
    · exact h.apart f ⟨hf.1, hmem⟩ q hq hne d h₁ h₂ p hlt e he heq
  · clear hlog
    induction new' with
    | nil => exact h.copies
    | cons e new' ih =>
        obtain ⟨w, a, n, e', rfl, hle, hw, he', h₁, h₂⟩ :=
          hnew e List.mem_cons_self
        have hwin := dir_le hv hle hw
        refine ⟨⟨?_, e'.address, (h.mine _ hwin (dir_lt w) _ (page_lt w) e'
          he').append, h₁, h₂⟩, ih fun e he =>
            hnew e (List.mem_cons_of_mem _ he)⟩
        rw [dir_eq hw] at hwin
        omega
  · have hidle' : ¬ InUse M.log f := fun hin =>
      hidle (hin.imp (hkernel f).2 (huser f).2)
    refine (h.idle f hf hidle').trans (hpage f hf fun d h₁ h₂ p hlt e he
      heq => hidle' (.inr ?_))
    rw [← heq]
    exact (hs.frames ptable hp d h₁ h₂ p hlt e he).2.1

/-- What the others read is as it was. -/
theorem Filling.confined (h : Filling M₀ M dm dirs ptable new)
    (hM₀ : Spaces M₀ dm dirs) (hp : ptable ∈ dirs) :
    Confined M₀ M dirs ptable new := by
  have hs := h.owned.spaces
  refine ⟨h.log, h.copies, fun t ht hno => h.kept t ht fun hpriv =>
    hno ⟨hs.kernel_of_private hp hpriv, hpriv⟩, fun q hq hne v hv => ?_⟩
  have hsame := h.theirs q hq hne _ hv (dir_lt v) _ (page_lt v)
  rw [readByte, readByte]
  cases he : pteAt M₀.mem q (dir v) (page v) with
  | none =>
      rw [he] at hsame
      have hnone : ∀ {M : Machine}, Spaces M dm dirs →
          pteAt M.mem q (dir v) (page v) = none →
          translate M.mem q v = none := by
        intro M hM hno
        cases ha : translate M.mem q v with
        | none => rfl
        | some a =>
            obtain ⟨e, he, _⟩ := hM.toTables.translate_above hq hv ha
            rw [hno] at he
            cases he
      rw [hnone hs hsame, hnone hM₀ he]
      rfl
  | some e =>
      rw [he] at hsame
      rw [translate_of_pteAt he, translate_of_pteAt hsame]
      refine congrArg some (h.kept e.address (address_dvd e) (fun hpriv => ?_)
        (fun hg => ?_) _ (Nat.mod_lt _ (by decide)))
      · exact (hs.frames q hq _ hv (dir_lt v) _ (page_lt v) e hsame).2.2
          (hs.kernel_of_private hp hpriv)
      · exact h.apart _ hg q hq hne _ hv (dir_lt v) _ (page_lt v) e he rfl

/-! ## Before anything is known of the copies

A page table that is refused becomes the null page, and what is read there is
no table. The window stands all the same as long as the copies are confined. -/

structure Watched (M₀ M : Machine) (dm : Nat) (dirs : List Nat)
    (new : List Event) : Prop where
  log : M.log = new ++ M₀.log
  window : CopiesConfined new → WindowInv M dm dirs
  given : ∀ f, Given new f → 4096 ∣ f ∧ f ∉ dm :: dirs

theorem Watched.start (mm : PageManager) (h : Owned M dm dirs)
    (hp : ptable ∈ dirs) :
    ∃ new, Watched M (resetAddressSpace mm M (some ptable) ptable).2 dm dirs
      new := by
  obtain ⟨hreleased, _⟩ := resetAddressSpace_spec mm h hp
  obtain ⟨new, hlog, hnew⟩ := hreleased.log
  refine ⟨new, hlog, fun _ => hreleased.owned.spaces.window, fun f hf => ?_⟩
  obtain ⟨_, _, heq, _⟩ := hnew _ hf.2
  cases heq

theorem Watched.vmalloc (hfresh : mm.Fresh) (hM₀ : WindowInv M₀ dm dirs)
    (h : Watched M₀ M dm dirs new) (hp : ptable ∈ dirs) (size v : Nat) :
    ∃ new', Watched M₀ (vmalloc mm M size ptable v).2 dm dirs new' := by
  obtain ⟨new', hlog, hnew⟩ := vmalloc_logged hfresh M size ptable v
  refine ⟨new' ++ new, ?_, fun hcopies => (h.window hcopies.of_append).vmalloc
    hfresh hp size v, fun f hf => ?_⟩
  · rw [hlog, h.log, List.append_assoc]
  rcases List.mem_append.1 hf.2 with hmem | hmem
  · obtain ⟨haligned, hunused⟩ := hnew _ hmem
    refine ⟨haligned, fun hdir => hunused.resolve_left hf.1 (.inl ?_)⟩
    rw [h.log]
    exact kernel_append (hM₀.kernel f hdir)
  · exact h.given f ⟨hf.1, hmem⟩

/-- A confined copy misses every directory. -/
theorem Watched.copy (h : Watched M₀ M dm dirs new) {v : Nat} (h₀ : v ≠ 0)
    (hv : v < 4294967296) (buffer : Nat → UInt8) (size : Nat) :
    ∃ new', Watched M₀ (copyIn M ptable v (some buffer) size false).2.1 dm
      dirs new' := by
  have hmove : MoveRule ptable buffer v size fun _ M =>
      ∃ new, Watched M₀ M dm dirs new := by
    rintro pos M n ⟨new, h⟩ _ _ _ _ _
    refine ⟨.copy (v + pos) _ n :: new, congrArg (List.cons _) h.log,
      fun ⟨⟨_, f, hf, h₁, h₂⟩, hcopies⟩ => ?_, fun f hf => h.given f ⟨hf.1, ?_⟩⟩
    · obtain ⟨haligned, hno⟩ := h.given f hf
      exact ((h.window hcopies).splice haligned hno h₁ h₂).push
        fun _ heq => by cases heq
    · exact (List.mem_cons.1 hf.2).resolve_left fun heq => by cases heq
  obtain ⟨_, _, hwatched, _⟩ := copyIn_rule hmove ⟨new, h⟩ h₀ hv
  exact hwatched

end Iposix.Vm
