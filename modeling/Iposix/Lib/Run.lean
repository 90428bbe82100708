/-!
# Runs of a machine

A machine takes a state and a call to the next state, or gets stuck. `Along`
says of a run that it never gets stuck and that a property holds in each of
its states, `Meets` that each of its calls meets a condition when it is made.

`along_iff_meets` is the rule for a machine that keeps the property exactly
when its calls meet the condition: what one step does, a run does.
-/

namespace Iposix.Lib

universe u v

variable {σ : Type u} {ι : Type v} (step : σ → ι → Option σ)

def Along (P : σ → Prop) : σ → List ι → Prop
  | s, [] => P s
  | s, i :: l => P s ∧ ∃ t, step s i = some t ∧ Along P t l

def Meets (C : σ → ι → Prop) : σ → List ι → Prop
  | _, [] => True
  | s, i :: l => C s i ∧ ∀ t, step s i = some t → Meets C t l

/-- The run never gets stuck, and each of its steps is one of `R`. -/
def Every (R : σ → ι → σ → Prop) : σ → List ι → Prop
  | _, [] => True
  | s, i :: l => ∃ t, step s i = some t ∧ R s i t ∧ Every R t l

variable {step}

/-! ## Running a machine decides both -/

instance decidableAlong {P : σ → Prop} [∀ s, Decidable (P s)] :
    (s : σ) → (l : List ι) → Decidable (Along step P s l)
  | s, [] => inferInstanceAs (Decidable (P s))
  | s, i :: l =>
      match h : step s i with
      | none => isFalse fun ⟨_, _, ht, _⟩ => nomatch h.symm.trans ht
      | some t =>
          let _ : Decidable (Along step P t l) := decidableAlong t l
          decidable_of_iff (P s ∧ Along step P t l)
            ⟨fun ⟨hP, hl⟩ => ⟨hP, t, h, hl⟩, fun ⟨hP, _, ht, hl⟩ =>
              ⟨hP, Option.some.inj (ht.symm.trans h) ▸ hl⟩⟩

instance decidableMeets {C : σ → ι → Prop} [∀ s i, Decidable (C s i)] :
    (s : σ) → (l : List ι) → Decidable (Meets step C s l)
  | _, [] => inferInstanceAs (Decidable True)
  | s, i :: l =>
      match h : step s i with
      | none => decidable_of_iff (C s i)
          ⟨fun hC => ⟨hC, fun _ ht => nomatch h.symm.trans ht⟩, And.left⟩
      | some t =>
          let _ : Decidable (Meets step C t l) := decidableMeets t l
          decidable_of_iff (C s i ∧ Meets step C t l)
            ⟨fun ⟨hC, hl⟩ => ⟨hC, fun _ ht =>
                Option.some.inj (h.symm.trans ht) ▸ hl⟩,
              fun ⟨hC, hl⟩ => ⟨hC, hl t h⟩⟩

/-! ## Invariants -/

theorem Along.head {P : σ → Prop} {s : σ} {l : List ι}
    (h : Along step P s l) : P s := by
  cases l with
  | nil => exact h
  | cons i l => exact h.1

theorem along_iff_meets {I P : σ → Prop} {V C : σ → ι → Prop}
    (hstep : ∀ s i, I s → P s → V s i →
      ∃ t, step s i = some t ∧ I t ∧ (P t ↔ C s i)) :
    ∀ {s : σ} {l : List ι}, I s → P s → Meets step V s l →
      (Along step P s l ↔ Meets step C s l) := by
  intro s l
  induction l generalizing s with
  | nil => intro _ hP _; exact iff_of_true hP trivial
  | cons i l ih =>
      intro hI hP ⟨hV, hrest⟩
      obtain ⟨t, ht, hIt, hiff⟩ := hstep s i hI hP hV
      constructor
      · intro ⟨_, t', ht', halong⟩
        rw [ht] at ht'
        cases ht'
        refine ⟨hiff.1 halong.head, fun t' ht' => ?_⟩
        rw [ht] at ht'
        cases ht'
        exact (ih hIt halong.head (hrest t ht)).1 halong
      · intro ⟨hC, hmeets⟩
        exact ⟨hP, t, ht,
          (ih hIt (hiff.2 hC) (hrest t ht)).2 (hmeets t ht)⟩

/-- An invariant that every allowed call keeps holds all along a run. -/
theorem along_of_invariant {I P : σ → Prop} {V : σ → ι → Prop}
    (hI : ∀ s, I s → P s)
    (hstep : ∀ s i, I s → V s i → ∃ t, step s i = some t ∧ I t) :
    ∀ {s : σ} {l : List ι}, I s → Meets step V s l → Along step P s l := by
  intro s l
  induction l generalizing s with
  | nil => intro h _; exact hI s h
  | cons i l ih =>
      intro h ⟨hV, hrest⟩
      obtain ⟨t, ht, hIt⟩ := hstep s i h hV
      exact ⟨hI s h, t, ht, ih hIt (hrest t ht)⟩

/-- An invariant under which every allowed step is one of `R`. -/
theorem every_of_invariant {I : σ → Prop} {V : σ → ι → Prop}
    {R : σ → ι → σ → Prop}
    (hstep : ∀ s i, I s → V s i → ∃ t, step s i = some t ∧ I t ∧ R s i t) :
    ∀ {s : σ} {l : List ι}, I s → Meets step V s l → Every step R s l := by
  intro s l
  induction l generalizing s with
  | nil => intro _ _; exact trivial
  | cons i l ih =>
      intro h ⟨hV, hrest⟩
      obtain ⟨t, ht, hIt, hR⟩ := hstep s i h hV
      exact ⟨t, ht, hR, ih hIt (hrest t ht)⟩

/-- The property holds where the run ends. -/
theorem Along.last {P : σ → Prop} {s t : σ} {l : List ι}
    (h : Along step P s l) (ht : l.foldlM step s = some t) : P t := by
  induction l generalizing s with
  | nil =>
      cases ht
      exact h
  | cons i l ih =>
      obtain ⟨_, u, hu, hl⟩ := h
      rw [List.foldlM_cons, hu] at ht
      exact ih hl ht

theorem Meets.and {V C : σ → ι → Prop} : ∀ {s : σ} {l : List ι},
    Meets step V s l → Meets step C s l →
      Meets step (fun s i => V s i ∧ C s i) s l := by
  intro s l
  induction l generalizing s with
  | nil => intro _ _; exact trivial
  | cons i l ih =>
      intro ⟨hV, hV'⟩ ⟨hC, hC'⟩
      exact ⟨⟨hV, hC⟩, fun t ht => ih (hV' t ht) (hC' t ht)⟩

theorem meets_of_forall {C : σ → ι → Prop} : ∀ {l : List ι},
    (∀ i, i ∈ l → ∀ s, C s i) → ∀ s, Meets step C s l := by
  intro l
  induction l with
  | nil => intro _ _; exact trivial
  | cons i l ih =>
      intro h s
      exact ⟨h i List.mem_cons_self s,
        fun t _ => ih (fun j hj => h j (List.mem_cons_of_mem i hj)) t⟩

/-- A condition that a whole run meets is met by its first part. -/
theorem Meets.left {C : σ → ι → Prop} {l' : List ι} :
    ∀ {s : σ} {l : List ι}, Meets step C s (l ++ l') → Meets step C s l := by
  intro s l
  induction l generalizing s with
  | nil => intro _; exact trivial
  | cons i l ih => exact fun ⟨hC, hrest⟩ => ⟨hC, fun t ht => ih (hrest t ht)⟩

/-- A condition that a whole run meets is met by its second part. -/
theorem Meets.right {C : σ → ι → Prop} {t : σ} {l' : List ι} :
    ∀ {s : σ} {l : List ι}, Meets step C s (l ++ l') →
      l.foldlM step s = some t → Meets step C t l' := by
  intro s l
  induction l generalizing s with
  | nil =>
      intro h ht
      cases ht
      exact h
  | cons i l ih =>
      intro ⟨_, hrest⟩ ht
      rw [List.foldlM_cons] at ht
      obtain ⟨u, hu, hlast⟩ := Option.bind_eq_some_iff.1 ht
      exact ih (hrest u hu) hlast

end Iposix.Lib
