import Iposix.Lib.Run
import Mathlib.Logic.Basic

/-!
# Runs that may fault

A checked computation stops where the program would go wrong: at a division by
zero or at an access outside an array. Which of these can happen is a parameter.
A loop that has no bound of its own runs on fuel, and running out of fuel is not
a fault. A computation is safe when it does not stop at a fault.
-/

namespace Iposix.Lib

universe u

variable {φ : Type u} {α β : Type u}

/-- Why a checked computation stopped without a result. -/
inductive Stop (φ : Type u) where
  | fault (f : φ)
  | outOfFuel

abbrev Checked (φ : Type u) (α : Type u) := Except (Stop φ) α

/-- Goes on if `p` holds. -/
def check (p : Prop) [Decidable p] (f : φ) : Checked φ PUnit :=
  if p then .ok ⟨⟩ else .error (.fault f)

def Safe (x : Checked φ α) : Prop := ∀ f, x ≠ .error (.fault f)

theorem safe_ok (a : α) : Safe (.ok a : Checked φ α) := fun _ h => nomatch h

theorem safe_outOfFuel : Safe (.error .outOfFuel : Checked φ α) :=
  fun _ h => nomatch h

theorem not_safe_fault (f : φ) : ¬ Safe (.error (.fault f) : Checked φ α) :=
  fun h => h f rfl

theorem check_of {p : Prop} [Decidable p] (f : φ) (h : p) :
    check p f = .ok ⟨⟩ := if_pos h

theorem check_of_not {p : Prop} [Decidable p] (f : φ) (h : ¬ p) :
    check p f = .error (.fault f) := if_neg h

theorem safe_check_iff {p : Prop} [Decidable p] {f : φ} :
    Safe (check p f) ↔ p := by
  by_cases h : p
  · rw [check_of f h]
    exact ⟨fun _ => h, fun _ => safe_ok _⟩
  · rw [check_of_not f h]
    exact ⟨fun hs => absurd hs (not_safe_fault f), fun hp => absurd hp h⟩

theorem ok_bind (a : α) (k : α → Checked φ β) :
    ((.ok a : Checked φ α) >>= k) = k a := rfl

/-- A computation after another is safe if both are. -/
theorem safe_bind_iff {x : Checked φ α} {k : α → Checked φ β} :
    Safe (x >>= k) ↔ Safe x ∧ ∀ a, x = .ok a → Safe (k a) := by
  cases x with
  | ok a =>
      refine ⟨fun h => ⟨safe_ok a, ?_⟩, fun h => h.2 a rfl⟩
      rintro _ ⟨⟩
      exact h
  | error s =>
      refine ⟨fun h => ⟨fun f hf => ?_, fun _ h => nomatch h⟩, fun h f hf => ?_⟩
      · exact h f (congrArg _ (Except.error.inj hf))
      · exact h.1 f (congrArg _ (Except.error.inj hf))

/-- Only what comes first can fault if the rest never does. -/
theorem safe_bind_iff_left {x : Checked φ α} {k : α → Checked φ β}
    (hk : ∀ a, Safe (k a)) : Safe (x >>= k) ↔ Safe x :=
  safe_bind_iff.trans (and_iff_left fun a _ => hk a)

/-! ## Runs of checked steps -/

variable {σ ι : Type u} {step : σ → ι → Checked φ σ}

/-- The step as one that gets stuck when it stops. -/
def stepOption (step : σ → ι → Checked φ σ) (s : σ) (i : ι) : Option σ :=
  match step s i with
  | .ok t => some t
  | .error _ => none

/-- A run is safe when each of its steps is when it is made. -/
theorem safe_foldlM_iff {C : σ → ι → Prop} (hC : ∀ s i, Safe (step s i) ↔ C s i)
    {s : σ} {l : List ι} :
    Safe (l.foldlM step s) ↔ Meets (stepOption step) C s l := by
  induction l generalizing s with
  | nil => exact iff_of_true (safe_ok s) trivial
  | cons i l ih =>
      rw [List.foldlM_cons, safe_bind_iff, hC, Meets]
      refine and_congr_right fun _ => forall_congr' fun t => ?_
      have hstep : stepOption step s i = some t ↔ step s i = .ok t := by
        rw [stepOption]
        split
        next u hu =>
          rw [hu]
          exact ⟨fun h => congrArg _ (Option.some.inj h),
            fun h => congrArg _ (Except.ok.inj h)⟩
        next e he =>
          rw [he]
          exact iff_of_false (Option.some_ne_none t).symm fun h => by cases h
      rw [hstep]
      exact imp_congr_right fun _ => ih

end Iposix.Lib
