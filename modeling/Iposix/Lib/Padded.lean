import Mathlib.Data.List.Basic

/-!
# Padded fields

A field of a fixed width holds a run and is filled up behind it. Where the
filling is told apart from the run by a test, the run is read off again, and so
a field determines its run. Two runs put together with a separator that neither
holds are told apart again as well.
-/

namespace Iposix.Lib

variable {α : Type*} {p : α → Bool} {fill sep : α} {width : Nat} {run run' : List α}

/-- `run`, filled up to `width`. -/
def padded (width : Nat) (fill : α) (run : List α) : List α :=
  run ++ List.replicate (width - run.length) fill

theorem length_padded (h : run.length ≤ width) :
    (padded width fill run).length = width := by
  rw [padded, List.length_append, List.length_replicate,
    Nat.add_sub_cancel' h]

/-- The run is what comes before the filling. -/
theorem takeWhile_padded (hrun : ∀ a, a ∈ run → p a = true) (hfill : p fill = false)
    (width : Nat) : (padded width fill run).takeWhile p = run := by
  have hpad : (List.replicate (width - run.length) fill).takeWhile p = [] := by
    rw [List.takeWhile_replicate, hfill]
    rfl
  rw [padded, List.takeWhile_append_of_pos hrun, hpad, List.append_nil]

/-- A field determines its run. -/
theorem padded_inj (hrun : ∀ a, a ∈ run → p a = true)
    (hrun' : ∀ a, a ∈ run' → p a = true) (hfill : p fill = false) (width : Nat) :
    padded width fill run = padded width fill run' ↔ run = run' := by
  constructor
  · intro h
    rw [← takeWhile_padded hrun hfill width, h, takeWhile_padded hrun' hfill]
  · rintro rfl
    rfl

/-- The second run behind a separator, if there is one. -/
def joined (sep : α) (run ext : List α) : List α :=
  if ext.isEmpty then run else run ++ [sep] ++ ext

theorem joined_cons (a : α) (ext : List α) :
    joined sep run (a :: ext) = run ++ sep :: a :: ext := by
  rw [joined, List.isEmpty_cons, if_neg (by decide), List.append_assoc,
    List.singleton_append]

theorem mem_joined {ext : List α} {a : α} (h : a ∈ joined sep run ext) :
    a ∈ run ∨ a = sep ∨ a ∈ ext := by
  cases ext with
  | nil => exact .inl h
  | cons b ext =>
      rw [joined_cons] at h
      exact (List.mem_append.1 h).imp_right List.mem_cons.1

theorem ne_joined_cons {a : α} {ext : List α} (hrun : sep ∉ run) :
    run ≠ joined sep run' (a :: ext) := by
  rintro rfl
  rw [joined_cons] at hrun
  exact hrun (List.mem_append_right _ List.mem_cons_self)

/-- What was joined is told apart by its first separator. -/
theorem joined_inj {ext ext' : List α} (hrun : sep ∉ run) (hrun' : sep ∉ run')
    (hext : sep ∉ ext) :
    joined sep run ext = joined sep run' ext' ↔ run = run' ∧ ext = ext' := by
  cases ext with
  | nil =>
      cases ext' with
      | nil => exact (and_iff_left rfl).symm
      | cons b ext' =>
          -- the separator of the other one is not in this one
          exact iff_of_false (ne_joined_cons hrun) (by simp)
  | cons a ext =>
      cases ext' with
      | nil =>
          exact iff_of_false (fun h => ne_joined_cons hrun' h.symm) (by simp)
      | cons b ext' =>
          rw [joined_cons, joined_cons,
            List.append_cons_inj_of_notMem hrun hext, and_iff_right rfl]

end Iposix.Lib
