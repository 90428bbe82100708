/-!
# Cells that are set and got

A state has cells, each of which can be set and got. Where setting one cell
changes what is got from that one only, a run of settings is read off the list
of them: the last one of a cell decides, and a cell that was never set has what
it had.
-/

namespace Iposix.Lib

universe u v w

variable {σ : Type u} {κ : Type v} {β : Type w} [BEq κ]
  {get : σ → κ → β} {set : σ → κ × β → σ}

/-- The last update of a cell. -/
def lastUpdate (updates : List (κ × β)) (k : κ) : Option β :=
  updates.reverse.lookup k

theorem lastUpdate_cons (u : κ × β) (updates : List (κ × β)) (k : κ) :
    lastUpdate (u :: updates) k =
      (lastUpdate updates k).or (if k == u.1 then some u.2 else none) := by
  rw [lastUpdate, List.reverse_cons, List.lookup_append, lastUpdate]
  congr 1
  rw [List.lookup_cons, List.lookup_nil]
  cases k == u.1 <;> rfl

theorem get_foldl (h : ∀ s u k, get (set s u) k = if k == u.1 then u.2 else get s k)
    (k : κ) : ∀ (updates : List (κ × β)) (s : σ),
      get (updates.foldl set s) k = (lastUpdate updates k).getD (get s k) := by
  intro updates
  induction updates with
  | nil => intro s; rfl
  | cons u updates ih =>
      intro s
      rw [List.foldl_cons, ih (set s u), h s u k, lastUpdate_cons]
      cases lastUpdate updates k with
      | some b => rfl
      | none => cases k == u.1 <;> rfl

end Iposix.Lib
