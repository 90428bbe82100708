/-!
# Doubly linked lists

A doubly linked list in memory, cut out of its surroundings: `Links node p l n`
says that the nodes of `l` are linked in this order, that the first of them
has `p` before it and the last has `n` behind it. What it means for a node to
have a node before and behind it, `node x p n`, is a parameter, as is the
address of a node; `p` and `n` may be null.

Everything a list operation needs is `append`: it cuts a list anywhere and
puts it together again.
-/

namespace Iposix.Lib

universe u

variable {α : Type u} (addr : α → Nat)

/-- The address of the first node, or of what follows. -/
def firstAddr (n : Nat) : List α → Nat
  | [] => n
  | x :: _ => addr x

/-- The address of the last node, or of what comes before. -/
def lastAddr : Nat → List α → Nat
  | p, [] => p
  | _, x :: l => lastAddr (addr x) l

def Links (node : α → Nat → Nat → Prop) : Nat → List α → Nat → Prop
  | _, [], _ => True
  | p, x :: l, n => node x p (firstAddr addr n l) ∧ Links node (addr x) l n

variable {addr}

@[simp] theorem firstAddr_append (n : Nat) (l k : List α) :
    firstAddr addr n (l ++ k) = firstAddr addr (firstAddr addr n k) l := by
  cases l <;> rfl

@[simp] theorem lastAddr_append (p : Nat) (l k : List α) :
    lastAddr addr p (l ++ k) = lastAddr addr (lastAddr addr p l) k := by
  induction l generalizing p with
  | nil => rfl
  | cons x l ih => exact ih (addr x)

namespace Links

variable {node node' : α → Nat → Nat → Prop}

theorem append {k : List α} {n : Nat} : ∀ {l : List α} {p : Nat},
    Links addr node p (l ++ k) n ↔
      Links addr node p l (firstAddr addr n k) ∧
        Links addr node (lastAddr addr p l) k n := by
  intro l
  induction l with
  | nil => intro p; exact ⟨fun h => ⟨trivial, h⟩, fun h => h.2⟩
  | cons x l ih =>
      intro p
      rw [List.cons_append, Links, ih, Links, firstAddr_append, and_assoc]
      rfl

/-- A list cut at one of its nodes. -/
theorem cut {l k : List α} {x : α} {p n : Nat} :
    Links addr node p (l ++ x :: k) n ↔
      Links addr node p l (addr x) ∧
        node x (lastAddr addr p l) (firstAddr addr n k) ∧
        Links addr node (addr x) k n := append

theorem mono : ∀ {l : List α} {p n : Nat}, Links addr node p l n →
    (∀ x, x ∈ l → ∀ q r, node x q r → node' x q r) →
    Links addr node' p l n := by
  intro l
  induction l with
  | nil => intro p n _ _; exact trivial
  | cons x l ih =>
      intro p n ⟨hx, hl⟩ hmono
      exact ⟨hmono x List.mem_cons_self _ _ hx,
        ih hl fun y hy => hmono y (List.mem_cons_of_mem x hy)⟩

end Links

variable (addr) in
/-- The last node of a list that has one. -/
theorem lastAddr_mem (p : Nat) : ∀ {l : List α}, l ≠ [] →
    ∃ x, x ∈ l ∧ lastAddr addr p l = addr x := by
  intro l
  induction l generalizing p with
  | nil => intro h; exact absurd rfl h
  | cons x l ih =>
      intro _
      cases l with
      | nil => exact ⟨x, List.mem_cons_self, rfl⟩
      | cons y l =>
          obtain ⟨z, hz, heq⟩ := ih (addr x) (List.cons_ne_nil y l)
          exact ⟨z, List.mem_cons_of_mem x hz, heq⟩

end Iposix.Lib
