import Iposix.Proofs.HeapBounds

/-!
# Frees of what is not held

`kernel_free` looks at the bytes in front of an address: if a header that says it
describes this address would lie there, the address is freed. Nothing is asked
about the chain or about what the block is used for, and a header keeps its
contents when its block is freed or merged into another one. So a block can be
freed a second time, and after a merge this damages the chain.

An address is judged right exactly if it is the start of a block that is held or
no such bytes lie in front of it. A free that is refused changes nothing, so
illegal frees of this kind can be mixed into every session.
-/

namespace Iposix.Mm

open Iposix.Lib Splitted FuStructure

/-- The bytes in front of `addr` pass for the header of its block. -/
def HeaderInFront (s : Splitted) (addr : Nat) : Prop :=
  u32 ((addr : Int) - SIZEOF) ≠ 0 ∧
    addr = allocatedMemory s.mem (u32 ((addr : Int) - SIZEOF))

def Live (blocks : List Alloc) (addr : Nat) : Prop :=
  ∃ a, a ∈ blocks ∧ a.addr = addr

/-- The call accepts the address exactly if a block that is held starts there,
and changes nothing otherwise. -/
structure Judges (σ : Session) (free : Nat → Bool × Splitted) (addr : Nat) :
    Prop where
  answer : (free addr).1 = true ↔ Live σ.blocks addr
  refused : (free addr).1 = false → (free addr).2 = σ.manager

/-- A call of a session, or `kernel_free` of any address. -/
inductive FreeCall where
  | call (c : Call)
  | free (addr : Nat)

namespace Session

def stepFree (σ : Session) : FreeCall → Option Session
  | .call c => σ.step c
  | .free addr =>
      some { σ with
        manager := (σ.manager.kernelFree addr).2
        blocks := match σ.blocks.find? fun a => decide (a.addr = addr) with
          | some a => σ.blocks.erase a
          | none => σ.blocks }

/-- An address that is freed is held, or no header seems to lie in front of it. -/
def Checked (σ : Session) : FreeCall → Prop
  | .call c => σ.Asks c ∧ σ.Tame c
  | .free addr => Live σ.blocks addr ∨ ¬ HeaderInFront σ.manager addr

/-- The blocks held are the used blocks of a well-formed chain, and frees are
judged by the bytes in front: wrongly so at the start of every free block of the
chain. -/
structure FreesJudged (σ : Session) : Prop where
  chain : ∃ L, HeapInv σ.manager L ∧ Holds L σ.blocks ∧
    ∀ x, x ∈ L → x.free = true → HeaderInFront σ.manager (x.addr + 24) ∧
      ¬ Judges σ σ.manager.kernelFree (x.addr + 24)
  kernelFree : ∀ addr, Judges σ σ.manager.kernelFree addr ↔
    Live σ.blocks addr ∨ ¬ HeaderInFront σ.manager addr
  free : ∀ addr, Judges σ (σ.manager.free · true) addr ↔
    Live σ.blocks addr ∨ ¬ HeaderInFront σ.manager addr ∨
      addr < σ.manager.firstAddress ∨ σ.manager.curKernelBound < addr

end Session

variable {s : Splitted} {L : List Block} {blocks : List Alloc} {σ : Session}
  {addr : Nat}

/-! ## One free -/

theorem kernelFree_true_iff : (s.kernelFree addr).1 = true ↔ HeaderInFront s addr := by
  rw [kernelFree]
  dsimp only
  split
  next h => exact iff_of_true rfl h
  next h => exact iff_of_false (fun hbad => by cases hbad) h

theorem kernelFree_refused (h : ¬ HeaderInFront s addr) :
    s.kernelFree addr = (false, s) := by
  rw [kernelFree]
  exact if_neg h

/-- In front of the memory of each block, used or free, lies its header. -/
theorem HeapInv.headerInFront (h : HeapInv s L) {x : Block} (hx : x ∈ L) :
    HeaderInFront s (x.addr + 24) := by
  obtain ⟨l, k, rfl⟩ := List.append_of_mem hx
  obtain ⟨_, _, _, _, m, hgo, _⟩ := kernelFree_spec h
  exact kernelFree_true_iff.1 (congrArg Prod.fst hgo)

theorem Holds.headerInFront (h : HeapInv s L) (hh : Holds L blocks)
    (hlive : Live blocks addr) : HeaderInFront s addr := by
  obtain ⟨a, ha, rfl⟩ := hlive
  obtain ⟨x, hx, _, haddr, _⟩ := hh.used a ha
  exact haddr ▸ h.headerInFront hx

/-- The start of a free block is taken for that of a block held. -/
theorem HeapInv.freed_accepted (h : HeapInv s L) (hh : Holds L blocks) {x : Block}
    (hx : x ∈ L) (hfree : x.free = true) :
    HeaderInFront s (x.addr + 24) ∧ ¬ Live blocks (x.addr + 24) := by
  refine ⟨h.headerInFront hx, ?_⟩
  rintro ⟨a, ha, haddr⟩
  obtain ⟨y, hy, hused, hya, _⟩ := hh.used a ha
  obtain rfl : y = x := h.heap.tiles.injective hy hx (by omega)
  rw [hused] at hfree
  cases hfree

theorem judges_kernelFree_iff (h : HeapInv σ.manager L) (hh : Holds L σ.blocks) :
    Judges σ σ.manager.kernelFree addr ↔
      Live σ.blocks addr ∨ ¬ HeaderInFront σ.manager addr := by
  constructor
  · intro hj
    rw [or_iff_not_imp_right, not_not]
    exact fun hlooks => hj.answer.1 (kernelFree_true_iff.2 hlooks)
  · intro hcond
    refine ⟨kernelFree_true_iff.trans ⟨fun hlooks => ?_, hh.headerInFront h⟩,
      fun hfalse => ?_⟩
    · exact hcond.resolve_right (not_not_intro hlooks)
    · have hno := mt kernelFree_true_iff.2 (Bool.eq_false_iff.1 hfalse)
      rw [kernelFree_refused hno]

theorem judges_free_iff (hinit : σ.manager.isInitialized = true)
    (h : HeapInv σ.manager L) (hh : Holds L σ.blocks) :
    Judges σ (σ.manager.free · true) addr ↔
      Live σ.blocks addr ∨ ¬ HeaderInFront σ.manager addr ∨
        addr < σ.manager.firstAddress ∨ σ.manager.curKernelBound < addr := by
  by_cases hin : σ.manager.firstAddress ≤ addr ∧ addr ≤ σ.manager.curKernelBound
  · have hpass : σ.manager.free addr true = σ.manager.kernelFree addr := by
      rw [free_kernel, if_pos ⟨hinit, hin⟩]
    have hiff : Judges σ (σ.manager.free · true) addr ↔
        Judges σ σ.manager.kernelFree addr := by
      constructor
      · exact fun hj => ⟨hpass ▸ hj.answer, hpass ▸ hj.refused⟩
      · exact fun hj => ⟨hpass.symm ▸ hj.answer, hpass.symm ▸ hj.refused⟩
    rw [hiff, judges_kernelFree_iff h hh]
    refine or_congr_right ⟨.inl, fun hor => hor.resolve_right ?_⟩
    omega
  · have hpass : σ.manager.free addr true = (false, σ.manager) := by
      rw [free_kernel, if_neg fun hand => hin hand.2]
    refine iff_of_true ⟨iff_of_false ?_ ?_, fun _ => ?_⟩
      (.inr (.inr (by omega)))
    · rw [hpass]
      exact Bool.false_ne_true
    · rintro ⟨a, ha, rfl⟩
      obtain ⟨x, hx, _, haddr, _⟩ := hh.used a ha
      have hb := h.heap.tiles.bounds hx
      have hstop : x.stop = x.addr + 24 + x.size := rfl
      omega
    · rw [hpass]

/-! ## Runs -/

theorem SessionInv.freesJudged (h : SessionInv σ) : σ.FreesJudged := by
  obtain ⟨_, L, hrun⟩ := h.heap
  refine ⟨⟨L, hrun.heap, hrun.holds, fun x hx hfree => ?_⟩,
    fun _ => judges_kernelFree_iff hrun.heap hrun.holds,
    fun _ => judges_free_iff h.isInitialized hrun.heap hrun.holds⟩
  obtain ⟨hfront, hlive⟩ := hrun.heap.freed_accepted hrun.holds hx hfree
  exact ⟨hfront, fun hj => hlive (hj.answer.1 (kernelFree_true_iff.2 hfront))⟩

theorem SessionInv.stepFree (h : SessionInv σ) {c : FreeCall}
    (hchecked : σ.Checked c) : ∃ σ', σ.stepFree c = some σ' ∧ SessionInv σ' := by
  cases c with
  | call c => exact h.asks hchecked.1 hchecked.2
  | free addr =>
      refine ⟨_, rfl, ?_⟩
      rcases hfind : σ.blocks.find? fun a => decide (a.addr = addr) with _ | a
      · -- no block that is held starts there, so the free is refused
        have hlive : ¬ Live σ.blocks addr := by
          rintro ⟨a, ha, haddr⟩
          exact List.find?_eq_none.1 hfind a ha (decide_eq_true haddr)
        simp only [hfind, kernelFree_refused (hchecked.resolve_left hlive)]
        exact h
      · have ha := List.mem_of_find?_eq_some hfind
        have haddr : a.addr = addr := by simpa using List.find?_some hfind
        simp only [hfind]
        rw [← haddr, ← h.free_block ha]
        exact h.freeBlock ha

/-- In every state of a run whose frees are checked the chain is intact, and an
address is judged right exactly if it is held or no header seems to lie in front
of it. -/
theorem kernelFree_judges {mem : Nat → UInt8} {area : MemoryArea}
    {calls : List FreeCall} (hnull : 8 ≤ (initialised mem area).firstAddress)
    (hchecked : Meets Session.stepFree Session.Checked
      ⟨initialised mem area, [], []⟩ calls) :
    Along Session.stepFree Session.FreesJudged ⟨initialised mem area, [], []⟩
      calls :=
  along_of_invariant (fun _ h => h.freesJudged) (fun _ _ h => h.stepFree)
    (sessionInv_initialised hnull) hchecked

instance (s : Splitted) (addr : Nat) : Decidable (HeaderInFront s addr) :=
  inferInstanceAs (Decidable (_ ∧ _))

instance (blocks : List Alloc) (addr : Nat) : Decidable (Live blocks addr) :=
  inferInstanceAs (Decidable (∃ a, a ∈ blocks ∧ a.addr = addr))

instance (σ : Session) : (c : Call) → Decidable (σ.Asks c)
  | .malloc _ _ _ => inferInstanceAs (Decidable (_ → _ → _))
  | .freeBlock _ => inferInstanceAs (Decidable (_ ∈ _))
  | .freePage _ => inferInstanceAs (Decidable (_ ∈ _))
  | .write _ _ => inferInstanceAs (Decidable (_ ∨ _))

instance (σ : Session) : (c : FreeCall) → Decidable (σ.Checked c)
  | .call _ => inferInstanceAs (Decidable (_ ∧ _))
  | .free _ => inferInstanceAs (Decidable (_ ∨ _))

/-- Two blocks are made, an address between them is tried, and the first one is
freed. -/
theorem smallArea_judges :
    Along Session.stepFree Session.FreesJudged ⟨smallArea, [], []⟩
      [.call (.malloc 8 true false), .call (.malloc 8 true false),
        .free 0x10101c, .free 0x101018] :=
  kernelFree_judges (by decide +kernel) (by decide +kernel)

/-- Two blocks are made and both are freed, which leaves one block of 40 bytes.
The second one is freed again: the header it had is still there and linked to
the first block, which grows over the end of the heap. -/
theorem smallArea_freedTwice :
    ∃ σ, [FreeCall.call (.malloc 8 true false), .call (.malloc 8 true false),
        .free 0x101018, .free 0x101038].foldlM Session.stepFree
          ⟨smallArea, [], []⟩ = some σ ∧ σ.blocks = [] ∧
      (σ.manager.kernelFree 0x101038).1 = true ∧
      ¬ Judges σ σ.manager.kernelFree 0x101038 ∧
      size σ.manager.mem 0x101000 = 40 ∧
      size (σ.manager.kernelFree 0x101038).2.mem 0x101000 = 72 ∧
      σ.manager.curKernelBound = 0x101040 := by
  have hgo : ([FreeCall.call (.malloc 8 true false), .call (.malloc 8 true false),
      .free 0x101018, .free 0x101038].foldlM Session.stepFree
        ⟨smallArea, [], []⟩).map (fun σ => (σ.blocks,
          (σ.manager.kernelFree 0x101038).1, size σ.manager.mem 0x101000,
          size (σ.manager.kernelFree 0x101038).2.mem 0x101000,
          σ.manager.curKernelBound)) =
      some ([], true, 40, 72, 0x101040) := by
    decide +kernel
  obtain ⟨σ, hσ, hval⟩ := Option.map_eq_some_iff.1 hgo
  simp only [Prod.mk.injEq] at hval
  obtain ⟨hblocks, htrue, hbefore, hafter, hbound⟩ := hval
  refine ⟨σ, hσ, hblocks, htrue, fun hj => ?_, hbefore, hafter, hbound⟩
  obtain ⟨a, ha, _⟩ := hj.answer.1 htrue
  rw [hblocks] at ha
  cases ha

end Iposix.Mm
