import Iposix.Proofs.FreeEntries

/-!
# What can be given back

`malloc` goes by both of its flags, `free` only by one. A page that was asked
for as kernel memory comes from the upper end, and is then looked for in the
heap: it cannot be freed. A user page is freed if `page_free` finds the entry
that was marked, so not page zero and not where the two count differently.

A block of the heap is always taken back, and what it covered is part of a free
block then, so that a request of its size is served without growing the heap.
-/

namespace Iposix.Mm

open Iposix.Lib Splitted FuStructure

/-- `free` takes the block back, and its memory can be had again. -/
structure BlockReturns (s : Splitted) (a : Alloc) : Prop where
  accepted : (s.free a.addr true).1 = true
  covered : ∃ L y, HeapInv (s.free a.addr true).2 L ∧ y ∈ L ∧ y.free = true ∧
    y.addr + 24 ≤ a.addr ∧ a.addr + a.size ≤ y.stop
  served : ∀ request, request ≤ a.size → ∃ r t,
    (s.free a.addr true).2.kernelMalloc request = some (r, t) ∧ r ≠ 0 ∧
      t.curKernelBound = s.curKernelBound

/-- `free` takes the page back, and its entry can be given again. -/
structure PageReturns (s : Splitted) (p : Page) : Prop where
  accepted : (s.free p.addr p.kernel).1 = true
  available : ∃ i, i ∈ freeEntrys (s.free p.addr p.kernel).2 ∧
    pageAt s i = p.addr

/-- `page_free` computes the entry of the page, and it is not entry zero. -/
def OwnEntry (s : Splitted) (addr : Nat) : Prop :=
  1 ≤ u32 ((addr : Int) - s.firstAddress) / 4096 ∧
    addr = pageAt s (u32 ((addr : Int) - s.firstAddress) / 4096)

/-- The heap ends right in front of the page, with bytes that pass for the header
of a block there. -/
def Lookalike (s : Splitted) (addr : Nat) : Prop :=
  addr = s.curKernelBound ∧
    allocatedMemory s.mem (u32 ((addr : Int) - (24 : Nat))) = addr

namespace Session

def Returns (σ : Session) : Prop :=
  (∀ a, a ∈ σ.blocks → BlockReturns σ.manager a) ∧
    ∀ p, p ∈ σ.pages →
      (p.kernel = true → ¬ Lookalike σ.manager p.addr) →
      (PageReturns σ.manager p ↔
        p.kernel = false ∧ OwnEntry σ.manager p.addr)

end Session

variable {s : Splitted} {L l l' k k' : List Block} {x y z : Block}
  {σ : Session} {first bound : Nat}

/-! ## Blocks -/

theorem TakenLeft.covers (h : TakenLeft x l l' y)
    (ht : Tiles Block.addr Block.stop first (l ++ x :: k) bound) :
    y.addr ≤ x.addr ∧ y.stop = x.stop := by
  cases h with
  | none => exact ⟨Nat.le_refl _, rfl⟩
  | merged l p hp =>
      rw [List.append_assoc] at ht
      obtain ⟨_, hlt, hx, _⟩ := Tiles.cut.1 ht
      have hstop : p.stop = p.addr + 24 + p.size := rfl
      have hxstop : x.stop = x.addr + 24 + x.size := rfl
      refine ⟨?_, ?_⟩
      · show p.addr ≤ x.addr
        omega
      · show p.addr + 24 + (p.size + 24 + x.size) = x.stop
        omega

theorem TakenRight.covers (h : TakenRight y k z k') :
    z.addr = y.addr ∧ y.stop ≤ z.stop := by
  cases h with
  | none => exact ⟨rfl, Nat.le_refl _⟩
  | merged k n hn =>
      refine ⟨rfl, ?_⟩
      show y.addr + 24 + y.size ≤ y.addr + 24 + (y.size + 24 + n.size)
      omega

/-- A block that is freed ends up in a free block that covers it. -/
theorem kernelFree_covers (h : HeapInv s L) (hx : x ∈ L) :
    ∃ m L' y, s.kernelFree (x.addr + 24) = (true, { s with mem := m }) ∧
      HeapInv { s with mem := m } L' ∧ y ∈ L' ∧ y.free = true ∧
      y.addr ≤ x.addr ∧ x.stop ≤ y.stop := by
  obtain ⟨l, k, rfl⟩ := List.append_of_mem hx
  obtain ⟨l', y, z, k', m, hgo, hleft, hright, hinv, _⟩ := kernelFree_spec h
  obtain ⟨hlo, hhi⟩ := hleft.covers h.heap.tiles
  obtain ⟨haddr, hstop⟩ := hright.covers
  refine ⟨m, _, { z with free := true }, hgo, hinv,
    List.mem_append_right l' List.mem_cons_self, rfl, ?_, ?_⟩
  · show z.addr ≤ x.addr
    omega
  · show x.stop ≤ z.stop
    omega

theorem SessionInv.block_returns (h : SessionInv σ) {a : Alloc}
    (ha : a ∈ σ.blocks) : BlockReturns σ.manager a := by
  obtain ⟨_, L, hrun⟩ := h.heap
  obtain ⟨x, hx, _, haddr, hsize⟩ := hrun.holds.used a ha
  obtain ⟨m, L', y, hgo, hinv, hy, hfree, hlo, hhi⟩ :=
    kernelFree_covers hrun.heap hx
  have hxstop : x.stop = x.addr + 24 + x.size := rfl
  have hystop : y.stop = y.addr + 24 + y.size := rfl
  rw [haddr, ← h.free_block ha] at hgo
  refine ⟨by rw [hgo], ?_, fun request hrequest => ?_⟩
  · rw [hgo]
    exact ⟨L', y, hinv, hy, hfree, by omega, by omega⟩
  · rw [hgo]
    exact kernelMalloc_of_free hinv hy hfree (by omega)

/-! ## Pages -/

theorem pageFree_accepts {addr : Nat}
    (hused : Used s (u32 ((addr : Int) - s.firstAddress) / 4096)) :
    (s.pageFree addr).1 = true := by
  rw [pageFree, PAGE_SIZE]
  dsimp only
  rw [if_neg (Bool.eq_false_iff.1 hused)]

theorem SessionInv.page_returns_iff (h : SessionInv σ) {p : Page}
    (hp : p ∈ σ.pages)
    (hlook : p.kernel = true → ¬ Lookalike σ.manager p.addr) :
    PageReturns σ.manager p ↔
      p.kernel = false ∧ OwnEntry σ.manager p.addr := by
  have hu := h.pages.usable (List.ne_nil_of_mem hp)
  obtain ⟨i, hi, haddr, hused, _, hk⟩ := h.pages.placed p hp
  cases hkernel : p.kernel with
  | true =>
      -- the page is looked for in the heap
      have hfree : σ.manager.free p.addr p.kernel = (false, σ.manager) := by
        rw [hkernel]
        exact free_kernelPage hk fun heq hmem =>
          hlook hkernel ⟨heq, hmem⟩
      refine iff_of_false (fun hret => ?_) fun hbad => ?_
      · have haccepted := hret.accepted
        rw [hfree] at haccepted
        cases haccepted
      · cases hbad.1
  | false =>
      have hfree : σ.manager.free p.addr p.kernel = σ.manager.pageFree p.addr := by
        rw [hkernel]
        exact h.free_userPage hp
      obtain ⟨_, _, hbound, _, hlast, hbm⟩ := pageFree_fields σ.manager p.addr
      have hcleared := pageFree_used (hu.inside hi) p.addr
      constructor
      · rintro ⟨_, j, hj, hpage⟩
        rw [hfree] at hj
        obtain ⟨_, h₁, hnot, _⟩ := mem_freeEntrys.1 hj
        obtain rfl : i = j := pageAt_inj hu.fit hi (haddr.symm.trans hpage.symm)
        -- the entry is not in use any more, so it is the one that was freed
        have hindex : i = u32 ((p.addr : Int) - σ.manager.firstAddress) / 4096 :=
          by_contra fun hne => hnot (hcleared.2 ⟨hused h₁, hne⟩)
        exact ⟨rfl, hindex ▸ h₁, hindex ▸ haddr⟩
      · rintro ⟨_, h₁, hown⟩
        obtain rfl := pageAt_inj hu.fit hi (haddr.symm.trans hown)
        refine ⟨?_, _, ?_, haddr.symm⟩ <;> rw [hfree]
        · exact pageFree_accepts (hused h₁)
        · refine mem_freeEntrys.2 ⟨hbm ▸ hi, h₁,
            fun hstill => (hcleared.1 hstill).2 rfl, ?_⟩
          rw [hbound, pageAt_congr hlast hbm, ← haddr]
          exact hk

/-- All along a tame run every block can be given back, and of the pages the
user pages with an entry of their own. -/
theorem held_returns {mem : Nat → UInt8} {area : MemoryArea} {calls : List Call}
    (hnull : 8 ≤ (initialised mem area).firstAddress)
    (hlegal : Meets Session.step Session.Legal ⟨initialised mem area, [], []⟩
      calls)
    (htame : Meets Session.step Session.Tame ⟨initialised mem area, [], []⟩
      calls) :
    Along Session.step Session.Returns ⟨initialised mem area, [], []⟩ calls :=
  along_of_invariant
    (fun _ h => ⟨fun _ ha => h.block_returns ha,
      fun _ hp hlook => h.page_returns_iff hp hlook⟩)
    (fun _ c h => h.step c) (sessionInv_initialised hnull) (hlegal.and htame)

theorem smallArea_returns :
    Along Session.step Session.Returns ⟨smallArea, [], []⟩
      [.malloc 4096 false false, .malloc 100 true false] :=
  held_returns (by decide +kernel) (by decide +kernel) (by decide +kernel)

/-- A page for a page table is got, but it is not taken back. -/
theorem pageTable_stays :
    (smallArea.malloc 4096 true true).map
        (fun r => (r.1, (r.2.free r.1 true).1)) = some (0x10f000, false) ∧
      ∃ t, smallArea.malloc 4096 true true = some (0x10f000, t) ∧
        ¬ PageReturns t ⟨0x10f000, true⟩ := by
  have hgo : (smallArea.malloc 4096 true true).map
      (fun r => (r.1, (r.2.free r.1 true).1)) = some (0x10f000, false) := by
    decide +kernel
  refine ⟨hgo, ?_⟩
  obtain ⟨⟨r, t⟩, ht, hval⟩ := Option.map_eq_some_iff.1 hgo
  obtain ⟨rfl, hrefused⟩ := Prod.mk.inj hval
  refine ⟨t, ht, fun hret => ?_⟩
  have haccepted := hret.accepted
  dsimp only at hrefused haccepted
  rw [hrefused] at haccepted
  cases haccepted

end Iposix.Mm
