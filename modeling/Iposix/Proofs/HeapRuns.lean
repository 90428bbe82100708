import Iposix.Proofs.KernelHeap
import Mathlib.Data.List.Chain
import Mathlib.Data.List.Nodup

/-!
# Runs of the kernel heap

A caller allocates, frees what it holds and writes into what it holds.
`HeapRun` collects these runs from a freshly set up manager, with the
allocations held and the number of those ever made.

The invariant has three parts. The blocks are the heap's (`HeapInv`). The used
blocks are those held, in both directions (`Holds`). No two neighbours are
free (`Coalesced`): freeing takes in a free neighbour on either side, and what
remains of a cut block is free only where a free block was before.
-/

namespace Iposix.Mm

open Iposix.Lib

/-- A block of the kernel heap as its owner sees it. -/
structure Alloc where
  addr : Nat
  size : Nat
  deriving DecidableEq

/-- The manager after the constructor and `set_memory_areas`. -/
def initialised (mem : Nat → UInt8) (area : MemoryArea) : Splitted :=
  (Splitted.init mem).setMemoryAreas area

/-- `HeapRun s₀ n s live`: from `s₀` to `s` by calls and by writes into live
blocks, with `n` blocks handed out so far of which `live` are held. -/
inductive HeapRun (s₀ : Splitted) : Nat → Splitted → List Alloc → Prop
  | start : HeapRun s₀ 0 s₀ []
  | malloc {n r request : Nat} {s t : Splitted} {live : List Alloc} :
      HeapRun s₀ n s live → NoWrap s request →
      s.kernelMalloc request = some (r, t) → r ≠ 0 →
      HeapRun s₀ (n + 1) t (⟨r, request⟩ :: live)
  | full {n request : Nat} {s t : Splitted} {live : List Alloc} :
      HeapRun s₀ n s live → NoWrap s request →
      s.kernelMalloc request = some (0, t) → HeapRun s₀ n t live
  | free {n : Nat} {b : Bool} {s t : Splitted} {live : List Alloc}
      {a : Alloc} : HeapRun s₀ n s live → a ∈ live →
      s.kernelFree a.addr = (b, t) → HeapRun s₀ n t (live.erase a)
  | write {n j : Nat} {s : Splitted} {live : List Alloc} {a : Alloc}
      (v : UInt8) : HeapRun s₀ n s live → a ∈ live → a.addr ≤ j →
      j < a.addr + a.size →
      HeapRun s₀ n { s with mem := splice s.mem j 1 fun _ => v } live

/-- The used blocks are the allocations held. -/
structure Holds (L : List Block) (live : List Alloc) : Prop where
  used : ∀ a, a ∈ live →
    ∃ x, x ∈ L ∧ x.free = false ∧ x.addr + 24 = a.addr ∧ a.size ≤ x.size
  held : ∀ x, x ∈ L → x.free = false → ∃ a, a ∈ live ∧ a.addr = x.addr + 24
  nodup : (live.map Alloc.addr).Nodup

/-- No two neighbouring blocks are free. -/
def Coalesced (L : List Block) : Prop :=
  L.IsChain fun x y => x.free = true → y.free = false

/-! ## The blocks held -/

variable {L L' l l' k k' : List Block} {live : List Alloc} {x y z : Block}
  {request bound first : Nat}

/-- Serving a request adds one used block, where none was. -/
theorem Served.used_iff (h : Served L request bound x L') (y : Block) :
    y ∈ L' ∧ y.free = false ↔ y = x ∨ (y ∈ L ∧ y.free = false) := by
  cases h with
  | extend hx =>
      subst hx
      simp only [List.mem_append, List.mem_singleton]
      grind
  | whole l k w hL hfree hsize hx =>
      subst hx hL
      simp only [List.mem_append, List.mem_cons]
      grind
  | split l k w hL hfree hsize hx =>
      subst hx hL
      have hrest : (w.rest request).free = true := rfl
      simp only [List.mem_append, List.mem_cons]
      grind

theorem Served.spec (h : Served L request bound x L')
    (ht : Tiles Block.addr Block.stop first L bound) :
    x.free = false ∧ request ≤ x.size ∧ L' ≠ [] ∧
      ∀ y, y ∈ L → y.free = false → y.addr ≠ x.addr := by
  cases h with
  | extend hx =>
      subst hx
      refine ⟨rfl, Nat.le_refl _, by simp, fun y hy _ => ?_⟩
      have hb := ht.bounds hy
      show y.addr ≠ bound
      omega
  | whole l k w hL hfree hsize hx =>
      subst hx hL
      refine ⟨rfl, hsize, by simp, fun y hy hused heq => ?_⟩
      rw [ht.injective hy (List.mem_append_right l List.mem_cons_self) heq,
        hfree] at hused
      cases hused
  | split l k w hL hfree hsize hx =>
      subst hx hL
      refine ⟨rfl, Nat.le_refl _, by simp, fun y hy hused heq => ?_⟩
      rw [ht.injective hy (List.mem_append_right l List.mem_cons_self) heq,
        hfree] at hused
      cases hused

theorem TakenLeft.used_iff (h : TakenLeft x l l' y) (z : Block) :
    z ∈ l' ∧ z.free = false ↔ z ∈ l ∧ z.free = false := by
  cases h with
  | none => exact Iff.rfl
  | merged l p hp =>
      simp only [List.mem_append, List.mem_singleton]
      grind

theorem TakenRight.used_iff (h : TakenRight x k y k') (z : Block) :
    z ∈ k' ∧ z.free = false ↔ z ∈ k ∧ z.free = false := by
  cases h with
  | none => exact Iff.rfl
  | merged k n hn =>
      simp only [List.mem_cons]
      grind

theorem Holds.served (h : Holds L live) (hs : Served L request bound x L')
    (ht : Tiles Block.addr Block.stop first L bound) :
    Holds L' (⟨x.addr + 24, request⟩ :: live) := by
  obtain ⟨hused, hsize, _, hne⟩ := hs.spec ht
  refine ⟨fun a ha => ?_, fun y hy hyused => ?_, ?_⟩
  · rcases List.mem_cons.1 ha with rfl | ha
    · exact ⟨x, ((hs.used_iff x).2 (.inl rfl)).1, hused, rfl, hsize⟩
    · obtain ⟨y, hy, hyused, haddr, hle⟩ := h.used a ha
      exact ⟨y, ((hs.used_iff y).2 (.inr ⟨hy, hyused⟩)).1, hyused, haddr, hle⟩
  · rcases (hs.used_iff y).1 ⟨hy, hyused⟩ with rfl | ⟨hy, _⟩
    · exact ⟨_, List.mem_cons_self, rfl⟩
    · obtain ⟨a, ha, haddr⟩ := h.held y hy hyused
      exact ⟨a, List.mem_cons_of_mem _ ha, haddr⟩
  · refine List.nodup_cons.2 ⟨fun hmem => ?_, h.nodup⟩
    obtain ⟨a, ha, haddr⟩ := List.mem_map.1 hmem
    obtain ⟨y, hy, hyused, hyaddr, _⟩ := h.used a ha
    have hxy : a.addr = x.addr + 24 := haddr
    exact hne y hy hyused (by omega)

/-- The used blocks after freeing `x` are those before but `x`. -/
theorem freed_used_iff (hl : TakenLeft x l l' y) (hr : TakenRight y k z k')
    (w : Block) :
    w ∈ l' ++ { z with free := true } :: k' ∧ w.free = false ↔
      (w ∈ l ∨ w ∈ k) ∧ w.free = false := by
  have hl' := hl.used_iff w
  have hr' := hr.used_iff w
  simp only [List.mem_append, List.mem_cons]
  constructor
  · intro ⟨hw, hused⟩
    rcases hw with hw | hw | hw
    · exact ⟨.inl (hl'.1 ⟨hw, hused⟩).1, hused⟩
    · rw [hw] at hused
      cases hused
    · exact ⟨.inr (hr'.1 ⟨hw, hused⟩).1, hused⟩
  · intro ⟨hw, hused⟩
    rcases hw with hw | hw
    · exact ⟨.inl (hl'.2 ⟨hw, hused⟩).1, hused⟩
    · exact ⟨.inr (.inr (hr'.2 ⟨hw, hused⟩).1), hused⟩

theorem Holds.freed {a : Alloc} (h : Holds (l ++ x :: k) live) (ha : a ∈ live)
    (hx : a.addr = x.addr + 24) (hl : TakenLeft x l l' y)
    (hr : TakenRight y k z k')
    (ht : Tiles Block.addr Block.stop first (l ++ x :: k) bound) :
    Holds (l' ++ { z with free := true } :: k') (live.erase a) := by
  obtain ⟨htl, hlt, htk⟩ := Tiles.cut.1 ht
  have hnodup : live.Nodup := h.nodup.of_map
  refine ⟨fun b hb => ?_, fun w hw hused => ?_, ?_⟩
  · obtain ⟨hne, hb⟩ := hnodup.mem_erase_iff.1 hb
    obtain ⟨w, hw, hused, haddr, hle⟩ := h.used b hb
    have hwx : w ≠ x := by
      rintro rfl
      exact hne (List.inj_on_of_nodup_map h.nodup hb ha
        (haddr.symm.trans hx.symm))
    have hw' : w ∈ l ∨ w ∈ k := by
      rcases List.mem_append.1 hw with hw | hw
      · exact .inl hw
      · exact .inr ((List.mem_cons.1 hw).resolve_left hwx)
    exact ⟨w, ((freed_used_iff hl hr w).2 ⟨hw', hused⟩).1, hused, haddr, hle⟩
  · obtain ⟨hw', _⟩ := (freed_used_iff hl hr w).1 ⟨hw, hused⟩
    have hne : w.addr ≠ x.addr := by
      rcases hw' with hw' | hw'
      · have hb := htl.bounds hw'
        omega
      · have hb := htk.bounds hw'
        omega
    have hmem : w ∈ l ++ x :: k := by
      rcases hw' with hw' | hw'
      · exact List.mem_append_left _ hw'
      · exact List.mem_append_right _ (List.mem_cons_of_mem x hw')
    obtain ⟨b, hb, haddr⟩ := h.held w hmem hused
    refine ⟨b, hnodup.mem_erase_iff.2 ⟨?_, hb⟩, haddr⟩
    rintro rfl
    omega
  · exact h.nodup.sublist ((List.erase_sublist).map _)

/-! ## Neighbours -/

theorem coalesced_cons :
    Coalesced (x :: k) ↔ Coalesced k ∧
      ∀ n, n ∈ k.head? → x.free = true → n.free = false := by
  rw [Coalesced, List.isChain_cons, and_comm]
  rfl

theorem coalesced_cut :
    Coalesced (l ++ x :: k) ↔ Coalesced l ∧ Coalesced (x :: k) ∧
      ∀ p, p ∈ l.getLast? → p.free = true → x.free = false := by
  rw [Coalesced, List.isChain_append]
  simp only [List.head?_cons, Option.mem_def, Option.some.injEq, forall_eq']
  rfl

theorem Served.coalesced (h : Served L request bound x L')
    (hc : Coalesced L) : Coalesced L' := by
  cases h with
  | extend hx =>
      subst hx
      exact coalesced_cut.2 ⟨hc, List.isChain_singleton _, fun _ _ _ => rfl⟩
  | whole l k w hL hfree hsize hx =>
      subst hx hL
      obtain ⟨hl, hwk, _⟩ := coalesced_cut.1 hc
      have hk := (coalesced_cons.1 hwk).1
      exact coalesced_cut.2 ⟨hl,
        coalesced_cons.2 ⟨hk, fun _ _ hx => nomatch hx⟩, fun _ _ _ => rfl⟩
  | split l k w hL hfree hsize hx =>
      subst hx hL
      obtain ⟨hl, hwk, _⟩ := coalesced_cut.1 hc
      obtain ⟨hk, hn⟩ := coalesced_cons.1 hwk
      have hrest : Coalesced (w.rest request :: k) :=
        coalesced_cons.2 ⟨hk, fun n hn' _ => hn n hn' hfree⟩
      exact coalesced_cut.2 ⟨hl,
        coalesced_cons.2 ⟨hrest, fun _ _ hx => nomatch hx⟩, fun _ _ _ => rfl⟩

theorem TakenLeft.coalesced (h : TakenLeft x l l' y) (hc : Coalesced l) :
    Coalesced l' ∧ ∀ p, p ∈ l'.getLast? → p.free = false := by
  cases h with
  | none _ hnone => exact ⟨hc, hnone⟩
  | merged l p hp =>
      obtain ⟨hl, _, hlast⟩ := coalesced_cut.1 hc
      refine ⟨hl, fun q hq => ?_⟩
      cases hqf : q.free with
      | false => rfl
      | true => exact absurd (hlast q hq hqf) (by simp [hp])

theorem TakenRight.coalesced (h : TakenRight x k y k') (hc : Coalesced k) :
    Coalesced k' ∧ ∀ n, n ∈ k'.head? → n.free = false := by
  cases h with
  | none _ hnone => exact ⟨hc, hnone⟩
  | merged k n hn =>
      obtain ⟨hk, hhead⟩ := coalesced_cons.1 hc
      exact ⟨hk, fun q hq => hhead q hq hn⟩

theorem freed_coalesced (hl : TakenLeft x l l' y) (hr : TakenRight y k z k')
    (hc : Coalesced (l ++ x :: k)) :
    Coalesced (l' ++ { z with free := true } :: k') := by
  obtain ⟨hcl, hcx, _⟩ := coalesced_cut.1 hc
  obtain ⟨hcl', hlast⟩ := hl.coalesced hcl
  obtain ⟨hck', hhead⟩ := hr.coalesced (coalesced_cons.1 hcx).1
  refine coalesced_cut.2 ⟨hcl',
    coalesced_cons.2 ⟨hck', fun n hn _ => hhead n hn⟩, fun p hp hfree => ?_⟩
  rw [hlast p hp] at hfree
  cases hfree

/-- Blocks of which none is used are a single one. -/
theorem Coalesced.single (hc : Coalesced L) (hne : L ≠ [])
    (hfree : ∀ x, x ∈ L → x.free = true) : ∃ x, L = [x] ∧ x.free = true := by
  match L, hne with
  | [x], _ => exact ⟨x, rfl, hfree x List.mem_cons_self⟩
  | x :: y :: L, _ =>
      have hy := (coalesced_cons.1 hc).2 y rfl (hfree x List.mem_cons_self)
      rw [hfree y (by simp)] at hy
      cases hy

/-! ## Whole runs -/

theorem initialised_firstAddress_lt (mem : Nat → UInt8) (area : MemoryArea) :
    (initialised mem area).firstAddress < 4294967296 := by
  show Splitted.roundUp (u32 (area.low + (Bitmap.setTo area.low
    (u32 ((area.high : Int) - area.low) / PAGE_SIZE)).memSize)) < 4294967296
  rw [Splitted.roundUp]
  split <;> exact u32_lt _

theorem setMemoryAreas_heapInv {mem : Nat → UInt8} {area : MemoryArea}
    (hnull : 8 ≤ (initialised mem area).firstAddress) :
    HeapInv (initialised mem area) [] :=
  ⟨⟨rfl, trivial, hnull, initialised_firstAddress_lt mem area⟩, rfl⟩

/-- What a run keeps. -/
structure RunInv (n : Nat) (s : Splitted) (live : List Alloc)
    (L : List Block) : Prop where
  heap : HeapInv s L
  holds : Holds L live
  coalesced : Coalesced L
  handed : 0 < n → L ≠ []

/-- A write into a live block misses every header. -/
theorem RunInv.write {n j : Nat} {s : Splitted} {a : Alloc} (v : UInt8)
    (h : RunInv n s live L) (ha : a ∈ live) (h₁ : a.addr ≤ j)
    (h₂ : j < a.addr + a.size) :
    RunInv n { s with mem := splice s.mem j 1 fun _ => v } live L := by
  refine ⟨⟨h.heap.heap.congr fun y hy i hi hi' => ?_, h.heap.first⟩, h.holds,
    h.coalesced, h.handed⟩
  obtain ⟨x, hx, _, haddr, hsize⟩ := h.holds.used a ha
  have hxstop : x.stop = x.addr + 24 + x.size := rfl
  have hystop : y.stop = y.addr + 24 + y.size := rfl
  have hij : i < j ∨ j + 1 ≤ i := by
    rcases h.heap.heap.tiles.eq_or_disjoint hx hy with rfl | hxy | hxy <;> omega
  show splice s.mem j 1 (fun _ => v) i = s.mem i
  rcases hij with hij | hij
  · exact splice_lt hij
  · exact splice_ge hij

theorem RunInv.free {n : Nat} {s : Splitted} {a : Alloc}
    (h : RunInv n s live L) (ha : a ∈ live) :
    ∃ m L', s.kernelFree a.addr = (true, { s with mem := m }) ∧
      RunInv n { s with mem := m } (live.erase a) L' ∧
      Below s.firstAddress s.mem m := by
  obtain ⟨x, hx, _, haddr, _⟩ := h.holds.used a ha
  obtain ⟨l, k, rfl⟩ := List.append_of_mem hx
  obtain ⟨l', y, z, k', m, hgo, hl, hr, hinv, hbelow⟩ :=
    kernelFree_spec h.heap
  rw [haddr] at hgo
  exact ⟨m, _, hgo, ⟨hinv, h.holds.freed ha haddr.symm hl hr h.heap.heap.tiles,
    freed_coalesced hl hr h.coalesced, fun _ => by simp⟩, hbelow⟩

theorem RunInv.malloc {n request : Nat} {s : Splitted}
    (h : RunInv n s live L) (hwrap : NoWrap s request) :
    s.kernelMalloc request = some (0, s) ∨
      ∃ r t L', s.kernelMalloc request = some (r, t) ∧ r ≠ 0 ∧
        RunInv (n + 1) t (⟨r, request⟩ :: live) L' ∧ Frame s t ∧
        (t.curKernelBound = s.curKernelBound ∨
          t.curKernelBound ≤ s.curUserBound) := by
  rcases kernelMalloc_spec h.heap hwrap with hfull |
    ⟨x, L', t, hgo, hserved, hinv, hframe, hbound⟩
  · exact .inl hfull
  · have ht := h.heap.heap.tiles
    exact .inr ⟨x.addr + 24, t, L', hgo, by omega,
      ⟨hinv, h.holds.served hserved ht, hserved.coalesced h.coalesced,
        fun _ => (hserved.spec ht).2.2.1⟩, hframe, hbound⟩

theorem HeapRun.runInv {s₀ s : Splitted} {n : Nat} (h₀ : HeapInv s₀ [])
    (h : HeapRun s₀ n s live) : ∃ L, RunInv n s live L := by
  induction h with
  | start =>
      refine ⟨[], h₀, ⟨fun a ha => (nomatch ha),
        fun x hx => (nomatch hx), List.nodup_nil⟩, List.isChain_nil,
        fun hn => absurd hn (by omega)⟩
  | malloc _ hwrap hgo hr ih =>
      obtain ⟨L, h⟩ := ih
      rcases h.malloc hwrap with hfull | ⟨r, t, L', hgo', _, hinv, _⟩
      · rw [hgo] at hfull
        cases hfull
        exact absurd rfl hr
      · rw [hgo] at hgo'
        cases hgo'
        exact ⟨L', hinv⟩
  | full _ hwrap hgo ih =>
      obtain ⟨L, h⟩ := ih
      rcases h.malloc hwrap with hfull | ⟨r, t, L', hgo', hr, _⟩
      · rw [hgo] at hfull
        cases hfull
        exact ⟨L, h⟩
      · rw [hgo] at hgo'
        cases hgo'
        exact absurd rfl hr
  | free _ ha hgo ih =>
      obtain ⟨L, h⟩ := ih
      obtain ⟨m, L', hgo', hinv, _⟩ := h.free ha
      rw [hgo] at hgo'
      cases hgo'
      exact ⟨L', hinv⟩
  | write v _ ha h₁ h₂ ih =>
      obtain ⟨L, h⟩ := ih
      exact ⟨L, h.write v ha h₁ h₂⟩

/-- The chain of structures tiles the kernel heap, linked both ways; the
blocks held are its used blocks, disjoint from each other and from every
header, and no byte between the bounds is lost. -/
theorem kernelHeap_tiles {mem : Nat → UInt8} {area : MemoryArea} {n : Nat}
    {s : Splitted} (hnull : 8 ≤ (initialised mem area).firstAddress)
    (hrun : HeapRun (initialised mem area) n s live) :
    ∃ L, s.firstStructure = firstAddr Block.addr 0 L ∧
      Links Block.addr (Header s.mem) 0 L 0 ∧
      Tiles Block.addr Block.stop s.firstAddress L s.curKernelBound ∧
      (∀ x, x ∈ L → x.free = false →
        ∃ a, a ∈ live ∧ a.addr = x.addr + 24 ∧ a.size ≤ x.size) ∧
      (∀ a, a ∈ live →
        ∃ x, x ∈ L ∧ x.free = false ∧ x.addr + 24 = a.addr ∧
          a.size ≤ x.size ∧
          ∀ y, y ∈ L → y ≠ x →
            a.addr + a.size ≤ y.addr ∨ y.stop ≤ a.addr) ∧
      L.Pairwise (fun x y => x.stop ≤ y.addr) ∧
      (∀ j, s.firstAddress ≤ j → j < s.curKernelBound →
        ∃ x, x ∈ L ∧ x.addr ≤ j ∧ j < x.stop) ∧
      (∀ request, NoWrap s request → (s.kernelMalloc request).isSome) ∧
      ∀ a, a ∈ live → (s.kernelFree a.addr).1 = true := by
  obtain ⟨L, h⟩ := hrun.runInv (setMemoryAreas_heapInv hnull)
  have ht := h.heap.heap.tiles
  refine ⟨L, h.heap.first, h.heap.heap.links, ht, fun x hx hused => ?_,
    fun a ha => ?_, ht.disjoint, fun j h₁ h₂ => ht.cover h₁ h₂,
    fun request hwrap => ?_, fun a ha => ?_⟩
  · obtain ⟨a, ha, haddr⟩ := h.holds.held x hx hused
    obtain ⟨y, hy, _, hyaddr, hsize⟩ := h.holds.used a ha
    obtain rfl : y = x := ht.injective hy hx (by omega)
    exact ⟨a, ha, haddr, hsize⟩
  · obtain ⟨x, hx, hused, haddr, hsize⟩ := h.holds.used a ha
    refine ⟨x, hx, hused, haddr, hsize, fun y hy hne => ?_⟩
    have hstop : x.stop = x.addr + 24 + x.size := rfl
    rcases ht.eq_or_disjoint hx hy with hxy | hxy | hxy
    · exact absurd hxy.symm hne
    · exact .inl (by omega)
    · exact .inr (by omega)
  · rcases h.malloc hwrap with hfull | ⟨r, t, L', hgo, _⟩
    · rw [hfull]
      rfl
    · rw [hgo]
      rfl
  · obtain ⟨m, L', hgo, _⟩ := h.free ha
    rw [hgo]

/-- Sixteen pages from the first megabyte on, all zero. -/
def smallArea : Splitted := initialised (fun _ => 0) ⟨0x100000, 0x110000⟩

inductive HeapCall where
  | malloc (request : Nat)
  | free (a : Alloc)

/-- A call that is served. -/
def HeapCall.step :
    Nat × Splitted × List Alloc → HeapCall → Option (Nat × Splitted × List Alloc)
  | (n, s, live), .malloc request =>
      if s.curKernelBound + 24 + request < 4294967296 then
        match s.kernelMalloc request with
        | some (r, t) =>
            if r ≠ 0 then some (n + 1, t, ⟨r, request⟩ :: live) else none
        | none => none
      else none
  | (n, s, live), .free a =>
      if a ∈ live then some (n, (s.kernelFree a.addr).2, live.erase a)
      else none

/-- Calls that are served are a run. -/
theorem HeapRun.calls {s₀ : Splitted} : ∀ {calls n n' s t live live'},
    HeapRun s₀ n s live →
    List.foldlM HeapCall.step (n, s, live) calls = some (n', t, live') →
    HeapRun s₀ n' t live' := by
  intro calls
  induction calls with
  | nil =>
      rintro n n' s t live live' hrun ⟨⟩
      exact hrun
  | cons c calls ih =>
      intro n n' s t live live' hrun hgo
      rw [List.foldlM_cons] at hgo
      obtain ⟨⟨k, u, held⟩, hstep, hrest⟩ := Option.bind_eq_some_iff.1 hgo
      refine ih ?_ hrest
      cases c with
      | malloc request =>
          rw [HeapCall.step] at hstep
          split at hstep
          next hroom =>
            split at hstep
            next r t' hgot =>
              split at hstep
              next hne =>
                cases hstep
                exact hrun.malloc (fun _ _ => hroom) hgot hne
              · cases hstep
            · cases hstep
          · cases hstep
      | free a =>
          rw [HeapCall.step] at hstep
          split at hstep
          next hmem =>
            cases hstep
            exact hrun.free hmem rfl
          · cases hstep

/-- Four blocks are made. The two in the middle are freed and become one, of
which sixteen bytes are cut off and joined to it again. -/
def mixedCalls : List HeapCall :=
  [.malloc 8, .malloc 8, .malloc 100, .malloc 8, .free ⟨0x101038, 8⟩,
    .free ⟨0x101058, 100⟩, .malloc 16, .free ⟨0x101038, 16⟩]

theorem smallArea_mixed :
    ∃ t, HeapRun smallArea 5 t [⟨0x1010d4, 8⟩, ⟨0x101018, 8⟩] ∧
      t.curKernelBound = 0x1010dc := by
  have hgo : (mixedCalls.foldlM HeapCall.step (0, smallArea, [])).map
      (fun r => (r.1, r.2.2, r.2.1.curKernelBound)) =
        some (5, [⟨0x1010d4, 8⟩, ⟨0x101018, 8⟩], 0x1010dc) := by
    decide +kernel
  obtain ⟨⟨n, t, live⟩, ht, heq⟩ := Option.map_eq_some_iff.1 hgo
  simp only [Prod.mk.injEq] at heq
  obtain ⟨rfl, rfl, hbound⟩ := heq
  exact ⟨t, HeapRun.start.calls ht, hbound⟩

theorem smallArea_tiles :
    ∃ t L, HeapRun smallArea 5 t [⟨0x1010d4, 8⟩, ⟨0x101018, 8⟩] ∧
      Tiles Block.addr Block.stop t.firstAddress L t.curKernelBound ∧
      t.curKernelBound = 0x1010dc := by
  obtain ⟨t, hrun, hbound⟩ := smallArea_mixed
  obtain ⟨L, _, _, hL, _⟩ := kernelHeap_tiles (by decide +kernel) hrun
  exact ⟨t, L, hrun, hL, hbound⟩

/-- No two neighbouring blocks are free, so when all that was handed out has
been freed one free block is left. -/
theorem kernelHeap_coalesces {mem : Nat → UInt8} {area : MemoryArea} {n : Nat}
    {s : Splitted} (hnull : 8 ≤ (initialised mem area).firstAddress)
    (hrun : HeapRun (initialised mem area) n s live) :
    ∃ L, s.firstStructure = firstAddr Block.addr 0 L ∧
      Links Block.addr (Header s.mem) 0 L 0 ∧ Coalesced L ∧
      (live = [] → 0 < n → ∃ x, L = [x] ∧ x.free = true ∧
        x.addr = s.firstAddress ∧ x.stop = s.curKernelBound) := by
  obtain ⟨L, h⟩ := hrun.runInv (setMemoryAreas_heapInv hnull)
  refine ⟨L, h.heap.first, h.heap.heap.links, h.coalesced, fun hlive hn => ?_⟩
  subst hlive
  have hfree : ∀ x, x ∈ L → x.free = true := by
    intro x hx
    cases hx' : x.free with
    | true => rfl
    | false =>
        obtain ⟨a, ha, _⟩ := h.holds.held x hx hx'
        cases ha
  obtain ⟨x, rfl, hx⟩ := h.coalesced.single (h.handed hn) hfree
  obtain ⟨hlo, _, hhi⟩ := h.heap.heap.tiles
  exact ⟨x, rfl, hx, hlo, hhi⟩

/-- Then the last block is freed, and the first. -/
theorem smallArea_coalesces :
    ∃ t x, HeapRun smallArea 5 t [] ∧
      Links Block.addr (Header t.mem) 0 [x] 0 ∧ x.free = true ∧
      x.addr = t.firstAddress ∧ x.stop = t.curKernelBound := by
  have hgo : (List.foldlM HeapCall.step (0, smallArea, []) (mixedCalls ++
      [.free ⟨0x1010d4, 8⟩, .free ⟨0x101018, 8⟩])).map
        (fun r => (r.1, r.2.2)) = some (5, []) := by
    decide +kernel
  obtain ⟨⟨n, t, live⟩, ht, heq⟩ := Option.map_eq_some_iff.1 hgo
  cases heq
  have hrun := HeapRun.start.calls ht
  obtain ⟨L, _, hlinks, _, hone⟩ :=
    kernelHeap_coalesces (by decide +kernel) hrun
  obtain ⟨x, rfl, hx⟩ := hone rfl (by decide)
  exact ⟨t, x, hrun, hlinks, hx⟩

end Iposix.Mm
