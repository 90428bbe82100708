import Iposix.Proofs.Heap

/-!
# What the kernel heap's calls do to its blocks

`kernel_malloc` either leaves everything alone or turns the list of blocks
into one with a further used block; `Served` lists the ways. `kernel_free`
turns it into one where the block freed has been taken in by its free
neighbours; `TakenLeft` and `TakenRight` say by which. Both change nothing but
the kernel bound and memory above `first_address` or in the null page, which
`Frame` says.
-/

namespace Iposix.Mm

open Iposix.Lib FuStructure

/-- The manager's heap is the list of blocks. -/
structure HeapInv (s : Splitted) (L : List Block) : Prop where
  heap : Heap s.mem s.firstAddress L s.curKernelBound
  first : s.firstStructure = firstAddr Block.addr 0 L

/-- What a heap operation keeps. -/
structure Frame (s t : Splitted) : Prop where
  isInitialized : t.isInitialized = s.isInitialized
  firstAddress : t.firstAddress = s.firstAddress
  curUserBound : t.curUserBound = s.curUserBound
  lastAddress : t.lastAddress = s.lastAddress
  pageBm : t.pageBm = s.pageBm
  bound : s.curKernelBound ≤ t.curKernelBound
  maxKernelBound : s.maxKernelBound = s.curKernelBound →
    t.maxKernelBound = t.curKernelBound
  mem : Below s.firstAddress s.mem t.mem

theorem Frame.of_mem {s : Splitted} {m : Nat → UInt8}
    (h : Below s.firstAddress s.mem m) : Frame s { s with mem := m } :=
  ⟨rfl, rfl, rfl, rfl, rfl, Nat.le_refl _, fun hmax => hmax, h⟩

/-- `L'` is `L` with the used block `x` for a request. -/
inductive Served (L : List Block) (request bound : Nat) (x : Block) :
    List Block → Prop
  | extend (hx : x = ⟨bound, request, false⟩) : Served L request bound x (L ++ [x])
  | whole (l k : List Block) (y : Block) (hL : L = l ++ y :: k)
      (hfree : y.free = true) (hsize : request ≤ y.size)
      (hx : x = { y with free := false }) :
      Served L request bound x (l ++ x :: k)
  | split (l k : List Block) (y : Block) (hL : L = l ++ y :: k)
      (hfree : y.free = true) (hsize : request + 24 < y.size)
      (hx : x = ⟨y.addr, request, false⟩) :
      Served L request bound x (l ++ x :: y.rest request :: k)

variable {s : Splitted} {L : List Block}

theorem HeapInv.addr_ne_zero (h : HeapInv s L) {x : Block} (hx : x ∈ L) :
    x.addr ≠ 0 := by
  have hb := h.heap.tiles.bounds hx
  have hlow := h.heap.low
  omega

theorem HeapInv.firstStructure_eq (h : HeapInv s L) :
    s.firstStructure = 0 ↔ L = [] := by
  rw [h.first]
  cases L with
  | nil => exact iff_of_true rfl rfl
  | cons x L =>
      exact iff_of_false (h.addr_ne_zero List.mem_cons_self)
        (List.cons_ne_nil x L)

/-- A new memory whose heap starts where the old one did. -/
theorem HeapInv.of_heap {L' : List Block} {m : Nat → UInt8}
    (h : HeapInv s L) (hm : Heap m s.firstAddress L' s.curKernelBound)
    (hne : L ≠ []) (hne' : L' ≠ []) : HeapInv { s with mem := m } L' := by
  refine ⟨hm, ?_⟩
  show s.firstStructure = _
  rw [h.first, Heap.firstAddr_eq h.heap.tiles hne,
    Heap.firstAddr_eq hm.tiles hne']

/-! ## The search -/

theorem findFit_spec {m : Nat → UInt8} (request : Nat) :
    ∀ (L : List Block) (p fuel : Nat), Links Block.addr (Header m) p L 0 →
      (∀ x, x ∈ L → x.addr ≠ 0) → L.length < fuel →
      (∃ l x k, L = l ++ x :: k ∧ x.free = true ∧ request ≤ x.size ∧
        Splitted.findFit m request fuel (firstAddr Block.addr 0 L) p =
          some (x.addr, lastAddr Block.addr p l)) ∨
      ((∀ x, x ∈ L → x.free = true → x.size < request) ∧
        Splitted.findFit m request fuel (firstAddr Block.addr 0 L) p =
          some (0, lastAddr Block.addr p L)) := by
  intro L
  induction L with
  | nil =>
      intro p fuel _ _ hf
      cases fuel with
      | zero => omega
      | succ fuel => exact .inr ⟨fun x hx => (nomatch hx), rfl⟩
  | cons x L ih =>
      intro p fuel ⟨hx, hL⟩ hne hf
      rw [List.length_cons] at hf
      obtain ⟨fuel, rfl⟩ := Nat.exists_eq_succ_of_ne_zero (by omega : fuel ≠ 0)
      have hx0 : x.addr ≠ 0 := hne x List.mem_cons_self
      have hstep : Splitted.findFit m request (fuel + 1) x.addr p =
          if !(x.free && decide (x.size ≥ request)) then
            Splitted.findFit m request fuel (firstAddr Block.addr 0 L) x.addr
          else some (x.addr, p) := by
        rw [Splitted.findFit, hx.free, hx.size, hx.next]
        simp only [hx0, ne_eq, not_false_eq_true, decide_true, Bool.true_and]
      rw [firstAddr, hstep]
      by_cases hfit : x.free = true ∧ request ≤ x.size
      · refine .inl ⟨[], x, L, rfl, hfit.1, hfit.2, ?_⟩
        rw [if_neg (by simp [hfit.1, hfit.2])]
        rfl
      · have hgo : (!(x.free && decide (x.size ≥ request))) = true := by
          cases hfree : x.free with
          | false => rfl
          | true =>
              have hsize : ¬ request ≤ x.size := fun hs => hfit ⟨hfree, hs⟩
              simp [hsize]
        rw [if_pos hgo]
        rcases ih x.addr fuel hL (fun y hy => hne y (List.mem_cons_of_mem x hy))
            (by omega) with ⟨l, y, k, rfl, hfree, hsize, hrun⟩ | ⟨hnone, hrun⟩
        · exact .inl ⟨x :: l, y, k, rfl, hfree, hsize, hrun⟩
        · refine .inr ⟨fun y hy hfree => ?_, hrun⟩
          rcases List.mem_cons.1 hy with rfl | hy
          · exact Nat.lt_of_not_le fun hs => hfit ⟨hfree, hs⟩
          · exact hnone y hy hfree

/-! ## Allocating -/

theorem extend_spec (h : HeapInv s L) {request : Nat}
    (hwrap : s.curKernelBound + 24 + request < 4294967296) :
    (s.extend (lastAddr Block.addr 0 L) request = (0, s)) ∨
      ∃ t, s.extend (lastAddr Block.addr 0 L) request =
          (s.curKernelBound + 24, t) ∧
        HeapInv t (L ++ [⟨s.curKernelBound, request, false⟩]) ∧ Frame s t ∧
        t.curKernelBound ≤ s.curUserBound := by
  have hsum : u32 (s.curKernelBound + (24 : Nat)) = s.curKernelBound + 24 :=
    u32_of_lt (n := s.curKernelBound + 24) (by omega)
  have hsum' : u32 ((s.curKernelBound + 24 : Nat) + (request : Nat)) =
      s.curKernelBound + 24 + request :=
    u32_of_lt (n := s.curKernelBound + 24 + request) hwrap
  have hext := Splitted.extend.eq_def s (lastAddr Block.addr 0 L) request
  simp only [SIZEOF, hsum, hsum'] at hext
  rw [hext]
  split
  · exact .inl rfl
  · next hroom =>
      have hheap := h.heap.grow hwrap
      rw [← h.first] at hheap
      have hnew := (Links.cut.1 hheap.links).2.1
      refine .inr ⟨_, Prod.ext hnew.allocatedMemory rfl, ⟨hheap, ?_⟩,
        ⟨rfl, rfl, rfl, rfl, rfl, ?_, fun hmax => ?_, fun j h₈ hj => ?_⟩,
        Nat.le_of_not_lt hroom⟩
      · show (if s.firstStructure = 0 then s.curKernelBound
          else s.firstStructure) = _
        split
        · next h0 =>
            rw [h.firstStructure_eq.1 h0]
            rfl
        · next h0 =>
            rw [firstAddr_append, h.first]
            cases L with
            | nil => exact absurd h.first h0
            | cons x L => rfl
      · show s.curKernelBound ≤ s.curKernelBound + 24 + request
        omega
      · show (if s.curKernelBound + 24 + request > s.maxKernelBound then _
          else _) = s.curKernelBound + 24 + request
        exact if_pos (by omega)
      · have hb := h.heap.tiles.le
        have hcreate : create s.mem ⟨s.curKernelBound, request, false⟩
            (lastAddr Block.addr 0 L) 0 j = s.mem j :=
          create_apply (.inl (by dsimp only; omega))
        show Splitted.linkNew s.firstStructure (create s.mem
          ⟨s.curKernelBound, request, false⟩ (lastAddr Block.addr 0 L) 0)
          (lastAddr Block.addr 0 L) s.curKernelBound j = s.mem j
        rw [Splitted.linkNew]
        split
        · exact hcreate
        · next h0 =>
            obtain ⟨x, hx, hlast⟩ := lastAddr_mem Block.addr 0
              (mt h.firstStructure_eq.2 h0)
            have hbx := h.heap.tiles.bounds hx
            have hset : setNext (create s.mem
                ⟨s.curKernelBound, request, false⟩ (lastAddr Block.addr 0 L) 0)
                (lastAddr Block.addr 0 L) s.curKernelBound j = _ :=
              store_apply_of_disjoint (by omega)
            split
            · rw [hset, hcreate]
            · exact hcreate

/-- Blocks that do not fit in the address space are not asked for: where the
search ends at null, the new block must not wrap. -/
def NoWrap (s : Splitted) (request : Nat) : Prop :=
  ∀ prev, Splitted.findFit s.mem request Splitted.FUEL s.firstStructure 0 =
    some (0, prev) → s.curKernelBound + 24 + request < 4294967296

/-- A free block that is large enough, cut if the rest can hold a block. -/
theorem reuse_spec {l k : List Block} {y : Block} {request : Nat}
    (h : HeapInv s (l ++ y :: k)) (hfree : y.free = true)
    (hsize : request ≤ y.size) :
    ∃ x L', HeapInv { s with mem := Splitted.reuse s.mem y.addr request } L' ∧
      Served (l ++ y :: k) request s.curKernelBound x L' ∧
      allocatedMemory (Splitted.reuse s.mem y.addr request) y.addr =
        x.addr + 24 ∧
      Below s.firstAddress s.mem (Splitted.reuse s.mem y.addr request) := by
  have hb := h.heap.tiles.bounds (List.mem_append_right l List.mem_cons_self)
  obtain ⟨hmark, hbelow⟩ := h.heap.mark (l := l) (x := y) false
  have hheader := (Links.cut.1 hmark.links).2.1
  have hsizeEq : size (setFree s.mem y.addr false) y.addr = y.size :=
    hheader.size
  have hbelow₁ : Below s.firstAddress s.mem (setFree s.mem y.addr false) :=
    fun j h₈ hj => hbelow j h₈ (by omega)
  simp only [Splitted.reuse, hsizeEq]
  rcases Nat.lt_or_ge (request + 24) y.size with hcut | hcut
  · obtain ⟨hcarve, hbelow₂⟩ := hmark.carve request hcut
    rw [if_pos (by omega)]
    exact ⟨⟨y.addr, request, false⟩, _,
      h.of_heap hcarve (by simp) (by simp), .split l k y rfl hfree hcut rfl,
      (Links.cut.1 hcarve.links).2.1.allocatedMemory,
      hbelow₁.trans hb.1 hbelow₂⟩
  · have hwhole : Splitted.split (setFree s.mem y.addr false) y.addr request =
        setFree s.mem y.addr false := by
      rw [Splitted.split, hsizeEq]
      exact if_neg (by simp only [SIZEOF]; omega)
    rw [hwhole, ite_self]
    exact ⟨{ y with free := false }, _, h.of_heap hmark (by simp) (by simp),
      .whole l k y rfl hfree hsize rfl, hheader.allocatedMemory, hbelow₁⟩

theorem HeapInv.length_lt (h : HeapInv s L) : L.length < Splitted.FUEL := by
  have hle := h.heap.tiles.length_le
  have hhigh := h.heap.high
  show L.length < 4294967296
  omega

/-- The search has come to a block that fits. -/
theorem kernelMalloc_fit {l k : List Block} {y : Block} {request prev : Nat}
    (h : HeapInv s (l ++ y :: k)) (hfree : y.free = true)
    (hsize : request ≤ y.size)
    (hrun : Splitted.findFit s.mem request Splitted.FUEL s.firstStructure 0 =
      some (y.addr, prev)) :
    ∃ x L', s.kernelMalloc request = some (x.addr + 24,
        { s with mem := Splitted.reuse s.mem y.addr request }) ∧
      Served (l ++ y :: k) request s.curKernelBound x L' ∧
      HeapInv { s with mem := Splitted.reuse s.mem y.addr request } L' ∧
      Below s.firstAddress s.mem (Splitted.reuse s.mem y.addr request) := by
  have hy := h.addr_ne_zero (List.mem_append_right l List.mem_cons_self)
  have hheader := (Links.cut.1 h.heap.links).2.1
  obtain ⟨x, L', hinv, hserved, hret, hbelow⟩ := reuse_spec h hfree hsize
  refine ⟨x, L', ?_, hserved, hinv, hbelow⟩
  rw [Splitted.kernelMalloc, hrun]
  simp only [if_neg hy, hheader.free, hfree, hheader.size, decide_eq_true
    (show y.size ≥ request from hsize), Bool.and_self, if_true]
  exact congrArg some (Prod.ext hret rfl)

theorem kernelMalloc_spec (h : HeapInv s L) {request : Nat}
    (hwrap : NoWrap s request) :
    s.kernelMalloc request = some (0, s) ∨
      ∃ x L' t, s.kernelMalloc request = some (x.addr + 24, t) ∧
        Served L request s.curKernelBound x L' ∧ HeapInv t L' ∧ Frame s t ∧
        (t.curKernelBound = s.curKernelBound ∨
          t.curKernelBound ≤ s.curUserBound) := by
  have hsearch := findFit_spec request L 0 Splitted.FUEL h.heap.links
    (fun x hx => h.addr_ne_zero hx) h.length_lt
  rw [← h.first] at hsearch
  rcases hsearch with ⟨l, y, k, rfl, hfree, hsize, hrun⟩ | ⟨_, hrun⟩
  · obtain ⟨x, L', hgo, hserved, hinv, hbelow⟩ :=
      kernelMalloc_fit h hfree hsize hrun
    exact .inr ⟨x, L', _, hgo, hserved, hinv, .of_mem hbelow, .inl rfl⟩
  · rw [Splitted.kernelMalloc, hrun]
    simp only [if_true]
    rcases extend_spec h (hwrap _ hrun) with hext | ⟨t, hext, hinv, hframe, hb⟩
    · exact .inl (congrArg some hext)
    · exact .inr ⟨⟨s.curKernelBound, request, false⟩, _, t,
        congrArg some hext, .extend rfl, hinv, hframe, .inr hb⟩

/-- A request that some free block can hold is served, and the heap does not
grow. -/
theorem kernelMalloc_of_free (h : HeapInv s L) {y : Block} {request : Nat}
    (hy : y ∈ L) (hfree : y.free = true) (hsize : request ≤ y.size) :
    ∃ r t, s.kernelMalloc request = some (r, t) ∧ r ≠ 0 ∧
      t.curKernelBound = s.curKernelBound := by
  have hsearch := findFit_spec request L 0 Splitted.FUEL h.heap.links
    (fun x hx => h.addr_ne_zero hx) h.length_lt
  rw [← h.first] at hsearch
  rcases hsearch with ⟨l, z, k, rfl, hzfree, hzsize, hrun⟩ | ⟨hnone, _⟩
  · obtain ⟨x, L', hgo, _⟩ := kernelMalloc_fit h hzfree hzsize hrun
    exact ⟨_, _, hgo, by omega, rfl⟩
  · exact absurd (hnone y hy hfree) (Nat.not_lt_of_le hsize)

/-! ## Freeing -/

/-- The block in front takes `x` in if it is free: `l` and `x` become `l'` and
`y`. -/
inductive TakenLeft (x : Block) : List Block → List Block → Block → Prop
  | none (l : List Block) (h : ∀ p, p ∈ l.getLast? → p.free = false) :
      TakenLeft x l l x
  | merged (l : List Block) (p : Block) (h : p.free = true) :
      TakenLeft x (l ++ [p]) l { p with size := p.size + 24 + x.size }

/-- `x` takes in the block behind it if that is free: `x` and `k` become `y`
and `k'`. -/
inductive TakenRight (x : Block) : List Block → Block → List Block → Prop
  | none (k : List Block) (h : ∀ n, n ∈ k.head? → n.free = false) :
      TakenRight x k x k
  | merged (k : List Block) (n : Block) (h : n.free = true) :
      TakenRight x (n :: k) { x with size := x.size + 24 + n.size } k

/-- The memory and current block after looking at the block in front. -/
theorem takenLeft_spec {m : Nat → UInt8} {first bound : Nat}
    {l k : List Block} {x : Block} (h : Heap m first (l ++ x :: k) bound) :
    ∃ m' l' y,
      (if previous m x.addr ≠ 0 ∧ free m (previous m x.addr) = true then
        (Splitted.merge m (previous m x.addr) x.addr, previous m x.addr)
      else (m, x.addr)) = (m', y.addr) ∧
      TakenLeft x l l' y ∧ Heap m' first (l' ++ y :: k) bound ∧
      Below first m m' := by
  have hprev := (Links.cut.1 h.links).2.1.previous
  rw [hprev]
  rcases List.eq_nil_or_concat l with rfl | ⟨l, p, rfl⟩
  · refine ⟨m, [], x, if_neg fun hp => hp.1 rfl, .none [] fun p hp => ?_, h,
      fun _ _ _ => rfl⟩
    cases hp
  · rw [List.concat_eq_append] at *
    have hlast : lastAddr Block.addr 0 (l ++ [p]) = p.addr := by
      rw [lastAddr_append]
      rfl
    rw [List.append_assoc] at h
    have hheader := (Links.cut.1 h.links).2.1
    have hb := h.tiles.bounds (List.mem_append_right l List.mem_cons_self)
    have hlow := h.low
    rw [hlast, hheader.free]
    cases hfree : p.free with
    | false =>
        refine ⟨m, l ++ [p], x, if_neg fun hp => ?_, .none _ fun q hq => ?_,
          by rwa [List.append_assoc], fun _ _ _ => rfl⟩
        · cases hp.2
        · simp only [List.getLast?_append, List.getLast?_singleton,
            Option.some_or, Option.mem_def, Option.some.injEq] at hq
          rw [← hq, hfree]
    | true =>
        obtain ⟨hmerge, hbelow⟩ := h.absorb
        rw [← hfree]
        refine ⟨_, l, { p with size := p.size + 24 + x.size },
          if_pos ⟨by omega, rfl⟩, .merged l p hfree, hmerge,
          fun j h₈ hj => hbelow j h₈ (by omega)⟩

/-- The memory after looking at the block behind. -/
theorem takenRight_spec {m : Nat → UInt8} {first bound : Nat}
    {l k : List Block} {x : Block} (h : Heap m first (l ++ x :: k) bound) :
    ∃ m' y k',
      (if next m x.addr ≠ 0 ∧ free m (next m x.addr) = true then
        Splitted.merge m x.addr (next m x.addr)
      else m) = m' ∧ y.addr = x.addr ∧
      TakenRight x k y k' ∧ Heap m' first (l ++ y :: k') bound ∧
      Below first m m' := by
  have hb := h.tiles.bounds (List.mem_append_right l List.mem_cons_self)
  have hlow := h.low
  rw [(Links.cut.1 h.links).2.1.next]
  cases k with
  | nil =>
      refine ⟨m, x, [], if_neg fun hp => hp.1 rfl, rfl,
        .none [] fun p hp => ?_, h, fun _ _ _ => rfl⟩
      cases hp
  | cons n k =>
      obtain ⟨_, _, hn, _⟩ := Links.cut.1 h.links
      have hnx : n.addr = x.stop := (Tiles.cut.1 h.tiles).2.2.1
      rw [firstAddr, hn.free]
      cases hfree : n.free with
      | false =>
          refine ⟨m, x, n :: k, if_neg fun hp => ?_, rfl,
            .none _ fun q hq => ?_, h, fun _ _ _ => rfl⟩
          · cases hp.2
          · cases hq
            exact hfree
      | true =>
          obtain ⟨hmerge, hbelow⟩ := h.absorb
          exact ⟨_, { x with size := x.size + 24 + n.size }, k,
            if_pos ⟨by omega, rfl⟩, rfl, .merged k n hfree, hmerge,
            fun j h₈ hj => hbelow j h₈ (by omega)⟩

theorem kernelFree_spec {l k : List Block} {x : Block}
    (h : HeapInv s (l ++ x :: k)) :
    ∃ l' y z k' m, s.kernelFree (x.addr + 24) = (true, { s with mem := m }) ∧
      TakenLeft x l l' y ∧ TakenRight y k z k' ∧
      HeapInv { s with mem := m } (l' ++ { z with free := true } :: k') ∧
      Below s.firstAddress s.mem m := by
  have hb := h.heap.tiles.bounds (List.mem_append_right l List.mem_cons_self)
  have hlow := h.heap.low
  have hhigh := h.heap.high
  have hheader := (Links.cut.1 h.heap.links).2.1
  have hcur : u32 ((x.addr + 24 : Nat) - (24 : Nat) : Int) = x.addr := by
    simp only [u32]
    omega
  obtain ⟨m₁, l', y, heq₁, hleft, hheap₁, hbelow₁⟩ := takenLeft_spec h.heap
  obtain ⟨m₂, z, k', heq₂, hz, hright, hheap₂, hbelow₂⟩ :=
    takenRight_spec hheap₁
  obtain ⟨hmark, hbelow₃⟩ := hheap₂.mark true
  have hb₂ := hheap₂.tiles.bounds (List.mem_append_right l' List.mem_cons_self)
  refine ⟨l', y, z, k', _, ?_, hleft, hright,
    h.of_heap hmark (by simp) (by simp),
    (hbelow₁.trans (Nat.le_refl _) hbelow₂).trans hb₂.1 hbelow₃⟩
  rw [Splitted.kernelFree, SIZEOF, hcur, if_pos ⟨by omega,
    hheader.allocatedMemory.symm⟩]
  simp only [heq₁, heq₂, hz]

end Iposix.Mm
