import Iposix.Mm.Dereferences
import Iposix.Proofs.HeapRuns

/-!
# The links the kernel heap follows

Whatever `kernel_free` looks at is one of the blocks that are linked when it is
called, and so is what `kernel_malloc` looks at, but for the structure it makes
itself. There is one exception: when the last block of the chain is cut, the
block behind it is told, and there is none.
-/

namespace Iposix.Mm

open Iposix.Lib FuStructure Following

/-- The structures the chain leads to. -/
inductive OnChain (s : Splitted) : Nat → Prop
  | first : s.firstStructure ≠ 0 → OnChain s s.firstStructure
  | next {p : Nat} : OnChain s p → FuStructure.next s.mem p ≠ 0 →
      OnChain s (FuStructure.next s.mem p)

def mallocDerefs (s : Splitted) (request : Nat) : List Nat :=
  (kernelMalloc s request ⟨s.mem, []⟩).2.derefs

def freeDerefs (s : Splitted) (addr : Nat) : List Nat :=
  (kernelFree s addr ⟨s.mem, []⟩).2.derefs

/-- None of the pointers followed on the way from `s` to `t` is null, and each
is on the chain, be it the one found or the one left behind. -/
def Sound (s t : Splitted) (derefs : List Nat) : Prop :=
  ∀ p, p ∈ derefs → p ≠ 0 ∧ (OnChain s p ∨ OnChain t p)

/-- The block the request gets is the last one, and is cut. -/
def SplitsLast (s : Splitted) (request : Nat) : Prop :=
  ∃ cur prev, Splitted.findFit s.mem request Splitted.FUEL s.firstStructure 0 =
    some (cur, prev) ∧ cur ≠ 0 ∧ next s.mem cur = 0 ∧
    request + SIZEOF < size s.mem cur

variable {s t : Splitted} {L l k : List Block} {m : Nat → UInt8}
  {first bound request : Nat} {ds : List Nat} {x y : Block}

/-! ## The blocks are on the chain -/

/-- Only the links to the next block count. -/
theorem onChain_of_links {z : Nat} : ∀ {L : List Block} {p : Nat},
    Links Block.addr (fun x _ n => next s.mem x.addr = n) p L z →
    (∀ x, x ∈ L → x.addr ≠ 0) →
    (L ≠ [] → OnChain s (firstAddr Block.addr z L)) →
    ∀ x, x ∈ L → OnChain s x.addr := by
  intro L
  induction L with
  | nil => intro p _ _ _ x hx; cases hx
  | cons y L ih =>
      intro p ⟨hy, hL⟩ hne hfirst x hx
      have hon : OnChain s y.addr := hfirst (List.cons_ne_nil y L)
      rcases List.mem_cons.1 hx with rfl | hx
      · exact hon
      · refine ih hL (fun z hz => hne z (List.mem_cons_of_mem y hz)) (fun hL => ?_)
          x hx
        have hnext : firstAddr Block.addr z L ≠ 0 := by
          obtain ⟨z, L, rfl⟩ := List.exists_cons_of_ne_nil hL
          exact hne z (by simp)
        rw [← hy] at hnext ⊢
        exact hon.next hnext

theorem HeapInv.onChain (h : HeapInv s L) (hx : x ∈ L) : OnChain s x.addr := by
  refine onChain_of_links (h.heap.links.mono fun y _ _ _ hy => hy.next)
    (fun y hy => h.addr_ne_zero hy) (fun hL => ?_) x hx
  rw [← h.first]
  exact .first (mt h.firstStructure_eq.1 hL)

/-- The block behind a list of blocks, if there is one, begins the next. -/
theorem firstAddr_ne_zero (h : firstAddr Block.addr 0 k ≠ 0) :
    ∃ b, b ∈ k ∧ firstAddr Block.addr 0 k = b.addr := by
  cases k with
  | nil => exact absurd rfl h
  | cons b k => exact ⟨b, List.mem_cons_self, rfl⟩

theorem lastAddr_ne_zero (h : lastAddr Block.addr 0 l ≠ 0) :
    ∃ b, b ∈ l ∧ lastAddr Block.addr 0 l = b.addr :=
  lastAddr_mem Block.addr 0 fun hl => h (by rw [hl]; rfl)

/-! ## What is followed -/

/-- The search stays among the blocks. -/
theorem findFit_derefs : ∀ {L : List Block} {p : Nat} (fuel : Nat) (ds : List Nat),
    Links Block.addr (Header m) p L 0 →
    ∀ q, q ∈ (findFit request fuel (firstAddr Block.addr 0 L) p
        ⟨m, ds⟩).2.derefs → q ∈ ds ∨ ∃ b, b ∈ L ∧ q = b.addr := by
  intro L
  induction L with
  | nil =>
      intro p fuel ds _ q hq
      cases fuel with
      | zero => exact .inl hq
      | succ fuel => exact .inl hq
  | cons x L ih =>
      intro p fuel ds ⟨hx, hL⟩ q hq
      rw [firstAddr] at hq
      cases fuel with
      | zero => exact .inl hq
      | succ fuel =>
          by_cases h₀ : x.addr = 0
          · rw [findFit, if_pos h₀] at hq
            exact .inl hq
          · rw [findFit_step fuel h₀, hx.next] at hq
            have hhere : ∀ {q}, q = x.addr → ∃ b, b ∈ x :: L ∧ q = b.addr :=
              fun hq => ⟨x, List.mem_cons_self, hq⟩
            split at hq
            · simp only [List.mem_cons] at hq
              rcases hq with hq | hq | hq
              · exact .inr (hhere hq)
              · exact .inr (hhere hq)
              · exact .inl hq
            · rcases ih fuel _ hL q hq with hq | ⟨b, hb, hq⟩
              · simp only [List.mem_cons] at hq
                rcases hq with hq | hq | hq | hq
                · exact .inr (hhere hq)
                · exact .inr (hhere hq)
                · exact .inr (hhere hq)
                · exact .inl hq
              · exact .inr ⟨b, List.mem_cons_of_mem x hb, hq⟩

/-- Cutting a block looks at it, at what is left of it and at the block behind. -/
theorem split_derefs {p n : Nat} (h : Header m x p n)
    (hsize : request + 24 < x.size) (hstop : x.stop < 4294967296) :
    (split x.addr request ⟨m, ds⟩).2.derefs =
      x.addr :: n :: x.addr :: (x.rest request).addr :: (x.rest request).addr ::
        (x.rest request).addr :: x.addr :: (x.rest request).addr ::
        (x.rest request).addr :: x.addr :: x.addr :: x.addr :: ds := by
  have hxstop : x.stop = x.addr + 24 + x.size := rfl
  have hz : (x.rest request).addr = x.addr + 24 + request := rfl
  have hsized := header_setSize h (v := request) (by omega)
  have halloc : allocatedMemory (setSize m x.addr request) x.addr =
      x.addr + 24 := hsized.allocatedMemory
  have hsum : u32 ((x.addr + 24 : Nat) + request) = x.addr + 24 + request :=
    u32_of_lt (n := x.addr + 24 + request) (by omega)
  have hsum' : u32 ((x.addr + 24 + request : Nat) + (24 : Nat)) =
      x.addr + 24 + request + 24 :=
    u32_of_lt (n := x.addr + 24 + request + 24) (by omega)
  have hbefore := next_halfCut h hsize hstop
  have hafter := next_cut h hsize hstop
  rw [split]
  simp only [bind_run, ite_run, read_run, write_run, pure_run, h.size]
  rw [if_pos (show x.size - request > SIZEOF by simp only [SIZEOF]; omega)]
  simp only [SIZEOF, halloc, hsum, hsum', hbefore]
  simp only [create, Block.rest] at hafter
  rw [hafter]
  rfl

/-- Taking a block follows it, and where it is cut, what is left of it and the
block behind. -/
theorem reuse_derefs (h : HeapInv s (l ++ y :: k)) {q : Nat} :
    q ∈ (reuse y.addr request ⟨s.mem, ds⟩).2.derefs ↔
      q = y.addr ∨ q ∈ ds ∨ (request + 24 < y.size ∧
        (q = firstAddr Block.addr 0 k ∨ q = (y.rest request).addr)) := by
  have hb := h.heap.tiles.bounds (List.mem_append_right l List.mem_cons_self)
  have hhigh := h.heap.high
  have hheader := (Links.cut.1 (h.heap.mark (l := l) (x := y) false).1.links).2.1
  have hsizeEq : size (setFree s.mem y.addr false) y.addr = y.size :=
    hheader.size
  rw [reuse]
  simp only [bind_run, ite_run, read_run, write_run, pure_run, hsizeEq]
  rcases Nat.lt_or_ge (request + 24) y.size with hcut | hcut
  · rw [if_pos (by omega), split_derefs hheader hcut
      (show y.stop < 4294967296 by omega)]
    have hrest : ({ y with free := false } : Block).rest request =
        y.rest request := rfl
    simp only [List.mem_cons, hrest]
    grind
  · have hwhole : (split y.addr request ⟨setFree s.mem y.addr false,
        y.addr :: y.addr :: ds⟩).2.derefs = y.addr :: y.addr :: y.addr :: ds := by
      rw [split]
      simp only [bind_run, ite_run, read_run, pure_run, hsizeEq]
      rw [if_neg (by simp only [SIZEOF]; omega)]
    split
    · rw [hwhole]
      simp only [List.mem_cons]
      grind
    · simp only [List.mem_cons]
      grind

/-- A new structure is written, and told to the one before. -/
theorem extend_derefs {prev q : Nat}
    (hq : q ∈ (extend s prev request ⟨s.mem, ds⟩).2.derefs) :
    q ∈ ds ∨ (u32 (u32 (s.curKernelBound + SIZEOF) + request) ≤ s.curUserBound ∧
      (q = s.curKernelBound ∨ (prev ≠ 0 ∧ q = prev))) := by
  rw [extend] at hq
  dsimp only at hq
  by_cases hroom : u32 (u32 (s.curKernelBound + SIZEOF) + request) > s.curUserBound
  · rw [if_pos hroom] at hq
    exact .inl hq
  · rw [if_neg hroom] at hq
    simp only [bind_run, ite_run, read_run, write_run, get_run, pure_run] at hq
    have hroom' := Nat.le_of_not_lt hroom
    split at hq
    · simp only [List.mem_cons] at hq
      grind
    · simp only [List.mem_cons] at hq
      grind

theorem extend_room (prev : Nat)
    (hroom : u32 (u32 (s.curKernelBound + SIZEOF) + request) ≤ s.curUserBound) :
    (s.extend prev request).2.mem = Splitted.linkNew s.firstStructure
        (setSize (setAllocatedMemory (setNext (setPrevious (setFree s.mem
          s.curKernelBound false) s.curKernelBound prev) s.curKernelBound 0)
          s.curKernelBound (u32 (s.curKernelBound + SIZEOF))) s.curKernelBound
          request) prev s.curKernelBound ∧
      (s.extend prev request).2.firstStructure =
        if s.firstStructure = 0 then s.curKernelBound else s.firstStructure := by
  rw [Splitted.extend]
  dsimp only
  rw [if_neg (Nat.not_lt.2 hroom)]
  exact ⟨rfl, rfl⟩

/-- `cur` and the block it takes in, and the one behind. -/
theorem mem_merge_derefs {cur killed q : Nat} :
    q ∈ (merge cur killed ⟨m, ds⟩).2.derefs ↔
      q = cur ∨ q = killed ∨ q ∈ ds ∨ (next m killed ≠ 0 ∧ q = next m killed) := by
  rw [merge_derefs]
  split <;> simp only [List.mem_append, List.mem_cons, List.not_mem_nil] <;> grind

theorem mergeFront_derefs (h : Heap m first (l ++ x :: k) bound) {q : Nat}
    (hq : q ∈ (mergeFront x.addr ⟨m, ds⟩).2.derefs) :
    q ∈ ds ∨ ∃ b, b ∈ l ++ x :: k ∧ q = b.addr := by
  have hheader := (Links.cut.1 h.links).2.1
  have hhere : ∃ b, b ∈ l ++ x :: k ∧ x.addr = b.addr := ⟨x, by simp, rfl⟩
  rw [mergeFront] at hq
  simp only [bind_run, ite_run, read_run, pure_run, hheader.previous] at hq
  by_cases h₀ : lastAddr Block.addr 0 l = 0
  · rw [if_pos h₀] at hq
    rcases List.mem_cons.1 hq with rfl | hq
    · exact .inr hhere
    · exact .inl hq
  · obtain ⟨p, hp, hlast⟩ := lastAddr_ne_zero h₀
    have hfront : ∃ b, b ∈ l ++ x :: k ∧ lastAddr Block.addr 0 l = b.addr :=
      ⟨p, by simp [hp], hlast⟩
    rw [if_neg h₀] at hq
    split at hq
    · rw [mem_merge_derefs] at hq
      simp only [List.mem_cons, hheader.next] at hq
      rcases hq with rfl | rfl | (rfl | rfl | hq) | ⟨hne, rfl⟩
      · exact .inr hfront
      · exact .inr hhere
      · exact .inr hfront
      · exact .inr hhere
      · exact .inl hq
      · obtain ⟨b, hb, heq⟩ := firstAddr_ne_zero hne
        exact .inr ⟨b, by simp [hb], heq⟩
    · simp only [List.mem_cons] at hq
      rcases hq with rfl | rfl | hq
      · exact .inr hfront
      · exact .inr hhere
      · exact .inl hq

theorem mergeBehind_derefs (h : Heap m first (l ++ x :: k) bound) {q : Nat}
    (hq : q ∈ (mergeBehind x.addr ⟨m, ds⟩).2.derefs) :
    q ∈ ds ∨ ∃ b, b ∈ x :: k ∧ q = b.addr := by
  have hheader := (Links.cut.1 h.links).2.1
  have hhere : ∃ b, b ∈ x :: k ∧ x.addr = b.addr := ⟨x, by simp, rfl⟩
  rw [mergeBehind] at hq
  simp only [bind_run, ite_run, read_run, pure_run, hheader.next] at hq
  by_cases h₀ : firstAddr Block.addr 0 k ≠ 0
  · obtain ⟨n, k, rfl⟩ := List.exists_cons_of_ne_nil
      (show k ≠ [] from fun hk => h₀ (by rw [hk]; rfl))
    have hn := (Links.cut.1 h.links).2.2.1
    have hbehind : ∃ b, b ∈ x :: n :: k ∧ n.addr = b.addr := ⟨n, by simp, rfl⟩
    rw [if_pos h₀, firstAddr] at hq
    split at hq
    · rw [mem_merge_derefs] at hq
      simp only [List.mem_cons, hn.next] at hq
      rcases hq with rfl | rfl | (rfl | rfl | hq) | ⟨hne, rfl⟩
      · exact .inr hhere
      · exact .inr hbehind
      · exact .inr hbehind
      · exact .inr hhere
      · exact .inl hq
      · obtain ⟨b, hb, heq⟩ := firstAddr_ne_zero hne
        exact .inr ⟨b, by simp [hb], heq⟩
    · simp only [List.mem_cons] at hq
      rcases hq with rfl | rfl | hq
      · exact .inr hbehind
      · exact .inr hhere
      · exact .inl hq
  · rw [if_neg h₀] at hq
    rcases List.mem_cons.1 hq with rfl | hq
    · exact .inr hhere
    · exact .inl hq

/-! ## The calls -/

theorem kernelFree_derefs (h : HeapInv s (l ++ x :: k)) {q : Nat}
    (hq : q ∈ freeDerefs s (x.addr + 24)) :
    ∃ b, b ∈ l ++ x :: k ∧ q = b.addr := by
  have hheader := (Links.cut.1 h.heap.links).2.1
  have hlow := h.heap.low
  have hhigh := h.heap.high
  have hb := h.heap.tiles.bounds (List.mem_append_right l List.mem_cons_self)
  have hx : ∃ b, b ∈ l ++ x :: k ∧ x.addr = b.addr := ⟨x, by simp, rfl⟩
  have hcur : u32 ((x.addr + 24 : Nat) - (24 : Nat) : Int) = x.addr := by
    simp only [u32]
    omega
  rw [freeDerefs, kernelFree, SIZEOF, hcur, if_neg (by omega)] at hq
  simp only [bind_run, ite_run, read_run, write_run, get_run, pure_run] at hq
  rw [if_pos hheader.allocatedMemory.symm] at hq
  have hfront := mergeFront_run s.mem x.addr [x.addr]
  have hfrontDerefs : ∀ q, q ∈ (mergeFront x.addr ⟨s.mem, [x.addr]⟩).2.derefs →
      q ∈ [x.addr] ∨ ∃ b, b ∈ l ++ x :: k ∧ q = b.addr :=
    fun _ => mergeFront_derefs h.heap
  generalize mergeFront x.addr ⟨s.mem, [x.addr]⟩ = front at hq hfront hfrontDerefs
  obtain ⟨cur, m, ds⟩ := front
  obtain ⟨m', l', y, heq, hleft, hheap, _⟩ := takenLeft_spec h.heap
  rw [← hfront] at heq
  cases heq
  -- the block that is left after looking in front is one of the blocks, too
  have hy : ∃ b, b ∈ l ++ x :: k ∧ y.addr = b.addr := by
    cases hleft with
    | none => exact hx
    | merged l p => exact ⟨p, by simp, rfl⟩
  rcases List.mem_cons.1 hq with rfl | hq
  · exact hy
  · rcases mergeBehind_derefs hheap hq with hq | ⟨b, hb, rfl⟩
    · rcases hfrontDerefs q hq with hq | hq
      · rw [List.mem_singleton.1 hq]
        exact hx
      · exact hq
    · rcases List.mem_cons.1 hb with rfl | hb
      · exact hy
      · exact ⟨b, by simp [hb], rfl⟩

/-- Where there is room for a new structure, the chain leads to it. -/
theorem extend_onChain (h : HeapInv s L)
    (hroom : u32 (u32 (s.curKernelBound + SIZEOF) + request) ≤ s.curUserBound) :
    OnChain (s.extend (lastAddr Block.addr 0 L) request).2 s.curKernelBound := by
  have hlow := h.heap.low
  have hle := h.heap.tiles.le
  have hhigh := h.heap.high
  obtain ⟨hmem, hfirst⟩ := extend_room (lastAddr Block.addr 0 L) hroom
  generalize (s.extend (lastAddr Block.addr 0 L) request).2 = t at hmem hfirst ⊢
  rcases List.eq_nil_or_concat L with rfl | ⟨l, w, rfl⟩
  · rw [if_pos (h.firstStructure_eq.2 rfl)] at hfirst
    rw [← hfirst]
    exact .first (by omega)
  · rw [List.concat_eq_append] at *
    have hs : s.firstStructure ≠ 0 := mt h.firstStructure_eq.1 (by simp)
    have hw : w.addr ≠ 0 := h.addr_ne_zero (by simp)
    obtain ⟨hlinks, _, _⟩ := Links.cut.1 h.heap.links
    obtain ⟨htl, hlt, hwb⟩ := Tiles.cut.1 h.heap.tiles
    have hwb' : w.stop = s.curKernelBound := hwb
    have hwstop : w.stop = w.addr + 24 + w.size := rfl
    rw [lastAddr_append, Splitted.linkNew, if_neg hs] at hmem
    simp only [lastAddr, ne_eq, hw, not_false_eq_true, if_true] at hmem
    rw [if_neg hs, h.first] at hfirst
    have hnext : next t.mem w.addr = s.curKernelBound := by
      rw [hmem, next, setNext, load_store]
      exact Nat.mod_eq_of_lt hhigh
    have hkeep : ∀ j, j < w.addr → t.mem j = s.mem j := by
      intro j hj
      rw [hmem]
      simp (disch := omega) only [setNext, setPrevious, setFree,
        setAllocatedMemory, setSize, store_apply_of_disjoint]
    have hchain : Links Block.addr (fun x _ n => next t.mem x.addr = n) 0
        (l ++ [w]) s.curKernelBound := by
      refine Links.append.2 ⟨hlinks.mono fun y hy _ _ hnode => ?_, hnext, trivial⟩
      have hyb := htl.bounds hy
      have hystop : y.stop = y.addr + 24 + y.size := rfl
      exact (hnode.congr fun j _ hj => hkeep j (by omega)).next
    have hbegin : OnChain t (firstAddr Block.addr s.curKernelBound (l ++ [w])) := by
      have hsame : firstAddr Block.addr s.curKernelBound (l ++ [w]) =
          t.firstStructure := by
        rw [hfirst]
        cases l <;> rfl
      rw [hsame]
      refine .first ?_
      rw [hfirst, ← h.first]
      exact hs
    have hon : OnChain t w.addr :=
      onChain_of_links hchain (fun y hy => h.addr_ne_zero hy) (fun _ => hbegin) w
        (by simp)
    rw [← hnext]
    exact hon.next (by rw [hnext]; omega)

/-- The search finds what it finds in the plain memory. -/
theorem findFit_eq {found : Nat × Nat}
    (hfind : Splitted.findFit s.mem request Splitted.FUEL s.firstStructure 0 =
      some found) :
    findFit request Splitted.FUEL s.firstStructure 0 ⟨s.mem, []⟩ =
      (some found, ⟨s.mem, (findFit request Splitted.FUEL s.firstStructure 0
        ⟨s.mem, []⟩).2.derefs⟩) := by
  obtain ⟨hrun, hmem⟩ :=
    findFit_run s.mem request Splitted.FUEL s.firstStructure 0 []
  rw [hfind] at hrun
  generalize findFit request Splitted.FUEL s.firstStructure 0 ⟨s.mem, []⟩ = r
    at hrun hmem ⊢
  obtain ⟨_, m, ds⟩ := r
  rw [← hrun, ← hmem]

theorem mallocDerefs_found {cur prev : Nat}
    (hfind : Splitted.findFit s.mem request Splitted.FUEL s.firstStructure 0 =
      some (cur, prev)) (h₀ : cur ≠ 0) (hfree : free s.mem cur = true)
    (hsize : request ≤ size s.mem cur) :
    mallocDerefs s request = cur :: (reuse cur request ⟨s.mem, cur :: cur ::
      (findFit request Splitted.FUEL s.firstStructure 0
        ⟨s.mem, []⟩).2.derefs⟩).2.derefs := by
  rw [mallocDerefs, kernelMalloc, bind_run, findFit_eq hfind]
  dsimp only
  rw [if_neg h₀]
  simp only [bind_run, ite_run, read_run, get_run, pure_run]
  rw [if_pos (by simp [hfree, hsize])]

theorem mallocDerefs_end {prev : Nat}
    (hfind : Splitted.findFit s.mem request Splitted.FUEL s.firstStructure 0 =
      some (0, prev)) :
    mallocDerefs s request = (extend s prev request ⟨s.mem,
      (findFit request Splitted.FUEL s.firstStructure 0
        ⟨s.mem, []⟩).2.derefs⟩).2.derefs := by
  rw [mallocDerefs, kernelMalloc, bind_run, findFit_eq hfind]
  dsimp only
  rw [if_pos rfl, bind_run, pure_run]

/-- A free block that is large enough is found. -/
theorem malloc_found_sound (h : HeapInv s (l ++ y :: k)) (hfree : y.free = true)
    (hsize : request ≤ y.size)
    (hfind : Splitted.findFit s.mem request Splitted.FUEL s.firstStructure 0 =
      some (y.addr, lastAddr Block.addr 0 l)) :
    Sound s { s with mem := Splitted.reuse s.mem y.addr request }
      (mallocDerefs s request) ↔ ¬ SplitsLast s request := by
  have hheader := (Links.cut.1 h.heap.links).2.1
  have h₀ : y.addr ≠ 0 := h.addr_ne_zero (by simp)
  have hsplits : SplitsLast s request ↔
      firstAddr Block.addr 0 k = 0 ∧ request + 24 < y.size := by
    constructor
    · rintro ⟨cur, prev, hfind', _, hnext, hcut⟩
      rw [hfind] at hfind'
      cases hfind'
      rw [hheader.next] at hnext
      rw [hheader.size] at hcut
      exact ⟨hnext, hcut⟩
    · rintro ⟨hlast, hcut⟩
      exact ⟨_, _, hfind, h₀, hheader.next.trans hlast, by rwa [hheader.size]⟩
  have hmem : ∀ q, q ∈ mallocDerefs s request ↔ q = y.addr ∨
      q ∈ (findFit request Splitted.FUEL s.firstStructure 0
        ⟨s.mem, []⟩).2.derefs ∨ (request + 24 < y.size ∧
        (q = firstAddr Block.addr 0 k ∨ q = (y.rest request).addr)) := by
    intro q
    rw [mallocDerefs_found hfind h₀ (hheader.free.trans hfree)
      (by rwa [hheader.size]), List.mem_cons, reuse_derefs h]
    simp only [List.mem_cons]
    grind
  rw [hsplits]
  constructor
  · rintro hsound ⟨hlast, hcut⟩
    exact (hsound 0 ((hmem 0).2 (.inr (.inr ⟨hcut, .inl hlast.symm⟩)))).1 rfl
  · intro hnot q hq
    have hblock : ∀ b, b ∈ l ++ y :: k → b.addr ≠ 0 ∧ (OnChain s b.addr ∨ OnChain
        { s with mem := Splitted.reuse s.mem y.addr request } b.addr) :=
      fun b hb => ⟨h.addr_ne_zero hb, .inl (h.onChain hb)⟩
    rcases (hmem q).1 hq with rfl | hq | ⟨hcut, hq⟩
    · exact hblock y (by simp)
    · have hin := findFit_derefs Splitted.FUEL [] h.heap.links q (h.first ▸ hq)
      rcases hin with hin | ⟨b, hb, rfl⟩
      · cases hin
      · exact hblock b hb
    · rcases hq with rfl | rfl
      · obtain ⟨b, hb, heq⟩ := firstAddr_ne_zero fun hlast => hnot ⟨hlast, hcut⟩
        rw [heq]
        exact hblock b (by simp [hb])
      · -- what is left of the block that is cut
        obtain ⟨hmark, _⟩ := h.heap.mark (l := l) (x := y) false
        have hsizeEq : size (setFree s.mem y.addr false) y.addr = y.size :=
          (Links.cut.1 hmark.links).2.1.size
        have hinv := h.of_heap (hmark.carve request hcut).1 (by simp) (by simp)
        have hreuse : Splitted.reuse s.mem y.addr request =
            Splitted.split (setFree s.mem y.addr false) y.addr request := by
          rw [Splitted.reuse, hsizeEq, if_pos (by omega)]
        rw [hreuse]
        exact ⟨hinv.addr_ne_zero (List.mem_append_right l
          (List.mem_cons_of_mem _ List.mem_cons_self)), .inr (hinv.onChain
          (List.mem_append_right l (List.mem_cons_of_mem _ List.mem_cons_self)))⟩

/-- No block is large enough. -/
theorem malloc_end_sound (h : HeapInv s L)
    (hfind : Splitted.findFit s.mem request Splitted.FUEL s.firstStructure 0 =
      some (0, lastAddr Block.addr 0 L)) :
    Sound s (s.extend (lastAddr Block.addr 0 L) request).2
      (mallocDerefs s request) := by
  intro q hq
  have hblock : ∀ b, b ∈ L → b.addr ≠ 0 ∧ (OnChain s b.addr ∨
      OnChain (s.extend (lastAddr Block.addr 0 L) request).2 b.addr) :=
    fun b hb => ⟨h.addr_ne_zero hb, .inl (h.onChain hb)⟩
  rw [mallocDerefs_end hfind] at hq
  rcases extend_derefs hq with hq | ⟨hroom, rfl | ⟨hprev, hq⟩⟩
  · rcases findFit_derefs Splitted.FUEL [] h.heap.links q (h.first ▸ hq) with
      hq | ⟨b, hb, rfl⟩
    · cases hq
    · exact hblock b hb
  · have hlow := h.heap.low
    have hle := h.heap.tiles.le
    exact ⟨by omega, .inr (extend_onChain h hroom)⟩
  · obtain ⟨b, hb, heq⟩ := lastAddr_ne_zero hprev
    obtain rfl : q = b.addr := hq.trans heq
    exact hblock b hb

theorem kernelMalloc_sound (h : HeapInv s L) (request : Nat) :
    ∃ r t, s.kernelMalloc request = some (r, t) ∧
      (Sound s t (mallocDerefs s request) ↔ ¬ SplitsLast s request) := by
  have hsearch := findFit_spec request L 0 Splitted.FUEL h.heap.links
    (fun x hx => h.addr_ne_zero hx) h.length_lt
  rw [← h.first] at hsearch
  rcases hsearch with ⟨l, y, k, rfl, hfree, hsize, hrun⟩ | ⟨_, hrun⟩
  · have hheader := (Links.cut.1 h.heap.links).2.1
    refine ⟨allocatedMemory (Splitted.reuse s.mem y.addr request) y.addr,
      { s with mem := Splitted.reuse s.mem y.addr request }, ?_,
      malloc_found_sound h hfree hsize hrun⟩
    rw [Splitted.kernelMalloc, hrun]
    dsimp only
    rw [if_neg (h.addr_ne_zero (by simp)), hheader.free, hheader.size, hfree,
      if_pos (by simpa using hsize)]
  · refine ⟨(s.extend (lastAddr Block.addr 0 L) request).1,
      (s.extend (lastAddr Block.addr 0 L) request).2, ?_,
      iff_of_true (malloc_end_sound h hrun) ?_⟩
    · rw [Splitted.kernelMalloc, hrun]
      rfl
    · rintro ⟨cur, prev, hfind, h₀, _⟩
      rw [hrun] at hfind
      cases hfind
      exact h₀ rfl

/-- In every state a run reaches, freeing what is held follows no null link and
stays on the chain; so does asking for more, unless the last block is cut. -/
theorem kernelHeap_follows {mem : Nat → UInt8} {area : MemoryArea} {n : Nat}
    {live : List Alloc} (hnull : 8 ≤ (initialised mem area).firstAddress)
    (hrun : HeapRun (initialised mem area) n s live) :
    (∀ request, ∃ r t, s.kernelMalloc request = some (r, t) ∧
      (Sound s t (mallocDerefs s request) ↔ ¬ SplitsLast s request)) ∧
    ∀ a, a ∈ live → Sound s (s.kernelFree a.addr).2 (freeDerefs s a.addr) := by
  obtain ⟨L, h⟩ := hrun.runInv (setMemoryAreas_heapInv hnull)
  refine ⟨kernelMalloc_sound h.heap, fun a ha q hq => ?_⟩
  obtain ⟨x, hx, _, haddr, _⟩ := h.holds.used a ha
  obtain ⟨l, k, rfl⟩ := List.append_of_mem hx
  rw [← haddr] at hq
  obtain ⟨b, hb, rfl⟩ := kernelFree_derefs h.heap hq
  exact ⟨h.heap.addr_ne_zero hb, .inl (h.heap.onChain hb)⟩

theorem smallArea_follows :
    ∃ t, HeapRun smallArea 5 t [⟨0x1010d4, 8⟩, ⟨0x101018, 8⟩] ∧
      Sound t (t.kernelFree 0x1010d4).2 (freeDerefs t 0x1010d4) ∧
      Sound t (t.kernelFree 0x101018).2 (freeDerefs t 0x101018) := by
  obtain ⟨t, ht, _⟩ := smallArea_mixed
  have hfree := (kernelHeap_follows (by decide +kernel) ht).2
  exact ⟨t, ht, hfree _ List.mem_cons_self,
    hfree _ (List.mem_cons_of_mem _ List.mem_cons_self)⟩

/-- A hundred bytes, freed again, of which eight are asked for: the pointer at
the end of the chain is followed. -/
theorem smallArea_follows_null :
    ∃ s, HeapRun smallArea 1 s [] ∧ 0 ∈ mallocDerefs s 8 := by
  have hgo : (smallArea.kernelMalloc 100).map (fun r =>
      (r.1, decide (0 ∈ mallocDerefs (r.2.kernelFree 0x101018).2 8))) =
      some (0x101018, true) := by
    decide +kernel
  obtain ⟨⟨r, t⟩, ht, heq⟩ := Option.map_eq_some_iff.1 hgo
  obtain ⟨rfl, hnull⟩ := Prod.mk.inj heq
  have hrun : HeapRun smallArea 1 t [⟨0x101018, 100⟩] :=
    .malloc .start (fun _ _ => by decide +kernel) ht (by decide)
  exact ⟨_, hrun.free List.mem_cons_self rfl, of_decide_eq_true hnull⟩

end Iposix.Mm
