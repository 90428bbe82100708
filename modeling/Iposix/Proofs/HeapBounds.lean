import Iposix.Proofs.PageContract

/-!
# Where kernel_malloc puts its blocks

The end of a new block is computed in 32 bits, and only then compared with
`cur_user_bound`. A request near the size of the address space ends below where
it starts, passes the test, and the block handed out covers everything above.

`Fits` says of a request that this does not happen: it is served from the chain,
or its end does not wrap, or it wraps to a place that is refused as well. It is
all there is to ask, since the heap never leaves the user bound behind.
-/

namespace Iposix.Mm

open Iposix.Lib Splitted FuStructure

def Fits (s : Splitted) (request : Nat) : Prop :=
  ∀ prev, findFit s.mem request FUEL s.firstStructure 0 = some (0, prev) →
    s.curKernelBound + 24 + request < 4294967296 ∨
      s.curUserBound < u32 (s.curKernelBound + 24 + request : Nat)

/-- A request is refused and nothing changes, or gets memory between the first
address and the user bound. -/
def Bounded (s : Splitted) (request : Nat) : Prop :=
  ∃ r t, s.kernelMalloc request = some (r, t) ∧
    s.curKernelBound ≤ t.curKernelBound ∧
    (r = 0 ∧ t = s ∨ s.firstAddress ≤ r ∧ r + request ≤ s.curUserBound)

/-- The user bound is an address, and not below a heap that has a block. -/
structure HeapRoom (s : Splitted) : Prop where
  first : 4096 ≤ s.firstAddress
  user : s.curUserBound < 4294967296
  room : s.curKernelBound = s.firstAddress ∨ s.curKernelBound ≤ s.curUserBound

namespace Session

/-- As `Legal`, but a block may wrap where that is noticed. -/
def Asks (σ : Session) : Call → Prop
  | .malloc request kernel aligned =>
      kernel = true → aligned = false → Fits σ.manager request
  | c => σ.Legal c

end Session

variable {s t : Splitted} {L : List Block} {request : Nat}

/-! ## One request -/

/-- Adding in two steps wraps as adding at once. -/
theorem u32_sum (bound request : Nat) :
    u32 ((u32 (bound + (SIZEOF : Nat)) : Int) + request) =
      u32 (bound + 24 + request : Nat) := by
  simp only [u32, SIZEOF]
  omega

theorem kernelMalloc_extend {prev : Nat}
    (hfind : findFit s.mem request FUEL s.firstStructure 0 = some (0, prev)) :
    s.kernelMalloc request = some (s.extend prev request) := by
  rw [kernelMalloc, hfind]
  rfl

theorem extend_refused {prev : Nat}
    (hfull : s.curUserBound < u32 (s.curKernelBound + 24 + request : Nat)) :
    s.extend prev request = (0, s) := by
  rw [← u32_sum] at hfull
  rw [extend]
  exact if_pos hfull

theorem extend_bound (prev : Nat)
    (hroom : ¬ s.curUserBound < u32 (s.curKernelBound + 24 + request : Nat)) :
    (s.extend prev request).2.curKernelBound =
      u32 (s.curKernelBound + 24 + request : Nat) := by
  rw [← u32_sum] at hroom ⊢
  rw [extend]
  dsimp only
  rw [if_neg hroom]

/-- A new block leaves a trace, if only in the block before it. -/
theorem extend_ne (h : HeapInv s L)
    (hroom : ¬ s.curUserBound < u32 (s.curKernelBound + 24 + request : Nat)) :
    (s.extend (lastAddr Block.addr 0 L) request).2 ≠ s := by
  rw [← u32_sum] at hroom
  have hle := h.heap.tiles.le
  have hlow := h.heap.low
  have hhigh := h.heap.high
  intro heq
  rw [extend] at heq
  dsimp only at heq
  rw [if_neg hroom] at heq
  dsimp only at heq
  by_cases h0 : s.firstStructure = 0
  · have hfirst : (if s.firstStructure = 0 then s.curKernelBound
        else s.firstStructure) = s.firstStructure :=
      congrArg Splitted.firstStructure heq
    rw [if_pos h0] at hfirst
    omega
  · have hmem := congrArg Splitted.mem heq
    rcases List.eq_nil_or_concat L with rfl | ⟨l, x, rfl⟩
    · exact h0 h.first
    · rw [List.concat_eq_append] at *
      have hlast : lastAddr Block.addr 0 (l ++ [x]) = x.addr := by
        rw [lastAddr_append]
        rfl
      have hx := h.addr_ne_zero (List.mem_append_right l List.mem_cons_self)
      have hnext := (Links.cut.1 h.heap.links).2.1.next
      rw [← hmem, hlast] at hnext
      simp only [linkNew, if_neg h0, if_pos hx, next, setNext, load_store]
        at hnext
      have hnil : firstAddr Block.addr 0 ([] : List Block) = 0 := rfl
      omega

theorem bounded_of_noWrap (h : HeapInv s L) (hr : HeapRoom s)
    (hwrap : NoWrap s request) : Bounded s request := by
  rcases kernelMalloc_spec h hwrap with hfull |
    ⟨x, L', t, hgo, hserved, hinv, hframe, hbound⟩
  · exact ⟨0, s, hfull, Nat.le_refl _, .inl ⟨rfl, rfl⟩⟩
  · obtain ⟨hused, hsize, _⟩ := hserved.spec h.heap.tiles
    have hx := ((hserved.used_iff x).2 (.inl rfl)).1
    have hb := hinv.heap.tiles.bounds hx
    have hfirst := hframe.firstAddress
    have hstop : x.stop = x.addr + 24 + x.size := rfl
    have huser : t.curKernelBound ≤ s.curUserBound := by
      rcases hbound with heq | hle
      · have hroom := hr.room
        omega
      · exact hle
    exact ⟨_, t, hgo, hframe.bound, .inr ⟨by omega, by omega⟩⟩

theorem bounded_iff (h : HeapInv s L) (hr : HeapRoom s)
    (hrequest : request < 4294967296) :
    Bounded s request ↔ Fits s request := by
  constructor
  · rintro ⟨r, t, hgo, hle, hres⟩ prev hfind
    obtain rfl : prev = lastAddr Block.addr 0 L := by
      rcases findFit_spec request L 0 FUEL h.heap.links
          (fun x hx => h.addr_ne_zero hx) h.length_lt with
        ⟨l, x, k, rfl, _, _, hrun⟩ | ⟨_, hrun⟩ <;>
        rw [← h.first, hfind] at hrun <;>
        have hpair := Prod.mk.inj (Option.some.inj hrun)
      · exact absurd hpair.1.symm
          (h.addr_ne_zero (List.mem_append_right l List.mem_cons_self))
      · exact hpair.2
    by_contra hbad
    rw [not_or] at hbad
    obtain ⟨hwraps, hroom⟩ := hbad
    rw [kernelMalloc_extend hfind, Option.some.injEq] at hgo
    have hbound := extend_bound (lastAddr Block.addr 0 L) hroom
    rw [hgo] at hbound
    dsimp only at hbound
    have hhigh := h.heap.high
    have hfirst := h.heap.tiles.le
    obtain ⟨hlow, huser, _⟩ := hr
    rcases hres with ⟨_, rfl⟩ | ⟨hin, hout⟩
    · exact extend_ne h hroom (by rw [hgo])
    · -- the bound does not go down, so hardly any memory is left above the result
      have hdown : u32 (s.curKernelBound + 24 + request : Nat) =
          (s.curKernelBound + 24 + request) % 4294967296 := by
        simp only [u32]
        omega
      omega
  · intro hfits
    by_cases hwrap : NoWrap s request
    · exact bounded_of_noWrap h hr hwrap
    · obtain ⟨prev, hprev⟩ := not_forall.1 hwrap
      obtain ⟨hfind, hbig⟩ := Classical.not_imp.1 hprev
      have hfull := (hfits prev hfind).resolve_left hbig
      refine ⟨0, s, ?_, Nat.le_refl _, .inl ⟨rfl, rfl⟩⟩
      rw [kernelMalloc_extend hfind, extend_refused hfull]

/-! ## The user bound -/

theorem advanceUserBound_le (bm : Bitmap) (m : Nat → UInt8) (i : Nat) :
    ∀ turns bound, bound + 4096 * turns < 4294967296 →
      bound ≤ advanceUserBound bm m i turns bound ∧
        advanceUserBound bm m i turns bound ≤ bound + 4096 * turns := by
  intro turns
  induction turns with
  | zero => intro bound _; exact ⟨Nat.le_refl _, Nat.le_refl _⟩
  | succ turns ih =>
      intro bound hfits
      have hnext : u32 ((bound : Int) + (4096 : Nat)) = bound + 4096 := by
        simp only [u32]
        omega
      rw [advanceUserBound, PAGE_SIZE, hnext]
      split
      · have hrest := ih (bound + 4096) (by omega)
        omega
      · omega

/-- The heap's bound stands where it was, and the user bound at least there or
no further down than it. -/
structure RoomKept (s t : Splitted) : Prop where
  first : t.firstAddress = s.firstAddress
  bound : t.curKernelBound = s.curKernelBound
  user : t.curUserBound < 4294967296
  above : s.curUserBound ≤ t.curUserBound ∨ s.curKernelBound ≤ t.curUserBound

theorem RoomKept.of_eq (hr : HeapRoom s) (hfirst : t.firstAddress = s.firstAddress)
    (hbound : t.curKernelBound = s.curKernelBound)
    (huser : t.curUserBound = s.curUserBound) : RoomKept s t :=
  ⟨hfirst, hbound, huser ▸ hr.user, .inl (huser ▸ Nat.le_refl _)⟩

theorem HeapRoom.kept (h : HeapRoom s) (hk : RoomKept s t) : HeapRoom t := by
  obtain ⟨hlow, _, hroom⟩ := h
  obtain ⟨hfirst, hbound, huser, habove⟩ := hk
  exact ⟨by omega, huser, by omega⟩

theorem roomKept_pageAlloc (hr : HeapRoom s) (kernel : Bool) :
    RoomKept s (s.pageAlloc kernel).2 := by
  have huser := hr.user
  rw [pageAlloc]
  generalize findPage s.pageBm kernel s.mem (u64 ((s.pageBm.entrys : Int) - 1))
    (u32 ((s.lastAddress : Int) - PAGE_SIZE)) = found
  obtain ⟨i, ret, m⟩ := found
  dsimp only
  split
  · exact .of_eq hr rfl rfl rfl
  · split
    · exact .of_eq hr rfl rfl rfl
    · refine ⟨rfl, rfl, ?_, ?_⟩ <;> dsimp only <;> split <;> omega

theorem roomKept_kernelFree (hr : HeapRoom s) (addr : Nat) :
    RoomKept s (s.kernelFree addr).2 := by
  rw [kernelFree]
  dsimp only
  split <;> exact .of_eq hr rfl rfl rfl

theorem roomKept_freeKernel (hr : HeapRoom s) (addr : Nat) :
    RoomKept s (s.free addr true).2 := by
  rw [free_kernel]
  split
  · exact roomKept_kernelFree hr addr
  · exact .of_eq hr rfl rfl rfl

/-- The bound is moved over the pages behind its own, to the last address. -/
theorem roomKept_pageFree (hr : HeapRoom s) (hu : PagesUsable s) {addr : Nat}
    (hown : Used s (u32 ((addr : Int) - s.firstAddress) / 4096) →
      addr = pageAt s (u32 ((addr : Int) - s.firstAddress) / 4096)) :
    RoomKept s (s.pageFree addr).2 := by
  have hp := hu.pages
  have hl := hu.last
  rw [pageFree, PAGE_SIZE]
  dsimp only
  generalize u32 ((addr : Int) - s.firstAddress) / 4096 = i at hown ⊢
  split
  · exact .of_eq hr rfl rfl rfl
  · next hused =>
      have haddr := hown (Bool.eq_false_iff.2 hused)
      have huser := hr.user
      by_cases hborder : addr = s.curUserBound
      · have hfits : s.curUserBound + 4096 * (s.pageBm.entrys - i) <
            4294967296 := by
          rw [← hborder, haddr, pageAt]
          omega
        have hle := advanceUserBound_le s.pageBm (s.pageBm.setFree s.mem i true) i
          (s.pageBm.entrys - i) s.curUserBound hfits
        refine ⟨rfl, rfl, ?_, ?_⟩ <;> dsimp only <;> rw [if_pos hborder] <;> omega
      · exact .of_eq hr rfl rfl (if_neg hborder)

theorem HeapRoom.kernelMalloc {r : Nat} (hr : HeapRoom s) (h : HeapInv s L)
    (hfits : Fits s request) (hgo : s.kernelMalloc request = some (r, t)) :
    HeapRoom t := by
  by_cases hwrap : NoWrap s request
  · rcases kernelMalloc_spec h hwrap with hfull |
      ⟨x, L', t', hgo', _, hinv, hframe, hbound⟩
    · rw [hgo] at hfull
      cases hfull
      exact hr
    · rw [hgo] at hgo'
      cases hgo'
      obtain ⟨hlow, huser, hroom⟩ := hr
      have hfirst := hframe.firstAddress
      have huser' := hframe.curUserBound
      exact ⟨by omega, by omega, by omega⟩
  · obtain ⟨prev, hprev⟩ := not_forall.1 hwrap
    obtain ⟨hfind, hbig⟩ := Classical.not_imp.1 hprev
    rw [kernelMalloc_extend hfind,
      extend_refused ((hfits prev hfind).resolve_left hbig)] at hgo
    cases hgo
    exact hr

/-! ## Runs -/

variable {σ σ' : Session} {c : Call}

theorem Session.step_malloc {kernel aligned : Bool}
    (hgo : σ.step (.malloc request kernel aligned) = some σ') :
    ∃ r, σ.manager.malloc request kernel aligned = some (r, σ'.manager) := by
  simp only [Session.step, Option.bind_eq_bind, Option.bind_eq_some_iff] at hgo
  obtain ⟨⟨r, t⟩, hmalloc, hgo⟩ := hgo
  refine ⟨r, ?_⟩
  split at hgo
  · cases hgo
    exact hmalloc
  · split at hgo <;> cases hgo <;> exact hmalloc

theorem HeapRoom.step (hr : HeapRoom σ.manager) (h : SessionInv σ)
    (hasks : σ.Asks c) (htame : σ.Tame c) (hgo : σ.step c = some σ') :
    HeapRoom σ'.manager := by
  cases c with
  | malloc request kernel aligned =>
      obtain ⟨r, hmalloc⟩ := Session.step_malloc hgo
      by_cases hpage : kernel = false ∨ aligned = true
      · rw [malloc_page h.isInitialized request hpage, Option.some.injEq] at hmalloc
        split at hmalloc
        · have ht : (σ.manager.pageAlloc kernel).2 = σ'.manager := by rw [hmalloc]
          exact ht ▸ hr.kept (roomKept_pageAlloc hr kernel)
        · rw [← (Prod.mk.inj hmalloc).2]
          exact hr
      · obtain ⟨rfl, rfl⟩ : kernel = true ∧ aligned = false := by
          simpa using hpage
        rw [malloc_heap h.isInitialized] at hmalloc
        obtain ⟨_, L, hrun⟩ := h.heap
        exact hr.kernelMalloc hrun.heap (hasks rfl rfl) hmalloc
  | freeBlock a =>
      cases hgo
      exact hr.kept (roomKept_freeKernel hr a.addr)
  | freePage p =>
      cases hgo
      have hu := h.pages.usable (List.ne_nil_of_mem hasks)
      simp only [Session.Tame] at htame
      cases hkernel : p.kernel with
      | true => exact hr.kept (hkernel ▸ roomKept_freeKernel hr p.addr)
      | false =>
          rw [hkernel, if_neg (by simp)] at htame
          dsimp only
          rw [free_page]
          split
          · exact hr.kept (roomKept_pageFree hr hu fun hused => (htame hused).1)
          · exact hr
  | write j v =>
      cases hgo
      exact hr.kept (.of_eq hr rfl rfl rfl)

/-- A request that is refused although its block would wrap changes nothing. -/
theorem SessionInv.asks (h : SessionInv σ) (hasks : σ.Asks c)
    (htame : σ.Tame c) : ∃ σ', σ.step c = some σ' ∧ SessionInv σ' := by
  by_cases hlegal : σ.Legal c
  · exact h.step c ⟨hlegal, htame⟩
  · cases c with
    | malloc request kernel aligned =>
        simp only [Session.Legal, NoWrap, not_forall] at hlegal
        obtain ⟨rfl, rfl, prev, hfind, hbig⟩ := hlegal
        have hfull := (hasks rfl rfl prev hfind).resolve_left hbig
        refine ⟨σ, ?_, h⟩
        rw [Session.step, malloc_heap h.isInitialized, kernelMalloc_extend hfind,
          extend_refused hfull]
        rfl
    | freeBlock a => exact absurd hasks hlegal
    | freePage p => exact absurd hasks hlegal
    | write j v => exact absurd hasks hlegal

theorem roundUp_mod (low : Nat) : roundUp low % 4096 = 0 := by
  rw [roundUp, PAGE_SIZE]
  split
  · simp only [u32]
    omega
  · omega

theorem heapRoom_initialised {mem : Nat → UInt8} {area : MemoryArea}
    (hhigh : area.high < 4294967296)
    (hnull : 8 ≤ (initialised mem area).firstAddress) :
    HeapRoom (initialised mem area) := by
  have hmod : (initialised mem area).firstAddress % 4096 = 0 :=
    roundUp_mod _
  exact ⟨by omega, hhigh, .inl rfl⟩

/-- In every state of a run, a request is bounded exactly if its block does not
wrap unnoticed. -/
theorem kernelMalloc_bounded_iff {mem : Nat → UInt8} {area : MemoryArea}
    {calls : List Call} (hhigh : area.high < 4294967296)
    (hnull : 8 ≤ (initialised mem area).firstAddress)
    (hasks : Meets Session.step Session.Asks ⟨initialised mem area, [], []⟩ calls)
    (htame : Meets Session.step Session.Tame ⟨initialised mem area, [], []⟩ calls) :
    Along Session.step
      (fun σ => ∀ request, request < 4294967296 →
        (Bounded σ.manager request ↔ Fits σ.manager request))
      ⟨initialised mem area, [], []⟩ calls := by
  refine along_of_invariant (I := fun σ => SessionInv σ ∧ HeapRoom σ.manager)
    ?_ ?_ ⟨sessionInv_initialised hnull, heapRoom_initialised hhigh hnull⟩
    (hasks.and htame)
  · intro σ ⟨hinv, hr⟩ request hrequest
    obtain ⟨_, L, hrun⟩ := hinv.heap
    exact bounded_iff hrun.heap hr hrequest
  · intro σ c ⟨hinv, hr⟩ ⟨hasks, htame⟩
    obtain ⟨σ', hgo, hinv'⟩ := hinv.asks hasks htame
    exact ⟨σ', hgo, hinv', hr.step hinv hasks htame hgo⟩

instance (s : Splitted) (request : Nat) : Decidable (Fits s request) :=
  decidable_of_iff
    (∀ r, r ∈ findFit s.mem request FUEL s.firstStructure 0 → r.1 = 0 →
      s.curKernelBound + 24 + request < 4294967296 ∨
        s.curUserBound < u32 (s.curKernelBound + 24 + request : Nat))
    ⟨fun h prev hgo => h _ hgo rfl, fun h r hgo h₀ =>
      h r.2 (hgo.trans (by rw [← h₀]))⟩

/-- A block is made and freed, and a page; the largest request that fits. -/
theorem smallArea_bounded :
    Along Session.step
      (fun σ => ∀ request, request < 4294967296 →
        (Bounded σ.manager request ↔ Fits σ.manager request))
      ⟨smallArea, [], []⟩ [.malloc 100 true false, .malloc 4096 false false] :=
  kernelMalloc_bounded_iff (by decide) (by decide +kernel)
    ⟨fun _ _ => by decide +kernel, fun σ _ => ⟨fun hbad => (nomatch hbad),
      fun _ _ => trivial⟩⟩ (by decide +kernel)

/-- A request of a page less than everything. -/
theorem smallArea_wraps : ¬ Bounded smallArea 0xfffff000 := by
  rintro ⟨r, t, hgo, hle, _⟩
  have hbound : (smallArea.kernelMalloc 0xfffff000).map
      (fun r => r.2.curKernelBound) = some 0x100018 := by
    decide +kernel
  rw [hgo, Option.map_some, Option.some.injEq] at hbound
  dsimp only at hbound
  have hcur : smallArea.curKernelBound = 0x101000 := by decide +kernel
  omega

end Iposix.Mm
