import Iposix.Lib.Run
import Iposix.Proofs.Pages

/-!
# Runs of the whole memory manager

A session is the manager with what its callers hold: blocks of the kernel heap
and pages. Its calls are `malloc`, `free` of something held, and writes into
something held. Heap and pages only meet at `cur_user_bound`: the heap does not
grow past it, and it lies below every page held.

`Legal` is what the callers have to keep to. `Tame` is what it takes for the
manager to keep the bound where it belongs. It leaves out the calls where a
page operation works on the wrong entry or moves the bound over a page that is
still held:

* `page_alloc` answers with page zero without looking whether it is held, and
  its bitmap may reach into the heap;
* `page_free` computes its entry from the other end of the area, and when the
  border page is freed it moves the bound to the end, asking the entry just
  freed about every page above;
* `free` of a kernel page that lies right at the kernel bound goes to the heap,
  where the last bytes of a block may look like a header.
-/

namespace Iposix.Mm

open Iposix.Lib Splitted

structure Session where
  manager : Splitted
  blocks : List Alloc
  pages : List Page

inductive Call where
  | malloc (request : Nat) (kernel aligned : Bool)
  | freeBlock (a : Alloc)
  | freePage (p : Page)
  | write (j : Nat) (v : UInt8)

namespace Session

def step (σ : Session) : Call → Option Session
  | .malloc request kernel aligned => do
      let (r, t) ← σ.manager.malloc request kernel aligned
      if r = 0 then some { σ with manager := t }
      else if kernel && !aligned then
        some { σ with manager := t, blocks := ⟨r, request⟩ :: σ.blocks }
      else some { σ with manager := t, pages := ⟨r, kernel⟩ :: σ.pages }
  | .freeBlock a =>
      some { σ with
        manager := (σ.manager.free a.addr true).2
        blocks := σ.blocks.erase a }
  | .freePage p =>
      some { σ with
        manager := (σ.manager.free p.addr p.kernel).2
        pages := σ.pages.erase p }
  | .write j v =>
      some { σ with manager :=
        { σ.manager with mem := splice σ.manager.mem j 1 fun _ => v } }

/-- Callers free what they hold, write where they may, and ask for no block
that wraps. -/
def Legal (σ : Session) : Call → Prop
  | .malloc request kernel aligned =>
      kernel = true → aligned = false → NoWrap σ.manager request
  | .freeBlock a => a ∈ σ.blocks
  | .freePage p => p ∈ σ.pages
  | .write j _ =>
      (∃ a, a ∈ σ.blocks ∧ a.addr ≤ j ∧ j < a.addr + a.size) ∨
        ∃ p, p ∈ σ.pages ∧ p.addr ≤ j ∧ j < p.addr + 4096

/-- The calls on which the manager keeps heap and pages apart. -/
def Tame (σ : Session) : Call → Prop
  | .malloc request kernel aligned =>
      kernel = false ∨ aligned = true → request ≤ 4096 →
        PagesUsable σ.manager ∧
        ((∀ i, i < σ.manager.pageBm.entrys → 1 ≤ i → Used σ.manager i) →
          ∀ p, p ∈ σ.pages → p.addr ≠ pageAt σ.manager 0)
  | .freePage p =>
      if p.kernel then
        p.addr = σ.manager.curKernelBound →
          FuStructure.allocatedMemory σ.manager.mem
            (u32 ((p.addr : Int) - (24 : Nat))) ≠ p.addr
      else
        let i := u32 ((p.addr : Int) - σ.manager.firstAddress) / 4096
        Used σ.manager i → p.addr = pageAt σ.manager i ∧
          (p.addr = σ.manager.curUserBound → ∀ q, q ∈ σ.pages → q = p)
  | _ => True

/-- Nothing held overlaps anything else held, and the kernel heap ends below
every page held. -/
structure Disjoint (σ : Session) : Prop where
  blocks : σ.blocks.Pairwise fun a b =>
    a.addr + a.size ≤ b.addr ∨ b.addr + b.size ≤ a.addr
  pages : σ.pages.Pairwise fun p q =>
    p.addr + 4096 ≤ q.addr ∨ q.addr + 4096 ≤ p.addr
  apart : ∀ a, a ∈ σ.blocks → ∀ p, p ∈ σ.pages → a.addr + a.size ≤ p.addr
  bound : ∀ p, p ∈ σ.pages → σ.manager.curKernelBound ≤ p.addr

end Session

/-- Every page held has an entry of its own, marked unless it is entry zero,
and lies above both bounds. -/
structure PageInv (s : Splitted) (pages : List Page) : Prop where
  usable : pages ≠ [] → PagesUsable s
  placed : ∀ p, p ∈ pages → ∃ i, i < s.pageBm.entrys ∧ p.addr = pageAt s i ∧
    (1 ≤ i → Used s i) ∧ s.curUserBound ≤ p.addr ∧ s.curKernelBound ≤ p.addr
  nodup : (pages.map Page.addr).Nodup

/-- What every session keeps. -/
structure SessionInv (σ : Session) : Prop where
  isInitialized : σ.manager.isInitialized = true
  heap : ∃ n L, RunInv n σ.manager σ.blocks L
  pages : PageInv σ.manager σ.pages
  max : σ.manager.maxKernelBound = σ.manager.curKernelBound

variable {s t : Splitted} {n : Nat} {L : List Block} {blocks : List Alloc}
  {pages : List Page}

theorem PageInv.erase (h : PageInv s pages) (p : Page) :
    PageInv s (pages.erase p) := by
  refine ⟨fun hne => h.usable fun hnil => hne ?_,
    fun q hq => h.placed q (List.mem_of_mem_erase hq),
    h.nodup.sublist (List.erase_sublist.map _)⟩
  rw [hnil]
  rfl

theorem pageAt_congr (hlast : t.lastAddress = s.lastAddress)
    (hbm : t.pageBm = s.pageBm) (i : Nat) : pageAt t i = pageAt s i := by
  rw [pageAt, pageAt, hlast, hbm]

theorem PagesUsable.congr (h : PagesUsable s)
    (hlast : t.lastAddress = s.lastAddress) (hbm : t.pageBm = s.pageBm)
    (hfirst : t.firstAddress = s.firstAddress) : PagesUsable t := by
  obtain ⟨h₁, h₂, h₃, h₄, h₅, h₆⟩ := h
  refine ⟨?_, ?_, ?_, ?_, ?_, ?_⟩ <;> simpa only [hlast, hbm, hfirst]

/-- A heap operation leaves the pages alone as long as it stays below the user
bound. -/
theorem PageInv.frame (h : PageInv s pages) (hf : Frame s t)
    (hbound : t.curKernelBound = s.curKernelBound ∨
      t.curKernelBound ≤ s.curUserBound) : PageInv t pages := by
  refine ⟨fun hne => (h.usable hne).congr hf.lastAddress hf.pageBm
    hf.firstAddress, fun p hp => ?_, h.nodup⟩
  have hu := h.usable (List.ne_nil_of_mem hp)
  obtain ⟨i, hi, haddr, hused, hc, hk⟩ := h.placed p hp
  refine ⟨i, hf.pageBm ▸ hi, ?_, fun h₁ => ?_, hf.curUserBound ▸ hc, ?_⟩
  · rw [haddr, pageAt_congr hf.lastAddress hf.pageBm]
  · have hb := hu.byteOf_lt hi
    rw [Used, hf.pageBm, Bitmap.free_congr (hf.mem _ hb.1 hb.2)]
    exact hused h₁
  · rcases hbound with hbound | hbound
    · rw [hbound]
      exact hk
    · omega

/-- A page operation leaves the heap alone. -/
theorem RunInv.pageFrame (h : RunInv n s blocks L) (hf : PageFrame s t) :
    RunInv n t blocks L := by
  have hheap : Heap t.mem t.firstAddress L t.curKernelBound := by
    rw [hf.firstAddress, hf.curKernelBound]
    refine h.heap.heap.congr fun x hx j hj _ => hf.mem j ?_
    have hb := h.heap.heap.tiles.bounds hx
    omega
  exact ⟨⟨hheap, hf.firstStructure.trans h.heap.first⟩, h.holds, h.coalesced,
    h.handed⟩

/-! ## What the invariant says -/

variable {σ : Session}

theorem SessionInv.disjoint (h : SessionInv σ) : σ.Disjoint := by
  obtain ⟨n, L, hrun⟩ := h.heap
  have ht := hrun.heap.heap.tiles
  have hbound : ∀ p, p ∈ σ.pages → σ.manager.curKernelBound ≤ p.addr := by
    intro p hp
    obtain ⟨_, _, _, _, _, hk⟩ := h.pages.placed p hp
    exact hk
  refine ⟨?_, ?_, fun a ha p hp => ?_, hbound⟩
  · refine hrun.holds.nodup.of_map.pairwise_of_forall_ne
      fun a ha b hb hne => ?_
    obtain ⟨x, hx, _, hxa, hxs⟩ := hrun.holds.used a ha
    obtain ⟨y, hy, _, hyb, hys⟩ := hrun.holds.used b hb
    have hxstop : x.stop = x.addr + 24 + x.size := rfl
    have hystop : y.stop = y.addr + 24 + y.size := rfl
    rcases ht.eq_or_disjoint hx hy with rfl | hxy | hyx
    · exact absurd (List.inj_on_of_nodup_map hrun.holds.nodup ha hb
        (hxa.symm.trans hyb)) hne
    · exact .inl (by omega)
    · exact .inr (by omega)
  · refine h.pages.nodup.of_map.pairwise_of_forall_ne fun p hp q hq hne => ?_
    have hu := h.pages.usable (List.ne_nil_of_mem hp)
    obtain ⟨i, hi, hpi, _⟩ := h.pages.placed p hp
    obtain ⟨j, hj, hqj, _⟩ := h.pages.placed q hq
    rw [hpi, hqj]
    refine pageAt_disjoint hu hi hj ?_
    rintro rfl
    exact hne (List.inj_on_of_nodup_map h.pages.nodup hp hq
      (hpi.trans hqj.symm))
  · obtain ⟨x, hx, _, hxa, hxs⟩ := hrun.holds.used a ha
    have hxstop : x.stop = x.addr + 24 + x.size := rfl
    have hb := ht.bounds hx
    have hk := hbound p hp
    omega

theorem sessionInv_initialised {mem : Nat → UInt8} {area : MemoryArea}
    (hnull : 8 ≤ (initialised mem area).firstAddress) :
    SessionInv ⟨initialised mem area, [], []⟩ where
  isInitialized := rfl
  heap := ⟨0, [], setMemoryAreas_heapInv hnull,
    ⟨fun _ ha => (nomatch ha), fun _ hx => (nomatch hx), List.nodup_nil⟩,
    List.isChain_nil, fun hn => absurd hn (Nat.lt_irrefl 0)⟩
  pages := ⟨fun hne => absurd rfl hne, fun _ hp => (nomatch hp),
    List.nodup_nil⟩
  max := rfl

/-- With room for two pages, the bitmap is all there is to ask of an area: its
last entry may not lie in the heap already. -/
theorem pagesUsable_initialised {mem : Nat → UInt8} {area : MemoryArea}
    (hlow : 8 ≤ area.low) (hroom : area.low + 8192 ≤ area.high)
    (hhigh : area.high < 4294967296) :
    PagesUsable (initialised mem area) ↔
      area.low + ((initialised mem area).pageBm.entrys - 1) / 4 <
        (initialised mem area).firstAddress := by
  have hentrys : (initialised mem area).pageBm.entrys =
      (area.high - area.low) / 4096 -
        ((area.high - area.low) / 4096 / 4 / 4096 + 1) := by
    show u64 (((u32 ((area.high : Int) - area.low) / 4096 : Nat) : Int) -
      (u32 ((area.high : Int) - area.low) / 4096 / 4 / 4096 + 1 : Nat)) = _
    have hsize : u32 ((area.high : Int) - area.low) = area.high - area.low := by
      simp only [u32]
      omega
    rw [hsize, u64]
    omega
  have hlast : (initialised mem area).lastAddress = area.high := rfl
  have hdata : (initialised mem area).pageBm.data = area.low := rfl
  refine ⟨fun h => h.bitmap, fun h => ⟨?_, ?_, ?_, h, ?_, ?_⟩⟩
  · omega
  · omega
  · omega
  · exact initialised_firstAddress_lt mem area
  · omega

/-! ## One call -/

theorem malloc_heap (h : s.isInitialized = true) (request : Nat) :
    s.malloc request true false = s.kernelMalloc request := by
  rw [malloc, if_pos h]
  rfl

theorem malloc_page (h : s.isInitialized = true) (request : Nat)
    {kernel aligned : Bool} (hpage : kernel = false ∨ aligned = true) :
    s.malloc request kernel aligned =
      some (if request ≤ 4096 then s.pageAlloc kernel else (0, s)) := by
  have hno : ¬ (kernel && !aligned) = true := by
    rcases hpage with rfl | rfl <;> simp
  rw [malloc, if_pos h, if_neg hno, PAGE_SIZE]
  by_cases hr : request > 4096
  · rw [if_pos hr, if_neg (by omega), if_neg (by omega)]
  · rw [if_neg hr, if_pos rfl, if_pos (by omega)]

/-- `free` of a page either is `page_free` or does nothing. -/
theorem free_page (s : Splitted) (addr : Nat) :
    s.free addr false =
      if s.isInitialized = true ∧ s.curUserBound ≤ addr ∧ addr ≤ s.lastAddress then
        s.pageFree addr
      else (false, s) := by
  rw [Splitted.free]
  cases s.isInitialized with
  | false => simp
  | true => simp [ge_iff_le]

/-- `free` of kernel memory either is `kernel_free` or does nothing. -/
theorem free_kernel (s : Splitted) (addr : Nat) :
    s.free addr true =
      if s.isInitialized = true ∧ s.firstAddress ≤ addr ∧
          addr ≤ s.curKernelBound then s.kernelFree addr
      else (false, s) := by
  rw [Splitted.free]
  cases s.isInitialized with
  | false => simp
  | true => simp [ge_iff_le]

/-- A page operation keeps the pages held if it frees none of their entries
and moves no bound over them. -/
theorem PageInv.pageFrame (h : PageInv s pages) (hf : PageFrame s t)
    (hkeep : ∀ p, p ∈ pages → ∀ i, i < s.pageBm.entrys → 1 ≤ i →
      p.addr = pageAt s i → Used s i → Used t i)
    (hbound : ∀ p, p ∈ pages → t.curUserBound ≤ p.addr) : PageInv t pages := by
  refine ⟨fun hne => (h.usable hne).congr hf.lastAddress hf.pageBm
    hf.firstAddress, fun p hp => ?_, h.nodup⟩
  obtain ⟨i, hi, haddr, hused, _, hk⟩ := h.placed p hp
  refine ⟨i, hf.pageBm ▸ hi, ?_, fun h₁ => hkeep p hp i hi h₁ haddr (hused h₁),
    hbound p hp, hf.curKernelBound ▸ hk⟩
  rw [haddr, pageAt_congr hf.lastAddress hf.pageBm]

/-- The page handed out is nobody else's. -/
theorem PageInv.alloc (h : PageInv s pages) (hu : PagesUsable s)
    (hmax : s.maxKernelBound = s.curKernelBound) (kernel : Bool)
    (hzero : (∀ i, 1 ≤ i → i < s.pageBm.entrys → Used s i) →
      ∀ p, p ∈ pages → p.addr ≠ pageAt s 0) :
    ∃ r t, s.pageAlloc kernel = (r, t) ∧ PageFrame s t ∧
      PageInv t (if r = 0 then pages else ⟨r, kernel⟩ :: pages) := by
  obtain ⟨r, t, j, hgo, hf, hj, hwhich, hkeep, hres⟩ :=
    pageAlloc_spec hu hmax kernel
  have hcub : t.curUserBound ≤ s.curUserBound := by
    rcases hres with ⟨_, hc⟩ | ⟨_, _, _, _, hc⟩ <;> omega
  have hold : PageInv t pages := by
    refine h.pageFrame hf (fun p _ i hi h₁ _ hused => hkeep i h₁ hi hused)
      fun p hp => ?_
    obtain ⟨_, _, _, _, hc, _⟩ := h.placed p hp
    exact Nat.le_trans hcub hc
  refine ⟨r, t, hgo, hf, ?_⟩
  by_cases hr : r = 0
  · rw [if_pos hr]
    exact hold
  rw [if_neg hr]
  rcases hres with ⟨hr', _⟩ | ⟨rfl, hused, hk, hc, _⟩
  · exact absurd hr' hr
  refine ⟨fun _ => hu.congr hf.lastAddress hf.pageBm hf.firstAddress,
    fun p hp => ?_, List.nodup_cons.2 ⟨fun hmem => ?_, h.nodup⟩⟩
  · rcases List.mem_cons.1 hp with rfl | hp
    · exact ⟨j, hf.pageBm ▸ hj, (pageAt_congr hf.lastAddress hf.pageBm j).symm,
        hused, hc, hf.curKernelBound ▸ hk⟩
    · exact hold.placed p hp
  · -- nobody holds page `j`: it is free, or it is page zero
    obtain ⟨p, hp, haddr⟩ := List.mem_map.1 hmem
    have haddr : p.addr = pageAt s j := haddr
    obtain ⟨i, hi, hpi, hpused, _⟩ := h.placed p hp
    obtain rfl : i = j := pageAt_inj hu.fit hi (hpi.symm.trans haddr)
    rcases hwhich with ⟨h₁, hfree⟩ | ⟨rfl, hall⟩
    · exact hfree (hpused h₁)
    · exact hzero hall p hp haddr

theorem pageFree_unused {addr i : Nat}
    (hi : u32 ((addr : Int) - s.firstAddress) / 4096 = i)
    (hfree : ¬ Used s i) : s.pageFree addr = (false, s) := by
  rw [pageFree, PAGE_SIZE, hi]
  exact if_pos (Bool.of_not_eq_false hfree)

/-- Freeing a page held, when the entry `page_free` works on is its own or is
free anyway. -/
theorem PageInv.freePage (h : PageInv s pages) {p : Page} (hp : p ∈ pages)
    (htame : Used s (u32 ((p.addr : Int) - s.firstAddress) / 4096) →
      p.addr = pageAt s (u32 ((p.addr : Int) - s.firstAddress) / 4096) ∧
        (p.addr = s.curUserBound → ∀ q, q ∈ pages → q = p)) :
    ∃ b t, s.pageFree p.addr = (b, t) ∧ PageFrame s t ∧
      PageInv t (pages.erase p) := by
  generalize hi : u32 ((p.addr : Int) - s.firstAddress) / 4096 = i at htame
  by_cases hused : Used s i
  · obtain ⟨haddr, honly⟩ := htame hused
    have hu := h.usable (List.ne_nil_of_mem hp)
    obtain ⟨j, hj, hpj, _⟩ := h.placed p hp
    obtain rfl : j = i := pageAt_inj hu.fit hj (hpj.symm.trans haddr)
    obtain ⟨b, t, hgo, hf, _, hkeep, hcub⟩ := pageFree_spec hu hi hj
    refine ⟨b, t, hgo, hf, (h.erase p).pageFrame hf
      (fun q hq i hi h₁ hqi hqused => hkeep i hi ?_ hqused) fun q hq => ?_⟩ <;>
      obtain ⟨hne, hq⟩ := h.nodup.of_map.mem_erase_iff.1 hq
    · rintro rfl
      exact hne (List.inj_on_of_nodup_map h.nodup hq hp (hqi.trans haddr.symm))
    · by_cases hborder : p.addr = s.curUserBound
      · exact absurd (honly hborder q hq) hne
      · rw [hcub hborder]
        obtain ⟨_, _, _, _, hc, _⟩ := h.placed q hq
        exact hc
  · exact ⟨false, s, pageFree_unused hi hused, PageFrame.refl s, h.erase p⟩

/-- Memory at or above the kernel bound is not the heap's. -/
theorem RunInv.above (h : RunInv n s blocks L) {m : Nat → UInt8}
    (hm : ∀ a, a < s.curKernelBound → m a = s.mem a) :
    RunInv n { s with mem := m } blocks L := by
  refine ⟨⟨h.heap.heap.congr fun x hx j _ hj => hm j ?_, h.heap.first⟩,
    h.holds, h.coalesced, h.handed⟩
  have hb := h.heap.heap.tiles.bounds hx
  have hstop : x.stop = x.addr + 24 + x.size := rfl
  omega

theorem SessionInv.malloc (h : SessionInv σ) {request : Nat}
    {kernel aligned : Bool} (hlegal : σ.Legal (.malloc request kernel aligned))
    (htame : σ.Tame (.malloc request kernel aligned)) :
    ∃ σ', σ.step (.malloc request kernel aligned) = some σ' ∧
      SessionInv σ' := by
  obtain ⟨n, L, hrun⟩ := h.heap
  by_cases hpage : kernel = false ∨ aligned = true
  · have hno : ¬ (kernel && !aligned) = true := by
      rcases hpage with rfl | rfl <;> simp
    simp only [Session.step, malloc_page h.isInitialized request hpage,
      Option.bind_eq_bind, Option.bind_some, hno]
    by_cases hr : request ≤ 4096
    · obtain ⟨hu, hzero⟩ := htame hpage hr
      obtain ⟨r, t, hgo, hf, hpages⟩ := h.pages.alloc hu h.max kernel
        fun hall => hzero fun i hi h₁ => hall i h₁ hi
      rw [if_pos hr, hgo]
      by_cases hr0 : r = 0
      · rw [if_pos hr0] at hpages ⊢
        exact ⟨_, rfl, hf.isInitialized.trans h.isInitialized,
          ⟨n, L, hrun.pageFrame hf⟩, hpages, by
            rw [hf.maxKernelBound, hf.curKernelBound, h.max]⟩
      · rw [if_neg hr0] at hpages ⊢
        exact ⟨_, rfl, hf.isInitialized.trans h.isInitialized,
          ⟨n, L, hrun.pageFrame hf⟩, hpages, by
            rw [hf.maxKernelBound, hf.curKernelBound, h.max]⟩
    · rw [if_neg hr]
      exact ⟨σ, rfl, h⟩
  · obtain ⟨rfl, rfl⟩ : kernel = true ∧ aligned = false := by
      simpa using hpage
    simp only [Session.step, malloc_heap h.isInitialized]
    rcases hrun.malloc (hlegal rfl rfl) with hfull |
      ⟨r, t, L', hgo, hr, hinv, hf, hbound⟩
    · rw [hfull]
      exact ⟨σ, rfl, h⟩
    · rw [hgo]
      refine ⟨{ σ with manager := t, blocks := ⟨r, request⟩ :: σ.blocks },
        by simp [hr], hf.isInitialized.trans h.isInitialized,
        ⟨n + 1, L', hinv⟩, h.pages.frame hf hbound, hf.maxKernelBound h.max⟩

/-- A block that is held lies where `free` looks for blocks. -/
theorem SessionInv.free_block (h : SessionInv σ) {a : Alloc}
    (ha : a ∈ σ.blocks) :
    σ.manager.free a.addr true = σ.manager.kernelFree a.addr := by
  obtain ⟨n, L, hrun⟩ := h.heap
  obtain ⟨x, hx, _, haddr, hsize⟩ := hrun.holds.used a ha
  have hb := hrun.heap.heap.tiles.bounds hx
  have hstop : x.stop = x.addr + 24 + x.size := rfl
  rw [free_kernel, if_pos ⟨h.isInitialized, by omega, by omega⟩]

/-- A page that is held lies where `free` looks for user pages. -/
theorem SessionInv.free_userPage (h : SessionInv σ) {p : Page} (hp : p ∈ σ.pages) :
    σ.manager.free p.addr false = σ.manager.pageFree p.addr := by
  obtain ⟨i, _, haddr, _, hc, _⟩ := h.pages.placed p hp
  have hlast : p.addr ≤ σ.manager.lastAddress := haddr ▸ Nat.sub_le _ _
  rw [free_page, if_pos ⟨h.isInitialized, hc, hlast⟩]

theorem SessionInv.freeBlock (h : SessionInv σ) {a : Alloc}
    (ha : a ∈ σ.blocks) :
    SessionInv { σ with
      manager := (σ.manager.free a.addr true).2
      blocks := σ.blocks.erase a } := by
  obtain ⟨n, L, hrun⟩ := h.heap
  obtain ⟨m, L', hgo, hinv, hbelow⟩ := hrun.free ha
  rw [h.free_block ha, hgo]
  exact ⟨h.isInitialized, ⟨n, L', hinv⟩,
    h.pages.frame (Frame.of_mem hbelow) (.inl rfl), h.max⟩

/-- No block of the heap starts at the kernel bound or behind it. -/
theorem free_kernelPage {addr : Nat} (hk : s.curKernelBound ≤ addr)
    (hno : addr = s.curKernelBound → FuStructure.allocatedMemory s.mem
      (u32 ((addr : Int) - (24 : Nat))) ≠ addr) :
    s.free addr true = (false, s) := by
  rw [free_kernel]
  split
  next hin => exact if_neg fun ⟨_, heq⟩ => hno (by omega) heq.symm
  next => rfl

theorem SessionInv.freePage (h : SessionInv σ) {p : Page} (hp : p ∈ σ.pages)
    (htame : σ.Tame (.freePage p)) :
    SessionInv { σ with
      manager := (σ.manager.free p.addr p.kernel).2
      pages := σ.pages.erase p } := by
  obtain ⟨n, L, hrun⟩ := h.heap
  obtain ⟨_, _, _, _, _, hk⟩ := h.pages.placed p hp
  simp only [Session.Tame] at htame
  cases hkernel : p.kernel with
  | true =>
      rw [hkernel, if_pos rfl] at htame
      rw [free_kernelPage hk htame]
      exact ⟨h.isInitialized, h.heap, h.pages.erase p, h.max⟩
  | false =>
      rw [hkernel, if_neg (by simp)] at htame
      obtain ⟨b, t, hgo, hf, hpages⟩ := h.pages.freePage hp htame
      rw [h.free_userPage hp, hgo]
      exact ⟨hf.isInitialized.trans h.isInitialized, ⟨n, L, hrun.pageFrame hf⟩,
        hpages, by rw [hf.maxKernelBound, hf.curKernelBound, h.max]⟩

theorem SessionInv.write (h : SessionInv σ) {j : Nat} (v : UInt8)
    (hlegal : σ.Legal (.write j v)) :
    SessionInv { σ with manager :=
      { σ.manager with mem := splice σ.manager.mem j 1 fun _ => v } } := by
  obtain ⟨n, L, hrun⟩ := h.heap
  have ht := hrun.heap.heap.tiles
  have key : RunInv n { σ.manager with mem := splice σ.manager.mem j 1 fun _ => v }
      σ.blocks L ∧ σ.manager.firstAddress ≤ j := by
    rcases hlegal with ⟨a, ha, h₁, h₂⟩ | ⟨p, hp, h₁, _⟩
    · obtain ⟨x, hx, _, haddr, _⟩ := hrun.holds.used a ha
      have hb := ht.bounds hx
      exact ⟨hrun.write v ha h₁ h₂, by omega⟩
    · obtain ⟨_, _, _, _, _, hk⟩ := h.pages.placed p hp
      exact ⟨hrun.above fun a ha => splice_lt (by omega),
        Nat.le_trans ht.le (Nat.le_trans hk h₁)⟩
  exact ⟨h.isInitialized, ⟨n, L, key.1⟩,
    h.pages.frame (Frame.of_mem fun a _ ha => splice_lt (by omega)) (.inl rfl),
    h.max⟩

theorem SessionInv.step (h : SessionInv σ) (c : Call)
    (hcall : σ.Legal c ∧ σ.Tame c) :
    ∃ σ', σ.step c = some σ' ∧ SessionInv σ' := by
  obtain ⟨hlegal, htame⟩ := hcall
  cases c with
  | malloc request kernel aligned => exact h.malloc hlegal htame
  | freeBlock a => exact ⟨_, rfl, h.freeBlock hlegal⟩
  | freePage p => exact ⟨_, rfl, h.freePage hlegal htame⟩
  | write j v => exact ⟨_, rfl, h.write v hlegal⟩

/-- Heap blocks and pages stay disjoint all along a tame run. -/
theorem manager_disjoint {mem : Nat → UInt8} {area : MemoryArea}
    {calls : List Call} (hnull : 8 ≤ (initialised mem area).firstAddress)
    (hlegal : Meets Session.step Session.Legal ⟨initialised mem area, [], []⟩
      calls)
    (htame : Meets Session.step Session.Tame ⟨initialised mem area, [], []⟩
      calls) :
    Along Session.step Session.Disjoint ⟨initialised mem area, [], []⟩ calls :=
  along_of_invariant (fun _ h => h.disjoint) (fun _ c h => h.step c)
    (sessionInv_initialised hnull) (hlegal.and htame)

/-! ## Two runs -/

instance (s : Splitted) (request : Nat) : Decidable (NoWrap s request) :=
  decidable_of_iff
    (∀ r, r ∈ Splitted.findFit s.mem request FUEL s.firstStructure 0 →
      r.1 = 0 → s.curKernelBound + 24 + request < 4294967296)
    ⟨fun h prev hgo => h _ hgo rfl, fun h r hgo h₀ =>
      h r.2 (hgo.trans (by rw [← h₀]))⟩

instance (s : Splitted) (i : Nat) : Decidable (Used s i) :=
  inferInstanceAs (Decidable (_ = false))

instance (s : Splitted) : Decidable (PagesUsable s) :=
  decidable_of_iff
    (1 ≤ s.pageBm.entrys ∧ 4096 * s.pageBm.entrys ≤ s.lastAddress ∧
      s.lastAddress < 4294967296 ∧
      s.pageBm.data + (s.pageBm.entrys - 1) / 4 < s.firstAddress ∧
      s.firstAddress < 4294967296 ∧ 8 ≤ s.pageBm.data)
    ⟨fun ⟨h₁, h₂, h₃, h₄, h₅, h₆⟩ => ⟨h₁, h₂, h₃, h₄, h₅, h₆⟩,
      fun ⟨h₁, h₂, h₃, h₄, h₅, h₆⟩ => ⟨h₁, h₂, h₃, h₄, h₅, h₆⟩⟩

namespace Session

instance (σ : Session) : (c : Call) → Decidable (σ.Legal c)
  | .malloc _ _ _ => inferInstanceAs (Decidable (_ → _ → _))
  | .freeBlock _ => inferInstanceAs (Decidable (_ ∈ _))
  | .freePage _ => inferInstanceAs (Decidable (_ ∈ _))
  | .write _ _ => inferInstanceAs (Decidable (_ ∨ _))

instance (σ : Session) : (c : Call) → Decidable (σ.Tame c)
  | .malloc _ _ _ => inferInstanceAs (Decidable (_ → _ → _))
  | .freeBlock _ => inferInstanceAs (Decidable True)
  | .freePage _ => inferInstanceAs (Decidable (ite _ _ _))
  | .write _ _ => inferInstanceAs (Decidable True)

instance (σ : Session) : Decidable σ.Disjoint :=
  decidable_of_iff
    (σ.blocks.Pairwise (fun a b =>
        a.addr + a.size ≤ b.addr ∨ b.addr + b.size ≤ a.addr) ∧
      σ.pages.Pairwise (fun p q =>
        p.addr + 4096 ≤ q.addr ∨ q.addr + 4096 ≤ p.addr) ∧
      (∀ a, a ∈ σ.blocks → ∀ p, p ∈ σ.pages → a.addr + a.size ≤ p.addr) ∧
      ∀ p, p ∈ σ.pages → σ.manager.curKernelBound ≤ p.addr)
    ⟨fun ⟨h₁, h₂, h₃, h₄⟩ => ⟨h₁, h₂, h₃, h₄⟩,
      fun ⟨h₁, h₂, h₃, h₄⟩ => ⟨h₁, h₂, h₃, h₄⟩⟩

end Session

/-- A page, and a block while it is held. -/
theorem smallArea_disjoint :
    Along Session.step Session.Disjoint ⟨smallArea, [], []⟩
      [.malloc 4096 false false, .malloc 100 true false] :=
  manager_disjoint (by decide +kernel) (by decide +kernel) (by decide +kernel)

/-- A page that lies at the border is freed while the one above it is held:
the next block grows over the latter. -/
theorem pageFree_exposes :
    Meets Session.step Session.Legal
        ⟨initialised (fun _ => 0) ⟨0x100000, 0x104000⟩, [], []⟩
        [.malloc 4096 false false, .malloc 4096 false false,
          .freePage ⟨0x102000, false⟩, .malloc 0x2000 true false] ∧
      ¬ Along Session.step Session.Disjoint
        ⟨initialised (fun _ => 0) ⟨0x100000, 0x104000⟩, [], []⟩
        [.malloc 4096 false false, .malloc 4096 false false,
          .freePage ⟨0x102000, false⟩, .malloc 0x2000 true false] := by
  decide +kernel

end Iposix.Mm
