import Iposix.Proofs.ManagerCalls

/-!
# The contract of page_alloc and page_free

`page_alloc` finds the last free entry and marks it, but leaves the loop at
entry zero without having looked at it. So it keeps its contract as long as
another entry is free. When none is, the answer is page zero, which is not
marked, unless the heap has taken its place; and then entry zero is cleared, so
it had better not be set.

`page_free` finds the entry marked if it counts from the same page. That is
decided by the area, and on a fresh manager the first page already shows it.
-/

namespace Iposix.Mm

open Iposix.Lib Splitted

/-- Neither an entry nor a bound has changed. -/
structure SameState (s t : Splitted) : Prop where
  used : SameUse s t
  firstAddress : t.firstAddress = s.firstAddress
  curKernelBound : t.curKernelBound = s.curKernelBound
  maxKernelBound : t.maxKernelBound = s.maxKernelBound
  curUserBound : t.curUserBound = s.curUserBound
  lastAddress : t.lastAddress = s.lastAddress

/-- The page of entry `i` is handed out. -/
structure HandsOut (s t : Splitted) (i r : Nat) : Prop where
  entry : i < s.pageBm.entrys
  page : r = pageAt s i
  free : ¬ Used s i
  used : Used t i
  first : s.firstAddress ≤ r
  last : r < s.lastAddress

def PageContract (s : Splitted) (kernel : Bool) : Prop :=
  (s.pageAlloc kernel).1 = 0 ∧ SameState s (s.pageAlloc kernel).2 ∨
    ∃ i, HandsOut s (s.pageAlloc kernel).2 i (s.pageAlloc kernel).1

/-- An entry is left for `page_alloc`, or page zero belongs to the heap. -/
def Gives (s : Splitted) : Prop :=
  (∃ i, 1 ≤ i ∧ i < s.pageBm.entrys ∧ ¬ Used s i) ∨
    pageAt s 0 < s.curKernelBound ∧ ¬ Used s 0

/-- `page_alloc` sets the bit of entry `i`. -/
def Marks (s : Splitted) (kernel : Bool) (i : Nat) : Prop :=
  i < s.pageBm.entrys ∧ ¬ Used s i ∧ Used (s.pageAlloc kernel).2 i

/-- Whenever a page is freed later, the bit set is cleared and no other. -/
def FreesSame (s₀ : Splitted) : Prop :=
  ∀ s kernel i, Reaches AnyCall s₀ s → Marks s kernel i →
    ∀ t, Reaches AnyCall (s.pageAlloc kernel).2 t →
      ∀ l, l < t.pageBm.entrys →
        (Used (t.pageFree (s.pageAlloc kernel).1).2 l ↔ Used t l ∧ l ≠ i)

variable {area : MemoryArea} {s t : Splitted} {i j : Nat} {kernel : Bool}
  {m : Nat → UInt8}

/-! ## What is given -/

theorem SetUp.pageAt_pos (h : SetUp area s) (ha : area.TwoPages) (j : Nat) :
    pageAt s j ≠ 0 := by
  have hb := h.bitmap_lt ha
  have hle := pageAt_mono (s := s) (Nat.zero_le j)
  omega

/-- Clearing old kernel memory from a page on does not touch the bitmap. -/
theorem used_given (h : SetUp area s) (ha : area.TwoPages)
    (hj : j < s.pageBm.entrys) (hi : i < s.pageBm.entrys) (m : Nat → UInt8) :
    Used (given s j m).2 i ↔
      if s.curKernelBound > pageAt s j ∧ i = j then False
      else s.pageBm.free m i = false := by
  rw [given, Used]
  by_cases hkernel : s.curKernelBound > pageAt s j
  · rw [if_pos hkernel]
    show s.pageBm.free (marked s m j true false) i = false ↔ _
    rw [free_marked (h.inside ha hj) (h.inside ha hi)]
    by_cases hij : i = j <;> simp [hkernel, hij]
  · simp only [hkernel, false_and, if_false]
    split
    · have hbyte := h.byteOf ha hi
      have hb := h.bitmap_lt ha
      have hle := pageAt_mono (s := s) (Nat.zero_le j)
      rw [Bitmap.free_congr (splice_lt (by omega))]
    · exact Iff.rfl

theorem pageAlloc_given (h : SetUp area s) (ha : area.TwoPages) (kernel : Bool) :
    ∃ j m, j < s.pageBm.entrys ∧ Found s kernel j m ∧
      s.pageAlloc kernel = given s j m := by
  obtain ⟨j, m, hj, hfound, hgo⟩ := pageAlloc_found (h.fit ha) kernel
  rw [if_neg (h.pageAt_pos ha j)] at hgo
  exact ⟨j, m, hj, hfound, hgo⟩

theorem given_of_heap (hk : s.curKernelBound > pageAt s j) :
    given s j m = (0, { s with mem := marked s m j true false }) := if_pos hk

theorem given_fst (hk : ¬ s.curKernelBound > pageAt s j) :
    (given s j m).1 = pageAt s j := by
  rw [given, if_neg hk]

/-- An entry that was free is given, or marked and freed again. -/
theorem contract_given (h : SetUp area s) (ha : area.TwoPages) (h₁ : 1 ≤ j)
    (hj : j < s.pageBm.entrys) (hfree : ¬ Used s j) :
    (given s j (marked s s.mem j false kernel)).1 = 0 ∧
        SameState s (given s j (marked s s.mem j false kernel)).2 ∨
      HandsOut s (given s j (marked s s.mem j false kernel)).2 j
        (given s j (marked s s.mem j false kernel)).1 := by
  have hbits : ∀ i, i < s.pageBm.entrys →
      (s.pageBm.free (marked s s.mem j false kernel) i = false ↔
        Used s i ∨ i = j) := by
    intro i hi
    rw [free_marked (h.inside ha hj) (h.inside ha hi)]
    by_cases hij : i = j <;> simp [hij, Used]
  by_cases hk : s.curKernelBound > pageAt s j
  · refine .inl ⟨by rw [given_of_heap hk], fun i hi => ?_, ?_, ?_, ?_, ?_, ?_⟩
    · rw [used_given h ha hj hi, hbits i hi]
      by_cases hij : i = j
      · rw [if_pos ⟨hk, hij⟩, hij]
        exact iff_of_false id hfree
      · rw [if_neg fun hbad => hij hbad.2, or_iff_left hij]
    all_goals rw [given_of_heap hk]
  · have hfirst := h.first_le ha
    have hp := (h.fit ha).pages
    refine .inr ⟨hj, given_fst hk, hfree, ?_, ?_, ?_⟩
    · rw [used_given h ha hj hj, if_neg fun hbad => hk hbad.1, hbits j hj]
      exact .inr rfl
    · rw [given_fst hk]
      simp only [pageAt] at hfirst ⊢
      omega
    · rw [given_fst hk, pageAt]
      omega

theorem pageContract_iff (h : SetUp area s) (ha : area.TwoPages)
    (kernel : Bool) : PageContract s kernel ↔ Gives s := by
  obtain ⟨j, m, hj, hfound, hgo⟩ := pageAlloc_given h ha kernel
  rw [PageContract, hgo]
  rcases hfound with ⟨h₁, hfree, _, rfl⟩ | ⟨rfl, hall, rfl⟩
  · exact iff_of_true ((contract_given h ha h₁ hj hfree).imp id fun hout => ⟨j, hout⟩)
      (.inl ⟨j, h₁, hj, hfree⟩)
  · -- nothing was marked
    have hused : ∀ i, i < s.pageBm.entrys → (Used (given s 0 s.mem).2 i ↔
        if s.curKernelBound > pageAt s 0 ∧ i = 0 then False else Used s i) :=
      fun i hi => used_given h ha hj hi s.mem
    have hnone : ∀ i, ¬ (1 ≤ i ∧ i < s.pageBm.entrys ∧ ¬ Used s i) :=
      fun i ⟨h₁, hi, hfree⟩ => hfree (hall i h₁ hi)
    have hzero : ∀ i, i < s.pageBm.entrys → ¬ Used s i → i = 0 := fun i hi hfree =>
      Nat.eq_zero_of_not_pos fun h₁ => hnone i ⟨h₁, hi, hfree⟩
    by_cases hk : s.curKernelBound > pageAt s 0
    · have hiff : SameUse s (given s 0 s.mem).2 ↔ ¬ Used s 0 := by
        constructor
        · intro hsame hset
          have hcleared := (hused 0 hj).1 ((hsame 0 hj).2 hset)
          rwa [if_pos ⟨hk, rfl⟩] at hcleared
        · intro hclear i hi
          rw [hused i hi]
          by_cases h0 : i = 0
          · rw [if_pos ⟨hk, h0⟩, h0]
            exact iff_of_false id hclear
          · rw [if_neg fun hbad => h0 hbad.2]
      constructor
      · rintro (⟨_, hsame⟩ | ⟨i, hout⟩)
        · exact .inr ⟨hk, hiff.1 hsame.used⟩
        · exact .inr ⟨hk, hzero i hout.entry hout.free ▸ hout.free⟩
      · rintro (⟨i, hi⟩ | ⟨_, hclear⟩)
        · exact absurd hi (hnone i)
        · refine .inl ⟨by rw [given_of_heap hk], hiff.2 hclear, ?_, ?_, ?_, ?_, ?_⟩
          all_goals rw [given_of_heap hk]
    · refine iff_of_false ?_ ?_
      · rintro (⟨hr, _⟩ | ⟨i, hout⟩)
        · exact h.pageAt_pos ha 0 ((given_fst hk).symm.trans hr)
        · have hset := (hused i hout.entry).1 hout.used
          rw [if_neg fun hbad => hk hbad.1] at hset
          exact hout.free hset
      · rintro (⟨i, hi⟩ | ⟨hk', _⟩)
        · exact hnone i hi
        · exact hk hk'

/-! ## Pages that are held -/

namespace Session

/-- Pages are only asked for while there is one to give. -/
def Contracted (σ : Session) : Call → Prop
  | .malloc request kernel aligned =>
      kernel = false ∨ aligned = true → request ≤ 4096 → Gives σ.manager
  | c => σ.Tame c

/-- The contract holds, and what it hands out nobody holds. -/
def Fresh (σ : Session) : Prop :=
  ∀ kernel, Gives σ.manager →
    PageContract σ.manager kernel ∧
    ((σ.manager.pageAlloc kernel).1 ≠ 0 →
      ∀ p, p ∈ σ.pages → p.addr ≠ (σ.manager.pageAlloc kernel).1)

end Session

variable {σ σ' : Session} {c : Call}

theorem SetUp.usable (h : SetUp area s) (ha : area.TwoPages) (hlow : 8 ≤ area.low)
    (hfills : ¬ area.Fills) : PagesUsable s := by
  obtain ⟨hL, hp, hl⟩ := h.fit ha
  have hfirst := h.first_le ha
  have hbitmap := (h.bitmap_lt_first_iff ha).2 hfills
  simp only [pageAt] at hfirst
  refine ⟨hL, hp, hl, ?_, ?_, ?_⟩
  · rw [h.pageBm]
    exact h.entrys ▸ hbitmap
  · omega
  · rw [h.pageBm]
    exact hlow

theorem Session.step_constant (hgo : σ.step c = some σ') :
    Constant σ.manager σ'.manager := by
  cases c with
  | malloc request kernel aligned =>
      simp only [Session.step, Option.bind_eq_bind, Option.bind_eq_some_iff] at hgo
      obtain ⟨⟨r, t⟩, hmalloc, hgo⟩ := hgo
      have hconst := (malloc_keeps hmalloc).1
      split at hgo
      · cases hgo
        exact hconst
      · split at hgo <;> cases hgo <;> exact hconst
  | freeBlock a =>
      cases hgo
      exact (free_keeps σ.manager a.addr true).1
  | freePage p =>
      cases hgo
      exact (free_keeps σ.manager p.addr p.kernel).1
  | write j v =>
      cases hgo
      exact ⟨rfl, rfl, rfl, rfl⟩

/-- With all other entries in use, page zero is the heap's and nobody's. -/
theorem SessionInv.page_zero (h : SessionInv σ) (hgives : Gives σ.manager)
    (hall : ∀ i, i < σ.manager.pageBm.entrys → 1 ≤ i → Used σ.manager i) :
    ∀ p, p ∈ σ.pages → p.addr ≠ pageAt σ.manager 0 := by
  intro p hp haddr
  obtain ⟨_, _, _, _, _, hk⟩ := h.pages.placed p hp
  rcases hgives with ⟨i, h₁, hi, hfree⟩ | ⟨hzero, _⟩
  · exact hfree (hall i hi h₁)
  · omega

theorem SessionInv.fresh (h : SessionInv σ) (hs : SetUp area σ.manager)
    (ha : area.TwoPages) : σ.Fresh := by
  intro kernel hgives
  refine ⟨(pageContract_iff hs ha kernel).2 hgives, fun hr p hp haddr => ?_⟩
  have hu := h.pages.usable (List.ne_nil_of_mem hp)
  obtain ⟨r, t, hgo, _, hpages⟩ := h.pages.alloc hu h.max kernel fun hall =>
    h.page_zero hgives fun i hi h₁ => hall i h₁ hi
  rw [hgo] at hr haddr
  rw [if_neg hr] at hpages
  exact (List.nodup_cons.1 hpages.nodup).1 (List.mem_map.2 ⟨p, hp, haddr⟩)

theorem SessionInv.contracted (h : SessionInv σ) (hu : PagesUsable σ.manager)
    (hcond : σ.Contracted c) : σ.Tame c := by
  cases c with
  | malloc request kernel aligned =>
      exact fun hpage hr => ⟨hu, h.page_zero (hcond hpage hr)⟩
  | freeBlock a => exact hcond
  | freePage p => exact hcond
  | write j v => exact hcond

/-- The contract holds exactly while there is a page to give. In runs that ask
for no page else, no page is given that is held. -/
theorem pageAlloc_contract (mem : Nat → UInt8) (ha : area.TwoPages) :
    (∀ s, Reaches AnyCall (initialised mem area) s →
      ∀ kernel, PageContract s kernel ↔ Gives s) ∧
    (8 ≤ area.low → ¬ area.Fills → ∀ calls,
      Meets Session.step Session.Legal ⟨initialised mem area, [], []⟩ calls →
      Meets Session.step Session.Contracted ⟨initialised mem area, [], []⟩ calls →
      Along Session.step Session.Fresh ⟨initialised mem area, [], []⟩ calls) := by
  have hs := setUp_initialised mem ha
  refine ⟨fun s hrun kernel => pageContract_iff (hs.reaches hrun) ha kernel,
    fun hlow hfills calls hlegal hcond => ?_⟩
  have hnull : 8 ≤ (initialised mem area).firstAddress := by
    have hbm := (hs.usable ha hlow hfills).bitmap
    have hdata := (hs.usable ha hlow hfills).low
    omega
  refine along_of_invariant (I := fun σ => SessionInv σ ∧ SetUp area σ.manager)
    (fun σ ⟨hinv, hs⟩ => hinv.fresh hs ha) (fun σ c ⟨hinv, hs⟩ ⟨hlegal, hcond⟩ => ?_)
    ⟨sessionInv_initialised hnull, hs⟩ (hlegal.and hcond)
  obtain ⟨σ', hgo, hinv'⟩ := hinv.step c
    ⟨hlegal, hinv.contracted (hs.usable ha hlow hfills) hcond⟩
  exact ⟨σ', hgo, hinv', hs.constant (Session.step_constant hgo)⟩

theorem smallArea_contract : PageContract smallArea true ∧
    Along Session.step Session.Fresh ⟨smallArea, [], []⟩
      [.malloc 4096 false false, .malloc 100 true false] := by
  have ha : (⟨0x100000, 0x110000⟩ : MemoryArea).TwoPages := ⟨by decide, by decide⟩
  obtain ⟨hall, hruns⟩ := pageAlloc_contract (fun _ => 0) ha
  have hgives : Gives smallArea :=
    .inl ⟨1, by decide, by decide +kernel, by decide +kernel⟩
  refine ⟨(hall smallArea .refl true).2 hgives, hruns (by decide) ?_ _
    (by decide +kernel) ⟨fun _ _ => hgives, fun σ _ => ⟨?_, fun _ _ => trivial⟩⟩⟩
  · rw [MemoryArea.Fills]
    decide
  · rintro (hbad | hbad) <;> cases hbad

/-- Of three pages one can be marked. The next one is given over and over. -/
theorem threePages_twice :
    ∃ s, Reaches AnyCall (initialised (fun _ => 0) ⟨0x100000, 0x103000⟩) s ∧
      ¬ PageContract s false ∧ (s.pageAlloc false).1 ≠ 0 ∧
      ((s.pageAlloc false).2.pageAlloc false).1 = (s.pageAlloc false).1 := by
  have ha : (⟨0x100000, 0x103000⟩ : MemoryArea).TwoPages := ⟨by decide, by decide⟩
  have hs := setUp_initialised (fun _ => 0) ha
  have hrun : Reaches AnyCall (initialised (fun _ => 0) ⟨0x100000, 0x103000⟩)
      ((initialised (fun _ => 0) ⟨0x100000, 0x103000⟩).pageAlloc false).2 :=
    .single ⟨.malloc 4096 false false, trivial, rfl⟩
  refine ⟨_, hrun, ?_, by decide +kernel, by decide +kernel⟩
  rw [pageContract_iff (hs.reaches hrun) ha]
  rintro (⟨i, h₁, hi, hfree⟩ | ⟨hk, _⟩)
  · have hentrys : ((initialised (fun _ => 0) ⟨0x100000, 0x103000⟩).pageAlloc
        false).2.pageBm.entrys = 2 := by decide +kernel
    obtain rfl : i = 1 := by omega
    exact hfree (by decide +kernel)
  · revert hk
    decide +kernel

/-! ## What is freed -/

theorem Marks.page (h : SetUp area s) (ha : area.TwoPages)
    (hmarks : Marks s kernel i) :
    1 ≤ i ∧ (s.pageAlloc kernel).1 = pageAt s i := by
  obtain ⟨hi, hfree, hused⟩ := hmarks
  obtain ⟨j, m, hj, hfound, hgo⟩ := pageAlloc_given h ha kernel
  rw [hgo, used_given h ha hj hi] at hused
  rw [hgo]
  split at hused
  · exact hused.elim
  · next hk =>
      rcases hfound with ⟨h₁, _, _, rfl⟩ | ⟨rfl, _, rfl⟩
      · rw [free_marked (h.inside ha hj) (h.inside ha hi)] at hused
        by_cases hij : i = j
        · subst hij
          exact ⟨h₁, given_fst fun hbad => hk ⟨hbad, rfl⟩⟩
        · rw [if_neg hij] at hused
          exact absurd hused hfree
      · exact absurd hused hfree

/-- The entry that `page_free` computes for the page of an entry. -/
theorem index_iff (h : SetUp area s) (ha : area.TwoPages) (h₁ : 1 ≤ i)
    (hi : i < s.pageBm.entrys) :
    u32 ((pageAt s i : Int) - s.firstAddress) / 4096 = i ↔ area.Agrees := by
  have hfirst := h.first_le ha
  obtain ⟨_, hp, hl⟩ := h.fit ha
  have hpage : pageAt s i = pageAt s 0 + 4096 * i := by
    simp only [pageAt]
    omega
  have hle : pageAt s i ≤ s.lastAddress := Nat.sub_le _ _
  have hu32 : u32 ((pageAt s i : Int) - s.firstAddress) =
      pageAt s i - s.firstAddress := by
    simp only [u32]
    omega
  rw [hu32, MemoryArea.Agrees, ← h.pageAt_zero, ← h.firstAddress]
  omega

theorem not_used_initialised (mem : Nat → UInt8) (ha : area.TwoPages)
    (hi : i < (initialised mem area).pageBm.entrys) :
    ¬ Used (initialised mem area) i := by
  have hs := setUp_initialised mem ha
  have hsize : u32 ((area.high : Int) - area.low) / 4096 = area.pages := by
    obtain ⟨hroom, hhigh⟩ := ha
    simp only [u32, MemoryArea.pages]
    omega
  have hmem : (initialised mem area).mem =
      splice mem area.low area.pages fun _ => 0 := by
    rw [← hsize]
    rfl
  have hentrys := hs.entrys
  rw [MemoryArea.length] at hentrys
  rw [Used, Bitmap.free_eq, hs.byteOf ha hi, hmem, splice,
    if_pos ⟨Nat.le_add_right _ _, by omega⟩]
  simp [bit]

/-- A fresh manager gives its last page and marks the last entry. -/
theorem marks_initialised (ha : area.TwoPages) (mem : Nat → UInt8)
    (htwo : 2 ≤ (initialised mem area).pageBm.entrys) (kernel : Bool) :
    Marks (initialised mem area) kernel
      ((initialised mem area).pageBm.entrys - 1) := by
  have hs := setUp_initialised mem ha
  obtain ⟨j, m, hj, hfound, hgo⟩ := pageAlloc_given hs ha kernel
  have hlast : (initialised mem area).pageBm.entrys - 1 <
      (initialised mem area).pageBm.entrys := by omega
  have hclear := not_used_initialised mem ha hlast
  refine ⟨hlast, hclear, ?_⟩
  rcases hfound with ⟨h₁, _, habove, rfl⟩ | ⟨rfl, hall, _⟩
  · obtain rfl : j = (initialised mem area).pageBm.entrys - 1 := by
      refine Nat.le_antisymm (by omega) (Nat.le_of_not_lt fun hlt => ?_)
      exact hclear (habove _ hlt hlast)
    have hfirst := hs.first_le ha
    have hp := (hs.fit ha).pages
    have hk : (initialised mem area).curKernelBound =
        (initialised mem area).firstAddress := rfl
    rw [hgo, used_given hs ha hj hj, if_neg fun hbad => by
      have hbad := hbad.1
      simp only [pageAt] at hbad hfirst
      omega, free_marked (hs.inside ha hj) (hs.inside ha hj), if_pos rfl]
  · exact absurd (hall _ (by omega) hlast) hclear

/-- Allocating and freeing work on one entry exactly if the area lets them count
from the same page, or has no entry but entry zero. -/
theorem pageFree_same_iff (mem : Nat → UInt8) (ha : area.TwoPages) :
    FreesSame (initialised mem area) ↔ area.pages = 2 ∨ area.Agrees := by
  have hs := setUp_initialised mem ha
  have htwo : area.pages = 2 ∨ 2 ≤ (initialised mem area).pageBm.entrys := by
    have hentrys := hs.entrys
    obtain ⟨hroom, hhigh⟩ := ha
    simp only [MemoryArea.length, MemoryArea.pages] at hentrys ⊢
    omega
  constructor
  · intro h
    refine htwo.imp id fun htwo => ?_
    -- the first page of all, freed at once
    have hmarks := marks_initialised ha mem htwo false
    obtain ⟨h₁, hpage⟩ := hmarks.page hs ha
    have ht := hs.constant (pageAlloc_keeps (initialised mem area) false).1
    have hentrys : ((initialised mem area).pageAlloc false).2.pageBm.entrys =
        (initialised mem area).pageBm.entrys := by rw [ht.entrys, hs.entrys]
    have hiff := h _ false _ .refl hmarks _ .refl
      ((initialised mem area).pageBm.entrys - 1) (by omega)
    rw [pageFree_used (ht.inside ha (by omega)), hpage, ht.firstAddress,
      ← hs.firstAddress] at hiff
    refine (index_iff hs ha h₁ (by omega)).1 ?_
    by_contra hne
    exact (hiff.1 ⟨hmarks.2.2, fun heq => hne heq.symm⟩).2 rfl
  · intro hcond s kernel i hrun hmarks t hrun' l hl
    have hs' := hs.reaches hrun
    have ht := (hs'.constant (pageAlloc_keeps s kernel).1).reaches hrun'
    obtain ⟨h₁, hpage⟩ := hmarks.page hs' ha
    have hagree : area.Agrees := by
      refine hcond.resolve_left fun hpages => ?_
      have hi := hmarks.1
      have hentrys := hs'.entrys
      simp only [MemoryArea.length] at hentrys
      omega
    have hindex := (index_iff hs' ha h₁ hmarks.1).2 hagree
    rw [pageFree_used (ht.inside ha hl), hpage, ht.firstAddress,
      ← hs'.firstAddress, hindex]

theorem smallArea_frees_same : FreesSame smallArea := by
  have ha : (⟨0x100000, 0x110000⟩ : MemoryArea).TwoPages := ⟨by decide, by decide⟩
  refine (pageFree_same_iff (fun _ => 0) ha).2 (.inr ?_)
  rw [MemoryArea.Agrees]
  decide

/-- Three pages: the last one is freed as if it were one further. -/
theorem threePages_frees_other :
    ¬ FreesSame (initialised (fun _ => 0) ⟨0x100000, 0x103000⟩) := by
  intro h
  have hmarks : Marks (initialised (fun _ => 0) ⟨0x100000, 0x103000⟩) false 1 := by
    refine ⟨?_, ?_, ?_⟩ <;> decide +kernel
  have hkept := (h _ false 1 .refl hmarks _ .refl 1 (by decide +kernel)).1
  revert hkept
  decide +kernel

end Iposix.Mm
