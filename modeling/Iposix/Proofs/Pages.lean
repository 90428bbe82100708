import Iposix.Proofs.HeapRuns
import Iposix.Proofs.PageBitmap

/-!
# What the page calls do

Page `i` ends `entrys - i - 1` pages below `last_address`. `page_alloc` looks
for the last free entry and marks it; entry zero it never looks at, so with
all others in use it answers with page zero whether or not that is taken.
`page_free` computes the entry from the other end, from `first_address`.

`PagesUsable` is what the two need of the manager to be right about an entry:
there are entries, and their bits lie below the heap. It is a property of the
memory area, since nothing it speaks of ever changes.
-/

namespace Iposix.Mm

open Iposix.Lib Splitted

/-- A page as its owner sees it, with the flag it was allocated with. -/
structure Page where
  addr : Nat
  kernel : Bool
  deriving DecidableEq

/-- Where `page_alloc` takes entry `i` to lie. -/
def pageAt (s : Splitted) (i : Nat) : Nat :=
  s.lastAddress - 4096 * (s.pageBm.entrys - i)

/-- The entry is marked as not free. -/
def Used (s : Splitted) (i : Nat) : Prop := s.pageBm.free s.mem i = false

/-- There are entries, and their pages are addresses. -/
structure PagesFit (s : Splitted) : Prop where
  entrys : 1 ≤ s.pageBm.entrys
  pages : 4096 * s.pageBm.entrys ≤ s.lastAddress
  last : s.lastAddress < 4294967296

structure PagesUsable (s : Splitted) : Prop where
  entrys : 1 ≤ s.pageBm.entrys
  pages : 4096 * s.pageBm.entrys ≤ s.lastAddress
  last : s.lastAddress < 4294967296
  bitmap : s.pageBm.data + (s.pageBm.entrys - 1) / 4 < s.firstAddress
  first : s.firstAddress < 4294967296
  low : 8 ≤ s.pageBm.data

/-- What a page operation keeps. -/
structure PageFrame (s t : Splitted) : Prop where
  isInitialized : t.isInitialized = s.isInitialized
  firstAddress : t.firstAddress = s.firstAddress
  curKernelBound : t.curKernelBound = s.curKernelBound
  maxKernelBound : t.maxKernelBound = s.maxKernelBound
  lastAddress : t.lastAddress = s.lastAddress
  pageBm : t.pageBm = s.pageBm
  firstStructure : t.firstStructure = s.firstStructure
  mem : ∀ a, s.firstAddress ≤ a → t.mem a = s.mem a

theorem PageFrame.refl (s : Splitted) : PageFrame s s :=
  ⟨rfl, rfl, rfl, rfl, rfl, rfl, rfl, fun _ _ => rfl⟩

theorem PageFrame.trans {s t u : Splitted} (h : PageFrame s t)
    (h' : PageFrame t u) : PageFrame s u where
  isInitialized := h'.isInitialized.trans h.isInitialized
  firstAddress := h'.firstAddress.trans h.firstAddress
  curKernelBound := h'.curKernelBound.trans h.curKernelBound
  maxKernelBound := h'.maxKernelBound.trans h.maxKernelBound
  lastAddress := h'.lastAddress.trans h.lastAddress
  pageBm := h'.pageBm.trans h.pageBm
  firstStructure := h'.firstStructure.trans h.firstStructure
  mem := fun a ha => (h'.mem a (h.firstAddress ▸ ha)).trans (h.mem a ha)

variable {s t : Splitted} {i j : Nat}

theorem PagesUsable.fit (h : PagesUsable s) : PagesFit s :=
  ⟨h.entrys, h.pages, h.last⟩

theorem PagesUsable.inside (h : PagesUsable s) (hi : i < s.pageBm.entrys) :
    s.pageBm.Inside i := by
  obtain ⟨_, hp, hl, hb, hf, _⟩ := h
  refine ⟨?_, ?_⟩ <;> omega

theorem PagesUsable.byteOf_lt (h : PagesUsable s)
    (hi : i < s.pageBm.entrys) :
    8 ≤ s.pageBm.byteOf i ∧ s.pageBm.byteOf i < s.firstAddress := by
  have hb := h.bitmap
  have hl := h.low
  rw [Bitmap.byteOf_eq (h.inside hi)]
  omega

theorem pageAt_succ (h : PagesFit s) (hi : i + 1 < s.pageBm.entrys) :
    u32 ((pageAt s (i + 1) : Int) - (4096 : Nat)) = pageAt s i := by
  have hp := h.pages
  have hl := h.last
  simp only [u32, pageAt]
  omega

theorem pageAt_inj (h : PagesFit s) (hi : i < s.pageBm.entrys)
    (heq : pageAt s i = pageAt s j) : i = j := by
  have hp := h.pages
  simp only [pageAt] at heq
  omega

theorem pageAt_disjoint (h : PagesUsable s) (hi : i < s.pageBm.entrys)
    (hj : j < s.pageBm.entrys) (hne : i ≠ j) :
    pageAt s i + 4096 ≤ pageAt s j ∨ pageAt s j + 4096 ≤ pageAt s i := by
  have hp := h.pages
  simp only [pageAt]
  omega

/-! ## Searching an entry -/

theorem findPage_spec (h : PagesFit s) (kernel : Bool) :
    ∀ i, i < s.pageBm.entrys →
      (∃ j, 1 ≤ j ∧ j ≤ i ∧ ¬ Used s j ∧ (∀ l, j < l → l ≤ i → Used s l) ∧
        findPage s.pageBm kernel s.mem i (pageAt s i) =
          (j, pageAt s j, s.pageBm.setKernel (s.pageBm.setFree s.mem j false)
            j kernel)) ∨
      ((∀ j, 1 ≤ j → j ≤ i → Used s j) ∧
        findPage s.pageBm kernel s.mem i (pageAt s i) =
          (0, pageAt s 0, s.mem)) := by
  intro i
  induction i with
  | zero =>
      intro _
      exact .inr ⟨fun j h₁ h₂ => by omega, rfl⟩
  | succ i ih =>
      intro hi
      rw [findPage, PAGE_SIZE, pageAt_succ h hi]
      cases hf : s.pageBm.free s.mem (i + 1) with
      | true =>
          refine .inl ⟨i + 1, by omega, Nat.le_refl _, ?_, fun l h₁ h₂ => by omega,
            if_pos rfl⟩
          rw [Used, hf]
          simp
      | false =>
          rw [if_neg (by simp)]
          have hstep : ∀ l, l ≤ i + 1 → (l ≤ i → Used s l) → Used s l := by
            intro l hl hused
            rcases Nat.lt_or_ge i l with hil | hil
            · obtain rfl : l = i + 1 := by omega
              exact hf
            · exact hused hil
          rcases ih (by omega) with ⟨j, h₁, hji, hfree, habove, hgo⟩ | ⟨hall, hgo⟩
          · exact .inl ⟨j, h₁, by omega, hfree,
              fun l hjl hl => hstep l hl (habove l hjl), hgo⟩
          · exact .inr ⟨fun l h₁ hl => hstep l hl (hall l h₁), hgo⟩

/-- The memory after both bits of an entry have been set. -/
def marked (s : Splitted) (m : Nat → UInt8) (j : Nat) (isFree isKernel : Bool) :
    Nat → UInt8 :=
  s.pageBm.setKernel (s.pageBm.setFree m j isFree) j isKernel

theorem free_marked (hj : s.pageBm.Inside j) (hi : s.pageBm.Inside i)
    (m : Nat → UInt8) (isFree isKernel : Bool) :
    s.pageBm.free (marked s m j isFree isKernel) i =
      if i = j then isFree else s.pageBm.free m i := by
  rw [marked, Bitmap.free_setKernel, Bitmap.free_setFree hj.1 hi.1]

theorem marked_apply {m : Nat → UInt8} {isFree isKernel : Bool} {a : Nat}
    (ha : a ≠ s.pageBm.byteOf j) : marked s m j isFree isKernel a = m a := by
  rw [marked, Bitmap.setKernel_apply ha, Bitmap.setFree_apply ha]

/-- A manager whose bitmap bytes were changed, and maybe its user bound. -/
theorem pageFrame_of_bitmap (h : PagesUsable s) (hi : i < s.pageBm.entrys)
    {m : Nat → UInt8} (hm : ∀ a, a ≠ s.pageBm.byteOf i → m a = s.mem a)
    (c : Nat) : PageFrame s { s with mem := m, curUserBound := c } := by
  refine ⟨rfl, rfl, rfl, rfl, rfl, rfl, rfl, fun a ha => hm a ?_⟩
  have hb := h.byteOf_lt hi
  omega

/-- What `page_alloc` makes of the entry it found, whose page is `pageAt s j`:
the page may lie in the kernel heap, where the entry is freed again, or below
the old bound of the heap, whose memory is then cleared. -/
def given (s : Splitted) (j : Nat) (m : Nat → UInt8) : Nat × Splitted :=
  if s.curKernelBound > pageAt s j then
    (0, { s with mem := marked s m j true false })
  else
    (pageAt s j, { s with
      mem :=
        if s.maxKernelBound > pageAt s j then
          splice m (pageAt s j)
            ((s.maxKernelBound - pageAt s j + 3) / 4 * 4) fun _ => 0
        else m
      maxKernelBound :=
        if s.maxKernelBound > pageAt s j then pageAt s j else s.maxKernelBound
      curUserBound :=
        if s.curUserBound > pageAt s j then pageAt s j else s.curUserBound })

/-- The same where the heap never reached further than it does. -/
def taken (s : Splitted) (j : Nat) (m : Nat → UInt8) : Nat × Splitted :=
  if s.curKernelBound > pageAt s j then
    (0, { s with mem := marked s m j true false })
  else
    (pageAt s j, { s with
      mem := m
      curUserBound :=
        if s.curUserBound > pageAt s j then pageAt s j else s.curUserBound })

theorem given_eq_taken (hmax : s.maxKernelBound = s.curKernelBound)
    (j : Nat) (m : Nat → UInt8) : given s j m = taken s j m := by
  rw [given, taken]
  by_cases hkernel : s.curKernelBound > pageAt s j
  · rw [if_pos hkernel, if_pos hkernel]
  · rw [if_neg hkernel, if_neg hkernel]
    simp only [hmax, hkernel, if_false]

/-- What the search of `page_alloc` ends with: the last free entry, marked, or
entry zero and nothing marked. -/
def Found (s : Splitted) (kernel : Bool) (j : Nat) (m : Nat → UInt8) : Prop :=
  1 ≤ j ∧ ¬ Used s j ∧ (∀ l, j < l → l < s.pageBm.entrys → Used s l) ∧
      m = marked s s.mem j false kernel ∨
    j = 0 ∧ (∀ l, 1 ≤ l → l < s.pageBm.entrys → Used s l) ∧ m = s.mem

theorem pageAlloc_found (h : PagesFit s) (kernel : Bool) :
    ∃ j m, j < s.pageBm.entrys ∧ Found s kernel j m ∧
      s.pageAlloc kernel =
        if pageAt s j = 0 then (0, { s with mem := m }) else given s j m := by
  obtain ⟨hL, hp, hl⟩ := h
  have hi : u64 ((s.pageBm.entrys : Int) - 1) = s.pageBm.entrys - 1 := by
    simp only [u64]
    omega
  have hret : u32 ((s.lastAddress : Int) - (4096 : Nat)) =
      pageAt s (s.pageBm.entrys - 1) := by
    simp only [u32, pageAt]
    omega
  have hgo : ∀ j m, findPage s.pageBm kernel s.mem (s.pageBm.entrys - 1)
      (pageAt s (s.pageBm.entrys - 1)) = (j, pageAt s j, m) →
      s.pageAlloc kernel =
        if pageAt s j = 0 then (0, { s with mem := m }) else given s j m := by
    intro j m hfind
    rw [pageAlloc, PAGE_SIZE, hi, hret, hfind, given]
    dsimp only
    by_cases h0 : pageAt s j = 0
    · rw [if_pos h0, if_pos h0, h0]
    · rw [if_neg h0, if_neg h0]
      rfl
  rcases findPage_spec ⟨hL, hp, hl⟩ kernel (s.pageBm.entrys - 1) (by omega) with
    ⟨j, h₁, hj, hfree, habove, hfind⟩ | ⟨hall, hfind⟩
  · exact ⟨j, _, by omega, .inl ⟨h₁, hfree, fun l hjl hl => habove l hjl (by omega),
      rfl⟩, hgo j _ hfind⟩
  · exact ⟨0, s.mem, hL, .inr ⟨rfl, fun l h₁ hl => hall l h₁ (by omega), rfl⟩,
      hgo 0 s.mem hfind⟩

/-- Either the last free entry is taken, or there is none but entry zero. -/
theorem pageAlloc_cases (h : PagesUsable s)
    (hmax : s.maxKernelBound = s.curKernelBound) (kernel : Bool) :
    (∃ j, 1 ≤ j ∧ j < s.pageBm.entrys ∧ ¬ Used s j ∧
      (∀ l, j < l → l < s.pageBm.entrys → Used s l) ∧
      s.pageAlloc kernel = taken s j (marked s s.mem j false kernel)) ∨
    ((∀ l, 1 ≤ l → l < s.pageBm.entrys → Used s l) ∧
      s.pageAlloc kernel =
        if pageAt s 0 = 0 then (0, s) else taken s 0 s.mem) := by
  have hp := h.pages
  obtain ⟨j, m, hj, hfound, hgo⟩ := pageAlloc_found h.fit kernel
  rw [given_eq_taken hmax] at hgo
  rcases hfound with ⟨h₁, hfree, habove, rfl⟩ | ⟨rfl, hall, rfl⟩
  · rw [if_neg (by simp only [pageAt]; omega)] at hgo
    exact .inl ⟨j, h₁, hj, hfree, habove, hgo⟩
  · exact .inr ⟨hall, hgo⟩

theorem pageFrame_taken (h : PagesUsable s) (hj : j < s.pageBm.entrys)
    {m : Nat → UInt8} (hm : ∀ a, a ≠ s.pageBm.byteOf j → m a = s.mem a) :
    PageFrame s (taken s j m).2 := by
  rw [taken]
  split
  · exact pageFrame_of_bitmap h hj (fun a ha => by rw [marked_apply ha, hm a ha])
      s.curUserBound
  · exact pageFrame_of_bitmap h hj hm _

/-- The bits after the entry has been taken: it is used now, unless its page
lies in the heap. -/
theorem used_taken (h : PagesUsable s) (hj : j < s.pageBm.entrys)
    (hi : i < s.pageBm.entrys) (m : Nat → UInt8) :
    Used (taken s j m).2 i ↔
      if s.curKernelBound > pageAt s j ∧ i = j then False
      else s.pageBm.free m i = false := by
  rw [taken, Used]
  by_cases hkernel : s.curKernelBound > pageAt s j
  · rw [if_pos hkernel]
    show s.pageBm.free (marked s m j true false) i = false ↔ _
    rw [free_marked (h.inside hj) (h.inside hi)]
    by_cases hij : i = j <;> simp [hkernel, hij]
  · rw [if_neg hkernel]
    simp [hkernel]

/-- Either nothing is handed out, or page `j` is, which was free or is the
page zero that is handed out when no other is left. No used entry is freed. -/
theorem pageAlloc_spec (h : PagesUsable s)
    (hmax : s.maxKernelBound = s.curKernelBound) (kernel : Bool) :
    ∃ r t j, s.pageAlloc kernel = (r, t) ∧ PageFrame s t ∧
      j < s.pageBm.entrys ∧
      (1 ≤ j ∧ ¬ Used s j ∨
        j = 0 ∧ ∀ i, 1 ≤ i → i < s.pageBm.entrys → Used s i) ∧
      (∀ i, 1 ≤ i → i < s.pageBm.entrys → Used s i → Used t i) ∧
      (r = 0 ∧ t.curUserBound = s.curUserBound ∨
        r = pageAt s j ∧ (1 ≤ j → Used t j) ∧ s.curKernelBound ≤ r ∧
          t.curUserBound ≤ r ∧ t.curUserBound ≤ s.curUserBound) := by
  have hres : ∀ j m, (1 ≤ j → s.pageBm.free m j = false) →
      ((taken s j m).1 = 0 ∧ (taken s j m).2.curUserBound = s.curUserBound ∨
        (taken s j m).1 = pageAt s j ∧ (1 ≤ j → Used (taken s j m).2 j) ∧
          s.curKernelBound ≤ (taken s j m).1 ∧
          (taken s j m).2.curUserBound ≤ (taken s j m).1 ∧
          (taken s j m).2.curUserBound ≤ s.curUserBound) := by
    intro j m hmark
    rw [taken]
    by_cases hkernel : s.curKernelBound > pageAt s j
    · rw [if_pos hkernel]
      exact .inl ⟨rfl, rfl⟩
    · rw [if_neg hkernel]
      refine .inr ⟨rfl, hmark, Nat.le_of_not_lt hkernel, ?_, ?_⟩ <;>
        dsimp only <;> split <;> omega
  rcases pageAlloc_cases h hmax kernel with ⟨j, h₁, hj, hfree, _, hgo⟩ |
    ⟨hall, hgo⟩
  · refine ⟨(taken s j (marked s s.mem j false kernel)).1,
      (taken s j (marked s s.mem j false kernel)).2, j, hgo,
      pageFrame_taken h hj fun a ha => marked_apply ha, hj,
      .inl ⟨h₁, hfree⟩, fun i _ hi hused => ?_, hres j _ fun _ => ?_⟩
    · have hij : i ≠ j := fun hij => hfree (hij ▸ hused)
      rw [used_taken h hj hi, if_neg fun hbad => hij hbad.2,
        free_marked (h.inside hj) (h.inside hi), if_neg hij]
      exact hused
    · rw [free_marked (h.inside hj) (h.inside hj), if_pos rfl]
  · have hzero : ∀ i, i < s.pageBm.entrys → 1 ≤ i → Used s i →
        Used (taken s 0 s.mem).2 i := by
      intro i hi h₁ hused
      rw [used_taken h h.entrys hi, if_neg fun hbad => by omega]
      exact hused
    by_cases h0 : pageAt s 0 = 0
    · rw [if_pos h0] at hgo
      exact ⟨0, s, 0, hgo, .refl s, h.entrys, .inr ⟨rfl, hall⟩,
        fun _ _ _ hused => hused, .inl ⟨rfl, rfl⟩⟩
    · rw [if_neg h0] at hgo
      exact ⟨(taken s 0 s.mem).1, (taken s 0 s.mem).2, 0, hgo,
        pageFrame_taken h h.entrys fun _ _ => rfl, h.entrys, .inr ⟨rfl, hall⟩,
        fun i h₁ hi hused => hzero i hi h₁ hused,
        hres 0 _ fun h₁ => absurd h₁ (by decide)⟩

/-! ## Freeing -/

/-- An entry that is not in use is left alone; another one is freed, and the
user bound only moves when the page freed lies at it. -/
theorem pageFree_spec (h : PagesUsable s) {addr : Nat}
    (hi : u32 ((addr : Int) - s.firstAddress) / 4096 = i)
    (hlt : i < s.pageBm.entrys) :
    ∃ b t, s.pageFree addr = (b, t) ∧ PageFrame s t ∧
      (¬ Used s i → t = s) ∧
      (∀ j, j < s.pageBm.entrys → j ≠ i → Used s j → Used t j) ∧
      (addr ≠ s.curUserBound → t.curUserBound = s.curUserBound) := by
  rw [pageFree, PAGE_SIZE, hi]
  cases hf : s.pageBm.free s.mem i with
  | true =>
      exact ⟨false, s, rfl, PageFrame.refl s, fun _ => rfl,
        fun _ _ _ hused => hused, fun _ => rfl⟩
  | false =>
      refine ⟨true, _, rfl, pageFrame_of_bitmap h hlt (fun a ha =>
        Bitmap.setFree_apply ha) _, fun hnot => absurd hf hnot,
        fun j hj hji hused => ?_, fun hne => if_neg hne⟩
      show s.pageBm.free (s.pageBm.setFree s.mem i true) j = false
      rw [Bitmap.free_setFree (h.inside hlt).1 (h.inside hj).1, if_neg hji]
      exact hused

/-- Whatever the address, no entry but the one computed from it changes. -/
theorem pageFree_used (hj : s.pageBm.Inside j) (addr : Nat) :
    Used (s.pageFree addr).2 j ↔
      Used s j ∧ j ≠ u32 ((addr : Int) - s.firstAddress) / 4096 := by
  have hlt : u32 ((addr : Int) - s.firstAddress) / 4096 < 4294967296 := by
    have hu := u32_lt ((addr : Int) - s.firstAddress)
    omega
  rw [pageFree, PAGE_SIZE]
  generalize u32 ((addr : Int) - s.firstAddress) / 4096 = i at hlt ⊢
  cases hf : s.pageBm.free s.mem i with
  | true =>
      refine ⟨fun hused => ⟨hused, ?_⟩, And.left⟩
      rintro rfl
      rw [if_pos rfl, Used, hf] at hused
      cases hused
  | false =>
      show s.pageBm.free (s.pageBm.setFree s.mem i true) j = false ↔ _
      rw [Bitmap.free_setFree hlt hj.1, Used]
      by_cases hji : j = i <;> simp [hji]

end Iposix.Mm
