import Iposix.Proofs.ManagerRuns
import Mathlib.Data.Finset.Max

/-!
# The entries page_alloc can give

`freeEntrys` are the entries whose pages are neither in use nor part of the
kernel heap, without entry zero. `page_alloc` takes the last of them and marks
it. When there are none it marks nothing, and answers with page zero or, where
that lies in the heap, with nothing.

`Ready` is what a manager set up over a usable area keeps in all of this.
-/

namespace Iposix.Mm

open Iposix.Lib Splitted

structure Ready (s : Splitted) : Prop where
  isInitialized : s.isInitialized = true
  usable : PagesUsable s
  max : s.maxKernelBound = s.curKernelBound
  zero : ¬ Used s 0
  above : s.firstAddress ≤ s.curKernelBound

instance (s : Splitted) (i : Nat) : Decidable (Used s i) :=
  inferInstanceAs (Decidable (_ = _))

def freeEntrys (s : Splitted) : Finset Nat :=
  (Finset.range s.pageBm.entrys).filter fun i =>
    1 ≤ i ∧ ¬ Used s i ∧ s.curKernelBound ≤ pageAt s i

/-- The same entries are in use. -/
def SameUse (s t : Splitted) : Prop :=
  ∀ i, i < s.pageBm.entrys → (Used t i ↔ Used s i)

instance (s t : Splitted) : Decidable (SameUse s t) :=
  Nat.decidableBallLT _ _

variable {s t : Splitted} {i j : Nat}

theorem mem_freeEntrys : i ∈ freeEntrys s ↔
    i < s.pageBm.entrys ∧ 1 ≤ i ∧ ¬ Used s i ∧ s.curKernelBound ≤ pageAt s i := by
  rw [freeEntrys, Finset.mem_filter, Finset.mem_range]

/-- A free entry at or below the last one in the heap is no free entry. -/
theorem pageAt_mono (h : i ≤ j) : pageAt s i ≤ pageAt s j := by
  simp only [pageAt]
  omega

theorem Ready.pageFrame (h : Ready s) (hf : PageFrame s t) (hzero : ¬ Used t 0) :
    Ready t := by
  refine ⟨hf.isInitialized.trans h.isInitialized,
    h.usable.congr hf.lastAddress hf.pageBm hf.firstAddress, ?_, hzero, ?_⟩
  · rw [hf.maxKernelBound, hf.curKernelBound, h.max]
  · rw [hf.firstAddress, hf.curKernelBound]
    exact h.above

theorem mem_freeEntrys_frame (hf : PageFrame s t) : i ∈ freeEntrys t ↔
    i < s.pageBm.entrys ∧ 1 ≤ i ∧ ¬ Used t i ∧ s.curKernelBound ≤ pageAt s i := by
  rw [mem_freeEntrys, hf.pageBm, hf.curKernelBound,
    pageAt_congr hf.lastAddress hf.pageBm]

/-! ## Taking one -/

theorem pageAlloc_taken (h : Ready s) (hfree : (freeEntrys s).Nonempty)
    (kernel : Bool) :
    ∃ j, j ∈ freeEntrys s ∧ (∀ i, i ∈ freeEntrys s → i ≤ j) ∧
      (s.pageAlloc kernel).1 = pageAt s j ∧
      PageFrame s (s.pageAlloc kernel).2 ∧
      (∀ i, i < s.pageBm.entrys →
        (Used (s.pageAlloc kernel).2 i ↔ Used s i ∨ i = j)) ∧
      (s.pageAlloc kernel).2.curUserBound = min s.curUserBound (pageAt s j) := by
  obtain ⟨f, hf⟩ := hfree
  obtain ⟨hfL, hf₁, hfused, hfk⟩ := mem_freeEntrys.1 hf
  rcases pageAlloc_cases h.usable h.max kernel with
    ⟨j, h₁, hj, hnot, habove, hgo⟩ | ⟨hall, _⟩
  · have hlast : ∀ i, i < s.pageBm.entrys → ¬ Used s i → i ≤ j := fun i hi hused =>
      Nat.le_of_not_lt fun hji => hused (habove i hji hi)
    have hk : s.curKernelBound ≤ pageAt s j :=
      hfk.trans (pageAt_mono (hlast f hfL hfused))
    have htaken : taken s j (marked s s.mem j false kernel) =
        (pageAt s j, { s with
          mem := marked s s.mem j false kernel
          curUserBound :=
            if s.curUserBound > pageAt s j then pageAt s j
            else s.curUserBound }) := if_neg (by omega)
    have hframe := pageFrame_taken h.usable hj (m := marked s s.mem j false kernel)
      fun a ha => marked_apply ha
    refine ⟨j, mem_freeEntrys.2 ⟨hj, h₁, hnot, hk⟩, fun i hi => ?_, ?_, ?_, ?_, ?_⟩
    · obtain ⟨hiL, _, hiused, _⟩ := mem_freeEntrys.1 hi
      exact hlast i hiL hiused
    · rw [hgo, htaken]
    · rw [hgo]
      exact hframe
    · intro i hi
      rw [hgo, used_taken h.usable hj hi, if_neg fun hbad => by omega,
        free_marked (h.usable.inside hj) (h.usable.inside hi)]
      by_cases hij : i = j <;> simp [hij, Used]
    · rw [hgo, htaken]
      show (if s.curUserBound > pageAt s j then pageAt s j else s.curUserBound) = _
      split <;> omega
  · exact absurd (hall f hf₁ hfL) hfused

/-- None is left. -/
theorem pageAlloc_none (h : Ready s) (hfree : freeEntrys s = ∅) (kernel : Bool) :
    (s.pageAlloc kernel).1 =
        (if s.curKernelBound ≤ pageAt s 0 then pageAt s 0 else 0) ∧
      PageFrame s (s.pageAlloc kernel).2 ∧ SameUse s (s.pageAlloc kernel).2 ∧
      (s.pageAlloc kernel).2.curUserBound ≤ s.curUserBound := by
  have hlow := h.usable.low
  have hbm := h.usable.bitmap
  have habove := h.above
  rcases pageAlloc_cases h.usable h.max kernel with
    ⟨j, h₁, hj, hnot, _, hgo⟩ | ⟨hall, hgo⟩
  · -- the entry found lies in the heap, and page zero even lower
    have hk : s.curKernelBound > pageAt s j := by
      refine Nat.lt_of_not_le fun hk => ?_
      have hmem := mem_freeEntrys.2 ⟨hj, h₁, hnot, hk⟩
      rw [hfree] at hmem
      cases hmem
    have h0 := pageAt_mono (s := s) (Nat.zero_le j)
    rw [hgo, if_neg (by omega)]
    refine ⟨by rw [taken, if_pos hk], pageFrame_taken h.usable hj fun a ha =>
      marked_apply ha, fun i hi => ?_, by rw [taken, if_pos hk]⟩
    rw [used_taken h.usable hj hi, free_marked (h.usable.inside hj) (h.usable.inside hi)]
    by_cases hij : i = j
    · rw [if_pos ⟨hk, hij⟩, hij]
      exact iff_of_false id hnot
    · rw [if_neg fun hbad => hij hbad.2, if_neg hij]
      exact Iff.rfl
  · rw [hgo]
    by_cases h0 : pageAt s 0 = 0
    · rw [if_pos h0, h0, ite_self]
      exact ⟨rfl, .refl s, fun _ _ => Iff.rfl, Nat.le_refl _⟩
    · rw [if_neg h0]
      refine ⟨?_, pageFrame_taken h.usable h.usable.entrys fun _ _ => rfl,
        fun i hi => ?_, ?_⟩
      · rw [taken]
        by_cases hk : s.curKernelBound > pageAt s 0
        · rw [if_pos hk, if_neg (by omega)]
        · rw [if_neg hk, if_pos (Nat.le_of_not_lt hk)]
      · rw [used_taken h.usable h.usable.entrys hi]
        split
        next hbad =>
          rw [hbad.2]
          exact iff_of_false id h.zero
        next => exact Iff.rfl
      · rw [taken]
        split
        · exact Nat.le_refl _
        · dsimp only
          split <;> omega

theorem pageFrame_pageAlloc (h : Ready s) (kernel : Bool) :
    PageFrame s (s.pageAlloc kernel).2 := by
  obtain ⟨r, t, j, hgo, hframe, _⟩ := pageAlloc_spec h.usable h.max kernel
  rw [hgo]
  exact hframe

theorem Ready.pageAlloc (h : Ready s) (kernel : Bool) :
    Ready (s.pageAlloc kernel).2 := by
  rcases Finset.eq_empty_or_nonempty (freeEntrys s) with hfree | hfree
  · obtain ⟨_, hframe, hsame, _⟩ := pageAlloc_none h hfree kernel
    exact h.pageFrame hframe fun hused => h.zero ((hsame 0 h.usable.entrys).1 hused)
  · obtain ⟨j, hj, _, _, hframe, hused, _⟩ := pageAlloc_taken h hfree kernel
    obtain ⟨_, h₁, _⟩ := mem_freeEntrys.1 hj
    refine h.pageFrame hframe fun hzero => ?_
    rcases (hused 0 h.usable.entrys).1 hzero with hzero | hzero
    · exact h.zero hzero
    · omega

theorem used_pageAlloc (h : Ready s) (kernel : Bool) (hi : i < s.pageBm.entrys)
    (hused : Used s i) : Used (s.pageAlloc kernel).2 i := by
  rcases Finset.eq_empty_or_nonempty (freeEntrys s) with hfree | hfree
  · obtain ⟨_, _, hsame, _⟩ := pageAlloc_none h hfree kernel
    exact (hsame i hi).2 hused
  · obtain ⟨j, _, _, _, _, hmark, _⟩ := pageAlloc_taken h hfree kernel
    exact (hmark i hi).2 (.inl hused)

/-! ## Giving back -/

/-- The fields a page operation never changes, whatever its address is. -/
theorem pageFree_fields (s : Splitted) (addr : Nat) :
    (s.pageFree addr).2.isInitialized = s.isInitialized ∧
      (s.pageFree addr).2.firstAddress = s.firstAddress ∧
      (s.pageFree addr).2.curKernelBound = s.curKernelBound ∧
      (s.pageFree addr).2.maxKernelBound = s.maxKernelBound ∧
      (s.pageFree addr).2.lastAddress = s.lastAddress ∧
      (s.pageFree addr).2.pageBm = s.pageBm := by
  rw [pageFree]
  dsimp only
  split <;> exact ⟨rfl, rfl, rfl, rfl, rfl, rfl⟩

theorem Ready.pageFree (h : Ready s) (addr : Nat) : Ready (s.pageFree addr).2 := by
  obtain ⟨hinit, hfirst, hkernel, hmax, hlast, hbm⟩ := pageFree_fields s addr
  refine ⟨hinit.trans h.isInitialized, h.usable.congr hlast hbm hfirst, ?_,
    fun hused => ?_, ?_⟩
  · rw [hmax, hkernel, h.max]
  · exact h.zero ((pageFree_used (h.usable.inside h.usable.entrys) addr).1 hused).1
  · rw [hfirst, hkernel]
    exact h.above

theorem Ready.free (h : Ready s) (addr : Nat) : Ready (s.free addr false).2 := by
  rw [free_page]
  split
  · exact h.pageFree addr
  · exact h

/-! ## Taking some and giving them back -/

/-- `t` is `s` with the entries of the list taken, from the last one down. -/
structure Taken (s t : Splitted) (js : List Nat) : Prop where
  frame : PageFrame s t
  ready : Ready t
  free : ∀ j, j ∈ js → j ∈ freeEntrys s
  used : ∀ i, i < s.pageBm.entrys → (Used t i ↔ Used s i ∨ i ∈ js)
  descending : js.Pairwise fun j l => l < j
  border : ∀ j, j ∈ js → t.curUserBound ≤ pageAt s j

/-- And none of those left lies behind one of them. -/
structure TakenLast (s t : Splitted) (js : List Nat) : Prop
    extends Taken s t js where
  last : ∀ i, i ∈ freeEntrys t → ∀ j, j ∈ js → i < j

variable {js : List Nat}

theorem TakenLast.start (h : Ready s) : TakenLast s s [] where
  frame := .refl s
  ready := h
  free := fun j hj => (nomatch hj)
  used := fun i _ => by simp
  descending := List.Pairwise.nil
  border := fun j hj => (nomatch hj)
  last := fun _ _ j hj => (nomatch hj)

theorem Taken.mem_freeEntrys (h : Taken s t js) :
    i ∈ freeEntrys t ↔ i ∈ freeEntrys s ∧ i ∉ js := by
  rw [mem_freeEntrys_frame h.frame, Mm.mem_freeEntrys]
  constructor
  · rintro ⟨hi, h₁, hused, hk⟩
    rw [h.used i hi, not_or] at hused
    exact ⟨⟨hi, h₁, hused.1, hk⟩, hused.2⟩
  · rintro ⟨⟨hi, h₁, hused, hk⟩, hjs⟩
    exact ⟨hi, h₁, fun h' => ((h.used i hi).1 h').elim hused hjs, hk⟩

/-- One more is taken. -/
theorem TakenLast.taken (h : TakenLast s t js) (hfree : (freeEntrys t).Nonempty)
    (kernel : Bool) :
    ∃ j, j ∈ freeEntrys t ∧ (t.pageAlloc kernel).1 = pageAt s j ∧
      TakenLast s (t.pageAlloc kernel).2 (js ++ [j]) ∧
      freeEntrys (t.pageAlloc kernel).2 = (freeEntrys t).erase j := by
  obtain ⟨j, hj, hmax, hret, hframe, hused, hbound⟩ :=
    pageAlloc_taken h.ready hfree kernel
  have hbm := h.frame.pageBm
  have hready := h.ready.pageAlloc kernel
  generalize t.pageAlloc kernel = r at hret hframe hused hbound hready ⊢
  have hpage : pageAt t j = pageAt s j :=
    pageAt_congr h.frame.lastAddress hbm j
  have hborder : r.2.curUserBound ≤ pageAt s j := by
    rw [hbound, hpage]
    exact Nat.min_le_right _ _
  have herase : ∀ i, i ∈ freeEntrys r.2 ↔ i ≠ j ∧ i ∈ freeEntrys t := by
    intro i
    rw [mem_freeEntrys_frame hframe, Mm.mem_freeEntrys]
    constructor
    · rintro ⟨hi, h₁, hnot, hk⟩
      rw [hused i hi, not_or] at hnot
      exact ⟨hnot.2, hi, h₁, hnot.1, hk⟩
    · rintro ⟨hij, hi, h₁, hnot, hk⟩
      exact ⟨hi, h₁, fun h' => ((hused i hi).1 h').elim hnot hij, hk⟩
  refine ⟨j, hj, hret.trans hpage, ⟨⟨?_, hready, fun l hl => ?_, fun i hi => ?_,
    ?_, fun l hl => ?_⟩, fun i hi l hl => ?_⟩, ?_⟩
  · exact h.frame.trans hframe
  · rcases List.mem_append.1 hl with hl | hl
    · exact h.free l hl
    · rw [List.mem_singleton.1 hl]
      exact (h.mem_freeEntrys.1 hj).1
  · rw [hused i (hbm.symm ▸ hi), h.used i hi, List.mem_append,
      List.mem_singleton, or_assoc]
  · refine List.pairwise_append.2 ⟨h.descending, List.pairwise_singleton _ _,
      fun l hl l' hl' => ?_⟩
    rw [List.mem_singleton.1 hl']
    exact h.last j hj l hl
  · rcases List.mem_append.1 hl with hl | hl
    · have hold := h.border l hl
      rw [hbound]
      exact (Nat.min_le_left _ _).trans hold
    · rw [List.mem_singleton.1 hl]
      exact hborder
  · obtain ⟨hij, hi⟩ := (herase i).1 hi
    rcases List.mem_append.1 hl with hl | hl
    · exact h.last i hi l hl
    · rw [List.mem_singleton.1 hl]
      exact Nat.lt_of_le_of_ne (hmax i hi) hij
  · ext i
    rw [herase, Finset.mem_erase]

/-- None is left. -/
theorem TakenLast.none (h : TakenLast s t js) (hfree : freeEntrys t = ∅)
    (kernel : Bool) :
    (t.pageAlloc kernel).1 =
        (if s.curKernelBound ≤ pageAt s 0 then pageAt s 0 else 0) ∧
      TakenLast s (t.pageAlloc kernel).2 js ∧
      freeEntrys (t.pageAlloc kernel).2 = ∅ := by
  obtain ⟨hret, hframe, hsame, hbound⟩ := pageAlloc_none h.ready hfree kernel
  have hbm := h.frame.pageBm
  have hready := h.ready.pageAlloc kernel
  generalize t.pageAlloc kernel = r at hret hframe hsame hbound hready ⊢
  have hempty : ∀ i, i ∉ freeEntrys r.2 := by
    intro i hi
    obtain ⟨hi, h₁, hnot, hk⟩ := (mem_freeEntrys_frame hframe).1 hi
    have hmem := Mm.mem_freeEntrys.2 ⟨hi, h₁, mt (hsame i hi).2 hnot, hk⟩
    rw [hfree] at hmem
    cases hmem
  refine ⟨?_, ⟨⟨h.frame.trans hframe, hready, h.free, fun i hi => ?_,
    h.descending, fun j hj => hbound.trans (h.border j hj)⟩,
    fun i hi => absurd hi (hempty i)⟩, Finset.eq_empty_iff_forall_notMem.2 hempty⟩
  · rw [hret, pageAt_congr h.frame.lastAddress hbm, h.frame.curKernelBound]
  · rw [hsame i (hbm.symm ▸ hi), h.used i hi]

/-- `page_alloc` and `page_free` count from the same page. -/
def Agrees (s : Splitted) : Prop :=
  s.firstAddress ≤ pageAt s 0 ∧ pageAt s 0 < s.firstAddress + 4096

instance (s : Splitted) : Decidable (Agrees s) :=
  inferInstanceAs (Decidable (_ ∧ _))

def releaseAll (s : Splitted) : List Nat → Splitted
  | [] => s
  | addr :: addresses => releaseAll (s.free addr false).2 addresses

/-- What the entries taken say about their pages. -/
theorem Taken.page (h : Taken s t js) (hj : j ∈ js) :
    j < s.pageBm.entrys ∧ ¬ Used s j ∧ pageAt s j = pageAt s 0 + 4096 * j ∧
      s.firstAddress ≤ pageAt s j ∧ pageAt s j ≤ s.lastAddress ∧
      u32 ((pageAt s j : Int) - t.firstAddress) / 4096 =
        (pageAt s j - s.firstAddress) / 4096 := by
  obtain ⟨hi, _, hnot, hk⟩ := Mm.mem_freeEntrys.1 (h.free j hj)
  have hu := h.ready.usable
  have hpages := hu.pages
  have hlast := hu.last
  have habove := h.ready.above
  rw [h.frame.firstAddress, h.frame.curKernelBound] at habove
  rw [h.frame.lastAddress] at hlast
  rw [h.frame.lastAddress, h.frame.pageBm] at hpages
  have hle : pageAt s j ≤ s.lastAddress := Nat.sub_le _ _
  have hu32 : u32 ((pageAt s j : Int) - s.firstAddress) =
      pageAt s j - s.firstAddress := by
    simp only [u32]
    omega
  refine ⟨hi, hnot, ?_, by omega, hle, by rw [h.frame.firstAddress, hu32]⟩
  simp only [pageAt]
  omega

theorem Taken.bound_pos (h : Taken s t js) : 0 < s.curKernelBound := by
  have hlow := h.ready.usable.low
  have hbm := h.ready.usable.bitmap
  have habove := h.ready.above
  rw [h.frame.curKernelBound] at habove
  omega

/-- One page is given back, and no other one moves the border. -/
theorem Taken.release (h : Taken s t (j :: js)) (hagree : Agrees s) :
    Taken s (t.free (pageAt s j) false).2 js := by
  obtain ⟨hi, hnot, hpage, hfirst, hle, hindex⟩ := h.page List.mem_cons_self
  obtain ⟨hlow, hhigh⟩ := hagree
  have hij : u32 ((pageAt s j : Int) - t.firstAddress) / 4096 = j := by omega
  obtain ⟨hnext, hdesc⟩ := List.pairwise_cons.1 h.descending
  obtain ⟨b, t', hgo, hframe, _, _, hbound⟩ :=
    pageFree_spec h.ready.usable hij (h.frame.pageBm.symm ▸ hi)
  have hready := h.ready.pageFree (pageAt s j)
  have hused : ∀ i, i < s.pageBm.entrys →
      (Used (t.pageFree (pageAt s j)).2 i ↔ Used t i ∧ i ≠ j) := fun i hi => by
    rw [pageFree_used (h.ready.usable.inside (h.frame.pageBm.symm ▸ hi)), hij]
  rw [free_page, if_pos ⟨h.ready.isInitialized, h.border j List.mem_cons_self,
    h.frame.lastAddress.symm ▸ hle⟩]
  rw [hgo] at hready hused ⊢
  refine ⟨h.frame.trans hframe, hready,
    fun l hl => h.free l (List.mem_cons_of_mem j hl), fun i hi => ?_, hdesc,
    fun l hl => ?_⟩
  · rw [hused i hi, h.used i hi, List.mem_cons]
    constructor
    · rintro ⟨hu | hij | hjs, hne⟩
      · exact .inl hu
      · exact absurd hij hne
      · exact .inr hjs
    · rintro (hu | hjs)
      · exact ⟨.inl hu, fun hij => hnot (hij ▸ hu)⟩
      · exact ⟨.inr (.inr hjs), fun hij => absurd (hnext i hjs) (by omega)⟩
  · -- the page given back lies above the one at the border
    have hborder := h.border l (List.mem_cons_of_mem j hl)
    have hlj := hnext l hl
    have hpage' := (h.page (List.mem_cons_of_mem j hl)).2.2.1
    rw [hbound (by omega)]
    exact hborder

theorem Taken.restored (hagree : Agrees s) : ∀ {js : List Nat} {t : Splitted},
    Taken s t js → SameUse s (releaseAll t (js.map (pageAt s))) := by
  intro js
  induction js with
  | nil => intro t h i hi; simp [releaseAll, h.used i hi]
  | cons j js ih => intro t h; exact ih (h.release hagree)

/-- An entry that none of the addresses leads to is not given back. -/
theorem used_releaseAll {l : Nat} : ∀ {addresses : List Nat} {t : Splitted},
    Ready t → l < t.pageBm.entrys → Used t l →
    (∀ addr, addr ∈ addresses → u32 ((addr : Int) - t.firstAddress) / 4096 ≠ l) →
    Used (releaseAll t addresses) l := by
  intro addresses
  induction addresses with
  | nil => intro t _ _ hused _; exact hused
  | cons addr addresses ih =>
      intro t h hl hused hindex
      have hne := hindex addr List.mem_cons_self
      rw [releaseAll, free_page]
      split
      · obtain ⟨_, hfirst, _, _, _, hbm⟩ := pageFree_fields t addr
        exact ih (h.pageFree addr) (hbm.symm ▸ hl)
          ((pageFree_used (h.usable.inside hl) addr).2 ⟨hused, hne.symm⟩)
          fun a ha => hfirst.symm ▸ hindex a (List.mem_cons_of_mem addr ha)
      · exact ih h hl hused fun a ha => hindex a (List.mem_cons_of_mem addr ha)

/-- Where the two count from different pages, the last or the first of the
entries taken is left behind. -/
theorem Taken.leaks (h : Taken s t js) (hne : js ≠ []) (hagree : ¬ Agrees s) :
    ¬ SameUse s (releaseAll t (js.map (pageAt s))) := by
  have hleft : ∀ l, l ∈ js → (∀ j, j ∈ js →
      (pageAt s j - s.firstAddress) / 4096 ≠ l) →
      ¬ SameUse s (releaseAll t (js.map (pageAt s))) := by
    intro l hl hindex hsame
    obtain ⟨hi, hnot, _⟩ := h.page hl
    refine hnot ((hsame l hi).1 (used_releaseAll h.ready (h.frame.pageBm.symm ▸ hi)
      ((h.used l hi).2 (.inr hl)) fun addr haddr => ?_))
    obtain ⟨j, hj, rfl⟩ := List.mem_map.1 haddr
    rw [(h.page hj).2.2.2.2.2]
    exact hindex j hj
  have hset : js.toFinset.Nonempty := List.toFinset_nonempty_iff js |>.2 hne
  rcases Nat.lt_or_ge (pageAt s 0) s.firstAddress with hlow | hlow
  · obtain ⟨l, hl, hmax⟩ := js.toFinset.exists_max_image id hset
    refine hleft l (List.mem_toFinset.1 hl) fun j hj => ?_
    obtain ⟨_, _, hpage, hfirst, _⟩ := h.page hj
    have hjl : j ≤ l := hmax j (List.mem_toFinset.2 hj)
    omega
  · have hhigh : s.firstAddress + 4096 ≤ pageAt s 0 :=
      Nat.le_of_not_lt fun hlt => hagree ⟨hlow, hlt⟩
    obtain ⟨l, hl, hmin⟩ := js.toFinset.exists_min_image id hset
    refine hleft l (List.mem_toFinset.1 hl) fun j hj => ?_
    obtain ⟨_, _, hpage, hfirst, _⟩ := h.page hj
    have hlj : l ≤ j := hmin j (List.mem_toFinset.2 hj)
    omega

/-! ## The manager at the beginning, and the heap's calls -/

/-- All that is asked of an area is that its bitmap is not part of the heap. -/
theorem ready_initialised {mem : Nat → UInt8} {area : MemoryArea}
    (h : PagesUsable (initialised mem area)) : Ready (initialised mem area) := by
  refine ⟨rfl, h, rfl, ?_, Nat.le_refl _⟩
  have hpages := h.pages
  have hlast := h.last
  have hentrys : (initialised mem area).pageBm.entrys =
      u64 (((u32 ((area.high : Int) - area.low) / 4096 : Nat) : Int) -
        (u32 ((area.high : Int) - area.low) / 4096 / 4 / 4096 + 1 : Nat)) := rfl
  have hbyte : (initialised mem area).pageBm.byteOf 0 = area.low :=
    (Bitmap.byteOf_eq (h.inside h.entrys)).trans (Nat.add_zero _)
  have hmem : (initialised mem area).mem = splice mem area.low
      (u32 ((area.high : Int) - area.low) / 4096) fun _ => 0 := rfl
  have hsome : 0 < u32 ((area.high : Int) - area.low) / 4096 := by
    -- without a page the number of entries would have wrapped
    refine Nat.pos_of_ne_zero fun h0 => ?_
    rw [h0, u64] at hentrys
    omega
  have hclear :
      (initialised mem area).mem ((initialised mem area).pageBm.byteOf 0) =
        0 := by
    rw [hbyte, hmem]
    exact if_pos ⟨Nat.le_refl _, by omega⟩
  rw [Used, Bitmap.free, hclear]
  decide

theorem Ready.frame (h : Ready s) (hf : Frame s t) : Ready t := by
  refine ⟨hf.isInitialized.trans h.isInitialized,
    h.usable.congr hf.lastAddress hf.pageBm hf.firstAddress,
    hf.maxKernelBound h.max, ?_, ?_⟩
  · have hb := h.usable.byteOf_lt h.usable.entrys
    rw [Used, hf.pageBm, Bitmap.free_congr (hf.mem _ hb.1 hb.2)]
    exact h.zero
  · rw [hf.firstAddress]
    exact h.above.trans hf.bound

/-- A `malloc` works on the heap or asks for a page. -/
theorem Ready.malloc_cases {L : List Block} {request r : Nat}
    {kernel aligned : Bool} (h : Ready s) (hheap : HeapInv s L)
    (hwrap : NoWrap s request)
    (hgo : s.malloc request kernel aligned = some (r, t)) :
    Frame s t ∨ t = (s.pageAlloc kernel).2 := by
  have hsame : Frame s s := .of_mem fun _ _ _ => rfl
  by_cases hpage : kernel = false ∨ aligned = true
  · rw [malloc_page h.isInitialized request hpage] at hgo
    split at hgo
    · exact .inr (congrArg Prod.snd (Option.some.inj hgo)).symm
    · cases hgo
      exact .inl hsame
  · obtain ⟨rfl, rfl⟩ : kernel = true ∧ aligned = false := by simpa using hpage
    rw [malloc_heap h.isInitialized] at hgo
    rcases kernelMalloc_spec hheap hwrap with hfull | ⟨x, L', t', hgo', _, _, hf, _⟩
    · rw [hfull] at hgo
      cases hgo
      exact .inl hsame
    · rw [hgo'] at hgo
      cases hgo
      exact .inl hf

/-- A manager that is ready stays ready in every `malloc`. -/
theorem Ready.malloc {L : List Block} {request r : Nat} {kernel aligned : Bool}
    (h : Ready s) (hheap : HeapInv s L) (hwrap : NoWrap s request)
    (hgo : s.malloc request kernel aligned = some (r, t)) : Ready t := by
  rcases h.malloc_cases hheap hwrap hgo with hf | rfl
  · exact h.frame hf
  · exact h.pageAlloc kernel

theorem smallArea_ready : Ready smallArea := by
  refine ready_initialised ⟨?_, ?_, ?_, ?_, ?_, ?_⟩ <;> decide +kernel

end Iposix.Mm
