import Iposix.Proofs.FailedCalls
import Iposix.Proofs.PageCalls
import Iposix.Proofs.PrivateMemory
import Iposix.Proofs.Returned

/-!
# The kernel's page manager hands out fresh pages

`splitted` knows which pages are in use from its bitmap, the virtual memory from
the log. As long as the log is made of answers of the manager's, and a page is
given back only while a process has it, the bitmap has every page in use marked
(`Marked`), so the manager does not hand it out again. When all pages are in use
it has none to give, provided that page zero belongs to the heap.

So what was proved of a manager whose pages are always fresh holds of the one
the kernel has. What does not hold of it is that it takes every page back: it
refuses those below the border of the user pages.
-/

namespace Iposix.Vm

open Iposix.Lib Iposix.Mm

variable {s₀ : Splitted} {M : Machine} {log : List Event} {p : Nat}

/-- The manager can be used for pages: entry zero, which is never marked, is for
a page of the heap, and `page_free` finds the entry of a page. -/
structure Pageable (s : Splitted) : Prop where
  ready : Ready s
  agrees : Agrees s
  aligned : 4096 ∣ pageAt s 0
  heap : pageAt s 0 < s.curKernelBound

/-- Once it can be used, it can be used after every `malloc`. -/
theorem Pageable.malloc {s t : Splitted} {L : List Block} {request r : Nat}
    {kernel aligned : Bool} (hs : Pageable s) (hheap : HeapInv s L)
    (hwrap : NoWrap s request)
    (hgo : s.malloc request kernel aligned = some (r, t)) : Pageable t := by
  obtain ⟨hready, hagrees, haligned, hzero⟩ := hs
  have harea : t.firstAddress = s.firstAddress ∧ pageAt t 0 = pageAt s 0 ∧
      s.curKernelBound ≤ t.curKernelBound := by
    rcases hready.malloc_cases hheap hwrap hgo with hf | rfl
    · exact ⟨hf.firstAddress, pageAt_congr hf.lastAddress hf.pageBm 0, hf.bound⟩
    · have hf := pageFrame_pageAlloc hready kernel
      exact ⟨hf.firstAddress, pageAt_congr hf.lastAddress hf.pageBm 0,
        hf.curKernelBound.ge⟩
  obtain ⟨hfirst, hpage, hbound⟩ := harea
  refine ⟨hready.malloc hheap hwrap hgo, ?_, hpage.symm ▸ haligned, ?_⟩
  · rw [Agrees, hfirst, hpage]
    exact hagrees
  · rw [hpage]
    exact hzero.trans_le hbound

/-- The answers are those of the manager, and pages are given back only while a
process has them. -/
def Answered (s₀ : Splitted) : List Event → Prop
  | [] => True
  | .alloc kernel p :: log =>
      (splittedManager s₀).malloc ⟨fun _ => 0, log⟩ kernel = p ∧ Answered s₀ log
  | .free p done :: log =>
      ((splittedManager s₀).free ⟨fun _ => 0, log⟩ p = done ∧ User log p) ∧
        Answered s₀ log
  | .copy _ _ _ :: log => Answered s₀ log

instance decidableAnswered (s₀ : Splitted) : (log : List Event) →
    Decidable (Answered s₀ log)
  | [] => inferInstanceAs (Decidable True)
  | .alloc _ _ :: log =>
      let _ := decidableAnswered s₀ log
      inferInstanceAs (Decidable (_ ∧ Answered s₀ log))
  | .free _ _ :: log =>
      let _ := decidableAnswered s₀ log
      inferInstanceAs (Decidable (_ ∧ Answered s₀ log))
  | .copy _ _ _ :: log => decidableAnswered s₀ log

/-! ## The bitmap and the log -/

/-- The pages in use are marked, and those of the kernel are no process'. -/
structure Marked (s₀ : Splitted) (log : List Event) : Prop where
  frame : PageFrame s₀ (after s₀ log)
  apart : ∀ p, Kernel log p → ¬ User log p
  used : ∀ p, InUse log p → ∃ j, 1 ≤ j ∧ j < s₀.pageBm.entrys ∧
    Used (after s₀ log) j ∧ p = pageAt s₀ j

theorem Marked.start (s₀ : Splitted) : Marked s₀ [] :=
  ⟨.refl s₀, fun _ h => absurd h.2 List.not_mem_nil,
    fun _ h => h.elim (fun h => absurd h.2 List.not_mem_nil) False.elim⟩

/-- What the manager answers. -/
theorem Marked.answer (hs : Pageable s₀) (h : Marked s₀ log) (kernel : Bool) :
    ((after s₀ log).pageAlloc kernel).1 = 0 ∨
      ∃ j, j ∈ freeEntrys (after s₀ log) ∧
        ((after s₀ log).pageAlloc kernel).1 = pageAt s₀ j ∧
        ∀ i, i < s₀.pageBm.entrys →
          (Used ((after s₀ log).pageAlloc kernel).2 i ↔
            Used (after s₀ log) i ∨ i = j) := by
  have hready := ready_after hs.ready log
  have hpage := pageAt_congr h.frame.lastAddress h.frame.pageBm
  rcases Finset.eq_empty_or_nonempty (freeEntrys (after s₀ log)) with
    hfree | hfree
  · have hheap := hs.heap
    rw [(pageAlloc_none hready hfree kernel).1, hpage, h.frame.curKernelBound,
      if_neg (by omega)]
    exact .inl rfl
  · obtain ⟨j, hj, _, hret, _, hmark, _⟩ := pageAlloc_taken hready hfree kernel
    rw [h.frame.pageBm] at hmark
    exact .inr ⟨j, hj, hret.trans (hpage j), hmark⟩

/-- What is handed out was not in use. -/
theorem Marked.unused (hs : Pageable s₀) (h : Marked s₀ log) (kernel : Bool)
    (h₀ : ((after s₀ log).pageAlloc kernel).1 ≠ 0) :
    ¬ InUse log ((after s₀ log).pageAlloc kernel).1 := by
  intro hin
  obtain ⟨j, hj, hret, _⟩ := (h.answer hs kernel).resolve_left h₀
  obtain ⟨hlt, _, hnot, _⟩ := mem_freeEntrys.1 hj
  obtain ⟨i, _, hi, hused, heq⟩ := h.used _ hin
  obtain rfl : i = j := pageAt_inj hs.ready.usable.fit hi (heq.symm.trans hret)
  exact hnot hused

theorem Marked.alloc (hs : Pageable s₀) (h : Marked s₀ log) (kernel : Bool) :
    Marked s₀
      (.alloc kernel ((after s₀ log).pageAlloc kernel).1 :: log) := by
  have hready := ready_after hs.ready log
  have hunused := h.unused hs kernel
  have hanswer := h.answer hs kernel
  have hkept := fun i hi => used_pageAlloc hready kernel (i := i) hi
  rw [h.frame.pageBm] at hkept
  have hframe := pageFrame_pageAlloc hready kernel
  have hafter : after s₀ (.alloc kernel ((after s₀ log).pageAlloc kernel).1 ::
      log) = ((after s₀ log).pageAlloc kernel).2 := after_alloc hs.ready kernel _
  generalize (after s₀ log).pageAlloc kernel = r
    at hunused hanswer hkept hframe hafter ⊢
  obtain ⟨q, t⟩ := r
  dsimp only at hunused hanswer hkept hframe hafter ⊢
  have hnew : ∀ p, InUse (.alloc kernel q :: log) p →
      (p = q ∧ p ≠ 0) ∨ InUse log p := by
    intro p hin
    cases kernel with
    | true =>
        rcases hin with hk | hu
        · exact (kernel_alloc.1 hk).imp_right .inl
        · exact .inr (.inr hu)
    | false =>
        rcases hin with hk | hu
        · exact .inr (.inl ((kernel_of_ne (by simp)).1 hk))
        · exact hu.imp_right .inr
  refine ⟨hafter ▸ h.frame.trans hframe, fun p hk hu => ?_, fun p hin => ?_⟩
  · cases kernel with
    | true =>
        rcases kernel_alloc.1 hk with ⟨rfl, h₀⟩ | hk
        · exact hunused h₀ (.inr hu)
        · exact h.apart p hk hu
    | false =>
        replace hk := (kernel_of_ne (by simp)).1 hk
        rcases hu with ⟨rfl, h₀⟩ | hu
        · exact hunused h₀ (.inl hk)
        · exact h.apart p hk hu
  · rw [hafter]
    rcases hnew p hin with ⟨rfl, h₀⟩ | hin
    · obtain ⟨j, hj, hret, hmark⟩ := hanswer.resolve_left h₀
      obtain ⟨hlt, h₁, _, _⟩ := mem_freeEntrys.1 hj
      rw [h.frame.pageBm] at hlt
      exact ⟨j, h₁, hlt, (hmark j hlt).2 (.inr rfl), hret⟩
    · obtain ⟨j, h₁, hlt, hused, heq⟩ := h.used p hin
      exact ⟨j, h₁, hlt, hkept j hlt hused, heq⟩

theorem Pageable.index (hs : Pageable s₀) {j : Nat}
    (hj : j < s₀.pageBm.entrys) :
    u32 ((pageAt s₀ j : Int) - s₀.firstAddress) / 4096 = j := by
  obtain ⟨hlow, hhigh⟩ := hs.agrees
  have hpages := hs.ready.usable.pages
  have hlast := hs.ready.usable.last
  simp only [u32, pageAt] at hlow hhigh ⊢
  omega

/-- A page that a process has is taken back if the border is not above it. -/
theorem Marked.free_eq (hs : Pageable s₀) (h : Marked s₀ log)
    (hu : User log p) :
    (after s₀ log).free p false =
      if (after s₀ log).curUserBound ≤ p then (after s₀ log).pageFree p
      else (false, after s₀ log) := by
  obtain ⟨j, _, hj, _, rfl⟩ := h.used p (.inr hu)
  have hinit := (ready_after hs.ready log).isInitialized
  have hle : pageAt s₀ j ≤ (after s₀ log).lastAddress :=
    h.frame.lastAddress.symm ▸ Nat.sub_le _ _
  rw [free_page]
  simp only [hinit, hle, true_and, and_true]

theorem Marked.pageFree_fst (hs : Pageable s₀) (h : Marked s₀ log)
    (hu : User log p) : ((after s₀ log).pageFree p).1 = true := by
  obtain ⟨j, _, hj, hused, rfl⟩ := h.used p (.inr hu)
  refine pageFree_accepts ?_
  rwa [h.frame.firstAddress, hs.index hj]

theorem Marked.free (hs : Pageable s₀) (h : Marked s₀ log)
    (hu : User log p) :
    Marked s₀ (.free p ((after s₀ log).free p false).1 :: log) := by
  have hkernel : ∀ {q done}, Kernel (.free p done :: log) q ↔ Kernel log q :=
    kernel_of_ne (by simp)
  have hafter : ∀ done, after s₀ (.free p done :: log) =
      ((after s₀ log).free p false).2 := fun _ => rfl
  have hfree := h.free_eq hs hu
  split at hfree
  next hborder =>
    have hready := ready_after hs.ready log
    have hdone := h.pageFree_fst hs hu
    obtain ⟨j, _, hj, _, hpage⟩ := h.used p (.inr hu)
    have hindex : u32 ((p : Int) - (after s₀ log).firstAddress) / 4096 = j := by
      rw [h.frame.firstAddress, hpage, hs.index hj]
    obtain ⟨_, t, hgo, hframe, _⟩ := pageFree_spec hready.usable hindex
      (h.frame.pageBm.symm ▸ hj)
    have hmark : ∀ i, i < s₀.pageBm.entrys → i ≠ j → Used (after s₀ log) i →
        Used ((after s₀ log).pageFree p).2 i := by
      intro i hi hne hused
      refine (pageFree_used (hready.usable.inside (h.frame.pageBm.symm ▸ hi))
        p).2 ⟨hused, ?_⟩
      rwa [hindex]
    rw [hfree, hdone]
    refine ⟨?_, fun q hk hu' => h.apart q (hkernel.1 hk) hu'.2,
      fun q hin => ?_⟩
    · rw [hafter, hfree, hgo]
      exact h.frame.trans hframe
    · have hne : q ≠ p := by
        rintro rfl
        exact hin.elim (fun hk => h.apart q (hkernel.1 hk) hu)
          fun hu' => hu'.1 rfl
      obtain ⟨i, h₁, hi, hused, heq⟩ :=
        h.used q (hin.imp hkernel.1 And.right)
      rw [hafter, hfree]
      exact ⟨i, h₁, hi, hmark i hi (fun hij => hne (by rw [heq, hij, hpage]))
        hused, heq⟩
  next =>
    rw [hfree]
    refine ⟨?_, fun q hk hu' => h.apart q (hkernel.1 hk) hu', fun q hin => ?_⟩
    · rw [hafter, hfree]
      exact h.frame
    · rw [hafter, hfree]
      exact h.used q (hin.imp_left hkernel.1)

theorem marked_of_answered (hs : Pageable s₀) :
    ∀ log, Answered s₀ log → Marked s₀ log := by
  intro log
  induction log with
  | nil => intro _; exact .start s₀
  | cons e log ih =>
      intro h
      cases e with
      | alloc kernel p =>
          obtain ⟨rfl, h⟩ := h
          rw [splittedManager_malloc hs.ready]
          exact (ih h).alloc hs kernel
      | free p done =>
          obtain ⟨⟨rfl, hu⟩, h⟩ := h
          exact (ih h).free hs hu
      | copy w a n =>
          obtain ⟨hframe, hapart, hused⟩ := ih h
          have hkernel : ∀ {q}, Kernel (.copy w a n :: log) q ↔ Kernel log q :=
            kernel_of_ne (by simp)
          exact ⟨hframe, fun q hk hu => hapart q (hkernel.1 hk) hu,
            fun q hin => hused q (hin.imp_left hkernel.1)⟩

/-! ## Fresh pages -/

section Answers

variable (hs : Pageable s₀) (hlog : Answered s₀ M.log)

include hs hlog

theorem splitted_unused (kernel : Bool)
    (h₀ : (splittedManager s₀).malloc M kernel ≠ 0) :
    ¬ InUse M.log ((splittedManager s₀).malloc M kernel) := by
  rw [splittedManager_malloc hs.ready] at h₀ ⊢
  exact (marked_of_answered hs M.log hlog).unused hs kernel h₀

theorem splitted_aligned (kernel : Bool) :
    4096 ∣ (splittedManager s₀).malloc M kernel ∧
      (splittedManager s₀).malloc M kernel < 4294967296 := by
  have hmarked := marked_of_answered hs M.log hlog
  have hpages := hs.ready.usable.pages
  have hlast := hs.ready.usable.last
  rw [splittedManager_malloc hs.ready]
  rcases hmarked.answer hs kernel with h₀ | ⟨j, hj, hret, _⟩
  · rw [h₀]
    exact ⟨Nat.dvd_zero 4096, Nat.zero_lt_succ _⟩
  · have haligned := hs.aligned
    obtain ⟨hlt, _⟩ := mem_freeEntrys.1 hj
    rw [hmarked.frame.pageBm] at hlt
    rw [hret]
    simp only [pageAt] at haligned ⊢
    omega

/-- A page that a process has is taken back unless the border of the user pages
is above it. -/
theorem splitted_takesBack_iff (hu : User M.log p) :
    (splittedManager s₀).free M p = true ↔
      (after s₀ M.log).curUserBound ≤ p := by
  have hmarked := marked_of_answered hs M.log hlog
  rw [splittedManager]
  dsimp only
  rw [hmarked.free_eq hs hu]
  split
  next hle => exact iff_of_true (hmarked.pageFree_fst hs hu) hle
  next hlt => exact iff_of_false Bool.false_ne_true hlt

end Answers

/-- The manager as long as it is used as it should be; after anything else there
are no pages. -/
def guarded (s₀ : Splitted) : PageManager :=
  { splittedManager s₀ with
    malloc := fun M kernel =>
      if Answered s₀ M.log then (splittedManager s₀).malloc M kernel else 0 }

theorem guarded_malloc (hlog : Answered s₀ M.log) (kernel : Bool) :
    (guarded s₀).malloc M kernel = (splittedManager s₀).malloc M kernel :=
  if_pos hlog

theorem guarded_fresh (hs : Pageable s₀) : (guarded s₀).Fresh := by
  have hcases : ∀ M kernel, (guarded s₀).malloc M kernel = 0 ∨
      Answered s₀ M.log ∧ (guarded s₀).malloc M kernel =
        (splittedManager s₀).malloc M kernel := by
    intro M kernel
    by_cases hlog : Answered s₀ M.log
    · exact .inr ⟨hlog, guarded_malloc hlog kernel⟩
    · exact .inl (if_neg hlog)
  refine ⟨fun M kernel => ?_, fun M kernel => ?_, fun M kernel h₀ => ?_⟩
  · rcases hcases M kernel with h₀ | ⟨hlog, heq⟩
    · exact h₀ ▸ Nat.dvd_zero 4096
    · exact heq ▸ (splitted_aligned hs hlog kernel).1
  · rcases hcases M kernel with h₀ | ⟨hlog, heq⟩
    · exact h₀ ▸ Nat.zero_lt_succ _
    · exact heq ▸ (splitted_aligned hs hlog kernel).2
  · obtain ⟨hlog, heq⟩ := (hcases M kernel).resolve_left h₀
    rw [heq] at h₀ ⊢
    exact splitted_unused hs hlog kernel h₀

theorem guarded_rule (s₀ : Splitted) :
    LogRule (guarded s₀) (Answered s₀) where
  alloc _ kernel hlog := ⟨(guarded_malloc hlog kernel).symm, hlog⟩
  free _ _ hlog hu := ⟨⟨rfl, hu⟩, hlog⟩
  copy _ _ _ _ hlog := hlog

theorem guarded_alike (s₀ : Splitted) :
    Alike (guarded s₀) (splittedManager s₀) (Answered s₀) where
  rule := guarded_rule s₀
  malloc _ kernel hlog := (guarded_malloc hlog kernel).symm
  free := rfl

/-- The small area once its heap has grown. -/
def grownArea : Splitted :=
  match smallArea.malloc 100 true false with
  | some (_, s) => s
  | none => smallArea

theorem grownArea_pageable : Pageable grownArea := by
  refine ⟨⟨?_, ⟨?_, ?_, ?_, ?_, ?_, ?_⟩, ?_, ?_, ?_⟩, ?_, ?_, ?_⟩ <;>
    decide +kernel

/-! ## Processes on this manager -/

namespace System

variable {σ σ' : System} {a : Action} {mm mm' : PageManager}
  {I : List Event → Prop}

theorem act_alike (hfresh : mm.Fresh) (h : Alike mm mm' I)
    (hI : I σ.machine.log) (a : Action) : σ.act mm' a = σ.act mm a := by
  cases a with
  | construct => rw [act, h.newProcess hI, act]
  | allocate ptable size base => rw [act, h.vmalloc hfresh hI, act]
  | free ptable vaddr => rw [act, h.virtualFree, act]
  | reset ptable => rw [act, h.resetAddressSpace, act]
  | fork child parent =>
      rw [act, copyAddressSpace, h.copyDirectory hfresh _ _ _ _ hI, act,
        copyAddressSpace]
  | copyIn ptable vaddr buffer size => rfl
  | store ptable vaddr value => rfl

theorem permitted_alike (hfresh : mm.Fresh) (h : Alike mm mm' I)
    (hI : I σ.machine.log) (a : Action) :
    σ.Permitted mm' a ↔ σ.Permitted mm a := by
  cases a with
  | construct => rw [Permitted, h.newProcess hI, Permitted]
  | allocate ptable size base => rw [Permitted, h.vmalloc hfresh hI, Permitted]
  | free ptable vaddr => exact Iff.rfl
  | reset ptable => exact Iff.rfl
  | fork child parent =>
      rw [Permitted, copyAddressSpace, h.copyDirectory hfresh _ _ _ _ hI,
        Permitted, copyAddressSpace]
  | copyIn ptable vaddr buffer size => exact Iff.rfl
  | store ptable vaddr value => exact Iff.rfl

/-- An action makes the calls that a rule for the log allows. -/
theorem Private.act_log (hfresh : mm.Fresh) (h : LogRule mm I)
    (hσ : Private σ) (hI : I σ.machine.log) (hperm : σ.Permitted mm a)
    (hact : σ.act mm a = some σ') : I σ'.machine.log := by
  cases a <;> cases hact
  case construct => exact h.newProcess hI _
  case allocate ptable size base => exact h.vmalloc hfresh hI _ _ _
  case free ptable vaddr =>
    obtain ⟨hp, hv, hal⟩ := hperm
    have hlog := h.virtualFree (hσ.of_mem hp).spaces hp hv.dir (dir_lt vaddr)
      (page_lt vaddr) hI
    rwa [normal_of_aligned hv hal] at hlog
  case reset ptable =>
    exact (resetAddressSpace_spec mm (hσ.of_mem hperm) hperm).1.rule I h hI
  case fork child parent => exact h.copyDirectory hfresh _ _ _ _ _ hI
  case copyIn ptable vaddr buffer size =>
    obtain ⟨_, hlow, hlt⟩ := hperm
    exact h.copyIn (by omega) hlt hI
  case store ptable vaddr value => exact hI

/-- What an action does on the manager the kernel has. -/
theorem Private.act_splitted {s₀ : Splitted} (hs : Pageable s₀)
    (hσ : Private σ) (hlog : Answered s₀ σ.machine.log) (a : Action)
    (hperm : σ.Permitted (splittedManager s₀) a) :
    ∃ σ', σ.act (splittedManager s₀) a = some σ' ∧
      (Private σ' ∧ Answered s₀ σ'.machine.log) ∧ Allowed σ a σ' := by
  have hfresh := guarded_fresh hs
  have halike := guarded_alike s₀
  rw [permitted_alike hfresh halike hlog] at hperm
  obtain ⟨σ', hact, hpriv, hallowed⟩ := hσ.act hfresh a hperm
  refine ⟨σ', (act_alike hfresh halike hlog a).trans hact, ⟨hpriv, ?_⟩,
    hallowed⟩
  exact hσ.act_log hfresh halike.rule hlog hperm hact

/-- Two processes, one of which gets a page, writes to it and gives it back. -/
def twoOnSplitted : List Action :=
  [.construct, .construct, .allocate 0x10F000 1 268435456,
    .store 0x10F000 268435456 5, .free 0x10F000 268435456]

end System

end Iposix.Vm
