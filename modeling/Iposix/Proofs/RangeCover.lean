import Iposix.Proofs.Confined
import Iposix.Proofs.Placement

/-!
# What vmalloc covers

`virtual_mm::malloc` gets a page for every 4096 bytes or part of them, wherever
they begin, and `add_virtual_memory` maps them one after the other from the page
of the address on, until it comes to the end of the directory. So a range is
covered if it does not touch one page more than it would touch from the
beginning of a page on, and if it ends with the address space at the latest.
-/

namespace Iposix.Vm

open Iposix.Lib

variable {mm : PageManager} {M M' : Machine} {dm ptable : Nat}
  {dirs : List Nat} {size base : Nat}

/-- The frame was handed out to a process between two logs. -/
def GivenSince (log log' : List Event) (f : Nat) : Prop :=
  ∃ new, log' = new ++ log ∧ Given new f

/-- Every address of the range leads to a frame handed out since `M`, and the
addresses of different pages to different frames. -/
structure Covered (M M' : Machine) (ptable base size : Nat) : Prop where
  frames : ∀ w, base ≤ w → w < base + size → ∃ f,
    translate M'.mem ptable w = some (f + offset w) ∧
      GivenSince M.log M'.log f
  single : ∀ w w' f, base ≤ w → w < base + size → base ≤ w' →
    w' < base + size → translate M'.mem ptable w = some (f + offset w) →
    translate M'.mem ptable w' = some (f + offset w') → w / 4096 = w' / 4096

/-- What `vmalloc` hands out was not in use before. -/
theorem GivenSince.unused (hlog : Logged (Requested M.log) M.log M'.log)
    {f : Nat} (h : GivenSince M.log M'.log f) : ¬ InUse M.log f := by
  obtain ⟨new, hnew, h₀, hmem⟩ := h
  obtain ⟨new', hnew', hreq⟩ := hlog
  rw [hnew] at hnew'
  obtain rfl := List.append_cancel_right hnew'
  exact (hreq _ hmem).2.resolve_left h₀

/-- The call that returned `base`: the frames of its pages. -/
theorem vmalloc_placed (hfresh : mm.Fresh) (hs : Spaces M dm dirs)
    (hp : ptable ∈ dirs) (hbase : base < 4294967296) (h₀ : base ≠ 0)
    (hnull : Event.alloc true 0 ∉ (vmalloc mm M size ptable base).2.log)
    (hret : (vmalloc mm M size ptable base).1 = base) :
    Extended M (vmalloc mm M size ptable base).2 dm dirs ptable ∧
      Logged (Requested M.log) M.log (vmalloc mm M size ptable base).2.log ∧
      32 ≤ dir base ∧ pagesFor size ≠ 0 ∧
      ∃ frame, Placed M (vmalloc mm M size ptable base).2 dirs ptable
        (base / 4096) (min (pagesFor size) (1048576 - base / 4096)) frame := by
  obtain ⟨hext, hserved⟩ := vmalloc_spec hfresh hs hp size base
    (.of_notMem hnull)
  obtain ⟨_, hdir, hpages, frame, hplaced⟩ := hserved.resolve_left fun hnone =>
    h₀ (hret.symm.trans hnone.1)
  rw [number_eq hbase] at hplaced
  exact ⟨hext, vmalloc_logged hfresh M size ptable base, hdir, hpages, frame,
    hplaced⟩

/-- A frame of the call was handed out in it. -/
theorem Placed.given {n k i : Nat} {frame : Nat → Nat}
    (h : Placed M M' dirs ptable n k frame) (hs : Spaces M' dm dirs)
    (hp : ptable ∈ dirs) (hlog : Logged (Requested M.log) M.log M'.log)
    (hlow : 32 ≤ n / 1024) (hi : i < k) (hend : n + i < 1048576) :
    GivenSince M.log M'.log (frame i) := by
  obtain ⟨e, he, haddr⟩ := h.maps i hi
  have hu := (hs.frames ptable hp _ (by omega) (by omega) _
    (Nat.mod_lt _ (by decide)) e he).2.1
  rw [haddr] at hu
  obtain ⟨new, hnew, _⟩ := hlog
  rw [hnew] at hu
  exact ⟨new, hnew, (user_append hu).resolve_right fun hold =>
    (h.unused i hi).2.2 (.inr hold)⟩

theorem vmalloc_covered (hfresh : mm.Fresh) (hs : Spaces M dm dirs)
    (hp : ptable ∈ dirs) (hbase : base < 4294967296) (h₀ : base ≠ 0)
    (hnull : Event.alloc true 0 ∉ (vmalloc mm M size ptable base).2.log)
    (hret : (vmalloc mm M size ptable base).1 = base)
    (hfit : offset base + size ≤ 4096 * pagesFor size)
    (hend : base + size ≤ 4294967296) :
    Covered M (vmalloc mm M size ptable base).2 ptable base size := by
  obtain ⟨hext, hlog, hdir, _, frame, hplaced⟩ :=
    vmalloc_placed hfresh hs hp hbase h₀ hnull hret
  rw [dir_eq hbase] at hdir
  rw [offset] at hfit
  have hpage : ∀ w, base ≤ w → w < base + size → base / 4096 ≤ w / 4096 ∧
      w / 4096 < base / 4096 +
        min (pagesFor size) (1048576 - base / 4096) := fun w h₁ h₂ => by
    omega
  have htrans : ∀ w, base ≤ w → w < base + size →
      translate (vmalloc mm M size ptable base).2.mem ptable w =
        some (frame (w / 4096 - base / 4096) + offset w) := fun w h₁ h₂ => by
    obtain ⟨hlow, hhigh⟩ := hpage w h₁ h₂
    exact hplaced.translate (by omega) hlow hhigh
  refine ⟨fun w h₁ h₂ => ⟨_, htrans w h₁ h₂, ?_⟩,
    fun w w' f h₁ h₂ h₁' h₂' hw hw' => ?_⟩
  · obtain ⟨hlow, hhigh⟩ := hpage w h₁ h₂
    exact hplaced.given hext.spaces hp hlog hdir (by omega) (by omega)
  · obtain ⟨hlow, hhigh⟩ := hpage w h₁ h₂
    obtain ⟨hlow', hhigh'⟩ := hpage w' h₁' h₂'
    have heq := Option.some.inj ((htrans w h₁ h₂).symm.trans hw)
    have heq' := Option.some.inj ((htrans w' h₁' h₂').symm.trans hw')
    have hij := hplaced.single _ (by omega) _ (by omega)
      ((Nat.add_right_cancel heq).trans (Nat.add_right_cancel heq').symm)
    omega

/-- Where the range touches a page more, or goes on behind the last address,
it is not covered. -/
theorem Covered.fits (hfresh : mm.Fresh) (hs : Spaces M dm dirs)
    (hp : ptable ∈ dirs) (hbase : base < 4294967296) (h₀ : base ≠ 0)
    (hnull : Event.alloc true 0 ∉ (vmalloc mm M size ptable base).2.log)
    (hret : (vmalloc mm M size ptable base).1 = base)
    (h : Covered M (vmalloc mm M size ptable base).2 ptable base size) :
    offset base + size ≤ 4096 * pagesFor size ∧ base + size ≤ 4294967296 := by
  obtain ⟨hext, hlog, hdir, hsome, frame, hplaced⟩ :=
    vmalloc_placed hfresh hs hp hbase h₀ hnull hret
  have htables := hext.spaces.toTables
  -- no address wraps around to the window's first page, which is handed to nobody
  have hend : base + size ≤ 4294967296 := by
    refine Nat.le_of_not_lt fun hlt => ?_
    obtain ⟨f, hf, new, _, hgiven, _⟩ :=
      h.frames 4294967296 (Nat.le_of_lt hbase) hlt
    have hzero := htables.window.translate_window hp
      (by decide : dir 4294967296 < 32)
    rw [hf] at hzero
    have hsum := Option.some.inj hzero
    rw [directMappingEntry_flat (dir_lt _)] at hsum
    simp only [dir, offset] at hsum
    omega
  refine ⟨Nat.le_of_not_lt fun hlt => ?_, hend⟩
  rw [offset] at hlt
  rw [dir_eq hbase] at hdir
  -- the page behind those of the call, which has none of its frames
  have hnumber : ∀ i, i < 1048576 → 1024 * dir (4096 * i) + page (4096 * i) = i :=
    fun i hi => by
      rw [dir_number hi, page_number]
      omega
  have hpages := pagesFor_eq size
  obtain ⟨f, hf, hgiven⟩ := h.frames (4096 * (base / 4096 + pagesFor size))
    (by omega) (by omega)
  have hi : base / 4096 + pagesFor size < 1048576 := by omega
  have hwin : 32 ≤ dir (4096 * (base / 4096 + pagesFor size)) := by
    rw [dir_number hi]
    omega
  obtain ⟨e, he, heq⟩ := htables.translate_above hp hwin hf
  have hold := hplaced.others ptable hp _ hwin (dir_lt _) _
    (page_lt (4096 * (base / 4096 + pagesFor size))) fun hall => by
      rw [hnumber _ hi] at hall
      omega
  rw [hold] at he
  have hframe := hs.frames ptable hp _ hwin (dir_lt _) _ (page_lt _) e he
  rw [← Nat.add_right_cancel heq] at hframe
  exact hgiven.unused hlog (.inr hframe.2.1)

/-- A call that returns `base` covers the range if it touches no more pages
than its size would from the beginning of a page on, and ends with the address
space at the latest. -/
theorem vmalloc_covers_iff (hfresh : mm.Fresh) (hs : Spaces M dm dirs)
    (hp : ptable ∈ dirs) (hbase : base < 4294967296) (h₀ : base ≠ 0)
    (hnull : Event.alloc true 0 ∉ (vmalloc mm M size ptable base).2.log)
    (hret : (vmalloc mm M size ptable base).1 = base) :
    Covered M (vmalloc mm M size ptable base).2 ptable base size ↔
      offset base + size ≤ 4096 * pagesFor size ∧
        base + size ≤ 4294967296 :=
  ⟨Covered.fits hfresh hs hp hbase h₀ hnull hret, fun ⟨hfit, hend⟩ =>
    vmalloc_covered hfresh hs hp hbase h₀ hnull hret hfit hend⟩

/-- A page and a half of the child. -/
theorem vmalloc_covers_forkMachine :
    Covered forkMachine (vmalloc counting forkMachine 6000 12288 0x80000000).2
        12288 0x80000000 6000 ↔
      offset 0x80000000 + 6000 ≤ 4096 * pagesFor 6000 ∧
        0x80000000 + 6000 ≤ 4294967296 :=
  vmalloc_covers_iff counting_fresh forkMachine_spaces (by decide) (by decide)
    (by decide) (by decide +kernel) (by decide +kernel)

/-- Two bytes at the end of a page: one page is mapped, and the second byte is
behind it. -/
theorem vmalloc_second_byte :
    counting.Fresh ∧ Spaces forkMachine 4096 [8192, 12288] ∧
      Event.alloc true 0 ∉
        (vmalloc counting forkMachine 2 12288 0x80000FFF).2.log ∧
      (vmalloc counting forkMachine 2 12288 0x80000FFF).1 = 0x80000FFF ∧
      translate (vmalloc counting forkMachine 2 12288 0x80000FFF).2.mem 12288
        0x80001000 = none ∧
      ¬ Covered forkMachine (vmalloc counting forkMachine 2 12288 0x80000FFF).2
        12288 0x80000FFF 2 := by
  have hnone : translate
      (vmalloc counting forkMachine 2 12288 0x80000FFF).2.mem 12288
      0x80001000 = none := by decide +kernel
  refine ⟨counting_fresh, forkMachine_spaces, by decide +kernel,
    by decide +kernel, hnone, fun h => ?_⟩
  obtain ⟨f, hf, _⟩ := h.frames 0x80001000 (by decide) (by decide)
  rw [hnone] at hf
  cases hf

end Iposix.Vm
