import Iposix.Lib.Cells
import Iposix.Proofs.PageBitmap
import Mathlib.Logic.Function.Basic

/-!
# The page bitmap as a map

What the page manager means by its bitmap is a map from a page's index to two
flags. A call of `free( bool )` or `kernel( bool )` through `operator[]` sets one
flag of one index, and in the packed bytes it changes the bit of that flag and
nothing else. So the bitmap follows the map through any run of calls, and each
flag reads as it was last set.
-/

namespace Iposix.Mm

open Iposix.Lib

inductive Flag where
  | free
  | kernel
  deriving DecidableEq

/-- A flag of an index; a `size_t` has 32 bits. -/
abbrev Cell := Flag × UInt32

/-- What `set_to` leaves in a flag. -/
def Flag.initial : Flag → Bool
  | .free => true
  | .kernel => false

/-- A page's index to free and kernel. -/
abbrev PageMap := UInt32 → Bool × Bool

def PageMap.set (p : PageMap) : Cell × Bool → PageMap
  | ((.free, i), b) => Function.update p i (b, (p i).2)
  | ((.kernel, i), b) => Function.update p i ((p i).1, b)

namespace Bitmap

variable {bm : Bitmap} {m : Nat → UInt8}

/-- `free()` or `kernel()` of an entry -/
def get (bm : Bitmap) (m : Nat → UInt8) : Cell → Bool
  | (.free, i) => bm.free m i.toNat
  | (.kernel, i) => bm.kernel m i.toNat

/-- `free( b )` or `kernel( b )` of an entry -/
def set (bm : Bitmap) (m : Nat → UInt8) : Cell × Bool → Nat → UInt8
  | ((.free, i), b) => bm.setFree m i.toNat b
  | ((.kernel, i), b) => bm.setKernel m i.toNat b

/-- The map that the bitmap stands for. -/
def pages (bm : Bitmap) (m : Nat → UInt8) : PageMap :=
  fun i => (bm.get m (.free, i), bm.get m (.kernel, i))

/-- A call sets its cell and no other. -/
theorem get_set (bm : Bitmap) (m : Nat → UInt8) (u : Cell × Bool) (cell : Cell) :
    bm.get (bm.set m u) cell = if cell == u.1 then u.2 else bm.get m cell := by
  obtain ⟨⟨flag, i⟩, b⟩ := u
  obtain ⟨flag', j⟩ := cell
  have hi := i.toNat_lt
  have hj := j.toNat_lt
  have hiff : j.toNat = i.toNat ↔ j = i := UInt32.toNat_inj
  cases flag with
  | free =>
      cases flag' with
      | free =>
          show bm.free (bm.setFree m i.toNat b) j.toNat = _
          rw [free_setFree hi hj]
          simp [hiff, get]
      | kernel => exact kernel_setFree i.toNat j.toNat b
  | kernel =>
      cases flag' with
      | free => exact free_setKernel i.toNat j.toNat b
      | kernel =>
          show bm.kernel (bm.setKernel m i.toNat b) j.toNat = _
          rw [kernel_setKernel hi hj]
          simp [hiff, get]

/-- One call of the bitmap is one of the map. -/
theorem pages_set (bm : Bitmap) (m : Nat → UInt8) (u : Cell × Bool) :
    bm.pages (bm.set m u) = (bm.pages m).set u := by
  obtain ⟨⟨flag, i⟩, b⟩ := u
  funext j
  cases flag with
  | free =>
      rw [pages, get_set, get_set, PageMap.set, Function.update_apply]
      by_cases hji : j = i
      · simp [hji, pages]
      · simp [hji, pages]
  | kernel =>
      rw [pages, get_set, get_set, PageMap.set, Function.update_apply]
      by_cases hji : j = i
      · simp [hji, pages]
      · simp [hji, pages]

theorem pages_run (bm : Bitmap) (m : Nat → UInt8) (updates : List (Cell × Bool)) :
    bm.pages (updates.foldl bm.set m) = updates.foldl PageMap.set (bm.pages m) :=
  (List.foldl_hom bm.pages fun m u => (bm.pages_set m u).symm).symm

/-! ## Setting up -/

/-- The loop of `set_to` clears its bytes, where the addresses wrap as well. -/
theorem clear_apply (m : Nat → UInt8) (addr : Nat) {entrys k : Nat}
    (hk : k < entrys) : clear m addr entrys (u32 (addr + k : Nat)) = 0 := by
  induction entrys with
  | zero => omega
  | succ i ih =>
      rw [clear]
      by_cases hlast : u32 (addr + k : Nat) = u32 (addr + i : Nat)
      · rw [hlast]
        exact splice_mem (Nat.le_refl _) (Nat.lt_succ_self _)
      · have hki : k ≠ i := by
          rintro rfl
          exact hlast rfl
        have hout : ¬ (u32 (addr + i : Nat) ≤ u32 (addr + k : Nat) ∧
            u32 (addr + k : Nat) < u32 (addr + i : Nat) + 1) := by omega
        exact (if_neg hout).trans (ih (by omega))

/-- Where nothing wraps it is one range. -/
theorem clear_eq (m : Nat → UInt8) (addr : Nat) : ∀ {entrys : Nat},
    addr + entrys ≤ 4294967296 →
      clear m addr entrys = splice m addr entrys fun _ => 0 := by
  intro entrys
  induction entrys with
  | zero => intro _; exact (splice_empty m addr _).symm
  | succ i ih =>
      intro h
      have hplace : u32 (addr + i : Nat) = addr + i := u32_of_lt (by omega)
      rw [clear, ih (by omega), hplace]
      exact splice_append m addr i 1 fun _ => 0

/-- Every entry whose byte was cleared is free and not kernel. -/
theorem get_clear (m : Nat → UInt8) {addr entrys : Nat} {cell : Cell}
    (h : cell.2.toNat / 4 < entrys) :
    (setTo addr entrys).get (clear m addr entrys) cell = cell.1.initial := by
  obtain ⟨flag, i⟩ := cell
  have hi : u32 (i.toNat : Int) = i.toNat := u32_of_lt i.toNat_lt
  have hbyte : clear m addr entrys ((setTo addr entrys).byteOf i.toNat) = 0 := by
    rw [byteOf, hi]
    exact clear_apply m addr h
  cases flag with
  | free =>
      show (setTo addr entrys).free _ _ = true
      rw [free_eq, hbyte, bit]
      simp
  | kernel =>
      show (setTo addr entrys).kernel _ _ = false
      rw [kernel_eq, hbyte, bit]
      simp

/-- The bitmap follows the map through every run; each flag reads as it was last
set, or as it was set up, and a call changes no other flag and no other index. -/
theorem bitmap_refines_map (addr entrys : Nat) (m : Nat → UInt8)
    (updates : List (Cell × Bool)) :
    let bm := setTo addr entrys
    let start := clear m addr entrys
    bm.pages (updates.foldl bm.set start) =
        updates.foldl PageMap.set (bm.pages start) ∧
      (∀ cell, bm.get (updates.foldl bm.set start) cell =
        (lastUpdate updates cell).getD (bm.get start cell)) ∧
      (∀ cell : Cell, cell.2.toNat / 4 < entrys →
        bm.get start cell = cell.1.initial) ∧
      ∀ m' u cell, cell ≠ u.1 → bm.get (bm.set m' u) cell = bm.get m' cell := by
  intro bm start
  refine ⟨bm.pages_run start updates,
    fun cell => get_foldl bm.get_set cell updates start,
    fun cell h => get_clear m h, fun m' u cell hne => ?_⟩
  rw [get_set, if_neg (by simpa using hne)]

/-- Two entries of one byte, with garbage where the bitmap is put. -/
theorem sharedByte_refines :
    let bm := setTo 4096 1
    let start := clear (fun _ => 255) 4096 1
    let updates := [((Flag.free, 1), false), ((.kernel, 1), true),
      ((.free, 2), false), ((.free, 1), true)]
    bm.get (updates.foldl bm.set start) (.free, 1) = true ∧
      bm.get (updates.foldl bm.set start) (.kernel, 2) = false := by
  obtain ⟨-, hlast, hstart, -⟩ := bitmap_refines_map 4096 1 (fun _ => 255)
    [((.free, 1), false), ((.kernel, 1), true), ((.free, 2), false),
      ((.free, 1), true)]
  exact ⟨hlast (.free, 1), (hlast (.kernel, 2)).trans (hstart (.kernel, 2)
    (by decide))⟩

end Bitmap

/-- The bitmap of a manager is set up so. -/
theorem Splitted.setMemoryAreas_bitmap {s : Splitted} {area : MemoryArea}
    (hs : s.isInitialized = false) (harea : area.low ≤ area.high)
    (hhigh : area.high < 4294967296) :
    (s.setMemoryAreas area).pageBm =
        Bitmap.setTo area.low ((area.high - area.low) / PAGE_SIZE) ∧
      (s.setMemoryAreas area).mem =
        Bitmap.clear s.mem area.low ((area.high - area.low) / PAGE_SIZE) := by
  have hsize : u32 ((area.high : Int) - area.low) = area.high - area.low := by
    rw [← Int.ofNat_sub harea]
    exact u32_of_lt (by omega)
  have hfit : area.low + (area.high - area.low) / PAGE_SIZE ≤ 4294967296 := by
    rw [PAGE_SIZE]
    omega
  rw [setMemoryAreas, hs, hsize, Bitmap.clear_eq s.mem area.low hfit]
  exact ⟨rfl, rfl⟩

end Iposix.Mm
