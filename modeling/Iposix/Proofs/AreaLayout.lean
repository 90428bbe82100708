import Iposix.Proofs.Pages

/-!
# Where the bitmap and the pages of an area lie

`set_memory_areas` puts the bitmap at the low end of the area and starts the
heap at the next page boundary behind it. Three numbers are rounded on the way:
the size of the bitmap down to whole bytes, the first address up to a page, and
the number of entries is the number of pages less those the bitmap occupies.

So the last entries may have their byte right behind the bitmap's size, and when
that is a page boundary the heap starts there too.
-/

namespace Iposix.Mm

open Iposix.Lib Splitted

namespace MemoryArea

variable (area : MemoryArea)

/-- The area is one of addresses and holds two pages. -/
structure TwoPages : Prop where
  room : area.low + 8192 ≤ area.high
  high : area.high < 4294967296

def pages : Nat := (area.high - area.low) / 4096

/-- How many entries the bitmap has. -/
def length : Nat := area.pages - (area.pages / 16384 + 1)

/-- The page boundary behind the bitmap. -/
def first : Nat := (area.low + area.pages / 4 + 4095) / 4096 * 4096

/-- The page of entry zero. -/
def pageZero : Nat := area.high - 4096 * area.length

/-- Counted from below and from above, entry zero has the same page. -/
def Agrees : Prop :=
  area.first ≤ area.pageZero ∧ area.pageZero < area.first + 4096

/-- The bitmap ends at a page boundary, with entries whose byte lies behind. -/
def Fills : Prop :=
  (area.low + area.pages / 4) % 4096 = 0 ∧
    area.pages / 16384 + 2 ≤ area.pages % 4

end MemoryArea

/-- What never changes about a manager of the area. -/
structure SetUp (area : MemoryArea) (s : Splitted) : Prop where
  isInitialized : s.isInitialized = true
  firstAddress : s.firstAddress = area.first
  lastAddress : s.lastAddress = area.high
  pageBm : s.pageBm = ⟨area.low, area.pages / 4, area.length⟩

variable {area : MemoryArea} {mem : Nat → UInt8} {s : Splitted} {i : Nat}

theorem roundUp_eq {low : Nat} (h : low + 4095 < 4294967296) :
    roundUp low = (low + 4095) / 4096 * 4096 := by
  rw [roundUp, PAGE_SIZE]
  split
  · simp only [u32]
    omega
  · omega

theorem setUp_initialised (mem : Nat → UInt8) (h : area.TwoPages) :
    SetUp area (initialised mem area) := by
  obtain ⟨hroom, hhigh⟩ := h
  have hsize : u32 ((area.high : Int) - area.low) = area.high - area.low := by
    simp only [u32]
    omega
  have hlow : u32 (area.low + (area.pages / 4 : Nat)) =
      area.low + area.pages / 4 := by
    simp only [u32, MemoryArea.pages]
    omega
  have hend : area.low + area.pages / 4 + 4095 < 4294967296 := by
    rw [MemoryArea.pages]
    omega
  have hlength : u64 ((area.pages : Int) -
      (area.pages / 4 / 4096 + 1 : Nat)) = area.length := by
    rw [Nat.div_div_eq_div_mul, MemoryArea.length, MemoryArea.pages, u64]
    omega
  refine ⟨rfl, ?_, rfl, ?_⟩
  · show roundUp (u32 (area.low + (u32 ((area.high : Int) - area.low) / 4096 / 4 :
      Nat))) = _
    rw [hsize]
    exact (congrArg roundUp hlow).trans (roundUp_eq hend)
  · show Bitmap.setTo area.low (u32 ((area.high : Int) - area.low) / 4096) = _
    rw [hsize]
    exact congrArg (Bitmap.mk area.low (area.pages / 4)) hlength

namespace SetUp

theorem entrys (h : SetUp area s) : s.pageBm.entrys = area.length := by
  rw [h.pageBm]

theorem fit (h : SetUp area s) (ha : area.TwoPages) : PagesFit s := by
  have hentrys := h.entrys
  have hlast := h.lastAddress
  obtain ⟨hroom, hhigh⟩ := ha
  simp only [MemoryArea.length, MemoryArea.pages] at hentrys
  refine ⟨?_, ?_, ?_⟩ <;> omega

theorem pageAt_zero (h : SetUp area s) : pageAt s 0 = area.pageZero := by
  rw [pageAt, h.lastAddress, h.entrys]
  rfl

/-- The bitmap lies below all the pages, whatever lies between. -/
theorem bitmap_lt (h : SetUp area s) (ha : area.TwoPages) :
    area.low + (s.pageBm.entrys - 1) / 4 < pageAt s 0 := by
  rw [h.pageAt_zero, h.entrys]
  obtain ⟨hroom, hhigh⟩ := ha
  simp only [MemoryArea.pageZero, MemoryArea.length, MemoryArea.pages]
  omega

theorem inside (h : SetUp area s) (ha : area.TwoPages)
    (hi : i < s.pageBm.entrys) : s.pageBm.Inside i := by
  have hb := h.bitmap_lt ha
  obtain ⟨hL, hp, hl⟩ := h.fit ha
  have hle : pageAt s 0 ≤ s.lastAddress := Nat.sub_le _ _
  refine ⟨by omega, ?_⟩
  rw [h.pageBm]
  show area.low + i / 4 < _
  omega

theorem byteOf (h : SetUp area s) (ha : area.TwoPages)
    (hi : i < s.pageBm.entrys) : s.pageBm.byteOf i = area.low + i / 4 := by
  rw [Bitmap.byteOf_eq (h.inside ha hi), h.pageBm]

/-- Page one lies above the first address, page zero need not. -/
theorem first_le (h : SetUp area s) (ha : area.TwoPages) :
    s.firstAddress ≤ pageAt s 0 + 4096 := by
  rw [h.firstAddress, h.pageAt_zero]
  obtain ⟨hroom, hhigh⟩ := ha
  simp only [MemoryArea.first, MemoryArea.pageZero, MemoryArea.length,
    MemoryArea.pages]
  omega

end SetUp

/-! ## The bitmap and the heap -/

/-- Every entry has its byte in front of the heap, so that marking or clearing
it touches nothing from the first address on. -/
def BitmapApart (area : MemoryArea) (s : Splitted) : Prop :=
  ∀ i, i < s.pageBm.entrys →
    area.low ≤ s.pageBm.byteOf i ∧ s.pageBm.byteOf i < s.firstAddress ∧
    ∀ m b a, s.firstAddress ≤ a →
      s.pageBm.setFree m i b a = m a ∧ s.pageBm.setKernel m i b a = m a

theorem SetUp.bitmap_lt_first_iff (h : SetUp area s) (ha : area.TwoPages) :
    area.low + (s.pageBm.entrys - 1) / 4 < s.firstAddress ↔ ¬ area.Fills := by
  rw [h.firstAddress, h.entrys]
  obtain ⟨hroom, hhigh⟩ := ha
  simp only [MemoryArea.first, MemoryArea.length, MemoryArea.Fills]
  have hpages : 2 ≤ area.pages := by
    rw [MemoryArea.pages]
    omega
  omega

/-- The bitmap keeps clear of the heap unless it fills its last page and the
last entries are left over. -/
theorem bitmap_apart_iff (mem : Nat → UInt8) (h : area.TwoPages) :
    BitmapApart area (initialised mem area) ↔ ¬ area.Fills := by
  have hs := setUp_initialised mem h
  have hentrys := (hs.fit h).entrys
  rw [← hs.bitmap_lt_first_iff h]
  constructor
  · intro hapart
    have hlast := (hapart ((initialised mem area).pageBm.entrys - 1)
      (by omega)).2.1
    rwa [hs.byteOf h (by omega)] at hlast
  · intro hlt i hi
    have hbyte := hs.byteOf h hi
    have hin : (initialised mem area).pageBm.byteOf i <
        (initialised mem area).firstAddress := by omega
    refine ⟨by omega, hin, fun m b a ha => ?_⟩
    have hne : a ≠ (initialised mem area).pageBm.byteOf i := by omega
    exact ⟨Bitmap.setFree_apply hne, Bitmap.setKernel_apply hne⟩

/-- Sixteen pages from the first megabyte on. -/
theorem sixteenPages_apart :
    BitmapApart ⟨0x100000, 0x110000⟩
      (initialised (fun _ => 0) ⟨0x100000, 0x110000⟩) :=
  (bitmap_apart_iff (fun _ => 0) ⟨by decide, by decide⟩).2 (by
    rw [MemoryArea.Fills]
    decide)

/-- Of two pages the bitmap has no byte to itself. -/
theorem twoPages_not_apart :
    ¬ BitmapApart ⟨0x100000, 0x102000⟩
      (initialised (fun _ => 0) ⟨0x100000, 0x102000⟩) := by
  intro h
  have hzero := (h 0 (by decide +kernel)).2.1
  revert hzero
  decide +kernel

end Iposix.Mm
