import Iposix.Devices.Memory
import Iposix.Lib.Bits

/-!
# Which areas the detection records

An area the kernel may use lies inside a usable entry of the memory map, with
all its 64 bits, and above every section of the kernel. `init` looks at the
lower halves only, so an entry above 4 GiB is taken for one below unless its
range wraps there; it adds the parts of a section in 32 bits and rounds up in 32
bits, so an end in the last 64 KiB is lost; and it compares the number of areas
with the size of the array in bytes, so the eleventh area goes behind it.

The recorded areas are those of the entries taken, in their order; the condition
says of each of these that it is harmless.
-/

namespace Iposix.Devices

open Iposix.Lib
open Iposix.Mm (MemoryArea)

/-! ## What the tables say -/

namespace MemoryMap

/-- The first address of the range an entry describes. -/
def base (e : MemoryMap) : Nat :=
  e.baseAddrHigh.toNat * 4294967296 + e.baseAddrLow.toNat

def length (e : MemoryMap) : Nat :=
  e.lengthHigh.toNat * 4294967296 + e.lengthLow.toNat

/-- Where the range ends if the upper halves are zero. -/
def lowEnd (e : MemoryMap) : Nat := e.baseAddrLow.toNat + e.lengthLow.toNat

end MemoryMap

/-- Where a section ends; an unused header has none. -/
def Elf32Shdr.stop (s : Elf32Shdr) : Nat :=
  if s.shType ≠ 0 then s.shAddr.toNat + s.shSize.toNat else 0

/-- The highest end of a section in 32 bits. -/
def kernelEnd : List Elf32Shdr → Nat
  | [] => 0
  | s :: l => max (s.stop % 4294967296) (kernelEnd l)

/-- The next multiple of 64 KiB, in 32 bits. -/
def kernelFloor (l : List Elf32Shdr) : Nat :=
  (kernelEnd l + 65535) / 65536 * 65536 % 4294967296

/-- The areas that count. -/
def Memory.recorded (m : Memory) : List MemoryArea :=
  m.areas.toList.take m.areaCount.toNat

/-- An area the kernel may use. -/
structure Spare (info : MultibootInfo) (area : MemoryArea) : Prop where
  nonempty : area.low < area.high
  inside : ∃ e, e ∈ info.entries ∧ e.type = 1 ∧ e.base ≤ area.low ∧
    area.high ≤ e.base + e.length
  above : ∀ s, s ∈ info.sections → s.stop ≤ area.low

/-- The detection ends, without a store behind the array, and has recorded
nothing but spare areas. -/
def Detects (info : MultibootInfo) : Prop :=
  ∃ m, Memory.boot.init info = .ok m ∧ m.areaCount.toNat ≤ AREAS ∧
    ∀ area, area ∈ m.recorded → Spare info area

/-- An entry `init` records an area for: usable, above 1 MiB, and below 4 GiB
as far as its lower halves say, with something left above the kernel. -/
def Offers (floor : Nat) (e : MemoryMap) : Prop :=
  e.size = 20 ∧ e.type = 1 ∧ 1048576 ≤ e.baseAddrLow.toNat ∧
    max e.baseAddrLow.toNat floor < e.lowEnd ∧ e.lowEnd < 4294967296

instance (floor : Nat) (e : MemoryMap) : Decidable (Offers floor e) :=
  inferInstanceAs (Decidable (_ ∧ _))

def offering (floor : Nat) (l : List MemoryMap) : List MemoryMap :=
  l.filter fun e => Offers floor e

/-- The area of such an entry. -/
def offered (floor : Nat) (e : MemoryMap) : MemoryArea :=
  ⟨max e.baseAddrLow.toNat floor, e.lowEnd⟩

/-- When the detection is right. -/
structure Harmless (info : MultibootInfo) : Prop where
  /-- There are no more entries to record than slots. -/
  few : (offering (kernelFloor info.sections) info.entries).length ≤ AREAS
  /-- An entry above 4 GiB is not taken for memory that is not there. -/
  below : ∀ e, e ∈ info.entries → Offers (kernelFloor info.sections) e →
    e.baseAddrHigh ≠ 0 → ∃ e', e' ∈ info.entries ∧ e'.type = 1 ∧
      e'.base ≤ max e.baseAddrLow.toNat (kernelFloor info.sections) ∧
      e.lowEnd ≤ e'.base + e'.length
  /-- A section that ends in the last 64 KiB or behind them is below the
  entries. -/
  clear : ∀ e, e ∈ info.entries → Offers (kernelFloor info.sections) e →
    ∀ s, s ∈ info.sections → s.stop ≤ max e.baseAddrLow.toNat 0xFFFF0000

/-! ## The end of the kernel -/

namespace Memory

theorem highest_toNat (l : List Elf32Shdr) (val : UInt32) :
    (highest val l).toNat = max val.toNat (kernelEnd l) := by
  induction l generalizing val with
  | nil => exact (Nat.max_zero _).symm
  | cons s l ih =>
      rw [highest, kernelEnd, ← Nat.max_assoc, Elf32Shdr.stop]
      split
      next =>
        have hval : (s.shAddr + s.shSize).toNat =
            (s.shAddr.toNat + s.shSize.toNat) % 4294967296 :=
          UInt32.toNat_add ..
        rw [ih]
        congr 1
        split
        next hgt =>
          rw [GT.gt, UInt32.lt_iff_toNat_lt, hval] at hgt
          rw [hval]
          exact (Nat.max_eq_right (Nat.le_of_lt hgt)).symm
        next hle =>
          rw [GT.gt, UInt32.lt_iff_toNat_lt, hval] at hle
          exact (Nat.max_eq_left (Nat.le_of_not_lt hle)).symm
      next =>
        rw [ih, Nat.zero_mod, Nat.max_zero]

theorem lowestUsable_toNat (val : UInt32) :
    (lowestUsable val).toNat =
      (val.toNat + 65535) / 65536 * 65536 % 4294967296 := by
  have hlt := val.toNat_lt
  have hlow : (val &&& 0x00FFFF).toNat = val.toNat % 65536 := by
    rw [UInt32.toNat_and]
    exact Nat.and_two_pow_sub_one_eq_mod _ 16
  have hround :
      (if val &&& 0x00FFFF ≠ 0 then val + 0x010000 else val).toNat =
        if val.toNat % 65536 = 0 then val.toNat
        else (val.toNat + 65536) % 4294967296 := by
    by_cases h : val &&& 0x00FFFF = 0
    · rw [if_neg (not_not.2 h), if_pos]
      rw [← hlow, h]
      rfl
    · rw [if_pos h, if_neg]
      · exact UInt32.toNat_add ..
      · rw [← hlow]
        exact fun h0 => h (UInt32.toNat_inj.1 h0)
  have hmask (y : UInt32) : (y &&& 0xFFFF0000).toNat = y.toNat / 65536 * 65536 :=
    (UInt32.toNat_and ..).trans (and_high_mask (n := 32) (k := 16) y.toNat_lt)
  rw [lowestUsable, hmask, hround]
  split <;> omega

theorem init_floor (l : List Elf32Shdr) :
    (lowestUsable (highest 0 l)).toNat = kernelFloor l := by
  rw [lowestUsable_toNat, highest_toNat, kernelFloor, UInt32.toNat_zero,
    Nat.zero_max]

/-! ## One entry -/

variable {m : Memory} {floor : UInt32} {e : MemoryMap}

theorem clip_toNat (e : MemoryMap) (floor : UInt32) :
    (if e.baseAddrLow < floor then floor else e.baseAddrLow).toNat =
      max e.baseAddrLow.toNat floor.toNat := by
  split
  next h => exact (Nat.max_eq_right (Nat.le_of_lt h)).symm
  next h => exact (Nat.max_eq_left (Nat.le_of_not_lt h)).symm

/-- A range that wraps ends below its base. -/
theorem offers_iff (hbase : 1048576 ≤ e.baseAddrLow.toNat) (htype : e.type = 1)
    (hsize : e.size = 20) :
    Offers floor.toNat e ↔
      ¬ (if e.baseAddrLow < floor then floor else e.baseAddrLow) ≥
        e.baseAddrLow + e.lengthLow := by
  have hhigh : (e.baseAddrLow + e.lengthLow).toNat = e.lowEnd % 4294967296 :=
    UInt32.toNat_add ..
  have hb := e.baseAddrLow.toNat_lt
  have hl := e.lengthLow.toNat_lt
  rw [ge_iff_le, UInt32.le_iff_toNat_le, clip_toNat, hhigh, Nat.not_le]
  have hend : e.lowEnd = e.baseAddrLow.toNat + e.lengthLow.toNat := rfl
  constructor
  · intro ⟨_, _, _, hlt, hend⟩
    rwa [Nat.mod_eq_of_lt hend]
  · intro h
    refine ⟨hsize, htype, hbase, ?_⟩
    omega

theorem examine_eq (hm : m.areaCount.toNat ≤ AREAS) :
    examine floor m e =
      if Offers floor.toNat e then
        m.store (if e.baseAddrLow < floor then floor else e.baseAddrLow)
          (e.baseAddrLow + e.lengthLow)
      else .ok m := by
  have hroom : ¬ m.areaCount.toNat = SIZEOF_AREAS := by
    simp only [AREAS, SIZEOF_AREAS] at *
    omega
  rw [examine]
  by_cases hsize : e.size = 20
  · rw [if_neg (not_not.2 hsize)]
    by_cases huse : e.baseAddrLow ≥ 1 * 1024 * 1024 ∧ e.type = 1
    · have hbase : 1048576 ≤ e.baseAddrLow.toNat := huse.1
      rw [if_neg, if_pos huse]
      · dsimp only
        by_cases hoffers : Offers floor.toNat e
        · rw [if_pos hoffers, if_neg]
          rw [not_or]
          exact ⟨(offers_iff hbase huse.2 hsize).1 hoffers, hroom⟩
        · rw [if_neg hoffers, if_pos]
          refine .inl (not_not.1 fun h => ?_)
          exact hoffers ((offers_iff hbase huse.2 hsize).2 h)
      · intro ⟨hzero, _⟩
        rw [hzero] at hbase
        exact absurd hbase (by decide)
    · rw [if_neg huse, ite_self, if_neg]
      intro ⟨_, htype, hbase, _⟩
      exact huse ⟨hbase, htype⟩
  · rw [if_pos hsize, if_neg]
    exact fun h => hsize h.1

theorem store_recorded (low high : UInt32) (hm : m.areaCount.toNat < AREAS) :
    ∃ m', m.store low high = .ok m' ∧
      m'.areaCount.toNat = m.areaCount.toNat + 1 ∧
      m'.recorded = m.recorded ++ [⟨low.toNat, high.toNat⟩] := by
  have hcount : (m.areaCount + 1).toNat = m.areaCount.toNat + 1 := by
    rw [UInt8.toNat_add]
    exact Nat.mod_eq_of_lt (by simp only [AREAS] at hm; show _ + 1 < 256; omega)
  refine ⟨_, dif_pos hm, hcount, ?_⟩
  show (m.areas.set m.areaCount.toNat _ hm).toList.take (m.areaCount + 1).toNat = _
  rw [hcount, Vector.toList_set, recorded]
  have hlength : m.areaCount.toNat < m.areas.toList.length := by
    rw [Vector.length_toList]
    exact hm
  rw [List.take_succ_eq_append_getElem (by rwa [List.length_set]),
    List.getElem_set_self, List.take_set_of_le (Nat.le_refl _)]

/-- What an entry that offers something does. -/
theorem examine_offers (hoffers : Offers floor.toNat e)
    (hm : m.areaCount.toNat < AREAS) :
    ∃ m', examine floor m e = .ok m' ∧
      m'.areaCount.toNat = m.areaCount.toNat + 1 ∧
      m'.recorded = m.recorded ++ [offered floor.toNat e] := by
  rw [examine_eq (Nat.le_of_lt hm), if_pos hoffers]
  obtain ⟨m', hstore, hcount, hrecorded⟩ := store_recorded
    (if e.baseAddrLow < floor then floor else e.baseAddrLow)
    (e.baseAddrLow + e.lengthLow) hm
  refine ⟨m', hstore, hcount, ?_⟩
  have hhigh : (e.baseAddrLow + e.lengthLow).toNat = e.lowEnd :=
    (UInt32.toNat_add ..).trans (Nat.mod_eq_of_lt hoffers.2.2.2.2)
  rw [hrecorded, clip_toNat, hhigh, offered]

theorem examine_full (hoffers : Offers floor.toNat e)
    (hm : m.areaCount.toNat = AREAS) :
    examine floor m e = .error (.fault .areas) := by
  rw [examine_eq (Nat.le_of_eq hm), if_pos hoffers, store, dif_neg]
  rw [hm]
  exact Nat.lt_irrefl _

theorem examine_skips (hoffers : ¬ Offers floor.toNat e)
    (hm : m.areaCount.toNat ≤ AREAS) : examine floor m e = .ok m := by
  rw [examine_eq hm, if_neg hoffers]

/-! ## The whole map -/

theorem offering_of {floor : Nat} {l : List MemoryMap} (h : Offers floor e) :
    offering floor (e :: l) = e :: offering floor l :=
  List.filter_cons_of_pos (decide_eq_true h)

theorem offering_of_not {floor : Nat} {l : List MemoryMap}
    (h : ¬ Offers floor e) : offering floor (e :: l) = offering floor l :=
  List.filter_cons_of_neg fun hd => h (of_decide_eq_true hd)

theorem run_recorded (floor : UInt32) (l : List MemoryMap)
    (h : m.areaCount.toNat + (offering floor.toNat l).length ≤ AREAS) :
    ∃ m', l.foldlM (examine floor) m = .ok m' ∧
      m'.areaCount.toNat =
        m.areaCount.toNat + (offering floor.toNat l).length ∧
      m'.recorded = m.recorded ++
        (offering floor.toNat l).map (offered floor.toNat) := by
  induction l generalizing m with
  | nil => exact ⟨m, rfl, rfl, (List.append_nil _).symm⟩
  | cons e l ih =>
      by_cases hoffers : Offers floor.toNat e
      · rw [offering_of hoffers, List.length_cons] at h
        obtain ⟨m₁, hexamine, hcount, hrecorded⟩ :=
          examine_offers hoffers (m := m) (by omega)
        obtain ⟨m', hrun, hcount', hrecorded'⟩ := ih (m := m₁) (by omega)
        rw [offering_of hoffers, List.length_cons, List.map_cons]
        refine ⟨m', ?_, by omega, ?_⟩
        · rw [List.foldlM_cons, hexamine]
          exact hrun
        · rw [hrecorded', hrecorded, List.append_assoc]
          rfl
      · rw [offering_of_not hoffers] at h ⊢
        obtain ⟨m', hrun, hrest⟩ := ih h
        refine ⟨m', ?_, hrest⟩
        rw [List.foldlM_cons, examine_skips hoffers (by omega)]
        exact hrun

theorem run_overflows {l : List MemoryMap} (hm : m.areaCount.toNat ≤ AREAS)
    (h : AREAS < m.areaCount.toNat + (offering floor.toNat l).length) :
    l.foldlM (examine floor) m = .error (.fault .areas) := by
  induction l generalizing m with
  | nil => exact absurd hm (Nat.not_le_of_lt h)
  | cons e l ih =>
      rw [List.foldlM_cons]
      by_cases hoffers : Offers floor.toNat e
      · rcases Nat.lt_or_eq_of_le hm with hlt | hfull
        · rw [offering_of hoffers, List.length_cons] at h
          obtain ⟨m₁, hexamine, hcount, -⟩ := examine_offers hoffers hlt
          rw [hexamine]
          exact ih (by omega) (by omega)
        · rw [examine_full hoffers hfull]
          rfl
      · rw [offering_of_not hoffers] at h
        rw [examine_skips hoffers hm]
        exact ih hm h

end Memory

/-! ## The sections -/

theorem stop_le_kernelEnd {l : List Elf32Shdr} {s : Elf32Shdr} (h : s ∈ l) :
    s.stop % 4294967296 ≤ kernelEnd l := by
  induction l with
  | nil => cases h
  | cons s' l ih =>
      rw [kernelEnd]
      cases h with
      | head => exact Nat.le_max_left _ _
      | tail _ h => exact Nat.le_trans (ih h) (Nat.le_max_right _ _)

theorem kernelEnd_le {l : List Elf32Shdr} {a : Nat}
    (h : ∀ s, s ∈ l → s.stop ≤ a) : kernelEnd l ≤ a := by
  induction l with
  | nil => exact Nat.zero_le _
  | cons s l ih =>
      rw [kernelEnd]
      refine Nat.max_le.2 ⟨?_, ih fun s' hs' => h s' (.tail _ hs')⟩
      exact Nat.le_trans (Nat.mod_le _ _) (h s (.head _))

theorem kernelFloor_le (l : List Elf32Shdr) : kernelFloor l ≤ 0xFFFF0000 := by
  rw [kernelFloor]
  omega

/-- From an address in the range of 32 bits on no section is hidden by the
rounding, unless it ends in the last 64 KiB and the address is not behind it. -/
theorem above_iff {l : List Elf32Shdr} {a : Nat} (ha : a < 4294967296) :
    (∀ s, s ∈ l → s.stop ≤ max a (kernelFloor l)) ↔
      ∀ s, s ∈ l → s.stop ≤ max a 0xFFFF0000 := by
  have hfloor := kernelFloor_le l
  constructor
  · intro h s hs
    have := h s hs
    omega
  · intro h s hs
    have hstop := h s hs
    have hend := stop_le_kernelEnd hs
    have hall := kernelEnd_le h
    rw [Nat.mod_eq_of_lt (by omega)] at hend
    rw [kernelFloor]
    omega

/-! ## The areas recorded -/

variable {info : MultibootInfo}

theorem spare_offered_iff {e : MemoryMap} (he : e ∈ info.entries)
    (hoffers : Offers (kernelFloor info.sections) e) :
    Spare info (offered (kernelFloor info.sections) e) ↔
      (e.baseAddrHigh ≠ 0 → ∃ e', e' ∈ info.entries ∧ e'.type = 1 ∧
        e'.base ≤ max e.baseAddrLow.toNat (kernelFloor info.sections) ∧
        e.lowEnd ≤ e'.base + e'.length) ∧
      ∀ s, s ∈ info.sections → s.stop ≤ max e.baseAddrLow.toNat 0xFFFF0000 := by
  have habove := above_iff (l := info.sections) e.baseAddrLow.toNat_lt
  constructor
  · intro h
    exact ⟨fun _ => h.inside, habove.1 h.above⟩
  · intro ⟨hinside, hclear⟩
    refine ⟨hoffers.2.2.2.1, ?_, habove.2 hclear⟩
    by_cases hhigh : e.baseAddrHigh = 0
    · have hbase : e.base = e.baseAddrLow.toNat := by
        rw [MemoryMap.base, hhigh, UInt32.toNat_zero, Nat.zero_mul,
          Nat.zero_add]
      refine ⟨e, he, hoffers.2.1, ?_, ?_⟩
      · rw [hbase]
        exact Nat.le_max_left _ _
      · rw [hbase]
        show e.baseAddrLow.toNat + e.lengthLow.toNat ≤ _ + (_ + _)
        omega
    · exact hinside hhigh

theorem detects_iff_harmless (info : MultibootInfo) :
    Detects info ↔ Harmless info := by
  have hfloor := Memory.init_floor info.sections
  have hspare (m : Memory) (h : m.recorded =
      (offering (kernelFloor info.sections) info.entries).map
        (offered (kernelFloor info.sections))) :
      (∀ area, area ∈ m.recorded → Spare info area) ↔
        ∀ e, e ∈ info.entries → Offers (kernelFloor info.sections) e →
          Spare info (offered (kernelFloor info.sections) e) := by
    rw [h]
    simp only [offering, List.mem_map, List.mem_filter, decide_eq_true_eq]
    constructor
    · exact fun h e he hoffers => h _ ⟨e, ⟨he, hoffers⟩, rfl⟩
    · rintro h _ ⟨e, ⟨he, hoffers⟩, rfl⟩
      exact h e he hoffers
  rcases Nat.lt_or_ge AREAS
    (offering (kernelFloor info.sections) info.entries).length with
    hmany | hfew
  · refine iff_of_false ?_ fun h => absurd h.few (Nat.not_le_of_lt hmany)
    rintro ⟨m, hinit, -⟩
    rw [Memory.init, Memory.run_overflows] at hinit
    · cases hinit
    · exact Nat.zero_le _
    · rw [hfloor]
      exact Nat.lt_of_lt_of_le hmany (Nat.le_add_left _ _)
  · obtain ⟨m, hinit, hcount, hrecorded⟩ := Memory.run_recorded
      (Memory.lowestUsable (Memory.highest 0 info.sections)) info.entries
      (m := Memory.boot) (by
        rw [hfloor]
        exact Nat.le_trans (Nat.le_of_eq (Nat.zero_add _)) hfew)
    rw [hfloor] at hcount hrecorded
    have hcount' : m.areaCount.toNat ≤ AREAS := by
      rw [hcount]
      exact Nat.le_trans (Nat.le_of_eq (Nat.zero_add _)) hfew
    have hiff := hspare m hrecorded
    constructor
    · rintro ⟨m', hinit', -, hareas⟩
      rw [Memory.init, hinit] at hinit'
      cases hinit'
      have hall := hiff.1 hareas
      exact ⟨hfew,
        fun e he hoffers =>
          ((spare_offered_iff he hoffers).1 (hall e he hoffers)).1,
        fun e he hoffers =>
          ((spare_offered_iff he hoffers).1 (hall e he hoffers)).2⟩
    · intro h
      refine ⟨m, hinit, hcount', hiff.2 fun e he hoffers => ?_⟩
      exact (spare_offered_iff he hoffers).2
        ⟨h.below e he hoffers, h.clear e he hoffers⟩

/-- Eleven usable entries of 1 MiB each, one behind the other. -/
def elevenEntries : MultibootInfo where
  flags := 0x40
  num := 0
  elfSec := fun _ => ⟨0, 0, 0⟩
  mmapLength := 264
  mmap := fun i => ⟨20, UInt32.ofNat (0x100000 * (i + 1)), 0, 0x100000, 0, 1⟩

/-- The eleventh goes behind the array. -/
theorem elevenEntries_not_detects : ¬ Detects elevenEntries := by
  rintro ⟨m, hinit, -⟩
  have hmany : AREAS < (offering
      (Memory.lowestUsable (Memory.highest 0 elevenEntries.sections)).toNat
      elevenEntries.entries).length := by
    decide +kernel
  rw [Memory.init, Memory.run_overflows (by decide)] at hinit
  · cases hinit
  · exact Nat.lt_of_lt_of_le hmany (Nat.le_add_left _ _)

end Iposix.Devices
