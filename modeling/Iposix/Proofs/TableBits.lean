import Iposix.Proofs.FatChain
import Mathlib.Tactic.IntervalCases

/-!
# The table as a string of bits

On the disk entry `n` of a file allocation table is the `w` bits from bit `w * n`
on, for entries of `w` bits. The kernel reads the table as records of twelve
bytes, which hold eight, six or three entries: it divides by that number, and
takes a bit field, a half word or a word out of the record. As twelve bytes are
a whole number of entries in all three formats, both come to the same bits.
-/

namespace Iposix.Fs

open Iposix.Lib

/-- The bits of an entry. -/
def FatType.width : FatType → Nat
  | .fat12 => 12
  | .fat16 => 16
  | .fat32 => 32

namespace ClusterTable

variable {t : ClusterTable} {content : List UInt8} {data : Nat → UInt8} {n : Nat}

/-- The bytes of the table are these; what lies behind them is not said. -/
def Holds (t : ClusterTable) (content : List UInt8) : Prop :=
  ∃ data, t.data = some data ∧ ∀ i, i < content.length → data i = content.getD i 0

/-- Entry `n` of FAT12 from the three bytes it shares with its neighbour. -/
def fat12Pair (content : List UInt8) (n : Nat) : Nat :=
  let byte k := (content.getD (3 * (n / 2) + k) 0).toNat
  if n % 2 = 0 then byte 0 + 256 * (byte 1 % 16) else byte 1 / 16 + 16 * byte 2

/-- The eight fields of a record are its bits in steps of twelve. -/
theorem value_fat12 (hdata : t.data = some data) (htype : t.type = .fat12)
    (cluster : Nat) : t.value cluster = fat12Value data cluster := by
  have hlt : cluster % 8 < 8 := Nat.mod_lt cluster (by decide)
  rw [value, hdata, htype, fat12Value]
  simp only [FAT12_ENTRYS, ClFat12Entry.ofBytes]
  generalize cluster % 8 = k at hlt
  interval_cases k <;> simp

theorem value_eq_bitField (hdata : t.data = some data) (n : Nat) :
    t.value n = bitField data (t.type.width * n) t.type.width := by
  rw [value, hdata]
  cases t.type with
  | fat12 =>
      have hplace : 8 * (12 * (n / 8)) + 12 * (n % 8) = 12 * n := by omega
      have hbits := load_bits data (w := 12) (s := 12 * (n % 8)) (n := 12)
        (12 * (n / 8)) (by omega)
      rw [hplace] at hbits
      exact hbits
  | fat16 =>
      have hplace : 8 * (12 * (n / 6) + 2 * (n % 6)) = 16 * n := by omega
      have hbits := load_eq_bitField data 2 (12 * (n / 6) + 2 * (n % 6))
      rw [hplace] at hbits
      exact hbits
  | fat32 =>
      have hplace : 8 * (12 * (n / 3) + 4 * (n % 3)) = 32 * n := by omega
      have hbits := load_eq_bitField data 4 (12 * (n / 3) + 4 * (n % 3))
      rw [hplace] at hbits
      exact hbits

/-- Twelve bits from an entry's place on are those of a byte and a half. -/
theorem fat12Pair_eq_bitField (content : List UInt8) (n : Nat) :
    fat12Pair content n =
      bitField (fun i => content.getD i 0) (12 * n) 12 := by
  have hplace : 8 * (n + n / 2) + 4 * (n % 2) = 12 * n := by omega
  have hbits := load_bits (fun i => content.getD i 0) (w := 2) (s := 4 * (n % 2))
    (n := 12) (n + n / 2) (by omega)
  rw [hplace] at hbits
  rw [← hbits, fat12Pair]
  simp only [load]
  by_cases hpar : n % 2 = 0
  · have hfirst : n + n / 2 = 3 * (n / 2) := by omega
    have hlow := (content.getD (3 * (n / 2)) 0).toNat_lt
    rw [if_pos hpar, hpar, hfirst, Nat.add_zero]
    omega
  · have hone : n % 2 = 1 := by omega
    have hfirst : n + n / 2 = 3 * (n / 2) + 1 := by omega
    have hlow := (content.getD (3 * (n / 2) + 1) 0).toNat_lt
    have hhigh := (content.getD (3 * (n / 2) + 2) 0).toNat_lt
    rw [if_neg hpar, hone, hfirst,
      show 3 * (n / 2) + 1 + 1 = 3 * (n / 2) + 2 from rfl]
    omega

/-- `value` takes the bits of the entry out of the table. -/
theorem value_eq_bits (h : t.Holds content)
    (hn : t.type.width * n + t.type.width ≤ 8 * content.length) :
    t.value n = bitField (fun i => content.getD i 0) (t.type.width * n)
        t.type.width ∧
      (t.type = .fat12 → t.value n = fat12Pair content n) := by
  obtain ⟨data, hdata, hbytes⟩ := h
  have hvalue : t.value n =
      bitField (fun i => content.getD i 0) (t.type.width * n) t.type.width := by
    rw [value_eq_bitField hdata]
    exact bitField_congr fun i _ hi => hbytes i (by omega)
  refine ⟨hvalue, fun htype => ?_⟩
  rw [hvalue, htype]
  exact (fat12Pair_eq_bitField content n).symm

/-- The media byte and the end mark, then cluster 2 with 3 behind it, whose
chain ends there. -/
def floppyContent : List UInt8 := [0xF0, 0xFF, 0xFF, 0x03, 0xF0, 0xFF]

/-- The table, with other bytes behind it. -/
def floppyTable : ClusterTable where
  data := some fun i => floppyContent.getD i 0xAA
  add := 0
  type := .fat12

theorem floppyTable_bits :
    floppyTable.value 3 = bitField (fun i => floppyContent.getD i 0) 36 12 ∧
      floppyTable.value 3 = fat12Pair floppyContent 3 := by
  have hholds : floppyTable.Holds floppyContent := by
    refine ⟨_, rfl, fun i hi => ?_⟩
    rw [List.getD_eq_getElem _ _ hi, List.getD_eq_getElem _ _ hi]
  obtain ⟨hbits, hpair⟩ := value_eq_bits (t := floppyTable) (n := 3) hholds
    (by decide)
  exact ⟨hbits, hpair rfl⟩

example : floppyTable.value 2 = 3 ∧ floppyTable.value 3 = 0xFFF := by decide

end ClusterTable

end Iposix.Fs
