import Iposix.Fs.DevFsNode
import Iposix.Proofs.BlockRefine

/-!
# Whether a node keeps to its partition

A node hands its drive at most one range for each call. The check looks at the
end of the range only: it has to come behind the beginning and not behind the end
of the partition. A range that begins before the partition passes, and it begins
there exactly if the sum of the first address and the offset wraps around.

So a node keeps to its partition as long as no such sum wraps; and if one does,
only a range of no bytes or one that ends behind the partition is refused.
-/

namespace Iposix.Fs.DevFsNode

open Iposix.Lib

open Iposix.Devices (Bytes BlockDevice)

/-! ## The ranges that are passed on -/

/-- Devices that keep the ranges their drive was asked for. -/
def askedRanges : NodeDevices (List (Nat × Nat)) where
  driveRead asked base buffer length := some (buffer, asked ++ [(base, length)])
  driveWrite asked base _ length := some (asked ++ [(base, length)])
  consoleRead asked buffer _ := some (buffer, asked)
  consoleWrite asked _ _ := some asked

/-- The ranges that `read` passes to the drive: the first address and the
length. -/
def readRanges (n : DevFsNode) (offset : Nat) (buffer : Bytes) (length : Nat) :
    List (Nat × Nat) :=
  (n.read askedRanges [] offset buffer length).elim [] Prod.snd

/-- The ranges that `write` passes to the drive. -/
def writeRanges (n : DevFsNode) (offset : Nat) (buffer : Bytes)
    (length : Nat) : List (Nat × Nat) :=
  (n.write askedRanges [] offset buffer length).getD []

/-- The range lies inside the partition. -/
def Holds (n : DevFsNode) (range : Nat × Nat) : Prop :=
  n.firstAddress ≤ range.1 ∧ range.1 + range.2 ≤ n.lastAddress

/-- All ranges that are passed on for the offset and the length do. -/
def Confined (n : DevFsNode) (offset length : Nat) : Prop :=
  ∀ buffer, (∀ range ∈ n.readRanges offset buffer length, n.Holds range) ∧
    ∀ range ∈ n.writeRanges offset buffer length, n.Holds range

section Drive

variable {first last offset length : Nat}

/-- The check of the bounds. -/
def Checked (first last offset length : Nat) : Prop :=
  u64 (first + offset : Nat) < u64 (first + offset + length : Nat) ∧
    u64 (first + offset + length : Nat) ≤ last

instance (first last offset length : Nat) :
    Decidable (Checked first last offset length) :=
  inferInstanceAs (Decidable (_ ∧ _))

theorem read_ofDrive {σ : Type*} (devices : NodeDevices σ) (dev : σ)
    (buffer : Bytes) :
    (ofDrive first last).read devices dev offset buffer length =
      if Checked first last offset length then
        devices.driveRead dev (u64 (first + offset : Nat)) buffer length
      else some (buffer, dev) := rfl

theorem write_ofDrive {σ : Type*} (devices : NodeDevices σ) (dev : σ)
    (buffer : Bytes) :
    (ofDrive first last).write devices dev offset buffer length =
      if Checked first last offset length then
        devices.driveWrite dev (u64 (first + offset : Nat)) buffer length
      else some dev := rfl

theorem readRanges_ofDrive (buffer : Bytes) :
    (ofDrive first last).readRanges offset buffer length =
      if Checked first last offset length then
        [(u64 (first + offset : Nat), length)]
      else [] := by
  rw [readRanges, read_ofDrive]
  split <;> rfl

theorem writeRanges_ofDrive (buffer : Bytes) :
    (ofDrive first last).writeRanges offset buffer length =
      if Checked first last offset length then
        [(u64 (first + offset : Nat), length)]
      else [] := by
  rw [writeRanges, write_ofDrive]
  split <;> rfl

/-- Both calls pass on the range that was checked. -/
theorem confined_ofDrive :
    (ofDrive first last).Confined offset length ↔
      (Checked first last offset length →
        (ofDrive first last).Holds (u64 (first + offset : Nat), length)) := by
  simp only [Confined, readRanges_ofDrive, writeRanges_ofDrive, and_self]
  constructor
  · intro h hchecked
    refine h (fun _ => 0) _ ?_
    rw [if_pos hchecked]
    exact List.mem_singleton_self _
  · intro h buffer range hrange
    split at hrange
    · next hchecked => exact List.mem_singleton.1 hrange ▸ h hchecked
    · cases hrange

/-- A range that is checked has not wrapped, and it ends inside the
partition. -/
theorem Checked.end_le (hlength : length < 4294967296)
    (h : Checked first last offset length) :
    u64 (first + offset : Nat) + length ≤ last := by
  obtain ⟨hup, hlast⟩ := h
  simp only [u64] at hup hlast ⊢
  omega

/-- A node keeps to its partition exactly if the sum of the first address and the
offset does not wrap, or the range is empty or ends behind the partition. -/
theorem confined_iff (hle : first ≤ last) (hlast : last < 18446744073709551616)
    (hoffset : offset < 18446744073709551616) (hlength : length < 4294967296) :
    (ofDrive first last).Confined offset length ↔
      first + offset < 18446744073709551616 ∨ length = 0 ∨
        last + 18446744073709551616 < first + offset + length := by
  rw [confined_ofDrive]
  constructor
  · intro h
    refine Decidable.byContradiction fun hwraps => ?_
    have hchecked : Checked first last offset length := by
      constructor <;> (simp only [u64]; omega)
    have hbefore : u64 (first + offset : Nat) < first := by
      simp only [u64]
      omega
    exact Nat.not_lt.2 (h hchecked).1 hbefore
  · intro h hchecked
    refine ⟨?_, hchecked.end_le hlength⟩
    show first ≤ u64 (first + offset : Nat)
    obtain ⟨hup, hend⟩ := hchecked
    simp only [u64] at hup hend ⊢
    omega

/-- The range 7096 to 7607 of the drive is passed on. -/
theorem confined_inside : (ofDrive 4096 8192).Confined 3000 512 :=
  (confined_iff (by decide) (by decide) (by decide) (by decide)).2
    (.inl (by decide))

/-- A partition from address 4096 on is asked for what is 4096 bytes before
it: the sector 0 of the drive is passed on. -/
theorem ofDrive_not_confined :
    ¬ (ofDrive 4096 8192).Confined 18446744073709547520 512 := by
  intro h
  have hchecked : Checked 4096 8192 18446744073709547520 512 := by
    constructor <;> (simp only [u64]; omega)
  have hfirst : 4096 ≤ u64 ((4096 + 18446744073709547520 : Nat) : Int) :=
    (confined_ofDrive.1 h hchecked).1
  simp only [u64] at hfirst
  omega

end Drive

/-! ## Partitions of one drive -/

section Partitions

variable {σ : Type*} {d : BlockDevice σ} {disk : σ → Bytes} {blocks fuel : Nat}
  {first last offset length : Nat}

/-- The nodes of a drive of the block layer. -/
def ofBlockDevice (d : BlockDevice σ) (fuel : Nat) (tmp : Bytes) :
    NodeDevices σ where
  driveRead dev base buffer length :=
    (d.read fuel dev base buffer length tmp).map fun (_, buffer, dev) =>
      (buffer, dev)
  driveWrite dev base buffer length :=
    (d.write fuel dev base buffer length tmp).map Prod.snd
  consoleRead dev buffer _ := some (buffer, dev)
  consoleWrite dev _ _ := some dev

/-- A confined write changes nothing outside its partition. -/
theorem write_outside (h : d.Transfers disk blocks)
    (hfits : last ≤ blocks * d.blockSize) (hlength : length < 2147483648)
    (hfuel : length < fuel)
    (hconfined : (ofDrive first last).Confined offset length) (dev : σ)
    (buffer tmp : Bytes) :
    ∃ dev', (ofDrive first last).write (ofBlockDevice d fuel tmp) dev offset
        buffer length = some dev' ∧
      ∀ a, a < first ∨ last ≤ a → disk dev' a = disk dev a := by
  rw [write_ofDrive]
  split
  · next hchecked =>
      obtain ⟨hfirst, hend⟩ := confined_ofDrive.1 hconfined hchecked
      obtain ⟨dev', hwrite, hdisk⟩ :=
        BlockDevice.write_spec dev buffer tmp h hlength hfuel
          (Nat.le_trans hend hfits)
      refine ⟨dev', congrArg (Option.map Prod.snd) hwrite, fun a ha => ?_⟩
      rw [hdisk]
      rcases ha with ha | ha
      · exact splice_lt (Nat.lt_of_lt_of_le ha hfirst)
      · exact splice_ge (Nat.le_trans hend ha)
  · exact ⟨dev, rfl, fun _ _ => rfl⟩

/-- A confined read delivers nothing that is outside its partition: two drives
with the same partition are read alike. -/
theorem read_outside (h : d.Transfers disk blocks)
    (hfits : last ≤ blocks * d.blockSize) (hlength : length < 2147483648)
    (hfuel : length < fuel)
    (hconfined : (ofDrive first last).Confined offset length) {dev₁ dev₂ : σ}
    (hagree : ∀ a, first ≤ a → a < last → disk dev₁ a = disk dev₂ a)
    (buffer tmp : Bytes) :
    ∃ out dev₁' dev₂',
      (ofDrive first last).read (ofBlockDevice d fuel tmp) dev₁ offset buffer
        length = some (out, dev₁') ∧
      (ofDrive first last).read (ofBlockDevice d fuel tmp) dev₂ offset buffer
        length = some (out, dev₂') ∧
      disk dev₁' = disk dev₁ := by
  rw [read_ofDrive, read_ofDrive]
  split
  · next hchecked =>
      obtain ⟨hfirst, hend⟩ := confined_ofDrive.1 hconfined hchecked
      have hin := Nat.le_trans hend hfits
      obtain ⟨dev₁', hread₁, hdisk₁⟩ :=
        BlockDevice.read_spec dev₁ buffer tmp h hlength hfuel hin
      obtain ⟨dev₂', hread₂, -⟩ :=
        BlockDevice.read_spec dev₂ buffer tmp h hlength hfuel hin
      refine ⟨_, dev₁', dev₂', congrArg (Option.map _) hread₁, ?_, hdisk₁⟩
      refine (congrArg (Option.map _) hread₂).trans ?_
      have hsame : splice buffer 0 length
          (window (disk dev₁) (u64 (first + offset : Nat))) =
          splice buffer 0 length
            (window (disk dev₂) (u64 (first + offset : Nat))) :=
        splice_congr fun k hk => hagree _ (Nat.le_trans hfirst
          (Nat.le_add_right _ k)) (by
            have := Nat.add_lt_add_left hk (u64 (first + offset : Nat))
            exact Nat.lt_of_lt_of_le this hend)
      rw [hsame]
      rfl
  · exact ⟨buffer, dev₁, dev₂, rfl, rfl, rfl⟩

/-- A write through the node of a partition. -/
structure NodeWrite where
  first : Nat
  last : Nat
  offset : Nat
  length : Nat
  buffer : Bytes

/-- A confined write to a partition of the drive that has no byte in common
with the addresses from `lo` up to `hi`. -/
structure NodeWrite.Elsewhere (w : NodeWrite) (size fuel lo hi : Nat) :
    Prop where
  fits : w.last ≤ size
  short : w.length < 2147483648
  fuel : w.length < fuel
  confined : (ofDrive w.first w.last).Confined w.offset w.length
  disjoint : w.last ≤ lo ∨ hi ≤ w.first

/-- The writes, one after the other. -/
def writeAll (d : BlockDevice σ) (fuel : Nat) (tmp : Bytes) :
    List NodeWrite → σ → Option σ
  | [], dev => some dev
  | w :: rest, dev =>
      match (ofDrive w.first w.last).write (ofBlockDevice d fuel tmp) dev
        w.offset w.buffer w.length with
      | none => none
      | some dev => writeAll d fuel tmp rest dev

/-- However the other partitions are written, a partition stays as it is. -/
theorem writeAll_elsewhere (h : d.Transfers disk blocks) (tmp : Bytes)
    {lo hi : Nat} :
    ∀ (writes : List NodeWrite) (dev : σ),
      (∀ w ∈ writes, w.Elsewhere (blocks * d.blockSize) fuel lo hi) →
      ∃ dev', writeAll d fuel tmp writes dev = some dev' ∧
        ∀ a, lo ≤ a → a < hi → disk dev' a = disk dev a := by
  intro writes
  induction writes with
  | nil => intro dev _; exact ⟨dev, rfl, fun _ _ _ => rfl⟩
  | cons w rest ih =>
      intro dev hall
      have hw := hall w List.mem_cons_self
      obtain ⟨dev₁, hwrite, hkeep₁⟩ := write_outside h hw.fits hw.short hw.fuel
        hw.confined dev w.buffer tmp
      obtain ⟨dev₂, hrest, hkeep₂⟩ :=
        ih dev₁ fun w' hw' => hall w' (List.mem_cons_of_mem w hw')
      refine ⟨dev₂, ?_, fun a hlo hhi => ?_⟩
      · rw [writeAll, hwrite]
        exact hrest
      · refine (hkeep₂ a hlo hhi).trans (hkeep₁ a ?_)
        have := hw.disjoint
        omega

end Partitions

end Iposix.Fs.DevFsNode
