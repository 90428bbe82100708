import Iposix.Lib.BitString
import Iposix.Proofs.ClusterRefine

/-!
# When a walk follows the file allocation table

The table on the disk has an entry for each cluster number, packed in twelve or
sixteen bits. `open_subnode` does not keep these numbers: it takes 2 off and adds
the clusters of the root directory, so that `single_cluster_io` can count from
the end of the tables.

`successor` takes the shift off again before it looks into the table, and puts
it on what it finds. `is_free`, `is_defect` and `is_end` only add the 2: they
look at the entry as many places further as the root directory has clusters. So
a walk follows the table as long as the entries at these two places agree on
whether there is a next cluster, and they trivially do where no shift is made.
-/

namespace Iposix.Fs.ClusterTable

open Iposix.Lib

variable {t : ClusterTable}

/-- Entry `n` of the table on the disk; of a FAT32 entry 28 bits count. -/
def entry (t : ClusterTable) (n : Nat) : Nat :=
  match t.data with
  | none => 0
  | some data =>
      match t.type with
      | .fat12 => load 2 data (n + n / 2) / (if n % 2 = 0 then 1 else 16) % 4096
      | .fat16 => load 2 data (2 * n)
      | .fat32 => load 4 data (4 * n) % 268435456

/-- The entry is neither free nor defect nor an end mark. -/
def Link (t : ClusterTable) (n : Nat) : Prop :=
  t.entry n ≠ free t.type ∧ t.entry n ≠ defect t.type ∧
    t.entry n < «end» t.type

instance (t : ClusterTable) (n : Nat) : Decidable (t.Link n) :=
  inferInstanceAs (Decidable (_ ∧ _ ∧ _))

/-- The chain of cluster numbers that the table describes. -/
def fatNext (t : ClusterTable) (n : Nat) : Option Nat :=
  if t.Link n then some (t.entry n) else none

/-- Cluster number `n` as `open_subnode` puts it. -/
def norm (t : ClusterTable) (n : Nat) : Nat := u32 ((n : Int) - 2 + t.add)

/-- The answers about cluster `c` are those of its entry. -/
def StepsRight (t : ClusterTable) (c : Nat) : Prop :=
  (t.hasSuccessor c = true ↔ t.Link (c - t.add + 2)) ∧
    (t.hasSuccessor c = true →
      t.successor c = u32 ((t.entry (c - t.add + 2) : Int) - 2 + t.add))

/-- The walk from number `n` comes to the clusters of its chain, in order, and
ends with it. -/
def WalksRight (t : ClusterTable) (n : Nat) : Prop :=
  ∀ i, nth t.next i (t.norm n) = (nth t.fatNext i n).map t.norm

/-- The entry that is asked about is a link exactly if the right one is. -/
def Agrees (t : ClusterTable) (n : Nat) : Prop :=
  t.Link (u32 (n + t.add : Nat)) ↔ t.Link n

/-! ## Entries -/

/-- Eight entries of FAT12 are twelve bytes, three for each two. -/
theorem fat12_value (data : Nat → UInt8) (n : Nat) :
    load 12 data (12 * (n / 8)) / 2 ^ (12 * (n % 8)) % 4096 =
      load 2 data (n + n / 2) / (if n % 2 = 0 then 1 else 16) % 4096 := by
  have hhalf : (if n % 2 = 0 then 1 else 16) = 2 ^ (4 * (n % 2)) := by
    rcases Nat.mod_two_eq_zero_or_one n with h | h
    · rw [h]
      rfl
    · rw [h]
      rfl
  have hplace : 8 * (12 * (n / 8)) + 12 * (n % 8) =
      8 * (n + n / 2) + 4 * (n % 2) := by omega
  rw [hhalf]
  show _ % 2 ^ 12 = _ % 2 ^ 12
  rw [load_bits data _ (by omega), load_bits data _ (by omega), hplace]

theorem value_eq_entry (htype : t.type ≠ .fat32) (n : Nat) :
    t.value n = t.entry n := by
  rw [value, entry]
  cases t.data with
  | none => rfl
  | some data =>
      cases hfat : t.type with
      | fat12 => exact fat12_value data n
      | fat16 =>
          have hplace : 12 * (n / 6) + 2 * (n % 6) = 2 * n := by omega
          simp only [BYTES, FAT16_ENTRYS, hplace]
      | fat32 => exact absurd hfat htype

theorem entry_lt (htype : t.type ≠ .fat32) (n : Nat) : t.entry n < 65536 := by
  rw [entry]
  cases t.data with
  | none => exact Nat.succ_pos _
  | some data =>
      cases hfat : t.type with
      | fat12 => exact Nat.lt_trans (Nat.mod_lt _ (by decide)) (by decide)
      | fat16 => exact load_lt data 2 _
      | fat32 => exact absurd hfat htype

/-- The three questions look two entries further than they are asked about. -/
theorem hasSuccessor_iff (htype : t.type ≠ .fat32) (c : Nat) :
    t.hasSuccessor c = true ↔ t.Link (u32 (c + 2)) := by
  rw [hasSuccessor, isFree, isDefect, isEnd, value_eq_entry htype, Link]
  simp [and_assoc]

theorem successor_eq (htype : t.type ≠ .fat32) (c : Nat) :
    t.successor c = t.norm (t.entry (u32 (c - t.add + 2))) := by
  rw [successor, value_eq_entry htype, norm]
  congr 1
  omega

/-! ## One step -/

theorem stepsRight_iff (htype : t.type ≠ .fat32) {c : Nat} (hadd : t.add ≤ c)
    (hlt : c - t.add + 2 < 4294967296) :
    t.StepsRight c ↔ t.Agrees (c - t.add + 2) := by
  have hasked : u32 (c - t.add + 2 + t.add : Nat) = u32 (c + 2) := by
    congr 1
    omega
  have hplace : u32 ((c : Int) - t.add + 2) = c - t.add + 2 := by
    simp only [u32]
    omega
  rw [StepsRight, Agrees, hasked, hasSuccessor_iff htype, successor_eq htype,
    hplace, and_iff_left]
  exact fun _ => rfl

/-- A step of the walk is one of the chain exactly if the entries agree. -/
theorem next_norm_iff (htype : t.type ≠ .fat32) {m : Nat} (hm : m < 4294967296) :
    t.next (t.norm m) = (t.fatNext m).map t.norm ↔ t.Agrees m := by
  have hasked : u32 ((t.norm m : Int) + 2) = u32 (m + t.add : Nat) := by
    simp only [norm, u32]
    omega
  have hplace : u32 ((t.norm m : Int) - t.add + 2) = m := by
    simp only [norm, u32]
    omega
  have hasks := hasSuccessor_iff htype (t.norm m)
  rw [hasked] at hasks
  rw [next, fatNext, successor_eq htype, hplace, Agrees, ← hasks]
  cases t.hasSuccessor (t.norm m) <;> by_cases hlink : t.Link m <;> simp [hlink]

/-! ## Whole walks -/

/-- All numbers of a chain fit. -/
theorem chain_lt (htype : t.type ≠ .fat32) {n i m : Nat} (hn : n < 4294967296)
    (h : nth t.fatNext i n = some m) : m < 4294967296 := by
  refine nth_invariant (P := fun m => m < 4294967296) (fun a b _ hab => ?_) hn h
  rw [fatNext] at hab
  split at hab
  · have := entry_lt htype a
    rw [← Option.some.inj hab]
    omega
  · cases hab

theorem walksRight_iff (htype : t.type ≠ .fat32) {n : Nat}
    (hn : n < 4294967296) :
    t.WalksRight n ↔ ∀ i m, nth t.fatNext i n = some m → t.Agrees m := by
  rw [WalksRight, nth_map_iff]
  refine forall_congr' fun i => forall_congr' fun m => ?_
  refine imp_congr_right fun hm => ?_
  exact next_norm_iff htype (chain_lt htype hn hm)

theorem agrees_of_add_zero (hadd : t.add = 0) {n : Nat} (hn : n < 4294967296) :
    t.Agrees n := by
  rw [Agrees, hadd, Nat.add_zero, u32_of_lt hn]

/-- The answers about a cluster are right exactly if the entry they look at is a
link just when the right one is; a walk is right exactly if this holds of all
the clusters of the chain. -/
theorem follows_fat_iff (htype : t.type ≠ .fat32) :
    (∀ c, t.add ≤ c → c - t.add + 2 < 4294967296 →
      (t.StepsRight c ↔ t.Agrees (c - t.add + 2))) ∧
    ∀ n, n < 4294967296 →
      (t.WalksRight n ↔ ∀ i m, nth t.fatNext i n = some m → t.Agrees m) :=
  ⟨fun _ hadd hlt => stepsRight_iff htype hadd hlt,
    fun _ hn => walksRight_iff htype hn⟩

/-- Without clusters in front everything is right. -/
example :
    FatFs.twoClusters.clustertable.StepsRight 0 ∧
      ∀ i m, nth FatFs.twoClusters.clustertable.fatNext i 2 = some m →
        FatFs.twoClusters.clustertable.Agrees m :=
  ⟨(stepsRight_iff (by decide) (by decide) (by decide)).2
    (agrees_of_add_zero rfl (by decide)), fun _ _ hm =>
      agrees_of_add_zero rfl (chain_lt (by decide) (by decide) hm)⟩

instance (t : ClusterTable) (n : Nat) : Decidable (t.Agrees n) :=
  inferInstanceAs (Decidable (_ ↔ _))

/-- A root directory of one cluster, and two files whose clusters alternate: 2
and 5, 3 and 7. -/
def alternatingTable : ClusterTable where
  data := some fun a => if a = 4 then 5 else if a = 6 then 7
    else if a = 10 ∨ a = 11 ∨ a = 14 ∨ a = 15 then 0xFF else 0
  add := 1
  type := .fat16

theorem alternatingTable_follows :
    alternatingTable.StepsRight 1 ∧ alternatingTable.WalksRight 2 := by
  obtain ⟨hstep, hwalk⟩ := follows_fat_iff (t := alternatingTable) (by decide)
  refine ⟨(hstep 1 (by decide) (by decide)).2 (by decide),
    (hwalk 2 (by decide)).2 fun i m hm => ?_⟩
  have hlink : alternatingTable.fatNext 2 = some 5 := by decide
  have hend : alternatingTable.fatNext 5 = none := by decide
  match i, hm with
  | 0, rfl => decide
  | 1, hm =>
      rw [nth_one, hlink] at hm
      cases hm
      decide
  | i + 2, hm =>
      rw [nth_step hlink, nth_stop hend] at hm
      cases hm

/-- A root directory of one cluster, and a file in the clusters 2 and 3. -/
def shiftedTable : ClusterTable where
  data := some fun a => if a = 4 then 3 else if a = 5 then 0 else 0xFF
  add := 1
  type := .fat16

/-- Its first cluster is taken to be the last one. -/
theorem shiftedTable_not_follows :
    ¬ shiftedTable.StepsRight 1 ∧ ¬ shiftedTable.WalksRight 2 := by
  constructor
  · rintro ⟨hmore, -⟩
    exact absurd (hmore.2 (by decide)) (by decide)
  · intro h
    exact absurd (h 1) (by decide)

/-! ## The loops walk -/

/-- `chain_length` moves along the walk. -/
theorem chainLoop_next (t : ClusterTable) (fuel c length : Nat) :
    t.chainLoop (fuel + 1) c length =
      match t.next c with
      | none => some length
      | some c' => t.chainLoop fuel c' (u32 (length + 1)) := by
  rw [chainLoop, next]
  split <;> rfl

/-- The file that `cluster_io` transfers is the one of the chain. -/
theorem WalksRight.fileAddress {fs : FatFs} {n : Nat}
    (h : fs.clustertable.WalksRight n) (j : Nat) :
    fs.fileAddress (fs.clustertable.norm n) j =
      (nth fs.clustertable.fatNext (j / fs.clusterSize) n).map fun m =>
        fs.clusterBase (fs.clustertable.norm m) + j % fs.clusterSize := by
  rw [FatFs.fileAddress, h, Option.map_map]
  rfl

end Iposix.Fs.ClusterTable
