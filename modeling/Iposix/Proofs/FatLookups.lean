import Iposix.Fs.FatMount
import Iposix.Lib.Walk

/-!
# Which images a FAT mount survives

A lookup of the checked model answers what the unchecked one answers when its
entry lies inside the table, and faults otherwise. From that follow the entries
a walk of a chain asks for: of each cluster it visits the one two behind it,
and of a cluster that has a successor two more, since `successor` takes the
shift off and asks `has_successor` again with the shifted number.

`dump` counts the entries of the table and asks `is_free` of each, which looks
two entries further. So it leaves the table at its last two entries, whatever
the image holds; only where the size in bits overflows 32 bits does it stop
early enough. That leaves FAT12 images with a table of at least 2 ^ 29 bytes. In
such a table all entries that a FAT12 entry can lead to are there, so a walk
can leave it with its first cluster only.
-/

namespace Iposix.Fs

open Iposix.Lib

namespace LoadedTable

variable {t : LoadedTable} {c : Nat}

/-! ## Single lookups -/

theorem checkedValue_of (h : t.Inside c) :
    t.checkedValue c = .ok (t.value c) := by
  rw [checkedValue, check_of _ h]
  rfl

theorem inside_of_safe_value (h : Safe (t.checkedValue c)) : t.Inside c :=
  safe_check_iff.1 (safe_bind_iff.1 h).1

theorem checkedIsFree_of (h : t.Inside (u32 (c + 2))) :
    t.checkedIsFree c = .ok (t.isFree c) := by
  rw [checkedIsFree, checkedValue_of h]
  rfl

theorem checkedIsDefect_of (h : t.Inside (u32 (c + 2))) :
    t.checkedIsDefect c = .ok (t.isDefect c) := by
  rw [checkedIsDefect, checkedValue_of h]
  rfl

theorem checkedIsEnd_of (h : t.Inside (u32 (c + 2))) :
    t.checkedIsEnd c = .ok (t.isEnd c) := by
  rw [checkedIsEnd, checkedValue_of h]
  rfl

theorem inside_of_safe_isFree (h : Safe (t.checkedIsFree c)) :
    t.Inside (u32 (c + 2)) :=
  inside_of_safe_value (safe_bind_iff.1 h).1

theorem checkedHasSuccessor_of (h : t.Inside (u32 (c + 2))) :
    t.checkedHasSuccessor c = .ok (t.hasSuccessor c) := by
  rw [checkedHasSuccessor, checkedIsFree_of h, checkedIsDefect_of h,
    checkedIsEnd_of h, ClusterTable.hasSuccessor]
  simp only [ok_bind]
  cases t.isFree c <;> cases t.isDefect c <;> rfl

theorem inside_of_safe_hasSuccessor (h : Safe (t.checkedHasSuccessor c)) :
    t.Inside (u32 (c + 2)) :=
  inside_of_safe_isFree (safe_bind_iff.1 h).1

/-- The cluster number with the shift taken off. -/
def shifted (t : LoadedTable) (c : Nat) : Nat := u32 (c - t.add + 2)

theorem checkedSuccessor_of (h₁ : t.Inside (t.shifted c))
    (h₂ : t.Inside (u32 (t.shifted c + 2))) :
    t.checkedSuccessor c = .ok (t.successor c) := by
  show (t.checkedValue (t.shifted c) >>= fun value =>
    t.checkedHasSuccessor (t.shifted c) >>= fun _ =>
      pure (u32 (value + t.add - 2))) = _
  rw [checkedValue_of h₁, checkedHasSuccessor_of h₂]
  rfl

theorem inside_of_safe_successor (h : Safe (t.checkedSuccessor c)) :
    t.Inside (t.shifted c) ∧ t.Inside (u32 (t.shifted c + 2)) := by
  obtain ⟨hvalue, hrest⟩ := safe_bind_iff.1 h
  have h₁ := inside_of_safe_value hvalue
  have h₂ := (safe_bind_iff.1 (hrest _ (checkedValue_of h₁))).1
  exact ⟨h₁, inside_of_safe_hasSuccessor h₂⟩

/-! ## A walk -/

/-- The entries that the questions about one cluster of a walk look up. -/
def AsksFor (t : LoadedTable) (c i : Nat) : Prop :=
  i = u32 (c + 2) ∨
    t.hasSuccessor c = true ∧ (i = t.shifted c ∨ i = u32 (t.shifted c + 2))

/-- The entries that a walk of the chain from `start` looks up. -/
def LookedUp (t : LoadedTable) (start i : Nat) : Prop :=
  ∃ n c, nth t.next n start = some c ∧ t.AsksFor c i

/-- All of them lie inside the table. -/
def WalkInside (t : LoadedTable) (start : Nat) : Prop :=
  ∀ i, t.LookedUp start i → t.Inside i

/-- The entries of the first cluster of a walk lie inside the table. -/
theorem WalkInside.here {start : Nat} (h : t.WalkInside start) {i : Nat}
    (hi : t.AsksFor start i) : t.Inside i := h i ⟨0, start, rfl, hi⟩

theorem WalkInside.isFree (h : t.WalkInside c) : t.Inside (u32 (c + 2)) :=
  h.here (.inl rfl)

theorem next_of_hasSuccessor (h : t.hasSuccessor c = true) :
    t.next c = some (t.successor c) := if_pos h

theorem WalkInside.step (h : t.WalkInside c) (hmore : t.hasSuccessor c = true) :
    t.checkedSuccessor c = .ok (t.successor c) ∧
      t.WalkInside (t.successor c) := by
  refine ⟨checkedSuccessor_of (h.here (.inr ⟨hmore, .inl rfl⟩))
    (h.here (.inr ⟨hmore, .inr rfl⟩)), ?_⟩
  rintro i ⟨n, c', hn, hi⟩
  exact h i ⟨n + 1, c', by rw [nth_step (next_of_hasSuccessor hmore)]; exact hn,
    hi⟩

theorem WalkInside.chainLoop : ∀ {fuel c length : Nat},
    t.WalkInside c → Safe (t.chainLoop fuel c length) := by
  intro fuel
  induction fuel with
  | zero => intro c length _; exact safe_outOfFuel
  | succ fuel ih =>
      intro c length h
      rw [LoadedTable.chainLoop, checkedHasSuccessor_of h.isFree, ok_bind]
      cases hmore : t.hasSuccessor c with
      | false => exact safe_ok length
      | true =>
          obtain ⟨hsucc, hwalk⟩ := h.step hmore
          rw [if_pos rfl, hsucc, ok_bind]
          exact ih hwalk

/-- What the loop of `chain_length` needs at one cluster. -/
theorem safe_chainLoop_step {length : Nat}
    (h : ∀ fuel, Safe (t.chainLoop fuel c length)) :
    (∀ i, t.AsksFor c i → t.Inside i) ∧
      (t.hasSuccessor c = true →
        ∀ fuel, Safe (t.chainLoop fuel (t.successor c) (u32 (length + 1)))) := by
  have hfree : t.Inside (u32 (c + 2)) := by
    have h₁ := h 1
    rw [LoadedTable.chainLoop] at h₁
    exact inside_of_safe_hasSuccessor (safe_bind_iff.1 h₁).1
  have hbody : t.hasSuccessor c = true → ∀ fuel,
      Safe (t.checkedSuccessor c >>= fun c =>
        t.chainLoop fuel c (u32 (length + 1))) := by
    intro hmore fuel
    have h₁ := h (fuel + 1)
    rw [LoadedTable.chainLoop, checkedHasSuccessor_of hfree, ok_bind, hmore,
      if_pos rfl] at h₁
    exact h₁
  have hin : t.hasSuccessor c = true →
      t.Inside (t.shifted c) ∧ t.Inside (u32 (t.shifted c + 2)) :=
    fun hmore => inside_of_safe_successor (safe_bind_iff.1 (hbody hmore 0)).1
  constructor
  · rintro i (rfl | ⟨hmore, rfl | rfl⟩)
    · exact hfree
    · exact (hin hmore).1
    · exact (hin hmore).2
  · intro hmore fuel
    obtain ⟨h₁, h₂⟩ := hin hmore
    exact (safe_bind_iff.1 (hbody hmore fuel)).2 _ (checkedSuccessor_of h₁ h₂)

theorem walkInside_of_safe_chainLoop {length : Nat}
    (h : ∀ fuel, Safe (t.chainLoop fuel c length)) : t.WalkInside c := by
  rintro i ⟨n, c', hn, hi⟩
  induction n generalizing c length with
  | zero =>
      obtain rfl := Option.some.inj hn
      exact (safe_chainLoop_step h).1 i hi
  | succ n ih =>
      have hmore : t.hasSuccessor c = true := by
        cases hmore : t.hasSuccessor c with
        | true => rfl
        | false =>
            have hstop : t.next c = none := if_neg (by rw [hmore]; decide)
            rw [nth_stop hstop] at hn
            cases hn
      rw [nth_step (next_of_hasSuccessor hmore)] at hn
      exact ih ((safe_chainLoop_step h).2 hmore) hn

theorem safe_chainLength_iff {start : Nat} :
    (∀ fuel, Safe (t.checkedChainLength fuel start)) ↔ t.WalkInside start := by
  constructor
  · intro h
    have hfree := inside_of_safe_isFree (safe_bind_iff.1 (h 0)).1
    simp only [checkedChainLength, checkedIsFree_of hfree,
      checkedIsDefect_of hfree, ok_bind] at h
    cases hf : t.isFree start with
    | true =>
        rw [hf] at h
        exact walkInside_of_safe_chainLoop h
    | false =>
        rw [hf] at h
        exact walkInside_of_safe_chainLoop h
  · intro h fuel
    rw [checkedChainLength, checkedIsFree_of h.isFree, ok_bind,
      checkedIsDefect_of h.isFree]
    cases t.isFree start with
    | true => exact h.chainLoop
    | false => exact h.chainLoop

/-- The entries looked up of the first cluster of a walk lie inside the
table. -/
def StartInside (t : LoadedTable) (start : Nat) : Prop :=
  t.Inside (u32 (start + 2)) ∧ (t.hasSuccessor start = true →
    t.Inside (t.shifted start) ∧ t.Inside (u32 (t.shifted start + 2)))

instance (t : LoadedTable) (start : Nat) : Decidable (t.StartInside start) :=
  inferInstanceAs (Decidable (_ ∧ (_ → _)))

theorem asksFor_inside_iff :
    (∀ i, t.AsksFor c i → t.Inside i) ↔ t.StartInside c := by
  refine ⟨fun h => ⟨h _ (.inl rfl), fun hmore => ⟨h _ (.inr ⟨hmore, .inl rfl⟩),
    h _ (.inr ⟨hmore, .inr rfl⟩)⟩⟩, ?_⟩
  rintro ⟨hfree, hsucc⟩ i (rfl | ⟨hmore, rfl | rfl⟩)
  · exact hfree
  · exact (hsucc hmore).1
  · exact (hsucc hmore).2

/-- What is looked up of a cluster that a FAT12 entry leads to lies near the
beginning of the table. -/
theorem asksFor_successor (htype : t.type = .fat12) {i : Nat}
    (h : t.AsksFor (t.successor c) i) : i < 4098 + t.add := by
  have hvalue : ∀ n, t.value n < 4096 := by
    intro n
    rw [ClusterTable.value, htype]
    cases t.data with
    | none => exact Nat.zero_lt_succ _
    | some data => exact Nat.mod_lt _ (by decide)
  have hv := hvalue (u32 (c - t.add + 2))
  rw [AsksFor, shifted, ClusterTable.successor] at h
  generalize t.value (u32 (c - t.add + 2)) = v at hv h
  have hshift : u32 (u32 (v + t.add - 2) - t.add + 2) = v := by
    simp only [u32]
    omega
  rw [hshift] at h
  rcases h with rfl | ⟨-, rfl | rfl⟩
  · simp only [u32]
    omega
  · omega
  · simp only [u32]
    omega

/-- In a large FAT12 table a walk can leave the table at its first cluster
only. -/
theorem walkInside_iff (htype : t.type = .fat12) {start : Nat}
    (hlarge : 12 * (4098 + t.add) ≤ 8 * t.sizeBytes) :
    t.WalkInside start ↔ t.StartInside start := by
  have hlow : ∀ i, i < 4098 + t.add → t.Inside i := by
    intro i hi
    have hbits : entryBits t.type = 12 := by rw [htype]; rfl
    rw [Inside, hbits]
    omega
  rw [← asksFor_inside_iff]
  refine ⟨fun h i hi => h.here hi, ?_⟩
  rintro h i ⟨n, c, hn, hi⟩
  cases n with
  | zero =>
      obtain rfl := Option.some.inj hn
      exact h i hi
  | succ n =>
      rw [nth_succ] at hn
      obtain ⟨b, -, hb⟩ := Option.bind_eq_some_iff.1 hn
      rw [ClusterTable.next] at hb
      split at hb
      · cases hb
        exact hlow i (asksFor_successor htype hi)
      · cases hb

/-! ## The dump -/

theorem dumpLoop_of : ∀ {turns i : Nat},
    (∀ k, i ≤ k → k < i + turns → t.Inside k ∧ t.Inside (u32 (k + 2))) →
    t.dumpLoop turns i = .ok ⟨⟩ := by
  intro turns
  induction turns with
  | zero => intro i _; rfl
  | succ turns ih =>
      intro i h
      obtain ⟨h₁, h₂⟩ := h i (Nat.le_refl i) (by omega)
      have hrest := ih (i := i + 1) fun k hk hlt => h k (by omega) (by omega)
      rw [dumpLoop, checkedValue_of h₁, checkedIsFree_of h₂,
        checkedIsDefect_of h₂]
      simp only [ok_bind, hrest, ite_self]

theorem inside_of_safe_dumpLoop : ∀ {turns i : Nat},
    Safe (t.dumpLoop turns i) →
    ∀ k, i ≤ k → k < i + turns → t.Inside k ∧ t.Inside (u32 (k + 2)) := by
  intro turns
  induction turns with
  | zero => intro i _ k h₁ h₂; omega
  | succ turns ih =>
      intro i h k hk hlt
      have hfirst := h
      rw [dumpLoop] at hfirst
      obtain ⟨hvalue, hbody⟩ := safe_bind_iff.1 hfirst
      have h₁ := inside_of_safe_value hvalue
      have h₂ := inside_of_safe_isFree
        (safe_bind_iff.1 (hbody _ (checkedValue_of h₁))).1
      rw [dumpLoop, checkedValue_of h₁, checkedIsFree_of h₂,
        checkedIsDefect_of h₂] at h
      simp only [ok_bind, ite_self] at h
      rcases Nat.eq_or_lt_of_le hk with rfl | hk
      · exact ⟨h₁, h₂⟩
      · exact ih h k hk (by omega)

theorem dump_of_safe (h : Safe t.dump) : t.dump = .ok ⟨⟩ :=
  dumpLoop_of (inside_of_safe_dumpLoop h)

theorem safe_dump_iff_inside : Safe t.dump ↔
    ∀ k, 0 ≤ k → k < 0 + t.clusters → t.Inside k ∧ t.Inside (u32 (k + 2)) := by
  refine ⟨inside_of_safe_dumpLoop, fun h => ?_⟩
  rw [dump, dumpLoop_of h]
  exact safe_ok _

/-- The dump keeps to the table where the table has no entry to count, or so
many that their size in bits overflows. -/
theorem safe_dump_iff (htype : t.type ≠ .fat32)
    (hsize : t.sizeBytes < 4294967296) :
    Safe t.dump ↔
      t.clusters = 0 ∨ t.type = .fat12 ∧ 536870912 ≤ t.sizeBytes := by
  rw [safe_dump_iff_inside]
  cases htp : t.type with
  | fat32 => exact absurd htp htype
  | fat16 =>
      have hcount : t.clusters = t.sizeBytes / 2 := by rw [clusters, htp]
      have hin : ∀ k, t.Inside k ↔ 16 * (k + 1) ≤ 8 * t.sizeBytes := by
        intro k
        rw [Inside, htp]
        rfl
      simp only [hin, hcount]
      constructor
      · intro h
        refine .inl (Nat.eq_zero_of_not_pos fun hpos => ?_)
        -- the last entry counted looks one behind the table
        have hlast := (h (t.sizeBytes / 2 - 1) (Nat.zero_le _) (by omega)).2
        have hidx : u32 ((t.sizeBytes / 2 - 1 : Nat) + 2) =
            t.sizeBytes / 2 - 1 + 2 := u32_of_lt (n := _ + 2) (by omega)
        omega
      · rintro (hzero | ⟨hbad, -⟩)
        · intro k _ hk
          omega
        · cases hbad
  | fat12 =>
      have hcount : t.clusters = u32 (t.sizeBytes * 8 : Nat) / 12 := by
        rw [clusters, htp]
        rfl
      have hin : ∀ k, t.Inside k ↔ 12 * (k + 1) ≤ 8 * t.sizeBytes := by
        intro k
        rw [Inside, htp]
        rfl
      have hwrap : u32 (t.sizeBytes * 8 : Nat) =
          t.sizeBytes * 8 % 4294967296 := by
        simp only [u32]
        omega
      simp only [hin, hcount, hwrap]
      constructor
      · intro h
        rcases Nat.lt_or_ge t.sizeBytes 536870912 with hlt | hge
        · have hfits : t.sizeBytes * 8 % 4294967296 = t.sizeBytes * 8 :=
            Nat.mod_eq_of_lt (by omega)
          rw [hfits] at h ⊢
          refine .inl (Nat.eq_zero_of_not_pos fun hpos => ?_)
          have hlast := (h (t.sizeBytes * 8 / 12 - 1) (Nat.zero_le _)
            (by omega)).2
          have hidx : u32 ((t.sizeBytes * 8 / 12 - 1 : Nat) + 2) =
              t.sizeBytes * 8 / 12 - 1 + 2 := u32_of_lt (n := _ + 2) (by omega)
          omega
        · exact .inr ⟨trivial, hge⟩
      · rintro (hzero | ⟨-, hge⟩)
        · intro k _ hk
          omega
        · intro k _ hk
          have hidx : u32 ((k : Nat) + 2) = k + 2 :=
            u32_of_lt (n := k + 2) (by omega)
          omega

/-- A table that the dump keeps to because it counts no entry has none. -/
theorem not_inside_of_clusters (h : t.clusters = 0)
    (hsize : t.type = .fat12 → t.sizeBytes < 536870912)
    (htype : t.type ≠ .fat32) (i : Nat) : ¬ t.Inside i := by
  intro hin
  cases htp : t.type with
  | fat32 => exact htype htp
  | fat16 =>
      have hcount : t.sizeBytes / 2 = 0 := by
        rw [clusters, htp] at h
        exact h
      have hentry : 16 * (i + 1) ≤ 8 * t.sizeBytes := by
        rw [Inside, htp] at hin
        exact hin
      omega
  | fat12 =>
      have hcount : u32 (t.sizeBytes * 8 : Nat) / 12 = 0 := by
        rw [clusters, htp] at h
        exact h
      rw [u32_of_lt (by have := hsize htp; omega)] at hcount
      have hentry : 12 * (i + 1) ≤ 8 * t.sizeBytes := by
        rw [Inside, htp] at hin
        exact hin
      omega

end LoadedTable

/-! ## Mounting -/

/-- The clusters that the root directory takes. -/
def rootClusters (image : Nat → UInt8) : Nat :=
  maxDirEntrysInRoot image * DIRECTORY_ENTRY_SIZE /
    clusterSizeOf (readBootsector image)

theorem normNodeClusterAdd_of {type : FatType} {image : Nat → UInt8}
    (htype : type ≠ .fat32) (h : clusterSizeOf (readBootsector image) ≠ 0) :
    normNodeClusterAdd type image = .ok (rootClusters image) := by
  cases type with
  | fat32 => exact absurd rfl htype
  | fat12 | fat16 =>
      simp only [normNodeClusterAdd, check_of _ h]
      rfl

theorem clusterSize_of_safe {type : FatType} {image : Nat → UInt8}
    (htype : type ≠ .fat32) (h : Safe (normNodeClusterAdd type image)) :
    clusterSizeOf (readBootsector image) ≠ 0 := by
  cases type with
  | fat32 => exact absurd rfl htype
  | fat12 | fat16 => exact safe_check_iff.1 (safe_bind_iff.1 h).1

/-- The table that `init` loads. -/
def tableOf (type : FatType) (image : Nat → UInt8) : LoadedTable where
  data :=
    some (window image ((readBootsector image).reservedSectors.toNat *
      (readBootsector image).bytesPerSector.toNat))
  add := rootClusters image
  type := type
  sizeBytes := tableSizeOf (readBootsector image)

theorem fatInit_of {type : FatType} {image : Nat → UInt8}
    (htype : type ≠ .fat32) (h : clusterSizeOf (readBootsector image) ≠ 0) :
    fatInit type image = ((tableOf type image).dump >>= fun _ =>
      pure ⟨tableOf type image, readBootsector image⟩) := by
  rw [fatInit, normNodeClusterAdd_of htype h]
  rfl

theorem safe_of_fatInit {type : FatType} {image : Nat → UInt8} {fs : MountedFat}
    (htype : type ≠ .fat32) (h : fatInit type image = .ok fs) :
    clusterSizeOf (readBootsector image) ≠ 0 ∧ Safe (tableOf type image).dump ∧
      fs = ⟨tableOf type image, readBootsector image⟩ := by
  have hsafe : Safe (fatInit type image) := by
    rw [h]
    exact safe_ok fs
  have hcs := clusterSize_of_safe htype (safe_bind_iff.1 hsafe).1
  rw [fatInit_of htype hcs] at h hsafe
  refine ⟨hcs, (safe_bind_iff.1 hsafe).1, ?_⟩
  cases hdump : (tableOf type image).dump with
  | ok _ =>
      rw [hdump] at h
      exact (Except.ok.inj h).symm
  | error s =>
      rw [hdump] at h
      cases h

theorem tableSizeOf_lt (boot : FatBootsector) :
    tableSizeOf boot < 4294967296 := by
  have h₁ := boot.sectorsPerFat.toNat_lt
  have h₂ := boot.bytesPerSector.toNat_lt
  have h₃ : boot.sectorsPerFat.toNat * boot.bytesPerSector.toNat ≤
      65535 * 65535 := Nat.mul_le_mul (by omega) (by omega)
  rw [tableSizeOf]
  omega

namespace MountedFat

variable {fs : MountedFat}

theorem safe_singleClusterIo (hcs : fs.toFatFs.clusterSize ≠ 0)
    (ioType : FatIoType) (cluster offset : Nat)
    (container buffer : Nat → UInt8) (length : Nat) :
    Safe (fs.checkedSingleClusterIo ioType cluster offset container buffer
      length) := by
  have hspc : fs.fatBootsector.sectorPerCluster.toNat ≠ 0 := by
    intro hzero
    refine hcs ?_
    show fs.fatBootsector.bytesPerSector.toNat *
      fs.fatBootsector.sectorPerCluster.toNat = 0
    rw [hzero, Nat.mul_zero]
  rw [checkedSingleClusterIo]
  split
  · exact safe_ok _
  · rw [check_of _ hspc]
    exact safe_ok _

theorem skipClusters_inside : ∀ (skip : Nat) {c : Nat},
    fs.clustertable.WalkInside c →
    ∃ r, fs.checkedSkipClusters skip c = .ok r ∧
      ∀ c', r = some c' → fs.clustertable.WalkInside c' := by
  intro skip
  induction skip with
  | zero =>
      intro c h
      refine ⟨some c, rfl, ?_⟩
      rintro _ ⟨⟩
      exact h
  | succ skip ih =>
      intro c h
      rw [checkedSkipClusters, LoadedTable.checkedHasSuccessor_of h.isFree,
        ok_bind]
      cases hmore : fs.clustertable.hasSuccessor c with
      | false => exact ⟨none, rfl, fun _ h => nomatch h⟩
      | true =>
          obtain ⟨hsucc, hwalk⟩ := h.step hmore
          rw [if_pos rfl, hsucc, ok_bind]
          exact ih hwalk

theorem safe_transfer (hcs : fs.toFatFs.clusterSize ≠ 0) (ioType : FatIoType)
    (length : Nat) : ∀ {fuel c skipBytes position remain : Nat}
      {container buffer : Nat → UInt8}, fs.clustertable.WalkInside c →
      Safe (fs.checkedTransfer ioType length fuel c skipBytes position remain
        container buffer) := by
  intro fuel
  induction fuel with
  | zero => intros; exact safe_outOfFuel
  | succ fuel ih =>
      intro c skipBytes position remain container buffer h
      rw [checkedTransfer]
      split
      · simp only []
        generalize (if remain > u32 (fs.toFatFs.clusterSize - skipBytes) then
          u32 (fs.toFatFs.clusterSize - skipBytes) else remain) = len
        refine safe_bind_iff.2 ⟨safe_singleClusterIo hcs _ _ _ _ _ _, ?_⟩
        rintro ⟨container', out⟩ -
        simp only []
        split
        · rw [LoadedTable.checkedHasSuccessor_of h.isFree, ok_bind]
          cases hmore : fs.clustertable.hasSuccessor c with
          | false => exact safe_ok _
          | true =>
              obtain ⟨hsucc, hwalk⟩ := h.step hmore
              rw [if_pos rfl, hsucc, ok_bind]
              exact ih hwalk
        · exact safe_ok _
      · exact safe_ok _

theorem safe_clusterIo (hcs : fs.toFatFs.clusterSize ≠ 0) {start : Nat}
    (h : fs.clustertable.WalkInside start) (fuel : Nat) (ioType : FatIoType)
    (offset : Nat) (container buffer : Nat → UInt8) (length : Nat) :
    Safe (fs.checkedClusterIo fuel ioType start offset container buffer
      length) := by
  obtain ⟨r, hr, hwalk⟩ :=
    skipClusters_inside (u32 (offset / fs.toFatFs.clusterSize : Nat)) h
  simp only [checkedClusterIo, check_of _ hcs, ok_bind, hr]
  cases r with
  | none => exact safe_ok _
  | some c => exact safe_transfer hcs ioType length (hwalk c rfl)

end MountedFat

/-- Mounting the image and walking the chain of `start` runs into no fault. -/
def Robust (type : FatType) (image : Nat → UInt8) (start : Nat) : Prop :=
  ∃ fs, fatInit type image = .ok fs ∧
    Safe (fs.clustertable.checkedIsFree start) ∧
    Safe (fs.clustertable.checkedHasSuccessor start) ∧
    ∀ fuel, Safe (fs.clustertable.checkedChainLength fuel start) ∧
      ∀ ioType offset container buffer length,
        Safe (fs.checkedClusterIo fuel ioType start offset container buffer
          length)

/-- The root directory takes few clusters of a large table. -/
theorem tableOf_large {image : Nat → UInt8}
    (hbig : 536870912 ≤ tableSizeOf (readBootsector image)) :
    12 * (4098 + (tableOf .fat12 image).add) ≤
      8 * (tableOf .fat12 image).sizeBytes := by
  have hroot : maxDirEntrysInRoot image < 65536 := load_lt _ 2 17
  have hadd : rootClusters image ≤ maxDirEntrysInRoot image * 32 :=
    Nat.div_le_self _ _
  show 12 * (4098 + rootClusters image) ≤
    8 * tableSizeOf (readBootsector image)
  omega

theorem robust_iff {type : FatType} (htype : type ≠ .fat32)
    (image : Nat → UInt8) (start : Nat) :
    Robust type image start ↔
      clusterSizeOf (readBootsector image) ≠ 0 ∧ type = .fat12 ∧
        536870912 ≤ tableSizeOf (readBootsector image) ∧
        (tableOf type image).StartInside start := by
  have hdump := LoadedTable.safe_dump_iff (t := tableOf type image) htype
    (tableSizeOf_lt _)
  constructor
  · rintro ⟨fs, hinit, -, -, hwalk⟩
    obtain ⟨hcs, hsafe, rfl⟩ := safe_of_fatInit htype hinit
    have hinside := LoadedTable.safe_chainLength_iff.1 fun fuel => (hwalk fuel).1
    by_cases hbig : type = .fat12 ∧
        536870912 ≤ tableSizeOf (readBootsector image)
    · obtain ⟨rfl, hbig⟩ := hbig
      exact ⟨hcs, rfl, hbig,
        (LoadedTable.walkInside_iff rfl (tableOf_large hbig)).1 hinside⟩
    · -- the table has no entry, but the walk asks for one
      have hnone := (hdump.1 hsafe).resolve_right hbig
      refine absurd hinside.isFree (LoadedTable.not_inside_of_clusters hnone
        (fun h12 => Nat.lt_of_not_ge fun hge => hbig ⟨h12, hge⟩) htype _)
  · rintro ⟨hcs, rfl, hbig, hstart⟩
    have hinside :=
      (LoadedTable.walkInside_iff rfl (tableOf_large hbig)).2 hstart
    have hsize : (MountedFat.toFatFs ⟨tableOf .fat12 image,
        readBootsector image⟩).clusterSize ≠ 0 := hcs
    have hsafe : Safe (tableOf .fat12 image).dump := hdump.2 (.inr ⟨rfl, hbig⟩)
    refine ⟨⟨tableOf .fat12 image, readBootsector image⟩, ?_, ?_, ?_, ?_⟩
    · rw [fatInit_of htype hcs, LoadedTable.dump_of_safe hsafe]
      rfl
    · rw [LoadedTable.checkedIsFree_of hinside.isFree]
      exact safe_ok _
    · rw [LoadedTable.checkedHasSuccessor_of hinside.isFree]
      exact safe_ok _
    · intro fuel
      exact ⟨LoadedTable.safe_chainLength_iff.2 hinside fuel,
        fun ioType offset container buffer length =>
          MountedFat.safe_clusterIo hsize hinside fuel ioType offset container
            buffer length⟩

/-- An image from the bytes that are not zero. -/
def imageOf (bytes : List (Nat × UInt8)) (a : Nat) : UInt8 :=
  (bytes.lookup a).getD 0

/-- A table of `2 ^ 29` bytes: 16384 sectors of 32768 bytes. The chain of the
first cluster goes on with the second and the third. -/
def chainImage : Nat → UInt8 :=
  imageOf [(12, 0x80), (13, 1), (14, 1), (16, 1), (17, 16), (23, 0x40),
    (0x8003, 0x03), (0x8004, 0x40), (0x8006, 0xFF), (0x8007, 0x0F)]

example :
    trail (tableOf .fat12 chainImage).next 3 0 = [0, 1, 2] ∧
      (tableOf .fat12 chainImage).hasSuccessor 2 = false := by
  decide

theorem chainImage_robust : Robust .fat12 chainImage 0 :=
  (robust_iff (by decide) chainImage 0).2
    ⟨by decide, rfl, by decide, by decide⟩

/-- A small FAT16 image: sectors of 512 bytes, one sector a cluster, one
reserved sector, two copies of a table of one sector, 16 entries in the root
directory. -/
def smallImage : Nat → UInt8 :=
  imageOf [(12, 2), (13, 1), (14, 1), (16, 2), (17, 16), (22, 1),
    (510, 0x55), (511, 0xAA), (512, 0xF8), (513, 0xFF), (514, 0xFF),
    (515, 0xFF)]

/-- An empty boot sector is divided by; the dump of a small image looks two
entries behind its table. -/
theorem not_robust_small :
    (∀ start, ¬ Robust .fat12 (fun _ => 0) start) ∧
      ∀ start, ¬ Robust .fat16 smallImage start := by
  constructor
  · rintro start ⟨fs, hinit, -⟩
    exact absurd (safe_of_fatInit (by decide) hinit).1 (by decide)
  · rintro start ⟨fs, hinit, -⟩
    have hsafe := (safe_of_fatInit (by decide) hinit).2.1
    have hdump := (LoadedTable.safe_dump_iff (t := tableOf .fat16 smallImage)
      (by decide) (tableSizeOf_lt _)).1 hsafe
    exact absurd hdump (by decide)

end Iposix.Fs
