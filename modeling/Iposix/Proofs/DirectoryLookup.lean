import Iposix.Fs.FatFsNode
import Iposix.Lib.Cycle
import Iposix.Proofs.FatChain

/-!
# When a directory lookup returns

`entry_by_name` asks for the length of the directory's chain before it reads
anything, and `chain_length` follows the table as long as it finds successors.
The clusters are numbers of 32 bits, so this ends unless the walk comes to some
cluster a second time; then it never does.

Everything behind it returns whatever the table holds: a read moves a byte in each
turn or stops, and the two loops over clusters and entries are counted.
-/

namespace Iposix.Fs

open Iposix.Lib

namespace ClusterTable

variable {t : ClusterTable}

theorem next_lt {c c' : Nat} (h : t.next c = some c') : c' < 4294967296 := by
  rw [next] at h
  split at h
  · rw [← Option.some.inj h]
    exact u32_lt _
  · cases h

/-- The loop of `chain_length` returns as soon as the walk ends. -/
theorem chainLoop_returns_iff {c : Nat} (length : Nat) :
    (∃ fuel, t.chainLoop fuel c length ≠ none) ↔
      ∃ i, nth t.next i c = none := by
  constructor
  · rintro ⟨fuel, h⟩
    induction fuel generalizing c length with
    | zero => exact absurd rfl h
    | succ fuel ih =>
        rw [chainLoop_next] at h
        cases hnext : t.next c with
        | none => exact ⟨1, nth_stop hnext 0⟩
        | some c' =>
            rw [hnext] at h
            obtain ⟨i, hi⟩ := ih _ h
            exact ⟨i + 1, by rw [nth_step hnext, hi]⟩
  · rintro ⟨i, h⟩
    induction i generalizing c length with
    | zero => cases h
    | succ i ih =>
        cases hnext : t.next c with
        | none => exact ⟨1, by simp [chainLoop_next, hnext]⟩
        | some c' =>
            rw [nth_step hnext] at h
            obtain ⟨fuel, hfuel⟩ := ih (u32 (length + 1)) h
            exact ⟨fuel + 1, by simpa [chainLoop_next, hnext] using hfuel⟩

theorem chainLength_returns_iff {c : Nat} (hc : c < 4294967296) :
    (∃ fuel, t.chainLength fuel c ≠ none) ↔ ¬ Cycles t.next c := by
  rw [← ends_iff_not_cycles (fun _ _ => next_lt) hc]
  exact chainLoop_returns_iff _

end ClusterTable

namespace FatFsNode

variable {node : FatFsNode} {container : Nat → UInt8}

theorem readPure_returns (hcs : 0 < node.fs.clusterSize)
    (container : Nat → UInt8) (offset : Nat) (buffer : Nat → UInt8)
    {length : Nat} (hlen : length < 4294967296) :
    ∃ out, node.readPure container offset buffer length = some out := by
  have hs : u32 (offset % node.fs.clusterSize : Nat) < node.fs.clusterSize := by
    have hmod := Nat.mod_lt offset hcs
    have hlt := node.fs.clusterSize_lt
    rw [u32_of_lt (by omega)]
    exact hmod
  simp only [readPure, FatFs.clusterIo]
  cases node.fs.skipClusters (u32 (offset / node.fs.clusterSize : Nat))
      node.cluster with
  | none => exact ⟨buffer, rfl⟩
  | some c =>
      obtain ⟨out, hout, -⟩ := FatFs.transfer_read hcs hlen container (length + 1)
        c _ 0 length buffer (Nat.lt_succ_self _) hs (Nat.zero_add _)
      exact ⟨out, by simp only [hout, Option.map_some]⟩

/-- The loop over the clusters is counted. -/
theorem searchClusters_returns (hcs : 0 < node.fs.clusterSize)
    (name : List UInt8) : ∀ (turns offset : Nat) (entrys : Nat → UInt8),
      node.searchClusters container name turns offset entrys ≠ none := by
  intro turns
  induction turns with
  | zero => intro offset entrys; simp [searchClusters]
  | succ turns ih =>
      intro offset entrys
      have hlen := node.fs.clusterSize_lt
      obtain ⟨out, hout⟩ := readPure_returns hcs container offset entrys
        (by omega : node.fs.clusterSize < 4294967296)
      simp only [searchClusters, hout]
      split
      · exact Option.some_ne_none _
      · exact Option.some_ne_none _
      · exact ih _ out

/-- A lookup returns when the length of the chain is known. -/
theorem entryByName_returns_iff (hdir : node.isDirectory = true)
    (hcs : 0 < node.fs.clusterSize) (container : Nat → UInt8)
    (name : List UInt8) (fuel : Nat) :
    node.entryByName container name fuel ≠ none ↔
      node.fs.clustertable.chainLength fuel node.cluster ≠ none := by
  rw [entryByName, hdir]
  cases node.fs.clustertable.chainLength fuel node.cluster with
  | none => simp
  | some clusters => simpa using searchClusters_returns hcs name clusters 0 _

/-- `chain_length`, and with it every lookup in a directory, returns exactly if
the walk from its cluster comes to no cluster a second time. -/
theorem lookup_returns_iff (t : ClusterTable) (c : Nat) (hc : c < 4294967296) :
    ((∃ fuel, t.chainLength fuel c ≠ none) ↔ ¬ Cycles t.next c) ∧
      ∀ (node : FatFsNode) (container : Nat → UInt8) (name : List UInt8),
        node.fs.clustertable = t → node.cluster = c →
        node.isDirectory = true → 0 < node.fs.clusterSize →
        ((∃ fuel, node.entryByName container name fuel ≠ none) ↔
          ¬ Cycles t.next c) := by
  refine ⟨ClusterTable.chainLength_returns_iff hc, ?_⟩
  rintro node container name rfl rfl hdir hcs
  simp only [entryByName_returns_iff hdir hcs]
  exact ClusterTable.chainLength_returns_iff hc

/-- A directory of clusters of 32 bytes, with the given table. -/
def smallDirectory (t : ClusterTable) : FatFsNode where
  fs :=
    { clustertable := t
      fatBootsector :=
        { bytesPerSector := 32, sectorPerCluster := 1, reservedSectors := 1
          fatCopies := 1, sectorsPerFat := 1 } }
  isDirectory := true
  cluster := 0
  size := 0

/-- Two clusters and an end mark. -/
theorem twoClusters_lookup_returns :
    (∃ fuel, FatFs.twoClusters.clustertable.chainLength fuel 0 ≠ none) ∧
      ∃ fuel, (smallDirectory FatFs.twoClusters.clustertable).entryByName
        (fun _ => 0) [97] fuel ≠ none := by
  have hacyclic : ¬ Cycles FatFs.twoClusters.clustertable.next 0 :=
    not_cycles_of_none (show nth _ 2 0 = none by decide)
  obtain ⟨hlength, hlookup⟩ :=
    lookup_returns_iff FatFs.twoClusters.clustertable 0 (by decide)
  exact ⟨hlength.2 hacyclic,
    (hlookup (smallDirectory _) _ _ rfl rfl rfl (by decide)).2 hacyclic⟩

/-- Entry 2 names its own cluster. -/
def loopedTable : ClusterTable where
  data := some fun a => if a = 4 then 2 else if a = 5 then 0 else 0xFF
  add := 0
  type := .fat16

theorem loopedTable_never_returns :
    (¬ ∃ fuel, loopedTable.chainLength fuel 0 ≠ none) ∧
      ¬ ∃ fuel, (smallDirectory loopedTable).entryByName (fun _ => 0) [97] fuel ≠
        none := by
  have hcycles : Cycles loopedTable.next 0 :=
    ⟨0, 1, 0, by decide, by decide, by decide⟩
  have hendless : ¬ ∃ fuel, loopedTable.chainLength fuel 0 ≠ none := by
    rw [ClusterTable.chainLength_returns_iff (by decide)]
    exact not_not_intro hcycles
  refine ⟨hendless, ?_⟩
  rintro ⟨fuel, hlookup⟩
  exact hendless
    ⟨fuel, (entryByName_returns_iff rfl (by decide) _ _ fuel).1 hlookup⟩

end FatFsNode

end Iposix.Fs
