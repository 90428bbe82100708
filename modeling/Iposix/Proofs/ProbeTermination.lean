import Iposix.Proofs.Partitions
import Iposix.Lib.Cycle
import Mathlib.Data.Finset.Prod

/-!
# When probing a disk ends

`probe_extfilesystems` reads the table it is given, and if the second entry of
that is an extended partition, it goes on to the table this one leads to. Where
it stands is two numbers, the first sector of the entry and the sector that it
counts from, and both have 32 bits. So it gets to an end exactly if it never
stands somewhere twice, and then after at most 2^64 tables; `probe_filesystems`
does so if this is true for each extended partition of the first table. The
number of a sector is handed to `read`, which wants an address, so what is
followed are not the links of the disk: also a disk whose chains all end can
keep the crawler going round.

A turn of the recursion, and so one reading of a table, is one unit of fuel.
-/

namespace Iposix.Fs.PartitiontableCrawler

open Iposix.Lib

variable {buffer : Nat → Name} {drive : BlockDrive}

/-- Where the link of a table leads. -/
def link (drive : BlockDrive) (p : Nat × Nat) : Option (Nat × Nat) :=
  let e := getTable drive (p.1 + p.2) 1
  if e.isExtended then some (e.firstSector, if p.2 = 0 then p.1 else p.2)
  else none

/-- The places with numbers of `w` bytes. Too many to be listed. -/
@[irreducible] def places (w : Nat) : Finset (Nat × Nat) :=
  Finset.range (256 ^ w) ×ˢ Finset.range (256 ^ w)

theorem mem_places {w : Nat} {p : Nat × Nat} :
    p ∈ places w ↔ p.1 < 256 ^ w ∧ p.2 < 256 ^ w := by
  rw [places, Finset.mem_product, Finset.mem_range, Finset.mem_range]

theorem firstSector_lt (drive : BlockDrive) (sector i : Nat) :
    (getTable drive sector i).firstSector < 256 ^ 4 :=
  load_lt _ 4 8

theorem link_mem {p q : Nat × Nat} (hp : p ∈ places 4) (h : link drive p = some q) :
    q ∈ places 4 := by
  obtain ⟨hfirst, hrelative⟩ := mem_places.1 hp
  simp only [link] at h
  split at h
  · cases h
    refine mem_places.2 ⟨firstSector_lt .., ?_⟩
    dsimp only
    split
    · exact hfirst
    · exact hrelative
  · cases h

/-- A chain of tables ends when its links do. -/
theorem probeExtfilesystems_isSome (buffer : Nat → Name) (drive : BlockDrive) :
    ∀ (fuel counter : Nat) (e : PartitiontableEntry) (relativeToSector : Nat)
      (subnodes : List BlockNode),
      (probeExtfilesystems buffer drive fuel counter e relativeToSector
          subnodes).isSome = true ↔
        nth (link drive) fuel (e.firstSector, relativeToSector) = none := by
  intro fuel
  induction fuel with
  | zero =>
      intro counter e relativeToSector subnodes
      simp [probeExtfilesystems, nth]
  | succ fuel ih =>
      intro counter e relativeToSector subnodes
      rw [probeExtfilesystems]
      cases hext : (getTable drive (e.firstSector + relativeToSector)
        1).isExtended with
      | true =>
          have hlink : link drive (e.firstSector, relativeToSector) =
              some ((getTable drive (e.firstSector + relativeToSector)
                1).firstSector,
                if relativeToSector = 0 then e.firstSector
                else relativeToSector) := if_pos hext
          rw [nth_step hlink]
          simp only [if_true]
          exact ih ..
      | false =>
          have hlink : link drive (e.firstSector, relativeToSector) = none :=
            if_neg (hext ▸ Bool.false_ne_true)
          rw [nth_stop hlink]
          simp

/-- The loop gets through the entries if each extended one's chain ends. -/
theorem probeEntrys_isSome (buffer : Nat → Name) (drive : BlockDrive)
    (entrys : Nat → PartitiontableEntry) (fuel : Nat) :
    ∀ (turns i counter : Nat) (subnodes : List BlockNode),
      (probeEntrys buffer drive entrys fuel turns i counter
          subnodes).isSome = true ↔
        ∀ j, i ≤ j → j < i + turns → (entrys j).isExtended = true →
          nth (link drive) fuel ((entrys j).firstSector, 0) = none := by
  intro turns
  induction turns with
  | zero =>
      intro i counter subnodes
      simp only [probeEntrys, Option.isSome_some, true_iff]
      intro j hij hj
      omega
  | succ turns ih =>
      intro i counter subnodes
      -- entry i, and then the ones behind it
      have hsplit : ∀ P : Nat → Prop, (∀ j, i ≤ j → j < i + (turns + 1) → P j) ↔
          P i ∧ ∀ j, i + 1 ≤ j → j < i + 1 + turns → P j := by
        intro P
        constructor
        · intro h
          exact ⟨h i (Nat.le_refl i) (by omega),
            fun j hij hj => h j (by omega) (by omega)⟩
        · intro hboth j hij hj
          obtain ⟨hi, hrest⟩ := hboth
          rcases Nat.eq_or_lt_of_le hij with rfl | hij
          · exact hi
          · exact hrest j hij (by omega)
      rw [hsplit]
      cases hext : (entrys i).isExtended with
      | false =>
          rw [probeEntrys, if_neg (by rw [hext]; exact Bool.false_ne_true)]
          refine (ih ..).trans (iff_and_self.2 fun _ h => ?_)
          cases h
      | true =>
          have hchain := probeExtfilesystems_isSome buffer drive fuel counter
            (entrys i) 0 subnodes
          rw [probeEntrys, if_pos hext]
          cases hrun : probeExtfilesystems buffer drive fuel counter (entrys i) 0
            subnodes with
          | none =>
              rw [hrun] at hchain
              have hlong : ¬ nth (link drive) fuel ((entrys i).firstSector, 0) =
                  none := fun h => by simpa using hchain.2 h
              simp [hlong]
          | some result =>
              rw [hrun] at hchain
              refine (ih ..).trans (iff_and_self.2 fun _ _ => ?_)
              exact hchain.1 rfl

/-! ## The crawler -/

theorem probeFilesystems_isSome (buffer : Nat → Name) (drive : BlockDrive)
    (fuel : Nat) (subnodes : List BlockNode) :
    (probeFilesystems buffer drive fuel subnodes).isSome = true ↔
      ∀ i, i < 4 → (getTable drive 0 i).isExtended = true →
        nth (link drive) fuel ((getTable drive 0 i).firstSector, 0) = none := by
  have hloop := probeEntrys_isSome buffer drive (getTable drive 0) fuel 4 0 1
    (addSubnode subnodes ⟨drive.name, 0, drive.length⟩)
  have hentrys : (∀ j, 0 ≤ j → j < 0 + 4 →
      (getTable drive 0 j).isExtended = true →
        nth (link drive) fuel ((getTable drive 0 j).firstSector, 0) = none) ↔
      ∀ i, i < 4 → (getTable drive 0 i).isExtended = true →
        nth (link drive) fuel ((getTable drive 0 i).firstSector, 0) = none :=
    forall_congr' fun j => by simp
  rw [← hentrys, ← hloop, probeFilesystems]
  split <;> simp [*]

/-- A chain of tables that never stands somewhere twice has ended after at most
2^64 of them. -/
theorem chain_ends {drive : BlockDrive} {i : Nat}
    (h : ¬ Cycles (link drive) ((getTable drive 0 i).firstSector, 0)) :
    nth (link drive) (places 4).card ((getTable drive 0 i).firstSector, 0) = none := by
  have hstart : ((getTable drive 0 i).firstSector, 0) ∈ places 4 :=
    mem_places.2 ⟨firstSector_lt .., Nat.pow_pos (by decide)⟩
  by_contra hlong
  exact h (cycles_of_long (fun _ _ => link_mem) hstart hlong)

/-- The crawler returns exactly if no chain of tables that starts in the first
table comes to the same place again. -/
theorem probeFilesystems_returns_iff (buffer : Nat → Name) (drive : BlockDrive)
    (subnodes : List BlockNode) :
    (∃ fuel, (probeFilesystems buffer drive fuel subnodes).isSome = true) ↔
      ∀ i, i < 4 → (getTable drive 0 i).isExtended = true →
        ¬ Cycles (link drive) ((getTable drive 0 i).firstSector, 0) := by
  constructor
  · intro ⟨fuel, h⟩ i hi hext
    exact not_cycles_of_none ((probeFilesystems_isSome ..).1 h i hi hext)
  · intro h
    exact ⟨(places 4).card, (probeFilesystems_isSome ..).2 fun i hi hext =>
      chain_ends (h i hi hext)⟩

/-- The record of an extended partition that is read as an empty one is the
last of its chain. -/
theorem probeFilesystems_extendedDrive_returns :
    ∃ fuel, (probeFilesystems (fun _ => []) extendedDrive fuel []).isSome =
      true := by
  refine (probeFilesystems_returns_iff ..).2 fun i hi hext => ?_
  obtain rfl : i = 0 := by
    rcases i with _ | _ | _ | _ | i
    · rfl
    all_goals first | cases hext | omega
  exact not_cycles_of_none (k := 1) rfl

/-- A disk with an extended partition from sector 1 on, in it one logical
partition, and behind it a primary one of 256 sectors whose last one is under
head 5. -/
def loopDrive : BlockDrive where
  name := ['h', 'd', 'a']
  blockSize := 512
  length := 152064
  disk := diskOf [(450, 0x05), (454, 1), (458, 40), (466, 0x83), (467, 5),
    (470, 41), (475, 1), (510, 0x55), (511, 0xAA), (962, 0x83), (966, 1),
    (970, 5), (1022, 0x55), (1023, 0xAA)]

/-- All its chains end. But at the byte address 1 the head of the primary
partition is taken for the type of an extended one, which leads there again. -/
theorem probeFilesystems_loopDrive :
    Partitions loopDrive.disk [(2, 5), (41, 256)] ∧
      ∀ fuel, probeFilesystems (fun _ => []) loopDrive fuel [] = none := by
  constructor
  · exact .extended rfl (.last rfl)
      (.primary rfl (.primary rfl (.primary rfl .nil)))
  · have hround : Cycles (link loopDrive)
        ((getTable loopDrive 0 0).firstSector, 0) :=
      ⟨1, 2, (0, 1), by decide, rfl, rfl⟩
    intro fuel
    rw [← Option.not_isSome_iff_eq_none]
    intro h
    exact hround.endless fuel
      ((probeFilesystems_isSome ..).1 h 0 (by decide) rfl)

end Iposix.Fs.PartitiontableCrawler
