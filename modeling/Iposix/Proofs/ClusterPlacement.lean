import Iposix.Fs.FatFsNode
import Iposix.Proofs.ClusterRefine
import Mathlib.Tactic.Ring

/-!
# When clusters lie where the disk has them

On the disk the reserved sectors come first, then the tables, the root directory
and the data clusters from number 2 on, each part right behind the one before.
The driver counts all of it in clusters: it divides the sectors in front of the
root directory by the sectors of a cluster and the bytes of the root directory by
the bytes of a cluster, and multiplies in 32 bits.

Both divisions round down, so neither makes up for what the other loses, and the
product never comes out too large. The address is right exactly if both parts are
whole clusters and the product fits.
-/

namespace Iposix.Fs

open Iposix.Lib

/-- The transfer goes to this address of the container. -/
def FatFs.AccessesAt (fs : FatFs) (cluster offset address : Nat) : Prop :=
  ∀ container buffer length, offset + length ≤ fs.clusterSize →
    fs.singleClusterIo .clusterRead cluster offset container buffer length =
        (container, splice buffer 0 length (window container address)) ∧
      fs.singleClusterIo .clusterWrite cluster offset container buffer length =
        (splice container address length buffer, buffer)

/-- The transfer is told from the address of its first byte. -/
theorem FatFs.accessesAt_iff {fs : FatFs} {cluster offset address : Nat}
    (hoff : offset < fs.clusterSize) :
    fs.AccessesAt cluster offset address ↔
      fs.clusterBase cluster + offset = address := by
  constructor
  · intro h
    -- a container with a single one, where the transfer is to go
    obtain ⟨hread, -⟩ :=
      h (fun a => if a = address then 1 else 0) (fun _ => 0) 1 hoff
    have hspec := fs.singleClusterIo_spec .clusterRead cluster
      (fun a => if a = address then 1 else 0) (fun _ => 0) 0
      (show offset + 1 ≤ fs.clusterSize from hoff)
    rw [window_zero, graft_zero, hread] at hspec
    have hbyte := congrFun (congrArg Prod.snd hspec) 0
    by_contra hne
    simp [piece, splice, hne] at hbyte
  · rintro rfl container buffer length hin
    have hread := fs.singleClusterIo_spec .clusterRead cluster container buffer 0
      hin
    have hwrite := fs.singleClusterIo_spec .clusterWrite cluster container buffer
      0 hin
    exact ⟨by simpa [piece] using hread, by simpa [piece] using hwrite⟩

namespace FatVolume

variable (fs : FatVolume)

/-- The sectors in front of the root directory. -/
def baseSector : Nat :=
  fs.fatBootsector.reservedSectors.toNat +
    fs.fatBootsector.sectorsPerFat.toNat * fs.fatBootsector.fatCopies.toNat

def rootBytes : Nat := 32 * fs.maxDirEntrysInRoot.toNat

/-- Where byte `offset` of data cluster `n` lies on the disk. -/
def dataAddress (n offset : Nat) : Nat :=
  fs.baseSector * fs.fatBootsector.bytesPerSector.toNat + fs.rootBytes +
    (n - 2) * fs.clusterSize + offset

/-- What is in front of the data are whole clusters, and cluster `n` starts below
4 GiB. -/
def Placed (n : Nat) : Prop :=
  fs.fatBootsector.sectorPerCluster.toNat ∣ fs.baseSector ∧
    fs.clusterSize ∣ fs.rootBytes ∧ fs.dataAddress n 0 < 4294967296

instance (n : Nat) : Decidable (fs.Placed n) :=
  inferInstanceAs (Decidable (_ ∧ _ ∧ _))

variable {fs}

/-! ## The two addresses -/

theorem baseSector_lt : fs.baseSector < 16777216 := by
  have hreserved := fs.fatBootsector.reservedSectors.toNat_lt
  have hsectors := fs.fatBootsector.sectorsPerFat.toNat_lt
  have hcopies := fs.fatBootsector.fatCopies.toNat_lt
  have htables : fs.fatBootsector.sectorsPerFat.toNat *
      fs.fatBootsector.fatCopies.toNat ≤ 65535 * 255 :=
    Nat.mul_le_mul (by omega) (by omega)
  rw [baseSector]
  omega

theorem rootBytes_lt : fs.rootBytes < 2097152 := by
  have hentrys := fs.maxDirEntrysInRoot.toNat_lt
  rw [rootBytes]
  omega

theorem normNodeClusterAdd_eq (htype : fs.clustertable.type ≠ .fat32) :
    fs.normNodeClusterAdd = fs.rootBytes / fs.clusterSize := by
  have hroot : fs.maxDirEntrysInRoot.toNat * DIRECTORY_ENTRY_SIZE = fs.rootBytes :=
    Nat.mul_comm _ _
  have hle := Nat.div_le_self fs.rootBytes fs.clusterSize
  have hlt := fs.rootBytes_lt
  rw [normNodeClusterAdd, hroot, u32_of_lt (by omega)]
  cases hfat : fs.clustertable.type with
  | fat12 => rfl
  | fat16 => rfl
  | fat32 => exact absurd hfat htype

/-- The clusters in front of data cluster `n`, as the driver counts them. -/
theorem clusters_eq (htype : fs.clustertable.type ≠ .fat32) {n : Nat}
    (hn : 2 ≤ n) (hlt : n < 65536) :
    u32 (fs.baseCluster + fs.normCluster n) =
      fs.baseSector / fs.fatBootsector.sectorPerCluster.toNat +
        fs.rootBytes / fs.clusterSize + (n - 2) := by
  have hbase := Nat.div_le_self fs.baseSector
    fs.fatBootsector.sectorPerCluster.toNat
  have hroot := Nat.div_le_self fs.rootBytes fs.clusterSize
  have hsectors := fs.baseSector_lt
  have hbytes := fs.rootBytes_lt
  have hcluster : fs.baseCluster =
      fs.baseSector / fs.fatBootsector.sectorPerCluster.toNat := rfl
  rw [normCluster, if_neg (by omega), normNodeClusterAdd_eq htype, hcluster]
  generalize fs.baseSector / fs.fatBootsector.sectorPerCluster.toNat = q at *
  generalize fs.rootBytes / fs.clusterSize = d at *
  simp only [u32]
  omega

/-- What the two divisions lose is missing in the driver's address. -/
theorem dataAddress_eq (n : Nat) :
    fs.dataAddress n 0 =
      (fs.baseSector / fs.fatBootsector.sectorPerCluster.toNat +
        fs.rootBytes / fs.clusterSize + (n - 2)) * fs.clusterSize +
      (fs.baseSector % fs.fatBootsector.sectorPerCluster.toNat *
          fs.fatBootsector.bytesPerSector.toNat +
        fs.rootBytes % fs.clusterSize) := by
  have hsectors := Nat.div_add_mod fs.baseSector
    fs.fatBootsector.sectorPerCluster.toNat
  have hbytes := Nat.div_add_mod fs.rootBytes fs.clusterSize
  rw [dataAddress]
  generalize fs.baseSector / fs.fatBootsector.sectorPerCluster.toNat = q at *
  generalize fs.baseSector % fs.fatBootsector.sectorPerCluster.toNat = r at *
  generalize fs.rootBytes / fs.clusterSize = d at *
  generalize fs.rootBytes % fs.clusterSize = e at *
  rw [← hsectors, ← hbytes, FatFs.clusterSize]
  ring

theorem clusterBase_eq_iff (htype : fs.clustertable.type ≠ .fat32)
    (hsize : 0 < fs.clusterSize) {n : Nat} (hn : 2 ≤ n) (hlt : n < 65536) :
    fs.clusterBase (fs.normCluster n) = fs.dataAddress n 0 ↔ fs.Placed n := by
  have hbytes : fs.fatBootsector.bytesPerSector.toNat ≠ 0 :=
    Nat.ne_of_gt (Nat.pos_of_mul_pos_right hsize)
  have hlost : fs.baseSector % fs.fatBootsector.sectorPerCluster.toNat *
      fs.fatBootsector.bytesPerSector.toNat = 0 ↔
      fs.fatBootsector.sectorPerCluster.toNat ∣ fs.baseSector := by
    rw [Nat.mul_eq_zero, or_iff_left hbytes, Nat.dvd_iff_mod_eq_zero]
  rw [Placed, ← hlost, Nat.dvd_iff_mod_eq_zero, FatFs.clusterBase,
    clusters_eq htype hn hlt, dataAddress_eq]
  simp only [u32]
  omega

/-- An access of data cluster `n` goes where the disk has it exactly if what is
in front of the data are whole clusters and the cluster starts below 4 GiB. -/
theorem accesses_data_iff (fs : FatVolume)
    (htype : fs.clustertable.type ≠ .fat32) (n offset : Nat) (hn : 2 ≤ n)
    (hlt : n < 65536) (hoff : offset < fs.clusterSize) :
    fs.AccessesAt (fs.normCluster n) offset (fs.dataAddress n offset) ↔
      fs.Placed n := by
  have hsize : 0 < fs.clusterSize := Nat.zero_lt_of_lt hoff
  rw [FatFs.accessesAt_iff hoff, ← clusterBase_eq_iff htype hsize hn hlt]
  exact Nat.add_right_cancel_iff

/-- A floppy disk: clusters of one sector. -/
def floppy : FatVolume where
  clustertable := { data := none, add := 14, type := .fat12 }
  fatBootsector :=
    { bytesPerSector := 512, sectorPerCluster := 1, reservedSectors := 1
      fatCopies := 2, sectorsPerFat := 9 }
  maxDirEntrysInRoot := 224

theorem floppy_accesses :
    floppy.AccessesAt (floppy.normCluster 7) 100 (floppy.dataAddress 7 100) :=
  (accesses_data_iff floppy (by decide) 7 100 (by decide) (by decide)
    (by decide)).2 (by decide)

/-- A partition with four sectors in a cluster and 41 in front of its root
directory. -/
def fourSectors : FatVolume where
  clustertable := { data := none, add := 8, type := .fat16 }
  fatBootsector :=
    { bytesPerSector := 512, sectorPerCluster := 4, reservedSectors := 1
      fatCopies := 2, sectorsPerFat := 20 }
  maxDirEntrysInRoot := 512

/-- The first byte of its data is looked for a sector too early. -/
theorem fourSectors_misplaced :
    fourSectors.AccessesAt (fourSectors.normCluster 2) 0 36864 ∧
      fourSectors.dataAddress 2 0 = 37376 ∧
      ¬ fourSectors.AccessesAt (fourSectors.normCluster 2) 0
        (fourSectors.dataAddress 2 0) := by
  have hoff : 0 < fourSectors.clusterSize := by decide
  rw [FatFs.accessesAt_iff hoff, FatFs.accessesAt_iff hoff]
  decide

end FatVolume

end Iposix.Fs
