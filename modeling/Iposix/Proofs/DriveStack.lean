import Iposix.Proofs.AtaTransfer
import Iposix.Proofs.ContainerRefine
import Iposix.Proofs.PartitionContainment

/-!
# A filesystem on a partition of an ATA drive

Between a FAT filesystem and the disk stand the node of the partition, the block
layer and the ATA driver. The block layer alone does not end on a long request,
because a command cannot count that far. The filesystem asks for a piece of a
cluster at a time, and a cluster is short enough: over the whole stack cluster
input and output is what it is on flat bytes.
-/

namespace Iposix.Devices.Ata

open Iposix.Lib

variable {drive : Drive} {c : Controller} {base length sectors : Nat}
  {buf tmp : Bytes}

/-! ## Requests that are carried out -/

/-- A request with few whole blocks comes down to commands the drive accepts. -/
theorem carries_of_short (hlow : drive.hasLba48 = false →
      base + length ≤ 16777216 * 512)
    (hshort : length < 512 * drive.limit) : drive.Carries base length := by
  have hlimit : 256 ≤ drive.limit := by
    rw [Drive.limit]
    split <;> decide
  refine ⟨fun hskip => ⟨by omega, fun hlba => ?_⟩,
    fun hgo => ⟨?_, fun hlba => ?_⟩, fun hrem => ⟨by omega, fun hlba => ?_⟩⟩
  · have := hlow hlba
    omega
  · rw [wholeBlocks, if_pos hgo, rest, headBytes]
    omega
  · have := hlow hlba
    rw [rest, headBytes, firstBlock] at hgo
    rw [firstBlock]
    omega
  · have := hlow hlba
    have hle := whole_le base length
    rw [rest, headBytes, firstBlock] at hrem hle
    rw [firstBlock]
    omega

/-- A request that is carried out needs two rounds of the body loop at most. -/
theorem Drive.Carries.read (hs : drive.Sound sectors)
    (h : drive.Carries base length) (hfits : base + length ≤ sectors * 512)
    (c : Controller) (buf tmp : Bytes) {fuel : Nat} (hfuel : length + 2 ≤ fuel) :
    ∃ c', drive.blockDevice.read fuel c base buf length tmp =
        some ((length : Int), splice buf 0 length (window c.disk base), c') ∧
      c'.disk = c.disk := by
  obtain ⟨fuel, rfl⟩ : ∃ n, fuel = n + 2 := ⟨fuel - 2, by omega⟩
  have hlen : length < 4294967296 := Nat.lt_trans h.short (by decide)
  obtain ⟨c', hwhole, hdisk⟩ := BlockDevice.read_spec c buf tmp
    (Drive.whole_transfers hs) h.short (by omega : length < fuel + 2) hfits
  refine ⟨c', Eq.trans ?_ hwhole, hdisk⟩
  have hhead : drive.blockDevice.readHead c base buf length tmp =
      drive.whole.readHead c base buf length tmp :=
    readHead_congr rfl rfl fun hskip => (if_pos (h.head hskip)).symm
  have hcursor := readHead_accepted hs hlen hfits h.head c buf tmp
  obtain ⟨c₁, buf₁, hreal, hbody⟩ := readBody_accepted hs h.body hlen hfits
    (drive.blockDevice.readHead c base buf length tmp).2.1
    (drive.blockDevice.readHead c base buf length tmp).2.2.1 fuel
  rw [← hcursor] at hreal hbody
  have htail : ∀ tmp, drive.blockDevice.readTail (afterBody base length) c₁
      buf₁ tmp = drive.whole.readTail (afterBody base length) c₁ buf₁ tmp :=
    fun tmp => readTail_congr fun hrem => (if_pos (h.tail fun heq =>
      hrem (Nat.sub_eq_zero_of_le (Nat.le_of_eq heq)))).symm
  rw [read_of_body hreal, htail]
  rw [hhead] at hbody ⊢
  rw [read_of_body hbody]

theorem Drive.Carries.write (hs : drive.Sound sectors)
    (h : drive.Carries base length) (hfits : base + length ≤ sectors * 512)
    (c : Controller) (buf tmp : Bytes) {fuel : Nat} (hfuel : length + 2 ≤ fuel) :
    ∃ c', drive.blockDevice.write fuel c base buf length tmp =
        some ((length : Int), c') ∧
      c'.disk = splice c.disk base length buf := by
  obtain ⟨fuel, rfl⟩ : ∃ n, fuel = n + 2 := ⟨fuel - 2, by omega⟩
  have hlen : length < 4294967296 := Nat.lt_trans h.short (by decide)
  obtain ⟨c', hwhole, hdisk⟩ := BlockDevice.write_spec c buf tmp
    (Drive.whole_transfers hs) h.short (by omega : length < fuel + 2) hfits
  refine ⟨c', Eq.trans ?_ hwhole, hdisk⟩
  have hhead : drive.blockDevice.writeHead c base buf length tmp =
      drive.whole.writeHead c base buf length tmp :=
    writeHead_congr rfl rfl (fun hskip _ _ => (if_pos (h.head hskip)).symm)
      fun hskip _ _ => (if_pos (h.head hskip)).symm
  have hcursor := writeHead_accepted hs hlen hfits h.head c buf tmp
  obtain ⟨c₁, hreal, hbody⟩ := writeBody_accepted hs h.body hlen hfits
    (drive.blockDevice.writeHead c base buf length tmp).2.1 buf fuel
  rw [← hcursor] at hreal hbody
  have htail : ∀ tmp, drive.blockDevice.writeTail buf (afterBody base length)
      c₁ tmp = drive.whole.writeTail buf (afterBody base length) c₁ tmp :=
    fun tmp => writeTail_congr
      (fun hrem _ _ => (if_pos (h.tail fun heq =>
        hrem (Nat.sub_eq_zero_of_le (Nat.le_of_eq heq)))).symm)
      fun hrem _ _ => (if_pos (h.tail fun heq =>
        hrem (Nat.sub_eq_zero_of_le (Nat.le_of_eq heq)))).symm
  rw [write_of_body hreal, htail]
  rw [hhead] at hbody ⊢
  rw [write_of_body hbody]

end Iposix.Devices.Ata

namespace Iposix.Fs

open Iposix.Lib

open Iposix.Devices (Bytes)

open Iposix.Devices.Ata (Drive Controller)

open DevFsNode (ofBlockDevice ofDrive)

variable {drive : Drive} {sectors first last most fuel : Nat} {tmp : Bytes}

/-- A partition of an ATA drive. Without LBA48 it lies below sector 2^24, and
what is asked for is short enough for the count register. -/
structure Partition (drive : Drive) (sectors first last most : Nat) : Prop where
  sound : drive.Sound sectors
  ordered : first ≤ last
  fits : last ≤ sectors * 512
  low : drive.hasLba48 = false → last ≤ 16777216 * 512
  short : most < 512 * drive.limit

/-- The container that a filesystem on the partition is given; `tmp` is what
the block layer's buffer holds. -/
def onPartition (drive : Drive) (fuel : Nat) (tmp : Bytes) (first last : Nat) :
    Container Controller :=
  .ofNode (ofBlockDevice drive.blockDevice fuel tmp) (ofDrive first last)

/-- A range inside the partition passes the check of the bounds unless it is
empty. -/
theorem Partition.checked (h : Partition drive sectors first last most)
    {offset length : Nat}
    (hin : first + offset + length ≤ last) (hpos : 0 < length) :
    u64 (first + offset : Nat) = first + offset ∧
      DevFsNode.Checked first last offset length := by
  have hlast := h.sound.lt (show last + 0 ≤ sectors * 512 from h.fits)
  have hbase : u64 (first + offset : Nat) = first + offset :=
    u64_of_lt (by omega)
  have hup : u64 (first + offset + length : Nat) = first + offset + length :=
    u64_of_lt (by omega)
  refine ⟨hbase, ?_⟩
  rw [DevFsNode.Checked, hbase, hup]
  omega

/-- The node of a partition serves what lies in the partition. -/
theorem Partition.serves (h : Partition drive sectors first last most)
    (hfuel : most + 2 ≤ fuel) :
    (onPartition drive fuel tmp first last).Serves Controller.disk first
      (last - first) most := by
  have hordered := h.ordered
  have hfits := h.fits
  have hshort := h.short
  refine ⟨fun dev offset buffer length hin hmost => ?_,
    fun dev offset buffer length hin hmost => ?_⟩
  · show ∃ dev', (ofDrive first last).read _ dev offset buffer length = _ ∧ _
    rw [DevFsNode.read_ofDrive]
    rcases Nat.eq_zero_or_pos length with rfl | hpos
    · refine ⟨dev, ?_, rfl⟩
      rw [splice_empty, if_neg fun hchecked => ?_]
      exact Nat.lt_irrefl _ hchecked.1
    · obtain ⟨hbase, hchecked⟩ := h.checked (by omega : first + offset + length ≤ last) hpos
      have hcarries : drive.Carries (first + offset) length :=
        Devices.Ata.carries_of_short (fun hlba => by
          have := h.low hlba
          omega) (by omega)
      obtain ⟨dev', hread, hdisk⟩ := hcarries.read h.sound (by omega) dev buffer
        tmp (by omega : length + 2 ≤ fuel)
      refine ⟨dev', ?_, hdisk⟩
      rw [if_pos hchecked, hbase]
      show Option.map _ (drive.blockDevice.read fuel dev (first + offset) buffer
        length tmp) = _
      rw [hread]
      rfl
  · show ∃ dev', (ofDrive first last).write _ dev offset buffer length = _ ∧ _
    rw [DevFsNode.write_ofDrive]
    rcases Nat.eq_zero_or_pos length with rfl | hpos
    · refine ⟨dev, ?_, (splice_empty _ _ _).symm⟩
      rw [if_neg fun hchecked => ?_]
      exact Nat.lt_irrefl _ hchecked.1
    · obtain ⟨hbase, hchecked⟩ := h.checked (by omega : first + offset + length ≤ last) hpos
      have hcarries : drive.Carries (first + offset) length :=
        Devices.Ata.carries_of_short (fun hlba => by
          have := h.low hlba
          omega) (by omega)
      obtain ⟨dev', hwrite, hdisk⟩ := hcarries.write h.sound (by omega) dev
        buffer tmp (by omega : length + 2 ≤ fuel)
      refine ⟨dev', ?_, hdisk⟩
      rw [if_pos hchecked, hbase]
      exact congrArg (Option.map Prod.snd) hwrite

namespace FatFs

theorem twoClusters_inside {size : Nat} (hsize : 8 ≤ size) :
    twoClusters.InsideFrom size 0 1 5 := by
  have hbytes : ∀ k, k < 5 →
      ((twoClusters.fileAddress 0 (1 + k)).all fun a => a < 8) = true := by
    decide
  intro k a hk ha
  have hlt := hbytes k hk
  rw [ha, Option.all_some, decide_eq_true_eq] at hlt
  exact Nat.lt_of_lt_of_le hlt hsize

end FatFs

end Iposix.Fs
