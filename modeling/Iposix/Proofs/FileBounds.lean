import Iposix.Proofs.SequentialRead

/-!
# When an access stays inside the file

`fat_fs_node::read` and `write` cut a request down to the file before they hand
it to `cluster_io`. The cut is right for every offset up to the size. For an
offset behind it the difference of the two is taken in 32 bits and becomes the
length, however short the request was, and `cluster_io` moves as much of it as
the chain has clusters behind the offset.

So the only offsets behind the end that do no harm are those at which the chain
has no cluster, and those where the length happens to wrap to zero. The index of
the cluster is a 32-bit number as well, so an offset may be far behind the end of
the chain and still reach it.
-/

namespace Iposix.Fs.FatFsNode

open Iposix.Lib

structure IsFile (node : FatFsNode) : Prop where
  notDirectory : node.isDirectory = false
  clusterSize_pos : 0 < node.fs.clusterSize
  size_lt : node.size < 4294967296

/-- A read stores the bytes of the file it is asked for, and nothing else. -/
def ReadsInside (node : FatFsNode) (offset length : Nat) : Prop :=
  ∀ container buffer, ∃ out,
    node.read container offset buffer length = some out ∧
      ∀ k, out k = if k < node.available offset length
        then (node.fs.fileByte container node.cluster (offset + k)).getD (buffer k)
        else buffer k

/-- A write changes the bytes of the file it is asked for, and nothing else. -/
def WritesInside (node : FatFsNode) (offset length : Nat) : Prop :=
  ∀ container buffer, ∃ out,
    node.write container offset buffer length = some out ∧
      ∀ a, (∀ k, k < node.available offset length →
        node.fs.fileAddress node.cluster (offset + k) ≠ some a) →
        out a = container a

/-- The chain has a cluster where `cluster_io` looks for the offset. -/
def Reaches (node : FatFsNode) (offset : Nat) : Prop :=
  (nth node.fs.clustertable.next (offset / node.fs.clusterSize % 4294967296)
    node.cluster).isSome

/-- The offset is in the file, or no cluster is found at it, or the request is
cut to a difference that wraps to zero. -/
def Harmless (node : FatFsNode) (offset length : Nat) : Prop :=
  offset ≤ node.size ∨ ¬ node.Reaches offset ∨
    node.size < (offset + length) % 18446744073709551616 ∧
      (offset - node.size) % 4294967296 = 0

variable {node : FatFsNode} {offset length : Nat}

/-! ## The cut -/

/-- The length that a request is cut to. -/
def cut (node : FatFsNode) (offset length : Nat) : Nat :=
  if u64 (offset + length : Nat) > node.size then
    u32 ((node.size : Int) - offset)
  else length

theorem cut_lt (hlen : length < 4294967296) :
    node.cut offset length < 4294967296 := by
  rw [cut]
  split
  · exact u32_lt _
  · exact hlen

theorem cut_of_le (h : node.IsFile) (hlen : length < 4294967296)
    (hle : offset ≤ node.size) :
    node.cut offset length = node.available offset length := by
  have hsize := h.size_lt
  rw [cut, available, u64_of_lt (by omega)]
  split
  · simp only [u32]
    omega
  · omega

theorem cut_eq_zero_iff (hoff : offset < 18446744073709551616)
    (hgt : node.size < offset) :
    node.cut offset length = 0 ↔
      node.size < (offset + length) % 18446744073709551616 ∧
        (offset - node.size) % 4294967296 = 0 := by
  have hsum : u64 (offset + length : Nat) =
      (offset + length) % 18446744073709551616 := by
    simp only [u64]
    omega
  rw [cut, hsum]
  split
  · next hcut =>
      rw [and_iff_right hcut]
      simp only [u32]
      omega
  · next hcut => omega

/-! ## Where `cluster_io` starts -/

/-- The place in the file at which the transfer starts. -/
def start (node : FatFsNode) (offset : Nat) : Nat :=
  offset / node.fs.clusterSize % 4294967296 * node.fs.clusterSize +
    offset % node.fs.clusterSize

theorem start_div (hcs : 0 < node.fs.clusterSize) :
    node.start offset / node.fs.clusterSize =
      offset / node.fs.clusterSize % 4294967296 := by
  rw [start, Nat.add_comm, Nat.add_mul_div_right _ _ hcs,
    Nat.div_eq_of_lt (Nat.mod_lt _ hcs), Nat.zero_add]

theorem start_mod :
    node.start offset % node.fs.clusterSize = offset % node.fs.clusterSize := by
  rw [start, Nat.add_comm, Nat.add_mul_mod_self_right, Nat.mod_mod]

theorem start_of_lt (h : offset < 4294967296) : node.start offset = offset := by
  rw [start, Nat.mod_eq_of_lt (Nat.lt_of_le_of_lt (Nat.div_le_self _ _) h),
    Nat.div_add_mod']

/-- The first loop counts in 32 bits, so it ends where it would for the place. -/
theorem clusterIo_start (hcs : 0 < node.fs.clusterSize) (fuel : Nat)
    (ioType : FatIoType) (container buffer : Nat → UInt8) (n : Nat) :
    node.fs.clusterIo fuel ioType node.cluster offset container buffer n =
      node.fs.clusterIo fuel ioType node.cluster (node.start offset) container
        buffer n := by
  have hidx : u32 (offset / node.fs.clusterSize : Nat) =
      u32 (offset / node.fs.clusterSize % 4294967296 : Nat) := by
    simp only [u32]
    omega
  simp only [FatFs.clusterIo, start_div hcs, start_mod, hidx]

theorem fileAddress_start (hcs : 0 < node.fs.clusterSize) :
    (node.fs.fileAddress node.cluster (node.start offset)).isSome ↔
      node.Reaches offset := by
  rw [FatFs.fileAddress, start_div hcs, Option.isSome_map, Reaches]

/-- Where the chain has no cluster, nothing behind it is in the file either. -/
theorem fileAddress_none (hcs : 0 < node.fs.clusterSize)
    (h : ¬ node.Reaches offset) (k : Nat) :
    node.fs.fileAddress node.cluster (node.start offset + k) = none := by
  rw [← fileAddress_start hcs, Option.not_isSome_iff_eq_none] at h
  exact FatFs.fileAddress_none_of_le h (Nat.le_add_right _ _)

/-! ## What the two calls do -/

theorem read_spec (h : node.IsFile) (offset : Nat) (hlen : length < 4294967296)
    (container buffer : Nat → UInt8) :
    ∃ out, node.read container offset buffer length = some out ∧
      ∀ k, out k = if k < node.cut offset length
        then (node.fs.fileByte container node.cluster
          (node.start offset + k)).getD (buffer k)
        else buffer k := by
  have hcs := h.clusterSize_pos
  have hidx : node.start offset / node.fs.clusterSize < 4294967296 := by
    rw [start_div hcs]
    exact Nat.mod_lt _ (by decide)
  obtain ⟨out, hout, hk⟩ := node.fs.clusterIo_read node.cluster
    (node.start offset) (node.cut offset length) (node.cut offset length + 1)
    container buffer hcs hidx (cut_lt hlen) (Nat.lt_succ_self _)
  refine ⟨out, ?_, hk⟩
  rw [← clusterIo_start hcs] at hout
  have hread : node.read container offset buffer length =
      node.readPure container offset buffer (node.cut offset length) := by
    simp [read, h.notDirectory, cut]
  rw [hread, readPure, hout, Option.map_some]

theorem write_spec (h : node.IsFile) (offset : Nat) (hlen : length < 4294967296)
    (container buffer : Nat → UInt8) :
    ∃ out, node.write container offset buffer length = some out ∧
      (∀ a, (∀ k, k < node.cut offset length →
        node.fs.fileAddress node.cluster (node.start offset + k) ≠ some a) →
        out a = container a) ∧
      ∀ k a, k < node.cut offset length →
        node.fs.fileAddress node.cluster (node.start offset + k) = some a →
          ∃ j, out a = buffer j := by
  have hcs := h.clusterSize_pos
  have hidx : node.start offset / node.fs.clusterSize < 4294967296 := by
    rw [start_div hcs]
    exact Nat.mod_lt _ (by decide)
  obtain ⟨out, hout, hkeep, hput⟩ := node.fs.clusterIo_write node.cluster
    (node.start offset) (node.cut offset length) (node.cut offset length + 1)
    container buffer hcs hidx (cut_lt hlen) (Nat.lt_succ_self _)
  refine ⟨out, ?_, hkeep, fun k a hk ha => ?_⟩
  · rw [← clusterIo_start hcs] at hout
    have hwrite : node.write container offset buffer length =
        node.writePure container offset buffer (node.cut offset length) := by
      simp [write, h.notDirectory, cut]
    rw [hwrite, writePure, hout, Option.map_some]
  · obtain ⟨j, -, -, hbyte⟩ := hput k a hk ha
    exact ⟨j, hbyte⟩

/-- A request that does harm is cut to a length that is not zero, and finds a
byte at its start. -/
theorem harm_of_not_harmless (hcs : 0 < node.fs.clusterSize)
    (hoff : offset < 18446744073709551616) (h : ¬ node.Harmless offset length) :
    node.available offset length = 0 ∧ 0 < node.cut offset length ∧
      ∃ a, node.fs.fileAddress node.cluster (node.start offset) = some a := by
  obtain ⟨hgt, hreach, hcut⟩ := by
    simpa only [Harmless, not_or, Nat.not_le, Decidable.not_not] using h
  rw [← cut_eq_zero_iff hoff hgt] at hcut
  rw [← fileAddress_start hcs, Decidable.not_not] at hreach
  refine ⟨?_, Nat.pos_of_ne_zero hcut, Option.isSome_iff_exists.1 hreach⟩
  rw [available]
  omega

/-- A harmless request is cut right, or finds nothing to move. -/
theorem cut_of_harmless (h : node.IsFile)
    (hoff : offset < 18446744073709551616) (hlen : length < 4294967296)
    (hharmless : node.Harmless offset length) :
    node.start offset = offset ∧
        node.cut offset length = node.available offset length ∨
      node.available offset length = 0 ∧ ∀ k, k < node.cut offset length →
        node.fs.fileAddress node.cluster (node.start offset + k) = none := by
  have hsize := h.size_lt
  rcases Nat.lt_or_ge node.size offset with hgt | hle
  · refine .inr ⟨by rw [available]; omega, fun k hk => ?_⟩
    rcases hharmless with hle | hreach | hzero
    · omega
    · exact fileAddress_none h.clusterSize_pos hreach k
    · rw [← cut_eq_zero_iff hoff hgt] at hzero
      omega
  · exact .inl ⟨start_of_lt (by omega), cut_of_le h hlen hle⟩

/-! ## The condition -/

theorem readsInside_iff (h : node.IsFile)
    (hoff : offset < 18446744073709551616) (hlen : length < 4294967296) :
    node.ReadsInside offset length ↔ node.Harmless offset length := by
  constructor
  · intro hreads
    by_contra hharm
    obtain ⟨hnone, hpos, a, ha⟩ :=
      harm_of_not_harmless h.clusterSize_pos hoff hharm
    -- ones on the disk, zeros in the buffer
    obtain ⟨out, hout, hk⟩ :=
      read_spec h offset hlen (fun _ => 1) (fun _ => 0)
    obtain ⟨out', hout', hk'⟩ := hreads (fun _ => 1) (fun _ => 0)
    obtain rfl : out = out' := Option.some.inj (hout.symm.trans hout')
    have hone : out 0 = 1 := by
      simp [hk, hpos, FatFs.fileByte, ha]
    have hzero : out 0 = 0 := by simp [hk', hnone]
    rw [hone] at hzero
    exact absurd hzero (by decide)
  · intro hharmless container buffer
    obtain ⟨out, hout, hk⟩ := read_spec h offset hlen container buffer
    refine ⟨out, hout, fun k => ?_⟩
    rw [hk]
    rcases cut_of_harmless h hoff hlen hharmless with ⟨hstart, hcut⟩ |
      ⟨hnone, hnothing⟩
    · rw [hstart, hcut]
    · rw [hnone, if_neg (Nat.not_lt_zero k)]
      split
      · next hkc => simp [FatFs.fileByte, hnothing k hkc]
      · rfl

theorem writesInside_iff (h : node.IsFile)
    (hoff : offset < 18446744073709551616) (hlen : length < 4294967296) :
    node.WritesInside offset length ↔ node.Harmless offset length := by
  constructor
  · intro hwrites
    by_contra hharm
    obtain ⟨hnone, hpos, a, ha⟩ :=
      harm_of_not_harmless h.clusterSize_pos hoff hharm
    -- zeros on the disk, ones in the buffer
    obtain ⟨out, hout, -, hput⟩ :=
      write_spec h offset hlen (fun _ => 0) (fun _ => 1)
    obtain ⟨out', hout', hkeep⟩ := hwrites (fun _ => 0) (fun _ => 1)
    obtain rfl : out = out' := Option.some.inj (hout.symm.trans hout')
    obtain ⟨j, hone⟩ := hput 0 a hpos ha
    have hzero : out a = 0 := by
      refine hkeep a fun k hk => ?_
      rw [hnone] at hk
      exact absurd hk (Nat.not_lt_zero k)
    rw [hone] at hzero
    exact absurd hzero (by decide)
  · intro hharmless container buffer
    obtain ⟨out, hout, hkeep, -⟩ :=
      write_spec h offset hlen container buffer
    refine ⟨out, hout, fun a ha => hkeep a fun k hk => ?_⟩
    rcases cut_of_harmless h hoff hlen hharmless with ⟨hstart, hcut⟩ |
      ⟨hnone, hnothing⟩
    · rw [hstart]
      rw [hcut] at hk
      exact ha k hk
    · rw [hnothing k hk]
      exact (Option.some_ne_none a).symm

/-- Exactly the harmless requests stay inside the file, of the reads and of the
writes. -/
theorem access_inside_iff (h : node.IsFile) (offset length : Nat)
    (hoff : offset < 18446744073709551616) (hlen : length < 4294967296) :
    (node.ReadsInside offset length ↔ node.Harmless offset length) ∧
      (node.WritesInside offset length ↔ node.Harmless offset length) :=
  ⟨readsInside_iff h hoff hlen, writesInside_iff h hoff hlen⟩

/-- A file of ten bytes in a cluster of 512. -/
def tenBytes : FatFsNode where
  fs :=
    { clustertable := { data := some fun _ => 0xFF, add := 0, type := .fat16 }
      fatBootsector :=
        { bytesPerSector := 512, sectorPerCluster := 1, reservedSectors := 1
          fatCopies := 2, sectorsPerFat := 1 } }
  isDirectory := false
  cluster := 0
  size := 10

theorem tenBytes_isFile : tenBytes.IsFile where
  notDirectory := rfl
  clusterSize_pos := by decide
  size_lt := by decide

/-- A long read from the fourth byte on stays inside. -/
theorem tenBytes_inside :
    tenBytes.ReadsInside 4 1000 ∧ tenBytes.WritesInside 4 1000 := by
  obtain ⟨hread, hwrite⟩ :=
    access_inside_iff tenBytes_isFile 4 1000 (by decide) (by decide)
  exact ⟨hread.2 (.inl (by decide)), hwrite.2 (.inl (by decide))⟩

/-- One byte at offset 20: what is behind it in the cluster is moved. -/
theorem tenBytes_outside :
    tenBytes.IsFile ∧ ¬ tenBytes.ReadsInside 20 1 ∧
      ¬ tenBytes.WritesInside 20 1 := by
  refine ⟨tenBytes_isFile, fun h => ?_, fun h => ?_⟩
  · have hstored : (tenBytes.read (fun _ => 1) 20 (fun _ => 0) 1).map
        (fun out => out 0) = some 1 := by decide +kernel
    obtain ⟨out, hout, hk⟩ := h (fun _ => 1) (fun _ => 0)
    rw [hout, Option.map_some, hk] at hstored
    exact absurd hstored (by decide)
  · have hchanged : (tenBytes.write (fun _ => 0) 20 (fun _ => 1) 1).map
        (fun out => out 1556) = some 1 := by decide +kernel
    obtain ⟨out, hout, hkeep⟩ := h (fun _ => 0) (fun _ => 1)
    rw [hout, Option.map_some, hkeep 1556 fun k hk => absurd hk ?_] at hchanged
    · exact absurd hchanged (by decide)
    · exact Nat.not_lt_zero k

end Iposix.Fs.FatFsNode
