import Iposix.Fs.Container
import Iposix.Proofs.ClusterRefine

/-!
# Cluster input and output over a container

`Serves` is the contract of a container: a request inside its first `size`
bytes, of at most `most` bytes, is carried out on the range of the disk that
begins at `first`. Cluster input and output asks for pieces of a cluster only,
so over such a container it does to the disk what it does to flat bytes.
-/

namespace Iposix.Fs

open Iposix.Lib

open Iposix.Devices (Bytes)

variable {σ : Type*}

/-- A container on the bytes of a disk from `first` on. -/
structure Container.Serves (container : Container σ) (disk : σ → Bytes)
    (first size most : Nat) : Prop where
  read : ∀ dev offset buffer length, offset + length ≤ size → length ≤ most →
    ∃ dev', container.read dev offset buffer length =
        some (splice buffer 0 length (window (disk dev) (first + offset)),
          dev') ∧
      disk dev' = disk dev
  write : ∀ dev offset buffer length, offset + length ≤ size → length ≤ most →
    ∃ dev', container.write dev offset buffer length = some dev' ∧
      disk dev' = splice (disk dev) (first + offset) length buffer

namespace FatFs

variable {container : Container σ} {disk : σ → Bytes} {first size most : Nat}
  {fs : FatFs} {ioType : FatIoType}

/-- The bytes of the chain of `start` from `offset` on lie inside the
container. -/
def InsideFrom (fs : FatFs) (size start offset length : Nat) : Prop :=
  ∀ k a, k < length → fs.fileAddress start (offset + k) = some a → a < size

/-- One piece, over the container and on the flat bytes. -/
theorem singleClusterIoOn_spec (h : container.Serves disk first size most)
    (hmost : fs.clusterSize ≤ most) (ioType : FatIoType) (c : Nat) {s len : Nat}
    (dev : σ) (buffer : Bytes) (p : Nat) (hfit : s + len ≤ fs.clusterSize)
    (hin : fs.clusterBase c + s + len ≤ size) :
    ∃ dev' out, fs.singleClusterIoOn container ioType c s dev (window buffer p)
        len = some (dev', out) ∧
      graft buffer p out =
        (fs.piece ioType c s p len (window (disk dev) first) buffer).2 ∧
      disk dev' = graft (disk dev) first
        (fs.piece ioType c s p len (window (disk dev) first) buffer).1 := by
  have hcs := fs.clusterSize_lt
  have hle : ¬ u32 ((s : Int) + len) > fs.clusterSize := by
    simp only [u32]
    omega
  have hbase : u64 ((fs.clusterBase c : Int) + s) = fs.clusterBase c + s := by
    have := u32_lt ((u32 (fs.baseCluster + c) : Int) * fs.clusterSize)
    simp only [u64, clusterBase]
    omega
  simp only [singleClusterIoOn, if_neg hle, hbase]
  cases ioType with
  | clusterRead =>
      obtain ⟨dev', hread, hdisk⟩ := h.read dev (fs.clusterBase c + s)
        (window buffer p) len hin (by omega)
      refine ⟨dev', _, by rw [hread]; rfl, ?_, ?_⟩
      · rw [graft_splice, piece, window_window]
      · rw [hdisk, piece, graft_window_self]
  | clusterWrite =>
      obtain ⟨dev', hwrite, hdisk⟩ := h.write dev (fs.clusterBase c + s)
        (window buffer p) len hin (by omega)
      refine ⟨dev', window buffer p, by rw [hwrite]; rfl, ?_, ?_⟩
      · rw [graft_window_self, piece]
      · rw [hdisk, piece, graft_splice_window]

/-- One turn of the loop over the container. -/
theorem transferOn_step {length fuel c s p r : Nat} {dev dev' : σ}
    {buffer out : Bytes} (hs : s < fs.clusterSize) (hpr : p + r = length)
    (hr : 0 < r) (hlen : length < 4294967296)
    (hio : fs.singleClusterIoOn container ioType c s dev (window buffer p)
      (min r (fs.clusterSize - s)) = some (dev', out)) :
    fs.transferOn container ioType length (fuel + 1) c s p r dev buffer =
      (let len := min r (fs.clusterSize - s)
       match (if r = len then none else fs.clustertable.next c) with
       | none => some (dev', graft buffer p out)
       | some c' =>
           fs.transferOn container ioType length fuel c' 0 (p + len) (r - len)
             dev' (graft buffer p out)) := by
  have hcs := fs.clusterSize_lt
  have hmax : u32 ((fs.clusterSize : Int) - s) = fs.clusterSize - s := by
    simp only [u32]
    omega
  have hmin : (if r > fs.clusterSize - s then fs.clusterSize - s else r) =
      min r (fs.clusterSize - s) := by
    rw [Nat.min_def]
    split_ifs <;> omega
  have hrem : u32 ((r : Int) - (min r (fs.clusterSize - s) : Nat)) =
      r - min r (fs.clusterSize - s) := by
    simp only [u32]
    omega
  have hpos : u32 ((p : Int) + (min r (fs.clusterSize - s) : Nat)) =
      p + min r (fs.clusterSize - s) := by
    simp only [u32]
    omega
  rw [transferOn, if_pos (by omega)]
  simp only [hmax, hmin, hio, hrem, hpos]
  by_cases hall : r = min r (fs.clusterSize - s)
  · simp [← hall]
  · have hgo : r - min r (fs.clusterSize - s) > 0 := by omega
    rw [if_neg hall]
    simp only [ClusterTable.next, hgo, decide_true, Bool.true_and]
    cases fs.clustertable.hasSuccessor c <;> rfl

/-- The whole transfer: what the flat loop makes of the bytes from `first` on,
the loop over the container makes of the disk. The induction is on the fuel;
the rest of the request stays inside the container. -/
theorem transferOn_simulates (h : container.Serves disk first size most)
    (hcs : 0 < fs.clusterSize) (hmost : fs.clusterSize ≤ most) {length : Nat}
    (hlen : length < 4294967296) :
    ∀ (fuel c s p r : Nat) (dev : σ) (buffer : Bytes), r < fuel →
      s < fs.clusterSize → p + r = length → fs.InsideFrom size c s r →
      ∃ dev' out flat, fs.transferOn container ioType length fuel c s p r dev
          buffer = some (dev', out) ∧
        fs.transfer ioType length fuel c s p r (window (disk dev) first)
          buffer = some (flat, out) ∧
        disk dev' = graft (disk dev) first flat := by
  intro fuel
  induction fuel with
  | zero => intro c s p r dev buffer hf; omega
  | succ fuel ih =>
      intro c s p r dev buffer hf hs hpr hinside
      rcases Nat.eq_zero_or_pos r with rfl | hr
      · refine ⟨dev, buffer, window (disk dev) first, ?_, ?_,
          (graft_window_self _ _).symm⟩
        · rw [transferOn, if_neg (by omega)]
        · rw [transfer, if_neg (by omega)]
      obtain ⟨hle, hpos, hfit, -⟩ := piece_bounds hs hr
      -- the last byte of the piece lies inside, so all of it does
      have hlast : fs.clusterBase c + (s + (min r (fs.clusterSize - s) - 1)) <
          size := by
        refine hinside (min r (fs.clusterSize - s) - 1) _ (by omega) ?_
        exact fileAddress_of_lt (by omega)
      obtain ⟨dev₁, out₁, hio, hbuf, hdisk₁⟩ :=
        singleClusterIoOn_spec h hmost ioType c dev buffer p
          hfit (by omega)
      rw [transferOn_step hs hpr hr hlen hio, transfer_step hs hpr hr hlen]
      generalize hlenDef : min r (fs.clusterSize - s) = len at *
      simp only
      cases hn : (if r = len then none else fs.clustertable.next c) with
      | none => exact ⟨dev₁, _, _, rfl, by rw [hbuf], hdisk₁⟩
      | some c' =>
          have hne : r ≠ len := fun heq => by
            rw [if_pos heq] at hn
            cases hn
          rw [if_neg hne] at hn
          have hrest : fs.InsideFrom size c' 0 (r - len) := by
            intro k a hk ha
            refine hinside (len + k) a (by omega) ?_
            have hj : s + (len + k) = fs.clusterSize + (0 + k) := by omega
            rw [hj, fileAddress_of_next hcs hn]
            exact ha
          obtain ⟨dev', out, flat, hrun, hflat, hdisk⟩ := ih c' 0 (p + len)
            (r - len) dev₁ (graft buffer p out₁) (by omega) hcs (by omega) hrest
          refine ⟨dev', out, flat, hrun, ?_, ?_⟩
          · rw [hdisk₁, window_graft] at hflat
            rw [← hbuf]
            exact hflat
          · rw [hdisk, hdisk₁, graft_graft]

/-- `cluster_io` over a container does to the disk what it does to the flat
bytes from `first` on. -/
theorem clusterIoOn_simulates (h : container.Serves disk first size most)
    (hcs : 0 < fs.clusterSize) (hmost : fs.clusterSize ≤ most)
    {start offset length fuel : Nat}
    (hidx : offset / fs.clusterSize < 4294967296)
    (hlen : length < 4294967296) (hfuel : length < fuel)
    (hinside : fs.InsideFrom size start offset length) (dev : σ)
    (buffer : Bytes) :
    ∃ dev' out flat, fs.clusterIoOn container fuel ioType start offset dev
        buffer length = some (dev', out) ∧
      fs.clusterIo fuel ioType start offset (window (disk dev) first) buffer
        length = some (flat, out) ∧
      disk dev' = graft (disk dev) first flat := by
  obtain ⟨hs, hskip⟩ := skipClusters_spec hcs start hidx
  simp only [clusterIoOn, clusterIo]
  cases hc : fs.skipClusters (u32 (offset / fs.clusterSize : Nat)) start with
  | none => exact ⟨dev, buffer, _, rfl, rfl, (graft_window_self _ _).symm⟩
  | some c =>
      rw [hc] at hskip
      exact transferOn_simulates h hcs hmost hlen fuel c _ 0 length dev buffer
        hfuel hs (Nat.zero_add _) fun k a hk ha => hinside k a hk
          ((hskip k).trans ha)

end FatFs

end Iposix.Fs
