import Iposix.Fs.FatFs
import Iposix.Lib.Walk

/-!
# Cluster chains refine flat files

The file of a start cluster is the concatenation of the bytes its clusters
occupy, in chain order. `fileAddress start j` is where its byte `j` lies, and
`none` behind the end of the chain; on a cyclic chain the file never ends.

Both loops of `cluster_io` are walks. The first is `nth` itself. The second
carries a cluster and an offset in it, and its invariant speaks of the file of
that cluster: the rest of the request is a range of the file, and a step to
the successor shifts the file by one cluster size.
-/

namespace Iposix.Fs.FatFs

open Iposix.Lib

variable (fs : FatFs)

/-- Where byte `j` of the file of `start` lies on the container. -/
def fileAddress (start j : Nat) : Option Nat :=
  (nth fs.clustertable.next (j / fs.clusterSize) start).map fun cluster =>
    fs.clusterBase cluster + j % fs.clusterSize

/-- Byte `j` of the file. -/
def fileByte (container : Nat → UInt8) (start j : Nat) : Option UInt8 :=
  (fs.fileAddress start j).map container

/-- The clusters of the chain occupy disjoint byte ranges. -/
def DisjointClusters (start : Nat) : Prop :=
  ∀ i j c c', i ≠ j → nth fs.clustertable.next i start = some c →
    nth fs.clustertable.next j start = some c' →
    fs.clusterBase c + fs.clusterSize ≤ fs.clusterBase c' ∨
      fs.clusterBase c' + fs.clusterSize ≤ fs.clusterBase c

variable {fs}

theorem clusterSize_lt : fs.clusterSize < 16777216 := by
  have hb := fs.fatBootsector.bytesPerSector.toNat_lt
  have hs := fs.fatBootsector.sectorPerCluster.toNat_lt
  have hle : fs.clusterSize ≤ 65535 * 255 :=
    Nat.mul_le_mul (by omega) (by omega)
  omega

theorem fileAddress_of_lt {start j : Nat} (h : j < fs.clusterSize) :
    fs.fileAddress start j = some (fs.clusterBase start + j) := by
  rw [fileAddress, Nat.div_eq_of_lt h, Nat.mod_eq_of_lt h, nth,
    Option.map_some]

/-- The file of a cluster of the chain is a tail of the file. -/
theorem fileAddress_of_nth (hcs : 0 < fs.clusterSize) {start i c : Nat}
    (h : nth fs.clustertable.next i start = some c) (j : Nat) :
    fs.fileAddress start (i * fs.clusterSize + j) = fs.fileAddress c j := by
  have hdiv : (i * fs.clusterSize + j) / fs.clusterSize =
      i + j / fs.clusterSize := by
    rw [Nat.add_comm, Nat.add_mul_div_right _ _ hcs, Nat.add_comm]
  have hmod : (i * fs.clusterSize + j) % fs.clusterSize =
      j % fs.clusterSize := by
    rw [Nat.add_comm, Nat.add_mul_mod_self_right]
  rw [fileAddress, hdiv, hmod, nth_add, h, Option.bind_some, fileAddress]

theorem fileAddress_of_next (hcs : 0 < fs.clusterSize) {c c' : Nat}
    (h : fs.clustertable.next c = some c') (j : Nat) :
    fs.fileAddress c (fs.clusterSize + j) = fs.fileAddress c' j := by
  have := fileAddress_of_nth hcs ((nth_one c).trans h) j
  rwa [Nat.one_mul] at this

/-- Behind the end of the file there is nothing. -/
theorem fileAddress_none_of_le {start i j : Nat}
    (h : fs.fileAddress start i = none) (hle : i ≤ j) :
    fs.fileAddress start j = none := by
  simp only [fileAddress, Option.map_eq_none_iff] at h ⊢
  exact nth_none_of_le h (Nat.div_le_div_right hle)

theorem fileAddress_none_of_last {c j : Nat} (hcs : 0 < fs.clusterSize)
    (h : fs.clustertable.next c = none) (hj : fs.clusterSize ≤ j) :
    fs.fileAddress c j = none := by
  rw [fileAddress, Option.map_eq_none_iff]
  refine nth_none_of_le (nth_stop h 0) ?_
  exact (Nat.one_le_div_iff hcs).2 hj

/-- Disjoint clusters: no two bytes of the file lie in one place. -/
theorem DisjointClusters.injective {start i j a : Nat}
    (hd : fs.DisjointClusters start) (hcs : 0 < fs.clusterSize)
    (hi : fs.fileAddress start i = some a)
    (hj : fs.fileAddress start j = some a) : i = j := by
  obtain ⟨c, hc, hca⟩ := Option.map_eq_some_iff.1 hi
  obtain ⟨c', hc', hca'⟩ := Option.map_eq_some_iff.1 hj
  have hmi := Nat.mod_lt i hcs
  have hmj := Nat.mod_lt j hcs
  have hdi := Nat.div_add_mod i fs.clusterSize
  have hdj := Nat.div_add_mod j fs.clusterSize
  rcases Nat.decEq (i / fs.clusterSize) (j / fs.clusterSize) with hne | heq
  · rcases hd _ _ c c' hne hc hc' with h | h <;> omega
  · rw [heq] at hc hdi
    have hcc : c = c' := Option.some.inj (hc.symm.trans hc')
    subst hcc
    omega

/-! ## The file as a list -/

/-- The bytes a cluster occupies. -/
def clusterBytes (fs : FatFs) (container : Nat → UInt8) (c : Nat) :
    List UInt8 :=
  (List.range fs.clusterSize).map fun j => container (fs.clusterBase c + j)

/-- The concatenation of the first `n` clusters of the chain. -/
def file (fs : FatFs) (container : Nat → UInt8) (start n : Nat) : List UInt8 :=
  (trail fs.clustertable.next n start).flatMap (fs.clusterBytes container)

/-- `fileByte` reads the concatenation of all the clusters of the chain. -/
theorem file_getElem? (hcs : 0 < fs.clusterSize) {start n : Nat}
    (h : nth fs.clustertable.next n start = none) (container : Nat → UInt8)
    (j : Nat) :
    (fs.file container start n)[j]? = fs.fileByte container start j := by
  have hmod := Nat.mod_lt j hcs
  have hlength : ∀ c, (fs.clusterBytes container c).length = fs.clusterSize := by
    intro c
    rw [clusterBytes, List.length_map, List.length_range]
  have hbyte : ∀ c, (fs.clusterBytes container c)[j % fs.clusterSize]? =
      some (container (fs.clusterBase c + j % fs.clusterSize)) := by
    intro c
    rw [clusterBytes, List.getElem?_map, List.getElem?_range hmod,
      Option.map_some]
  rw [file, getElem?_flatMap hlength _ _ hcs, trail_getElem?, fileByte,
    fileAddress]
  simp only [hbyte]
  split_ifs with hj
  · cases nth fs.clustertable.next (j / fs.clusterSize) start <;> rfl
  · rw [nth_none_of_le h (Nat.le_of_not_lt hj)]
    rfl

/-! ## The skipping loop -/

theorem skipClusters_eq_nth : ∀ (skip cluster : Nat),
    fs.skipClusters skip cluster = nth fs.clustertable.next skip cluster := by
  intro skip
  induction skip with
  | zero => intro cluster; rfl
  | succ skip ih =>
      intro cluster
      rw [skipClusters]
      cases hs : fs.clustertable.hasSuccessor cluster with
      | false =>
          have hn : fs.clustertable.next cluster = none := by
            simp [ClusterTable.next, hs]
          rw [if_neg (by simp), nth_stop hn]
      | true =>
          have hn : fs.clustertable.next cluster =
              some (fs.clustertable.successor cluster) := by
            simp [ClusterTable.next, hs]
          rw [if_pos rfl, ih, nth_step hn]

/-! ## The transferring loop -/

/-- What one piece does to container and buffer. -/
def piece (fs : FatFs) (ioType : FatIoType) (c s p len : Nat)
    (container buffer : Nat → UInt8) : (Nat → UInt8) × (Nat → UInt8) :=
  match ioType with
  | .clusterRead =>
      (container, splice buffer p len (window container (fs.clusterBase c + s)))
  | .clusterWrite =>
      (splice container (fs.clusterBase c + s) len (window buffer p), buffer)

theorem singleClusterIo_spec (fs : FatFs) (ioType : FatIoType) (c : Nat)
    {s len : Nat} (container buffer : Nat → UInt8) (p : Nat)
    (h : s + len ≤ fs.clusterSize) :
    ((fs.singleClusterIo ioType c s container (window buffer p) len).1,
      graft buffer p
        (fs.singleClusterIo ioType c s container (window buffer p) len).2) =
      fs.piece ioType c s p len container buffer := by
  have hcs := fs.clusterSize_lt
  have hin : ¬ u32 ((s : Int) + len) > fs.clusterSize := by
    simp only [u32]
    omega
  have hbase : u64 ((fs.clusterBase c : Int) + s) = fs.clusterBase c + s := by
    have := u32_lt ((u32 (fs.baseCluster + c) : Int) * fs.clusterSize)
    simp only [u64, clusterBase]
    omega
  cases ioType with
  | clusterRead =>
      simp only [singleClusterIo, if_neg hin, hbase, piece, graft_splice]
  | clusterWrite =>
      simp only [singleClusterIo, if_neg hin, hbase, piece, graft_window_self]

/-- One turn of the loop: a piece, then the successor if anything is left. -/
theorem transfer_step {ioType : FatIoType} {length fuel c s p r : Nat}
    {container buffer : Nat → UInt8} (hs : s < fs.clusterSize)
    (hpr : p + r = length) (hr : 0 < r) (hlen : length < 4294967296) :
    fs.transfer ioType length (fuel + 1) c s p r container buffer =
      (let len := min r (fs.clusterSize - s)
       let out := fs.piece ioType c s p len container buffer
       match (if r = len then none else fs.clustertable.next c) with
       | none => some out
       | some c' =>
           fs.transfer ioType length fuel c' 0 (p + len) (r - len) out.1
             out.2) := by
  have hcs := fs.clusterSize_lt
  have hmax : u32 ((fs.clusterSize : Int) - s) = fs.clusterSize - s := by
    simp only [u32]
    omega
  have hmin : (if r > fs.clusterSize - s then fs.clusterSize - s else r) =
      min r (fs.clusterSize - s) := by
    rw [Nat.min_def]
    split_ifs <;> omega
  have hfit : s + min r (fs.clusterSize - s) ≤ fs.clusterSize := by omega
  have hrem : u32 ((r : Int) - (min r (fs.clusterSize - s) : Nat)) =
      r - min r (fs.clusterSize - s) := by
    simp only [u32]
    omega
  have hpos : u32 ((p : Int) + (min r (fs.clusterSize - s) : Nat)) =
      p + min r (fs.clusterSize - s) := by
    simp only [u32]
    omega
  have hio := fs.singleClusterIo_spec ioType c container buffer p hfit
  rw [transfer, if_pos (by omega)]
  simp only [hmax, hmin, hrem, hpos, ← hio]
  by_cases hall : r = min r (fs.clusterSize - s)
  · have hz : ¬ r - min r (fs.clusterSize - s) > 0 := by omega
    simp [← hall]
  · have hgo : r - min r (fs.clusterSize - s) > 0 := by omega
    rw [if_neg hall]
    simp only [ClusterTable.next, hgo, decide_true, Bool.true_and]
    cases fs.clustertable.hasSuccessor c <;> rfl

/-- A piece takes all that is left, or goes to the end of its cluster. -/
theorem piece_bounds {s r : Nat} (hs : s < fs.clusterSize) (hr : 0 < r) :
    min r (fs.clusterSize - s) ≤ r ∧ 0 < min r (fs.clusterSize - s) ∧
      s + min r (fs.clusterSize - s) ≤ fs.clusterSize ∧
      (r = min r (fs.clusterSize - s) ∨
        s + min r (fs.clusterSize - s) = fs.clusterSize) := by
  omega

/-- Reading: the walk's file, from `s` on, lands in the buffer from `p` on. -/
theorem transfer_read (hcs : 0 < fs.clusterSize) {length : Nat}
    (hlen : length < 4294967296) (container : Nat → UInt8) :
    ∀ (fuel c s p r : Nat) (buffer : Nat → UInt8), r < fuel →
      s < fs.clusterSize → p + r = length →
      ∃ out, fs.transfer .clusterRead length fuel c s p r container buffer =
          some (container, out) ∧
        ∀ k, out k = if p ≤ k ∧ k < length
          then (fs.fileByte container c (s + (k - p))).getD (buffer k)
          else buffer k := by
  intro fuel
  induction fuel with
  | zero => intro c s p r buffer hf; omega
  | succ fuel ih =>
      intro c s p r buffer hf hs hpr
      rcases Nat.eq_zero_or_pos r with hr | hr
      · -- nothing left: only a request of length zero gets here
        refine ⟨buffer, ?_, fun k => (if_neg (by omega)).symm⟩
        rw [transfer, if_neg (by omega)]
      rw [transfer_step hs hpr hr hlen]
      obtain ⟨hle, hpos, hin, hend⟩ := piece_bounds hs hr
      generalize min r (fs.clusterSize - s) = len at *
      simp only [piece]
      -- the piece itself, wherever the walk goes on from here
      have hpiece : ∀ k, p ≤ k → k < p + len →
          splice buffer p len (window container (fs.clusterBase c + s)) k =
            (fs.fileByte container c (s + (k - p))).getD (buffer k) := by
        intro k h₁ h₂
        rw [splice_mem h₁ h₂, fileByte, fileAddress_of_lt (by omega),
          Option.map_some, Option.getD_some, window, Nat.add_assoc]
      cases hn : (if r = len then none else fs.clustertable.next c) with
      | none =>
          refine ⟨_, rfl, fun k => ?_⟩
          split_ifs with hk
          · rcases Nat.lt_or_ge k (p + len) with hkl | hkl
            · exact hpiece k hk.1 hkl
            · have hr' : r ≠ len := by omega
              rw [if_neg hr'] at hn
              rw [splice_ge hkl, fileByte,
                fileAddress_none_of_last hcs hn (by omega), Option.map_none,
                Option.getD_none]
          · rcases Nat.lt_or_ge k p with hkp | hkp
            · exact splice_lt hkp
            · exact splice_ge (by omega)
      | some c' =>
          have hr' : r ≠ len := by
            intro hr'
            rw [if_pos hr'] at hn
            cases hn
          rw [if_neg hr'] at hn
          obtain ⟨out, hout, hk⟩ := ih c' 0 (p + len) (r - len)
            (splice buffer p len (window container (fs.clusterBase c + s)))
            (by omega) hcs (by omega)
          refine ⟨out, hout, fun k => ?_⟩
          rw [hk]
          split_ifs with h₁ h₂ h₂
          · have hj : s + (k - p) = fs.clusterSize + (0 + (k - (p + len))) := by
              omega
            rw [splice_ge h₁.1, hj, fileByte, fileByte,
              fileAddress_of_next hcs hn]
          · omega
          · exact hpiece k h₂.1 (by omega)
          · rcases Nat.lt_or_ge k p with hkp | hkp
            · exact splice_lt hkp
            · exact splice_ge (by omega)

/-- Writing: what lies outside the rest of the request stays, and what lies in it
gets a byte that the buffer has for this place. -/
theorem transfer_write (hcs : 0 < fs.clusterSize) {length : Nat}
    (hlen : length < 4294967296) (buffer : Nat → UInt8) :
    ∀ (fuel c s p r : Nat) (container : Nat → UInt8), r < fuel →
      s < fs.clusterSize → p + r = length →
      ∃ out, fs.transfer .clusterWrite length fuel c s p r container buffer =
          some (out, buffer) ∧
        (∀ a, (∀ k, k < r → fs.fileAddress c (s + k) ≠ some a) →
          out a = container a) ∧
        ∀ k a, k < r → fs.fileAddress c (s + k) = some a →
          ∃ j, j < r ∧ fs.fileAddress c (s + j) = some a ∧
            out a = buffer (p + j) := by
  intro fuel
  induction fuel with
  | zero => intro c s p r container hf; omega
  | succ fuel ih =>
      intro c s p r container hf hs hpr
      rcases Nat.eq_zero_or_pos r with hr | hr
      · refine ⟨container, ?_, fun _ _ => rfl, fun k _ hk => by omega⟩
        rw [transfer, if_neg (by omega)]
      rw [transfer_step hs hpr hr hlen]
      obtain ⟨hle, hpos, hin, hend⟩ := piece_bounds hs hr
      generalize min r (fs.clusterSize - s) = len at *
      simp only [piece]
      have hfirst : ∀ k, k < len →
          fs.fileAddress c (s + k) = some (fs.clusterBase c + (s + k)) :=
        fun k hk => fileAddress_of_lt (by omega)
      have hpiece : ∀ k a, k < len → fs.fileAddress c (s + k) = some a →
          splice container (fs.clusterBase c + s) len (window buffer p) a =
            buffer (p + k) := by
        intro k a hk ha
        rw [hfirst k hk] at ha
        obtain rfl := Option.some.inj ha
        rw [← Nat.add_assoc, splice_add _ _ hk, window]
      have houtside : ∀ a, (∀ k, k < len →
            fs.fileAddress c (s + k) ≠ some a) →
          splice container (fs.clusterBase c + s) len (window buffer p) a =
            container a := by
        intro a ha
        refine if_neg fun hin => ha (a - (fs.clusterBase c + s)) (by omega) ?_
        rw [hfirst _ (by omega)]
        congr 1
        omega
      cases hn : (if r = len then none else fs.clustertable.next c) with
      | none =>
          refine ⟨_, rfl, fun a ha => houtside a fun k hk => ha k (by omega),
            fun k a hk ha => ?_⟩
          rcases Nat.lt_or_ge k len with hkl | hkl
          · exact ⟨k, hk, ha, hpiece k a hkl ha⟩
          · have hr' : r ≠ len := by omega
            rw [if_neg hr'] at hn
            rw [fileAddress_none_of_last hcs hn (by omega)] at ha
            cases ha
      | some c' =>
          have hr' : r ≠ len := by
            intro hr'
            rw [if_pos hr'] at hn
            cases hn
          rw [if_neg hr'] at hn
          -- byte `k` of the rest is byte `len + k` of the request
          have hshift : ∀ k, fs.fileAddress c (s + (len + k)) =
              fs.fileAddress c' (0 + k) := by
            intro k
            have hj : s + (len + k) = fs.clusterSize + (0 + k) := by omega
            rw [hj, fileAddress_of_next hcs hn]
          obtain ⟨out, hout, hkeep, hput⟩ := ih c' 0 (p + len) (r - len)
            (splice container (fs.clusterBase c + s) len (window buffer p))
            (by omega) hcs (by omega)
          refine ⟨out, hout, fun a ha => ?_, fun k a hk ha => ?_⟩
          · rw [hkeep a fun k hk => ?_]
            · exact houtside a fun k hk => ha k (by omega)
            · rw [← hshift]
              exact ha (len + k) (by omega)
          · by_cases hlater : ∃ j, j < r - len ∧
                fs.fileAddress c' (0 + j) = some a
            · -- a later piece comes to the same place
              obtain ⟨j, hj, hja⟩ := hlater
              obtain ⟨i, hi, hia, hbyte⟩ := hput j a hj hja
              rw [← hshift] at hia
              refine ⟨len + i, by omega, hia, ?_⟩
              rw [hbyte, Nat.add_assoc]
            · have hkl : k < len := by
                refine Nat.lt_of_not_le fun hle => hlater ⟨k - len, by omega, ?_⟩
                rw [← hshift, Nat.add_sub_cancel' hle]
                exact ha
              refine ⟨k, hk, ha, ?_⟩
              rw [hkeep a fun j hj hja => hlater ⟨j, hj, hja⟩]
              exact hpiece k a hkl ha

/-! ## The whole call -/

/-- Behind the skipping loop, the rest of the request is a range of the file
of the cluster it stopped at. -/
theorem skipClusters_spec (hcs : 0 < fs.clusterSize) (start : Nat)
    {offset : Nat} (hidx : offset / fs.clusterSize < 4294967296) :
    u32 (offset % fs.clusterSize : Nat) < fs.clusterSize ∧
      match fs.skipClusters (u32 (offset / fs.clusterSize : Nat)) start with
      | none => ∀ k, fs.fileAddress start (offset + k) = none
      | some c => ∀ k, fs.fileAddress start (offset + k) =
          fs.fileAddress c (u32 (offset % fs.clusterSize : Nat) + k) := by
  have hmod := Nat.mod_lt offset hcs
  have hsize := fs.clusterSize_lt
  rw [u32_of_lt hidx, u32_of_lt (by omega), skipClusters_eq_nth]
  refine ⟨hmod, ?_⟩
  have hdiv := Nat.div_add_mod' offset fs.clusterSize
  cases hc : nth fs.clustertable.next (offset / fs.clusterSize) start with
  | none =>
      intro k
      rw [fileAddress, Option.map_eq_none_iff]
      exact nth_none_of_le hc (Nat.div_le_div_right (by omega))
  | some c =>
      intro k
      rw [← fileAddress_of_nth hcs hc]
      congr 1
      omega

theorem clusterIo_read (fs : FatFs) (start offset length fuel : Nat)
    (container buffer : Nat → UInt8) (hcs : 0 < fs.clusterSize)
    (hidx : offset / fs.clusterSize < 4294967296)
    (hlen : length < 4294967296) (hfuel : length < fuel) :
    ∃ out, fs.clusterIo fuel .clusterRead start offset container buffer
        length = some (container, out) ∧
      ∀ k, out k = if k < length
        then (fs.fileByte container start (offset + k)).getD (buffer k)
        else buffer k := by
  obtain ⟨hs, hskip⟩ := skipClusters_spec hcs start hidx
  simp only [clusterIo]
  generalize u32 (offset % fs.clusterSize : Nat) = s at *
  cases hc : fs.skipClusters (u32 (offset / fs.clusterSize : Nat)) start with
  | none =>
      rw [hc] at hskip
      refine ⟨buffer, rfl, fun k => ?_⟩
      simp [fileByte, hskip k]
  | some c =>
      rw [hc] at hskip
      obtain ⟨out, hout, hk⟩ := transfer_read hcs hlen container fuel c s 0
        length buffer hfuel hs (Nat.zero_add _)
      refine ⟨out, hout, fun k => ?_⟩
      rw [hk, Nat.sub_zero, fileByte, fileByte, hskip k]
      simp only [Nat.zero_le, true_and]

theorem clusterIo_write (fs : FatFs) (start offset length fuel : Nat)
    (container buffer : Nat → UInt8) (hcs : 0 < fs.clusterSize)
    (hidx : offset / fs.clusterSize < 4294967296)
    (hlen : length < 4294967296) (hfuel : length < fuel) :
    ∃ out, fs.clusterIo fuel .clusterWrite start offset container buffer
        length = some (out, buffer) ∧
      (∀ a, (∀ k, k < length → fs.fileAddress start (offset + k) ≠ some a) →
        out a = container a) ∧
      ∀ k a, k < length → fs.fileAddress start (offset + k) = some a →
        ∃ j, j < length ∧ fs.fileAddress start (offset + j) = some a ∧
          out a = buffer j := by
  obtain ⟨hs, hskip⟩ := skipClusters_spec hcs start hidx
  simp only [clusterIo]
  generalize u32 (offset % fs.clusterSize : Nat) = s at *
  cases hc : fs.skipClusters (u32 (offset / fs.clusterSize : Nat)) start with
  | none =>
      rw [hc] at hskip
      refine ⟨container, rfl, fun _ _ => rfl, fun k a _ ha => ?_⟩
      rw [hskip k] at ha
      cases ha
  | some c =>
      rw [hc] at hskip
      obtain ⟨out, hout, hkeep, hput⟩ := transfer_write hcs hlen buffer fuel
        c s 0 length container hfuel hs (Nat.zero_add _)
      simp only [hskip]
      refine ⟨out, hout, hkeep, fun k a hk ha => ?_⟩
      obtain ⟨j, hj, hja, hbyte⟩ := hput k a hk ha
      rw [Nat.zero_add] at hbyte
      exact ⟨j, hj, hja, hbyte⟩

theorem clusterIo_refines_file (fs : FatFs) (start offset length fuel : Nat)
    (container buffer : Nat → UInt8) (hcs : 0 < fs.clusterSize)
    (hidx : offset / fs.clusterSize < 4294967296)
    (hlen : length < 4294967296) (hfuel : length < fuel) :
    (∃ out, fs.clusterIo fuel .clusterRead start offset container buffer
          length = some (container, out) ∧
        ∀ k, out k = if k < length
          then (fs.fileByte container start (offset + k)).getD (buffer k)
          else buffer k) ∧
      (fs.DisjointClusters start →
        ∃ out, fs.clusterIo fuel .clusterWrite start offset container buffer
            length = some (out, buffer) ∧
          (∀ k a, k < length → fs.fileAddress start (offset + k) = some a →
            out a = buffer k) ∧
          ∀ a, (∀ k, k < length → fs.fileAddress start (offset + k) ≠ some a) →
            out a = container a) := by
  refine ⟨fs.clusterIo_read start offset length fuel container buffer hcs hidx
    hlen hfuel, fun hd => ?_⟩
  obtain ⟨out, hout, hkeep, hput⟩ :=
    fs.clusterIo_write start offset length fuel container buffer hcs hidx hlen
      hfuel
  refine ⟨out, hout, fun k a hk ha => ?_, hkeep⟩
  -- no other byte of the file lies in this place
  obtain ⟨j, -, hja, hbyte⟩ := hput k a hk ha
  have hjk := hd.injective hcs hja ha
  rw [hbyte, Nat.add_left_cancel hjk]

/-- Two clusters of two bytes, cluster 0 followed by cluster 1. -/
def twoClusters : FatFs where
  clustertable :=
    { data := some fun a => if a = 4 then 3 else if a = 5 then 0 else 0xFF
      add := 0
      type := .fat16 }
  fatBootsector :=
    { bytesPerSector := 2, sectorPerCluster := 1, reservedSectors := 1
      fatCopies := 1, sectorsPerFat := 1 }

theorem twoClusters_disjoint : twoClusters.DisjointClusters 0 := by
  have hend : nth twoClusters.clustertable.next 2 0 = none := by decide
  have hshort : ∀ {i c}, nth twoClusters.clustertable.next i 0 = some c →
      (i = 0 ∧ c = 0) ∨ (i = 1 ∧ c = 1) := by
    intro i c h
    rcases Nat.lt_or_ge i 2 with hi | hi
    · have h₁ : nth twoClusters.clustertable.next 1 0 = some 1 := by decide
      rcases (by omega : i = 0 ∨ i = 1) with rfl | rfl
      · exact .inl ⟨rfl, (Option.some.inj h).symm⟩
      · exact .inr ⟨rfl, (Option.some.inj (h₁.symm.trans h)).symm⟩
    · rw [nth_none_of_le hend hi] at h
      cases h
  intro i j c c' hne hi hj
  rcases hshort hi with ⟨rfl, rfl⟩ | ⟨rfl, rfl⟩ <;>
    rcases hshort hj with ⟨rfl, rfl⟩ | ⟨rfl, rfl⟩
  · exact absurd rfl hne
  · decide
  · decide
  · exact absurd rfl hne

theorem twoClusters_refines_file :
    let container : Nat → UInt8 := fun a => UInt8.ofNat a
    let buffer : Nat → UInt8 := fun _ => 7
    (∃ out, twoClusters.clusterIo 8 .clusterRead 0 1 container buffer 5 =
        some (container, out) ∧
      ∀ k, out k = if k < 5
        then (twoClusters.fileByte container 0 (1 + k)).getD 7 else 7) ∧
      ∃ out, twoClusters.clusterIo 8 .clusterWrite 0 1 container buffer 5 =
          some (out, buffer) ∧
        (∀ k a, k < 5 → twoClusters.fileAddress 0 (1 + k) = some a →
          out a = 7) ∧
        ∀ a, (∀ k, k < 5 → twoClusters.fileAddress 0 (1 + k) ≠ some a) →
          out a = container a := by
  intro container buffer
  have h := twoClusters.clusterIo_refines_file 0 1 5 8 container buffer
    (by decide) (by decide) (by decide) (by decide)
  exact ⟨h.1, h.2 twoClusters_disjoint⟩

end Iposix.Fs.FatFs
