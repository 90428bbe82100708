import Iposix.Fs.Filehandle
import Iposix.Proofs.ClusterRefine

/-!
# When a sequence of reads is right

A file of size `S` is read through one descriptor. `Reads` is what one call is
for: it delivers the next `min n (S - pos)` bytes, says how many these were and
leaves the rest of the buffer alone.

The handle moves its position by the length it was asked for, and the wrapper
returns that length. So a call is right exactly as long as it asks for no more
than the file still has: from the first call on that asks for more, the number
returned and the position are wrong. A length from `2 ^ 31` on comes out of the
wrapper as a negative number whatever was read.
-/

namespace Iposix.Fs

open Iposix.Lib

/-- A regular file: each of its bytes lies in its chain. -/
structure FatFsNode.RegularFile (node : FatFsNode) (container : Nat → UInt8) :
    Prop where
  notDirectory : node.isDirectory = false
  clusterSize_pos : 0 < node.fs.clusterSize
  size_lt : node.size < 4294967296
  stored : ∀ k, k < node.size →
    node.fs.fileByte container node.cluster k ≠ none

/-- What a call at `pos` moves. -/
def FatFsNode.available (node : FatFsNode) (pos n : Nat) : Nat :=
  min n (node.size - pos)

/-- The answer that a read of `n` bytes at `pos` is to give. -/
structure FatFsNode.Reads (node : FatFsNode) (container : Nat → UInt8)
    (pos n : Nat) (buffer : Nat → UInt8) (result : Int) (out : Nat → UInt8) :
    Prop where
  result_eq : result = node.available pos n
  bytes : ∀ k, k < node.available pos n →
    node.fs.fileByte container node.cluster (pos + k) = some (out k)
  rest : ∀ k, node.available pos n ≤ k → out k = buffer k

/-- Each call of a sequence, a length and what its buffer held, is right and
moves the position by what it delivered. -/
def FatFsNode.SequentialReads (node : FatFsNode) (container : Nat → UInt8)
    (file : Int) : Filehandles → (pos : Nat) → List (Nat × (Nat → UInt8)) → Prop
  | _, _, [] => True
  | handles, pos, (n, buffer) :: calls =>
      ∃ result handles' out,
        userRead handles container file buffer n =
          some (result, handles', out) ∧
        node.Reads container pos n buffer result out ∧
        handles' (u32 file) =
          some ⟨some node, (pos + node.available pos n : Nat)⟩ ∧
        node.SequentialReads container file handles'
          (pos + node.available pos n) calls

namespace FatFsNode

variable {node : FatFsNode} {container : Nat → UInt8}

theorem RegularFile.byte (h : node.RegularFile container) {k : Nat}
    (hk : k < node.size) :
    ∃ b, node.fs.fileByte container node.cluster k = some b :=
  Option.ne_none_iff_exists'.1 (h.stored k hk)

/-- A request that the file covers is served. -/
theorem read_inside (h : node.RegularFile container) {pos n : Nat}
    (hin : pos + n ≤ node.size) (buffer : Nat → UInt8) :
    ∃ out, node.read container pos buffer n = some out ∧
      (∀ k, k < n →
        node.fs.fileByte container node.cluster (pos + k) = some (out k)) ∧
      ∀ k, n ≤ k → out k = buffer k := by
  have hsize := h.size_lt
  have hidx : pos / node.fs.clusterSize < 4294967296 :=
    Nat.lt_of_le_of_lt (Nat.div_le_self _ _) (by omega)
  obtain ⟨out, hout, hk⟩ := node.fs.clusterIo_read node.cluster pos n (n + 1)
    container buffer h.clusterSize_pos hidx (by omega) (by omega)
  have hcut : ¬ u64 (pos + n : Nat) > node.size := by
    rw [u64_of_lt (by omega)]
    omega
  refine ⟨out, ?_, ?_, ?_⟩
  · rw [read, h.notDirectory, if_neg Bool.false_ne_true]
    simp only [if_neg hcut, readPure, hout, Option.map_some]
  · intro k hkn
    obtain ⟨b, hb⟩ := h.byte (by omega : pos + k < node.size)
    rw [hk, if_pos hkn, hb, Option.getD_some]
  · intro k hkn
    rw [hk, if_neg (by omega)]

/-! ## One call -/

theorem userRead_spec {handles : Filehandles} {file : Int} {pos n : Nat}
    {buffer out : Nat → UInt8}
    (hfd : handles (u32 file) = some ⟨some node, pos⟩)
    (hpos : pos + n < 9223372036854775808)
    (hread : node.read container pos buffer n = some out) :
    userRead handles container file buffer n =
      some (i32 n, Function.update handles (u32 file)
        (some ⟨some node, (pos + n : Nat)⟩), out) := by
  have hstart : u64 pos = pos := u64_of_lt (by omega)
  have hoffset : i64 (pos + n) = (pos + n : Nat) :=
    i64_of_lt (n := pos + n) hpos
  simp only [userRead, readCall, hfd, Filehandle.read, hstart, hread, hoffset,
    if_true]

/-- Whatever a call does to the buffer, it returns its length. -/
theorem userRead_result {handles handles' : Filehandles} {file : Int}
    {fd : Filehandle} {n : Nat} {buffer out : Nat → UInt8} {result : Int}
    (hfd : handles (u32 file) = some fd)
    (h : userRead handles container file buffer n =
      some (result, handles', out)) : result = i32 n := by
  simp only [userRead, readCall, hfd] at h
  cases hread : fd.read container buffer n with
  | none =>
      rw [hread] at h
      cases h
  | some r =>
      rw [hread] at h
      injection h with h
      injection h with h _
      exact h.symm

theorem i32_neg {n : Nat} (h₁ : 2147483648 ≤ n) (h₂ : n < 4294967296) :
    i32 n < 0 := by
  have hmod : n % 4294967296 = n := Nat.mod_eq_of_lt h₂
  rw [i32, hmod, if_neg (by omega)]
  omega

/-- The number returned is right for a call inside the file only. -/
theorem available_eq_i32 {pos n : Nat} (hpos : pos ≤ node.size)
    (hn : n < 4294967296) (h : i32 n = node.available pos n) :
    pos + n ≤ node.size ∧ n < 2147483648 := by
  rcases Nat.lt_or_ge n 2147483648 with hlt | hge
  · rw [i32_of_lt hlt, available] at h
    have := Int.ofNat.inj h
    exact ⟨by omega, hlt⟩
  · have := i32_neg hge hn
    omega

/-! ## The sequence -/

theorem sequentialReads_iff (h : node.RegularFile container) {file : Int} :
    ∀ {calls : List (Nat × (Nat → UInt8))} {handles : Filehandles} {pos : Nat},
      handles (u32 file) = some ⟨some node, pos⟩ → pos ≤ node.size →
      (∀ call ∈ calls, call.1 < 4294967296) →
      (node.SequentialReads container file handles pos calls ↔
        pos + (calls.map Prod.fst).sum ≤ node.size ∧
          ∀ call ∈ calls, call.1 < 2147483648) := by
  have hsize := h.size_lt
  intro calls
  induction calls with
  | nil =>
      intro handles pos _ hpos _
      exact ⟨fun _ => ⟨hpos, fun _ hc => absurd hc List.not_mem_nil⟩,
        fun _ => trivial⟩
  | cons call calls ih =>
      obtain ⟨n, buffer⟩ := call
      intro handles pos hfd hpos hlen
      have hn : n < 4294967296 := hlen (n, buffer) List.mem_cons_self
      have htail : ∀ call ∈ calls, call.1 < 4294967296 :=
        fun call hc => hlen call (List.mem_cons_of_mem _ hc)
      rw [List.map_cons, List.sum_cons, List.forall_mem_cons]
      constructor
      · rintro ⟨result, handles', out, hcall, hreads, hfd', hrest⟩
        -- the number returned is right, so the file covered the request
        have hres := userRead_result hfd hcall
        obtain ⟨hin, hsmall⟩ := available_eq_i32 hpos hn
          (hres.symm.trans hreads.result_eq)
        have havail : node.available pos n = n := Nat.min_eq_left (by omega)
        rw [havail] at hfd' hrest
        obtain ⟨hsum, hall⟩ := (ih hfd' hin htail).1 hrest
        exact ⟨by omega, hsmall, hall⟩
      · rintro ⟨hsum, hsmall, hall⟩
        have hin : pos + n ≤ node.size := by omega
        have havail : node.available pos n = n := Nat.min_eq_left (by omega)
        obtain ⟨out, hread, hbytes, hkeep⟩ := read_inside h hin buffer
        have hfd' := Function.update_self (f := handles) (u32 file)
          (some ⟨some node, (pos + n : Nat)⟩)
        refine ⟨_, _, _, userRead_spec hfd (by omega) hread, ?_, ?_, ?_⟩
        · constructor
          · rw [havail]
            exact i32_of_lt hsmall
          · rw [havail]
            exact hbytes
          · rw [havail]
            exact hkeep
        · rw [havail]
          exact hfd'
        · rw [havail]
          exact (ih hfd' hin htail).2 ⟨by omega, hall⟩

/-- A file of three bytes in two clusters. -/
def threeBytes : FatFsNode where
  fs := FatFs.twoClusters
  isDirectory := false
  cluster := 0
  size := 3

theorem threeBytes_regular (container : Nat → UInt8) :
    threeBytes.RegularFile container where
  notDirectory := rfl
  clusterSize_pos := by decide
  size_lt := by decide
  stored := fun k hk => by
    have haddr : ∀ k, k < 3 → FatFs.twoClusters.fileAddress 0 k ≠ none := by
      decide
    intro hnone
    exact haddr k hk (Option.map_eq_none_iff.1 hnone)

theorem sequentialReads_threeBytes :
    threeBytes.SequentialReads UInt8.ofNat 5
      (fun _ => some ⟨some threeBytes, (0 : Nat)⟩) 0
      [(2, fun _ => 7), (0, fun _ => 7), (1, fun _ => 7)] :=
  (sequentialReads_iff (threeBytes_regular _) rfl (by decide)
    (by decide)).2 (by decide)

/-- A read of ten bytes from a file of three: it delivers three, and returns
ten. -/
theorem sequentialReads_past_end :
    threeBytes.RegularFile UInt8.ofNat ∧
    ¬ threeBytes.SequentialReads UInt8.ofNat 5
      (fun _ => some ⟨some threeBytes, (0 : Nat)⟩) 0 [(10, fun _ => 7)] := by
  refine ⟨threeBytes_regular _, ?_⟩
  rintro ⟨result, handles', out, hcall, hreads, -, -⟩
  have hten : result = 10 := userRead_result rfl hcall
  have hthree : result = 3 := hreads.result_eq
  omega

end FatFsNode

end Iposix.Fs
