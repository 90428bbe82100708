import Iposix.Devices.BlockDevice

/-!
# The block layer refines a flat byte array

`Transfers` is the contract of a driver: a transfer of `n ≥ 1` blocks inside
the device moves some `t` of them, `1 ≤ t ≤ n`, and answers `t`. Which `t` may
depend on anything the driver remembers.

The body loop is the only place with an induction. Its invariant, read off
the cursor, is that `base_block * block_size` and `position` have advanced by
the same number of bytes that `remain` has dropped by; the buffer, or the disk,
is a splice of exactly that length. Head and tail each prolong that splice by
one piece, and `splice_append` glues the three together.
-/

namespace Iposix.Devices.BlockDevice

open Iposix.Lib

variable {σ : Type*}

/-- A driver that transfers at least one block of what it is asked for and
reports how many; `disk` is what its state holds, `blocks` its size. -/
structure Transfers (d : BlockDevice σ) (disk : σ → Bytes) (blocks : Nat) :
    Prop where
  blockSize_pos : 0 < d.blockSize
  blockSize_lt : d.blockSize < 4294967296
  /-- `length()` is a `uint64_t`. -/
  size_lt : blocks * d.blockSize < 18446744073709551616
  read : ∀ dev base buf n, 1 ≤ n → base + n ≤ blocks →
    ∃ (t : Nat) (dev' : σ), 1 ≤ t ∧ t ≤ n ∧
      d.readBlock dev base buf n =
        (↑t, splice buf 0 (t * d.blockSize)
          (window (disk dev) (base * d.blockSize)), dev') ∧
      disk dev' = disk dev
  write : ∀ dev base buf n, 1 ≤ n → base + n ≤ blocks →
    ∃ (t : Nat) (dev' : σ), 1 ≤ t ∧ t ≤ n ∧
      d.writeBlock dev base buf n = (↑t, dev') ∧
      disk dev' =
        splice (disk dev) (base * d.blockSize) (t * d.blockSize) buf

variable {d : BlockDevice σ} {disk : σ → Bytes} {blocks : Nat}

/-- A cursor between two parts: what is left lies inside the device, starts at
a block, and nothing has overflowed. -/
structure Inside (d : BlockDevice σ) (blocks : Nat) (c : Cursor) : Prop where
  ok : c.success = true
  fits : c.baseBlock * d.blockSize + c.remain ≤ blocks * d.blockSize
  short : c.position + c.remain < 2147483648

/-- `c'` is `c` after `n` bytes, in whole blocks. -/
structure Advanced (d : BlockDevice σ) (c c' : Cursor) (n : Nat) : Prop where
  base : c'.baseBlock * d.blockSize = c.baseBlock * d.blockSize + n
  position : c'.position = c.position + n
  remain : c'.remain + n = c.remain

theorem Advanced.refl (d : BlockDevice σ) (c : Cursor) : Advanced d c c 0 :=
  ⟨rfl, rfl, rfl⟩

theorem Advanced.trans {c₁ c₂ c₃ : Cursor} {n m : Nat}
    (h₁ : Advanced d c₁ c₂ n) (h₂ : Advanced d c₂ c₃ m) :
    Advanced d c₁ c₃ (n + m) := by
  obtain ⟨hb₁, hp₁, hr₁⟩ := h₁
  obtain ⟨hb₂, hp₂, hr₂⟩ := h₂
  exact ⟨by omega, by omega, by omega⟩

theorem Inside.advance {c c' : Cursor} {n : Nat} (hc : Inside d blocks c)
    (h : Advanced d c c' n) (hok : c'.success = true) :
    Inside d blocks c' := by
  obtain ⟨hb, hp, hr⟩ := h
  obtain ⟨_, hfits, hshort⟩ := hc
  exact ⟨hok, by omega, by omega⟩

/-- The blocks the body asks for lie inside the device. -/
theorem Inside.body_fits {c : Cursor} (hd : 0 < d.blockSize)
    (hc : Inside d blocks c) :
    c.baseBlock + c.remain / d.blockSize ≤ blocks := by
  have hdiv := Nat.div_mul_le_self c.remain d.blockSize
  have hle : (c.baseBlock + c.remain / d.blockSize) * d.blockSize ≤
      blocks * d.blockSize := by
    rw [Nat.add_mul]
    have := hc.fits
    omega
  exact Nat.le_of_mul_le_mul_right hle hd

/-- So does the one block of the tail. -/
theorem Inside.tail_fits {c : Cursor} (hc : Inside d blocks c)
    (hrem : 0 < c.remain) : c.baseBlock + 1 ≤ blocks := by
  rcases Nat.lt_or_ge c.baseBlock blocks with hlt | hge
  · exact hlt
  · have hmul : blocks * d.blockSize ≤ c.baseBlock * d.blockSize :=
      Nat.mul_le_mul_right _ hge
    have := hc.fits
    omega

/-- A block number inside a device is a `uint64_t`. -/
theorem block_lt_of_size (hpos : 0 < d.blockSize)
    (hsize : blocks * d.blockSize < 18446744073709551616) {b : Nat}
    (hb : b ≤ blocks) : b < 18446744073709551616 := by
  have hle : blocks ≤ blocks * d.blockSize := Nat.le_mul_of_pos_right _ hpos
  omega

theorem Transfers.block_lt (h : Transfers d disk blocks) {b : Nat}
    (hb : b ≤ blocks) : b < 18446744073709551616 :=
  block_lt_of_size h.blockSize_pos h.size_lt hb

/-- A turn of the body loop adds and subtracts the blocks transferred without
overflow. -/
theorem passBody_eq {c : Cursor} {t : Nat} (hok : c.success = true)
    (ht : t ≤ c.remain / d.blockSize)
    (hshort : c.position + c.remain < 4294967296)
    (hblock : c.baseBlock + t < 18446744073709551616) :
    d.passBody c t =
      ⟨c.baseBlock + t, c.position + t * d.blockSize,
        c.remain - t * d.blockSize, true⟩ := by
  have hbytes : t * d.blockSize ≤ c.remain :=
    Nat.le_trans (Nat.mul_le_mul_right _ ht) (Nat.div_mul_le_self _ _)
  have hcond : (c.success && (t : Int) != -1) = true := by
    have hne : ((t : Int) != -1) = true := by simp
    rw [hok, hne]
    rfl
  have hcast : (t : Int) * (d.blockSize : Int) =
      ((t * d.blockSize : Nat) : Int) := by
    simp
  have hbase : u64 ((c.baseBlock : Int) + t) = c.baseBlock + t := by
    simpa using u64_of_lt hblock
  have hposition : u32 ((c.position : Int) + t * d.blockSize) =
      c.position + t * d.blockSize := by
    rw [hcast]
    simp only [u32]
    omega
  have hremain : u32 ((c.remain : Int) - t * d.blockSize) =
      c.remain - t * d.blockSize := by
    rw [hcast]
    simp only [u32]
    omega
  rw [passBody, if_pos hcond, hbase, hposition, hremain]

/-- One turn of the body loop, on the cursor: the `t` blocks transferred are
subtracted and added without overflow. -/
theorem passBody_spec (h : Transfers d disk blocks) {c : Cursor} {t : Nat}
    (hc : Inside d blocks c) (ht : t ≤ c.remain / d.blockSize) :
    Advanced d c (d.passBody c t) (t * d.blockSize) ∧
      (d.passBody c t).success = true := by
  have hbytes : t * d.blockSize ≤ c.remain :=
    Nat.le_trans (Nat.mul_le_mul_right _ ht) (Nat.div_mul_le_self _ _)
  have hblocks : c.baseBlock + t ≤ blocks :=
    Nat.le_trans (Nat.add_le_add_left ht _) (hc.body_fits h.blockSize_pos)
  have hshort := hc.short
  rw [passBody_eq hc.ok ht (by omega) (h.block_lt hblocks)]
  exact ⟨⟨Nat.add_mul .., rfl, Nat.sub_add_cancel hbytes⟩, rfl⟩

/-- The body of `read`: whatever the pieces were, the buffer received the disk
bytes that the cursor moved over. The induction is on the fuel, which covers
`remain` because every turn transfers at least one block. -/
theorem readBody_spec (h : Transfers d disk blocks) :
    ∀ (fuel : Nat) (c : Cursor) (dev : σ) (buf : Bytes),
      c.remain < fuel → Inside d blocks c →
      ∃ (n : Nat) (c' : Cursor) (dev' : σ),
        d.readBody fuel c dev buf =
          some (c', dev', splice buf c.position n
            (window (disk dev) (c.baseBlock * d.blockSize))) ∧
        Advanced d c c' n ∧ Inside d blocks c' ∧
        c'.remain ≤ d.blockSize ∧ disk dev' = disk dev := by
  intro fuel
  induction fuel with
  | zero => intro c dev buf hf; omega
  | succ f ih =>
      intro c dev buf hf hc
      rw [readBody]
      by_cases hgo : c.remain > d.blockSize
      · have hcond : (decide (c.remain > d.blockSize) && c.success) = true := by
          simp [hgo, hc.ok]
        have hn : 1 ≤ c.remain / d.blockSize :=
          (Nat.one_le_div_iff h.blockSize_pos).2 (by omega)
        obtain ⟨t, dev₁, ht₁, htn, hread, hdisk₁⟩ := h.read dev c.baseBlock
          (window buf c.position) _ hn (hc.body_fits h.blockSize_pos)
        obtain ⟨hadv, hok⟩ := passBody_spec h hc htn
        have hpos : 0 < t * d.blockSize := Nat.mul_pos ht₁ h.blockSize_pos
        have hrem := hadv.remain
        obtain ⟨n, c', dev', hrun, hadv', hin', htail, hdisk'⟩ :=
          ih _ dev₁ (graft buf c.position
              (splice (window buf c.position) 0 (t * d.blockSize)
                (window (disk dev) (c.baseBlock * d.blockSize))))
            (by omega) (hc.advance hadv hok)
        refine ⟨t * d.blockSize + n, c', dev', ?_, hadv.trans hadv', hin',
          htail, hdisk'.trans hdisk₁⟩
        rw [if_pos hcond]
        simp only [hread, hrun]
        rw [graft_splice, hadv.position, hadv.base, hdisk₁,
          ← window_window, splice_append]
      · have hcond : ¬ (decide (c.remain > d.blockSize) && c.success) = true := by
          simp [hgo]
        refine ⟨0, c, dev, ?_, Advanced.refl d c, hc, by omega, rfl⟩
        rw [if_neg hcond, splice_empty]

/-- The body of `write`, likewise on the disk. -/
theorem writeBody_spec (h : Transfers d disk blocks) (buf : Bytes) :
    ∀ (fuel : Nat) (c : Cursor) (dev : σ),
      c.remain < fuel → Inside d blocks c →
      ∃ (n : Nat) (c' : Cursor) (dev' : σ),
        d.writeBody buf fuel c dev = some (c', dev') ∧
        disk dev' = splice (disk dev) (c.baseBlock * d.blockSize) n
          (window buf c.position) ∧
        Advanced d c c' n ∧ Inside d blocks c' ∧ c'.remain ≤ d.blockSize := by
  intro fuel
  induction fuel with
  | zero => intro c dev hf; omega
  | succ f ih =>
      intro c dev hf hc
      rw [writeBody]
      by_cases hgo : c.remain > d.blockSize
      · have hcond : (decide (c.remain > d.blockSize) && c.success) = true := by
          simp [hgo, hc.ok]
        have hn : 1 ≤ c.remain / d.blockSize :=
          (Nat.one_le_div_iff h.blockSize_pos).2 (by omega)
        obtain ⟨t, dev₁, ht₁, htn, hwrite, hdisk₁⟩ := h.write dev c.baseBlock
          (window buf c.position) _ hn (hc.body_fits h.blockSize_pos)
        obtain ⟨hadv, hok⟩ := passBody_spec h hc htn
        have hpos : 0 < t * d.blockSize := Nat.mul_pos ht₁ h.blockSize_pos
        have hrem := hadv.remain
        obtain ⟨n, c', dev', hrun, hdisk', hadv', hin', htail⟩ :=
          ih _ dev₁ (by omega) (hc.advance hadv hok)
        refine ⟨t * d.blockSize + n, c', dev', ?_, ?_, hadv.trans hadv', hin',
          htail⟩
        · rw [if_pos hcond]
          simp only [hwrite, hrun]
        · rw [hdisk', hdisk₁, hadv.position, hadv.base, ← window_window,
            splice_append]
      · have hcond : ¬ (decide (c.remain > d.blockSize) && c.success) = true := by
          simp [hgo]
        refine ⟨0, c, dev, if_neg hcond, ?_, Advanced.refl d c, hc, by omega⟩
        rw [splice_empty]

/-! ## Head and tail -/

/-- What the head leaves to do: `n` bytes are done, and unless that was all,
the rest starts at a block. -/
structure HeadDone (d : BlockDevice σ) (blocks baseAddress length n : Nat)
    (c : Cursor) : Prop where
  inside : Inside d blocks c
  position : c.position = n
  remain : n + c.remain = length
  aligned : 0 < c.remain → c.baseBlock * d.blockSize = baseAddress + n

section Head

variable {baseAddress length : Nat}

/-- Without a head the range starts at a block. -/
theorem start_headDone (hlen : length < 2147483648)
    (hfits : baseAddress + length ≤ blocks * d.blockSize)
    (hskip : baseAddress % d.blockSize = 0) :
    HeadDone d blocks baseAddress length 0 (d.start baseAddress length) := by
  have hbase : baseAddress / d.blockSize * d.blockSize = baseAddress :=
    Nat.div_mul_cancel (Nat.dvd_of_mod_eq_zero hskip)
  refine ⟨⟨rfl, ?_, ?_⟩, rfl, Nat.zero_add _, fun _ => hbase⟩
  · show baseAddress / d.blockSize * d.blockSize + length ≤ _
    omega
  · show 0 + length < _
    omega

theorem headLen_min (hpos : 0 < d.blockSize) (hlt : d.blockSize < 4294967296)
    (baseAddress length : Nat) :
    d.headLen baseAddress length =
      min length (d.blockSize - baseAddress % d.blockSize) := by
  have hmod := Nat.mod_lt baseAddress hpos
  have hmax : u32 (d.blockSize - (baseAddress % d.blockSize : Nat)) =
      d.blockSize - baseAddress % d.blockSize := by
    simp only [u32]
    omega
  simp only [headLen, hmax, Nat.min_def]
  split_ifs <;> omega

theorem headLen_eq (h : Transfers d disk blocks) :
    d.headLen baseAddress length =
      min length (d.blockSize - baseAddress % d.blockSize) :=
  headLen_min h.blockSize_pos h.blockSize_lt baseAddress length

/-- The one block of a head lies inside the device. -/
theorem head_fits (h : Transfers d disk blocks)
    (hfits : baseAddress + length ≤ blocks * d.blockSize)
    (hskip : 0 < baseAddress % d.blockSize) :
    baseAddress / d.blockSize + 1 ≤ blocks := by
  rw [Nat.add_one_le_iff, Nat.div_lt_iff_lt_mul h.blockSize_pos]
  rcases Nat.lt_or_ge baseAddress (blocks * d.blockSize) with hlt | hge
  · exact hlt
  · have heq : baseAddress = blocks * d.blockSize := by omega
    rw [heq, Nat.mul_mod_left] at hskip
    exact absurd hskip (Nat.lt_irrefl 0)

/-- A range that starts inside a block ends its head at the next block or
before it. -/
theorem passHead_headDone (h : Transfers d disk blocks)
    (hlen : length < 2147483648)
    (hfits : baseAddress + length ≤ blocks * d.blockSize)
    (hskip : 0 < baseAddress % d.blockSize) :
    HeadDone d blocks baseAddress length (d.headLen baseAddress length)
      (passHead (d.start baseAddress length) (d.headLen baseAddress length)
        true) := by
  have hmod := Nat.mod_lt baseAddress h.blockSize_pos
  have hdm := Nat.div_add_mod' baseAddress d.blockSize
  have hblock := head_fits h hfits hskip
  have hnext : u64 ((baseAddress / d.blockSize : Nat) + 1) =
      baseAddress / d.blockSize + 1 := by
    simpa using u64_of_lt (h.block_lt hblock)
  have hbytes := Nat.mul_le_mul_right d.blockSize hblock
  rw [Nat.add_mul, Nat.one_mul] at hbytes
  rw [headLen_eq h]
  refine ⟨⟨rfl, ?_, ?_⟩, ?_, ?_, ?_⟩ <;>
    simp only [passHead, start, hnext, u32, Nat.add_mul, Nat.one_mul] <;> omega

end Head

section Parts

variable {baseAddress length : Nat} (dev : σ) (buf tmp : Bytes)

theorem readHead_spec (h : Transfers d disk blocks)
    (hlen : length < 2147483648)
    (hfits : baseAddress + length ≤ blocks * d.blockSize) :
    ∃ (n : Nat) (c : Cursor) (dev' : σ) (tmp' : Bytes),
      d.readHead dev baseAddress buf length tmp =
        (c, dev', splice buf 0 n (window (disk dev) baseAddress), tmp') ∧
      HeadDone d blocks baseAddress length n c ∧ disk dev' = disk dev := by
  by_cases hskip : 0 < baseAddress % d.blockSize
  · obtain ⟨t, dev', ht₁, htn, hread, hdisk⟩ := h.read dev
      (baseAddress / d.blockSize) tmp 1 (Nat.le_refl 1) (head_fits h hfits hskip)
    obtain rfl : t = 1 := by omega
    refine ⟨d.headLen baseAddress length, _, dev', splice tmp 0
        (1 * d.blockSize)
        (window (disk dev) (baseAddress / d.blockSize * d.blockSize)), ?_,
      passHead_headDone h hlen hfits hskip, hdisk⟩
    have hdm := Nat.div_add_mod' baseAddress d.blockSize
    have hmod := Nat.mod_lt baseAddress h.blockSize_pos
    have hle : d.headLen baseAddress length ≤
        d.blockSize - baseAddress % d.blockSize := by
      rw [headLen_eq h]
      omega
    have hbuf : splice buf 0 (d.headLen baseAddress length)
        (window (splice tmp 0 (1 * d.blockSize)
          (window (disk dev) (baseAddress / d.blockSize * d.blockSize)))
          (baseAddress % d.blockSize)) =
        splice buf 0 (d.headLen baseAddress length)
          (window (disk dev) baseAddress) := by
      refine splice_congr fun k hk => ?_
      rw [window_apply, splice_mem (Nat.zero_le _) (by omega), window_apply,
        window_apply]
      congr 1
      omega
    simp only [readHead, start, if_pos hskip, hread, hbuf]
    rfl
  · refine ⟨0, _, dev, tmp, ?_, start_headDone hlen hfits (by omega), rfl⟩
    simp only [readHead, if_neg hskip, splice_empty]

theorem readTail_spec (h : Transfers d disk blocks) {c : Cursor}
    (hc : Inside d blocks c) (hrem : c.remain ≤ d.blockSize) :
    ∃ dev', d.readTail c dev buf tmp =
        (true, dev', splice buf c.position c.remain
          (window (disk dev) (c.baseBlock * d.blockSize))) ∧
      disk dev' = disk dev := by
  rcases Nat.eq_zero_or_pos c.remain with hz | hpos
  · refine ⟨dev, ?_, rfl⟩
    simp [readTail, hz, hc.ok]
  · obtain ⟨t, dev', ht₁, htn, hread, hdisk⟩ := h.read dev c.baseBlock tmp 1
      (Nat.le_refl 1) (hc.tail_fits hpos)
    obtain rfl : t = 1 := by omega
    refine ⟨dev', ?_, hdisk⟩
    have hbuf : splice buf c.position c.remain
        (splice tmp 0 (1 * d.blockSize)
          (window (disk dev) (c.baseBlock * d.blockSize))) =
        splice buf c.position c.remain
          (window (disk dev) (c.baseBlock * d.blockSize)) := by
      refine splice_congr fun k hk => ?_
      rw [splice_mem (Nat.zero_le _) (by omega), Nat.sub_zero]
    have hcond : (decide (c.remain > 0) && c.success) = true := by
      simp [hpos, hc.ok]
    simp only [readTail, hcond, if_true, hread, hbuf]
    rfl

/-- `read` on a whole range: it answers the length and fills the buffer with
the disk bytes, for any fuel above the length. -/
theorem read_spec (h : Transfers d disk blocks) {fuel : Nat}
    (hlen : length < 2147483648) (hfuel : length < fuel)
    (hfits : baseAddress + length ≤ blocks * d.blockSize) :
    ∃ dev', d.read fuel dev baseAddress buf length tmp =
        some ((length : Int), splice buf 0 length (window (disk dev) baseAddress),
          dev') ∧
      disk dev' = disk dev := by
  obtain ⟨n, c₁, dev₁, tmp₁, hhead, hdone, hdisk₁⟩ :=
    readHead_spec dev buf tmp h hlen hfits
  obtain ⟨hin₁, hpos₁, hrem₁, halign₁⟩ := hdone
  obtain ⟨m, c₂, dev₂, hbody, hadv, hin₂, htail, hdisk₂⟩ :=
    readBody_spec h fuel c₁ dev₁
      (splice buf 0 n (window (disk dev) baseAddress)) (by omega) hin₁
  obtain ⟨dev₃, hread, hdisk₃⟩ := readTail_spec dev₂
    (splice (splice buf 0 n (window (disk dev) baseAddress)) c₁.position m
      (window (disk dev₁) (c₁.baseBlock * d.blockSize)))
    tmp₁ h hin₂ htail
  refine ⟨dev₃, ?_, hdisk₃.trans (hdisk₂.trans hdisk₁)⟩
  have hbuf : splice (splice (splice buf 0 n (window (disk dev) baseAddress))
        c₁.position m (window (disk dev₁) (c₁.baseBlock * d.blockSize)))
        c₂.position c₂.remain (window (disk dev₂) (c₂.baseBlock * d.blockSize)) =
      splice buf 0 length (window (disk dev) baseAddress) := by
    obtain ⟨hb, hp, hr⟩ := hadv
    rcases Nat.eq_zero_or_pos c₁.remain with hz | hpos
    · have hm : m = 0 := by omega
      have hc₂ : c₂.remain = 0 := by omega
      have hn : n = length := by omega
      rw [hm, hc₂, hn, splice_empty, splice_empty]
    · have hlen' : length = n + m + c₂.remain := by omega
      rw [hdisk₂, hdisk₁, hb, hp, halign₁ hpos, hpos₁, hlen',
        ← splice_append buf 0 (n + m), ← splice_append buf 0 n, Nat.zero_add,
        Nat.zero_add, window_window, window_window, Nat.add_assoc]
  simp only [read, hhead, hbody, hread, hbuf, if_true, i32_of_lt hlen]

theorem writeHead_spec (h : Transfers d disk blocks)
    (hlen : length < 2147483648)
    (hfits : baseAddress + length ≤ blocks * d.blockSize) :
    ∃ (n : Nat) (c : Cursor) (dev' : σ) (tmp' : Bytes),
      d.writeHead dev baseAddress buf length tmp = (c, dev', tmp') ∧
      disk dev' = splice (disk dev) baseAddress n buf ∧
      HeadDone d blocks baseAddress length n c := by
  by_cases hskip : 0 < baseAddress % d.blockSize
  · have hblock := head_fits h hfits hskip
    obtain ⟨t, dev₁, ht₁, htn, hread, hdisk₁⟩ := h.read dev
      (baseAddress / d.blockSize) tmp 1 (Nat.le_refl 1) hblock
    obtain rfl : t = 1 := by omega
    let tmp₁ := splice (splice tmp 0 (1 * d.blockSize)
        (window (disk dev) (baseAddress / d.blockSize * d.blockSize)))
      (baseAddress % d.blockSize) (d.headLen baseAddress length) (window buf 0)
    obtain ⟨t, dev₂, ht₁, htn, hwrite, hdisk₂⟩ := h.write dev₁
      (baseAddress / d.blockSize) tmp₁ 1 (Nat.le_refl 1) hblock
    obtain rfl : t = 1 := by omega
    refine ⟨d.headLen baseAddress length, _, dev₂, tmp₁, ?_, ?_,
      passHead_headDone h hlen hfits hskip⟩
    · simp only [writeHead, start, if_pos hskip, hread, tmp₁, hwrite]
      rfl
    · have hdm := Nat.div_add_mod' baseAddress d.blockSize
      have hmod := Nat.mod_lt baseAddress h.blockSize_pos
      have hle : baseAddress % d.blockSize + d.headLen baseAddress length ≤
          1 * d.blockSize := by
        rw [headLen_eq h]
        omega
      rw [hdisk₂, hdisk₁, splice_rmw _ _ _ hle, hdm, window_zero]
      intro k hk
      rw [splice_mem (Nat.zero_le _) (by omega), Nat.sub_zero, window_apply]
  · refine ⟨0, _, dev, tmp, ?_, ?_, start_headDone hlen hfits (by omega)⟩
    · simp only [writeHead, if_neg hskip]
    · rw [splice_empty]

theorem writeTail_spec (h : Transfers d disk blocks) {c : Cursor}
    (hc : Inside d blocks c) (hrem : c.remain ≤ d.blockSize) :
    ∃ dev', d.writeTail buf c dev tmp = (true, dev') ∧
      disk dev' = splice (disk dev) (c.baseBlock * d.blockSize) c.remain
        (window buf c.position) := by
  rcases Nat.eq_zero_or_pos c.remain with hz | hpos
  · refine ⟨dev, ?_, by rw [hz, splice_empty]⟩
    simp [writeTail, hz, hc.ok]
  · have hblock := hc.tail_fits hpos
    obtain ⟨t, dev₁, ht₁, htn, hread, hdisk₁⟩ := h.read dev c.baseBlock tmp 1
      (Nat.le_refl 1) hblock
    obtain rfl : t = 1 := by omega
    obtain ⟨t, dev₂, ht₁, htn, hwrite, hdisk₂⟩ := h.write dev₁ c.baseBlock
      (splice (splice tmp 0 (1 * d.blockSize)
          (window (disk dev) (c.baseBlock * d.blockSize)))
        0 c.remain (window buf c.position)) 1 (Nat.le_refl 1) hblock
    obtain rfl : t = 1 := by omega
    have hcond : (decide (c.remain > 0) && c.success) = true := by
      simp [hpos, hc.ok]
    refine ⟨dev₂, ?_, ?_⟩
    · simp only [writeTail, hcond, if_true, hread, hwrite]
      rfl
    · rw [hdisk₂, hdisk₁, splice_rmw _ _ _ (by omega), Nat.add_zero]
      intro k hk
      rw [splice_mem (Nat.zero_le _) (by omega), Nat.sub_zero, window_apply]

/-- `write` on a whole range: it answers the length and changes exactly the
range. -/
theorem write_spec (h : Transfers d disk blocks) {fuel : Nat}
    (hlen : length < 2147483648) (hfuel : length < fuel)
    (hfits : baseAddress + length ≤ blocks * d.blockSize) :
    ∃ dev', d.write fuel dev baseAddress buf length tmp =
        some ((length : Int), dev') ∧
      disk dev' = splice (disk dev) baseAddress length buf := by
  obtain ⟨n, c₁, dev₁, tmp₁, hhead, hdisk₁, hdone⟩ :=
    writeHead_spec dev buf tmp h hlen hfits
  obtain ⟨hin₁, hpos₁, hrem₁, halign₁⟩ := hdone
  obtain ⟨m, c₂, dev₂, hbody, hdisk₂, hadv, hin₂, htail⟩ :=
    writeBody_spec h buf fuel c₁ dev₁ (by omega) hin₁
  obtain ⟨dev₃, hwrite, hdisk₃⟩ := writeTail_spec dev₂ buf tmp₁ h hin₂ htail
  refine ⟨dev₃, ?_, ?_⟩
  · simp only [write, hhead, hbody, hwrite, if_true, i32_of_lt hlen]
  · obtain ⟨hb, hp, hr⟩ := hadv
    rw [hdisk₃, hdisk₂, hdisk₁]
    rcases Nat.eq_zero_or_pos c₁.remain with hz | hpos
    · have hm : m = 0 := by omega
      have hc₂ : c₂.remain = 0 := by omega
      have hn : n = length := by omega
      rw [hm, hc₂, hn, splice_empty, splice_empty]
    · have hlen' : length = n + m + c₂.remain := by omega
      rw [hb, hp, halign₁ hpos, hpos₁, hlen',
        ← splice_append (disk dev) baseAddress (n + m),
        ← splice_append (disk dev) baseAddress n, Nat.add_assoc]

end Parts

/-! ## The flat array -/

/-- A call of `write`, with the array `new` delivers to it. -/
structure Request where
  baseAddress : Nat
  length : Nat
  buf : Bytes
  tmp : Bytes

/-- What a flat byte array holds after the requests, in order. -/
def flatWrites (f : Bytes) : List Request → Bytes
  | [] => f
  | r :: rest => flatWrites (splice f r.baseAddress r.length r.buf) rest

/-- The requests given to the device, with the answers. -/
def writeAll (d : BlockDevice σ) (fuel : Nat) :
    List Request → σ → Option (List Int × σ)
  | [], dev => some ([], dev)
  | r :: rest, dev =>
      match d.write fuel dev r.baseAddress r.buf r.length r.tmp with
      | none => none
      | some (answer, dev) =>
          (writeAll d fuel rest dev).map fun (answers, dev) =>
            (answer :: answers, dev)

/-- A request inside the device, of a length `int32_t` can report. -/
def Request.Fits (d : BlockDevice σ) (blocks fuel : Nat) (r : Request) : Prop :=
  r.length < 2147483648 ∧ r.length < fuel ∧
    r.baseAddress + r.length ≤ blocks * d.blockSize

theorem writeAll_spec (h : Transfers d disk blocks) {fuel : Nat} :
    ∀ (rs : List Request) (dev : σ), (∀ r ∈ rs, r.Fits d blocks fuel) →
      ∃ dev', d.writeAll fuel rs dev =
          some (rs.map fun r => (r.length : Int), dev') ∧
        disk dev' = flatWrites (disk dev) rs := by
  intro rs
  induction rs with
  | nil => intro dev _; exact ⟨dev, rfl, rfl⟩
  | cons r rest ih =>
      intro dev hfit
      obtain ⟨hlen, hfuel, hin⟩ := hfit r List.mem_cons_self
      obtain ⟨dev₁, hwrite, hdisk₁⟩ :=
        write_spec dev r.buf r.tmp h hlen hfuel hin
      obtain ⟨dev₂, hrest, hdisk₂⟩ := ih dev₁
        fun r' hr' => hfit r' (List.mem_cons_of_mem _ hr')
      refine ⟨dev₂, ?_, ?_⟩
      · simp only [writeAll, hwrite, hrest, Option.map_some, List.map_cons]
      · rw [hdisk₂, hdisk₁, flatWrites]

/-- The block layer refines a flat byte array: a read answers its length and
delivers exactly the range, a write answers its length and changes exactly the
range, and a read after any sequence of writes delivers what the flat array
holds then. -/
theorem blockDevice_refines_flat (h : Transfers d disk blocks)
    (dev : σ) (baseAddress length fuel : Nat) (buf tmp : Bytes)
    (hlen : length < 2147483648) (hfuel : length < fuel)
    (hfits : baseAddress + length ≤ blocks * d.blockSize) :
    (∃ dev', d.read fuel dev baseAddress buf length tmp =
        some ((length : Int), splice buf 0 length
          (window (disk dev) baseAddress), dev') ∧
      disk dev' = disk dev) ∧
    (∃ dev', d.write fuel dev baseAddress buf length tmp =
        some ((length : Int), dev') ∧
      disk dev' = splice (disk dev) baseAddress length buf) ∧
    (∀ rs : List Request, (∀ r ∈ rs, r.Fits d blocks fuel) →
      ∃ dev' dev'', d.writeAll fuel rs dev =
          some (rs.map fun r => (r.length : Int), dev') ∧
        d.read fuel dev' baseAddress buf length tmp =
          some ((length : Int), splice buf 0 length
            (window (flatWrites (disk dev) rs) baseAddress), dev'')) := by
  refine ⟨read_spec dev buf tmp h hlen hfuel hfits,
    write_spec dev buf tmp h hlen hfuel hfits, ?_⟩
  intro rs hrs
  obtain ⟨dev₁, hall, hdisk₁⟩ := writeAll_spec h rs dev hrs
  obtain ⟨dev₂, hread, -⟩ := read_spec dev₁ buf tmp h hlen hfuel hfits
  rw [hdisk₁] at hread
  exact ⟨dev₁, dev₂, hall, hread⟩

/-- A disk of two-byte blocks whose driver transfers one block at a time. -/
def oneBlockDisk : BlockDevice Bytes where
  blockSize := 2
  readBlock dev base buf _ := (1, splice buf 0 2 (window dev (base * 2)), dev)
  writeBlock dev base buf _ := (1, splice dev (base * 2) 2 buf)

theorem oneBlockDisk_transfers : Transfers oneBlockDisk id 4 where
  blockSize_pos := by decide
  blockSize_lt := by decide
  size_lt := by decide
  read dev _ _ _ hn _ := ⟨1, dev, Nat.le_refl 1, hn, rfl, rfl⟩
  write _ _ _ _ hn _ := ⟨1, _, Nat.le_refl 1, hn, rfl, rfl⟩

/-- Five bytes from the middle of a block on, read and written, and read after
two writes that overlap. -/
theorem oneBlockDisk_refines_flat :
    (∃ dev', oneBlockDisk.read 6 (fun k => UInt8.ofNat k) 1 (fun _ => 7) 5
        (fun _ => 0) =
      some (5, splice (fun _ => 7) 0 5
        (window (fun k => UInt8.ofNat k) 1), dev') ∧
      id dev' = fun k => UInt8.ofNat k) ∧
    (∃ dev', oneBlockDisk.write 6 (fun k => UInt8.ofNat k) 1 (fun _ => 7) 5
        (fun _ => 0) = some (5, dev') ∧
      id dev' = splice (fun k => UInt8.ofNat k) 1 5 fun _ => 7) ∧
    ∃ dev' dev'', oneBlockDisk.writeAll 6
        [⟨0, 3, fun _ => 8, fun _ => 0⟩, ⟨2, 5, fun _ => 9, fun _ => 0⟩]
        (fun k => UInt8.ofNat k) = some ([3, 5], dev') ∧
      oneBlockDisk.read 6 dev' 1 (fun _ => 7) 5 (fun _ => 0) =
        some (5, splice (fun _ => 7) 0 5 (window (splice
          (splice (fun k => UInt8.ofNat k) 0 3 fun _ => 8) 2 5 fun _ => 9) 1),
          dev'') := by
  obtain ⟨hread, hwrite, hall⟩ := blockDevice_refines_flat
    oneBlockDisk_transfers (fun k => UInt8.ofNat k) 1 5 6 (fun _ => 7)
    (fun _ => 0) (by decide) (by decide) (by decide)
  exact ⟨hread, hwrite, hall [⟨0, 3, fun _ => 8, fun _ => 0⟩,
    ⟨2, 5, fun _ => 9, fun _ => 0⟩] (by simp [Request.Fits, oneBlockDisk])⟩

end Iposix.Devices.BlockDevice
