import Iposix.Devices.Ata
import Iposix.Proofs.BlockRefine
import Mathlib.Algebra.Order.Ring.Nat
import Mathlib.Tactic.ByContra

/-!
# Block transfers of an ATA drive

A command whose count fits the register moves what it is asked for. One that
does not is cut down modulo the register: the loop of the block layer then asks
for the rest, which is a multiple of the register's size, so the next command
moves nothing, and so do all that follow.

A request is therefore carried out exactly if the run of whole blocks in it is
shorter than that. Without LBA48 each of its commands must also start below
sector 2^24: the controller leaves the four bits of LBA28 above that at zero
and takes such an address for one of LBA48.
-/

namespace Iposix.Devices.Ata

open Iposix.Lib

variable {drive : Drive} {c : Controller} {cmd : Command}

/-- The number of sectors that one command can no longer ask for. -/
def Drive.limit (drive : Drive) : Nat := if drive.hasLba48 then 65536 else 256

structure Drive.Accepts (drive : Drive) (base n : Nat) : Prop where
  count : n < drive.limit
  low : drive.hasLba48 = false → base < 16777216

/-- A drive with `sectors` sectors that its mode can address. -/
structure Drive.Sound (drive : Drive) (sectors : Nat) : Prop where
  present : drive.driveNumber ≠ .none
  basePort : drive.basePort ≠ 0
  altPort : drive.altPort ≠ 0
  small : sectors ≤ if drive.hasLba48 then 2 ^ 48 else 2 ^ 28

theorem Drive.Sound.lt {sectors base length : Nat} (h : drive.Sound sectors)
    (hfits : base + length ≤ sectors * 512) : base < 9223372036854775808 := by
  have hsmall := h.small
  split at hsmall <;> omega

/-- A count as a drive understands it whose register can ask for `most`. -/
def understood (most n : Nat) : Nat := if n % most = 0 then most else n % most

/-! ## The data port -/

namespace Controller

theorem transferSectors_read :
    ∀ (turns i lba : Nat) (c : Controller) (buf : Bytes),
      c.selected = true → c.device.transfer = .read lba turns →
      ∃ c', transferSectors .read turns i c buf =
          (splice buf (i * SECTOR_SIZE) (turns * SECTOR_SIZE)
            (window c.device.disk (lba * SECTOR_SIZE)), c') ∧
        c'.device.disk = c.device.disk := by
  intro turns
  induction turns with
  | zero =>
      intro i lba c buf _ _
      exact ⟨c, by rw [transferSectors, Nat.zero_mul, splice_empty], rfl⟩
  | succ turns ih =>
      intro i lba c buf hsel htransfer
      have hsector : c.device.readSector =
          (window c.device.disk (lba * SECTOR_SIZE),
            { c.device with transfer := .read (lba + 1) turns }) := by
        rw [Device.readSector, htransfer]
      obtain ⟨c', hrest, hdisk⟩ := ih (i + 1) (lba + 1)
        { c with
          device := { c.device with transfer := .read (lba + 1) turns } }
        (splice buf (i * SECTOR_SIZE) SECTOR_SIZE
          (window c.device.disk (lba * SECTOR_SIZE))) hsel rfl
      refine ⟨c', ?_, hdisk⟩
      rw [transferSectors, readData, if_pos hsel, hsector]
      dsimp only
      rw [hrest, Nat.succ_mul i, Nat.succ_mul lba, ← window_window,
        splice_append, Nat.succ_mul, Nat.add_comm SECTOR_SIZE]

theorem transferSectors_write :
    ∀ (turns i lba : Nat) (c : Controller) (buf : Bytes),
      c.selected = true → c.device.transfer = .write lba turns →
      ∃ c', transferSectors .write turns i c buf = (buf, c') ∧
        c'.device.disk =
          splice c.device.disk (lba * SECTOR_SIZE) (turns * SECTOR_SIZE)
            (window buf (i * SECTOR_SIZE)) := by
  intro turns
  induction turns with
  | zero =>
      intro i lba c buf _ _
      exact ⟨c, rfl, by rw [Nat.zero_mul, splice_empty]⟩
  | succ turns ih =>
      intro i lba c buf hsel htransfer
      let c₁ : Controller :=
        { c with
          device := { c.device with
            disk := splice c.device.disk (lba * SECTOR_SIZE) SECTOR_SIZE
              (window buf (i * SECTOR_SIZE))
            transfer := .write (lba + 1) turns } }
      have hsector : c.writeData (window buf (i * SECTOR_SIZE)) = c₁ := by
        rw [writeData, send, if_pos hsel, Device.writeSector, htransfer]
      have hflush : c₁.writeCommand CMD_FLUSH = c₁ := by
        have hsel₁ : c₁.selected = true := hsel
        rw [writeCommand, send, if_pos hsel₁]
        rfl
      obtain ⟨c', hrest, hdisk⟩ := ih (i + 1) (lba + 1) c₁ buf hsel rfl
      refine ⟨c', ?_, ?_⟩
      · rw [transferSectors, hsector, hflush]
        exact hrest
      · rw [hdisk]
        show splice (splice _ (lba * SECTOR_SIZE) SECTOR_SIZE _) _ _ _ = _
        rw [Nat.succ_mul i, Nat.succ_mul lba, ← window_window, splice_append,
          Nat.succ_mul, Nat.add_comm SECTOR_SIZE]

/-! ## Commands -/

theorem selectDrive_spec (hpresent : drive.driveNumber ≠ .none)
    (hbase : drive.basePort ≠ 0) (halt : drive.altPort ≠ 0) :
    (c.selectDrive drive).selected = true ∧
      (c.selectDrive drive).device.selector % 16 = 0 ∧
      (c.selectDrive drive).device.disk = c.device.disk := by
  have hsel : (Controller.mk drive.basePort drive.altPort c.device).selected =
      true := by
    simp [selected, hbase, halt]
  rw [selectDrive, if_pos (.inl hpresent), if_neg hpresent]
  dsimp only [writeSelector, send]
  rw [if_pos hsel]
  refine ⟨hsel, ?_, rfl⟩
  dsimp only
  split <;> rfl

/-- What the drive makes of the registers, for any count and address. -/
theorem setRange_registers (hsel : c.selected = true)
    (hhead : c.device.selector % 16 = 0) (base n : Nat) (mode : Bool) :
    (c.setRange mode base n).selected = true ∧
      (c.setRange mode base n).device.disk = c.device.disk ∧
      if mode then
        (c.setRange mode base n).device.lba48 = base % 281474976710656 ∧
          (c.setRange mode base n).device.count48 = understood 65536 n
      else
        (c.setRange mode base n).device.lba28 = base % 16777216 ∧
          (c.setRange mode base n).device.count28 = understood 256 n := by
  have hsend : ∀ (d : Device) (f : Device → Device),
      ({ c with device := d } : Controller).send f =
        { c with device := f d } := fun d f => if_pos hsel
  cases mode with
  | false =>
      simp only [setRange, writeSectorCount, writeAddress, hsend,
        Bool.false_eq_true, if_false, Device.lba28, Device.count28,
        LbaAddress.value, understood]
      exact ⟨hsel, trivial, by omega, trivial⟩
  | true =>
      simp only [setRange, writeSectorCount, writeAddress, hsend,
        if_true, Device.lba48, Device.count48, LbaAddress.value, understood]
      refine ⟨hsel, trivial, by omega, ?_⟩
      split <;> split <;> omega

theorem understood_of_lt {most n : Nat} (hn₁ : 1 ≤ n) (hn₂ : n < most) :
    understood most n = n := by
  have hmod : n % most = n := Nat.mod_eq_of_lt hn₂
  rw [understood, hmod, if_neg (by omega)]

/-- The range of a command, as the drive understands it in its mode. -/
theorem setRange_spec {base n : Nat} (hsel : c.selected = true)
    (hhead : c.device.selector % 16 = 0) (hbase : base < 281474976710656)
    (hn₁ : 1 ≤ n) (hn₂ : n < 65536) {lba48 : Bool}
    (hmode : lba48 = (n / 256 % 256 != 0 || base / 16777216 != 0)) :
    (c.setRange lba48 base n).selected = true ∧
      (c.setRange lba48 base n).device.disk = c.device.disk ∧
      if lba48 then
        (c.setRange lba48 base n).device.lba48 = base ∧
          (c.setRange lba48 base n).device.count48 = n
      else
        (c.setRange lba48 base n).device.lba28 = base ∧
          (c.setRange lba48 base n).device.count28 = n := by
  obtain ⟨hsel', hdisk, hrange⟩ := setRange_registers hsel hhead base n lba48
  refine ⟨hsel', hdisk, ?_⟩
  cases lba48 with
  | false =>
      have hsmall : n / 256 % 256 = 0 ∧ base / 16777216 = 0 := by
        simpa using hmode.symm
      obtain ⟨hlba, hcount⟩ := hrange
      rw [understood_of_lt hn₁ (by omega)] at hcount
      exact ⟨hlba.trans (Nat.mod_eq_of_lt (by omega)), hcount⟩
  | true =>
      obtain ⟨hlba, hcount⟩ := hrange
      rw [understood_of_lt hn₁ hn₂] at hcount
      exact ⟨hlba.trans (Nat.mod_eq_of_lt hbase), hcount⟩

variable {sectors base n : Nat}

theorem reduce_of_lt (h : n < drive.limit) : reduce drive n = n := by
  rw [Drive.limit] at h
  rw [reduce]
  cases hlba : drive.hasLba48 with
  | false =>
      rw [hlba, if_neg Bool.false_ne_true] at h
      rw [if_neg (by omega), Nat.mod_eq_of_lt (by omega)]
  | true =>
      rw [hlba, if_pos rfl] at h
      rw [if_neg (by simp), Nat.mod_eq_of_lt h]

/-- A command whose register cannot hold the count moves what is left of the
count, and the rest is again too much for it. -/
theorem reduce_rest (h : drive.limit ≤ n) : drive.limit ≤ n - reduce drive n := by
  rw [Drive.limit] at h ⊢
  rw [reduce]
  cases hlba : drive.hasLba48 with
  | false =>
      rw [hlba, if_neg Bool.false_ne_true] at h
      rw [if_neg Bool.false_ne_true, if_pos ⟨by omega, by simp⟩]
      omega
  | true =>
      rw [hlba, if_pos rfl] at h
      rw [if_pos rfl, if_neg (by simp)]
      omega

/-- The mode a command is given in is one the drive has. -/
theorem mode_of_accepts (h : drive.Accepts base n) :
    ((n / 256 % 256 != 0 || base / 16777216 != 0) && !drive.hasLba48) =
      false := by
  cases hlba : drive.hasLba48 with
  | true => exact Bool.and_false _
  | false =>
      have hcount := h.count
      have hlow := h.low hlba
      rw [Drive.limit, hlba, if_neg Bool.false_ne_true] at hcount
      have hn : n / 256 % 256 = 0 := by omega
      have hb : base / 16777216 = 0 := by omega
      rw [hn, hb]
      rfl

/-- The drive once it has got its command. -/
theorem commanded (hs : drive.Sound sectors) (h : drive.Accepts base n)
    (hn : 1 ≤ n) (hfits : base + n ≤ sectors) {lba48 : Bool}
    (hmode : lba48 = (n / 256 % 256 != 0 || base / 16777216 != 0)) (write : Bool) :
    ∃ c', ((c.selectDrive drive).setRange lba48 base n).writeCommand
        (if write then
          if lba48 then CMD_WRITE_SEC_EXT_RETRY else CMD_WRITE_SEC_RETRY
        else if lba48 then CMD_READ_SEC_EXT_RETRY else CMD_READ_SEC_RETRY) =
          c' ∧ c'.selected = true ∧ c'.device.disk = c.device.disk ∧
      c'.device.transfer = if write then .write base n else .read base n := by
  have hcount : n < 65536 := by
    have hlt := h.count
    rw [Drive.limit] at hlt
    split at hlt <;> omega
  have hbase : base < 281474976710656 := by
    have hsmall := hs.small
    split at hsmall <;> omega
  obtain ⟨hsel, hhead, hdisk⟩ :=
    selectDrive_spec (c := c) hs.present hs.basePort hs.altPort
  obtain ⟨hsel', hdisk', hrange⟩ :=
    setRange_spec hsel hhead hbase hn hcount hmode
  generalize (c.selectDrive drive).setRange lba48 base n = c' at hsel' hdisk' hrange
  refine ⟨_, rfl, ?_⟩
  rw [writeCommand, send, if_pos hsel']
  cases lba48 <;> cases write
  all_goals
    refine ⟨hsel', hdisk'.trans hdisk, ?_⟩
    obtain ⟨hlba, hnum⟩ := hrange
  · exact congr (congrArg Transfer.read hlba) hnum
  · exact congr (congrArg Transfer.write hlba) hnum
  · exact congr (congrArg Transfer.read hlba) hnum
  · exact congr (congrArg Transfer.write hlba) hnum

theorem runCommand_read (c : Controller) (hs : drive.Sound sectors)
    (h : drive.Accepts base n) (hn : 1 ≤ n) (hfits : base + n ≤ sectors)
    (buf : Bytes) :
    ∃ c', runCommand c drive .read base buf n =
        ((n : Int), splice buf 0 (n * SECTOR_SIZE)
          (window c.device.disk (base * SECTOR_SIZE)), c') ∧
      c'.device.disk = c.device.disk := by
  obtain ⟨c₁, hc₁, hsel, hdisk, htransfer⟩ :=
    commanded (c := c) hs h hn hfits rfl false
  obtain ⟨c₂, hmoved, hdisk₂⟩ :=
    transferSectors_read n 0 base c₁ buf hsel htransfer
  refine ⟨c₂, ?_, hdisk₂.trans hdisk⟩
  rw [runCommand, reduce_of_lt h.count]
  dsimp only
  rw [mode_of_accepts h, if_neg Bool.false_ne_true]
  rw [if_neg Bool.false_ne_true] at hc₁
  rw [hc₁, hmoved, Nat.zero_mul, hdisk]

theorem runCommand_write (c : Controller) (hs : drive.Sound sectors)
    (h : drive.Accepts base n) (hn : 1 ≤ n) (hfits : base + n ≤ sectors)
    (buf : Bytes) :
    ∃ c', runCommand c drive .write base buf n = ((n : Int), buf, c') ∧
      c'.device.disk =
        splice c.device.disk (base * SECTOR_SIZE) (n * SECTOR_SIZE) buf := by
  obtain ⟨c₁, hc₁, hsel, hdisk, htransfer⟩ :=
    commanded (c := c) hs h hn hfits rfl true
  obtain ⟨c₂, hmoved, hdisk₂⟩ :=
    transferSectors_write n 0 base c₁ buf hsel htransfer
  refine ⟨c₂, ?_, ?_⟩
  · rw [runCommand, reduce_of_lt h.count]
    dsimp only
    rw [mode_of_accepts h, if_neg Bool.false_ne_true]
    rw [if_pos rfl] at hc₁
    rw [hc₁, hmoved]
  · rw [hdisk₂, hdisk, Nat.zero_mul, window_zero]

/-- What is answered for a command that is not carried out in full. -/
theorem runCommand_refused (h : ¬ drive.Accepts base n) (cmd : Command)
    (buf : Bytes) :
    (runCommand c drive cmd base buf n).1 = -1 ∨
      drive.limit ≤ n ∧
        (runCommand c drive cmd base buf n).1 = (reduce drive n : Int) := by
  rw [runCommand]
  dsimp only
  split
  next => exact .inl rfl
  next hmode =>
    refine .inr ⟨Nat.le_of_not_lt fun hlt => h ⟨hlt, fun hlba => ?_⟩, rfl⟩
    rw [hlba] at hmode
    simp only [Bool.not_false, Bool.and_true, Bool.or_eq_true, bne_iff_ne,
      ne_eq, not_or, Decidable.not_not] at hmode
    omega

end Controller

/-! ## Requests of the block layer -/

variable {base length n : Nat} {buf tmp : Bytes}

instance (drive : Drive) (base n : Nat) : Decidable (drive.Accepts base n) :=
  decidable_of_iff
    (n < drive.limit ∧ (drive.hasLba48 = false → base < 16777216))
    ⟨fun ⟨h₁, h₂⟩ => ⟨h₁, h₂⟩, fun ⟨h₁, h₂⟩ => ⟨h₁, h₂⟩⟩

/-- The first block that a request covers from its start on. -/
def firstBlock (base : Nat) : Nat := (base + 511) / 512

/-- What a request covers in front of that. -/
def headBytes (base length : Nat) : Nat :=
  min length (512 * firstBlock base - base)

def rest (base length : Nat) : Nat := length - headBytes base length

/-- The whole blocks that are moved by a command of their own; a last block
goes through `tmp` even if it is covered. -/
def wholeBlocks (base length : Nat) : Nat :=
  if 512 < rest base length then rest base length / 512 else 0

theorem whole_le (base length : Nat) :
    512 * wholeBlocks base length ≤ rest base length := by
  rw [wholeBlocks]
  split <;> omega

theorem wholeBlocks_fits {sectors : Nat} (h : 512 < rest base length)
    (hfits : base + length ≤ sectors * 512) :
    firstBlock base + wholeBlocks base length ≤ sectors := by
  rw [wholeBlocks, if_pos h]
  rw [rest, headBytes] at h ⊢
  rw [firstBlock] at h ⊢
  omega

/-- Each command that a request comes down to is accepted. -/
structure Drive.Carries (drive : Drive) (base length : Nat) : Prop where
  head : base % 512 ≠ 0 → drive.Accepts (base / 512) 1
  body : 512 < rest base length →
    drive.Accepts (firstBlock base) (wholeBlocks base length)
  tail : rest base length ≠ 512 * wholeBlocks base length →
    drive.Accepts (firstBlock base + wholeBlocks base length) 1

/-- The cursor behind the head. -/
def afterHead (base length : Nat) : Cursor :=
  ⟨firstBlock base, headBytes base length, rest base length, true⟩

theorem start_eq (h : base % 512 = 0) :
    drive.blockDevice.start base length = afterHead base length := by
  have hfirst : base / 512 = firstBlock base := by
    rw [firstBlock]
    omega
  have hhead : 0 = headBytes base length := by
    rw [headBytes, ← hfirst]
    omega
  have hrest : length = rest base length := by
    rw [rest]
    omega
  rw [afterHead, ← hfirst, ← hhead, ← hrest]
  rfl

theorem passHead_eq (h : base % 512 ≠ 0) (hlen : length < 4294967296)
    (hbase : base < 18446744073709551616) :
    BlockDevice.passHead (drive.blockDevice.start base length)
      (drive.blockDevice.headLen base length) true = afterHead base length := by
  have hfirst : u64 ((base / 512 : Nat) + 1) = firstBlock base := by
    simp only [u64, firstBlock]
    omega
  have hhead : drive.blockDevice.headLen base length =
      headBytes base length := by
    have hmax : u32 (drive.blockDevice.blockSize -
        (base % drive.blockDevice.blockSize : Nat)) =
        512 * firstBlock base - base := by
      show u32 ((512 : Nat) - (base % 512 : Nat)) = _
      simp only [u32, firstBlock]
      omega
    rw [BlockDevice.headLen, hmax, headBytes]
    split <;> omega
  have hpos : u32 ((0 : Nat) + headBytes base length) =
      headBytes base length := by
    simp only [u32, headBytes]
    omega
  have hrest : u32 (length - headBytes base length) = rest base length := by
    simp only [u32, rest, headBytes]
    omega
  rw [hhead, afterHead, ← hfirst, ← hrest]
  exact congrArg (fun p => Cursor.mk _ p _ true) hpos

theorem readBlock_eq (hpresent : drive.driveNumber ≠ .none) (c : Controller)
    (base : Nat) (buf : Bytes) (n : Nat) :
    drive.blockDevice.readBlock c base buf n =
      c.runCommand drive .read base buf n := if_neg hpresent

theorem writeBlock_eq (hpresent : drive.driveNumber ≠ .none) (c : Controller)
    (base : Nat) (buf : Bytes) (n : Nat) :
    drive.blockDevice.writeBlock c base buf n =
      ((c.runCommand drive .write base buf n).1,
        (c.runCommand drive .write base buf n).2.2) := if_neg hpresent

/-! ### What the drive does not carry out -/

theorem readBlock_refused (hpresent : drive.driveNumber ≠ .none)
    (h : ¬ drive.Accepts base n) (c : Controller) (buf : Bytes) :
    (drive.blockDevice.readBlock c base buf n).1 = -1 ∨ drive.limit ≤ n ∧
      (drive.blockDevice.readBlock c base buf n).1 =
        (Controller.reduce drive n : Int) := by
  rw [readBlock_eq hpresent]
  exact Controller.runCommand_refused h .read buf

theorem writeBlock_refused (hpresent : drive.driveNumber ≠ .none)
    (h : ¬ drive.Accepts base n) (c : Controller) (buf : Bytes) :
    (drive.blockDevice.writeBlock c base buf n).1 = -1 ∨ drive.limit ≤ n ∧
      (drive.blockDevice.writeBlock c base buf n).1 =
        (Controller.reduce drive n : Int) := by
  rw [writeBlock_eq hpresent]
  exact Controller.runCommand_refused h .write buf

/-- A single block is refused with `-1`. -/
theorem single_refused {t : Int} (ht : t = -1 ∨ drive.limit ≤ 1 ∧
    t = (Controller.reduce drive 1 : Int)) : t = -1 := by
  rcases ht with hno | ⟨hlt, _⟩
  · exact hno
  · rw [Drive.limit] at hlt
    split at hlt <;> omega

/-- What is left to do is more than one command can, or too far up. -/
structure Stuck (drive : Drive) (c : Cursor) : Prop where
  remain : 512 < c.remain
  short : c.remain < 4294967296
  refused : ¬ drive.Accepts c.baseBlock (c.remain / 512)

theorem Stuck.passBody {c : Cursor} (h : Stuck drive c) (hok : c.success = true)
    {t : Int}
    (ht : t = -1 ∨ drive.limit ≤ c.remain / 512 ∧
      t = (Controller.reduce drive (c.remain / 512) : Int)) :
    (drive.blockDevice.passBody c t).success = false ∨
      (drive.blockDevice.passBody c t).success = true ∧
      Stuck drive (drive.blockDevice.passBody c t) := by
  rcases ht with rfl | ⟨hlimit, rfl⟩
  · refine .inl ?_
    rw [BlockDevice.passBody, if_neg (by simp)]
  · have hremain := h.remain
    have hshort := h.short
    have hrest := Controller.reduce_rest hlimit
    have hpos : 256 ≤ drive.limit := by
      rw [Drive.limit]
      split <;> omega
    generalize Controller.reduce drive (c.remain / 512) = t at hrest
    have hcond : (c.success && (t : Int) != -1) = true := by
      have hne : ((t : Int) != -1) = true := by simp
      rw [hok, hne]
      rfl
    have hleft : u32 (c.remain - (t : Int) * drive.blockDevice.blockSize) =
        c.remain - t * 512 := by
      show u32 (c.remain - (t : Int) * (512 : Nat)) = _
      simp only [u32]
      omega
    rw [BlockDevice.passBody, if_pos hcond, hleft]
    refine .inr ⟨rfl, ?_, ?_, fun haccept => ?_⟩
    · show 512 < c.remain - t * 512
      omega
    · show c.remain - t * 512 < 4294967296
      omega
    · have hcount : (c.remain - t * 512) / 512 < drive.limit := haccept.count
      omega

theorem stuck_afterHead (hlen : length < 4294967296)
    (h : 512 < rest base length)
    (hno : ¬ drive.Accepts (firstBlock base) (wholeBlocks base length)) :
    Stuck drive (afterHead base length) := by
  rw [wholeBlocks, if_pos h] at hno
  exact ⟨h, Nat.lt_of_le_of_lt (Nat.sub_le _ _) hlen, hno⟩

theorem Stuck.cond {k : Cursor} (h : Stuck drive k) (hok : k.success = true) :
    (decide (k.remain > drive.blockDevice.blockSize) && k.success) = true := by
  rw [hok, Bool.and_true, decide_eq_true_iff]
  exact h.remain

theorem failed_cond {k : Cursor} (hfail : k.success = false) :
    ¬ (decide (k.remain > drive.blockDevice.blockSize) && k.success) = true := by
  rw [hfail, Bool.and_false]
  exact Bool.false_ne_true

/-- The loop never gets through. -/
theorem readBody_stuck (hpresent : drive.driveNumber ≠ .none) :
    ∀ (fuel : Nat) (k : Cursor) (c : Controller) (buf : Bytes),
      k.success = false ∨ k.success = true ∧ Stuck drive k →
      ∀ k' c' buf',
        drive.blockDevice.readBody fuel k c buf = some (k', c', buf') →
        k'.success = false := by
  intro fuel
  induction fuel with
  | zero => intro k c buf _ k' c' buf' hrun; cases hrun
  | succ fuel ih =>
      intro k c buf hk k' c' buf' hrun
      rw [BlockDevice.readBody] at hrun
      rcases hk with hfail | ⟨hok, hstuck⟩
      · rw [if_neg (failed_cond hfail)] at hrun
        cases hrun
        exact hfail
      · rw [if_pos (hstuck.cond hok)] at hrun
        exact ih _ _ _ (hstuck.passBody hok
          (readBlock_refused hpresent hstuck.refused c _)) k' c' buf' hrun

theorem writeBody_stuck (hpresent : drive.driveNumber ≠ .none) (buf : Bytes) :
    ∀ (fuel : Nat) (k : Cursor) (c : Controller),
      k.success = false ∨ k.success = true ∧ Stuck drive k →
      ∀ k' c', drive.blockDevice.writeBody buf fuel k c = some (k', c') →
        k'.success = false := by
  intro fuel
  induction fuel with
  | zero => intro k c _ k' c' hrun; cases hrun
  | succ fuel ih =>
      intro k c hk k' c' hrun
      rw [BlockDevice.writeBody] at hrun
      rcases hk with hfail | ⟨hok, hstuck⟩
      · rw [if_neg (failed_cond hfail)] at hrun
        cases hrun
        exact hfail
      · rw [if_pos (hstuck.cond hok)] at hrun
        exact ih _ _ (hstuck.passBody hok
          (writeBlock_refused hpresent hstuck.refused c _)) k' c' hrun

/-! ### What it does -/

/-- The drive as it would be if it accepted everything. -/
def Drive.whole (drive : Drive) : BlockDevice Controller where
  blockSize := SECTOR_SIZE
  readBlock c base buf n :=
    if drive.Accepts base n then drive.blockDevice.readBlock c base buf n
    else
      (n, splice buf 0 (n * SECTOR_SIZE)
        (window c.device.disk (base * SECTOR_SIZE)), c)
  writeBlock c base buf n :=
    if drive.Accepts base n then drive.blockDevice.writeBlock c base buf n
    else
      (n, { c with
        device := { c.device with
          disk := splice c.device.disk (base * SECTOR_SIZE) (n * SECTOR_SIZE)
            buf } })

/-- What is on the disk. -/
def Controller.disk (c : Controller) : Bytes := c.device.disk

theorem Drive.whole_transfers {sectors : Nat} (hs : drive.Sound sectors) :
    BlockDevice.Transfers drive.whole Controller.disk sectors where
  blockSize_pos := Nat.zero_lt_succ _
  blockSize_lt := by
    show 512 < 4294967296
    decide
  size_lt := by
    have hsmall := hs.small
    show sectors * 512 < _
    split at hsmall <;> omega
  read c base buf n hn hfits := by
    by_cases h : drive.Accepts base n
    · obtain ⟨c', hread, hdisk⟩ := c.runCommand_read hs h hn hfits buf
      refine ⟨n, c', hn, Nat.le_refl n, ?_, hdisk⟩
      exact (if_pos h).trans ((readBlock_eq hs.present ..).trans hread)
    · exact ⟨n, c, hn, Nat.le_refl n, if_neg h, rfl⟩
  write c base buf n hn hfits := by
    by_cases h : drive.Accepts base n
    · obtain ⟨c', hwrite, hdisk⟩ := c.runCommand_write hs h hn hfits buf
      refine ⟨n, c', hn, Nat.le_refl n, ?_, hdisk⟩
      refine (if_pos h).trans ((writeBlock_eq hs.present ..).trans ?_)
      rw [hwrite]
    · exact ⟨n, _, hn, Nat.le_refl n, if_neg h, rfl⟩

/-- The cursor behind the whole blocks. -/
def afterBody (base length : Nat) : Cursor :=
  ⟨firstBlock base + wholeBlocks base length,
    headBytes base length + 512 * wholeBlocks base length,
    rest base length - 512 * wholeBlocks base length, true⟩

theorem afterBody_eq_afterHead (h : ¬ 512 < rest base length) :
    afterBody base length = afterHead base length := by
  rw [afterBody, afterHead, wholeBlocks, if_neg h]
  rfl

theorem passBody_afterHead (d : BlockDevice Controller)
    (hd : d.blockSize = 512) (h : 512 < rest base length)
    (hlen : length < 4294967296) (hbase : base < 9223372036854775808) :
    d.passBody (afterHead base length) (wholeBlocks base length : Nat) =
      afterBody base length := by
  have hsum : headBytes base length + rest base length = length := by
    rw [rest, headBytes]
    omega
  have hwhole : wholeBlocks base length = rest base length / 512 := if_pos h
  have hfirst : firstBlock base ≤ base + 1 := by
    rw [firstBlock]
    omega
  have hcond : ((afterHead base length).success &&
      ((wholeBlocks base length : Nat) : Int) != -1) = true := by
    have hne : (((wholeBlocks base length : Nat) : Int) != -1) = true := by
      simp
    rw [hne]
    rfl
  rw [BlockDevice.passBody, if_pos hcond, hd, afterBody]
  generalize wholeBlocks base length = n at hwhole
  have hblock : u64 ((firstBlock base : Nat) + (n : Int)) =
      firstBlock base + n := by
    simp only [u64]
    omega
  have hpos : u32 ((headBytes base length : Nat) + (n : Int) * (512 : Nat)) =
      headBytes base length + 512 * n := by
    simp only [u32]
    omega
  have hrest : u32 ((rest base length : Nat) - (n : Int) * (512 : Nat)) =
      rest base length - 512 * n := by
    simp only [u32]
    omega
  rw [← hblock, ← hpos, ← hrest]
  rfl

/-- Two devices that answer the calls of a head alike. -/
theorem readHead_congr {d d' : BlockDevice Controller} (hd : d.blockSize = 512)
    (hd' : d'.blockSize = 512)
    (h : base % 512 ≠ 0 → d.readBlock c (base / 512) tmp 1 =
      d'.readBlock c (base / 512) tmp 1) :
    d.readHead c base buf length tmp = d'.readHead c base buf length tmp := by
  obtain ⟨_, readBlock, _⟩ := d
  obtain ⟨_, readBlock', _⟩ := d'
  subst hd hd'
  simp only [BlockDevice.readHead, BlockDevice.start, BlockDevice.headLen]
  by_cases hskip : base % 512 > 0
  · have hcall : readBlock c (base / 512) tmp 1 =
        readBlock' c (base / 512) tmp 1 := h (by omega)
    rw [if_pos hskip, if_pos hskip, hcall]
  · rw [if_neg hskip, if_neg hskip]

theorem readHead_cursor :
    (drive.blockDevice.readHead c base buf length tmp).1 =
      if base % 512 = 0 then drive.blockDevice.start base length
      else BlockDevice.passHead (drive.blockDevice.start base length)
        (drive.blockDevice.headLen base length)
        ((drive.blockDevice.readBlock c (base / 512) tmp 1).1 != -1) := by
  by_cases hskip : base % 512 = 0
  · have hno : ¬ base % drive.blockDevice.blockSize > 0 :=
      Nat.not_lt.2 (Nat.le_of_eq hskip)
    rw [if_pos hskip, BlockDevice.readHead]
    rw [if_neg hno]
  · have hyes : base % drive.blockDevice.blockSize > 0 := Nat.pos_of_ne_zero hskip
    rw [if_neg hskip, BlockDevice.readHead]
    rw [if_pos hyes]
    rfl

theorem readBody_done {d : BlockDevice Controller} {k : Cursor}
    (h : k.remain ≤ d.blockSize) (fuel : Nat) :
    d.readBody (fuel + 1) k c buf = some (k, c, buf) := by
  have hcond : ¬ (decide (k.remain > d.blockSize) && k.success) = true := by
    rw [decide_eq_false (Nat.not_lt.2 h)]
    exact Bool.false_ne_true
  rw [BlockDevice.readBody, if_neg hcond]

theorem readBody_once {d : BlockDevice Controller} {k : Cursor} (buf : Bytes)
    (h : d.blockSize < k.remain) (hok : k.success = true) {t : Int} {out : Bytes}
    {c' : Controller}
    (hcall : d.readBlock c k.baseBlock (window buf k.position)
      (k.remain / d.blockSize) = (t, out, c'))
    (hrest : (d.passBody k t).remain ≤ d.blockSize) (fuel : Nat) :
    d.readBody (fuel + 2) k c buf =
      some (d.passBody k t, c', graft buf k.position out) := by
  have hcond : (decide (k.remain > d.blockSize) && k.success) = true := by
    rw [decide_eq_true h, hok]
    rfl
  rw [BlockDevice.readBody, if_pos hcond]
  simp only [hcall]
  exact readBody_done hrest fuel

theorem afterBody_remain (h : 512 < rest base length) :
    (afterBody base length).remain ≤ 512 := by
  have hwhole : wholeBlocks base length = rest base length / 512 := if_pos h
  show rest base length - 512 * wholeBlocks base length ≤ 512
  omega

/-- A device that transfers the whole blocks is through with the body. -/
theorem readBody_afterHead {d : BlockDevice Controller} (hd : d.blockSize = 512)
    (h : 512 < rest base length) (hlen : length < 4294967296)
    (hbase : base < 9223372036854775808) {out : Bytes} {c' : Controller}
    (hcall : d.readBlock c (firstBlock base) (window buf (headBytes base length))
      (wholeBlocks base length) = ((wholeBlocks base length : Int), out, c'))
    (fuel : Nat) :
    d.readBody (fuel + 2) (afterHead base length) c buf =
      some (afterBody base length, c',
        graft buf (headBytes base length) out) := by
  have hwhole : wholeBlocks base length = rest base length / d.blockSize := by
    rw [hd]
    exact if_pos h
  have hnext := passBody_afterHead d hd h hlen hbase
  have hrest := afterBody_remain h
  rw [hwhole] at hcall hnext
  have hbody := readBody_once (k := afterHead base length) buf (hd ▸ h) rfl
    hcall (by rwa [hnext, hd]) fuel
  rw [hnext] at hbody
  exact hbody

theorem readBody_accepted {sectors : Nat} (hs : drive.Sound sectors)
    (h : 512 < rest base length →
      drive.Accepts (firstBlock base) (wholeBlocks base length))
    (hlen : length < 4294967296) (hfits : base + length ≤ sectors * 512)
    (c : Controller) (buf : Bytes) (fuel : Nat) :
    ∃ c' buf',
      drive.blockDevice.readBody (fuel + 2) (afterHead base length) c buf =
          some (afterBody base length, c', buf') ∧
      drive.whole.readBody (fuel + 2) (afterHead base length) c buf =
          some (afterBody base length, c', buf') := by
  by_cases hgo : 512 < rest base length
  · have hbase := hs.lt hfits
    have hwhole : wholeBlocks base length = rest base length / 512 := if_pos hgo
    obtain ⟨c', hread, _⟩ := c.runCommand_read hs (h hgo) (by omega)
      (wholeBlocks_fits hgo hfits) (window buf (headBytes base length))
    have hreal := (readBlock_eq hs.present ..).trans hread
    exact ⟨c', _, readBody_afterHead rfl hgo hlen hbase hreal fuel,
      readBody_afterHead rfl hgo hlen hbase ((if_pos (h hgo)).trans hreal) fuel⟩
  · rw [afterBody_eq_afterHead hgo]
    exact ⟨c, buf, readBody_done (d := drive.blockDevice)
        (k := afterHead base length) (Nat.le_of_not_lt hgo) _,
      readBody_done (d := drive.whole) (k := afterHead base length)
        (Nat.le_of_not_lt hgo) _⟩

/-- Less fuel is not enough for anything else. -/
theorem readBody_cursor {sectors : Nat} (hs : drive.Sound sectors)
    (h : 512 < rest base length →
      drive.Accepts (firstBlock base) (wholeBlocks base length))
    (hlen : length < 4294967296) (hfits : base + length ≤ sectors * 512)
    {fuel : Nat} {k : Cursor} {c' : Controller} {buf' : Bytes}
    (hrun : drive.blockDevice.readBody fuel (afterHead base length) c buf =
      some (k, c', buf')) : k = afterBody base length := by
  match fuel with
  | 0 => cases hrun
  | fuel + 2 =>
      obtain ⟨_, _, hbody, -⟩ := readBody_accepted hs h hlen hfits c buf fuel
      rw [hbody] at hrun
      cases hrun
      rfl
  | 1 =>
      rw [BlockDevice.readBody] at hrun
      split at hrun
      · cases hrun
      next hno =>
        cases hrun
        refine (afterBody_eq_afterHead fun hgo => hno ?_).symm
        show (decide (512 < rest base length) && true) = true
        rw [decide_eq_true hgo]
        rfl

theorem readTail_congr {d d' : BlockDevice Controller} {k : Cursor}
    (h : k.remain ≠ 0 → d.readBlock c k.baseBlock tmp 1 =
      d'.readBlock c k.baseBlock tmp 1) :
    d.readTail k c buf tmp = d'.readTail k c buf tmp := by
  rw [BlockDevice.readTail, BlockDevice.readTail]
  by_cases hrem : k.remain = 0
  · have hcond : ¬ (decide (k.remain > 0) && k.success) = true := by
      rw [hrem]
      exact Bool.false_ne_true
    rw [if_neg hcond, if_neg hcond]
  · rw [h hrem]

theorem readTail_refused (hpresent : drive.driveNumber ≠ .none) {k : Cursor}
    (hrem : k.remain ≠ 0) (h : ¬ drive.Accepts k.baseBlock 1) :
    (drive.blockDevice.readTail k c buf tmp).1 = false := by
  have hrefused := single_refused (readBlock_refused hpresent h c tmp)
  rw [BlockDevice.readTail]
  split
  · show ((drive.blockDevice.readBlock c k.baseBlock tmp 1).1 != -1) = false
    rw [hrefused]
    rfl
  next hno =>
    show k.success = false
    rw [decide_eq_true (Nat.pos_of_ne_zero hrem), Bool.true_and] at hno
    exact Bool.eq_false_iff.2 hno

theorem readTail_failed {d : BlockDevice Controller} {k : Cursor}
    (h : k.success = false) : (d.readTail k c buf tmp).1 = false := by
  have hcond : ¬ (decide (k.remain > 0) && k.success) = true := by
    rw [h, Bool.and_false]
    exact Bool.false_ne_true
  rw [BlockDevice.readTail, if_neg hcond]
  exact h

/-- `read` with its parts. -/
theorem read_of_body {d : BlockDevice Controller} {fuel : Nat} {k : Cursor}
    {c' : Controller} {buf' : Bytes}
    (h : d.readBody fuel (d.readHead c base buf length tmp).1
      (d.readHead c base buf length tmp).2.1
      (d.readHead c base buf length tmp).2.2.1 = some (k, c', buf')) :
    d.read fuel c base buf length tmp =
      some (if (d.readTail k c' buf'
            (d.readHead c base buf length tmp).2.2.2).1 then i32 length else -1,
        (d.readTail k c' buf' (d.readHead c base buf length tmp).2.2.2).2.2,
        (d.readTail k c' buf' (d.readHead c base buf length tmp).2.2.2).2.1) := by
  simp only [BlockDevice.read, h]

theorem body_of_read {d : BlockDevice Controller} {fuel : Nat} {answer : Int}
    {buf' : Bytes} {c' : Controller}
    (h : d.read fuel c base buf length tmp = some (answer, buf', c'))
    (hans : answer ≠ -1) :
    ∃ k c₁ buf₁, d.readBody fuel (d.readHead c base buf length tmp).1
        (d.readHead c base buf length tmp).2.1
        (d.readHead c base buf length tmp).2.2.1 = some (k, c₁, buf₁) ∧
      (d.readTail k c₁ buf₁ (d.readHead c base buf length tmp).2.2.2).1 =
        true := by
  cases hbody : d.readBody fuel (d.readHead c base buf length tmp).1
    (d.readHead c base buf length tmp).2.1
    (d.readHead c base buf length tmp).2.2.1 with
  | none =>
      simp only [BlockDevice.read, hbody] at h
      cases h
  | some out =>
      obtain ⟨k, c₁, buf₁⟩ := out
      refine ⟨k, c₁, buf₁, rfl, ?_⟩
      rw [read_of_body hbody] at h
      cases htail : (d.readTail k c₁ buf₁
        (d.readHead c base buf length tmp).2.2.2).1 with
      | true => rfl
      | false =>
          rw [htail] at h
          cases h
          exact absurd rfl hans

theorem readHead_accepted {sectors : Nat} (hs : drive.Sound sectors)
    (hlen : length < 4294967296) (hfits : base + length ≤ sectors * 512)
    (h : base % 512 ≠ 0 → drive.Accepts (base / 512) 1) (c : Controller)
    (buf tmp : Bytes) :
    (drive.blockDevice.readHead c base buf length tmp).1 =
      afterHead base length := by
  have hbase := hs.lt hfits
  rw [readHead_cursor]
  split
  next hskip => exact start_eq hskip
  next hskip =>
    obtain ⟨c', hread, -⟩ := c.runCommand_read hs (h hskip) (Nat.le_refl 1)
      (by omega : base / 512 + 1 ≤ sectors) tmp
    rw [readBlock_eq hs.present, hread]
    exact passHead_eq hskip hlen (by omega)

theorem Drive.Carries.short (h : drive.Carries base length) :
    length < 2147483648 := by
  rcases Nat.lt_or_ge 512 (rest base length) with hgo | hgo
  · have hcount := (h.body hgo).count
    have hwhole : wholeBlocks base length = rest base length / 512 := if_pos hgo
    rw [Drive.limit, hwhole] at hcount
    rw [rest, headBytes, firstBlock] at hcount
    split at hcount <;> omega
  · rw [rest, headBytes, firstBlock] at hgo
    omega

/-- A request is read exactly if each of its commands is accepted. -/
theorem read_iff {sectors : Nat} (hs : drive.Sound sectors)
    (hlen : length < 4294967296) (hfits : base + length ≤ sectors * 512) :
    (∃ fuel c', drive.blockDevice.read fuel c base buf length tmp =
        some ((length : Int), splice buf 0 length
          (window c.device.disk base), c') ∧
      c'.device.disk = c.device.disk) ↔ drive.Carries base length := by
  constructor
  · rintro ⟨fuel, c', hread, -⟩
    obtain ⟨k, c₁, buf₁, hbody, htail⟩ := body_of_read hread (by omega)
    have hok : k.success = true := by
      by_contra hfail
      rw [readTail_failed (Bool.eq_false_iff.2 hfail)] at htail
      cases htail
    have hhead : base % 512 ≠ 0 → drive.Accepts (base / 512) 1 := by
      intro hskip
      by_contra hno
      have hrefused :=
        single_refused (readBlock_refused hs.present hno c tmp)
      have hfail : (drive.blockDevice.readHead c base buf length
          tmp).1.success = false := by
        rw [readHead_cursor, if_neg hskip, hrefused]
        rfl
      rw [readBody_stuck hs.present fuel _ _ _ (.inl hfail) _ _ _ hbody] at hok
      cases hok
    rw [readHead_accepted hs hlen hfits hhead c buf tmp] at hbody
    have hblocks : 512 < rest base length →
        drive.Accepts (firstBlock base) (wholeBlocks base length) := by
      intro hgo
      by_contra hno
      rw [readBody_stuck hs.present fuel _ _ _
        (.inr ⟨rfl, stuck_afterHead hlen hgo hno⟩) _ _ _ hbody] at hok
      cases hok
    refine ⟨hhead, hblocks, fun hrem => ?_⟩
    by_contra hno
    have hle := whole_le base length
    rw [readBody_cursor hs hblocks hlen hfits hbody, readTail_refused
      hs.present (Nat.sub_ne_zero_of_lt (by omega)) hno] at htail
    cases htail
  · intro h
    obtain ⟨c', hwhole, hdisk⟩ := BlockDevice.read_spec c buf tmp
      (Drive.whole_transfers hs) h.short (by omega : length < length + 2) hfits
    refine ⟨length + 2, c', ?_, hdisk⟩
    refine Eq.trans ?_ hwhole
    have hhead : drive.blockDevice.readHead c base buf length tmp =
        drive.whole.readHead c base buf length tmp :=
      readHead_congr rfl rfl fun hskip => (if_pos (h.head hskip)).symm
    have hcursor := readHead_accepted hs hlen hfits h.head c buf tmp
    obtain ⟨c₁, buf₁, hreal, hbody⟩ := readBody_accepted hs h.body hlen hfits
      (drive.blockDevice.readHead c base buf length tmp).2.1
      (drive.blockDevice.readHead c base buf length tmp).2.2.1 length
    rw [← hcursor] at hreal hbody
    have htail : ∀ tmp, drive.blockDevice.readTail (afterBody base length) c₁
        buf₁ tmp = drive.whole.readTail (afterBody base length) c₁ buf₁ tmp :=
      fun tmp => readTail_congr fun hrem =>
        (if_pos (h.tail fun heq =>
          hrem (Nat.sub_eq_zero_of_le (Nat.le_of_eq heq)))).symm
    rw [read_of_body hreal, htail]
    rw [hhead] at hbody ⊢
    rw [read_of_body hbody]

/-! ### Writing -/

theorem writeHead_congr {d d' : BlockDevice Controller} (hd : d.blockSize = 512)
    (hd' : d'.blockSize = 512)
    (hr : base % 512 ≠ 0 → ∀ c tmp, d.readBlock c (base / 512) tmp 1 =
      d'.readBlock c (base / 512) tmp 1)
    (hw : base % 512 ≠ 0 → ∀ c tmp, d.writeBlock c (base / 512) tmp 1 =
      d'.writeBlock c (base / 512) tmp 1) :
    d.writeHead c base buf length tmp = d'.writeHead c base buf length tmp := by
  obtain ⟨_, readBlock, writeBlock⟩ := d
  obtain ⟨_, readBlock', writeBlock'⟩ := d'
  subst hd hd'
  simp only [BlockDevice.writeHead, BlockDevice.start, BlockDevice.headLen]
  by_cases hskip : base % 512 > 0
  · have hread : ∀ c tmp, readBlock c (base / 512) tmp 1 =
        readBlock' c (base / 512) tmp 1 := hr (by omega)
    have hwrite : ∀ c tmp, writeBlock c (base / 512) tmp 1 =
        writeBlock' c (base / 512) tmp 1 := hw (by omega)
    rw [if_pos hskip, if_pos hskip, hread, hwrite]
  · rw [if_neg hskip, if_neg hskip]

/-- The cursor behind the head of a write, which reads its block and writes
it. -/
theorem writeHead_cursor (drive : Drive) (c : Controller) (base length : Nat)
    (buf tmp : Bytes) : ∃ c₁ tmp₁,
    (drive.blockDevice.writeHead c base buf length tmp).1 =
      if base % 512 = 0 then drive.blockDevice.start base length
      else BlockDevice.passHead (drive.blockDevice.start base length)
        (drive.blockDevice.headLen base length)
        ((drive.blockDevice.readBlock c (base / 512) tmp 1).1 != -1 &&
          (drive.blockDevice.writeBlock c₁ (base / 512) tmp₁ 1).1 != -1) := by
  by_cases hskip : base % 512 = 0
  · have hno : ¬ base % drive.blockDevice.blockSize > 0 :=
      Nat.not_lt.2 (Nat.le_of_eq hskip)
    refine ⟨c, tmp, ?_⟩
    rw [if_pos hskip, BlockDevice.writeHead]
    rw [if_neg hno]
  · have hyes : base % drive.blockDevice.blockSize > 0 := Nat.pos_of_ne_zero hskip
    refine ⟨(drive.blockDevice.readBlock c (base / 512) tmp 1).2.2,
      splice (drive.blockDevice.readBlock c (base / 512) tmp 1).2.1 (base % 512)
        (drive.blockDevice.headLen base length) (window buf 0), ?_⟩
    rw [if_neg hskip, BlockDevice.writeHead]
    rw [if_pos hyes]
    rfl

theorem writeBlock_single {sectors : Nat} (hs : drive.Sound sectors)
    (h : drive.Accepts base 1) (hin : base + 1 ≤ sectors) (c : Controller)
    (buf : Bytes) : (drive.blockDevice.writeBlock c base buf 1).1 = 1 := by
  obtain ⟨c', hwrite, -⟩ := c.runCommand_write hs h (Nat.le_refl 1) hin buf
  rw [writeBlock_eq hs.present, hwrite]
  rfl

theorem writeHead_accepted {sectors : Nat} (hs : drive.Sound sectors)
    (hlen : length < 4294967296) (hfits : base + length ≤ sectors * 512)
    (h : base % 512 ≠ 0 → drive.Accepts (base / 512) 1) (c : Controller)
    (buf tmp : Bytes) :
    (drive.blockDevice.writeHead c base buf length tmp).1 =
      afterHead base length := by
  have hbase := hs.lt hfits
  obtain ⟨c₁, tmp₁, hcursor⟩ := writeHead_cursor drive c base length buf tmp
  rw [hcursor]
  split
  next hskip => exact start_eq hskip
  next hskip =>
    have hin : base / 512 + 1 ≤ sectors := by omega
    obtain ⟨c', hread, -⟩ := c.runCommand_read hs (h hskip) (Nat.le_refl 1) hin
      tmp
    rw [readBlock_eq hs.present, hread, writeBlock_single hs (h hskip) hin]
    exact passHead_eq hskip hlen (by omega)

theorem writeBody_done {d : BlockDevice Controller} {k : Cursor}
    (h : k.remain ≤ d.blockSize) (buf : Bytes) (fuel : Nat) :
    d.writeBody buf (fuel + 1) k c = some (k, c) := by
  have hcond : ¬ (decide (k.remain > d.blockSize) && k.success) = true := by
    rw [decide_eq_false (Nat.not_lt.2 h)]
    exact Bool.false_ne_true
  rw [BlockDevice.writeBody, if_neg hcond]

theorem writeBody_once {d : BlockDevice Controller} {k : Cursor} (buf : Bytes)
    (h : d.blockSize < k.remain) (hok : k.success = true) {t : Int}
    {c' : Controller}
    (hcall : d.writeBlock c k.baseBlock (window buf k.position)
      (k.remain / d.blockSize) = (t, c'))
    (hrest : (d.passBody k t).remain ≤ d.blockSize) (fuel : Nat) :
    d.writeBody buf (fuel + 2) k c = some (d.passBody k t, c') := by
  have hcond : (decide (k.remain > d.blockSize) && k.success) = true := by
    rw [decide_eq_true h, hok]
    rfl
  rw [BlockDevice.writeBody, if_pos hcond]
  simp only [hcall]
  exact writeBody_done hrest buf fuel

theorem writeBody_afterHead {d : BlockDevice Controller}
    (hd : d.blockSize = 512) (h : 512 < rest base length)
    (hlen : length < 4294967296) (hbase : base < 9223372036854775808)
    {c' : Controller}
    (hcall : d.writeBlock c (firstBlock base)
      (window buf (headBytes base length)) (wholeBlocks base length) =
        ((wholeBlocks base length : Int), c')) (fuel : Nat) :
    d.writeBody buf (fuel + 2) (afterHead base length) c =
      some (afterBody base length, c') := by
  have hwhole : wholeBlocks base length = rest base length / d.blockSize := by
    rw [hd]
    exact if_pos h
  have hnext := passBody_afterHead d hd h hlen hbase
  have hrest := afterBody_remain h
  rw [hwhole] at hcall hnext
  have hbody := writeBody_once (k := afterHead base length) buf (hd ▸ h) rfl
    hcall (by rwa [hnext, hd]) fuel
  rw [hnext] at hbody
  exact hbody

theorem writeBody_accepted {sectors : Nat} (hs : drive.Sound sectors)
    (h : 512 < rest base length →
      drive.Accepts (firstBlock base) (wholeBlocks base length))
    (hlen : length < 4294967296) (hfits : base + length ≤ sectors * 512)
    (c : Controller) (buf : Bytes) (fuel : Nat) :
    ∃ c',
      drive.blockDevice.writeBody buf (fuel + 2) (afterHead base length) c =
          some (afterBody base length, c') ∧
      drive.whole.writeBody buf (fuel + 2) (afterHead base length) c =
          some (afterBody base length, c') := by
  by_cases hgo : 512 < rest base length
  · have hbase := hs.lt hfits
    have hwhole : wholeBlocks base length = rest base length / 512 := if_pos hgo
    obtain ⟨c', hwrite, _⟩ := c.runCommand_write hs (h hgo) (by omega)
      (wholeBlocks_fits hgo hfits) (window buf (headBytes base length))
    have hreal : drive.blockDevice.writeBlock c (firstBlock base)
        (window buf (headBytes base length)) (wholeBlocks base length) =
          ((wholeBlocks base length : Int), c') := by
      rw [writeBlock_eq hs.present, hwrite]
    exact ⟨c', writeBody_afterHead rfl hgo hlen hbase hreal fuel,
      writeBody_afterHead rfl hgo hlen hbase ((if_pos (h hgo)).trans hreal) fuel⟩
  · rw [afterBody_eq_afterHead hgo]
    exact ⟨c, writeBody_done (d := drive.blockDevice)
        (k := afterHead base length) (Nat.le_of_not_lt hgo) buf _,
      writeBody_done (d := drive.whole) (k := afterHead base length)
        (Nat.le_of_not_lt hgo) buf _⟩

theorem writeBody_cursor {sectors : Nat} (hs : drive.Sound sectors)
    (h : 512 < rest base length →
      drive.Accepts (firstBlock base) (wholeBlocks base length))
    (hlen : length < 4294967296) (hfits : base + length ≤ sectors * 512)
    {fuel : Nat} {k : Cursor} {c' : Controller}
    (hrun : drive.blockDevice.writeBody buf fuel (afterHead base length) c =
      some (k, c')) : k = afterBody base length := by
  match fuel with
  | 0 => cases hrun
  | fuel + 2 =>
      obtain ⟨_, hbody, -⟩ := writeBody_accepted hs h hlen hfits c buf fuel
      rw [hbody] at hrun
      cases hrun
      rfl
  | 1 =>
      rw [BlockDevice.writeBody] at hrun
      split at hrun
      · cases hrun
      next hno =>
        cases hrun
        refine (afterBody_eq_afterHead fun hgo => hno ?_).symm
        show (decide (512 < rest base length) && true) = true
        rw [decide_eq_true hgo]
        rfl

theorem writeTail_congr {d d' : BlockDevice Controller} {k : Cursor}
    (hr : k.remain ≠ 0 → ∀ c tmp, d.readBlock c k.baseBlock tmp 1 =
      d'.readBlock c k.baseBlock tmp 1)
    (hw : k.remain ≠ 0 → ∀ c tmp, d.writeBlock c k.baseBlock tmp 1 =
      d'.writeBlock c k.baseBlock tmp 1) :
    d.writeTail buf k c tmp = d'.writeTail buf k c tmp := by
  rw [BlockDevice.writeTail, BlockDevice.writeTail]
  by_cases hrem : k.remain = 0
  · have hcond : ¬ (decide (k.remain > 0) && k.success) = true := by
      rw [hrem]
      exact Bool.false_ne_true
    rw [if_neg hcond, if_neg hcond]
  · simp only [hr hrem, hw hrem]

theorem writeTail_refused (hpresent : drive.driveNumber ≠ .none) {k : Cursor}
    (hrem : k.remain ≠ 0) (h : ¬ drive.Accepts k.baseBlock 1) :
    (drive.blockDevice.writeTail buf k c tmp).1 = false := by
  have hrefused := single_refused (readBlock_refused hpresent h c tmp)
  rw [BlockDevice.writeTail]
  split
  · show ((drive.blockDevice.readBlock c k.baseBlock tmp 1).1 != -1 && _) = false
    rw [hrefused]
    rfl
  next hno =>
    show k.success = false
    rw [decide_eq_true (Nat.pos_of_ne_zero hrem), Bool.true_and] at hno
    exact Bool.eq_false_iff.2 hno

theorem writeTail_failed {d : BlockDevice Controller} {k : Cursor}
    (h : k.success = false) : (d.writeTail buf k c tmp).1 = false := by
  have hcond : ¬ (decide (k.remain > 0) && k.success) = true := by
    rw [h, Bool.and_false]
    exact Bool.false_ne_true
  rw [BlockDevice.writeTail, if_neg hcond]
  exact h

theorem write_of_body {d : BlockDevice Controller} {fuel : Nat} {k : Cursor}
    {c' : Controller}
    (h : d.writeBody buf fuel (d.writeHead c base buf length tmp).1
      (d.writeHead c base buf length tmp).2.1 = some (k, c')) :
    d.write fuel c base buf length tmp =
      some (if (d.writeTail buf k c'
            (d.writeHead c base buf length tmp).2.2).1 then i32 length else -1,
        (d.writeTail buf k c' (d.writeHead c base buf length tmp).2.2).2) := by
  simp only [BlockDevice.write, h]

theorem body_of_write {d : BlockDevice Controller} {fuel : Nat} {answer : Int}
    {c' : Controller}
    (h : d.write fuel c base buf length tmp = some (answer, c'))
    (hans : answer ≠ -1) :
    ∃ k c₁, d.writeBody buf fuel (d.writeHead c base buf length tmp).1
        (d.writeHead c base buf length tmp).2.1 = some (k, c₁) ∧
      (d.writeTail buf k c₁ (d.writeHead c base buf length tmp).2.2).1 =
        true := by
  cases hbody : d.writeBody buf fuel (d.writeHead c base buf length tmp).1
    (d.writeHead c base buf length tmp).2.1 with
  | none =>
      simp only [BlockDevice.write, hbody] at h
      cases h
  | some out =>
      obtain ⟨k, c₁⟩ := out
      refine ⟨k, c₁, rfl, ?_⟩
      rw [write_of_body hbody] at h
      cases htail : (d.writeTail buf k c₁
        (d.writeHead c base buf length tmp).2.2).1 with
      | true => rfl
      | false =>
          rw [htail] at h
          cases h
          exact absurd rfl hans

/-- A request is written exactly if each of its commands is accepted. -/
theorem write_iff {sectors : Nat} (hs : drive.Sound sectors)
    (hlen : length < 4294967296) (hfits : base + length ≤ sectors * 512) :
    (∃ fuel c', drive.blockDevice.write fuel c base buf length tmp =
        some ((length : Int), c') ∧
      c'.device.disk = splice c.device.disk base length buf) ↔
      drive.Carries base length := by
  constructor
  · rintro ⟨fuel, c', hwrite, -⟩
    obtain ⟨k, c₁, hbody, htail⟩ := body_of_write hwrite (by omega)
    have hok : k.success = true := by
      by_contra hfail
      rw [writeTail_failed (Bool.eq_false_iff.2 hfail)] at htail
      cases htail
    have hhead : base % 512 ≠ 0 → drive.Accepts (base / 512) 1 := by
      intro hskip
      by_contra hno
      have hrefused :=
        single_refused (readBlock_refused hs.present hno c tmp)
      obtain ⟨c₂, tmp₂, hcursor⟩ := writeHead_cursor drive c base length buf tmp
      have hfail : (drive.blockDevice.writeHead c base buf length
          tmp).1.success = false := by
        rw [hcursor, if_neg hskip, hrefused]
        rfl
      rw [writeBody_stuck hs.present buf fuel _ _ (.inl hfail) _ _ hbody] at hok
      cases hok
    rw [writeHead_accepted hs hlen hfits hhead c buf tmp] at hbody
    have hblocks : 512 < rest base length →
        drive.Accepts (firstBlock base) (wholeBlocks base length) := by
      intro hgo
      by_contra hno
      rw [writeBody_stuck hs.present buf fuel _ _
        (.inr ⟨rfl, stuck_afterHead hlen hgo hno⟩) _ _ hbody] at hok
      cases hok
    refine ⟨hhead, hblocks, fun hrem => ?_⟩
    by_contra hno
    have hle := whole_le base length
    rw [writeBody_cursor hs hblocks hlen hfits hbody, writeTail_refused
      hs.present (Nat.sub_ne_zero_of_lt (by omega)) hno] at htail
    cases htail
  · intro h
    obtain ⟨c', hwhole, hdisk⟩ := BlockDevice.write_spec c buf tmp
      (Drive.whole_transfers hs) h.short (by omega : length < length + 2) hfits
    refine ⟨length + 2, c', ?_, hdisk⟩
    refine Eq.trans ?_ hwhole
    have hhead : drive.blockDevice.writeHead c base buf length tmp =
        drive.whole.writeHead c base buf length tmp :=
      writeHead_congr rfl rfl (fun hskip _ _ => (if_pos (h.head hskip)).symm)
        fun hskip _ _ => (if_pos (h.head hskip)).symm
    have hcursor := writeHead_accepted hs hlen hfits h.head c buf tmp
    obtain ⟨c₁, hreal, hbody⟩ := writeBody_accepted hs h.body hlen hfits
      (drive.blockDevice.writeHead c base buf length tmp).2.1 buf length
    rw [← hcursor] at hreal hbody
    have htail : ∀ tmp, drive.blockDevice.writeTail buf (afterBody base length)
        c₁ tmp = drive.whole.writeTail buf (afterBody base length) c₁ tmp :=
      fun tmp => writeTail_congr
        (fun hrem _ _ => (if_pos (h.tail fun heq =>
          hrem (Nat.sub_eq_zero_of_le (Nat.le_of_eq heq)))).symm)
        fun hrem _ _ => (if_pos (h.tail fun heq =>
          hrem (Nat.sub_eq_zero_of_le (Nat.le_of_eq heq)))).symm
    rw [write_of_body hreal, htail]
    rw [hhead] at hbody ⊢
    rw [write_of_body hbody]

/-- Requests on a drive: they are carried out exactly if the registers hold
each of their commands. -/
theorem request_iff {sectors : Nat} (hs : drive.Sound sectors)
    (c : Controller) (base length : Nat) (buf tmp : Bytes)
    (hlen : length < 4294967296) (hfits : base + length ≤ sectors * 512) :
    ((∃ fuel c', drive.blockDevice.read fuel c base buf length tmp =
          some ((length : Int), splice buf 0 length
            (window c.device.disk base), c') ∧
        c'.device.disk = c.device.disk) ↔ drive.Carries base length) ∧
      ((∃ fuel c', drive.blockDevice.write fuel c base buf length tmp =
          some ((length : Int), c') ∧
        c'.device.disk = splice c.device.disk base length buf) ↔
        drive.Carries base length) :=
  ⟨read_iff hs hlen hfits, write_iff hs hlen hfits⟩

/-- A drive without LBA48. -/
def master28 : Drive := ⟨.master, 0x1F0, 0x3F6, false, 0⟩

theorem master28_sound : master28.Sound 268435456 :=
  ⟨nofun, nofun, nofun, Nat.le_refl _⟩

/-- A controller that has not been used. -/
def resetController (disk : Bytes) : Controller :=
  ⟨0, 0, disk, disk, 0, 0, ⟨0, 0, 0⟩, ⟨0, 0, 0⟩, 0, .idle⟩

theorem master28_requests :
    ∃ fuel c', master28.blockDevice.read fuel (resetController fun _ => 7) 100
        (fun _ => 0) 2000 (fun _ => 0) =
          some (((2000 : Nat) : Int), splice (fun _ => 0) 0 2000
            (window (fun _ => 7) 100), c') ∧
      c'.device.disk = fun _ => 7 :=
  (request_iff master28_sound _ _ 2000 _ _ (by decide) (by decide)).1.2
    ⟨by decide, by decide, by decide⟩

/-- 256 whole blocks are asked for over and over. -/
theorem master28_readBody : ∀ (fuel : Nat) (c : Controller) (buf : Bytes),
    master28.blockDevice.readBody fuel ⟨0, 0, 131072, true⟩ c buf = none := by
  intro fuel
  induction fuel with
  | zero => intro c buf; rfl
  | succ fuel ih => intro c buf; exact ih _ _

theorem master28_read_diverges :
    master28.Sound 268435456 ∧
      ¬ ∃ fuel c', master28.blockDevice.read fuel (resetController fun _ => 7) 0
          (fun _ => 0) 131072 (fun _ => 0) =
            some (((131072 : Nat) : Int), splice (fun _ => 0) 0 131072
              (window (fun _ => 7) 0), c') ∧
        c'.device.disk = fun _ => 7 := by
  refine ⟨master28_sound, fun ⟨fuel, c', hread, _⟩ => ?_⟩
  have hhead : master28.blockDevice.readHead (resetController fun _ => 7) 0
      (fun _ => 0) 131072 (fun _ => 0) =
      (⟨0, 0, 131072, true⟩, resetController fun _ => 7, fun _ => 0,
        fun _ => 0) := rfl
  rw [BlockDevice.read, hhead] at hread
  dsimp only at hread
  rw [master28_readBody] at hread
  cases hread

end Iposix.Devices.Ata
