import Iposix.Proofs.AtaTransfer

/-!
# What a command tells the drive

`run_command` cuts down the count, decides on a mode, splits count and address
into the registers, and afterwards moves as many sectors as the count says. The
drive puts the registers together again, in the mode of the command, and takes a
count of zero for the most that this mode can.

The two agree unless the count is cut down to zero, or the address has more
than the 48 bits that go into the registers. The first is never refused; a
drive without LBA48 is spared it only where the address is.
-/

namespace Iposix.Devices.Ata

open Iposix.Lib

variable {drive : Drive} {c c₁ : Controller} {cmd : Command}
  {base sectors n : Nat} {buf : Bytes}

/-- A drive that is there. The callers of `run_command` ask for this. -/
structure Drive.Attached (drive : Drive) : Prop where
  present : drive.driveNumber ≠ .none
  basePort : drive.basePort ≠ 0
  altPort : drive.altPort ≠ 0

/-- What the data port is for, while a command has `left` sectors to move from
sector `lba` on. -/
def Command.transfer (cmd : Command) (lba left : Nat) : Transfer :=
  match cmd with
  | .identify => .identify
  | .read => .read lba left
  | .write => .write lba left

/-- The mode of a command. -/
def lba48 (base n : Nat) : Bool := n / 256 % 256 != 0 || base / 16777216 != 0

namespace Controller

/-- `run_command` up to the command that it gives: the controller then, and the
number of sectors it goes on to move. None is given if the drive lacks the
mode. -/
def issued (c : Controller) (drive : Drive) (cmd : Command)
    (baseSector sectors : Nat) : Option (Controller × Nat) :=
  let n := reduce drive sectors
  let mode := lba48 baseSector n
  if mode && !drive.hasLba48 then none
  else
    let c := c.selectDrive drive
    some (match cmd with
      | .identify => c.writeCommand CMD_IDENTIFY_DEVICE
      | .write =>
          (c.setRange mode baseSector n).writeCommand
            (if mode then CMD_WRITE_SEC_EXT_RETRY else CMD_WRITE_SEC_RETRY)
      | .read =>
          (c.setRange mode baseSector n).writeCommand
            (if mode then CMD_READ_SEC_EXT_RETRY else CMD_READ_SEC_RETRY), n)

/-- `run_command` gives its command and then moves the sectors. -/
theorem runCommand_eq (c : Controller) (drive : Drive) (cmd : Command)
    (base : Nat) (buf : Bytes) (sectors : Nat) :
    c.runCommand drive cmd base buf sectors =
      match c.issued drive cmd base sectors with
      | none => (-1, buf, c)
      | some (c₁, n) => (n, transferSectors cmd n 0 c₁ buf) := by
  rw [issued]
  dsimp only
  by_cases hrefused : (lba48 base (reduce drive sectors) && !drive.hasLba48) = true
  · rw [if_pos hrefused]
    exact if_pos hrefused
  · rw [if_neg hrefused]
    exact if_neg hrefused

/-! ## The registers -/

/-- What the drive is told by the command. -/
theorem issued_transfer (hdrive : drive.Attached) (hcmd : cmd ≠ .identify)
    (h : c.issued drive cmd base sectors = some (c₁, n)) :
    n = reduce drive sectors ∧ c₁.selected = true ∧
      c₁.device.transfer =
        if lba48 base n then
          cmd.transfer (base % 281474976710656) (understood 65536 n)
        else cmd.transfer (base % 16777216) (understood 256 n) := by
  obtain ⟨hsel, hhead, -⟩ := selectDrive_spec (c := c) hdrive.present
    hdrive.basePort hdrive.altPort
  rw [issued] at h
  dsimp only at h
  split at h
  · cases h
  · obtain ⟨rfl, rfl⟩ := Prod.mk.inj (Option.some.inj h)
    obtain ⟨hsel', -, hrange⟩ := setRange_registers hsel hhead base
      (reduce drive sectors) (lba48 base (reduce drive sectors))
    refine ⟨rfl, ?_⟩
    generalize lba48 base (reduce drive sectors) = mode at hsel' hrange ⊢
    generalize (c.selectDrive drive).setRange _ base _ = c' at hsel' hrange ⊢
    cases cmd with
    | identify => exact absurd rfl hcmd
    | read =>
        dsimp only
        rw [writeCommand, send, if_pos hsel']
        refine ⟨hsel', ?_⟩
        cases mode <;> obtain ⟨hlba, hnum⟩ := hrange
        all_goals exact congr (congrArg Transfer.read hlba) hnum
    | write =>
        dsimp only
        rw [writeCommand, send, if_pos hsel']
        refine ⟨hsel', ?_⟩
        cases mode <;> obtain ⟨hlba, hnum⟩ := hrange
        all_goals exact congr (congrArg Transfer.write hlba) hnum

/-! ## The data port -/

/-- Each turn of the loop is one sector for the drive. -/
theorem transferSectors_transfer (hcmd : cmd ≠ .identify) :
    ∀ (turns i lba left : Nat) (c : Controller) (buf : Bytes),
      c.selected = true → c.device.transfer = cmd.transfer lba (turns + left) →
      (transferSectors cmd turns i c buf).2.device.transfer =
        cmd.transfer (lba + turns) left := by
  intro turns
  induction turns with
  | zero =>
      intro i lba left c buf _ htransfer
      rw [transferSectors, htransfer, Nat.zero_add, Nat.add_zero]
  | succ turns ih =>
      intro i lba left c buf hsel htransfer
      have hleft : turns + 1 + left = turns + left + 1 := by omega
      have hlba : lba + (turns + 1) = lba + 1 + turns := by omega
      rw [hleft] at htransfer
      rw [hlba]
      cases cmd with
      | identify => exact absurd rfl hcmd
      | read =>
          have hsector : c.device.readSector.2 =
              { c.device with transfer := .read (lba + 1) (turns + left) } := by
            rw [Device.readSector, htransfer]
            rfl
          rw [transferSectors, readData, if_pos hsel, hsector]
          exact ih _ _ _ _ _ hsel rfl
      | write =>
          rw [transferSectors, writeData, send, if_pos hsel, Device.writeSector,
            htransfer]
          dsimp only [Command.transfer]
          rw [writeCommand, send, if_pos (by exact hsel)]
          exact ih _ _ _ _ _ hsel rfl

end Controller

/-! ## Commands -/

theorem Command.transfer_inj (hcmd : cmd ≠ .identify) {lba lba' left left' : Nat} :
    cmd.transfer lba left = cmd.transfer lba' left' ↔
      lba = lba' ∧ left = left' := by
  cases cmd with
  | identify => exact absurd rfl hcmd
  | read => exact Transfer.read.injEq .. ▸ Iff.rfl
  | write => exact Transfer.write.injEq .. ▸ Iff.rfl

/-- The count is not cut down to nothing and the registers hold the address; or
the drive cannot be asked for it, for want of a mode. -/
def Drive.Names (drive : Drive) (base sectors : Nat) : Prop :=
  if drive.hasLba48 then base < 281474976710656 ∧ sectors % 65536 ≠ 0
  else 16777216 ≤ base ∨ sectors % 256 ≠ 0

instance (drive : Drive) (base sectors : Nat) :
    Decidable (drive.Names base sectors) :=
  inferInstanceAs (Decidable (ite _ _ _))

namespace Controller

/-- Either no command is given; or drive, data port and answer agree on the
sectors, which are a first part of those asked for. -/
def Encoded (c : Controller) (drive : Drive) (cmd : Command)
    (base sectors : Nat) : Prop :=
  (c.issued drive cmd base sectors = none ∧
      ∀ buf, c.runCommand drive cmd base buf sectors = (-1, buf, c)) ∨
    ∃ c₁ n, c.issued drive cmd base sectors = some (c₁, n) ∧
      c₁.device.transfer = cmd.transfer base n ∧ 1 ≤ n ∧ n ≤ sectors ∧
      ∀ buf, c.runCommand drive cmd base buf sectors =
          ((n : Int), transferSectors cmd n 0 c₁ buf) ∧
        (transferSectors cmd n 0 c₁ buf).2.device.transfer =
          cmd.transfer (base + n) 0

theorem encoded_of_refused (h : c.issued drive cmd base sectors = none) :
    c.Encoded drive cmd base sectors :=
  .inl ⟨h, fun buf => by rw [runCommand_eq, h]⟩

/-- A command that is given has to be understood. -/
theorem encoded_of_issued (hcmd : cmd ≠ .identify) (hsel : c₁.selected = true)
    (h : c.issued drive cmd base sectors = some (c₁, n)) :
    c.Encoded drive cmd base sectors ↔
      c₁.device.transfer = cmd.transfer base n ∧ 1 ≤ n ∧ n ≤ sectors := by
  constructor
  · intro hencoded
    rcases hencoded with ⟨hnone, -⟩ | ⟨c₂, m, hsome, htransfer, h₁, h₂, -⟩
    · rw [h] at hnone
      cases hnone
    · rw [h] at hsome
      cases hsome
      exact ⟨htransfer, h₁, h₂⟩
  · intro ⟨htransfer, h₁, h₂⟩
    refine .inr ⟨c₁, n, h, htransfer, h₁, h₂, fun buf => ⟨?_, ?_⟩⟩
    · rw [runCommand_eq, h]
    · exact transferSectors_transfer hcmd n 0 base 0 c₁ buf hsel htransfer

theorem reduce_lba48 (hlba : drive.hasLba48 = true) :
    reduce drive sectors = sectors % 65536 := by
  rw [reduce, if_neg (fun h => h.2 hlba)]

theorem reduce_lba28 (hlba : drive.hasLba48 = false) :
    reduce drive sectors = sectors % 256 := by
  rw [reduce]
  split
  · rfl
  · next h =>
      have hsmall : sectors / 256 = 0 :=
        Decidable.byContradiction fun hne =>
          h ⟨hne, by rw [hlba]; exact Bool.false_ne_true⟩
      omega

theorem issued_none_iff : c.issued drive cmd base sectors = none ↔
    lba48 base (reduce drive sectors) = true ∧ drive.hasLba48 = false := by
  rw [issued]
  dsimp only
  split
  · next h => simpa using h
  · next h =>
      refine iff_of_false (fun h => by cases h) fun hrefused => h ?_
      rw [hrefused.1, hrefused.2]
      rfl

theorem lba48_eq_false (base n : Nat) :
    lba48 base n = false ↔ n / 256 % 256 = 0 ∧ base / 16777216 = 0 := by
  simp [lba48]

/-- What the drive is told is what is meant exactly if its mode has room for
it. -/
theorem told_iff (hcmd : cmd ≠ .identify) (hn : n < 65536) :
    ((if lba48 base n then
        cmd.transfer (base % 281474976710656) (understood 65536 n)
      else cmd.transfer (base % 16777216) (understood 256 n)) =
        cmd.transfer base n) ↔
      base < 281474976710656 ∧ n ≠ 0 := by
  cases hmode : lba48 base n with
  | true =>
      rw [if_pos rfl, Command.transfer_inj hcmd, understood]
      split <;> omega
  | false =>
      obtain ⟨hcount, hbase⟩ := (lba48_eq_false base n).1 hmode
      rw [if_neg Bool.false_ne_true, Command.transfer_inj hcmd, understood]
      split <;> omega

/-- A command is refused, or drive, data port and answer agree on it, exactly
if its count is not cut down to nothing and its address fits the registers, or
the drive lacks the mode for the address. -/
theorem encoded_iff (hdrive : drive.Attached) (hcmd : cmd ≠ .identify)
    (c : Controller) (base sectors : Nat) :
    c.Encoded drive cmd base sectors ↔ drive.Names base sectors := by
  rw [Drive.Names]
  cases hissued : c.issued drive cmd base sectors with
  | none =>
      refine iff_of_true (encoded_of_refused hissued) ?_
      obtain ⟨hmode, hlba⟩ := issued_none_iff.1 hissued
      rw [hlba, if_neg Bool.false_ne_true]
      rw [reduce_lba28 hlba] at hmode
      have hlow : ¬ base < 16777216 := fun hlow => by
        have hplain := (lba48_eq_false base (sectors % 256)).2 (by omega)
        rw [hmode] at hplain
        cases hplain
      exact .inl (Nat.le_of_not_lt hlow)
  | some out =>
      obtain ⟨c₁, n⟩ := out
      obtain ⟨hn, hsel, htransfer⟩ := issued_transfer hdrive hcmd hissued
      have hgiven : ¬ (lba48 base (reduce drive sectors) = true ∧
          drive.hasLba48 = false) := fun h => by
        rw [issued_none_iff.2 h] at hissued
        cases hissued
      rw [← hn] at hgiven
      cases hlba : drive.hasLba48 with
      | true =>
          rw [reduce_lba48 hlba] at hn
          rw [encoded_of_issued hcmd hsel hissued, htransfer,
            told_iff hcmd (by omega), if_pos rfl]
          omega
      | false =>
          rw [reduce_lba28 hlba] at hn
          have hlow := (lba48_eq_false base n).1
            (Bool.eq_false_iff.2 fun hmode => hgiven ⟨hmode, hlba⟩)
          rw [encoded_of_issued hcmd hsel hissued, htransfer,
            told_iff hcmd (by omega), if_neg Bool.false_ne_true]
          omega

/-- 255 sectors are one command of a drive without LBA48. -/
theorem master28_encoded :
    (resetController fun _ => 7).Encoded master28 .read 100 255 := by
  have hdrive : master28.Attached := ⟨by decide, by decide, by decide⟩
  exact (encoded_iff hdrive (by decide) _ 100 255).2 (by decide)

/-- For 256 of them the drive is given a command for all, none is taken from
the data port, and zero is answered. -/
theorem master28_not_encoded :
    ∃ c₁, (resetController fun _ => 7).issued master28 .read 0 256 =
        some (c₁, 0) ∧
      c₁.device.transfer = .read 0 256 ∧
      (resetController fun _ => 7).runCommand master28 .read 0 (fun _ => 0) 256 =
        (0, fun _ => 0, c₁) ∧
      ¬ (resetController fun _ => 7).Encoded master28 .read 0 256 := by
  refine ⟨_, rfl, rfl, rfl, fun h => ?_⟩
  rcases h with ⟨hnone, -⟩ | ⟨c₁, n, hsome, -, hpos, -⟩
  · cases hnone
  · cases hsome
    exact absurd hpos (by decide)

end Controller

end Iposix.Devices.Ata
