import Iposix.Devices.BlockDevice

/-!
# ATA drives

`ata_drive` hands a block transfer to `ata_controller::run_command`, which
writes the registers of the drive, gives it the command and moves the sectors
through its data port.

The drive behind the ports is one that executes each command it is given. Its
count and address registers are two deep, as LBA48 has it: a command of that
mode sees the last value written and the one before, any other the last one. A
count of zero asks for the most a mode can, and a flush does not disturb a
transfer. Waiting for a status changes nothing, so the model leaves it out.
-/

namespace Iposix.Devices

open Iposix.Lib

namespace Ata

def SECTOR_SIZE : Nat := 512

def CMD_IDENTIFY_DEVICE : Nat := 0xEC
def CMD_READ_SEC_RETRY : Nat := 0x20
def CMD_READ_SEC_EXT_RETRY : Nat := 0x24
def CMD_WRITE_SEC_RETRY : Nat := 0x30
def CMD_WRITE_SEC_EXT_RETRY : Nat := 0x34
def CMD_FLUSH : Nat := 0xE7

/-- `lba_address` -/
structure LbaAddress where
  part0 : Nat
  part1 : Nat
  part2 : Nat

def LbaAddress.value (a : LbaAddress) : Nat :=
  a.part0 + 256 * a.part1 + 65536 * a.part2

/-! ## The drive -/

/-- What the data port is for. -/
inductive Transfer where
  | idle
  | identify
  | read (lba left : Nat)
  | write (lba left : Nat)

structure Device where
  disk : Bytes
  identity : Bytes
  sectorCount : Nat
  previousCount : Nat
  address : LbaAddress
  previousAddress : LbaAddress
  selector : Nat
  transfer : Transfer

namespace Device

def lba28 (d : Device) : Nat := d.address.value + 16777216 * (d.selector % 16)

def lba48 (d : Device) : Nat :=
  d.address.value + 16777216 * d.previousAddress.value

def count28 (d : Device) : Nat :=
  if d.sectorCount = 0 then 256 else d.sectorCount

def count48 (d : Device) : Nat :=
  if 256 * d.previousCount + d.sectorCount = 0 then 65536
  else 256 * d.previousCount + d.sectorCount

def command (d : Device) (command : Nat) : Device :=
  if command = CMD_IDENTIFY_DEVICE then { d with transfer := .identify }
  else if command = CMD_READ_SEC_RETRY then
    { d with transfer := .read d.lba28 d.count28 }
  else if command = CMD_READ_SEC_EXT_RETRY then
    { d with transfer := .read d.lba48 d.count48 }
  else if command = CMD_WRITE_SEC_RETRY then
    { d with transfer := .write d.lba28 d.count28 }
  else if command = CMD_WRITE_SEC_EXT_RETRY then
    { d with transfer := .write d.lba48 d.count48 }
  else d

/-- A sector from the data port. -/
def readSector (d : Device) : Bytes × Device :=
  match d.transfer with
  | .identify => (d.identity, { d with transfer := .idle })
  | .read lba (left + 1) =>
      (window d.disk (lba * SECTOR_SIZE),
        { d with transfer := .read (lba + 1) left })
  | _ => (fun _ => 0xFF, d)

/-- A sector to the data port. -/
def writeSector (d : Device) (data : Bytes) : Device :=
  match d.transfer with
  | .write lba (left + 1) =>
      { d with
        disk := splice d.disk (lba * SECTOR_SIZE) SECTOR_SIZE data
        transfer := .write (lba + 1) left }
  | _ => d

end Device

/-! ## The controller -/

/-- `ata_drive_number` -/
inductive DriveNumber where
  | none
  | master
  | slave
  deriving DecidableEq

/-- `ata_drive`, with the fields of its `information` that are looked at. -/
structure Drive where
  driveNumber : DriveNumber
  basePort : Nat
  altPort : Nat
  addresses48bit : Bool
  numberOfAccSectorLba48 : Nat

/-- `has_lba48` -/
def Drive.hasLba48 (drive : Drive) : Bool :=
  drive.addresses48bit && drive.numberOfAccSectorLba48 != 0

/-- `ata_controller` and the drive it has selected. -/
structure Controller where
  currentBasePort : Nat
  currentAltPort : Nat
  device : Device

/-- `ata_controller::command` -/
inductive Command where
  | identify
  | write
  | read
  deriving DecidableEq

namespace Controller

/-- Nothing is sent to a port as long as none is known. -/
def selected (c : Controller) : Bool :=
  c.currentBasePort != 0 && c.currentAltPort != 0

def send (c : Controller) (f : Device → Device) : Controller :=
  if c.selected then { c with device := f c.device } else c

def writeSelector (c : Controller) (bits : Nat) : Controller :=
  c.send fun d => { d with selector := bits }

def writeSectorCount (c : Controller) (count : Nat) : Controller :=
  c.send fun d => { d with sectorCount := count, previousCount := d.sectorCount }

def writeAddress (c : Controller) (address : LbaAddress) : Controller :=
  c.send fun d => { d with address := address, previousAddress := d.address }

def writeCommand (c : Controller) (command : Nat) : Controller :=
  c.send fun d => d.command command

def writeData (c : Controller) (data : Bytes) : Controller :=
  c.send fun d => d.writeSector data

/-- The buffer after `read_data`. -/
def readData (c : Controller) (buf : Bytes) (position : Nat) :
    Bytes × Controller :=
  if c.selected then
    (splice buf position SECTOR_SIZE c.device.readSector.1,
      { c with device := c.device.readSector.2 })
  else (buf, c)

/-- `current_drive`, which only the constructor sets. -/
def currentDrive : DriveNumber := .none

/-- `select_drive` -/
def selectDrive (c : Controller) (drive : Drive) : Controller :=
  if drive.driveNumber ≠ currentDrive ∨
      drive.basePort ≠ c.currentBasePort ∨ drive.altPort ≠ c.currentAltPort then
    if drive.driveNumber = .none then
      { c with currentBasePort := 0, currentAltPort := 0 }
    else
      let c := { c with
        currentBasePort := drive.basePort
        currentAltPort := drive.altPort }
      c.writeSelector (if drive.driveNumber = .master then 0x40 else 0x50)
  else c

/-- The loop of `run_command` over the sectors. -/
def transferSectors (cmd : Command) :
    (turns i : Nat) → Controller → Bytes → Bytes × Controller
  | 0, _, c, buf => (buf, c)
  | turns + 1, i, c, buf =>
      match cmd with
      | .write =>
          let c := c.writeData (window buf (i * SECTOR_SIZE))
          transferSectors cmd turns (i + 1) (c.writeCommand CMD_FLUSH) buf
      | .identify | .read =>
          let (buf, c) := c.readData buf (i * SECTOR_SIZE)
          transferSectors cmd turns (i + 1) c buf

/-- The number of sectors as `run_command` reduces it. -/
def reduce (drive : Drive) (sectors : Nat) : Nat :=
  if sectors / 256 ≠ 0 ∧ ¬ drive.hasLba48 then sectors % 256
  else sectors % 65536

/-- The position and the size, for a command that has them. -/
def setRange (c : Controller) (lba48 : Bool) (baseSector sectors : Nat) :
    Controller :=
  let adr0 := ⟨baseSector % 256, baseSector / 256 % 256,
    baseSector / 65536 % 256⟩
  let adr1 := ⟨baseSector / 16777216 % 256, baseSector / 4294967296 % 256,
    baseSector / 1099511627776 % 256⟩
  let c := if lba48 then
      (c.writeSectorCount (sectors / 256 % 256)).writeAddress adr1
    else c
  (c.writeSectorCount (sectors % 256)).writeAddress adr0

/-- `run_command`: the answer, the buffer and the controller. -/
def runCommand (c : Controller) (drive : Drive) (cmd : Command)
    (baseSector : Nat) (buf : Bytes) (sectors : Nat) :
    Int × Bytes × Controller :=
  let sectors := reduce drive sectors
  let lba48 := sectors / 256 % 256 != 0 || baseSector / 16777216 != 0
  if lba48 && !drive.hasLba48 then (-1, buf, c)
  else
    let c := c.selectDrive drive
    let c := match cmd with
      | .identify => c.writeCommand CMD_IDENTIFY_DEVICE
      | .write =>
          (c.setRange lba48 baseSector sectors).writeCommand
            (if lba48 then CMD_WRITE_SEC_EXT_RETRY else CMD_WRITE_SEC_RETRY)
      | .read =>
          (c.setRange lba48 baseSector sectors).writeCommand
            (if lba48 then CMD_READ_SEC_EXT_RETRY else CMD_READ_SEC_RETRY)
    let (buf, c) := transferSectors cmd sectors 0 c buf
    (sectors, buf, c)

end Controller

/-- `ata_drive` as a block device. -/
def Drive.blockDevice (drive : Drive) : BlockDevice Controller where
  blockSize := SECTOR_SIZE
  readBlock c baseBlock buf length :=
    if drive.driveNumber = .none then (-1, buf, c)
    else c.runCommand drive .read baseBlock buf length
  writeBlock c baseBlock buf length :=
    if drive.driveNumber = .none then (-1, c)
    else
      let (transfered, _, c) := c.runCommand drive .write baseBlock buf length
      (transfered, c)

end Ata

end Iposix.Devices
