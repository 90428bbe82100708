import Iposix.Lib.LittleEndian
import Iposix.Lib.Word

/-!
# The partition table crawler

`probe_filesystems` adds a node to the device filesystem for a whole drive and
one for each partition its tables list. The partition tables of an extended
partition form a chain, which `probe_extfilesystems` follows.

A drive is its bytes: `read` of the block layer delivers the ones it is asked
for. A name is put together in a `stringstream` over an array that nobody has
initialised, so what that array holds, up to its first zero, is a parameter: a
text for each number.
-/

namespace Iposix.Fs

open Iposix.Lib

abbrev Name := List Char

/-- `i_block_device`, as the crawler sees it. -/
structure BlockDrive where
  name : Name
  blockSize : Nat
  length : Nat
  disk : Nat → UInt8

/-- `pc_partitiontable_entry`, without the fields that are only logged. -/
structure PartitiontableEntry where
  partitionType : Nat
  firstSector : Nat
  sectorCount : Nat
  deriving DecidableEq

namespace PartitiontableEntry

def SECTOR_SIZE : Nat := 512
def TABLE_OFFSET_TO_SECTOR : Nat := 0x01BE

/-- The size of an entry. -/
def BYTES : Nat := 16

def ofBytes (b : Nat → UInt8) : PartitiontableEntry where
  partitionType := load 1 b 4
  firstSector := load 4 b 8
  sectorCount := load 4 b 12

/-- `p_unused` -/
def unused (e : PartitiontableEntry) : Bool := e.partitionType == 0x00

/-- `is_extended`: `p_ext_part` or `p_ext_part_bios`. -/
def isExtended (e : PartitiontableEntry) : Bool :=
  e.partitionType == 0x05 || e.partitionType == 0x0F

end PartitiontableEntry

/-- `dev_fs_node` of a block device. -/
structure BlockNode where
  path : Name
  firstAddress : Nat
  lastAddress : Nat
  deriving DecidableEq

/-- `add_subnode`: a node of the same name is replaced. -/
def addSubnode (subnodes : List BlockNode) (node : BlockNode) :
    List BlockNode :=
  subnodes.filter (fun other => other.path != node.path) ++ [node]

namespace PartitiontableCrawler

def isSpace (c : Char) : Bool :=
  c == ' ' || c == '\t' || c == '\n' || c == '\x0b' || c == '\x0c' || c == '\r'

/-- What `ss >> name` reads after the drive's name and the number have been
written over the front of `buffer`. -/
def partitionName (buffer : Name) (driveName : Name) (counter : Nat) : Name :=
  let written := driveName ++ Nat.toDigits 10 counter
  let content := written ++ buffer.drop written.length
  (content.dropWhile isSpace).takeWhile fun c => !isSpace c

/-- `get_table`: the four entries. The sector is handed to `read` as it is. -/
def getTable (drive : BlockDrive) (sector : Nat) (i : Nat) :
    PartitiontableEntry :=
  let buf := window drive.disk sector
  .ofBytes (window buf (PartitiontableEntry.TABLE_OFFSET_TO_SECTOR +
    PartitiontableEntry.BYTES * i))

/-- `add_filesystem` for an entry; the counter and the nodes. -/
def addFilesystem (buffer : Nat → Name) (drive : BlockDrive) (counter : Nat)
    (partEntry : PartitiontableEntry) (additionToSector : Nat)
    (subnodes : List BlockNode) : Nat × List BlockNode :=
  if partEntry.unused then (counter, subnodes)
  else
    let firstAddress :=
      u64 ((partEntry.firstSector + additionToSector) * drive.blockSize : Nat)
    let lastAddress :=
      u64 ((partEntry.firstSector + additionToSector + partEntry.sectorCount) *
        drive.blockSize : Nat)
    (u32 (counter + 1),
      addSubnode subnodes ⟨partitionName (buffer counter) drive.name counter,
        firstAddress, lastAddress⟩)

/-- `probe_extfilesystems`; none when the fuel runs out. -/
def probeExtfilesystems (buffer : Nat → Name) (drive : BlockDrive) :
    (fuel counter : Nat) → PartitiontableEntry → (relativeToSector : Nat) →
      List BlockNode → Option (Nat × List BlockNode)
  | 0, _, _, _, _ => none
  | fuel + 1, counter, partEntry, relativeToSector, subnodes =>
      let entrys := getTable drive (partEntry.firstSector + relativeToSector)
      let (counter, subnodes) := addFilesystem buffer drive counter (entrys 0)
        partEntry.firstSector subnodes
      if (entrys 1).isExtended then
        let newRelativeToSector :=
          if relativeToSector = 0 then partEntry.firstSector
          else relativeToSector
        probeExtfilesystems buffer drive fuel counter (entrys 1)
          newRelativeToSector subnodes
      else some (counter, subnodes)

/-- The loop of `probe_filesystems` over the first table. -/
def probeEntrys (buffer : Nat → Name) (drive : BlockDrive)
    (entrys : Nat → PartitiontableEntry) (fuel : Nat) :
    (turns i counter : Nat) → List BlockNode → Option (Nat × List BlockNode)
  | 0, _, counter, subnodes => some (counter, subnodes)
  | turns + 1, i, counter, subnodes =>
      if (entrys i).isExtended then
        match probeExtfilesystems buffer drive fuel counter (entrys i) 0
          subnodes with
        | none => none
        | some (counter, subnodes) =>
            probeEntrys buffer drive entrys fuel turns (i + 1) counter subnodes
      else
        let (counter, subnodes) :=
          addFilesystem buffer drive counter (entrys i) 0 subnodes
        probeEntrys buffer drive entrys fuel turns (i + 1) counter subnodes

/-- `probe_filesystems`: the nodes of the device filesystem afterwards. -/
def probeFilesystems (buffer : Nat → Name) (drive : BlockDrive) (fuel : Nat)
    (subnodes : List BlockNode) : Option (List BlockNode) :=
  let subnodes := addSubnode subnodes ⟨drive.name, 0, drive.length⟩
  let entrys := getTable drive 0
  match probeEntrys buffer drive entrys fuel 4 0 1 subnodes with
  | none => none
  | some (_, subnodes) => some subnodes

end PartitiontableCrawler

end Iposix.Fs
