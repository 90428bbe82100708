import Iposix.Fs.PartitiontableCrawler

/-!
# Which partitions the crawler finds

`Partitions disk l` is the layout of a partitioned disk: `l` lists the first
sector and the size of each partition, those of the first table and the logical
ones of each chain of extended boot records, in their order. All sectors in it
are absolute. The first entry of an extended boot record counts from that
record, the second one from the first record of its chain.

On a disk without an extended partition the crawler registers just these. It
hands the number of a sector to `read`, which wants an address, so the only
table it reads is the one in sector 0; and the base it gives to the first entry
of a record is not the record's sector but the number the record was found
under. The other condition is about names: what the array of the `stringstream`
holds behind the text written to it is read back as a part of the name.
-/

namespace Iposix.Fs

open Iposix.Lib

/-! ## The layout of a disk -/

/-- Entry `i` of the partition table in a sector. -/
def tableEntry (disk : Nat → UInt8) (sector i : Nat) : PartitiontableEntry :=
  .ofBytes (window disk (512 * sector + (0x01BE + 16 * i)))

/-- What an entry that counts from `base` says: the first sector and the
number of them. -/
def listed (base : Nat) (e : PartitiontableEntry) : List (Nat × Nat) :=
  if e.unused then [] else [(base + e.firstSector, e.sectorCount)]

/-- The chain of extended boot records that starts in sector `first`, from the
record in a sector on. -/
inductive EbrChain (disk : Nat → UInt8) (first : Nat) :
    (record : Nat) → List (Nat × Nat) → Prop
  | last {record : Nat} :
      (tableEntry disk record 1).isExtended = false →
      EbrChain disk first record (listed record (tableEntry disk record 0))
  | next {record : Nat} {l : List (Nat × Nat)} :
      (tableEntry disk record 1).isExtended = true →
      EbrChain disk first (first + (tableEntry disk record 1).firstSector) l →
      EbrChain disk first record (listed record (tableEntry disk record 0) ++ l)

/-- The partitions of `n` entries of the first table, from entry `i` on. -/
inductive Slots (disk : Nat → UInt8) :
    (n i : Nat) → List (Nat × Nat) → Prop
  | nil {i : Nat} : Slots disk 0 i []
  | primary {n i : Nat} {l : List (Nat × Nat)} :
      (tableEntry disk 0 i).isExtended = false →
      Slots disk n (i + 1) l →
      Slots disk (n + 1) i (listed 0 (tableEntry disk 0 i) ++ l)
  | extended {n i : Nat} {chain l : List (Nat × Nat)} :
      (tableEntry disk 0 i).isExtended = true →
      EbrChain disk (tableEntry disk 0 i).firstSector
        (tableEntry disk 0 i).firstSector chain →
      Slots disk n (i + 1) l →
      Slots disk (n + 1) i (chain ++ l)

def Partitions (disk : Nat → UInt8) (l : List (Nat × Nat)) : Prop :=
  Slots disk 4 0 l

/-! ## The nodes of a disk -/

def partitionNode (driveName : Name) (number : Nat) (p : Nat × Nat) :
    BlockNode where
  path := driveName ++ Nat.toDigits 10 number
  firstAddress := 512 * p.1
  lastAddress := 512 * (p.1 + p.2)

/-- The nodes of partitions numbered from `number` on. -/
def partitionNodes (driveName : Name) : Nat → List (Nat × Nat) → List BlockNode
  | _, [] => []
  | number, p :: l =>
      partitionNode driveName number p :: partitionNodes driveName (number + 1) l

/-- The nodes of the whole drive and of its partitions. -/
def driveNodes (drive : BlockDrive) (l : List (Nat × Nat)) : List BlockNode :=
  ⟨drive.name, 0, drive.length⟩ :: partitionNodes drive.name 1 l

/-- A directory after `nodes` of different names were added. -/
def registered (subnodes nodes : List BlockNode) : List BlockNode :=
  subnodes.filter (fun other => nodes.all fun node => other.path != node.path) ++
    nodes

theorem addSubnode_registered (subnodes : List BlockNode) (node : BlockNode)
    {nodes : List BlockNode} (hfresh : ∀ other ∈ nodes, other.path ≠ node.path) :
    addSubnode (registered subnodes nodes) node =
      registered subnodes (nodes ++ [node]) := by
  have hkeep : nodes.filter (fun other => other.path != node.path) = nodes :=
    List.filter_eq_self.2 fun other hother => bne_iff_ne.2 (hfresh other hother)
  rw [addSubnode, registered, registered, List.filter_append, hkeep,
    List.filter_filter, List.append_assoc]
  congr 1
  refine List.filter_congr fun other _ => ?_
  rw [List.all_append, List.all_cons, List.all_nil, Bool.and_true,
    Bool.and_comm]

/-- The name of the partition of a number. -/
theorem numbered_inj {driveName : Name} {m n : Nat}
    (h : driveName ++ Nat.toDigits 10 m = driveName ++ Nat.toDigits 10 n) :
    m = n := by
  have hdigits := List.append_cancel_left h
  rw [← Nat.ofDigitChars_ten_toDigits (n := m), hdigits,
    Nat.ofDigitChars_ten_toDigits]

theorem numbered_ne_drive {driveName : Name} {n : Nat} :
    driveName ≠ driveName ++ Nat.toDigits 10 n := by
  intro h
  exact Nat.toDigits_ne_nil (List.self_eq_append_right.1 h)

/-! ## The name of a partition -/

/-- Nothing that the array holds behind the name of partition `n` becomes a
part of the name. -/
def CleanBuffer (buffer : Nat → Name) (driveName : Name) (n : Nat) : Prop :=
  ((buffer n).drop (driveName ++ Nat.toDigits 10 n).length).head?.all
    PartitiontableCrawler.isSpace = true

namespace PartitiontableCrawler

theorem digit_not_space {n : Nat} {c : Char} (h : c ∈ Nat.toDigits 10 n) :
    isSpace c = false := by
  have hdigit := Nat.isDigit_of_mem_toDigits (by decide) (by decide) h
  refine Bool.eq_false_iff.2 fun hspace => ?_
  simp only [isSpace, Bool.or_eq_true, beq_iff_eq] at hspace
  rcases hspace with ((((rfl | rfl) | rfl) | rfl) | rfl) | rfl <;>
    exact absurd hdigit (by decide)

/-- A word is read back up to the white space behind it. -/
theorem read_word {p : Char → Bool} {word rest : Name}
    (hword : ∀ c ∈ word, p c = false) (hne : word ≠ [])
    (hrest : rest.head?.all p = true) :
    ((word ++ rest).dropWhile p).takeWhile (fun c => !p c) = word := by
  have hdrop : (word ++ rest).dropWhile p = word ++ rest := by
    cases word with
    | nil => exact absurd rfl hne
    | cons c word => simp [hword c List.mem_cons_self]
  have hstop : rest.takeWhile (fun c => !p c) = [] := by
    cases rest with
    | nil => rfl
    | cons c rest =>
        have hc : p c = true := hrest
        simp [hc]
  rw [hdrop, List.takeWhile_append_of_pos
    (fun c hc => by rw [hword c hc]; rfl), hstop, List.append_nil]

theorem partitionName_clean {buffer : Nat → Name} {driveName : Name} {n : Nat}
    (hname : ∀ c ∈ driveName, isSpace c = false)
    (hclean : CleanBuffer buffer driveName n) :
    partitionName (buffer n) driveName n = driveName ++ Nat.toDigits 10 n := by
  refine read_word ?_ ?_ hclean
  · intro c hc
    rcases List.mem_append.1 hc with hc | hc
    · exact hname c hc
    · exact digit_not_space hc
  · intro hnil
    exact Nat.toDigits_ne_nil (List.append_eq_nil_iff.1 hnil).2

/-! ## The loop over the first table -/

theorem getTable_zero (drive : BlockDrive) :
    getTable drive 0 = tableEntry drive.disk 0 := by
  funext i
  show PartitiontableEntry.ofBytes (window (window drive.disk 0) _) = _
  rw [window_zero, tableEntry, Nat.mul_zero, Nat.zero_add]
  rfl

theorem addFilesystem_unused {buffer : Nat → Name} {drive : BlockDrive}
    {counter base : Nat} {e : PartitiontableEntry} {subnodes : List BlockNode}
    (h : e.unused = true) :
    addFilesystem buffer drive counter e base subnodes = (counter, subnodes) :=
  if_pos h

theorem addFilesystem_primary {buffer : Nat → Name} {drive : BlockDrive}
    {counter : Nat} {e : PartitiontableEntry} {subnodes : List BlockNode}
    (h : e.unused = false) (hblock : drive.blockSize = 512)
    (hfirst : e.firstSector < 4294967296) (hcount : e.sectorCount < 4294967296)
    (hcounter : counter < 4294967295)
    (hname : ∀ c ∈ drive.name, isSpace c = false)
    (hclean : CleanBuffer buffer drive.name counter) :
    addFilesystem buffer drive counter e 0 subnodes =
      (counter + 1, addSubnode subnodes
        (partitionNode drive.name counter (0 + e.firstSector, e.sectorCount))) := by
  have hstart : u64 ((e.firstSector + 0) * 512 : Nat) =
      512 * (0 + e.firstSector) := by
    rw [u64_of_lt (by omega)]
    omega
  have hend : u64 ((e.firstSector + 0 + e.sectorCount) * 512 : Nat) =
      512 * (0 + e.firstSector + e.sectorCount) := by
    rw [u64_of_lt (by omega)]
    omega
  have hnext : u32 (counter + 1) = counter + 1 :=
    u32_of_lt (n := counter + 1) (by omega)
  rw [addFilesystem, if_neg (by rw [h]; exact Bool.false_ne_true), hblock,
    hstart, hend, hnext, partitionName_clean hname hclean]
  rfl

theorem probeEntrys_plain {buffer : Nat → Name} {drive : BlockDrive}
    (fuel : Nat) (hblock : drive.blockSize = 512)
    (hname : ∀ c ∈ drive.name, isSpace c = false) {n i : Nat}
    {l : List (Nat × Nat)} (hslots : Slots drive.disk n i l) :
    (∀ j, i ≤ j → j < i + n →
      (tableEntry drive.disk 0 j).isExtended = false) →
    ∀ (counter : Nat) (subnodes nodes : List BlockNode),
      counter + n < 4294967296 →
      (∀ k, counter ≤ k → k < counter + l.length →
        CleanBuffer buffer drive.name k) →
      (∀ k, counter ≤ k → ∀ other ∈ nodes,
        other.path ≠ drive.name ++ Nat.toDigits 10 k) →
      probeEntrys buffer drive (tableEntry drive.disk 0) fuel n i counter
          (registered subnodes nodes) =
        some (counter + l.length,
          registered subnodes (nodes ++ partitionNodes drive.name counter l)) := by
  induction hslots with
  | nil =>
      intro _ counter subnodes nodes _ _ _
      rw [probeEntrys, partitionNodes, List.append_nil]
      rfl
  | @primary n i l hplain _ ih =>
      intro hall counter subnodes nodes hcounter hclean hfresh
      have hrest : ∀ j, i + 1 ≤ j → j < i + 1 + n →
          (tableEntry drive.disk 0 j).isExtended = false :=
        fun j h₁ h₂ => hall j (by omega) (by omega)
      rw [probeEntrys, if_neg (by rw [hplain]; exact Bool.false_ne_true)]
      cases hused : (tableEntry drive.disk 0 i).unused with
      | true =>
          have hnone : listed 0 (tableEntry drive.disk 0 i) = [] := if_pos hused
          rw [hnone, List.nil_append] at hclean ⊢
          rw [addFilesystem_unused hused]
          exact ih hrest counter subnodes nodes (by omega) hclean hfresh
      | false =>
          -- the node gets the next number, which no node so far has
          have hone : listed 0 (tableEntry drive.disk 0 i) =
              [(0 + (tableEntry drive.disk 0 i).firstSector,
                (tableEntry drive.disk 0 i).sectorCount)] :=
            if_neg (by rw [hused]; exact Bool.false_ne_true)
          rw [hone, List.singleton_append] at hclean ⊢
          rw [List.length_cons] at hclean ⊢
          rw [addFilesystem_primary hused hblock (load_lt _ 4 8)
            (load_lt _ 4 12) (by omega) hname
            (hclean counter (Nat.le_refl _) (by omega))]
          have hnode := addSubnode_registered subnodes
            (partitionNode drive.name counter
              (0 + (tableEntry drive.disk 0 i).firstSector,
                (tableEntry drive.disk 0 i).sectorCount))
            (hfresh counter (Nat.le_refl _))
          simp only [hnode]
          rw [ih hrest (counter + 1) subnodes _ (by omega)
            (fun k h₁ h₂ => hclean k (by omega) (by omega)) ?_,
            partitionNodes, List.append_assoc, List.singleton_append,
            Nat.add_right_comm]
          · rfl
          · intro k hk other hother heq
            rcases List.mem_append.1 hother with hother | hother
            · exact hfresh k (by omega) other hother heq
            · rw [List.mem_singleton.1 hother] at heq
              have := numbered_inj heq
              omega
  | @extended n i chain l hext _ _ _ =>
      intro hall
      have hplain := hall i (Nat.le_refl _) (by omega)
      rw [hext] at hplain
      exact absurd hplain.symm Bool.false_ne_true

/-! ## The crawler -/

theorem addSubnode_drive (subnodes : List BlockNode) (drive : BlockDrive) :
    addSubnode subnodes ⟨drive.name, 0, drive.length⟩ =
      registered subnodes [⟨drive.name, 0, drive.length⟩] := by
  rw [addSubnode, registered]
  congr 1
  refine List.filter_congr fun other _ => ?_
  rw [List.all_cons, List.all_nil, Bool.and_true, bne_comm]

/-- On a disk without an extended partition the crawler registers the drive
and its partitions, whatever the directory held before. -/
theorem probeFilesystems_primary {buffer : Nat → Name} {drive : BlockDrive}
    {l : List (Nat × Nat)} (hblock : drive.blockSize = 512)
    (hlayout : Partitions drive.disk l)
    (hplain : ∀ i, i < 4 → (tableEntry drive.disk 0 i).isExtended = false)
    (hname : ∀ c ∈ drive.name, isSpace c = false)
    (hclean : ∀ n, 1 ≤ n → n ≤ l.length → CleanBuffer buffer drive.name n)
    (fuel : Nat) (subnodes : List BlockNode) :
    probeFilesystems buffer drive fuel subnodes =
      some (registered subnodes (driveNodes drive l)) := by
  have hloop := probeEntrys_plain fuel hblock hname hlayout
    (fun j _ hj => hplain j (by omega)) 1 subnodes
    [⟨drive.name, 0, drive.length⟩] (by decide)
    (fun n h₁ h₂ => hclean n h₁ (by omega))
    fun n _ other hother heq => by
      rw [List.mem_singleton.1 hother] at heq
      exact numbered_ne_drive heq
  rw [probeFilesystems, getTable_zero, addSubnode_drive]
  simp only [hloop]
  rfl

/-- A disk from the bytes that are not zero. -/
def diskOf (bytes : List (Nat × UInt8)) (a : Nat) : UInt8 :=
  (bytes.lookup a).getD 0

/-- A disk with two primary partitions, 40 sectors from sector 1 on and 20 from
sector 50 on, and a slot between them that is not used. -/
def primaryDrive : BlockDrive where
  name := ['h', 'd', 'a']
  blockSize := 512
  length := 51200
  disk := diskOf [(450, 0x83), (454, 1), (458, 40), (482, 0x83), (486, 50),
    (490, 20), (510, 0x55), (511, 0xAA)]

theorem probeFilesystems_primaryDrive :
    probeFilesystems (fun _ => []) primaryDrive 0 [] =
      some (registered [] (driveNodes primaryDrive [(1, 40), (50, 20)])) :=
  probeFilesystems_primary rfl
    (.primary rfl (.primary rfl (.primary rfl (.primary rfl .nil))))
    (by decide) (by simp [primaryDrive, isSpace])
    (fun _ _ _ => by simp [CleanBuffer]) 0 []

/-- A disk with one extended partition from sector 1 on, and in it one logical
partition: 5 sectors from sector 2 on. -/
def extendedDrive : BlockDrive where
  name := ['h', 'd', 'a']
  blockSize := 512
  length := 51200
  disk := diskOf [(450, 0x05), (454, 1), (458, 40), (510, 0x55), (511, 0xAA),
    (962, 0x83), (966, 1), (970, 5), (1022, 0x55), (1023, 0xAA)]

/-- The record is looked for at the byte address 1: the logical partition is
not found. -/
theorem probeFilesystems_extendedDrive :
    Partitions extendedDrive.disk [(2, 5)] ∧
    ∀ fuel, probeFilesystems (fun _ => []) extendedDrive fuel [] ≠
      some (registered [] (driveNodes extendedDrive [(2, 5)])) := by
  constructor
  · exact .extended rfl (.last rfl)
      (.primary rfl (.primary rfl (.primary rfl .nil)))
  · intro fuel h
    cases fuel with
    | zero => exact Option.some_ne_none _ h.symm
    | succ fuel =>
        have hrun : probeFilesystems (fun _ => []) extendedDrive (fuel + 1) [] =
            some [⟨['h', 'd', 'a'], 0, 51200⟩] := rfl
        rw [hrun] at h
        exact absurd h (by decide)

end PartitiontableCrawler

end Iposix.Fs
