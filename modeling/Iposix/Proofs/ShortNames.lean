import Iposix.Fs.FatFsNode
import Iposix.Lib.Padded

/-!
# Short names

The name of a directory entry is two fields, eight bytes and three, filled up
with spaces. `filename` takes the run in front of the first space out of each,
puts a dot between them unless there is no extension, and writes capitals small.

None of this loses anything on a name as it should be: the runs hold no space,
so the fields are the runs filled up again; they hold no dot, so the dot is the
first one; and they hold no small letter, so the capitals can be restored.
-/

namespace Iposix.Fs

open Iposix.Lib

/-- A character of a name: not NUL, space, '.' or a small letter. -/
def NameChar (c : UInt8) : Prop :=
  c ≠ 0 ∧ c ≠ 32 ∧ c ≠ 46 ∧ ¬ (97 ≤ c ∧ c ≤ 122)

instance (c : UInt8) : Decidable (NameChar c) :=
  inferInstanceAs (Decidable (_ ∧ _ ∧ _ ∧ _))

/-- A name as it should be, before it is filled up. -/
structure ShortName where
  base : List UInt8
  extension : List UInt8
  base_ne : base ≠ []
  base_length : base.length ≤ 8
  extension_length : extension.length ≤ 3
  base_chars : ∀ c, c ∈ base → NameChar c
  extension_chars : ∀ c, c ∈ extension → NameChar c

namespace ShortName

/-- The eleven bytes of an entry that has the name. -/
def bytes (s : ShortName) : List UInt8 :=
  padded 8 32 s.base ++ padded 3 32 s.extension

/-- The name with its dot. -/
def dotted (s : ShortName) : List UInt8 := joined 46 s.base s.extension

end ShortName

namespace FatDirectoryEntry

variable {entry entry' : FatDirectoryEntry}

/-- The eleven name bytes. -/
def nameBytes (entry : FatDirectoryEntry) : List UInt8 :=
  entry.name ++ entry.extension

/-- The name fields hold a name as it should be. -/
def WellFormed (entry : FatDirectoryEntry) : Prop :=
  ∃ s : ShortName,
    entry.name = padded 8 32 s.base ∧ entry.extension = padded 3 32 s.extension

/-- They are the first eleven of the entry. -/
theorem nameBytes_ofBytes (entrys : Nat → UInt8) (j : Nat) :
    (ofBytes entrys j).nameBytes =
      (List.range 11).map (window entrys (DIRECTORY_ENTRY_SIZE * j)) := by
  show (List.range 8).map _ ++ (List.range 3).map _ = (List.range (8 + 3)).map _
  rw [List.range_add, List.map_append, List.map_map]
  rfl

/-- What `toLower` did to a capital is undone. -/
def toUpper (value : UInt8) : UInt8 :=
  if 97 ≤ value ∧ value ≤ 122 then value - 32 else value

theorem toUpper_toLower {c : UInt8} (h : ¬ (97 ≤ c ∧ c ≤ 122)) :
    toUpper (toLower c) = c := by
  simp only [UInt8.le_iff_toNat_le, UInt8.reduceToNat] at h
  simp only [toUpper, toLower, UInt8.le_iff_toNat_le, Bool.and_eq_true,
    decide_eq_true_eq, UInt8.reduceToNat]
  by_cases hcapital : 65 ≤ c.toNat ∧ c.toNat ≤ 90
  · have hsmall : (c + 32).toNat = c.toNat + 32 := by
      rw [UInt8.toNat_add]
      show (c.toNat + 32) % 256 = c.toNat + 32
      omega
    rw [if_pos hcapital, hsmall, if_pos (by omega), UInt8.add_sub_cancel]
  · rw [if_neg hcapital, if_neg h]

end FatDirectoryEntry

namespace ShortName

open FatDirectoryEntry

variable {s s' : ShortName}

theorem charOk_of_nameChar {c : UInt8} (h : NameChar c) : charOk c = true := by
  rw [charOk, Bool.and_eq_true, bne_iff_ne, bne_iff_ne]
  exact ⟨h.1, h.2.1⟩

theorem charOk_space : charOk 32 = false := by decide

theorem dot_not_mem {run : List UInt8} (h : ∀ c, c ∈ run → NameChar c) :
    46 ∉ run := fun hdot => (h 46 hdot).2.2.1 rfl

/-- Each field determines its run. -/
theorem bytes_inj : s.bytes = s'.bytes ↔
    s.base = s'.base ∧ s.extension = s'.extension := by
  have hbase : ∀ s : ShortName, ∀ c, c ∈ s.base → charOk c = true :=
    fun s c hc => charOk_of_nameChar (s.base_chars c hc)
  have hext : ∀ s : ShortName, ∀ c, c ∈ s.extension → charOk c = true :=
    fun s c hc => charOk_of_nameChar (s.extension_chars c hc)
  rw [← padded_inj (hbase s) (hbase s') charOk_space 8,
    ← padded_inj (hext s) (hext s') charOk_space 3, bytes, bytes]
  constructor
  · intro h
    refine List.append_inj h ?_
    rw [length_padded s.base_length, length_padded s'.base_length]
  · intro ⟨h₁, h₂⟩
    rw [h₁, h₂]

theorem dotted_inj : s.dotted = s'.dotted ↔
    s.base = s'.base ∧ s.extension = s'.extension :=
  joined_inj (dot_not_mem s.base_chars) (dot_not_mem s'.base_chars)
    (dot_not_mem s.extension_chars)

theorem small_not_mem {c : UInt8} (h : c ∈ s.dotted) : ¬ (97 ≤ c ∧ c ≤ 122) := by
  rcases mem_joined h with hbase | rfl | hext
  · exact (s.base_chars c hbase).2.2.2
  · decide
  · exact (s.extension_chars c hext).2.2.2

/-- The capitals of a name come back. -/
theorem dotted_toLower (s : ShortName) :
    (s.dotted.map toLower).map toUpper = s.dotted := by
  rw [List.map_map]
  exact (List.map_congr_left fun c hc => toUpper_toLower (small_not_mem hc)).trans
    (List.map_id _)

/-- Written small, names that differ still differ. -/
theorem dotted_toLower_inj :
    s.dotted.map toLower = s'.dotted.map toLower ↔ s.bytes = s'.bytes := by
  rw [bytes_inj, ← dotted_inj]
  constructor
  · intro h
    rw [← s.dotted_toLower, h, s'.dotted_toLower]
  · intro h
    rw [h]

end ShortName

namespace FatDirectoryEntry

variable {entry entry' : FatDirectoryEntry}

/-- `filename` takes the runs out of the fields. -/
theorem filename_eq {s : ShortName} (hname : entry.name = padded 8 32 s.base)
    (hext : entry.extension = padded 3 32 s.extension) :
    entry.filename = s.dotted.map toLower := by
  have hbase : entry.name.takeWhile charOk = s.base := by
    rw [hname]
    exact takeWhile_padded
      (fun c hc => ShortName.charOk_of_nameChar (s.base_chars c hc))
      ShortName.charOk_space 8
  have hextension : entry.extension.takeWhile charOk = s.extension := by
    rw [hext]
    exact takeWhile_padded
      (fun c hc => ShortName.charOk_of_nameChar (s.extension_chars c hc))
      ShortName.charOk_space 3
  rw [filename, hbase, hextension]
  rfl

theorem filename_inj (h : entry.WellFormed) (h' : entry'.WellFormed) :
    entry.filename = entry'.filename ↔ entry.nameBytes = entry'.nameBytes := by
  obtain ⟨s, hname, hext⟩ := h
  obtain ⟨s', hname', hext'⟩ := h'
  rw [filename_eq hname hext, filename_eq hname' hext', nameBytes, hname, hext,
    nameBytes, hname', hext']
  exact ShortName.dotted_toLower_inj

end FatDirectoryEntry

/-! ## Looking a name up -/

/-- What the loop over the entries finds has the name. -/
theorem scanEntrys_found {name : List UInt8} {entrys : Nat → UInt8}
    {entry : FatDirectoryEntry} :
    ∀ {turns j : Nat}, scanEntrys name entrys turns j = .found entry →
      entry.filename = name := by
  intro turns
  induction turns with
  | zero => intro j h; cases h
  | succ turns ih =>
      intro j h
      rw [scanEntrys] at h
      split at h
      · exact ih h
      · split at h
        · cases h
        · split at h
          · next hname =>
              cases h
              exact hname
          · exact ih h

namespace FatFsNode

variable {node : FatFsNode} {container : Nat → UInt8} {name : List UInt8}
  {entry : FatDirectoryEntry}

theorem searchClusters_found : ∀ {turns offset : Nat} {entrys : Nat → UInt8},
    node.searchClusters container name turns offset entrys = some (some entry) →
      entry.filename = name := by
  intro turns
  induction turns with
  | zero => intro offset entrys h; cases h
  | succ turns ih =>
      intro offset entrys h
      rw [searchClusters] at h
      split at h
      · cases h
      · split at h
        · next hscan =>
            cases h
            exact scanEntrys_found hscan
        · cases h
        · exact ih h

theorem entryByName_found {fuel : Nat}
    (h : node.entryByName container name fuel = some (some entry)) :
    entry.filename = name := by
  rw [entryByName] at h
  split at h
  · cases h
  · split at h
    · cases h
    · exact searchClusters_found h

end FatFsNode

/-- Entries that are well formed have one name exactly if their name bytes are
one, and a lookup that finds one of them could have found no other. -/
theorem FatDirectoryEntry.filename_unambiguous {entry entry' : FatDirectoryEntry}
    (h : entry.WellFormed) (h' : entry'.WellFormed) :
    (entry.filename = entry'.filename ↔ entry.nameBytes = entry'.nameBytes) ∧
      ∀ (node : FatFsNode) (container : Nat → UInt8) (component : List UInt8)
        (fuel : Nat),
        node.entryByName container component fuel = some (some entry) →
          (entry'.filename = component ↔ entry'.nameBytes = entry.nameBytes) := by
  refine ⟨filename_inj h h', fun node container component fuel hfound => ?_⟩
  rw [← FatFsNode.entryByName_found hfound]
  exact filename_inj h' h

/-- "AB", which has no dot. -/
def plainName : ShortName where
  base := [65, 66]
  extension := []
  base_ne := by decide
  base_length := by decide
  extension_length := by decide
  base_chars := List.forall_mem_cons.2
    ⟨by decide, List.forall_mem_singleton.2 (by decide)⟩
  extension_chars := List.forall_mem_nil _

/-- "A" and "B", with a dot between them. -/
def dottedName : ShortName where
  base := [65]
  extension := [66]
  base_ne := by decide
  base_length := by decide
  extension_length := by decide
  base_chars := List.forall_mem_singleton.2 (by decide)
  extension_chars := List.forall_mem_singleton.2 (by decide)

/-- An entry of the name, for an empty file. -/
def ShortName.entry (s : ShortName) : FatDirectoryEntry where
  name := padded 8 32 s.base
  extension := padded 3 32 s.extension
  volumeLabel := false
  directory := false
  clusterHigh := 0
  clusterLow := 0
  size := 0

theorem plainName_unambiguous :
    (plainName.entry.filename = dottedName.entry.filename ↔
        plainName.entry.nameBytes = dottedName.entry.nameBytes) ∧
      ∀ (node : FatFsNode) (container : Nat → UInt8) (component : List UInt8)
        (fuel : Nat),
        node.entryByName container component fuel = some (some plainName.entry) →
          (dottedName.entry.filename = component ↔
            dottedName.entry.nameBytes = plainName.entry.nameBytes) :=
  FatDirectoryEntry.filename_unambiguous ⟨plainName, rfl, rfl⟩
    ⟨dottedName, rfl, rfl⟩

/-- "ab" and "a.b" -/
example : plainName.entry.filename = [97, 98] ∧
    dottedName.entry.filename = [97, 46, 98] := by decide

end Iposix.Fs
