import Iposix.Proofs.LiveEntries
import Iposix.Proofs.NamedNodes

/-!
# Paths on a FAT volume

With a FAT volume mounted at the root, the nodes that an open makes are those
that the entries on the disk describe: for each name the first entry of the
directory that has it, and its first cluster and size for the next. The open
comes back if every chain of clusters ends.
-/

namespace Iposix.Fs

open Iposix.Lib

namespace FatVolume

variable (fs : FatVolume) (container : Nat → UInt8) (n : Nat)

/-- The node of an entry. -/
def child (node : FatFsNode) (entry : FatDirectoryEntry) : FatFsNode :=
  { node with
    isDirectory := entry.directory
    cluster := fs.normCluster (entry.cluster fs.clustertable.type)
    size := entry.size }

/-- Along the entries of the directories; `n` clusters of each are looked at. -/
def follow : FatFsNode → List Path → Option FatFsNode
  | node, [] => some node
  | node, token :: tokens =>
      if node.isDirectory then
        match (scanList (nameBytes token) (node.entrys container n)).answer with
        | none => none
        | some entry => follow (fs.child node entry) tokens
      else none

variable {fs container n}

/-- Whatever cluster it begins at, no chain is longer than `n`. -/
structure Ends (fs : FatVolume) (n : Nat) : Prop where
  clusterSize : 0 < fs.clusterSize
  add : fs.clustertable.type = .fat32 → fs.clustertable.add = 0
  chain : ∀ c, nth fs.clustertable.next n c = none

theorem openSubnode_eq (h : fs.Ends n) {node : FatFsNode}
    (hfs : node.fs = fs.toFatFs) (hdir : node.isDirectory = true) {fuel : Nat}
    (hfuel : n ≤ fuel) (token : Path) :
    (fs.directories container fuel).openSubnode node token =
      some ((scanList (nameBytes token) (node.entrys container n)).answer.map
        (fs.child node)) := by
  have hlookup := FatFsNode.entryByName_eq hdir
    (by rw [hfs]; exact h.clusterSize) (by rw [hfs]; exact h.add)
    (by rw [hfs]; exact h.chain node.cluster) hfuel container (nameBytes token)
  show fs.openSubnode node container (nameBytes token) fuel = _
  rw [FatVolume.openSubnode, hlookup]
  simp only [hdir, Bool.not_true, Bool.false_eq_true, if_false]
  cases (scanList (nameBytes token) (node.entrys container n)).answer <;> rfl

/-- Where nothing else is mounted, a lookup follows the entries. -/
theorem lookup_eq (h : fs.Ends n) {roots : Path → Option FatFsNode} {fuel : Nat}
    (hfuel : n ≤ fuel) : ∀ {tokens : List Path} {node : FatFsNode}
    {done : List Path}, node.fs = fs.toFatFs →
    (∀ l, l ≠ [] → l <+: tokens → roots (absolute (done ++ l)) = none) →
    (fs.directories container fuel).lookup roots node done tokens =
      some (fs.follow container n node tokens) := by
  intro tokens
  induction tokens with
  | nil => intro node done _ _; rfl
  | cons token tokens ih =>
      intro node done hfs hroots
      have hfirst := hroots [token] (List.cons_ne_nil _ _)
        (List.prefix_append [token] tokens)
      have hrest : ∀ l, l ≠ [] → l <+: tokens →
          roots (absolute (done ++ [token] ++ l)) = none := fun l _ hl => by
        rw [List.append_assoc]
        exact hroots (token :: l) (List.cons_ne_nil _ _)
          ((List.prefix_cons_inj token).2 hl)
      have hkind : (fs.directories container fuel).isDirectory node =
          node.isDirectory := rfl
      rw [Directories.lookup, Directories.enter, hfirst, hkind, follow]
      cases hdir : node.isDirectory with
      | false => rfl
      | true =>
          simp only [if_true]
          rw [openSubnode_eq h hfs hdir hfuel]
          cases (scanList (nameBytes token) (node.entrys container n)).answer with
          | none => rfl
          | some entry => exact ih hfs hrest

open Namespace

/-- The volume is mounted at the root, and nothing else is. -/
structure Mounted (fs : FatVolume) (container : Nat → UInt8) (fuel : Nat)
    (root : FatFsNode) (s : Namespace FatFsNode) : Prop where
  faithful : s.Faithful (fs.directories container fuel)
  roots : s.roots = Function.update (fun _ => none) ['/'] (some root)

variable {fuel : Nat} {root : FatFsNode} {s : Namespace FatFsNode}

theorem mounted_init (fs : FatVolume) (container : Nat → UInt8) (fuel : Nat)
    (hdir : root.isDirectory = true) (content : Nat → FatFsNode) :
    fs.Mounted container fuel root
      ((Namespace.init content).mountRoot ['/'] root) := by
  have hinit : (Namespace.init content).Faithful
      (fs.directories container fuel) := .init content
  refine ⟨hinit.mountRoot hdir fun _ hopen => absurd rfl hopen, ?_⟩
  rw [mountRoot_roots hinit.wf]
  rfl

/-- Every name leads where the entries lead. -/
theorem Mounted.named (hs : fs.Mounted container fuel root s) (h : fs.Ends n)
    (hfuel : n ≤ fuel) (hroot : root.fs = fs.toFatFs) {tokens : List Path}
    (hvalid : Valid tokens) :
    (fs.directories container fuel).named s.roots tokens =
      some (fs.follow container n root tokens) := by
  rw [hs.roots, Directories.named, Function.update_self]
  refine lookup_eq h hfuel hroot fun l hne hl => ?_
  have hl : absolute l ≠ ['/'] := by
    cases l with
    | nil => exact absurd rfl hne
    | cons token l =>
        exact fullnameOf_ne_root l
          (hvalid token (hl.subset List.mem_cons_self)).1
  rw [List.nil_append, Function.update_of_ne hl]

/-- What the entries make of a name, with its complete form. -/
def answer (fs : FatVolume) (container : Nat → UInt8) (n : Nat)
    (root : FatFsNode) (name : Path) : Option (Path × FatFsNode) :=
  match cleanPath name with
  | [] => none
  | first :: tokens =>
      if first = ['/'] then
        (fs.follow container n root tokens).map
          fun node => (absolute tokens, node)
      else none

/-- An open comes back with the node that the entries lead to. -/
theorem Mounted.openNode (hs : fs.Mounted container fuel root s)
    (h : fs.Ends n) (hfuel : n ≤ fuel) (hroot : root.fs = fs.toFatFs)
    (name : Path) :
    ∃ t r, s.openNode (fs.directories container fuel) name = some (t, r) ∧
      fs.Mounted container fuel root t ∧
      r.map (fun i => ((t.vfs.nodes i).path, t.content i)) =
        fs.answer container n root name := by
  obtain ⟨hopen, hkeep⟩ := openNode_spec hs.faithful name
  have hfind : s.find (fs.directories container fuel) name =
      some (fs.answer container n root name) := by
    rw [find, FatVolume.answer]
    cases hclean : cleanPath name with
    | nil => rfl
    | cons first tokens =>
        by_cases hfirst : first = ['/']
        · rw [hfirst] at hclean ⊢
          simp only [if_true,
            hs.named h hfuel hroot (cleanPath_valid hclean), Option.map_some]
        · simp only [hfirst, if_false]
  rw [hfind] at hopen
  obtain ⟨⟨t, r⟩, ho, hanswer⟩ := Option.map_eq_some_iff.1 hopen
  obtain ⟨hfaithful, hroots⟩ := hkeep (t, r) ho
  exact ⟨t, r, ho, ⟨hfaithful, hroots.trans hs.roots⟩, hanswer⟩

theorem Mounted.closeNode (hs : fs.Mounted container fuel root s) (node : Nat) :
    fs.Mounted container fuel root (s.closeNode node) := by
  refine ⟨hs.faithful.closeNode node, Eq.trans ?_ hs.roots⟩
  funext p
  rw [Namespace.roots, Namespace.roots, Namespace.closeNode,
    Vfs.closeNode_mounted]

/-- Nothing is mounted or unmounted. -/
def Opens : Use FatFsNode → Prop
  | .open _ | .close _ => True
  | .mount _ _ | .umount _ => False

/-- After any opens and closes, every open comes back with the node that the
entries lead to. -/
theorem opens_follow_entries (h : fs.Ends n) (hfuel : n ≤ fuel)
    (hroot : root.fs = fs.toFatFs) (hdir : root.isDirectory = true)
    (content : Nat → FatFsNode) {uses : List (Use FatFsNode)}
    (huses : ∀ u, u ∈ uses → Opens u) :
    Along (step (fs.directories container fuel))
      (fun s => ∀ name, ∃ t r,
        s.openNode (fs.directories container fuel) name = some (t, r) ∧
          r.map (fun i => ((t.vfs.nodes i).path, t.content i)) =
            fs.answer container n root name)
      ((Namespace.init content).mountRoot ['/'] root) uses := by
  refine along_of_invariant (I := fs.Mounted container fuel root)
    (V := fun _ u => Opens u) (fun s hs name => ?_) (fun s u hs hu => ?_)
    (mounted_init fs container fuel hdir content)
    (meets_of_forall (fun u hu _ => huses u hu) _)
  · obtain ⟨t, r, ho, _, hanswer⟩ := hs.openNode h hfuel hroot name
    exact ⟨t, r, ho, hanswer⟩
  · cases u with
    | «open» name =>
        obtain ⟨t, r, ho, ht, _⟩ := hs.openNode h hfuel hroot name
        exact ⟨t, by rw [step, ho]; rfl, ht⟩
    | close node => exact ⟨_, rfl, hs.closeNode node⟩
    | mount mountpoint root => cases hu
    | umount mountpoint => cases hu

/-- Every cluster is the last one of its chain, and holds one entry. -/
def oneRoot : FatFsNode :=
  FatFsNode.smallDirectory ⟨some fun _ => 0xFF, 0, .fat16⟩

def oneEntry : FatVolume where
  toFatFs := oneRoot.fs
  maxDirEntrysInRoot := 1

/-- The root directory holds a file "a" of five bytes at cluster 3. -/
def oneFile (a : Nat) : UInt8 :=
  if a = 64 then 97 else if a < 75 then 32 else if a = 90 then 3
  else if a = 92 then 5 else 0

theorem oneEntry_ends : oneEntry.Ends 1 where
  clusterSize := by decide
  add := fun h => nomatch h
  chain c := by
    have hvalue : ∀ k, oneEntry.clustertable.value k = 65535 := fun k => by
      show load 2 (fun _ => (0xFF : UInt8)) _ = 65535
      simp [load]
    have hend : oneEntry.clustertable.isEnd c = true := by
      rw [ClusterTable.isEnd, hvalue]
      rfl
    rw [nth_one, ClusterTable.next, ClusterTable.hasSuccessor, hend,
      Bool.or_true]
    rfl

/-- The file is opened twice and closed once. -/
theorem oneEntry_opens :
    Along (step (oneEntry.directories oneFile 1))
      (fun s => ∀ name, ∃ t r,
        s.openNode (oneEntry.directories oneFile 1) name = some (t, r) ∧
          r.map (fun i => ((t.vfs.nodes i).path, t.content i)) =
            oneEntry.answer oneFile 1 oneRoot name)
      ((Namespace.init fun _ => oneRoot).mountRoot ['/'] oneRoot)
      [.open ['/', 'a'], .open ['/', '.', '/', 'a'], .close 1] :=
  opens_follow_entries oneEntry_ends (Nat.le_refl 1) rfl rfl _ (by
    simp only [List.forall_mem_cons]
    exact ⟨trivial, trivial, trivial, fun _ h => absurd h List.not_mem_nil⟩)

example : (oneEntry.answer oneFile 1 oneRoot ['/', '.', '/', 'a']).map
    (fun found => (found.1, found.2.isDirectory, found.2.cluster, found.2.size)) =
      some (['/', 'a'], false, 2, 5) := by decide +kernel

end FatVolume

end Iposix.Fs
