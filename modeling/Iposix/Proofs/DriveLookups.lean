import Iposix.Fs.ContainerLookups
import Iposix.Proofs.DriveStack
import Iposix.Proofs.FatPaths

/-!
# Opening over the drive

An open on a mounted volume reads the directories on its way from the drive,
cluster by cluster. It leaves the disk alone, and what it finds is what it would
find if the bytes of the partition lay in memory. What it takes is that these
directories lie inside the partition: behind its end the node of the partition
transfers nothing, and the buffer keeps what it held.
-/

namespace Iposix.Fs

open Iposix.Lib

open Iposix.Devices (Bytes)

universe u v

/-! ## Reading a directory -/

namespace FatFsNode

variable {σ : Type u} {container : Container σ} {disk : σ → Bytes}
  {first size most : Nat} {node : FatFsNode}

/-- All clusters of the chain lie inside the container. -/
def LiesIn (node : FatFsNode) (size : Nat) : Prop :=
  ∀ k a, node.fs.fileAddress node.cluster k = some a → a < size

/-- A node whose reads the container serves. -/
structure Served (node : FatFsNode) (container : Container σ)
    (disk : σ → Bytes) (first size most : Nat) : Prop where
  serves : container.Serves disk first size most
  clusterSize_pos : 0 < node.fs.clusterSize
  clusterSize_le : node.fs.clusterSize ≤ most

theorem readPureOn_eq (h : node.Served container disk first size most)
    {offset length : Nat} (hidx : offset / node.fs.clusterSize < 4294967296)
    (hlen : length < 4294967296)
    (hinside : node.fs.InsideFrom size node.cluster offset length) (dev : σ)
    (buffer : Bytes) :
    ∃ dev', node.readPureOn container dev offset buffer length =
        (node.readPure (window (disk dev) first) offset buffer length).map
          (·, dev') ∧
      disk dev' = disk dev := by
  have hio : ∃ dev' out flat, node.fs.clusterIoOn container (length + 1)
      .clusterRead node.cluster offset dev buffer length = some (dev', out) ∧ _ :=
    FatFs.clusterIoOn_simulates h.serves h.clusterSize_pos h.clusterSize_le hidx
      hlen (Nat.lt_succ_self _) hinside dev buffer
  obtain ⟨dev', out, flat, hrun, hflat, hdisk⟩ := hio
  obtain ⟨out', hout, -⟩ := node.fs.clusterIo_read node.cluster offset length
    (length + 1) (window (disk dev) first) buffer h.clusterSize_pos hidx hlen
    (Nat.lt_succ_self _)
  refine ⟨dev', ?_, ?_⟩
  · rw [readPureOn, readPure, hrun, hflat]
    rfl
  · rw [hout] at hflat
    obtain ⟨rfl, rfl⟩ := Prod.mk.inj (Option.some.inj hflat)
    exact hdisk.trans (graft_window_self _ _)

theorem searchClustersOn_eq (h : node.Served container disk first size most)
    (hin : node.LiesIn size) (name : List UInt8) :
    ∀ {turns i : Nat} (entrys : Bytes) (dev : σ), i + turns ≤ 4294967296 →
      ∃ dev', node.searchClustersOn container name turns
          (i * node.fs.clusterSize) entrys dev =
          (node.searchClusters (window (disk dev) first) name turns
            (i * node.fs.clusterSize) entrys).map (·, dev') ∧
        disk dev' = disk dev := by
  intro turns
  induction turns with
  | zero => intro i entrys dev _; exact ⟨dev, rfl, rfl⟩
  | succ turns ih =>
      intro i entrys dev hfit
      have hlen := node.fs.clusterSize_lt
      have hidx : i * node.fs.clusterSize / node.fs.clusterSize <
          4294967296 := by
        rw [Nat.mul_div_cancel i h.clusterSize_pos]
        omega
      have hnext : u64 (i * node.fs.clusterSize + node.fs.clusterSize : Nat) =
          (i + 1) * node.fs.clusterSize := by
        have hmul : i * node.fs.clusterSize ≤ 4294967296 * 16777216 :=
          Nat.mul_le_mul (by omega) (by omega)
        rw [Nat.succ_mul, u64]
        omega
      obtain ⟨dev₁, hread, hdisk⟩ := readPureOn_eq h hidx
        (by omega : node.fs.clusterSize < 4294967296)
        (fun k a _ ha => hin _ a ha) dev entrys
      rw [searchClustersOn, searchClusters, hread]
      cases node.readPure (window (disk dev) first) (i * node.fs.clusterSize)
        entrys node.fs.clusterSize with
      | none => exact ⟨dev₁, rfl, hdisk⟩
      | some out =>
          simp only [Option.map_some, hnext]
          cases scanEntrys name out
            (node.fs.clusterSize / DIRECTORY_ENTRY_SIZE) 0 with
          | found entry => exact ⟨dev₁, rfl, hdisk⟩
          | abort => exact ⟨dev₁, rfl, hdisk⟩
          | exhausted =>
              obtain ⟨dev', hrest, hdisk'⟩ :=
                ih out dev₁ (by omega : i + 1 + turns ≤ 4294967296)
              rw [hdisk] at hrest hdisk'
              exact ⟨dev', hrest, hdisk'⟩

end FatFsNode

namespace ClusterTable

theorem chainLoop_lt (t : ClusterTable) : ∀ {fuel cluster length n : Nat},
    length < 4294967296 → t.chainLoop fuel cluster length = some n →
    n < 4294967296 := by
  intro fuel
  induction fuel with
  | zero => intro cluster length n _ h; cases h
  | succ fuel ih =>
      intro cluster length n hlt h
      rw [chainLoop] at h
      split at h
      next => exact ih (u32_lt _) h
      next =>
        cases h
        exact hlt

theorem chainLength_lt (t : ClusterTable) {fuel cluster n : Nat}
    (h : t.chainLength fuel cluster = some n) : n < 4294967296 := by
  refine t.chainLoop_lt ?_ h
  split <;> decide

end ClusterTable

theorem FatFsNode.entryByNameOn_eq {σ : Type u} {container : Container σ}
    {disk : σ → Bytes} {first size most : Nat} {node : FatFsNode}
    (h : node.Served container disk first size most)
    (hin : node.isDirectory = true → node.LiesIn size) (dev : σ)
    (name : List UInt8) (fuel : Nat) :
    ∃ dev', node.entryByNameOn container dev name fuel =
        (node.entryByName (window (disk dev) first) name fuel).map (·, dev') ∧
      disk dev' = disk dev := by
  rw [entryByNameOn, entryByName]
  cases hdir : node.isDirectory with
  | false => exact ⟨dev, rfl, rfl⟩
  | true =>
      simp only [Bool.not_true, Bool.false_eq_true, if_false]
      cases hlength : node.fs.clustertable.chainLength fuel node.cluster with
      | none => exact ⟨dev, rfl, rfl⟩
      | some clusters =>
          have hlt := ClusterTable.chainLength_lt _ hlength
          obtain ⟨dev', hsearch, hdisk⟩ := searchClustersOn_eq h (hin hdir) name
            (fun _ => 0) dev (by omega : 0 + clusters ≤ 4294967296)
          rw [Nat.zero_mul] at hsearch
          exact ⟨dev', hsearch, hdisk⟩

theorem FatVolume.openSubnodeOn_eq {σ : Type u} (fs : FatVolume)
    {container : Container σ} {disk : σ → Bytes} {first size most : Nat}
    {node : FatFsNode} (h : node.Served container disk first size most)
    (hin : node.isDirectory = true → node.LiesIn size) (dev : σ)
    (subname : List UInt8) (fuel : Nat) :
    ∃ dev', fs.openSubnodeOn container dev node subname fuel =
        (fs.openSubnode node (window (disk dev) first) subname fuel).map
          (·, dev') ∧
      disk dev' = disk dev := by
  obtain ⟨dev', hentry, hdisk⟩ := FatFsNode.entryByNameOn_eq h hin dev subname fuel
  rw [openSubnodeOn, openSubnode, hentry]
  cases node.isDirectory with
  | false => exact ⟨dev, rfl, rfl⟩
  | true =>
      refine ⟨dev', ?_, hdisk⟩
      cases node.entryByName (window (disk dev) first) subname fuel with
      | none => rfl
      | some entry => cases entry <;> rfl

/-! ## Following a name -/

/-- While the devices stay in these states, the answers are those of
directories in memory, at every node that is good; and they lead to good
ones. -/
structure DirectoriesOn.Resembles {σ : Type u} {α : Type v}
    (dirsOn : DirectoriesOn σ α) (dirs : Directories α) (states : σ → Prop)
    (good : α → Prop) : Prop where
  isDirectory : ∀ data, dirsOn.isDirectory data = dirs.isDirectory data
  openSubnode : ∀ dev data, states dev → good data → ∀ subname, ∃ dev',
    dirsOn.openSubnode dev data subname =
        (dirs.openSubnode data subname).map (·, dev') ∧ states dev'
  leads : ∀ data, good data → ∀ subname found,
    dirs.openSubnode data subname = some (some found) → good found

namespace Namespace

variable {σ : Type u} {α : Type v} {dirsOn : DirectoriesOn σ α}
  {dirs : Directories α} {states : σ → Prop} {good : α → Prop}
  {s : Namespace α} {dev : σ} {node : Nat}

/-- All nodes that are open or mounted are good. -/
structure Holds (good : α → Prop) (s : Namespace α) : Prop where
  opened : ∀ p node, s.vfs.openNodes p = some node → good (s.content node)
  mounted : ∀ p node, s.vfs.mountedFilesystems p = some node →
    good (s.content node)

theorem content_newNode {data : α} (hdata : good data)
    (hnode : node = s.vfs.next ∨ good (s.content node)) (fullname : Path) :
    good ((s.newNode dirs fullname data).1.content node) := by
  show good (Function.update s.content s.vfs.next data node)
  by_cases hnew : node = s.vfs.next
  · rw [hnew, Function.update_self]
    exact hdata
  · rw [Function.update_of_ne hnew]
    exact hnode.resolve_left hnew

theorem Holds.newNode (hs : s.Holds good) {data : α} (hdata : good data)
    (fullname : Path) : (s.newNode dirs fullname data).1.Holds good where
  opened p node hp := content_newNode hdata (.inr (hs.opened p node hp)) fullname
  mounted p node hp := content_newNode hdata (.inr (hs.mounted p node hp)) fullname

theorem holds_init (content : Nat → α) {root : α} (hroot : good root) :
    ((Namespace.init content).mountRoot ['/'] root).Holds good where
  opened p node hp := by cases hp
  mounted p node hp := by
    rcases Vfs.mountRoot_mounted hp with ⟨_, rfl⟩ | hp
    · rw [mountRoot]
      dsimp only
      rw [Function.update_self]
      exact hroot
    · cases hp

/-- Behind a name of a path all nodes are good, the one found with them. -/
structure Led (good : α → Prop) (t : Namespace α) (ret : Option Nat) : Prop where
  holds : t.Holds good
  base : ∀ node, ret = some node → good (t.content node)

theorem Holds.found (hs : s.Holds good) (hnode : good (s.content node)) :
    Led good s (some node) :=
  ⟨hs, fun _ heq => Option.some.inj heq ▸ hnode⟩

theorem Holds.missed (hs : s.Holds good) : Led good s none :=
  ⟨hs, fun _ heq => by cases heq⟩

/-- A call over the devices comes back where the one in memory does and with the
same, and the devices are left in one of these states. -/
inductive Mirrors (states : σ → Prop) (good : α → Prop) :
    Option (Namespace α × Option Nat × σ) → Option (Namespace α × Option Nat) →
      Prop
  | none : Mirrors states good none none
  | some {t : Namespace α} {ret : Option Nat} {dev : σ} :
      states dev → Led good t ret →
        Mirrors states good (some (t, ret, dev)) (some (t, ret))

theorem Mirrors.returned {on : Option (Namespace α × Option Nat × σ)}
    {t : Namespace α} {ret : Option Nat}
    (h : Mirrors states good on (.some (t, ret))) :
    ∃ dev, on = .some (t, ret, dev) ∧ states dev ∧ Led good t ret := by
  cases h with
  | some hdev hled => exact ⟨_, rfl, hdev, hled⟩

theorem openSubnodeOn_mirrors (h : dirsOn.Resembles dirs states good)
    (hs : s.Holds good) (hdev : states dev) (hnode : good (s.content node))
    (fullname subname : Path) :
    Mirrors states good (s.openSubnodeOn dirsOn dev node fullname subname)
      (s.openSubnode dirs node fullname subname) := by
  rw [openSubnodeOn, Namespace.openSubnode]
  cases hopen : s.vfs.openNodes fullname with
  | some ret => exact .some hdev (hs.found (hs.opened _ _ hopen))
  | none =>
      cases hmounted : s.vfs.mountedFilesystems fullname with
      | some ret => exact .some hdev (hs.found (hs.mounted _ _ hmounted))
      | none =>
          dsimp only
          split
          · exact .some hdev (hs.found hnode)
          split
          · obtain ⟨dev', hanswer, hdev'⟩ :=
              h.openSubnode dev _ hdev hnode subname
            rw [hanswer]
            cases hfound : dirs.openSubnode (s.content node) subname with
            | none => exact .none
            | some found =>
                cases found with
                | none => exact .some hdev' hs.missed
                | some data =>
                    have hdata := h.leads _ hnode _ _ hfound
                    simp only [Option.map_some, h.isDirectory]
                    exact .some hdev' ((hs.newNode hdata fullname).found
                      (content_newNode hdata (.inl rfl) fullname))
          · exact .some hdev hs.missed

theorem walkOn_mirrors (h : dirsOn.Resembles dirs states good) :
    ∀ {tokens : List Path} {s : Namespace α} {dev : σ} {base : Option Nat}
      {fullname : Path} {separator : Bool}, Led good s base → states dev →
      Mirrors states good (walkOn dirsOn s dev base fullname separator tokens)
        (walk dirs s base fullname separator tokens) := by
  intro tokens
  induction tokens with
  | nil =>
      intro s dev base fullname separator hled hdev
      cases base <;> exact .some hdev hled
  | cons token tokens ih =>
      intro s dev base fullname separator hled hdev
      cases base with
      | none => exact .some hdev hled
      | some base =>
          rw [walkOn, walk]
          generalize (if separator then fullname ++ ['/'] else fullname) ++
            token = fullname
          have hcall := openSubnodeOn_mirrors h hled.holds hdev
            (hled.base _ rfl) fullname token
          generalize s.openSubnodeOn dirsOn dev base fullname token = on,
            s.openSubnode dirs base fullname token = flat at hcall ⊢
          cases hcall with
          | none => exact .none
          | some hdev hled => exact ih hled hdev

theorem Holds.open (hs : s.Holds good) (hnode : good (s.content node)) :
    Holds good { s with vfs := s.vfs.open node } where
  opened p m hm := by
    dsimp only at hm ⊢
    by_cases hpath : (s.vfs.nodes node).path = []
    · rw [Vfs.open, hpath] at hm
      exact hs.opened p m hm
    · rw [Vfs.open_opened hpath] at hm
      by_cases hp : p = (s.vfs.nodes node).path
      · rw [hp, Function.update_self] at hm
        exact Option.some.inj hm ▸ hnode
      · rw [Function.update_of_ne hp] at hm
        exact hs.opened p m hm
  mounted p m hm := by
    rw [Vfs.open_mounted] at hm
    exact hs.mounted p m hm

theorem Holds.closeNode (hs : s.Holds good) (node : Nat) :
    (s.closeNode node).Holds good where
  opened p m hm := hs.opened p m (Vfs.closeNode_opened hm)
  mounted p m hm := by
    rw [Namespace.closeNode, Vfs.closeNode_mounted] at hm
    exact hs.mounted p m hm

/-- An open over the devices comes to the node that it would come to if the
directories lay in memory. -/
theorem openNodeOn_mirrors (h : dirsOn.Resembles dirs states good)
    (hs : s.Holds good) (hdev : states dev) (name : Path) :
    Mirrors states good (s.openNodeOn dirsOn dev name) (s.openNode dirs name) := by
  rw [openNodeOn, Namespace.openNode]
  cases cleanPath name with
  | nil => exact .some hdev hs.missed
  | cons first tokens =>
      dsimp only
      split
      · cases hroot : s.vfs.mountedFilesystems ['/'] with
        | none => exact .some hdev hs.missed
        | some base =>
            have hwalk : Mirrors states good
                (walkOn dirsOn s dev (some base) ['/'] false tokens)
                (walk dirs s (some base) ['/'] false tokens) :=
              walkOn_mirrors h (hs.found (hs.mounted _ _ hroot)) hdev
            dsimp only
            generalize walkOn dirsOn s dev (some base) ['/'] false tokens = on,
              walk dirs s (some base) ['/'] false tokens = flat at hwalk ⊢
            cases hwalk with
            | none => exact .none
            | @some t ret dev' hdev' hled =>
                cases ret with
                | none => exact .some hdev' hled
                | some node =>
                    have hnode := hled.base node rfl
                    exact .some hdev' ((hled.holds.open hnode).found hnode)
      · exact .some hdev hs.missed

end Namespace

/-! ## A volume on the drive -/

namespace FatVolume

variable {fs : FatVolume} {n fuel : Nat} {root node : FatFsNode}

theorem follow_fs {container : Nat → UInt8} : ∀ {tokens : List Path}
    {node found : FatFsNode}, node.fs = fs.toFatFs →
    fs.follow container n node tokens = some found →
    found.fs = fs.toFatFs := by
  intro tokens
  induction tokens with
  | nil =>
      intro node found hfs hfound
      cases hfound
      exact hfs
  | cons token tokens ih =>
      intro node found hfs hfound
      rw [follow] at hfound
      split at hfound
      · split at hfound
        · cases hfound
        · exact ih (show (fs.child _ _).fs = fs.toFatFs from hfs) hfound
      · cases hfound

theorem follow_concat {container : Nat → UInt8} {token : Path}
    {found : FatFsNode} : ∀ {tokens : List Path} {node : FatFsNode},
    fs.follow container n node tokens = some found →
    fs.follow container n node (tokens ++ [token]) =
      fs.follow container n found [token] := by
  intro tokens
  induction tokens with
  | nil =>
      intro node hfound
      cases hfound
      rfl
  | cons first tokens ih =>
      intro node hfound
      rw [follow] at hfound
      rw [List.cons_append, follow]
      split at hfound
      next hdir =>
        rw [if_pos hdir]
        split at hfound
        · cases hfound
        next => exact ih hfound
      · cases hfound

/-- The entries lead to the node. -/
def Leads (fs : FatVolume) (container : Nat → UInt8) (n : Nat)
    (root node : FatFsNode) : Prop :=
  ∃ tokens, fs.follow container n root tokens = some node

/-- Every directory that the entries lead to lies inside the container. -/
def DirectoriesIn (fs : FatVolume) (container : Nat → UInt8) (n : Nat)
    (root : FatFsNode) (size : Nat) : Prop :=
  ∀ node, fs.Leads container n root node → node.isDirectory = true →
    node.LiesIn size

theorem directoriesOn_resemble {σ : Type u} {container : Container σ}
    {disk : σ → Bytes} {first size most : Nat} {D : Bytes}
    (hserves : container.Serves disk first size most)
    (hmost : fs.clusterSize ≤ most) (h : fs.Ends n) (hfuel : n ≤ fuel)
    (hroot : root.fs = fs.toFatFs)
    (hin : fs.DirectoriesIn (window D first) n root size) :
    (fs.directoriesOn container fuel).Resembles
      (fs.directories (window D first) fuel) (fun dev => disk dev = D)
      (fs.Leads (window D first) n root) := by
  refine ⟨fun _ => rfl, ?_, ?_⟩
  · intro dev node hdev hnode subname
    obtain ⟨tokens, hfollow⟩ := hnode
    have hfs := follow_fs hroot hfollow
    have hserved : node.Served container disk first size most :=
      ⟨hserves, by rw [hfs]; exact h.clusterSize, by rw [hfs]; exact hmost⟩
    obtain ⟨dev', hcall, hdisk⟩ := fs.openSubnodeOn_eq hserved
      (hin node ⟨tokens, hfollow⟩) dev (nameBytes subname) fuel
    rw [hdev] at hcall hdisk
    exact ⟨dev', hcall, hdisk⟩
  · intro node hnode subname found hfound
    obtain ⟨tokens, hfollow⟩ := hnode
    refine ⟨tokens ++ [subname], ?_⟩
    rw [follow_concat hfollow, follow]
    cases hdir : node.isDirectory with
    | false =>
        have hnone : fs.openSubnode node (window D first) (nameBytes subname)
            fuel = some none := by
          rw [FatVolume.openSubnode, hdir]
          rfl
        cases hnone.symm.trans hfound
    | true =>
        rw [openSubnode_eq h (follow_fs hroot hfollow) hdir hfuel] at hfound
        obtain ⟨entry, hentry, rfl⟩ :=
          Option.map_eq_some_iff.1 (Option.some.inj hfound)
        rw [if_pos rfl, hentry]
        rfl

open Namespace

open Devices.Ata (Controller Drive)

/-- The volume is mounted, and the disk is `D`. -/
structure MountedOn (fs : FatVolume) (D : Bytes) (first n fuel : Nat)
    (root : FatFsNode) (o : Namespace FatFsNode × Controller) : Prop where
  mounted : fs.Mounted (window D first) fuel root o.1
  holds : o.1.Holds (fs.Leads (window D first) n root)
  disk : o.2.disk = D

variable {drive : Drive} {sectors first last most : Nat}

/-- Where a cluster starts is computed in 32 bits. -/
theorem directoriesIn_of_le {container : Nat → UInt8} {size : Nat}
    (h : fs.Ends n) (hroot : root.fs = fs.toFatFs)
    (hsize : 4294967296 + fs.clusterSize ≤ size) :
    fs.DirectoriesIn container n root size := by
  intro node hnode _ k a ha
  obtain ⟨tokens, hfollow⟩ := hnode
  rw [follow_fs hroot hfollow] at ha
  obtain ⟨cluster, -, rfl⟩ := Option.map_eq_some_iff.1 ha
  have hbase : fs.clusterBase cluster < 4294967296 := u32_lt _
  have hrest : k % fs.clusterSize < fs.clusterSize := Nat.mod_lt _ h.clusterSize
  omega

/-- The root directory holds a directory "d" at cluster 3, and this a file "a"
of five bytes at cluster 4. -/
def nestedFile (a : Nat) : UInt8 :=
  if a = 64 then 100 else if a = 75 then 16 else if a = 90 then 3
  else if a = 128 then 97 else if a = 139 then 0 else if a = 154 then 4
  else if a = 156 then 5 else if 64 ≤ a ∧ a < 75 ∨ 128 ≤ a ∧ a < 139 then 32
  else 0

example : (oneEntry.answer (window (graft (fun _ => 0) 512 nestedFile) 512) 1
    oneRoot ['/', 'd', '/', 'a']).map
      (fun found => (found.1, found.2.isDirectory, found.2.cluster,
        found.2.size)) =
      some (['/', 'd', '/', 'a'], false, 3, 5) := by decide +kernel

end FatVolume

end Iposix.Fs
