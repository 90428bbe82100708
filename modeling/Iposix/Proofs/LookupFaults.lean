import Iposix.Fs.Lookups
import Iposix.Proofs.DescriptorTable

/-!
# Which lookups are defined

A lookup in the filesystem layer is defined when its key is there, and nothing
in the layer makes sure of that: the functions look for a key to learn whether
it is there. A name can be opened only if every node on the way to it is open
already, since the open nodes are asked first and the first name that is not
among them reads behind the map. What an open finds otherwise, under a mount
point or in a directory, is never reached.
-/

namespace Iposix.Fs.Lookups

open Iposix.Lib
open Iposix.Fs.FileCalls

variable {ω : Type} {methods : NodeMethods ω} {s : System ω}

/-! ## One lookup -/

theorem second_of {κ : Type} {find : κ → Option Nat} {key : κ} {entry : Nat}
    (h : find key = some entry) : second find key = .ok (some entry) := by
  rw [second, h]

theorem safe_second_iff {κ : Type} {find : κ → Option Nat} {key : κ} :
    Safe (second find key) ↔ (find key).isSome := by
  rw [second]
  cases find key with
  | none => exact iff_of_false (not_safe_fault _) Bool.false_ne_true
  | some entry => exact iff_of_true (safe_ok _) rfl

/-- What follows a lookup matters only if the key is there. -/
theorem safe_second_bind_iff {κ : Type} {α : Type} {find : κ → Option Nat}
    {key : κ} {k : Option Nat → Run α} :
    Safe (second find key >>= k) ↔
      ∃ entry, find key = some entry ∧ Safe (k (some entry)) := by
  rw [second]
  cases hfind : find key with
  | none => exact iff_of_false (not_safe_fault _) nofun
  | some entry =>
      constructor
      · exact fun h => ⟨entry, rfl, h⟩
      · rintro ⟨_, ⟨⟩, h⟩
        exact h

/-! ## When a request is defined -/

/-- The complete names the loop of `open_node` asks for. -/
def fullnames : (fullname : Path) → (separator : Bool) → List Path → List Path
  | _, _, [] => []
  | fullname, separator, token :: tokens =>
      let fullname :=
        (if separator then fullname ++ ['/'] else fullname) ++ token
      fullname :: fullnames fullname true tokens

/-- A name has a token, and if it is absolute there is a root and every node on
the way is open. -/
def Resolves (s : System ω) (name : Path) : Prop :=
  match cleanPath name with
  | [] => False
  | first :: tokens =>
      first = ['/'] →
        (s.vfs.mountedFilesystems ['/']).isSome ∧
        ∀ fullname, fullname ∈ fullnames ['/'] false tokens →
          (s.vfs.openNodes fullname).isSome

/-- A node without another use is among the open nodes. -/
def Closable (s : System ω) (node : Nat) : Prop :=
  (s.vfs.nodes node).uses ≤ 1 →
    (s.vfs.openNodes (s.vfs.nodes node).path).isSome

/-- The keys a request looks for are there. -/
def Defined (s : System ω) : Request → Prop
  | .fileCall (.openCall _ _ pathName ..) => Resolves s pathName
  | .fileCall (.closeCall process fileDescriptor) =>
      ∃ fh, (s.kernel.holders process).getFilehandle (u32 fileDescriptor) =
          some fh ∧
        ∀ node, (s.kernel.filehandles fh).node = some node → Closable s node
  | .fileCall (.readCall process fileDescriptor ..)
  | .fileCall (.writeCall process fileDescriptor ..)
  | .fileCall (.lseekCall process fileDescriptor ..)
  | .fileCall (.fstatCall process fileDescriptor ..) =>
      ((s.kernel.holders process).getFilehandle (u32 fileDescriptor)).isSome
  | .fileCall (.forkCall ..) => True
  | .openNode _ name => Resolves s name
  | .closeNode node => ∃ n, node = some n ∧ Closable s n
  | .openSubnode _ _ fullname _ => (s.vfs.openNodes fullname).isSome
  | .mount _ _ _ nodename => nodename = [] ∨ Resolves s nodename
  | .mountRootDummy => (s.vfs.mountedFilesystems ['/']).isSome
  | .umount _ | .newDevNode .. | .addSubnode .. => True
  | .devOpenSubnode node _ subname =>
      ∀ subnodes, s.subnodes node = some subnodes →
        (s.vfs.nodes node).isDirectory = true → (subnodes subname).isSome

/-! ## The functions -/

theorem safe_closeNode_iff {node : Nat} :
    Safe (s.closeNode (some node)) ↔ Closable s node := by
  rw [System.closeNode, deref, ok_bind, Closable]
  split
  next huses =>
    rw [safe_second_bind_iff]
    constructor
    · rintro ⟨entry, hentry, -⟩ _
      rw [hentry]
      rfl
    · intro h
      obtain ⟨entry, hentry⟩ := Option.isSome_iff_exists.1 (h huses)
      exact ⟨entry, hentry, safe_ok _⟩
  next huses => exact iff_of_true (safe_ok _) fun h => absurd h huses

theorem openSubnode_of {sub : Subnodes} {node : Option Nat}
    {fullname subname : Path} {entry : Nat}
    (h : s.vfs.openNodes fullname = some entry) :
    s.openSubnode sub node fullname subname = .ok (s, some entry) := by
  unfold System.openSubnode
  rw [second_of h]
  rfl

theorem safe_openSubnode_iff {sub : Subnodes} {node : Option Nat}
    {fullname subname : Path} :
    Safe (s.openSubnode sub node fullname subname) ↔
      (s.vfs.openNodes fullname).isSome := by
  unfold System.openSubnode
  rw [safe_second_bind_iff, Option.isSome_iff_exists]
  exact exists_congr fun entry => and_iff_left (safe_ok _)

/-- On the way through open nodes nothing is made, and there is a node at the
end; the model that reads null goes the same way. -/
theorem walk_of (sub sub' : Subnodes) : ∀ (tokens : List Path) (base : Nat)
    {fullname : Path} {separator : Bool},
    (∀ p, p ∈ fullnames fullname separator tokens →
      (s.vfs.openNodes p).isSome) →
    ∃ ret, System.walk sub s (some base) fullname separator tokens =
        .ok (s, some ret) ∧
      Vfs.walk sub' s.vfs (some base) fullname separator tokens =
        (s.vfs, some ret)
  | [], base, _, _, _ => ⟨base, rfl, rfl⟩
  | token :: tokens, base, fullname, separator, h => by
      obtain ⟨entry, hentry⟩ := Option.isSome_iff_exists.1 (h _ (.head _))
      obtain ⟨ret, hret, hret'⟩ := walk_of sub sub' tokens entry
        fun p hp => h p (.tail _ hp)
      refine ⟨ret, ?_, ?_⟩
      · rw [System.walk, openSubnode_of hentry]
        exact hret
      · rw [Vfs.walk, Vfs.openSubnode, hentry]
        exact hret'

theorem safe_walk_iff {sub : Subnodes} : ∀ {tokens : List Path} {base : Nat}
    {fullname : Path} {separator : Bool},
    Safe (System.walk sub s (some base) fullname separator tokens) ↔
      ∀ p, p ∈ fullnames fullname separator tokens → (s.vfs.openNodes p).isSome
  | [], _, _, _ => iff_of_true (safe_ok _) nofun
  | token :: tokens, base, fullname, separator => by
      refine ⟨fun h => ?_, fun h => ?_⟩
      · rw [System.walk, safe_bind_iff, safe_openSubnode_iff] at h
        obtain ⟨entry, hentry⟩ := Option.isSome_iff_exists.1 h.1
        have hrest := safe_walk_iff.1 (h.2 _ (openSubnode_of hentry))
        intro p hp
        cases hp with
        | head => exact h.1
        | tail _ hp => exact hrest p hp
      · obtain ⟨ret, hret, -⟩ := walk_of sub sub _ base h
        rw [hret]
        exact safe_ok _

theorem safe_openNode_iff {sub : Subnodes} {name : Path} :
    Safe (s.openNode sub name) ↔ Resolves s name := by
  rw [System.openNode, Resolves]
  cases cleanPath name with
  | nil => exact iff_of_false (not_safe_fault _) not_false
  | cons first tokens =>
      dsimp only
      split
      next hfirst =>
        rw [safe_second_bind_iff]
        constructor
        · rintro ⟨base, hbase, h⟩ _
          refine ⟨hbase ▸ rfl, ?_⟩
          exact safe_walk_iff.1 (safe_bind_iff.1 h).1
        · intro h
          obtain ⟨hroot, hopen⟩ := h hfirst
          obtain ⟨base, hbase⟩ := Option.isSome_iff_exists.1 hroot
          obtain ⟨ret, hret, -⟩ := walk_of sub sub tokens base hopen
          refine ⟨base, hbase, ?_⟩
          dsimp only
          rw [hret]
          exact safe_ok _
      next hfirst => exact iff_of_true (safe_ok _) fun h => absurd h hfirst

theorem safe_mount_iff {sub : Subnodes} {type : FsType}
    {mountpoint nodename : Path} :
    Safe (s.mount sub type mountpoint nodename) ↔
      nodename = [] ∨ Resolves s nodename := by
  have hend (out : System ω × Option Nat) :
      Safe (if out.2.isSome || type = .devFs then
        return out.1.mountRoot type mountpoint
      else return out.1 : Run (System ω)) := by
    split <;> exact safe_ok _
  rw [System.mount]
  split
  next hempty =>
    exact iff_of_true (hend (s, none)) (.inl (List.isEmpty_iff.1 hempty))
  next hempty =>
    have hne : nodename ≠ [] := fun h => hempty (h ▸ rfl)
    rw [or_iff_right hne]
    exact (safe_bind_iff_left hend).trans safe_openNode_iff

theorem safe_mountRootDummy_iff :
    Safe s.mountRootDummy ↔ (s.vfs.mountedFilesystems ['/']).isSome := by
  rw [System.mountRootDummy, safe_second_bind_iff, Option.isSome_iff_exists]
  exact exists_congr fun entry => and_iff_left (safe_ok _)

theorem safe_devOpenSubnode_iff {node : Nat} {subnodes : Path → Option Nat}
    {fullname subname : Path} :
    Safe (s.devOpenSubnode node subnodes fullname subname) ↔
      ((s.vfs.nodes node).isDirectory = true → (subnodes subname).isSome) := by
  rw [System.devOpenSubnode]
  split
  next hdirectory =>
    rw [safe_second_bind_iff, Option.isSome_iff_exists]
    refine Iff.trans ?_ (forall_prop_of_true hdirectory).symm
    exact exists_congr fun entry => and_iff_left (safe_ok _)
  next hdirectory =>
    exact iff_of_true (safe_ok _) fun h => absurd h hdirectory

/-- The calls that use a handle, in whatever way. -/
theorem safe_handleCall_iff {process filedescriptor : Nat}
    (out : Option (Reply × Kernel ω)) :
    Safe (do
      let _ ← s.getFilehandle process filedescriptor
      match out with
      | some (_, kernel) => return { s with kernel := kernel }
      | none => .error .outOfFuel : Run (System ω)) ↔
      ((s.kernel.holders process).getFilehandle filedescriptor).isSome := by
  rw [safe_bind_iff_left]
  · exact safe_second_iff
  · intro _
    cases out with
    | none => exact safe_outOfFuel
    | some out => exact safe_ok _

theorem safe_fileCall_iff {call : Call} :
    Safe (s.fileCall methods call) ↔ Defined s (.fileCall call) := by
  cases call with
  | openCall process sub pathName flags createMode =>
      rw [System.fileCall, safe_bind_iff_left]
      · exact safe_openNode_iff
      · rintro ⟨s, _ | file⟩ <;> exact safe_ok _
  | closeCall process fileDescriptor =>
      rw [System.fileCall, System.removeFilehandle, bind_assoc,
        safe_second_bind_iff]
      refine exists_congr fun fh => and_congr_right fun hfh => ?_
      have hnode : ((s.kernel.holders process).removeFilehandle
          s.kernel.filehandles (u32 fileDescriptor)).2 =
            (s.kernel.filehandles fh).node := by
        rw [FileCalls.FilehandleHolder.removeFilehandle]
        rw [FileCalls.FilehandleHolder.getFilehandle] at hfh
        rw [hfh]
      generalize (s.kernel.holders process).removeFilehandle
        s.kernel.filehandles (u32 fileDescriptor) = out at hnode
      obtain ⟨holder, file⟩ := out
      dsimp only at hnode
      rw [← hnode]
      cases file with
      | none => exact iff_of_true (safe_ok _) fun n hn => by cases hn
      | some n =>
          refine Iff.trans (safe_closeNode_iff
            (s := { s with kernel := s.kernel.setHolder process holder })) ?_
          refine ⟨fun h _ hn => Option.some.inj hn ▸ h, fun h => h n rfl⟩
  | readCall process fileDescriptor buffer length =>
      exact safe_handleCall_iff (s.kernel.dispatchSyscall methods
        (.readCall process fileDescriptor buffer length))
  | writeCall process fileDescriptor buffer length =>
      exact safe_handleCall_iff (s.kernel.dispatchSyscall methods
        (.writeCall process fileDescriptor buffer length))
  | lseekCall process fileDescriptor offset number =>
      exact safe_handleCall_iff (s.kernel.dispatchSyscall methods
        (.lseekCall process fileDescriptor offset number))
  | fstatCall process fileDescriptor st =>
      exact safe_handleCall_iff (s.kernel.dispatchSyscall methods
        (.fstatCall process fileDescriptor st))
  | forkCall process copied => exact iff_of_true (safe_ok _) trivial

theorem safe_step_iff (methods : NodeMethods ω) (s : System ω)
    (request : Request) :
    Safe (s.step methods request) ↔ Defined s request := by
  cases request with
  | fileCall call => exact safe_fileCall_iff
  | openNode sub name =>
      exact (safe_bind_iff_left fun _ => safe_ok _).trans safe_openNode_iff
  | closeNode node =>
      cases node with
      | none => exact iff_of_false (not_safe_fault _) nofun
      | some n =>
          refine safe_closeNode_iff.trans ⟨fun h => ⟨n, rfl, h⟩, ?_⟩
          rintro ⟨_, ⟨⟩, h⟩
          exact h
  | openSubnode sub node fullname subname =>
      exact (safe_bind_iff_left fun _ => safe_ok _).trans safe_openSubnode_iff
  | mount sub type mountpoint nodename => exact safe_mount_iff
  | mountRootDummy => exact safe_mountRootDummy_iff
  | umount mountpoint => exact iff_of_true (safe_ok _) trivial
  | newDevNode path isDirectory => exact iff_of_true (safe_ok _) trivial
  | addSubnode node subnode => exact iff_of_true (safe_ok _) trivial
  | devOpenSubnode node fullname subname =>
      rw [System.step, Defined]
      cases s.subnodes node with
      | none => exact iff_of_true (safe_ok _) nofun
      | some subnodes =>
          dsimp only
          refine (safe_bind_iff_left fun _ => safe_ok _).trans
            (safe_devOpenSubnode_iff.trans ?_)
          exact ⟨fun h _ hsub => Option.some.inj hsub ▸ h, fun h => h _ rfl⟩

/-- A run of the kernel has no undefined lookup exactly when every key it looks
for is there when it does. -/
theorem run_defined_iff (methods : NodeMethods ω) (s : System ω)
    (requests : List Request) :
    Safe (requests.foldlM (System.step methods) s) ↔
      Meets (stepOption (System.step methods)) Defined s requests :=
  safe_foldlM_iff (safe_step_iff methods)

/-- Nothing is open, so `open_node` reads behind the map for the first name
below the root. -/
theorem unopenedPath_undefined :
    ¬ Safe ([.mount (fun _ _ _ => none) .devFs ['/'] [],
      .openNode (fun _ _ _ => none) ['/', 'h', 'd', 'a']].foldlM
        (System.step idleNodes)
        (System.boot () (fun _ => ⟨none, 0, 0, 0, 0⟩) 1)) :=
  not_safe_fault Fault.endIterator

/-! ## Reading null instead -/

/-- An open without an undefined lookup is the open of the virtual filesystem,
whatever the directories answer. -/
theorem openNode_agrees {sub : Subnodes} (sub' : Subnodes) {name : Path}
    {t : System ω} {r : Option Nat} (h : s.openNode sub name = .ok (t, r)) :
    s.vfs.openNode sub' name = (t.vfs, r) ∧ t = s.setVfs t.vfs := by
  have hresolves : Resolves s name := by
    rw [← safe_openNode_iff, h]
    exact safe_ok (t, r)
  rw [System.openNode] at h
  rw [Resolves] at hresolves
  rw [Vfs.openNode, Vfs.resolve]
  cases hclean : cleanPath name with
  | nil =>
      rw [hclean] at hresolves
      exact hresolves.elim
  | cons first tokens =>
      rw [hclean] at hresolves h
      dsimp only at hresolves h ⊢
      split at h
      next hfirst =>
        obtain ⟨hroot, hopen⟩ := hresolves hfirst
        obtain ⟨base, hbase⟩ := Option.isSome_iff_exists.1 hroot
        obtain ⟨ret, hret, hret'⟩ := walk_of sub sub' tokens base hopen
        rw [second_of hbase, ok_bind] at h
        dsimp only at h
        rw [hret] at h
        cases h
        rw [if_pos hfirst, hbase]
        dsimp only
        rw [hret']
        exact ⟨rfl, rfl⟩
      next hfirst =>
        cases h
        rw [if_neg hfirst]
        exact ⟨rfl, rfl⟩

theorem closeNode_agrees {node : Nat} {t : System ω}
    (h : s.closeNode (some node) = .ok t) :
    t = s.setVfs (s.vfs.closeNode node) := by
  have hclosable : Closable s node := by
    rw [← safe_closeNode_iff, h]
    exact safe_ok t
  rw [System.closeNode, deref, ok_bind] at h
  rw [Vfs.closeNode]
  dsimp only at h ⊢
  split at h
  next huses =>
    obtain ⟨entry, hentry⟩ := Option.isSome_iff_exists.1 (hclosable huses)
    rw [second_of hentry] at h
    cases h
    rw [if_pos huses, hentry]
  next huses =>
    cases h
    rw [if_neg huses]

theorem handleCall_agrees {process filedescriptor : Nat}
    {out : Option (Reply × Kernel ω)} {t : System ω}
    (h : (do
      let _ ← s.getFilehandle process filedescriptor
      match out with
      | some (_, kernel) => return { s with kernel := kernel }
      | none => .error .outOfFuel : Run (System ω)) = .ok t) :
    ∃ r, out = some (r, t.kernel) := by
  cases hget : s.getFilehandle process filedescriptor with
  | error e =>
      rw [hget] at h
      cases h
  | ok fh =>
      rw [hget] at h
      cases out with
      | none => cases h
      | some out =>
          cases h
          exact ⟨out.1, rfl⟩

/-- A file call without an undefined lookup is the one that reads null. -/
theorem fileCall_agrees {call : Call} {t : System ω}
    (h : s.fileCall methods call = .ok t) :
    ∃ r, s.kernel.dispatchSyscall methods call = some (r, t.kernel) := by
  cases call with
  | openCall process sub pathName flags createMode =>
      rw [System.fileCall] at h
      cases hopen : s.openNode sub pathName with
      | error e =>
          rw [hopen] at h
          cases h
      | ok out =>
          obtain ⟨u, file⟩ := out
          obtain ⟨hvfs, hu⟩ := openNode_agrees sub hopen
          rw [hopen, ok_bind] at h
          rw [Kernel.dispatchSyscall, Kernel.openCall,
            show s.kernel.vfs.openNode sub pathName = _ from hvfs]
          rw [hu] at h
          cases file with
          | none =>
              cases h
              exact ⟨_, rfl⟩
          | some file =>
              cases h
              exact ⟨_, rfl⟩
  | closeCall process fileDescriptor =>
      rw [System.fileCall, System.removeFilehandle, bind_assoc] at h
      rw [Kernel.dispatchSyscall, Kernel.closeCall]
      cases hfind : (s.kernel.holders process).getFilehandle
          (u32 fileDescriptor) with
      | none =>
          rw [second, hfind] at h
          cases h
      | some fh =>
          rw [second_of hfind, ok_bind] at h
          generalize (s.kernel.holders process).removeFilehandle
            s.kernel.filehandles (u32 fileDescriptor) = out at h ⊢
          obtain ⟨holder, file⟩ := out
          cases file with
          | none =>
              cases h
              exact ⟨_, rfl⟩
          | some n =>
              rw [closeNode_agrees h]
              exact ⟨_, rfl⟩
  | readCall process fileDescriptor buffer length =>
      exact handleCall_agrees h
  | writeCall process fileDescriptor buffer length =>
      exact handleCall_agrees h
  | lseekCall process fileDescriptor offset number =>
      exact handleCall_agrees h
  | fstatCall process fileDescriptor st => exact handleCall_agrees h
  | forkCall process copied =>
      cases h
      exact ⟨_, rfl⟩

end Iposix.Fs.Lookups
