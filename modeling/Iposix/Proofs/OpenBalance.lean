import Iposix.Fs.NodeOperations
import Iposix.Lib.Run
import Mathlib.Data.List.Basic

/-!
# When opens and closes balance

A session runs mounts, opens and closes and remembers which opens have not been
closed yet. It is balanced when the path of each open node is a key of
`open_nodes`, when its use count is the number of those opens, and when a root
that is not open has none.

An open finds the node that `open_nodes` holds under its path, a mounted root,
or a new node. The exception is "/", whose root is taken from the mounts and not
from `open_nodes`: after a mount over an open "/" it is another node. The other
step that goes wrong is the last close of a mounted root: `close_node` takes it
out of `open_nodes` with its use still counted. So a step keeps the balance
unless it is one of these two, or the open that makes a use count overflow.
-/

namespace Iposix.Fs

open Iposix.Lib

namespace CleanPath

/-- No token taken so far is empty. -/
def Full (c : CleanPath) : Prop := ∀ t ∈ c.tokens, t ≠ []

theorem Full.push {tokens : List Path} {token : Path}
    (h : ∀ t ∈ tokens, t ≠ []) (hne : token ≠ []) :
    ∀ t ∈ tokens ++ [token], t ≠ [] := by
  intro t ht
  rcases List.mem_append.1 ht with ht | ht
  · exact h t ht
  · rw [List.mem_singleton.1 ht]
    exact hne

theorem Full.slash {c : CleanPath} (h : c.Full) : c.slash.Full := by
  simp only [CleanPath.slash]
  generalize (if (c.firstToken && c.token.isEmpty) = true then c.token ++ ['/']
    else c.token) = token
  split
  · next hgood =>
      rw [Bool.and_eq_true, Bool.not_eq_true', List.isEmpty_eq_false_iff] at hgood
      exact Full.push h hgood.1
  · exact h

theorem Full.dot {c : CleanPath} (h : c.Full) : c.dot.Full := by
  rw [CleanPath.dot]
  split
  · split
    · exact fun t ht => h t (List.dropLast_subset _ ht)
    · next hdots _ =>
        rw [hdots]
        exact Full.push h (List.cons_ne_nil _ _)
  · exact h

theorem Full.step {c : CleanPath} (h : c.Full) (letter : Char) :
    (c.step letter).Full := by
  rw [CleanPath.step]
  split
  · exact h.slash
  · split
    · exact h.dot
    · exact h

theorem Full.foldl : ∀ {path : Path} {c : CleanPath}, c.Full →
    (path.foldl CleanPath.step c).Full := by
  intro path
  induction path with
  | nil => intro c h; exact h
  | cons letter path ih => intro c h; exact ih (h.step letter)

end CleanPath

theorem cleanPath_full (path : Path) : ∀ t ∈ cleanPath path, t ≠ [] := by
  have hfull : CleanPath.Full (path.foldl CleanPath.step ⟨[], [], 0, true⟩) :=
    CleanPath.Full.foldl fun t ht => absurd ht List.not_mem_nil
  rw [cleanPath]
  split
  · exact hfull
  · next hne =>
      rw [Bool.not_eq_true, List.isEmpty_eq_false_iff] at hne
      exact CleanPath.Full.push hfull hne

/-! ## What an open finds -/

/-- The name that the loop of `open_node` puts together. -/
def fullnameOf : Path → Bool → List Path → Path
  | fullname, _, [] => fullname
  | fullname, separator, token :: tokens =>
      fullnameOf ((if separator then fullname ++ ['/'] else fullname) ++ token)
        true tokens

theorem length_le_fullnameOf : ∀ (tokens : List Path) (fullname : Path)
    (separator : Bool), fullname.length ≤
      (fullnameOf fullname separator tokens).length := by
  intro tokens
  induction tokens with
  | nil => intro fullname separator; exact Nat.le_refl _
  | cons token tokens ih =>
      intro fullname separator
      refine Nat.le_trans ?_ (ih _ true)
      rw [List.length_append]
      split
      · rw [List.length_append]
        omega
      · omega

/-- Only the root has the name "/". -/
theorem fullnameOf_ne_root {token : Path} (tokens : List Path)
    (hne : token ≠ []) : fullnameOf ['/'] false (token :: tokens) ≠ ['/'] := by
  intro h
  have hlen := length_le_fullnameOf tokens (['/'] ++ token) true
  have hroot : (fullnameOf (['/'] ++ token) true tokens).length = 1 :=
    congrArg List.length h
  have hpos := List.length_pos_iff.2 hne
  rw [hroot, List.length_append, List.length_singleton] at hlen
  omega

namespace Vfs

/-- The maps lead to nodes of the path they are kept under. -/
structure Wf (s : Vfs) : Prop where
  mounted : ∀ p n, s.mountedFilesystems p = some n →
    n < s.next ∧ (s.nodes n).path = p
  opened : ∀ p n, s.openNodes p = some n →
    n < s.next ∧ (s.nodes n).path = p

/-- Nodes were added, nothing else. -/
structure Grown (s t : Vfs) : Prop where
  mounted : t.mountedFilesystems = s.mountedFilesystems
  opened : t.openNodes = s.openNodes
  next_le : s.next ≤ t.next
  old : ∀ n, n < s.next → t.nodes n = s.nodes n

theorem Grown.refl (s : Vfs) : Grown s s :=
  ⟨rfl, rfl, Nat.le_refl _, fun _ _ => rfl⟩

theorem Grown.trans {s t u : Vfs} (h : Grown s t) (h' : Grown t u) :
    Grown s u where
  mounted := h'.mounted.trans h.mounted
  opened := h'.opened.trans h.opened
  next_le := Nat.le_trans h.next_le h'.next_le
  old := fun n hn => (h'.old n (Nat.lt_of_lt_of_le hn h.next_le)).trans (h.old n hn)

theorem Grown.wf {s t : Vfs} (h : Grown s t) (hwf : s.Wf) : t.Wf where
  mounted := fun p n hn => by
    rw [h.mounted] at hn
    obtain ⟨hlt, hpath⟩ := hwf.mounted p n hn
    exact ⟨Nat.lt_of_lt_of_le hlt h.next_le, by rw [h.old n hlt, hpath]⟩
  opened := fun p n hn => by
    rw [h.opened] at hn
    obtain ⟨hlt, hpath⟩ := hwf.opened p n hn
    exact ⟨Nat.lt_of_lt_of_le hlt h.next_le, by rw [h.old n hlt, hpath]⟩

theorem grown_newNode (s : Vfs) (path : Path) (isDirectory : Bool) :
    Grown s (s.newNode path isDirectory).1 where
  mounted := rfl
  opened := rfl
  next_le := Nat.le_succ _
  old := fun _ hn => Function.update_of_ne (Nat.ne_of_lt hn) _ _

/-- Node `n` of `t` was found under the name `p` in `s`: the open node of that
path, or else the root mounted there, or else a new node. -/
structure Found (s t : Vfs) (p : Path) (n : Nat) : Prop where
  lt : n < t.next
  path : (t.nodes n).path = p
  origin : s.openNodes p = some n ∨ s.openNodes p = none ∧
    (s.mountedFilesystems p = some n ∨ s.next ≤ n ∧ (t.nodes n).uses = 0)

theorem Found.of_grown {s s' t : Vfs} {p : Path} {n : Nat} (h : Grown s s')
    (hfound : Found s' t p n) : Found s t p n where
  lt := hfound.lt
  path := hfound.path
  origin := by
    have horigin := hfound.origin
    rw [h.opened, h.mounted] at horigin
    refine horigin.imp_right fun ⟨hclosed, hnode⟩ => ⟨hclosed, ?_⟩
    exact hnode.imp_right fun ⟨hge, huses⟩ => ⟨Nat.le_trans h.next_le hge, huses⟩

theorem openSubnode_spec {s t : Vfs} {sub : Subnodes} {node : Nat}
    {fullname subname : Path} {r : Option Nat} (hwf : s.Wf)
    (hsub : subname ≠ [])
    (h : s.openSubnode sub node fullname subname = (t, r)) :
    Grown s t ∧ ∀ n, r = some n → Found s t fullname n := by
  rw [openSubnode] at h
  split at h
  · next ret hopen =>
      cases h
      refine ⟨.refl s, ?_⟩
      rintro _ ⟨⟩
      obtain ⟨hlt, hpath⟩ := hwf.opened _ _ hopen
      exact ⟨hlt, hpath, .inl hopen⟩
  · next hopen =>
      split at h
      · next ret hmounted =>
          cases h
          refine ⟨.refl s, ?_⟩
          rintro _ ⟨⟩
          obtain ⟨hlt, hpath⟩ := hwf.mounted _ _ hmounted
          exact ⟨hlt, hpath, .inr ⟨hopen, .inl hmounted⟩⟩
      · rw [if_neg (by rw [List.isEmpty_iff]; exact hsub)] at h
        split at h
        · split at h
          · cases h
            exact ⟨.refl s, fun n hn => nomatch hn⟩
          · next isDirectory _ =>
              cases h
              refine ⟨grown_newNode s fullname isDirectory, ?_⟩
              rintro _ ⟨⟩
              have hnode : ((s.newNode fullname isDirectory).1.nodes s.next) =
                  ⟨fullname, isDirectory, 0⟩ := Function.update_self _ _ _
              exact ⟨Nat.lt_succ_self _, congrArg FsNode.path hnode,
                .inr ⟨hopen, .inr ⟨Nat.le_refl _, congrArg FsNode.uses hnode⟩⟩⟩
        · cases h
          exact ⟨.refl s, fun n hn => nomatch hn⟩

theorem walk_spec {sub : Subnodes} : ∀ {tokens : List Path} {s t : Vfs}
    {base r : Option Nat} {fullname : Path} {separator : Bool}, s.Wf →
    (∀ token ∈ tokens, token ≠ []) → tokens ≠ [] →
    walk sub s base fullname separator tokens = (t, r) →
    Grown s t ∧ ∀ n, r = some n →
      Found s t (fullnameOf fullname separator tokens) n := by
  intro tokens
  induction tokens with
  | nil => intro s t base r fullname separator _ _ hne; exact absurd rfl hne
  | cons token tokens ih =>
      intro s t base r fullname separator hwf hfull _ h
      cases base with
      | none =>
          cases h
          exact ⟨.refl s, fun n hn => nomatch hn⟩
      | some base =>
          rw [walk] at h
          dsimp only at h
          generalize hcall : s.openSubnode sub base
            ((if separator then fullname ++ ['/'] else fullname) ++ token) token =
              call at h
          obtain ⟨u, r'⟩ := call
          obtain ⟨hgrown, hfound⟩ :=
            openSubnode_spec hwf (hfull token List.mem_cons_self) hcall
          cases tokens with
          | nil =>
              cases h
              exact ⟨hgrown, hfound⟩
          | cons token' tokens =>
              have hrest := ih (hgrown.wf hwf)
                (fun t ht => hfull t (List.mem_cons_of_mem _ ht))
                (List.cons_ne_nil _ _) h
              exact ⟨hgrown.trans hrest.1,
                fun n hn => (hrest.2 n hn).of_grown hgrown⟩

/-- What `open_node` found: the root of "/", or a node as above. -/
structure Reached (s t : Vfs) (n : Nat) : Prop where
  lt : n < t.next
  path_ne : (t.nodes n).path ≠ []
  origin : (t.nodes n).path = ['/'] ∧ s.mountedFilesystems ['/'] = some n ∨
    (t.nodes n).path ≠ ['/'] ∧ Found s t (t.nodes n).path n

theorem resolve_spec {s t : Vfs} {sub : Subnodes} {name : Path}
    {r : Option Nat} (hwf : s.Wf) (h : s.resolve sub name = (t, r)) :
    Grown s t ∧ ∀ n, r = some n → Reached s t n := by
  have hfull := cleanPath_full name
  rw [resolve] at h
  split at h
  · cases h
    exact ⟨.refl s, fun n hn => nomatch hn⟩
  · next first tokens hclean =>
      rw [hclean] at hfull
      split at h
      · split at h
        · cases h
          exact ⟨.refl s, fun n hn => nomatch hn⟩
        · next base hbase =>
            cases tokens with
            | nil =>
                cases h
                refine ⟨.refl s, ?_⟩
                rintro _ ⟨⟩
                obtain ⟨hlt, hpath⟩ := hwf.mounted _ _ hbase
                exact ⟨hlt, by rw [hpath]; exact List.cons_ne_nil _ _,
                  .inl ⟨hpath, hbase⟩⟩
            | cons token tokens =>
                obtain ⟨hgrown, hfound⟩ := walk_spec hwf
                  (fun t ht => hfull t (List.mem_cons_of_mem _ ht))
                  (List.cons_ne_nil _ _) h
                refine ⟨hgrown, fun n hn => ?_⟩
                have hnode := hfound n hn
                have hroot := fullnameOf_ne_root tokens
                  (hfull token (List.mem_cons_of_mem _ List.mem_cons_self))
                have hlen := length_le_fullnameOf (token :: tokens) ['/']
                  false
                have hpath := hnode.path
                rw [← hpath] at hroot hnode hlen
                refine ⟨hnode.lt, ?_, .inr ⟨hroot, hnode⟩⟩
                intro hnil
                rw [hnil] at hlen
                exact absurd hlen (by decide)
      · cases h
        exact ⟨.refl s, fun n hn => nomatch hn⟩

/-! ## One operation -/

theorem setUses_self (s : Vfs) (node uses : Nat) :
    (s.setUses node uses).nodes node = { s.nodes node with uses := uses } :=
  Function.update_self _ _ _

theorem setUses_of_ne (s : Vfs) {node n : Nat} (uses : Nat) (h : n ≠ node) :
    (s.setUses node uses).nodes n = s.nodes n := Function.update_of_ne h _ _

@[simp] theorem setUses_path (s : Vfs) (node uses n : Nat) :
    ((s.setUses node uses).nodes n).path = (s.nodes n).path := by
  by_cases h : n = node
  · rw [h, setUses_self]
  · rw [setUses_of_ne s uses h]

theorem open_eq {s : Vfs} {n : Nat} (h : (s.nodes n).path ≠ []) :
    s.open n = { s.setUses n (u32 ((s.nodes n).uses + 1)) with
      openNodes := Function.update s.openNodes (s.nodes n).path (some n) } :=
  if_neg (by rw [List.isEmpty_iff]; exact h)

/-- The last close of an open node. -/
theorem closeNode_last {s : Vfs} {n m : Nat} (huses : (s.nodes n).uses ≤ 1)
    (hopen : s.openNodes (s.nodes n).path = some m) :
    s.closeNode n = { s with
      openNodes := Function.update s.openNodes (s.nodes n).path none } := by
  simp only [closeNode, if_pos huses, hopen]

theorem closeNode_used {s : Vfs} {n : Nat} (huses : 1 < (s.nodes n).uses) :
    s.closeNode n = s.setUses n ((s.nodes n).uses - 1) :=
  if_neg (Nat.not_le.2 huses)

theorem closeNode_cases (s : Vfs) (n : Nat) :
    s.closeNode n = s ∨
      s.closeNode n = { s with
        openNodes := Function.update s.openNodes (s.nodes n).path none } ∨
      s.closeNode n = s.setUses n ((s.nodes n).uses - 1) := by
  simp only [closeNode]
  split
  · split
    · exact .inr (.inl rfl)
    · exact .inl rfl
  · exact .inr (.inr rfl)

theorem closeNode_next (s : Vfs) (n : Nat) :
    (s.closeNode n).next = s.next := by
  rcases closeNode_cases s n with h | h | h <;> rw [h]
  rfl

theorem closeNode_mounted (s : Vfs) (n : Nat) :
    (s.closeNode n).mountedFilesystems = s.mountedFilesystems := by
  rcases closeNode_cases s n with h | h | h <;> rw [h]
  rfl

theorem closeNode_path (s : Vfs) (n m : Nat) :
    ((s.closeNode n).nodes m).path = (s.nodes m).path := by
  rcases closeNode_cases s n with h | h | h <;> rw [h]
  exact setUses_path _ _ _ _

theorem closeNode_opened {s : Vfs} {n m : Nat} {p : Path}
    (h : (s.closeNode n).openNodes p = some m) : s.openNodes p = some m := by
  rcases closeNode_cases s n with hcall | hcall | hcall <;> rw [hcall] at h
  · exact h
  · replace h : Function.update s.openNodes (s.nodes n).path none p = some m := h
    by_cases hp : p = (s.nodes n).path
    · rw [hp, Function.update_self] at h
      cases h
    · rw [Function.update_of_ne hp] at h
      exact h
  · exact h

theorem Wf.closeNode {s : Vfs} (h : s.Wf) (n : Nat) : (s.closeNode n).Wf where
  mounted := fun p m hm => by
    rw [closeNode_mounted] at hm
    rw [closeNode_next, closeNode_path]
    exact h.mounted p m hm
  opened := fun p m hm => by
    rw [closeNode_next, closeNode_path]
    exact h.opened p m (closeNode_opened hm)

theorem open_next (s : Vfs) (n : Nat) : (s.open n).next = s.next := by
  rw [«open»]
  split <;> rfl

theorem open_mounted (s : Vfs) (n : Nat) :
    (s.open n).mountedFilesystems = s.mountedFilesystems := by
  rw [«open»]
  split <;> rfl

theorem open_path (s : Vfs) (n m : Nat) :
    ((s.open n).nodes m).path = (s.nodes m).path := by
  rw [«open»]
  split
  · rfl
  · exact setUses_path _ _ _ _

theorem open_opened {s : Vfs} {n : Nat} (h : (s.nodes n).path ≠ []) :
    (s.open n).openNodes =
      Function.update s.openNodes (s.nodes n).path (some n) := by
  rw [open_eq h]

theorem Wf.open {s : Vfs} (h : s.Wf) {n : Nat} (hlt : n < s.next)
    (hne : (s.nodes n).path ≠ []) : (s.open n).Wf where
  mounted := fun p m hm => by
    rw [open_mounted] at hm
    rw [open_next, open_path]
    exact h.mounted p m hm
  opened := fun p m hm => by
    rw [open_opened hne] at hm
    rw [open_next, open_path]
    by_cases hp : p = (s.nodes n).path
    · rw [hp, Function.update_self] at hm
      obtain rfl := Option.some.inj hm
      exact ⟨hlt, hp.symm⟩
    · rw [Function.update_of_ne hp] at hm
      exact h.opened p m hm

theorem mountRoot_node (v : Vfs) (mountpoint : Path) {m : Nat} (h : m < v.next) :
    (v.mountRoot mountpoint).nodes m = v.nodes m :=
  Function.update_of_ne (Nat.ne_of_lt h) _ _

theorem mountRoot_root (v : Vfs) (mountpoint : Path) :
    (v.mountRoot mountpoint).nodes v.next = ⟨mountpoint, true, 0⟩ :=
  Function.update_self _ _ _

theorem mountRoot_mounted {v : Vfs} {mountpoint p : Path} {m : Nat}
    (h : (v.mountRoot mountpoint).mountedFilesystems p = some m) :
    p = mountpoint ∧ m = v.next ∨ v.mountedFilesystems p = some m := by
  have hm : Function.update v.mountedFilesystems mountpoint (some v.next) p =
      some m := h
  by_cases hp : p = mountpoint
  · rw [hp, Function.update_self] at hm
    exact .inl ⟨hp, (Option.some.inj hm).symm⟩
  · rw [Function.update_of_ne hp] at hm
    exact .inr hm

theorem Wf.mountRoot {v : Vfs} (h : v.Wf) (mountpoint : Path) :
    (v.mountRoot mountpoint).Wf where
  mounted := fun p m hm => by
    rcases mountRoot_mounted hm with ⟨rfl, rfl⟩ | hm
    · exact ⟨Nat.lt_succ_self _, congrArg FsNode.path (mountRoot_root v p)⟩
    · obtain ⟨hlt, hpath⟩ := h.mounted p m hm
      rw [mountRoot_node v mountpoint hlt]
      exact ⟨Nat.lt_succ_of_lt hlt, hpath⟩
  opened := fun p m hm => by
    obtain ⟨hlt, hpath⟩ := h.opened p m hm
    rw [mountRoot_node v mountpoint hlt]
    exact ⟨Nat.lt_succ_of_lt hlt, hpath⟩

theorem openSubnode_grown (s : Vfs) (sub : Subnodes) (node : Nat)
    (fullname subname : Path) :
    Grown s (s.openSubnode sub node fullname subname).1 := by
  rw [openSubnode]
  split
  · exact .refl s
  · split
    · exact .refl s
    · split
      · exact .refl s
      · split
        · split
          · exact .refl s
          · exact grown_newNode s fullname _
        · exact .refl s

theorem walk_grown (sub : Subnodes) : ∀ {tokens : List Path} {s : Vfs}
    {base : Option Nat} {fullname : Path} {separator : Bool},
    Grown s (walk sub s base fullname separator tokens).1 := by
  intro tokens
  induction tokens with
  | nil => intro s base fullname separator; exact .refl s
  | cons token tokens ih =>
      intro s base fullname separator
      cases base with
      | none => exact .refl s
      | some base =>
          rw [walk]
          exact (openSubnode_grown s sub base _ token).trans ih

theorem resolve_grown (s : Vfs) (sub : Subnodes) (name : Path) :
    Grown s (s.resolve sub name).1 := by
  rw [resolve]
  split
  · exact .refl s
  · split
    · split
      · exact .refl s
      · exact walk_grown sub
    · exact .refl s

theorem openNode_mounted (s : Vfs) (sub : Subnodes) (name : Path) :
    (s.openNode sub name).1.mountedFilesystems = s.mountedFilesystems := by
  have hgrown := resolve_grown s sub name
  rw [openNode]
  generalize s.resolve sub name = call at hgrown
  obtain ⟨t, r⟩ := call
  cases r with
  | none => exact hgrown.mounted
  | some n => exact (open_mounted t n).trans hgrown.mounted

end Vfs

/-! ## Sessions -/

/-- A filesystem and the opens that no close has matched so far. -/
structure Session where
  vfs : Vfs
  held : List Nat

inductive Action where
  | openNode (sub : Subnodes) (name : Path)
  | closeNode (node : Nat)
  | mount (sub : Subnodes) (type : FsType) (mountpoint nodename : Path)
  | mountRootDummy

namespace Session

def init : Session where
  vfs := Vfs.init
  held := []

/-- A mount holds the container it opened. -/
def step (s : Session) : Action → Option Session
  | .openNode sub name =>
      let (vfs, node) := s.vfs.openNode sub name
      some ⟨vfs, node.toList ++ s.held⟩
  | .closeNode node => some ⟨s.vfs.closeNode node, s.held.erase node⟩
  | .mount sub type mountpoint nodename =>
      let (vfs, node) := s.vfs.mount sub type mountpoint nodename
      some ⟨vfs, node.toList ++ s.held⟩
  | .mountRootDummy => some ⟨s.vfs.mountRootDummy, s.held⟩

/-- A close matches an open that has not been closed. -/
def Legal (s : Session) : Action → Prop
  | .closeNode node => node ∈ s.held
  | .openNode _ _ | .mount _ _ _ _ | .mountRootDummy => True

instance (s : Session) (a : Action) : Decidable (s.Legal a) :=
  match a with
  | .closeNode node => inferInstanceAs (Decidable (node ∈ s.held))
  | .openNode _ _ | .mount _ _ _ _ | .mountRootDummy =>
      inferInstanceAs (Decidable True)

/-- How often a path was opened more than closed. -/
def balance (s : Session) (p : Path) : Nat :=
  s.held.countP fun n => (s.vfs.nodes n).path == p

structure Balanced (s : Session) : Prop where
  opened_iff : ∀ p, s.vfs.openNodes p ≠ none ↔ 0 < s.balance p
  uses_eq : ∀ p n, s.vfs.openNodes p = some n →
    (s.vfs.nodes n).uses = s.balance p
  root : ∀ p n, s.vfs.mountedFilesystems p = some n →
    s.vfs.openNodes p ≠ some n → (s.vfs.nodes n).uses = 0

/-- The node an open finds is not displaced by another one of its path, and
its use count does not overflow. -/
def OpenRegular (vfs : Vfs) (sub : Subnodes) (name : Path) : Prop :=
  match vfs.resolve sub name with
  | (_, none) => True
  | (t, some n) =>
      (t.nodes n).uses + 1 < 4294967296 ∧
        (vfs.openNodes (t.nodes n).path = none ∨
          vfs.openNodes (t.nodes n).path = some n)

instance (vfs : Vfs) (sub : Subnodes) (name : Path) :
    Decidable (OpenRegular vfs sub name) := by
  unfold OpenRegular
  split <;> infer_instance

/-- The step neither displaces an open root nor closes a mounted one for the
last time. -/
def Regular (s : Session) : Action → Prop
  | .openNode sub name => OpenRegular s.vfs sub name
  | .closeNode node =>
      ¬ (s.vfs.mountedFilesystems (s.vfs.nodes node).path = some node ∧
        (s.vfs.nodes node).uses = 1)
  | .mount sub _ _ nodename =>
      nodename ≠ [] → OpenRegular s.vfs sub nodename
  | .mountRootDummy => True

instance (s : Session) (a : Action) : Decidable (s.Regular a) :=
  match a with
  | .openNode sub name => inferInstanceAs (Decidable (OpenRegular s.vfs sub name))
  | .closeNode node =>
      inferInstanceAs (Decidable (¬ (s.vfs.mountedFilesystems
        (s.vfs.nodes node).path = some node ∧ (s.vfs.nodes node).uses = 1)))
  | .mount sub _ _ nodename =>
      inferInstanceAs (Decidable (nodename ≠ [] →
        OpenRegular s.vfs sub nodename))
  | .mountRootDummy => inferInstanceAs (Decidable True)

/-- What holds whether or not the session is balanced. In a balanced one each
node that is held is the one open under its path. -/
structure Inv (s : Session) : Prop where
  wf : s.vfs.Wf
  held_lt : ∀ n ∈ s.held, n < s.vfs.next
  held_open : s.Balanced → ∀ n ∈ s.held,
    s.vfs.openNodes (s.vfs.nodes n).path = some n

theorem balance_congr {s : Session} {v : Vfs}
    (h : ∀ n ∈ s.held, (v.nodes n).path = (s.vfs.nodes n).path) (p : Path) :
    (⟨v, s.held⟩ : Session).balance p = s.balance p := by
  refine List.countP_congr fun n hn => ?_
  rw [h n hn]

theorem balance_grown {s : Session} {v : Vfs} (hlt : ∀ n ∈ s.held, n < s.vfs.next)
    (h : Vfs.Grown s.vfs v) (p : Path) :
    (⟨v, s.held⟩ : Session).balance p = s.balance p :=
  balance_congr (fun n hn => by rw [h.old n (hlt n hn)]) p

theorem Balanced.grown {s : Session} {v : Vfs} (hI : s.Inv) (hs : s.Balanced)
    (h : Vfs.Grown s.vfs v) : (⟨v, s.held⟩ : Session).Balanced where
  opened_iff := fun p => by
    rw [balance_grown hI.held_lt h, h.opened]
    exact hs.opened_iff p
  uses_eq := fun p n hn => by
    rw [h.opened] at hn
    rw [balance_grown hI.held_lt h, h.old n (hI.wf.opened p n hn).1]
    exact hs.uses_eq p n hn
  root := fun p n hn hne => by
    rw [h.mounted] at hn
    rw [h.opened] at hne
    rw [h.old n (hI.wf.mounted p n hn).1]
    exact hs.root p n hn hne

theorem Inv.grown {s : Session} {v : Vfs} (hI : s.Inv) (hs : s.Balanced)
    (h : Vfs.Grown s.vfs v) : (⟨v, s.held⟩ : Session).Inv where
  wf := h.wf hI.wf
  held_lt := fun n hn => Nat.lt_of_lt_of_le (hI.held_lt n hn) h.next_le
  held_open := fun _ n hn => by
    rw [h.opened, h.old n (hI.held_lt n hn)]
    exact hI.held_open hs n hn

/-! ## Opening -/

variable {s : Session} {n : Nat}

/-- The session after the node was opened. -/
def opened (s : Session) (n : Nat) : Session := ⟨s.vfs.open n, n :: s.held⟩

theorem opened_nodes_path (m : Nat) :
    ((s.opened n).vfs.nodes m).path = (s.vfs.nodes m).path :=
  Vfs.open_path s.vfs n m

theorem opened_balance (p : Path) :
    (s.opened n).balance p =
      s.balance p + if (s.vfs.nodes n).path = p then 1 else 0 := by
  have hrest : s.held.countP (fun m => ((s.opened n).vfs.nodes m).path == p) =
      s.balance p := balance_congr (fun m _ => opened_nodes_path m) p
  show (n :: s.held).countP _ = _
  rw [List.countP_cons, hrest, opened_nodes_path]
  simp only [beq_iff_eq]

theorem opened_openNodes (hne : (s.vfs.nodes n).path ≠ []) :
    (s.opened n).vfs.openNodes =
      Function.update s.vfs.openNodes (s.vfs.nodes n).path (some n) :=
  Vfs.open_opened hne

theorem opened_uses_self (hne : (s.vfs.nodes n).path ≠ []) :
    ((s.opened n).vfs.nodes n).uses = u32 ((s.vfs.nodes n).uses + 1) := by
  rw [opened, Vfs.open_eq hne]
  exact congrArg FsNode.uses (Vfs.setUses_self _ _ _)

theorem opened_node_of_ne (hne : (s.vfs.nodes n).path ≠ []) {m : Nat}
    (hm : m ≠ n) : (s.opened n).vfs.nodes m = s.vfs.nodes m := by
  rw [opened, Vfs.open_eq hne]
  exact Vfs.setUses_of_ne _ _ hm

/-- What an open may find in a balanced session: the node that is open under
its path, or one that has no uses. -/
structure Openable (s : Session) (n : Nat) : Prop where
  lt : n < s.vfs.next
  path_ne : (s.vfs.nodes n).path ≠ []
  uses : s.vfs.openNodes (s.vfs.nodes n).path = some n ∨
    s.vfs.openNodes (s.vfs.nodes n).path ≠ some n ∧ (s.vfs.nodes n).uses = 0

/-- `OpenRegular`, of the node found. -/
def OpensRegular (s : Session) (n : Nat) : Prop :=
  (s.vfs.nodes n).uses + 1 < 4294967296 ∧
    (s.vfs.openNodes (s.vfs.nodes n).path = none ∨
      s.vfs.openNodes (s.vfs.nodes n).path = some n)

/-- Use counts that are right after an open were so before, and the open was
regular. -/
theorem opensRegular_of_opened (hs : s.Balanced) (hn : s.Openable n)
    (huses : ((s.opened n).vfs.nodes n).uses =
      (s.opened n).balance (s.vfs.nodes n).path) : s.OpensRegular n := by
  rw [opened_uses_self hn.path_ne, opened_balance, if_pos rfl] at huses
  rcases hn.uses with hopen | ⟨hother, hzero⟩
  · have hlt := u32_lt ((s.vfs.nodes n).uses + 1)
    have hcount := hs.uses_eq _ _ hopen
    exact ⟨by omega, .inr hopen⟩
  · have hone : u32 ((s.vfs.nodes n).uses + 1) = 1 := by
      rw [hzero]
      rfl
    refine ⟨by omega, .inl (Decidable.not_not.1 fun hopen => ?_)⟩
    have hpos := (hs.opened_iff _).1 hopen
    omega

theorem Balanced.opened (hI : s.Inv) (hs : s.Balanced) (hn : s.Openable n)
    (hreg : s.OpensRegular n) : (s.opened n).Balanced := by
  have hne := hn.path_ne
  obtain ⟨hfits, hfree⟩ := hreg
  have hnext : u32 ((s.vfs.nodes n).uses + 1) = (s.vfs.nodes n).uses + 1 :=
    u32_of_lt (n := (s.vfs.nodes n).uses + 1) hfits
  constructor
  · intro p
    rw [opened_openNodes hne, opened_balance]
    by_cases hp : (s.vfs.nodes n).path = p
    · subst hp
      rw [Function.update_self, if_pos rfl]
      exact ⟨fun _ => Nat.succ_pos _, fun _ => Option.some_ne_none n⟩
    · rw [Function.update_of_ne (Ne.symm hp), if_neg hp]
      exact hs.opened_iff p
  · intro p m hm
    rw [opened_openNodes hne] at hm
    rw [opened_balance]
    by_cases hp : (s.vfs.nodes n).path = p
    · subst hp
      rw [Function.update_self] at hm
      obtain rfl := Option.some.inj hm
      rw [opened_uses_self hne, hnext, if_pos rfl]
      rcases hn.uses with hopen | ⟨hother, hzero⟩
      · rw [hs.uses_eq _ _ hopen]
      · have hnone := hfree.resolve_right hother
        have hbal : ¬ 0 < s.balance (s.vfs.nodes n).path := fun hpos =>
          (hs.opened_iff _).2 hpos hnone
        omega
    · rw [Function.update_of_ne (Ne.symm hp)] at hm
      have hmn : m ≠ n := by
        rintro rfl
        exact hp (hI.wf.opened p m hm).2
      rw [opened_node_of_ne hne hmn, if_neg hp]
      exact hs.uses_eq p m hm
  · intro p m hm hother
    have hmounted : s.vfs.mountedFilesystems p = some m :=
      (congrFun (Vfs.open_mounted s.vfs n) p).symm.trans hm
    have hpath := (hI.wf.mounted p m hmounted).2
    rw [opened_openNodes hne] at hother
    have hmn : m ≠ n := by
      rintro rfl
      rw [hpath, Function.update_self] at hother
      exact hother rfl
    rw [opened_node_of_ne hne hmn]
    refine hs.root p m hmounted fun hopen => ?_
    by_cases hp : (s.vfs.nodes n).path = p
    · subst hp
      rcases hfree with hfree | hfree <;> rw [hfree] at hopen <;> cases hopen
      exact hmn rfl
    · rw [Function.update_of_ne (Ne.symm hp)] at hother
      exact hother hopen

theorem Inv.opened (hI : s.Inv) (hs : s.Balanced) (hn : s.Openable n) :
    (s.opened n).Inv := by
  have hne := hn.path_ne
  have hnext : (s.opened n).vfs.next = s.vfs.next := Vfs.open_next s.vfs n
  refine ⟨hI.wf.open hn.lt hne, ?_, ?_⟩
  · intro m hm
    rw [hnext]
    rcases List.mem_cons.1 hm with rfl | hm
    · exact hn.lt
    · exact hI.held_lt m hm
  · intro ht m hm
    have hreg := opensRegular_of_opened hs hn (ht.uses_eq _ _ (by
      rw [opened_openNodes hne, Function.update_self]))
    rw [opened_nodes_path, opened_openNodes hne]
    rcases List.mem_cons.1 hm with rfl | hm
    · rw [Function.update_self]
    · have hopen := hI.held_open hs m hm
      by_cases hp : (s.vfs.nodes m).path = (s.vfs.nodes n).path
      · rw [hp] at hopen ⊢
        rw [Function.update_self]
        rcases hreg.2 with hfree | hfree <;> rw [hfree] at hopen <;> cases hopen
        rfl
      · rw [Function.update_of_ne hp]
        exact hopen

/-! ## Closing -/

/-- The session after a close that matches an open. -/
def closed (s : Session) (n : Nat) : Session :=
  ⟨s.vfs.closeNode n, s.held.erase n⟩

theorem closed_nodes_path (m : Nat) :
    ((s.closed n).vfs.nodes m).path = (s.vfs.nodes m).path :=
  Vfs.closeNode_path s.vfs n m

theorem closed_held_lt (hI : s.Inv) :
    ∀ m ∈ (s.closed n).held, m < (s.closed n).vfs.next := by
  intro m hm
  show m < (s.vfs.closeNode n).next
  rw [Vfs.closeNode_next]
  exact hI.held_lt m (List.mem_of_mem_erase hm)

theorem closed_balance (hn : n ∈ s.held) (p : Path) :
    (s.closed n).balance p + (if (s.vfs.nodes n).path = p then 1 else 0) =
      s.balance p := by
  have hperm := (List.perm_cons_erase hn).countP_eq
    fun m => (s.vfs.nodes m).path == p
  have hrest : (s.closed n).balance p =
      (s.held.erase n).countP fun m => (s.vfs.nodes m).path == p := by
    refine List.countP_congr fun m _ => ?_
    rw [closed_nodes_path]
  show _ = s.held.countP _
  rw [hperm, List.countP_cons, hrest]
  simp only [beq_iff_eq]

/-- The use count of a node that is held. -/
theorem held_uses (hI : s.Inv) (hs : s.Balanced) (hn : n ∈ s.held) :
    s.vfs.openNodes (s.vfs.nodes n).path = some n ∧
      (s.vfs.nodes n).uses = s.balance (s.vfs.nodes n).path ∧
      0 < (s.vfs.nodes n).uses := by
  have hopen := hI.held_open hs n hn
  have huses := hs.uses_eq _ _ hopen
  have hpos := (hs.opened_iff (s.vfs.nodes n).path).1
    (by rw [hopen]; exact Option.some_ne_none n)
  exact ⟨hopen, huses, by omega⟩

theorem closed_last (hI : s.Inv) (hs : s.Balanced) (hn : n ∈ s.held)
    (huses : (s.vfs.nodes n).uses = 1) :
    (s.closed n).Inv ∧ ((s.closed n).Balanced ↔
      s.vfs.mountedFilesystems (s.vfs.nodes n).path ≠ some n) := by
  obtain ⟨hopen, hcount, -⟩ := held_uses hI hs hn
  have hvfs : (s.closed n).vfs = { s.vfs with
      openNodes := Function.update s.vfs.openNodes (s.vfs.nodes n).path none } :=
    Vfs.closeNode_last (Nat.le_of_eq huses) hopen
  have hnodes : (s.closed n).vfs.nodes = s.vfs.nodes := by rw [hvfs]
  have hopens : (s.closed n).vfs.openNodes =
      Function.update s.vfs.openNodes (s.vfs.nodes n).path none := by rw [hvfs]
  have hmounts : (s.closed n).vfs.mountedFilesystems =
      s.vfs.mountedFilesystems := by rw [hvfs]
  have hzero : (s.closed n).balance (s.vfs.nodes n).path = 0 := by
    have := closed_balance hn (s.vfs.nodes n).path
    rw [if_pos rfl] at this
    omega
  have hother : ∀ p, (s.vfs.nodes n).path ≠ p →
      (s.closed n).balance p = s.balance p := by
    intro p hp
    have := closed_balance hn p
    rw [if_neg hp] at this
    exact this
  refine ⟨⟨hI.wf.closeNode n, closed_held_lt hI, ?_⟩, ?_,
    fun hfree => ⟨?_, ?_, ?_⟩⟩
  · -- a node still held has another path: this one was held once only
    intro _ m hm
    have hpath : (s.vfs.nodes m).path ≠ (s.vfs.nodes n).path := by
      intro hp
      have hpos : 0 < (s.closed n).balance (s.vfs.nodes n).path :=
        List.countP_pos_iff.2 ⟨m, hm, by rw [hnodes, beq_iff_eq]; exact hp⟩
      omega
    rw [hnodes, hopens, Function.update_of_ne hpath]
    exact hI.held_open hs m (List.mem_of_mem_erase hm)
  · intro ht hmounted
    have huse := ht.root (s.vfs.nodes n).path n
      (by rw [hmounts]; exact hmounted)
      (by rw [hopens, Function.update_self]; exact (Option.some_ne_none n).symm)
    rw [hnodes] at huse
    omega
  · intro p
    rw [hopens]
    by_cases hp : (s.vfs.nodes n).path = p
    · subst hp
      rw [Function.update_self, hzero]
      exact ⟨fun h => absurd rfl h, fun h => absurd h (Nat.lt_irrefl 0)⟩
    · rw [Function.update_of_ne (Ne.symm hp), hother p hp]
      exact hs.opened_iff p
  · intro p m hm
    rw [hopens] at hm
    rw [hnodes]
    by_cases hp : (s.vfs.nodes n).path = p
    · subst hp
      rw [Function.update_self] at hm
      cases hm
    · rw [Function.update_of_ne (Ne.symm hp)] at hm
      rw [hother p hp]
      exact hs.uses_eq p m hm
  · intro p m hm hne
    rw [hmounts] at hm
    rw [hopens] at hne
    rw [hnodes]
    refine hs.root p m hm fun hopened => ?_
    by_cases hp : (s.vfs.nodes n).path = p
    · subst hp
      rw [hopen] at hopened
      cases hopened
      exact hfree hm
    · rw [Function.update_of_ne (Ne.symm hp)] at hne
      exact hne hopened

theorem closed_used (hI : s.Inv) (hs : s.Balanced) (hn : n ∈ s.held)
    (huses : (s.vfs.nodes n).uses ≠ 1) :
    (s.closed n).Inv ∧ (s.closed n).Balanced := by
  obtain ⟨hopen, hcount, hpos⟩ := held_uses hI hs hn
  have hvfs : (s.closed n).vfs =
      s.vfs.setUses n ((s.vfs.nodes n).uses - 1) :=
    Vfs.closeNode_used (by omega)
  have hopens : (s.closed n).vfs.openNodes = s.vfs.openNodes := by
    rw [hvfs]
    rfl
  have hmounts : (s.closed n).vfs.mountedFilesystems =
      s.vfs.mountedFilesystems := Vfs.closeNode_mounted s.vfs n
  have hself : ((s.closed n).vfs.nodes n).uses = (s.vfs.nodes n).uses - 1 := by
    rw [hvfs, Vfs.setUses_self]
  have hkeep : ∀ m, m ≠ n → (s.closed n).vfs.nodes m = s.vfs.nodes m := by
    intro m hm
    rw [hvfs, Vfs.setUses_of_ne _ _ hm]
  refine ⟨⟨hI.wf.closeNode n, closed_held_lt hI, ?_⟩, ?_, ?_, ?_⟩
  · intro _ m hm
    rw [hopens, closed_nodes_path]
    exact hI.held_open hs m (List.mem_of_mem_erase hm)
  · intro p
    have hbal := closed_balance hn p
    rw [hopens, hs.opened_iff p]
    by_cases hp : (s.vfs.nodes n).path = p
    · subst hp
      rw [if_pos rfl] at hbal
      omega
    · rw [if_neg hp] at hbal
      omega
  · intro p m hm
    rw [hopens] at hm
    have hbal := closed_balance hn p
    have hold := hs.uses_eq p m hm
    have hpath := (hI.wf.opened p m hm).2
    by_cases hmn : m = n
    · subst hmn
      rw [if_pos hpath] at hbal
      rw [hself]
      omega
    · have hp : (s.vfs.nodes n).path ≠ p := by
        rintro rfl
        rw [hopen] at hm
        exact hmn (Option.some.inj hm).symm
      rw [if_neg hp] at hbal
      rw [hkeep m hmn]
      omega
  · intro p m hm hne
    rw [hmounts] at hm
    rw [hopens] at hne
    have hmn : m ≠ n := by
      rintro rfl
      have hpath := (hI.wf.mounted p m hm).2
      rw [hpath] at hopen
      exact hne hopen
    rw [hkeep m hmn]
    exact hs.root p m hm hne

/-! ## Mounting -/

theorem mountRoot_balance (hlt : ∀ m ∈ s.held, m < s.vfs.next)
    (mountpoint p : Path) :
    (⟨s.vfs.mountRoot mountpoint, s.held⟩ : Session).balance p = s.balance p :=
  balance_congr (fun m hm => congrArg FsNode.path
    (Function.update_of_ne (Nat.ne_of_lt (hlt m hm)) _ _)) p

theorem mountRoot_balanced (hI : s.Inv) (hs : s.Balanced) (mountpoint : Path) :
    (⟨s.vfs.mountRoot mountpoint, s.held⟩ : Session).Balanced := by
  constructor
  · intro p
    rw [mountRoot_balance hI.held_lt]
    exact hs.opened_iff p
  · intro p m hm
    rw [mountRoot_balance hI.held_lt,
      Vfs.mountRoot_node s.vfs mountpoint (hI.wf.opened p m hm).1]
    exact hs.uses_eq p m hm
  · intro p m hm hne
    rcases Vfs.mountRoot_mounted hm with ⟨rfl, rfl⟩ | hm
    · exact congrArg FsNode.uses (Vfs.mountRoot_root s.vfs p)
    · rw [Vfs.mountRoot_node s.vfs mountpoint (hI.wf.mounted p m hm).1]
      exact hs.root p m hm hne

theorem mountRoot_inv (hI : s.Inv) {mountpoint : Path}
    (hs : (⟨s.vfs.mountRoot mountpoint, s.held⟩ : Session).Balanced →
      s.Balanced) :
    (⟨s.vfs.mountRoot mountpoint, s.held⟩ : Session).Inv := by
  refine ⟨hI.wf.mountRoot mountpoint, ?_, ?_⟩
  · intro m hm
    exact Nat.lt_succ_of_lt (hI.held_lt m hm)
  · intro ht m hm
    rw [Vfs.mountRoot_node s.vfs mountpoint (hI.held_lt m hm)]
    exact hI.held_open (hs ht) m hm

/-! ## One step -/

/-- The use counts of the open nodes are right. -/
def Counted (s : Session) : Prop :=
  ∀ p n, s.vfs.openNodes p = some n → (s.vfs.nodes n).uses = s.balance p

theorem counted_of_mountRoot (hI : s.Inv) {mountpoint : Path}
    (h : (⟨s.vfs.mountRoot mountpoint, s.held⟩ : Session).Counted) :
    s.Counted := by
  intro p m hm
  have hcount := h p m hm
  rw [mountRoot_balance hI.held_lt,
    Vfs.mountRoot_node s.vfs mountpoint (hI.wf.opened p m hm).1] at hcount
  exact hcount

theorem openable_of_reached {u : Vfs} (hI : s.Inv) (hs : s.Balanced)
    (hgrown : Vfs.Grown s.vfs u) (h : Vfs.Reached s.vfs u n) :
    (⟨u, s.held⟩ : Session).Openable n := by
  have hu := hs.grown hI hgrown
  refine ⟨h.lt, h.path_ne, ?_⟩
  have hroot : u.mountedFilesystems (u.nodes n).path = some n →
      u.openNodes (u.nodes n).path = some n ∨
        u.openNodes (u.nodes n).path ≠ some n ∧ (u.nodes n).uses = 0 := by
    intro hmounted
    by_cases hopen : u.openNodes (u.nodes n).path = some n
    · exact .inl hopen
    · exact .inr ⟨hopen, hu.root _ n hmounted hopen⟩
  rcases h.origin with ⟨hpath, hmounted⟩ | ⟨-, hfound⟩
  · refine hroot ?_
    rw [hpath, hgrown.mounted]
    exact hmounted
  · rcases hfound.origin with hopen | ⟨hopen, hmounted | ⟨-, huses⟩⟩
    · refine .inl ?_
      rw [hgrown.opened]
      exact hopen
    · refine hroot ?_
      rw [hgrown.mounted]
      exact hmounted
    · refine .inr ⟨?_, huses⟩
      show u.openNodes _ ≠ _
      rw [hgrown.opened, hopen]
      exact (Option.some_ne_none n).symm

/-- The session after an open. -/
def afterOpen (s : Session) (sub : Subnodes) (name : Path) : Session :=
  ⟨(s.vfs.openNode sub name).1, (s.vfs.openNode sub name).2.toList ++ s.held⟩

theorem afterOpen_spec (hI : s.Inv) (hs : s.Balanced) (sub : Subnodes)
    (name : Path) :
    (s.afterOpen sub name).Inv ∧
      (OpenRegular s.vfs sub name → (s.afterOpen sub name).Balanced) ∧
      ((s.afterOpen sub name).Counted → OpenRegular s.vfs sub name) := by
  generalize hcall : s.vfs.resolve sub name = call
  obtain ⟨u, r⟩ := call
  obtain ⟨hgrown, hreached⟩ := Vfs.resolve_spec hI.wf hcall
  have hu : (⟨u, s.held⟩ : Session).Balanced := hs.grown hI hgrown
  have huI : (⟨u, s.held⟩ : Session).Inv := hI.grown hs hgrown
  cases r with
  | none =>
      have hafter : s.afterOpen sub name = ⟨u, s.held⟩ := by
        simp only [afterOpen, Vfs.openNode, hcall]
        rfl
      rw [hafter]
      refine ⟨huI, fun _ => hu, fun _ => ?_⟩
      rw [OpenRegular, hcall]
      exact trivial
  | some n =>
      have hafter : s.afterOpen sub name = (⟨u, s.held⟩ : Session).opened n := by
        simp only [afterOpen, Vfs.openNode, hcall]
        rfl
      have hreg : OpenRegular s.vfs sub name ↔
          (⟨u, s.held⟩ : Session).OpensRegular n := by
        rw [OpenRegular, hcall, OpensRegular, hgrown.opened]
      have hn := openable_of_reached hI hs hgrown (hreached n rfl)
      rw [hafter, hreg]
      refine ⟨huI.opened hu hn, fun h => hu.opened huI hn h, fun h => ?_⟩
      refine opensRegular_of_opened hu hn (h _ n ?_)
      rw [opened_openNodes hn.path_ne, Function.update_self]

/-- A step of the code that opens, if anything, and mounts, if anything. -/
theorem afterMount_spec {t : Session} {R : Prop} (mountpoint : Path)
    (hI : t.Inv) (hbal : R → t.Balanced) (hreg : t.Counted → R) :
    (⟨t.vfs.mountRoot mountpoint, t.held⟩ : Session).Inv ∧
      ((⟨t.vfs.mountRoot mountpoint, t.held⟩ : Session).Balanced ↔ R) := by
  have hback : (⟨t.vfs.mountRoot mountpoint, t.held⟩ : Session).Balanced → R :=
    fun h => hreg (counted_of_mountRoot hI h.uses_eq)
  exact ⟨mountRoot_inv hI fun h => hbal (hback h), hback,
    fun h => mountRoot_balanced hI (hbal h) mountpoint⟩

theorem step_balanced (s : Session) (a : Action) (hI : s.Inv) (hs : s.Balanced)
    (hlegal : s.Legal a) :
    ∃ t, s.step a = some t ∧ t.Inv ∧ (t.Balanced ↔ s.Regular a) := by
  cases a with
  | openNode sub name =>
      obtain ⟨hinv, hbal, hreg⟩ := afterOpen_spec hI hs sub name
      exact ⟨s.afterOpen sub name, rfl, hinv, fun h => hreg h.uses_eq, hbal⟩
  | closeNode n =>
      refine ⟨s.closed n, rfl, ?_⟩
      by_cases huses : (s.vfs.nodes n).uses = 1
      · obtain ⟨hinv, hiff⟩ := closed_last hI hs hlegal huses
        refine ⟨hinv, hiff.trans ?_⟩
        exact ⟨fun hne h => hne h.1, fun h hm => h ⟨hm, huses⟩⟩
      · obtain ⟨hinv, hbal⟩ := closed_used hI hs hlegal huses
        exact ⟨hinv, fun _ h => huses h.2, fun _ => hbal⟩
  | mountRootDummy =>
      cases hroot : s.vfs.mountedFilesystems ['/'] with
      | some root =>
          refine ⟨s, ?_, hI, fun _ => trivial, fun _ => hs⟩
          simp only [step, Vfs.mountRootDummy, hroot]
      | none =>
          refine ⟨⟨s.vfs.mountRoot ['/'], s.held⟩, ?_, ?_⟩
          · simp only [step, Vfs.mountRootDummy, hroot]
          · exact afterMount_spec ['/'] hI (fun _ => hs) fun _ => trivial
  | mount sub type mountpoint nodename =>
      -- the session after the container was opened, if one is named
      obtain ⟨t, hcall, hinv, hbal, hreg⟩ : ∃ t : Session,
          (if nodename.isEmpty then (s.vfs, none)
            else s.vfs.openNode sub nodename).1 = t.vfs ∧
          (t.held = (if nodename.isEmpty then (s.vfs, none)
            else s.vfs.openNode sub nodename).2.toList ++ s.held ∧
          t.Inv) ∧ (s.Regular (.mount sub type mountpoint nodename) → t.Balanced) ∧
          (t.Counted → s.Regular (.mount sub type mountpoint nodename)) := by
        by_cases hname : nodename = []
        · subst hname
          exact ⟨s, rfl, ⟨rfl, hI⟩, fun _ => hs, fun _ h => absurd rfl h⟩
        · have hne : ¬ nodename.isEmpty = true := by
            rw [List.isEmpty_iff]
            exact hname
          obtain ⟨hinv, hbal, hreg⟩ := afterOpen_spec hI hs sub nodename
          rw [if_neg hne]
          exact ⟨s.afterOpen sub nodename, rfl, ⟨rfl, hinv⟩,
            fun h => hbal (h hname), fun h _ => hreg h⟩
      generalize hopen : (if nodename.isEmpty then (s.vfs, none)
        else s.vfs.openNode sub nodename) = call at hcall hinv
      obtain ⟨v, node⟩ := call
      obtain ⟨hheld, hinv⟩ := hinv
      obtain ⟨tv, th⟩ := t
      obtain rfl : v = tv := hcall
      obtain rfl : th = node.toList ++ s.held := hheld
      by_cases hroot : (node.isSome || decide (type = .devFs)) = true
      · refine ⟨⟨v.mountRoot mountpoint, node.toList ++ s.held⟩, ?_,
          afterMount_spec mountpoint hinv hbal hreg⟩
        simp only [step, Vfs.mount, hopen, if_pos hroot]
      · refine ⟨⟨v, node.toList ++ s.held⟩, ?_, hinv, fun h => hreg h.uses_eq,
          hbal⟩
        simp only [step, Vfs.mount, hopen, if_neg hroot]

/-! ## Runs -/

theorem init_inv : init.Inv where
  wf := ⟨fun _ _ h => (nomatch h), fun _ _ h => (nomatch h)⟩
  held_lt := fun _ h => nomatch h
  held_open := fun _ _ h => nomatch h

theorem init_balanced : init.Balanced where
  opened_iff := fun _ => ⟨fun h => absurd rfl h, fun h => (nomatch h)⟩
  uses_eq := fun _ _ h => nomatch h
  root := fun _ _ h => nomatch h

/-- With no open left to close, nothing is open and no root has a use. -/
theorem Balanced.restored (hs : s.Balanced) (hheld : s.held = []) :
    (∀ p, s.vfs.openNodes p = none) ∧
      ∀ p n, s.vfs.mountedFilesystems p = some n → (s.vfs.nodes n).uses = 0 := by
  have hnone : ∀ p, s.vfs.openNodes p = none := by
    intro p
    refine Decidable.not_not.1 fun hopen => ?_
    have hpos := (hs.opened_iff p).1 hopen
    rw [balance, hheld] at hpos
    exact absurd hpos (Nat.lt_irrefl 0)
  refine ⟨hnone, fun p n hn => hs.root p n hn ?_⟩
  rw [hnone p]
  exact (Option.some_ne_none n).symm

/-- Opens and closes leave the mounts alone. -/
theorem step_mounted {t : Session} {a : Action}
    (ha : (∃ sub name, a = .openNode sub name) ∨ ∃ n, a = .closeNode n)
    (ht : s.step a = some t) :
    t.vfs.mountedFilesystems = s.vfs.mountedFilesystems := by
  rcases ha with ⟨sub, name, rfl⟩ | ⟨n, rfl⟩
  · obtain rfl : s.afterOpen sub name = t := Option.some.inj ht
    exact Vfs.openNode_mounted s.vfs sub name
  · obtain rfl : s.closed n = t := Option.some.inj ht
    exact Vfs.closeNode_mounted s.vfs n

/-- A session is balanced all along exactly when no step displaces an open root
or closes a mounted root for the last time. In a balanced session in which every
open was closed, the map of open nodes is empty again and no root has a use
left; opens and closes never change the mounts. -/
theorem balanced_iff_regular {actions : List Action}
    (hlegal : Meets step Legal init actions) :
    (Along step Balanced init actions ↔ Meets step Regular init actions) ∧
      (∀ s : Session, s.Balanced → s.held = [] →
        (∀ p, s.vfs.openNodes p = none) ∧
        ∀ p n, s.vfs.mountedFilesystems p = some n → (s.vfs.nodes n).uses = 0) ∧
      ∀ (s t : Session) (a : Action),
        ((∃ sub name, a = .openNode sub name) ∨ ∃ n, a = .closeNode n) →
        s.step a = some t →
        t.vfs.mountedFilesystems = s.vfs.mountedFilesystems :=
  ⟨along_iff_meets (I := Inv) step_balanced init_inv init_balanced hlegal,
    fun _ => Balanced.restored, fun _ _ _ => step_mounted⟩

/-- The device filesystem at "/dev", with an entry "a". -/
def devActions : List Action :=
  [.mountRootDummy, .mount (fun _ _ _ => none) .devFs ['/', 'd', 'e', 'v'] []]

def oneEntry : Subnodes := fun _ _ subname =>
  if subname = ['a'] then some false else none

/-- A node opened twice and closed twice, and a root that stays open. -/
def regularActions : List Action :=
  devActions ++ [.openNode oneEntry ['/', 'd', 'e', 'v'],
    .openNode oneEntry ['/', 'd', 'e', 'v', '/', 'a'],
    .openNode oneEntry ['/', 'd', 'e', 'v', '/', '.', '/', 'a'],
    .closeNode 2, .openNode oneEntry ['/', 'd', 'e', 'v'],
    .closeNode 1, .closeNode 2]

theorem regularActions_balanced : Along step Balanced init regularActions :=
  (balanced_iff_regular (by decide +kernel)).1.2 (by decide +kernel)

/-- "/dev" opened and closed twice. -/
def reopenActions : List Action :=
  devActions ++ [.openNode oneEntry ['/', 'd', 'e', 'v'], .closeNode 1,
    .openNode oneEntry ['/', 'd', 'e', 'v'], .closeNode 1]

/-- The root of "/dev" stays open for ever: its first close left a use. -/
theorem reopenActions_unbalanced :
    Meets step Legal init reopenActions ∧
      ¬ Along step Balanced init reopenActions := by
  have hend : (reopenActions.foldlM step init).map
      (fun t => (t.vfs.openNodes ['/', 'd', 'e', 'v'],
        t.balance ['/', 'd', 'e', 'v'])) = some (some 1, 0) := by decide +kernel
  refine ⟨by decide +kernel, fun h => ?_⟩
  cases hrun : reopenActions.foldlM step init with
  | none =>
      rw [hrun] at hend
      cases hend
  | some t =>
      rw [hrun] at hend
      obtain ⟨hopen, hzero⟩ := Prod.mk.inj (Option.some.inj hend)
      have hpos := ((h.last hrun).opened_iff ['/', 'd', 'e', 'v']).1
        (by rw [hopen]; exact Option.some_ne_none 1)
      omega

end Session

end Iposix.Fs
