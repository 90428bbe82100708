import Iposix.Fs.Descriptors
import Iposix.Proofs.OpenBalance

/-!
# How long a file stays open

While a process holds a descriptor of a node, the node is to stay open under its
path, so that another open of the path finds it. Opens keep to this. A fork
gives the child descriptors of the same nodes but counts no uses, so the use
count of a node says how many opens were not closed, not how many descriptors
there are. A close that finds the count at one takes the node out of the open
nodes, and that is wrong exactly when another descriptor refers to it.
-/

namespace Iposix.Fs

open Iposix.Lib

namespace Vfs

/-- What an open of `m` did. -/
structure Opens (s t : Vfs) (m : Nat) : Prop where
  lt : m < t.next
  opened : t.openNodes = Function.update s.openNodes (t.nodes m).path (some m)
  root : (t.nodes m).path = ['/'] → s.mountedFilesystems ['/'] = some m
  other : (t.nodes m).path ≠ ['/'] →
    ∀ n, s.openNodes (t.nodes m).path = some n → m = n

theorem openNode_spec {s t : Vfs} {sub : Subnodes} {name : Path}
    {r : Option Nat} (hwf : s.Wf) (h : s.openNode sub name = (t, r)) :
    t.Wf ∧ s.next ≤ t.next ∧
      (∀ n, n < s.next → (t.nodes n).path = (s.nodes n).path) ∧
      (r = none → t.openNodes = s.openNodes) ∧ ∀ m, r = some m → Opens s t m := by
  generalize hcall : s.resolve sub name = call
  obtain ⟨u, r'⟩ := call
  obtain ⟨hgrown, hreached⟩ := resolve_spec hwf hcall
  have hpath : ∀ n, n < s.next → (u.nodes n).path = (s.nodes n).path :=
    fun n hn => by rw [hgrown.old n hn]
  simp only [openNode, hcall] at h
  cases r' with
  | none =>
      cases h
      exact ⟨hgrown.wf hwf, hgrown.next_le, hpath, fun _ => hgrown.opened,
        fun m hm => nomatch hm⟩
  | some n =>
      cases h
      obtain ⟨hlt, hne, horigin⟩ := hreached n rfl
      refine ⟨(hgrown.wf hwf).open hlt hne, ?_, ?_, fun h => (nomatch h), ?_⟩
      · rw [open_next]
        exact hgrown.next_le
      · intro m hm
        rw [open_path]
        exact hpath m hm
      · rintro _ ⟨⟩
        refine ⟨?_, ?_, ?_, ?_⟩
        · rw [open_next]
          exact hlt
        · rw [open_opened hne, open_path, hgrown.opened]
        · intro hroot
          rw [open_path] at hroot
          rcases horigin with ⟨-, hmounted⟩ | ⟨hother, -⟩
          · exact hmounted
          · exact absurd hroot hother
        · intro hother m hopen
          rw [open_path] at hother hopen
          rcases horigin with ⟨hroot, -⟩ | ⟨-, hfound⟩
          · exact absurd hroot hother
          · rcases hfound.origin with hm | ⟨hm, -⟩
            · rw [hm] at hopen
              exact Option.some.inj hopen
            · rw [hm] at hopen
              cases hopen

end Vfs

namespace Processes

/-- A descriptor of a process refers to a node. -/
def Refers (s : Processes) (process fd n : Nat) : Prop :=
  process < s.count ∧ (s.holders process).filehandles fd = some n

/-- A node that a descriptor refers to is open under its path, and an open that
finds a node of this path finds this one. -/
structure Lifetime (s : Processes) : Prop where
  opened : ∀ process fd n, s.Refers process fd n →
    s.vfs.openNodes (s.vfs.nodes n).path = some n
  same : ∀ process fd n, s.Refers process fd n →
    ∀ sub name t m, s.vfs.openNode sub name = (t, some m) →
      (t.nodes m).path = (s.vfs.nodes n).path → m = n

/-- A close that takes its node out of the open nodes is one of the last
descriptor of the node. -/
def Regular (s : Processes) : Syscall → Prop
  | .closeCall process fileDescriptor =>
      ∀ n, s.Refers process (u32 fileDescriptor) n → (s.vfs.nodes n).uses ≤ 1 →
        ∀ process' fd', s.Refers process' fd' n →
          process' = process ∧ fd' = u32 fileDescriptor
  | .openCall _ _ _ | .forkCall _ _ => True

/-- The call is made by a process that is there. -/
def Legal (s : Processes) : Syscall → Prop
  | .openCall process _ _ | .closeCall process _ | .forkCall process _ =>
      process < s.count

instance (s : Processes) (call : Syscall) : Decidable (s.Legal call) :=
  match call with
  | .openCall process _ _ | .closeCall process _ | .forkCall process _ =>
      inferInstanceAs (Decidable (process < s.count))

structure Inv (s : Processes) : Prop where
  wf : s.vfs.Wf
  lt : ∀ process fd n, s.Refers process fd n → n < s.vfs.next
  root : ∀ process fd n, s.Refers process fd n →
    (s.vfs.nodes n).path = ['/'] → s.vfs.mountedFilesystems ['/'] = some n

variable {s : Processes}

/-- An open node is found again. -/
theorem reopened (hI : s.Inv) {process fd n : Nat} (hn : s.Refers process fd n)
    (hopen : s.vfs.openNodes (s.vfs.nodes n).path = some n) {t : Vfs} {m : Nat}
    (h : Vfs.Opens s.vfs t m) (hpath : (t.nodes m).path = (s.vfs.nodes n).path) :
    m = n := by
  by_cases hroot : (t.nodes m).path = ['/']
  · have hm := h.root hroot
    rw [hI.root process fd n hn (hpath.symm.trans hroot)] at hm
    exact (Option.some.inj hm).symm
  · exact h.other hroot n (by rw [hpath]; exact hopen)

/-- It is enough that the nodes are open. -/
theorem lifetime_iff (hI : s.Inv) : s.Lifetime ↔
    ∀ process fd n, s.Refers process fd n →
      s.vfs.openNodes (s.vfs.nodes n).path = some n := by
  refine ⟨Lifetime.opened, fun h => ⟨h, ?_⟩⟩
  intro process fd n hn sub name t m hcall hpath
  obtain ⟨-, -, -, -, hopens⟩ := Vfs.openNode_spec hI.wf hcall
  exact reopened hI hn (h process fd n hn) (hopens m rfl) hpath

/-! ## The calls -/

theorem openCall_none {process : Nat} {sub : Subnodes} {name : Path} {t : Vfs}
    (hcall : s.vfs.openNode sub name = (t, none)) :
    s.openCall process sub name = { s with vfs := t } := by
  simp only [openCall, hcall]

theorem openCall_some {process m : Nat} {sub : Subnodes} {name : Path} {t : Vfs}
    (hcall : s.vfs.openNode sub name = (t, some m)) :
    s.openCall process sub name =
      { s with vfs := t }.setHolder process
        ((s.holders process).pushFilehandle m).1 := by
  simp only [openCall, hcall]

/-- A descriptor after an open is the new one or an old one. -/
theorem refers_pushed {process process' fd m n : Nat} {t : Vfs}
    (h : Refers ({ s with vfs := t }.setHolder process
      ((s.holders process).pushFilehandle m).1) process' fd n) :
    n = m ∨ s.Refers process' fd n := by
  obtain ⟨hlt, hfd⟩ := h
  replace hfd : (Function.update s.holders process
    ((s.holders process).pushFilehandle m).1 process').filehandles fd = some n :=
      hfd
  by_cases hp : process' = process
  · subst hp
    rw [Function.update_self] at hfd
    replace hfd : Function.update (s.holders process').filehandles
      (s.holders process').fdCounter (some m) fd = some n := hfd
    by_cases hc : fd = (s.holders process').fdCounter
    · rw [hc, Function.update_self] at hfd
      exact .inl (Option.some.inj hfd).symm
    · rw [Function.update_of_ne hc] at hfd
      exact .inr ⟨hlt, hfd⟩
  · rw [Function.update_of_ne hp] at hfd
    exact .inr ⟨hlt, hfd⟩

theorem openCall_spec (hI : s.Inv) (hs : s.Lifetime) (process : Nat)
    (sub : Subnodes) (name : Path) :
    (s.openCall process sub name).Inv ∧ (s.openCall process sub name).Lifetime := by
  generalize hcall : s.vfs.openNode sub name = call
  obtain ⟨t, r⟩ := call
  obtain ⟨hwf, hnext, hpaths, hkeep, hopens⟩ := Vfs.openNode_spec hI.wf hcall
  have hmounted : t.mountedFilesystems = s.vfs.mountedFilesystems := by
    have := Vfs.openNode_mounted s.vfs sub name
    rw [hcall] at this
    exact this
  have hold : ∀ {process' fd n}, s.Refers process' fd n →
      n < t.next ∧ (t.nodes n).path = (s.vfs.nodes n).path := by
    intro process' fd n hn
    have hlt := hI.lt process' fd n hn
    exact ⟨Nat.lt_of_lt_of_le hlt hnext, hpaths n hlt⟩
  have holdRoot : ∀ {process' fd n}, s.Refers process' fd n →
      (t.nodes n).path = ['/'] → t.mountedFilesystems ['/'] = some n := by
    intro process' fd n hn hroot
    rw [hmounted]
    rw [(hold hn).2] at hroot
    exact hI.root process' fd n hn hroot
  cases r with
  | none =>
      rw [openCall_none hcall]
      have hinv : Inv { s with vfs := t } :=
        ⟨hwf, fun _ _ _ hn => (hold hn).1, fun _ _ _ hn => holdRoot hn⟩
      refine ⟨hinv, (lifetime_iff hinv).2 ?_⟩
      intro process' fd n hn
      show t.openNodes (t.nodes n).path = some n
      rw [(hold hn).2, hkeep rfl]
      exact hs.opened process' fd n hn
  | some m =>
      rw [openCall_some hcall]
      have hm := hopens m rfl
      have hinv : Inv ({ s with vfs := t }.setHolder process
          ((s.holders process).pushFilehandle m).1) := by
        refine ⟨hwf, ?_, ?_⟩
        · intro process' fd n hn
          rcases refers_pushed hn with rfl | hn
          · exact hm.lt
          · exact (hold hn).1
        · intro process' fd n hn hroot
          rcases refers_pushed hn with rfl | hn
          · show t.mountedFilesystems ['/'] = some n
            rw [hmounted]
            exact hm.root hroot
          · exact holdRoot hn hroot
      refine ⟨hinv, (lifetime_iff hinv).2 ?_⟩
      intro process' fd n hn
      show t.openNodes (t.nodes n).path = some n
      rw [hm.opened]
      rcases refers_pushed hn with rfl | hn
      · rw [Function.update_self]
      · have hopen := hs.opened process' fd n hn
        by_cases hp : (t.nodes n).path = (t.nodes m).path
        · -- the node of this path was found again
          have hsame : m = n :=
            reopened hI hn hopen hm (hp.symm.trans (hold hn).2)
          rw [hsame, Function.update_self]
        · rw [Function.update_of_ne hp, (hold hn).2]
          exact hopen

/-- The handles after a close are the old ones but for the one closed. -/
theorem refers_removed {process fd m : Nat} {v : Vfs}
    (hfd : (s.holders process).filehandles fd = some m)
    {process' fd' n : Nat} :
    Refers ({ s with vfs := v }.setHolder process
      ((s.holders process).removeFilehandle fd).1) process' fd' n ↔
      s.Refers process' fd' n ∧ ¬ (process' = process ∧ fd' = fd) := by
  have hremoved : ((s.holders process).removeFilehandle fd).1.filehandles =
      Function.update (s.holders process).filehandles fd none := by
    simp only [FilehandleHolder.removeFilehandle, hfd]
  show process' < s.count ∧ (Function.update s.holders process
    ((s.holders process).removeFilehandle fd).1 process').filehandles fd' =
      some n ↔ _
  by_cases hp : process' = process
  · subst hp
    rw [Function.update_self, hremoved]
    by_cases hc : fd' = fd
    · subst hc
      rw [Function.update_self]
      exact ⟨fun h => (nomatch h.2), fun h => absurd ⟨rfl, rfl⟩ h.2⟩
    · rw [Function.update_of_ne hc]
      exact ⟨fun h => ⟨h, fun hboth => hc hboth.2⟩, And.left⟩
  · rw [Function.update_of_ne hp]
    exact ⟨fun h => ⟨h, fun hboth => hp hboth.1⟩, And.left⟩

theorem closeCall_none {process : Nat} {fd : Int}
    (hfd : (s.holders process).filehandles (u32 fd) = none) :
    s.closeCall process fd = s := by
  simp only [closeCall, FilehandleHolder.removeFilehandle, hfd]

theorem closeCall_some {process m : Nat} {fd : Int}
    (hfd : (s.holders process).filehandles (u32 fd) = some m) :
    s.closeCall process fd = { s with vfs := s.vfs.closeNode m }.setHolder process
      ((s.holders process).removeFilehandle (u32 fd)).1 := by
  simp only [closeCall, FilehandleHolder.removeFilehandle, hfd]

theorem closeCall_spec (hI : s.Inv) (hs : s.Lifetime) {process : Nat} {fd : Int}
    (hlegal : process < s.count) :
    (s.closeCall process fd).Inv ∧
      ((s.closeCall process fd).Lifetime ↔ s.Regular (.closeCall process fd)) := by
  cases hfd : (s.holders process).filehandles (u32 fd) with
  | none =>
      rw [closeCall_none hfd]
      refine ⟨hI, fun _ n hn => ?_, fun _ => hs⟩
      rw [Refers, hfd] at hn
      exact nomatch hn.2
  | some m =>
      rw [closeCall_some hfd]
      have hm : s.Refers process (u32 fd) m := ⟨hlegal, hfd⟩
      have hopen := hs.opened process (u32 fd) m hm
      have hinv : Inv ({ s with vfs := s.vfs.closeNode m }.setHolder process
          ((s.holders process).removeFilehandle (u32 fd)).1) := by
        refine ⟨hI.wf.closeNode m, ?_, ?_⟩
        · intro process' fd' n hn
          show n < (s.vfs.closeNode m).next
          rw [Vfs.closeNode_next]
          exact hI.lt process' fd' n ((refers_removed hfd).1 hn).1
        · intro process' fd' n hn hroot
          replace hroot : ((s.vfs.closeNode m).nodes n).path = ['/'] := hroot
          show (s.vfs.closeNode m).mountedFilesystems ['/'] = some n
          rw [Vfs.closeNode_path] at hroot
          rw [Vfs.closeNode_mounted]
          exact hI.root process' fd' n ((refers_removed hfd).1 hn).1 hroot
      refine ⟨hinv, (lifetime_iff hinv).trans ?_⟩
      by_cases huses : (s.vfs.nodes m).uses ≤ 1
      · have hclosed := Vfs.closeNode_last huses hopen
        constructor
        · intro h n hn _ process' fd' hother
          obtain rfl : m = n := Option.some.inj (hfd.symm.trans hn.2)
          refine Decidable.not_not.1 fun hne => ?_
          have hgone := h process' fd' m ((refers_removed hfd).2 ⟨hother, hne⟩)
          replace hgone : (s.vfs.closeNode m).openNodes
            ((s.vfs.closeNode m).nodes m).path = some m := hgone
          rw [Vfs.closeNode_path, hclosed] at hgone
          replace hgone : Function.update s.vfs.openNodes
            (s.vfs.nodes m).path none (s.vfs.nodes m).path = some m := hgone
          rw [Function.update_self] at hgone
          cases hgone
        · intro h process' fd' n hn
          obtain ⟨hother, hne⟩ := (refers_removed hfd).1 hn
          have hopen' := hs.opened process' fd' n hother
          have hpath : (s.vfs.nodes n).path ≠ (s.vfs.nodes m).path := by
            intro hp
            rw [hp, hopen] at hopen'
            obtain rfl := Option.some.inj hopen'
            exact hne (h m hm huses process' fd' hother)
          show (s.vfs.closeNode m).openNodes
            ((s.vfs.closeNode m).nodes n).path = some n
          rw [Vfs.closeNode_path, hclosed]
          show Function.update s.vfs.openNodes (s.vfs.nodes m).path none _ = _
          rw [Function.update_of_ne hpath]
          exact hopen'
      · have hclosed := Vfs.closeNode_used (Nat.not_le.1 huses)
        constructor
        · intro _ n hn hlast
          obtain rfl : m = n := Option.some.inj (hfd.symm.trans hn.2)
          exact absurd hlast huses
        · intro _ process' fd' n hn
          show (s.vfs.closeNode m).openNodes
            ((s.vfs.closeNode m).nodes n).path = some n
          rw [Vfs.closeNode_path, hclosed]
          exact hs.opened process' fd' n ((refers_removed hfd).1 hn).1

/-- The handles after a fork are those of some process before. -/
theorem refers_forked {process process' fd n : Nat} {copied : Bool}
    (hlegal : process < s.count)
    (h : (s.forkCall process copied).Refers process' fd n) :
    ∃ process'', s.Refers process'' fd n := by
  rw [forkCall] at h
  cases copied with
  | false => exact ⟨process', h⟩
  | true =>
      obtain ⟨hlt, hfd⟩ := h
      replace hlt : process' < s.count + 1 := hlt
      replace hfd : (Function.update s.holders s.count
        (FilehandleHolder.empty.copyFilehandles (s.holders process))
          process').filehandles fd = some n := hfd
      by_cases hp : process' = s.count
      · rw [hp, Function.update_self] at hfd
        replace hfd : ((s.holders process).filehandles fd).or none = some n := hfd
        rw [Option.or_none] at hfd
        exact ⟨process, hlegal, hfd⟩
      · rw [Function.update_of_ne hp] at hfd
        exact ⟨process', by omega, hfd⟩

theorem forkCall_vfs (s : Processes) (process : Nat) (copied : Bool) :
    (s.forkCall process copied).vfs = s.vfs := by
  rw [forkCall]
  split <;> rfl

theorem forkCall_spec (hI : s.Inv) (hs : s.Lifetime) {process : Nat}
    (copied : Bool) (hlegal : process < s.count) :
    (s.forkCall process copied).Inv ∧ (s.forkCall process copied).Lifetime := by
  have hvfs := forkCall_vfs s process copied
  have hinv : (s.forkCall process copied).Inv := by
    refine ⟨by rw [hvfs]; exact hI.wf, ?_, ?_⟩
    · intro process' fd n hn
      obtain ⟨process'', hn⟩ := refers_forked hlegal hn
      rw [hvfs]
      exact hI.lt process'' fd n hn
    · intro process' fd n hn hroot
      obtain ⟨process'', hn⟩ := refers_forked hlegal hn
      rw [hvfs] at hroot ⊢
      exact hI.root process'' fd n hn hroot
  refine ⟨hinv, (lifetime_iff hinv).2 ?_⟩
  intro process' fd n hn
  obtain ⟨process'', hn⟩ := refers_forked hlegal hn
  rw [hvfs]
  exact hs.opened process'' fd n hn

/-! ## Runs -/

theorem step_lifetime (s : Processes) (call : Syscall) (hI : s.Inv)
    (hs : s.Lifetime) (hlegal : s.Legal call) :
    ∃ t, s.step call = some t ∧ t.Inv ∧ (t.Lifetime ↔ s.Regular call) := by
  cases call with
  | openCall process sub name =>
      obtain ⟨hinv, hlife⟩ := openCall_spec hI hs process sub name
      exact ⟨_, if_pos hlegal, hinv, fun _ => trivial, fun _ => hlife⟩
  | closeCall process fd =>
      exact ⟨_, if_pos hlegal, closeCall_spec hI hs hlegal⟩
  | forkCall process copied =>
      obtain ⟨hinv, hlife⟩ := forkCall_spec hI hs copied hlegal
      exact ⟨_, if_pos hlegal, hinv, fun _ => trivial, fun _ => hlife⟩

/-- Processes without an open file, on any filesystem. -/
def start (vfs : Vfs) (count : Nat) : Processes where
  vfs := vfs
  holders := fun _ => FilehandleHolder.empty
  count := count

/-- From processes without an open file, every node that is referred to stays
open exactly when each close that drops its node is that of the last descriptor
of the node. -/
theorem lifetime_iff_regular {vfs : Vfs} (hwf : vfs.Wf) {count : Nat}
    {calls : List Syscall} (hlegal : Meets step Legal (start vfs count) calls) :
    Along step Lifetime (start vfs count) calls ↔
      Meets step Regular (start vfs count) calls := by
  have hnone : ∀ process fd n, ¬ (start vfs count).Refers process fd n :=
    fun _ _ _ h => nomatch h.2
  have hI : (start vfs count).Inv :=
    ⟨hwf, fun _ _ _ h => absurd h (hnone _ _ _),
      fun _ _ _ h => absurd h (hnone _ _ _)⟩
  have hs : (start vfs count).Lifetime :=
    (lifetime_iff hI).2 fun _ _ _ h => absurd h (hnone _ _ _)
  exact along_iff_meets (I := Inv) step_lifetime hI hs hlegal

/-- The device filesystem at "/dev". -/
def devVfs : Vfs := (Vfs.init.mountRoot ['/']).mountRoot ['/', 'd', 'e', 'v']

theorem devVfs_wf : devVfs.Wf := (Session.init_inv.wf.mountRoot _).mountRoot _

/-- An open file is shared by a fork, and one of its processes closes it. -/
def sharedCalls (opens : List Syscall) : List Syscall :=
  opens ++ [.forkCall 0 true, .closeCall 1 0]

/-- Opening "/dev/a". -/
def openA : Syscall :=
  .openCall 0 Session.oneEntry ['/', 'd', 'e', 'v', '/', 'a']

/-- Opened twice the file survives a close. -/
theorem openedTwice_lifetime :
    Along step Lifetime (start devVfs 1) (sharedCalls [openA, openA]) := by
  refine (lifetime_iff_regular devVfs_wf (by decide +kernel)).2 ?_
  refine ⟨trivial, ?_⟩
  rintro _ ⟨⟩
  refine ⟨trivial, ?_⟩
  rintro _ ⟨⟩
  refine ⟨trivial, ?_⟩
  rintro _ ⟨⟩
  refine ⟨?_, fun _ _ => trivial⟩
  intro n hn huses
  obtain rfl : 2 = n := Option.some.inj hn.2
  exact absurd huses (by decide +kernel)

/-- Opened once it does not: the parent's file is gone after the child's close,
and another open makes a second node. -/
theorem openedOnce_not_lifetime :
    Meets step Legal (start devVfs 1) (sharedCalls [openA]) ∧
      ¬ Along step Lifetime (start devVfs 1) (sharedCalls [openA]) := by
  have hend : ((sharedCalls [openA]).foldlM step (start devVfs 1)).map
      (fun t => ((t.holders 0).filehandles 0, decide (0 < t.count),
        t.vfs.openNodes (t.vfs.nodes 2).path)) = some (some 2, true, none) := by
    decide +kernel
  refine ⟨by decide +kernel, fun h => ?_⟩
  cases hrun : (sharedCalls [openA]).foldlM step (start devVfs 1) with
  | none =>
      rw [hrun] at hend
      cases hend
  | some t =>
      rw [hrun] at hend
      obtain ⟨hfd, hrest⟩ := Prod.mk.inj (Option.some.inj hend)
      obtain ⟨hcount, hgone⟩ := Prod.mk.inj hrest
      have hopen := (h.last hrun).opened 0 0 2 ⟨of_decide_eq_true hcount, hfd⟩
      rw [hgone] at hopen
      cases hopen

end Processes

end Iposix.Fs
