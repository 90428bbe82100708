import Iposix.Proofs.OpenBalance

/-!
# When a mounted root is visible

`mount` puts the root of the new filesystem into the mount map under the path
of its mountpoint, and only `umount` and the next `mount` at this path take it
out again. Whether `open_node` finds it there is another question: its loop has
to come through the directories above the mountpoint, and at each name it asks
the open nodes before the mounts. So a root is hidden as long as another node of
its path is open, and a mountpoint in a directory that is not there is never
found. The root of "/" is taken from the mount map at once.

A path that was not open when the filesystem was mounted stays good: what is
opened under it from then on is the root itself.
-/

namespace Iposix.Fs.Vfs

/-! ## Runs of all operations -/

inductive Operation where
  | openNode (sub : Subnodes) (name : Path)
  | closeNode (node : Nat)
  | mount (sub : Subnodes) (type : FsType) (mountpoint nodename : Path)
  | mountRootDummy
  | umount (mountpoint : Path)

def apply (s : Vfs) : Operation → Vfs
  | .openNode sub name => (s.openNode sub name).1
  | .closeNode node => s.closeNode node
  | .mount sub type mountpoint nodename =>
      (s.mount sub type mountpoint nodename).1
  | .mountRootDummy => s.mountRootDummy
  | .umount mountpoint => s.umount mountpoint

def run (s : Vfs) (operations : List Operation) : Vfs :=
  operations.foldl apply s

/-- It unmounts what is mounted at the path, or mounts there again. -/
def Operation.Replaces (path : Path) : Operation → Prop
  | .mount _ _ mountpoint _ | .umount mountpoint => mountpoint = path
  | .openNode _ _ | .closeNode _ | .mountRootDummy => False

/-- The path as the loop of `open_node` puts it together again. -/
def normalForm (name : Path) : Option Path :=
  match cleanPath name with
  | [] => none
  | first :: tokens =>
      if first = ['/'] then some (fullnameOf ['/'] false tokens) else none

instance (path : Path) (o : Operation) : Decidable (o.Replaces path) :=
  match o with
  | .mount _ _ mountpoint _ | .umount mountpoint =>
      inferInstanceAs (Decidable (mountpoint = path))
  | .openNode _ _ | .closeNode _ | .mountRootDummy =>
      inferInstanceAs (Decidable False)

/-- No node but the root is open under the path. -/
def Uncovered (s : Vfs) (path : Path) (root : Nat) : Prop :=
  ∀ n, s.openNodes path = some n → n = root

/-- A directory is found under every name above the last one. -/
def Leads (s : Vfs) (sub : Subnodes) (name : Path) : Prop :=
  (walk sub s (s.mountedFilesystems ['/']) ['/'] false
    (cleanPath name).tail.dropLast).2 ≠ none

instance (s : Vfs) (sub : Subnodes) (name : Path) :
    Decidable (s.Leads sub name) := inferInstanceAs (Decidable (_ ≠ none))

variable {s t : Vfs} {path : Path} {root : Nat}

theorem normalForm_eq {name : Path} (h : normalForm name = some path) :
    ∃ tokens, cleanPath name = ['/'] :: tokens ∧
      fullnameOf ['/'] false tokens = path := by
  rw [normalForm] at h
  split at h
  · cases h
  · next first tokens hclean =>
      split at h
      · next hfirst =>
          rw [hfirst] at hclean
          exact ⟨tokens, hclean, Option.some.inj h⟩
      · cases h

/-! ## The last name of a path -/

theorem walk_none (s : Vfs) (sub : Subnodes) (fullname : Path)
    (separator : Bool) (tokens : List Path) :
    walk sub s none fullname separator tokens = (s, none) := by
  cases tokens <;> rfl

/-- The loop is at its last name when it has found all directories above. -/
theorem walk_concat (sub : Subnodes) (token : Path) : ∀ {tokens : List Path}
    {s : Vfs} {base : Option Nat} {fullname : Path} {separator : Bool},
    walk sub s base fullname separator (tokens ++ [token]) =
      match walk sub s base fullname separator tokens with
      | (t, none) => (t, none)
      | (t, some node) => t.openSubnode sub node
          (fullnameOf fullname separator (tokens ++ [token])) token := by
  intro tokens
  induction tokens with
  | nil =>
      intro s base fullname separator
      cases base with
      | none => rfl
      | some node => rfl
  | cons first tokens ih =>
      intro s base fullname separator
      cases base with
      | none => rfl
      | some node =>
          rw [List.cons_append, walk, walk]
          exact ih

/-- Where a filesystem is mounted, the open nodes alone decide. -/
theorem openSubnode_mount {sub : Subnodes} {node : Nat} {subname : Path}
    (hroot : s.mountedFilesystems path = some root) :
    (s.openSubnode sub node path subname).2 =
      some ((s.openNodes path).getD root) := by
  rw [openSubnode]
  cases s.openNodes path with
  | none => rw [hroot]; rfl
  | some ret => rfl

theorem openNode_snd (s : Vfs) (sub : Subnodes) (name : Path) :
    (s.openNode sub name).2 = (s.resolve sub name).2 := by
  rw [openNode]
  cases s.resolve sub name with
  | mk t r => cases r <;> rfl

theorem resolve_absolute (s : Vfs) (sub : Subnodes) {name : Path}
    {tokens : List Path} (hclean : cleanPath name = ['/'] :: tokens) :
    s.resolve sub name =
      walk sub s (s.mountedFilesystems ['/']) ['/'] false tokens := by
  rw [resolve, hclean]
  show (if ['/'] = ['/'] then _ else _) = _
  rw [if_pos rfl]
  cases s.mountedFilesystems ['/'] with
  | none => rw [walk_none]
  | some base => rfl

/-- What `open_node` finds under a name other than "/". -/
theorem resolve_mount {sub : Subnodes} {name token : Path}
    {tokens : List Path} (hclean : cleanPath name = ['/'] :: (tokens ++ [token]))
    (hpath : fullnameOf ['/'] false (tokens ++ [token]) = path)
    (hroot : s.mountedFilesystems path = some root) :
    (s.resolve sub name).2 =
      if (walk sub s (s.mountedFilesystems ['/']) ['/'] false tokens).2.isSome
      then some ((s.openNodes path).getD root) else none := by
  have hgrown : Grown s (walk sub s (s.mountedFilesystems ['/']) ['/'] false
      tokens).1 := walk_grown sub
  rw [resolve_absolute s sub hclean, walk_concat, hpath]
  generalize walk sub s (s.mountedFilesystems ['/']) ['/'] false tokens =
    call at hgrown
  obtain ⟨t, r⟩ := call
  cases r with
  | none => rfl
  | some node =>
      rw [← hgrown.mounted] at hroot
      rw [← hgrown.opened]
      exact openSubnode_mount hroot

/-- Only "/" has no name behind the first. -/
theorem path_ne_root {name : Path} {tokens : List Path}
    (hclean : cleanPath name = ['/'] :: tokens) (hne : tokens ≠ [])
    (hpath : fullnameOf ['/'] false tokens = path) : path ≠ ['/'] := by
  cases tokens with
  | nil => exact absurd rfl hne
  | cons token tokens =>
      rw [← hpath]
      refine fullnameOf_ne_root tokens (cleanPath_full name token ?_)
      rw [hclean]
      exact List.mem_cons_of_mem _ List.mem_cons_self

theorem resolve_root (s : Vfs) (sub : Subnodes) {name : Path}
    (hclean : cleanPath name = [['/']]) :
    (s.resolve sub name).2 = s.mountedFilesystems ['/'] := by
  rw [resolve_absolute s sub hclean]
  cases s.mountedFilesystems ['/'] <;> rfl

/-- A name of the mountpoint finds the root exactly when no other node is open
there and the directories above are found; "/" finds it always. -/
theorem resolve_eq_root {sub : Subnodes} {name : Path}
    (hname : normalForm name = some path)
    (hroot : s.mountedFilesystems path = some root) :
    (s.resolve sub name).2 = some root ↔
      path = ['/'] ∨ s.Uncovered path root ∧ s.Leads sub name := by
  obtain ⟨tokens, hclean, hpath⟩ := normalForm_eq hname
  rcases List.eq_nil_or_concat tokens with rfl | ⟨before, token, rfl⟩
  · obtain rfl : ['/'] = path := hpath
    rw [resolve_root s sub hclean, hroot]
    exact iff_of_true rfl (.inl rfl)
  · rw [List.concat_eq_append] at hclean hpath
    have hslash : path ≠ ['/'] := path_ne_root hclean (by simp) hpath
    have hleads : s.Leads sub name ↔ (walk sub s (s.mountedFilesystems ['/'])
        ['/'] false before).2.isSome = true := by
      rw [Leads, hclean, List.tail_cons, List.dropLast_concat,
        Option.isSome_iff_ne_none]
    rw [resolve_mount hclean hpath hroot, hleads, or_iff_right hslash, Uncovered]
    split
    · next hfound =>
        rw [and_iff_left hfound, Option.some.injEq]
        cases s.openNodes path with
        | none => exact iff_of_true rfl fun n hn => nomatch hn
        | some m =>
            refine ⟨fun h n hn => ?_, fun h => h m rfl⟩
            rw [← Option.some.inj hn]
            exact h
    · next hlost => exact ⟨fun h => (nomatch h), fun h => absurd h.2 hlost⟩

/-- While no other node is open there, only the root is found. -/
theorem resolve_uncovered {sub : Subnodes} {name : Path} {n : Nat}
    (hname : normalForm name = some path)
    (hroot : s.mountedFilesystems path = some root)
    (hopen : s.Uncovered path root) (h : (s.resolve sub name).2 = some n) :
    n = root := by
  obtain ⟨tokens, hclean, hpath⟩ := normalForm_eq hname
  rcases List.eq_nil_or_concat tokens with rfl | ⟨before, token, rfl⟩
  · obtain rfl : ['/'] = path := hpath
    rw [resolve_root s sub hclean, hroot] at h
    exact (Option.some.inj h).symm
  · rw [List.concat_eq_append] at hclean hpath
    rw [resolve_mount hclean hpath hroot] at h
    split at h
    · cases hnode : s.openNodes path with
      | none =>
          rw [hnode] at h
          exact (Option.some.inj h).symm
      | some m =>
          rw [hnode] at h
          exact (Option.some.inj h).symm.trans (hopen m hnode)
    · cases h

/-! ## What the operations keep -/

/-- The node found has the normal form of the name as its path. -/
theorem resolve_normalForm {sub : Subnodes} {name : Path} {n : Nat}
    (hwf : s.Wf) (h : s.resolve sub name = (t, some n)) :
    normalForm name = some (t.nodes n).path := by
  have hfull := cleanPath_full name
  cases hclean : cleanPath name with
  | nil =>
      rw [resolve, hclean] at h
      cases h
  | cons first tokens =>
      rw [hclean] at hfull
      by_cases hfirst : first = ['/']
      · subst hfirst
        rw [normalForm, hclean]
        show (if ['/'] = ['/'] then _ else _) = _
        rw [if_pos rfl]
        rw [resolve_absolute s sub hclean] at h
        cases tokens with
        | nil =>
            have hroot : s.mountedFilesystems ['/'] = some n := congrArg Prod.snd h
            obtain rfl : s = t := congrArg Prod.fst h
            rw [(hwf.mounted _ _ hroot).2, fullnameOf]
        | cons token tokens =>
            obtain ⟨-, hfound⟩ := walk_spec hwf
              (fun t ht => hfull t (List.mem_cons_of_mem _ ht))
              (List.cons_ne_nil _ _) h
            rw [(hfound n rfl).path]
      · rw [resolve, hclean] at h
        replace h : (if first = ['/'] then _ else (s, none)) = (t, some n) := h
        rw [if_neg hfirst] at h
        cases h

theorem Wf.openNode (hwf : s.Wf) (sub : Subnodes) (name : Path) :
    (s.openNode sub name).1.Wf := by
  generalize hcall : s.resolve sub name = call
  obtain ⟨u, r⟩ := call
  obtain ⟨hgrown, hreached⟩ := resolve_spec hwf hcall
  rw [Vfs.openNode, hcall]
  cases r with
  | none => exact hgrown.wf hwf
  | some n =>
      obtain ⟨hlt, hne, -⟩ := hreached n rfl
      exact (hgrown.wf hwf).open hlt hne

theorem Uncovered.openNode (hwf : s.Wf)
    (hroot : s.mountedFilesystems path = some root)
    (hopen : s.Uncovered path root) (sub : Subnodes) (name : Path) :
    (s.openNode sub name).1.Uncovered path root := by
  generalize hcall : s.resolve sub name = call
  obtain ⟨u, r⟩ := call
  obtain ⟨hgrown, hreached⟩ := resolve_spec hwf hcall
  rw [Vfs.openNode, hcall]
  intro m hm
  cases r with
  | none =>
      refine hopen m ?_
      rw [← hgrown.opened]
      exact hm
  | some n =>
      replace hm : (u.open n).openNodes path = some m := hm
      rw [open_opened (hreached n rfl).path_ne, hgrown.opened] at hm
      by_cases hp : path = (u.nodes n).path
      · rw [← hp, Function.update_self] at hm
        have hname := resolve_normalForm hwf hcall
        rw [← hp] at hname
        rw [← Option.some.inj hm]
        exact resolve_uncovered hname hroot hopen (by rw [hcall])
      · rw [Function.update_of_ne hp] at hm
        exact hopen m hm

/-- A mount is an open of the container, if one is named, and a new root. -/
theorem mount_cases (s : Vfs) (sub : Subnodes) (type : FsType)
    (mountpoint nodename : Path) :
    ∃ u, (u = s ∨ u = (s.openNode sub nodename).1) ∧
      ((s.mount sub type mountpoint nodename).1 = u ∨
        (s.mount sub type mountpoint nodename).1 = u.mountRoot mountpoint) := by
  rw [mount]
  by_cases hname : nodename.isEmpty = true
  · rw [if_pos hname]
    refine ⟨s, .inl rfl, ?_⟩
    dsimp only
    split
    · exact .inr rfl
    · exact .inl rfl
  · rw [if_neg hname]
    refine ⟨(s.openNode sub nodename).1, .inr rfl, ?_⟩
    dsimp only
    split
    · exact .inr rfl
    · exact .inl rfl

theorem mountRootDummy_cases (s : Vfs) :
    s.mountRootDummy = s ∨ s.mountedFilesystems ['/'] = none ∧
      s.mountRootDummy = s.mountRoot ['/'] := by
  rw [mountRootDummy]
  split
  · exact .inl rfl
  · next hnone => exact .inr ⟨hnone, rfl⟩

theorem Wf.mount (hwf : s.Wf) (sub : Subnodes) (type : FsType)
    (mountpoint nodename : Path) :
    (s.mount sub type mountpoint nodename).1.Wf := by
  obtain ⟨u, hu, hmount⟩ := mount_cases s sub type mountpoint nodename
  have huwf : u.Wf := by
    rcases hu with rfl | rfl
    · exact hwf
    · exact hwf.openNode sub nodename
  rcases hmount with hmount | hmount
  · rw [hmount]
    exact huwf
  · rw [hmount]
    exact huwf.mountRoot mountpoint

theorem Wf.umount (hwf : s.Wf) (mountpoint : Path) : (s.umount mountpoint).Wf where
  mounted := fun p n hn => by
    replace hn : Function.update s.mountedFilesystems mountpoint none p = some n :=
      hn
    by_cases hp : p = mountpoint
    · rw [hp, Function.update_self] at hn
      cases hn
    · rw [Function.update_of_ne hp] at hn
      exact hwf.mounted p n hn
  opened := hwf.opened

theorem Wf.apply (hwf : s.Wf) (o : Operation) : (s.apply o).Wf := by
  cases o with
  | openNode sub name => exact hwf.openNode sub name
  | closeNode node => exact hwf.closeNode node
  | mount sub type mountpoint nodename =>
      exact hwf.mount sub type mountpoint nodename
  | mountRootDummy =>
      rcases mountRootDummy_cases s with h | ⟨-, h⟩
      · rw [Vfs.apply, h]
        exact hwf
      · rw [Vfs.apply, h]
        exact hwf.mountRoot ['/']
  | umount mountpoint => exact hwf.umount mountpoint

theorem Wf.run : ∀ {operations : List Operation} {s : Vfs}, s.Wf →
    (s.run operations).Wf := by
  intro operations
  induction operations with
  | nil => intro s hwf; exact hwf
  | cons o operations ih => intro s hwf; exact ih (hwf.apply o)

theorem init_wf : init.Wf where
  mounted := fun _ _ h => nomatch h
  opened := fun _ _ h => nomatch h

/-- A mount elsewhere leaves the root where it is. -/
theorem mountRoot_of_ne {mountpoint : Path} (hne : mountpoint ≠ path) :
    (s.mountRoot mountpoint).mountedFilesystems path =
      s.mountedFilesystems path := Function.update_of_ne (Ne.symm hne) _ _

theorem mounted_apply {o : Operation}
    (hroot : s.mountedFilesystems path = some root) (ho : ¬ o.Replaces path) :
    (s.apply o).mountedFilesystems path = some root := by
  cases o with
  | openNode sub name =>
      rw [apply, openNode_mounted]
      exact hroot
  | closeNode node =>
      rw [apply, closeNode_mounted]
      exact hroot
  | mount sub type mountpoint nodename =>
      obtain ⟨u, hu, hmount⟩ := mount_cases s sub type mountpoint nodename
      have huroot : u.mountedFilesystems path = some root := by
        rcases hu with rfl | rfl
        · exact hroot
        · rw [openNode_mounted]
          exact hroot
      rw [apply]
      rcases hmount with hmount | hmount
      · rw [hmount]
        exact huroot
      · rw [hmount, mountRoot_of_ne ho]
        exact huroot
  | mountRootDummy =>
      rw [apply]
      rcases mountRootDummy_cases s with h | ⟨hnone, h⟩
      · rw [h]
        exact hroot
      · have hne : ['/'] ≠ path := by
          rintro rfl
          rw [hnone] at hroot
          cases hroot
        rw [h, mountRoot_of_ne hne]
        exact hroot
  | umount mountpoint =>
      show Function.update s.mountedFilesystems mountpoint none path = some root
      rw [Function.update_of_ne (Ne.symm ho)]
      exact hroot

theorem uncovered_apply (hwf : s.Wf)
    (hroot : s.mountedFilesystems path = some root)
    (hopen : s.Uncovered path root) (o : Operation) :
    (s.apply o).Uncovered path root := by
  cases o with
  | openNode sub name => exact hopen.openNode hwf hroot sub name
  | closeNode node => exact fun n hn => hopen n (closeNode_opened hn)
  | mount sub type mountpoint nodename =>
      obtain ⟨u, hu, hmount⟩ := mount_cases s sub type mountpoint nodename
      have huopen : u.Uncovered path root := by
        rcases hu with rfl | rfl
        · exact hopen
        · exact hopen.openNode hwf hroot sub nodename
      rw [apply]
      rcases hmount with hmount | hmount
      · rw [hmount]
        exact huopen
      · rw [hmount]
        exact huopen
  | mountRootDummy =>
      rw [apply]
      rcases mountRootDummy_cases s with h | ⟨-, h⟩
      · rw [h]
        exact hopen
      · rw [h]
        exact hopen
  | umount mountpoint => exact hopen

/-- All along a run that does not replace the root it stays mounted, and a path
that is not covered stays so. -/
theorem run_mounted : ∀ {operations : List Operation} {s : Vfs}, s.Wf →
    s.mountedFilesystems path = some root →
    (∀ o ∈ operations, ¬ o.Replaces path) →
    (s.run operations).mountedFilesystems path = some root ∧
      (s.Uncovered path root → (s.run operations).Uncovered path root) := by
  intro operations
  induction operations with
  | nil => intro s _ hroot _; exact ⟨hroot, id⟩
  | cons o operations ih =>
      intro s hwf hroot hkeep
      obtain ⟨hmounted, hopen⟩ := ih (hwf.apply o)
        (mounted_apply hroot (hkeep o List.mem_cons_self))
        (fun o' ho' => hkeep o' (List.mem_cons_of_mem _ ho'))
      exact ⟨hmounted, fun h => hopen (uncovered_apply hwf hroot h o)⟩

/-- After a mount that put a root at a path, and until it is replaced, a name of
this path finds the root exactly when no other node is open there and the
directories above are found. If the path was not open when it was mounted, no
other node is ever open there. -/
theorem mount_visible_iff (before after : List Operation) (sub sub' : Subnodes)
    (type : FsType) (path nodename name : Path) (root : Nat)
    (hroot : ((init.run before).mount sub type path nodename).1.mountedFilesystems
      path = some root)
    (hkeep : ∀ o ∈ after, ¬ o.Replaces path)
    (hname : normalForm name = some path) :
    let mounted := ((init.run before).mount sub type path nodename).1
    let later := mounted.run after
    ((later.openNode sub' name).2 = some root ↔
        path = ['/'] ∨ later.Uncovered path root ∧ later.Leads sub' name) ∧
      (mounted.openNodes path = none → later.Uncovered path root) := by
  have hbefore : (init.run before).Wf := init_wf.run
  have hwf := hbefore.mount sub type path nodename
  obtain ⟨hlater, hopen⟩ := run_mounted hwf hroot hkeep
  refine ⟨?_, fun hclosed => hopen fun n hn => ?_⟩
  · rw [openNode_snd]
    exact resolve_eq_root hname hlater
  · rw [hclosed] at hn
    cases hn

def devPath : Path := ['/', 'd', 'e', 'v']

def noEntry : Subnodes := fun _ _ _ => none

/-- An entry of the mounted directory is asked for, and the root opened. -/
theorem mountedDev_visible :
    let mounted :=
      ((init.run [.mountRootDummy]).mount noEntry .devFs devPath []).1
    let later := mounted.run
      [.openNode noEntry (devPath ++ ['/', 'a']), .openNode noEntry devPath]
    (later.openNode noEntry ['/', '/', 'd', 'e', 'v', '/']).2 = some 1 := by
  obtain ⟨hfound, hopen⟩ := mount_visible_iff [.mountRootDummy]
    [.openNode noEntry (devPath ++ ['/', 'a']), .openNode noEntry devPath]
    noEntry noEntry .devFs devPath [] ['/', '/', 'd', 'e', 'v', '/'] 1
    (by decide +kernel) (by decide +kernel) (by decide +kernel)
  exact hfound.2 (.inr ⟨hopen (by decide +kernel), by decide +kernel⟩)

/-- "/dev" is open when the device filesystem is mounted there again. -/
def devOpened : List Operation :=
  [.mountRootDummy, .mount noEntry .devFs devPath [], .openNode noEntry devPath]

theorem remountedDev_hidden :
    let mounted := ((init.run devOpened).mount noEntry .devFs devPath []).1
    normalForm devPath = some devPath ∧
      mounted.mountedFilesystems devPath = some 2 ∧
      (mounted.openNode noEntry devPath).2 = some 1 := by
  decide +kernel

end Iposix.Fs.Vfs
