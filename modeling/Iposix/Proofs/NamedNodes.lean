import Iposix.Fs.Namespace
import Iposix.Proofs.OpenBalance
import Iposix.Proofs.PathTokens

/-!
# A path names one node

What is open and what is mounted is looked at before a directory is asked, at
every name on the way. So an open could find other nodes than those that the
directories lead to. It does not, whatever has been opened and closed before, as
long as nothing is mounted over or unmounted above a node that is open.
-/

namespace Iposix.Fs

open Iposix.Lib

universe u

variable {α : Type u} {tokens tokens' : List Path} {token : Path}

/-! ## Complete names -/

/-- The complete name of the tokens behind the root. -/
def absolute (tokens : List Path) : Path := fullnameOf ['/'] false tokens

/-- What `clean_path` may leave behind the root. -/
def Valid (tokens : List Path) : Prop := ∀ t, t ∈ tokens → t ≠ [] ∧ '/' ∉ t

theorem fullnameOf_concat (token : Path) : ∀ (tokens : List Path)
    (fullname : Path) (separator : Bool),
    fullnameOf fullname separator (tokens ++ [token]) =
      (if separator || !tokens.isEmpty then
        fullnameOf fullname separator tokens ++ ['/']
      else fullnameOf fullname separator tokens) ++ token := by
  intro tokens
  induction tokens with
  | nil =>
      intro fullname separator
      cases separator <;> rfl
  | cons first tokens ih =>
      intro fullname separator
      rw [List.cons_append, fullnameOf, ih, fullnameOf]
      simp only [Bool.true_or, if_true, List.isEmpty_cons, Bool.not_false,
        Bool.or_true]

theorem absolute_concat : absolute (tokens ++ [token]) =
    (if !tokens.isEmpty then absolute tokens ++ ['/'] else absolute tokens) ++
      token := fullnameOf_concat token tokens ['/'] false

theorem fullnameOf_separated : ∀ (tokens : List Path) (fullname : Path),
    fullnameOf fullname true tokens =
      fullname ++ tokens.flatMap fun t => '/' :: t := by
  intro tokens
  induction tokens with
  | nil => intro fullname; exact (List.append_nil _).symm
  | cons token tokens ih =>
      intro fullname
      rw [fullnameOf, ih]
      simp

theorem absolute_cons : absolute (token :: tokens) =
    '/' :: (token ++ tokens.flatMap fun t => '/' :: t) := by
  rw [absolute, fullnameOf, fullnameOf_separated]
  rfl

/-- A token ends where the next slash is. -/
theorem token_eq {t t' l l' : Path} (ht : '/' ∉ t) (ht' : '/' ∉ t')
    (hl : l = [] ∨ l.head? = some '/') (hl' : l' = [] ∨ l'.head? = some '/')
    (h : t ++ l = t' ++ l') : t = t' ∧ l = l' := by
  have htake : ∀ {t l : Path}, '/' ∉ t → l = [] ∨ l.head? = some '/' →
      (t ++ l).takeWhile (· ≠ '/') = t := by
    intro t l ht hl
    have hall : ∀ a ∈ t, decide (a ≠ '/') = true := fun a ha =>
      decide_eq_true fun heq => ht (heq ▸ ha)
    rw [List.takeWhile_append_of_pos hall]
    rcases hl with rfl | hl
    · exact List.append_nil t
    · obtain ⟨l, rfl⟩ := List.head?_eq_some_iff.1 hl
      exact List.append_nil t
  have heq : t = t' := by
    rw [← htake ht hl, h, htake ht' hl']
  subst heq
  exact ⟨rfl, List.append_cancel_left h⟩

theorem flatMap_slash_inj : ∀ {tokens tokens' : List Path}, Valid tokens →
    Valid tokens' → (tokens.flatMap fun t => '/' :: t) =
      tokens'.flatMap (fun t => '/' :: t) → tokens = tokens' := by
  have hhead : ∀ l : List Path, (l.flatMap fun t => '/' :: t) = [] ∨
      (l.flatMap fun t => '/' :: t).head? = some '/' := by
    intro l
    cases l with
    | nil => exact .inl rfl
    | cons t l => exact .inr rfl
  intro tokens
  induction tokens with
  | nil =>
      intro tokens' _ _ h
      cases tokens' with
      | nil => rfl
      | cons t l => cases h
  | cons token tokens ih =>
      intro tokens' hv hv' h
      cases tokens' with
      | nil => cases h
      | cons token' tokens' =>
          obtain ⟨rfl, hrest⟩ := token_eq (hv token List.mem_cons_self).2
            (hv' token' List.mem_cons_self).2 (hhead tokens) (hhead tokens')
            (List.cons.inj h).2
          rw [ih (fun t ht => hv t (List.mem_cons_of_mem _ ht))
            (fun t ht => hv' t (List.mem_cons_of_mem _ ht)) hrest]

theorem absolute_inj (h : Valid tokens) (h' : Valid tokens')
    (heq : absolute tokens = absolute tokens') : tokens = tokens' := by
  cases tokens with
  | nil =>
      cases tokens' with
      | nil => rfl
      | cons t l =>
          exact absurd heq.symm
            (fullnameOf_ne_root l (h' t List.mem_cons_self).1)
  | cons token tokens =>
      cases tokens' with
      | nil =>
          exact absurd heq
            (fullnameOf_ne_root tokens (h token List.mem_cons_self).1)
      | cons token' tokens' =>
          rw [absolute_cons, absolute_cons] at heq
          refine flatMap_slash_inj h h' ?_
          simp only [List.flatMap_cons, List.cons_append]
          exact heq

theorem cleanPath_valid {name : Path}
    (h : cleanPath name = ['/'] :: tokens) : Valid tokens := by
  obtain ⟨q, last, hreturned, -, -⟩ := (CleanPath.inv_after name).returned
  have htokens : ['/'] :: tokens = q.tokens ++ last :=
    h.symm.trans hreturned.tokens
  have hrest : ∀ t, t ∈ List.replicate q.ups ['.', '.'] ++ (q.names ++ last) →
      t ≠ [] ∧ '/' ∉ t := fun t ht =>
    ⟨(hreturned.components t ht).2, (hreturned.components t ht).1.1⟩
  rw [Parts.tokens, List.append_assoc, List.append_assoc] at htokens
  rcases hreturned.proper.root with hroot | hroot
  · rw [hroot, List.nil_append] at htokens
    have hslash := hrest ['/'] (htokens ▸ List.mem_cons_self)
    exact absurd (List.mem_singleton_self '/') hslash.2
  · rw [hroot] at htokens
    rw [(List.cons.inj htokens).2]
    exact hrest

/-! ## What the directories lead to -/

namespace Directories

variable (dirs : Directories α) (roots : Path → Option α)

/-- One name below `a`: a mounted root, or what the directory answers. `names` are
all tokens up to the name. -/
def enter (a : α) (names : List Path) (token : Path) : Option (Option α) :=
  match roots (absolute names) with
  | some r => some (some r)
  | none =>
      if dirs.isDirectory a then dirs.openSubnode a token else some none

/-- From `a` on, which is found under the names `done`. -/
def lookup : α → (done : List Path) → List Path → Option (Option α)
  | a, _, [] => some (some a)
  | a, done, token :: tokens =>
      match dirs.enter roots a (done ++ [token]) token with
      | none => none
      | some none => some none
      | some (some b) => lookup b (done ++ [token]) tokens

/-- What the tokens behind the root name. -/
def named (tokens : List Path) : Option (Option α) :=
  match roots ['/'] with
  | none => some none
  | some root => dirs.lookup roots root [] tokens

variable {dirs roots} {roots' : Path → Option α}

theorem lookup_append (rest : List Path) : ∀ {tokens : List Path} {a : α}
    {done : List Path}, dirs.lookup roots a done (tokens ++ rest) =
      match dirs.lookup roots a done tokens with
      | none => none
      | some none => some none
      | some (some b) => dirs.lookup roots b (done ++ tokens) rest := by
  intro tokens
  induction tokens with
  | nil =>
      intro a done
      rw [List.nil_append, lookup, List.append_nil]
  | cons first tokens ih =>
      intro a done
      rw [List.cons_append, lookup, lookup]
      cases dirs.enter roots a (done ++ [first]) first with
      | none => rfl
      | some found =>
          cases found with
          | none => rfl
          | some b =>
              dsimp only
              rw [ih, List.append_assoc]
              rfl

theorem named_append (rest : List Path) :
    dirs.named roots (tokens ++ rest) =
      match dirs.named roots tokens with
      | none => none
      | some none => some none
      | some (some a) => dirs.lookup roots a tokens rest := by
  rw [named, named]
  cases roots ['/'] with
  | none => rfl
  | some root =>
      dsimp only
      rw [lookup_append, List.nil_append]

theorem named_concat {token : Path} {a : α}
    (h : dirs.named roots tokens = some (some a)) :
    dirs.named roots (tokens ++ [token]) =
      dirs.enter roots a (tokens ++ [token]) token := by
  rw [named_append, h]
  dsimp only
  rw [lookup]
  cases dirs.enter roots a (tokens ++ [token]) token with
  | none => rfl
  | some found => cases found <;> rfl

/-- Only the roots at the names on the way count. -/
theorem lookup_congr : ∀ {tokens : List Path} {a : α} {done : List Path},
    (∀ l, l ≠ [] → l <+: tokens →
      roots' (absolute (done ++ l)) = roots (absolute (done ++ l))) →
    dirs.lookup roots' a done tokens = dirs.lookup roots a done tokens := by
  intro tokens
  induction tokens with
  | nil => intro a done _; rfl
  | cons token tokens ih =>
      intro a done h
      have hfirst := h [token] (List.cons_ne_nil _ _)
        (List.prefix_append [token] tokens)
      have hrest : ∀ b, dirs.lookup roots' b (done ++ [token]) tokens =
          dirs.lookup roots b (done ++ [token]) tokens := fun b =>
        ih fun l _ hl => by
          rw [List.append_assoc]
          exact h (token :: l) (List.cons_ne_nil _ _)
            ((List.prefix_cons_inj token).2 hl)
      rw [lookup, lookup, enter, enter, hfirst]
      simp only [hrest]

theorem named_congr (h : ∀ l, l <+: tokens →
    roots' (absolute l) = roots (absolute l)) :
    dirs.named roots' tokens = dirs.named roots tokens := by
  have hroot : roots' ['/'] = roots ['/'] := h [] List.nil_prefix
  rw [named, named, hroot]
  cases roots ['/'] with
  | none => rfl
  | some root => exact lookup_congr fun l _ hl => h l hl

end Directories

/-! ## What is found -/

namespace Namespace

variable {dirs : Directories α} {s t : Namespace α}

/-- The data of the mounted roots. -/
def roots (s : Namespace α) (p : Path) : Option α :=
  (s.vfs.mountedFilesystems p).map s.content

/-- What is open under a name is what the directories lead to. -/
structure Faithful (dirs : Directories α) (s : Namespace α) : Prop where
  wf : s.vfs.Wf
  kinds : ∀ n, n < s.vfs.next →
    (s.vfs.nodes n).isDirectory = dirs.isDirectory (s.content n)
  opened : ∀ tokens n, Valid tokens →
    s.vfs.openNodes (absolute tokens) = some n →
    dirs.named s.roots tokens = some (some (s.content n))

/-- There are more nodes. -/
structure Extends (s t : Namespace α) : Prop where
  grown : Vfs.Grown s.vfs t.vfs
  content : ∀ n, n < s.vfs.next → t.content n = s.content n

theorem Extends.refl (s : Namespace α) : Extends s s :=
  ⟨.refl _, fun _ _ => rfl⟩

theorem Extends.trans {u : Namespace α} (h : Extends s t) (h' : Extends t u) :
    Extends s u :=
  ⟨h.grown.trans h'.grown, fun n hn =>
    (h'.content n (Nat.lt_of_lt_of_le hn h.grown.next_le)).trans
      (h.content n hn)⟩

theorem Extends.roots (h : Extends s t) (hwf : s.vfs.Wf) :
    t.roots = s.roots := by
  funext p
  rw [Namespace.roots, Namespace.roots, h.grown.mounted]
  cases hp : s.vfs.mountedFilesystems p with
  | none => rfl
  | some n => exact congrArg some (h.content n (hwf.mounted p n hp).1)

theorem newNode_extends (s : Namespace α) (path : Path) (data : α) :
    Extends s (s.newNode dirs path data).1 :=
  ⟨Vfs.grown_newNode _ _ _, fun _ hn =>
    Function.update_of_ne (Nat.ne_of_lt hn) _ _⟩

theorem Faithful.newNode (h : s.Faithful dirs) (path : Path) (data : α) :
    (s.newNode dirs path data).1.Faithful dirs := by
  have hext : Extends s (s.newNode dirs path data).1 :=
    newNode_extends s path data
  refine ⟨hext.grown.wf h.wf, fun n hn => ?_, fun tokens n hv hn => ?_⟩
  · have hn : n < s.vfs.next + 1 := hn
    by_cases hnew : n = s.vfs.next
    · subst hnew
      show (Function.update s.vfs.nodes s.vfs.next _ s.vfs.next).isDirectory =
        dirs.isDirectory (Function.update s.content s.vfs.next data s.vfs.next)
      rw [Function.update_self, Function.update_self]
    · have hold : n < s.vfs.next := by omega
      rw [hext.grown.old n hold, hext.content n hold]
      exact h.kinds n hold
  · have hn : s.vfs.openNodes (absolute tokens) = some n := hn
    rw [hext.roots h.wf, hext.content n (h.wf.opened _ n hn).1]
    exact h.opened tokens n hv hn

/-- What an open or a part of it answers. -/
def answer (o : Namespace α × Option Nat) : Option α := o.2.map o.1.content

/-- A node found in `s` under the tokens. -/
structure Answered (dirs : Directories α) (s : Namespace α)
    (tokens : List Path) (o : Namespace α × Option Nat) : Prop where
  larger : Extends s o.1
  faithful : o.1.Faithful dirs
  node : ∀ n, o.2 = some n →
    n < o.1.vfs.next ∧ (o.1.vfs.nodes n).path = absolute tokens

theorem openSubnode_spec (h : s.Faithful dirs) {base : Nat}
    (hbase : base < s.vfs.next) {done : List Path}
    (hvalid : Valid (done ++ [token]))
    (hfound : dirs.named s.roots done = some (some (s.content base))) :
    (s.openSubnode dirs base (absolute (done ++ [token])) token).map answer =
        dirs.named s.roots (done ++ [token]) ∧
      ∀ o, s.openSubnode dirs base (absolute (done ++ [token])) token = some o →
        Answered dirs s (done ++ [token]) o := by
  have hsame : ∀ {r : Option Nat},
      (∀ n, r = some n → n < s.vfs.next ∧
        (s.vfs.nodes n).path = absolute (done ++ [token])) →
      Answered dirs s (done ++ [token]) (s, r) := fun hr => ⟨.refl s, h, hr⟩
  rw [openSubnode]
  cases hopen : s.vfs.openNodes (absolute (done ++ [token])) with
  | some ret =>
      refine ⟨(h.opened _ ret hvalid hopen).symm, ?_⟩
      rintro o ⟨⟩
      refine hsame ?_
      rintro n ⟨⟩
      exact h.wf.opened _ ret hopen
  | none =>
      rw [Directories.named_concat hfound, Directories.enter, roots]
      cases hmount : s.vfs.mountedFilesystems (absolute (done ++ [token])) with
      | some ret =>
          refine ⟨rfl, ?_⟩
          rintro o ⟨⟩
          refine hsame ?_
          rintro n ⟨⟩
          exact h.wf.mounted _ ret hmount
      | none =>
          have htoken : token.isEmpty = false := List.isEmpty_eq_false_iff.2
            (hvalid token (List.mem_append_right done List.mem_cons_self)).1
          simp only [htoken, Bool.false_eq_true, if_false, Option.map_none,
            h.kinds base hbase]
          cases dirs.isDirectory (s.content base) with
          | false =>
              refine ⟨rfl, ?_⟩
              rintro o ⟨⟩
              exact hsame nofun
          | true =>
              simp only [if_true]
              cases dirs.openSubnode (s.content base) token with
              | none => exact ⟨rfl, nofun⟩
              | some found =>
                  cases found with
                  | none =>
                      refine ⟨rfl, ?_⟩
                      rintro o ⟨⟩
                      exact hsame nofun
                  | some data =>
                      refine ⟨congrArg (fun a => some (some a))
                        (Function.update_self ..), ?_⟩
                      rintro o ⟨⟩
                      refine ⟨newNode_extends .., h.newNode .., ?_⟩
                      rintro n ⟨⟩
                      exact ⟨Nat.lt_succ_self _, congrArg FsNode.path
                        (Function.update_self s.vfs.next _ s.vfs.nodes)⟩

theorem walk_spec : ∀ {tokens : List Path} {s : Namespace α} {base : Nat}
    {done : List Path}, s.Faithful dirs → base < s.vfs.next →
    (s.vfs.nodes base).path = absolute done → Valid (done ++ tokens) →
    dirs.named s.roots done = some (some (s.content base)) →
    (walk dirs s (some base) (absolute done) (!done.isEmpty) tokens).map
        answer = dirs.named s.roots (done ++ tokens) ∧
      ∀ o, walk dirs s (some base) (absolute done) (!done.isEmpty) tokens =
        some o → Answered dirs s (done ++ tokens) o := by
  intro tokens
  induction tokens with
  | nil =>
      intro s base done h hbase hpath _ hfound
      rw [List.append_nil, walk]
      refine ⟨hfound.symm, ?_⟩
      rintro o ⟨⟩
      refine ⟨.refl s, h, ?_⟩
      rintro n ⟨⟩
      exact ⟨hbase, hpath⟩
  | cons token tokens ih =>
      intro s base done h hbase hpath hvalid hfound
      have hsplit : done ++ token :: tokens = done ++ [token] ++ tokens :=
        List.append_cons done token tokens
      rw [hsplit] at hvalid ⊢
      obtain ⟨hanswer, hanswered⟩ := openSubnode_spec h hbase
        (fun t ht => hvalid t (List.mem_append_left tokens ht)) hfound
      rw [walk, ← absolute_concat]
      cases hopen : s.openSubnode dirs base (absolute (done ++ [token])) token with
      | none =>
          rw [hopen] at hanswer
          rw [Directories.named_append, ← hanswer]
          exact ⟨rfl, nofun⟩
      | some o =>
          rw [hopen] at hanswer
          obtain ⟨hlarger, hfaithful, hnode⟩ := hanswered o hopen
          obtain ⟨t, r⟩ := o
          cases r with
          | none =>
              rw [Directories.named_append, ← hanswer]
              have hnone : walk dirs t none (absolute (done ++ [token])) true
                  tokens = some (t, none) := by
                cases tokens <;> rfl
              dsimp only
              rw [hnone]
              refine ⟨rfl, ?_⟩
              rintro o ⟨⟩
              exact ⟨hlarger, hfaithful, nofun⟩
          | some n =>
              obtain ⟨hn, hpath'⟩ := hnode n rfl
              have hroots := hlarger.roots h.wf
              have hnext := ih hfaithful hn hpath' hvalid
                (by rw [hroots]; exact hanswer.symm)
              rw [hroots] at hnext
              have hsep : (!(done ++ [token]).isEmpty) = true := by simp
              rw [hsep] at hnext
              refine ⟨hnext.1, fun o ho => ?_⟩
              obtain ⟨hlarger', hfaithful', hnode'⟩ := hnext.2 o ho
              exact ⟨hlarger.trans hlarger', hfaithful', hnode'⟩

/-! ## What keeps the names -/

/-- What a name stands for, with its complete form. -/
def find (dirs : Directories α) (s : Namespace α) (name : Path) :
    Option (Option (Path × α)) :=
  match cleanPath name with
  | [] => some none
  | first :: tokens =>
      if first = ['/'] then
        (dirs.named s.roots tokens).map
          fun found => found.map fun a => (absolute tokens, a)
      else some none

theorem setUses_isDirectory (v : Vfs) (node uses n : Nat) :
    ((v.setUses node uses).nodes n).isDirectory = (v.nodes n).isDirectory := by
  by_cases h : n = node
  · rw [h, Vfs.setUses_self]
  · rw [Vfs.setUses_of_ne v uses h]

theorem Faithful.open (h : s.Faithful dirs) {n : Nat} (hn : n < s.vfs.next)
    (hvalid : Valid tokens) (hpath : (s.vfs.nodes n).path = absolute tokens)
    (hnamed : dirs.named s.roots tokens = some (some (s.content n))) :
    Faithful dirs { s with vfs := s.vfs.open n } ∧
      roots { s with vfs := s.vfs.open n } = s.roots := by
  have hne : (s.vfs.nodes n).path ≠ [] := by
    rw [hpath]
    intro hnil
    have hlen := length_le_fullnameOf tokens ['/'] false
    have hzero : (fullnameOf ['/'] false tokens).length = 0 :=
      congrArg List.length hnil
    rw [hzero] at hlen
    exact absurd hlen (by decide)
  have hroots : roots { s with vfs := s.vfs.open n } = s.roots := by
    funext p
    rw [roots, roots]
    dsimp only
    rw [Vfs.open_mounted]
  refine ⟨⟨h.wf.open hn hne, fun m hm => ?_, fun tokens' m hv' hm => ?_⟩, hroots⟩
  · have hm : m < s.vfs.next := by
      rw [← Vfs.open_next s.vfs n]
      exact hm
    rw [Vfs.open_eq hne]
    exact (setUses_isDirectory ..).trans (h.kinds m hm)
  · rw [hroots]
    rw [Vfs.open_opened hne] at hm
    by_cases hp : absolute tokens' = (s.vfs.nodes n).path
    · rw [hp, Function.update_self] at hm
      obtain rfl := Option.some.inj hm
      rw [absolute_inj hv' hvalid (hp.trans hpath)]
      exact hnamed
    · rw [Function.update_of_ne hp] at hm
      exact h.opened tokens' m hv' hm

theorem openNode_spec (h : s.Faithful dirs) (name : Path) :
    (s.openNode dirs name).map (fun o => o.2.map
        fun n => ((o.1.vfs.nodes n).path, o.1.content n)) = s.find dirs name ∧
      ∀ o, s.openNode dirs name = some o →
        o.1.Faithful dirs ∧ o.1.roots = s.roots := by
  rw [openNode, find]
  cases hclean : cleanPath name with
  | nil =>
      refine ⟨rfl, ?_⟩
      rintro o ⟨⟩
      exact ⟨h, rfl⟩
  | cons first tokens =>
      by_cases hfirst : first = ['/']
      · rw [hfirst] at hclean ⊢
        have hvalid := cleanPath_valid hclean
        simp only [if_true]
        cases hroot : s.vfs.mountedFilesystems ['/'] with
        | none =>
            rw [Directories.named, roots, hroot]
            refine ⟨rfl, ?_⟩
            rintro o ⟨⟩
            exact ⟨h, rfl⟩
        | some base =>
            obtain ⟨hbase, hpath⟩ := h.wf.mounted _ base hroot
            have hnamed : dirs.named s.roots [] =
                some (some (s.content base)) := by
              rw [Directories.named, roots, hroot]
              rfl
            have hwalk : (walk dirs s (some base) ['/'] false tokens).map
                answer = dirs.named s.roots tokens ∧ _ :=
              @walk_spec _ _ _ _ _ [] h hbase hpath hvalid hnamed
            obtain ⟨hanswer, hanswered⟩ := hwalk
            dsimp only
            rw [← hanswer]
            cases hrun : walk dirs s (some base) ['/'] false tokens with
            | none => exact ⟨rfl, nofun⟩
            | some o =>
                obtain ⟨hlarger, hfaithful, hnode⟩ := hanswered o hrun
                have hroots := hlarger.roots h.wf
                obtain ⟨t, r⟩ := o
                cases r with
                | none =>
                    refine ⟨rfl, ?_⟩
                    rintro o ⟨⟩
                    exact ⟨hfaithful, hroots⟩
                | some n =>
                    obtain ⟨hn, hpath'⟩ := hnode n rfl
                    rw [hrun] at hanswer
                    have hopen := hfaithful.open hn hvalid hpath'
                      (by rw [hroots]; exact hanswer.symm)
                    refine ⟨?_, ?_⟩
                    · show some (some (((t.vfs.open n).nodes n).path,
                        t.content n)) = some (some (absolute tokens, t.content n))
                      rw [Vfs.open_path]
                      exact congrArg (fun p => some (some (p, t.content n))) hpath'
                    · rintro o ⟨⟩
                      exact ⟨hopen.1, hopen.2.trans hroots⟩
      · simp only [if_neg hfirst]
        refine ⟨rfl, ?_⟩
        rintro o ⟨⟩
        exact ⟨h, rfl⟩

theorem Faithful.closeNode (h : s.Faithful dirs) (n : Nat) :
    (s.closeNode n).Faithful dirs := by
  have hroots : (s.closeNode n).roots = s.roots := by
    funext p
    rw [roots, roots, Namespace.closeNode, Vfs.closeNode_mounted]
  refine ⟨h.wf.closeNode n, fun m hm => ?_, fun tokens m hv hm => ?_⟩
  · rw [Namespace.closeNode, Vfs.closeNode_next] at hm
    refine Eq.trans ?_ (h.kinds m hm)
    show ((s.vfs.closeNode n).nodes m).isDirectory = _
    rcases Vfs.closeNode_cases s.vfs n with heq | heq | heq <;> rw [heq]
    exact setUses_isDirectory ..
  · rw [hroots]
    exact h.opened tokens m hv (Vfs.closeNode_opened hm)

/-- Nothing is open under the path or below it. -/
def Clear (s : Namespace α) (mountpoint : Path) : Prop :=
  ∀ tokens, s.vfs.openNodes (absolute tokens) ≠ none →
    ∀ l, l <+: tokens → absolute l ≠ mountpoint

theorem mountRoot_roots (h : s.vfs.Wf) (mountpoint : Path) (root : α) :
    (s.mountRoot mountpoint root).roots =
      Function.update s.roots mountpoint (some root) := by
  funext p
  rw [roots, mountRoot]
  show (Function.update s.vfs.mountedFilesystems mountpoint (some s.vfs.next)
    p).map (Function.update s.content s.vfs.next root) = _
  by_cases hp : p = mountpoint
  · rw [hp, Function.update_self, Function.update_self, Option.map_some,
      Function.update_self]
  · rw [Function.update_of_ne hp, Function.update_of_ne hp, roots]
    cases hm : s.vfs.mountedFilesystems p with
    | none => rfl
    | some n =>
        have hlt := (h.mounted p n hm).1
        exact congrArg some (Function.update_of_ne (Nat.ne_of_lt hlt) ..)

theorem Faithful.mountRoot (h : s.Faithful dirs) {mountpoint : Path} {root : α}
    (hroot : dirs.isDirectory root = true) (hclear : s.Clear mountpoint) :
    (s.mountRoot mountpoint root).Faithful dirs := by
  refine ⟨h.wf.mountRoot mountpoint, fun n hn => ?_, fun tokens n hv hn => ?_⟩
  · have hn : n < s.vfs.next + 1 := hn
    show ((s.vfs.mountRoot mountpoint).nodes n).isDirectory =
      dirs.isDirectory (Function.update s.content s.vfs.next root n)
    by_cases hnew : n = s.vfs.next
    · rw [hnew, Vfs.mountRoot_root, Function.update_self, hroot]
    · have hold : n < s.vfs.next := by omega
      rw [Vfs.mountRoot_node _ _ hold, Function.update_of_ne hnew]
      exact h.kinds n hold
  · have hn : s.vfs.openNodes (absolute tokens) = some n := hn
    have hlt := (h.wf.opened _ n hn).1
    have hsame : dirs.named (s.mountRoot mountpoint root).roots tokens =
        dirs.named s.roots tokens :=
      Directories.named_congr fun l hl => by
        have hne := hclear tokens (by rw [hn]; exact Option.some_ne_none n) l hl
        rw [mountRoot_roots h.wf, Function.update_of_ne hne]
    have hdata : (s.mountRoot mountpoint root).content n = s.content n :=
      Function.update_of_ne (Nat.ne_of_lt hlt) ..
    rw [hsame, hdata]
    exact h.opened tokens n hv hn

theorem Faithful.umount (h : s.Faithful dirs) {mountpoint : Path}
    (hclear : s.Clear mountpoint) : (s.umount mountpoint).Faithful dirs := by
  have hsub : ∀ p n, (s.umount mountpoint).vfs.mountedFilesystems p = some n →
      s.vfs.mountedFilesystems p = some n := by
    intro p n hn
    have hn : Function.update s.vfs.mountedFilesystems mountpoint none p =
        some n := hn
    by_cases hp : p = mountpoint
    · rw [hp, Function.update_self] at hn
      cases hn
    · rw [Function.update_of_ne hp] at hn
      exact hn
  refine ⟨⟨fun p n hn => h.wf.mounted p n (hsub p n hn), h.wf.opened⟩, h.kinds,
    fun tokens n hv hn => ?_⟩
  have hn : s.vfs.openNodes (absolute tokens) = some n := hn
  have hsame : dirs.named (s.umount mountpoint).roots tokens =
      dirs.named s.roots tokens :=
    Directories.named_congr fun l hl => by
      have hne := hclear tokens (by rw [hn]; exact Option.some_ne_none n) l hl
      show (Function.update s.vfs.mountedFilesystems mountpoint none _).map _ = _
      rw [Function.update_of_ne hne]
      rfl
  rw [hsame]
  exact h.opened tokens n hv hn

/-! ## Runs -/

/-- A filesystem is mounted or unmounted where nothing is open, and its root is a
directory. -/
def Permitted (dirs : Directories α) (s : Namespace α) : Use α → Prop
  | .open _ | .close _ => True
  | .mount mountpoint root =>
      dirs.isDirectory root = true ∧ s.Clear mountpoint
  | .umount mountpoint => s.Clear mountpoint

theorem Faithful.init (content : Nat → α) :
    (Namespace.init content).Faithful dirs :=
  ⟨⟨nofun, nofun⟩, nofun, nofun⟩

theorem step_faithful (h : s.Faithful dirs) {use : Use α}
    (hpermitted : s.Permitted dirs use) (ht : s.step dirs use = some t) :
    t.Faithful dirs := by
  cases use with
  | «open» name =>
      obtain ⟨o, ho, rfl⟩ := Option.map_eq_some_iff.1 ht
      exact ((openNode_spec h name).2 o ho).1
  | close node =>
      cases ht
      exact h.closeNode node
  | mount mountpoint root =>
      cases ht
      exact h.mountRoot hpermitted.1 hpermitted.2
  | umount mountpoint =>
      cases ht
      exact h.umount hpermitted

theorem run_faithful : ∀ {uses : List (Use α)} {s : Namespace α},
    s.Faithful dirs → Meets (step dirs) (Permitted dirs) s uses →
    uses.foldlM (step dirs) s = some t → t.Faithful dirs := by
  intro uses
  induction uses with
  | nil =>
      intro s h _ ht
      cases ht
      exact h
  | cons use uses ih =>
      intro s h ⟨hpermitted, hrest⟩ ht
      rw [List.foldlM_cons] at ht
      obtain ⟨u, hu, ht⟩ := Option.bind_eq_some_iff.1 ht
      exact ih (step_faithful h hpermitted hu) (hrest u hu) ht

/-! ## The maps alone -/

/-- What the directories answer, without the data. -/
def subnodes (dirs : Directories α) (content : Nat → α) : Subnodes :=
  fun node _ subname =>
    (dirs.openSubnode (content node) subname).join.map dirs.isDirectory

theorem openSubnode_vfs {content : Nat → α} {base : Nat} {fullname : Path}
    {o : Namespace α × Option Nat} (hwf : s.vfs.Wf) (hbase : base < s.vfs.next)
    (hsame : content base = s.content base)
    (h : s.openSubnode dirs base fullname token = some o) :
    s.vfs.openSubnode (subnodes dirs content) base fullname token =
        (o.1.vfs, o.2) ∧
      Extends s o.1 ∧ ∀ n, o.2 = some n → n < o.1.vfs.next := by
  rw [openSubnode] at h
  rw [Vfs.openSubnode, subnodes, hsame]
  cases hopen : s.vfs.openNodes fullname with
  | some ret =>
      rw [hopen] at h
      cases h
      refine ⟨rfl, .refl s, ?_⟩
      rintro n ⟨⟩
      exact (hwf.opened _ ret hopen).1
  | none =>
      rw [hopen] at h
      dsimp only at h ⊢
      cases hmount : s.vfs.mountedFilesystems fullname with
      | some ret =>
          rw [hmount] at h
          cases h
          refine ⟨rfl, .refl s, ?_⟩
          rintro n ⟨⟩
          exact (hwf.mounted _ ret hmount).1
      | none =>
          rw [hmount] at h
          dsimp only at h ⊢
          split at h
          next htoken =>
            cases h
            rw [if_pos htoken]
            refine ⟨rfl, .refl s, ?_⟩
            rintro n ⟨⟩
            exact hbase
          next htoken =>
            rw [if_neg htoken]
            split at h
            next hdir =>
              rw [if_pos hdir]
              split at h
              next => cases h
              next hanswer =>
                cases h
                rw [hanswer]
                refine ⟨rfl, .refl s, ?_⟩
                rintro n ⟨⟩
              next data hanswer =>
                cases h
                rw [hanswer]
                refine ⟨rfl, newNode_extends .., ?_⟩
                rintro n ⟨⟩
                exact Nat.lt_succ_self _
            next hdir =>
              cases h
              rw [if_neg hdir]
              refine ⟨rfl, .refl s, ?_⟩
              rintro n ⟨⟩

theorem walk_vfs {content : Nat → α} : ∀ {tokens : List Path}
    {s : Namespace α} {base : Option Nat} {fullname : Path} {separator : Bool}
    {o : Namespace α × Option Nat}, s.vfs.Wf →
    (∀ n, base = some n → n < s.vfs.next) →
    walk dirs s base fullname separator tokens = some o →
    Extends s o.1 ∧ ((∀ n, n < o.1.vfs.next → content n = o.1.content n) →
      s.vfs.walk (subnodes dirs content) base fullname separator tokens =
        (o.1.vfs, o.2)) := by
  intro tokens
  induction tokens with
  | nil =>
      intro s base fullname separator o _ _ h
      cases h
      exact ⟨.refl s, fun _ => rfl⟩
  | cons token tokens ih =>
      intro s base fullname separator o hwf hbase h
      cases base with
      | none =>
          cases h
          exact ⟨.refl s, fun _ => rfl⟩
      | some base =>
          have hlt := hbase base rfl
          rw [walk] at h
          split at h
          next => cases h
          next t r hopen =>
            obtain ⟨-, hlarger, hr⟩ := openSubnode_vfs hwf hlt rfl hopen
            obtain ⟨hlarger', hrest⟩ := ih (hlarger.grown.wf hwf) hr h
            have hall := hlarger.trans hlarger'
            refine ⟨hall, fun hsame => ?_⟩
            have hdata : content base = s.content base :=
              (hsame base (Nat.lt_of_lt_of_le hlt hall.grown.next_le)).trans
                (hall.content base hlt)
            rw [Vfs.walk, (openSubnode_vfs hwf hlt hdata hopen).1]
            exact hrest hsame

/-- The maps and the nodes change as if the directories had been asked for the
answers they give in the end. -/
theorem openNode_vfs (hwf : s.vfs.Wf) {name : Path}
    {o : Namespace α × Option Nat} (h : s.openNode dirs name = some o) :
    s.vfs.openNode (subnodes dirs o.1.content) name = (o.1.vfs, o.2) := by
  rw [openNode] at h
  rw [Vfs.openNode, Vfs.resolve]
  cases hclean : cleanPath name with
  | nil =>
      rw [hclean] at h
      cases h
      rfl
  | cons first tokens =>
      rw [hclean] at h
      dsimp only at h ⊢
      split at h
      next hfirst =>
        rw [if_pos hfirst]
        cases hroot : s.vfs.mountedFilesystems ['/'] with
        | none =>
            rw [hroot] at h
            cases h
            rfl
        | some base =>
            rw [hroot] at h
            dsimp only at h ⊢
            have hbase : ∀ n, some base = some n → n < s.vfs.next := by
              rintro n ⟨⟩
              exact (hwf.mounted _ base hroot).1
            split at h
            next => cases h
            next t hwalk =>
              cases h
              rw [(walk_vfs hwf hbase hwalk).2 fun _ _ => rfl]
            next t n hwalk =>
              cases h
              rw [(walk_vfs hwf hbase hwalk).2 fun _ _ => rfl]
      next hfirst =>
        cases h
        rw [if_neg hfirst]

/-- After any opens, closes, mounts and unmounts, an open finds what the mounted
roots and their directories lead to, as if nothing had been open. -/
theorem open_finds_named (content : Nat → α) {uses : List (Use α)}
    (hpermitted : Meets (step dirs) (Permitted dirs) (init content) uses)
    (hrun : uses.foldlM (step dirs) (init content) = some s) (name : Path) :
    (s.openNode dirs name).map (fun o => o.2.map
        fun n => ((o.1.vfs.nodes n).path, o.1.content n)) = s.find dirs name ∧
      ∀ o, s.openNode dirs name = some o →
        s.vfs.openNode (subnodes dirs o.1.content) name = (o.1.vfs, o.2) := by
  have h := run_faithful (.init content) hpermitted hrun
  exact ⟨(openNode_spec h name).1, fun o ho => openNode_vfs h.wf ho⟩

/-- A directory that has one name, of a file. -/
def oneName : Directories Bool where
  isDirectory := id
  openSubnode := fun _ subname => some (if subname = ['a'] then some false else none)

/-- It is mounted, and the file is opened. -/
def fileOpened : List (Use Bool) := [.mount ['/'] true, .open ['/', 'a']]

theorem fileOpened_named :
    ∃ s, fileOpened.foldlM (step oneName) (init fun _ => false) = some s ∧
      (s.openNode oneName ['/', '.', '/', 'a']).map (fun o => o.2.map
        fun n => ((o.1.vfs.nodes n).path, o.1.content n)) =
        s.find oneName ['/', '.', '/', 'a'] := by
  have hpermitted : Meets (step oneName) (Permitted oneName)
      (init fun _ => false) fileOpened :=
    ⟨⟨rfl, fun _ h => absurd rfl h⟩, fun _ _ => ⟨trivial, fun _ _ => trivial⟩⟩
  exact ⟨_, rfl, (open_finds_named (fun _ => false) hpermitted rfl _).1⟩

example : ((fileOpened.foldlM (step oneName) (init fun _ => false)).map
    fun s => s.find oneName ['/', '.', '/', 'a']) =
      some (some (some (['/', 'a'], false))) := by decide

end Namespace

end Iposix.Fs
