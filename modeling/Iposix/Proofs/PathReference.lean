import Iposix.Proofs.PathTokens

/-!
# Paths cleaned component by component

`reference` cuts a path at its slashes and goes through the components: empty
ones and "." go, ".." takes the last name with it, and everything else is kept.
Where no component but ".." starts with "..", `clean_path` returns the same
tokens, with two exceptions. A "." at the end of the path is kept, since the last
token is not looked at any more. And a "." in front is counted like a name, so
that the first ".." that finds no name takes it away instead of being kept.
-/

namespace Iposix.Fs

def isName (component : Path) : Bool :=
  component ≠ [] && component ≠ ['/'] && component ≠ ['.'] && component ≠ ['.', '.']

/-- The tokens with one more component: ".." takes the nearest name away. -/
def referenceStep (tokens : List Path) (component : Path) : List Path :=
  if component = [] ∨ component = ['.'] then tokens
  else if component = ['.', '.'] then
    if tokens.any isName then (tokens.reverse.eraseP isName).reverse
    else tokens ++ [component]
  else tokens ++ [component]

def reference (path : Path) : List Path :=
  let slash := if path.head? = some '/' then [['/']] else []
  match path.splitOn '/' with
  | [] => slash
  | first :: rest =>
      rest.foldl referenceStep
        (if first = ['.'] then [first] else referenceStep slash first)

/-- A "." ends a path of several components. -/
def DotLast (components : List Path) : Prop :=
  components.tail.getLast? = some ['.']

/-- Behind a leading "." there come more ".." than names. -/
def DotClimbs (components : List Path) : Prop :=
  components.head? = some ['.'] ∧
    ∃ read, read <+: components.tail ∧
      read.countP isName < read.count ['.', '.']

/-- What cannot be taken away is no name, and what can is one. -/
structure Parts.Sorted (q : Parts) : Prop where
  root : ∀ t, t ∈ q.root → isName t = false
  names : ∀ t, t ∈ q.names → isName t = true

variable {q p : Parts} {component : Path}

/-! ## The reference in parts -/

theorem isName_iff (h : '/' ∉ component) : isName component = true ↔
    ¬ (component = [] ∨ component = ['.']) ∧ component ≠ ['.', '.'] := by
  have hslash : component ≠ ['/'] := by
    rintro rfl
    exact h List.mem_cons_self
  simp [isName, hslash, and_assoc]

namespace Parts

theorem Sorted.any (h : q.Sorted) : q.tokens.any isName = !q.names.isEmpty := by
  cases hnames : q.names with
  | nil =>
      simp only [tokens, hnames, List.isEmpty_nil, Bool.not_true, List.append_nil,
        List.any_eq_false]
      intro t ht
      rcases List.mem_append.1 ht with ht | ht
      · rw [h.root t ht]
        exact Bool.false_ne_true
      · rw [List.eq_of_mem_replicate ht]
        decide
  | cons name names =>
      have hmem : name ∈ q.names := hnames ▸ List.mem_cons_self
      refine List.any_eq_true.2 ⟨name, ?_, h.names name hmem⟩
      exact List.mem_append_right _ (List.mem_append_right _ hmem)

theorem Sorted.take (h : q.Sorted) (hslash : '/' ∉ component) :
    (q.take component).Sorted := by
  rw [Parts.take]
  split
  · exact h
  · next hskip =>
      split
      · rw [Parts.up]
        split
        · exact ⟨h.root, h.names⟩
        · exact ⟨h.root, fun t ht => h.names t (List.dropLast_subset _ ht)⟩
      · next hup =>
          refine ⟨h.root, fun t ht => ?_⟩
          rcases List.mem_append.1 ht with ht | ht
          · exact h.names t ht
          · rw [List.mem_singleton.1 ht]
            exact (isName_iff hslash).2 ⟨hskip, hup⟩

theorem Sorted.referenceStep (h : q.Sorted) (component : Path) :
    referenceStep q.tokens component = (q.take component).tokens := by
  rw [Fs.referenceStep, Parts.take]
  split
  · rfl
  · split
    · next hup =>
        rw [h.any, hup]
        by_cases hnames : q.names = []
        · rw [up_tokens hnames, hnames]
          rfl
        · obtain ⟨names, name, hlast⟩ :=
            (List.eq_nil_or_concat q.names).resolve_left hnames
          rw [List.concat_eq_append] at hlast
          have hname : isName name = true :=
            h.names name (hlast ▸ List.mem_append_right _ List.mem_cons_self)
          have htokens : q.tokens =
              q.root ++ (List.replicate q.ups ['.', '.'] ++ names) ++ [name] := by
            rw [tokens, hlast, List.append_assoc, List.append_assoc]
          rw [up_tokens_dropLast hnames, htokens, List.dropLast_concat,
            if_pos (by simpa using hnames), List.reverse_append]
          simp only [List.reverse_cons, List.reverse_nil, List.nil_append,
            List.singleton_append, List.eraseP_cons_of_pos hname,
            List.reverse_reverse]
    · rw [push_tokens]

theorem Sorted.foldl : ∀ {rest : List Path} {q : Parts}, q.Sorted →
    (∀ t, t ∈ rest → '/' ∉ t) →
    rest.foldl Fs.referenceStep q.tokens = (rest.foldl Parts.take q).tokens := by
  intro rest
  induction rest with
  | nil => intro q _ _; rfl
  | cons component rest ih =>
      intro q h hrest
      rw [List.foldl_cons, List.foldl_cons, h.referenceStep]
      exact ih (h.take (hrest component List.mem_cons_self))
        fun t ht => hrest t (List.mem_cons_of_mem _ ht)

end Parts

/-! ## The two exceptions -/

/-- The loop and the last token: a "." there is added. -/
theorem finish_eq : ∀ {components : List Path} {q : Parts},
    finish q components = (components.foldl Parts.take q).tokens ++
      if components.getLast? = some ['.'] then [['.']] else [] := by
  intro components
  induction components with
  | nil => intro q; exact (List.append_nil _).symm
  | cons component rest ih =>
      intro q
      cases rest with
      | nil =>
          rw [finish, List.getLast?_singleton, List.foldl_cons, List.foldl_nil]
          by_cases hdot : component = ['.']
          · rw [if_pos hdot, if_pos (congrArg some hdot), Parts.take,
              if_pos (.inr hdot), hdot]
          · rw [if_neg hdot, if_neg (mt Option.some.inj hdot), List.append_nil]
      | cons next rest =>
          rw [finish, ih, List.getLast?_cons_cons]
          rfl

theorem ups_le_foldl : ∀ (rest : List Path) (q : Parts),
    q.ups ≤ (rest.foldl Parts.take q).ups := by
  intro rest
  induction rest with
  | nil => intro q; exact Nat.le_refl _
  | cons component rest ih =>
      intro q
      refine Nat.le_trans ?_ (ih (q.take component))
      rw [Parts.take, Parts.up]
      split
      · exact Nat.le_refl _
      · split
        · split
          · exact Nat.le_succ _
          · exact Nat.le_refl _
        · exact Nat.le_refl _

/-- A ".." is kept once there have been more of them than names. -/
theorem ups_pos_iff (root : List Path) : ∀ (rest names : List Path),
    (∀ t, t ∈ rest → '/' ∉ t) →
    (0 < (rest.foldl Parts.take ⟨root, 0, names⟩).ups ↔
      ∃ read, read <+: rest ∧
        names.length + read.countP isName < read.count ['.', '.']) := by
  intro rest
  induction rest with
  | nil =>
      intro names _
      refine iff_of_false (Nat.lt_irrefl 0) ?_
      rintro ⟨read, hread, hlt⟩
      rw [List.prefix_nil.1 hread] at hlt
      exact Nat.not_lt_zero _ hlt
  | cons component rest ih =>
      intro names hrest
      have hslash := hrest component List.mem_cons_self
      have hrest' : ∀ t, t ∈ rest → '/' ∉ t := fun t ht =>
        hrest t (List.mem_cons_of_mem _ ht)
      -- a component in front of what is read
      have hcons : (∃ read, read <+: component :: rest ∧
            names.length + read.countP isName < read.count ['.', '.']) ↔
          ∃ read, read <+: rest ∧
            names.length + (component :: read).countP isName <
              (component :: read).count ['.', '.'] := by
        constructor
        · rintro ⟨read, hread, hlt⟩
          rcases List.prefix_cons_iff.1 hread with rfl | ⟨read, rfl, hbehind⟩
          · exact absurd hlt (Nat.not_lt_zero _)
          · exact ⟨read, hbehind, hlt⟩
        · rintro ⟨read, hread, hlt⟩
          exact ⟨component :: read, List.prefix_cons_iff.2 (.inr ⟨read, rfl, hread⟩),
            hlt⟩
      rw [hcons, List.foldl_cons, Parts.take]
      simp only [List.countP_cons, List.count_cons, isName_iff hslash]
      by_cases hskip : component = [] ∨ component = ['.']
      · have hup : component ≠ ['.', '.'] := by
          rintro rfl
          simp at hskip
        rw [if_pos hskip, ih _ hrest']
        simp [hskip, hup]
      · rw [if_neg hskip]
        by_cases hup : component = ['.', '.']
        · rw [if_pos hup, Parts.up]
          by_cases hnames : names = []
          · rw [if_pos hnames]
            have hkept := ups_le_foldl rest ⟨root, 1, names⟩
            refine iff_of_true (Nat.lt_of_lt_of_le Nat.zero_lt_one hkept)
              ⟨[], List.nil_prefix, ?_⟩
            simp [hnames, hup]
          · have hpos := List.length_pos_iff.2 hnames
            rw [if_neg hnames, ih _ hrest', List.length_dropLast]
            refine exists_congr fun read => and_congr_right fun _ => ?_
            simp only [hup, ne_eq, not_true, and_false, if_false, beq_self_eq_true,
              if_true]
            omega
        · rw [if_neg hup]
          refine (ih _ hrest').trans
            (exists_congr fun read => and_congr_right fun _ => ?_)
          simp only [hskip, hup, List.length_append, List.length_singleton,
            not_false_eq_true, ne_eq, and_self, if_true,
            beq_iff_eq, if_false]
          omega

/-- A "." counted like a name, against one that is kept: the same tokens until
it is taken away. -/
inductive Behind : Parts → Parts → Prop
  | kept (names : List Path) :
      Behind ⟨[], 0, ['.'] :: names⟩ ⟨[['.']], 0, names⟩
  | taken (ups : Nat) (names : List Path) :
      Behind ⟨[], ups, names⟩ ⟨[['.']], ups + 1, names⟩

theorem Behind.take (h : Behind p q) (component : Path) :
    Behind (p.take component) (q.take component) := by
  rw [Parts.take, Parts.take]
  split
  · exact h
  · split
    · rw [Parts.up, Parts.up]
      cases h with
      | kept names =>
          rw [if_neg (List.cons_ne_nil _ _)]
          by_cases hnames : names = []
          · rw [if_pos hnames, hnames]
            exact .taken 0 []
          · rw [if_neg hnames]
            dsimp only
            rw [List.dropLast_cons_of_ne_nil hnames]
            exact .kept _
      | taken ups names =>
          by_cases hnames : names = []
          · rw [if_pos hnames, if_pos hnames]
            exact .taken _ _
          · rw [if_neg hnames, if_neg hnames]
            exact .taken _ _
    · cases h with
      | kept names => exact .kept _
      | taken ups names => exact .taken _ _

theorem Behind.foldl : ∀ {rest : List Path} {p q : Parts}, Behind p q →
    Behind (rest.foldl Parts.take p) (rest.foldl Parts.take q) := by
  intro rest
  induction rest with
  | nil => intro p q h; exact h
  | cons component rest ih => intro p q h; exact ih (h.take component)

/-- Tokens with a "." behind them, and those of the reference. -/
theorem Behind.tokens_iff (h : Behind p q) {last : List Path}
    (hshort : last.length ≤ 1) :
    p.tokens ++ last = q.tokens ↔ last = [] ∧ ¬ 0 < q.ups := by
  cases h with
  | kept names =>
      have heq : Parts.tokens ⟨[], 0, ['.'] :: names⟩ =
          Parts.tokens ⟨[['.']], 0, names⟩ := rfl
      rw [heq, List.append_right_eq_self]
      simp
  | taken ups names =>
      refine iff_of_false (fun heq => ?_) fun hand => hand.2 (Nat.zero_lt_succ _)
      have hlen := congrArg List.length heq
      simp only [Parts.tokens, List.length_append, List.length_replicate,
        List.length_nil, List.length_singleton] at hlen
      omega

/-! ## The whole path -/

theorem slash_not_mem_splitOn : ∀ {path : Path} {t : Path},
    t ∈ path.splitOn '/' → '/' ∉ t := by
  intro path
  induction path with
  | nil =>
      intro t ht
      rw [List.splitOn_nil, List.mem_singleton] at ht
      exact ht ▸ List.not_mem_nil
  | cons letter path ih =>
      intro t ht
      rw [List.splitOn_cons_eq_if_modifyHead] at ht
      split at ht
      · rcases List.mem_cons.1 ht with rfl | ht
        · exact List.not_mem_nil
        · exact ih ht
      · next hletter =>
          obtain ⟨first, rest, hsplit⟩ :=
            List.exists_cons_of_ne_nil (List.splitOn_ne_nil '/' path)
          rw [hsplit, List.modifyHead_cons] at ht
          rcases List.mem_cons.1 ht with rfl | ht
          · intro hmem
            rcases List.mem_cons.1 hmem with heq | hmem
            · exact hletter (beq_iff_eq.2 heq.symm)
            · exact ih (hsplit ▸ List.mem_cons_self) hmem
          · exact ih (hsplit ▸ List.mem_cons_of_mem _ ht)

/-- A path starts with a slash if its first component is empty and not its only
one. -/
theorem head_intercalate {first : Path} {rest : List Path} (h : '/' ∉ first) :
    (['/'].intercalate (first :: rest)).head? = some '/' ↔ first = [] ∧ rest ≠ [] := by
  cases first with
  | nil => cases rest with
    | nil => simp
    | cons next rest => simp [List.intercalate_cons_cons]
  | cons letter first =>
      have hne : letter ≠ '/' := by
        rintro rfl
        exact h List.mem_cons_self
      cases rest <;> simp [List.intercalate_cons_cons, hne]

/-- What stands behind the first component. -/
def referenceBegin (first : Path) (rest : List Path) : Parts :=
  if first = ['.'] then ⟨[first], 0, []⟩
  else if first = [] ∧ rest ≠ [] then ⟨[['/']], 0, []⟩
  else Parts.take ⟨[], 0, []⟩ first

theorem reference_eq {path first : Path} {rest : List Path}
    (hsplit : path.splitOn '/' = first :: rest) :
    reference path = (rest.foldl Parts.take (referenceBegin first rest)).tokens := by
  have hslash : ∀ t, t ∈ first :: rest → '/' ∉ t := fun t ht =>
    slash_not_mem_splitOn (hsplit ▸ ht)
  have hfirst := hslash first List.mem_cons_self
  have hrest : ∀ t, t ∈ rest → '/' ∉ t := fun t ht =>
    hslash t (List.mem_cons_of_mem _ ht)
  have hhead : path.head? = some '/' ↔ first = [] ∧ rest ≠ [] := by
    rw [← head_intercalate hfirst, ← hsplit, List.intercalate_splitOn]
  have hempty : Parts.Sorted ⟨[], 0, []⟩ :=
    ⟨fun _ ht => (nomatch ht), fun _ ht => (nomatch ht)⟩
  simp only [reference, hsplit, hhead, referenceBegin]
  split
  · next hdot =>
      refine Parts.Sorted.foldl (q := ⟨[first], 0, []⟩) ⟨fun t ht => ?_,
        fun _ ht => (nomatch ht)⟩ hrest
      rw [List.mem_singleton.1 ht, hdot]
      decide
  · split
    · next hroot =>
        rw [hroot.1]
        refine Parts.Sorted.foldl (q := ⟨[['/']], 0, []⟩) ⟨fun t ht => ?_,
          fun _ ht => (nomatch ht)⟩ hrest
        rw [List.mem_singleton.1 ht]
        decide
    · have hstep := hempty.referenceStep first
      have hnil : Parts.tokens ⟨[], 0, []⟩ = [] := rfl
      rw [hnil] at hstep
      rw [hstep]
      exact (hempty.take hfirst).foldl hrest

/-- Where no component but ".." starts with "..", the path is cleaned as the
reference says, exactly if no "." ends it and no leading "." is taken away. -/
theorem cleanPath_reference_iff {path : Path}
    (h : ∀ t, t ∈ path.splitOn '/' → t = ['.', '.'] ∨ ¬ ['.', '.'] <+: t) :
    cleanPath path = reference path ↔
      ¬ DotLast (path.splitOn '/') ∧ ¬ DotClimbs (path.splitOn '/') := by
  have hclean : cleanPath path = cleaned (path.splitOn '/') := by
    have hcs := cleanPath_intercalate (List.splitOn_ne_nil '/' path)
      fun t ht => ⟨slash_not_mem_splitOn ht, h t ht⟩
    rwa [List.intercalate_splitOn] at hcs
  obtain ⟨first, rest, hsplit⟩ :=
    List.exists_cons_of_ne_nil (List.splitOn_ne_nil '/' path)
  rw [hclean, reference_eq hsplit, hsplit, DotLast, DotClimbs, List.tail_cons,
    List.head?_cons, Option.some.injEq]
  cases rest with
  | nil =>
      refine iff_of_true ?_ ⟨by simp, ?_⟩
      · rw [cleaned, finish, List.foldl_nil, referenceBegin]
        by_cases hdot : first = ['.']
        · rw [if_pos hdot, if_pos hdot]
          rfl
        · rw [if_neg hdot, if_neg hdot, if_neg (by simp)]
      · rintro ⟨_, read, hread, hlt⟩
        rw [List.prefix_nil.1 hread] at hlt
        exact Nat.not_lt_zero _ hlt
  | cons next rest =>
      have hfinish : cleaned (first :: next :: rest) =
          finish (begin first) (next :: rest) := by
        rw [cleaned]
        simp
      rw [hfinish, finish_eq]
      by_cases hdot : first = ['.']
      · -- the leading "." is a name for the one and none for the other
        have hbehind : Behind (begin first) (referenceBegin first (next :: rest)) := by
          rw [hdot]
          exact .kept []
        have hups := ups_pos_iff [['.']] (next :: rest) []
          fun t ht => slash_not_mem_splitOn (hsplit ▸ List.mem_cons_of_mem _ ht)
        have hbegin : referenceBegin first (next :: rest) = ⟨[['.']], 0, []⟩ := by
          rw [referenceBegin, if_pos hdot, hdot]
        rw [hbehind.foldl.tokens_iff (by split <;> simp), hbegin, hups]
        simp [hdot]
      · have hbegin : referenceBegin first (next :: rest) = begin first := by
          simp [referenceBegin, begin, hdot]
        rw [hbegin, List.append_right_eq_self]
        simp [hdot]

instance (components : List Path) : Decidable (DotLast components) :=
  inferInstanceAs (Decidable (_ = _))

theorem cleanPath_menu :
    cleanPath "/boot/./././grub/../grub/menu.lst".toList =
      reference "/boot/./././grub/../grub/menu.lst".toList :=
  (cleanPath_reference_iff (by decide +kernel)).2
    ⟨by decide +kernel, fun hclimbs => absurd hclimbs.1 (by decide +kernel)⟩

/-- A "." that ends the path is kept, and one in front is taken away. -/
theorem cleanPath_dots :
    (∀ path, path ∈ [['/', 'a', '/', '.'], ['.', '/', '.', '.']] →
      ∀ t, t ∈ path.splitOn '/' → t = ['.', '.'] ∨ ¬ ['.', '.'] <+: t) ∧
      cleanPath ['/', 'a', '/', '.'] = [['/'], ['a'], ['.']] ∧
      reference ['/', 'a', '/', '.'] = [['/'], ['a']] ∧
      cleanPath ['.', '/', '.', '.'] = [] ∧
      reference ['.', '/', '.', '.'] = [['.'], ['.', '.']] := by
  decide

end Iposix.Fs
