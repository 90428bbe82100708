import Iposix.Fs.NodeOperations
import Mathlib.Data.List.Basic

/-!
# The tokens of a path

`clean_path` reads a path letter by letter and keeps a vector of tokens with a
count of those it may take away again. `Parts` is what the vector consists of: a
leading slash, every ".." that found nothing to take away, and the tokens behind
them, which are the ones counted. All letters keep it so, and a ".." takes away
one of the tokens counted or is kept itself.

Where every component of the path is ".." or does not start with "..", the
function can be read component by component: `finish` says what it makes of a
list of components. Its own results are such lists, and it gives them back.
-/

namespace Iposix.Fs

structure Parts where
  root : List Path
  ups : Nat
  names : List Path

namespace Parts

def tokens (q : Parts) : List Path :=
  q.root ++ (List.replicate q.ups ['.', '.'] ++ q.names)

/-- ".." -/
def up (q : Parts) : Parts :=
  if q.names = [] then { q with ups := q.ups + 1 }
  else { q with names := q.names.dropLast }

def push (q : Parts) (name : Path) : Parts :=
  { q with names := q.names ++ [name] }

/-- A component with something before it. -/
def take (q : Parts) (component : Path) : Parts :=
  if component = [] ∨ component = ['.'] then q
  else if component = ['.', '.'] then q.up
  else q.push component

theorem up_tokens {q : Parts} (h : q.names = []) :
    q.up.tokens = q.tokens ++ [['.', '.']] := by
  rw [up, if_pos h]
  simp only [tokens, h, List.append_nil, List.replicate_succ', List.append_assoc]

theorem up_tokens_dropLast {q : Parts} (h : q.names ≠ []) :
    q.up.tokens = q.tokens.dropLast := by
  have hne : List.replicate q.ups ['.', '.'] ++ q.names ≠ [] :=
    List.append_ne_nil_of_right_ne_nil _ h
  rw [up, if_neg h]
  simp only [tokens, List.dropLast_append_of_ne_nil hne,
    List.dropLast_append_of_ne_nil h]

theorem push_tokens (q : Parts) (name : Path) :
    (q.push name).tokens = q.tokens ++ [name] := by
  simp only [push, tokens, List.append_assoc]

end Parts

/-- What a token can be while it is read. -/
def Open (token : Path) : Prop := '/' ∉ token ∧ ¬ ['.', '.'] <+: token

/-- What is taken as a token apart from "/" and "..". -/
def Ordinary (token : Path) : Prop := token ≠ [] ∧ Open token

/-- A slash in front, then "..", then names; "." is a name only where nothing
stands in front of it. -/
structure Parts.Proper (q : Parts) : Prop where
  root : q.root = [] ∨ q.root = [['/']]
  names : ∀ t, t ∈ q.names → Ordinary t
  first : q.names.head? = some ['.'] → q.root = [] ∧ q.ups = 0
  later : ['.'] ∉ q.names.tail

namespace CleanPath

/-- The vector and the count belong to the parts. -/
def Carries (c : CleanPath) (q : Parts) : Prop :=
  c.tokens = q.tokens ∧ c.deletableTokens = q.names.length

/-- What every letter keeps. -/
def Inv (c : CleanPath) : Prop :=
  ∃ q : Parts, c.Carries q ∧ q.Proper ∧ Open c.token ∧
    (c.firstToken = true → q = ⟨[], 0, []⟩)

end CleanPath

variable {c : CleanPath} {q : Parts} {token : Path}

/-! ## One letter -/

theorem Open.nil : Open [] := ⟨List.not_mem_nil, fun h => by
  have hle := h.length_le
  simp at hle⟩

theorem Open.ne_root (h : Open token) : token ≠ ['/'] := by
  rintro rfl
  exact h.1 List.mem_cons_self

theorem Open.ne_up (h : Open token) : token ≠ ['.', '.'] := by
  rintro rfl
  exact h.2 List.prefix_rfl

/-- A letter makes no token start with ".." unless it makes it "..". -/
theorem Open.letter (h : Open token) {letter : Char} (hslash : letter ≠ '/')
    (hup : token ++ [letter] ≠ ['.', '.']) : Open (token ++ [letter]) := by
  refine ⟨fun hmem => ?_, fun hpre => ?_⟩
  · rcases List.mem_append.1 hmem with hmem | hmem
    · exact h.1 hmem
    · exact hslash (List.mem_singleton.1 hmem).symm
  · rcases List.prefix_concat_iff.1 hpre with heq | hpre
    · exact hup heq.symm
    · exact h.2 hpre

theorem CleanPath.Carries.nil : CleanPath.Carries ⟨[], [], 0, true⟩ ⟨[], 0, []⟩ :=
  ⟨rfl, rfl⟩

namespace CleanPath

/-- The second dot of a "..". -/
theorem Carries.dot (h : c.Carries q) (htoken : c.token = ['.']) :
    c.dot.Carries q.up ∧ c.dot.token = [] ∧
      (c.dot.firstToken = true → c.firstToken = true ∧ q.names ≠ []) := by
  obtain ⟨htokens, hcount⟩ := h
  rw [CleanPath.dot, htoken]
  dsimp only [List.cons_append, List.nil_append]
  rw [if_pos rfl, hcount]
  by_cases hnames : q.names = []
  · rw [if_neg (by simp [hnames])]
    refine ⟨⟨?_, ?_⟩, rfl, fun hfirst => absurd hfirst Bool.false_ne_true⟩
    · rw [Parts.up_tokens hnames, htokens]
    · rw [Parts.up, if_pos hnames, hnames]
  · have hpos := List.length_pos_iff.2 hnames
    rw [if_pos hpos]
    refine ⟨⟨?_, ?_⟩, rfl, fun hfirst => ⟨hfirst, hnames⟩⟩
    · rw [Parts.up_tokens_dropLast hnames, htokens]
    · rw [Parts.up, if_neg hnames, List.length_dropLast]

/-- A slash that ends the first token. -/
theorem Carries.slash_first (h : c.Carries ⟨[], 0, []⟩)
    (hfirst : c.firstToken = true) (hopen : Open c.token) :
    c.slash.Carries (if c.token = [] then ⟨[['/']], 0, []⟩ else ⟨[], 0, [c.token]⟩) ∧
      c.slash.token = [] ∧ c.slash.firstToken = false := by
  obtain ⟨htokens, hcount⟩ := h
  have hnil : Parts.tokens ⟨[], 0, []⟩ = [] := rfl
  rw [hnil] at htokens
  rw [CleanPath.slash, hfirst, htokens, hcount]
  by_cases hempty : c.token = []
  · rw [if_pos hempty, hempty]
    exact ⟨⟨rfl, rfl⟩, rfl, rfl⟩
  · have hisEmpty : c.token.isEmpty = false := List.isEmpty_eq_false_iff.2 hempty
    simp only [hempty, hisEmpty, Bool.and_false, Bool.true_or, Bool.and_true,
      Bool.not_false, Bool.false_eq_true, if_false, if_true, ne_eq, hopen.ne_root,
      not_false_eq_true, bne_iff_ne]
    exact ⟨⟨rfl, rfl⟩, trivial, trivial⟩

/-- A slash that ends a later token. -/
theorem Carries.slash_later (h : c.Carries q) (hfirst : c.firstToken = false)
    (hopen : Open c.token) :
    c.slash.Carries (q.take c.token) ∧ c.slash.token = [] ∧
      c.slash.firstToken = false := by
  obtain ⟨htokens, hcount⟩ := h
  rw [CleanPath.slash, Parts.take, hfirst]
  by_cases hskip : c.token = [] ∨ c.token = ['.']
  · rw [if_pos hskip]
    have hno : (!c.token.isEmpty && (false || c.token != ['.'])) = false := by
      rcases hskip with hskip | hskip <;> rw [hskip] <;> rfl
    simp only [Bool.false_and, Bool.false_eq_true, if_false, hno]
    exact ⟨⟨htokens, hcount⟩, trivial, trivial⟩
  · rw [if_neg hskip, if_neg hopen.ne_up]
    have hyes : (!c.token.isEmpty && (false || c.token != ['.'])) = true := by
      rw [not_or] at hskip
      simpa using hskip
    simp only [Bool.false_and, Bool.false_eq_true, if_false, hyes, if_true,
      bne_iff_ne, ne_eq, hopen.ne_root, not_false_eq_true]
    refine ⟨⟨?_, ?_⟩, trivial, trivial⟩
    · rw [Parts.push_tokens, htokens]
    · rw [hcount, Parts.push, List.length_append, List.length_singleton]

end CleanPath

/-! ## The invariant -/

namespace Parts

theorem Proper.nil : Proper ⟨[], 0, []⟩ :=
  ⟨.inl rfl, fun _ ht => (nomatch ht), fun h => (by cases h), List.not_mem_nil⟩

theorem Proper.push (h : q.Proper) {name : Path} (hname : Ordinary name)
    (hdot : name ≠ ['.']) : (q.push name).Proper := by
  refine ⟨h.root, fun t ht => ?_, fun hhead => ?_, fun htail => ?_⟩
  · rcases List.mem_append.1 ht with ht | ht
    · exact h.names t ht
    · exact List.mem_singleton.1 ht ▸ hname
  all_goals
    obtain ⟨root, ups, names⟩ := q
    cases names with
    | nil => ?_
    | cons x names => ?_
  · exact absurd (Option.some.inj hhead) hdot
  · exact h.first hhead
  · exact absurd htail List.not_mem_nil
  · rcases List.mem_append.1 htail with htail | htail
    · exact h.later htail
    · exact hdot (List.mem_singleton.1 htail).symm

theorem Proper.up (h : q.Proper) : q.up.Proper := by
  rw [Parts.up]
  split
  · next hnames =>
      refine ⟨h.root, fun t ht => h.names t ht, fun hhead => ?_, h.later⟩
      dsimp only at hhead
      rw [hnames] at hhead
      cases hhead
  · refine ⟨h.root, fun t ht => h.names t (List.dropLast_subset _ ht),
      fun hhead => h.first ?_, fun htail => h.later ?_⟩
    · obtain ⟨x, names, hx⟩ := List.exists_cons_of_ne_nil ‹q.names ≠ []›
      rw [hx] at hhead ⊢
      cases names with
      | nil => cases hhead
      | cons y names => exact hhead
    · dsimp only at htail
      rw [List.tail_dropLast] at htail
      exact List.dropLast_subset _ htail

theorem Proper.take (h : q.Proper) (hopen : Open token) : (q.take token).Proper := by
  rw [Parts.take]
  split
  · exact h
  · next hskip =>
      rw [not_or] at hskip
      rw [if_neg hopen.ne_up]
      exact h.push ⟨hskip.1, hopen⟩ hskip.2

end Parts

namespace CleanPath

theorem Inv.slash (h : c.Inv) : c.slash.Inv := by
  obtain ⟨q, hcarry, hproper, hopen, hfirst⟩ := h
  cases hf : c.firstToken with
  | true =>
      obtain rfl := hfirst hf
      obtain ⟨hcarry, htoken, hlater⟩ := hcarry.slash_first hf hopen
      refine ⟨_, hcarry, ?_, htoken ▸ Open.nil, fun hbad => ?_⟩
      · split
        · exact ⟨.inr rfl, fun _ ht => (nomatch ht), fun h => (by cases h),
            List.not_mem_nil⟩
        · next hne =>
            exact ⟨.inl rfl, fun t ht => List.mem_singleton.1 ht ▸ ⟨hne, hopen⟩,
              fun _ => ⟨rfl, rfl⟩, List.not_mem_nil⟩
      · rw [hlater] at hbad
        cases hbad
  | false =>
      obtain ⟨hcarry, htoken, hlater⟩ := hcarry.slash_later hf hopen
      refine ⟨_, hcarry, hproper.take hopen, htoken ▸ Open.nil, fun hbad => ?_⟩
      rw [hlater] at hbad
      cases hbad

theorem Inv.dot (h : c.Inv) : c.dot.Inv := by
  obtain ⟨q, hcarry, hproper, hopen, hfirst⟩ := h
  by_cases htoken : c.token = ['.']
  · obtain ⟨hcarry, hnil, hlater⟩ := hcarry.dot htoken
    refine ⟨_, hcarry, hproper.up, hnil ▸ Open.nil, fun hf => ?_⟩
    -- nothing can be taken away while the first token is read
    obtain ⟨hf, hne⟩ := hlater hf
    rw [hfirst hf] at hne
    exact absurd rfl hne
  · have hup : c.token ++ ['.'] ≠ ['.', '.'] := fun heq =>
      htoken ((List.append_left_inj ['.']).1 heq)
    rw [CleanPath.dot, if_neg hup]
    exact ⟨q, hcarry, hproper, hopen.letter (by decide) hup, hfirst⟩

theorem Inv.step (h : c.Inv) (letter : Char) : (c.step letter).Inv := by
  rw [CleanPath.step]
  split
  · exact h.slash
  · next hslash =>
      split
      · exact h.dot
      · next hdot =>
          obtain ⟨q, hcarry, hproper, hopen, hfirst⟩ := h
          refine ⟨q, hcarry, hproper, hopen.letter hslash fun heq => hdot ?_, hfirst⟩
          have hlast := congrArg List.getLast? heq
          rw [List.getLast?_concat] at hlast
          exact Option.some.inj hlast

theorem Inv.foldl : ∀ {path : Path} {c : CleanPath}, c.Inv →
    (path.foldl CleanPath.step c).Inv := by
  intro path
  induction path with
  | nil => intro c h; exact h
  | cons letter path ih => intro c h; exact ih (h.step letter)

theorem Inv.start : Inv ⟨[], [], 0, true⟩ :=
  ⟨_, .nil, .nil, Open.nil, fun _ => rfl⟩

end CleanPath

/-! ## Component by component -/

/-- ".." or a token that is not cut before its end. -/
def Component (token : Path) : Prop :=
  '/' ∉ token ∧ (token = ['.', '.'] ∨ ¬ ['.', '.'] <+: token)

namespace CleanPath

/-- The loop stands behind a slash that is not the first letter. -/
def Between (c : CleanPath) (q : Parts) : Prop :=
  c.Carries q ∧ c.token = [] ∧ c.firstToken = false

/-- What the last token is added to. -/
def result (c : CleanPath) : List Path :=
  if c.token.isEmpty then c.tokens else c.tokens ++ [c.token]

/-- The letters of an open token gather. -/
theorem foldl_open : ∀ {letters : Path} {c : CleanPath}, Open (c.token ++ letters) →
    letters.foldl step c = { c with token := c.token ++ letters } := by
  intro letters
  induction letters with
  | nil =>
      intro c _
      rw [List.append_nil]
      rfl
  | cons letter letters ih =>
      intro c h
      have hslash : letter ≠ '/' := by
        rintro rfl
        exact h.1 (List.mem_append_right _ List.mem_cons_self)
      have hup : c.token ++ [letter] ≠ ['.', '.'] := fun heq =>
        h.2 ⟨letters, by rw [← heq, List.append_assoc]; rfl⟩
      have hstep : c.step letter = { c with token := c.token ++ [letter] } := by
        rw [CleanPath.step, if_neg hslash]
        split
        · next hdot =>
            rw [hdot] at hup ⊢
            rw [CleanPath.dot, if_neg hup]
        · rfl
      rw [List.foldl_cons, hstep, ih (by simpa [List.append_assoc] using h)]
      simp only [List.append_assoc, List.singleton_append]

theorem foldl_up (h : c.Carries q) (htoken : c.token = []) :
    (List.foldl step c ['.', '.']).Carries q.up ∧
      (List.foldl step c ['.', '.']).token = [] ∧
      ((List.foldl step c ['.', '.']).firstToken = true →
        c.firstToken = true ∧ q.names ≠ []) := by
  have hone : c.step '.' = { c with token := ['.'] } := by
    simp [CleanPath.step, CleanPath.dot, htoken]
  have htwo : List.foldl step c ['.', '.'] =
      CleanPath.dot { c with token := ['.'] } := by
    rw [List.foldl_cons, hone]
    rfl
  rw [htwo]
  exact Carries.dot (c := { c with token := ['.'] }) h rfl

/-- A component and the slash behind it. -/
theorem Between.component (h : c.Between q) {component : Path}
    (hc : Component component) :
    (component.foldl step c).slash.Between (q.take component) := by
  obtain ⟨hcarry, htoken, hfirst⟩ := h
  rcases hc.2 with rfl | hno
  · obtain ⟨hcarry, hnil, hlater⟩ := foldl_up hcarry htoken
    have hf : (List.foldl step c ['.', '.']).firstToken = false := by
      refine Bool.eq_false_iff.2 fun hbad => ?_
      rw [(hlater hbad).1] at hfirst
      cases hfirst
    have hslash := hcarry.slash_later hf (by rw [hnil]; exact Open.nil)
    rw [hnil] at hslash
    exact hslash
  · have hopen : Open component := ⟨hc.1, hno⟩
    rw [foldl_open (by rwa [htoken]), htoken, List.nil_append]
    exact Carries.slash_later (c := { c with token := component }) hcarry hfirst hopen

end CleanPath

/-- What becomes of the components behind the first one. Only the last of them
has no slash behind it, so that a "." stays. -/
def finish (q : Parts) : List Path → List Path
  | [] => q.tokens
  | [last] => if last = ['.'] then q.tokens ++ [last] else (q.take last).tokens
  | component :: next :: rest => finish (q.take component) (next :: rest)

theorem finish_cons {component : Path} (hdot : component ≠ ['.']) (q : Parts)
    (rest : List Path) :
    finish q (component :: rest) = finish (q.take component) rest := by
  cases rest with
  | nil => exact if_neg hdot
  | cons next rest => rw [finish]

/-- The first component, and the slash behind it. -/
def begin (component : Path) : Parts :=
  if component = [] then ⟨[['/']], 0, []⟩
  else if component = ['.'] then ⟨[], 0, [component]⟩
  else Parts.take ⟨[], 0, []⟩ component

/-- What becomes of a list of components. -/
def cleaned : List Path → List Path
  | [] => []
  | [component] => finish ⟨[], 0, []⟩ [component]
  | component :: rest => finish (begin component) rest

namespace CleanPath

theorem foldl_intercalate_cons (c : CleanPath) (component next : Path)
    (rest : List Path) :
    (['/'].intercalate (component :: next :: rest)).foldl step c =
      (['/'].intercalate (next :: rest)).foldl step (component.foldl step c).slash := by
  rw [List.intercalate_cons_cons, List.append_assoc, List.foldl_append]
  rfl

/-- The last component. -/
theorem result_component (h : c.Carries q) (htoken : c.token = [])
    {component : Path} (hc : Component component) :
    (component.foldl step c).result = finish q [component] := by
  rw [finish]
  rcases hc.2 with rfl | hno
  · obtain ⟨⟨htokens, _⟩, hnil, _⟩ := foldl_up h htoken
    rw [result, hnil, if_pos List.isEmpty_nil, if_neg (by decide)]
    exact htokens
  · have hopen : Open component := ⟨hc.1, hno⟩
    rw [foldl_open (by rwa [htoken]), htoken, List.nil_append, result]
    dsimp only
    rw [h.1, Parts.take, if_neg hopen.ne_up]
    by_cases hempty : component = []
    · rw [if_pos (List.isEmpty_iff.2 hempty), hempty]
      rfl
    · rw [if_neg (by simpa using hempty)]
      by_cases hdot : component = ['.']
      · rw [if_pos hdot]
      · rw [if_neg hdot, if_neg (not_or.2 ⟨hempty, hdot⟩), Parts.push_tokens]

theorem result_components : ∀ {components : List Path} {c : CleanPath} {q : Parts},
    c.Between q → (∀ t, t ∈ components → Component t) → components ≠ [] →
    ((['/'].intercalate components).foldl step c).result = finish q components := by
  intro components
  induction components with
  | nil => intro c q _ _ hne; exact absurd rfl hne
  | cons component rest ih =>
      intro c q h hcs _
      have hc := hcs component List.mem_cons_self
      cases rest with
      | nil =>
          rw [List.intercalate_singleton]
          exact result_component h.1 h.2.1 hc
      | cons next rest =>
          rw [foldl_intercalate_cons, finish]
          exact ih (h.component hc) (fun t ht => hcs t (List.mem_cons_of_mem _ ht))
            (List.cons_ne_nil _ _)

/-- The first component and the slash behind it. -/
theorem between_begin {component : Path} (hc : Component component) :
    (component.foldl step ⟨[], [], 0, true⟩).slash.Between (begin component) := by
  rw [begin]
  rcases hc.2 with rfl | hno
  · exact ⟨⟨rfl, rfl⟩, rfl, rfl⟩
  · have hopen : Open component := ⟨hc.1, hno⟩
    have hslash := Carries.slash_first (c := ⟨[], component, 0, true⟩)
      .nil rfl hopen
    rw [foldl_open (by exact hopen)]
    dsimp only [List.nil_append] at hslash ⊢
    by_cases hempty : component = []
    · rw [if_pos hempty] at hslash ⊢
      exact hslash
    · rw [if_neg hempty] at hslash ⊢
      rw [Parts.take, if_neg hopen.ne_up]
      split
      · exact hslash
      · next hdot =>
          rw [if_neg (not_or.2 ⟨hempty, hdot⟩)]
          exact hslash

end CleanPath

theorem cleanPath_intercalate {components : List Path} (hne : components ≠ [])
    (hcs : ∀ t, t ∈ components → Component t) :
    cleanPath (['/'].intercalate components) = cleaned components := by
  obtain ⟨component, rest, rfl⟩ := List.exists_cons_of_ne_nil hne
  have hc := hcs component List.mem_cons_self
  cases rest with
  | nil =>
      rw [List.intercalate_singleton]
      exact CleanPath.result_component .nil rfl hc
  | cons next rest =>
      rw [cleaned]
      · rw [← CleanPath.result_components (CleanPath.between_begin hc)
          (fun t ht => hcs t (List.mem_cons_of_mem _ ht)) (List.cons_ne_nil _ _),
          ← CleanPath.foldl_intercalate_cons]
        rfl
      · simp

/-! ## What is returned -/

/-- What `clean_path` returns: proper parts, and perhaps a last token that was
not counted. -/
structure Returned (q : Parts) (last tokens : List Path) : Prop where
  proper : q.Proper
  tokens : tokens = q.tokens ++ last
  names : ∀ t, t ∈ last → Ordinary t
  short : last.length ≤ 1

theorem CleanPath.Inv.returned (h : c.Inv) :
    ∃ q last, Returned q last c.result ∧ q.names.length = c.deletableTokens ∧
      last.length = if c.token.isEmpty then 0 else 1 := by
  obtain ⟨q, ⟨htokens, hcount⟩, hproper, hopen, _⟩ := h
  rw [CleanPath.result, htokens]
  split
  · exact ⟨q, [], ⟨hproper, (List.append_nil _).symm, fun _ ht => (nomatch ht),
      Nat.zero_le 1⟩, hcount.symm, rfl⟩
  · next hne =>
      exact ⟨q, [c.token], ⟨hproper, rfl,
        fun t ht => List.mem_singleton.1 ht ▸ ⟨by simpa using hne, hopen⟩,
        Nat.le_refl 1⟩, hcount.symm, rfl⟩

theorem mem_dropLast_append {t : Path} {l r : List Path} (hr : r.length ≤ 1)
    (ht : t ∈ (l ++ r).dropLast) : t ∈ l := by
  match r, hr with
  | [], _ =>
      rw [List.append_nil] at ht
      exact List.dropLast_subset _ ht
  | [x], _ =>
      rw [List.dropLast_concat] at ht
      exact ht

/-! ## A second time -/

theorem Ordinary.component (h : Ordinary token) : Component token := ⟨h.2.1, .inr h.2.2⟩

theorem component_up : Component ['.', '.'] := ⟨by decide, .inl rfl⟩

theorem component_nil : Component [] := ⟨Open.nil.1, .inr Open.nil.2⟩

theorem Ordinary.take (h : Ordinary token) (hdot : token ≠ ['.']) (q : Parts) :
    q.take token = q.push token := by
  rw [Parts.take, if_neg (not_or.2 ⟨h.1, hdot⟩), if_neg h.2.ne_up]

theorem finish_names : ∀ {names : List Path} {q : Parts},
    (∀ t, t ∈ names → Ordinary t) → ['.'] ∉ names.dropLast →
    finish q names = q.tokens ++ names := by
  intro names
  induction names with
  | nil => intro q _ _; exact (List.append_nil _).symm
  | cons name rest ih =>
      intro q hnames hdots
      have hname := hnames name List.mem_cons_self
      cases rest with
      | nil =>
          rw [finish]
          split
          · rfl
          · next hdot => rw [hname.take hdot, Parts.push_tokens]
      | cons next rest =>
          have hdot : name ≠ ['.'] := fun heq => hdots (heq ▸ List.mem_cons_self)
          rw [finish_cons hdot, hname.take hdot,
            ih (fun t ht => hnames t (List.mem_cons_of_mem _ ht))
              (fun hmem => hdots (List.mem_cons_of_mem _ hmem)),
            Parts.push_tokens, List.append_assoc]
          rfl

theorem finish_ups (root : List Path) (rest : List Path) : ∀ ups k : Nat,
    finish ⟨root, k, []⟩ (List.replicate ups ['.', '.'] ++ rest) =
      finish ⟨root, k + ups, []⟩ rest := by
  intro ups
  induction ups with
  | zero => intro k; rfl
  | succ ups ih =>
      intro k
      rw [List.replicate_succ, List.cons_append, finish_cons (by decide)]
      exact (ih (k + 1)).trans (by rw [Nat.add_right_comm, Nat.add_assoc])

theorem cleaned_cons {component : Path} (hne : component ≠ [])
    (hdot : component ≠ ['.']) (rest : List Path) :
    cleaned (component :: rest) = finish ⟨[], 0, []⟩ (component :: rest) := by
  cases rest with
  | nil => rfl
  | cons next rest =>
      rw [finish_cons hdot, cleaned, begin, if_neg hne, if_neg hdot]
      simp

theorem intercalate_root (rest : List Path) :
    ['/'].intercalate (['/'] :: rest) = ['/'].intercalate ([] :: [] :: rest) := by
  cases rest with
  | nil => rfl
  | cons next rest => simp only [List.intercalate_cons_cons, List.nil_append, List.append_assoc]

theorem Returned.eq {last tokens : List Path} (h : Returned q last tokens) :
    tokens = q.root ++ (List.replicate q.ups ['.', '.'] ++ (q.names ++ last)) := by
  rw [h.tokens, Parts.tokens, List.append_assoc, List.append_assoc]

theorem Returned.all_names {last tokens : List Path} (h : Returned q last tokens) :
    ∀ t, t ∈ q.names ++ last → Ordinary t := fun t ht =>
  (List.mem_append.1 ht).elim (h.proper.names t) (h.names t)

/-- The tokens behind the root are components, and none of them is empty. -/
theorem Returned.components {last tokens : List Path} (h : Returned q last tokens) :
    ∀ t, t ∈ List.replicate q.ups ['.', '.'] ++ (q.names ++ last) →
      Component t ∧ t ≠ [] := by
  intro t ht
  rcases List.mem_append.1 ht with ht | ht
  · rw [List.eq_of_mem_replicate ht]
    exact ⟨component_up, List.cons_ne_nil _ _⟩
  · have hname := h.all_names t ht
    exact ⟨hname.component, hname.1⟩

/-- Behind a root or a ".." there is no "." but the last token. -/
theorem Parts.Proper.dotless (h : q.Proper) (hhead : q.names.head? ≠ some ['.'])
    {last : List Path} (hshort : last.length ≤ 1) :
    ['.'] ∉ (q.names ++ last).dropLast := by
  intro hmem
  have hnames := mem_dropLast_append hshort hmem
  have hlater := h.later
  cases hq : q.names with
  | nil =>
      rw [hq] at hnames
      cases hnames
  | cons name names =>
      rw [hq] at hnames hhead hlater
      rcases List.mem_cons.1 hnames with heq | hin
      · exact hhead (congrArg some heq.symm)
      · exact hlater hin

/-- With "." kept in front the others are read as they stand. -/
theorem Returned.again_dot {last rest : List Path}
    (h : Returned q last (['.'] :: rest)) (hroot : q.root = []) :
    cleaned (['.'] :: rest) = ['.'] :: rest := by
  have heq := h.eq
  rw [hroot, List.nil_append] at heq
  cases hups : q.ups with
  | succ ups =>
      rw [hups] at heq
      cases heq
  | zero =>
      rw [hups, List.replicate_zero, List.nil_append] at heq
      cases rest with
      | nil => rfl
      | cons next rest =>
          -- two tokens, so the "." is one of the names
          cases hnames : q.names with
          | nil =>
              have hshort := h.short
              rw [hnames, List.nil_append] at heq
              rw [← heq] at hshort
              simp at hshort
          | cons name names =>
              have hall := h.all_names
              have hlater := h.proper.later
              rw [hnames] at heq hall hlater
              obtain ⟨_, hrest⟩ := List.cons.inj heq
              refine finish_names (fun t ht => hall t ?_) fun hmem => hlater ?_
              · rw [hrest] at ht
                exact List.mem_cons_of_mem _ ht
              · rw [hrest] at hmem
                exact mem_dropLast_append h.short hmem

theorem Returned.again_relative {last tokens : List Path}
    (h : Returned q last tokens) (hroot : q.root = []) :
    cleanPath (['/'].intercalate tokens) = tokens := by
  have heq := h.eq
  rw [hroot, List.nil_append] at heq
  cases tokens with
  | nil => rfl
  | cons first rest =>
      have hcs := h.components
      rw [← heq] at hcs
      rw [cleanPath_intercalate (List.cons_ne_nil _ _) fun t ht => (hcs t ht).1]
      by_cases hdot : first = ['.']
      · subst hdot
        exact h.again_dot hroot
      · have hhead : q.names.head? ≠ some ['.'] := fun hhead => by
          obtain ⟨name, names, hnames⟩ := List.exists_cons_of_ne_nil
            (l := q.names) (fun hnil => by rw [hnil] at hhead; cases hhead)
          rw [(h.proper.first hhead).2, hnames] at heq
          rw [hnames] at hhead
          exact hdot ((List.cons.inj heq).1.trans (Option.some.inj hhead))
        rw [cleaned_cons (hcs first List.mem_cons_self).2 hdot, heq, finish_ups,
          finish_names h.all_names (h.proper.dotless hhead h.short), Nat.zero_add]
        simp only [Parts.tokens, List.nil_append, List.append_nil]

theorem Returned.again_absolute {last tokens : List Path}
    (h : Returned q last tokens) (hroot : q.root = [['/']]) :
    cleanPath (['/'].intercalate tokens) = tokens := by
  have hhead : q.names.head? ≠ some ['.'] := fun hhead => by
    rw [(h.proper.first hhead).1] at hroot
    cases hroot
  have hcs : ∀ t, t ∈ [] :: [] :: (List.replicate q.ups ['.', '.'] ++
      (q.names ++ last)) → Component t := by
    intro t ht
    rcases List.mem_cons.1 ht with rfl | ht
    · exact component_nil
    · rcases List.mem_cons.1 ht with rfl | ht
      · exact component_nil
      · exact (h.components t ht).1
  rw [h.eq, hroot, List.singleton_append, intercalate_root,
    cleanPath_intercalate (List.cons_ne_nil _ _) hcs, cleaned, begin, if_pos rfl,
    finish_cons (by decide), Parts.take, if_pos (.inl rfl), finish_ups,
    finish_names h.all_names (h.proper.dotless hhead h.short), Nat.zero_add]
  · simp only [Parts.tokens, List.append_nil, List.cons_append, List.nil_append]
  · simp

/-- What was returned is given back when it is cleaned again. -/
theorem Returned.again {last tokens : List Path} (h : Returned q last tokens) :
    cleanPath (['/'].intercalate tokens) = tokens :=
  h.proper.root.elim h.again_relative h.again_absolute

/-! ## The whole path -/

/-- A slash, then "..", and then `deletable` other tokens. -/
def Shaped (tokens : List Path) (deletable : Nat) : Prop :=
  ∃ q : Parts, (q.root = [] ∨ q.root = [['/']]) ∧ tokens = q.tokens ∧
    q.names.length = deletable ∧ ∀ t, t ∈ q.names → t ≠ ['/'] ∧ t ≠ ['.', '.']

theorem CleanPath.Inv.shaped (h : c.Inv) : Shaped c.tokens c.deletableTokens := by
  obtain ⟨q, ⟨htokens, hcount⟩, hproper, _⟩ := h
  exact ⟨q, hproper.root, htokens, hcount.symm,
    fun t ht => ⟨(hproper.names t ht).2.ne_root, (hproper.names t ht).2.ne_up⟩⟩

theorem Shaped.last {tokens : List Path} {deletable : Nat}
    (h : Shaped tokens deletable) (hpos : 0 < deletable) :
    ∃ l t, tokens = l ++ [t] ∧ t ≠ ['/'] ∧ t ≠ ['.', '.'] := by
  obtain ⟨q, _, rfl, rfl, hnames⟩ := h
  have hne : q.names ≠ [] := List.length_pos_iff.1 hpos
  refine ⟨q.root ++ (List.replicate q.ups ['.', '.'] ++ q.names.dropLast),
    q.names.getLast hne, ?_, hnames _ (List.getLast_mem hne)⟩
  rw [Parts.tokens, List.append_assoc, List.append_assoc,
    List.dropLast_append_getLast hne]

theorem Returned.shaped {last tokens : List Path} (h : Returned q last tokens) :
    Shaped tokens (q.names.length + last.length) :=
  ⟨⟨q.root, q.ups, q.names ++ last⟩, h.proper.root, h.eq, List.length_append,
    fun t ht => ⟨(h.all_names t ht).2.ne_root, (h.all_names t ht).2.ne_up⟩⟩

/-- The variables of `clean_path` after the letters `read`. -/
def CleanPath.after (read : Path) : CleanPath :=
  read.foldl CleanPath.step ⟨[], [], 0, true⟩

theorem CleanPath.inv_after (read : Path) : (CleanPath.after read).Inv :=
  Inv.start.foldl

/-- Whatever has been read of a path, the vector has its shape, and where a ".."
takes a token away there is one to take. The last token is added without being
counted. What is returned is not changed by cleaning it again. -/
theorem cleanPath_stable (path : Path) :
    (∀ read, read <+: path →
      Shaped (CleanPath.after read).tokens (CleanPath.after read).deletableTokens ∧
        (0 < (CleanPath.after read).deletableTokens →
          ∃ l t, (CleanPath.after read).tokens = l ++ [t] ∧ t ≠ ['/'] ∧
            t ≠ ['.', '.'])) ∧
      Shaped (cleanPath path) ((CleanPath.after path).deletableTokens +
        if (CleanPath.after path).token.isEmpty then 0 else 1) ∧
      cleanPath (['/'].intercalate (cleanPath path)) = cleanPath path := by
  refine ⟨fun read _ => ?_, ?_⟩
  · have hshaped := (CleanPath.inv_after read).shaped
    exact ⟨hshaped, hshaped.last⟩
  · obtain ⟨q, last, hreturned, hcount, hlast⟩ :=
      (CleanPath.inv_after path).returned
    refine ⟨?_, hreturned.again⟩
    have hshaped := hreturned.shaped
    rw [hcount, hlast] at hshaped
    exact hshaped

/-- The last token is not counted. -/
theorem cleanPath_uncounted :
    cleanPath ['a'] = [['a']] ∧
      (CleanPath.after ['a']).deletableTokens = 0 ∧
      ¬ Shaped (cleanPath ['a']) (CleanPath.after ['a']).deletableTokens := by
  have hclean : cleanPath ['a'] = [['a']] := by decide
  have hzero : (CleanPath.after ['a']).deletableTokens = 0 := by decide
  refine ⟨hclean, hzero, ?_⟩
  rw [hclean, hzero]
  rintro ⟨q, hroot, htokens, hcount, _⟩
  have hmem : ['a'] ∈ q.tokens := htokens ▸ List.mem_cons_self
  rw [Parts.tokens, List.length_eq_zero_iff.1 hcount, List.append_nil] at hmem
  rcases List.mem_append.1 hmem with hmem | hmem
  · rcases hroot with hroot | hroot <;> rw [hroot] at hmem <;> simp at hmem
  · cases List.eq_of_mem_replicate hmem

end Iposix.Fs
