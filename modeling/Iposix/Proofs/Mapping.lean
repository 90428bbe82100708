import Iposix.Proofs.ForkCopy

/-!
# Mapping a range of pages

`vmalloc` at a given address gets its pages, claims the entries of the range
table by table, and fills them only when all of them were free. So a call that
fails has mapped nothing, whatever tables it has made, and a call that succeeds
has mapped one unused page after the other and nothing else.

A table the page manager has no page for is taken to be the null page, so all
of this is about calls that were never refused one.
-/

namespace Iposix.Vm

open Iposix.Lib

variable {mm : PageManager} {M M' M₀ : Machine} {dm ptable q n k : Nat}
  {dirs fs : List Nat} {d p : Nat}

/-! ## Pages handed out -/

/-- What a request for memory adds to a log: it copies nothing, and the pages it
gets for a process are whole and not in use when it begins. -/
def Requested (log : List Event) : Event → Prop
  | .alloc false f => 4096 ∣ f ∧ (f = 0 ∨ ¬ InUse log f)
  | .copy _ _ _ => False
  | _ => True

/-- The pages `fs` were handed out since `M₀`, and nothing else happened. -/
structure Held (M₀ M : Machine) (fs : List Nat) : Prop where
  mem : M.mem = M₀.mem
  kernel : ∀ t, Kernel M.log t ↔ Kernel M₀.log t
  user : ∀ f, User M₀.log f → User M.log f
  log : Logged (Requested M₀.log) M₀.log M.log
  nodup : fs.Nodup
  frames : ∀ f, f ∈ fs → 4096 ∣ f ∧ f < 4294967296 ∧ f ≠ 0 ∧
    ¬ InUse M₀.log f ∧ User M.log f

theorem Held.start (M : Machine) : Held M M [] :=
  ⟨rfl, fun _ => Iff.rfl, fun _ h => h, .refl _ _, List.nodup_nil,
    fun _ h => nomatch h⟩

/-- A page handed out next was not in use at first. -/
theorem Held.unused (hfresh : mm.Fresh) (h : Held M₀ M fs) :
    mm.malloc M false = 0 ∨ ¬ InUse M₀.log (mm.malloc M false) := by
  by_cases h₀ : mm.malloc M false = 0
  · exact .inl h₀
  · exact .inr fun hin => hfresh.unused M false h₀
      (hin.imp (h.kernel _).2 (h.user _))

theorem Held.requested (hfresh : mm.Fresh) (h : Held M₀ M fs) :
    Requested M₀.log (.alloc false (mm.malloc M false)) :=
  ⟨hfresh.aligned M false, h.unused hfresh⟩

theorem Held.alloc (hfresh : mm.Fresh) (h : Held M₀ M fs)
    (h₀ : mm.malloc M false ≠ 0) :
    Held M₀ (mm.alloc M false).2 (fs ++ [mm.malloc M false]) := by
  have hunused := hfresh.unused M false h₀
  have hnew : mm.malloc M false ∉ fs := fun hmem =>
    hunused (.inr (h.frames _ hmem).2.2.2.2)
  refine ⟨h.mem, fun t => (kernel_of_ne (by simp)).trans (h.kernel t),
    fun f hf => .inr (h.user f hf), h.log.cons (h.requested hfresh), ?_,
    fun f hf => ?_⟩
  · rw [List.nodup_append]
    refine ⟨h.nodup, List.pairwise_singleton _ _, fun a ha b hb heq => hnew ?_⟩
    rw [← List.mem_singleton.1 hb, ← heq]
    exact ha
  · rcases List.mem_append.1 hf with hf | hf
    · obtain ⟨h₁, h₂, h₃, h₄, h₅⟩ := h.frames f hf
      exact ⟨h₁, h₂, h₃, h₄, .inr h₅⟩
    · rw [List.mem_singleton.1 hf]
      exact ⟨hfresh.aligned M false, hfresh.bounded M false, h₀,
        (h.unused hfresh).resolve_left h₀, .inl ⟨rfl, h₀⟩⟩

/-- Giving back what was not in use keeps what was. -/
theorem Held.freeAll : ∀ (gs : List Nat) {M : Machine}, Held M₀ M [] →
    (∀ g, g ∈ gs → ¬ InUse M₀.log g) → Held M₀ (freeAll mm M gs) [] := by
  intro gs
  induction gs with
  | nil => intro M h _; exact h
  | cons g gs ih =>
      intro M h hgs
      refine ih ⟨h.mem, fun t => (kernel_of_ne (by simp)).trans (h.kernel t),
        fun f hf => ?_, h.log.cons trivial, List.nodup_nil,
        fun _ hf => nomatch hf⟩ fun g' hg' => hgs g' (List.mem_cons_of_mem g hg')
      show User (.free g (mm.free M g) :: M.log) f
      cases mm.free M g with
      | false => exact h.user f hf
      | true =>
          refine ⟨fun heq => hgs g List.mem_cons_self (.inr ?_), h.user f hf⟩
          rw [← heq]
          exact hf

theorem Held.allocAll (hfresh : mm.Fresh) : ∀ (pages : Nat) {fs : List Nat}
    {M : Machine}, Held M₀ M fs →
    Held M₀ (allocAll mm pages fs M).2 [] ∧
      ∀ found, (Vm.allocAll mm pages fs M).1 = some found →
        found.length = fs.length + pages ∧
          Held M₀ (Vm.allocAll mm pages fs M).2 found := by
  intro pages
  induction pages with
  | zero =>
      intro fs M h
      refine ⟨⟨h.mem, h.kernel, h.user, h.log, List.nodup_nil,
        fun _ hf => nomatch hf⟩, fun found hfound => ?_⟩
      cases hfound
      exact ⟨rfl, h⟩
  | succ pages ih =>
      intro fs M h
      rw [Vm.allocAll]
      dsimp only
      split
      · refine ⟨Held.freeAll fs ⟨h.mem,
          fun t => (kernel_of_ne (by simp)).trans (h.kernel t),
          fun f hf => .inr (h.user f hf), h.log.cons (h.requested hfresh),
          List.nodup_nil, fun _ hf => nomatch hf⟩
            fun g hg => (h.frames g hg).2.2.2.1,
          fun _ hnone => by cases hnone⟩
      next h₀ =>
        obtain ⟨hheld, hfound⟩ := ih (h.alloc hfresh h₀)
        refine ⟨hheld, fun found hsome => ?_⟩
        obtain ⟨hlen, hall⟩ := hfound found hsome
        rw [List.length_append, List.length_singleton] at hlen
        exact ⟨by omega, hall⟩

theorem Held.spaces (h : Held M₀ M fs) (hs : Spaces M₀ dm dirs) :
    Spaces M dm dirs := by
  refine hs.congr (fun t _ => ?_) (fun t => (h.kernel t).2)
    (fun t ht => hs.window.aligned t ((h.kernel t).1 ht))
    fun f hu hk => ⟨h.user f hu, fun hk' => hk ((h.kernel f).1 hk')⟩
  rw [h.mem]
  exact SamePage.refl _ _

/-! ## Tables made -/

/-- The page is the directory or one of its tables. -/
def Private (m : Nat → UInt8) (ptable t : Nat) : Prop :=
  t = ptable ∨ ∃ d, 32 ≤ d ∧ d < 1024 ∧
    (readEntry m (ptable + 4 * d)).presence = true ∧
      (readEntry m (ptable + 4 * d)).address = t

theorem Spaces.kernel_of_private (h : Spaces M dm dirs) (hp : ptable ∈ dirs)
    {t : Nat} (ht : Private M.mem ptable t) : Kernel M.log t := by
  rcases ht with rfl | ⟨d, h₁, h₂, hpres, rfl⟩
  · exact h.window.kernel t (List.mem_cons_of_mem dm hp)
  · exact h.tables ptable hp d h₁ h₂ hpres

/-- Entries stay where a directory only grows. -/
theorem Private.mono {m m' : Nat → UInt8} {t : Nat}
    (hentries : ∀ d, d < 1024 →
      (readEntry m (ptable + 4 * d)).presence = true →
      readEntry m' (ptable + 4 * d) = readEntry m (ptable + 4 * d))
    (h : Private m ptable t) : Private m' ptable t := by
  refine h.imp_right fun ⟨d, h₁, h₂, hpres, haddr⟩ => ⟨d, h₁, h₂, ?_⟩
  rw [hentries d h₂ hpres]
  exact ⟨hpres, haddr⟩

/-- Since `M₀` tables were made for `ptable`, and nothing else happened. -/
structure Tabled (M₀ M : Machine) (dm : Nat) (dirs : List Nat)
    (ptable : Nat) : Prop where
  spaces : Spaces M dm dirs
  maps : ∀ q, q ∈ dirs → ∀ d, 32 ≤ d → d < 1024 → ∀ p, p < 1024 →
    pteAt M.mem q d p = pteAt M₀.mem q d p
  entries : ∀ d, d < 1024 →
    (readEntry M₀.mem (ptable + 4 * d)).presence = true →
    readEntry M.mem (ptable + 4 * d) = readEntry M₀.mem (ptable + 4 * d)
  kept : ∀ t, 4096 ∣ t → ¬ Private M.mem ptable t →
    SamePage 4096 M₀.mem M.mem t
  kernel : ∀ t, Kernel M₀.log t → Kernel M.log t
  user : ∀ f, User M.log f ↔ User M₀.log f
  apart : ∀ f, User M₀.log f → ¬ Kernel M₀.log f → ¬ Kernel M.log f

/-- The same of machines whose tables map anything. -/
structure Grown (M₀ M : Machine) (dm : Nat) (dirs : List Nat)
    (ptable : Nat) : Prop where
  tables : Tables M dm dirs
  maps : ∀ q, q ∈ dirs → ∀ d, 32 ≤ d → d < 1024 → ∀ p, p < 1024 →
    pteAt M.mem q d p = pteAt M₀.mem q d p
  entries : ∀ d, d < 1024 →
    (readEntry M₀.mem (ptable + 4 * d)).presence = true →
    readEntry M.mem (ptable + 4 * d) = readEntry M₀.mem (ptable + 4 * d)
  kept : ∀ t, 4096 ∣ t → ¬ Private M.mem ptable t →
    SamePage 4096 M₀.mem M.mem t
  kernel : ∀ t, Kernel M₀.log t → Kernel M.log t
  user : ∀ f, User M.log f ↔ User M₀.log f
  apart : ∀ f, User M₀.log f → ¬ Kernel M₀.log f → ¬ Kernel M.log f

theorem Grown.tabled (h : Grown M₀ M dm dirs ptable) (hs : Spaces M₀ dm dirs) :
    Tabled M₀ M dm dirs ptable := by
  refine ⟨h.tables.spaces fun q hq d h₁ h₂ p hp e he => ?_, h.maps, h.entries,
    h.kept, h.kernel, h.user, h.apart⟩
  rw [h.maps q hq d h₁ h₂ p hp] at he
  obtain ⟨hdirect, hu, hk⟩ := hs.frames q hq d h₁ h₂ p hp e he
  exact ⟨hdirect, (h.user _).2 hu, h.apart _ hu hk⟩

theorem Grown.start (h : Tables M dm dirs) : Grown M M dm dirs ptable :=
  ⟨h, fun _ _ _ _ _ _ _ => rfl, fun _ _ _ => rfl,
    fun _ _ _ => SamePage.refl _ _, fun _ h => h, fun _ => Iff.rfl,
    fun _ _ h => h⟩

theorem Grown.trans (h : Grown M₀ M dm dirs ptable)
    (h' : Grown M M' dm dirs ptable) : Grown M₀ M' dm dirs ptable := by
  refine ⟨h'.tables, fun q hq d h₁ h₂ p hp => (h'.maps q hq d h₁ h₂ p hp).trans
    (h.maps q hq d h₁ h₂ p hp), fun d hd hpres => ?_,
    fun t ht hk => (h.kept t ht fun hk' => hk (hk'.mono h'.entries)).trans
      (h'.kept t ht hk),
    fun t ht => h'.kernel t (h.kernel t ht),
    fun f => (h'.user f).trans (h.user f),
    fun f hu hk => h'.apart f ((h.user f).2 hu) (h.apart f hu hk)⟩
  have heq := h.entries d hd hpres
  exact (h'.entries d hd (by rw [heq, hpres])).trans heq

theorem tableAt_grown (hfresh : mm.Fresh) (h : Tables M dm dirs)
    (hp : ptable ∈ dirs) (h₁ : 32 ≤ d) (h₂ : d < 1024)
    (hnull : Granted M.log (tableAt mm M ptable d).2.log) :
    Grown M (tableAt mm M ptable d).2 dm dirs ptable := by
  rcases tableAt_cases mm M ptable d with ⟨_, _, heq⟩ | ⟨_, _, heq⟩ |
    ⟨habsent, heq⟩ <;> rw [heq] at hnull ⊢
  · exact .start h
  · exact .start h
  · have h₀ : mm.malloc M true ≠ 0 := by
      intro h₀
      refine hnull [.alloc true (mm.malloc M true)] rfl _
        List.mem_cons_self ?_
      rw [h₀]
    have hunused := hfresh.unused M true h₀
    have hread := fun k hk =>
      h.readEntry_withTable hfresh hp h₂ h₀ (r := ptable) (k := k) hp hk
    refine ⟨h.withTable hfresh hp h₁ h₂ h₀,
      fun q hq d' h₁' h₂' p hp' =>
        h.pteAt_withTable hfresh hp h₂ h₀ habsent hq h₁' h₂' hp',
      fun d' hd' hpres => ?_, fun t ht hk => ?_, fun t => kernel_cons _,
      fun f => Iff.rfl, fun f hu hk hk' => ?_⟩
    · rw [hread d' hd']
      refine if_neg fun hall => ?_
      rw [hall.2, habsent] at hpres
      cases hpres
    · refine h.samePage_withTable hfresh hp h₂ ht (.inl fun heq => hk ?_)
        fun heq => hk (.inl heq)
      refine .inr ⟨d, h₁, h₂, ?_⟩
      rw [hread d h₂, if_pos ⟨rfl, rfl⟩, heq]
      exact ⟨rfl, address_tableEntry (hfresh.aligned M true)
        (hfresh.bounded M true)⟩
    · rcases kernel_alloc.1 hk' with ⟨rfl, _⟩ | hk'
      · exact hunused (.inr hu)
      · exact hk hk'

/-! ## The entries claimed -/

/-- Where the entry for page number `n` is, behind the directory. -/
def slot (m : Nat → UInt8) (ptable n : Nat) : Nat :=
  (readEntry m (ptable + 4 * (n / 1024))).address + 4 * (n % 1024)

/-- The entry for page number `n`, if it is there and present. -/
def pteOf (m : Nat → UInt8) (ptable n : Nat) : Option Entry :=
  pteAt m ptable (n / 1024) (n % 1024)

theorem claimFree_spec {m : Nat → UInt8} {table : Nat}
    {found : List Nat × Nat} : ∀ turns page used count, count ≠ 0 →
      claimFree m table turns page used count = some found →
      found.1 = used ++
          (List.range' page (min count turns)).map (table + 4 * ·) ∧
        found.2 = count - turns ∧
        ∀ i, page ≤ i → i < page + min count turns →
          (readEntry m (table + 4 * i)).presence = false := by
  intro turns
  induction turns with
  | zero =>
      intro page used count _ h
      cases h
      rw [Nat.min_zero]
      exact ⟨(List.append_nil used).symm, rfl, fun i h₁ h₂ => by omega⟩
  | succ turns ih =>
      intro page used count hcount h
      rw [claimFree] at h
      dsimp only at h
      split at h
      · cases h
      next hfree =>
        rw [Bool.not_eq_true] at hfree
        split at h
        next hlast =>
          cases h
          have hmin : min count (turns + 1) = 1 := by omega
          rw [hmin]
          refine ⟨rfl, by omega, fun i h₁ h₂ => ?_⟩
          obtain rfl : i = page := by omega
          exact hfree
        next hmore =>
          obtain ⟨hused, hleft, hrest⟩ := ih _ _ _ hmore h
          have hmin : min count (turns + 1) = min (count - 1) turns + 1 := by
            omega
          rw [hmin, List.range'_succ, List.map_cons]
          refine ⟨?_, by omega, fun i h₁ h₂ => ?_⟩
          · rw [hused, List.append_assoc]
            rfl
          · rcases Nat.eq_or_lt_of_le h₁ with rfl | hlt
            · exact hfree
            · exact hrest i hlt (by omega)

/-- The entries of one table, by page number. -/
theorem map_slot {m : Nat → UInt8} {t i : Nat}
    (ht : (readEntry m (ptable + 4 * d)).address = t) (hle : i + k ≤ 1024) :
    (List.range' i k).map (t + 4 * ·) =
      (List.range' (1024 * d + i) k).map (slot m ptable) := by
  rw [← List.map_add_range', List.map_map]
  refine List.map_congr_left fun j hj => ?_
  rw [List.mem_range'_1] at hj
  have hdiv : (1024 * d + j) / 1024 = d := by omega
  have hmod : (1024 * d + j) % 1024 = j := by omega
  show t + 4 * j = slot m ptable (1024 * d + j)
  rw [slot, hdiv, hmod, ht]

theorem searchAt_suffix (mm : PageManager) (ptable turns d page : Nat)
    (used : List Nat) (count : Nat) (M : Machine) (hd : d + turns ≤ 1024)
    (hpage : page < 1024) :
    M.log <:+ (searchAt mm ptable turns d page used count M).2.log :=
  ((loggedRule (P := fun _ => True) (fun _ => trivial) mm M ptable).searchAt
    turns d page used count M hd hpage (.refl _ _) fun _ _ => trivial).1.suffix

/-- What a search at an address has claimed: the entries from page number `n`
on, up to the end of the directory at most, and they are free. -/
structure Claimed (M : Machine) (ptable n k : Nat) (found : List Nat) :
    Prop where
  slots : found = (List.range' n k).map (slot M.mem ptable)
  tables : ∀ i, n ≤ i → i < n + k →
    (readEntry M.mem (ptable + 4 * (i / 1024))).presence = true
  free : ∀ i, n ≤ i → i < n + k → pteOf M.mem ptable i = none

theorem searchAt_spec (hfresh : mm.Fresh) (hp : ptable ∈ dirs) :
    ∀ turns d page used count M, d + turns = 1024 → 32 ≤ d → page < 1024 →
      count ≠ 0 → Tables M dm dirs →
      Granted M.log (searchAt mm ptable turns d page used count M).2.log →
      Grown M (searchAt mm ptable turns d page used count M).2 dm dirs
          ptable ∧
        ∀ found, (searchAt mm ptable turns d page used count M).1 =
          some found → ∃ rest, found = used ++ rest ∧
            Claimed (searchAt mm ptable turns d page used count M).2 ptable
              (1024 * d + page) (min count (1048576 - (1024 * d + page)))
              rest := by
  intro turns
  induction turns with
  | zero =>
      intro d page used count M hd _ hpage _ hs _
      obtain rfl : d = 1024 := by omega
      have hend : min count (1048576 - (1024 * 1024 + page)) = 0 := by omega
      rw [hend]
      refine ⟨.start hs, fun found hfound => ⟨[], ?_, rfl,
        fun i h₁ h₂ => by omega, fun i h₁ h₂ => by omega⟩⟩
      cases hfound
      exact (List.append_nil used).symm
  | succ turns ih =>
      intro d page used count M hd h₁ hpage hcount hs
      have hgrown := tableAt_grown hfresh hs hp h₁ (by omega : d < 1024)
      have hsuffix := (tableAt_logged (P := fun _ => True) (fun _ => trivial)
        mm M ptable d).suffix
      rw [searchAt]
      rcases htable : tableAt mm M ptable d with ⟨_ | table, M₁⟩ <;>
        rw [htable] at hgrown hsuffix
      · exact fun hnull => ⟨hgrown hnull, fun _ hnone => by cases hnone⟩
      obtain ⟨hpres, hsize, haddr⟩ := tableAt_entry htable
      dsimp only
      rcases hclaim : claimFree M₁.mem table (1024 - page) page used count
        with _ | ⟨used', count'⟩
      · exact fun hnull => ⟨hgrown hnull, fun _ hnone => by cases hnone⟩
      obtain ⟨hused, hleft, hfree⟩ := claimFree_spec _ _ _ _ hcount hclaim
      dsimp only at hused hleft
      -- the entries of this table, seen from any machine that keeps it
      have hhere : ∀ M₂ : Machine, Grown M₁ M₂ dm dirs ptable →
          Claimed M₂ ptable (1024 * d + page) (min count (1024 - page))
            ((List.range' page (min count (1024 - page))).map
              (table + 4 * ·)) := by
        intro M₂ h₂
        have hentry := h₂.entries d (by omega) hpres
        refine ⟨map_slot (by rw [hentry, haddr]) (by omega),
          fun i hi hi' => ?_, fun i hi hi' => ?_⟩
        · have hdiv : i / 1024 = d := by omega
          rw [hdiv, hentry, hpres]
        · have hdiv : i / 1024 = d := by omega
          have hmod : i % 1024 < 1024 := Nat.mod_lt _ (by decide)
          rw [pteOf, hdiv, h₂.maps ptable hp d h₁ (by omega) _ hmod,
            pteAt_table hpres hsize haddr, hfree (i % 1024) (by omega)
            (by omega)]
          rfl
      dsimp only
      split
      next hlast =>
        intro hnull
        have hmin : min count (1024 - page) =
            min count (1048576 - (1024 * d + page)) := by omega
        refine ⟨hgrown hnull, fun found hfound => ⟨_, ?_,
          hmin ▸ hhere M₁ (.start (hgrown hnull).tables)⟩⟩
        cases hfound
        rw [← hmin]
        exact hused
      next hmore =>
        intro hnull
        have h₁null : Granted M.log M₁.log :=
          hnull.left (searchAt_suffix mm ptable turns (d + 1) 0 used' count' M₁
            (by omega) (by decide))
        obtain ⟨hrest, hall⟩ := ih (d + 1) 0 used' count' M₁ (by omega)
          (by omega) (by decide) hmore (hgrown h₁null).tables
          (hnull.right hsuffix)
        refine ⟨(hgrown h₁null).trans hrest, fun found hfound => ?_⟩
        obtain ⟨rest, hfound, hclaimed⟩ := hall found hfound
        have hfront := hhere _ hrest
        have hmin : min count (1024 - page) = 1024 - page := by omega
        rw [hmin] at hused hfront
        have hnext : 1024 * (d + 1) + 0 = 1024 * d + page + (1024 - page) := by
          omega
        have hsum : min count (1048576 - (1024 * d + page)) =
            1024 - page + min count' (1048576 - (1024 * (d + 1) + 0)) := by
          omega
        refine ⟨(List.range' page (1024 - page)).map (table + 4 * ·) ++ rest,
          by rw [hfound, hused, List.append_assoc], ?_⟩
        rw [hsum]
        refine ⟨?_, fun i hi hi' => ?_, fun i hi hi' => ?_⟩
        · rw [hfront.slots, hclaimed.slots, ← List.map_append, hnext]
          rw [List.range'_append_1]
        · rcases Nat.lt_or_ge i (1024 * d + page + (1024 - page)) with hlt | hge
          · exact hfront.tables i hi hlt
          · exact hclaimed.tables i (by omega) (by omega)
        · rcases Nat.lt_or_ge i (1024 * d + page + (1024 - page)) with hlt | hge
          · exact hfront.free i hi hlt
          · exact hclaimed.free i (by omega) (by omega)

/-! ## The entries filled -/

/-- Filling an entry of a page table is not seen in the directories. -/
theorem Tables.readEntry_write (h : Tables M dm dirs) (hp : ptable ∈ dirs)
    (h₁ : 32 ≤ d) (h₂ : d < 1024) (hlt : p < 1024)
    (hpres : (readEntry M.mem (ptable + 4 * d)).presence = true) (e : Entry)
    (hq : q ∈ dirs) (hk : k < 1024) :
    readEntry (Vm.writeEntry M.mem
      ((readEntry M.mem (ptable + 4 * d)).address + 4 * p) e) (q + 4 * k) =
      readEntry M.mem (q + 4 * k) := by
  have hq := List.mem_cons_of_mem dm hq
  exact readEntry_of_samePage (samePage_writeEntry (h.window.dvd hq)
    (address_dvd _) (h.table_ne hp h₁ h₂ hpres hq).symm hlt) hk

/-- The entries for `k` pages from page number `n` on were filled. -/
structure Filled (M₀ M : Machine) (dm : Nat) (dirs : List Nat)
    (ptable n k : Nat) (fs : List Nat) : Prop where
  spaces : Spaces M dm dirs
  maps : ∀ i, i < k →
    ∃ e, pteOf M.mem ptable (n + i) = some e ∧ e.address = fs.getD i 0
  others : ∀ q, q ∈ dirs → ∀ d, 32 ≤ d → d < 1024 → ∀ p, p < 1024 →
    ¬ (q = ptable ∧ n ≤ 1024 * d + p ∧ 1024 * d + p < n + k) →
    pteAt M.mem q d p = pteAt M₀.mem q d p
  entries : ∀ j, j < 1024 →
    readEntry M.mem (ptable + 4 * j) = readEntry M₀.mem (ptable + 4 * j)
  kept : ∀ t, 4096 ∣ t → ¬ Private M₀.mem ptable t →
    SamePage 4096 M₀.mem M.mem t

/-- The same of machines whose tables map anything, for frames of any kind. -/
structure Stored (M₀ M : Machine) (dm : Nat) (dirs : List Nat)
    (ptable n k : Nat) (fs : List Nat) : Prop where
  tables : Tables M dm dirs
  maps : ∀ i, i < k → ∃ e, pteOf M.mem ptable (n + i) = some e ∧
    e.directMapped = false ∧ e.address = fs.getD i 0
  others : ∀ q, q ∈ dirs → ∀ d, 32 ≤ d → d < 1024 → ∀ p, p < 1024 →
    ¬ (q = ptable ∧ n ≤ 1024 * d + p ∧ 1024 * d + p < n + k) →
    pteAt M.mem q d p = pteAt M₀.mem q d p
  entries : ∀ j, j < 1024 →
    readEntry M.mem (ptable + 4 * j) = readEntry M₀.mem (ptable + 4 * j)
  kept : ∀ t, 4096 ∣ t → ¬ Private M₀.mem ptable t →
    SamePage 4096 M₀.mem M.mem t

theorem withEntry_stored (ht : Tables M dm dirs) (hp : ptable ∈ dirs)
    (hn : 32 ≤ n / 1024) (hend : n < 1048576)
    (hpres : (readEntry M.mem (ptable + 4 * (n / 1024))).presence = true)
    {f : Nat} (hf : 4096 ∣ f) (hbound : f < 4294967296) :
    Stored M (withEntry M (slot M.mem ptable n) f) dm dirs ptable n 1 [f] := by
  have h₂ : n / 1024 < 1024 := by omega
  have hlt : n % 1024 < 1024 := Nat.mod_lt _ (by decide)
  have haddr := address_mappedEntry (readEntry M.mem (slot M.mem ptable n)) hf
    hbound
  refine ⟨ht.writeEntry hp hn h₂ hlt hpres _, fun i hi => ?_,
    fun q hq d h₁' h₂' p hp' hno => ?_,
    fun j hj => ht.readEntry_write hp hn h₂ hlt hpres _ hp hj,
    fun t hdvd hno => ?_⟩
  · obtain rfl : i = 0 := by omega
    refine ⟨_, ?_, rfl, haddr⟩
    exact (ht.pteAt_write hp hn h₂ hlt hpres _ ptable _ _ hp hn h₂ hlt).trans
      (if_pos ⟨rfl, rfl, rfl⟩)
  · refine (ht.pteAt_write hp hn h₂ hlt hpres _ q d p hq h₁' h₂' hp').trans
      (if_neg fun hall => hno ⟨hall.1, ?_, ?_⟩)
    · rw [hall.2.1, hall.2.2]
      omega
    · rw [hall.2.1, hall.2.2]
      omega
  · exact samePage_writeEntry hdvd (address_dvd _)
      (fun heq => hno (.inr ⟨_, hn, h₂, hpres, heq.symm⟩)) hlt

theorem Stored.cons {f : Nat} (h : Stored M₀ M dm dirs ptable n 1 [f])
    (hp : ptable ∈ dirs) (hn : 32 ≤ n / 1024)
    (hend : n < 1048576) (h' : Stored M M' dm dirs ptable (n + 1) k fs) :
    Stored M₀ M' dm dirs ptable n (k + 1) (f :: fs) := by
  refine ⟨h'.tables, fun i hi => ?_, fun q hq d h₁ h₂ p hp' hno => ?_,
    fun j hj => (h'.entries j hj).trans (h.entries j hj),
    fun t ht hk => (h.kept t ht hk).trans (h'.kept t ht fun hk' =>
      hk (hk'.mono fun d hd _ => (h.entries d hd).symm))⟩
  · cases i with
    | zero =>
        obtain ⟨e, he, hmapped⟩ := h.maps 0 Nat.zero_lt_one
        have hlt : n % 1024 < 1024 := Nat.mod_lt _ (by decide)
        have hlater := h'.others ptable hp _ hn (by omega) _ hlt (by omega)
        exact ⟨e, hlater.trans he, hmapped⟩
    | succ i =>
        have hi := h'.maps i (by omega)
        rwa [Nat.add_right_comm, Nat.add_assoc] at hi
  · exact (h'.others q hq d h₁ h₂ p hp' fun hall => hno (by omega)).trans
      (h.others q hq d h₁ h₂ p hp' fun hall => hno (by omega))

theorem mapAll_stored (hp : ptable ∈ dirs) : ∀ (k n : Nat) (fs : List Nat)
    (M : Machine), Tables M dm dirs → k ≤ fs.length → 32 ≤ n / 1024 →
    n + k ≤ 1048576 →
    (∀ i, n ≤ i → i < n + k →
      (readEntry M.mem (ptable + 4 * (i / 1024))).presence = true) →
    (∀ f, f ∈ fs → 4096 ∣ f ∧ f < 4294967296) →
    Stored M
      { M with
        mem := mapAll M.mem ((List.range' n k).map (slot M.mem ptable)) fs }
      dm dirs ptable n k fs := by
  intro k
  induction k with
  | zero =>
      intro n fs M ht _ _ _ _ _
      exact ⟨ht, fun i hi => absurd hi (Nat.not_lt_zero i),
        fun _ _ _ _ _ _ _ _ => rfl, fun _ _ => rfl,
        fun _ _ _ => SamePage.refl _ _⟩
  | succ k ih =>
      intro n fs M ht hlen hn hend htables hfs
      cases fs with
      | nil => exact absurd hlen (Nat.not_succ_le_zero k)
      | cons f fs =>
          obtain ⟨hdvd, hbound⟩ := hfs f List.mem_cons_self
          have hone := withEntry_stored ht hp hn (by omega)
            (htables n (Nat.le_refl n) (by omega)) hdvd hbound
          -- the directory still leads to the same tables
          have hslots : (List.range' (n + 1) k).map (slot M.mem ptable) =
              (List.range' (n + 1) k).map
                (slot (withEntry M (slot M.mem ptable n) f).mem ptable) := by
            refine List.map_congr_left fun i hi => ?_
            rw [List.mem_range'_1] at hi
            rw [slot, slot, hone.entries _ (by omega)]
          have hrest := ih (n + 1) fs (withEntry M (slot M.mem ptable n) f)
            hone.tables (Nat.le_of_succ_le_succ hlen) (by omega) (by omega)
            (fun i h₁ h₂ => by
              rw [hone.entries _ (by omega)]
              exact htables i (by omega) (by omega))
            fun g hg => hfs g (List.mem_cons_of_mem f hg)
          rw [← hslots] at hrest
          rw [List.range'_succ, List.map_cons, mapAll]
          exact hone.cons hp hn (by omega) hrest

theorem mapAll_filled (hp : ptable ∈ dirs) (k n : Nat) (fs : List Nat)
    (M : Machine) (hs : Spaces M dm dirs)
    (hlen : k ≤ fs.length) (hn : 32 ≤ n / 1024) (hend : n + k ≤ 1048576)
    (htables : ∀ i, n ≤ i → i < n + k →
      (readEntry M.mem (ptable + 4 * (i / 1024))).presence = true)
    (hfs : ∀ f, f ∈ fs → 4096 ∣ f ∧ f < 4294967296 ∧ User M.log f ∧
      ¬ Kernel M.log f) :
    Filled M
      { M with
        mem := mapAll M.mem ((List.range' n k).map (slot M.mem ptable)) fs }
      dm dirs ptable n k fs := by
  have h := mapAll_stored hp k n fs M hs.toTables hlen hn hend htables
    fun f hf => ⟨(hfs f hf).1, (hfs f hf).2.1⟩
  refine ⟨h.tables.spaces fun q hq d h₁ h₂ p hp' e he => ?_, fun i hi => ?_,
    h.others, h.entries, h.kept⟩
  · by_cases hnew : q = ptable ∧ n ≤ 1024 * d + p ∧ 1024 * d + p < n + k
    · obtain ⟨rfl, hlow, hhigh⟩ := hnew
      have hi : 1024 * d + p - n < fs.length := by omega
      obtain ⟨e', he', hdirect, haddr⟩ := h.maps (1024 * d + p - n) (by omega)
      have hdiv : (1024 * d + p) / 1024 = d := by omega
      have hmod : (1024 * d + p) % 1024 = p := by omega
      rw [Nat.add_sub_cancel' hlow, pteOf, hdiv, hmod, he] at he'
      cases he'
      rw [← List.getElem_eq_getD (h := hi)] at haddr
      exact ⟨hdirect, haddr ▸ (hfs _ (List.getElem_mem hi)).2.2⟩
    · exact hs.frames q hq d h₁ h₂ p hp' e
        ((h.others q hq d h₁ h₂ p hp' hnew).symm.trans he)
  · obtain ⟨e, he, _, haddr⟩ := h.maps i hi
    exact ⟨e, he, haddr⟩

/-! ## The whole call -/

/-- What stays when a process is given memory: all that was mapped, and what
every page holds that is not one of its tables. -/
structure Extended (M₀ M : Machine) (dm : Nat) (dirs : List Nat)
    (ptable : Nat) : Prop where
  spaces : Spaces M dm dirs
  maps : ∀ q, q ∈ dirs → ∀ d, 32 ≤ d → d < 1024 → ∀ p, p < 1024 →
    ∀ e, pteAt M₀.mem q d p = some e → pteAt M.mem q d p = some e
  entries : ∀ d, d < 1024 →
    (readEntry M₀.mem (ptable + 4 * d)).presence = true →
    readEntry M.mem (ptable + 4 * d) = readEntry M₀.mem (ptable + 4 * d)
  kept : ∀ t, 4096 ∣ t → ¬ Private M.mem ptable t →
    SamePage 4096 M₀.mem M.mem t
  kernel : ∀ t, Kernel M₀.log t → Kernel M.log t
  user : ∀ f, User M₀.log f → User M.log f

/-- Nothing was mapped or unmapped. -/
def SameMaps (M₀ M : Machine) (dirs : List Nat) : Prop :=
  ∀ q, q ∈ dirs → ∀ d, 32 ≤ d → d < 1024 → ∀ p, p < 1024 →
    pteAt M.mem q d p = pteAt M₀.mem q d p

theorem SameMaps.refl (M : Machine) (dirs : List Nat) : SameMaps M M dirs :=
  fun _ _ _ _ _ _ _ => rfl

theorem SameMaps.trans (h : SameMaps M₀ M dirs) (h' : SameMaps M M' dirs) :
    SameMaps M₀ M' dirs := fun q hq d h₁ h₂ p hp =>
  (h' q hq d h₁ h₂ p hp).trans (h q hq d h₁ h₂ p hp)

/-- `k` pages from page number `n` on were mapped, each to a page of its own
that was not in use. -/
structure Placed (M₀ M : Machine) (dirs : List Nat) (ptable n k : Nat)
    (frame : Nat → Nat) : Prop where
  free : ∀ i, i < k → pteOf M₀.mem ptable (n + i) = none
  maps : ∀ i, i < k →
    ∃ e, pteOf M.mem ptable (n + i) = some e ∧ e.address = frame i
  others : ∀ q, q ∈ dirs → ∀ d, 32 ≤ d → d < 1024 → ∀ p, p < 1024 →
    ¬ (q = ptable ∧ n ≤ 1024 * d + p ∧ 1024 * d + p < n + k) →
    pteAt M.mem q d p = pteAt M₀.mem q d p
  unused : ∀ i, i < k → 4096 ∣ frame i ∧ frame i ≠ 0 ∧
    ¬ InUse M₀.log (frame i)
  single : ∀ i, i < k → ∀ j, j < k → frame i = frame j → i = j

theorem Extended.trans (h : Extended M₀ M dm dirs ptable)
    (h' : Extended M M' dm dirs ptable) : Extended M₀ M' dm dirs ptable := by
  refine ⟨h'.spaces, fun q hq d h₁ h₂ p hp e he =>
    h'.maps q hq d h₁ h₂ p hp e (h.maps q hq d h₁ h₂ p hp e he),
    fun d hd hpres => ?_,
    fun t ht hk => (h.kept t ht fun hk' => hk (hk'.mono h'.entries)).trans
      (h'.kept t ht hk),
    fun t ht => h'.kernel t (h.kernel t ht), fun f hf => h'.user f (h.user f hf)⟩
  have heq := h.entries d hd hpres
  exact (h'.entries d hd (by rw [heq, hpres])).trans heq

theorem Held.extended (h : Held M₀ M fs) (hs : Spaces M₀ dm dirs) :
    Extended M₀ M dm dirs ptable := by
  refine ⟨h.spaces hs, fun q hq d h₁ h₂ p hp e he => ?_, fun d _ _ => ?_,
    fun t _ _ => ?_, fun t => (h.kernel t).2, h.user⟩
  · rw [h.mem]
    exact he
  · rw [h.mem]
  · rw [h.mem]
    exact SamePage.refl _ _

theorem Tabled.extended (h : Tabled M₀ M dm dirs ptable) :
    Extended M₀ M dm dirs ptable :=
  ⟨h.spaces, fun q hq d h₁ h₂ p hp _ he =>
    (h.maps q hq d h₁ h₂ p hp).trans he, h.entries, h.kept, h.kernel,
    fun f => (h.user f).2⟩

theorem Filled.extended (h : Filled M₀ M dm dirs ptable n k fs)
    (hlog : M.log = M₀.log)
    (hfree : ∀ i, n ≤ i → i < n + k → pteOf M₀.mem ptable i = none) :
    Extended M₀ M dm dirs ptable := by
  refine ⟨h.spaces, fun q hq d h₁ h₂ p hp e he => ?_,
    fun d hd _ => h.entries d hd,
    fun t ht hk => h.kept t ht fun hk' => hk (hk'.mono fun d hd _ =>
      h.entries d hd),
    fun t ht => hlog ▸ ht, fun f hf => hlog ▸ hf⟩
  refine (h.others q hq d h₁ h₂ p hp fun hall => ?_).trans he
  obtain ⟨rfl, hlow, hhigh⟩ := hall
  have hdiv : (1024 * d + p) / 1024 = d := by omega
  have hmod : (1024 * d + p) % 1024 = p := by omega
  have hnone := hfree _ hlow hhigh
  rw [pteOf, hdiv, hmod, he] at hnone
  cases hnone

/-- The number of pages that `malloc` gets for `size` bytes. -/
def pagesFor (size : Nat) : Nat :=
  size / PAGE_SIZE + if size % PAGE_SIZE ≠ 0 then 1 else 0

theorem pagesFor_eq (size : Nat) : pagesFor size = (size + 4095) / 4096 := by
  rw [pagesFor]
  by_cases h : size % PAGE_SIZE = 0
  · rw [if_neg (not_not_intro h)]
    simp only [PAGE_SIZE] at h ⊢
    omega
  · rw [if_pos h]
    simp only [PAGE_SIZE] at h ⊢
    omega

/-- What a call for `k` pages from `v` on has done: nothing was mapped, or all
of them were, as far as the directory goes. -/
def Served (M₀ M : Machine) (dirs : List Nat) (ptable v k r : Nat) : Prop :=
  (r = 0 ∧ SameMaps M₀ M dirs) ∨
    (r = v ∧ 32 ≤ dir v ∧ k ≠ 0 ∧
      ∃ frame, Placed M₀ M dirs ptable (1024 * dir v + page v)
        (min k (1048576 - (1024 * dir v + page v))) frame)

/-- A search that would have to start in the direct mapping finds nothing. -/
theorem searchAt_window (hwin : WindowInv M dm dirs) (hp : ptable ∈ dirs)
    {v : Nat} (h : dir v < 32) (used : List Nat) (total : Nat) :
    searchAt mm ptable (1024 - dir v) (dir v) (page v) used total M =
      (none, M) := by
  have hentry := hwin.readEntry_window hp h
  have hturns : 1024 - dir v = (1023 - dir v) + 1 := by omega
  have htable : tableAt mm M ptable (dir v) = (none, M) := by
    rw [tableAt, hentry]
    rfl
  rw [hturns, searchAt, htable]

/-- `add_virtual_memory` at an address, with pages that were just handed
out. -/
theorem addVirtualMemory_spec (hfresh : mm.Fresh) (hs : Spaces M₀ dm dirs)
    (hp : ptable ∈ dirs) (hheld : Held M₀ M fs) {v : Nat} (hv : v ≠ 0)
    (hnull : Granted M.log (addVirtualMemory mm M ptable fs v).2.log) :
    Extended M₀ (addVirtualMemory mm M ptable fs v).2 dm dirs ptable ∧
      Served M₀ (addVirtualMemory mm M ptable fs v).2 dirs ptable v fs.length
        (addVirtualMemory mm M ptable fs v).1 := by
  have hM := hheld.spaces hs
  have hM' : Extended M₀ M dm dirs ptable := hheld.extended hs
  have hsame : SameMaps M₀ M dirs := fun q _ d _ _ p _ => by rw [hheld.mem]
  rw [addVirtualMemory] at hnull ⊢
  by_cases hlen : fs.length = 0
  · rw [if_pos hlen]
    exact ⟨hM', .inl ⟨rfl, hsame⟩⟩
  rw [if_neg hlen, if_neg hv] at hnull ⊢
  by_cases hwindow : dir v < 32
  · -- the direct mapping leaves no room
    rw [searchAt_window hM.window hp hwindow]
    exact ⟨hM', .inl ⟨rfl, hsame⟩⟩
  have hd : 32 ≤ dir v := Nat.le_of_not_lt hwindow
  have hdlt := dir_lt v
  have hplt := page_lt v
  have hspec := searchAt_spec hfresh hp (1024 - dir v) (dir v) (page v) []
    fs.length M (by omega) hd hplt hlen hM.toTables
  rw [Served]
  generalize hn : 1024 * dir v + page v = n at hspec ⊢
  rcases hsearch : searchAt mm ptable (1024 - dir v) (dir v) (page v) []
    fs.length M with ⟨_ | used, M₁⟩ <;> rw [hsearch] at hspec hnull <;>
    obtain ⟨hgrown, hfound⟩ := hspec hnull <;>
    have htabled := hgrown.tabled hM <;>
    have hsame₁ := hsame.trans htabled.maps
  · exact ⟨hM'.trans htabled.extended, .inl ⟨rfl, hsame₁⟩⟩
  obtain ⟨rest, hused, hclaimed⟩ := hfound used rfl
  rw [List.nil_append] at hused
  subst hused
  dsimp only at hclaimed hgrown htabled hsame₁ ⊢
  rw [hclaimed.slots]
  have hfilled := mapAll_filled hp (min fs.length (1048576 - n)) n fs M₁
    htabled.spaces (by omega) (by omega) (by omega) hclaimed.tables
    fun f hf => by
      obtain ⟨h₁, h₂, _, h₄, h₅⟩ := hheld.frames f hf
      exact ⟨h₁, h₂, (htabled.user f).2 h₅, htabled.apart f h₅ fun hk =>
        h₄ (.inl ((hheld.kernel f).1 hk))⟩
  refine ⟨hM'.trans (htabled.extended.trans
      (hfilled.extended rfl hclaimed.free)), .inr ⟨rfl, hd, hlen,
    (fs.getD · 0), fun i hi => ?_, hfilled.maps,
    fun q hq d h₁ h₂ p hp' hno => ?_, fun i hi => ?_,
    fun i hi j hj heq => ?_⟩⟩
  · rw [← hclaimed.free (n + i) (by omega) (by omega)]
    exact (hsame₁ ptable hp _ (by omega) (by omega) _
      (Nat.mod_lt _ (by decide))).symm
  · exact (hfilled.others q hq d h₁ h₂ p hp' hno).trans
      (hsame₁ q hq d h₁ h₂ p hp')
  · have hi : i < fs.length := by omega
    rw [← List.getElem_eq_getD (h := hi)]
    obtain ⟨h₁, _, h₃, h₄, _⟩ := hheld.frames _ (List.getElem_mem hi)
    exact ⟨h₁, h₃, h₄⟩
  · have hi' : i < fs.length := by omega
    have hj' : j < fs.length := by omega
    rw [← List.getElem_eq_getD (h := hi'), ← List.getElem_eq_getD (h := hj')]
      at heq
    exact (List.getElem_inj hheld.nodup).1 heq

theorem vmalloc_spec (hfresh : mm.Fresh) (hs : Spaces M dm dirs)
    (hp : ptable ∈ dirs) (size v : Nat)
    (hnull : Granted M.log (vmalloc mm M size ptable v).2.log) :
    Extended M (vmalloc mm M size ptable v).2 dm dirs ptable ∧
      Served M (vmalloc mm M size ptable v).2 dirs ptable v (pagesFor size)
        (vmalloc mm M size ptable v).1 := by
  rw [vmalloc] at hnull ⊢
  by_cases hv : v = 0
  · rw [if_pos hv]
    exact ⟨(Held.start M).extended hs, .inl ⟨rfl, .refl M dirs⟩⟩
  rw [if_neg hv, virtualMalloc] at hnull ⊢
  obtain ⟨hheld, hfound⟩ := (Held.start M).allocAll hfresh (pagesFor size)
  have hsuffix := allocAll_suffix mm (pagesFor size) [] M
  rw [← pagesFor] at hnull ⊢
  generalize allocAll mm (pagesFor size) [] M = got
    at hheld hfound hsuffix hnull ⊢
  obtain ⟨_ | fs, M'⟩ := got
  · exact ⟨hheld.extended hs, .inl ⟨rfl, fun q _ d _ _ p _ => by
      rw [hheld.mem]⟩⟩
  obtain ⟨hlen, hheld⟩ := hfound fs rfl
  have hlen : fs.length = pagesFor size := by simpa using hlen
  rw [← hlen]
  exact addVirtualMemory_spec hfresh hs hp hheld hv (hnull.right hsuffix)

theorem vmalloc_logged (hfresh : mm.Fresh) (M : Machine)
    (size ptable v : Nat) :
    Logged (Requested M.log) M.log (vmalloc mm M size ptable v).2.log := by
  rw [vmalloc]
  split
  · exact .refl _ _
  · rw [virtualMalloc, ← pagesFor]
    have hlog := ((Held.start M).allocAll hfresh (pagesFor size)).1.log
    generalize allocAll mm (pagesFor size) [] M = got at hlog ⊢
    rcases got with ⟨_ | fs, M'⟩
    · exact hlog
    · exact hlog.trans (addVirtualMemory_logged (fun _ => trivial) mm M' ptable
        fs v)

/-! ## Pages of one's own -/

/-- Every page is mapped once at most. -/
structure Owned (M : Machine) (dm : Nat) (dirs : List Nat) : Prop where
  spaces : Spaces M dm dirs
  single : ∀ q, q ∈ dirs → ∀ d, 32 ≤ d → d < 1024 → ∀ p, p < 1024 →
    ∀ e, pteAt M.mem q d p = some e →
      ∀ q', q' ∈ dirs → ∀ d', 32 ≤ d' → d' < 1024 → ∀ p', p' < 1024 →
        ∀ e', pteAt M.mem q' d' p' = some e' →
          e.address = e'.address → q = q' ∧ d = d' ∧ p = p'

theorem Owned.sameMaps (h : Owned M₀ dm dirs) (hs : Spaces M dm dirs)
    (hsame : SameMaps M₀ M dirs) : Owned M dm dirs := by
  refine ⟨hs, fun q hq d h₁ h₂ p hp e he q' hq' d' h₁' h₂' p' hp' e' he' => ?_⟩
  rw [hsame q hq d h₁ h₂ p hp] at he
  rw [hsame q' hq' d' h₁' h₂' p' hp'] at he'
  exact h.single q hq d h₁ h₂ p hp e he q' hq' d' h₁' h₂' p' hp' e' he'

theorem forkMachine_owned : Owned forkMachine 4096 [8192, 12288] := by
  refine ⟨forkMachine_spaces, fun q hq d h₁ h₂ p hp e he q' hq' d' h₁' h₂' p'
    hp' e' he' _ => ?_⟩
  obtain ⟨rfl, rfl, rfl, _⟩ := forkMachine_mapped hq h₁ h₂ hp he
  obtain ⟨rfl, rfl, rfl, _⟩ := forkMachine_mapped hq' h₁' h₂' hp' he'
  exact ⟨rfl, rfl, rfl⟩

/-- An entry is one of the new ones or was there before. -/
theorem Placed.cases {frame : Nat → Nat}
    (h : Placed M₀ M dirs ptable n k frame) (hq : q ∈ dirs) (h₁ : 32 ≤ d)
    (h₂ : d < 1024) (hp : p < 1024) {e : Entry}
    (he : pteAt M.mem q d p = some e) :
    (q = ptable ∧ ∃ i, i < k ∧ 1024 * d + p = n + i ∧ e.address = frame i) ∨
      pteAt M₀.mem q d p = some e := by
  by_cases hnew : q = ptable ∧ n ≤ 1024 * d + p ∧ 1024 * d + p < n + k
  · obtain ⟨rfl, hlow, hhigh⟩ := hnew
    obtain ⟨e', he', haddr⟩ := h.maps (1024 * d + p - n) (by omega)
    have hdiv : (1024 * d + p) / 1024 = d := by omega
    have hmod : (1024 * d + p) % 1024 = p := by omega
    rw [Nat.add_sub_cancel' hlow, pteOf, hdiv, hmod, he] at he'
    cases he'
    exact .inl ⟨rfl, _, by omega, by omega, haddr⟩
  · exact .inr ((h.others q hq d h₁ h₂ p hp hnew).symm.trans he)

theorem Owned.placed (h : Owned M₀ dm dirs) (hs : Spaces M dm dirs)
    {frame : Nat → Nat} (hplaced : Placed M₀ M dirs ptable n k frame) :
    Owned M dm dirs := by
  refine ⟨hs, fun q hq d h₁ h₂ p hp e he q' hq' d' h₁' h₂' p' hp' e' he'
    heq => ?_⟩
  -- a new page was not in use, so it is none of the old ones
  have hold : ∀ q, q ∈ dirs → ∀ d, 32 ≤ d → d < 1024 → ∀ p, p < 1024 →
      ∀ e, pteAt M₀.mem q d p = some e → ∀ i, i < k → e.address ≠ frame i := by
    intro q hq d h₁ h₂ p hp e he i hi hframe
    obtain ⟨_, hu, _⟩ := h.spaces.frames q hq d h₁ h₂ p hp e he
    exact (hplaced.unused i hi).2.2 (.inr (hframe ▸ hu))
  rcases hplaced.cases hq h₁ h₂ hp he with ⟨rfl, i, hi, hn, haddr⟩ | he <;>
    rcases hplaced.cases hq' h₁' h₂' hp' he' with
      ⟨rfl, i', hi', hn', haddr'⟩ | he'
  · have hii := hplaced.single i hi i' hi' (haddr.symm.trans (heq.trans haddr'))
    subst hii
    exact ⟨rfl, by omega, by omega⟩
  · exact absurd (heq.symm.trans haddr)
      (hold q' hq' d' h₁' h₂' p' hp' e' he' i hi)
  · exact absurd (heq.trans haddr')
      (hold q hq d h₁ h₂ p hp e he i' hi')
  · exact h.single q hq d h₁ h₂ p hp e he q' hq' d' h₁' h₂' p' hp' e' he' heq

theorem Owned.served (h : Owned M₀ dm dirs)
    (hext : Extended M₀ M dm dirs ptable) {v r : Nat}
    (hserved : Served M₀ M dirs ptable v k r) :
    Owned M dm dirs := by
  rcases hserved with ⟨_, hsame⟩ | ⟨_, _, _, frame, hplaced⟩
  · exact h.sameMaps hext.spaces hsame
  · exact h.placed hext.spaces hplaced

/-! ## Translations -/

theorem dir_eq {w : Nat} (hw : w < 4294967296) :
    dir w = w / 4096 / 1024 := by
  rw [dir]
  omega

theorem page_eq (w : Nat) : page w = w / 4096 % 1024 := rfl

/-- The page number of an address. -/
theorem number_eq {w : Nat} (hw : w < 4294967296) :
    1024 * dir w + page w = w / 4096 := by
  rw [dir_eq hw, page_eq]
  omega

theorem Extended.translate (h : Extended M₀ M dm dirs ptable)
    (hs : Spaces M₀ dm dirs) (hq : q ∈ dirs) {v a : Nat}
    (ha : translate M₀.mem q v = some a) : translate M.mem q v = some a := by
  by_cases hv : dir v < 32
  · rw [← ha, hs.window.translate_window hq hv,
      h.spaces.window.translate_window hq hv]
  · have hv : 32 ≤ dir v := Nat.le_of_not_lt hv
    obtain ⟨e, he, rfl⟩ := hs.toTables.translate_above hq hv ha
    exact translate_of_pteAt (h.maps q hq _ hv (dir_lt v) _ (page_lt v) e he)

theorem Placed.translate {frame : Nat → Nat}
    (h : Placed M₀ M dirs ptable n k frame) {w : Nat} (hw : w < 4294967296)
    (h₁ : n ≤ w / 4096) (h₂ : w / 4096 < n + k) :
    translate M.mem ptable w =
      some (frame (w / 4096 - n) + offset w) := by
  obtain ⟨e, he, haddr⟩ := h.maps (w / 4096 - n) (by omega)
  rw [Nat.add_sub_cancel' h₁, pteOf, ← dir_eq hw, ← page_eq] at he
  rw [translate_of_pteAt he, haddr]

end Iposix.Vm
