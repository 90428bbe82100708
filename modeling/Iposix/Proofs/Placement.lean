import Iposix.Lib.FirstFit
import Iposix.Proofs.Mapping

/-!
# Automatic placement

With no address given `add_virtual_memory` looks for the first pages in a row
that are free, from 2 GiB on, and the row may go on in the next table. It finds
that row and fills it, but the address it returns is put together from the page
the row begins with and the table it ends in.
-/

namespace Iposix.Vm

open Iposix.Lib

/-- Nothing is mapped at page number `i`. -/
def Unmapped (m : Nat → UInt8) (ptable i : Nat) : Prop :=
  i < 1048576 ∧ translate m ptable (4096 * i) = none

variable {mm : PageManager} {M M' M₀ : Machine} {dm ptable q n k : Nat}
  {dirs fs : List Nat} {d p : Nat}

theorem dir_number {i : Nat} (hi : i < 1048576) : dir (4096 * i) = i / 1024 := by
  rw [dir]
  omega

theorem page_number (i : Nat) : page (4096 * i) = i % 1024 := by
  rw [page]
  omega

theorem Tables.translate_number (h : Tables M dm dirs) (hq : q ∈ dirs) {i : Nat}
    (hlow : 32768 ≤ i) (hi : i < 1048576) : translate M.mem q (4096 * i) =
      (pteOf M.mem q i).map fun e => e.address := by
  have hoffset : offset (4096 * i) = 0 := by
    rw [offset]
    omega
  rw [h.translate_eq hq (by rw [dir_number hi]; omega), dir_number hi,
    page_number, hoffset]
  rfl

theorem Tables.unmapped_iff (h : Tables M dm dirs) (hq : q ∈ dirs) {i : Nat}
    (hlow : 32768 ≤ i) :
    Unmapped M.mem q i ↔ i < 1048576 ∧ pteOf M.mem q i = none := by
  refine and_congr_right fun hi => ?_
  rw [h.translate_number hq hlow hi, Option.map_eq_none_iff]

theorem Grown.translate (h : Grown M₀ M dm dirs ptable) (ht : Tables M₀ dm dirs)
    (hq : q ∈ dirs) (v : Nat) : translate M.mem q v = translate M₀.mem q v :=
  ht.translate_same h.tables hq fun hv =>
    h.maps q hq _ hv (dir_lt v) _ (page_lt v)

theorem Grown.unmapped (h : Grown M₀ M dm dirs ptable) (ht : Tables M₀ dm dirs)
    (hq : q ∈ dirs) (i : Nat) : Unmapped M.mem q i ↔ Unmapped M₀.mem q i := by
  rw [Unmapped, Unmapped, h.translate ht hq]

/-! ## The search -/

/-- The search for `total` free pages has come to page number `c`: the entries
of the row it is in, which begins at `s`. -/
structure Searching (M : Machine) (ptable total s c : Nat) (used : List Nat)
    (count vpage : Nat) : Prop where
  scan : Scanning (Unmapped M.mem ptable) 524288 total s c
  count : count + (c - s) = total
  slots : used = (List.range' s (c - s)).map (slot M.mem ptable)
  tables : ∀ i, s ≤ i → i < c →
    (readEntry M.mem (ptable + 4 * (i / 1024))).presence = true
  vpage : s < c → vpage = s % 1024

/-- The search has found the entries `used` for the row from `s` on. -/
structure SearchedAny (M : Machine) (ptable total s : Nat) (used : List Nat) :
    Prop where
  first : FirstRun (Unmapped M.mem ptable) 524288 total s
  slots : used = (List.range' s total).map (slot M.mem ptable)
  tables : ∀ i, s ≤ i → i < s + total →
    (readEntry M.mem (ptable + 4 * (i / 1024))).presence = true

section Search

variable {total s c count vpage : Nat} {used : List Nat}

theorem Searching.start (hn : total ≠ 0) (vpage : Nat) :
    Searching M ptable total 524288 524288 [] total vpage :=
  ⟨.start _ _ (Nat.pos_of_ne_zero hn), rfl, rfl, fun i h₁ h₂ => by omega,
    fun h => absurd h (Nat.lt_irrefl _)⟩

/-- Making tables does not disturb a search. -/
theorem Searching.grown (h : Searching M ptable total s c used count vpage)
    (hg : Grown M M' dm dirs ptable) (ht : Tables M dm dirs)
    (hp : ptable ∈ dirs) (hc : c ≤ 1048576) :
    Searching M' ptable total s c used count vpage := by
  have hfree := hg.unmapped ht hp
  have hentry : ∀ i, s ≤ i → i < c → _ := fun i h₁ h₂ =>
    hg.entries (i / 1024) (by omega) (h.tables i h₁ h₂)
  refine ⟨⟨h.scan.low_le, h.scan.le, h.scan.short, fun i h₁ h₂ =>
      (hfree i).2 (h.scan.run i h₁ h₂), fun s' h₁ hrun =>
        h.scan.first s' h₁ (hrun.congr fun i _ _ => (hfree i).1)⟩,
    h.count, ?_, fun i h₁ h₂ => ?_, h.vpage⟩
  · rw [h.slots]
    refine List.map_congr_left fun i hi => ?_
    rw [List.mem_range'_1] at hi
    rw [slot, slot, hentry i hi.1 (by omega)]
  · rw [hentry i h₁ h₂]
    exact h.tables i h₁ h₂

/-- A free entry is taken up. -/
theorem Searching.take (h : Searching M ptable total s c used count vpage)
    (hfree : Unmapped M.mem ptable c)
    (hpres : (readEntry M.mem (ptable + 4 * (c / 1024))).presence = true)
    {entry : Nat} (hentry : entry = slot M.mem ptable c) :
    (count - 1 = 0 ∧ SearchedAny M ptable total s (used ++ [entry]) ∧
        c + 1 = s + total) ∨
      (count - 1 ≠ 0 ∧ Searching M ptable total s (c + 1) (used ++ [entry])
        (count - 1) (s % 1024)) := by
  have hle := h.scan.le
  have hshort := h.scan.short
  have hcount := h.count
  have hsub : c + 1 - s = c - s + 1 := by omega
  have hslots : used ++ [entry] =
      (List.range' s (c + 1 - s)).map (slot M.mem ptable) := by
    rw [hsub, List.range'_1_concat, List.map_append, ← h.slots, hentry,
      Nat.add_sub_cancel' hle]
    rfl
  have htables : ∀ i, s ≤ i → i < c + 1 →
      (readEntry M.mem (ptable + 4 * (i / 1024))).presence = true := by
    intro i h₁ h₂
    rcases Nat.lt_or_eq_of_le (Nat.le_of_lt_succ h₂) with hlt | rfl
    · exact h.tables i h₁ hlt
    · exact hpres
  by_cases hlast : count - 1 = 0
  · have hend : c + 1 = s + total := by omega
    have hlen : c + 1 - s = total := by omega
    rw [hlen] at hslots
    exact .inl ⟨hlast, ⟨h.scan.found hfree hend, hslots, fun i h₁ h₂ =>
      htables i h₁ (by omega)⟩, hend⟩
  · exact .inr ⟨hlast, h.scan.next hfree (by omega), by omega, hslots, htables,
      fun _ => rfl⟩

/-- The search in one table. -/
theorem findFree_spec (ht : Tables M dm dirs) (hp : ptable ∈ dirs)
    (h₁ : 32 ≤ d) (h₂ : d < 1024) {table : Nat}
    (hpres : (readEntry M.mem (ptable + 4 * d)).presence = true)
    (haddr : (readEntry M.mem (ptable + 4 * d)).address = table) :
    ∀ turns page used count vpage s, page + turns = 1024 →
      Searching M ptable total s (1024 * d + page) used count vpage →
      ∃ used' count' vpage' s', findFree M.mem table total turns page used count
          vpage = (used', count', vpage') ∧
        ((count' ≠ 0 ∧ Searching M ptable total s' (1024 * (d + 1)) used' count'
            vpage') ∨
          (count' = 0 ∧ SearchedAny M ptable total s' used' ∧
            vpage' = s' % 1024 ∧ 1024 * d < s' + total ∧
            s' + total ≤ 1024 * (d + 1))) := by
  intro turns
  induction turns with
  | zero =>
      intro page used count vpage s hpage h
      obtain rfl : page = 1024 := by omega
      have hshort := h.scan.short
      have hle := h.scan.le
      have hcount := h.count
      exact ⟨used, count, vpage, s, rfl, .inl ⟨by omega, h⟩⟩
  | succ turns ih =>
      intro page used count vpage s hpage h
      have hdiv : (1024 * d + page) / 1024 = d := by omega
      have hmod : (1024 * d + page) % 1024 = page := by omega
      have hslot : table + 4 * page = slot M.mem ptable (1024 * d + page) := by
        rw [slot, hdiv, hmod, haddr]
      have hpte := pteAt_table (p := page) hpres (ht.pageSize hp h₁ h₂ hpres)
        haddr
      have hunmapped := ht.unmapped_iff hp
        (by omega : 32768 ≤ 1024 * d + page)
      rw [pteOf, hdiv, hmod, hpte] at hunmapped
      rw [findFree]
      dsimp only
      cases hhere : (readEntry M.mem (table + 4 * page)).presence with
      | true =>
          rw [if_pos rfl]
          rw [hhere, if_pos rfl] at hunmapped
          have hblocked := h.scan.blocked fun hfree => by
            cases (hunmapped.1 hfree).2
          have hself : 1024 * d + page + 1 - (1024 * d + page + 1) = 0 :=
            Nat.sub_self _
          exact ih (page + 1) [] total vpage _ (by omega)
            ⟨hblocked, by omega, by rw [Nat.add_assoc, Nat.sub_self]; rfl,
              fun i h₁ h₂ => by omega, fun h => absurd h (by omega)⟩
      | false =>
          rw [if_neg Bool.false_ne_true]
          rw [hhere, if_neg Bool.false_ne_true] at hunmapped
          have htake := h.take (hunmapped.2 ⟨by omega, rfl⟩)
            (by rw [hdiv]; exact hpres) hslot
          -- the page recorded is the one the row begins with
          have hvpage : (if count = total then page else vpage) = s % 1024 := by
            have hle := h.scan.le
            have hcount := h.count
            split
            next hfirst =>
              have hs : s = 1024 * d + page := by
                have hshort := h.scan.short
                omega
              omega
            next hlater => exact h.vpage (by omega)
          rw [hvpage]
          rcases htake with ⟨hlast, hfound, hend⟩ | ⟨hmore, hsearching⟩
          · rw [if_pos hlast]
            exact ⟨_, _, _, s, rfl, .inr ⟨hlast, hfound, rfl, by omega,
              by omega⟩⟩
          · rw [if_neg hmore]
            exact ih (page + 1) _ _ _ s (by omega) hsearching

theorem searchAny_suffix (mm : PageManager) (ptable total turns d : Nat)
    (used : List Nat) (count vpage : Nat) (M : Machine)
    (hd : d + turns ≤ 1024) :
    M.log <:+ (searchAny mm ptable total turns d used count vpage M).2.log :=
  ((loggedRule (P := fun _ => True) (fun _ => trivial) mm M ptable).searchAny
    total turns d used count vpage M hd (.refl _ _) fun _ _ => trivial).1.suffix

theorem searchAny_spec (hfresh : mm.Fresh) (hp : ptable ∈ dirs) :
    ∀ turns d used count vpage M s, d + turns = 1024 → 32 ≤ d →
      Tables M dm dirs →
      Searching M ptable total s (1024 * d) used count vpage →
      Event.alloc true 0 ∉
        (searchAny mm ptable total turns d used count vpage M).2.log →
      Grown M (searchAny mm ptable total turns d used count vpage M).2 dm dirs
          ptable ∧
        ((searchAny mm ptable total turns d used count vpage M).1 = none →
          ∀ s', 524288 ≤ s' → ¬ RunAt (Unmapped
            (searchAny mm ptable total turns d used count vpage M).2.mem
            ptable) total s') ∧
        ∀ used' v, (searchAny mm ptable total turns d used count vpage M).1 =
          some (used', v) → ∃ s', SearchedAny
            (searchAny mm ptable total turns d used count vpage M).2 ptable
            total s' used' ∧
          v = normal ((s' + total - 1) / 1024) (s' % 1024) 0 := by
  intro turns
  induction turns with
  | zero =>
      intro d used count vpage M s hd _ ht hsearch _
      obtain rfl : d = 1024 := by omega
      refine ⟨.start ht, fun _ s' hlow => hsearch.scan.none (fun i hi hfree =>
        ?_) hlow, fun _ _ hnone => by cases hnone⟩
      have hlt := hfree.1
      omega
  | succ turns ih =>
      intro d used count vpage M s hd h₁ ht hsearch
      have hgrown := tableAt_grown hfresh ht hp h₁ (by omega : d < 1024)
      rw [searchAny]
      rcases htable : tableAt mm M ptable d with ⟨_ | table, M₁⟩ <;>
        rw [htable] at hgrown
      · -- above the window no entry is a 4 MiB page
        exact absurd htable fun htable => by
          rcases tableAt_cases mm M ptable d with ⟨hpres, hsize, _⟩ |
            ⟨_, _, heq⟩ | ⟨_, heq⟩
          · rw [ht.pageSize hp h₁ (by omega) hpres] at hsize
            cases hsize
          · rw [heq] at htable
            cases htable
          · rw [heq] at htable
            cases htable
      obtain ⟨hpres, _, haddr⟩ := tableAt_entry htable
      dsimp only
      rcases hfind : findFree M₁.mem table total 1024 0 used count vpage
        with ⟨used', count', vpage'⟩
      dsimp only
      intro hnull
      have h₁null : Event.alloc true 0 ∉ M₁.log := by
        intro hmem
        refine hnull ?_
        split
        · exact hmem
        · exact (searchAny_suffix mm ptable total turns (d + 1) used' count'
            vpage' M₁ (by omega)).subset hmem
      have hg := hgrown (.of_notMem h₁null)
      obtain ⟨_, _, _, s', heq, hcases⟩ := findFree_spec
        hg.tables hp h₁ (by omega) hpres haddr 1024 0 used count vpage s rfl
        (hsearch.grown hg ht hp (by omega))
      rw [hfind] at heq
      cases heq
      rcases hcases with ⟨hmore, hsearch'⟩ | ⟨hdone, hfound, hvpage, hlow, hhigh⟩
      · rw [if_neg hmore] at hnull ⊢
        obtain ⟨hrest, hnone, hall⟩ := ih (d + 1) used' count' vpage' M₁ s'
          (by omega) (by omega) hg.tables hsearch' hnull
        exact ⟨hg.trans hrest, hnone, hall⟩
      · rw [if_pos hdone] at hnull ⊢
        refine ⟨hg, fun hnone => (by cases hnone), fun used'' v hsome => ?_⟩
        cases hsome
        have hdir : (s' + total - 1) / 1024 = d := by omega
        exact ⟨s', hfound, by rw [hdir, hvpage]⟩

end Search

/-! ## The whole call -/

/-- The first of the frames `fs` were mapped at `k` page numbers from `n` on,
where nothing was mapped, and nothing else was. -/
structure MappedAt (M₀ M : Machine) (dm : Nat) (dirs : List Nat)
    (ptable n k : Nat) (fs : List Nat) : Prop where
  tables : Tables M dm dirs
  low : 32768 ≤ n
  high : n + k ≤ 1048576
  present : ∀ i, n ≤ i → i < n + k →
    (readEntry M.mem (ptable + 4 * (i / 1024))).presence = true
  free : ∀ i, i < k → Unmapped M₀.mem ptable (n + i)
  maps : ∀ i, i < k →
    translate M.mem ptable (4096 * (n + i)) = some (fs.getD i 0)
  others : ∀ v, ¬ (n ≤ 1024 * dir v + page v ∧ 1024 * dir v + page v < n + k) →
    translate M.mem ptable v = translate M₀.mem ptable v

theorem Grown.mapped (hg : Grown M₀ M dm dirs ptable) (ht : Tables M₀ dm dirs)
    (hp : ptable ∈ dirs) (hlen : k ≤ fs.length) (hlow : 32768 ≤ n)
    (hend : n + k ≤ 1048576)
    (htables : ∀ i, n ≤ i → i < n + k →
      (readEntry M.mem (ptable + 4 * (i / 1024))).presence = true)
    (hfree : ∀ i, i < k → Unmapped M₀.mem ptable (n + i))
    (hfs : ∀ f, f ∈ fs → 4096 ∣ f ∧ f < 4294967296) :
    MappedAt M₀
      { M with
        mem := mapAll M.mem ((List.range' n k).map (slot M.mem ptable)) fs }
      dm dirs ptable n k fs := by
  have hstored := mapAll_stored hp k n fs M hg.tables hlen (by omega) hend
    htables hfs
  refine ⟨hstored.tables, hlow, hend, fun i h₁ h₂ => ?_, hfree, fun i hi => ?_,
    fun v hv => ?_⟩
  · rw [hstored.entries _ (by omega)]
    exact htables i h₁ h₂
  · obtain ⟨e, he, _, haddr⟩ := hstored.maps i hi
    rw [hstored.tables.translate_number hp (by omega) (by omega), he, ← haddr]
    rfl
  · rw [← hg.translate ht hp v]
    exact hg.tables.translate_same hstored.tables hp fun hwin =>
      hstored.others ptable hp _ hwin (dir_lt v) _ (page_lt v)
        fun hall => hv hall.2

/-- What a call has not mapped it leaves as it is translated. -/
theorem addVirtualMemory_at (hfresh : mm.Fresh) (ht : Tables M dm dirs)
    (hp : ptable ∈ dirs) (hfs : ∀ f, f ∈ fs → 4096 ∣ f ∧ f < 4294967296)
    (hne : fs.length ≠ 0) {v : Nat} (hv : v ≠ 0)
    (hnull : Event.alloc true 0 ∉ (addVirtualMemory mm M ptable fs v).2.log) :
    ((addVirtualMemory mm M ptable fs v).1 = 0 ∧
      ∀ w, translate (addVirtualMemory mm M ptable fs v).2.mem ptable w =
        translate M.mem ptable w) ∨
    ((addVirtualMemory mm M ptable fs v).1 = v ∧
      MappedAt M (addVirtualMemory mm M ptable fs v).2 dm dirs ptable
        (1024 * dir v + page v)
        (min fs.length (1048576 - (1024 * dir v + page v))) fs) := by
  rw [addVirtualMemory, if_neg hne, if_neg hv] at hnull ⊢
  by_cases hwindow : dir v < 32
  · -- the direct mapping leaves no room
    rw [searchAt_window ht.window hp hwindow]
    exact .inl ⟨rfl, fun _ => rfl⟩
  have hd : 32 ≤ dir v := Nat.le_of_not_lt hwindow
  have hdlt := dir_lt v
  have hplt := page_lt v
  have hspec := searchAt_spec hfresh hp (1024 - dir v) (dir v) (page v) []
    fs.length M (by omega) hd hplt hne ht
  rcases hsearch : searchAt mm ptable (1024 - dir v) (dir v) (page v) []
    fs.length M with ⟨_ | used, M₁⟩ <;> rw [hsearch] at hspec hnull <;>
    obtain ⟨hg, hfound⟩ := hspec (.of_notMem hnull)
  · exact .inl ⟨rfl, hg.translate ht hp⟩
  obtain ⟨rest, hused, hclaimed⟩ := hfound used rfl
  rw [List.nil_append] at hused
  subst hused
  dsimp only at hclaimed hg ⊢
  rw [hclaimed.slots]
  refine .inr ⟨rfl, hg.mapped ht hp (Nat.min_le_left _ _) (by omega) (by omega)
    hclaimed.tables (fun i hi => ?_) hfs⟩
  refine (hg.unmapped ht hp _).1 ((hg.tables.unmapped_iff hp (by omega)).2
    ⟨by omega, hclaimed.free _ (Nat.le_add_right _ _) (by omega)⟩)

theorem addVirtualMemory_any (hfresh : mm.Fresh) (ht : Tables M dm dirs)
    (hp : ptable ∈ dirs) (hfs : ∀ f, f ∈ fs → 4096 ∣ f ∧ f < 4294967296)
    (hne : fs.length ≠ 0)
    (hnull : Event.alloc true 0 ∉ (addVirtualMemory mm M ptable fs 0).2.log) :
    ((addVirtualMemory mm M ptable fs 0).1 = 0 ∧
      (∀ w, translate (addVirtualMemory mm M ptable fs 0).2.mem ptable w =
        translate M.mem ptable w) ∧
      ∀ s, 524288 ≤ s → ¬ RunAt (Unmapped M.mem ptable) fs.length s) ∨
    ∃ s, FirstRun (Unmapped M.mem ptable) 524288 fs.length s ∧
      (addVirtualMemory mm M ptable fs 0).1 =
        normal ((s + fs.length - 1) / 1024) (s % 1024) 0 ∧
      MappedAt M (addVirtualMemory mm M ptable fs 0).2 dm dirs ptable s
        fs.length fs := by
  rw [addVirtualMemory, if_neg hne, if_pos rfl] at hnull ⊢
  have hspec := searchAny_spec hfresh hp (1024 - 512) 512 [] fs.length 0 M
    524288 (by decide) (by decide) ht (Searching.start hne 0)
  rcases hsearch : searchAny mm ptable fs.length (1024 - 512) 512 []
    fs.length 0 M with ⟨_ | ⟨used, v⟩, M₁⟩ <;> rw [hsearch] at hspec hnull <;>
    obtain ⟨hg, hnone, hfound⟩ := hspec hnull
  · refine .inl ⟨rfl, hg.translate ht hp, fun s hs hrun => ?_⟩
    exact hnone rfl s hs (hrun.congr fun i _ _ => (hg.unmapped ht hp i).2)
  obtain ⟨s, hany, hv⟩ := hfound used v rfl
  have hfirst : FirstRun (Unmapped M.mem ptable) 524288 fs.length s :=
    ⟨hany.first.low_le, hany.first.run.congr fun i _ _ =>
      (hg.unmapped ht hp i).1, fun s' hs' hrun => hany.first.first s' hs'
        (hrun.congr fun i _ _ => (hg.unmapped ht hp i).2)⟩
  have hlast := (hfirst.run (fs.length - 1) (by omega)).1
  have hlow := hfirst.low_le
  refine .inr ⟨s, hfirst, hv, ?_⟩
  dsimp only at hany hg ⊢
  rw [hany.slots]
  exact hg.mapped ht hp (Nat.le_refl _) (by omega) (by omega) hany.tables
    hfirst.run hfs

/-! ## Where a placement is -/

/-- What a placement of `fs` at the row from `s` on returns leads to as many
pages: those of the row, from the page in its last table on where the row
begins in its first, and what lies behind the row. -/
def returnedAt (m : Nat → UInt8) (ptable : Nat) (fs : List Nat) (s k : Nat) :
    Nat :=
  let skipped := 1024 * ((s + fs.length - 1) / 1024 - s / 1024)
  if skipped + k < fs.length then fs.getD (skipped + k) 0
  else getPhysAddress m ptable (4096 * (s + skipped + k))

theorem returnedAt_table {m : Nat → UInt8} {s i : Nat} (hi : i < fs.length)
    (h : (s + fs.length - 1) / 1024 = s / 1024) :
    returnedAt m ptable fs s i = fs.getD i 0 := by
  rw [returnedAt, h, Nat.sub_self, Nat.mul_zero, Nat.zero_add, if_pos hi]

theorem MappedAt.returned {s i : Nat}
    (h : MappedAt M₀ M dm dirs ptable s fs.length fs) (hi : i < fs.length)
    (hlow : 524288 ≤ s) :
    getPhysAddress M.mem ptable
        (normal ((s + fs.length - 1) / 1024) (s % 1024) 0 + 4096 * i) =
      returnedAt M₀.mem ptable fs s i := by
  have hhigh := h.high
  have hv : normal ((s + fs.length - 1) / 1024) (s % 1024) 0 + 4096 * i =
      4096 * (s + 1024 * ((s + fs.length - 1) / 1024 - s / 1024) + i) := by
    rw [normal]
    omega
  rw [hv, returnedAt]
  generalize hskip : 1024 * ((s + fs.length - 1) / 1024 - s / 1024) = skipped
  rw [getPhysAddress_eq]
  split
  next hin =>
    rw [Nat.add_assoc, h.maps _ hin, Option.getD_some]
  next hout =>
    rw [getPhysAddress_eq, h.others]
    rw [dir, page]
    omega

/-- A placement fails only where there is no room, and it returns where it
mapped the pages if the row it found lies in one table, or if by chance the
pages behind the address it returns are the same. -/
theorem placement_returned_iff (hfresh : mm.Fresh) (ht : Tables M dm dirs)
    (hp : ptable ∈ dirs) (hne : fs.length ≠ 0)
    (hfs : ∀ f, f ∈ fs → 4096 ∣ f ∧ f < 4294967296)
    (hnull : Event.alloc true 0 ∉ (addVirtualMemory mm M ptable fs 0).2.log) :
    (((addVirtualMemory mm M ptable fs 0).1 = 0 →
        ∀ s, 524288 ≤ s → ¬ RunAt (Unmapped M.mem ptable) fs.length s) ∧
      ((addVirtualMemory mm M ptable fs 0).1 ≠ 0 → ∀ k, k < fs.length →
        getPhysAddress (addVirtualMemory mm M ptable fs 0).2.mem ptable
          ((addVirtualMemory mm M ptable fs 0).1 + 4096 * k) =
          fs.getD k 0)) ↔
    ∀ s, FirstRun (Unmapped M.mem ptable) 524288 fs.length s →
      (s + fs.length - 1) / 1024 = s / 1024 ∨
        ∀ k, k < fs.length → returnedAt M.mem ptable fs s k = fs.getD k 0 := by
  rcases addVirtualMemory_any hfresh ht hp hfs hne hnull with
    ⟨hret, _, hnone⟩ | ⟨s, hfirst, hret, hmapped⟩
  · refine iff_of_true ⟨fun _ => hnone, fun hno => absurd hret hno⟩
      fun s hs => absurd hs.run (hnone s hs.low_le)
  have hlow := hfirst.low_le
  have hret₀ : (addVirtualMemory mm M ptable fs 0).1 ≠ 0 := by
    rw [hret, normal]
    omega
  have hreturned : ∀ k, k < fs.length →
      getPhysAddress (addVirtualMemory mm M ptable fs 0).2.mem ptable
        ((addVirtualMemory mm M ptable fs 0).1 + 4096 * k) =
        returnedAt M.mem ptable fs s k := fun k hk => by
    rw [hret, hmapped.returned hk hlow]
  constructor
  · rintro ⟨_, hall⟩ s' hs'
    obtain rfl := hfirst.unique hs'
    exact .inr fun k hk => (hreturned k hk).symm.trans (hall hret₀ k hk)
  · intro hcond
    refine ⟨fun hzero => absurd hzero hret₀, fun _ k hk => ?_⟩
    rw [hreturned k hk]
    rcases hcond s hfirst with htable | hsame
    · exact returnedAt_table hk htable
    · exact hsame k hk

/-- Above the window the child of `forkMachine` maps nothing. -/
theorem forkMachine_unmapped {i : Nat} (hlow : 32768 ≤ i) (hi : i < 1048576) :
    Unmapped forkMachine.mem 12288 i :=
  (forkMachine_spaces.toTables.unmapped_iff (by decide) hlow).2
    ⟨hi, pteAt_absent (forkMachine_blank (by omega) (by omega))⟩

/-- Three pages are placed where they are said to be. -/
theorem placement_returned_forkMachine :
    ((addVirtualMemory counting forkMachine 12288 [409600, 425984, 413696]
        0).1 = 0 →
        ∀ s, 524288 ≤ s → ¬ RunAt (Unmapped forkMachine.mem 12288) 3 s) ∧
      ((addVirtualMemory counting forkMachine 12288 [409600, 425984, 413696]
        0).1 ≠ 0 → ∀ k, k < 3 →
          getPhysAddress
            (addVirtualMemory counting forkMachine 12288
              [409600, 425984, 413696] 0).2.mem 12288
            ((addVirtualMemory counting forkMachine 12288
              [409600, 425984, 413696] 0).1 + 4096 * k) =
            [409600, 425984, 413696].getD k 0) := by
  have hrun : RunAt (Unmapped forkMachine.mem 12288) 3 524288 := fun i hi =>
    forkMachine_unmapped (by omega) (by omega)
  refine (placement_returned_iff counting_fresh forkMachine_spaces.toTables
    (by decide) (by decide) (by decide) (by decide +kernel)).2 fun s hs => ?_
  -- the first row is the one at 2 GiB
  obtain rfl : s = 524288 :=
    Nat.le_antisymm (hs.first _ (Nat.le_refl _) hrun) hs.low_le
  exact .inl (by decide)

/-- One page more than a table has. -/
def manyFrames : List Nat := (List.range 1025).map fun k => 4096 * (100 + k)

/-- The address returned is 4 MiB behind the first page mapped: the frame there
is the last one. -/
theorem placement_across_tables :
    counting.Fresh ∧ Tables forkMachine 4096 [8192, 12288] ∧
      (∀ f, f ∈ manyFrames → 4096 ∣ f ∧ f < 4294967296) ∧
      Event.alloc true 0 ∉
        (addVirtualMemory counting forkMachine 12288 manyFrames 0).2.log ∧
      (addVirtualMemory counting forkMachine 12288 manyFrames 0).1 =
        0x80400000 ∧
      getPhysAddress
        (addVirtualMemory counting forkMachine 12288 manyFrames 0).2.mem 12288
        (0x80400000 + 4096 * 0) ≠ manyFrames.getD 0 0 := by
  have ht := forkMachine_spaces.toTables
  have hlen : manyFrames.length = 1025 := by
    rw [manyFrames, List.length_map, List.length_range]
  have hfs : ∀ f, f ∈ manyFrames → 4096 ∣ f ∧ f < 4294967296 := by
    intro f hf
    obtain ⟨k, hk, rfl⟩ := List.mem_map.1 hf
    rw [List.mem_range] at hk
    exact ⟨⟨_, rfl⟩, by omega⟩
  have hnull : Event.alloc true 0 ∉
      (addVirtualMemory counting forkMachine 12288 manyFrames 0).2.log := by
    decide +kernel
  have hrun : RunAt (Unmapped forkMachine.mem 12288) manyFrames.length
      524288 := fun i hi => by
    rw [hlen] at hi
    exact forkMachine_unmapped (by omega) (by omega)
  rcases addVirtualMemory_any counting_fresh ht (by decide) hfs
    (by rw [hlen]; decide) hnull with
    ⟨_, _, hnone⟩ | ⟨s, hfirst, hret, hmapped⟩
  · exact absurd hrun (hnone _ (Nat.le_refl _))
  obtain rfl : s = 524288 :=
    Nat.le_antisymm (hfirst.first _ (Nat.le_refl _) hrun) hfirst.low_le
  have hreturned := hmapped.returned (i := 0) (by rw [hlen]; decide)
    (Nat.le_refl _)
  rw [← hret] at hreturned
  rw [hlen] at hret
  rw [hret] at hreturned
  refine ⟨counting_fresh, ht, hfs, hnull, hret, ?_⟩
  show getPhysAddress _ 12288 (normal 513 0 0 + 4096 * 0) ≠ _
  rw [hreturned, returnedAt, hlen]
  decide +kernel

end Iposix.Vm
