import Iposix.Proofs.DirectoryLookup

/-!
# Which entry a lookup finds

What a directory holds is the entries of its clusters in a row, and
`entry_by_name` is a search in this list: it passes over labels, ends at an entry
that was never used and answers with the first entry of the name. The name of a
file that was deleted starts with 0xE5, and nothing asks for this: a deleted entry
is found like any other. A label is passed over before it is asked whether it is
the end, so that a label that was never used does not end the search.

So the entry found is the first live one before the end exactly if what the
search stops at is not deleted and no unused label stands in front of it.
-/

namespace Iposix.Fs

open Iposix.Lib

namespace FatDirectoryEntry

/-- Never used, and nothing behind it is. -/
def Unused (entry : FatDirectoryEntry) : Prop := entry.name.head? = some 0

def Deleted (entry : FatDirectoryEntry) : Prop := entry.name.head? = some 0xE5

/-- A live entry of this name. -/
def LiveAs (entry : FatDirectoryEntry) (name : List UInt8) : Prop :=
  ¬ entry.Deleted ∧ entry.volumeLabel = false ∧ entry.filename = name

/-- The search stops at the entry. -/
def Stops (entry : FatDirectoryEntry) (name : List UInt8) : Prop :=
  entry.volumeLabel = false ∧ (entry.Unused ∨ entry.filename = name)

instance (entry : FatDirectoryEntry) : Decidable entry.Unused :=
  inferInstanceAs (Decidable (_ = _))

instance (entry : FatDirectoryEntry) : Decidable entry.Deleted :=
  inferInstanceAs (Decidable (_ = _))

instance (entry : FatDirectoryEntry) (name : List UInt8) :
    Decidable (entry.LiveAs name) :=
  inferInstanceAs (Decidable (_ ∧ _))

end FatDirectoryEntry

/-- The first live entry of the name before the first entry never used. -/
def liveEntry (name : List UInt8) (entrys : List FatDirectoryEntry) :
    Option FatDirectoryEntry :=
  (entrys.takeWhile fun entry => !decide entry.Unused).find? fun entry =>
    decide (entry.LiveAs name)

/-- What the search stops at is the end, or live with no end in front of it. -/
def StopsRight (name : List UInt8) (entrys : List FatDirectoryEntry) : Prop :=
  ∀ before entry behind, entrys = before ++ entry :: behind →
    (∀ e, e ∈ before → ¬ e.Stops name) → entry.Stops name → ¬ entry.Unused →
    ¬ entry.Deleted ∧ ∀ e, e ∈ before → ¬ e.Unused

namespace FatFsNode

/-- The entries of one cluster. -/
def clusterEntrys (node : FatFsNode) (container : Nat → UInt8) (cluster : Nat) :
    List FatDirectoryEntry :=
  (List.range (node.fs.clusterSize / DIRECTORY_ENTRY_SIZE)).map
    (FatDirectoryEntry.ofBytes (window container (node.fs.clusterBase cluster)))

/-- The entries of the first `n` clusters of the chain. -/
def entrys (node : FatFsNode) (container : Nat → UInt8) (n : Nat) :
    List FatDirectoryEntry :=
  if node.fs.clustertable.isFree node.cluster ||
      node.fs.clustertable.isDefect node.cluster then []
  else
    (trail node.fs.clustertable.next n node.cluster).flatMap
      (node.clusterEntrys container)

end FatFsNode

variable {name : List UInt8} {es l r : List FatDirectoryEntry}
  {entry : FatDirectoryEntry}

/-! ## The search in a list -/

/-- The loop of `entry_by_name` over the entries of a list. -/
def scanList (name : List UInt8) : List FatDirectoryEntry → Scanned
  | [] => .exhausted
  | entry :: rest =>
      if entry.volumeLabel then scanList name rest
      else if entry.name.head? = some 0 then .abort
      else if entry.filename = name then .found entry
      else scanList name rest

def Scanned.answer : Scanned → Option FatDirectoryEntry
  | .found e => some e
  | .abort => none
  | .exhausted => none

theorem scanList_append : scanList name (l ++ r) =
    match scanList name l with
    | .exhausted => scanList name r
    | scanned => scanned := by
  induction l with
  | nil => rfl
  | cons entry l ih =>
      rw [List.cons_append, scanList, scanList, ih]
      split
      · rfl
      · split
        · rfl
        · split <;> rfl

theorem scanList_passed (h : ∀ e, e ∈ l → ¬ e.Stops name) :
    scanList name l = .exhausted := by
  induction l with
  | nil => rfl
  | cons entry l ih =>
      have hno := h entry List.mem_cons_self
      have hrest := ih fun e he => h e (List.mem_cons_of_mem _ he)
      rw [scanList, hrest]
      split
      · rfl
      · next hlabel =>
          have hlabel := Bool.eq_false_iff.2 hlabel
          have hhead : ¬ entry.name.head? = some 0 := fun hunused =>
            hno ⟨hlabel, .inl hunused⟩
          rw [if_neg hhead, if_neg fun hname => hno ⟨hlabel, .inr hname⟩]

/-- The entry at which the search stops decides. -/
theorem scanList_stops (h : ∀ e, e ∈ l → ¬ e.Stops name) (hstop : entry.Stops name) :
    (scanList name (l ++ entry :: r)).answer =
      if entry.Unused then none else some entry := by
  rw [scanList_append, scanList_passed h]
  dsimp only
  rw [scanList, if_neg (Bool.eq_false_iff.1 hstop.1)]
  by_cases hunused : entry.Unused
  · have hhead : entry.name.head? = some 0 := hunused
    rw [if_pos hunused, if_pos hhead]
    rfl
  · have hhead : ¬ entry.name.head? = some 0 := hunused
    rw [if_neg hunused, if_neg hhead, if_pos (hstop.2.resolve_left hunused)]
    rfl

theorem FatDirectoryEntry.LiveAs.stops (h : entry.LiveAs name) : entry.Stops name :=
  ⟨h.2.1, .inr h.2.2⟩

/-- There is one first stop at most. -/
theorem first_stop_unique : ∀ {l l' : List FatDirectoryEntry}
    {entry entry' : FatDirectoryEntry} {r r' : List FatDirectoryEntry},
    l ++ entry :: r = l' ++ entry' :: r' →
    (∀ e, e ∈ l → ¬ e.Stops name) → entry.Stops name →
    (∀ e, e ∈ l' → ¬ e.Stops name) → entry'.Stops name →
    l = l' ∧ entry = entry' := by
  intro l
  induction l with
  | nil =>
      intro l' entry entry' r r' heq _ hstop hpassed' _
      cases l' with
      | nil => exact ⟨rfl, (List.cons.inj heq).1⟩
      | cons e l' =>
          rw [(List.cons.inj heq).1] at hstop
          exact absurd hstop (hpassed' e List.mem_cons_self)
  | cons e l ih =>
      intro l' entry entry' r r' heq hpassed hstop hpassed' hstop'
      cases l' with
      | nil =>
          rw [← (List.cons.inj heq).1] at hstop'
          exact absurd hstop' (hpassed e List.mem_cons_self)
      | cons e' l' =>
          obtain ⟨rfl, htail⟩ := List.cons.inj heq
          obtain ⟨rfl, rfl⟩ := ih htail (fun x hx => hpassed x (List.mem_cons_of_mem _ hx))
            hstop (fun x hx => hpassed' x (List.mem_cons_of_mem _ hx)) hstop'
          exact ⟨rfl, rfl⟩

theorem exists_first_stop (name : List UInt8) (es : List FatDirectoryEntry) :
    (∀ e, e ∈ es → ¬ e.Stops name) ∨
      ∃ l entry r, es = l ++ entry :: r ∧ (∀ e, e ∈ l → ¬ e.Stops name) ∧
        entry.Stops name := by
  induction es with
  | nil => exact .inl fun _ he => (nomatch he)
  | cons e es ih =>
      by_cases hstop : e.Stops name
      · exact .inr ⟨[], e, es, rfl, fun _ he => (nomatch he), hstop⟩
      · rcases ih with hpassed | ⟨l, entry, r, rfl, hpassed, hfirst⟩
        · exact .inl (List.forall_mem_cons.2 ⟨hstop, hpassed⟩)
        · exact .inr ⟨e :: l, entry, r, rfl,
            List.forall_mem_cons.2 ⟨hstop, hpassed⟩, hfirst⟩

/-! ## The first live entry -/

theorem liveEntry_cons : liveEntry name (entry :: es) =
    if entry.Unused then none
    else if entry.LiveAs name then some entry else liveEntry name es := by
  rw [liveEntry]
  by_cases hunused : entry.Unused
  · rw [List.takeWhile_cons_of_neg (by simp [hunused]), if_pos hunused]
    rfl
  · rw [List.takeWhile_cons_of_pos (by simp [hunused]), if_neg hunused]
    by_cases hlive : entry.LiveAs name
    · rw [List.find?_cons_of_pos (by simp [hlive]), if_pos hlive]
    · rw [List.find?_cons_of_neg (by simp [hlive]), if_neg hlive]
      rfl

theorem liveAs_of_liveEntry (h : liveEntry name es = some entry) :
    entry.LiveAs name := by
  rw [liveEntry] at h
  simpa using List.find?_some h

theorem liveEntry_passed (h : ∀ e, e ∈ l → ¬ e.Stops name)
    (hused : ∀ e, e ∈ l → ¬ e.Unused) :
    liveEntry name (l ++ r) = liveEntry name r := by
  induction l with
  | nil => rfl
  | cons e l ih =>
      rw [List.cons_append, liveEntry_cons, if_neg (hused e List.mem_cons_self),
        if_neg fun hlive => h e List.mem_cons_self hlive.stops]
      exact ih (fun x hx => h x (List.mem_cons_of_mem _ hx))
        fun x hx => hused x (List.mem_cons_of_mem _ hx)

/-- An entry never used hides what is behind it. -/
theorem liveEntry_hidden (h : ∀ e, e ∈ l → ¬ e.Stops name)
    (hunused : ∃ e, e ∈ l ∧ e.Unused) : liveEntry name (l ++ r) = none := by
  induction l with
  | nil =>
      obtain ⟨_, he, _⟩ := hunused
      cases he
  | cons e l ih =>
      rw [List.cons_append, liveEntry_cons]
      split
      · rfl
      · next hused =>
          rw [if_neg fun hlive => h e List.mem_cons_self hlive.stops]
          refine ih (fun x hx => h x (List.mem_cons_of_mem _ hx)) ?_
          obtain ⟨x, hx, hend⟩ := hunused
          rcases List.mem_cons.1 hx with rfl | hx
          · exact absurd hend hused
          · exact ⟨x, hx, hend⟩

theorem liveEntry_stops_iff (h : ∀ e, e ∈ l → ¬ e.Stops name)
    (hstop : entry.Stops name) (hused : ¬ entry.Unused) :
    liveEntry name (l ++ entry :: r) = some entry ↔
      ¬ entry.Deleted ∧ ∀ e, e ∈ l → ¬ e.Unused := by
  by_cases hfront : ∀ e, e ∈ l → ¬ e.Unused
  · rw [liveEntry_passed h hfront, liveEntry_cons, if_neg hused,
      and_iff_left hfront]
    by_cases hdeleted : entry.Deleted
    · rw [if_neg fun hlive => hlive.1 hdeleted]
      exact iff_of_false (fun hfound => (liveAs_of_liveEntry hfound).1 hdeleted)
        (not_not_intro hdeleted)
    · rw [if_pos ⟨hdeleted, hstop.1, hstop.2.resolve_left hused⟩]
      exact iff_of_true rfl hdeleted
  · rw [liveEntry_hidden h (by simpa using hfront)]
    exact iff_of_false (fun hbad => by cases hbad) fun hand => hfront hand.2

/-- The search finds the first live entry exactly if it stops right. -/
theorem scanList_live_iff (name : List UInt8) (es : List FatDirectoryEntry) :
    (scanList name es).answer = liveEntry name es ↔ StopsRight name es := by
  rcases exists_first_stop name es with hpassed | ⟨l, entry, r, rfl, hpassed, hstop⟩
  · have hnone : liveEntry name es = none := by
      have hall := liveEntry_passed (r := []) hpassed
      rw [List.append_nil] at hall
      by_cases hused : ∀ e, e ∈ es → ¬ e.Unused
      · exact hall hused
      · have hhidden := liveEntry_hidden (r := []) hpassed (by simpa using hused)
        rwa [List.append_nil] at hhidden
    rw [scanList_passed hpassed, hnone]
    refine iff_of_true rfl ?_
    rintro before entry behind rfl _ hstop
    exact absurd hstop
      (hpassed entry (List.mem_append_right _ List.mem_cons_self))
  · have hright : StopsRight name (l ++ entry :: r) ↔
        (¬ entry.Unused → ¬ entry.Deleted ∧ ∀ e, e ∈ l → ¬ e.Unused) := by
      refine ⟨fun hright => hright l entry r rfl hpassed hstop, ?_⟩
      intro hcond before entry' behind heq hbefore hstop'
      obtain ⟨rfl, rfl⟩ := first_stop_unique heq hpassed hstop hbefore hstop'
      exact hcond
    rw [hright, scanList_stops hpassed hstop]
    by_cases hunused : entry.Unused
    · rw [if_pos hunused]
      refine iff_of_true ?_ fun hused => absurd hunused hused
      by_cases hused : ∀ e, e ∈ l → ¬ e.Unused
      · rw [liveEntry_passed hpassed hused, liveEntry_cons, if_pos hunused]
      · rw [liveEntry_hidden hpassed (by simpa using hused)]
    · rw [if_neg hunused, eq_comm, liveEntry_stops_iff hpassed hstop hunused]
      exact ⟨fun hcond _ => hcond, fun hcond => hcond hunused⟩

/-! ## The length of a chain -/

namespace ClusterTable

variable {t : ClusterTable}

/-- The clusters that have a predecessor: entries have 28 bits at most. -/
theorem next_mem (hadd : t.type = .fat32 → t.add = 0) {c c' : Nat}
    (h : t.next c = some c') :
    c' ∈ (Finset.range 268435456).image fun v : Nat => u32 ((v : Int) + t.add - 2) := by
  rw [next] at h
  split at h
  · next hsucc =>
      refine Finset.mem_image.2 ⟨t.value (u32 (c - t.add + 2)),
        Finset.mem_range.2 ?_, Option.some.inj h⟩
      by_cases htype : t.type = .fat32
      · have hplace : u32 ((c : Int) - t.add + 2) = u32 (c + 2) := by
          rw [hadd htype]
          simp
        simp only [hasSuccessor, isEnd, htype, «end», Bool.not_eq_true',
          Bool.or_eq_false_iff, decide_eq_false_iff_not] at hsucc
        rw [hplace]
        omega
      · have hlt := entry_lt htype (u32 ((c : Int) - t.add + 2))
        rw [value_eq_entry htype]
        omega
  · cases h

theorem trail_lt (hadd : t.type = .fat32 → t.add = 0) {n c : Nat}
    (hend : nth t.next n c = none) : (trail t.next n c).length < 4294967295 := by
  have hle : (trail t.next n c).length ≤ _ :=
    trail_length_le (fun _ _ => next_mem hadd) hend
  have hcard := Finset.card_image_le (s := Finset.range 268435456)
    (f := fun v : Nat => u32 ((v : Int) + t.add - 2))
  rw [Finset.card_range] at hcard
  omega

/-- The loop of `chain_length` counts the clusters behind the first one. -/
theorem chainLoop_eq : ∀ {n fuel c length : Nat}, nth t.next n c = none → n ≤ fuel →
    length + (trail t.next n c).length ≤ 4294967296 →
    t.chainLoop fuel c length = some (length + (trail t.next n c).length - 1) := by
  intro n
  induction n with
  | zero => intro fuel c length hend; cases hend
  | succ n ih =>
      intro fuel c length hend hfuel hfit
      obtain ⟨fuel, rfl⟩ := Nat.exists_eq_succ_of_ne_zero (by omega : fuel ≠ 0)
      rw [chainLoop_next]
      rw [trail, List.length_cons] at hfit ⊢
      cases hstep : t.next c with
      | none => rfl
      | some c' =>
          rw [hstep, Option.elim_some] at hfit
          rw [nth_step hstep] at hend
          have hpos : 0 < (trail t.next n c').length := by
            cases n with
            | zero => cases hend
            | succ n => exact Nat.succ_pos _
          have hcount : u32 ((length : Int) + 1) = length + 1 := by
            simp only [u32]
            omega
          dsimp only
          rw [Option.elim_some, hcount, ih hend (by omega) (by omega)]
          congr 1
          omega

/-- `chain_length` counts the clusters of a chain that has some. -/
theorem chainLength_eq (hadd : t.type = .fat32 → t.add = 0) {n fuel c : Nat}
    (hend : nth t.next n c = none) (hfuel : n ≤ fuel) :
    t.chainLength fuel c = some (if t.isFree c || t.isDefect c then 0
      else (trail t.next n c).length) := by
  have hlt := trail_lt hadd hend
  rw [chainLength]
  cases hbad : (t.isFree c || t.isDefect c) with
  | true =>
      have hno : t.hasSuccessor c = false := by
        rw [hasSuccessor, hbad, Bool.true_or, Bool.not_true]
      obtain ⟨fuel, rfl⟩ := Nat.exists_eq_succ_of_ne_zero (n := fuel) (by
        rintro rfl
        rw [Nat.le_zero.1 hfuel] at hend
        cases hend)
      rw [chainLoop, hno]
      rfl
  | false =>
      rw [Bool.not_false, if_pos rfl, chainLoop_eq hend hfuel (by omega),
        Nat.add_sub_cancel_left]
      rfl

end ClusterTable

/-! ## The loops search the list -/

theorem FatDirectoryEntry.ofBytes_congr {m m' : Nat → UInt8} {j : Nat}
    (h : ∀ k, k < 32 → m (32 * j + k) = m' (32 * j + k)) : ofBytes m j = ofBytes m' j := by
  have hbyte : ∀ k, k < 32 → window m (DIRECTORY_ENTRY_SIZE * j) k =
      window m' (DIRECTORY_ENTRY_SIZE * j) k := h
  have hload : ∀ w d, d + w ≤ 32 →
      load w (window m (DIRECTORY_ENTRY_SIZE * j)) d =
        load w (window m' (DIRECTORY_ENTRY_SIZE * j)) d := fun w d hd =>
    load_congr fun k _ hk => hbyte k (by omega)
  have hname : (List.range 8).map (window m (DIRECTORY_ENTRY_SIZE * j)) =
      (List.range 8).map (window m' (DIRECTORY_ENTRY_SIZE * j)) :=
    List.map_congr_left fun k hk => hbyte k (by
      have := List.mem_range.1 hk
      omega)
  have hextension :
      (List.range 3).map (window (window m (DIRECTORY_ENTRY_SIZE * j)) 8) =
        (List.range 3).map (window (window m' (DIRECTORY_ENTRY_SIZE * j)) 8) :=
    List.map_congr_left fun k hk => hbyte (8 + k) (by
      have := List.mem_range.1 hk
      omega)
  simp only [ofBytes, hname, hextension, hbyte 11 (by decide), hload 2 20 (by decide),
    hload 2 26 (by decide), hload 4 28 (by decide)]

theorem scanEntrys_eq (name : List UInt8) (m : Nat → UInt8) : ∀ turns j,
    scanEntrys name m turns j =
      scanList name ((List.range' j turns).map (FatDirectoryEntry.ofBytes m)) := by
  intro turns
  induction turns with
  | zero => intro j; rfl
  | succ turns ih =>
      intro j
      rw [scanEntrys, List.range'_succ, List.map_cons, scanList, ih]

namespace FatFsNode

variable {node : FatFsNode} {container : Nat → UInt8} {c i n : Nat}

/-- What is read of a cluster of the chain. -/
theorem readPure_cluster (hcs : 0 < node.fs.clusterSize)
    (hc : nth node.fs.clustertable.next i node.cluster = some c)
    (hi : i < 4294967296) (buffer : Nat → UInt8) :
    ∃ out, node.readPure container (i * node.fs.clusterSize) buffer
        node.fs.clusterSize = some out ∧
      ∀ k, k < node.fs.clusterSize →
        out k = container (node.fs.clusterBase c + k) := by
  have hlen := node.fs.clusterSize_lt
  obtain ⟨out, hout, hbytes⟩ := FatFs.clusterIo_read node.fs node.cluster
    (i * node.fs.clusterSize) node.fs.clusterSize (node.fs.clusterSize + 1) container
    buffer hcs (by rwa [Nat.mul_div_cancel i hcs]) (by omega) (Nat.lt_succ_self _)
  refine ⟨out, ?_, fun k hk => ?_⟩
  · rw [readPure, hout, Option.map_some]
  · rw [hbytes, if_pos hk, FatFs.fileByte, FatFs.fileAddress_of_nth hcs hc,
      FatFs.fileAddress_of_lt hk, Option.map_some, Option.getD_some]

/-- One turn of the loop over the clusters. -/
theorem scan_cluster {out : Nat → UInt8}
    (hout : ∀ k, k < node.fs.clusterSize →
      out k = container (node.fs.clusterBase c + k)) :
    scanEntrys name out (node.fs.clusterSize / DIRECTORY_ENTRY_SIZE) 0 =
      scanList name (node.clusterEntrys container c) := by
  rw [scanEntrys_eq, clusterEntrys, ← List.range_eq_range']
  congr 1
  refine List.map_congr_left fun j hj => FatDirectoryEntry.ofBytes_congr fun k hk => ?_
  have hj : j < node.fs.clusterSize / 32 := List.mem_range.1 hj
  exact hout _ (by omega)

/-- The loop over the clusters, from cluster `i` of the chain on. -/
theorem searchClusters_eq (hcs : 0 < node.fs.clusterSize) (name : List UInt8) :
    ∀ {n i c : Nat} {buffer : Nat → UInt8},
      nth node.fs.clustertable.next i node.cluster = some c →
      nth node.fs.clustertable.next n c = none →
      i + (trail node.fs.clustertable.next n c).length ≤ 4294967296 →
      node.searchClusters container name
          (trail node.fs.clustertable.next n c).length (i * node.fs.clusterSize)
          buffer =
        some (scanList name ((trail node.fs.clustertable.next n c).flatMap
          (node.clusterEntrys container))).answer := by
  intro n
  induction n with
  | zero => intro i c _ _ hend; cases hend
  | succ n ih =>
      intro i c buffer hc hend hfit
      rw [trail, List.length_cons] at hfit ⊢
      obtain ⟨out, hout, hbytes⟩ := readPure_cluster hcs hc
        (by omega : i < 4294967296) buffer
      have hlen := node.fs.clusterSize_lt
      have hnext : u64 (i * node.fs.clusterSize + node.fs.clusterSize : Nat) =
          (i + 1) * node.fs.clusterSize := by
        have hmul : i * node.fs.clusterSize ≤ 4294967296 * 16777216 :=
          Nat.mul_le_mul (by omega) (by omega)
        rw [Nat.succ_mul, u64]
        omega
      rw [searchClusters, hout, List.flatMap_cons, scanList_append]
      simp only [scan_cluster hbytes, hnext]
      cases scanList name (node.clusterEntrys container c) with
      | found entry => rfl
      | abort => rfl
      | exhausted =>
          cases hstep : node.fs.clustertable.next c with
          | none => rfl
          | some c' =>
              rw [hstep, Option.elim_some] at hfit
              rw [nth_step hstep] at hend
              rw [Option.elim_some]
              refine ih ?_ hend (by omega)
              rw [nth_succ, hc, Option.bind_some, hstep]

/-- A lookup is the search in the list of entries. -/
theorem entryByName_eq (hdir : node.isDirectory = true)
    (hcs : 0 < node.fs.clusterSize)
    (hadd : node.fs.clustertable.type = .fat32 → node.fs.clustertable.add = 0)
    (hend : nth node.fs.clustertable.next n node.cluster = none) {fuel : Nat}
    (hfuel : n ≤ fuel) (container : Nat → UInt8) (name : List UInt8) :
    node.entryByName container name fuel =
      some (scanList name (node.entrys container n)).answer := by
  rw [entryByName, hdir, ClusterTable.chainLength_eq hadd hend hfuel, entrys]
  cases node.fs.clustertable.isFree node.cluster ||
      node.fs.clustertable.isDefect node.cluster with
  | true => rfl
  | false =>
      have hlt := ClusterTable.trail_lt hadd hend
      have hsearch : node.searchClusters container name
          (trail node.fs.clustertable.next n node.cluster).length
          (0 * node.fs.clusterSize) (fun _ => 0) = _ :=
        searchClusters_eq hcs name rfl hend (by omega)
      rw [Nat.zero_mul] at hsearch
      exact hsearch

/-- In a directory whose chain ends, a lookup answers with the first live entry
of the name exactly if the search stops right. -/
theorem entryByName_live_iff (hdir : node.isDirectory = true)
    (hcs : 0 < node.fs.clusterSize)
    (hadd : node.fs.clustertable.type = .fat32 → node.fs.clustertable.add = 0)
    (hend : nth node.fs.clustertable.next n node.cluster = none) {fuel : Nat}
    (hfuel : n ≤ fuel) (container : Nat → UInt8) (name : List UInt8) :
    ∃ answer, node.entryByName container name fuel = some answer ∧
      (answer = liveEntry name (node.entrys container n) ↔
        StopsRight name (node.entrys container n)) :=
  ⟨_, entryByName_eq hdir hcs hadd hend hfuel container name,
    scanList_live_iff name _⟩

/-- Two clusters of one entry: "a" and the end. -/
theorem smallDirectory_live :
    ∃ answer, (smallDirectory FatFs.twoClusters.clustertable).entryByName
        (fun a => if a = 64 then 97 else if a < 96 then 32 else 0) [97] 2 =
          some answer ∧
      (answer = liveEntry [97] ((smallDirectory
          FatFs.twoClusters.clustertable).entrys
            (fun a => if a = 64 then 97 else if a < 96 then 32 else 0) 2) ↔
        StopsRight [97] ((smallDirectory FatFs.twoClusters.clustertable).entrys
          (fun a => if a = 64 then 97 else if a < 96 then 32 else 0) 2)) :=
  entryByName_live_iff rfl (by decide) (by decide) (by decide) (Nat.le_refl 2) _ _

/-- The same directory with its first entry deleted. -/
theorem smallDirectory_deleted :
    ((smallDirectory FatFs.twoClusters.clustertable).entryByName
        (fun a => if a = 64 then 0xE5 else if a < 96 then 32 else 0) [0xE5] 2).map
          Option.isSome = some true ∧
      (liveEntry [0xE5] ((smallDirectory FatFs.twoClusters.clustertable).entrys
        (fun a => if a = 64 then 0xE5 else if a < 96 then 32 else 0) 2)).isSome =
          false := by
  decide +kernel

end FatFsNode

end Iposix.Fs
