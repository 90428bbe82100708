import Iposix.Proofs.CopyIn

/-!
# Copies byte by byte

`copy_in` and `copy_out` move the rest of a page, whole pages and what is left.
Put together the moves are the copy of one byte after the other, and a copy
stops at a page that is not mapped; but the loop over whole pages also stops
when it has copied the last page of the address space, which the other two
moves may end in.

The page tables are memory like any other. A copy through them is translated
by what it has written itself, so the frames it writes must hold none of the
entries it is translated by. Above the window no process maps such frames.
-/

namespace Iposix.Vm

open Iposix.Lib

/-- The bytes of the entries an address is translated by. -/
def EntryByte (m : Nat → UInt8) (ptable v b : Nat) : Prop :=
  (∃ k, k < 4 ∧ b = ptable + 4 * dir v + k) ∨
    ((readEntry m (ptable + 4 * dir v)).presence = true ∧
      (readEntry m (ptable + 4 * dir v)).pageSize = false ∧
      ∃ k, k < 4 ∧
        b = (readEntry m (ptable + 4 * dir v)).address + 4 * page v + k)

/-- No address of the range leads to an entry that one of them is translated
by. -/
def EntriesApart (m : Nat → UInt8) (ptable v size : Nat) : Prop :=
  ∀ i j b, i < size → j < size → translate m ptable (v + i) = some b →
    ¬ EntryByte m ptable (v + j) b

/-- Different pages of the range lead to different frames. -/
def FramesApart (m : Nat → UInt8) (ptable v size : Nat) : Prop :=
  ∀ i j a b, i < size → j < size → translate m ptable (v + i) = some a →
    translate m ptable (v + j) = some b → a / 4096 = b / 4096 →
    (v + i) / 4096 = (v + j) / 4096

variable {M M₀ : Machine} {dm ptable q : Nat} {dirs : List Nat}
  {v size pos : Nat}

theorem translate_entryByte {m m' : Nat → UInt8}
    (h : ∀ b, EntryByte m ptable v b → m' b = m b) :
    translate m' ptable v = translate m ptable v := by
  have hword : ∀ a, (∀ k, k < 4 → EntryByte m ptable v (a + k)) →
      readEntry m' a = readEntry m a := fun a ha => by
    rw [readEntry, readEntry]
    refine congrArg _ (load_congr fun b h₁ h₂ => ?_)
    have hb := ha (b - a) (by omega)
    rw [Nat.add_sub_cancel' h₁] at hb
    exact h b hb
  have hdir := hword (ptable + 4 * dir v) fun k hk => .inl ⟨k, hk, rfl⟩
  rw [translate, translate, pteAt, pteAt, hdir]
  dsimp only
  cases hpres : (readEntry m (ptable + 4 * dir v)).presence with
  | false => rfl
  | true =>
      cases hsize : (readEntry m (ptable + 4 * dir v)).pageSize with
      | true => rfl
      | false =>
          rw [hword _ fun k hk => .inr ⟨hpres, hsize, k, hk, rfl⟩]

/-- What changes only bytes behind the range leaves its translation alone. -/
theorem OnlyBehind.translate_eq (h : OnlyBehind M₀ M ptable v pos)
    (happart : EntriesApart M₀.mem ptable v size) (hle : pos ≤ size) {i : Nat}
    (hi : i < size) :
    translate M.mem ptable (v + i) = translate M₀.mem ptable (v + i) := by
  refine translate_entryByte fun b hb => h b fun w h₁ h₂ hw => ?_
  have hw' : v + (w - v) = w := Nat.add_sub_cancel' h₁
  exact happart (w - v) i b (by omega) hi (hw'.symm ▸ hw) hb

/-- Different addresses of the range lead to different bytes. -/
theorem FramesApart.inj {m : Nat → UInt8} (h : FramesApart m ptable v size)
    {i j b : Nat} (hi : i < size) (hj : j < size)
    (hib : translate m ptable (v + i) = some b)
    (hjb : translate m ptable (v + j) = some b) : i = j := by
  have hpage := h i j b b hi hj hib hjb rfl
  have hle : ∀ {i j : Nat}, (v + i) / 4096 = (v + j) / 4096 →
      translate m ptable (v + i) = some b →
      translate m ptable (v + j) = some b → i ≤ j → i = j := by
    intro i j hpage hib hjb hij
    have hsum : v + i + (j - i) = v + j := by omega
    have hadd := translate_add (j := j - i) hib (by rw [offset]; omega)
    rw [hsum, hjb] at hadd
    have heq := Option.some.inj hadd
    omega
  rcases Nat.le_total i j with hij | hji
  · exact hle hpage hib hjb hij
  · exact (hle hpage.symm hjb hib hji).symm

/-! ## Both ways -/

section Reached

variable {copyout : Bool} {buffer : Nat → UInt8} {t : Transfer} {n : Nat}

/-- A copy to or from `v` has got as far as `t`. -/
structure Reached (M : Machine) (ptable : Nat) (copyout : Bool) (v : Nat)
    (t : Transfer) : Prop where
  below : v + t.position ≤ 4294967296
  mapped : ∀ k, k < t.position → getPhysAddress M.mem ptable (v + k) ≠ 0
  behind : OnlyBehind M t.machine ptable v t.position
  still : copyout = true → t.machine = M

theorem Reached.start (M : Machine) (ptable : Nat) (copyout : Bool)
    (buffer : Nat → UInt8) (hv : v ≤ 4294967296) :
    Reached M ptable copyout v ⟨M, buffer, 0⟩ :=
  ⟨hv, fun k hk => absurd hk (Nat.not_lt_zero k), fun _ _ => rfl, fun _ => rfl⟩

/-- The range is still translated as it was. -/
theorem Reached.translate_eq (h : Reached M ptable copyout v t)
    (happart : copyout = true ∨ EntriesApart M.mem ptable v size)
    (hle : t.position ≤ size) {i : Nat} (hi : i < size) :
    translate t.machine.mem ptable (v + i) = translate M.mem ptable (v + i) := by
  rcases happart with hout | happart
  · rw [h.still hout]
  · exact h.behind.translate_eq happart hle hi

/-- A move goes where the bytes were mapped from the start. -/
theorem Reached.here (h : Reached M ptable copyout v t)
    (happart : copyout = true ∨ EntriesApart M.mem ptable v size)
    (hphys : getPhysAddress t.machine.mem ptable (v + t.position) ≠ 0)
    (hn : 0 < n) (hoffset : offset (v + t.position) + n ≤ 4096)
    (hle : t.position + n ≤ size) {j : Nat} (hj : j < n) :
    translate M.mem ptable (v + t.position + j) =
      some (getPhysAddress t.machine.mem ptable (v + t.position) + j) := by
  have hsame := h.translate_eq happart (by omega) (by omega : t.position < size)
  rw [getPhysAddress_eq, hsame] at hphys ⊢
  cases ha : translate M.mem ptable (v + t.position) with
  | none =>
      rw [ha] at hphys
      exact absurd rfl hphys
  | some a => exact translate_add ha (by omega)

theorem Reached.move
    (happart : copyout = true ∨ EntriesApart M.mem ptable v size) :
    TransferRule ptable copyout v size (Reached M ptable copyout v) := by
  intro t n h hphys hlt hn hoffset hle
  have hhere : ∀ j, j < n → _ := fun j hj =>
    h.here happart hphys hn hoffset hle hj
  have hbelow : v + (t.position + n) ≤ 4294967296 := by
    rw [offset] at hoffset
    omega
  have hpos := t.move_position copyout (v + t.position)
    (getPhysAddress t.machine.mem ptable (v + t.position)) n
  refine ⟨hpos ▸ hbelow, fun k hk => ?_, ?_, fun hout => ?_⟩
  · rw [hpos] at hk
    rcases Nat.lt_or_ge k t.position with hk' | hge
    · exact h.mapped k hk'
    · have hsum : v + t.position + (k - t.position) = v + k := by omega
      have hk' := hhere (k - t.position) (by omega)
      rw [hsum] at hk'
      rw [getPhysAddress_eq, hk', Option.getD_some]
      omega
  · rw [hpos]
    cases copyout with
    | true =>
        intro b hb
        exact h.behind b fun w h₁ h₂ => hb w h₁ (by omega)
    | false => exact h.behind.move hhere
  · subst hout
    exact h.still rfl

theorem Reached.arrived (hdistinct : FramesApart M.mem ptable v size)
    (happart : EntriesApart M.mem ptable v size) :
    TransferRule ptable false v size fun t => Reached M ptable false v t ∧
      t.buffer = buffer ∧ Arrived M t.machine ptable buffer v t.position := by
  rintro ⟨M', _, pos⟩ n ⟨h, rfl, hbytes⟩ hphys hlt hn hoffset hle
  have hhere : ∀ j, j < n → _ := fun j hj =>
    h.here (.inr happart) hphys hn hoffset hle hj
  refine ⟨Reached.move (.inr happart) _ n h hphys hlt hn hoffset hle, rfl,
    hbytes.move hhere fun k j hk hj hkj => ?_⟩
  have hj' := hhere j hj
  rw [Nat.add_assoc] at hj'
  have heq := hdistinct.inj (by omega) (by omega) hkj hj'
  omega

theorem Reached.fetched :
    TransferRule ptable true v size fun t => Reached M ptable true v t ∧
      ∀ k, t.buffer k =
        if k < t.position then M.mem (getPhysAddress M.mem ptable (v + k))
        else buffer k := by
  intro t n ⟨h, hbuffer⟩ hphys hlt hn hoffset hle
  have hhere : ∀ j, j < n → _ := fun j hj =>
    h.here (.inl rfl) hphys hn hoffset hle hj
  refine ⟨Reached.move (.inl rfl) t n h hphys hlt hn hoffset hle, fun k => ?_⟩
  rw [t.move_position]
  show splice t.buffer t.position n (window t.machine.mem _) k = _
  rw [h.still rfl] at hhere ⊢
  by_cases hk : t.position ≤ k ∧ k < t.position + n
  · have hk' := hhere (k - t.position) (by omega)
    rw [Nat.add_assoc, Nat.add_sub_cancel' hk.1] at hk'
    rw [splice_mem hk.1 hk.2, window_apply, if_pos hk.2,
      getPhysAddress_eq _ _ (v + k), hk', Option.getD_some]
  · rw [splice, if_neg hk, hbuffer k]
    by_cases hlt : k < t.position
    · rw [if_pos hlt, if_pos (by omega)]
    · rw [if_neg hlt, if_neg (by omega)]

/-- The copy as a whole: how far it gets, and why it ends there. -/
theorem copyIn_reached (buffer : Nat → UInt8) {I : Transfer → Prop}
    (happart : copyout = true ∨ EntriesApart M.mem ptable v size)
    (h₀ : v ≠ 0) (hlt : v < 4294967296)
    (hmove : TransferRule ptable copyout v size fun t =>
      Reached M ptable copyout v t ∧ I t) (hI : I ⟨M, buffer, 0⟩) :
    ∃ done t, copyIn M ptable v (some buffer) size copyout =
        (done, t.machine, some t.buffer) ∧ t.position ≤ size ∧
      (Reached M ptable copyout v t ∧ I t) ∧
      Stopped M.mem ptable v size done t.position := by
  obtain ⟨done, t, heq, hle, ⟨hreach, hI'⟩, hstop⟩ := copyIn_transfer hmove
    ⟨Reached.start M ptable copyout buffer (Nat.le_of_lt hlt), hI⟩ h₀ hlt
  refine ⟨done, t, heq, hle, ⟨hreach, hI'⟩, ?_⟩
  cases hstop with
  | done h => exact .done h
  | unmapped hlt' h =>
      refine .unmapped hlt' ?_
      rw [getPhysAddress_eq, hreach.translate_eq happart hle hlt',
        ← getPhysAddress_eq] at h
      exact h
  | top h h' => exact .top h h'

/-- A copy that has succeeded. -/
theorem copyIn_true {I : Transfer → Prop}
    (happart : copyout = true ∨ EntriesApart M.mem ptable v size)
    (hlt : v < 4294967296)
    (hmove : TransferRule ptable copyout v size fun t =>
      Reached M ptable copyout v t ∧ I t) (hI : I ⟨M, buffer, 0⟩)
    (hdone : (copyIn M ptable v (some buffer) size copyout).1 = true) :
    ∃ t, copyIn M ptable v (some buffer) size copyout =
        (true, t.machine, some t.buffer) ∧ t.position = size ∧
      Reached M ptable copyout v t ∧ I t := by
  rcases Nat.eq_zero_or_pos size with rfl | hsize
  · exact ⟨⟨M, buffer, 0⟩, rfl, rfl, Reached.start M ptable copyout buffer
      (Nat.le_of_lt hlt), hI⟩
  have h₀ : v ≠ 0 := by
    rintro rfl
    rw [copyIn, if_neg (Nat.ne_of_gt hsize)] at hdone
    cases hdone
  obtain ⟨done, t, heq, _, hreach, hstop⟩ :=
    copyIn_reached buffer happart h₀ hlt hmove hI
  rw [heq] at hdone
  obtain rfl : done = true := hdone
  generalize hpos : t.position = pos at hstop
  cases hstop
  exact ⟨t, heq, hpos, hreach⟩

end Reached

/-! ## When a copy fails -/

/-- A copy fails at an address that leads nowhere, and when it has copied the
last page of the address space as a whole or is to go on behind it. -/
theorem copyIn_false_iff {copyout : Bool} (buffer : Nat → UInt8) (h₀ : v ≠ 0)
    (hend : v + size ≤ 4294967296)
    (happart : copyout = true ∨ EntriesApart M.mem ptable v size) :
    (copyIn M ptable v (some buffer) size copyout).1 = false ↔
      (∃ i, i < size ∧ getPhysAddress M.mem ptable (v + i) = 0) ∨
        v + size = 4294967296 ∧ 4096 ≤ size := by
  rcases Nat.eq_zero_or_pos size with rfl | hsize
  · have hdone : (copyIn M ptable v (some buffer) 0 copyout).1 = true := rfl
    rw [hdone]
    refine ⟨fun h => (nomatch h), ?_⟩
    rintro (⟨i, hi, _⟩ | ⟨_, hle⟩) <;> omega
  obtain ⟨done, t, heq, hle, ⟨hreach, _⟩, hstop⟩ :=
    copyIn_reached buffer (I := fun _ => True) happart h₀ (by omega)
      (fun t n h hphys hlt hn hoffset hle =>
        ⟨Reached.move happart t n h.1 hphys hlt hn hoffset hle, trivial⟩)
      trivial
  rw [heq]
  have hmapped := hreach.mapped
  generalize hpos : t.position = pos at hstop hle hmapped
  cases hstop with
  | done h =>
      refine ⟨fun h => (nomatch h), ?_⟩
      rintro (⟨i, hi, hnone⟩ | ⟨_, hbig⟩)
      · exact absurd hnone (hmapped i hi)
      · omega
  | unmapped hlt h => exact iff_of_true rfl (.inl ⟨_, hlt, h⟩)
  | top h h' => exact iff_of_true rfl (.inr (by omega))

/-- A copy that ends with the address space fails if it copies a whole page
there, mapped as that may be, and no other copy fails without a reason. -/
theorem copy_fails_unmapped_iff {copyout : Bool} (buffer : Nat → UInt8)
    (h₀ : v ≠ 0) (hend : v + size ≤ 4294967296)
    (happart : copyout = true ∨ EntriesApart M.mem ptable v size) :
    ((copyIn M ptable v (some buffer) size copyout).1 = false →
      ∃ i, i < size ∧ translate M.mem ptable (v + i) = none) ↔
    (∃ i, i < size ∧ translate M.mem ptable (v + i) = none) ∨
      (∀ i, i < size → translate M.mem ptable (v + i) ≠ some 0) ∧
        ¬ (v + size = 4294967296 ∧ 4096 ≤ size) := by
  rw [copyIn_false_iff buffer h₀ hend happart]
  constructor
  · intro h
    by_cases hnone : ∃ i, i < size ∧ translate M.mem ptable (v + i) = none
    · exact .inl hnone
    · refine .inr ⟨fun i hi hzero => hnone (h (.inl ⟨i, hi, ?_⟩)),
        fun htop => hnone (h (.inr htop))⟩
      rw [getPhysAddress_eq, hzero, Option.getD_some]
  · rintro (hnone | ⟨hzero, htop⟩) hfail
    · exact hnone
    · obtain ⟨i, hi, hphys⟩ := hfail.resolve_right htop
      refine ⟨i, hi, ?_⟩
      rw [getPhysAddress_eq] at hphys
      cases ha : translate M.mem ptable (v + i) with
      | none => rfl
      | some a =>
          rw [ha, Option.getD_some] at hphys
          exact absurd (ha.trans (congrArg some hphys)) (hzero i hi)

/-- The page the stack begins in is mapped, and copied neither to nor from. -/
theorem copy_last_page_fails :
    (copyIn forkMachine 8192 0xFFFFF000 (some fun _ => 1) 4096 false).1 =
        false ∧
      (copyIn forkMachine 8192 0xFFFFF000 (some fun _ => 1) 4096 true).1 =
        false ∧
      ¬ ∃ i, i < 4096 ∧
        translate forkMachine.mem 8192 (0xFFFFF000 + i) = none := by
  refine ⟨by decide +kernel, by decide +kernel, ?_⟩
  rintro ⟨i, hi, hnone⟩
  have hfirst : translate forkMachine.mem 8192 0xFFFFF000 = some 20480 := by
    decide +kernel
  rw [translate_add hfirst (by rw [offset]; omega)] at hnone
  cases hnone

/-! ## What a copy does -/

/-- `buffer` has been copied behind `v`, byte by byte. -/
structure CopiedIn (M M' : Machine) (ptable v size : Nat)
    (buffer : Nat → UInt8) : Prop where
  bytes : ∀ i, i < size →
    ∃ b, translate M.mem ptable (v + i) = some b ∧ M'.mem b = buffer i
  others : ∀ b, (∀ i, i < size → translate M.mem ptable (v + i) ≠ some b) →
    M'.mem b = M.mem b
  translation : ∀ i, i < size →
    translate M'.mem ptable (v + i) = translate M.mem ptable (v + i)

/-- What is behind `v` has been copied to the front of a buffer. -/
structure CopiedOut (M : Machine) (ptable v size : Nat)
    (buffer buffer' : Nat → UInt8) : Prop where
  bytes : ∀ i, i < size →
    ∃ b, translate M.mem ptable (v + i) = some b ∧ buffer' i = M.mem b
  others : ∀ i, size ≤ i → buffer' i = buffer i

theorem copyIn_bytes {buffer : Nat → UInt8} (hlt : v < 4294967296)
    (hdistinct : FramesApart M.mem ptable v size)
    (happart : EntriesApart M.mem ptable v size)
    (hdone : (copyIn M ptable v (some buffer) size false).1 = true) :
    ∃ M', copyIn M ptable v (some buffer) size false = (true, M', some buffer) ∧
      CopiedIn M M' ptable v size buffer := by
  obtain ⟨⟨M', _, pos⟩, heq, rfl, hreach, rfl, hbytes⟩ :=
    copyIn_true (.inr happart) hlt (Reached.arrived hdistinct happart)
      ⟨rfl, fun k hk => absurd hk (Nat.not_lt_zero k)⟩ hdone
  refine ⟨M', heq, hbytes, fun b hb => hreach.behind b fun w h₁ h₂ => ?_,
    fun i hi => hreach.translate_eq (.inr happart) (Nat.le_refl _) hi⟩
  dsimp only at h₂
  have hw := hb (w - v) (by dsimp only; omega)
  rwa [Nat.add_sub_cancel' h₁] at hw

theorem copyOut_bytes {buffer : Nat → UInt8} (hlt : v < 4294967296)
    (hdone : (copyIn M ptable v (some buffer) size true).1 = true) :
    ∃ buffer', copyIn M ptable v (some buffer) size true =
        (true, M, some buffer') ∧ CopiedOut M ptable v size buffer buffer' := by
  obtain ⟨⟨M', buffer', pos⟩, heq, rfl, hreach, hbuffer⟩ :=
    copyIn_true (.inl rfl) hlt Reached.fetched
      (fun k => (if_neg (Nat.not_lt_zero k)).symm) hdone
  obtain rfl : M' = M := hreach.still rfl
  refine ⟨buffer', heq, fun i hi => ?_, fun i hi => ?_⟩
  · have hmapped := hreach.mapped i hi
    have hbyte : buffer' i = _ := hbuffer i
    rw [if_pos hi] at hbyte
    rw [getPhysAddress_eq] at hmapped hbyte
    cases ha : translate M'.mem ptable (v + i) with
    | none =>
        rw [ha] at hmapped
        exact absurd rfl hmapped
    | some a =>
        rw [ha] at hbyte
        exact ⟨a, rfl, hbyte⟩
  · have hbyte : buffer' i = _ := hbuffer i
    rwa [if_neg (Nat.not_lt.2 hi)] at hbyte

/-- What was copied in comes out again. -/
theorem CopiedOut.front {M' : Machine} {buffer array array' : Nat → UInt8}
    (hin : CopiedIn M M' ptable v size buffer)
    (hout : CopiedOut M' ptable v size array array') :
    array' = splice array 0 size buffer := by
  funext i
  rcases Nat.lt_or_ge i size with hi | hi
  · obtain ⟨b, hb, hbyte⟩ := hout.bytes i hi
    obtain ⟨b', hb', hbyte'⟩ := hin.bytes i hi
    rw [hin.translation i hi, hb'] at hb
    cases hb
    rw [hbyte, hbyte', splice_mem (Nat.zero_le i) (by omega), Nat.sub_zero]
  · rw [hout.others i hi, splice_ge (by omega)]

/-- Where the frames of the range are apart from each other and hold none of
the entries it is translated by, copies are the copies of their bytes, and
there and back is the identity. -/
theorem copy_bytewise (buffer : Nat → UInt8) (hlt : v < 4294967296)
    (hdistinct : FramesApart M.mem ptable v size)
    (happart : EntriesApart M.mem ptable v size) :
    ((copyIn M ptable v (some buffer) size false).1 = true →
      ∃ M', copyIn M ptable v (some buffer) size false =
          (true, M', some buffer) ∧ CopiedIn M M' ptable v size buffer ∧
        ∀ array, (copyIn M' ptable v (some array) size true).1 = true →
          copyIn M' ptable v (some array) size true =
            (true, M', some (splice array 0 size buffer))) ∧
    ((copyIn M ptable v (some buffer) size true).1 = true →
      ∃ buffer', copyIn M ptable v (some buffer) size true =
          (true, M, some buffer') ∧
        CopiedOut M ptable v size buffer buffer') := by
  refine ⟨fun hdone => ?_, copyOut_bytes hlt⟩
  obtain ⟨M', heq, hin⟩ := copyIn_bytes hlt hdistinct happart hdone
  refine ⟨M', heq, hin, fun array hdone' => ?_⟩
  obtain ⟨array', heq', hout⟩ := copyOut_bytes hlt hdone'
  rw [heq', hout.front hin]

/-! ## Above the window -/

theorem Spaces.entriesApart (h : Spaces M dm dirs) (hq : q ∈ dirs)
    (hv : 32 ≤ dir v) (hend : v + size ≤ 4294967296) :
    EntriesApart M.mem q v size := by
  have habove : ∀ i, i < size → 32 ≤ dir (v + i) := fun i hi =>
    dir_le hv (Nat.le_add_right v i) (by omega)
  rintro i j b hi hj hb (⟨k, hk, rfl⟩ | ⟨hpres, _, k, hk, rfl⟩)
  · have hdir := dir_lt (v + j)
    rw [Nat.add_assoc] at hb
    exact h.kernel_apart hq (h.window.kernel q (List.mem_cons_of_mem dm hq))
      (by omega) (habove i hi) hb rfl
  · have hpage := page_lt (v + j)
    rw [Nat.add_assoc] at hb
    exact h.kernel_apart hq (h.tables q hq _ (habove j hj) (dir_lt _) hpres)
      (by omega) (habove i hi) hb rfl

theorem Owned.framesApart (h : Owned M dm dirs) (hq : q ∈ dirs)
    (hv : 32 ≤ dir v) (hend : v + size ≤ 4294967296) :
    FramesApart M.mem q v size := by
  intro i j a b hi hj ha hb hframe
  exact h.page_inj hq (dir_le hv (Nat.le_add_right v i) (by omega))
    (dir_le hv (Nat.le_add_right v j) (by omega)) (by omega) (by omega) ha hb
    hframe

/-- Three pages have been given to the child. -/
def threePages : Machine :=
  (vmalloc counting forkMachine 12288 12288 0x8000000).2

theorem threePages_owned : Owned threePages 4096 [8192, 12288] := by
  have hnull : Event.alloc true 0 ∉
      (vmalloc counting forkMachine 12288 12288 0x8000000).2.log := by
    decide +kernel
  obtain ⟨hext, hserved⟩ := vmalloc_spec counting_fresh forkMachine_spaces
    (by decide) 12288 0x8000000 (.of_notMem hnull)
  exact forkMachine_owned.served hext hserved

/-- From the middle of the first page to the middle of the third. -/
theorem copy_bytewise_threePages :
    (∃ M', copyIn threePages 12288 0x8000800 (some fun k => UInt8.ofNat k) 9000
          false = (true, M', some fun k => UInt8.ofNat k) ∧
        CopiedIn threePages M' 12288 0x8000800 9000 (fun k => UInt8.ofNat k) ∧
        ∀ array,
          (copyIn M' 12288 0x8000800 (some array) 9000 true).1 = true →
          copyIn M' 12288 0x8000800 (some array) 9000 true =
            (true, M', some (splice array 0 9000 fun k => UInt8.ofNat k))) ∧
    ∃ buffer', copyIn threePages 12288 0x8000800
          (some fun k => UInt8.ofNat k) 9000 true =
        (true, threePages, some buffer') ∧
      CopiedOut threePages 12288 0x8000800 9000 (fun k => UInt8.ofNat k)
        buffer' := by
  have hframes : FramesApart threePages.mem 12288 0x8000800 9000 :=
    threePages_owned.framesApart (by decide) (by decide) (by decide)
  have hentries : EntriesApart threePages.mem 12288 0x8000800 9000 :=
    threePages_owned.spaces.entriesApart (by decide) (by decide) (by decide)
  obtain ⟨hin, hout⟩ := copy_bytewise (fun k => UInt8.ofNat k) (by decide)
    hframes hentries
  exact ⟨hin (by decide +kernel), hout (by decide +kernel)⟩

/-- There every copy to the first half of the last page succeeds. -/
theorem copy_fails_unmapped_forkMachine :
    ((copyIn forkMachine 8192 0xFFFFF000 (some fun _ => 1) 2048 false).1 =
        false →
      ∃ i, i < 2048 ∧
        translate forkMachine.mem 8192 (0xFFFFF000 + i) = none) ↔
    (∃ i, i < 2048 ∧
        translate forkMachine.mem 8192 (0xFFFFF000 + i) = none) ∨
      (∀ i, i < 2048 →
        translate forkMachine.mem 8192 (0xFFFFF000 + i) ≠ some 0) ∧
        ¬ (0xFFFFF000 + 2048 = 4294967296 ∧ 4096 ≤ 2048) :=
  copy_fails_unmapped_iff (fun _ => 1) (by decide) (by decide)
    (.inr (forkMachine_spaces.entriesApart (by decide) (by decide) (by decide)))

/-- The first word is a directory entry for 4 MiB at 4 MiB. -/
def overEntry (k : Nat) : UInt8 :=
  if k = 0 then 139 else if k = 1 then 3 else if k = 2 then 64
  else if k = 3 then 0 else 1

/-- Through the window a copy reaches the directory it is translated by, and
goes on by what it has written there: neither where the range led before nor
where it leads now is all of the buffer. -/
theorem copy_over_own_directory :
    FramesApart forkMachine.mem 8192 8192 8192 ∧
      (copyIn forkMachine 8192 8192 (some overEntry) 8192 false).1 = true ∧
      (¬ ∀ i, i < 8192 →
        (copyIn forkMachine 8192 8192 (some overEntry) 8192 false).2.1.mem
          (getPhysAddress forkMachine.mem 8192 (8192 + i)) = overEntry i) ∧
      ¬ ∀ i, i < 8192 →
        (copyIn forkMachine 8192 8192 (some overEntry) 8192 false).2.1.mem
          (getPhysAddress
            (copyIn forkMachine 8192 8192 (some overEntry) 8192 false).2.1.mem
            8192 (8192 + i)) = overEntry i := by
  refine ⟨fun i j a b hi hj ha hb hframe => ?_, by decide +kernel,
    fun h => absurd (h 4096 (by decide)) (by decide +kernel),
    fun h => absurd (h 0 (by decide)) (by decide +kernel)⟩
  have hself : ∀ k c, k < 8192 →
      translate forkMachine.mem 8192 (8192 + k) = some c → c = 8192 + k := by
    intro k c hk hc
    have hphys : getPhysAddress forkMachine.mem 8192 (8192 + k) = 8192 + k :=
      getPhysAddress_of_window (by omega)
        (forkMachine_window.window 8192 (by decide) _ (by rw [dir]; omega))
    rwa [getPhysAddress_eq, hc, Option.getD_some] at hphys
  rw [hself i a hi ha, hself j b hj hb] at hframe
  exact hframe

end Iposix.Vm
