import Iposix.Proofs.BlockRefine

/-!
# What a failing write does to the disk

`Fallible` is the contract of a driver each of whose transfers may fail: it then
answers `-1` and leaves the disk alone. What it does not promise is anything
about a buffer that could not be read into.

Head and tail of a write read their block, change it and write it back, and do
the last also when the first has failed. The block then gets what `tmp` happened
to hold around the bytes of the request. So a write damages something else
exactly if a `write_block` succeeds right behind a `read_block` that failed, and
the disk held something else there. After any failure nothing further is
written, and the answer is `-1`.

To be able to say so, `noting` keeps notes of what the driver answered.
-/

namespace Iposix.Devices.BlockDevice

open Iposix.Lib

variable {σ : Type*}

/-- A driver whose transfers may fail. -/
structure Fallible (d : BlockDevice σ) (disk : σ → Bytes) (blocks : Nat) :
    Prop where
  blockSize_pos : 0 < d.blockSize
  blockSize_lt : d.blockSize < 4294967296
  size_lt : blocks * d.blockSize < 18446744073709551616
  read_disk : ∀ dev base buf n,
    disk (d.readBlock dev base buf n).2.2 = disk dev
  read : ∀ dev base buf n, 1 ≤ n →
    (d.readBlock dev base buf n).1 = -1 ∨
      ∃ t : Nat, 1 ≤ t ∧ t ≤ n ∧ base + t ≤ blocks ∧
        (d.readBlock dev base buf n).1 = t ∧
        (d.readBlock dev base buf n).2.1 =
          splice buf 0 (t * d.blockSize) (window (disk dev) (base * d.blockSize))
  write : ∀ dev base buf n, 1 ≤ n →
    ((d.writeBlock dev base buf n).1 = -1 ∧
        disk (d.writeBlock dev base buf n).2 = disk dev) ∨
      ∃ t : Nat, 1 ≤ t ∧ t ≤ n ∧ base + t ≤ blocks ∧
        (d.writeBlock dev base buf n).1 = t ∧
        disk (d.writeBlock dev base buf n).2 =
          splice (disk dev) (base * d.blockSize) (t * d.blockSize) buf

/-! ## Notes -/

/-- Whether a transfer has failed, whether the last one was a read that has, and
the blocks that were written right behind such a read, with their data. -/
structure Notes where
  failed : Bool := false
  afterBadRead : Bool := false
  blind : List (Nat × Bytes) := []

def Notes.read (notes : Notes) (answer : Int) : Notes where
  failed := notes.failed || answer == -1
  afterBadRead := answer == -1
  blind := notes.blind

def Notes.write (notes : Notes) (block : Nat) (data : Bytes) (answer : Int) :
    Notes where
  failed := notes.failed || answer == -1
  afterBadRead := false
  blind :=
    if notes.afterBadRead && answer != -1 then notes.blind ++ [(block, data)]
    else notes.blind

/-- The driver with notes of its answers. -/
def noting (d : BlockDevice σ) : BlockDevice (σ × Notes) where
  blockSize := d.blockSize
  readBlock s base buf n :=
    let (answer, out, dev) := d.readBlock s.1 base buf n
    (answer, out, dev, s.2.read answer)
  writeBlock s base buf n :=
    let (answer, dev) := d.writeBlock s.1 base buf n
    (answer, dev, s.2.write base buf answer)

variable (d : BlockDevice σ)

/-- Taking notes changes nothing else. -/
theorem writeHead_noting (s : σ × Notes) (baseAddress : Nat) (buf : Bytes)
    (length : Nat) (tmp : Bytes) :
    d.writeHead s.1 baseAddress buf length tmp =
      let (c, s', tmp') := d.noting.writeHead s baseAddress buf length tmp
      (c, s'.1, tmp') := by
  by_cases hskip : baseAddress % d.blockSize > 0
  · have hskip' : baseAddress % d.noting.blockSize > 0 := hskip
    rw [writeHead, writeHead]
    dsimp only
    rw [if_pos hskip, if_pos hskip']
    rfl
  · have hskip' : ¬ baseAddress % d.noting.blockSize > 0 := hskip
    rw [writeHead, writeHead]
    dsimp only
    rw [if_neg hskip, if_neg hskip']
    rfl

theorem writeBody_noting (buf : Bytes) :
    ∀ (fuel : Nat) (c : Cursor) (s : σ × Notes),
      d.writeBody buf fuel c s.1 =
        (d.noting.writeBody buf fuel c s).map fun out => (out.1, out.2.1) := by
  intro fuel
  induction fuel with
  | zero => intro c s; rfl
  | succ fuel ih =>
      intro c s
      have hsize : d.noting.blockSize = d.blockSize := rfl
      rw [writeBody, writeBody, hsize]
      split
      · exact ih (d.passBody c (d.writeBlock s.1 c.baseBlock
            (window buf c.position) (c.remain / d.blockSize)).1)
          (d.noting.writeBlock s c.baseBlock (window buf c.position)
            (c.remain / d.blockSize)).2
      · rfl

theorem writeTail_noting (buf : Bytes) (c : Cursor) (s : σ × Notes)
    (tmp : Bytes) :
    d.writeTail buf c s.1 tmp =
      let (success, s') := d.noting.writeTail buf c s tmp
      (success, s'.1) := by
  rw [writeTail, writeTail]
  split <;> rfl

theorem write_noting (fuel : Nat) (s : σ × Notes) (baseAddress : Nat)
    (buf : Bytes) (length : Nat) (tmp : Bytes) :
    d.write fuel s.1 baseAddress buf length tmp =
      (d.noting.write fuel s baseAddress buf length tmp).map fun out =>
        (out.1, out.2.1) := by
  rw [write, write, writeHead_noting]
  dsimp only
  rw [writeBody_noting]
  cases hbody : d.noting.writeBody buf fuel
    (d.noting.writeHead s baseAddress buf length tmp).1
    (d.noting.writeHead s baseAddress buf length tmp).2.1 with
  | none => rfl
  | some out =>
      obtain ⟨c, s'⟩ := out
      simp only [Option.map_some]
      rw [writeTail_noting]

/-! ## One block -/

section Parts

variable {d} {disk : σ → Bytes} {blocks base length : Nat} {m₀ : Bytes}

/-- An address that the request does not cover. -/
def Outside (base length a : Nat) : Prop := a < base ∨ base + length ≤ a

/-- Nothing else differs. -/
def Unharmed (base length : Nat) (m₀ m : Bytes) : Prop :=
  ∀ a, Outside base length a → m a = m₀ a

/-- What was written blindly is what was there, outside the request. -/
def Harmless (d : BlockDevice σ) (base length : Nat) (m₀ : Bytes)
    (blind : List (Nat × Bytes)) : Prop :=
  ∀ w ∈ blind, ∀ k, k < d.blockSize →
    Outside base length (w.1 * d.blockSize + k) →
    w.2 k = m₀ (w.1 * d.blockSize + k)

theorem harmless_nil : Harmless d base length m₀ [] := fun _ h => by cases h

/-- A block that is written whole is unharmed exactly if what is written is
harmless. -/
theorem unharmed_block {m data : Bytes} {b : Nat}
    (h : Unharmed base length m₀ m) :
    Unharmed base length m₀
        (splice m (b * d.blockSize) (1 * d.blockSize) data) ↔
      Harmless d base length m₀ [(b, data)] := by
  rw [Nat.one_mul]
  constructor
  · intro hunharmed w hw k hk hout
    obtain rfl := List.mem_singleton.1 hw
    have hbyte := hunharmed _ hout
    rwa [splice_add _ _ hk] at hbyte
  · intro hharmless a hout
    by_cases hin : b * d.blockSize ≤ a ∧ a < b * d.blockSize + d.blockSize
    · obtain ⟨k, rfl⟩ : ∃ k, a = b * d.blockSize + k :=
        ⟨a - b * d.blockSize, by omega⟩
      rw [splice_add _ _ (by omega)]
      exact hharmless _ (List.mem_singleton_self _) k (by omega) hout
    · exact (if_neg hin).trans (h a hout)

theorem noting_read {s s₁ : σ × Notes} {b n : Nat} {tmp out : Bytes}
    {answer : Int} (h : d.noting.readBlock s b tmp n = (answer, out, s₁)) :
    d.readBlock s.1 b tmp n = (answer, out, s₁.1) ∧ s₁.2 = s.2.read answer := by
  have hanswer : (d.readBlock s.1 b tmp n).1 = answer := congrArg Prod.fst h
  have hnotes : s.2.read (d.readBlock s.1 b tmp n).1 = s₁.2 :=
    congrArg (fun r => r.2.2.2) h
  refine ⟨?_, hanswer ▸ hnotes.symm⟩
  exact Prod.ext hanswer (Prod.ext (congrArg (fun r => r.2.1) h)
    (congrArg (fun r => r.2.2.1) h))

theorem noting_write {s s₁ : σ × Notes} {b n : Nat} {data : Bytes}
    {answer : Int} (h : d.noting.writeBlock s b data n = (answer, s₁)) :
    d.writeBlock s.1 b data n = (answer, s₁.1) ∧
      s₁.2 = s.2.write b data answer := by
  have hanswer : (d.writeBlock s.1 b data n).1 = answer := congrArg Prod.fst h
  have hnotes : s.2.write b data (d.writeBlock s.1 b data n).1 = s₁.2 :=
    congrArg (fun r => r.2.2) h
  exact ⟨Prod.ext hanswer (congrArg (fun r => r.2.1) h), hanswer ▸ hnotes.symm⟩

/-- A block is read, changed and written back. -/
theorem cycle_spec (h : Fallible d disk blocks) {s s₁ s₂ : σ × Notes}
    {b offset len : Nat} {src tmp out : Bytes} {readIn written : Int}
    (hunharmed : Unharmed base length m₀ (disk s.1)) (hblind : s.2.blind = [])
    (hrange : ∀ k, k < d.blockSize →
      Outside base length (b * d.blockSize + k) → k < offset ∨ offset + len ≤ k)
    (hread : d.noting.readBlock s b tmp 1 = (readIn, out, s₁))
    (hwrite : d.noting.writeBlock s₁ b (splice out offset len src) 1 =
      (written, s₂)) :
    (Unharmed base length m₀ (disk s₂.1) ↔
        Harmless d base length m₀ s₂.2.blind) ∧
      s₂.2.afterBadRead = false ∧
      ((readIn != -1 && written != -1) = true →
        b + 1 ≤ blocks ∧ Unharmed base length m₀ (disk s₂.1) ∧
          s₂.2.blind = [] ∧ s₂.2.failed = s.2.failed) := by
  obtain ⟨hr, hnotes₁⟩ := noting_read hread
  obtain ⟨hw, hnotes₂⟩ := noting_write hwrite
  have hdisk : disk s₁.1 = disk s.1 := by
    have := h.read_disk s.1 b tmp 1
    rwa [hr] at this
  have hbefore : s₁.2.blind = [] := by rw [hnotes₁]; exact hblind
  have hanswers := h.write s₁.1 b (splice out offset len src) 1 (Nat.le_refl 1)
  rw [hw] at hanswers
  have hcalm : s₂.2.afterBadRead = false := by rw [hnotes₂]; rfl
  rcases hanswers with ⟨rfl, hsame⟩ | ⟨t, ht, htn, hb, rfl, hafter⟩
  · -- nothing was written
    have hnone : s₂.2.blind = [] := by
      rw [hnotes₂, Notes.write, if_neg (by simp), hbefore]
    rw [hdisk] at hsame
    refine ⟨iff_of_true (hsame.symm ▸ hunharmed) (hnone ▸ harmless_nil), hcalm,
      fun hok => ?_⟩
    simp at hok
  · obtain rfl : t = 1 := by omega
    rw [hdisk] at hafter
    by_cases hbad : readIn = -1
    · -- the block was written with whatever had been read
      have hone : s₂.2.blind = [(b, splice out offset len src)] := by
        rw [hnotes₂, Notes.write, hnotes₁, Notes.read, hbad]
        dsimp only
        rw [hblind]
        rfl
      refine ⟨?_, hcalm, fun hok => ?_⟩
      · rw [hafter, hone]
        exact unharmed_block hunharmed
      · rw [hbad] at hok
        cases hok
    · have hnone : s₂.2.blind = [] := by
        rw [hnotes₂, Notes.write, hnotes₁, Notes.read]
        dsimp only
        rw [beq_eq_false_iff_ne.2 hbad, Bool.false_and, if_neg Bool.false_ne_true,
          hblind]
      have hclean : s₂.2.failed = s.2.failed := by
        rw [hnotes₂, Notes.write, hnotes₁, Notes.read]
        dsimp only
        rw [beq_eq_false_iff_ne.2 hbad, Bool.or_false]
        exact Bool.or_false _
      have hanswer := h.read s.1 b tmp 1 (Nat.le_refl 1)
      rw [hr] at hanswer
      obtain ⟨t, ht, htn, -, -, rfl⟩ := hanswer.resolve_left hbad
      obtain rfl : t = 1 := by omega
      have hunharmed' : Unharmed base length m₀ (disk s₂.1) := by
        rw [hafter]
        refine (unharmed_block hunharmed).2 fun w hmem k hk hout => ?_
        obtain rfl := List.mem_singleton.1 hmem
        refine Eq.trans ?_ (hunharmed _ hout)
        have hkeep : splice (splice tmp 0 (1 * d.blockSize)
            (window (disk s.1) (b * d.blockSize))) offset len src k =
            splice tmp 0 (1 * d.blockSize)
              (window (disk s.1) (b * d.blockSize)) k := by
          rcases hrange k hk hout with hlt | hge
          · exact splice_lt hlt
          · exact splice_ge hge
        exact hkeep.trans (splice_mem (Nat.zero_le k) (by omega))
      exact ⟨iff_of_true hunharmed' (hnone ▸ harmless_nil), hcalm,
        fun _ => ⟨hb, hunharmed', hnone, hclean⟩⟩

/-! ## The three parts -/

/-- As long as nothing has failed: what has been written is the first part of
the request, and the rest starts at a block. -/
structure Going (d : BlockDevice σ) (disk : σ → Bytes) (base length : Nat)
    (m₀ : Bytes) (c : Cursor) (s : σ × Notes) : Prop where
  unharmed : Unharmed base length m₀ (disk s.1)
  blind : s.2.blind = []
  failed : s.2.failed = false
  length_eq : c.position + c.remain = length
  base_eq : 0 < c.remain → c.baseBlock * d.blockSize = base + c.position

/-- What holds between two parts. -/
structure Between (d : BlockDevice σ) (disk : σ → Bytes) (base length : Nat)
    (m₀ : Bytes) (c : Cursor) (s : σ × Notes) : Prop where
  exact : Unharmed base length m₀ (disk s.1) ↔
    Harmless d base length m₀ s.2.blind
  calm : s.2.afterBadRead = false
  going : c.success = true → Going d disk base length m₀ c s

/-- The head. -/
theorem writeHead_between (h : Fallible d disk blocks)
    (hlength : length < 4294967296) (dev : σ) (buf tmp : Bytes) {c : Cursor}
    {s : σ × Notes} {tmp' : Bytes}
    (hrun : d.noting.writeHead (dev, {}) base buf length tmp = (c, s, tmp')) :
    Between d disk base length (disk dev) c s := by
  have hdm := Nat.div_add_mod' base d.blockSize
  have hmod := Nat.mod_lt base h.blockSize_pos
  have hsize : d.noting.blockSize = d.blockSize := rfl
  by_cases hskip : base % d.noting.blockSize > 0
  · have hlen : d.noting.headLen base length =
        min length (d.blockSize - base % d.blockSize) :=
      headLen_min h.blockSize_pos h.blockSize_lt base length
    have hrange : ∀ k, k < d.blockSize →
        Outside base length ((d.noting.start base length).baseBlock *
          d.blockSize + k) →
        k < base % d.noting.blockSize ∨
          base % d.noting.blockSize + d.noting.headLen base length ≤ k := by
      intro k hk hout
      have hout' : Outside base length (base / d.blockSize * d.blockSize + k) :=
        hout
      rw [Outside] at hout'
      rw [hlen, hsize]
      omega
    rcases hread : d.noting.readBlock (dev, {})
      (d.noting.start base length).baseBlock tmp 1 with ⟨readIn, out, s₁⟩
    rcases hwrite : d.noting.writeBlock s₁ (d.noting.start base length).baseBlock
      (splice out (base % d.noting.blockSize) (d.noting.headLen base length)
        (window buf (d.noting.start base length).position)) 1
      with ⟨written, s₂⟩
    simp only [writeHead, if_pos hskip, hread, hwrite] at hrun
    cases hrun
    have hbefore : Unharmed base length (disk dev)
        (disk ((dev, {}) : σ × Notes).1) := fun _ _ => rfl
    obtain ⟨hexact, hcalm, hok⟩ :=
      cycle_spec h hbefore rfl hrange hread hwrite
    refine ⟨hexact, hcalm, fun hsuccess => ?_⟩
    obtain ⟨hfits, hunharmed, hblind, hfailed⟩ := hok hsuccess
    have hfits : base / d.blockSize + 1 ≤ blocks := hfits
    have hnext : u64 ((base / d.blockSize : Nat) + 1) =
        base / d.blockSize + 1 := by
      simpa using u64_of_lt (block_lt_of_size h.blockSize_pos h.size_lt hfits)
    refine ⟨hunharmed, hblind, hfailed, ?_, ?_⟩
    · show u32 ((0 : Nat) + d.noting.headLen base length) +
        u32 (length - d.noting.headLen base length) = length
      rw [hlen]
      simp only [u32]
      omega
    · show 0 < u32 (length - d.noting.headLen base length) →
        u64 ((base / d.blockSize : Nat) + 1) * d.blockSize =
          base + u32 ((0 : Nat) + d.noting.headLen base length)
      rw [hlen, hnext, Nat.add_mul, Nat.one_mul]
      simp only [u32]
      omega
  · simp only [writeHead, if_neg hskip] at hrun
    cases hrun
    rw [hsize] at hskip
    refine ⟨iff_of_true (fun _ _ => rfl) harmless_nil, rfl, fun _ =>
      ⟨fun _ _ => rfl, rfl, rfl, Nat.zero_add _, fun _ => ?_⟩⟩
    show base / d.blockSize * d.blockSize = base + 0
    omega

/-- The body. -/
theorem writeBody_between (h : Fallible d disk blocks)
    (hlength : length < 4294967296) (buf : Bytes) :
    ∀ (fuel : Nat) (c : Cursor) (s : σ × Notes),
      Between d disk base length m₀ c s → 0 < fuel →
      (c.success = true → c.remain < fuel) →
      ∃ c' s', d.noting.writeBody buf fuel c s = some (c', s') ∧
        Between d disk base length m₀ c' s' := by
  intro fuel
  induction fuel with
  | zero => intro c s _ hfuel; cases hfuel
  | succ fuel ih =>
      intro c s hbetween _ hfuel
      have hsize : d.noting.blockSize = d.blockSize := rfl
      rw [writeBody, hsize]
      by_cases hgo : c.remain > d.blockSize ∧ c.success = true
      · obtain ⟨hmore, hok⟩ := hgo
        have hcond : (decide (c.remain > d.blockSize) && c.success) = true := by
          simp [hmore, hok]
        obtain ⟨hunharmed, hblind, hfailed, hlen, hbase⟩ := hbetween.going hok
        have hstart := hbase (by omega)
        have hleft := hfuel hok
        have hn : 1 ≤ c.remain / d.blockSize :=
          (Nat.one_le_div_iff h.blockSize_pos).2 (by omega)
        rcases hwrite : d.noting.writeBlock s c.baseBlock (window buf c.position)
          (c.remain / d.blockSize) with ⟨answer, s₁⟩
        obtain ⟨hw, hnotes⟩ := noting_write hwrite
        have hanswers := h.write s.1 c.baseBlock (window buf c.position) _ hn
        rw [hw] at hanswers
        have hblind₁ : s₁.2.blind = [] := by
          rw [hnotes, Notes.write, hbetween.calm, Bool.false_and,
            if_neg Bool.false_ne_true, hblind]
        have hcalm₁ : s₁.2.afterBadRead = false := by rw [hnotes]; rfl
        rw [if_pos hcond]
        simp only [hwrite]
        rcases hanswers with ⟨rfl, hsame⟩ | ⟨t, ht, htn, hfits, rfl, hafter⟩
        · -- the loop ends with the failure
          have hstop : d.noting.passBody c (-1) = { c with success := false } :=
            if_neg (by simp)
          rw [hstop]
          refine ih _ _ ⟨?_, hcalm₁, fun hno => by cases hno⟩ (by omega)
            fun hno => by cases hno
          rw [hsame, hblind₁]
          exact iff_of_true hunharmed harmless_nil
        · have hbytes : t * d.blockSize ≤ c.remain :=
            Nat.le_trans (Nat.mul_le_mul_right _ htn) (Nat.div_mul_le_self _ _)
          have hpos : 0 < t * d.blockSize := Nat.mul_pos ht h.blockSize_pos
          have hpass : d.noting.passBody c t =
              ⟨c.baseBlock + t, c.position + t * d.blockSize,
                c.remain - t * d.blockSize, true⟩ :=
            passBody_eq hok htn (by omega)
              (block_lt_of_size h.blockSize_pos h.size_lt hfits)
          have hunharmed₁ : Unharmed base length m₀ (disk s₁.1) := by
            intro a hout
            rw [hafter, ← hunharmed a hout]
            rcases hout with hlt | hge
            · exact splice_lt (by omega)
            · exact splice_ge (by omega)
          rw [hpass]
          refine ih _ _ ⟨?_, hcalm₁, fun _ => ⟨hunharmed₁, hblind₁, ?_, ?_, ?_⟩⟩
            (by omega) fun _ => ?_
          · rw [hblind₁]
            exact iff_of_true hunharmed₁ harmless_nil
          · rw [hnotes, Notes.write, hfailed]
            simp
          · show c.position + t * d.blockSize + (c.remain - t * d.blockSize) = _
            omega
          · show 0 < c.remain - t * d.blockSize → (c.baseBlock + t) *
              d.blockSize = base + (c.position + t * d.blockSize)
            rw [Nat.add_mul]
            omega
          · show c.remain - t * d.blockSize < fuel
            omega
      · have hcond : ¬ (decide (c.remain > d.blockSize) && c.success) = true := by
          simpa using hgo
        rw [if_neg hcond]
        exact ⟨c, s, rfl, hbetween⟩

/-- The tail. -/
theorem writeTail_between (h : Fallible d disk blocks) (buf tmp : Bytes)
    {c : Cursor} {s s' : σ × Notes} {success : Bool}
    (hbetween : Between d disk base length m₀ c s)
    (hrun : d.noting.writeTail buf c s tmp = (success, s')) :
    (Unharmed base length m₀ (disk s'.1) ↔
        Harmless d base length m₀ s'.2.blind) ∧
      (success = true → s'.2.failed = false) := by
  rw [writeTail] at hrun
  by_cases hgo : c.remain > 0 ∧ c.success = true
  · obtain ⟨hmore, hok⟩ := hgo
    have hcond : (decide (c.remain > 0) && c.success) = true := by
      simp [hmore, hok]
    obtain ⟨hunharmed, hblind, hfailed, hlen, hbase⟩ := hbetween.going hok
    have hstart := hbase hmore
    have hrange : ∀ k, k < d.blockSize →
        Outside base length (c.baseBlock * d.blockSize + k) →
        k < 0 ∨ 0 + c.remain ≤ k := by
      intro k _ hout
      rw [Outside] at hout
      omega
    rcases hread : d.noting.readBlock s c.baseBlock tmp 1
      with ⟨readIn, out, s₁⟩
    rcases hwrite : d.noting.writeBlock s₁ c.baseBlock
      (splice out 0 c.remain (window buf c.position)) 1 with ⟨written, s₂⟩
    simp only [if_pos hcond, hread, hwrite] at hrun
    cases hrun
    obtain ⟨hexact, -, hdone⟩ :=
      cycle_spec h hunharmed hblind hrange hread hwrite
    exact ⟨hexact, fun hsuccess => (hdone hsuccess).2.2.2.trans hfailed⟩
  · have hcond : ¬ (decide (c.remain > 0) && c.success) = true := by
      simpa using hgo
    rw [if_neg hcond] at hrun
    cases hrun
    exact ⟨hbetween.exact, fun hok => (hbetween.going hok).failed⟩

/-! ## The request -/

/-- A write returns whatever fails, and with `-1` if anything has failed; and
it damages nothing else exactly if what is written right behind a read that
failed is harmless. -/
theorem write_unharmed_iff (h : Fallible d disk blocks) {fuel : Nat}
    (hlength : length < 4294967296) (hfuel : length < fuel) (dev : σ)
    (base : Nat) (buf tmp : Bytes) :
    ∃ answer dev' notes,
      d.noting.write fuel (dev, {}) base buf length tmp =
        some (answer, dev', notes) ∧
      d.write fuel dev base buf length tmp = some (answer, dev') ∧
      (notes.failed = true → answer = -1) ∧
      (Unharmed base length (disk dev) (disk dev') ↔
        Harmless d base length (disk dev) notes.blind) := by
  rcases hhead : d.noting.writeHead (dev, {}) base buf length tmp
    with ⟨c₁, s₁, tmp₁⟩
  have hbetween₁ := writeHead_between h hlength dev buf tmp hhead
  have hremain : c₁.success = true → c₁.remain < fuel := fun hok => by
    have := (hbetween₁.going hok).length_eq
    omega
  obtain ⟨c₂, s₂, hbody, hbetween₂⟩ :=
    writeBody_between h hlength buf fuel c₁ s₁ hbetween₁ (by omega) hremain
  rcases htail : d.noting.writeTail buf c₂ s₂ tmp₁ with ⟨success, dev', notes⟩
  obtain ⟨hexact, hclean⟩ := writeTail_between h buf tmp₁ hbetween₂ htail
  have hrun : d.noting.write fuel (dev, {}) base buf length tmp =
      some (if success then i32 length else -1, dev', notes) := by
    simp only [write, hhead, hbody, htail]
  refine ⟨_, dev', notes, hrun, ?_, fun hfailed => ?_, hexact⟩
  · refine (write_noting d fuel (dev, {}) base buf length tmp).trans ?_
    rw [hrun]
    rfl
  · cases success with
    | false => rfl
    | true =>
        have hnone : notes.failed = false := hclean rfl
        rw [hnone] at hfailed
        cases hfailed

end Parts

/-- A disk of four blocks of two bytes that can be written but not read. -/
def deadReads : BlockDevice Bytes where
  blockSize := 2
  readBlock dev _ buf _ := (-1, buf, dev)
  writeBlock dev base buf _ :=
    if base < 4 then (1, splice dev (base * 2) 2 buf) else (-1, dev)

theorem deadReads_fallible : Fallible deadReads id 4 where
  blockSize_pos := by decide
  blockSize_lt := by decide
  size_lt := by decide
  read_disk _ _ _ _ := rfl
  read _ _ _ _ _ := .inl rfl
  write dev base buf n hn := by
    by_cases hbase : base < 4
    · refine .inr ⟨1, Nat.le_refl 1, hn, hbase, ?_, ?_⟩
      · exact congrArg Prod.fst (if_pos hbase)
      · exact congrArg Prod.snd (if_pos hbase)
    · exact .inl ⟨congrArg Prod.fst (if_neg hbase),
        congrArg Prod.snd (if_neg hbase)⟩

/-- A tail that fills its block does not need to be read. -/
theorem deadReads_unharmed :
    ∃ dev', deadReads.write 5 (fun k => UInt8.ofNat k) 0 (fun _ => 7) 4
        (fun _ => 0xFF) = some (-1, dev') ∧
      Unharmed 0 4 (fun k => UInt8.ofNat k) dev' := by
  obtain ⟨answer, dev', notes, hnotes, hrun, hfailed, hiff⟩ :=
    write_unharmed_iff deadReads_fallible (by decide : 4 < 4294967296)
      (by decide : 4 < 5) (fun k => UInt8.ofNat k) 0 (fun _ => 7) (fun _ => 0xFF)
  have hrun₁ : deadReads.noting.write 5 (fun k => UInt8.ofNat k, {}) 0
      (fun _ => 7) 4 (fun _ => 0xFF) = some (-1, _, ⟨true, false,
        [(1, splice (fun _ => 0xFF) 0 2 (window (fun _ => 7) 2))]⟩) := rfl
  rw [hrun₁] at hnotes
  cases hnotes
  refine ⟨_, hrun, hiff.2 fun w hw k hk hout => ?_⟩
  obtain rfl := List.mem_singleton.1 hw
  have hk : k < 2 := hk
  have hout : 1 * 2 + k < 0 ∨ 0 + 4 ≤ 1 * 2 + k := hout
  omega

/-- A head that could not be read is written back with what `tmp` held. -/
theorem deadReads_harmed :
    ∃ dev', deadReads.write 2 (fun k => UInt8.ofNat k) 1 (fun _ => 7) 1
        (fun _ => 0xFF) = some (-1, dev') ∧
      dev' 0 = 0xFF ∧ ¬ Unharmed 1 1 (fun k => UInt8.ofNat k) dev' := by
  refine ⟨_, rfl, rfl, fun h => ?_⟩
  exact absurd (h 0 (.inl (by decide))) (by decide)

end Iposix.Devices.BlockDevice
