import Iposix.Proofs.Mapping

/-!
# Copying into a process

`copy_in` moves a buffer into the memory of a process, one page at a time: the
rest of the first page, whole pages, and what is left. Whatever each move keeps
the whole copy keeps, as far as it gets; it ends early at a page that is not
mapped and at the end of the address space only.

`Copying` is what a copy above the kernel's window keeps: it changes the bytes
behind the addresses it was given, and no others.
-/

namespace Iposix.Vm

open Iposix.Lib

variable {M M₀ : Machine} {dm ptable q : Nat} {dirs : List Nat}

/-- The next page is the one behind, unless that would be the first. -/
theorem nextPage_eq {v : Nat} (hv : v < 4294967296) :
    nextPage v =
      if v / 4096 + 1 = 1048576 then none else some (4096 * (v / 4096 + 1)) := by
  rw [nextPage]
  by_cases hpage : (page v + 1) % 1024 = 0
  · rw [if_pos hpage]
    rw [page] at hpage
    by_cases hdir : (dir v + 1) % 1024 = 0
    · rw [if_pos hdir]
      rw [dir] at hdir
      rw [if_pos (by omega)]
    · rw [if_neg hdir]
      rw [dir] at hdir
      rw [if_neg (by omega), dir, normal]
      exact congrArg some (by omega)
  · rw [if_neg hpage]
    rw [page] at hpage
    rw [if_neg (by omega), dir, page, normal]
    exact congrArg some (by omega)

/-! ## A rule for copies -/

/-- The machine after `n` bytes from position `pos` of the buffer have been
moved behind the address `v`. -/
def afterMove (M : Machine) (buffer : Nat → UInt8) (pos v phys n : Nat) :
    Machine where
  mem := splice M.mem phys n (window buffer pos)
  log := .copy v phys n :: M.log

section Rule

variable {buffer : Nat → UInt8} {v size : Nat} {I : Nat → Machine → Prop}

/-- Each move of a copy to `v` keeps `I`, which knows how far it has got. -/
def MoveRule (ptable : Nat) (buffer : Nat → UInt8) (v size : Nat)
    (I : Nat → Machine → Prop) : Prop :=
  ∀ pos M n, I pos M → getPhysAddress M.mem ptable (v + pos) ≠ 0 →
    v + pos < 4294967296 → 0 < n → offset (v + pos) + n ≤ 4096 →
    pos + n ≤ size →
    I (pos + n) (afterMove M buffer pos (v + pos)
      (getPhysAddress M.mem ptable (v + pos)) n)

/-- How a copy of `size` bytes can end after `pos` of them. -/
def Ended (m : Nat → UInt8) (ptable v size pos : Nat) : Prop :=
  pos = size ∨ getPhysAddress m ptable (v + pos) = 0 ∨
    4294967296 ≤ v + pos

end Rule

section Transfers

variable {copyout : Bool} {v size : Nat} {I : Transfer → Prop}

theorem Transfer.move_position (copyout : Bool) (t : Transfer)
    (v phys n : Nat) : (t.move copyout v phys n).position = t.position + n := by
  cases copyout <;> rfl

/-- Each move of a copy between the buffer and the memory behind `v` keeps
`I`. -/
def TransferRule (ptable : Nat) (copyout : Bool) (v size : Nat)
    (I : Transfer → Prop) : Prop :=
  ∀ t n, I t → getPhysAddress t.machine.mem ptable (v + t.position) ≠ 0 →
    v + t.position < 4294967296 → 0 < n →
    offset (v + t.position) + n ≤ 4096 → t.position + n ≤ size →
    I (t.move copyout (v + t.position)
      (getPhysAddress t.machine.mem ptable (v + t.position)) n)

/-- What a copy of `size` bytes answers, and after how many of them: it has
come to its end, to a page that is not mapped, or behind the last page. -/
inductive Stopped (m : Nat → UInt8) (ptable v size : Nat) : Bool → Nat → Prop
  | done (h : v + size < 4294967296 ∨ size < 4096) :
      Stopped m ptable v size true size
  | unmapped {pos : Nat} (hlt : pos < size)
      (h : getPhysAddress m ptable (v + pos) = 0) :
      Stopped m ptable v size false pos
  | top {pos : Nat} (h : v + pos = 4294967296)
      (hlt : pos < size ∨ 4096 ≤ size) : Stopped m ptable v size false pos

theorem copyPages_transfer (hmove : TransferRule ptable copyout v size I) :
    ∀ count t, I t → (v + t.position) % 4096 = 0 →
      v + t.position < 4294967296 → t.position + 4096 * count ≤ size →
      ∃ r t', copyPages ptable copyout count (v + t.position) t = (r, t') ∧
        t'.position ≤ size ∧ I t' ∧
        (r = none →
          Stopped t'.machine.mem ptable v size false t'.position) ∧
        ∀ w, r = some w → w = v + t'.position ∧
          t'.position = t.position + 4096 * count ∧ w < 4294967296 := by
  intro count
  induction count with
  | zero =>
      intro t hI _ hlt hle
      refine ⟨_, t, rfl, by omega, hI, (nomatch ·), fun w hw => ?_⟩
      cases hw
      exact ⟨rfl, rfl, hlt⟩
  | succ count ih =>
      intro t hI haligned hlt hle
      have hfit : t.position + 4096 ≤ size :=
        calc t.position + 4096 ≤ t.position + (4096 * count + 4096) :=
            Nat.add_le_add_left (Nat.le_add_left _ _) _
          _ ≤ size := hle
      have hbelow : t.position < size := Nat.lt_of_lt_of_le (by omega) hfit
      rw [copyPages]
      dsimp only
      by_cases hphys :
          getPhysAddress t.machine.mem ptable (v + t.position) = 0
      · rw [if_pos hphys]
        exact ⟨_, t, rfl, Nat.le_of_lt hbelow, hI,
          fun _ => .unmapped hbelow hphys, fun _ h => nomatch h⟩
      have hnext := hmove t 4096 hI hphys hlt (by omega)
        (by rw [offset, haligned]) hfit
      rw [if_neg hphys, PAGE_SIZE, nextPage_eq hlt]
      have hpos := t.move_position copyout (v + t.position)
        (getPhysAddress t.machine.mem ptable (v + t.position)) 4096
      generalize t.move copyout (v + t.position)
        (getPhysAddress t.machine.mem ptable (v + t.position)) 4096 = t₁
        at hnext hpos ⊢
      by_cases hlast : (v + t.position) / 4096 + 1 = 1048576
      · have hend : v + t₁.position = 4294967296 := by
          clear hle
          omega
        rw [if_pos hlast]
        exact ⟨_, t₁, rfl, hpos.trans_le hfit, hnext,
          fun _ => .top hend (.inr (Nat.le_of_add_left_le hfit)),
          fun _ h => nomatch h⟩
      · have hsum : 4096 * ((v + t.position) / 4096 + 1) =
            v + t₁.position := by omega
        rw [if_neg hlast, hsum]
        obtain ⟨r, t', heq, hle', hI', hnone, hdone⟩ := ih t₁ hnext (by omega)
          (by omega) (by omega)
        refine ⟨r, t', heq, hle', hI', hnone, fun w hw => ?_⟩
        obtain ⟨h₁, h₂, h₃⟩ := hdone w hw
        exact ⟨h₁, by omega, h₃⟩

theorem copyRest_transfer (hmove : TransferRule ptable copyout v size I)
    {t : Transfer} (hI : I t) (haligned : (v + t.position) % 4096 = 0)
    (hlt : v + t.position < 4294967296) (hle : t.position < size) :
    ∃ done t', copyRest ptable copyout (v + t.position) (size - t.position) t =
        (done, t') ∧ t'.position ≤ size ∧ I t' ∧
      Stopped t'.machine.mem ptable v size done t'.position := by
  obtain ⟨r, t', heq, hle', hI', hnone, hdone⟩ := copyPages_transfer hmove
    ((size - t.position) / 4096) t hI haligned hlt (by omega)
  rw [copyRest, PAGE_SIZE, heq]
  rcases r with _ | w
  · exact ⟨_, t', rfl, hle', hI', hnone rfl⟩
  obtain ⟨rfl, hpos, hwlt⟩ := hdone w rfl
  dsimp only
  by_cases hrest : (size - t.position) % 4096 = 0
  · have hsize : t'.position = size := by omega
    rw [if_pos hrest]
    refine ⟨_, t', rfl, hle', hI', ?_⟩
    rw [hsize] at hwlt ⊢
    exact .done (.inl hwlt)
  rw [if_neg hrest]
  by_cases hphys : getPhysAddress t'.machine.mem ptable (v + t'.position) = 0
  · rw [if_pos hphys]
    exact ⟨_, t', rfl, hle', hI', .unmapped (by omega) hphys⟩
  · rw [if_neg hphys]
    have hoffset : offset (v + t'.position) = 0 := by
      rw [offset]
      omega
    have hnext := hmove t' ((size - t.position) % 4096) hI' hphys hwlt
      (by omega) (by omega) (by omega)
    have hend := t'.move_position copyout (v + t'.position)
      (getPhysAddress t'.machine.mem ptable (v + t'.position))
      ((size - t.position) % 4096)
    have hsize : t'.position + (size - t.position) % 4096 = size := by omega
    rw [hsize] at hend
    refine ⟨_, _, rfl, Nat.le_of_eq hend, hnext, ?_⟩
    rw [hend]
    exact .done (.inl (by omega))

theorem copyIn_transfer (hmove : TransferRule ptable copyout v size I)
    {buffer : Nat → UInt8} (hI : I ⟨M, buffer, 0⟩) (h₀ : v ≠ 0)
    (hlt : v < 4294967296) :
    ∃ done t, copyIn M ptable v (some buffer) size copyout =
        (done, t.machine, some t.buffer) ∧ t.position ≤ size ∧ I t ∧
      Stopped t.machine.mem ptable v size done t.position := by
  rw [copyIn]
  by_cases hsize : size = 0
  · subst hsize
    exact ⟨true, ⟨M, buffer, 0⟩, rfl, Nat.le_refl 0, hI,
      .done (.inl (by omega))⟩
  rw [if_neg hsize]
  dsimp only
  rw [if_neg h₀]
  by_cases hoffset : offset v = 0
  · rw [if_neg (not_not_intro hoffset)]
    obtain ⟨done, t, heq, hle, hI', hstop⟩ := copyRest_transfer hmove hI
      (by rw [offset] at hoffset; exact hoffset) hlt (Nat.pos_of_ne_zero hsize)
    dsimp only at heq
    rw [Nat.add_zero, Nat.sub_zero] at heq
    rw [heq]
    exact ⟨done, t, rfl, hle, hI', hstop⟩
  rw [if_pos hoffset]
  by_cases hphys : getPhysAddress M.mem ptable v = 0
  · rw [if_pos hphys]
    exact ⟨false, ⟨M, buffer, 0⟩, rfl, Nat.zero_le _, hI,
      .unmapped (Nat.pos_of_ne_zero hsize) hphys⟩
  rw [if_neg hphys]
  generalize hc : (if size < PAGE_SIZE - offset v then size
    else PAGE_SIZE - offset v) = csize
  have hcsize : csize = min size (4096 - offset v) := by
    rw [← hc]
    rw [PAGE_SIZE]
    split <;> omega
  have hvlt : offset v < 4096 := Nat.mod_lt _ (by decide)
  have hnext := hmove ⟨M, buffer, 0⟩ csize hI hphys hlt (by omega)
    (by rw [Nat.add_zero]; omega) (by dsimp only; omega)
  have hpos := Transfer.move_position copyout ⟨M, buffer, 0⟩ v
    (getPhysAddress M.mem ptable v) csize
  dsimp only [Nat.add_zero] at hnext
  rw [Nat.zero_add] at hpos
  generalize Transfer.move copyout ⟨M, buffer, 0⟩ v
    (getPhysAddress M.mem ptable v) csize = t at hnext hpos ⊢
  by_cases hdone : size - csize = 0
  · rw [if_pos hdone]
    have hend : t.position = size := by omega
    exact ⟨true, t, rfl, Nat.le_of_eq hend, hnext,
      hend ▸ .done (.inr (by omega))⟩
  rw [if_neg hdone, nextPage_eq hlt]
  rw [offset] at hcsize hvlt
  by_cases hlast : v / 4096 + 1 = 1048576
  · rw [if_pos hlast]
    exact ⟨false, t, rfl, by omega, hnext, .top (by omega) (.inl (by omega))⟩
  · have hsum : 4096 * (v / 4096 + 1) = v + t.position := by omega
    have hleft : size - csize = size - t.position := by rw [hpos]
    rw [if_neg hlast, hsum]
    dsimp only
    rw [hleft]
    obtain ⟨done, t', heq, hle, hI', hstop⟩ := copyRest_transfer hmove hnext
      (by omega) (by omega) (by omega)
    rw [heq]
    exact ⟨done, t', rfl, hle, hI', hstop⟩

end Transfers

/-- The rule for `copy_in`, which leaves the buffer alone. -/
theorem copyIn_rule {buffer : Nat → UInt8} {v size : Nat}
    {I : Nat → Machine → Prop} (hmove : MoveRule ptable buffer v size I)
    (hI : I 0 M) (h₀ : v ≠ 0) (hlt : v < 4294967296) :
    ∃ pos, pos ≤ size ∧
      I pos (copyIn M ptable v (some buffer) size false).2.1 ∧
      Ended (copyIn M ptable v (some buffer) size false).2.1.mem ptable v size
        pos := by
  have htransfer : TransferRule ptable false v size fun t =>
      t.buffer = buffer ∧ I t.position t.machine := by
    rintro ⟨M', _, pos⟩ n ⟨rfl, hI⟩ hphys hlt hn hoffset hle
    exact ⟨rfl, hmove pos M' n hI hphys hlt hn hoffset hle⟩
  obtain ⟨done, t, heq, hle, ⟨_, hI'⟩, hstop⟩ :=
    copyIn_transfer htransfer ⟨rfl, hI⟩ h₀ hlt
  rw [heq]
  refine ⟨t.position, hle, hI', ?_⟩
  cases hstop with
  | done => exact .inl rfl
  | unmapped _ hphys => exact .inr (.inl hphys)
  | top hend => exact .inr (.inr (Nat.le_of_eq hend.symm))

/-! ## Copies above the window -/

/-- Above the window different pages lead to different frames. -/
theorem Owned.page_inj (h : Owned M dm dirs) (hq : q ∈ dirs)
    {v w a b : Nat} (hv : 32 ≤ dir v) (hw : 32 ≤ dir w) (hvlt : v < 4294967296)
    (hwlt : w < 4294967296) (hva : translate M.mem q v = some a)
    (hwb : translate M.mem q w = some b) (hframe : a / 4096 = b / 4096) :
    v / 4096 = w / 4096 := by
  obtain ⟨e, he, rfl⟩ := h.spaces.toTables.translate_above hq hv hva
  obtain ⟨e', he', rfl⟩ := h.spaces.toTables.translate_above hq hw hwb
  have ho : offset v < 4096 := Nat.mod_lt _ (by decide)
  have ho' : offset w < 4096 := Nat.mod_lt _ (by decide)
  have haddr : e.address = e'.address := by
    have h₁ := address_dvd e
    have h₂ := address_dvd e'
    omega
  obtain ⟨_, hdir, hpage⟩ := h.single q hq _ hv (dir_lt v) _ (page_lt v) e he
    q hq _ hw (dir_lt w) _ (page_lt w) e' he' haddr
  rw [← number_eq hvlt, ← number_eq hwlt, hdir, hpage]

/-- Above the window different addresses lead to different bytes. -/
theorem Owned.translate_inj (h : Owned M dm dirs) (hq : q ∈ dirs)
    {v w a : Nat} (hv : 32 ≤ dir v) (hw : 32 ≤ dir w) (hvlt : v < 4294967296)
    (hwlt : w < 4294967296) (hva : translate M.mem q v = some a)
    (hwa : translate M.mem q w = some a) : v = w := by
  have hpage := h.page_inj hq hv hw hvlt hwlt hva hwa rfl
  obtain ⟨e, _, rfl⟩ := h.spaces.toTables.translate_above hq hv hva
  obtain ⟨e', _, heq⟩ := h.spaces.toTables.translate_above hq hw hwa
  have h₁ := address_dvd e
  have h₂ := address_dvd e'
  rw [offset, offset] at heq
  omega

/-- Nothing has changed since `M₀` but what is behind the first `pos` addresses
from `v` on. -/
def OnlyBehind (M₀ M : Machine) (ptable v pos : Nat) : Prop :=
  ∀ b, (∀ w, v ≤ w → w < v + pos → translate M₀.mem ptable w ≠ some b) →
    M.mem b = M₀.mem b

/-- The front of the buffer is behind them. -/
def Arrived (M₀ M : Machine) (ptable : Nat) (buffer : Nat → UInt8)
    (v pos : Nat) : Prop :=
  ∀ k, k < pos →
    ∃ b, translate M₀.mem ptable (v + k) = some b ∧ M.mem b = buffer k

section Moved

variable {buffer : Nat → UInt8} {v pos a n : Nat}

theorem OnlyBehind.move (h : OnlyBehind M₀ M ptable v pos)
    (hhere : ∀ j, j < n →
      translate M₀.mem ptable (v + pos + j) = some (a + j)) :
    OnlyBehind M₀ (afterMove M buffer pos (v + pos) a n) ptable v
      (pos + n) := by
  intro b hb
  have hmiss : ¬ (a ≤ b ∧ b < a + n) := fun hin =>
    hb (v + pos + (b - a)) (by omega) (by omega) (by
      rw [hhere (b - a) (by omega), Nat.add_sub_cancel' hin.1])
  show splice M.mem a n (window buffer pos) b = M₀.mem b
  rw [splice, if_neg hmiss]
  exact h b fun w h₁ h₂ => hb w h₁ (by omega)

theorem Arrived.move (h : Arrived M₀ M ptable buffer v pos)
    (hhere : ∀ j, j < n →
      translate M₀.mem ptable (v + pos + j) = some (a + j))
    (hne : ∀ k j, k < pos → j < n →
      translate M₀.mem ptable (v + k) ≠ some (a + j)) :
    Arrived M₀ (afterMove M buffer pos (v + pos) a n) ptable buffer v
      (pos + n) := by
  intro k hk
  rcases Nat.lt_or_ge k pos with hlt | hge
  · obtain ⟨b, hb, hbyte⟩ := h k hlt
    have hmiss : ¬ (a ≤ b ∧ b < a + n) := fun hin =>
      hne k (b - a) hlt (by omega)
        (hb.trans (congrArg some (Nat.add_sub_cancel' hin.1).symm))
    refine ⟨b, hb, ?_⟩
    show splice M.mem a n (window buffer pos) b = buffer k
    rw [splice, if_neg hmiss, hbyte]
  · have hk' : k - pos < n := by omega
    have hv : v + pos + (k - pos) = v + k := by omega
    refine ⟨a + (k - pos), hv ▸ hhere (k - pos) hk', ?_⟩
    show splice M.mem a n (window buffer pos) (a + (k - pos)) = buffer k
    rw [splice_add _ _ hk', window_apply, Nat.add_sub_cancel' hge]

end Moved

/-- `pos` bytes of the buffer have been copied to `v` since `M₀`. -/
structure Copying (M₀ M : Machine) (ptable : Nat) (buffer : Nat → UInt8)
    (v pos : Nat) : Prop where
  log : Logged (fun e => ∃ w a n e', e = .copy w a n ∧ v ≤ w ∧
    w < 4294967296 ∧ pteAt M₀.mem ptable (dir w) (page w) = some e' ∧
    e'.address ≤ a ∧ a + n ≤ e'.address + 4096) M₀.log M.log
  others : ∀ b, (∀ w, v ≤ w → w < v + pos →
    translate M₀.mem ptable w ≠ some b) → M.mem b = M₀.mem b
  bytes : ∀ k, k < pos →
    ∃ b, translate M₀.mem ptable (v + k) = some b ∧ M.mem b = buffer k

variable {buffer : Nat → UInt8} {v pos size : Nat}

/-- The addresses of a copy stay above the window. -/
theorem dir_le {v w : Nat} (hv : 32 ≤ dir v) (hle : v ≤ w)
    (hw : w < 4294967296) : 32 ≤ dir w := by
  rw [dir_eq (by omega)] at hv
  rw [dir_eq hw]
  omega

/-- Copying leaves the tables alone. -/
theorem Copying.kernel (h : Copying M₀ M ptable buffer v pos)
    (hs : Spaces M₀ dm dirs) (hp : ptable ∈ dirs) (hv : 32 ≤ dir v)
    (hend : v + pos ≤ 4294967296) {t : Nat} (ht : Kernel M₀.log t) :
    SamePage 4096 M₀.mem M.mem t := by
  refine fun k hk => h.others _ fun w h₁ h₂ hw => ?_
  exact hs.kernel_apart hp ht hk (dir_le hv h₁ (by omega)) hw rfl

theorem Copying.sameMaps (h : Copying M₀ M ptable buffer v pos)
    (hs : Spaces M₀ dm dirs) (hp : ptable ∈ dirs) (hv : 32 ≤ dir v)
    (hend : v + pos ≤ 4294967296) : SameMaps M₀ M dirs :=
  fun _ hq _ h₁ h₂ _ hlt => hs.toTables.pteAt_congr hq h₁ h₂ hlt fun _ ht =>
    h.kernel hs hp hv hend ht

theorem Copying.move (hM₀ : Owned M₀ dm dirs) (hp : ptable ∈ dirs)
    (hv : 32 ≤ dir v) : MoveRule ptable buffer v size fun pos M =>
      v + pos ≤ 4294967296 ∧ Copying M₀ M ptable buffer v pos := by
  intro pos M n ⟨_, h⟩ hphys hlt hn hoffset hle
  have hs := hM₀.spaces
  have hsame : translate M.mem ptable (v + pos) =
      translate M₀.mem ptable (v + pos) :=
    hs.toTables.translate_congr (fun t ht => h.kernel hs hp hv (by omega) ht) hp _
  rw [getPhysAddress_eq, hsame] at hphys ⊢
  cases ha : translate M₀.mem ptable (v + pos) with
  | none =>
      rw [ha] at hphys
      exact absurd rfl hphys
  | some a =>
      rw [Option.getD_some]
      have hwin := dir_le hv (Nat.le_add_right v pos) hlt
      obtain ⟨e, he, hae⟩ := hs.toTables.translate_above hp hwin ha
      have hhere : ∀ j, j < n →
          translate M₀.mem ptable (v + pos + j) = some (a + j) :=
        fun j hj => translate_add ha (by omega)
      have hpage : v + pos + n ≤ 4294967296 := by
        rw [offset] at hoffset
        omega
      have hothers : OnlyBehind M₀ M ptable v pos := h.others
      have hbytes : Arrived M₀ M ptable buffer v pos := h.bytes
      refine ⟨by omega, h.log.cons ⟨_, _, _, e, rfl, Nat.le_add_right v pos,
        hlt, he, by omega, by omega⟩, hothers.move hhere,
        hbytes.move hhere fun k j hk hj hkj => ?_⟩
      have heq := hM₀.translate_inj hp
        (dir_le hv (Nat.le_add_right v k) (by omega))
        (dir_le hv (by omega : v ≤ v + pos + j) (by omega))
        (by omega) (by omega) hkj (hhere j hj)
      omega

theorem Copying.start (M : Machine) : Copying M M ptable buffer v 0 :=
  ⟨.refl _ _, fun _ _ => rfl,
    fun k hk => absurd hk (Nat.not_lt_zero k)⟩

/-- What `copy_in` does above the window. -/
theorem copyIn_spec (hM : Owned M dm dirs) (hp : ptable ∈ dirs)
    (hv : 32 ≤ dir v) (hlt : v < 4294967296) (buffer : Nat → UInt8)
    (size : Nat) :
    ∃ pos, pos ≤ size ∧ v + pos ≤ 4294967296 ∧
      Copying M (copyIn M ptable v (some buffer) size false).2.1 ptable buffer
        v pos ∧
      (pos = size ∨ translate M.mem ptable (v + pos) = none ∨
        v + pos = 4294967296) := by
  have hne : v ≠ 0 := by
    rintro rfl
    exact absurd hv (by decide)
  have hmove : MoveRule ptable buffer v size fun pos M' =>
      v + pos ≤ 4294967296 ∧ Copying M M' ptable buffer v pos :=
    Copying.move hM hp hv
  obtain ⟨pos, hle, ⟨hend, hcopy⟩, hended⟩ := copyIn_rule hmove
    ⟨by omega, Copying.start M⟩ hne hlt
  refine ⟨pos, hle, hend, hcopy, ?_⟩
  rcases hended with hdone | hnone | hlast
  · exact .inl hdone
  · rcases Nat.lt_or_ge (v + pos) 4294967296 with hlt | hge
    · refine .inr (.inl ?_)
      rw [getPhysAddress_eq, hM.spaces.toTables.translate_congr (fun t ht =>
        hcopy.kernel hM.spaces hp hv hend ht) hp] at hnone
      cases ha : translate M.mem ptable (v + pos) with
      | none => rfl
      | some a =>
          have hwin := dir_le hv (Nat.le_add_right v pos) hlt
          obtain ⟨e, he, rfl⟩ := hM.spaces.toTables.translate_above hp hwin ha
          have hframe := hM.spaces.frames ptable hp _ hwin (dir_lt _) _
            (page_lt _) e he
          rw [ha, Option.getD_some] at hnone
          have hzero := user_ne_zero _ hframe.2.1
          omega
    · exact .inr (.inr (by omega))
  · exact .inr (.inr (by omega))

end Iposix.Vm
