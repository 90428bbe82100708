import Iposix.Devices.Video

/-!
# The screen is a window on an endless terminal

`Terminal` has 80 columns and as many rows as are needed, and never scrolls.
The screen shows the 25 rows that end with its cursor's, or the first 25 as
long as these are not full. A row of the terminal the cursor has not reached is
blank, which is why clearing the last row is all a scroll has to do.
-/

namespace Iposix.Devices

structure Terminal where
  column : Nat
  row : Nat
  cell : Nat → Nat → UInt16

namespace Terminal

def empty (colors : UInt16) : Terminal where
  column := 0
  row := 0
  cell _ _ := Video.cell colors 0x20

def write (t : Terminal) (w : UInt16) : Terminal :=
  { t with
    cell := Function.update t.cell t.row
      (Function.update (t.cell t.row) t.column w)
    column := t.column + 1 }

def putChar (colors : UInt16) (t : Terminal) (c : UInt8) : Terminal :=
  if c = 0x08 then { t with column := t.column - 1 }
  else if c = 0x09 then { t with column := (t.column / 8 + 1) * 8 }
  else if c = 0x0D then { t with column := 0 }
  else if c = 0x0A then { t with column := 0, row := t.row + 1 }
  else if 0x20 ≤ c ∧ c < 0x80 then t.write (Video.cell colors c)
  else t

def wrapLine (t : Terminal) : Terminal :=
  if 80 ≤ t.column then { t with column := 0, row := t.row + 1 } else t

def put (colors : UInt16) (t : Terminal) (c : UInt8) : Terminal :=
  (t.putChar colors c).wrapLine

end Terminal

namespace Video

variable {v : Video} {t : Terminal} {f : Video → Nat → UInt16}

/-! ## Loops that store -/

/-- `w` is `v` but for the cells in `[a, b)` and what was recorded of them. -/
structure Changed (a b : Nat) (v w : Video) : Prop where
  cursorX : w.cursorX = v.cursorX
  cursorY : w.cursorY = v.cursorY
  colors : w.colors = v.colors
  outside : ∀ k, k < a ∨ b ≤ k → w.videomem k = v.videomem k
  stored : ∀ k, k ∈ w.stored → k ∈ v.stored ∨ (a ≤ k ∧ k < b)

theorem storeFrom_changed (f : Video → Nat → UInt16) :
    ∀ turns i v, Changed i (i + turns) v (storeFrom f turns i v) := by
  intro turns
  induction turns with
  | zero =>
      intro i v
      exact ⟨rfl, rfl, rfl, fun _ _ => rfl, fun _ hk => .inl hk⟩
  | succ turns ih =>
      intro i v
      have hrest := ih (i + 1) (v.store i (f v i))
      refine ⟨hrest.cursorX, hrest.cursorY, hrest.colors, fun k hk => ?_,
        fun k hk => ?_⟩
      · exact (hrest.outside k (by omega)).trans
          (Function.update_of_ne (by omega) _ _)
      · rcases hrest.stored k hk with hk | hk
        · rcases List.mem_cons.1 hk with rfl | hk
          · exact .inr (by omega)
          · exact .inl hk
        · exact .inr (by omega)

/-- A value that does not depend on cells stored to before is the one it has
when the loop starts. -/
theorem storeFrom_cell (hf : ∀ v j w k, j < k → f (v.store j w) k = f v k) :
    ∀ turns i v k, i ≤ k → k < i + turns →
      (storeFrom f turns i v).videomem k = f v k := by
  intro turns
  induction turns with
  | zero => intro i v k _ _; omega
  | succ turns ih =>
      intro i v k hik hk
      rcases Nat.eq_or_lt_of_le hik with rfl | hlt
      · exact ((storeFrom_changed f turns (i + 1) _).outside i (by omega)).trans
          (Function.update_self ..)
      · exact (ih (i + 1) _ k hlt (by omega)).trans (hf v i _ k hlt)

theorem blank_store (v : Video) (j : Nat) (w : UInt16) (k : Nat) (_ : j < k) :
    blank (v.store j w) k = blank v k := rfl

theorem below_store (v : Video) (j : Nat) (w : UInt16) (k : Nat) (h : j < k) :
    below (v.store j w) k = below v k :=
  Function.update_of_ne (by omega) _ _

/-! ## The screen and the terminal -/

/-- `v` shows the rows of `t` from `top` on, and whatever comes below them is
blank. Stores in `earlier` do not count. -/
structure Shows (colors : UInt16) (earlier : List Nat) (top : Nat) (v : Video)
    (t : Terminal) : Prop where
  colored : v.colors = colors
  column : v.cursorX = t.column
  row : top + v.cursorY = t.row
  cell : ∀ y x, y < 25 → x < 80 →
    v.videomem (80 * y + x) = t.cell (top + y) x
  blank : ∀ y x, top + 25 ≤ y → t.cell y x = Video.cell colors 0x20
  stored : ∀ k, k ∈ v.stored → k ∈ earlier ∨ k < 80 * 25

variable {earlier : List Nat} {colors : UInt16} {top : Nat}

theorem clear_shows (v : Video) :
    Shows v.colors v.stored 0 v.clear (.empty v.colors) := by
  have hchanged := storeFrom_changed blank (80 * 25) 0 v
  have hcell := storeFrom_cell blank_store (80 * 25) 0 v
  rw [clear]
  generalize storeFrom blank (80 * 25) 0 v = w at hchanged hcell
  refine ⟨hchanged.colors, rfl, rfl, fun y x hy hx => ?_, fun _ _ _ => rfl,
    fun k hk => ?_⟩
  · exact hcell (80 * y + x) (Nat.zero_le _) (by omega)
  · exact (hchanged.stored k hk).imp_right fun hk => by omega

theorem store_shows (h : Shows colors earlier top v t) (hx : v.cursorX < 80)
    (hy : v.cursorY < 25) (w : UInt16) :
    Shows colors earlier top
      { v.store (v.cursorY * 80 + v.cursorX) w with
        cursorX := v.cursorX + 1 } (t.write w) := by
  refine ⟨h.colored, congrArg (· + 1) h.column, h.row, fun y x hy' hx' => ?_,
    fun y x hy' => ?_, fun k hk => ?_⟩
  · show Function.update v.videomem (v.cursorY * 80 + v.cursorX) w (80 * y + x) =
      Function.update t.cell t.row (Function.update (t.cell t.row) t.column w)
        (top + y) x
    rw [← h.row, ← h.column]
    by_cases hrow : y = v.cursorY
    · subst hrow
      rw [Function.update_self]
      by_cases hcol : x = v.cursorX
      · rw [hcol, Nat.mul_comm, Function.update_self, Function.update_self]
      · rw [Function.update_of_ne (by omega), Function.update_of_ne hcol]
        exact h.cell _ x hy' hx'
    · rw [Function.update_of_ne (by omega), Function.update_of_ne (by omega)]
      exact h.cell y x hy' hx'
  · have hrow := h.row
    have hne : y ≠ t.row := by omega
    exact (congrFun (Function.update_of_ne hne _ _) x).trans (h.blank y x hy')
  · rcases List.mem_cons.1 hk with rfl | hk
    · exact .inr (by omega)
    · exact h.stored k hk

/-- A character moves the cursor at most to the end of its row, or to the start
of the next one. -/
theorem putChar_shows (h : Shows colors earlier top v t) (hx : v.cursorX < 80)
    (hy : v.cursorY < 25) (c : UInt8) :
    Shows colors earlier top (v.putChar c) (t.putChar colors c) ∧
      (v.cursorY = (v.putChar c).cursorY ∧ (v.putChar c).cursorX ≤ 80 ∨
        v.cursorY + 1 = (v.putChar c).cursorY ∧ (v.putChar c).cursorX = 0) := by
  have hcol := h.column
  rw [putChar, Terminal.putChar]
  split
  · split
    · refine ⟨⟨h.colored, ?_, h.row, h.cell, h.blank, h.stored⟩,
        .inl ⟨rfl, ?_⟩⟩
      · exact congrArg (· - 1) hcol
      · show v.cursorX - 1 ≤ 80
        omega
    next hzero =>
      refine ⟨⟨h.colored, ?_, h.row, h.cell, h.blank, h.stored⟩,
        .inl ⟨rfl, Nat.le_of_lt hx⟩⟩
      show v.cursorX = t.column - 1
      omega
  · split
    · refine ⟨⟨h.colored, ?_, h.row, h.cell, h.blank, h.stored⟩,
        .inl ⟨rfl, ?_⟩⟩
      · show (v.cursorX + 8) / 8 * 8 = (t.column / 8 + 1) * 8
        omega
      · show (v.cursorX + 8) / 8 * 8 ≤ 80
        omega
    · split
      · exact ⟨⟨h.colored, rfl, h.row, h.cell, h.blank, h.stored⟩,
          .inl ⟨rfl, Nat.zero_le _⟩⟩
      · split
        · exact ⟨⟨h.colored, rfl, congrArg (· + 1) h.row, h.cell, h.blank,
            h.stored⟩, .inr ⟨rfl, rfl⟩⟩
        · split
          · refine ⟨?_, .inl ⟨rfl, hx⟩⟩
            rw [h.colored]
            exact store_shows h hx hy _
          · exact ⟨h, .inl ⟨rfl, Nat.le_of_lt hx⟩⟩

theorem wrapLine_shows (h : Shows colors earlier top v t) :
    Shows colors earlier top v.wrapLine t.wrapLine := by
  have hcolumn := h.column
  rw [wrapLine, Terminal.wrapLine]
  split
  next hge =>
    rw [if_pos (by omega)]
    exact ⟨h.colored, rfl, congrArg (· + 1) h.row, h.cell, h.blank, h.stored⟩
  next hlt =>
    rw [if_neg (by omega)]
    exact h

/-- Scrolling shows the rows from the next one on. -/
theorem scroll_shows (h : Shows colors earlier top v t) (hy : v.cursorY = 25) :
    Shows colors earlier (top + 1) v.scroll t := by
  rw [scroll, if_pos (by omega)]
  dsimp only
  have hmoved := storeFrom_changed below (80 * 24) 0 v
  have hbelow := storeFrom_cell below_store (80 * 24) 0 v
  generalize storeFrom below (80 * 24) 0 v = w at hmoved hbelow ⊢
  have hcleared := storeFrom_changed blank 80 (80 * 24) w
  have hblank := storeFrom_cell blank_store 80 (80 * 24) w
  generalize storeFrom blank 80 (80 * 24) w = u at hcleared hblank ⊢
  have hrow := h.row
  refine ⟨hcleared.colors.trans (hmoved.colors.trans h.colored),
    hcleared.cursorX.trans (hmoved.cursorX.trans h.column), ?_,
    fun y x hy' hx' => ?_, fun y x hy' => h.blank y x (by omega),
    fun k hk => ?_⟩
  · show top + 1 + 24 = t.row
    omega
  · show u.videomem (80 * y + x) = t.cell (top + 1 + y) x
    rcases Nat.lt_or_ge y 24 with hlt | hge
    · rw [hcleared.outside _ (by omega), hbelow _ (Nat.zero_le _) (by omega),
        below, (by omega : 80 * y + x + 80 = 80 * (y + 1) + x),
        h.cell (y + 1) x (by omega) hx', Nat.add_assoc, Nat.add_comm 1 y]
    · rw [hblank _ (by omega) (by omega), h.blank _ x (by omega), blank,
        hmoved.colors, h.colored]
  · rcases hcleared.stored k hk with hk | hk
    · rcases hmoved.stored k hk with hk | hk
      · exact h.stored k hk
      · exact .inr (by omega)
    · exact .inr (by omega)

/-- The screen between two characters. -/
structure OnScreen (colors : UInt16) (earlier : List Nat) (v : Video)
    (t : Terminal) : Prop where
  window : Shows colors earlier (t.row - 24) v t
  cursorX : v.cursorX < 80
  cursorY : v.cursorY < 25

theorem clear_onScreen (v : Video) :
    OnScreen v.colors v.stored v.clear (.empty v.colors) :=
  ⟨clear_shows v, Nat.zero_lt_succ _, Nat.zero_lt_succ _⟩

theorem put_onScreen (h : OnScreen colors earlier v t) (c : UInt8) :
    OnScreen colors earlier (v.put c) (t.put colors c) := by
  have htop := h.window.row
  have hy := h.cursorY
  obtain ⟨hput, hcursor⟩ := putChar_shows h.window h.cursorX hy c
  have hwrapped := wrapLine_shows hput
  have hx : (v.putChar c).wrapLine.cursorX < 80 ∧
      v.cursorY ≤ (v.putChar c).wrapLine.cursorY ∧
      (v.putChar c).wrapLine.cursorY ≤ 25 := by
    generalize v.putChar c = w at hcursor
    rw [wrapLine]
    split
    next hge =>
      show 0 < 80 ∧ v.cursorY ≤ w.cursorY + 1 ∧ w.cursorY + 1 ≤ 25
      omega
    next hlt => omega
  rw [put, Terminal.put]
  generalize (v.putChar c).wrapLine = w at hwrapped hx
  generalize (t.putChar colors c).wrapLine = u at hwrapped
  have hrow := hwrapped.row
  suffices hscrolled : OnScreen colors earlier w.scroll u from
    ⟨⟨hscrolled.window.colored, hscrolled.window.column,
      hscrolled.window.row, hscrolled.window.cell, hscrolled.window.blank,
      hscrolled.window.stored⟩, hscrolled.cursorX, hscrolled.cursorY⟩
  by_cases hlast : w.cursorY = 25
  · have hmoved := scroll_shows hwrapped hlast
    have htop' : u.row - 24 = t.row - 24 + 1 := by omega
    have hrow' := hmoved.row
    refine ⟨by rwa [htop'], ?_, by omega⟩
    rw [hmoved.column, ← hwrapped.column]
    exact hx.1
  · have hstay : w.scroll = w := by rw [scroll, if_neg (by omega)]
    have htop' : u.row - 24 = t.row - 24 := by omega
    rw [hstay]
    exact ⟨by rwa [htop'], hx.1, by omega⟩

/-- Whatever is written after the screen was cleared, it shows the last rows of
the terminal. -/
theorem put_refines_terminal (v : Video) (cs : List UInt8) :
    let screen := cs.foldl put v.clear
    let t := cs.foldl (Terminal.put v.colors) (Terminal.empty v.colors)
    screen.cursorX < 80 ∧ screen.cursorY < 25 ∧
      (∀ k, k ∈ screen.stored → k ∈ v.stored ∨ k < 80 * 25) ∧
      ∀ y x, y < 25 → x < 80 →
        screen.videomem (80 * y + x) = t.cell (t.row - 24 + y) x := by
  suffices hrun : ∀ (cs : List UInt8) (w : Video) (t : Terminal),
      OnScreen v.colors v.stored w t →
      OnScreen v.colors v.stored (cs.foldl put w)
        (cs.foldl (Terminal.put v.colors) t) by
    have h := hrun cs v.clear (.empty v.colors) (clear_onScreen v)
    exact ⟨h.cursorX, h.cursorY, h.window.stored, h.window.cell⟩
  intro cs
  induction cs with
  | nil => intro w t h; exact h
  | cons c cs ih => intro w t h; exact ih _ _ (put_onScreen h c)

end Video

end Iposix.Devices
