import BitchKernel.Dev.Console

/-!
# The console as a window onto a terminal

A terminal of unlimited height has a row for every number and never scrolls. The console shows
the last lines of it: the cursor stays on the screen, nothing behind the screen is written, and
each scroll moves the window down by one row.
-/

namespace BitchKernel

/-- A terminal with a cell for every column and every row. -/
structure Terminal where
  cell : ℕ → ℕ → Cell
  x : ℕ
  y : ℕ

namespace Terminal

/-- The terminal of a colour, below the lines that `console_init` cleared. -/
def start (color : BitVec 8) : Terminal where
  cell _ y := if y < cgaLines then ⟨0, cgaAttribute⟩ else ⟨0, color⟩
  x := 0
  y := 0

def write (t : Terminal) (b : Cell) : Terminal :=
  { t with cell := fun x y => if x = t.x ∧ y = t.y then b else t.cell x y }

/-- The terminal after a character, before the line is wrapped. -/
def putchar (color : BitVec 8) (t : Terminal) (c : BitVec 8) : Terminal :=
  if c = 0x08 then { t with x := t.x - 1 }.write ⟨0, color⟩
  else if c = 0x09 then { t with x := min ((t.x / 8 + 1) * 8) (cgaColumns - 1) }
  else if c = 0x0d then { t with x := 0 }
  else if c = 0x0a then { t with x := 0, y := t.y + 1 }
  else if 0x20 ≤ c.toInt then { t.write ⟨c, color⟩ with x := t.x + 1 }
  else t

def wrap (t : Terminal) : Terminal :=
  if cgaColumns ≤ t.x then { t with x := 0, y := t.y + 1 } else t

def next (color : BitVec 8) (t : Terminal) (c : BitVec 8) : Terminal :=
  (t.putchar color c).wrap

end Terminal

/-! ## The loops of the screen -/

namespace Cga

theorem moveUp_apply (screen : ℕ → Cell) (line i k : ℕ) :
    moveUp screen line i k = if k < i then screen (k + line * 80) else screen k := by
  induction i generalizing k with
  | zero => rw [moveUp, if_neg (Nat.not_lt_zero k)]
  | succ i ih =>
      rw [moveUp]
      by_cases hk : k = i
      · rw [hk, Function.update_self, ih, if_neg (by omega), if_pos (Nat.lt_succ_self i)]
      · rw [Function.update_of_ne hk, ih]
        exact if_congr (by omega) rfl rfl

theorem fill_apply (screen : ℕ → Cell) (b : Cell) (i n k : ℕ) :
    fill screen b i n k = if i ≤ k ∧ k < i + n then b else screen k := by
  induction n with
  | zero => rw [fill, if_neg (by omega)]
  | succ n ih =>
      rw [fill, Function.update_apply, ih]
      by_cases hk : k = i + n
      · rw [if_pos hk, if_pos (by omega)]
      · rw [if_neg hk]
        exact if_congr (by omega) rfl rfl

theorem screenScroll_one (cga : Cga) (k : ℕ) :
    (cga.screenScroll 1).screen k =
      if k < cgaColumns * (cgaLines - 1) then cga.screen (k + cgaColumns)
      else if k < cgaColumns * cgaLines then cga.blank
      else cga.screen k := by
  have hi : mul32 cgaColumns (sub32 cgaLines 1) = cgaColumns * (cgaLines - 1) := by
    rw [sub32_of_le (by decide) (by decide), mul32_of_lt (by decide)]
  unfold screenScroll
  rw [hi]
  dsimp only
  rw [fill_apply, moveUp_apply]
  by_cases hmoved : k < cgaColumns * (cgaLines - 1)
  · rw [if_neg (by lia), if_pos hmoved, if_pos hmoved, Nat.one_mul]
  · rw [if_neg hmoved, if_neg hmoved]
    exact if_congr (by lia) rfl rfl

theorem screenWirte_screen (cga : Cga) (c : BitVec 8) {x y : ℕ} (hx : x < cgaColumns)
    (hy : y < cgaLines) :
    (cga.screenWirte c x y).screen =
      Function.update cga.screen (x + y * cgaColumns) ⟨c, cga.attr⟩ := by
  unfold screenWirte
  rw [mul32_of_lt (by lia), add32_of_lt (by lia)]

end Cga

/-! ## The window -/

/-- The cursor is on the screen, and the cursor register points to it. -/
structure Console.OnScreen (s : Console) : Prop where
  xpos : s.xpos < cgaColumns
  ypos : s.ypos < cgaLines
  location : s.cga.location = s.xpos + s.ypos * cgaColumns

theorem Console.onScreen_start (s : Console) (color : BitVec 8) : (s.start color).OnScreen := by
  refine ⟨(by decide : 0 < cgaColumns), (by decide : 0 < cgaLines), ?_⟩
  change add32 (mul32 0 cgaColumns) 0 % 2 ^ 16 = 0
  with_unfolding_all decide

/-- The console shows the rows of the terminal from row `k` on, with `before` behind the
screen. -/
structure Shows (color : BitVec 8) (before : ℕ → Cell) (s : Console) (t : Terminal) (k : ℕ) :
    Prop where
  columns : s.columns = cgaColumns
  lines : s.lines = cgaLines
  attr : s.cga.attr = color
  xpos : s.xpos = t.x
  ypos : s.ypos + k = t.y
  screen : ∀ x < cgaColumns, ∀ y < cgaLines,
    s.cga.screen (x + y * cgaColumns) = t.cell x (y + k)
  outside : ∀ i, cgaColumns * cgaLines ≤ i → s.cga.screen i = before i
  below : ∀ x y, k + cgaLines ≤ y → t.cell x y = ⟨0, color⟩

namespace Shows

variable {color : BitVec 8} {before : ℕ → Cell} {s : Console} {t : Terminal} {k : ℕ}

/-- A cell written under the cursor of the screen is written under the cursor of the
terminal. -/
theorem of_write (h : Shows color before s t k) (hx : s.xpos < cgaColumns)
    (hy : s.ypos < cgaLines) (c : BitVec 8) :
    Shows color before { s with cga := s.cga.screenWirte c s.xpos s.ypos } (t.write ⟨c, color⟩)
      k := by
  have hscreen := s.cga.screenWirte_screen c hx hy
  refine ⟨h.columns, h.lines, h.attr, h.xpos, h.ypos, fun x hx' y hy' => ?_, fun i hi => ?_,
    fun x y hy' => ?_⟩
  · dsimp only [Terminal.write]
    rw [hscreen, Function.update_apply, h.attr, h.screen x hx' y hy']
    have hxpos := h.xpos
    have hypos := h.ypos
    exact if_congr (by lia) rfl rfl
  · rw [hscreen, Function.update_of_ne (by lia)]
    exact h.outside i hi
  · have hypos := h.ypos
    dsimp only [Terminal.write]
    rw [if_neg (by lia)]
    exact h.below x y hy'

theorem of_move (h : Shows color before s t k) {xpos ypos x y : ℕ} (hx : xpos = x)
    (hy : ypos + k = y) :
    Shows color before { s with xpos := xpos, ypos := ypos } { t with x := x, y := y } k :=
  ⟨h.columns, h.lines, h.attr, hx, hy, h.screen, h.outside, h.below⟩

theorem of_putchar (h : Shows color before s t k) (hx : s.xpos < cgaColumns)
    (hy : s.ypos < cgaLines) (c : BitVec 8) :
    Shows color before (s.putchar c) (t.putchar color c) k ∧
      ((s.putchar c).xpos ≤ cgaColumns ∧ (s.putchar c).ypos < cgaLines ∨
        (s.putchar c).xpos = 0 ∧ (s.putchar c).ypos = cgaLines) := by
  have hxpos := h.xpos
  have hypos := h.ypos
  unfold Console.putchar Terminal.putchar
  by_cases hback : c = 0x08
  · rw [if_pos hback, if_pos hback]
    have hleft : (if s.xpos ≠ 0 then sub32 s.xpos 1 else s.xpos) = t.x - 1 := by
      split
      · rw [sub32_of_le (by omega) (by lia), hxpos]
      · omega
    rw [hleft]
    have hmove := h.of_move (rfl : t.x - 1 = t.x - 1) hypos
    exact ⟨hmove.of_write (by dsimp only; lia) hy 0, Or.inl ⟨by dsimp only; lia, hy⟩⟩
  · rw [if_neg hback, if_neg hback]
    by_cases htab : c = 0x09
    · rw [if_pos htab, if_pos htab]
      have hstop : (if s.columns ≤ add32 s.xpos Console.tabSize / Console.tabSize *
            Console.tabSize then sub32 s.columns 1
          else add32 s.xpos Console.tabSize / Console.tabSize * Console.tabSize) =
          min ((t.x / 8 + 1) * 8) (cgaColumns - 1) := by
        rw [h.columns, add32_of_lt (by lia), sub32_of_le (by decide) (by decide), hxpos]
        split <;> lia
      dsimp only
      rw [hstop]
      exact ⟨h.of_move rfl hypos, Or.inl ⟨by lia, hy⟩⟩
    · rw [if_neg htab, if_neg htab]
      by_cases hreturn : c = 0x0d
      · rw [if_pos hreturn, if_pos hreturn]
        exact ⟨h.of_move rfl hypos, Or.inl ⟨Nat.zero_le _, hy⟩⟩
      · rw [if_neg hreturn, if_neg hreturn]
        by_cases hline : c = 0x0a
        · rw [if_pos hline, if_pos hline, add32_of_lt (by lia)]
          refine ⟨h.of_move rfl (by omega), ?_⟩
          dsimp only
          lia
        · rw [if_neg hline, if_neg hline]
          by_cases hprint : 0x20 ≤ c.toInt
          · rw [if_pos hprint, if_pos hprint, add32_of_lt (by lia)]
            have hwrite := h.of_write hx hy c
            exact ⟨hwrite.of_move (by omega) hypos, Or.inl ⟨by dsimp only; lia, hy⟩⟩
          · rw [if_neg hprint, if_neg hprint]
            exact ⟨h, Or.inl ⟨Nat.le_of_lt hx, hy⟩⟩

theorem of_wrap (h : Shows color before s t k)
    (hcursor : s.xpos ≤ cgaColumns ∧ s.ypos < cgaLines ∨ s.xpos = 0 ∧ s.ypos = cgaLines) :
    Shows color before s.wrap t.wrap k ∧ s.wrap.xpos < cgaColumns ∧ s.wrap.ypos ≤ cgaLines := by
  have hxpos := h.xpos
  have hypos := h.ypos
  unfold Console.wrap Terminal.wrap
  have hcolumns := h.columns
  by_cases hend : cgaColumns ≤ t.x
  · rw [if_pos (by omega), if_pos hend, add32_of_lt (by lia)]
    refine ⟨h.of_move rfl (by omega), ?_⟩
    dsimp only
    lia
  · rw [if_neg (by omega), if_neg hend]
    exact ⟨h, by lia, by lia⟩

/-- A scroll moves the window down by one row, which nothing has been written to. -/
theorem of_scroll (h : Shows color before s t k) (hy : s.ypos ≤ cgaLines) :
    Shows color before s.scroll t (k + if s.lines ≤ s.ypos then 1 else 0) ∧
      s.scroll.xpos = s.xpos ∧ s.scroll.ypos < cgaLines := by
  have hypos := h.ypos
  have hlines := h.lines
  have hup : sub32 s.lines 1 = cgaLines - 1 := by
    rw [h.lines, sub32_of_le (by decide) (by decide)]
  unfold Console.scroll
  by_cases hend : s.lines ≤ s.ypos
  · rw [if_pos hend, if_pos hend, hup]
    refine ⟨⟨h.columns, h.lines, h.attr, h.xpos, ?_, fun x hx y hy' => ?_, fun i hi => ?_,
      fun x y hy' => h.below x y (by omega)⟩, rfl, by dsimp only; lia⟩
    · dsimp only
      lia
    · dsimp only
      rw [Cga.screenScroll_one]
      by_cases hlast : y = cgaLines - 1
      · rw [if_neg (by lia), if_pos (by lia), h.below x _ (by lia)]
        exact congrArg (Cell.mk 0) h.attr
      · have hup : x + y * cgaColumns + cgaColumns = x + (y + 1) * cgaColumns := by lia
        rw [if_pos (by lia), hup, h.screen x hx (y + 1) (by lia)]
        exact congrArg (t.cell x) (by omega)
    · dsimp only
      rw [Cga.screenScroll_one, if_neg (by lia), if_neg (by lia)]
      exact h.outside i hi
  · rw [if_neg hend, if_neg hend]
    exact ⟨h, rfl, by omega⟩

/-- One character moves the window by the scrolls it takes, and leaves the cursor on the
screen. -/
theorem of_consolePutchar (h : Shows color before s t k) (hs : s.OnScreen) (c : BitVec 8) :
    Shows color before (s.consolePutchar c) (t.next color c) (k + s.scrolls [c]) ∧
      (s.consolePutchar c).OnScreen := by
  obtain ⟨hputchar, hcursor⟩ := h.of_putchar hs.xpos hs.ypos c
  obtain ⟨hwrap, hx', hy'⟩ := hputchar.of_wrap hcursor
  obtain ⟨hscroll, hxpos, hypos⟩ := hwrap.of_scroll hy'
  have hlines : ((s.putchar c).wrap).lines = s.lines := by
    rw [hwrap.lines, h.lines]
  rw [hlines] at hscroll
  rw [← hxpos] at hx'
  refine ⟨⟨hscroll.columns, hscroll.lines, hscroll.attr, hscroll.xpos, hscroll.ypos,
    hscroll.screen, hscroll.outside, hscroll.below⟩, hx', hypos, ?_⟩
  change add32 (mul32 _ _) _ % 2 ^ 16 = _
  dsimp only [Console.consolePutchar]
  rw [mul32_of_lt (by lia), add32_of_lt (by lia), Nat.mod_eq_of_lt (by lia), Nat.add_comm]

theorem of_start (s : Console) (color : BitVec 8) :
    Shows color s.cga.screen (s.start color) (Terminal.start color) 0 := by
  have hcell (i : ℕ) : (s.start color).cga.screen i =
      if i < cgaColumns * cgaLines then ⟨0, cgaAttribute⟩ else s.cga.screen i := by
    change Cga.fill s.cga.screen ⟨0, cgaAttribute⟩ 0 (cgaColumns * cgaLines) i = _
    rw [Cga.fill_apply, Nat.zero_add]
    exact if_congr (by omega) rfl rfl
  refine ⟨rfl, rfl, rfl, rfl, rfl, fun x hx y hy => ?_, fun i hi => ?_, fun x y hy => ?_⟩
  · rw [hcell, if_pos (by lia)]
    exact (if_pos hy).symm
  · rw [hcell, if_neg (by omega)]
  · exact if_neg (by omega)

theorem of_list (h : Shows color before s t k) (hs : s.OnScreen) (l : List (BitVec 8)) :
    Shows color before (l.foldl Console.consolePutchar s) (l.foldl (Terminal.next color) t)
        (k + s.scrolls l) ∧
      (l.foldl Console.consolePutchar s).OnScreen := by
  induction l generalizing s t k with
  | nil => exact ⟨h, hs⟩
  | cons c l ih =>
      obtain ⟨hnext, hs'⟩ := h.of_consolePutchar hs c
      have hsum : k + s.scrolls (c :: l) = k + s.scrolls [c] + (s.consolePutchar c).scrolls l := by
        simp only [Console.scrolls]
        omega
      rw [hsum]
      exact ih hnext hs'

end Shows

/-- The console shows the last lines of the terminal: after every list of characters the cursor
is on the screen, cursor and cells are those of the terminal moved up by the number of scrolls,
and no cell behind the screen was written. -/
theorem console_shows_terminal (s₀ : Console) (color : BitVec 8) (l : List (BitVec 8)) :
    let s := l.foldl Console.consolePutchar (s₀.start color)
    let t := l.foldl (Terminal.next color) (Terminal.start color)
    let scrolls := (s₀.start color).scrolls l
    s.xpos < s.columns ∧ s.ypos < s.lines ∧
      s.xpos = t.x ∧ s.ypos + scrolls = t.y ∧
      s.cga.location = s.xpos + s.ypos * s.columns ∧
      (∀ x < s.columns, ∀ y < s.lines,
        s.cga.screen (x + y * s.columns) = t.cell x (y + scrolls)) ∧
      ∀ i, s.columns * s.lines ≤ i → s.cga.screen i = s₀.cga.screen i := by
  obtain ⟨h, hx, hy, hlocation⟩ := (Shows.of_start s₀ color).of_list (Console.onScreen_start s₀ color) l
  rw [Nat.zero_add] at h
  dsimp only
  rw [h.columns, h.lines]
  exact ⟨hx, hy, h.xpos, h.ypos, hlocation, h.screen, h.outside⟩

end BitchKernel
