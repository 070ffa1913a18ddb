import BitchKernel.Def
import Mathlib.Logic.Function.Basic

/-!
# The console

`kernel/dev/console.c` over `driver/cga.c`. The video memory is a function from the number of a
cell, and a cell holds a character and its attribute: a 16-bit word of the video memory is the
cell at its number, with the character in the low byte.
-/

namespace BitchKernel

/-- A cell of the video memory. -/
structure Cell where
  char : BitVec 8
  attr : BitVec 8
deriving DecidableEq

abbrev cgaColumns : ℕ := 80

abbrev cgaLines : ℕ := 25

def cgaAttribute : BitVec 8 := 0x07

/-- The variables of `cga.c`, the video memory and the cursor register. -/
structure Cga where
  attr : BitVec 8
  screen : ℕ → Cell
  location : ℕ

namespace Cga

/-- The word `attribute << 8 & 0xff00`. -/
def blank (cga : Cga) : Cell where
  char := 0
  attr := cga.attr

def screenWirte (cga : Cga) (c : BitVec 8) (x y : ℕ) : Cga :=
  { cga with
    screen := Function.update cga.screen (add32 x (mul32 y cgaColumns)) ⟨c, cga.attr⟩ }

/-- The first `i` steps of the loop of `screen_scroll` that moves the lines up. -/
def moveUp (screen : ℕ → Cell) (line : ℕ) : (i : ℕ) → ℕ → Cell
  | 0 => screen
  | i + 1 => Function.update (moveUp screen line i) i (moveUp screen line i (i + line * 80))

/-- The first `n` steps, from `i` on, of a loop that fills the screen. -/
def fill (screen : ℕ → Cell) (b : Cell) (i : ℕ) : (n : ℕ) → ℕ → Cell
  | 0 => screen
  | n + 1 => Function.update (fill screen b i n) (i + n) b

def screenScroll (cga : Cga) (line : ℕ) : Cga :=
  let i := mul32 cgaColumns (sub32 cgaLines line)
  { cga with screen := fill (moveUp cga.screen line i) cga.blank i (cgaColumns * cgaLines - i) }

def screenClear (cga : Cga) : Cga :=
  { cga with screen := fill cga.screen cga.blank 0 (cgaColumns * cgaLines) }

def setVideoColor (cga : Cga) (color : BitVec 8) : Cga :=
  { cga with attr := color }

def setCursor (cga : Cga) (x y : ℕ) : Cga :=
  { cga with location := add32 (mul32 y cgaColumns) x % 2 ^ 16 }

def initCga (cga : Cga) : Cga :=
  ({ cga with attr := cgaAttribute }.screenClear).setCursor 0 0

end Cga

/-- The variables of `console.c`, over the screen. -/
structure Console where
  cga : Cga
  columns : ℕ
  lines : ℕ
  xpos : ℕ
  ypos : ℕ

namespace Console

abbrev tabSize : ℕ := 8

/-- The `if` over the character in `console_putchar`. A character from `0x80` on is below zero
as a `char`. -/
def putchar (s : Console) (c : BitVec 8) : Console :=
  if c = 0x08 then
    let xpos := if s.xpos ≠ 0 then sub32 s.xpos 1 else s.xpos
    { s with xpos := xpos, cga := s.cga.screenWirte 0 xpos s.ypos }
  else if c = 0x09 then
    let xpos := add32 s.xpos tabSize / tabSize * tabSize
    { s with xpos := if s.columns ≤ xpos then sub32 s.columns 1 else xpos }
  else if c = 0x0d then { s with xpos := 0 }
  else if c = 0x0a then { s with xpos := 0, ypos := add32 s.ypos 1 }
  else if 0x20 ≤ c.toInt then
    { s with cga := s.cga.screenWirte c s.xpos s.ypos, xpos := add32 s.xpos 1 }
  else s

/-- `if (xpos >= columns)` of `console_putchar`. -/
def wrap (s : Console) : Console :=
  if s.columns ≤ s.xpos then { s with xpos := 0, ypos := add32 s.ypos 1 } else s

/-- `if (ypos >= lines)` of `console_putchar`. -/
def scroll (s : Console) : Console :=
  if s.lines ≤ s.ypos then { s with cga := s.cga.screenScroll 1, ypos := sub32 s.lines 1 } else s

def consolePutchar (s : Console) (c : BitVec 8) : Console :=
  let s := ((s.putchar c).wrap).scroll
  { s with cga := s.cga.setCursor s.xpos s.ypos }

def consoleInit (s : Console) : Console where
  cga := s.cga.initCga
  columns := cgaColumns
  lines := cgaLines
  xpos := 0
  ypos := 0

/-- How often `console_putchar` scrolls for the characters of a list. -/
def scrolls (s : Console) : List (BitVec 8) → ℕ
  | [] => 0
  | c :: l =>
      (if s.lines ≤ ((s.putchar c).wrap).ypos then 1 else 0) + scrolls (s.consolePutchar c) l

/-- `console_init`, and the choice of a colour for what follows. -/
def start (s : Console) (color : BitVec 8) : Console :=
  { s.consoleInit with cga := s.consoleInit.cga.setVideoColor color }

end Console

end BitchKernel
