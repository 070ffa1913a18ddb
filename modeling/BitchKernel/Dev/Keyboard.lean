import BitchKernel.Lib.Flag

/-!
# The keyboard handler

`keyboard_handler` of `kernel/dev/keyboard.c` with its table. The handler gets the scan codes one
at a time and remembers prefixes and modifier keys in one word of flags. The row behind the table
is an argument: it is read for the code `0x80`.
-/

namespace BitchKernel

open Lib

/-! ## Keys -/

abbrev keyFlagExt : ℕ := 0x80

abbrev keyFlagBreak : ℕ := 0x100

abbrev keyTabInput : ℕ := 0x09

abbrev keyEnterInput : ℕ := 0x0a

abbrev keyBackspaceInput : ℕ := 0x08

abbrev keyEsc : ℕ := 0x01 + keyFlagExt

abbrev keyTab : ℕ := 0x02 + keyFlagExt

abbrev keyEnter : ℕ := 0x03 + keyFlagExt

abbrev keyBackspace : ℕ := 0x04 + keyFlagExt

abbrev keyGuiL : ℕ := 0x05 + keyFlagExt

abbrev keyGuiR : ℕ := 0x06 + keyFlagExt

abbrev keyApps : ℕ := 0x07 + keyFlagExt

abbrev keyShiftL : ℕ := 0x08 + keyFlagExt

abbrev keyShiftR : ℕ := 0x09 + keyFlagExt

abbrev keyCtrlL : ℕ := 0x0a + keyFlagExt

abbrev keyCtrlR : ℕ := 0x0b + keyFlagExt

abbrev keyAltL : ℕ := 0x0c + keyFlagExt

abbrev keyAltR : ℕ := 0x0d + keyFlagExt

abbrev keyCapsLock : ℕ := 0x0e + keyFlagExt

abbrev keyNumLock : ℕ := 0x0f + keyFlagExt

abbrev keyScrollLock : ℕ := 0x10 + keyFlagExt

/-- `KEY_F1` to `KEY_F12`. -/
abbrev keyF (n : ℕ) : ℕ := 0x10 + n + keyFlagExt

abbrev keyInsert : ℕ := 0x1f + keyFlagExt

abbrev keyDelete : ℕ := 0x20 + keyFlagExt

abbrev keyHome : ℕ := 0x21 + keyFlagExt

abbrev keyEnd : ℕ := 0x22 + keyFlagExt

abbrev keyPageup : ℕ := 0x23 + keyFlagExt

abbrev keyPagedown : ℕ := 0x24 + keyFlagExt

abbrev keyUp : ℕ := 0x25 + keyFlagExt

abbrev keyDown : ℕ := 0x26 + keyFlagExt

abbrev keyLeft : ℕ := 0x27 + keyFlagExt

abbrev keyRight : ℕ := 0x28 + keyFlagExt

abbrev keyPadSlash : ℕ := 0x2c + keyFlagExt

abbrev keyPadMinus : ℕ := 0x2e + keyFlagExt

abbrev keyPadPlus : ℕ := 0x2f + keyFlagExt

abbrev keyPadEnter : ℕ := 0x30 + keyFlagExt

abbrev keyPadDot : ℕ := 0x31 + keyFlagExt

/-- `KEY_PAD_0` to `KEY_PAD_9`. -/
abbrev keyPad (n : ℕ) : ℕ := 0x32 + n + keyFlagExt

/-! ## The table -/

/-- A row of the table: the key, the key with Shift, and the key behind the prefix `E0`. -/
structure KeyRow where
  plain : ℕ
  shifted : ℕ
  extended : ℕ

def KeyRow.key (key extended : ℕ) : KeyRow := ⟨key, key, extended⟩

def KeyRow.chars (plain shifted : Char) : KeyRow := ⟨plain.toNat, shifted.toNat, 0⟩

/-- The rows of `keyboard_map` that are not zero throughout the rest of it. -/
def keyRows : List KeyRow :=
  [.key 0 0, .key keyEsc 0, .chars '1' '!', .chars '2' '@', .chars '3' '#', .chars '4' '$',
    .chars '5' '%', .chars '6' '^', .chars '7' '&', .chars '8' '*', .chars '9' '(', .chars '0' ')',
    .chars '-' '_', .chars '=' '+', .key keyBackspace 0, .key keyTab 0, .chars 'q' 'Q',
    .chars 'w' 'W', .chars 'e' 'E', .chars 'r' 'R', .chars 't' 'T', .chars 'y' 'Y', .chars 'u' 'U',
    .chars 'i' 'I', .chars 'o' 'O', .chars 'p' 'P', ⟨0x5b, 0x7b, 0⟩, ⟨0x5d, 0x7d, 0⟩,
    .key keyEnter keyPadEnter, .key keyCtrlL keyCtrlR, .chars 'a' 'A', .chars 's' 'S',
    .chars 'd' 'D', .chars 'f' 'F', .chars 'g' 'G', .chars 'h' 'H', .chars 'j' 'J', .chars 'k' 'K',
    .chars 'l' 'L', .chars ';' ':', ⟨0x27, 0x22, 0⟩, ⟨0x60, 0x7e, 0⟩, .key keyShiftL 0,
    ⟨0x5c, 0x7c, 0⟩, .chars 'z' 'Z', .chars 'x' 'X', .chars 'c' 'C', .chars 'v' 'V', .chars 'b' 'B',
    .chars 'n' 'N', .chars 'm' 'M', .chars ',' '<', .chars '.' '>', ⟨0x2f, 0x3f, keyPadSlash⟩,
    .key keyShiftR 0, .chars '*' '*', .key keyAltL keyAltR, .chars ' ' ' ', .key keyCapsLock 0,
    .key (keyF 1) 0, .key (keyF 2) 0, .key (keyF 3) 0, .key (keyF 4) 0, .key (keyF 5) 0,
    .key (keyF 6) 0, .key (keyF 7) 0, .key (keyF 8) 0, .key (keyF 9) 0, .key (keyF 10) 0,
    .key keyNumLock 0, .key keyScrollLock 0, ⟨keyPad 7, 0x37, keyHome⟩, ⟨keyPad 8, 0x38, keyUp⟩,
    ⟨keyPad 9, 0x39, keyPageup⟩, ⟨keyPadMinus, 0x2d, 0⟩, ⟨keyPad 4, 0x34, keyLeft⟩,
    ⟨keyPad 5, 0x35, 0⟩, ⟨keyPad 6, 0x36, keyRight⟩, ⟨keyPadPlus, 0x2b, 0⟩,
    ⟨keyPad 1, 0x31, keyEnd⟩, ⟨keyPad 2, 0x32, keyDown⟩, ⟨keyPad 3, 0x33, keyPagedown⟩,
    ⟨keyPad 0, 0x30, keyInsert⟩, ⟨keyPadDot, 0x2e, keyDelete⟩, .key 0 0, .key 0 0, .key 0 0,
    .key (keyF 11) 0, .key (keyF 12) 0, .key 0 0, .key 0 0, .key 0 keyGuiL, .key 0 keyGuiR,
    .key 0 keyApps]

/-- `keyboard_map[code][flags]`. -/
def keyboardMap (behind : ℕ → BitVec 8) (code flags : ℕ) : ℕ :=
  if code < 0x80 then
    let row := keyRows.getD code (.key 0 0)
    if flags = 0 then row.plain else if flags = 1 then row.shifted else row.extended
  else (behind flags).toNat

/-! ## The handler -/

abbrev codeBreak : ℕ := 0x80

abbrev codeEmul0 : ℕ := 0xe0

abbrev codeEmul1 : ℕ := 0xe1

abbrev flagEmul0 : BitVec 16 := 0x01

abbrev flagEmul1 : BitVec 16 := 0x02

abbrev flagShiftL : BitVec 16 := 0x04

abbrev flagShiftR : BitVec 16 := 0x08

abbrev flagCtrlL : BitVec 16 := 0x10

abbrev flagCtrlR : BitVec 16 := 0x20

abbrev flagAltL : BitVec 16 := 0x40

abbrev flagAltR : BitVec 16 := 0x80

/-- The variables of the driver; of `key_callback` only whether it is set. -/
structure Keyboard where
  keyCallback : Bool
  keyFlags : BitVec 16
  inputMode : BitVec 8

/-- What a scan code leads to: a call of `console_putchar`, or of the callback. -/
inductive KeyCall
  | putchar (key : ℕ)
  | callback (key : ℕ)
deriving DecidableEq

def keyboardInit : Keyboard := ⟨false, 0, 0⟩

/-- The flag that the handler sets for the make code of a key and clears for its break code. -/
def keyFlag (key : ℕ) : BitVec 16 :=
  if key = keyShiftL then flagShiftL
  else if key = keyShiftR then flagShiftR
  else if key = keyCtrlL then flagCtrlL
  else if key = keyCtrlR then flagCtrlR
  else if key = keyAltL then flagAltL
  else if key = keyAltR then flagAltR
  else 0

namespace Keyboard

def send (s : Keyboard) (key : ℕ) : List KeyCall :=
  if key ≠ 0 ∧ s.keyCallback then [.callback key] else []

/-- The changes of `key` in an input mode. -/
def inputKey (behind : ℕ → BitVec 8) (s : Keyboard) (code key : ℕ) : ℕ :=
  let key :=
    if HasFlag s.keyFlags flagShiftL ∨ HasFlag s.keyFlags flagShiftR then keyboardMap behind code 1
    else key
  let key :=
    if HasFlag s.keyFlags flagCtrlL ∨ HasFlag s.keyFlags flagCtrlR ∨ HasFlag s.keyFlags flagAltL ∨
        HasFlag s.keyFlags flagAltR then 0
    else key
  let key :=
    if key = keyTab then keyTabInput
    else if key = keyEnter then keyEnterInput
    else if key = keyBackspace then keyBackspaceInput
    else key
  if keyFlagExt < key then 0 else key

def handler (behind : ℕ → BitVec 8) (s : Keyboard) (code : ℕ) : Keyboard × List KeyCall :=
  if code = codeEmul0 then ({ s with keyFlags := s.keyFlags ||| flagEmul0 }, [])
  else if code = codeEmul1 then ({ s with keyFlags := s.keyFlags ||| flagEmul1 }, [])
  else
    let flags := if HasFlag s.keyFlags flagEmul0 then 2 else 0
    let keyFlags :=
      if HasFlag s.keyFlags flagEmul0 then s.keyFlags &&& ~~~flagEmul0 else s.keyFlags
    if codeBreak < code then
      let key := keyboardMap behind (code - codeBreak) flags
      let s := { s with keyFlags := keyFlags &&& ~~~keyFlag key }
      let key := if s.inputMode = 0 then key + keyFlagBreak else 0
      (s, s.send key)
    else
      let key := keyboardMap behind code flags
      let s := { s with keyFlags := keyFlags ||| keyFlag key }
      if s.inputMode ≠ 0 then
        let key := s.inputKey behind code key
        (s, (if key ≠ 0 ∧ s.inputMode = 2 then [.putchar key] else []) ++ s.send key)
      else (s, s.send key)

end Keyboard

/-- What happens to the driver: a byte from the keyboard, `set_input_mode`, or
`reg_key_callback`. -/
inductive KeyEvent
  | byte (code : BitVec 8)
  | setInputMode (m : BitVec 8)
  | regKeyCallback (callback : Bool)
deriving DecidableEq

namespace Keyboard

def step (behind : ℕ → BitVec 8) (s : Keyboard) : KeyEvent → Keyboard
  | .byte code => (s.handler behind code.toNat).1
  | .setInputMode m => { s with inputMode := m }
  | .regKeyCallback callback => { s with keyCallback := callback }

/-- The driver after a run of events from `keyboard_init` on. -/
def run (behind : ℕ → BitVec 8) (events : List KeyEvent) : Keyboard :=
  events.foldl (step behind) keyboardInit

end Keyboard

end BitchKernel
