import BitchKernel.CString
import BitchKernel.Printk.Number

/-!
# Formats

`skip_atoi` and `vsprintf` of `lib/printk.c`. A pointer into the format is the list of the characters
from it up to the NUL; a step off the NUL stops the run, as does an argument that is not there. A
directive is read in the order of the source: flags, width, precision, qualifier, conversion.

`mem` holds the strings that `%s` prints; neither the buffer nor what `%n` stores lies in them. What
`%n` stores is recorded with its address.
-/

namespace BitchKernel

open Lib

/-- Why a run ends before its format does: `fuel` is used up, the format is left through its NUL,
or there is no argument. -/
inductive Stop
  | fuel
  | pastEnd
  | noArgument
deriving DecidableEq

/-! ## Reading the format -/

section Scan

/-- `*fmt`. -/
def peek : List (BitVec 8) → BitVec 8
  | [] => 0
  | c :: _ => c

/-- `++fmt`. -/
def next : List (BitVec 8) → Except Stop (List (BitVec 8))
  | [] => .error .pastEnd
  | _ :: fmt => .ok fmt

def vaArg : List (BitVec 32) → Except Stop (BitVec 32 × List (BitVec 32))
  | [] => .error .noArgument
  | a :: args => .ok (a, args)

def isDigit (c : BitVec 8) : Prop := 48 ≤ c.toNat ∧ c.toNat ≤ 57

instance (c : BitVec 8) : Decidable (isDigit c) := inferInstanceAs (Decidable (_ ∧ _))

def skipAtoi : List (BitVec 8) → (i : ℤ) → ℤ × List (BitVec 8)
  | [], i => (i, [])
  | c :: fmt, i => if isDigit c then skipAtoi fmt (int32 (i * 10 + c.toNat - 48)) else (i, c :: fmt)

def flagOf (c : BitVec 8) : Option (BitVec 32) :=
  if c = chr '-' then some Flag.left
  else if c = chr '+' then some Flag.plus
  else if c = chr ' ' then some Flag.space
  else if c = chr '#' then some Flag.special
  else if c = chr '0' then some Flag.zeropad
  else none

/-- The loop at `repeat`, which starts with `++fmt`. -/
def repeatFlags : List (BitVec 8) → (flags : BitVec 32) → Except Stop (BitVec 32 × List (BitVec 8))
  | [], _ => .error .pastEnd
  | _ :: fmt, flags =>
      match flagOf (peek fmt) with
      | some flag => repeatFlags fmt (flags ||| flag)
      | none => .ok (flags, fmt)

/-- A width or a precision, the flags, the arguments that are left, and the format behind it. -/
structure Field where
  value : ℤ
  flags : BitVec 32
  args : List (BitVec 32)
  fmt : List (BitVec 8)

/-- `/* get field width */` -/
def fieldWidth (fmt : List (BitVec 8)) (flags : BitVec 32) (args : List (BitVec 32)) :
    Except Stop Field :=
  if isDigit (peek fmt) then
    let (value, fmt) := skipAtoi fmt 0
    .ok ⟨value, flags, args, fmt⟩
  else if peek fmt = chr '*' then do
    let fmt ← next fmt
    let (a, args) ← vaArg args
    if a.toInt < 0 then .ok ⟨int32 (-a.toInt), flags ||| Flag.left, args, fmt⟩
    else .ok ⟨a.toInt, flags, args, fmt⟩
  else .ok ⟨-1, flags, args, fmt⟩

/-- `/* get the precision */`: a `*` gives the value and stays in front of the pointer. -/
def fieldPrecision (fmt : List (BitVec 8)) (flags : BitVec 32) (args : List (BitVec 32)) :
    Except Stop Field :=
  if peek fmt = chr '.' then do
    let fmt ← next fmt
    if isDigit (peek fmt) then
      let (value, fmt) := skipAtoi fmt 0
      .ok ⟨max value 0, flags, args, fmt⟩
    else if peek fmt = chr '*' then
      let (a, args) ← vaArg args
      .ok ⟨max a.toInt 0, flags, args, fmt⟩
    else .ok ⟨0, flags, args, fmt⟩
  else .ok ⟨-1, flags, args, fmt⟩

/-- `/* get the conversion qualifier */` -/
def skipQualifier (fmt : List (BitVec 8)) : Except Stop (List (BitVec 8)) :=
  if peek fmt = chr 'h' ∨ peek fmt = chr 'l' ∨ peek fmt = chr 'L' then next fmt else .ok fmt

end Scan

/-! ## The conversions -/

/-- `while (--field_width > 0) *str++ = ' ';` -/
def charPad (width : ℤ) : List (BitVec 8) × ℤ :=
  if 0 < int32 (width - 1) then (List.replicate (int32 (width - 1)).toNat (chr ' '), 0)
  else ([], int32 (width - 1))

/-- `while (len < field_width--) *str++ = ' ';` -/
def stringPad (len width : ℤ) : List (BitVec 8) × ℤ :=
  if len < width then (List.replicate (width - len).toNat (chr ' '), int32 (len - 1))
  else ([], int32 (width - 1))

/-- The case `'c'`. -/
def charText (a : BitVec 32) (flags : BitVec 32) (width : ℤ) : List (BitVec 8) :=
  let (front, width) := if ¬ Has flags Flag.left then charPad width else ([], width)
  let (back, _) := charPad width
  front ++ [a.setWidth 8] ++ back

/-- The case `'s'`, for the result of `strlen`. -/
def stringText (mem : Bytes) (s : ℕ) (strlen : ℕ) (flags : BitVec 32) (width precision : ℤ) :
    List (BitVec 8) :=
  let len := int32 strlen
  let len := if precision < 0 then len else if precision < len then precision else len
  let (front, width) := if ¬ Has flags Flag.left then stringPad len width else ([], width)
  let (back, _) := stringPad len width
  front ++ (tested s len.toNat).map mem ++ back

/-- What `number` stores for a conversion. -/
def numberOut (a : BitVec 32) (base : ℤ) (width precision : ℤ) (flags : BitVec 32) : List (BitVec 8) :=
  (number a base width precision flags).getD []

/-- What a round of the loop stores in the buffer, the stores of `%n`, the arguments that are left,
and the format behind the round. -/
structure Round where
  out : List (BitVec 8)
  stores : List (BitVec 32 × ℕ)
  args : List (BitVec 32)
  fmt : List (BitVec 8)

/-- A conversion of the next argument; `behind` is the format behind its character. -/
def convertArg (args : List (BitVec 32)) (behind : List (BitVec 8)) (text : BitVec 32 → List (BitVec 8)) :
    Except Stop Round := do
  let (a, args) ← vaArg args
  .ok ⟨text a, [], args, behind⟩

/-- `switch (*fmt)` and the `++fmt` of the loop, with `count` characters in the buffer. -/
def convert (mem : Bytes) (fuel count : ℕ) (fmt : List (BitVec 8)) (args : List (BitVec 32))
    (flags : BitVec 32) (width precision : ℤ) : Except Stop Round :=
  let c := peek fmt
  if c = chr 'c' then convertArg args fmt.tail fun a => charText a flags width
  else if c = chr 's' then do
    let (s, args) ← vaArg args
    match (strlen mem fuel s.toNat).1 with
    | none => .error .fuel
    | some len => .ok ⟨stringText mem s.toNat len flags width precision, [], args, fmt.tail⟩
  else if c = chr 'o' then convertArg args fmt.tail fun a => numberOut a 8 width precision flags
  else if c = chr 'p' then
    if width = -1 then
      convertArg args fmt.tail fun a => numberOut a 16 8 precision (flags ||| Flag.zeropad)
    else convertArg args fmt.tail fun a => numberOut a 16 width precision flags
  else if c = chr 'x' then
    convertArg args fmt.tail fun a => numberOut a 16 width precision (flags ||| Flag.small)
  else if c = chr 'X' then convertArg args fmt.tail fun a => numberOut a 16 width precision flags
  else if c = chr 'd' ∨ c = chr 'i' then
    convertArg args fmt.tail fun a => numberOut a 10 width precision (flags ||| Flag.sign)
  else if c = chr 'u' then convertArg args fmt.tail fun a => numberOut a 10 width precision flags
  else if c = chr 'n' then do
    let (ip, args) ← vaArg args
    .ok ⟨[], [(ip, count)], args, fmt.tail⟩
  else
    let percent := if c ≠ chr '%' then [chr '%'] else []
    if c ≠ 0 then .ok ⟨percent ++ [c], [], args, fmt.tail⟩
    else
      -- the `--fmt` and the `++fmt` of the loop lead back to the NUL
      .ok ⟨percent, [], args, fmt⟩

/-- The round of the loop at a `%`. -/
def directive (mem : Bytes) (fuel count : ℕ) (fmt : List (BitVec 8)) (args : List (BitVec 32)) :
    Except Stop Round := do
  let (flags, fmt) ← repeatFlags fmt 0
  let width ← fieldWidth fmt flags args
  let precision ← fieldPrecision width.fmt width.flags width.args
  let fmt ← skipQualifier precision.fmt
  convert mem fuel count fmt precision.args precision.flags width.value precision.value

def formatRound (mem : Bytes) (fuel count : ℕ) (fmt : List (BitVec 8)) (args : List (BitVec 32)) :
    Except Stop Round :=
  if peek fmt ≠ chr '%' then do
    let behind ← next fmt
    .ok ⟨[peek fmt], [], args, behind⟩
  else directive mem fuel count fmt args

/-- The loop of `vsprintf`, with `fuel` rounds. -/
def vsprintfLoop (mem : Bytes) (scan : ℕ) : (fuel count : ℕ) → List (BitVec 8) → List (BitVec 32) →
    Except Stop Round
  | 0, _, _, _ => .error .fuel
  | fuel + 1, count, fmt, args =>
      if peek fmt = 0 then .ok ⟨[], [], args, fmt⟩
      else do
        let round ← formatRound mem scan count fmt args
        let rest ← vsprintfLoop mem scan fuel (count + round.out.length) round.fmt round.args
        .ok ⟨round.out ++ rest.out, round.stores ++ rest.stores, rest.args, rest.fmt⟩

/-- `vsprintf`: the characters in front of the final NUL, whose number it returns. -/
def vsprintf (mem : Bytes) (fuel : ℕ) (fmt : List (BitVec 8)) (args : List (BitVec 32)) :
    Except Stop Round := vsprintfLoop mem fuel fuel 0 fmt args

end BitchKernel
