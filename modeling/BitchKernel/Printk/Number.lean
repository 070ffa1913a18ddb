import BitchKernel.Def
import Mathlib.Data.Nat.Digits.Lemmas

/-!
# Numbers in messages

`number` of `lib/printk.c`. The width is counted down through three loops that each stop below
zero, so a later loop stores nothing once an earlier one has run. The counters are 32-bit `int`s;
the characters are those that are stored one behind the other from `str` on.
-/

namespace BitchKernel

def chr (c : Char) : BitVec 8 := BitVec.ofNat 8 c.toNat

/-- What a 32-bit `int` holds of an exact result. -/
def int32 (n : ℤ) : ℤ := (n + 2 ^ 31) % 2 ^ 32 - 2 ^ 31

theorem int32_of_mem {n : ℤ} (hle : -2 ^ 31 ≤ n) (hlt : n < 2 ^ 31) : int32 n = n := by
  unfold int32
  omega

/-! ## The flags -/

namespace Flag

abbrev zeropad : BitVec 32 := 1

abbrev sign : BitVec 32 := 2

abbrev plus : BitVec 32 := 4

abbrev space : BitVec 32 := 8

abbrev left : BitVec 32 := 16

abbrev special : BitVec 32 := 32

abbrev small : BitVec 32 := 64

end Flag

/-- `type & flag`. -/
def Has (type flag : BitVec 32) : Prop := type &&& flag ≠ 0

instance (type flag : BitVec 32) : Decidable (Has type flag) := inferInstanceAs (Decidable (_ ≠ _))

/-! ## number -/

/-- The strings that `digits` points to. -/
def numberDigits (small : Prop) [Decidable small] (d : ℕ) : BitVec 8 :=
  if small then ("0123456789abcdefghijklmnopqrstuvwxyz".toList.map chr).getD d 0
  else ("0123456789ABCDEFGHIJKLMNOPQRSTUVWXYZ".toList.map chr).getD d 0

/-- `while (size-- > 0) *str++ = c;` for a counter that is not negative. -/
def padDown (c : BitVec 8) : ℕ → List (BitVec 8) × ℤ
  | 0 => ([], -1)
  | size + 1 =>
      let (str, size) := padDown c size
      (c :: str, size)

/-- `while (size-- > 0) *str++ = c;`: what it stores, and the counter behind it. -/
def padLoop (c : BitVec 8) (size : ℤ) : List (BitVec 8) × ℤ :=
  if 0 ≤ size then padDown c size.toNat else ([], int32 (size - 1))

/-- `while (num != 0) tmp[i++] = digits[do_div(num, base)];` for a number of as many bits as there
are rounds. -/
def digitLoop (digits : ℕ → BitVec 8) (base : ℕ) : (bits num : ℕ) → List (BitVec 8)
  | 0, _ => []
  | bits + 1, num =>
      if num = 0 then [] else digits (num % base) :: digitLoop digits base bits (num / base)

/-- `while (i < precision--) *str++ = '0';` -/
def zeroLoop (i : ℕ) : (precision : ℕ) → List (BitVec 8)
  | 0 => []
  | precision + 1 => if i < precision + 1 then chr '0' :: zeroLoop i precision else []

def number (num : BitVec 32) (base size precision : ℤ) (type : BitVec 32) : Option (List (BitVec 8)) :=
  let digits := numberDigits (Has type Flag.small)
  let type := if Has type Flag.left then type &&& ~~~Flag.zeropad else type
  if base < 2 ∨ 36 < base then none
  else
    let c := if Has type Flag.zeropad then chr '0' else chr ' '
    let (sign, num) :=
      if Has type Flag.sign ∧ num.toInt < 0 then ([chr '-'], -num)
      else
        (if Has type Flag.plus then [chr '+'] else if Has type Flag.space then [chr ' '] else [], num)
    let size := if sign ≠ [] then int32 (size - 1) else size
    let size :=
      if Has type Flag.special then
        if base = 16 then int32 (size - 2) else if base = 8 then int32 (size - 1) else size
      else size
    let tmp := if num = 0 then [chr '0'] else digitLoop digits base.toNat 32 num.toNat
    let i := tmp.length
    let precision := if precision < i then (i : ℤ) else precision
    let size := int32 (size - precision)
    let (spaces, size) :=
      if type &&& (Flag.zeropad + Flag.left) = 0 then padLoop (chr ' ') size else ([], size)
    let special :=
      if Has type Flag.special then
        if base = 8 then [chr '0'] else if base = 16 then [chr '0', digits 33] else []
      else []
    let (fill, size) := if ¬ Has type Flag.left then padLoop c size else ([], size)
    let zeros := zeroLoop i precision.toNat
    let (trail, _) := padLoop (chr ' ') size
    some (spaces ++ sign ++ special ++ fill ++ zeros ++ tmp.reverse ++ trail)

/-! ## What the loops store -/

section Loops

variable {c : BitVec 8} {size : ℤ}

theorem padDown_eq (c : BitVec 8) (size : ℕ) : padDown c size = (List.replicate size c, -1) := by
  induction size with
  | zero => rfl
  | succ size ih =>
      rw [padDown, ih]
      rfl

theorem padLoop_of_nonneg (h : 0 ≤ size) : padLoop c size = (List.replicate size.toNat c, -1) := by
  unfold padLoop
  rw [if_pos h, padDown_eq]

theorem padLoop_of_neg (h : size < 0) (hmin : -2 ^ 31 < size) : padLoop c size = ([], size - 1) := by
  unfold padLoop
  rw [if_neg (not_le.2 h), int32_of_mem (by omega) (by omega)]

theorem padLoop_fst (c : BitVec 8) (size : ℤ) : (padLoop c size).1 = List.replicate size.toNat c := by
  by_cases h : 0 ≤ size
  · rw [padLoop_of_nonneg h]
  · unfold padLoop
    rw [if_neg h, Int.toNat_of_nonpos (by omega)]
    rfl

theorem zeroLoop_eq (i precision : ℕ) :
    zeroLoop i precision = List.replicate (precision - i) (chr '0') := by
  induction precision with
  | zero =>
      rw [Nat.zero_sub]
      rfl
  | succ precision ih =>
      rw [zeroLoop]
      by_cases h : i < precision + 1
      · rw [if_pos h, ih, Nat.succ_sub (Nat.le_of_lt_succ h)]
        rfl
      · rw [if_neg h, Nat.sub_eq_zero_of_le (Nat.le_of_not_lt h)]
        rfl

theorem digitLoop_eq (digits : ℕ → BitVec 8) {base : ℕ} (hbase : 2 ≤ base) (bits : ℕ) {num : ℕ}
    (h : num < 2 ^ bits) : digitLoop digits base bits num = (Nat.digits base num).map digits := by
  induction bits generalizing num with
  | zero =>
      obtain rfl : num = 0 := by omega
      rw [Nat.digits_zero]
      rfl
  | succ bits ih =>
      rw [digitLoop]
      by_cases hzero : num = 0
      · rw [if_pos hzero, hzero, Nat.digits_zero]
        rfl
      · have hless : num / base < 2 ^ bits := by
          refine Nat.div_lt_of_lt_mul (Nat.lt_of_lt_of_le h ?_)
          rw [Nat.pow_succ, Nat.mul_comm]
          exact Nat.mul_le_mul_right _ hbase
        rw [if_neg hzero, ih hless, Nat.digits_def' (by omega) (Nat.pos_of_ne_zero hzero)]
        rfl

end Loops

/-! ## The text of a number -/

/-- The number the digits denote, as the divisions see it. -/
def magnitude (num type : BitVec 32) : BitVec 32 :=
  if Has type Flag.sign ∧ num.toInt < 0 then -num else num

def signText (num type : BitVec 32) : List (BitVec 8) :=
  if Has type Flag.sign ∧ num.toInt < 0 then [chr '-']
  else if Has type Flag.plus then [chr '+'] else if Has type Flag.space then [chr ' '] else []

def specialText (base : ℤ) (type : BitVec 32) : List (BitVec 8) :=
  if Has type Flag.special then
    if base = 8 then [chr '0']
    else if base = 16 then [chr '0', numberDigits (Has type Flag.small) 33] else []
  else []

def digitText (num : BitVec 32) (base : ℤ) (type : BitVec 32) : List (BitVec 8) :=
  if magnitude num type = 0 then [chr '0']
  else
    ((Nat.digits base.toNat (magnitude num type).toNat).map (numberDigits (Has type Flag.small))).reverse

/-- The characters that sign, prefix and digits take. -/
def fieldLength (num : BitVec 32) (base precision : ℤ) (type : BitVec 32) : ℤ :=
  (signText num type).length + (specialText base type).length +
    max precision (digitText num base type).length

def numberSlack (num : BitVec 32) (base size precision : ℤ) (type : BitVec 32) : ℤ :=
  size - fieldLength num base precision type

/-- The pieces of a number, one behind the other: the spaces of a right-justified one, the sign,
the prefix, the zeros of the width, the zeros of the precision, the digits, and the spaces of a
left-justified one. -/
def numberText (num : BitVec 32) (base size precision : ℤ) (type : BitVec 32) : List (BitVec 8) :=
  let slack := (numberSlack num base size precision type).toNat
  List.replicate (if Has type Flag.zeropad ∨ Has type Flag.left then 0 else slack) (chr ' ') ++
    signText num type ++ specialText base type ++
    List.replicate (if Has type Flag.zeropad ∧ ¬ Has type Flag.left then slack else 0) (chr '0') ++
    List.replicate (precision - (digitText num base type).length).toNat (chr '0') ++
    digitText num base type ++
    List.replicate (if Has type Flag.left then slack else 0) (chr ' ')

/-- The width counter is an `int` whenever a loop tests it. -/
def CounterFits (num : BitVec 32) (base size precision : ℤ) (type : BitVec 32) : Prop :=
  -2 ^ 31 + (if Has type Flag.left then 0 else if Has type Flag.zeropad then 1 else 2) ≤
    numberSlack num base size precision type

instance (num : BitVec 32) (base size precision : ℤ) (type : BitVec 32) :
    Decidable (CounterFits num base size precision type) := inferInstanceAs (Decidable (_ ≤ _))

section Text

variable {num type flag : BitVec 32} {base size precision : ℤ}

/-- The flags behind `if (type & LEFT) type &= ~ZEROPAD;`. -/
def clearZeropad (type : BitVec 32) : BitVec 32 :=
  if Has type Flag.left then type &&& ~~~Flag.zeropad else type

theorem has_clearZeropad (hflag : ~~~Flag.zeropad &&& flag = flag) :
    Has (clearZeropad type) flag ↔ Has type flag := by
  unfold clearZeropad
  split
  · unfold Has
    rw [BitVec.and_assoc, hflag]
  · exact Iff.rfl

theorem has_clearZeropad_zeropad :
    Has (clearZeropad type) Flag.zeropad ↔ Has type Flag.zeropad ∧ ¬ Has type Flag.left := by
  unfold clearZeropad
  by_cases hleft : Has type Flag.left
  · have hclear : ~~~Flag.zeropad &&& Flag.zeropad = 0 := by decide
    have hnone : (type &&& ~~~Flag.zeropad) &&& Flag.zeropad = 0 := by
      rw [BitVec.and_assoc, hclear]
      exact BitVec.and_zero
    rw [if_pos hleft]
    exact ⟨fun h => absurd hnone h, fun h => absurd hleft h.2⟩
  · rw [if_neg hleft]
    exact ⟨fun h => ⟨h, hleft⟩, fun h => h.1⟩

theorem and_zeropad_left :
    type &&& (Flag.zeropad + Flag.left) = 0 ↔ ¬ Has type Flag.zeropad ∧ ¬ Has type Flag.left := by
  have hboth : Flag.zeropad + Flag.left = Flag.zeropad ||| Flag.left := by decide
  unfold Has
  rw [hboth, BitVec.and_or_distrib_left, not_not, not_not]
  exact BitVec.or_eq_zero_iff

theorem signText_length_le (num type : BitVec 32) : (signText num type).length ≤ 1 := by
  unfold signText
  split
  · exact le_rfl
  · split
    · exact le_rfl
    · split
      · exact le_rfl
      · exact Nat.zero_le 1

theorem specialText_length_le (base : ℤ) (type : BitVec 32) : (specialText base type).length ≤ 2 := by
  unfold specialText
  split
  · split
    · exact Nat.le_succ 1
    · split
      · exact le_rfl
      · exact Nat.zero_le 2
  · exact Nat.zero_le 2

theorem digitText_ne_nil (num : BitVec 32) (base : ℤ) (type : BitVec 32) : digitText num base type ≠ [] := by
  unfold digitText
  split
  · exact List.cons_ne_nil _ _
  · rename_i hzero
    rw [Ne, List.reverse_eq_nil_iff, List.map_eq_nil_iff, Nat.digits_eq_nil_iff_eq_zero]
    exact fun h => hzero (BitVec.eq_of_toNat_eq h)

theorem digitText_length_le (num : BitVec 32) (hbase : 2 ≤ base) (type : BitVec 32) : (digitText num base type).length ≤ 32 := by
  unfold digitText
  split
  · decide
  · rw [List.length_reverse, List.length_map]
    refine (Nat.digits_length_le_iff (by omega) _).2 ?_
    refine Nat.lt_of_lt_of_le (magnitude num type).isLt ?_
    exact Nat.pow_le_pow_left (by omega) 32

theorem number_sign :
    (if Has (clearZeropad type) Flag.sign ∧ num.toInt < 0 then ([chr '-'], -num)
      else (if Has (clearZeropad type) Flag.plus then [chr '+']
        else if Has (clearZeropad type) Flag.space then [chr ' '] else [], num)) =
      (signText num type, magnitude num type) := by
  have hsign : Has (clearZeropad type) Flag.sign ↔ Has type Flag.sign := has_clearZeropad (by decide)
  have hplus : Has (clearZeropad type) Flag.plus ↔ Has type Flag.plus := has_clearZeropad (by decide)
  have hspace : Has (clearZeropad type) Flag.space ↔ Has type Flag.space := has_clearZeropad (by decide)
  unfold signText magnitude
  simp only [hsign, hplus, hspace]
  split
  · rfl
  · rfl

theorem number_special :
    (if Has (clearZeropad type) Flag.special then
      if base = 8 then [chr '0']
      else if base = 16 then [chr '0', numberDigits (Has type Flag.small) 33] else []
    else []) = specialText base type := by
  have hspecial : Has (clearZeropad type) Flag.special ↔ Has type Flag.special :=
    has_clearZeropad (by decide)
  unfold specialText
  simp only [hspecial]

theorem number_size_sign (hsize : -2 ^ 30 < size) (hlt : size < 2 ^ 30) :
    (if signText num type ≠ [] then int32 (size - 1) else size) = size - (signText num type).length := by
  have hle := signText_length_le num type
  by_cases hnil : signText num type = []
  · rw [if_neg (not_not.2 hnil), hnil, List.length_nil, Nat.cast_zero, sub_zero]
  · have hlen : (signText num type).length = 1 := by
      have hpos := List.length_pos_iff.2 hnil
      omega
    rw [if_pos hnil, hlen, int32_of_mem (by omega) (by omega), Nat.cast_one]

theorem number_size_special (hsize : -2 ^ 30 ≤ size) (hlt : size < 2 ^ 30) :
    (if Has (clearZeropad type) Flag.special then
      if base = 16 then int32 (size - 2) else if base = 8 then int32 (size - 1) else size
    else size) = size - (specialText base type).length := by
  have hspecial : Has (clearZeropad type) Flag.special ↔ Has type Flag.special :=
    has_clearZeropad (by decide)
  unfold specialText
  simp only [hspecial]
  split
  · by_cases hsixteen : base = 16
    · subst hsixteen
      rw [if_pos rfl, if_neg (by decide), if_pos rfl, int32_of_mem (by omega) (by omega)]
      rfl
    · by_cases height : base = 8
      · rw [if_neg hsixteen, if_pos height, if_pos height, int32_of_mem (by omega) (by omega)]
        rfl
      · rw [if_neg hsixteen, if_neg height, if_neg height, if_neg hsixteen]
        exact (sub_zero size).symm
  · exact (sub_zero size).symm

theorem number_digits (hbase : 2 ≤ base) :
    (if magnitude num type = 0 then [chr '0']
      else digitLoop (numberDigits (Has type Flag.small)) base.toNat 32 (magnitude num type).toNat) =
      (digitText num base type).reverse := by
  unfold digitText
  split
  · rfl
  · rw [List.reverse_reverse, digitLoop_eq _ (by omega) 32 (magnitude num type).isLt]

/-- The three loops over what is left of the width, around the sign and the prefix and around the
digits. -/
def padField (type : BitVec 32) (slack : ℤ) (front middle : List (BitVec 8)) : List (BitVec 8) :=
  let (spaces, size) :=
    if clearZeropad type &&& (Flag.zeropad + Flag.left) = 0 then padLoop (chr ' ') slack
    else ([], slack)
  let (fill, size) :=
    if ¬ Has (clearZeropad type) Flag.left then
      padLoop (if Has (clearZeropad type) Flag.zeropad then chr '0' else chr ' ') size
    else ([], size)
  let (trail, _) := padLoop (chr ' ') size
  spaces ++ front ++ fill ++ middle ++ trail

theorem number_stores (hbase : 2 ≤ base ∧ base ≤ 36) (hsize : -2 ^ 30 < size ∧ size < 2 ^ 30) :
    number num base size precision type =
      some (padField type (int32 (numberSlack num base size precision type))
        (signText num type ++ specialText base type)
        (List.replicate (precision - (digitText num base type).length).toNat (chr '0') ++
          digitText num base type)) := by
  have hsign := signText_length_le num type
  have hprec : (if precision < (digitText num base type).length then
      ((digitText num base type).length : ℤ) else precision) =
      max precision (digitText num base type).length := by
    split
    · exact (max_eq_right (by omega)).symm
    · exact (max_eq_left (by omega)).symm
  have hslack : size - (signText num type).length - (specialText base type).length -
      max precision (digitText num base type).length = numberSlack num base size precision type := by
    unfold numberSlack fieldLength
    omega
  have hzeros : (max precision (digitText num base type).length).toNat - (digitText num base type).length =
      (precision - (digitText num base type).length).toNat := by
    omega
  have hT : (if Has type Flag.left then type &&& ~~~Flag.zeropad else type) = clearZeropad type := rfl
  unfold number
  dsimp only
  rw [if_neg (by omega), hT, number_sign]
  dsimp only
  rw [number_size_sign hsize.1 hsize.2, number_special, number_size_special (by omega) (by omega),
    number_digits hbase.1, List.length_reverse, hprec, hslack, zeroLoop_eq, List.reverse_reverse, hzeros]
  unfold padField
  simp only [List.append_assoc]

/-- The loops: spaces in front of the sign of a right-justified number, zeros behind its prefix
with the zero flag, and spaces at the end of a left-justified one. -/
theorem padField_eq {slack : ℤ}
    (hfits : -2 ^ 31 + (if Has type Flag.left then 0 else if Has type Flag.zeropad then 1 else 2) ≤ slack)
    (front middle : List (BitVec 8)) :
    padField type slack front middle =
    List.replicate (if Has type Flag.zeropad ∨ Has type Flag.left then 0 else slack.toNat) (chr ' ') ++
      front ++
      List.replicate (if Has type Flag.zeropad ∧ ¬ Has type Flag.left then slack.toNat else 0) (chr '0') ++
      middle ++ List.replicate (if Has type Flag.left then slack.toNat else 0) (chr ' ') := by
  have hleft : Has (clearZeropad type) Flag.left ↔ Has type Flag.left := has_clearZeropad (by decide)
  unfold padField
  simp only [and_zeropad_left, has_clearZeropad_zeropad, hleft]
  by_cases hl : Has type Flag.left
  · -- only the last loop runs
    simp only [hl, not_true, and_false, not_false_iff, if_true, if_false, or_true]
    rw [padLoop_fst]
    rfl
  · by_cases hz : Has type Flag.zeropad
    · -- the second loop runs and leaves nothing
      simp only [hl, hz, not_true, not_false_iff, and_true, if_true, if_false, true_or]
      rw [if_neg hl, if_pos hz] at hfits
      rcases Int.lt_or_le slack 0 with hneg | hpos
      · rw [padLoop_of_neg hneg (by omega)]
        dsimp only
        rw [padLoop_fst, Int.toNat_of_nonpos (by omega), Int.toNat_of_nonpos (by omega)]
        rfl
      · rw [padLoop_of_nonneg hpos]
        rfl
    · -- the first loop runs and leaves nothing
      simp only [hl, hz, not_false_iff, and_true, if_true, if_false, or_self]
      rw [if_neg hl, if_neg hz] at hfits
      rcases Int.lt_or_le slack 0 with hneg | hpos
      · rw [padLoop_of_neg hneg (by omega)]
        dsimp only
        rw [padLoop_of_neg (by omega) (by omega)]
        dsimp only
        rw [padLoop_fst, Int.toNat_of_nonpos (by omega), Int.toNat_of_nonpos (by omega)]
        rfl
      · rw [padLoop_of_nonneg hpos]
        rfl

theorem CounterFits.slack_mem (hbase : 2 ≤ base) (hsize : size < 2 ^ 30)
    (hfits : CounterFits num base size precision type) :
    -2 ^ 31 ≤ numberSlack num base size precision type ∧
      numberSlack num base size precision type < 2 ^ 31 := by
  have hdigits := digitText_length_le num hbase type
  unfold CounterFits at hfits
  refine ⟨?_, ?_⟩
  · split at hfits
    · omega
    · split at hfits <;> omega
  · unfold numberSlack fieldLength
    omega

theorem number_eq (hbase : 2 ≤ base ∧ base ≤ 36) (hsize : -2 ^ 30 < size ∧ size < 2 ^ 30)
    (hfits : CounterFits num base size precision type) :
    number num base size precision type = some (numberText num base size precision type) := by
  obtain ⟨hle, hlt⟩ := hfits.slack_mem hbase.1 hsize.2
  rw [number_stores hbase hsize, int32_of_mem hle hlt, padField_eq hfits]
  unfold numberText
  simp only [List.append_assoc]

/-- A width that is not far below zero leaves the counter an `int`. -/
theorem counterFits_of_size (hbase : 2 ≤ base) (hsize : -2 ^ 30 + 4 ≤ size)
    (hprecision : precision < 2 ^ 30) : CounterFits num base size precision type := by
  have hdigits := digitText_length_le num hbase type
  have hsign := signText_length_le num type
  have hspecial := specialText_length_le base type
  unfold CounterFits numberSlack fieldLength
  split
  · omega
  · split <;> omega

/-- The text is as long as the width asks for, and never shorter than its pieces. -/
theorem numberText_length : ((numberText num base size precision type).length : ℤ) =
    max size (fieldLength num base precision type) := by
  have hslack : numberSlack num base size precision type = size - fieldLength num base precision type := rfl
  have hfield : fieldLength num base precision type = (signText num type).length +
      (specialText base type).length + max precision (digitText num base type).length := rfl
  unfold numberText
  simp only [List.length_append, List.length_replicate]
  by_cases hl : Has type Flag.left
  · simp only [hl, or_true, not_true, and_false, if_true, if_false]
    omega
  · by_cases hz : Has type Flag.zeropad
    · simp only [hl, hz, true_or, not_false_iff, and_self, if_true, if_false]
      omega
    · simp only [hl, hz, or_self, false_and, if_false]
      omega

end Text

end BitchKernel
