import BitchKernel.Printk.Number

/-!
# Reading a number back

A reader of numbers in a base: it passes over spaces, takes a sign, a prefix of base 16 and the
digits, and wants nothing but spaces behind them. What `number` stores is read as the number it was
given, and is as long as the width asks for.
-/

namespace BitchKernel

/-! ## The reader -/

def digitValue (c : BitVec 8) : Option ℕ :=
  if 48 ≤ c.toNat ∧ c.toNat ≤ 57 then some (c.toNat - 48)
  else if 65 ≤ c.toNat ∧ c.toNat ≤ 90 then some (c.toNat - 55)
  else if 97 ≤ c.toNat ∧ c.toNat ≤ 122 then some (c.toNat - 87)
  else none

def readDigits (base : ℕ) : (value : ℕ) → List (BitVec 8) → ℕ × List (BitVec 8)
  | value, [] => (value, [])
  | value, c :: text =>
      match digitValue c with
      | some d => if d < base then readDigits base (base * value + d) text else (value, c :: text)
      | none => (value, c :: text)

def readSign : List (BitVec 8) → Bool × List (BitVec 8)
  | [] => (false, [])
  | c :: text =>
      if c = chr '-' then (true, text) else if c = chr '+' then (false, text) else (false, c :: text)

def readPrefix (base : ℕ) : List (BitVec 8) → List (BitVec 8)
  | zero :: x :: text =>
      if base = 16 ∧ zero = chr '0' ∧ (x = chr 'x' ∨ x = chr 'X') then text else zero :: x :: text
  | text => text

instance decidableSpaces (rest : List (BitVec 8)) : Decidable (∀ c ∈ rest, c = chr ' ') :=
  List.decidableBAll _ rest

/-- The number of a text: there is a digit, and nothing behind the digits but spaces. -/
def readNumber (base : ℕ) (text : List (BitVec 8)) : Option ℤ :=
  let (neg, text) := readSign (text.dropWhile (· = chr ' '))
  let text := readPrefix base text
  let (value, rest) := readDigits base 0 text
  if rest.length < text.length ∧ ∀ c ∈ rest, c = chr ' ' then
    some (if neg then -(value : ℤ) else value)
  else none

section Digits

variable {small : Prop} [Decidable small] {base value d : ℕ}

theorem digitValue_numberDigits (hd : d < 36) : digitValue (numberDigits small d) = some d := by
  have hlower : ∀ d < 36,
      digitValue (("0123456789abcdefghijklmnopqrstuvwxyz".toList.map chr).getD d 0) = some d := by
    decide
  have hupper : ∀ d < 36,
      digitValue (("0123456789ABCDEFGHIJKLMNOPQRSTUVWXYZ".toList.map chr).getD d 0) = some d := by
    decide
  unfold numberDigits
  split
  · exact hlower d hd
  · exact hupper d hd

theorem numberDigits_zero : numberDigits small 0 = chr '0' := by
  unfold numberDigits
  split <;> rfl

theorem numberDigits_ne {c : BitVec 8} (hd : d < 36) (hc : ∀ e, digitValue c = some e → e ≠ d) :
    numberDigits small d ≠ c := by
  rintro rfl
  exact hc d (digitValue_numberDigits hd) rfl

theorem readDigits_map {ds : List ℕ} (hds : ∀ d ∈ ds, d < base) (hbase : base ≤ 36)
    (text : List (BitVec 8)) :
    readDigits base value (ds.map (numberDigits small) ++ text) =
      readDigits base (ds.foldl (fun value d => base * value + d) value) text := by
  induction ds generalizing value with
  | nil => rfl
  | cons d ds ih =>
      have hd := hds d List.mem_cons_self
      rw [List.map_cons, List.cons_append, readDigits, digitValue_numberDigits (by omega)]
      dsimp only
      rw [if_pos hd, ih fun e he => hds e (List.mem_cons_of_mem d he), List.foldl_cons]

theorem readDigits_spaces (n : ℕ) :
    readDigits base value (List.replicate n (chr ' ')) = (value, List.replicate n (chr ' ')) := by
  cases n with
  | zero => rfl
  | succ n => rfl

theorem foldl_digits_reverse (base n : ℕ) :
    (Nat.digits base n).reverse.foldl (fun value d => base * value + d) 0 = n := by
  rw [List.foldl_reverse]
  calc (Nat.digits base n).foldr (fun d value => base * value + d) 0
      = Nat.ofDigits base (Nat.digits base n) := by
        rw [Nat.ofDigits_eq_foldr]
        congr 1
        funext d value
        rw [Nat.add_comm]
        rfl
    _ = n := Nat.ofDigits_digits base n

theorem foldl_zeros (base n : ℕ) :
    (List.replicate n 0).foldl (fun value d => base * value + d) 0 = 0 := by
  induction n with
  | zero => rfl
  | succ n ih =>
      rw [List.replicate_succ, List.foldl_cons, Nat.mul_zero]
      exact ih

end Digits

/-! ## The pieces, read one after the other -/

section Pieces

variable {small : Prop} [Decidable small] {base d : ℕ} {num type : BitVec 32}

theorem readSign_signText (spaces : ℕ) {c : BitVec 8} (body : List (BitVec 8))
    (hspace : c ≠ chr ' ') (hminus : c ≠ chr '-') (hplus : c ≠ chr '+') :
    readSign ((List.replicate spaces (chr ' ') ++ signText num type ++ c :: body).dropWhile
        (· = chr ' ')) = (decide (Has type Flag.sign ∧ num.toInt < 0), c :: body) := by
  have hbody : (c :: body).dropWhile (· = chr ' ') = c :: body :=
    List.dropWhile_cons_of_neg (by rw [decide_eq_true_iff]; exact hspace)
  have hread : readSign (c :: body) = (false, c :: body) := by
    rw [readSign, if_neg hminus, if_neg hplus]
  rw [List.append_assoc, List.dropWhile_append_of_pos fun a ha => by
    rw [decide_eq_true_iff]
    exact List.eq_of_mem_replicate ha]
  unfold signText
  by_cases hneg : Has type Flag.sign ∧ num.toInt < 0
  · rw [if_pos hneg, decide_eq_true hneg]
    rfl
  · rw [if_neg hneg, decide_eq_false hneg]
    split
    · rfl
    · split
      · rw [List.dropWhile_append_of_pos fun a ha => by
          rw [decide_eq_true_iff]
          exact List.mem_singleton.1 ha, hbody, hread]
      · rw [List.nil_append, hbody, hread]

theorem readPrefix_digits (hbase : base ≤ 16) {ds : List ℕ} (hds : ∀ d ∈ ds, d < base) (trail : ℕ) :
    readPrefix base (ds.map (numberDigits small) ++ List.replicate trail (chr ' ')) =
      ds.map (numberDigits small) ++ List.replicate trail (chr ' ') := by
  have hdigit : ∀ d ∈ ds, numberDigits small d ≠ chr 'x' ∧ numberDigits small d ≠ chr 'X' := by
    intro d hd
    have hlt := hds d hd
    have hx : digitValue (chr 'x') = some 33 := by decide
    have hX : digitValue (chr 'X') = some 33 := by decide
    refine ⟨numberDigits_ne (by omega) fun e he => ?_, numberDigits_ne (by omega) fun e he => ?_⟩
    · rw [hx] at he
      cases he
      omega
    · rw [hX] at he
      cases he
      omega
  have hblank : chr ' ' ≠ chr 'x' ∧ chr ' ' ≠ chr 'X' := by decide
  match ds, hdigit with
  | [], _ =>
      match trail with
      | 0 => rfl
      | 1 => rfl
      | trail + 2 => exact if_neg fun h => h.2.2.elim hblank.1 hblank.2
  | [d], _ =>
      match trail with
      | 0 => rfl
      | trail + 1 => exact if_neg fun h => h.2.2.elim hblank.1 hblank.2
  | d :: e :: ds, hdigit =>
      have he := hdigit e (List.mem_cons_of_mem d List.mem_cons_self)
      exact if_neg fun h => h.2.2.elim he.1 he.2

theorem readPrefix_special (text : List (BitVec 8)) :
    readPrefix 16 (chr '0' :: numberDigits small 33 :: text) = text := by
  have hx : numberDigits small 33 = chr 'x' ∨ numberDigits small 33 = chr 'X' := by
    unfold numberDigits
    split
    · exact Or.inl rfl
    · exact Or.inr rfl
  exact if_pos ⟨rfl, rfl, hx⟩

def digitList (num : BitVec 32) (base : ℕ) (type : BitVec 32) : List ℕ :=
  if magnitude num type = 0 then [0] else (Nat.digits base (magnitude num type).toNat).reverse

theorem digitText_eq (num : BitVec 32) (base : ℕ) (type : BitVec 32) :
    digitText num base type = (digitList num base type).map (numberDigits (Has type Flag.small)) := by
  unfold digitText digitList
  split
  · rw [List.map_singleton, numberDigits_zero]
  · rw [List.map_reverse, Int.toNat_natCast]

theorem digitList_ne_nil : digitList num base type ≠ [] := by
  have htext := digitText_ne_nil num base type
  rw [digitText_eq, Ne, List.map_eq_nil_iff] at htext
  exact htext

theorem digitList_lt (hbase : 2 ≤ base) (h : d ∈ digitList num base type) : d < base := by
  unfold digitList at h
  split at h
  · rw [List.mem_singleton.1 h]
    omega
  · exact Nat.digits_lt_base (by omega) (List.mem_reverse.1 h)

theorem foldl_digitList (num : BitVec 32) (base : ℕ) (type : BitVec 32) (zeros : ℕ) :
    (List.replicate zeros 0 ++ digitList num base type).foldl (fun value d => base * value + d) 0 =
      (magnitude num type).toNat := by
  rw [List.foldl_append, foldl_zeros]
  unfold digitList
  split
  · rename_i hzero
    rw [hzero]
    rfl
  · exact foldl_digits_reverse base _

theorem magnitude_eq (num type : BitVec 32) : ((magnitude num type).toNat : ℤ) =
    if Has type Flag.sign ∧ num.toInt < 0 then -num.toInt else num.toNat := by
  unfold magnitude
  split
  · rename_i hneg
    have hlt := num.isLt
    have htoInt := BitVec.toInt_eq_toNat_cond num
    rw [BitVec.toNat_neg]
    split at htoInt <;> omega
  · rfl

theorem numberDigits_ne_space (hd : d < 36) :
    numberDigits small d ≠ chr ' ' ∧ numberDigits small d ≠ chr '-' ∧ numberDigits small d ≠ chr '+' := by
  have hspace : digitValue (chr ' ') = none := by decide
  have hminus : digitValue (chr '-') = none := by decide
  have hplus : digitValue (chr '+') = none := by decide
  refine ⟨numberDigits_ne hd fun e he => ?_, numberDigits_ne hd fun e he => ?_,
    numberDigits_ne hd fun e he => ?_⟩
  · rw [hspace] at he
    cases he
  · rw [hminus] at he
    cases he
  · rw [hplus] at he
    cases he

theorem readNumber_pieces (hbase : base ≤ 36) (spaces trail : ℕ) {ds : List ℕ} {value : ℕ}
    (hne : ds ≠ []) (hds : ∀ d ∈ ds, d < base)
    (hvalue : ds.foldl (fun value d => base * value + d) 0 = value) {c : BitVec 8}
    {body : List (BitVec 8)} (hc : c ≠ chr ' ' ∧ c ≠ chr '-' ∧ c ≠ chr '+')
    (hpre : readPrefix base (c :: body) =
      ds.map (numberDigits small) ++ List.replicate trail (chr ' ')) :
    readNumber base (List.replicate spaces (chr ' ') ++ signText num type ++ c :: body) =
      some (if Has type Flag.sign ∧ num.toInt < 0 then -(value : ℤ) else value) := by
  have hread : readDigits base 0 (ds.map (numberDigits small) ++ List.replicate trail (chr ' ')) =
      (value, List.replicate trail (chr ' ')) := by
    rw [readDigits_map hds hbase, hvalue, readDigits_spaces]
  have hlength : (List.replicate trail (chr ' ')).length <
      (ds.map (numberDigits small) ++ List.replicate trail (chr ' ')).length := by
    rw [List.length_append, List.length_map]
    exact Nat.lt_add_of_pos_left (List.length_pos_iff.2 hne)
  unfold readNumber
  rw [readSign_signText spaces body hc.1 hc.2.1 hc.2.2]
  dsimp only
  rw [hpre, hread]
  dsimp only
  rw [if_pos ⟨hlength, fun a ha => List.eq_of_mem_replicate ha⟩]
  by_cases hneg : Has type Flag.sign ∧ num.toInt < 0
  · rw [if_pos hneg, decide_eq_true hneg]
    rfl
  · rw [if_neg hneg, decide_eq_false hneg]
    rfl

theorem readNumber_special (num type : BitVec 32) (hbase : base = 8 ∨ base = 10 ∨ base = 16) (spaces zeros trail : ℕ) :
    readNumber base (List.replicate spaces (chr ' ') ++ signText num type ++
      (specialText base type ++ ((List.replicate zeros (chr '0') ++ digitText num base type) ++
        List.replicate trail (chr ' ')))) =
      some (if Has type Flag.sign ∧ num.toInt < 0 then -((magnitude num type).toNat : ℤ)
        else (magnitude num type).toNat) := by
  have htext : List.replicate zeros (chr '0') ++ digitText num base type =
      (List.replicate zeros 0 ++ digitList num base type).map (numberDigits (Has type Flag.small)) := by
    rw [List.map_append, List.map_replicate, numberDigits_zero, digitText_eq]
  have hvalue := foldl_digitList num base type zeros
  have hds : ∀ d ∈ List.replicate zeros 0 ++ digitList num base type, d < base := by
    intro d hd
    rcases List.mem_append.1 hd with hd | hd
    · rw [List.eq_of_mem_replicate hd]
      omega
    · exact digitList_lt (by omega) hd
  have hne : List.replicate zeros 0 ++ digitList num base type ≠ [] :=
    List.append_ne_nil_of_right_ne_nil _ digitList_ne_nil
  rw [htext]
  generalize List.replicate zeros 0 ++ digitList num base type = ds at hvalue hds hne
  have hzero : chr '0' ≠ chr ' ' ∧ chr '0' ≠ chr '-' ∧ chr '0' ≠ chr '+' := by decide
  -- without a prefix the first character is a digit
  have hplain : ∀ ds : List ℕ, ds ≠ [] → (∀ d ∈ ds, d < base) →
      ds.foldl (fun value d => base * value + d) 0 = (magnitude num type).toNat →
      readNumber base (List.replicate spaces (chr ' ') ++ signText num type ++
        (ds.map (numberDigits (Has type Flag.small)) ++ List.replicate trail (chr ' '))) =
        some (if Has type Flag.sign ∧ num.toInt < 0 then -((magnitude num type).toNat : ℤ)
          else (magnitude num type).toNat) := by
    intro ds hne hds hvalue
    obtain ⟨d, rest, rfl⟩ := List.exists_cons_of_ne_nil hne
    have hlt := hds d List.mem_cons_self
    have hpre := @readPrefix_digits (Has type Flag.small) _ base (by omega) (d :: rest) hds trail
    exact readNumber_pieces (by omega) spaces trail hne hds hvalue (numberDigits_ne_space (by omega))
      hpre
  unfold specialText
  by_cases hspecial : Has type Flag.special
  · rw [if_pos hspecial]
    rcases hbase with rfl | rfl | rfl
    · -- the prefix of base 8 is one more digit
      rw [if_pos (by decide)]
      have hmore := hplain (0 :: ds) (List.cons_ne_nil _ _) (fun d hd => ?_) ?_
      · rw [List.map_cons, numberDigits_zero] at hmore
        exact hmore
      · rcases List.mem_cons.1 hd with rfl | hd
        · decide
        · exact hds d hd
      · exact hvalue
    · rw [if_neg (by decide), if_neg (by decide)]
      exact hplain ds hne hds hvalue
    · rw [if_neg (by decide), if_pos (by decide)]
      exact readNumber_pieces (by decide) spaces trail hne hds hvalue hzero (readPrefix_special _)
  · rw [if_neg hspecial]
    exact hplain ds hne hds hvalue

end Pieces

/-! ## number -/

section Exact

variable {num type : BitVec 32} {base size precision : ℤ}

theorem readNumber_numberText (hbase : base = 8 ∨ base = 10 ∨ base = 16) :
    readNumber base.toNat (numberText num base size precision type) =
      some (if Has type Flag.sign then num.toInt else num.toNat) := by
  obtain ⟨b, hb, rfl⟩ : ∃ b : ℕ, (b = 8 ∨ b = 10 ∨ b = 16) ∧ base = b := ⟨base.toNat, by omega, by omega⟩
  have hvalue : (if Has type Flag.sign ∧ num.toInt < 0 then -((magnitude num type).toNat : ℤ)
      else (magnitude num type).toNat) = if Has type Flag.sign then num.toInt else num.toNat := by
    have hmagnitude := magnitude_eq num type
    have hint := BitVec.toInt_eq_toNat_cond num
    by_cases hsign : Has type Flag.sign
    · rw [if_pos hsign]
      by_cases hneg : num.toInt < 0
      · rw [if_pos ⟨hsign, hneg⟩] at hmagnitude ⊢
        omega
      · rw [if_neg fun h => hneg h.2] at hmagnitude ⊢
        split at hint <;> omega
    · rw [if_neg fun h => hsign h.1] at hmagnitude ⊢
      rw [if_neg hsign]
      exact hmagnitude
  unfold numberText
  dsimp only
  rw [← hvalue, Int.toNat_natCast]
  have hread := readNumber_special num type hb
  simp only [List.append_assoc] at hread ⊢
  rw [← List.append_assoc (List.replicate _ (chr '0')) (List.replicate _ (chr '0')),
    List.replicate_append_replicate]
  exact hread _ _ _

/-- **What `number` stores.** For every number, base 8, 10 or 16, all flags, and every width of
magnitude below `2 ^ 30` and precision with which the width counter stays an `int`: `number` stores
the pieces of `numberText`, whose digits denote the number (without the sign flag, its bits); the
text is as long as the width asks for and as its pieces are; and it reads back as the number. -/
theorem number_exact (hbase : base = 8 ∨ base = 10 ∨ base = 16) (hsize : |size| < 2 ^ 30)
    (hfits : CounterFits num base size precision type) :
    number num base size precision type = some (numberText num base size precision type) ∧
      ((numberText num base size precision type).length : ℤ) =
        max size (fieldLength num base precision type) ∧
      readDigits base.toNat 0 (digitText num base type) =
        (if Has type Flag.sign ∧ num.toInt < 0 then num.toInt.natAbs else num.toNat, []) ∧
      readNumber base.toNat (numberText num base size precision type) =
        some (if Has type Flag.sign then num.toInt else num.toNat) := by
  obtain ⟨hlow, hhigh⟩ := abs_lt.1 hsize
  refine ⟨number_eq (by omega) ⟨hlow, hhigh⟩ hfits, numberText_length, ?_, readNumber_numberText hbase⟩
  obtain ⟨b, hb, rfl⟩ : ∃ b : ℕ, (b = 8 ∨ b = 10 ∨ b = 16) ∧ base = b := ⟨base.toNat, by omega, by omega⟩
  have hdigits : readDigits b 0 (digitText num b type ++ []) =
      readDigits b ((magnitude num type).toNat) [] := by
    have hvalue := foldl_digitList num b type 0
    rw [List.replicate_zero, List.nil_append] at hvalue
    rw [digitText_eq, readDigits_map (fun d hd => digitList_lt (by omega) hd) (by omega), hvalue]
  have hmagnitude := magnitude_eq num type
  rw [List.append_nil] at hdigits
  rw [Int.toNat_natCast, hdigits, readDigits]
  by_cases hneg : Has type Flag.sign ∧ num.toInt < 0
  · rw [if_pos hneg] at hmagnitude ⊢
    rw [show (magnitude num type).toNat = num.toInt.natAbs by omega]
  · rw [if_neg hneg] at hmagnitude ⊢
    rw [Nat.cast_inj.1 hmagnitude]

/-- The most negative number. -/
theorem number_exact_min :
    readNumber 10 (numberText 0x80000000 10 0 0 Flag.sign) = some (-2 ^ 31) := by
  have hfits : CounterFits 0x80000000 10 0 0 Flag.sign :=
    counterFits_of_size (by decide) (by decide) (by decide)
  exact (number_exact (Or.inr (Or.inl rfl)) (by decide) hfits).2.2.2

/-! ## A width for which the counter passes the smallest `int` -/

/-- A right-justified number whose first two loops store nothing. -/
theorem padField_trail {slack second third : ℤ} (front middle : List (BitVec 8))
    (hzeropad : ¬ Has type Flag.zeropad) (hleft : ¬ Has type Flag.left)
    (hfirst : ∀ c, padLoop c slack = ([], second)) (hsecond : ∀ c, padLoop c second = ([], third)) :
    third.toNat ≤ (padField type slack front middle).length := by
  have hclear : ¬ Has (clearZeropad type) Flag.left := by
    rw [has_clearZeropad (by decide)]
    exact hleft
  unfold padField
  rw [if_pos (and_zeropad_left.2 ⟨fun h => hzeropad (has_clearZeropad_zeropad.1 h).1, hclear⟩), hfirst]
  dsimp only
  rw [if_pos hclear, hsecond]
  dsimp only
  rw [List.length_append, padLoop_fst, List.length_replicate]
  exact Nat.le_add_left _ _

/-- A width of `-(2 ^ 30 - 1)` with a precision of `2 ^ 30 - 1`: the counter wraps, and the last
loop stores `2 ^ 31 - 1` spaces. -/
theorem number_width_wraps :
    ¬ ∀ (num type : BitVec 32) (base size precision : ℤ), base = 8 ∨ base = 10 ∨ base = 16 →
      |size| < 2 ^ 30 → |precision| < 2 ^ 30 →
      ∃ text, number num base size precision type = some text ∧
        (text.length : ℤ) = max size (fieldLength num base precision type) := by
  intro hall
  obtain ⟨text, hnumber, hlength⟩ := hall 0 Flag.plus 10 (-(2 ^ 30 - 1)) (2 ^ 30 - 1)
    (Or.inr (Or.inl rfl)) (by decide) (by decide)
  have hfield : fieldLength 0 10 (2 ^ 30 - 1) Flag.plus = 2 ^ 30 := by decide
  have hslack : int32 (numberSlack 0 10 (-(2 ^ 30 - 1)) (2 ^ 30 - 1) Flag.plus) = -2 ^ 31 + 1 := by
    decide
  rw [number_stores (by decide) (by decide), hslack] at hnumber
  have hmin : int32 (-2 ^ 31 - 1) = 2 ^ 31 - 1 := by decide
  have hwraps : ∀ c, padLoop c (-2 ^ 31) = ([], 2 ^ 31 - 1) := fun c => by
    unfold padLoop
    rw [if_neg (by decide), hmin]
  have hfirst : ∀ c, padLoop c (-2 ^ 31 + 1) = ([], -2 ^ 31) := fun c =>
    padLoop_of_neg (by decide) (by decide)
  have hlong := padField_trail (signText 0 Flag.plus ++ specialText 10 Flag.plus)
    (List.replicate ((2 ^ 30 - 1 : ℤ) - (digitText 0 10 Flag.plus).length).toNat (chr '0') ++
      digitText 0 10 Flag.plus)
    (by decide : ¬ Has Flag.plus Flag.zeropad) (by decide) hfirst hwraps
  rw [Option.some.inj hnumber] at hlong
  rw [hfield] at hlength
  omega

end Exact

end BitchKernel
