import BitchKernel.Printk.FormatRun
import BitchKernel.Printk.NumberText

/-!
# Printed texts

Rules for what a format prints, from which the text of a message is put together: a literal prints
itself, a directive the text of its argument, and formats one behind the other print one behind the
other.
-/

namespace BitchKernel

open Lib

def text (s : String) : List (BitVec 8) := s.toList.map chr

theorem text_append (s t : String) : text (s ++ t) = text s ++ text t := by
  unfold text
  rw [String.toList_append, List.map_append]

def IsLiteral (f : List (BitVec 8)) : Prop := ∀ c ∈ f, c ≠ chr '%' ∧ c ≠ 0

instance (f : List (BitVec 8)) : Decidable (IsLiteral f) :=
  decidable_of_iff (f.all fun c => c != chr '%' && c != 0) (by simp [IsLiteral])

/-- The whole format `f` prints `out` and leaves the arguments `rest`. -/
structure Prints (mem : Bytes) (f : List (BitVec 8)) (args : List (BitVec 32)) (out : List (BitVec 8))
    (rest : List (BitVec 32)) : Prop where
  whole : Whole f
  zero : 0 ∉ f
  run : ∃ n, ∀ fuel, n ≤ fuel → vsprintf mem fuel f args = .ok ⟨out, [], rest, []⟩

theorem roundEnd_append {f : List (BitVec 8)} (hf : f ≠ []) (hconv : HasConversion f)
    (g : List (BitVec 8)) : roundEnd (f ++ g) = roundEnd f ++ g := by
  unfold roundEnd
  rw [peek_append hf g]
  split
  · rename_i hpercent
    rw [conversionAt_scanner.append f g (hconv hpercent), tail_append (hconv hpercent) g]
  · exact tail_append hf g

theorem Whole.append {f g : List (BitVec 8)} (hf : Whole f) (hg : Whole g) : Whole (f ++ g) := by
  induction hf with
  | nil => exact hg
  | @round f hne hconv _ ih =>
      refine Whole.round (List.append_ne_nil_of_left_ne_nil hne g) (fun hpercent => ?_) ?_
      · rw [peek_append hne g] at hpercent
        rw [conversionAt_scanner.append f g (hconv hpercent)]
        exact List.append_ne_nil_of_left_ne_nil (hconv hpercent) g
      · rw [roundEnd_append hne hconv g]
        exact ih

namespace Prints

variable {mem : Bytes} {f f₁ f₂ : List (BitVec 8)} {args rest rest₁ rest₂ : List (BitVec 32)}
  {out out₁ out₂ : List (BitVec 8)}

theorem append (h₁ : Prints mem f₁ args out₁ rest₁) (h₂ : Prints mem f₂ rest₁ out₂ rest₂) :
    Prints mem (f₁ ++ f₂) args (out₁ ++ out₂) rest₂ := by
  obtain ⟨n₁, hrun₁⟩ := h₁.run
  obtain ⟨n₂, hrun₂⟩ := h₂.run
  refine ⟨h₁.whole.append h₂.whole, fun h => (List.mem_append.1 h).elim h₁.zero h₂.zero,
    n₁ + n₂ + (f₁.length + f₂.length + 1), fun fuel hfuel => ?_⟩
  rw [vsprintf_append h₁.whole h₁.zero h₂.zero (by omega) args, hrun₁ fuel (by omega), ok_bind,
    hrun₂ fuel (by omega), ok_bind]
  rfl

theorem nil (mem : Bytes) (args : List (BitVec 32)) : Prints mem [] args [] args := by
  refine ⟨Whole.nil, List.not_mem_nil, 1, fun fuel hfuel => ?_⟩
  obtain ⟨fuel, rfl⟩ := Nat.exists_eq_succ_of_ne_zero (Nat.ne_of_gt hfuel)
  rfl

theorem char {c : BitVec 8} (hpercent : c ≠ chr '%') (hzero : c ≠ 0) (mem : Bytes)
    (args : List (BitVec 32)) : Prints mem [c] args [c] args := by
  refine ⟨Whole.round (List.cons_ne_nil c []) (fun h => absurd h hpercent) ?_, ?_, 2, fun fuel hfuel => ?_⟩
  · have hend : roundEnd [c] = [] := if_neg hpercent
    rw [hend]
    exact Whole.nil
  · rw [List.mem_singleton]
    exact hzero.symm
  · obtain ⟨fuel, rfl⟩ := Nat.exists_eq_add_of_le hfuel
    unfold vsprintf
    rw [Nat.add_comm 2 fuel]
    rw [vsprintfLoop_succ (fun h => hzero (List.mem_singleton.1 h).symm) (List.cons_ne_nil c [])]
    have hround : formatRound mem (fuel + 2) 0 [c] args = .ok ⟨[c], [], args, []⟩ := if_pos hpercent
    rw [hround, ok_bind]
    dsimp only
    rw [vsprintfLoop_nil, ok_bind]
    rfl

theorem literal (h : IsLiteral f) (mem : Bytes) (args : List (BitVec 32)) : Prints mem f args f args := by
  induction f with
  | nil => exact nil mem args
  | cons c f ih =>
      obtain ⟨hpercent, hzero⟩ := h c List.mem_cons_self
      exact (char hpercent hzero mem args).append (ih fun d hd => h d (List.mem_cons_of_mem c hd))

theorem unique (h₁ : Prints mem f args out₁ rest₁) (h₂ : Prints mem f args out₂ rest₂) : out₁ = out₂ := by
  obtain ⟨n₁, hrun₁⟩ := h₁.run
  obtain ⟨n₂, hrun₂⟩ := h₂.run
  have hsame := (hrun₁ (n₁ + n₂) (by omega)).symm.trans (hrun₂ (n₁ + n₂) (by omega))
  rw [Except.ok.injEq] at hsame
  exact congrArg Round.out hsame

theorem directive (hpercent : peek f = chr '%') (hconv : conversionAt f ≠ [])
    (hend : (conversionAt f).tail = []) (hzero : 0 ∉ f)
    (hrun : ∃ n, ∀ scan, n ≤ scan → BitchKernel.directive mem scan 0 f args = .ok ⟨out, [], rest, []⟩) :
    Prints mem f args out rest := by
  have hne : f ≠ [] := by
    rintro rfl
    exact absurd hpercent (by decide)
  refine ⟨Whole.round hne (fun _ => hconv) ?_, hzero, ?_⟩
  · have hround : roundEnd f = (conversionAt f).tail := if_pos hpercent
    rw [hround, hend]
    exact Whole.nil
  · obtain ⟨n, hrun⟩ := hrun
    refine ⟨n + 2, fun fuel hfuel => ?_⟩
    obtain ⟨fuel, rfl⟩ := Nat.exists_eq_add_of_le' (Nat.le_trans (Nat.le_add_left 2 n) hfuel)
    unfold vsprintf
    rw [vsprintfLoop_succ hzero hne]
    have hround : formatRound mem (fuel + 2) 0 f args = BitchKernel.directive mem (fuel + 2) 0 f args :=
      if_neg (not_not.2 hpercent)
    rw [hround, hrun (fuel + 2) (by omega), ok_bind]
    dsimp only
    rw [vsprintfLoop_nil, ok_bind, List.append_nil]
    rfl

/-- The parts of a directive without a qualifier whose width and precision take no argument. -/
theorem directive_eq {flags : BitVec 32} {g₁ g₂ g₃ : List (BitVec 8)} {width precision : ℤ} {scan : ℕ}
    (hflags : repeatFlags f 0 = .ok (flags, g₁))
    (hwidth : fieldWidth g₁ flags args = .ok ⟨width, flags, args, g₂⟩)
    (hprecision : fieldPrecision g₂ flags args = .ok ⟨precision, flags, args, g₃⟩)
    (hqualifier : skipQualifier g₃ = .ok g₃) :
    BitchKernel.directive mem scan 0 f args = convert mem scan 0 g₃ args flags width precision := by
  unfold BitchKernel.directive
  rw [hflags, ok_bind]
  dsimp only
  rw [hwidth, ok_bind]
  dsimp only
  rw [hprecision, ok_bind]
  dsimp only
  rw [hqualifier, ok_bind]

theorem decimal (mem : Bytes) (a : BitVec 32) (rest : List (BitVec 32)) :
    Prints mem (text "%d") (a :: rest) (numberOut a 10 (-1) (-1) Flag.sign) rest := by
  have htext : text "%d" = [chr '%', chr 'd'] := by decide
  have hflags : repeatFlags [chr '%', chr 'd'] 0 = .ok (0, [chr 'd']) := by decide
  rw [htext]
  refine directive (by decide) (by decide) (by decide) (by decide) ⟨0, fun scan _ => ?_⟩
  rw [directive_eq hflags rfl rfl rfl]
  rfl

theorem hex (mem : Bytes) (a : BitVec 32) (rest : List (BitVec 32)) :
    Prints mem (text "%X") (a :: rest) (numberOut a 16 (-1) (-1) 0) rest := by
  have htext : text "%X" = [chr '%', chr 'X'] := by decide
  have hflags : repeatFlags [chr '%', chr 'X'] 0 = .ok (0, [chr 'X']) := by decide
  rw [htext]
  refine directive (by decide) (by decide) (by decide) (by decide) ⟨0, fun scan _ => ?_⟩
  rw [directive_eq hflags rfl rfl rfl]
  rfl

theorem address (mem : Bytes) (a : BitVec 32) (rest : List (BitVec 32)) :
    Prints mem (text "%08X") (a :: rest) (numberOut a 16 8 (-1) Flag.zeropad) rest := by
  have htext : text "%08X" = [chr '%', chr '0', chr '8', chr 'X'] := by decide
  rw [htext]
  have hflags : repeatFlags [chr '%', chr '0', chr '8', chr 'X'] 0 =
      .ok (Flag.zeropad, [chr '8', chr 'X']) := by decide
  have hskip : skipAtoi [chr '8', chr 'X'] 0 = (8, [chr 'X']) := by decide
  have hwidth : fieldWidth [chr '8', chr 'X'] Flag.zeropad (a :: rest) =
      .ok ⟨8, Flag.zeropad, a :: rest, [chr 'X']⟩ := by
    unfold fieldWidth
    rw [if_pos (by decide), hskip]
  refine directive (by decide) (by decide) (by decide) (by decide) ⟨0, fun scan _ => ?_⟩
  rw [directive_eq hflags hwidth rfl rfl]
  rfl

theorem string {s : BitVec 32} {n : ℕ} (h : EndsAt mem s.toNat n) (hn : n < 2 ^ 32)
    (rest : List (BitVec 32)) :
    Prints mem (text "%s") (s :: rest) (stringText mem s.toNat n 0 (-1) (-1)) rest := by
  have htext : text "%s" = [chr '%', chr 's'] := by decide
  have hflags : repeatFlags [chr '%', chr 's'] 0 = .ok (0, [chr 's']) := by decide
  rw [htext]
  refine directive (by decide) (by decide) (by decide) (by decide) ⟨n + 1, fun scan hscan => ?_⟩
  have hlen : (strlen mem scan s.toNat).1 = some n := by
    rw [h.strlen_eq s.isLt hn, if_pos (Nat.lt_of_succ_le hscan)]
  rw [directive_eq hflags rfl rfl rfl]
  exact convert_string rfl hlen

end Prints

/-! ## Lengths -/

/-- The characters of `%d`. -/
def decimalLength (a : BitVec 32) : ℕ :=
  (if a.toInt < 0 then 1 else 0) + max 1 (Nat.digits 10 a.toInt.natAbs).length

/-- The characters of `%X`. -/
def hexLength (a : BitVec 32) : ℕ := max 1 (Nat.digits 16 a.toNat).length

/-- The characters of `%s` for a string of `n` bytes. From `2 ^ 31` bytes on its length is a
negative `int`, and what is printed is spaces. -/
def stringLength (n : ℕ) : ℕ :=
  if n < 2 ^ 31 then n else if n = 2 ^ 31 then 3 * 2 ^ 31 - 2 else 2 ^ 32 - 1 - n

theorem stringPad_of_le {len width : ℤ} (h : width ≤ len) : stringPad len width = ([], int32 (width - 1)) :=
  if_neg (not_lt.2 h)

theorem stringPad_of_lt {len width : ℤ} (h : len < width) :
    stringPad len width = (List.replicate (width - len).toNat (chr ' '), int32 (len - 1)) := if_pos h

theorem stringText_eq (mem : Bytes) (s n : ℕ) {flags : BitVec 32} (hleft : ¬ Has flags Flag.left)
    (width : ℤ) {precision : ℤ} (hneg : precision < 0) :
    stringText mem s n flags width precision =
      (stringPad (int32 n) width).1 ++ (tested s (int32 n).toNat).map mem ++
        (stringPad (int32 n) (stringPad (int32 n) width).2).1 := by
  unfold stringText
  dsimp only
  rw [if_pos hneg, if_pos hleft]

/-- The padding and the bytes that are stored for a length `len` without a width. -/
def paddedLength (len : ℤ) : ℕ :=
  (stringPad len (-1)).1.length + len.toNat + (stringPad len (stringPad len (-1)).2).1.length

theorem paddedLength_of_le {len : ℤ} (h : -1 ≤ len) : paddedLength len = len.toNat := by
  have hnext : int32 (-1 - 1) = -2 := by decide
  unfold paddedLength
  rw [stringPad_of_le h]
  dsimp only
  rw [hnext, stringPad_of_le (by omega), List.length_nil, Nat.zero_add, Nat.add_zero]

theorem paddedLength_of_lt {len : ℤ} (h : len < -1) (hmin : -2 ^ 31 < len) :
    paddedLength len = (-1 - len).toNat := by
  have hnext : int32 (len - 1) = len - 1 := int32_of_mem (by omega) (by omega)
  unfold paddedLength
  rw [stringPad_of_lt h]
  dsimp only
  rw [hnext, stringPad_of_le (by omega), List.length_nil, List.length_replicate]
  omega

theorem paddedLength_min {len : ℤ} (h : len = -2 ^ 31) : paddedLength len = 3 * 2 ^ 31 - 2 := by
  have hnext : int32 (len - 1) = 2 ^ 31 - 1 := by
    unfold int32
    omega
  unfold paddedLength
  rw [stringPad_of_lt (by omega)]
  dsimp only
  rw [hnext, stringPad_of_lt (by omega), List.length_replicate, List.length_replicate]
  omega

theorem stringText_length (mem : Bytes) (s : ℕ) {n : ℕ} (hn : n < 2 ^ 32) :
    (stringText mem s n 0 (-1) (-1)).length = stringLength n := by
  have hpadded : (stringText mem s n 0 (-1) (-1)).length = paddedLength (int32 n) := by
    rw [stringText_eq mem s n (by decide) (-1) (by decide), List.length_append, List.length_append,
      List.length_map, tested, List.length_map, List.length_range]
    rfl
  rw [hpadded]
  unfold stringLength
  by_cases hsmall : n < 2 ^ 31
  · have hlen : int32 n = n := int32_of_mem (by omega) (by omega)
    rw [if_pos hsmall, hlen, paddedLength_of_le (by omega), Int.toNat_natCast]
  have hlen : int32 n = n - 2 ^ 32 := by
    unfold int32
    omega
  rw [if_neg hsmall, hlen]
  by_cases hmin : n = 2 ^ 31
  · rw [if_pos hmin, paddedLength_min (by omega)]
  rw [if_neg hmin]
  by_cases hplain : n = 2 ^ 32 - 1
  · rw [paddedLength_of_le (by omega)]
    omega
  · rw [paddedLength_of_lt (by omega) (by omega)]
    omega

/-- The characters of a number for which no width is given, or a width below 2 ^ 30. -/
theorem numberOut_length (a : BitVec 32) {base size : ℤ} (hbase : 2 ≤ base ∧ base ≤ 36)
    (hsize : -1 ≤ size ∧ size < 2 ^ 30) (flags : BitVec 32) :
    ((numberOut a base size (-1) flags).length : ℤ) = max size (fieldLength a base (-1) flags) := by
  have hfits : CounterFits a base size (-1) flags :=
    counterFits_of_size hbase.1 (by omega) (by decide)
  unfold numberOut
  rw [number_eq hbase (by omega) hfits, Option.getD_some, numberText_length]

theorem digitText_length (a : BitVec 32) (base : ℤ) (flags : BitVec 32) :
    (digitText a base flags).length = max 1 (Nat.digits base.toNat (magnitude a flags).toNat).length := by
  unfold digitText
  split
  · rename_i hzero
    have hdigits : Nat.digits base.toNat (BitVec.toNat (0 : BitVec 32)) = [] := Nat.digits_zero _
    rw [hzero, hdigits]
    rfl
  · rename_i hne
    rw [List.length_reverse, List.length_map, eq_comm, max_eq_right]
    refine List.length_pos_iff.2 (Nat.digits_ne_nil_iff_ne_zero.2 fun h => hne (BitVec.eq_of_toNat_eq h))

theorem fieldLength_eq (a : BitVec 32) (base : ℤ) {flags : BitVec 32} (hspecial : ¬ Has flags Flag.special) :
    fieldLength a base (-1) flags = (signText a flags).length +
      (max 1 (Nat.digits base.toNat (magnitude a flags).toNat).length : ℕ) := by
  have hpre : specialText base flags = [] := if_neg hspecial
  unfold fieldLength
  rw [hpre, digitText_length, List.length_nil]
  omega

theorem decimal_length (a : BitVec 32) :
    (numberOut a 10 (-1) (-1) Flag.sign).length = decimalLength a := by
  have hlength : ((numberOut a 10 (-1) (-1) Flag.sign).length : ℤ) =
      max (-1) (fieldLength a 10 (-1) Flag.sign) := numberOut_length a (by decide) (by decide) Flag.sign
  have hhas : Has Flag.sign Flag.sign := by decide
  have hmagnitude : (magnitude a Flag.sign).toNat = a.toInt.natAbs := by
    have heq := magnitude_eq a Flag.sign
    have hint := BitVec.toInt_eq_toNat_cond a
    by_cases hneg : a.toInt < 0
    · rw [if_pos ⟨hhas, hneg⟩] at heq
      omega
    · rw [if_neg fun h => hneg h.2] at heq
      split at hint <;> omega
  have hsign : (signText a Flag.sign).length = if a.toInt < 0 then 1 else 0 := by
    have hplus : ¬ Has Flag.sign Flag.plus := by decide
    have hspace : ¬ Has Flag.sign Flag.space := by decide
    unfold signText
    rw [if_neg hplus, if_neg hspace]
    by_cases hneg : a.toInt < 0
    · rw [if_pos ⟨hhas, hneg⟩, if_pos hneg]
      rfl
    · rw [if_neg fun h => hneg h.2, if_neg hneg]
      rfl
  rw [fieldLength_eq a 10 (by decide), hmagnitude, hsign] at hlength
  unfold decimalLength
  have hten : (10 : ℤ).toNat = 10 := rfl
  rw [hten] at hlength
  omega

theorem signText_of_not_sign (a : BitVec 32) {flags : BitVec 32} (hsign : ¬ Has flags Flag.sign)
    (hplus : ¬ Has flags Flag.plus) (hspace : ¬ Has flags Flag.space) : signText a flags = [] := by
  unfold signText
  rw [if_neg fun h => hsign h.1, if_neg hplus, if_neg hspace]

theorem magnitude_of_not_sign (a : BitVec 32) {flags : BitVec 32} (hsign : ¬ Has flags Flag.sign) :
    magnitude a flags = a := if_neg fun h => hsign h.1

theorem hex_length (a : BitVec 32) : (numberOut a 16 (-1) (-1) 0).length = hexLength a := by
  have hlength : ((numberOut a 16 (-1) (-1) 0).length : ℤ) = max (-1) (fieldLength a 16 (-1) 0) :=
    numberOut_length a (by decide) (by decide) 0
  have hsixteen : (16 : ℤ).toNat = 16 := rfl
  rw [fieldLength_eq a 16 (by decide), magnitude_of_not_sign a (by decide),
    signText_of_not_sign a (by decide) (by decide) (by decide), hsixteen] at hlength
  have hnil : ([] : List (BitVec 8)).length = 0 := rfl
  rw [hnil] at hlength
  unfold hexLength
  omega

theorem hexLength_le (a : BitVec 32) : hexLength a ≤ 8 := by
  have hlt : a.toNat < 16 ^ 8 := a.isLt
  have hdigits := (Nat.digits_length_le_iff (by decide : 1 < 16) a.toNat).2 hlt
  unfold hexLength
  omega

theorem address_length (a : BitVec 32) : (numberOut a 16 8 (-1) Flag.zeropad).length = 8 := by
  have hlength : ((numberOut a 16 8 (-1) Flag.zeropad).length : ℤ) =
      max 8 (fieldLength a 16 (-1) Flag.zeropad) := numberOut_length a (by decide) (by decide) Flag.zeropad
  have hle := hexLength_le a
  have hsixteen : (16 : ℤ).toNat = 16 := rfl
  have hnil : ([] : List (BitVec 8)).length = 0 := rfl
  rw [fieldLength_eq a 16 (by decide), magnitude_of_not_sign a (by decide),
    signText_of_not_sign a (by decide) (by decide) (by decide), hsixteen, hnil] at hlength
  unfold hexLength at hle
  omega

end BitchKernel
