import BitchKernel.Lib.Scanner
import BitchKernel.Printk.Format

/-!
# Directives

Where the parts of a directive end is decided by the format alone. Each part of the loop of
`vsprintf` takes the pointer to the end of its part and takes the arguments it is due, and what
stands behind a directive makes no difference to it.
-/

namespace BitchKernel

open Lib

/-! ## Where the parts of a directive end -/

/-- Behind the flags of a directive whose `%` was passed. -/
def flagsEnd (f : List (BitVec 8)) : List (BitVec 8) := f.dropWhile fun c => decide (flagOf c ≠ none)

def widthEnd (f : List (BitVec 8)) : List (BitVec 8) :=
  if isDigit (peek f) then f.dropWhile fun c => decide (isDigit c)
  else if peek f = chr '*' then f.tail
  else f

def pointEnd (f : List (BitVec 8)) : List (BitVec 8) :=
  if isDigit (peek f) then f.dropWhile fun c => decide (isDigit c) else f

def precisionEnd (f : List (BitVec 8)) : List (BitVec 8) :=
  if peek f = chr '.' then pointEnd f.tail else f

def qualifierEnd (f : List (BitVec 8)) : List (BitVec 8) :=
  if peek f = chr 'h' ∨ peek f = chr 'l' ∨ peek f = chr 'L' then f.tail else f

def conversionAt (f : List (BitVec 8)) : List (BitVec 8) :=
  qualifierEnd (precisionEnd (widthEnd (flagsEnd f.tail)))

/-! ## The arguments of the parts -/

def widthArgs (f : List (BitVec 8)) : ℕ :=
  if isDigit (peek f) then 0 else if peek f = chr '*' then 1 else 0

def precisionArgs (f : List (BitVec 8)) : ℕ :=
  if peek f = chr '.' then
    if isDigit (peek f.tail) then 0 else if peek f.tail = chr '*' then 1 else 0
  else 0

def conversionArgs (f : List (BitVec 8)) : ℕ :=
  if peek f ∈ "csopxXdiun".toList.map chr then 1 else 0

def directiveArgs (f : List (BitVec 8)) : ℕ :=
  widthArgs (flagsEnd f.tail) + precisionArgs (widthEnd (flagsEnd f.tail)) +
    conversionArgs (conversionAt f)

section Scanners

theorem peek_eq (f : List (BitVec 8)) : peek f = f.head?.getD 0 := by
  cases f with
  | nil => rfl
  | cons c f => rfl

theorem eq_cons_of_peek {f : List (BitVec 8)} {c : BitVec 8} (h : peek f = c) (hc : c ≠ 0) :
    f = c :: f.tail := by
  cases f with
  | nil => exact absurd h.symm hc
  | cons d f =>
      obtain rfl : d = c := h
      rfl

theorem peek_append {f : List (BitVec 8)} (hf : f ≠ []) (g : List (BitVec 8)) :
    peek (f ++ g) = peek f := by
  obtain ⟨c, t, rfl⟩ := List.exists_cons_of_ne_nil hf
  rfl

theorem tail_append {f : List (BitVec 8)} (hf : f ≠ []) (g : List (BitVec 8)) :
    (f ++ g).tail = f.tail ++ g := by
  obtain ⟨c, t, rfl⟩ := List.exists_cons_of_ne_nil hf
  rfl

theorem flagsEnd_scanner : Scanner flagsEnd := Scanner.dropWhile _

theorem widthEnd_scanner : Scanner widthEnd := by
  have h := Scanner.ite (fun c : Option (BitVec 8) => isDigit (c.getD 0))
    (Scanner.dropWhile fun c => decide (isDigit c))
    (Scanner.ite (fun c : Option (BitVec 8) => c.getD 0 = chr '*') Scanner.tail Scanner.id)
  simp only [← peek_eq] at h
  exact h

theorem pointEnd_scanner : Scanner pointEnd := by
  have h := Scanner.ite (fun c : Option (BitVec 8) => isDigit (c.getD 0))
    (Scanner.dropWhile fun c => decide (isDigit c)) Scanner.id
  simp only [← peek_eq] at h
  exact h

theorem precisionEnd_scanner : Scanner precisionEnd := by
  have h := Scanner.ite (fun c : Option (BitVec 8) => c.getD 0 = chr '.')
    (pointEnd_scanner.comp Scanner.tail) Scanner.id
  simp only [← peek_eq] at h
  exact h

theorem qualifierEnd_scanner : Scanner qualifierEnd := by
  have h := Scanner.ite
    (fun c : Option (BitVec 8) => c.getD 0 = chr 'h' ∨ c.getD 0 = chr 'l' ∨ c.getD 0 = chr 'L')
    Scanner.tail Scanner.id
  simp only [← peek_eq] at h
  exact h

theorem conversionAt_scanner : Scanner conversionAt :=
  qualifierEnd_scanner.comp (precisionEnd_scanner.comp
    (widthEnd_scanner.comp (flagsEnd_scanner.comp Scanner.tail)))

end Scanners

/-! ## The parts of the loop -/

section Parts

variable {f : List (BitVec 8)} {flags : BitVec 32} {args : List (BitVec 32)}

theorem repeatFlags_of_flag {flag : BitVec 32} (c : BitVec 8) (fmt : List (BitVec 8))
    (flags : BitVec 32) (h : flagOf (peek fmt) = some flag) :
    repeatFlags (c :: fmt) flags = repeatFlags fmt (flags ||| flag) := by
  rw [repeatFlags, h]

theorem repeatFlags_of_none (c : BitVec 8) (fmt : List (BitVec 8)) (flags : BitVec 32)
    (h : flagOf (peek fmt) = none) : repeatFlags (c :: fmt) flags = .ok (flags, fmt) := by
  rw [repeatFlags, h]

theorem repeatFlags_eq (c : BitVec 8) (f : List (BitVec 8)) (flags : BitVec 32) :
    ∃ flags', ∀ g, flagsEnd f ≠ [] ∨ g = [] →
      repeatFlags (c :: f ++ g) flags = .ok (flags', flagsEnd f ++ g) := by
  induction f generalizing c flags with
  | nil =>
      refine ⟨flags, fun g hg => ?_⟩
      rcases hg with hg | rfl
      · exact absurd rfl hg
      · rfl
  | cons d f ih =>
      cases hflag : flagOf d with
      | none =>
          have hend : flagsEnd (d :: f) = d :: f :=
            List.dropWhile_cons_of_neg (by rw [hflag]; decide)
          refine ⟨flags, fun g _ => ?_⟩
          rw [hend, List.cons_append]
          exact repeatFlags_of_none c (d :: f ++ g) flags hflag
      | some flag =>
          have hend : flagsEnd (d :: f) = flagsEnd f :=
            List.dropWhile_cons_of_pos (by rw [hflag]; rfl)
          obtain ⟨flags', hrest⟩ := ih d (flags ||| flag)
          refine ⟨flags', fun g hg => ?_⟩
          rw [hend] at hg ⊢
          rw [← hrest g hg, List.cons_append]
          exact repeatFlags_of_flag c (d :: f ++ g) flags hflag

theorem skipAtoi_eq (f : List (BitVec 8)) (i : ℤ) :
    ∃ value, ∀ g, f.dropWhile (fun c => decide (isDigit c)) ≠ [] ∨ g = [] →
      skipAtoi (f ++ g) i = (value, f.dropWhile (fun c => decide (isDigit c)) ++ g) := by
  induction f generalizing i with
  | nil =>
      refine ⟨i, fun g hg => ?_⟩
      rcases hg with hg | rfl
      · exact absurd rfl hg
      · rfl
  | cons c f ih =>
      by_cases hdigit : isDigit c
      · obtain ⟨value, hrest⟩ := ih (int32 (i * 10 + c.toNat - 48))
        refine ⟨value, fun g hg => ?_⟩
        rw [List.dropWhile_cons_of_pos (by rw [decide_eq_true_iff]; exact hdigit)] at hg ⊢
        rw [List.cons_append, skipAtoi, if_pos hdigit, hrest g hg]
      · refine ⟨i, fun g _ => ?_⟩
        rw [List.dropWhile_cons_of_neg (by rw [decide_eq_true_iff]; exact hdigit), List.cons_append,
          skipAtoi, if_neg hdigit]

theorem fieldWidth_cases (f : List (BitVec 8)) (flags : BitVec 32) (args : List (BitVec 32)) :
    (widthArgs f ≤ args.length ∧ ∃ value flags', ∀ g, widthEnd f ≠ [] ∨ g = [] →
      fieldWidth (f ++ g) flags args =
        .ok ⟨value, flags', args.drop (widthArgs f), widthEnd f ++ g⟩) ∨
    (args.length < widthArgs f ∧ ∀ g, widthEnd f ≠ [] ∨ g = [] →
      fieldWidth (f ++ g) flags args = .error .noArgument) := by
  have hpeek : ∀ g, widthEnd f ≠ [] ∨ g = [] → peek (f ++ g) = peek f := by
    rintro g (hend | rfl)
    · exact peek_append (widthEnd_scanner.ne_nil hend) g
    · rw [List.append_nil]
  unfold fieldWidth widthArgs
  by_cases hdigit : isDigit (peek f)
  · have hend : widthEnd f = f.dropWhile fun c => decide (isDigit c) := if_pos hdigit
    obtain ⟨value, hskip⟩ := skipAtoi_eq f 0
    refine Or.inl ⟨?_, value, flags, fun g hg => ?_⟩
    · rw [if_pos hdigit]
      exact Nat.zero_le _
    · rw [hpeek g hg, if_pos hdigit, if_pos hdigit]
      rw [hend] at hg ⊢
      rw [hskip g hg]
      rfl
  by_cases hstar : peek f = chr '*'
  · have hend : widthEnd f = f.tail := by
      unfold widthEnd
      rw [if_neg hdigit, if_pos hstar]
    have hcons := eq_cons_of_peek hstar (by decide)
    have hnext : ∀ g, next (f ++ g) = .ok (f.tail ++ g) := fun g => by
      rw [hcons]
      rfl
    rw [if_neg hdigit, if_pos hstar]
    cases args with
    | nil =>
        refine Or.inr ⟨Nat.zero_lt_one, fun g hg => ?_⟩
        rw [hpeek g hg, if_neg hdigit, if_pos hstar, hnext g]
        rfl
    | cons a args =>
        refine Or.inl ⟨Nat.succ_le_succ (Nat.zero_le _),
          if a.toInt < 0 then int32 (-a.toInt) else a.toInt,
          if a.toInt < 0 then flags ||| Flag.left else flags, fun g hg => ?_⟩
        rw [hpeek g hg, if_neg hdigit, if_pos hstar, hnext g, hend]
        change (if a.toInt < 0 then _ else _) = _
        split
        · rfl
        · rfl
  · have hend : widthEnd f = f := by
      unfold widthEnd
      rw [if_neg hdigit, if_neg hstar]
    rw [if_neg hdigit, if_neg hstar]
    refine Or.inl ⟨Nat.zero_le _, -1, flags, fun g hg => ?_⟩
    rw [hpeek g hg, if_neg hdigit, if_neg hstar, hend]
    rfl

theorem fieldPrecision_cases (f : List (BitVec 8)) (flags : BitVec 32) (args : List (BitVec 32)) :
    (precisionArgs f ≤ args.length ∧ ∃ value, ∀ g, precisionEnd f ≠ [] ∨ g = [] →
      fieldPrecision (f ++ g) flags args =
        .ok ⟨value, flags, args.drop (precisionArgs f), precisionEnd f ++ g⟩) ∨
    (args.length < precisionArgs f ∧ ∀ g, precisionEnd f ≠ [] ∨ g = [] →
      fieldPrecision (f ++ g) flags args = .error .noArgument) := by
  have hpeek : ∀ g, precisionEnd f ≠ [] ∨ g = [] → peek (f ++ g) = peek f := by
    rintro g (hend | rfl)
    · exact peek_append (precisionEnd_scanner.ne_nil hend) g
    · rw [List.append_nil]
  unfold fieldPrecision precisionArgs
  by_cases hpoint : peek f = chr '.'
  · have hend : precisionEnd f = pointEnd f.tail := if_pos hpoint
    have hcons := eq_cons_of_peek hpoint (by decide)
    have hnext : ∀ g, next (f ++ g) = .ok (f.tail ++ g) := fun g => by
      rw [hcons]
      rfl
    have hpeek' : ∀ g, precisionEnd f ≠ [] ∨ g = [] → peek (f.tail ++ g) = peek f.tail := by
      rintro g (hne | rfl)
      · rw [hend] at hne
        exact peek_append (pointEnd_scanner.ne_nil hne) g
      · rw [List.append_nil]
    rw [if_pos hpoint]
    by_cases hdigit : isDigit (peek f.tail)
    · have hnumber : pointEnd f.tail = f.tail.dropWhile fun c => decide (isDigit c) := if_pos hdigit
      obtain ⟨value, hskip⟩ := skipAtoi_eq f.tail 0
      refine Or.inl ⟨?_, max value 0, fun g hg => ?_⟩
      · rw [if_pos hdigit]
        exact Nat.zero_le _
      · rw [hpeek g hg, if_pos hpoint, if_pos hdigit, hnext g]
        change (if isDigit (peek (f.tail ++ g)) then _ else _) = _
        rw [hpeek' g hg, if_pos hdigit]
        rw [hend, hnumber] at hg ⊢
        rw [hskip g hg]
        rfl
    have hstay : pointEnd f.tail = f.tail := if_neg hdigit
    rw [if_neg hdigit]
    by_cases hstar : peek f.tail = chr '*'
    · rw [if_pos hstar]
      cases args with
      | nil =>
          refine Or.inr ⟨Nat.zero_lt_one, fun g hg => ?_⟩
          rw [hpeek g hg, if_pos hpoint, hnext g]
          change (if isDigit (peek (f.tail ++ g)) then _ else _) = _
          rw [hpeek' g hg, if_neg hdigit, if_pos hstar]
          rfl
      | cons a args =>
          refine Or.inl ⟨Nat.succ_le_succ (Nat.zero_le _), max a.toInt 0, fun g hg => ?_⟩
          rw [hpeek g hg, if_pos hpoint, hnext g]
          change (if isDigit (peek (f.tail ++ g)) then _ else _) = _
          rw [hpeek' g hg, if_neg hdigit, if_pos hstar, hend, hstay]
          rfl
    · rw [if_neg hstar]
      refine Or.inl ⟨Nat.zero_le _, 0, fun g hg => ?_⟩
      rw [hpeek g hg, if_pos hpoint, hnext g]
      change (if isDigit (peek (f.tail ++ g)) then _ else _) = _
      rw [hpeek' g hg, if_neg hdigit, if_neg hstar, hend, hstay]
      rfl
  · have hend : precisionEnd f = f := if_neg hpoint
    rw [if_neg hpoint]
    refine Or.inl ⟨Nat.zero_le _, -1, fun g hg => ?_⟩
    rw [hpeek g hg, if_neg hpoint, hend]
    rfl

theorem skipQualifier_eq (f : List (BitVec 8)) {g : List (BitVec 8)} (hg : qualifierEnd f ≠ [] ∨ g = []) :
    skipQualifier (f ++ g) = .ok (qualifierEnd f ++ g) := by
  have hpeek : peek (f ++ g) = peek f := by
    rcases hg with hend | rfl
    · exact peek_append (qualifierEnd_scanner.ne_nil hend) g
    · rw [List.append_nil]
  unfold skipQualifier qualifierEnd
  rw [hpeek]
  split
  · rename_i hqualifier
    have hne : f ≠ [] := by
      rintro rfl
      exact absurd hqualifier (by decide)
    obtain ⟨c, t, rfl⟩ := List.exists_cons_of_ne_nil hne
    rfl
  · rfl

end Parts

/-! ## A round -/

section Rounds

variable {mem : Bytes} {fuel : ℕ} {f : List (BitVec 8)} {args : List (BitVec 32)}

/-- What a part of the loop does for each number of characters in the buffer and each format behind
the text `f` that it reads: it takes `n` arguments and leaves the pointer at `behind`; or there are
not so many; or a string to print does not end soon enough. -/
def TakesArgs (mem : Bytes) (fuel : ℕ) (args : List (BitVec 32)) (n : ℕ) (behind : List (BitVec 8))
    (reads : List (BitVec 8) → Prop) (run : ℕ → List (BitVec 8) → Except Stop Round) : Prop :=
  (n ≤ args.length ∧ ∃ out ips, ∀ count g, reads g →
    run count g = .ok ⟨out, List.map (fun ip => (ip, count)) ips, args.drop n, behind ++ g⟩) ∨
  (args.length < n ∧ ∀ count g, reads g → run count g = .error .noArgument) ∨
  ((∃ s ∈ args, (strlen mem fuel s.toNat).1 = none) ∧ ∀ count g, reads g → run count g = .error .fuel)

theorem convertArg_takes (text : BitVec 32 → List (BitVec 8)) (args : List (BitVec 32))
    (behind : List (BitVec 8)) (reads : List (BitVec 8) → Prop) :
    TakesArgs mem fuel args 1 behind reads fun _ g => convertArg args (behind ++ g) text := by
  cases args with
  | nil => exact Or.inr (Or.inl ⟨Nat.zero_lt_one, fun _ _ _ => rfl⟩)
  | cons a args => exact Or.inl ⟨Nat.succ_le_succ (Nat.zero_le _), text a, [], fun _ _ _ => rfl⟩

theorem TakesArgs.congr {n : ℕ} {behind : List (BitVec 8)} {reads : List (BitVec 8) → Prop}
    {run run' : ℕ → List (BitVec 8) → Except Stop Round}
    (h : TakesArgs mem fuel args n behind reads run)
    (hrun : ∀ count g, reads g → run' count g = run count g) :
    TakesArgs mem fuel args n behind reads run' := by
  rcases h with ⟨hle, out, ips, h⟩ | ⟨hlt, h⟩ | ⟨hend, h⟩
  · exact Or.inl ⟨hle, out, ips, fun count g hg => (hrun count g hg).trans (h count g hg)⟩
  · exact Or.inr (Or.inl ⟨hlt, fun count g hg => (hrun count g hg).trans (h count g hg)⟩)
  · exact Or.inr (Or.inr ⟨hend, fun count g hg => (hrun count g hg).trans (h count g hg)⟩)

theorem TakesArgs.mono {n : ℕ} {behind : List (BitVec 8)} {reads reads' : List (BitVec 8) → Prop}
    {run : ℕ → List (BitVec 8) → Except Stop Round} (h : TakesArgs mem fuel args n behind reads run)
    (hreads : ∀ g, reads' g → reads g) : TakesArgs mem fuel args n behind reads' run := by
  rcases h with ⟨hle, out, ips, h⟩ | ⟨hlt, h⟩ | ⟨hend, h⟩
  · exact Or.inl ⟨hle, out, ips, fun count g hg => h count g (hreads g hg)⟩
  · exact Or.inr (Or.inl ⟨hlt, fun count g hg => h count g (hreads g hg)⟩)
  · exact Or.inr (Or.inr ⟨hend, fun count g hg => h count g (hreads g hg)⟩)

theorem TakesArgs.of_drop {k n : ℕ} {behind : List (BitVec 8)} {reads : List (BitVec 8) → Prop}
    {run : ℕ → List (BitVec 8) → Except Stop Round} (hk : k ≤ args.length)
    (h : TakesArgs mem fuel (args.drop k) n behind reads run) :
    TakesArgs mem fuel args (k + n) behind reads run := by
  rcases h with ⟨hle, out, ips, h⟩ | ⟨hlt, h⟩ | ⟨⟨s, hs, hend⟩, h⟩
  · rw [List.length_drop] at hle
    refine Or.inl ⟨by omega, out, ips, fun count g hg => ?_⟩
    rw [h count g hg, List.drop_drop]
  · rw [List.length_drop] at hlt
    exact Or.inr (Or.inl ⟨by omega, h⟩)
  · exact Or.inr (Or.inr ⟨⟨s, List.mem_of_mem_drop hs, hend⟩, h⟩)

theorem convert_eq_convertArg {c : BitVec 8} (hmem : c ∈ "copxXdiu".toList.map chr)
    (args : List (BitVec 32)) (flags : BitVec 32) (width precision : ℤ) :
    ∃ text, ∀ count fmt, peek fmt = c →
      convert mem fuel count fmt args flags width precision = convertArg args fmt.tail text := by
  have hcases : ∀ c ∈ "copxXdiu".toList.map chr, c = chr 'c' ∨ c = chr 'o' ∨ c = chr 'p' ∨
      c = chr 'x' ∨ c = chr 'X' ∨ c = chr 'd' ∨ c = chr 'i' ∨ c = chr 'u' := by decide
  unfold convert
  rcases hcases c hmem with rfl | rfl | rfl | rfl | rfl | rfl | rfl | rfl
  · refine ⟨fun a => charText a flags width, fun count fmt h => ?_⟩
    rw [h]
    rfl
  · refine ⟨fun a => numberOut a 8 width precision flags, fun count fmt h => ?_⟩
    rw [h]
    rfl
  · by_cases hwidth : width = -1
    · refine ⟨fun a => numberOut a 16 8 precision (flags ||| Flag.zeropad), fun count fmt h => ?_⟩
      rw [h, if_pos hwidth]
      rfl
    · refine ⟨fun a => numberOut a 16 width precision flags, fun count fmt h => ?_⟩
      rw [h, if_neg hwidth]
      rfl
  · refine ⟨fun a => numberOut a 16 width precision (flags ||| Flag.small), fun count fmt h => ?_⟩
    rw [h]
    rfl
  · refine ⟨fun a => numberOut a 16 width precision flags, fun count fmt h => ?_⟩
    rw [h]
    rfl
  · refine ⟨fun a => numberOut a 10 width precision (flags ||| Flag.sign), fun count fmt h => ?_⟩
    rw [h]
    rfl
  · refine ⟨fun a => numberOut a 10 width precision (flags ||| Flag.sign), fun count fmt h => ?_⟩
    rw [h]
    rfl
  · refine ⟨fun a => numberOut a 10 width precision flags, fun count fmt h => ?_⟩
    rw [h]
    rfl

theorem conversionArgs_cases (f : List (BitVec 8)) :
    (conversionArgs f = 1 ∧ f ≠ [] ∧
      (peek f ∈ "copxXdiu".toList.map chr ∨ peek f = chr 's' ∨ peek f = chr 'n')) ∨
    (conversionArgs f = 0 ∧ peek f ∉ "csopxXdiun".toList.map chr) := by
  have hsplit : ∀ c ∈ "csopxXdiun".toList.map chr,
      c ≠ 0 ∧ (c ∈ "copxXdiu".toList.map chr ∨ c = chr 's' ∨ c = chr 'n') := by decide
  by_cases hmem : peek f ∈ "csopxXdiun".toList.map chr
  · obtain ⟨hne, hcases⟩ := hsplit _ hmem
    refine Or.inl ⟨if_pos hmem, ?_, hcases⟩
    rintro rfl
    exact hne rfl
  · exact Or.inr ⟨if_neg hmem, hmem⟩

/-! ### The other conversions -/

section Convert

variable {mem : Bytes} {fuel count : ℕ} {fmt : List (BitVec 8)} {s flags : BitVec 32}
  {args : List (BitVec 32)} {width precision : ℤ}

theorem convert_string_nil (h : peek fmt = chr 's') :
    convert mem fuel count fmt [] flags width precision = .error .noArgument := by
  unfold convert
  rw [h]
  rfl

theorem convert_string_none (h : peek fmt = chr 's') (hlen : (strlen mem fuel s.toNat).1 = none) :
    convert mem fuel count fmt (s :: args) flags width precision = .error .fuel := by
  unfold convert
  rw [h]
  dsimp only
  rw [if_neg (by decide), if_pos rfl]
  dsimp only [vaArg, bind, Except.bind]
  rw [hlen]

theorem convert_string {len : ℕ} (h : peek fmt = chr 's')
    (hlen : (strlen mem fuel s.toNat).1 = some len) :
    convert mem fuel count fmt (s :: args) flags width precision =
      .ok ⟨stringText mem s.toNat len flags width precision, [], args, fmt.tail⟩ := by
  unfold convert
  rw [h]
  dsimp only
  rw [if_neg (by decide), if_pos rfl]
  dsimp only [vaArg, bind, Except.bind]
  rw [hlen]

theorem convert_count_nil (h : peek fmt = chr 'n') :
    convert mem fuel count fmt [] flags width precision = .error .noArgument := by
  unfold convert
  rw [h]
  rfl

theorem convert_count {ip : BitVec 32} (h : peek fmt = chr 'n') :
    convert mem fuel count fmt (ip :: args) flags width precision =
      .ok ⟨[], [(ip, count)], args, fmt.tail⟩ := by
  unfold convert
  rw [h]
  rfl

/-- A character that is no conversion is printed behind a `%`, and `%` itself alone. At the NUL the
pointer stays. -/
theorem convert_other (h : peek fmt ∉ "csopxXdiun".toList.map chr) :
    convert mem fuel count fmt args flags width precision =
      if peek fmt ≠ 0 then
        .ok ⟨(if peek fmt ≠ chr '%' then [chr '%'] else []) ++ [peek fmt], [], args, fmt.tail⟩
      else .ok ⟨if peek fmt ≠ chr '%' then [chr '%'] else [], [], args, fmt⟩ := by
  have hothers : ∀ c ∈ "csopxXdiun".toList.map chr, peek fmt ≠ c := by
    intro c hc hpeek
    rw [hpeek] at h
    exact h hc
  unfold convert
  dsimp only
  rw [if_neg (hothers _ (by decide)), if_neg (hothers _ (by decide)), if_neg (hothers _ (by decide)),
    if_neg (hothers _ (by decide)), if_neg (hothers _ (by decide)), if_neg (hothers _ (by decide)),
    if_neg (not_or.2 ⟨hothers _ (by decide), hothers _ (by decide)⟩),
    if_neg (hothers _ (by decide)), if_neg (hothers _ (by decide))]

end Convert

/-- The switch takes the argument of its conversion, if it has one, and leaves the pointer behind
the character. -/
theorem convert_takes (mem : Bytes) (fuel : ℕ) (hzero : 0 ∉ f) (args : List (BitVec 32))
    (flags : BitVec 32) (width precision : ℤ) :
    TakesArgs mem fuel args (conversionArgs f) f.tail (fun g => f ≠ [] ∨ g = []) fun count g =>
      convert mem fuel count (f ++ g) args flags width precision := by
  rcases conversionArgs_cases f with ⟨hargs, hne, hcopy | hs | hn⟩ | ⟨hargs, hnone⟩
  · obtain ⟨text, htext⟩ := convert_eq_convertArg hcopy args flags width precision
    rw [hargs]
    refine (convertArg_takes text args f.tail _).congr fun count g _ => ?_
    rw [htext count (f ++ g) (peek_append hne g), tail_append hne g]
  · rw [hargs]
    have hpeek : ∀ g, peek (f ++ g) = chr 's' := fun g => (peek_append hne g).trans hs
    cases args with
    | nil =>
        exact Or.inr (Or.inl ⟨Nat.zero_lt_one, fun count g _ => convert_string_nil (hpeek g)⟩)
    | cons s args =>
        cases hlen : (strlen mem fuel s.toNat).1 with
        | none =>
            exact Or.inr (Or.inr ⟨⟨s, List.mem_cons_self, hlen⟩, fun count g _ =>
              convert_string_none (hpeek g) hlen⟩)
        | some len =>
            refine Or.inl ⟨Nat.succ_le_succ (Nat.zero_le _),
              stringText mem s.toNat len flags width precision, [], fun count g _ => ?_⟩
            rw [← tail_append hne g]
            exact convert_string (hpeek g) hlen
  · rw [hargs]
    have hpeek : ∀ g, peek (f ++ g) = chr 'n' := fun g => (peek_append hne g).trans hn
    cases args with
    | nil =>
        exact Or.inr (Or.inl ⟨Nat.zero_lt_one, fun count g _ => convert_count_nil (hpeek g)⟩)
    | cons ip args =>
        refine Or.inl ⟨Nat.succ_le_succ (Nat.zero_le _), [], [ip], fun count g _ => ?_⟩
        rw [← tail_append hne g]
        exact convert_count (hpeek g)
  · rw [hargs]
    by_cases hne : f = []
    · -- the NUL: the pointer stays
      subst hne
      refine Or.inl ⟨Nat.zero_le _, [chr '%'], [], fun count g hg => ?_⟩
      obtain rfl := hg.resolve_left fun h => h rfl
      exact convert_other hnone
    · have hchar : peek f ≠ 0 := by
        obtain ⟨c, t, rfl⟩ := List.exists_cons_of_ne_nil hne
        rintro hc
        exact hzero (hc ▸ List.mem_cons_self)
      refine Or.inl ⟨Nat.zero_le _, (if peek f ≠ chr '%' then [chr '%'] else []) ++ [peek f], [],
        fun count g _ => ?_⟩
      have hpeek := peek_append hne g
      refine (convert_other (by rw [hpeek]; exact hnone)).trans ?_
      rw [hpeek, if_pos hchar, tail_append hne g]
      rfl

theorem ok_bind {α β : Type} (a : α) (k : α → Except Stop β) : (Except.ok a >>= k) = k a := rfl

theorem error_bind {α β : Type} (e : Stop) (k : α → Except Stop β) :
    (Except.error e >>= k) = Except.error e := rfl

theorem directive_takes (mem : Bytes) (fuel : ℕ) (hzero : 0 ∉ f) (hf : f ≠ []) (args : List (BitVec 32)) :
    TakesArgs mem fuel args (directiveArgs f) (conversionAt f).tail
      (fun g => conversionAt f ≠ [] ∨ g = []) fun count g => directive mem fuel count (f ++ g) args := by
  obtain ⟨c, t, rfl⟩ := List.exists_cons_of_ne_nil hf
  have hparts : directiveArgs (c :: t) = widthArgs (flagsEnd t) + precisionArgs (widthEnd (flagsEnd t)) +
      conversionArgs (conversionAt (c :: t)) := rfl
  have hend : conversionAt (c :: t) = qualifierEnd (precisionEnd (widthEnd (flagsEnd t))) := rfl
  have hzero' : 0 ∉ conversionAt (c :: t) := fun h =>
    hzero ((conversionAt_scanner.suffix (c :: t)).subset h)
  -- a part that ends before the conversion does is not empty either
  have hprec : ∀ g : List (BitVec 8), conversionAt (c :: t) ≠ [] ∨ g = [] →
      precisionEnd (widthEnd (flagsEnd t)) ≠ [] ∨ g = [] := fun g hg =>
    hg.imp_left fun h => qualifierEnd_scanner.ne_nil h
  have hwidth : ∀ g : List (BitVec 8), conversionAt (c :: t) ≠ [] ∨ g = [] → widthEnd (flagsEnd t) ≠ [] ∨ g = [] :=
    fun g hg => (hprec g hg).imp_left fun h => precisionEnd_scanner.ne_nil h
  have hflag : ∀ g : List (BitVec 8), conversionAt (c :: t) ≠ [] ∨ g = [] → flagsEnd t ≠ [] ∨ g = [] :=
    fun g hg => (hwidth g hg).imp_left fun h => widthEnd_scanner.ne_nil h
  obtain ⟨flags, hflags⟩ := repeatFlags_eq c t 0
  rcases fieldWidth_cases (flagsEnd t) flags args with ⟨hle, value, flags₁, hfield⟩ | ⟨hless, hfield⟩
  · rcases fieldPrecision_cases (widthEnd (flagsEnd t)) flags₁ (args.drop (widthArgs (flagsEnd t))) with
      ⟨hle₂, value₂, hfield₂⟩ | ⟨hless, hfield₂⟩
    · rw [List.length_drop] at hle₂
      rw [List.drop_drop] at hfield₂
      have htakes := convert_takes mem fuel hzero'
        (args.drop (widthArgs (flagsEnd t) + precisionArgs (widthEnd (flagsEnd t)))) flags₁ value value₂
      refine (htakes.of_drop (by omega)).congr fun count g hg => ?_
      unfold directive
      rw [hflags g (hflag g hg), ok_bind]
      dsimp only
      rw [hfield g (hwidth g hg), ok_bind, hfield₂ g (hprec g hg), ok_bind]
      dsimp only
      rw [skipQualifier_eq (precisionEnd (widthEnd (flagsEnd t))) hg, ok_bind, hend]
    · rw [List.length_drop] at hless
      refine Or.inr (Or.inl ⟨by omega, fun count g hg => ?_⟩)
      dsimp only
      unfold directive
      rw [hflags g (hflag g hg), ok_bind]
      dsimp only
      rw [hfield g (hwidth g hg), ok_bind, hfield₂ g (hprec g hg), error_bind]
  · refine Or.inr (Or.inl ⟨by omega, fun count g hg => ?_⟩)
    dsimp only
    unfold directive
    rw [hflags g (hflag g hg), ok_bind]
    dsimp only
    rw [hfield g (hwidth g hg), error_bind]

end Rounds

end BitchKernel
