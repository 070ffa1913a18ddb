import BitchKernel.Fs.FatReaddir

/-!
# Runs of long-name entries

A long name stands in a directory as a run of entries with a short entry behind it. A search
goes on behind a run that agrees with the name only at its front, and no run begins inside the
part it jumps over: so it returns the short entry of the first run that spells the name.
-/

namespace BitchKernel

open Lib

/-! ## Runs of long-name entries -/

section Run

variable (entry : ℕ → FatDir)

def Begins (n : ℕ) : Prop := (entry n).IsLfn ∧ (entry n).order &&& flagLast ≠ 0

instance (n : ℕ) : Decidable (Begins entry n) := inferInstanceAs (Decidable (_ ∧ _))

/-- The number of parts that the first entry of a run gives. -/
def runCount (n : ℕ) : ℕ := (entry n).order &&& 0x3f

/-- The parts of a run in the order of the name, the last of which is its first entry. -/
def runPart (n i : ℕ) : FatDir := entry (n + (runCount entry n - 1 - i))

def runShort (n : ℕ) : FatDir := entry (n + runCount entry n)

def runChar (n k : ℕ) : ℕ := (runPart entry n (k / 13)).lfnChar (k % 13)

def runLength (n : ℕ) : ℕ := (runCount entry n - 1) * 13 + (entry n).partLen

/-- A run whose parts are numbered down to one, with a live short entry behind them. -/
structure IsRun (n : ℕ) : Prop where
  begins : Begins entry n
  count_pos : 0 < runCount entry n
  part : ∀ i, i + 1 < runCount entry n → (runPart entry n i).IsLfn ∧
    (runPart entry n i).order &&& flagLast = 0 ∧ (runPart entry n i).order &&& 0x3f = i + 1
  short : (runShort entry n).IsShort

/-- The characters of a run are the signed values of the bytes of a name, and end with it. -/
structure Spells (name : ℕ → BitVec 8) (len n : ℕ) : Prop where
  count : runCount entry n = (len + 12) / 13
  char : ∀ k < len, (name k).toInt = runChar entry n k
  ends : (entry n).lfnChar (if len % 13 ≠ 0 then len % 13 else 13) = 0

end Run

theorem runCount_le (entry : ℕ → FatDir) (n : ℕ) : runCount entry n ≤ 63 := Nat.and_le_right

section Search

variable {entry : ℕ → FatDir} {name : ℕ → BitVec 8} {len n : ℕ}

theorem lfnDiffers_eq_false_iff {lfn : FatDir} :
    lfnDiffers name lfn len = false ↔ ∀ k < len, (name k).toInt = lfn.lfnChar k := by
  induction len with
  | zero => exact iff_of_true rfl (fun k hk => absurd hk (Nat.not_lt_zero k))
  | succ len ih =>
      rw [lfnDiffers, Bool.or_eq_false_iff, ih, decide_eq_false_iff_not, not_not]
      constructor
      · rintro ⟨hall, hlast⟩ k hk
        rcases Nat.lt_succ_iff_lt_or_eq.1 hk with hlt | rfl
        · exact hall k hlt
        · exact hlast
      · exact fun hall => ⟨fun k hk => hall k (by omega), hall len (by omega)⟩

theorem lfnCmp_eq_zero_iff {lfn : FatDir} :
    lfnCmp name lfn len = 0 ↔
      (∀ k < len, (name k).toInt = lfn.lfnChar k) ∧ lfn.lfnChar len = 0 := by
  unfold lfnCmp
  cases hdiff : lfnDiffers name lfn len with
  | true =>
      refine iff_of_false (by simp) (fun h => ?_)
      rw [lfnDiffers_eq_false_iff.2 h.1] at hdiff
      cases hdiff
  | false =>
      rw [if_neg (by simp)]
      exact ⟨fun h => ⟨lfnDiffers_eq_false_iff.1 hdiff, h⟩, fun h => h.2⟩

theorem lfnChar_thirteen (lfn : FatDir) : lfn.lfnChar 13 = 0 := rfl

/-- The part `j` of a name agrees with the entry that is to hold it. -/
def PartSpells (entry : ℕ → FatDir) (name : ℕ → BitVec 8) (n count j : ℕ) : Prop :=
  (entry (n + (count - 1 - j))).IsLfn ∧ (entry (n + (count - 1 - j))).order &&& flagLast = 0 ∧
    (entry (n + (count - 1 - j))).order &&& 0x3f = j + 1 ∧
    ∀ k < 13, (name (j * 13 + k)).toInt = (entry (n + (count - 1 - j))).lfnChar k

theorem partSpells_iff {count j : ℕ} (hj : j * 13 < 2 ^ 32) :
    ((entry (n + (count - 1 - j))).IsLfn ∧
      (entry (n + (count - 1 - j))).order &&& flagLast = 0 ∧
      (entry (n + (count - 1 - j))).order &&& 0x3f = j + 1 ∧
      lfnCmp (fun k => name (mul32 j 13 + k)) (entry (n + (count - 1 - j))) 13 = 0) ↔
      PartSpells entry name n count j := by
  unfold PartSpells
  rw [lfnCmp_eq_zero_iff, mul32_of_lt hj, lfnChar_thirteen]
  simp only [and_true]

/-- The inner loop of a search breaks at the first part from the end that does not agree. -/
theorem matchParts_spec {count i : ℕ} (hn : n + count < 2 ^ 32) (hcount : count ≤ 63)
    (hi : i + 1 ≤ count) (e : FatDir) :
    (matchParts entry name n count i e).1 ≤ i ∧
      (∀ j, (matchParts entry name n count i e).1 ≤ j → j < i → PartSpells entry name n count j) ∧
      (0 < (matchParts entry name n count i e).1 →
        ¬ PartSpells entry name n count ((matchParts entry name n count i e).1 - 1)) := by
  induction i generalizing e with
  | zero => exact ⟨Nat.le_refl 0, fun j _ hj => absurd hj (Nat.not_lt_zero j),
      fun hpos => absurd hpos (Nat.lt_irrefl 0)⟩
  | succ i ih =>
      have hat : sub32 (add32 n count) (i + 1) = n + (count - 1 - i) := by
        rw [add32_of_lt hn, sub32_of_le (by omega) hn]
        omega
      rw [matchParts, hat]
      by_cases hpart : PartSpells entry name n count i
      · rw [if_pos ((partSpells_iff (by omega)).2 hpart)]
        obtain ⟨hle, hall, hbreak⟩ := ih (by omega) (entry (n + (count - 1 - i)))
        refine ⟨Nat.le_succ_of_le hle, fun j hj hlt => ?_, hbreak⟩
        rcases Nat.lt_succ_iff_lt_or_eq.1 hlt with hlt' | rfl
        · exact hall j hj hlt'
        · exact hpart
      · rw [if_neg (fun h => hpart ((partSpells_iff (by omega)).1 h))]
        exact ⟨Nat.le_refl _, fun j hj hlt => absurd hlt (by dsimp only at hj; omega), fun _ => hpart⟩

theorem isRun_spells_iff (hlen : 0 < len) :
    IsRun entry n ∧ Spells entry name len n ↔
      ((entry n).IsLfn ∧ (entry n).order &&& flagLast ≠ 0 ∧
        (entry n).order &&& 0x3f = (len + 12) / 13 ∧
        lfnCmp (fun k => name (((len + 12) / 13 - 1) * 13 + k)) (entry n)
          (if len % 13 ≠ 0 then len % 13 else 13) = 0) ∧
      (∀ j, j + 1 < (len + 12) / 13 → PartSpells entry name n ((len + 12) / 13) j) ∧
      (entry (n + (len + 12) / 13)).IsShort := by
  obtain ⟨c, hc⟩ : ∃ c, (len + 12) / 13 = c := ⟨_, rfl⟩
  obtain ⟨last, hlast⟩ : ∃ l, (if len % 13 ≠ 0 then len % 13 else 13) = l := ⟨_, rfl⟩
  have hsum : len = (c - 1) * 13 + last := by
    rw [← hlast]
    split <;> omega
  have hlastPos : 0 < last ∧ last ≤ 13 := by
    rw [← hlast]
    split <;> omega
  rw [hc, hlast, lfnCmp_eq_zero_iff]
  constructor
  · rintro ⟨hrun, hspells⟩
    have hcount : runCount entry n = c := hspells.count.trans hc
    have hends := hspells.ends
    rw [hlast] at hends
    refine ⟨⟨hrun.begins.1, hrun.begins.2, hcount, fun k hk => ?_, hends⟩, fun j hj => ?_, ?_⟩
    · have hchar := hspells.char ((c - 1) * 13 + k) (by omega)
      rw [hchar, runChar, runPart, hcount]
      by_cases hk13 : k = 13
      · omega
      · rw [show ((c - 1) * 13 + k) / 13 = c - 1 by omega,
          show ((c - 1) * 13 + k) % 13 = k by omega, Nat.sub_self, Nat.add_zero]
    · have hpart := hrun.part j (by omega)
      unfold runPart at hpart
      rw [hcount] at hpart
      refine ⟨hpart.1, hpart.2.1, hpart.2.2, fun k hk => ?_⟩
      have hchar := hspells.char (j * 13 + k) (by
        have := Nat.mul_le_mul_right 13 (show j + 1 ≤ c - 1 by omega)
        omega)
      rw [hchar, runChar, runPart, hcount, show (j * 13 + k) / 13 = j by omega,
        show (j * 13 + k) % 13 = k by omega]
    · have hshort := hrun.short
      unfold runShort at hshort
      rwa [hcount] at hshort
  · rintro ⟨⟨hlfn, hflag, hcount, hchars, hends⟩, hparts, hshort⟩
    have hcount' : runCount entry n = c := hcount
    refine ⟨⟨⟨hlfn, hflag⟩, by omega, fun i hi => ?_, ?_⟩, ⟨hcount'.trans hc.symm, fun k hk => ?_, ?_⟩⟩
    · obtain ⟨hpart, hnot, hnum, -⟩ := hparts i (by omega)
      unfold runPart
      rw [hcount']
      exact ⟨hpart, hnot, hnum⟩
    · unfold runShort
      rwa [hcount']
    · rw [runChar, runPart, hcount']
      by_cases hin : k / 13 + 1 < c
      · have hchar := (hparts (k / 13) hin).2.2.2 (k % 13) (Nat.mod_lt _ (by decide))
        rw [← hchar]
        exact congrArg (fun j => (name j).toInt) (by omega)
      · have hdiv : k / 13 = c - 1 := by omega
        have hchar := hchars (k % 13) (by omega)
        rw [hdiv, Nat.sub_self, Nat.add_zero, ← hchar]
        exact congrArg (fun j => (name j).toInt) (by omega)
    · rw [hlast]
      exact hends

end Search

/-! ## One round of a search -/

section Round

variable (entry : ℕ → FatDir) (name : ℕ → BitVec 8) (len n : ℕ)

def SearchHead : Prop :=
  (entry n).IsLfn ∧ (entry n).order &&& flagLast ≠ 0 ∧
    (entry n).order &&& 0x3f = add32 len 12 / 13 ∧
    lfnCmp (fun k => name (mul32 (sub32 (add32 len 12 / 13) 1) 13 + k)) (entry n)
      (if len % 13 ≠ 0 then len % 13 else 13) = 0

instance : Decidable (SearchHead entry name len n) := inferInstanceAs (Decidable (_ ∧ _))

/-- The part at which the inner loop of a search breaks behind the first entry of a run. -/
def searchBreak : ℕ :=
  (matchParts entry name n (add32 len 12 / 13) (sub32 (add32 len 12 / 13) 1) (entry n)).1

/-- The entry at which a search goes on behind an entry, unless it returns. -/
def searchNext : Option ℕ :=
  if SearchHead entry name len n then
    if searchBreak entry name len n = 0 then
      if (entry (add32 n (add32 len 12 / 13))).IsShort then none else some (add32 n 1)
    else
      some (add32 (add32 n (sub32 (sub32 (add32 len 12 / 13) (searchBreak entry name len n)) 1)) 1)
  else some (add32 n 1)

variable {entry name len n}

theorem searchLoop_succ {count : ℕ} (hn : n < count) (fuel : ℕ) (e : FatDir) :
    (searchNext entry name len n = none ∧
      searchLoop entry name len count (fuel + 1) n e = entry (add32 n (add32 len 12 / 13))) ∨
    ∃ n' e', searchNext entry name len n = some n' ∧
      searchLoop entry name len count (fuel + 1) n e = searchLoop entry name len count fuel n' e' := by
  rw [searchLoop, if_pos hn]
  unfold searchNext searchBreak
  dsimp only
  by_cases hhead : SearchHead entry name len n
  · rw [if_pos hhead]
    unfold SearchHead at hhead
    rw [if_pos hhead]
    obtain ⟨i, e', hparts⟩ : ∃ i e', matchParts entry name n (add32 len 12 / 13)
        (sub32 (add32 len 12 / 13) 1) (entry n) = (i, e') := ⟨_, _, rfl⟩
    rw [hparts]
    by_cases hi : i = 0
    · rw [if_pos hi, if_pos hi]
      by_cases hshort : (entry (add32 n (add32 len 12 / 13))).IsShort
      · rw [if_pos hshort, if_pos hshort]
        exact .inl ⟨rfl, rfl⟩
      · rw [if_neg hshort, if_neg hshort]
        exact .inr ⟨_, _, rfl, rfl⟩
    · rw [if_neg hi, if_neg hi]
      exact .inr ⟨_, _, rfl, rfl⟩
  · rw [if_neg hhead]
    unfold SearchHead at hhead
    rw [if_neg hhead]
    exact .inr ⟨_, _, rfl, rfl⟩

theorem SearchHead.of_spells (hlen : 0 < len) (hlen' : len < 2 ^ 32)
    (hmatch : IsRun entry n ∧ Spells entry name len n) : SearchHead entry name len n := by
  have hle := runCount_le entry n
  have hcount := hmatch.2.count
  have hhead := ((isRun_spells_iff hlen).1 hmatch).1
  unfold SearchHead
  rw [add32_of_lt (by omega), sub32_of_le (by omega) (by omega), mul32_of_lt (by omega)]
  exact hhead

/-- The count of parts that passes the test of a search is that of the name, or it is zero as the
count of 32 bits wraps. -/
theorem SearchHead.count_cases (hhead : SearchHead entry name len n) (hlen' : len < 2 ^ 32) :
    (add32 len 12 / 13 = (len + 12) / 13 ∧ (len + 12) / 13 ≤ 63) ∨
      (add32 len 12 / 13 = 0 ∧ 2 ^ 32 ≤ len + 12) := by
  have hle := runCount_le entry n
  have hcount : runCount entry n = add32 len 12 / 13 := hhead.2.2.1
  rw [add32_eq] at hcount ⊢
  by_cases hwrap : 2 ^ 32 ≤ len + 12
  · exact .inr ⟨by omega, hwrap⟩
  · rw [Nat.mod_eq_of_lt (by omega)] at hcount ⊢
    exact .inl ⟨rfl, by omega⟩

theorem searchBreak_no_part (hpart : add32 len 12 / 13 = 0) :
    searchBreak entry name len n = 4294967294 + 1 := by
  unfold searchBreak
  rw [hpart, show sub32 0 1 = 4294967294 + 1 by with_unfolding_all decide, matchParts, if_neg]
  rintro ⟨-, -, hnum, -⟩
  have hle : (entry (sub32 (add32 n 0) (4294967294 + 1))).order &&& 0x3f ≤ 0x3f := Nat.and_le_right
  omega

/-- A round of a search returns at a run that spells the name, and else goes on behind entries
of which none but the first begins a run. -/
theorem searchNext_spec (hlen : 0 < len) (hlen' : len < 2 ^ 32) (hn : n + 64 < 2 ^ 32) :
    (searchNext entry name len n = none ∧ IsRun entry n ∧ Spells entry name len n) ∨
    (¬ (IsRun entry n ∧ Spells entry name len n) ∧
      ∃ m, 0 < m ∧ m ≤ 64 ∧ searchNext entry name len n = some (n + m) ∧
        ∀ p, n < p → p < n + m → ¬ Begins entry p) := by
  have hone : add32 n 1 = n + 1 := add32_of_lt (by omega)
  have hbehind : ∀ p, n < p → p < n + 1 → ¬ Begins entry p := fun p hp hlt => by omega
  unfold searchNext
  by_cases hhead : SearchHead entry name len n
  · rw [if_pos hhead]
    obtain ⟨hc, hcle⟩ | ⟨hc, hwrap⟩ := hhead.count_cases hlen'
    · obtain ⟨c, hceq⟩ : ∃ c, (len + 12) / 13 = c := ⟨_, rfl⟩
      have hiff := @isRun_spells_iff entry name len n hlen
      rw [hceq] at hc hcle hiff
      have hcpos : 0 < c := by omega
      have hsub : sub32 c 1 = c - 1 := sub32_of_le hcpos (by omega)
      have hat : add32 n c = n + c := add32_of_lt (by omega)
      have hfirst := hhead
      unfold SearchHead at hfirst
      rw [hc, hsub, mul32_of_lt (by omega)] at hfirst
      obtain ⟨i, hi⟩ : ∃ i, searchBreak entry name len n = i := ⟨_, rfl⟩
      obtain ⟨hle, hall, hbreak⟩ := @matchParts_spec entry name n c (c - 1) (by omega) hcle
        (by omega) (entry n)
      have hparts : (matchParts entry name n c (c - 1) (entry n)).1 = i := by
        rw [← hi, searchBreak, hc, hsub]
      rw [hparts] at hle hall hbreak
      rw [hc, hi, hat, hone]
      by_cases hzero : i = 0
      · rw [if_pos hzero]
        by_cases hshort : (entry (n + c)).IsShort
        · rw [if_pos hshort]
          exact .inl ⟨rfl, hiff.2 ⟨hfirst, fun j hj => hall j (by omega) (by omega), hshort⟩⟩
        · rw [if_neg hshort]
          exact .inr ⟨fun hmatch => hshort (hiff.1 hmatch).2.2, 1, by decide, by decide, rfl, hbehind⟩
      · rw [if_neg hzero]
        have hskip : add32 (add32 n (sub32 (sub32 c i) 1)) 1 = n + (c - i) := by
          rw [sub32_of_le (a := c) (by omega) (by omega), sub32_of_le (by omega) (by omega),
            add32_of_lt (a := n) (by omega), add32_of_lt (by omega)]
          omega
        rw [hskip]
        refine .inr ⟨fun hmatch => hbreak (by omega) ((hiff.1 hmatch).2.1 (i - 1) (by omega)),
          c - i, by omega, by omega, rfl, fun p hp hlt hbegins => ?_⟩
        -- the part that agrees at `p` is not the last one of a name
        have hpart := hall (c - 1 - (p - n)) (by omega) (by omega)
        unfold PartSpells at hpart
        rw [show n + (c - 1 - (c - 1 - (p - n))) = p by omega] at hpart
        exact hbegins.2 hpart.2.1
    · rw [searchBreak_no_part hc, hc, if_neg (by decide),
        show sub32 (sub32 0 (4294967294 + 1)) 1 = 0 by with_unfolding_all decide,
        add32_of_lt (a := n) (by omega), Nat.add_zero, hone]
      refine .inr ⟨fun hmatch => ?_, 1, by decide, by decide, rfl, hbehind⟩
      have hle := runCount_le entry n
      have hcount := hmatch.2.count
      omega
  · rw [if_neg hhead, hone]
    exact .inr ⟨fun hmatch => hhead (.of_spells hlen hlen' hmatch), 1, by decide, by decide, rfl,
      hbehind⟩

end Round

/-! ## The run that a search returns -/

section Search

def searchRun (entry : ℕ → FatDir) (name : ℕ → BitVec 8) (len dirCount : ℕ) :
    (fuel n : ℕ) → Option ℕ
  | 0, _ => none
  | fuel + 1, n =>
      if n < dirCount then
        match searchNext entry name len n with
        | none => some n
        | some next => searchRun entry name len dirCount fuel next
      else none

variable {entry : ℕ → FatDir} {name : ℕ → BitVec 8} {len n count : ℕ}

theorem searchLoop_searchRun (fuel n : ℕ) (e : FatDir) :
    (∃ p, searchRun entry name len count fuel n = some p ∧
      searchLoop entry name len count fuel n e = entry (add32 p (add32 len 12 / 13))) ∨
    searchRun entry name len count fuel n = none ∧
      ∃ e' : FatDir, searchLoop entry name len count fuel n e = e'.delete := by
  induction fuel generalizing n e with
  | zero => exact .inr ⟨rfl, e, rfl⟩
  | succ fuel ih =>
      rw [searchRun]
      by_cases hn : n < count
      · rw [if_pos hn]
        obtain ⟨hret, hloop⟩ | ⟨n', e', hgo, hloop⟩ :=
          @searchLoop_succ entry name len n count hn fuel e
        · rw [hret, hloop]
          exact .inl ⟨n, rfl, rfl⟩
        · rw [hgo, hloop]
          exact ih n' e'
      · rw [if_neg hn, searchLoop, if_neg hn]
        exact .inr ⟨rfl, e, rfl⟩

theorem searchRun_spec (hlen : 0 < len) (hlen' : len < 2 ^ 32) (hcount : count + 64 < 2 ^ 32)
    {fuel : ℕ} (hfuel : count ≤ n + fuel) :
    (∃ p, n ≤ p ∧ p < count ∧ (IsRun entry p ∧ Spells entry name len p) ∧
      (∀ q, n ≤ q → q < p → ¬ (IsRun entry q ∧ Spells entry name len q)) ∧
      searchRun entry name len count fuel n = some p) ∨
    (∀ p, n ≤ p → p < count → ¬ (IsRun entry p ∧ Spells entry name len p)) ∧
      searchRun entry name len count fuel n = none := by
  induction fuel generalizing n with
  | zero => exact .inr ⟨fun p hp hlt => by omega, rfl⟩
  | succ fuel ih =>
      rw [searchRun]
      by_cases hn : n < count
      · rw [if_pos hn]
        obtain ⟨hret, hmatch⟩ | ⟨hnot, m, hmpos, hmle, hgo, hbehind⟩ :=
          @searchNext_spec entry name len n hlen hlen' (by omega)
        · rw [hret]
          exact .inl ⟨n, Nat.le_refl n, hn, hmatch, fun q hq hlt => by omega, rfl⟩
        · rw [hgo]
          dsimp only
          have hnone : ∀ p, n ≤ p → p < n + m → ¬ (IsRun entry p ∧ Spells entry name len p) := by
            intro p hp hlt hmatch
            rcases Nat.eq_or_lt_of_le hp with rfl | hgt
            · exact hnot hmatch
            · exact hbehind p hgt hlt hmatch.1.begins
          obtain ⟨p, hp, hlt, hmatch, hfirst, heq⟩ | ⟨hall, heq⟩ := ih (n := n + m) (by omega)
          · refine .inl ⟨p, by omega, hlt, hmatch, fun q hq hqp => ?_, heq⟩
            by_cases hbefore : q < n + m
            · exact hnone q hq hbefore
            · exact hfirst q (by omega) hqp
          · refine .inr ⟨fun p hp hlt => ?_, heq⟩
            by_cases hbefore : p < n + m
            · exact hnone p hp hbefore
            · exact hall p (by omega) hlt
      · rw [if_neg hn]
        exact .inr ⟨fun p hp hlt => by omega, rfl⟩

end Search

end BitchKernel
