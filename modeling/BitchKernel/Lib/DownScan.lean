import BitchKernel.Lib.Loop
import BitchKernel.Lib.Word

/-!
# Downward scans for a free run

A scan looks for `count` free slots in a row, from a position downward, on
`w`-bit unsigned positions: it tests `p`, `p - 1`, ... and restarts one below the
first busy slot. Positions wrap, so the scan goes on from the top of the range
when it restarts below `0`; it only gives up when it restarts at `0`.
`SettlesAt` says what the scan is after without the loop, and the rules tie the
loop to it.
-/

namespace Lib

namespace DownScan

/-- The position `n` steps below `p`, with `2 ^ w - 1` below `0`. -/
def below (w p n : ℕ) : ℕ := (p + n * (2 ^ w - 1)) % 2 ^ w

/-- The loop `for (; p > 0; p--)` around a test of the slots `p - i`, `i < count`,
which advances `p` to the slot where the test stopped. The answer is the position
the run was found at, or `some none` when the loop ends without one. -/
def downScan (w : ℕ) (busy : ℕ → Bool) (count : ℕ) : (fuel : ℕ) → (p : ℕ) → Option (Option ℕ)
  | 0, _ => none
  | fuel + 1, p =>
      if p = 0 then some none
      else
        let i := scanUntil (fun i => busy (Word.sub w p i)) count 0
        if i = count then some (some p)
        else downScan w busy count fuel (Word.sub w (Word.sub w p i) 1)

/-- The `count` slots from `q` downward are free. -/
def RunFree (w : ℕ) (busy : ℕ → Bool) (count q : ℕ) : Prop :=
  ∀ i < count, busy (below w q i) = false

/-- A scan from `p` finds the run at `q`: it is the first one downward from `p`, and
it lies above `0` or the scan does not stop at the slot `1`. -/
def SettlesAt (w : ℕ) (busy : ℕ → Bool) (count p q : ℕ) : Prop :=
  p ≠ 0 ∧ ∃ n, q = below w p n ∧ RunFree w busy count q ∧
    (∀ d < n, ¬ RunFree w busy count (below w p d)) ∧ (n < p ∨ busy 1 = false)

section Below

variable {w p n : ℕ}

theorem below_lt (w p n : ℕ) : below w p n < 2 ^ w := Nat.mod_lt _ (Nat.two_pow_pos w)

theorem below_of_le (hp : p < 2 ^ w) (hn : n ≤ p) : below w p n = p - n := by
  unfold below
  have hsplit : n * (2 ^ w - 1) + n = n * 2 ^ w := by
    rw [← Nat.mul_succ, Nat.succ_eq_add_one, Nat.sub_add_cancel (Nat.two_pow_pos w)]
  have hsum : p + n * (2 ^ w - 1) = (p - n) + n * 2 ^ w := by omega
  rw [hsum, Nat.add_mul_mod_self_right, Nat.mod_eq_of_lt (by omega)]

theorem below_zero (hp : p < 2 ^ w) : below w p 0 = p := by
  rw [below_of_le hp (Nat.zero_le p), Nat.sub_zero]

theorem below_below (w p m n : ℕ) : below w (below w p m) n = below w p (m + n) := by
  unfold below
  rw [Nat.mod_add_mod, Nat.add_mul, Nat.add_assoc]

theorem sub_eq_below (hp : p < 2 ^ w) (hn : n ≤ 2 ^ w) : Word.sub w p n = below w p n := by
  by_cases hle : n ≤ p
  · rw [below_of_le hp hle, Word.sub_of_le hle hp]
  · unfold below
    obtain ⟨m, rfl⟩ : ∃ m, n = m + 1 := ⟨n - 1, by omega⟩
    have hsplit : (m + 1) * (2 ^ w - 1) + (m + 1) = m * 2 ^ w + 2 ^ w := by
      rw [← Nat.mul_succ, Nat.succ_eq_add_one, Nat.sub_add_cancel (Nat.two_pow_pos w), Nat.add_mul,
        Nat.one_mul]
    have hsum : p + (m + 1) * (2 ^ w - 1) = (p + 2 ^ w - (m + 1)) + m * 2 ^ w := by omega
    rw [Word.sub_of_lt (by omega) hn, hsum, Nat.add_mul_mod_self_right, Nat.mod_eq_of_lt (by omega)]

theorem eq_one_of_below_one (hp : p < 2 ^ w) (hw : 1 < 2 ^ w) (h : below w p 1 = 0) : p = 1 := by
  by_cases hzero : p = 0
  · rw [hzero] at h
    unfold below at h
    rw [Nat.zero_add, Nat.one_mul, Nat.mod_eq_of_lt (by omega)] at h
    omega
  · rw [below_of_le hp (by omega)] at h
    omega

end Below

variable {w : ℕ} {busy : ℕ → Bool} {count fuel p q : ℕ}

/-- What one test of the scan sees: the run at `p`, or the first busy slot of it,
which breaks every run from there to `p`. -/
theorem scan_cases (busy : ℕ → Bool) (hp : p < 2 ^ w) (hcount : count < 2 ^ w) :
    (scanUntil (fun i => busy (Word.sub w p i)) count 0 = count ∧ RunFree w busy count p) ∨
    ∃ i < count, scanUntil (fun i => busy (Word.sub w p i)) count 0 = i ∧
      busy (below w p i) = true ∧ (∀ j < i, busy (below w p j) = false) ∧
      (∀ d ≤ i, ¬ RunFree w busy count (below w p d)) ∧
      Word.sub w (Word.sub w p i) 1 = below w p (i + 1) := by
  have hle := scanUntil_le (fun i => busy (Word.sub w p i)) count 0
  rw [Nat.zero_add] at hle
  obtain ⟨i, hi⟩ : ∃ i, scanUntil (fun i => busy (Word.sub w p i)) count 0 = i := ⟨_, rfl⟩
  rw [hi] at hle ⊢
  have hfree : ∀ j < i, busy (below w p j) = false := by
    intro j hj
    have hpassed := not_stop_of_lt_scanUntil (fun i => busy (Word.sub w p i)) (Nat.zero_le j)
      (by rw [hi]; exact hj)
    rwa [sub_eq_below hp (by omega)] at hpassed
  by_cases heq : i = count
  · refine .inl ⟨heq, ?_⟩
    rw [heq] at hfree
    exact hfree
  · have hne : scanUntil (fun i => busy (Word.sub w p i)) count 0 ≠ 0 + count := by
      rw [hi, Nat.zero_add]
      exact heq
    have hstop := stop_scanUntil (fun i => busy (Word.sub w p i)) hne
    rw [hi, sub_eq_below hp (by omega)] at hstop
    refine .inr ⟨i, by omega, rfl, hstop, hfree, fun d hd hrun => ?_, ?_⟩
    · have hbusy := hrun (i - d) (by omega)
      rw [below_below, Nat.add_sub_cancel' hd, hstop] at hbusy
      exact Bool.true_eq_false.mp hbusy
    · have hone : 1 ≤ 2 ^ w := Nat.one_le_two_pow
      rw [sub_eq_below hp (by omega), sub_eq_below (below_lt w p i) hone, below_below]

theorem downScan_succ_of_run (hp : p < 2 ^ w) (hp0 : p ≠ 0) (hcount : count < 2 ^ w)
    (hrun : RunFree w busy count p) : downScan w busy count (fuel + 1) p = some (some p) := by
  rw [downScan, if_neg hp0]
  rcases scan_cases busy hp hcount with ⟨hscan, -⟩ | ⟨i, -, -, -, -, hbroken, -⟩
  · simp only [hscan, if_true]
  · have hnot := hbroken 0 (Nat.zero_le i)
    rw [below_zero hp] at hnot
    exact absurd hrun hnot

theorem settlesAt_of_downScan (hp : p < 2 ^ w) (hcount : count < 2 ^ w)
    (h : downScan w busy count fuel p = some (some q)) : SettlesAt w busy count p q := by
  induction fuel generalizing p with
  | zero => exact absurd h (by simp [downScan])
  | succ fuel ih =>
      rw [downScan] at h
      by_cases hp0 : p = 0
      · rw [if_pos hp0] at h
        exact absurd h (by simp)
      rw [if_neg hp0] at h
      rcases scan_cases busy hp hcount with
        ⟨hscan, hrun⟩ | ⟨i, hi, hscan, hbusy, hfree, hbroken, hnext⟩
      · simp only [hscan, if_true] at h
        have hq : q = p := (Option.some.inj (Option.some.inj h)).symm
        refine ⟨hp0, 0, ?_, hq ▸ hrun, fun d hd => absurd hd (Nat.not_lt_zero d), .inl (by omega)⟩
        rw [hq, below_zero hp]
      · simp only [hscan, if_neg (Nat.ne_of_lt hi), hnext] at h
        obtain ⟨hp0', n, hq, hrun, hfirst, hstop⟩ := ih (below_lt w p (i + 1)) h
        rw [below_below] at hq
        refine ⟨hp0, i + 1 + n, hq, hrun, fun d hd => ?_, ?_⟩
        · by_cases hdi : d ≤ i
          · exact hbroken d hdi
          · have hbreak := hfirst (d - (i + 1)) (by omega)
            rwa [below_below, Nat.add_sub_cancel' (by omega)] at hbreak
        · -- A restart below `0` has seen the slot `1` free.
          by_cases hip : i < p
          · rcases hstop with hlt | hone
            · rw [below_of_le hp (by omega)] at hlt
              exact .inl (by omega)
            · exact .inr hone
          · have hone := hfree (p - 1) (by omega)
            rw [below_of_le hp (by omega)] at hone
            refine .inr ?_
            have hindex : p - (p - 1) = 1 := by omega
            rwa [hindex] at hone

theorem downScan_of_settlesAt (hp : p < 2 ^ w) (hcount : count < 2 ^ w) {n : ℕ} (hp0 : p ≠ 0)
    (hrun : RunFree w busy count (below w p n))
    (hfirst : ∀ d < n, ¬ RunFree w busy count (below w p d)) (hstop : n < p ∨ busy 1 = false)
    (hfuel : n < fuel) : downScan w busy count fuel p = some (some (below w p n)) := by
  induction fuel generalizing p n with
  | zero => exact absurd hfuel (Nat.not_lt_zero n)
  | succ fuel ih =>
      rcases scan_cases busy hp hcount with
        ⟨-, hhere⟩ | ⟨i, hi, hscan, hbusy, hfree, hbroken, hnext⟩
      · have hn : n = 0 := by
          by_contra hn
          have hnot := hfirst 0 (by omega)
          rw [below_zero hp] at hnot
          exact hnot hhere
        rw [hn, below_zero hp]
        exact downScan_succ_of_run hp hp0 hcount hhere
      · have hin : i + 1 ≤ n := by
          by_contra hlt
          exact hbroken n (by omega) hrun
        obtain ⟨m, rfl⟩ : ∃ m, n = i + 1 + m := ⟨n - (i + 1), by omega⟩
        rw [downScan, if_neg hp0]
        simp only [hscan, if_neg (Nat.ne_of_lt hi), hnext]
        rw [← below_below w p (i + 1) m] at hrun ⊢
        refine ih (below_lt w p (i + 1)) ?_ hrun (fun d hd => ?_) ?_ (by omega)
        · intro hzero
          rw [← below_below] at hzero
          have hone := eq_one_of_below_one (below_lt w p i) (by omega) hzero
          rw [hone] at hbusy
          rcases hstop with hlt | hfreeOne
          · rw [below_of_le hp (by omega)] at hone
            omega
          · rw [hfreeOne] at hbusy
            exact Bool.false_ne_true hbusy
        · have hbreak := hfirst (i + 1 + d) (by omega)
          rwa [← below_below] at hbreak
        · rcases hstop with hlt | hfreeOne
          · refine .inl ?_
            rw [below_of_le hp (by omega)]
            omega
          · exact .inr hfreeOne

theorem downScan_mono {r : Option ℕ} (h : downScan w busy count fuel p = some r) (more : ℕ) :
    downScan w busy count (fuel + more) p = some r := by
  induction fuel generalizing p with
  | zero => exact absurd h (by simp [downScan])
  | succ fuel ih =>
      rw [Nat.succ_add, downScan]
      rw [downScan] at h
      dsimp only at h ⊢
      by_cases hp0 : p = 0
      · rw [if_pos hp0] at h ⊢
        exact h
      rw [if_neg hp0] at h ⊢
      by_cases hscan : scanUntil (fun i => busy (Word.sub w p i)) count 0 = count
      · rw [if_pos hscan] at h ⊢
        exact h
      · rw [if_neg hscan] at h ⊢
        exact ih h

theorem SettlesAt.eq {q' : ℕ} (h : SettlesAt w busy count p q) (h' : SettlesAt w busy count p q') :
    q = q' := by
  obtain ⟨-, n, rfl, hrun, hfirst, -⟩ := h
  obtain ⟨-, n', rfl, hrun', hfirst', -⟩ := h'
  rcases Nat.lt_trichotomy n n' with hlt | rfl | hlt
  · exact absurd hrun (hfirst' n hlt)
  · rfl
  · exact absurd hrun' (hfirst n' hlt)

end DownScan

end Lib
