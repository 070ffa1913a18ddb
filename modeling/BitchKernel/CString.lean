import BitchKernel.Def
import BitchKernel.Lib.Bytes
import Mathlib.Data.List.GetD

/-!
# Strings that end at a zero

`strlen` and `strcpy` of `include/lib/string.h`, with the addresses they read. A loop that runs
until it finds a zero takes the number of bytes it may test, and answers `none` when it found
none of them zero.
-/

namespace BitchKernel

open Lib

/-- `while (*eos++);`: the pointer behind the zero, and the addresses read. -/
def strlenLoop (mem : Bytes) : (fuel eos : ℕ) → Option ℕ × List ℕ
  | 0, _ => (none, [])
  | fuel + 1, eos =>
      if mem eos = 0 then (some (add32 eos 1), [eos])
      else
        let (end', reads) := strlenLoop mem fuel (add32 eos 1)
        (end', eos :: reads)

def strlen (mem : Bytes) (fuel src : ℕ) : Option ℕ × List ℕ :=
  let (eos, reads) := strlenLoop mem fuel src
  (eos.map fun eos => sub32 (sub32 eos src) 1, reads)

/-- The bytes that `strcpy` stores from `dest` on, and the addresses it reads: each byte is
tested, and then read again when it is copied. -/
def strcpy (mem : Bytes) : (fuel src : ℕ) → Option (List (BitVec 8)) × List ℕ
  | 0, _ => (none, [])
  | fuel + 1, src =>
      if mem src = 0 then (some [0], [src])
      else
        let (copy, reads) := strcpy mem fuel (add32 src 1)
        (copy.map (mem src :: ·), src :: src :: reads)

/-- The first zero from `src` on is `n` bytes behind it. -/
def EndsAt (mem : Bytes) (src n : ℕ) : Prop :=
  mem (add32 src n) = 0 ∧ ∀ i < n, mem (add32 src i) ≠ 0

section

variable {mem mem' : Bytes} {fuel src n len : ℕ}

theorem add32_zero (h : src < 2 ^ 32) : add32 src 0 = src := add32_of_lt h

theorem add32_add32 (src i j : ℕ) : add32 (add32 src i) j = add32 src (i + j) := by
  rw [add32_eq, add32_eq, add32_eq, Nat.mod_add_mod, Nat.add_assoc]

theorem add32_succ (src i : ℕ) : add32 (add32 src 1) i = add32 src (i + 1) := by
  rw [add32_add32, Nat.add_comm 1 i]

/-- A string that does not end at its first byte is one byte and the string behind it. -/
theorem endsAt_succ (h : src < 2 ^ 32) :
    EndsAt mem src (n + 1) ↔ mem src ≠ 0 ∧ EndsAt mem (add32 src 1) n := by
  unfold EndsAt
  rw [add32_succ]
  constructor
  · rintro ⟨hzero, hbefore⟩
    have hfirst := hbefore 0 (Nat.zero_lt_succ n)
    rw [add32_zero h] at hfirst
    refine ⟨hfirst, hzero, fun i hi => ?_⟩
    rw [add32_succ]
    exact hbefore (i + 1) (Nat.succ_lt_succ hi)
  · rintro ⟨hfirst, hzero, hbefore⟩
    refine ⟨hzero, fun i hi => ?_⟩
    cases i with
    | zero =>
        rw [add32_zero h]
        exact hfirst
    | succ i =>
        have hlater := hbefore i (Nat.lt_of_succ_lt_succ hi)
        rwa [add32_succ] at hlater

theorem exists_endsAt (h : ∃ i < len, mem (add32 src i) = 0) : ∃ n < len, EndsAt mem src n := by
  obtain ⟨i, hi, hzero⟩ := h
  induction i using Nat.strong_induction_on with
  | _ i ih =>
      by_cases hfirst : ∀ j < i, mem (add32 src j) ≠ 0
      · exact ⟨i, hi, hzero, hfirst⟩
      · obtain ⟨j, hj⟩ := not_forall.1 hfirst
        obtain ⟨hlt, hj0⟩ := Classical.not_imp.1 hj
        exact ih j hlt (Nat.lt_trans hlt hi) (not_not.1 hj0)

/-- The bytes in front of the zero are at different addresses. -/
theorem EndsAt.lt (h : EndsAt mem src n) : n < 2 ^ 32 := by
  by_contra hle
  have hsame : add32 src (n - 2 ^ 32) = add32 src n := by
    rw [add32_eq, add32_eq]
    omega
  refine h.2 (n - 2 ^ 32) (by omega) ?_
  rw [hsame]
  exact h.1

theorem EndsAt.congr (h : EndsAt mem src n)
    (hsame : ∀ i ≤ n, mem' (add32 src i) = mem (add32 src i)) : EndsAt mem' src n := by
  refine ⟨(hsame n (Nat.le_refl n)).trans h.1, fun i hi => ?_⟩
  rw [hsame i (Nat.le_of_lt hi)]
  exact h.2 i hi

/-! ## What the loops do -/

/-- The addresses from `src` on that are tested before the `n`-th. -/
def tested (src n : ℕ) : List ℕ := (List.range n).map (add32 src)

theorem tested_succ (h : src < 2 ^ 32) (n : ℕ) : tested src (n + 1) = src :: tested (add32 src 1) n := by
  unfold tested
  rw [List.range_succ_eq_map, List.map_cons, List.map_map, add32_zero h]
  congr 2
  funext i
  exact (add32_succ src i).symm

theorem mem_tested {a : ℕ} : a ∈ tested src n ↔ ∃ i < n, a = add32 src i := by
  unfold tested
  rw [List.mem_map]
  constructor
  · rintro ⟨i, hi, rfl⟩
    exact ⟨i, List.mem_range.1 hi, rfl⟩
  · rintro ⟨i, hi, rfl⟩
    exact ⟨i, List.mem_range.2 hi, rfl⟩

theorem EndsAt.strlenLoop_eq (h : EndsAt mem src n) (hsrc : src < 2 ^ 32) :
    strlenLoop mem fuel src =
      if n < fuel then (some (add32 src (n + 1)), tested src (n + 1))
      else (none, tested src fuel) := by
  induction fuel generalizing src n with
  | zero => rfl
  | succ fuel ih =>
      rw [strlenLoop]
      cases n with
      | zero =>
          have hend := h.1
          rw [add32_zero hsrc] at hend
          rw [if_pos hend, if_pos (Nat.zero_lt_succ fuel), tested_succ hsrc]
          rfl
      | succ n =>
          obtain ⟨hfirst, hrest⟩ := (endsAt_succ hsrc).1 h
          rw [if_neg hfirst, ih hrest (add32_lt _ _)]
          by_cases hfuel : n < fuel
          · rw [if_pos hfuel, if_pos (Nat.succ_lt_succ hfuel), tested_succ hsrc (n + 1), add32_succ]
          · rw [if_neg hfuel, if_neg fun hlt => hfuel (Nat.lt_of_succ_lt_succ hlt), tested_succ hsrc]

theorem EndsAt.strlen_eq (h : EndsAt mem src n) (hsrc : src < 2 ^ 32) (hn : n < 2 ^ 32) :
    strlen mem fuel src =
      if n < fuel then (some n, tested src (n + 1)) else (none, tested src fuel) := by
  have hcount : sub32 (sub32 (add32 src (n + 1)) src) 1 = n := by
    by_cases hwrap : src + (n + 1) < 2 ^ 32
    · rw [add32_of_lt hwrap, sub32_of_le (Nat.le_add_right src (n + 1)) hwrap,
        Nat.add_sub_cancel_left, sub32_of_le (Nat.le_add_left 1 n) (by omega), Nat.add_sub_cancel]
    · rw [add32_eq]
      unfold sub32 Word.sub
      omega
  unfold strlen
  rw [h.strlenLoop_eq hsrc]
  by_cases hfuel : n < fuel
  · rw [if_pos hfuel, if_pos hfuel]
    dsimp only
    rw [Option.map_some, hcount]
  · rw [if_neg hfuel, if_neg hfuel]
    rfl

/-- `strcpy` stores the bytes of the string and the zero behind them, and tests the same bytes. -/
theorem EndsAt.strcpy_eq (h : EndsAt mem src n) (hsrc : src < 2 ^ 32) (hfuel : n < fuel) :
    ∃ reads, strcpy mem fuel src = (some ((tested src n).map mem ++ [0]), reads) ∧
      ∀ a ∈ reads, a ∈ tested src (n + 1) := by
  induction fuel generalizing src n with
  | zero => exact absurd hfuel (Nat.not_lt_zero n)
  | succ fuel ih =>
      rw [strcpy]
      cases n with
      | zero =>
          have hend := h.1
          rw [add32_zero hsrc] at hend
          rw [if_pos hend, tested_succ hsrc]
          exact ⟨_, rfl, fun a ha => ha⟩
      | succ n =>
          obtain ⟨hfirst, hrest⟩ := (endsAt_succ hsrc).1 h
          obtain ⟨reads, hcopy, hreads⟩ := ih hrest (add32_lt _ _) (Nat.lt_of_succ_lt_succ hfuel)
          rw [if_neg hfirst, hcopy, tested_succ hsrc n, tested_succ hsrc (n + 1)]
          refine ⟨_, rfl, fun a ha => ?_⟩
          rcases List.mem_cons.1 ha with rfl | ha
          · exact List.mem_cons_self
          rcases List.mem_cons.1 ha with rfl | ha
          · exact List.mem_cons_self
          · exact List.mem_cons_of_mem _ (hreads a ha)

theorem endsAt_of_strcpy (hsrc : src < 2 ^ 32) {copy : List (BitVec 8)}
    (h : (strcpy mem fuel src).1 = some copy) :
    ∃ n, EndsAt mem src n ∧ copy = (tested src n).map mem ++ [0] := by
  induction fuel generalizing src copy with
  | zero => exact absurd h (Option.some_ne_none copy).symm
  | succ fuel ih =>
      rw [strcpy] at h
      by_cases hzero : mem src = 0
      · rw [if_pos hzero, Option.some.injEq] at h
        refine ⟨0, ⟨?_, fun i hi => absurd hi (Nat.not_lt_zero i)⟩, h.symm⟩
        rw [add32_zero hsrc]
        exact hzero
      · rw [if_neg hzero] at h
        obtain ⟨rest, hrest, hcopy⟩ := Option.map_eq_some_iff.1 h
        obtain ⟨n, hend, hbytes⟩ := ih (add32_lt src 1) hrest
        refine ⟨n + 1, (endsAt_succ hsrc).2 ⟨hzero, hend⟩, ?_⟩
        rw [← hcopy, hbytes, tested_succ hsrc]
        rfl

/-- Where the bytes of a string and its zero are copied to, there is a string of the same length. -/
theorem EndsAt.of_copy {dest : ℕ} (h : EndsAt mem src n)
    (hcopy : ∀ i < n + 1, mem' (add32 dest i) = ((tested src n).map mem ++ [0]).getD i 0) :
    EndsAt mem' dest n := by
  have hlength : ((tested src n).map mem).length = n := by
    rw [List.length_map, tested, List.length_map, List.length_range]
  constructor
  · rw [hcopy n (Nat.lt_succ_self n), List.getD_append_right _ _ _ _ (by omega), hlength, Nat.sub_self]
    rfl
  · intro i hi
    rw [hcopy i (by omega), List.getD_append _ _ _ _ (by omega)]
    have hbyte : ((tested src n).map mem).getD i 0 = mem (add32 src i) := by
      rw [List.getD_eq_getElem _ _ (by omega), List.getElem_map]
      unfold tested
      rw [List.getElem_map, List.getElem_range]
    rw [hbyte]
    exact h.2 i hi

/-- Without a zero among the first bytes `strlen` tests them all and goes on. -/
theorem mem_strlen (hsrc : src < 2 ^ 32) (hnone : ∀ i < n, mem (add32 src i) ≠ 0)
    (hfuel : n < fuel) : add32 src n ∈ (strlen mem fuel src).2 := by
  change add32 src n ∈ (strlenLoop mem fuel src).2
  induction fuel generalizing src n with
  | zero => exact absurd hfuel (Nat.not_lt_zero n)
  | succ fuel ih =>
      rw [strlenLoop]
      cases n with
      | zero =>
          rw [add32_zero hsrc]
          split
          · exact List.mem_singleton_self src
          · exact List.mem_cons_self
      | succ n =>
          have hfirst := hnone 0 (Nat.zero_lt_succ n)
          rw [add32_zero hsrc] at hfirst
          rw [if_neg hfirst]
          refine List.mem_cons_of_mem src ?_
          rw [← add32_succ src n]
          refine ih (add32_lt src 1) (fun i hi => ?_) (Nat.lt_of_succ_lt_succ hfuel)
          rw [add32_succ]
          exact hnone (i + 1) (Nat.succ_lt_succ hi)

end

end BitchKernel
