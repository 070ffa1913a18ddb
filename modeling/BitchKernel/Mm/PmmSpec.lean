import BitchKernel.Mm.Pmm

/-!
# What one call of the page allocator does

`freePages s` is the set of pages whose bit is clear. Each function of the
allocator is described by one lemma in terms of this set: which page or run it
picks, how the set changes, and where the cursors end. Later proofs use these
lemmas and do not unfold the loops.
-/

namespace BitchKernel

open Lib

namespace Pmm

/-- The pages whose bit is clear. -/
def freePages (s : Pmm) : Finset ℕ := s.pmmBitmap.freeSet (s.pmmBitmapLength * 8)

theorem mem_freePages {s : Pmm} {p : ℕ} :
    p ∈ s.freePages ↔ p < s.pmmBitmapLength * 8 ∧ s.pmmBitmap.bit p = false :=
  Bitmap.mem_freeSet

theorem freePages_congr {s t : Pmm} (hb : s.pmmBitmap = t.pmmBitmap)
    (hl : s.pmmBitmapLength = t.pmmBitmapLength) : s.freePages = t.freePages := by
  unfold freePages
  rw [hb, hl]

theorem getBitMask_eq_zero {s : Pmm} {p : ℕ} : s.getBitMask p = 0 ↔ p ∈ s.freePages := by
  rw [mem_freePages]
  unfold getBitMask
  by_cases h : p < s.pmmBitmapLength * 8
  · rw [if_pos h, Bitmap.shift_and_one]
    cases hbit : (s.pmmBitmap (p / 8)).getLsbD (p % 8) <;> simp [Bitmap.bit, hbit, h]
  · simp [h]

/-! ## The masks -/

@[simp] theorem setBitMask_length (s : Pmm) (p mask : ℕ) :
    (s.setBitMask p mask).2.pmmBitmapLength = s.pmmBitmapLength := by
  unfold setBitMask
  split <;> [split <;> rfl; rfl]

@[simp] theorem setBitMask_freePageCount (s : Pmm) (p mask : ℕ) :
    (s.setBitMask p mask).2.pmmFreePageCount = s.pmmFreePageCount := by
  unfold setBitMask
  split <;> [split <;> rfl; rfl]

@[simp] theorem setBitMask_headPos (s : Pmm) (p mask : ℕ) :
    (s.setBitMask p mask).2.pmmHeadPos = s.pmmHeadPos := by
  unfold setBitMask
  split <;> [split <;> rfl; rfl]

@[simp] theorem setBitMask_tailPos (s : Pmm) (p mask : ℕ) :
    (s.setBitMask p mask).2.pmmTailPos = s.pmmTailPos := by
  unfold setBitMask
  split <;> [split <;> rfl; rfl]

theorem freePages_setBitMask_one (s : Pmm) (p : ℕ) :
    (s.setBitMask p 1).2.freePages = s.freePages.erase p := by
  unfold setBitMask
  by_cases h : p < s.pmmBitmapLength * 8
  · rw [if_pos h, if_neg (by decide)]
    exact Bitmap.freeSet_mark s.pmmBitmap _ p
  · rw [if_neg h, Finset.erase_eq_of_notMem]
    exact fun hp => h (mem_freePages.1 hp).1

theorem freePages_setBitMask_zero (s : Pmm) (p : ℕ) :
    (s.setBitMask p 0).2.freePages =
      if p < s.pmmBitmapLength * 8 then insert p s.freePages else s.freePages := by
  unfold setBitMask
  by_cases h : p < s.pmmBitmapLength * 8
  · rw [if_pos h, if_pos rfl, if_pos h]
    exact Bitmap.freeSet_clear h
  · rw [if_neg h, if_neg h]

@[simp] theorem setBitMasks_length (page : ℕ → ℕ) (mask count : ℕ) (s : Pmm) :
    (setBitMasks page mask count s).pmmBitmapLength = s.pmmBitmapLength := by
  induction count with
  | zero => rfl
  | succ count ih => rw [setBitMasks, setBitMask_length, ih]

@[simp] theorem setBitMasks_tailPos (page : ℕ → ℕ) (mask count : ℕ) (s : Pmm) :
    (setBitMasks page mask count s).pmmTailPos = s.pmmTailPos := by
  induction count with
  | zero => rfl
  | succ count ih => rw [setBitMasks, setBitMask_tailPos, ih]

theorem freePages_setBitMasks_one (page : ℕ → ℕ) (count : ℕ) (s : Pmm) :
    (setBitMasks page 1 count s).freePages =
      s.freePages \ (Finset.range count).image page := by
  induction count with
  | zero => simp [setBitMasks]
  | succ count ih =>
      rw [setBitMasks, freePages_setBitMask_one, ih, Finset.range_add_one,
        Finset.image_insert]
      ext p
      simp only [Finset.mem_erase, Finset.mem_sdiff, Finset.mem_insert]
      tauto

theorem freePages_setBitMasks_zero (page : ℕ → ℕ) (count : ℕ) (s : Pmm) :
    (setBitMasks page 0 count s).freePages =
      s.freePages ∪ ((Finset.range count).image page).filter (· < s.pmmBitmapLength * 8) := by
  induction count with
  | zero => simp [setBitMasks]
  | succ count ih =>
      rw [setBitMasks, freePages_setBitMask_zero, ih, setBitMasks_length,
        Finset.range_add_one, Finset.image_insert, Finset.filter_insert]
      split
      · rw [Finset.union_insert]
      · rfl

/-! ## Taking the highest free page -/

/-- The state `pmm_alloc_page` leaves after taking the page `p`. -/
def takePage (s : Pmm) (p : ℕ) : Pmm :=
  { (s.setBitMask p 1).2 with
    pmmTailPos := p - 1
    pmmFreePageCount := sub32 s.pmmFreePageCount 1 }

@[simp] theorem freePages_takePage (s : Pmm) (p : ℕ) :
    (s.takePage p).freePages = s.freePages.erase p :=
  (freePages_congr rfl rfl).trans (freePages_setBitMask_one s p)

@[simp] theorem takePage_length (s : Pmm) (p : ℕ) :
    (s.takePage p).pmmBitmapLength = s.pmmBitmapLength := by
  simp [takePage]

@[simp] theorem takePage_headPos (s : Pmm) (p : ℕ) :
    (s.takePage p).pmmHeadPos = s.pmmHeadPos := by
  simp [takePage]

@[simp] theorem takePage_tailPos (s : Pmm) (p : ℕ) : (s.takePage p).pmmTailPos = p - 1 := rfl

@[simp] theorem takePage_freePageCount (s : Pmm) (p : ℕ) :
    (s.takePage p).pmmFreePageCount = sub32 s.pmmFreePageCount 1 := rfl

/-- The pages `pmm_alloc_page` can still hand out. -/
def reach (s : Pmm) : Finset ℕ :=
  s.freePages.filter fun p => s.pmmHeadPos < p ∧ p ≤ s.pmmTailPos

theorem mem_reach {s : Pmm} {p : ℕ} :
    p ∈ s.reach ↔ p ∈ s.freePages ∧ s.pmmHeadPos < p ∧ p ≤ s.pmmTailPos := by
  simp [reach]

theorem pmmAllocPageLoop_cases (s : Pmm) (tail : ℕ) :
    (∃ p, s.pmmHeadPos < p ∧ p ≤ tail ∧ p ∈ s.freePages ∧
      (∀ q, p < q → q ≤ tail → q ∉ s.freePages) ∧
      s.pmmAllocPageLoop tail = (mul32 p pageSize, s.takePage p)) ∨
    ((∀ q, s.pmmHeadPos < q → q ≤ tail → q ∉ s.freePages) ∧
      s.pmmAllocPageLoop tail = (0, { s with pmmTailPos := min s.pmmHeadPos tail })) := by
  induction tail with
  | zero =>
      refine Or.inr ⟨fun q hq hq0 => by omega, ?_⟩
      rw [pmmAllocPageLoop, Nat.min_zero]
  | succ tail ih =>
      rw [pmmAllocPageLoop]
      by_cases hhead : s.pmmHeadPos < tail + 1
      · rw [if_pos hhead]
        by_cases hfree : s.getBitMask (tail + 1) = 0
        · rw [if_pos hfree]
          refine Or.inl ⟨tail + 1, hhead, le_rfl, getBitMask_eq_zero.1 hfree, ?_, rfl⟩
          intro q hq hle
          omega
        · rw [if_neg hfree]
          have hused : tail + 1 ∉ s.freePages := fun h => hfree (getBitMask_eq_zero.2 h)
          rcases ih with ⟨p, hp, hpt, hpf, hmax, heq⟩ | ⟨hnone, heq⟩
          · refine Or.inl ⟨p, hp, by omega, hpf, ?_, heq⟩
            intro q hq hle
            rcases Nat.eq_or_lt_of_le hle with rfl | hlt
            · exact hused
            · exact hmax q hq (by omega)
          · refine Or.inr ⟨?_, ?_⟩
            · intro q hq hle
              rcases Nat.eq_or_lt_of_le hle with rfl | hlt
              · exact hused
              · exact hnone q hq (by omega)
            · rw [heq, Nat.min_eq_left (by omega), Nat.min_eq_left (by omega)]
      · rw [if_neg hhead]
        refine Or.inr ⟨fun q hq hle => by omega, ?_⟩
        rw [Nat.min_eq_right (by omega)]

/-- `pmm_alloc_page` takes the highest page it can reach, or finds none and only
moves its cursor. -/
theorem pmmAllocPage_cases (s : Pmm) :
    (∃ p ∈ s.reach, (∀ q ∈ s.reach, q ≤ p) ∧
      (∀ q, p < q → q ≤ s.pmmTailPos → q ∉ s.freePages) ∧
      s.pmmAllocPage = (mul32 p pageSize, s.takePage p)) ∨
    (s.reach = ∅ ∧
      s.pmmAllocPage = (0, { s with pmmTailPos := min s.pmmHeadPos s.pmmTailPos })) := by
  rcases pmmAllocPageLoop_cases s s.pmmTailPos with
    ⟨p, hp, hpt, hpf, hmax, heq⟩ | ⟨hnone, heq⟩
  · refine Or.inl ⟨p, mem_reach.2 ⟨hpf, hp, hpt⟩, ?_, hmax, heq⟩
    intro q hq
    obtain ⟨hqf, -, hqt⟩ := mem_reach.1 hq
    by_contra hlt
    exact hmax q (by omega) hqt hqf
  · refine Or.inr ⟨?_, heq⟩
    rw [Finset.eq_empty_iff_forall_notMem]
    intro q hq
    obtain ⟨hqf, hqh, hqt⟩ := mem_reach.1 hq
    exact hnone q hqh hqt hqf

/-! ## Taking the lowest free run -/

/-- All of the `count` pages from `p` on are free. -/
def RunFree (s : Pmm) (p count : ℕ) : Prop := ∀ i < count, p + i ∈ s.freePages

/-- The state `pmm_up_alloc_page` leaves after taking `count` pages from `p`
on. -/
def takeRun (s : Pmm) (p count : ℕ) : Pmm :=
  { setBitMasks (fun i => p + i) 1 count s with
    pmmHeadPos := if p = s.pmmHeadPos then s.pmmHeadPos + count else s.pmmHeadPos
    pmmFreePageCount := sub32 s.pmmFreePageCount count }

theorem freePages_takeRun (s : Pmm) (p count : ℕ) :
    (s.takeRun p count).freePages = s.freePages \ Finset.Ico p (p + count) := by
  have himage : (Finset.range count).image (fun i => p + i) = Finset.Ico p (p + count) := by
    ext q
    simp only [Finset.mem_image, Finset.mem_range, Finset.mem_Ico]
    constructor
    · rintro ⟨i, hi, rfl⟩
      omega
    · intro hq
      exact ⟨q - p, by omega, by omega⟩
  rw [← himage]
  exact (freePages_congr rfl rfl).trans (freePages_setBitMasks_one _ _ _)

theorem scan_eq_count_iff {s : Pmm} {p count : ℕ} :
    scanUntil (fun i => decide (s.getBitMask (p + i) ≠ 0)) count 0 = count ↔
      s.RunFree p count := by
  have h := scanUntil_eq_iff (fun i => decide (s.getBitMask (p + i) ≠ 0)) count 0
  rw [Nat.zero_add] at h
  rw [h]
  simp only [Nat.zero_le, forall_true_left, ne_eq, decide_eq_false_iff_not, not_not,
    getBitMask_eq_zero, RunFree]

/-- When the run at `p` is broken at the index the scan stops at, every run
that starts between `p` and that index is broken there too. -/
theorem not_runFree_of_scan {s : Pmm} {p count : ℕ}
    (h : scanUntil (fun i => decide (s.getBitMask (p + i) ≠ 0)) count 0 ≠ count) {q : ℕ}
    (hpq : p ≤ q)
    (hq : q ≤ p + scanUntil (fun i => decide (s.getBitMask (p + i) ≠ 0)) count 0) :
    ¬ s.RunFree q count := by
  set i := scanUntil (fun i => decide (s.getBitMask (p + i) ≠ 0)) count 0 with hi
  have hle : i ≤ 0 + count := scanUntil_le _ count 0
  have hne : i ≠ 0 + count := by omega
  have hstop := stop_scanUntil (fun i => decide (s.getBitMask (p + i) ≠ 0)) hne
  rw [← hi] at hstop
  have hused : p + i ∉ s.freePages := by
    simpa [getBitMask_eq_zero] using hstop
  intro hrun
  have hmem := hrun (p + i - q) (by omega)
  rw [show q + (p + i - q) = p + i by omega] at hmem
  exact hused hmem

theorem pmmUpAllocPageLoop_cases (s : Pmm) (count fuel p : ℕ)
    (hfuel : s.pmmTailPos ≤ p + fuel) :
    (∃ q, p ≤ q ∧ q < s.pmmTailPos ∧ s.RunFree q count ∧
      (∀ r, p ≤ r → r < q → ¬ s.RunFree r count) ∧
      s.pmmUpAllocPageLoop count fuel p = (mul32 q pageSize, s.takeRun q count)) ∨
    ((∀ r, p ≤ r → r < s.pmmTailPos → ¬ s.RunFree r count) ∧
      s.pmmUpAllocPageLoop count fuel p = (0, s)) := by
  induction fuel generalizing p with
  | zero => exact Or.inr ⟨fun r hr hlt => by omega, rfl⟩
  | succ fuel ih =>
      rw [pmmUpAllocPageLoop]
      by_cases hp : p < s.pmmTailPos
      · rw [if_pos hp]
        by_cases hscan : scanUntil (fun i => decide (s.getBitMask (p + i) ≠ 0)) count 0 = count
        · simp only [hscan, if_true]
          refine Or.inl ⟨p, le_rfl, hp, scan_eq_count_iff.1 hscan, ?_, rfl⟩
          intro r hr hlt
          omega
        · simp only [hscan, if_false]
          set i := scanUntil (fun i => decide (s.getBitMask (p + i) ≠ 0)) count 0 with hi
          have hskip : ∀ r, p ≤ r → r ≤ p + i → ¬ s.RunFree r count :=
            fun r hr hle => not_runFree_of_scan hscan hr hle
          rcases ih (p + i + 1) (by omega) with ⟨q, hq, hqt, hrun, hmin, heq⟩ | ⟨hnone, heq⟩
          · refine Or.inl ⟨q, by omega, hqt, hrun, ?_, heq⟩
            intro r hr hlt
            by_cases hri : r ≤ p + i
            · exact hskip r hr hri
            · exact hmin r (by omega) hlt
          · refine Or.inr ⟨?_, heq⟩
            intro r hr hlt
            by_cases hri : r ≤ p + i
            · exact hskip r hr hri
            · exact hnone r (by omega) hlt
      · rw [if_neg hp]
        exact Or.inr ⟨fun r hr hlt => by omega, rfl⟩

/-- `pmm_up_alloc_page` takes the lowest free run that starts between its
cursors, or finds none and changes nothing. -/
theorem pmmUpAllocPage_cases (s : Pmm) (count : ℕ) :
    (∃ p, s.pmmHeadPos ≤ p ∧ p < s.pmmTailPos ∧ s.RunFree p count ∧
      (∀ r, s.pmmHeadPos ≤ r → r < p → ¬ s.RunFree r count) ∧
      s.pmmUpAllocPage count = (mul32 p pageSize, s.takeRun p count)) ∨
    ((∀ r, s.pmmHeadPos ≤ r → r < s.pmmTailPos → ¬ s.RunFree r count) ∧
      s.pmmUpAllocPage count = (0, s)) :=
  pmmUpAllocPageLoop_cases s count _ _ (by omega)

/-! ## Giving pages back -/

theorem freePages_pmmFreePage (s : Pmm) (attr count : ℕ) :
    (s.pmmFreePage attr count).freePages =
      s.freePages ∪ ((Finset.range count).image fun i => add32 (attr / pageSize) i).filter
        (· < s.pmmBitmapLength * 8) :=
  (freePages_congr rfl rfl).trans (freePages_setBitMasks_zero _ _ _)

@[simp] theorem pmmFreePage_length (s : Pmm) (attr count : ℕ) :
    (s.pmmFreePage attr count).pmmBitmapLength = s.pmmBitmapLength := by
  simp [pmmFreePage]

@[simp] theorem takeRun_length (s : Pmm) (p count : ℕ) :
    (s.takeRun p count).pmmBitmapLength = s.pmmBitmapLength := by
  simp [takeRun]

end Pmm

end BitchKernel
