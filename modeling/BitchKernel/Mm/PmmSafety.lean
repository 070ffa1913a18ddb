import BitchKernel.Lib.Machine
import BitchKernel.Mm.PmmSpec

/-!
# Safety of the physical page allocator over whole runs

A run starts at `pmm_init` and calls the three operations in any order; a free
names pages that are allocated at that moment. `PmmRun` carries, beside the
allocator's own variables, the set of pages handed out and not yet freed. The
invariant `PmmInv` says that the clear bits are exactly the pages of the arena
outside this set, that the free count is their number, and that the two cursors
enclose them.
-/

namespace BitchKernel

open Lib

namespace Boot

theorem memPageCount_lt (b : Boot) : b.memPageCount < 0x100000 := by
  have h := b.memLength_lt
  unfold memPageCount
  lia

theorem pmmBitmapLength_le (b : Boot) : b.pmmBitmapLength ≤ 0x20000 := by
  have h := b.memPageCount_lt
  unfold pmmBitmapLength
  lia

theorem memPageCount_le_bits (b : Boot) : b.memPageCount ≤ b.pmmBitmapLength * 8 := by
  unfold pmmBitmapLength
  omega

theorem le_memPageCount (b : Boot) : 0x100 ≤ b.memPageCount := by
  have h := b.highAttr_le
  have h' := b.memBaseAddr_le
  unfold memPageCount
  lia

theorem le_memBasePage (b : Boot) : 0x100 ≤ b.memBasePage := by
  have h := b.highAttr_le
  unfold memBasePage
  lia

/-- The pages `pmm_init` leaves to the allocator. -/
def arena (b : Boot) : Finset ℕ := Finset.Ico b.memBasePage b.memPageCount

theorem mem_arena {b : Boot} {p : ℕ} :
    p ∈ b.arena ↔ b.memBasePage ≤ p ∧ p < b.memPageCount :=
  Finset.mem_Ico

theorem mul32_pageSize {b : Boot} {p : ℕ} (hp : p ∈ b.arena) :
    mul32 p pageSize = p * pageSize := by
  have hlt := b.memPageCount_lt
  have hmem := mem_arena.1 hp
  exact mul32_of_lt (by lia)

theorem mul_pageSize_ne_zero {b : Boot} {p : ℕ} (hp : p ∈ b.arena) : p * pageSize ≠ 0 := by
  have hle := b.le_memBasePage
  have hmem := mem_arena.1 hp
  lia

end Boot

/-! ## The initial state -/

namespace Pmm

theorem pmmInitStep_length (base mem i : ℕ) (s : Pmm) :
    (pmmInitStep base mem i s).pmmBitmapLength = s.pmmBitmapLength := by
  unfold pmmInitStep
  split
  · exact setBitMask_length s i 1
  · exact setBitMask_length s i 0

theorem freePages_pmmInitStep {base mem i : ℕ} {s : Pmm} (hi : i < s.pmmBitmapLength * 8) :
    (pmmInitStep base mem i s).freePages =
      if i < base ∨ mem ≤ i then s.freePages.erase i else insert i s.freePages := by
  unfold pmmInitStep
  split
  · exact freePages_setBitMask_one s i
  · have hzero := freePages_setBitMask_zero s i
    rw [if_pos hi] at hzero
    exact (freePages_congr rfl rfl).trans hzero

theorem pmmInitStep_count (base mem i : ℕ) (s : Pmm) :
    (pmmInitStep base mem i s).pmmFreePageCount =
      if i < base ∨ mem ≤ i then s.pmmFreePageCount else add32 s.pmmFreePageCount 1 := by
  unfold pmmInitStep
  split
  · exact setBitMask_freePageCount s i 1
  · rfl

theorem pmmInitLoop_length (base mem n : ℕ) (s : Pmm) :
    (pmmInitLoop base mem n s).pmmBitmapLength = s.pmmBitmapLength := by
  induction n with
  | zero => rfl
  | succ n ih => rw [pmmInitLoop, pmmInitStep_length, ih]

/-- After the first `n` rounds the bits below `n` are as wanted. -/
theorem pmmInitLoop_free {base mem n : ℕ} {s : Pmm} (hn : n ≤ s.pmmBitmapLength * 8)
    {i : ℕ} (hi : i < n) :
    i ∈ (pmmInitLoop base mem n s).freePages ↔ base ≤ i ∧ i < mem := by
  induction n with
  | zero => omega
  | succ n ih =>
      have hlen := pmmInitLoop_length base mem n s
      rw [pmmInitLoop, freePages_pmmInitStep (by omega)]
      rcases Nat.eq_or_lt_of_le (Nat.lt_succ_iff.1 hi) with rfl | hlt
      · split
        · simp only [Finset.mem_erase, ne_eq, not_true_eq_false, false_and, false_iff]
          omega
        · simp only [Finset.mem_insert, true_or, true_iff]
          omega
      · have hne : i ≠ n := by omega
        have hold := ih (by omega) hlt
        split <;> simp [hne, hold]

theorem pmmInitLoop_count {base mem n : ℕ} {s : Pmm} (hn : n < 2 ^ 32)
    (hs : s.pmmFreePageCount = 0) :
    (pmmInitLoop base mem n s).pmmFreePageCount =
      ((Finset.range n).filter fun i => base ≤ i ∧ i < mem).card := by
  induction n with
  | zero => simpa [pmmInitLoop] using hs
  | succ n ih =>
      have hcount := ih (by omega)
      have hle : ((Finset.range n).filter fun i => base ≤ i ∧ i < mem).card ≤ n := by
        simpa using Finset.card_filter_le (Finset.range n) fun i => base ≤ i ∧ i < mem
      rw [pmmInitLoop, pmmInitStep_count, hcount, Finset.range_add_one, Finset.filter_insert]
      by_cases hout : n < base ∨ mem ≤ n
      · rw [if_pos hout, if_neg (by omega)]
      · rw [if_neg hout, if_pos (by omega), Finset.card_insert_of_notMem (by simp)]
        exact add32_of_lt (by omega)

theorem pmmInit_length (b : Boot) (memory : Bitmap) :
    (pmmInit b memory).pmmBitmapLength = b.pmmBitmapLength := by
  unfold pmmInit
  exact pmmInitLoop_length _ _ _ (pmmInitStart b memory)

theorem freePages_pmmInit (b : Boot) (memory : Bitmap) :
    (pmmInit b memory).freePages = b.arena := by
  have hloop : (pmmInit b memory).freePages = (pmmInitLoop b.memBasePage b.memPageCount
      (b.pmmBitmapLength * 8) (pmmInitStart b memory)).freePages := by
    simp only [freePages, pmmInit]
  have hle := b.memPageCount_le_bits
  rw [hloop]
  ext p
  rw [Boot.mem_arena]
  by_cases hp : p < b.pmmBitmapLength * 8
  · have hlen : b.pmmBitmapLength * 8 ≤ (pmmInitStart b memory).pmmBitmapLength * 8 := le_rfl
    exact pmmInitLoop_free hlen hp
  · constructor
    · intro hfree
      rw [mem_freePages, pmmInitLoop_length] at hfree
      exact absurd hfree.1 hp
    · rintro ⟨-, hlt⟩
      omega

theorem pmmInit_count (b : Boot) (memory : Bitmap) :
    (pmmInit b memory).pmmFreePageCount = b.arena.card := by
  have hlen := b.pmmBitmapLength_le
  have hle := b.memPageCount_le_bits
  simp only [pmmInit]
  rw [pmmInitLoop_count (by omega) rfl]
  congr 1
  ext p
  rw [Finset.mem_filter, Finset.mem_range, Boot.mem_arena]
  omega

end Pmm

/-! ## Runs -/

/-- The allocator's variables and, as a ghost, the pages handed out and not yet
freed. -/
structure PmmRun where
  pmm : Pmm
  allocated : Finset ℕ

inductive PmmOp
  | pmmAllocPage
  | pmmUpAllocPage (count : ℕ)
  | pmmFreePage (attr count : ℕ)

namespace PmmRun

/-- The pages of an answer `attr` to a request for `count` pages. -/
def handedOut (attr count : ℕ) : Finset ℕ :=
  if attr = 0 then ∅ else Finset.Ico (attr / pageSize) (attr / pageSize + count)

/-- A request names at least one page, a free only allocated pages. -/
def Enabled (s : PmmRun) : PmmOp → Prop
  | .pmmAllocPage => True
  | .pmmUpAllocPage count => 1 ≤ count
  | .pmmFreePage attr count =>
      attr < 2 ^ 32 ∧ Finset.Ico (attr / pageSize) (attr / pageSize + count) ⊆ s.allocated

def next (s : PmmRun) : PmmOp → PmmRun
  | .pmmAllocPage =>
      ⟨s.pmm.pmmAllocPage.2, s.allocated ∪ handedOut s.pmm.pmmAllocPage.1 1⟩
  | .pmmUpAllocPage count =>
      ⟨(s.pmm.pmmUpAllocPage count).2,
        s.allocated ∪ handedOut (s.pmm.pmmUpAllocPage count).1 count⟩
  | .pmmFreePage attr count =>
      ⟨s.pmm.pmmFreePage attr count,
        s.allocated \ Finset.Ico (attr / pageSize) (attr / pageSize + count)⟩

end PmmRun

/-- The runs of the allocator on the machine `b`, from `pmm_init` on. -/
def pmmMachine (b : Boot) : Machine PmmRun PmmOp where
  init s := ∃ memory, s = ⟨Pmm.pmmInit b memory, ∅⟩
  step s op s' := s.Enabled op ∧ s' = s.next op

/-- What holds between the calls: the clear bits are the unallocated pages of
the arena, they are counted, and the cursors enclose them. -/
structure PmmInv (b : Boot) (s : PmmRun) : Prop where
  length : s.pmm.pmmBitmapLength = b.pmmBitmapLength
  allocated_subset : s.allocated ⊆ b.arena
  free : s.pmm.freePages = b.arena \ s.allocated
  count : s.pmm.pmmFreePageCount = s.pmm.freePages.card
  head_le : ∀ p ∈ s.pmm.freePages, s.pmm.pmmHeadPos ≤ p
  le_tail : ∀ p ∈ s.pmm.freePages, p ≤ s.pmm.pmmTailPos

namespace PmmInv

variable {b : Boot} {s : PmmRun}

theorem of_init (memory : Bitmap) : PmmInv b ⟨Pmm.pmmInit b memory, ∅⟩ := by
  have hfree := Pmm.freePages_pmmInit b memory
  have hle := b.le_memPageCount
  refine ⟨?_, by simp, by simp [hfree], by simp [hfree, Pmm.pmmInit_count], ?_, ?_⟩
  · exact Pmm.pmmInit_length b memory
  · intro p hp
    rw [hfree] at hp
    exact (Boot.mem_arena.1 hp).1
  · intro p hp
    rw [hfree] at hp
    have hlt := (Boot.mem_arena.1 hp).2
    change p ≤ sub32 b.memPageCount 1
    have hmem := b.memPageCount_lt
    rw [sub32_of_le (by omega) (by omega)]
    omega

theorem mem_arena_of_free (h : PmmInv b s) {p : ℕ} (hp : p ∈ s.pmm.freePages) :
    p ∈ b.arena ∧ p ∉ s.allocated := by
  rw [h.free, Finset.mem_sdiff] at hp
  exact hp

theorem card_lt (h : PmmInv b s) : s.pmm.freePages.card < 0x100000 := by
  have hsub : s.pmm.freePages ⊆ b.arena := fun p hp => (h.mem_arena_of_free hp).1
  have hcard := Finset.card_le_card hsub
  have hlt := b.memPageCount_lt
  rw [Boot.arena, Nat.card_Ico] at hcard
  omega

theorem count_sub (h : PmmInv b s) {t : Finset ℕ} (ht : t ⊆ s.pmm.freePages) :
    sub32 s.pmm.pmmFreePageCount t.card = (s.pmm.freePages \ t).card := by
  have hlt := h.card_lt
  rw [Finset.card_sdiff_of_subset ht, h.count]
  exact sub32_of_le (Finset.card_le_card ht) (by omega)

theorem ico_subset_freePages {s : Pmm} {p count : ℕ} (h : s.RunFree p count) :
    Finset.Ico p (p + count) ⊆ s.freePages := by
  intro q hq
  rw [Finset.mem_Ico] at hq
  have hmem := h (q - p) (by omega)
  rwa [show p + (q - p) = q by omega] at hmem

theorem of_pmmAllocPage (h : PmmInv b s) : PmmInv b (s.next .pmmAllocPage) := by
  rcases s.pmm.pmmAllocPage_cases with ⟨p, hp, -, htop, heq⟩ | ⟨hempty, heq⟩
  · obtain ⟨hpf, hhead, -⟩ := Pmm.mem_reach.1 hp
    obtain ⟨harena, hnew⟩ := h.mem_arena_of_free hpf
    have hout : PmmRun.handedOut (mul32 p pageSize) 1 = {p} := by
      rw [PmmRun.handedOut, Boot.mul32_pageSize harena,
        if_neg (Boot.mul_pageSize_ne_zero harena), Nat.mul_div_cancel _ (by decide),
        Nat.Ico_succ_singleton]
    have hnext : s.next .pmmAllocPage = ⟨s.pmm.takePage p, s.allocated ∪ {p}⟩ := by
      rw [PmmRun.next, heq, hout]
    rw [hnext]
    refine ⟨by simp [h.length], ?_, ?_, ?_, ?_, ?_⟩
    · exact Finset.union_subset h.allocated_subset (Finset.singleton_subset_iff.2 harena)
    · change (s.pmm.takePage p).freePages = b.arena \ (s.allocated ∪ {p})
      rw [Pmm.freePages_takePage, h.free, Finset.erase_eq, sdiff_sdiff_left]
      rfl
    · change sub32 s.pmm.pmmFreePageCount 1 = (s.pmm.takePage p).freePages.card
      rw [Pmm.freePages_takePage, Finset.erase_eq,
        ← h.count_sub (Finset.singleton_subset_iff.2 hpf), Finset.card_singleton]
    · intro q hq
      change q ∈ (s.pmm.takePage p).freePages at hq
      change (s.pmm.takePage p).pmmHeadPos ≤ q
      rw [Pmm.freePages_takePage, Finset.mem_erase] at hq
      rw [Pmm.takePage_headPos]
      exact h.head_le q hq.2
    · intro q hq
      change q ∈ (s.pmm.takePage p).freePages at hq
      change q ≤ p - 1
      rw [Pmm.freePages_takePage, Finset.mem_erase] at hq
      have hle := h.le_tail q hq.2
      by_contra hlt
      exact htop q (by omega) hle hq.2
  · have hnext : s.next .pmmAllocPage =
        ⟨{ s.pmm with pmmTailPos := min s.pmm.pmmHeadPos s.pmm.pmmTailPos }, s.allocated⟩ := by
      rw [PmmRun.next, heq]
      simp [PmmRun.handedOut]
    rw [hnext]
    refine ⟨h.length, h.allocated_subset, h.free, h.count, h.head_le, ?_⟩
    intro q hq
    change q ∈ s.pmm.freePages at hq
    change q ≤ min s.pmm.pmmHeadPos s.pmm.pmmTailPos
    have hhead := h.head_le q hq
    have htail := h.le_tail q hq
    have hout : q ∉ s.pmm.reach := by
      rw [hempty]
      exact Finset.notMem_empty q
    rw [Pmm.mem_reach] at hout
    have heq' : q ≤ s.pmm.pmmHeadPos := by
      by_contra hlt
      exact hout ⟨hq, by omega, htail⟩
    omega

theorem of_pmmUpAllocPage (h : PmmInv b s) {count : ℕ} (hcount : 1 ≤ count) :
    PmmInv b (s.next (.pmmUpAllocPage count)) := by
  rcases s.pmm.pmmUpAllocPage_cases count with ⟨p, hp, -, hrun, -, heq⟩ | ⟨-, heq⟩
  · have hsub := ico_subset_freePages hrun
    have hpf : p ∈ s.pmm.freePages := hrun 0 hcount
    have harena := (h.mem_arena_of_free hpf).1
    have hout : PmmRun.handedOut (mul32 p pageSize) count = Finset.Ico p (p + count) := by
      rw [PmmRun.handedOut, Boot.mul32_pageSize harena,
        if_neg (Boot.mul_pageSize_ne_zero harena), Nat.mul_div_cancel _ (by decide)]
    have hnext : s.next (.pmmUpAllocPage count) =
        ⟨s.pmm.takeRun p count, s.allocated ∪ Finset.Ico p (p + count)⟩ := by
      rw [PmmRun.next, heq, hout]
    rw [hnext]
    refine ⟨by simp [h.length], ?_, ?_, ?_, ?_, ?_⟩
    · exact Finset.union_subset h.allocated_subset
        fun q hq => (h.mem_arena_of_free (hsub hq)).1
    · change (s.pmm.takeRun p count).freePages = b.arena \ (s.allocated ∪ Finset.Ico p (p + count))
      rw [Pmm.freePages_takeRun, h.free, sdiff_sdiff_left]
      rfl
    · change sub32 s.pmm.pmmFreePageCount count = (s.pmm.takeRun p count).freePages.card
      have hcard := h.count_sub hsub
      rw [Nat.card_Ico, Nat.add_sub_cancel_left] at hcard
      rw [Pmm.freePages_takeRun, hcard]
    · intro q hq
      change q ∈ (s.pmm.takeRun p count).freePages at hq
      change (if p = s.pmm.pmmHeadPos then s.pmm.pmmHeadPos + count else s.pmm.pmmHeadPos) ≤ q
      rw [Pmm.freePages_takeRun, Finset.mem_sdiff, Finset.mem_Ico] at hq
      have hle := h.head_le q hq.1
      split
      · omega
      · exact hle
    · intro q hq
      change q ∈ (s.pmm.takeRun p count).freePages at hq
      change q ≤ (Pmm.setBitMasks (fun i => p + i) 1 count s.pmm).pmmTailPos
      rw [Pmm.freePages_takeRun, Finset.mem_sdiff] at hq
      rw [Pmm.setBitMasks_tailPos]
      exact h.le_tail q hq.1
  · have hnext : s.next (.pmmUpAllocPage count) = s := by
      rw [PmmRun.next, heq]
      simp [PmmRun.handedOut]
    rw [hnext]
    exact h

theorem of_pmmFreePage (h : PmmInv b s) {attr count : ℕ} (hattr : attr < 2 ^ 32)
    (hsub : Finset.Ico (attr / pageSize) (attr / pageSize + count) ⊆ s.allocated) :
    PmmInv b (s.next (.pmmFreePage attr count)) := by
  have hindex_lt : attr / pageSize < 0x100000 := by lia
  generalize hindex : attr / pageSize = index at hsub hindex_lt
  have harena : Finset.Ico index (index + count) ⊆ b.arena := hsub.trans h.allocated_subset
  have hend : index + count ≤ 0x100000 := by
    rcases Nat.eq_zero_or_pos count with hzero | hpos
    · omega
    · have hlast : index + count - 1 ∈ b.arena := harena (Finset.mem_Ico.2 (by omega))
      have hlt := (Boot.mem_arena.1 hlast).2
      have hmem := b.memPageCount_lt
      omega
  have himage : ((Finset.range count).image fun i => add32 index i) =
      Finset.Ico index (index + count) := by
    ext q
    simp only [Finset.mem_image, Finset.mem_range, Finset.mem_Ico]
    constructor
    · rintro ⟨i, hi, rfl⟩
      rw [add32_of_lt (by omega)]
      omega
    · intro hq
      refine ⟨q - index, by omega, ?_⟩
      rw [add32_of_lt (by omega)]
      omega
  have hfree : (s.pmm.pmmFreePage attr count).freePages =
      s.pmm.freePages ∪ Finset.Ico index (index + count) := by
    rw [Pmm.freePages_pmmFreePage, hindex, himage, Finset.filter_true_of_mem]
    intro q hq
    have hlt := (Boot.mem_arena.1 (harena hq)).2
    have hle := b.memPageCount_le_bits
    rw [h.length]
    omega
  have hdisj : Disjoint s.pmm.freePages (Finset.Ico index (index + count)) := by
    rw [Finset.disjoint_left]
    intro q hq hq'
    exact (h.mem_arena_of_free hq).2 (hsub hq')
  refine ⟨(Pmm.pmmFreePage_length _ _ _).trans h.length, ?_, ?_, ?_, ?_, ?_⟩
  · exact Finset.sdiff_subset.trans h.allocated_subset
  · change (s.pmm.pmmFreePage attr count).freePages =
      b.arena \ (s.allocated \ Finset.Ico (attr / pageSize) (attr / pageSize + count))
    rw [hindex, hfree, h.free]
    ext q
    simp only [Finset.mem_union, Finset.mem_sdiff]
    have hq := @harena q
    tauto
  · change add32 s.pmm.pmmFreePageCount count = (s.pmm.pmmFreePage attr count).freePages.card
    have hlt := h.card_lt
    rw [hfree, Finset.card_union_of_disjoint hdisj, Nat.card_Ico, Nat.add_sub_cancel_left, h.count]
    exact add32_of_lt (by omega)
  · intro q hq
    change q ∈ (s.pmm.pmmFreePage attr count).freePages at hq
    change (if attr / pageSize < s.pmm.pmmHeadPos then attr / pageSize
      else s.pmm.pmmHeadPos) ≤ q
    rw [hindex]
    rw [hfree, Finset.mem_union, Finset.mem_Ico] at hq
    rcases hq with hq | hq
    · have hle := h.head_le q hq
      split <;> omega
    · split <;> omega
  · intro q hq
    change q ∈ (s.pmm.pmmFreePage attr count).freePages at hq
    change q ≤ if s.pmm.pmmTailPos < sub32 (add32 (attr / pageSize) count) 1
      then sub32 (add32 (attr / pageSize) count) 1 else s.pmm.pmmTailPos
    rw [hindex]
    rw [hfree, Finset.mem_union, Finset.mem_Ico] at hq
    rcases hq with hq | hq
    · have hle := h.le_tail q hq
      split <;> omega
    · have hlast : sub32 (add32 index count) 1 = index + count - 1 := by
        rw [add32_of_lt (by omega), sub32_of_le (by omega) (by omega)]
      rw [hlast]
      split <;> omega

theorem of_reachable {b : Boot} {s : PmmRun} (hs : (pmmMachine b).Reachable s) :
    PmmInv b s := by
  refine hs.invariant ?_ ?_
  · rintro _ ⟨memory, rfl⟩
    exact of_init memory
  · rintro s op s' h ⟨hen, rfl⟩
    cases op with
    | pmmAllocPage => exact h.of_pmmAllocPage
    | pmmUpAllocPage count => exact h.of_pmmUpAllocPage hen
    | pmmFreePage attr count => exact h.of_pmmFreePage hen.1 hen.2

end PmmInv

/-- Every page an operation hands out in a reachable state is a page of the
arena that was not allocated; the free count is the number of clear bits; and no
clear bit lies outside the cursors. -/
theorem pmm_safety {b : Boot} {s : PmmRun} (hs : (pmmMachine b).Reachable s) :
    (∀ p ∈ PmmRun.handedOut s.pmm.pmmAllocPage.1 1,
      p ∉ s.allocated ∧ b.memBasePage ≤ p ∧ p < b.memPageCount) ∧
    (∀ count, 1 ≤ count → ∀ p ∈ PmmRun.handedOut (s.pmm.pmmUpAllocPage count).1 count,
      p ∉ s.allocated ∧ b.memBasePage ≤ p ∧ p < b.memPageCount) ∧
    s.pmm.pmmFreePageCount = ((Finset.range (s.pmm.pmmBitmapLength * 8)).filter
      fun p => s.pmm.pmmBitmap.bit p = false).card ∧
    (∀ p < s.pmm.pmmBitmapLength * 8, p < s.pmm.pmmHeadPos → s.pmm.pmmBitmap.bit p = true) ∧
    (∀ p < s.pmm.pmmBitmapLength * 8, s.pmm.pmmTailPos < p → s.pmm.pmmBitmap.bit p = true) := by
  have h := PmmInv.of_reachable hs
  have hfresh : ∀ p ∈ s.pmm.freePages,
      p ∉ s.allocated ∧ b.memBasePage ≤ p ∧ p < b.memPageCount := by
    intro p hp
    obtain ⟨harena, hnew⟩ := h.mem_arena_of_free hp
    exact ⟨hnew, Boot.mem_arena.1 harena⟩
  refine ⟨?_, ?_, h.count, ?_, ?_⟩
  · intro p hp
    rcases s.pmm.pmmAllocPage_cases with ⟨q, hq, -, -, heq⟩ | ⟨-, heq⟩
    · have hqf := (Pmm.mem_reach.1 hq).1
      have harena := (h.mem_arena_of_free hqf).1
      rw [heq, PmmRun.handedOut, Boot.mul32_pageSize harena,
        if_neg (Boot.mul_pageSize_ne_zero harena), Nat.mul_div_cancel _ (by decide),
        Finset.mem_Ico] at hp
      have hpq : p = q := by omega
      rw [hpq]
      exact hfresh q hqf
    · rw [heq] at hp
      simp [PmmRun.handedOut] at hp
  · intro count hcount p hp
    rcases s.pmm.pmmUpAllocPage_cases count with ⟨q, -, -, hrun, -, heq⟩ | ⟨-, heq⟩
    · have hqf : q ∈ s.pmm.freePages := hrun 0 hcount
      have harena := (h.mem_arena_of_free hqf).1
      rw [heq, PmmRun.handedOut, Boot.mul32_pageSize harena,
        if_neg (Boot.mul_pageSize_ne_zero harena), Nat.mul_div_cancel _ (by decide)] at hp
      exact hfresh p (PmmInv.ico_subset_freePages hrun hp)
    · rw [heq] at hp
      simp [PmmRun.handedOut] at hp
  · intro p hbits hp
    by_contra hbit
    have hfree : p ∈ s.pmm.freePages := Pmm.mem_freePages.2 ⟨hbits, by simpa using hbit⟩
    have hle := h.head_le p hfree
    omega
  · intro p hbits hp
    by_contra hbit
    have hfree : p ∈ s.pmm.freePages := Pmm.mem_freePages.2 ⟨hbits, by simpa using hbit⟩
    have hle := h.le_tail p hfree
    omega

/-- The second page handed out after boot with three hundred pages is not the
first one again. -/
theorem pmm_safety_three_hundred_pages :
    let b : Boot := ⟨0x110000, 0x12c000, by decide, by decide, by decide, by decide⟩
    let s : PmmRun := PmmRun.next ⟨Pmm.pmmInit b fun _ => 0#8, ∅⟩ .pmmAllocPage
    ∀ p ∈ PmmRun.handedOut s.pmm.pmmAllocPage.1 1,
      p ∉ s.allocated ∧ b.memBasePage ≤ p ∧ p < b.memPageCount := by
  intro b s
  have hinit : (pmmMachine b).Reachable ⟨Pmm.pmmInit b fun _ => 0#8, ∅⟩ := .init ⟨_, rfl⟩
  have hs : (pmmMachine b).Reachable s := .step hinit (a := .pmmAllocPage) ⟨trivial, rfl⟩
  exact (pmm_safety hs).1

end BitchKernel
