import BitchKernel.Mm.PmmSafety

/-!
# What the page allocator misses

Both scans stop where the cursors meet. The free pages of a reachable state lie between the
cursors, so `pmm_alloc_page` can only miss the page under `pmm_head_pos` and
`pmm_up_alloc_page` only the page under `pmm_tail_pos`; each is missed when it is the last
one.
-/

namespace BitchKernel

open Lib

namespace Pmm

/-- `pmm_alloc_page` returns the highest free page, and `NULL` only if no page is free. -/
def AllocComplete (s : Pmm) : Prop :=
  (s.pmmAllocPage.1 = 0 → s.freePages = ∅) ∧
    (s.pmmAllocPage.1 ≠ 0 → ∃ p ∈ s.freePages, (∀ q ∈ s.freePages, q ≤ p) ∧
      s.pmmAllocPage.1 = p * pageSize)

/-- `pmm_up_alloc_page` returns the lowest run of `count` free pages, and `NULL` only if
there is none. -/
def UpAllocComplete (s : Pmm) (count : ℕ) : Prop :=
  ((s.pmmUpAllocPage count).1 = 0 → ∀ p, ¬ s.RunFree p count) ∧
    ((s.pmmUpAllocPage count).1 ≠ 0 → ∃ p, s.RunFree p count ∧
      (∀ q < p, ¬ s.RunFree q count) ∧ (s.pmmUpAllocPage count).1 = p * pageSize)

end Pmm

namespace PmmInv

variable {b : Boot} {s : PmmRun}

theorem mul32_of_free (h : PmmInv b s) {p : ℕ} (hp : p ∈ s.pmm.freePages) :
    mul32 p pageSize = p * pageSize ∧ p * pageSize ≠ 0 := by
  have harena := (h.mem_arena_of_free hp).1
  exact ⟨Boot.mul32_pageSize harena, Boot.mul_pageSize_ne_zero harena⟩

/-- No free page is in reach exactly when at most the one under the lower cursor is free. -/
theorem reach_eq_empty_iff (h : PmmInv b s) :
    s.pmm.reach = ∅ ↔ s.pmm.freePages ⊆ {s.pmm.pmmHeadPos} := by
  rw [Finset.eq_empty_iff_forall_notMem]
  constructor
  · intro hnone p hp
    rw [Finset.mem_singleton]
    have hle := h.head_le p hp
    have hreach := hnone p
    rw [Pmm.mem_reach] at hreach
    by_contra hne
    exact hreach ⟨hp, by omega, h.le_tail p hp⟩
  · intro hsub p hp
    obtain ⟨hfree, hlt, -⟩ := Pmm.mem_reach.1 hp
    have heq := Finset.mem_singleton.1 (hsub hfree)
    omega

theorem allocComplete_iff (h : PmmInv b s) :
    s.pmm.AllocComplete ↔ s.pmm.freePages ≠ {s.pmm.pmmHeadPos} := by
  unfold Pmm.AllocComplete
  rcases s.pmm.pmmAllocPage_cases with ⟨p, hp, hmax, htop, heq⟩ | ⟨hempty, heq⟩
  · obtain ⟨hfree, hlt, htail⟩ := Pmm.mem_reach.1 hp
    obtain ⟨hmul, hne⟩ := h.mul32_of_free hfree
    rw [heq]
    dsimp only
    rw [hmul]
    refine iff_of_true ⟨fun h0 => absurd h0 hne, fun _ => ⟨p, hfree, fun q hq => ?_, rfl⟩⟩ ?_
    · by_contra hqp
      exact htop q (Nat.lt_of_not_le hqp) (h.le_tail q hq) hq
    · intro hone
      rw [hone, Finset.mem_singleton] at hfree
      omega
  · rw [h.reach_eq_empty_iff, Finset.subset_singleton_iff] at hempty
    rw [heq]
    constructor
    · rintro ⟨hnone, -⟩ hone
      rw [hnone rfl] at hone
      exact Finset.notMem_empty _ (hone ▸ Finset.mem_singleton_self _)
    · intro hne
      exact ⟨fun _ => hempty.resolve_right hne, fun h0 => absurd rfl h0⟩

/-- A run that starts at the upper cursor or above is the page under it. -/
theorem runFree_of_tail_le (h : PmmInv b s) {p count : ℕ} (hcount : 1 ≤ count)
    (hrun : s.pmm.RunFree p count) (hp : s.pmm.pmmTailPos ≤ p) :
    count = 1 ∧ p = s.pmm.pmmTailPos := by
  have hlast := h.le_tail _ (hrun (count - 1) (by omega))
  omega

theorem upAllocComplete_iff (h : PmmInv b s) {count : ℕ} (hcount : 1 ≤ count) :
    s.pmm.UpAllocComplete count ↔ count ≠ 1 ∨ s.pmm.freePages ≠ {s.pmm.pmmTailPos} := by
  have hbelow : ∀ q, s.pmm.RunFree q count → s.pmm.pmmHeadPos ≤ q :=
    fun q hrun => h.head_le q (hrun 0 hcount)
  unfold Pmm.UpAllocComplete
  rcases s.pmm.pmmUpAllocPage_cases count with ⟨p, -, htail, hrun, hmin, heq⟩ | ⟨hnone, heq⟩
  · have hfree : p ∈ s.pmm.freePages := hrun 0 hcount
    obtain ⟨hmul, hne⟩ := h.mul32_of_free hfree
    rw [heq]
    dsimp only
    rw [hmul]
    refine iff_of_true ⟨fun h0 => absurd h0 hne, fun _ => ⟨p, hrun, fun q hq hrunq => ?_, rfl⟩⟩ ?_
    · exact hmin q (hbelow q hrunq) hq hrunq
    · refine .inr fun hone => ?_
      rw [hone, Finset.mem_singleton] at hfree
      omega
  · have hhigh : ∀ q, s.pmm.RunFree q count → s.pmm.pmmTailPos ≤ q := by
      intro q hrun
      by_contra hlt
      exact hnone q (hbelow q hrun) (Nat.lt_of_not_le hlt) hrun
    rw [heq]
    constructor
    · rintro ⟨hno, -⟩
      by_contra hcon
      push Not at hcon
      obtain ⟨rfl, hone⟩ := hcon
      refine hno rfl s.pmm.pmmTailPos fun i hi => ?_
      obtain rfl : i = 0 := by omega
      rw [hone]
      exact Finset.mem_singleton_self _
    · intro hcond
      refine ⟨fun _ p hrun => ?_, fun h0 => absurd rfl h0⟩
      obtain ⟨rfl, rfl⟩ := h.runFree_of_tail_le hcount hrun (hhigh p hrun)
      refine hcond.resolve_left (fun hne => hne rfl) ?_
      rw [Finset.eq_singleton_iff_unique_mem]
      refine ⟨hrun 0 hcount, fun q hq => ?_⟩
      refine (h.runFree_of_tail_le (le_refl 1) (p := q) ?_ ?_).2
      · intro i hi
        obtain rfl : i = 0 := by omega
        exact hq
      · refine hhigh q fun i hi => ?_
        obtain rfl : i = 0 := by omega
        exact hq

end PmmInv

/-- In every reachable state `pmm_alloc_page` misses a free page exactly when the page under
`pmm_head_pos` is the only free one, and `pmm_up_alloc_page` misses a free run exactly when
one page is asked for and the page under `pmm_tail_pos` is the only free one. -/
theorem pmm_complete_iff {b : Boot} {s : PmmRun} (hs : (pmmMachine b).Reachable s) :
    (s.pmm.AllocComplete ↔ s.pmm.freePages ≠ {s.pmm.pmmHeadPos}) ∧
      ∀ count, 1 ≤ count →
        (s.pmm.UpAllocComplete count ↔ count ≠ 1 ∨ s.pmm.freePages ≠ {s.pmm.pmmTailPos}) := by
  have h := PmmInv.of_reachable hs
  exact ⟨h.allocComplete_iff, fun count hcount => h.upAllocComplete_iff hcount⟩

def twoPages : Boot where
  memBaseAddr := 0x110000
  memLength := 0x113000
  highAttr_le := by decide
  memBaseAddr_le := by decide
  memLength_lt := by decide
  bitmap_lt := by decide

/-- On it both find what they look for. -/
theorem pmm_complete_two_pages :
    (Pmm.pmmInit twoPages fun _ => 0).AllocComplete ∧
      (Pmm.pmmInit twoPages fun _ => 0).UpAllocComplete 1 := by
  have hs : (pmmMachine twoPages).Reachable ⟨Pmm.pmmInit twoPages fun _ => 0, ∅⟩ :=
    .init ⟨_, rfl⟩
  have hne : ∀ p, (Pmm.pmmInit twoPages fun _ => 0).freePages ≠ {p} := by
    intro p hone
    have hcard := congrArg Finset.card hone
    rw [Pmm.freePages_pmmInit, Finset.card_singleton] at hcard
    exact absurd hcard (by decide)
  obtain ⟨halloc, hup⟩ := pmm_complete_iff hs
  exact ⟨halloc.2 (hne _), (hup 1 le_rfl).2 (.inr (hne _))⟩

def onePage : Boot where
  memBaseAddr := 0x110000
  memLength := 0x112000
  highAttr_le := twoPages.highAttr_le
  memBaseAddr_le := by decide
  memLength_lt := by decide
  bitmap_lt := by decide

/-- Right after the boot neither of the two finds it. -/
theorem not_pmm_complete :
    let s : PmmRun := ⟨Pmm.pmmInit onePage fun _ => 0, ∅⟩
    (pmmMachine onePage).Reachable s ∧ ¬ s.pmm.AllocComplete ∧ ¬ s.pmm.UpAllocComplete 1 := by
  intro s
  have h : PmmInv onePage s := .of_init _
  have hfree : s.pmm.freePages = {0x111} := (Pmm.freePages_pmmInit onePage _).trans (by decide)
  have hhead : s.pmm.pmmHeadPos = 0x111 := by decide
  have htail : s.pmm.pmmTailPos = 0x111 := by
    change sub32 onePage.memPageCount 1 = 0x111
    rw [sub32_of_le (by decide) (by decide)]
    decide
  refine ⟨.init ⟨_, rfl⟩, ?_, ?_⟩
  · rw [h.allocComplete_iff, hfree, hhead]
    exact not_not.2 rfl
  · rw [h.upAllocComplete_iff le_rfl, hfree, htail]
    simp

end BitchKernel
