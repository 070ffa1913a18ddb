import BitchKernel.Mm.PmmSafety

/-!
# The page allocator before a page is given back

From `pmm_init` on, and as long as no page is given back, the free pages are those
between the two cursors: `pmm_alloc_page` takes the last one, `pmm_up_alloc_page` of one
page the first, and both leave the pages between. The page under the lower cursor is
never taken from above, nor the one under the upper cursor from below.
-/

namespace BitchKernel

open Lib

namespace Pmm

/-- The free pages are those from `lo` on and below `hi`, and the cursors are at their
ends. -/
structure Spans (s : Pmm) (lo hi : ℕ) : Prop where
  bits : s.pmmBitmapLength ≤ 0x20000
  headPos : s.pmmHeadPos = lo
  tailPos : s.pmmTailPos + 1 = hi
  free : ∀ p, p ∈ s.freePages ↔ lo ≤ p ∧ p < hi

theorem spans_pmmInit (b : Boot) (memory : Bitmap) :
    (pmmInit b memory).Spans b.memBasePage b.memPageCount where
  bits := by
    rw [pmmInit_length]
    exact b.pmmBitmapLength_le
  headPos := rfl
  tailPos := by
    have hlt := b.memPageCount_lt
    have hle := b.le_memPageCount
    have htail : (pmmInit b memory).pmmTailPos = sub32 b.memPageCount 1 := rfl
    rw [htail, sub32_of_le (by omega) (by omega)]
    omega
  free p := by
    rw [freePages_pmmInit, Boot.mem_arena]

namespace Spans

variable {s : Pmm} {lo hi : ℕ}

theorem mul32_pageSize (h : s.Spans lo hi) {p : ℕ} (hlo : lo ≤ p) (hhi : p < hi) :
    mul32 p pageSize = p * pageSize := by
  have hlt := (mem_freePages.1 ((h.free p).2 ⟨hlo, hhi⟩)).1
  have hbits := h.bits
  exact mul32_of_lt (by lia)

theorem pmmAllocPage (h : s.Spans lo hi) (hlt : lo + 1 < hi) :
    s.pmmAllocPage.1 = (hi - 1) * pageSize ∧ s.pmmAllocPage.2.Spans lo (hi - 1) := by
  have htail := h.tailPos
  have hlast : hi - 1 ∈ s.reach :=
    mem_reach.2 ⟨(h.free _).2 ⟨by omega, by omega⟩, by rw [h.headPos]; omega, by omega⟩
  rcases s.pmmAllocPage_cases with ⟨p, hp, hmax, -, heq⟩ | ⟨hnone, -⟩
  · have hle := hmax _ hlast
    have hp' := ((h.free p).1 (mem_reach.1 hp).1).2
    obtain rfl : p = hi - 1 := by omega
    rw [heq, h.mul32_pageSize (by omega) (by omega)]
    refine ⟨rfl, ⟨?_, ?_, ?_, fun q => ?_⟩⟩
    · rw [takePage_length]
      exact h.bits
    · rw [takePage_headPos, h.headPos]
    · rw [takePage_tailPos]
      omega
    · rw [freePages_takePage, Finset.mem_erase, h.free]
      omega
  · rw [hnone] at hlast
    exact absurd hlast (Finset.notMem_empty _)

theorem pmmAllocPage_none (h : s.Spans lo hi) (hle : hi ≤ lo + 1) : s.pmmAllocPage.1 = 0 := by
  have htail := h.tailPos
  rcases s.pmmAllocPage_cases with ⟨p, hp, -⟩ | ⟨-, heq⟩
  · obtain ⟨-, hlo, hhi⟩ := mem_reach.1 hp
    rw [h.headPos] at hlo
    omega
  · rw [heq]

theorem pmmUpAllocPage (h : s.Spans lo hi) (hlt : lo + 1 < hi) :
    (s.pmmUpAllocPage 1).1 = lo * pageSize ∧ (s.pmmUpAllocPage 1).2.Spans (lo + 1) hi := by
  have htail := h.tailPos
  have hhead := h.headPos
  have hfirst : s.RunFree lo 1 := fun i hi' => (h.free _).2 ⟨by omega, by omega⟩
  rcases s.pmmUpAllocPage_cases 1 with ⟨p, hp, -, -, hmin, heq⟩ | ⟨hnone, -⟩
  · obtain rfl : p = lo := by
      by_contra hne
      exact hmin lo (by omega) (by omega) hfirst
    rw [heq, h.mul32_pageSize le_rfl (by omega)]
    refine ⟨rfl, ⟨?_, ?_, ?_, fun q => ?_⟩⟩
    · rw [takeRun_length]
      exact h.bits
    · exact if_pos hhead.symm |>.trans (by rw [hhead])
    · exact (congrArg (· + 1) (setBitMasks_tailPos _ _ _ s)).trans htail
    · rw [freePages_takeRun, Finset.mem_sdiff, Finset.mem_Ico, h.free]
      omega
  · exact absurd hfirst (hnone lo (by omega) (by omega))

theorem pmmUpAllocPage_stays (h : s.Spans lo hi) (hle : hi ≤ lo + 1) : s.pmmUpAllocPage 1 = (0, s) := by
  have htail := h.tailPos
  have hhead := h.headPos
  rcases s.pmmUpAllocPage_cases 1 with ⟨p, hp, hpt, -⟩ | ⟨-, heq⟩
  · omega
  · exact heq

theorem pmmUpAllocPage_none (h : s.Spans lo hi) (hle : hi ≤ lo + 1) : (s.pmmUpAllocPage 1).1 = 0 := by
  rw [h.pmmUpAllocPage_stays hle]

end Spans

end Pmm

end BitchKernel
