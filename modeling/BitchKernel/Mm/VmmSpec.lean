import BitchKernel.Mm.PmmSpec
import BitchKernel.Mm.Umm

/-!
# What the loops of the kernel window change

Each function of the window is described by the fields it changes: the loops move
the page allocator and entries of the global page table, and leave the rest of the
state as it is. A scan is described by the position it settles at.
-/

namespace BitchKernel

open Lib

namespace Pmm

@[simp] theorem pmmAllocPage_length (s : Pmm) :
    s.pmmAllocPage.2.pmmBitmapLength = s.pmmBitmapLength := by
  rcases s.pmmAllocPage_cases with ⟨p, -, -, -, heq⟩ | ⟨-, heq⟩
  · rw [heq, takePage_length]
  · rw [heq]

@[simp] theorem pmmUpAllocPage_length (s : Pmm) (count : ℕ) :
    (s.pmmUpAllocPage count).2.pmmBitmapLength = s.pmmBitmapLength := by
  rcases s.pmmUpAllocPage_cases count with ⟨p, -, -, -, -, heq⟩ | ⟨-, heq⟩
  · rw [heq, takeRun_length]
  · rw [heq]

theorem freePages_pmmAllocPage_subset (s : Pmm) : s.pmmAllocPage.2.freePages ⊆ s.freePages := by
  rcases s.pmmAllocPage_cases with ⟨p, -, -, -, heq⟩ | ⟨-, heq⟩
  · rw [heq, freePages_takePage]
    exact Finset.erase_subset p s.freePages
  · rw [heq]
    exact (freePages_congr rfl rfl).subset

theorem pmmAllocPage_page_ne_zero {s : Pmm} (h : s.pmmAllocPage.1 ≠ 0) :
    s.pmmAllocPage.1 / pageSize ≠ 0 ∧ s.pmmAllocPage.1 < 2 ^ 32 := by
  rcases s.pmmAllocPage_cases with ⟨p, -, -, -, heq⟩ | ⟨-, heq⟩
  · rw [heq] at h ⊢
    dsimp only at h ⊢
    rw [mul32_eq] at h ⊢
    lia
  · rw [heq] at h
    exact absurd rfl h

end Pmm

namespace Kernel

/-! ## Entries of the global page table -/

theorem globlPageMmap_eq (k : Kernel) (f g : ℕ) :
    ∃ pte, k.globlPageMmap f g = { k with globlMmapPte := pte } ∧
      (∀ x ≠ g, pte x = k.globlMmapPte x) ∧
      (g < globlPageNum → pte g = setPage (f * pageSize) pageKernel) := by
  unfold globlPageMmap
  by_cases hg : g < globlPteNum * pagePteIndex
  · rw [if_pos hg]
    exact ⟨_, rfl, fun x hx => Function.update_of_ne hx _ _, fun _ => Function.update_self _ _ _⟩
  · rw [if_neg hg]
    exact ⟨_, rfl, fun _ _ => rfl, fun hlt => absurd hlt hg⟩

theorem globlPageRemove_eq (k : Kernel) (g : ℕ) :
    ∃ pte, k.globlPageRemove g = { k with globlMmapPte := pte } ∧
      (∀ x ≠ g, pte x = k.globlMmapPte x) ∧ (g < globlPageNum → pte g = 0) := by
  unfold globlPageRemove
  by_cases hg : g < globlPteNum * pagePteIndex
  · rw [if_pos hg]
    exact ⟨_, rfl, fun x hx => Function.update_of_ne hx _ _, fun _ => Function.update_self _ _ _⟩
  · rw [if_neg hg]
    exact ⟨_, rfl, fun _ _ => rfl, fun hlt => absurd hlt hg⟩

theorem getPageAttr_kernelPage {f : ℕ} (hf : f ≠ 0) :
    getPageAttr (setPage (f * pageSize) pageKernel) ≠ 0 := by
  rw [getPageAttr_setPage, pageBase_mul]
  exact Nat.mul_ne_zero hf (by decide)

theorem globlPageMmap_mapped (k : Kernel) {f : ℕ} (g : ℕ) (hf : f ≠ 0) :
    (∀ x < globlPageNum, getPageAttr (k.globlMmapPte x) ≠ 0 →
      getPageAttr ((k.globlPageMmap f g).globlMmapPte x) ≠ 0) ∧
    (g < globlPageNum → getPageAttr ((k.globlPageMmap f g).globlMmapPte g) ≠ 0) := by
  obtain ⟨pte, hmmap, hframe, hset⟩ := k.globlPageMmap_eq f g
  have hnew : g < globlPageNum → getPageAttr (pte g) ≠ 0 := by
    intro hlt
    rw [hset hlt]
    exact getPageAttr_kernelPage hf
  rw [hmmap]
  refine ⟨fun x hx hne => ?_, hnew⟩
  by_cases heq : x = g
  · rw [heq] at hx ⊢
    exact hnew hx
  · dsimp only
    rw [hframe x heq]
    exact hne

theorem getGloblPageIndex_globlPageMmap (k : Kernel) (f g : ℕ) :
    (k.globlPageMmap f g).getGloblPageIndex = k.getGloblPageIndex := by
  obtain ⟨pte, hmmap, -⟩ := k.globlPageMmap_eq f g
  rw [hmmap]
  rfl

theorem getGloblPageIndex_of_lt {k : Kernel} {index : ℕ} (h : index < k.vmmapPageCount) :
    k.getGloblPageIndex index = k.dmmapPageCount + index := by
  have hcount := k.page_count
  unfold getGloblPageIndex
  rw [add32_of_lt (by lia)]

/-! ## The scan -/

/-- The scan for `count` pages settles at `p`. -/
def VmmSettles (k : Kernel) (count p : ℕ) : Prop :=
  DownScan.SettlesAt 32 k.vmmBusy count k.vmmPos p

/-- The run of `count` pages downward from `p` lies in the window, at or below `vmm_pos`. -/
def RunInside (k : Kernel) (count p : ℕ) : Prop := p ≤ k.vmmPos ∧ count ≤ p + 1

/-- The run of `count` pages downward from `p` lies in the window, at or below
`vmm_pos`, and taking it does not move `vmm_pos` below zero. -/
def SafeAt (k : Kernel) (count p : ℕ) : Prop :=
  p ≤ k.vmmPos ∧ (count ≤ p ∨ (count = p + 1 ∧ p < k.vmmPos))

/-- Wherever the scan for `count` pages settles, it settles inside the window. -/
def SafeScan (k : Kernel) (count : ℕ) : Prop := ∀ p, k.VmmSettles count p → k.SafeAt count p

variable {k : Kernel} {fuel count p : ℕ}

theorem vmmSettles_of_scan (hpos : k.vmmPos < 2 ^ 32) (hcount : count < 2 ^ 32)
    (h : k.vmmScan fuel count = some (some p)) : k.VmmSettles count p :=
  DownScan.settlesAt_of_downScan hpos hcount h

theorem exists_scan_of_vmmSettles (hpos : k.vmmPos < 2 ^ 32) (hcount : count < 2 ^ 32)
    (h : k.VmmSettles count p) : ∃ fuel, k.vmmScan fuel count = some (some p) := by
  obtain ⟨hp0, n, hp, hrun, hfirst, hstop⟩ := h
  rw [hp] at hrun ⊢
  exact ⟨n + 1, DownScan.downScan_of_settlesAt hpos hcount hp0 hrun hfirst hstop (Nat.lt_succ_self n)⟩

theorem SafeAt.inside (h : k.SafeAt count p) : k.RunInside count p := by
  obtain ⟨hle, hrun⟩ := h
  exact ⟨hle, by omega⟩

theorem RunInside.head_eq (h : k.RunInside count p) (hpos : k.vmmPos < k.vmmapPageCount) :
    add32 (sub32 p count) 1 = p + 1 - count := by
  have hcount := k.page_count
  obtain ⟨hle, hrun⟩ := h
  exact add32_sub32_of_lt (by omega) (by lia) (by lia)

theorem RunInside.slot_eq (h : k.RunInside count p) (hpos : k.vmmPos < k.vmmapPageCount) {j : ℕ}
    (hj : j < count) :
    k.getGloblPageIndex (add32 (add32 (sub32 p count) 1) j) = k.dmmapPageCount + (p + 1 - count + j) := by
  have hcount := k.page_count
  rw [h.head_eq hpos]
  obtain ⟨hle, hrun⟩ := h
  rw [add32_of_lt (by lia), getGloblPageIndex_of_lt (by omega)]

/-- The address of the run of `count` pages downward from `p`. -/
def windowAddress (k : Kernel) (p count : ℕ) : ℕ :=
  mul32 (k.getGloblPageIndex (add32 (sub32 p count) 1)) pageSize

theorem RunInside.windowAddress_eq (h : k.RunInside count p) (hpos : k.vmmPos < k.vmmapPageCount) :
    k.windowAddress p count = (k.dmmapPageCount + (p + 1 - count)) * pageSize := by
  have hpages := k.page_count
  have hle := h.1
  unfold windowAddress getGloblPageIndex
  rw [h.head_eq hpos, add32_of_lt (by lia)]
  exact mul32_of_lt (by lia)

theorem VmmSettles.free (h : k.VmmSettles count p) (hsafe : k.SafeAt count p)
    (hpos : k.vmmPos < k.vmmapPageCount) {j : ℕ} (hj : j < count) :
    getPageAttr (k.globlMmapPte (k.dmmapPageCount + (p + 1 - count + j))) = 0 := by
  have hcount := k.page_count
  obtain ⟨hle, hlen⟩ := hsafe
  obtain ⟨-, n, -, hrun, -⟩ := h
  have hslot := hrun (count - 1 - j) (by omega)
  rw [DownScan.below_of_le (by lia) (by omega)] at hslot
  have hindex : p - (count - 1 - j) = p + 1 - count + j := by omega
  unfold vmmBusy getVmmPage at hslot
  rw [hindex, if_pos (by omega), getGloblPageIndex_of_lt (by omega)] at hslot
  exact not_not.mp (of_decide_eq_false hslot)

/-- The scan does not go past a free run at or below `vmm_pos`. -/
theorem VmmSettles.le_of_run (hsettles : k.VmmSettles count p) (hpos : k.vmmPos < k.vmmapPageCount)
    {q : ℕ} (hq : q ≤ k.vmmPos) (hcount : count ≤ q + 1)
    (hfree : ∀ j < count, k.getVmmPage (q - j) = 0) : q ≤ p ∧ p ≤ k.vmmPos := by
  have hpages := k.page_count
  obtain ⟨-, n, hp, -, hfirst, -⟩ := hsettles
  have hn : n ≤ k.vmmPos - q := by
    by_contra hlt
    have hq' : DownScan.below 32 k.vmmPos (k.vmmPos - q) = q := by
      rw [DownScan.below_of_le (by lia) (Nat.sub_le _ _), Nat.sub_sub_self hq]
    refine hfirst (k.vmmPos - q) (by omega) fun i hi => ?_
    rw [hq', DownScan.below_of_le (by lia) (by omega)]
    exact decide_eq_false (not_not.2 (hfree i hi))
  rw [DownScan.below_of_le (by lia) (by omega)] at hp
  exact ⟨by omega, by omega⟩

/-- With a free run between the pages `1` and `vmm_pos` the scan stays inside. -/
theorem safeScan_of_run (hpos : k.vmmPos < k.vmmapPageCount) {q : ℕ} (hq : q ≤ k.vmmPos)
    (hcount : count ≤ q) (hfree : ∀ j < count, k.getVmmPage (q - j) = 0) : k.SafeScan count := by
  intro p hsettles
  obtain ⟨hqp, hp⟩ := hsettles.le_of_run hpos hq (by omega) hfree
  exact ⟨hp, .inl (by omega)⟩

theorem safeScan_one (hpos : k.vmmPos < k.vmmapPageCount) : k.SafeScan 1 := by
  have hpages := k.page_count
  rintro p ⟨hzero, n, hp, hrun, hfirst, hlt | hone⟩
  · rw [DownScan.below_of_le (by lia) (by omega)] at hp
    exact ⟨by omega, .inl (by omega)⟩
  · refine safeScan_of_run hpos (q := 1) (by omega) le_rfl (fun j hj => ?_) p
      ⟨hzero, n, hp, hrun, hfirst, .inr hone⟩
    obtain rfl : j = 0 := by omega
    exact not_not.1 (of_decide_eq_false hone)

/-! ## The run the scan found -/

/-- The entries `i`, ..., `i + rem - 1` of the run from `head` on show a page afterwards,
and no entry is lost. -/
structure ShowsRun (k k' : Kernel) (head i rem : ℕ) : Prop where
  kept : ∀ x < globlPageNum, getPageAttr (k.globlMmapPte x) ≠ 0 → getPageAttr (k'.globlMmapPte x) ≠ 0
  mapped : ∀ j, i ≤ j → j < i + rem → k.getGloblPageIndex (add32 head j) < globlPageNum →
    getPageAttr (k'.globlMmapPte (k.getGloblPageIndex (add32 head j))) ≠ 0

namespace ShowsRun

variable {k₀ k' : Kernel} {head i rem f : ℕ}

theorem zero (k : Kernel) (head i : ℕ) : ShowsRun k k head i 0 :=
  ⟨fun _ _ hx => hx, fun j hij hj => by omega⟩

theorem succ
    (h : ShowsRun (k₀.globlPageMmap f (k₀.getGloblPageIndex (add32 head i))) k' head (i + 1) rem)
    (hpte : k₀.globlMmapPte = k.globlMmapPte) (hindex : k₀.getGloblPageIndex = k.getGloblPageIndex)
    (hf : f ≠ 0) : ShowsRun k k' head i (rem + 1) := by
  obtain ⟨hold, hnew⟩ := k₀.globlPageMmap_mapped (k₀.getGloblPageIndex (add32 head i)) hf
  obtain ⟨hkept, hmapped⟩ := h
  rw [getGloblPageIndex_globlPageMmap, hindex] at hmapped
  rw [hpte] at hold
  rw [hindex] at hold hnew hkept
  refine ⟨fun x hx hne => hkept x hx (hold x hx hne), fun j hij hj hlt => ?_⟩
  by_cases heq : j = i
  · rw [heq] at hlt ⊢
    exact hkept _ hlt (hnew hlt)
  · exact hmapped j (by omega) (by omega) hlt

end ShowsRun

/-- What `vmm_alloc_page` and `vmm_mmap_pde_page` do with the position the scan found: `run`
maps the pages from a head on, and the mapped run is taken. -/
def vmmMapRun (k : Kernel) (count : ℕ) (run : ℕ → Bool × Kernel) : Option ℕ → ℕ × Kernel
  | none => (0, k)
  | some p =>
      match run (add32 (sub32 p count) 1) with
      | (true, k) => k.vmmTake p count
      | (false, k) => (0, k)

theorem vmmAllocPage_eq (k : Kernel) (fuel count : ℕ) : k.vmmAllocPage fuel count =
    (k.vmmScan fuel count).map (k.vmmMapRun count fun head => vmmAllocLoop head count 0 k) := by
  unfold vmmAllocPage
  rfl

theorem vmmMmapPdePage_eq (k : Kernel) (fuel attr count pde : ℕ) :
    k.vmmMmapPdePage fuel attr count pde = (k.vmmScan fuel count).map
      (k.vmmMapRun count fun head => vmmMmapPdeLoop head attr pde count 0 k) := by
  unfold vmmMmapPdePage
  rfl

theorem vmmMapRun_cases {run : ℕ → Bool × Kernel} {r : ℕ} {k' : Kernel}
    (h : (k.vmmScan fuel count).map (k.vmmMapRun count run) = some (r, k')) :
    (k.vmmScan fuel count = some none ∧ r = 0 ∧ k' = k) ∨
    ∃ p kMapped, k.vmmScan fuel count = some (some p) ∧
      ((run (add32 (sub32 p count) 1) = (true, kMapped) ∧
          r = (kMapped.vmmTake p count).1 ∧ k' = (kMapped.vmmTake p count).2) ∨
        (run (add32 (sub32 p count) 1) = (false, kMapped) ∧ r = 0 ∧ k' = kMapped)) := by
  obtain ⟨found, hscan, htake⟩ := Option.map_eq_some_iff.1 h
  cases found with
  | none =>
      have hpair := Prod.mk.inj htake
      exact .inl ⟨hscan, hpair.1.symm, hpair.2.symm⟩
  | some p =>
      refine .inr ⟨p, ?_⟩
      unfold vmmMapRun at htake
      dsimp only at htake
      rcases hrun : run (add32 (sub32 p count) 1) with ⟨_ | _, kMapped⟩
      · rw [hrun] at htake
        have hpair := Prod.mk.inj htake
        exact ⟨kMapped, hscan, .inr ⟨rfl, hpair.1.symm, hpair.2.symm⟩⟩
      · rw [hrun] at htake
        have htaken : kMapped.vmmTake p count = (r, k') := htake
        exact ⟨kMapped, hscan, .inl ⟨rfl, by rw [htaken], by rw [htaken]⟩⟩

theorem vmmMapRun_rule {P : Kernel → Prop} {run : ℕ → Bool × Kernel} {r : ℕ} {k' : Kernel} (hsame : P k)
    (hrun : ∀ head, P (run head).2) (htake : ∀ k₁ p, P k₁ → P (k₁.vmmTake p count).2)
    (hcall : (k.vmmScan fuel count).map (k.vmmMapRun count run) = some (r, k')) : P k' := by
  rcases vmmMapRun_cases hcall with ⟨-, -, rfl⟩ | ⟨p, kMapped, -, hreturn⟩
  · exact hsame
  · have hmapped := hrun (add32 (sub32 p count) 1)
    rcases hreturn with ⟨heq, -, rfl⟩ | ⟨heq, -, rfl⟩
    · rw [heq] at hmapped
      exact htake kMapped p hmapped
    · rw [heq] at hmapped
      exact hmapped

/-! ## vmm_alloc_page -/

theorem getVmmPage_of_removed {index : ℕ}
    (h : k.getGloblPageIndex index < globlPageNum → k.globlMmapPte (k.getGloblPageIndex index) = 0) :
    k.getVmmPage index = 0 := by
  have hcount := k.page_count
  unfold getVmmPage
  by_cases hlt : index < k.vmmapPageCount
  · rw [getGloblPageIndex_of_lt hlt] at h ⊢
    rw [if_pos hlt, getGloblPageAttr, h (by omega), getPageAttr_zero]
  · rw [if_neg hlt]

/-- The loop that gives pages back reads each entry after it removed it: it frees
nothing but the frame 0. -/
theorem vmmAllocUndo_eq (head i : ℕ) (k : Kernel) :
    ∃ pmm pte, vmmAllocUndo head i k = { k with pmm := pmm, globlMmapPte := pte } ∧
      pmm.pmmBitmapLength = k.pmm.pmmBitmapLength ∧
      (∀ x, (∀ j, 1 ≤ j → j ≤ i → x ≠ k.getGloblPageIndex (add32 head j)) →
        pte x = k.globlMmapPte x) ∧
      ∀ q ≠ 0, q ∉ k.pmm.freePages → q ∉ pmm.freePages := by
  induction i generalizing k with
  | zero => exact ⟨_, _, rfl, rfl, fun _ _ => rfl, fun _ _ hq => hq⟩
  | succ i ih =>
      obtain ⟨pte, hremove, hframe, hzero⟩ :=
        globlPageRemove_eq k (k.getGloblPageIndex (add32 head (i + 1)))
      have hpage : Kernel.getVmmPage { k with globlMmapPte := pte } (add32 head (i + 1)) = 0 :=
        getVmmPage_of_removed hzero
      obtain ⟨pmm, pte', hundo, hlen, hframe', hfree⟩ :=
        ih { k with pmm := k.pmm.pmmFreePage 0 1, globlMmapPte := pte }
      refine ⟨pmm, pte', ?_, ?_, fun x hx => ?_, fun q hq hfreeq => ?_⟩
      · rw [vmmAllocUndo, hremove]
        dsimp only
        rw [hpage]
        exact hundo
      · rw [hlen, Pmm.pmmFreePage_length]
      · rw [hframe' x fun j hj hji => hx j hj (by omega)]
        exact hframe x (hx (i + 1) (by omega) le_rfl)
      · refine hfree q hq ?_
        rw [Pmm.freePages_pmmFreePage]
        simp only [Finset.range_one, Finset.image_singleton, Nat.zero_div, Finset.mem_union,
          Finset.mem_filter, Finset.mem_singleton, not_or]
        refine ⟨hfreeq, fun h => hq ?_⟩
        exact h.1.trans (add32_of_lt (by decide))

/-- The loop that maps the pages of a run moves the page allocator and the entries of
the run, and takes pages from the free ones only. -/
theorem vmmAllocLoop_eq (head rem i : ℕ) (k : Kernel) :
    ∃ r pmm pte, vmmAllocLoop head rem i k = (r, { k with pmm := pmm, globlMmapPte := pte }) ∧
      pmm.pmmBitmapLength = k.pmm.pmmBitmapLength ∧
      (∀ x, (∀ j < i + rem, x ≠ k.getGloblPageIndex (add32 head j)) → pte x = k.globlMmapPte x) ∧
      ∀ q ≠ 0, q ∉ k.pmm.freePages → q ∉ pmm.freePages := by
  induction rem generalizing i k with
  | zero => exact ⟨_, _, _, rfl, rfl, fun _ _ => rfl, fun _ _ hq => hq⟩
  | succ rem ih =>
      have hlen := k.pmm.pmmAllocPage_length
      have htake : ∀ q, q ∉ k.pmm.freePages → q ∉ k.pmm.pmmAllocPage.2.freePages :=
        fun q hq hfree => hq (k.pmm.freePages_pmmAllocPage_subset hfree)
      rw [vmmAllocLoop]
      dsimp only
      by_cases hattr : k.pmm.pmmAllocPage.1 ≠ 0
      · rw [if_pos hattr]
        obtain ⟨pte, hmmap, hframe, -⟩ :=
          globlPageMmap_eq { k with pmm := k.pmm.pmmAllocPage.2 } (k.pmm.pmmAllocPage.1 / pageSize)
            (k.getGloblPageIndex (add32 head i))
        obtain ⟨r, pmm, pte', hloop, hlen', hframe', hfree⟩ :=
          ih (i + 1) { k with pmm := k.pmm.pmmAllocPage.2, globlMmapPte := pte }
        refine ⟨r, pmm, pte', ?_, hlen'.trans hlen, fun x hx => ?_, fun q hq hfreeq => ?_⟩
        · exact (congrArg _ hmmap).trans hloop
        · rw [hframe' x fun j hj => hx j (by omega)]
          exact hframe x (hx i (by omega))
        · exact hfree q hq (htake q hfreeq)
      · rw [if_neg hattr]
        obtain ⟨pmm, pte, hundo, hlen', hframe, hfree⟩ :=
          vmmAllocUndo_eq head i { k with pmm := k.pmm.pmmAllocPage.2 }
        refine ⟨false, pmm, pte, by rw [hundo], hlen'.trans hlen, fun x hx => ?_, fun q hq hfreeq => ?_⟩
        · exact hframe x fun j _ hj => hx j (by omega)
        · exact hfree q hq (htake q hfreeq)

theorem vmmAllocLoop_mapped (head rem i : ℕ) (k : Kernel) (h : (vmmAllocLoop head rem i k).1 = true) :
    ShowsRun k (vmmAllocLoop head rem i k).2 head i rem := by
  induction rem generalizing i k with
  | zero => exact .zero k head i
  | succ rem ih =>
      rw [vmmAllocLoop] at h ⊢
      dsimp only at h ⊢
      by_cases hattr : k.pmm.pmmAllocPage.1 ≠ 0
      · rw [if_pos hattr] at h ⊢
        exact (ih (i + 1) _ h).succ rfl rfl (Pmm.pmmAllocPage_page_ne_zero hattr).1
      · rw [if_neg hattr] at h
        exact absurd h (by simp)

/-- `vmm_alloc_page` finds no run, maps one, or runs out of frames. -/
theorem vmmAllocPage_cases {r : ℕ} {k' : Kernel} (h : k.vmmAllocPage fuel count = some (r, k')) :
    (k.vmmScan fuel count = some none ∧ r = 0 ∧ k' = k) ∨
    ∃ p kMapped, k.vmmScan fuel count = some (some p) ∧
      ((vmmAllocLoop (add32 (sub32 p count) 1) count 0 k = (true, kMapped) ∧
          r = (kMapped.vmmTake p count).1 ∧ k' = (kMapped.vmmTake p count).2) ∨
        (vmmAllocLoop (add32 (sub32 p count) 1) count 0 k = (false, kMapped) ∧ r = 0 ∧ k' = kMapped)) := by
  rw [vmmAllocPage_eq] at h
  exact vmmMapRun_cases h

theorem vmmAllocPage_rule {P : Kernel → Prop} {r : ℕ} {k' : Kernel} (hsame : P k)
    (hloop : ∀ head, P (vmmAllocLoop head count 0 k).2)
    (htake : ∀ k₁ p, P k₁ → P (k₁.vmmTake p count).2)
    (hcall : k.vmmAllocPage fuel count = some (r, k')) : P k' := by
  rw [vmmAllocPage_eq] at hcall
  exact vmmMapRun_rule hsame hloop htake hcall

/-! ## Pages of a directory -/

theorem dmmAllocPage_eq (k : Kernel) (count : ℕ) :
    ∃ r pmm, k.dmmAllocPage count = (r, { k with pmm := pmm }) ∧
      pmm.pmmBitmapLength = k.pmm.pmmBitmapLength := by
  have hlen := k.pmm.pmmUpAllocPage_length count
  unfold dmmAllocPage
  dsimp only
  by_cases hout : k.dmmapPageCount < add32 ((k.pmm.pmmUpAllocPage count).1 / pageSize) count
  · rw [if_pos hout]
    exact ⟨_, _, rfl, by rw [Pmm.pmmFreePage_length, hlen]⟩
  · rw [if_neg hout]
    exact ⟨_, _, rfl, hlen⟩

/-- Writing an entry of a directory moves the page allocator and the contents of
pages only. -/
theorem setUmmValue_eq (k : Kernel) (attr value pde : ℕ) :
    ∃ r pmm page, k.setUmmValue attr value pde = (r, { k with pmm := pmm, page := page }) ∧
      pmm.pmmBitmapLength = k.pmm.pmmBitmapLength := by
  unfold setUmmValue ummTable
  by_cases hhigh : pageOffset ≤ attr
  · rw [if_pos hhigh]
    exact ⟨_, _, _, rfl, rfl⟩
  rw [if_neg hhigh]
  dsimp only
  by_cases hentry : getPageAttr (k.loadWord pde (pdeIndex attr)) = 0
  · obtain ⟨pte, pmm, halloc, hlen⟩ := k.dmmAllocPage_eq 1
    rw [if_pos hentry, halloc]
    dsimp only
    by_cases hpte : pte = 0
    · rw [if_pos hpte]
      exact ⟨_, _, _, rfl, hlen⟩
    · rw [if_neg hpte]
      dsimp only
      rw [if_neg hpte]
      exact ⟨_, _, _, rfl, hlen⟩
  · rw [if_neg hentry]
    dsimp only
    rw [if_neg hentry]
    exact ⟨_, _, _, rfl, rfl⟩

theorem pdePage_eq (k : Kernel) (attr pde : ℕ) :
    ∃ r pmm page, k.pdePage attr pde = (r, { k with pmm := pmm, page := page }) ∧
      pmm.pmmBitmapLength = k.pmm.pmmBitmapLength ∧ (r ≠ 0 → r / pageSize ≠ 0) := by
  unfold pdePage
  dsimp only
  by_cases hmapped : getPageAttr (k.getUmmValue attr pde) = 0
  · rw [if_pos hmapped]
    by_cases halloc : k.pmm.pmmAllocPage.1 ≠ 0
    · rw [if_pos halloc]
      obtain ⟨r, pmm, page, hset, hlen⟩ := setUmmValue_eq { k with pmm := k.pmm.pmmAllocPage.2 } attr
        (setPage (getGloblPhyAttr { k with pmm := k.pmm.pmmAllocPage.2 } k.pmm.pmmAllocPage.1) pageUser)
        pde
      refine ⟨k.pmm.pmmAllocPage.1, pmm, page, ?_, hlen.trans k.pmm.pmmAllocPage_length,
        fun _ => (Pmm.pmmAllocPage_page_ne_zero halloc).1⟩
      rw [hset]
    · rw [if_neg halloc]
      exact ⟨_, _, _, rfl, k.pmm.pmmAllocPage_length, fun h => absurd rfl h⟩
  · rw [if_neg hmapped]
    refine ⟨_, _, _, rfl, rfl, fun h => ?_⟩
    unfold getPageAttr at h ⊢
    lia

/-! ## vmm_mmap_pde_page -/

theorem vmmMmapPdeUndo_eq (head i : ℕ) (k : Kernel) :
    ∃ pte, vmmMmapPdeUndo head i k = { k with globlMmapPte := pte } ∧
      ∀ x, (∀ j, 1 ≤ j → j ≤ i → x ≠ k.getGloblPageIndex (add32 head j)) →
        pte x = k.globlMmapPte x := by
  induction i generalizing k with
  | zero => exact ⟨_, rfl, fun _ _ => rfl⟩
  | succ i ih =>
      obtain ⟨pte, hremove, hframe, -⟩ :=
        globlPageRemove_eq k (k.getGloblPageIndex (add32 head (i + 1)))
      obtain ⟨pte', hundo, hframe'⟩ := ih { k with globlMmapPte := pte }
      refine ⟨pte', ?_, fun x hx => ?_⟩
      · rw [vmmMmapPdeUndo, hremove]
        exact hundo
      · rw [hframe' x fun j hj hji => hx j hj (by omega)]
        exact hframe x (hx (i + 1) (by omega) le_rfl)

/-- The loop of `vmm_mmap_pde_page` moves the page allocator, the contents of pages
and the entries of the run. -/
theorem vmmMmapPdeLoop_eq (head attr pde rem i : ℕ) (k : Kernel) :
    ∃ r pmm page pte, vmmMmapPdeLoop head attr pde rem i k =
        (r, { k with pmm := pmm, page := page, globlMmapPte := pte }) ∧
      pmm.pmmBitmapLength = k.pmm.pmmBitmapLength ∧
      ∀ x, (∀ j < i + rem, x ≠ k.getGloblPageIndex (add32 head j)) →
        pte x = k.globlMmapPte x := by
  induction rem generalizing i k with
  | zero => exact ⟨_, _, _, _, rfl, rfl, fun _ _ => rfl⟩
  | succ rem ih =>
      obtain ⟨phyAttr, pmm, page, hpage, hlen, -⟩ := k.pdePage_eq (add32 attr (mul32 i pageSize)) pde
      rw [vmmMmapPdeLoop, hpage]
      dsimp only
      by_cases hattr : phyAttr ≠ 0
      · rw [if_pos hattr]
        obtain ⟨pte, hmmap, hframe, -⟩ :=
          globlPageMmap_eq { k with pmm := pmm, page := page } (phyAttr / pageSize)
            (k.getGloblPageIndex (add32 head i))
        obtain ⟨r, pmm', page', pte', hloop, hlen', hframe'⟩ :=
          ih (i + 1) { k with pmm := pmm, page := page, globlMmapPte := pte }
        refine ⟨r, pmm', page', pte', ?_, hlen'.trans hlen, fun x hx => ?_⟩
        · exact (congrArg _ hmmap).trans hloop
        · rw [hframe' x fun j hj => hx j (by omega)]
          exact hframe x (hx i (by omega))
      · rw [if_neg hattr]
        obtain ⟨pte, hundo, hframe⟩ := vmmMmapPdeUndo_eq head i { k with pmm := pmm, page := page }
        refine ⟨false, pmm, page, pte, by rw [hundo], hlen, fun x hx => ?_⟩
        exact hframe x fun j _ hj => hx j (by omega)

theorem vmmMmapPdeLoop_mapped (head attr pde rem i : ℕ) (k : Kernel)
    (h : (vmmMmapPdeLoop head attr pde rem i k).1 = true) :
    ShowsRun k (vmmMmapPdeLoop head attr pde rem i k).2 head i rem := by
  induction rem generalizing i k with
  | zero => exact .zero k head i
  | succ rem ih =>
      obtain ⟨phyAttr, pmm, page, hpage, -, hne⟩ := k.pdePage_eq (add32 attr (mul32 i pageSize)) pde
      rw [vmmMmapPdeLoop, hpage] at h ⊢
      dsimp only at h ⊢
      by_cases hattr : phyAttr ≠ 0
      · rw [if_pos hattr] at h ⊢
        exact (ih (i + 1) _ h).succ rfl rfl (hne hattr)
      · rw [if_neg hattr] at h
        exact absurd h (by simp)

/-- `vmm_mmap_pde_page` finds no run, maps one, or runs out of frames. -/
theorem vmmMmapPdePage_cases {attr pde r : ℕ} {k' : Kernel}
    (h : k.vmmMmapPdePage fuel attr count pde = some (r, k')) :
    (k.vmmScan fuel count = some none ∧ r = 0 ∧ k' = k) ∨
    ∃ p kMapped, k.vmmScan fuel count = some (some p) ∧
      ((vmmMmapPdeLoop (add32 (sub32 p count) 1) attr pde count 0 k = (true, kMapped) ∧
          r = (kMapped.vmmTake p count).1 ∧ k' = (kMapped.vmmTake p count).2) ∨
        (vmmMmapPdeLoop (add32 (sub32 p count) 1) attr pde count 0 k = (false, kMapped) ∧ r = 0 ∧ k' = kMapped)) := by
  rw [vmmMmapPdePage_eq] at h
  exact vmmMapRun_cases h

theorem vmmMmapPdePage_rule {P : Kernel → Prop} {attr pde r : ℕ} {k' : Kernel} (hsame : P k)
    (hloop : ∀ head, P (vmmMmapPdeLoop head attr pde count 0 k).2)
    (htake : ∀ k₁ p, P k₁ → P (k₁.vmmTake p count).2)
    (hcall : k.vmmMmapPdePage fuel attr count pde = some (r, k')) : P k' := by
  rw [vmmMmapPdePage_eq] at hcall
  exact vmmMapRun_rule hsame hloop htake hcall

/-! ## vmm_mmap_page -/

/-- `vmm_mmap_page` takes the highest free page of the window at or below
`vmm_pos`, or finds none. -/
theorem vmmMmapLoop_cases (k : Kernel) (phyAttr p : ℕ) :
    k.vmmMmapLoop phyAttr p = (0, k) ∨
    ∃ q pte, 1 ≤ q ∧ q ≤ p ∧ k.getVmmPage q = 0 ∧
      k.vmmMmapLoop phyAttr p = (mul32 (k.getGloblPageIndex q) pageSize,
        { k with
          globlMmapPte := pte
          vmmFreePageCount := sub32 k.vmmFreePageCount 1
          vmmPos := q }) ∧
      (∀ x ≠ k.getGloblPageIndex q, pte x = k.globlMmapPte x) ∧
      (k.getGloblPageIndex q < globlPageNum →
        pte (k.getGloblPageIndex q) = setPage (phyAttr / pageSize * pageSize) pageKernel) := by
  induction p with
  | zero => exact .inl rfl
  | succ p ih =>
      rw [vmmMmapLoop]
      by_cases hfree : k.getVmmPage (p + 1) = 0
      · rw [if_pos hfree]
        obtain ⟨pte, hmmap, hframe, hset⟩ :=
          k.globlPageMmap_eq (phyAttr / pageSize) (k.getGloblPageIndex (p + 1))
        refine .inr ⟨p + 1, pte, by omega, le_rfl, hfree, ?_, hframe, hset⟩
        dsimp only
        rw [hmmap]
      · rw [if_neg hfree]
        rcases ih with hnone | ⟨q, pte, hq, hqp, hrest⟩
        · exact .inl hnone
        · exact .inr ⟨q, pte, hq, by omega, hrest⟩

/-! ## Releases -/

theorem vmmFreeLoop_eq (index count : ℕ) (k : Kernel) :
    ∃ pmm pte, vmmFreeLoop index count k = { k with pmm := pmm, globlMmapPte := pte } ∧
      pmm.pmmBitmapLength = k.pmm.pmmBitmapLength ∧
      ∀ x, (∀ j < count, x ≠ k.getGloblPageIndex (add32 index j)) → pte x = k.globlMmapPte x := by
  induction count with
  | zero => exact ⟨_, _, rfl, rfl, fun _ _ => rfl⟩
  | succ count ih =>
      obtain ⟨pmm, pte, hloop, hlen, hframe⟩ := ih
      rw [vmmFreeLoop, hloop]
      dsimp only
      obtain ⟨pte', hremove, hframe', -⟩ := globlPageRemove_eq
        { k with
          pmm := pmm.pmmFreePage (getVmmPage { k with pmm := pmm, globlMmapPte := pte }
            (add32 index count)) 1
          globlMmapPte := pte }
        (k.getGloblPageIndex (add32 index count))
      refine ⟨_, pte', hremove, by rw [Pmm.pmmFreePage_length, hlen], fun x hx => ?_⟩
      rw [hframe' x (hx count (Nat.lt_succ_self count))]
      exact hframe x fun j hj => hx j (by omega)

theorem vmmUmmapLoop_eq (index count : ℕ) (k : Kernel) :
    ∃ pte, vmmUmmapLoop index count k = { k with globlMmapPte := pte } ∧
      ∀ x, (∀ j < count, x ≠ k.getGloblPageIndex (add32 index j)) → pte x = k.globlMmapPte x := by
  induction count with
  | zero => exact ⟨_, rfl, fun _ _ => rfl⟩
  | succ count ih =>
      obtain ⟨pte, hloop, hframe⟩ := ih
      rw [vmmUmmapLoop, hloop]
      obtain ⟨pte', hremove, hframe', -⟩ :=
        globlPageRemove_eq { k with globlMmapPte := pte } (k.getGloblPageIndex (add32 index count))
      refine ⟨pte', hremove, fun x hx => ?_⟩
      rw [hframe' x (hx count (Nat.lt_succ_self count))]
      exact hframe x fun j hj => hx j (by omega)

/-! ## umm_mmap_kmm -/

/-- The window for a single page is a new page, or shows the page mapped there. -/
theorem ummMmapOne_cases {attr pde p : ℕ} {k' : Kernel}
    (h : k.ummMmapOne fuel attr pde = some (p, k')) :
    (∃ k₁, getPageAttr (k.getUmmValue attr pde) = 0 ∧ k.vmmAllocPage fuel 1 = some (p, k₁) ∧
      ((p ≠ 0 ∧ k' = (k₁.setUmmValue attr (setPage (k₁.getGloblPhyAttr p) pageUser) pde).2) ∨
        (p = 0 ∧ k' = k₁))) ∨
    (getPageAttr (k.getUmmValue attr pde) ≠ 0 ∧
      p = (k.vmmMmapPage (getPageAttr (k.getUmmValue attr pde))).1 ∧
      k' = (k.vmmMmapPage (getPageAttr (k.getUmmValue attr pde))).2) := by
  unfold ummMmapOne at h
  dsimp only at h
  by_cases hmapped : getPageAttr (k.getUmmValue attr pde) = 0
  · rw [if_pos hmapped] at h
    obtain ⟨⟨q, k₁⟩, halloc, hset⟩ := Option.map_eq_some_iff.1 h
    dsimp only at hset
    by_cases hq : q ≠ 0
    · rw [if_pos hq] at hset
      obtain ⟨rfl, hk⟩ := Prod.mk.inj hset
      exact .inl ⟨k₁, hmapped, halloc, .inl ⟨hq, hk.symm⟩⟩
    · rw [if_neg hq] at hset
      obtain ⟨rfl, hk⟩ := Prod.mk.inj hset
      exact .inl ⟨k₁, hmapped, halloc, .inr ⟨not_not.1 hq, hk.symm⟩⟩
  · rw [if_neg hmapped] at h
    have hpair := Option.some.inj h
    exact .inr ⟨hmapped, by rw [hpair], by rw [hpair]⟩

/-- `umm_mmap_kmm` refuses a range that ends above `PAGE_OFFSET`, or opens a window for
one page or for several. -/
theorem ummMmapKmm_cases {attr len pde r : ℕ} {k' : Kernel}
    (h : k.ummMmapKmm fuel attr len pde = some (r, k')) :
    (pageOffset < add32 attr len ∧ r = 0 ∧ k' = k) ∨
    ∃ p, add32 attr len ≤ pageOffset ∧ r = (if p = 0 then 0 else sub32 (add32 p attr) (pageBase attr)) ∧
      ((ummPageCount attr len = 1 ∧ k.ummMmapOne fuel (pageBase attr) pde = some (p, k')) ∨
        (ummPageCount attr len ≠ 1 ∧
          k.vmmMmapPdePage fuel (pageBase attr) (ummPageCount attr len) pde = some (p, k'))) := by
  unfold ummMmapKmm at h
  dsimp only at h
  by_cases hout : pageOffset < add32 attr len
  · rw [if_pos hout] at h
    have hpair := Prod.mk.inj (Option.some.inj h)
    exact .inl ⟨hout, hpair.1.symm, hpair.2.symm⟩
  · rw [if_neg hout] at h
    obtain ⟨⟨p, k₁⟩, hwindow, hreturn⟩ := Option.map_eq_some_iff.1 h
    dsimp only at hreturn
    have hpair : r = (if p = 0 then 0 else sub32 (add32 p attr) (pageBase attr)) ∧ k₁ = k' := by
      by_cases hp : p = 0
      · rw [if_pos hp] at hreturn ⊢
        exact ⟨(Prod.mk.inj hreturn).1.symm, (Prod.mk.inj hreturn).2⟩
      · rw [if_neg hp] at hreturn ⊢
        exact ⟨(Prod.mk.inj hreturn).1.symm, (Prod.mk.inj hreturn).2⟩
    obtain ⟨hr, rfl⟩ := hpair
    refine .inr ⟨p, Nat.le_of_not_lt hout, hr, ?_⟩
    by_cases hone : ummPageCount attr len = 1
    · rw [if_pos hone] at hwindow
      exact .inl ⟨hone, hwindow⟩
    · rw [if_neg hone] at hwindow
      exact .inr ⟨hone, hwindow⟩

/-- What the window of one page and the window of several keep, `umm_mmap_kmm` keeps. -/
theorem ummMmapKmm_rule {P : Kernel → Prop} {attr len pde r : ℕ} {k' : Kernel} (hsame : P k)
    (halloc : ∀ r k₁, k.vmmAllocPage fuel 1 = some (r, k₁) → P k₁)
    (hset : ∀ k₁ value, P k₁ → P (k₁.setUmmValue (pageBase attr) value pde).2)
    (hmmap : ∀ phyAttr, P (k.vmmMmapPage phyAttr).2)
    (hpde : ∀ r k₁,
      k.vmmMmapPdePage fuel (pageBase attr) (ummPageCount attr len) pde = some (r, k₁) → P k₁)
    (hcall : k.ummMmapKmm fuel attr len pde = some (r, k')) : P k' := by
  rcases ummMmapKmm_cases hcall with ⟨-, -, rfl⟩ | ⟨p, -, -, ⟨-, hone⟩ | ⟨-, hwindow⟩⟩
  · exact hsame
  · rcases ummMmapOne_cases hone with ⟨k₁, -, hpage, ⟨-, rfl⟩ | ⟨-, rfl⟩⟩ | ⟨-, -, rfl⟩
    · exact hset k₁ _ (halloc p k₁ hpage)
    · exact halloc p k' hpage
    · exact hmmap _
  · exact hpde p k' hwindow

/-! ## vmm_init -/

theorem vmmInitLoop_eq (count : ℕ) (k : Kernel) (hcount : count ≤ globlPageNum) :
    ∃ pte, vmmInitLoop count k = { k with globlMmapPte := pte } ∧
      (∀ x < count, pte x = setPage (x * pageSize) pageKernel) ∧
      ∀ x, count ≤ x → pte x = k.globlMmapPte x := by
  induction count with
  | zero => exact ⟨_, rfl, fun x hx => absurd hx (Nat.not_lt_zero x), fun _ _ => rfl⟩
  | succ count ih =>
      obtain ⟨pte, hloop, hbelow, habove⟩ := ih (by omega)
      obtain ⟨pte', hmmap, hframe, hset⟩ := globlPageMmap_eq { k with globlMmapPte := pte } count count
      refine ⟨pte', ?_, fun x hx => ?_, fun x hx => ?_⟩
      · rw [vmmInitLoop, hloop, hmmap]
      · by_cases heq : x = count
        · rw [heq]
          exact hset hcount
        · rw [hframe x heq]
          exact hbelow x (by omega)
      · rw [hframe x (by omega)]
        exact habove x (by omega)

/-- The state `vmm_init` leaves: the direct pages are mapped, the window is empty. -/
theorem vmmInit_eq (b : KernelBoot) (memory : Bitmap) (behind : ℕ → ℕ) (page : ℕ → ℕ → ℕ) :
    ∃ pte, vmmInit b memory behind page =
        { pmm := Pmm.pmmInit b.toBoot memory
          globlMmapPte := pte
          globlPtePage := b.globlPtePage
          dmmapPageCount := b.dmmapPageCount
          vmmapPageCount := globlPageNum - b.dmmapPageCount
          vmmFreePageCount := globlPageNum - b.dmmapPageCount
          vmmPos := globlPageNum - b.dmmapPageCount - 1
          page := page
          page_count := Nat.add_sub_cancel' (b.dmmapPageCount_le.trans (by decide)) } ∧
      (∀ x < b.dmmapPageCount, pte x = setPage (x * pageSize) pageKernel) ∧
      ∀ x, b.dmmapPageCount ≤ x → x < globlPageNum → pte x = 0 := by
  have hle := b.dmmapPageCount_le
  have hpos : sub32 (globlPageNum - b.dmmapPageCount) 1 = globlPageNum - b.dmmapPageCount - 1 :=
    sub32_of_le (by lia) (by lia)
  unfold vmmInit
  rw [hpos]
  obtain ⟨pte, hloop, hbelow, habove⟩ := vmmInitLoop_eq b.dmmapPageCount
    { pmm := Pmm.pmmInit b.toBoot memory
      globlMmapPte := fun i => if i < globlPteNum * pagePteIndex then 0 else behind i
      globlPtePage := b.globlPtePage
      dmmapPageCount := b.dmmapPageCount
      vmmapPageCount := globlPageNum - b.dmmapPageCount
      vmmFreePageCount := globlPageNum - b.dmmapPageCount
      vmmPos := globlPageNum - b.dmmapPageCount - 1
      page := page
      page_count := Nat.add_sub_cancel' (b.dmmapPageCount_le.trans (by decide)) } (by lia)
  refine ⟨pte, hloop, hbelow, fun x hx hlt => ?_⟩
  rw [habove x hx]
  exact if_pos hlt

section

variable (b : KernelBoot) (memory : Bitmap) (behind : ℕ → ℕ) (page : ℕ → ℕ → ℕ)

@[simp] theorem vmmInit_pmm : (vmmInit b memory behind page).pmm = Pmm.pmmInit b.toBoot memory := by
  obtain ⟨pte, hinit, -⟩ := vmmInit_eq b memory behind page
  rw [hinit]

@[simp] theorem vmmInit_dmmapPageCount :
    (vmmInit b memory behind page).dmmapPageCount = b.dmmapPageCount := by
  obtain ⟨pte, hinit, -⟩ := vmmInit_eq b memory behind page
  rw [hinit]

@[simp] theorem vmmInit_vmmapPageCount :
    (vmmInit b memory behind page).vmmapPageCount = globlPageNum - b.dmmapPageCount := by
  obtain ⟨pte, hinit, -⟩ := vmmInit_eq b memory behind page
  rw [hinit]

@[simp] theorem vmmInit_vmmPos :
    (vmmInit b memory behind page).vmmPos = globlPageNum - b.dmmapPageCount - 1 := by
  obtain ⟨pte, hinit, -⟩ := vmmInit_eq b memory behind page
  rw [hinit]

theorem getGloblPageAttr_vmmInit {i : ℕ} (hi : i < b.dmmapPageCount) :
    (vmmInit b memory behind page).getGloblPageAttr i = i * pageSize := by
  obtain ⟨pte, hinit, hdirect, -⟩ := vmmInit_eq b memory behind page
  have hentry : getPageAttr (pte i) = i * pageSize := by
    rw [hdirect i hi, getPageAttr_setPage, pageBase_mul]
  rw [hinit]
  exact hentry

theorem getVmmPage_vmmInit (index : ℕ) : (vmmInit b memory behind page).getVmmPage index = 0 := by
  obtain ⟨pte, hinit, -, hzero⟩ := vmmInit_eq b memory behind page
  rw [hinit]
  unfold getVmmPage
  by_cases hindex : index < globlPageNum - b.dmmapPageCount
  · rw [if_pos hindex, getGloblPageIndex_of_lt hindex, getGloblPageAttr]
    dsimp only
    rw [hzero _ (Nat.le_add_right _ _) (by omega), getPageAttr_zero]
  · rw [if_neg hindex]

/-- Right after `vmm_init` a scan settles at `vmm_pos`, and nowhere else. -/
theorem vmmSettles_vmmInit (count p : ℕ) : (vmmInit b memory behind page).VmmSettles count p ↔
    p = globlPageNum - b.dmmapPageCount - 1 := by
  have hle := b.dmmapPageCount_le
  have hrun : ∀ q, DownScan.RunFree 32 (vmmInit b memory behind page).vmmBusy count q :=
    fun q i _ => decide_eq_false (not_not.2 (getVmmPage_vmmInit b memory behind page _))
  have hhere : DownScan.below 32 (globlPageNum - b.dmmapPageCount - 1) 0 =
      globlPageNum - b.dmmapPageCount - 1 := DownScan.below_zero (by lia)
  unfold VmmSettles
  rw [vmmInit_vmmPos]
  constructor
  · rintro ⟨-, n, hp, -, hfirst, -⟩
    have hn : n = 0 := by
      by_contra hn
      exact hfirst 0 (by omega) (hrun _)
    rw [hp, hn, hhere]
  · intro hp
    refine ⟨by lia, 0, hp.trans hhere.symm, hrun p, fun d hd => absurd hd (Nat.not_lt_zero d), .inl ?_⟩
    lia

end

end Kernel

end BitchKernel
