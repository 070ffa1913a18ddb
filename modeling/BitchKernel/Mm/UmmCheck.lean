import BitchKernel.Mm.UmmWindow

/-!
# The range check of a user pointer

`sys_get`, `sys_put` and `sys_exec` take an address and a length from the user and hand
them to `umm_mmap_kmm`, which compares the sum of the two, as a word, with `PAGE_OFFSET`.
A pair whose sum wraps round to a value below `PAGE_OFFSET` passes the check, and gets a
window wherever the pages can be had.
-/

namespace BitchKernel

open Lib

namespace Kernel

/-- The loop of `vmm_mmap_pde_page` goes through in a directory that has a page at every
address of the range, whatever the window holds. -/
theorem vmmMmapPdeLoop_mapped_everywhere {k : Kernel} {phyAttr pde : ℕ} (hphy : phyAttr ≠ 0)
    (hpage : ∀ attr pte, pdePage { k with globlMmapPte := pte } attr pde =
      (phyAttr, { k with globlMmapPte := pte })) (head attr rem i : ℕ) (pte : ℕ → ℕ) :
    ∃ pte', vmmMmapPdeLoop head attr pde rem i { k with globlMmapPte := pte } =
      (true, { k with globlMmapPte := pte' }) := by
  induction rem generalizing i pte with
  | zero => exact ⟨pte, rfl⟩
  | succ rem ih =>
      obtain ⟨pte', hmmap, -⟩ := globlPageMmap_eq { k with globlMmapPte := pte } (phyAttr / pageSize)
        (k.getGloblPageIndex (add32 head i))
      obtain ⟨pteEnd, hrest⟩ := ih (i + 1) pte'
      refine ⟨pteEnd, ?_⟩
      rw [vmmMmapPdeLoop, hpage]
      dsimp only
      rw [if_pos hphy]
      exact (congrArg (vmmMmapPdeLoop head attr pde rem (i + 1)) hmmap).trans hrest

/-- In a directory whose pages are all mapped a range that passes the check gets a window, when
the scan settles at a run whose address is not `NULL`. -/
theorem ummMmapKmm_mapped_everywhere {k : Kernel} {phyAttr pde attr len p : ℕ} (hphy : phyAttr ≠ 0)
    (hpage : ∀ attr pte, pdePage { k with globlMmapPte := pte } attr pde =
      (phyAttr, { k with globlMmapPte := pte }))
    (hattr : attr < 2 ^ 32) (hin : add32 attr len ≤ pageOffset) (hmany : ummPageCount attr len ≠ 1)
    (hpos : k.vmmPos < 2 ^ 32) (hsettles : k.VmmSettles (ummPageCount attr len) p)
    (haddress : k.windowAddress p (ummPageCount attr len) ≠ 0) :
    ∃ r k', k.Returns (.ummMmapKmm attr len pde) r k' ∧ r ≠ 0 := by
  obtain ⟨fuel, hscan⟩ := exists_scan_of_vmmSettles hpos
    (Nat.lt_of_lt_of_le (Owned.ummPageCount_lt attr len) (by decide)) hsettles
  obtain ⟨pte, hloop⟩ := vmmMmapPdeLoop_mapped_everywhere hphy hpage
    (add32 (sub32 p (ummPageCount attr len)) 1) (pageBase attr) (ummPageCount attr len) 0 k.globlMmapPte
  obtain ⟨first, hfirst, hlt⟩ : ∃ first,
      k.windowAddress p (ummPageCount attr len) = first * pageSize ∧ first < 2 ^ 20 := by
    refine ⟨k.getGloblPageIndex (add32 (sub32 p (ummPageCount attr len)) 1) % 2 ^ 20, ?_, by omega⟩
    rw [windowAddress, mul32_eq]
    lia
  have hreturn := Tabled.windowReturn_eq hattr hlt
  rw [← hfirst] at hreturn
  have hwindow : k.vmmMmapPdePage fuel (pageBase attr) (ummPageCount attr len) pde =
      some (k.windowAddress p (ummPageCount attr len),
        (vmmTake { k with globlMmapPte := pte } p (ummPageCount attr len)).2) := by
    unfold vmmMmapPdePage
    rw [hscan, Option.map_some]
    dsimp only
    simp only [hloop]
    rfl
  have hcall : ∃ k', k.ummMmapKmm fuel attr len pde =
      some (sub32 (add32 (k.windowAddress p (ummPageCount attr len)) attr) (pageBase attr), k') := by
    unfold ummMmapKmm
    dsimp only
    rw [if_neg (Nat.not_lt_of_le hin), if_neg hmany, hwindow, Option.map_some]
    dsimp only
    rw [if_neg haddress]
    exact ⟨_, rfl⟩
  obtain ⟨k', hcall⟩ := hcall
  refine ⟨_, k', ⟨fuel, hcall⟩, ?_⟩
  rw [hreturn]
  omega

/-- On a machine whose pages all hold an entry for the page 1, the page 0 is a directory
whose pages are all mapped. -/
theorem getUmmValue_of_page {k : Kernel} (hpage : k.page = fun _ _ => 0x1007) (hpte : 1 < k.globlPtePage)
    (attr : ℕ) : k.getUmmValue attr 0 = 0x1007 := by
  have hword : ∀ table i, table / pageSize < k.globlPtePage → k.loadWord table i = 0x1007 := by
    intro table i hlt
    unfold loadWord
    rw [if_neg (by omega), hpage]
  unfold getUmmValue
  dsimp only
  rw [hword 0 _ (by lia), if_neg (by decide), hword _ _ (by unfold getPageAttr; lia)]

theorem pdePage_of_page {k : Kernel} (hpage : k.page = fun _ _ => 0x1007) (hpte : 1 < k.globlPtePage)
    (attr : ℕ) (pte : ℕ → ℕ) :
    pdePage { k with globlMmapPte := pte } attr 0 = (0x1000, { k with globlMmapPte := pte }) := by
  have hphy : getPageAttr 0x1007 = 0x1000 := by decide
  unfold pdePage
  dsimp only
  rw [getUmmValue_of_page (k := { k with globlMmapPte := pte }) hpage hpte, hphy, if_neg (by decide)]

/-- A scan for more pages than the window holds, from a busy page on, settles below it:
the run goes on past the start of the window, where every index counts as free. -/
theorem vmmSettles_below_busy {k : Kernel} {count : ℕ} (hpos : 1 < k.vmmPos) (hlt : k.vmmPos < 2 ^ 32)
    (hcount : 0 < count) (hbusy : k.getVmmPage k.vmmPos ≠ 0)
    (hfree : ∀ index ≠ k.vmmPos, k.getVmmPage index = 0) (hlen : count + k.vmmPos < 2 ^ 32) :
    k.VmmSettles count (k.vmmPos - 1) := by
  have hbelow : DownScan.below 32 k.vmmPos 1 = k.vmmPos - 1 := DownScan.below_of_le hlt (by omega)
  refine ⟨by omega, 1, hbelow.symm, fun i hi => ?_, fun d hd hrun => ?_, .inl hpos⟩
  · refine decide_eq_false (not_not.2 (hfree _ fun heq => ?_))
    rw [← DownScan.sub_eq_below (by omega) (by omega)] at heq
    rcases Nat.lt_or_ge (k.vmmPos - 1) i with hwrap | hle
    · rw [Word.sub_of_lt hwrap (by omega)] at heq
      omega
    · rw [Word.sub_of_le hle (by omega)] at heq
      omega
  · obtain rfl : d = 0 := by omega
    have hhere := hrun 0 hcount
    rw [DownScan.below_zero hlt, DownScan.below_zero hlt] at hhere
    exact of_decide_eq_false hhere hbusy

theorem vmmMmapPage_empty {k : Kernel} (hfree : ∀ index, k.getVmmPage index = 0) {f p : ℕ}
    (hdirect : k.dmmapPageCount ≤ f) (hf : f ≠ 0) (hpos : k.vmmPos = p + 1)
    (hlt : p + 1 < k.vmmapPageCount) :
    ∃ pte count r, k.vmmMmapPage (f * pageSize) = (r,
        { k with globlMmapPte := pte, vmmFreePageCount := count, vmmPos := p + 1 }) ∧
      getVmmPage { k with globlMmapPte := pte, vmmFreePageCount := count, vmmPos := p + 1 } (p + 1) ≠ 0 ∧
      ∀ index ≠ p + 1,
        getVmmPage { k with globlMmapPte := pte, vmmFreePageCount := count, vmmPos := p + 1 } index = 0 := by
  have hpages := k.page_count
  obtain ⟨pte, hmmap, hframe, hset⟩ := k.globlPageMmap_eq f (k.getGloblPageIndex (p + 1))
  have hindex := getGloblPageIndex_of_lt hlt
  have hphy : f * pageSize / pageSize = f := Nat.mul_div_cancel f (by decide)
  refine ⟨pte, sub32 k.vmmFreePageCount 1, mul32 (k.getGloblPageIndex (p + 1)) pageSize, ?_, ?_, ?_⟩
  · unfold vmmMmapPage
    rw [hphy, if_neg (by omega), hpos, vmmMmapLoop, if_pos (hfree _), hphy]
    dsimp only
    rw [hmmap]
  · unfold getVmmPage
    rw [if_pos hlt]
    have hentry : getPageAttr (pte (k.getGloblPageIndex (p + 1))) ≠ 0 := by
      rw [hset (by omega)]
      exact getPageAttr_kernelPage hf
    exact hentry
  · intro index hindex'
    have hzero := hfree index
    unfold getVmmPage at hzero ⊢
    dsimp only
    by_cases hin : index < k.vmmapPageCount
    · rw [if_pos hin] at hzero ⊢
      have hne : k.getGloblPageIndex index ≠ k.getGloblPageIndex (p + 1) := by
        rw [hindex, getGloblPageIndex_of_lt hin]
        omega
      exact (congrArg getPageAttr (hframe _ hne)).trans hzero
    · rw [if_neg hin]

theorem windowAddress_ne_zero {k : Kernel} {count p : ℕ} (hcount : count < 2 ^ 20)
    (hpages : k.dmmapPageCount + p + 1 < 2 ^ 20) (hne : k.dmmapPageCount + p + 1 ≠ count) :
    k.windowAddress p count ≠ 0 := by
  obtain ⟨i, hi, hindex⟩ : ∃ i, i % 2 ^ 20 ≠ 0 ∧ k.getGloblPageIndex (add32 (sub32 p count) 1) = i := by
    refine ⟨_, ?_, rfl⟩
    unfold getGloblPageIndex
    rcases Nat.lt_or_ge (p + 1) count with hwrap | hle
    · rw [sub32, Word.sub_of_lt (by omega) (by omega), add32_of_lt (a := p + 2 ^ 32 - count) (by omega),
        add32_eq]
      omega
    · rw [add32_sub32_of_lt hle (by omega) (by omega), add32_of_lt (by omega)]
      omega
  rw [windowAddress, hindex, mul32_eq]
  lia

theorem exists_window {attr len : ℕ} (hattr : attr < 2 ^ 32) (hin : add32 attr len ≤ pageOffset) :
    ∃ b k pde r k', (memMachine b).Reachable k ∧ k.Returns (.ummMmapKmm attr len pde) r k' ∧ r ≠ 0 := by
  have hdirect : tinyBoot.dmmapPageCount = 451 := by decide
  obtain ⟨k, hk⟩ : ∃ k, vmmInit tinyBoot (fun _ => 0) (fun _ => 0) (fun _ _ => 0x1007) = k := ⟨_, rfl⟩
  have hreach : (memMachine tinyBoot).Reachable k := .init ⟨_, _, _, hk.symm⟩
  have hsettles := vmmSettles_vmmInit tinyBoot (fun _ => 0) (fun _ => 0) fun _ _ => 0x1007
  have hdmmap := vmmInit_dmmapPageCount tinyBoot (fun _ => 0) (fun _ => 0) fun _ _ => 0x1007
  have hpos := vmmInit_vmmPos tinyBoot (fun _ => 0) (fun _ => 0) fun _ _ => 0x1007
  have hfree := getVmmPage_vmmInit tinyBoot (fun _ => 0) (fun _ => 0) fun _ _ => 0x1007
  have hpage : k.page = (fun _ _ => 0x1007) ∧ k.globlPtePage = 0x100 := by
    obtain ⟨pte, hinit, -⟩ := vmmInit_eq tinyBoot (fun _ => 0) (fun _ => 0) fun _ _ => 0x1007
    rw [← hk, hinit]
    exact ⟨rfl, rfl⟩
  rw [hk] at hsettles hdmmap hpos hfree
  rw [hdirect] at hsettles hdmmap hpos
  have hpte : 1 < k.globlPtePage := by
    rw [hpage.2]
    decide
  have hlen := Owned.ummPageCount_lt attr len
  by_cases hone : ummPageCount attr len = 1
  · have hphy : getPageAttr 0x1007 = 0x1000 := by decide
    have hreturn := Tabled.windowReturn_eq hattr (by decide : 1 < 2 ^ 20)
    refine ⟨tinyBoot, k, 0, sub32 (add32 (1 * pageSize) attr) (pageBase attr), k, hreach, ⟨0, ?_⟩, ?_⟩
    · unfold ummMmapKmm ummMmapOne vmmMmapPage
      dsimp only
      rw [if_neg (Nat.not_lt_of_le hin), if_pos hone, getUmmValue_of_page hpage.1 hpte, hphy,
        if_neg (by decide), if_pos (by rw [hdmmap]; decide), Option.map_some]
      rfl
    · rw [hreturn]
      lia
  by_cases hcount : ummPageCount attr len = globlPageNum
  · -- the run that ends at `vmm_pos` would have the address 0
    obtain ⟨p, hp⟩ : ∃ p, k.vmmPos = p + 1 := ⟨196155, hpos⟩
    have hpages := k.page_count
    obtain ⟨pte, count, r₁, hcall, hbusy, hrest⟩ := vmmMmapPage_empty (f := 451) hfree (by rw [hdmmap])
      (by decide) hp (by lia)
    have hstep : (memMachine tinyBoot).Reachable
        { k with globlMmapPte := pte, vmmFreePageCount := count, vmmPos := p + 1 } :=
      .step (a := .vmmMmapPage (451 * pageSize)) hreach
        ⟨r₁, congrArg Prod.fst hcall.symm, congrArg Prod.snd hcall.symm⟩
    obtain rfl : p = 196155 := by lia
    obtain ⟨r, k', hreturns, hr⟩ := ummMmapKmm_mapped_everywhere
      (k := { k with globlMmapPte := pte, vmmFreePageCount := count, vmmPos := 196155 + 1 }) (by decide)
      (fun attr pte' => pdePage_of_page (k := { k with
        globlMmapPte := pte, vmmFreePageCount := count, vmmPos := 196155 + 1 }) hpage.1 hpte attr pte')
      hattr hin hone (by decide : 196155 + 1 < 2 ^ 32)
      (vmmSettles_below_busy (by decide : 1 < 196155 + 1) (by decide : 196155 + 1 < 2 ^ 32)
        (by rw [hcount]; decide) hbusy hrest (by rw [hcount]; decide : _ + (196155 + 1) < 2 ^ 32))
      (windowAddress_ne_zero hlen (by lia) (by lia))
    exact ⟨tinyBoot, _, 0, r, k', hstep, hreturns, hr⟩
  · obtain ⟨r, k', hcall, hr⟩ := ummMmapKmm_mapped_everywhere (by decide) (pdePage_of_page hpage.1 hpte) hattr
      hin hone (by rw [hpos]; decide) ((hsettles _ _).2 rfl)
      (windowAddress_ne_zero hlen (by rw [hdmmap]; decide) (by rw [hdmmap]; lia))
    exact ⟨tinyBoot, k, 0, r, k', hreach, hcall, hr⟩

end Kernel

/-- **When the range check is right.** For every address and length: on every machine, in
every reachable state and for every directory, `umm_mmap_kmm` returns a window only for a
range that ends, computed without wrapping, at or below `PAGE_OFFSET`, if and only if the
sum does not wrap or the wrapped sum is still above `PAGE_OFFSET`. -/
theorem user_range_checked_iff {attr len : ℕ} (hattr : attr < 2 ^ 32) :
    (∀ b k pde r k', (memMachine b).Reachable k → k.Returns (.ummMmapKmm attr len pde) r k' →
      r ≠ 0 → attr + len ≤ pageOffset) ↔
    attr + len < 2 ^ 32 ∨ pageOffset < (attr + len) % 2 ^ 32 := by
  have hsum : add32 attr len = (attr + len) % 2 ^ 32 := add32_eq attr len
  constructor
  · intro hchecked
    by_contra hnot
    push Not at hnot
    obtain ⟨b, k, pde, r, k', hk, hcall, hr⟩ := Kernel.exists_window hattr (hsum ▸ hnot.2)
    have hin := hchecked b k pde r k' hk hcall hr
    lia
  · rintro hcond b k pde r k' - ⟨fuel, hcall⟩ hr
    rcases Kernel.ummMmapKmm_cases hcall with ⟨-, hzero, -⟩ | ⟨p, hin, -⟩
    · exact absurd hzero hr
    rw [hsum] at hin
    rcases hcond with hlt | hout
    · rwa [Nat.mod_eq_of_lt hlt] at hin
    · omega

section Example

open Kernel

/-- The last page of the address space, whose end wraps to 0, gets a window on a real
directory. -/
theorem user_range_unchecked : ∃ s, (ummMachine smallBoot).Reachable s ∧ ∃ d ∈ s.live, ∃ attr < 2 ^ 32,
    ∃ len < 2 ^ 32, ∃ r k', s.kernel.Returns (.ummMmapKmm attr len (d * pageSize)) r k' ∧ r ≠ 0 ∧
      ¬ attr + len ≤ pageOffset := by
  obtain ⟨hbase, hcount, hdmmap⟩ := smallBoot_pages
  have hreach := pdeRun_reachable (b := smallBoot) (by rw [hbase, hcount]; decide)
    (by rw [hbase, hdmmap]; decide)
  have h := (Owned.of_reachable hreach).toTabled
  have hd : smallBoot.memBasePage ∈ (pdeRun smallBoot).live := Finset.mem_singleton_self _
  obtain ⟨pmm, -, heq⟩ := ummAllocPde_vmmInit (b := smallBoot) (by rw [hbase, hcount]; decide)
    (by rw [hbase, hdmmap]; decide)
  have hempty : (pdeRun smallBoot).kernel.loadWord (smallBoot.memBasePage * pageSize) 0x3ff = 0 := by
    rw [h.loadWord_dir hd, pdeRun, heq]
    dsimp only
    rw [Function.update_self]
    exact if_neg (by decide)
  have hunmapped : (pdeRun smallBoot).kernel.getUmmValue (pageBase 0xfffff000)
      (smallBoot.memBasePage * pageSize) = 0 := by
    have hindex : pdeIndex (pageBase 0xfffff000) = 0x3ff := by decide
    unfold getUmmValue
    rw [hindex]
    exact if_pos hempty
  obtain ⟨r, k', hr, hcall⟩ := pdeRun_window_one (b := smallBoot) (by rw [hbase, hcount]; decide)
    (by rw [hbase, hdmmap]; decide) (by decide)
    (by with_unfolding_all decide : add32 0xfffff000 0x1000 ≤ pageOffset) (by with_unfolding_all decide) hunmapped
  exact ⟨_, hreach.of_restrict, _, hd, 0xfffff000, by decide, 0x1000, by decide, r, k', hcall, hr, by decide⟩

/-- The last page below `PAGE_OFFSET` is checked rightly, on every machine. -/
theorem user_range_checked_last_page : 0xbffff000 + 0x1000 < 2 ^ 32 ∧
    ∀ b k pde r k', (memMachine b).Reachable k → k.Returns (.ummMmapKmm 0xbffff000 0x1000 pde) r k' →
      r ≠ 0 → 0xbffff000 + 0x1000 ≤ pageOffset :=
  ⟨by decide, (user_range_checked_iff (by decide)).2 (.inl (by decide))⟩

end Example

end BitchKernel
