import BitchKernel.Arch.Paging

/-!
# The half of the kernel

The entries of a directory above `PAGE_OFFSET` are those of `kernel_mmap_pde`: `umm_alloc_pde`
copies them and no call writes them afterwards. What the page tables behind them show may
change, and changes for all directories at once. Each of these entries, and each entry of
`globl_mmap_pte`, lets the kernel through and no process.
-/

namespace BitchKernel

open Lib

namespace Kernel

/-- The words of the live directories above `PAGE_OFFSET` are as they were. -/
def KeepsHigh (k k' : Kernel) (live : Finset ℕ) : Prop :=
  ∀ d ∈ live, ∀ m, pdeIndex pageOffset ≤ m → k'.page d m = k.page d m

/-- Each live directory has the entries of `kernel_mmap_pde` above `PAGE_OFFSET`. -/
def SharesHigh (k : Kernel) (live : Finset ℕ) : Prop :=
  ∀ d ∈ live, ∀ m, pdeIndex pageOffset ≤ m → k.page d m = k.kernelMmapPde m

/-- An entry of `globl_mmap_pte` is empty or names a page of the kernel. -/
def KernelEntries (k : Kernel) : Prop :=
  ∀ x < globlPageNum, k.globlMmapPte x = 0 ∨ ∃ f, k.globlMmapPte x = setPage (f * pageSize) pageKernel

namespace KeepsHigh

variable {k k₁ k₂ : Kernel} {live : Finset ℕ}

theorem of_page_eq (h : k₁.page = k.page) : KeepsHigh k k₁ live := by
  intro d _ m _
  rw [h]

theorem trans (h₁ : KeepsHigh k k₁ live) (h₂ : KeepsHigh k₁ k₂ live) : KeepsHigh k k₂ live :=
  fun d hd m hm => (h₂ d hd m hm).trans (h₁ d hd m hm)

end KeepsHigh

namespace KernelEntries

variable {k k' : Kernel}

theorem of_pte_eq (h : k.KernelEntries) (hpte : k'.globlMmapPte = k.globlMmapPte) : k'.KernelEntries := by
  unfold KernelEntries
  rw [hpte]
  exact h

theorem globlPageMmap (h : k.KernelEntries) (f g : ℕ) : (k.globlPageMmap f g).KernelEntries := by
  obtain ⟨pte, heq, hframe, hset⟩ := k.globlPageMmap_eq f g
  rw [heq]
  intro x hx
  dsimp only
  by_cases hg : x = g
  · rw [hg]
    exact .inr ⟨f, hset (hg ▸ hx)⟩
  · rw [hframe x hg]
    exact h x hx

theorem globlPageRemove (h : k.KernelEntries) (g : ℕ) : (k.globlPageRemove g).KernelEntries := by
  obtain ⟨pte, heq, hframe, hzero⟩ := k.globlPageRemove_eq g
  rw [heq]
  intro x hx
  dsimp only
  by_cases hg : x = g
  · rw [hg]
    exact .inl (hzero (hg ▸ hx))
  · rw [hframe x hg]
    exact h x hx

theorem vmmTake (h : k.KernelEntries) (p count : ℕ) : (k.vmmTake p count).2.KernelEntries :=
  h.of_pte_eq rfl

theorem vmmAllocUndo (h : k.KernelEntries) (head i : ℕ) : (Kernel.vmmAllocUndo head i k).KernelEntries := by
  induction i generalizing k with
  | zero => exact h
  | succ i ih => exact ih (KernelEntries.of_pte_eq (h.globlPageRemove _) rfl)

theorem vmmAllocLoop (h : k.KernelEntries) (head rem i : ℕ) :
    (Kernel.vmmAllocLoop head rem i k).2.KernelEntries := by
  induction rem generalizing i k with
  | zero => exact h
  | succ rem ih =>
      have htaken : KernelEntries { k with pmm := k.pmm.pmmAllocPage.2 } := h.of_pte_eq rfl
      rw [Kernel.vmmAllocLoop]
      dsimp only
      split
      · exact ih (htaken.globlPageMmap _ _) (i + 1)
      · exact htaken.vmmAllocUndo head i

theorem vmmAllocPage (h : k.KernelEntries) {fuel count r : ℕ}
    (hcall : k.vmmAllocPage fuel count = some (r, k')) : k'.KernelEntries :=
  vmmAllocPage_rule (P := KernelEntries) h (fun head => h.vmmAllocLoop head count 0)
    (fun _ p hk => hk.vmmTake p count) hcall

theorem setUmmValue (h : k.KernelEntries) (attr value pde : ℕ) :
    (k.setUmmValue attr value pde).2.KernelEntries := by
  obtain ⟨r, pmm, page, hset, -⟩ := k.setUmmValue_eq attr value pde
  rw [hset]
  exact h.of_pte_eq rfl

theorem vmmMmapPage (h : k.KernelEntries) (phyAttr : ℕ) : (k.vmmMmapPage phyAttr).2.KernelEntries := by
  unfold Kernel.vmmMmapPage
  split
  · exact h
  · generalize k.vmmPos = p
    induction p with
    | zero => exact h
    | succ p ih =>
        rw [vmmMmapLoop]
        split
        · exact KernelEntries.of_pte_eq (h.globlPageMmap _ _) rfl
        · exact ih

theorem vmmMmapPdeUndo (h : k.KernelEntries) (head i : ℕ) :
    (Kernel.vmmMmapPdeUndo head i k).KernelEntries := by
  induction i generalizing k with
  | zero => exact h
  | succ i ih => exact ih (h.globlPageRemove _)

theorem vmmMmapPdeLoop (h : k.KernelEntries) (head attr pde rem i : ℕ) :
    (Kernel.vmmMmapPdeLoop head attr pde rem i k).2.KernelEntries := by
  induction rem generalizing i k with
  | zero => exact h
  | succ rem ih =>
      obtain ⟨r, pmm, page, hpage, -⟩ := k.pdePage_eq (add32 attr (mul32 i pageSize)) pde
      have hshown : KernelEntries { k with pmm := pmm, page := page } := h.of_pte_eq rfl
      rw [Kernel.vmmMmapPdeLoop, hpage]
      dsimp only
      split
      · exact ih (hshown.globlPageMmap _ _) (i + 1)
      · exact hshown.vmmMmapPdeUndo head i

theorem vmmMmapPdePage (h : k.KernelEntries) {fuel attr count pde r : ℕ}
    (hcall : k.vmmMmapPdePage fuel attr count pde = some (r, k')) : k'.KernelEntries :=
  vmmMmapPdePage_rule (P := KernelEntries) h (fun head => h.vmmMmapPdeLoop head attr pde count 0)
    (fun _ p hk => hk.vmmTake p count) hcall

theorem ummMmapKmm (h : k.KernelEntries) {fuel attr len pde r : ℕ}
    (hcall : k.ummMmapKmm fuel attr len pde = some (r, k')) : k'.KernelEntries :=
  ummMmapKmm_rule (P := KernelEntries) h (fun _ _ halloc => h.vmmAllocPage halloc)
    (fun _ _ hk => hk.setUmmValue _ _ _) h.vmmMmapPage (fun _ _ hpde => h.vmmMmapPdePage hpde) hcall

theorem dmmFreePage (h : k.KernelEntries) (attr count : ℕ) : (k.dmmFreePage attr count).KernelEntries :=
  h.of_pte_eq rfl

theorem vmmFreeLoop (h : k.KernelEntries) (index count : ℕ) :
    (Kernel.vmmFreeLoop index count k).KernelEntries := by
  induction count with
  | zero => exact h
  | succ count ih =>
      have hfreed : KernelEntries { Kernel.vmmFreeLoop index count k with
          pmm := (Kernel.vmmFreeLoop index count k).pmm.pmmFreePage
            ((Kernel.vmmFreeLoop index count k).getVmmPage (add32 index count)) 1 } := ih.of_pte_eq rfl
      exact hfreed.globlPageRemove _

theorem vmmUmmapLoop (h : k.KernelEntries) (index count : ℕ) :
    (Kernel.vmmUmmapLoop index count k).KernelEntries := by
  induction count with
  | zero => exact h
  | succ count ih => exact ih.globlPageRemove _

theorem raiseVmmPos (h : k.KernelEntries) (index count : ℕ) :
    (k.raiseVmmPos index count).KernelEntries := by
  unfold Kernel.raiseVmmPos
  dsimp only
  split
  · exact h.of_pte_eq rfl
  · exact h

theorem vmmFreePage (h : k.KernelEntries) (attr count : ℕ) : (k.vmmFreePage attr count).KernelEntries := by
  unfold Kernel.vmmFreePage
  dsimp only
  split
  · exact h.of_pte_eq rfl
  · split
    · exact KernelEntries.of_pte_eq ((h.vmmFreeLoop _ count).raiseVmmPos _ count) rfl
    · exact h.of_pte_eq rfl

theorem vmmUmmapPage (h : k.KernelEntries) (attr count : ℕ) :
    (k.vmmUmmapPage attr count).KernelEntries := by
  unfold Kernel.vmmUmmapPage
  dsimp only
  split
  · split
    · exact KernelEntries.of_pte_eq ((h.vmmUmmapLoop _ count).raiseVmmPos _ count) rfl
    · exact h.of_pte_eq rfl
  · exact h

theorem ummHandler (h : k.KernelEntries) (attr pde : ℕ) : (k.ummHandler attr pde).2.KernelEntries := by
  have htaken : KernelEntries { k with pmm := k.pmm.pmmAllocPage.2 } := h.of_pte_eq rfl
  have hset := htaken.setUmmValue attr (setPage k.pmm.pmmAllocPage.1 pageUser) pde
  unfold Kernel.ummHandler
  dsimp only
  split
  · exact htaken
  · split
    · exact hset.of_pte_eq rfl
    · exact hset

theorem ummAllocPde (h : k.KernelEntries) : k.ummAllocPde.2.KernelEntries := by
  obtain ⟨pde, pmm, halloc, -⟩ := k.dmmAllocPage_eq 1
  unfold Kernel.ummAllocPde
  rw [halloc]
  dsimp only
  split
  · exact h.of_pte_eq rfl
  · exact h.of_pte_eq rfl

theorem ummFreeTable (h : k.KernelEntries) (pte n : ℕ) : (Kernel.ummFreeTable pte n k).KernelEntries := by
  induction n with
  | zero => exact h
  | succ n ih =>
      rw [Kernel.ummFreeTable]
      split
      · exact ih.of_pte_eq rfl
      · exact ih

theorem ummFree (h : k.KernelEntries) (pde : ℕ) : (k.ummFree pde).KernelEntries := by
  have hloop : ∀ m, (ummFreeLoop pde m k).KernelEntries := by
    intro m
    induction m with
    | zero => exact h
    | succ m ih =>
        rw [ummFreeLoop]
        split
        · exact (ih.ummFreeTable _ pagePteIndex).dmmFreePage _ 1
        · exact ih
  exact (hloop _).dmmFreePage pde 1

theorem of_returns (h : k.KernelEntries) {call : MemCall} {r : ℕ} (hcall : k.Returns call r k') :
    k'.KernelEntries := by
  cases call with
  | vmmAllocPage count =>
      obtain ⟨fuel, hcall⟩ := hcall
      exact h.vmmAllocPage hcall
  | vmmFreePage attr count => exact hcall.2 ▸ h.vmmFreePage attr count
  | vmmMmapPage phyAttr => exact hcall.2 ▸ h.vmmMmapPage phyAttr
  | vmmMmapPdePage attr count pde =>
      obtain ⟨fuel, hcall⟩ := hcall
      exact h.vmmMmapPdePage hcall
  | vmmUmmapPage attr count => exact hcall.2 ▸ h.vmmUmmapPage attr count
  | dmmAllocPage count =>
      obtain ⟨r', pmm, halloc, -⟩ := k.dmmAllocPage_eq count
      rw [Returns, halloc] at hcall
      exact hcall.2 ▸ h.of_pte_eq rfl
  | dmmFreePage attr count => exact hcall.2 ▸ h.dmmFreePage attr count
  | ummAllocPde => exact hcall.2 ▸ h.ummAllocPde
  | ummHandler attr pde => exact hcall.2 ▸ h.ummHandler attr pde
  | ummMmapKmm attr len pde =>
      obtain ⟨fuel, hcall⟩ := hcall
      exact h.ummMmapKmm hcall
  | ummUmmapKmm attr len => exact hcall.2 ▸ h.vmmUmmapPage (pageBase attr) (ummPageCount attr len)
  | ummFree pde => exact hcall.2 ▸ h.ummFree pde
  | store table words => exact hcall.2 ▸ h.of_pte_eq rfl

theorem vmmInit (b : KernelBoot) (memory : Bitmap) (behind : ℕ → ℕ) (page : ℕ → ℕ → ℕ) :
    (Kernel.vmmInit b memory behind page).KernelEntries := by
  have hloop : ∀ count (k : Kernel), k.KernelEntries → (vmmInitLoop count k).KernelEntries := by
    intro count k hk
    induction count with
    | zero => exact hk
    | succ count ih => exact ih.globlPageMmap count count
  refine hloop _ _ fun x hx => .inl ?_
  exact if_pos hx

end KernelEntries

theorem ummAllocPde_page (k : Kernel) :
    (k.ummAllocPde.1 = 0 ∧ k.ummAllocPde.2.page = k.page) ∨ (k.ummAllocPde.1 ≠ 0 ∧
      k.ummAllocPde.2.page = Function.update k.page (k.ummAllocPde.1 / pageSize) k.kernelMmapPde) := by
  obtain ⟨pde, pmm, halloc, -⟩ := k.dmmAllocPage_eq 1
  unfold ummAllocPde
  rw [halloc]
  dsimp only
  by_cases hpde : pde = 0
  · rw [if_pos hpde]
    exact .inl ⟨rfl, rfl⟩
  · rw [if_neg hpde]
    exact .inr ⟨hpde, rfl⟩

end Kernel

namespace Tabled

variable {b : KernelBoot} {k k' : Kernel} {live : Finset ℕ} {d : ℕ}

/-! ## What the calls do above PAGE_OFFSET -/

theorem ummTable_keepsHigh (h : Tabled b k live) {attr : ℕ} (hattr : attr < pageOffset) :
    k.KeepsHigh (k.ummTable attr (d * pageSize)).2 live := by
  have hm := pdeIndex_lt hattr
  unfold Kernel.ummTable
  dsimp only
  split
  · rcases h.dmmAllocPage with ⟨pmm, halloc, -⟩ | ⟨t, ht, pmm, halloc, -⟩
    · rw [halloc, if_pos rfl]
      exact .of_page_eq rfl
    · rw [halloc]
      dsimp only
      rw [if_neg (Boot.mul_pageSize_ne_zero (h.sound.mem_arena ht))]
      intro d' hd' m hhigh
      have htd : d' ≠ t := by
        rintro rfl
        exact h.unnamed_of_free ht (.dir d') trivial ⟨hd', rfl⟩
      unfold Kernel.storeWord Kernel.storePage
      dsimp only
      rw [Nat.mul_div_cancel _ (by decide), Nat.mul_div_cancel _ (by decide)]
      by_cases heq : d' = d
      · rw [heq, Function.update_self, Function.update_of_ne (by omega),
          Function.update_of_ne (heq ▸ htd)]
      · rw [Function.update_of_ne heq, Function.update_of_ne htd]
  · exact .of_page_eq rfl

/-- Writing an entry of a page table leaves the directories alone. -/
theorem setUmmValue_keepsHigh (h : Tabled b k live) (hd : d ∈ live) (attr value : ℕ) :
    k.KeepsHigh (k.setUmmValue attr value (d * pageSize)).2 live := by
  unfold Kernel.setUmmValue
  split
  · exact .of_page_eq rfl
  have hattr : attr < pageOffset := Nat.lt_of_not_le ‹_›
  have hkept := h.ummTable_keepsHigh (d := d) hattr
  dsimp only
  rcases h.ummTable_cases hd hattr with ⟨pmm, hcall, -⟩ | ⟨t, pmm, page, -, hcall, ht, htabled, hnames, -⟩
  · rw [hcall, if_pos rfl]
    exact .of_page_eq rfl
  · rw [hcall] at hkept ⊢
    dsimp only at hkept ⊢
    rw [if_neg (Nat.mul_ne_zero ht (by decide))]
    refine hkept.trans fun d' hd' m _ => ?_
    unfold Kernel.storeWord Kernel.storePage
    dsimp only
    rw [Nat.mul_div_cancel _ (by decide), Function.update_of_ne (htabled.dir_ne_table hd' hnames)]

theorem pdePage_keepsHigh (h : Tabled b k live) (hd : d ∈ live) (attr : ℕ) :
    k.KeepsHigh (k.pdePage attr (d * pageSize)).2 live := by
  unfold Kernel.pdePage
  dsimp only
  split
  · split
    · exact h.pmmAllocPage.1.setUmmValue_keepsHigh hd _ _
    · exact .of_page_eq rfl
  · exact .of_page_eq rfl

theorem ummMmapOne_keepsHigh (h : Tabled b k live) (hd : d ∈ live) {fuel attr r : ℕ}
    (hcall : k.ummMmapOne fuel attr (d * pageSize) = some (r, k')) : k.KeepsHigh k' live := by
  rcases Kernel.ummMmapOne_cases hcall with ⟨k₁, -, halloc, hset⟩ | ⟨-, -, rfl⟩
  · rcases h.vmmAllocOne_cases halloc with ⟨rfl, pmm, rfl, -⟩ |
      ⟨f, -, -, -, -, q, pte, pos, count, -, -, rfl, hwindow, -⟩
    · rcases hset with ⟨hr, -⟩ | ⟨-, rfl⟩
      · exact absurd rfl hr
      · exact .of_page_eq rfl
    · rcases hset with ⟨-, rfl⟩ | ⟨-, rfl⟩
      · exact (h.pmmAllocPage.1.of_window hwindow).setUmmValue_keepsHigh hd _ _
      · exact .of_page_eq rfl
  · generalize getPageAttr (k.getUmmValue attr (d * pageSize)) = phyAttr
    unfold Kernel.vmmMmapPage
    split
    · exact .of_page_eq rfl
    · rcases k.vmmMmapLoop_cases phyAttr k.vmmPos with hnone | ⟨q, pte, -, -, -, hloop, -⟩
      · rw [hnone]
        exact .of_page_eq rfl
      · rw [hloop]
        exact .of_page_eq rfl

end Tabled

namespace Owned

variable {b : KernelBoot} {k k' : Kernel} {live : Finset ℕ} {d : ℕ}

theorem ummMmapKmm_keepsHigh (h : Owned b k live) (hd : d ∈ live) {fuel attr len r : ℕ}
    (hsafe : k.SafeWindow attr len (d * pageSize))
    (hcall : k.ummMmapKmm fuel attr len (d * pageSize) = some (r, k')) : k.KeepsHigh k' live := by
  rcases Kernel.ummMmapKmm_cases hcall with ⟨-, -, rfl⟩ | ⟨p, hin, -, hone | ⟨hmany, hwindow⟩⟩
  · exact .of_page_eq rfl
  · exact h.toTabled.ummMmapOne_keepsHigh hd hone.2
  · rcases hsafe with hout | hone | ⟨hscan, heach⟩
    · exact absurd hout (Nat.not_lt_of_le hin)
    · exact absurd hone hmany
    · have hcount := ummPageCount_lt attr len
      refine (h.of_vmmMmapPdePage hd (by omega) hscan (I := fun kMid => k.KeepsHigh kMid live)
        (fun _ _ hC => hC) (fun kMid attr phyAttr k₁ hMid hI _ hpage => hI.trans ?_)
        (fun _ _ _ _ hI => hI) (.of_page_eq rfl) heach hwindow).2
      have hkept := hMid.toTabled.pdePage_keepsHigh hd attr
      rw [hpage] at hkept
      exact hkept

theorem ummHandler_outcome (h : Owned b k live) (hd : d ∈ live) (attr : ℕ) :
    (∃ pmm, k.ummHandler attr (d * pageSize) = (0, { k with pmm := pmm })) ∨
    (attr < pageOffset ∧ ∃ f ∈ k.pmm.freePages, k.pmm.pmmAllocPage.1 = f * pageSize ∧
      ∃ pmm page tables, k.ummHandler attr (d * pageSize) = (1, { k with pmm := pmm, page := page }) ∧
        Entered { k with pmm := k.pmm.pmmAllocPage.2 } { k with pmm := pmm, page := page } live f d
          (attr / pageSize) tables) := by
  obtain ⟨htaken, hcases⟩ := h.pmmAllocPage
  unfold Kernel.ummHandler
  dsimp only
  rcases hcases with ⟨f, hf, hphy, hne, -, -⟩ | ⟨hphy, -⟩
  · rw [hphy, if_neg (Nat.mul_ne_zero hne (by decide)), Tabled.setPage_user,
      Nat.mul_div_cancel _ (by decide)]
    by_cases hattr : attr < pageOffset
    · rcases htaken.toTabled.setUmmValue_cases hd hattr f with ⟨pmm, heq, -⟩ |
        ⟨pmm, page, tables, heq, -, hentered⟩
      · rw [heq, if_pos rfl]
        exact .inl ⟨_, rfl⟩
      · rw [heq, if_neg Nat.one_ne_zero]
        exact .inr ⟨hattr, f, hf, rfl, pmm, page, tables, rfl, hentered⟩
    · unfold Kernel.setUmmValue
      rw [if_pos (Nat.le_of_not_lt hattr), if_pos rfl]
      exact .inl ⟨_, rfl⟩
  · rw [if_pos hphy]
    exact .inl ⟨_, rfl⟩

theorem ummHandler_keepsHigh (h : Owned b k live) (hd : d ∈ live) (attr : ℕ) :
    k.KeepsHigh (k.ummHandler attr (d * pageSize)).2 live := by
  have hset := h.toTabled.pmmAllocPage.1.setUmmValue_keepsHigh hd attr
    (setPage k.pmm.pmmAllocPage.1 pageUser)
  unfold Kernel.ummHandler
  dsimp only
  split
  · exact .of_page_eq rfl
  · split
    · exact hset
    · exact hset

end Owned

/-! ## Runs -/

namespace UmmRun

variable {b : KernelBoot} {s s' : UmmRun}

/-- A call of a run leaves the half of the kernel alone in the directories it finds. -/
theorem keepsHigh_of_step (h : Owned b s.kernel s.live) {call : MemCall} (hsafe : s.SafeCall call)
    (hstep : (ummMachine b).step s call s') :
    s.kernel.KeepsHigh s'.kernel s.live := by
  obtain ⟨hen, r, hcall, -⟩ := hstep
  cases call with
  | ummAllocPde =>
      rw [hcall.2]
      rcases h.ummAllocPde_cases with ⟨pmm, heq, -⟩ | ⟨d, -, pmm, page, heq, -, hd, -⟩
      · rw [heq]
        exact .of_page_eq rfl
      · rcases s.kernel.ummAllocPde_page with ⟨-, hpage⟩ | ⟨-, hpage⟩
        · exact .of_page_eq hpage
        · intro d' hd' m _
          have hne : d' ≠ d := fun hdd => hd (hdd ▸ hd')
          rw [heq, Nat.mul_div_cancel _ (by decide)] at hpage
          rw [heq, hpage, Function.update_of_ne hne]
  | ummHandler attr pde =>
      obtain ⟨-, d, hd, rfl⟩ := hen
      exact hcall.2 ▸ h.ummHandler_keepsHigh hd attr
  | ummMmapKmm attr len pde =>
      obtain ⟨-, -, d, hd, rfl⟩ := hen
      obtain ⟨fuel, hcall⟩ := hcall
      exact h.ummMmapKmm_keepsHigh hd hsafe hcall
  | ummUmmapKmm attr len =>
      obtain ⟨pte, pos, count, heq, -⟩ := Owned.ummUmmapKmm_direct s.kernel hen.1 len
      rw [hcall.2, heq]
      exact .of_page_eq rfl
  | ummFree pde =>
      obtain ⟨d, hd, rfl⟩ := hen
      obtain ⟨pmm, heq, -⟩ := h.ummFree_eq hd
      rw [hcall.2, heq]
      exact .of_page_eq rfl
  | store table words =>
      intro d hd m _
      have hne : d ≠ table / pageSize := fun heq => hen.1 (heq ▸ hd)
      rw [hcall.2]
      unfold Kernel.storePage
      dsimp only
      rw [Function.update_of_ne hne]
  | _ => exact absurd hen id

theorem sharesHigh_of_new {call : MemCall}
    (hstep : (ummMachine b).step s call s') {d : ℕ} (hd : d ∈ s'.live) (hnew : d ∉ s.live) (m : ℕ) :
    s'.kernel.page d m = s.kernel.kernelMmapPde m := by
  obtain ⟨hen, r, hcall, hlive⟩ := hstep
  rw [hlive] at hd
  cases call with
  | ummAllocPde =>
      obtain ⟨rfl, hk⟩ := hcall
      unfold liveAfter at hd
      dsimp only at hd
      rcases s.kernel.ummAllocPde_page with ⟨hr, -⟩ | ⟨hr, hpage⟩
      · rw [if_pos hr] at hd
        exact absurd hd hnew
      · rw [if_neg hr] at hd
        obtain rfl := (Finset.mem_insert.1 hd).resolve_right hnew
        rw [hk, hpage, Function.update_self]
  | ummFree pde => exact absurd (Finset.mem_of_mem_erase hd) hnew
  | _ => exact absurd hd hnew

/-- In every state of a run the directories share the half of the kernel, behind which only
entries of the kernel are found. -/
theorem sharesHigh_of_reachable (hs : ((ummMachine b).restrict SafeCall).Reachable s) :
    s.kernel.SharesHigh s.live ∧ s.kernel.KernelEntries := by
  induction hs with
  | init hinit =>
      obtain ⟨memory, behind, page, rfl⟩ := hinit
      exact ⟨fun d hd => absurd hd (Finset.notMem_empty d), .vmmInit b memory behind page⟩
  | @step s s' call hs hstep ih =>
      obtain ⟨hshares, hentries⟩ := ih
      obtain ⟨hsafe, hstep⟩ := hstep
      have howned := Owned.of_reachable hs
      have hkept := keepsHigh_of_step howned hsafe hstep
      have hpte : s'.kernel.globlPtePage = s.kernel.globlPtePage :=
        (howned.of_step hsafe hstep).globlPtePage.trans howned.globlPtePage.symm
      have hsame : s'.kernel.kernelMmapPde = s.kernel.kernelMmapPde := by
        unfold Kernel.kernelMmapPde
        rw [hpte]
      refine ⟨fun d hd m hm => ?_, ?_⟩
      · rw [hsame]
        by_cases hold : d ∈ s.live
        · exact (hkept d hold m hm).trans (hshares d hold m hm)
        · exact sharesHigh_of_new hstep hd hold m
      · obtain ⟨-, r, hcall, -⟩ := hstep
        exact hentries.of_returns hcall

end UmmRun

/-! ## Addresses of the kernel -/

namespace Kernel

variable {k : Kernel} {attr : ℕ}

theorem linear_index (hattr : attr < globlPageNum * pageSize) :
    pdeIndex (pageOffset + attr) = pdeIndex pageOffset + attr / pageSize / pagePteIndex ∧
      pteIndex (pageOffset + attr) = attr / pageSize % pagePteIndex ∧
      (pageOffset + attr) % pageSize = attr % pageSize ∧ attr / pageSize / pagePteIndex < globlPteNum := by
  have hpages : ∀ x : ℕ, (0xc0000000 + x) / 0x1000 = 0xc0000 + x / 0x1000 ∧
      (0xc0000000 + x) % 0x1000 = x % 0x1000 := by omega
  have htables : ∀ x < 0x30000, (0xc0000 + x) / 0x400 = 0x300 + x / 0x400 ∧
      (0xc0000 + x) % 0x400 = x % 0x400 ∧ x / 0x400 < 0xc0 := by omega
  obtain ⟨hpde, hpte⟩ := Tabled.index_eq (pageOffset + attr)
  obtain ⟨hpage, hoffset⟩ := hpages attr
  obtain ⟨hdir, hslot, hlt⟩ := htables (attr / pageSize) (Nat.div_lt_of_lt_mul (by lia))
  rw [hpde, hpte]
  exact ⟨(congrArg (· / pagePteIndex) hpage).trans hdir, (congrArg (· % pagePteIndex) hpage).trans hslot,
    hoffset, hlt⟩

theorem kernelMmapPde_add (k : Kernel) {i : ℕ} (hi : i < globlPteNum) :
    k.kernelMmapPde (pdeIndex pageOffset + i) = setPage ((k.globlPtePage + i) * pageSize) pageKernel := by
  unfold kernelMmapPde
  generalize pdeIndex pageOffset = n
  rw [if_pos ⟨Nat.le_add_right n i, Nat.add_lt_add_left hi n⟩, Nat.add_sub_cancel_left]

theorem loadWord_globl (k : Kernel) {i : ℕ} (hi : i < globlPteNum) (n : ℕ) :
    k.loadWord ((k.globlPtePage + i) * pageSize) n = k.globlMmapPte (i * pagePteIndex + n) := by
  have hpage : (k.globlPtePage + i) * pageSize / pageSize = k.globlPtePage + i :=
    Nat.mul_div_cancel _ (by decide)
  unfold loadWord
  rw [hpage, if_pos ⟨Nat.le_add_right _ i, Nat.add_lt_add_left hi _⟩, Nat.add_sub_cancel_left]

/-- The processor finds an entry of `globl_mmap_pte` behind `kernel_mmap_pde`, for the kernel
alone. -/
theorem walk_linear (hattr : attr < globlPageNum * pageSize) (acc : PageAccess) (pde : ℕ → ℕ)
    (hpde : ∀ m, pdeIndex pageOffset ≤ m → pde m = k.kernelMmapPde m) :
    k.walk acc pde (pageOffset + attr) =
      if !acc.user && acc.allowed (k.globlMmapPte (attr / pageSize)) then
        some (getPageAttr (k.globlMmapPte (attr / pageSize)) + attr % pageSize)
      else none := by
  obtain ⟨hm, hn, hmod, htable⟩ := linear_index hattr
  have hentry := hpde (pdeIndex (pageOffset + attr)) (by rw [hm]; exact Nat.le_add_right _ _)
  rw [hm, k.kernelMmapPde_add htable] at hentry
  have hleaf := k.loadWord_globl htable (attr / pageSize % pagePteIndex)
  rw [Nat.div_add_mod'] at hleaf
  unfold walk
  dsimp only
  rw [hm, hentry, PageAccess.allowed_kernel, getPageAttr_setPage, pageBase_mul, hn, hleaf, hmod]
  cases acc.user
  · simp
  · simp

theorem walk_behind (hattr : pageOffset + globlPageNum * pageSize ≤ attr) (acc : PageAccess)
    (pde : ℕ → ℕ) (hpde : ∀ m, pdeIndex pageOffset ≤ m → pde m = k.kernelMmapPde m) :
    k.walk acc pde attr = none := by
  have hindex : pdeIndex pageOffset + globlPteNum ≤ pdeIndex attr :=
    Nat.div_le_div_right (c := 0x400000) hattr
  have hentry : k.kernelMmapPde (pdeIndex attr) = 0 := by
    unfold kernelMmapPde
    exact if_neg fun h => absurd h.2 (Nat.not_lt_of_le hindex)
  unfold walk
  dsimp only
  rw [hpde _ ((Nat.le_add_right _ _).trans hindex), hentry, PageAccess.allowed_zero]
  exact if_neg Bool.false_ne_true

theorem walk_user_high (hattr : pageOffset ≤ attr) {acc : PageAccess} (huser : acc.user = true)
    (pde : ℕ → ℕ) (hpde : ∀ m, pdeIndex pageOffset ≤ m → pde m = k.kernelMmapPde m) :
    k.walk acc pde attr = none := by
  by_cases hbehind : pageOffset + globlPageNum * pageSize ≤ attr
  · exact walk_behind hbehind acc pde hpde
  · obtain ⟨a, rfl⟩ := Nat.exists_eq_add_of_le hattr
    rw [walk_linear (Nat.lt_of_add_lt_add_left (Nat.lt_of_not_le hbehind)) acc pde hpde, huser]
    rfl

theorem walk_shown (hentries : k.KernelEntries) (hattr : attr < globlPageNum * pageSize)
    {acc : PageAccess} (hkernel : acc.user = false) (pde : ℕ → ℕ)
    (hpde : ∀ m, pdeIndex pageOffset ≤ m → pde m = k.kernelMmapPde m)
    (hshown : k.getGloblPageAttr (attr / pageSize) ≠ 0) :
    k.walk acc pde (pageOffset + attr) =
      some (k.getGloblPageAttr (attr / pageSize) + attr % pageSize) := by
  rw [walk_linear hattr acc pde hpde, hkernel]
  rcases hentries _ (Nat.div_lt_of_lt_mul (by rw [Nat.mul_comm]; exact hattr)) with hzero | ⟨f, hf⟩
  · exact absurd (congrArg getPageAttr hzero) hshown
  · have hallowed : acc.allowed (k.globlMmapPte (attr / pageSize)) = true := by
      rw [hf, PageAccess.allowed_kernel, hkernel]
      rfl
    rw [hallowed]
    rfl

end Kernel

namespace UmmRun

variable {b : KernelBoot} {s : UmmRun} {d : ℕ}

theorem entriesAt_high (hs : ((ummMachine b).restrict SafeCall).Reachable s) (hd : d ∈ s.live) (m : ℕ)
    (hm : pdeIndex pageOffset ≤ m) :
    s.kernel.entriesAt (d * pageSize) m = s.kernel.kernelMmapPde m := by
  unfold Kernel.entriesAt
  rw [(Owned.of_reachable hs).toTabled.loadWord_dir hd]
  exact (sharesHigh_of_reachable hs).1 d hd m hm

theorem walk_high (hs : ((ummMachine b).restrict SafeCall).Reachable s) (hd : d ∈ s.live)
    (acc : PageAccess) {attr : ℕ} (hattr : pageOffset ≤ attr) :
    s.kernel.walk acc (s.kernel.entriesAt (d * pageSize)) attr =
      s.kernel.walk acc s.kernel.kernelMmapPde attr := by
  have hhigh := entriesAt_high hs hd
  by_cases hbehind : pageOffset + globlPageNum * pageSize ≤ attr
  · rw [Kernel.walk_behind hbehind acc _ hhigh, Kernel.walk_behind hbehind acc _ fun _ _ => rfl]
  · obtain ⟨a, rfl⟩ := Nat.exists_eq_add_of_le hattr
    have ha := Nat.lt_of_add_lt_add_left (Nat.lt_of_not_le hbehind)
    rw [Kernel.walk_linear ha acc _ hhigh, Kernel.walk_linear ha acc _ fun _ _ => rfl]

end UmmRun

/-- **What a process can reach.** In every state of a run whose windows enter frames as
themselves, the processor lets a process through only below `PAGE_OFFSET`, and there to a taken
page behind the kernel that is no directory and no page table, which nothing reaches from
another page or another directory. -/
theorem user_access_confined {b : KernelBoot} {s : UmmRun}
    (hs : ((ummMachine b).restrict UmmRun.SafeCall).Reachable s) {d : ℕ} (hd : d ∈ s.live)
    {write : Bool} {attr phy : ℕ}
    (hwalk : s.kernel.walk ⟨true, write⟩ (s.kernel.entriesAt (d * pageSize)) attr = some phy) :
    attr < pageOffset ∧ phy / pageSize ∈ b.arena ∧ phy / pageSize ∉ s.kernel.pmm.freePages ∧
      phy / pageSize ∉ s.live ∧
      (∀ d' ∈ s.live, ∀ m < pdeIndex pageOffset,
        getPageAttr (s.kernel.entriesAt (d' * pageSize) m) ≠ phy / pageSize * pageSize) ∧
      ∀ d' ∈ s.live, ∀ write' attr' phy',
        s.kernel.walk ⟨true, write'⟩ (s.kernel.entriesAt (d' * pageSize)) attr' = some phy' →
        phy' / pageSize = phy / pageSize → d' = d ∧ attr' / pageSize = attr / pageSize := by
  have h := (Owned.of_reachable hs).toTabled
  have hisolated := (Owned.of_reachable hs).isolated
  have hreach : ∀ d ∈ s.live, ∀ write attr phy,
      s.kernel.walk ⟨true, write⟩ (s.kernel.entriesAt (d * pageSize)) attr = some phy →
      attr < pageOffset ∧ attr / pageSize < pageOffset / pageSize ∧
        s.kernel.Maps d (attr / pageSize) (phy / pageSize) := by
    intro d hd write attr phy hwalk
    have hattr : attr < pageOffset := by
      refine Nat.lt_of_not_le fun hhigh => ?_
      rw [Kernel.walk_user_high hhigh rfl _ (UmmRun.entriesAt_high hs hd)] at hwalk
      exact absurd hwalk.symm (Option.some_ne_none phy)
    obtain ⟨f, hf, rfl⟩ := (h.walk_low hd hattr _ phy).1 hwalk
    have hframe : (f * pageSize + attr % pageSize) / pageSize = f := by lia
    exact ⟨hattr, by lia, hframe.symm ▸ hf⟩
  obtain ⟨hattr, ha, hmaps⟩ := hreach d hd write attr phy hwalk
  refine ⟨hattr, hisolated.notKernel d hd _ ha _ hmaps, hisolated.notFree d hd _ ha _ hmaps,
    hisolated.notPde d hd _ ha _ hmaps, hisolated.notTable d hd _ ha _ hmaps,
    fun d' hd' write' attr' phy' hwalk' hsame => ?_⟩
  obtain ⟨-, ha', hmaps'⟩ := hreach d' hd' write' attr' phy' hwalk'
  exact hisolated.once d' hd' d hd _ ha' _ ha _ (hsame ▸ hmaps') hmaps

section FirstFault

/-- The run of one directory and one page fault on `smallBoot`. -/
def faultRun : UmmRun := ⟨((pdeRun smallBoot).kernel.ummHandler 0x1000 (449 * pageSize)).2, {449}⟩

theorem faultRun_live : 449 ∈ faultRun.live := Finset.mem_singleton_self 449

theorem faultRun_reachable : ((ummMachine smallBoot).restrict UmmRun.SafeCall).Reachable faultRun := by
  obtain ⟨hbase, hcount, hdmmap⟩ := smallBoot_pages
  have hreach := pdeRun_reachable (b := smallBoot) (by rw [hbase, hcount]; decide)
    (by rw [hbase, hdmmap]; decide)
  have hlive : (pdeRun smallBoot).live = {449} := by
    unfold pdeRun
    rw [hbase]
  have hstep := UmmRun.step_ummHandler (b := smallBoot) (s := pdeRun smallBoot)
    (by decide : 0x1000 < 2 ^ 32) (hlive ▸ Finset.mem_singleton_self 449)
  rw [hlive] at hstep
  exact .step (a := .ummHandler 0x1000 (449 * pageSize)) hreach ⟨trivial, hstep⟩

theorem faultRun_maps : ∃ f, faultRun.kernel.Maps 449 (0x1000 / pageSize) f := by
  obtain ⟨hbase, hcount, hdmmap⟩ := smallBoot_pages
  have hreach := pdeRun_reachable (b := smallBoot) (by rw [hbase, hcount]; decide)
    (by rw [hbase, hdmmap]; decide)
  obtain ⟨hphy, htable⟩ := pdeRun_recorded (b := smallBoot) (by rw [hbase, hcount]; decide)
    (by rw [hbase, hdmmap]; decide) (by decide : 0x1000 < pageOffset)
  have hlive : (pdeRun smallBoot).live = {449} := by
    unfold pdeRun
    rw [hbase]
  have howned := Owned.of_reachable hreach
  rw [hlive] at howned
  have houtcome := howned.ummHandler_outcome (Finset.mem_singleton_self 449) 0x1000
  have hone := Kernel.setUmmValue_fst
    { (pdeRun smallBoot).kernel with pmm := (pdeRun smallBoot).kernel.pmm.pmmAllocPage.2 }
    (by decide : 0x1000 < pageOffset) (setPage (pdeRun smallBoot).kernel.pmm.pmmAllocPage.1 pageUser)
    (449 * pageSize)
  rw [hbase] at htable
  rw [if_neg htable] at hone
  have hdone : ((pdeRun smallBoot).kernel.ummHandler 0x1000 (449 * pageSize)).1 = 1 := by
    unfold Kernel.ummHandler
    dsimp only
    rw [hphy, hcount, if_neg (by decide)]
    rw [hphy, hcount] at hone
    rw [hone, if_neg (by decide)]
  have htabled := (Owned.of_reachable faultRun_reachable).toTabled
  unfold faultRun at htabled ⊢
  generalize (pdeRun smallBoot).kernel = k at *
  rcases houtcome with ⟨pmm, heq⟩ | ⟨-, f, -, -, pmm, page, tables, heq, hentered⟩
  · rw [heq] at hdone
    exact absurd hdone Nat.zero_ne_one
  · refine ⟨f, (htabled.maps_iff (Finset.mem_singleton_self 449) (by decide)).2 ?_⟩
    rw [heq]
    exact (hentered.names f _).2 (.inr (.inl ⟨rfl, rfl⟩))

theorem faultRun_hasRun : faultRun.kernel.HasRun 1 := by
  obtain ⟨hbase, hcount, hdmmap⟩ := smallBoot_pages
  have hpages : smallBoot.memBasePage + 1 < smallBoot.memPageCount := by
    rw [hbase, hcount]
    decide
  have hdirect : smallBoot.memBasePage < smallBoot.dmmapPageCount := by
    rw [hbase, hdmmap]
    decide
  obtain ⟨hdirect', hpos, -, hempty⟩ := pdeRun_window hpages hdirect
  have howned := Owned.of_reachable (pdeRun_reachable hpages hdirect)
  have houtcome := howned.ummHandler_outcome (hbase ▸ Finset.mem_singleton_self _ :
    449 ∈ (pdeRun smallBoot).live) 0x1000
  have hkernel := (pdeRun smallBoot).kernel.page_count
  rw [hdmmap] at hdirect' hpos
  have hrun : (pdeRun smallBoot).kernel.HasRun 1 := by
    have hlt : (pdeRun smallBoot).kernel.vmmPos < (pdeRun smallBoot).kernel.vmmapPageCount := by lia
    refine ⟨hlt, _, le_rfl, Nat.le_add_left 1 _, fun j hj => ?_⟩
    obtain rfl : j = 0 := by omega
    rw [Nat.sub_zero, Kernel.getVmmPage, if_pos hlt, Kernel.getGloblPageIndex_of_lt hlt]
    exact hempty _ (by omega) (by omega)
  unfold faultRun
  generalize (pdeRun smallBoot).kernel = k at *
  rcases houtcome with ⟨pmm, heq⟩ | ⟨-, f, -, -, pmm, page, tables, heq, -⟩
  · rw [heq]
    exact hrun
  · rw [heq]
    exact hrun

end FirstFault

/-- The page of the first fault lies in the memory behind the kernel. -/
theorem user_access_confined_fault : ∃ phy, phy / pageSize ∈ smallBoot.arena ∧
    faultRun.kernel.walk ⟨true, true⟩ (faultRun.kernel.entriesAt (449 * pageSize)) 0x1000 = some phy := by
  obtain ⟨f, hf⟩ := faultRun_maps
  have hwalk := ((Owned.of_reachable faultRun_reachable).toTabled.walk_low faultRun_live
    (by decide : 0x1000 < pageOffset) ⟨true, true⟩ _).2 ⟨f, hf, rfl⟩
  exact ⟨_, (user_access_confined faultRun_reachable faultRun_live hwalk).2.1, hwalk⟩

/-- **One kernel in all address spaces.** In every state of a run of safe calls the processor finds
the same behind an address above `PAGE_OFFSET` under every live directory and under
`kernel_mmap_pde`; for the kernel that is the frame the page of the kernel shows, and its own
address for a direct page other than the page 0. -/
theorem kernel_half_shared {b : KernelBoot} {s : UmmRun}
    (hs : ((ummMachine b).restrict UmmRun.SafeCall).Reachable s) {d : ℕ} (hd : d ∈ s.live) :
    (∀ acc attr, pageOffset ≤ attr →
      s.kernel.walk acc (s.kernel.entriesAt (d * pageSize)) attr =
        s.kernel.walk acc s.kernel.kernelMmapPde attr) ∧
    ∀ write attr, attr < globlPageNum * pageSize →
      (s.kernel.getGloblPageAttr (attr / pageSize) ≠ 0 →
        s.kernel.walk ⟨false, write⟩ (s.kernel.entriesAt (d * pageSize)) (pageOffset + attr) =
          some (s.kernel.getGloblPageAttr (attr / pageSize) + attr % pageSize)) ∧
      (pageSize ≤ attr → attr / pageSize < s.kernel.dmmapPageCount →
        s.kernel.walk ⟨false, write⟩ (s.kernel.entriesAt (d * pageSize)) (pageOffset + attr) =
          some attr) := by
  have h := (Owned.of_reachable hs).toTabled
  have hhigh := UmmRun.entriesAt_high hs hd
  have hentries := (UmmRun.sharesHigh_of_reachable hs).2
  refine ⟨fun acc attr hattr => ?_, fun write attr hattr => ⟨fun hshown => ?_, fun hpage hdirect => ?_⟩⟩
  · exact UmmRun.walk_high hs hd acc hattr
  · exact Kernel.walk_shown hentries hattr rfl _ hhigh hshown
  · have hshown : s.kernel.getGloblPageAttr (attr / pageSize) = attr / pageSize * pageSize :=
      h.window.direct _ hdirect
    rw [Kernel.walk_shown hentries hattr rfl _ hhigh (by lia), hshown, Nat.div_add_mod']

/-- After the first fault the kernel finds the page 1 under its own address. -/
theorem kernel_half_shared_fault :
    faultRun.kernel.walk ⟨false, true⟩ (faultRun.kernel.entriesAt (449 * pageSize)) (pageOffset + 0x1004) =
      some 0x1004 := by
  have hdirect : 0x1004 / pageSize < faultRun.kernel.dmmapPageCount := by
    rw [(Settled.of_reachable faultRun_reachable).dmmap, smallBoot_pages.2.2]
    decide
  exact ((kernel_half_shared faultRun_reachable faultRun_live).2 true 0x1004 (by decide)).2 (by decide)
    hdirect

end BitchKernel
