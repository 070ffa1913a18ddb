import BitchKernel.Mm.UmmWindow

/-!
# What a window leaves behind

A window of `umm_mmap_kmm` that was returned is given back by its address and its length
alone, and one that failed midway takes its entries back itself. Both leave the window part
of the global page table and the count of its free pages as they were, unless a window of
several pages ran out of frames behind its first page, or its run does not lie inside the
window.
-/

namespace BitchKernel

open Lib

namespace Kernel

variable {k k' : Kernel}

/-- The dynamic part of the global page table and the count of its free pages are the
same. -/
structure SameWindow (k k' : Kernel) : Prop where
  entry : ∀ x, k.dmmapPageCount ≤ x → x < globlPageNum → k'.globlMmapPte x = k.globlMmapPte x
  count : k'.getVmmFreeCount = k.getVmmFreeCount

/-- A window that cannot be opened leaves no trace, and one that is opened leaves none
after it is closed. -/
def Traceless (k : Kernel) (attr len pde : ℕ) : Prop :=
  ∀ r k', k.Returns (.ummMmapKmm attr len pde) r k' →
    (r = 0 → k.SameWindow k') ∧ (r ≠ 0 → k.SameWindow (k'.ummUmmapKmm r len))

/-! ## The entries of the window in a run -/

/-- Each entry is as before, or was cleared, or names a frame other than 0; and the count
stays a word. -/
structure Reenters (k k' : Kernel) : Prop where
  entry : ∀ x < globlPageNum, k'.globlMmapPte x = k.globlMmapPte x ∨ k'.globlMmapPte x = 0 ∨
    getPageAttr (k'.globlMmapPte x) ≠ 0
  count_lt : k.vmmFreePageCount < 2 ^ 32 → k'.vmmFreePageCount < 2 ^ 32

namespace Reenters

theorem of_eq (h : k'.globlMmapPte = k.globlMmapPte)
    (hcount : k'.vmmFreePageCount = k.vmmFreePageCount) : Reenters k k' :=
  ⟨fun x _ => .inl (congrFun h x), fun hlt => hcount ▸ hlt⟩

theorem trans {k₁ k₂ k₃ : Kernel} (h₁ : Reenters k₁ k₂) (h₂ : Reenters k₂ k₃) :
    Reenters k₁ k₃ := by
  refine ⟨fun x hx => ?_, fun h => h₂.count_lt (h₁.count_lt h)⟩
  rcases h₂.entry x hx with heq | hrest
  · rw [heq]
    exact h₁.entry x hx
  · exact .inr hrest

theorem with_pmm (h : Reenters k k') (pmm : Pmm) : Reenters k { k' with pmm := pmm } :=
  ⟨h.entry, h.count_lt⟩

theorem globlPageMmap (k : Kernel) {f : ℕ} (g : ℕ) (hf : f ≠ 0) :
    Reenters k (k.globlPageMmap f g) := by
  obtain ⟨pte, hmmap, hframe, hset⟩ := k.globlPageMmap_eq f g
  rw [hmmap]
  refine ⟨fun x hx => ?_, id⟩
  by_cases heq : x = g
  · rw [heq] at hx ⊢
    refine .inr (.inr ?_)
    dsimp only
    rw [hset hx]
    exact getPageAttr_kernelPage hf
  · exact .inl (hframe x heq)

theorem globlPageRemove (k : Kernel) (g : ℕ) : Reenters k (k.globlPageRemove g) := by
  obtain ⟨pte, hremove, hframe, hzero⟩ := k.globlPageRemove_eq g
  rw [hremove]
  refine ⟨fun x hx => ?_, id⟩
  by_cases heq : x = g
  · rw [heq] at hx ⊢
    exact .inr (.inl (hzero hx))
  · exact .inl (hframe x heq)

theorem vmmAllocUndo (head i : ℕ) (k : Kernel) : Reenters k (Kernel.vmmAllocUndo head i k) := by
  induction i generalizing k with
  | zero => exact of_eq rfl rfl
  | succ i ih =>
      rw [Kernel.vmmAllocUndo]
      exact ((globlPageRemove k _).with_pmm _).trans (ih _)

theorem vmmAllocLoop (head rem i : ℕ) (k : Kernel) :
    Reenters k (Kernel.vmmAllocLoop head rem i k).2 := by
  induction rem generalizing i k with
  | zero => exact of_eq rfl rfl
  | succ rem ih =>
      have htaken : Reenters k { k with pmm := k.pmm.pmmAllocPage.2 } := of_eq rfl rfl
      rw [Kernel.vmmAllocLoop]
      dsimp only
      by_cases hattr : k.pmm.pmmAllocPage.1 ≠ 0
      · rw [if_pos hattr]
        exact htaken.trans ((globlPageMmap _ _ (Pmm.pmmAllocPage_page_ne_zero hattr).1).trans
          (ih (i + 1) _))
      · rw [if_neg hattr]
        exact htaken.trans (vmmAllocUndo head i _)

theorem vmmMmapPdeUndo (head i : ℕ) (k : Kernel) :
    Reenters k (Kernel.vmmMmapPdeUndo head i k) := by
  induction i generalizing k with
  | zero => exact of_eq rfl rfl
  | succ i ih => exact (globlPageRemove k _).trans (ih _)

theorem vmmMmapPdeLoop (head attr pde rem i : ℕ) (k : Kernel) :
    Reenters k (Kernel.vmmMmapPdeLoop head attr pde rem i k).2 := by
  induction rem generalizing i k with
  | zero => exact of_eq rfl rfl
  | succ rem ih =>
      obtain ⟨phyAttr, pmm, page, hpage, -, hne⟩ := k.pdePage_eq (add32 attr (mul32 i pageSize)) pde
      have htaken : Reenters k { k with pmm := pmm, page := page } := of_eq rfl rfl
      rw [Kernel.vmmMmapPdeLoop, hpage]
      dsimp only
      by_cases hattr : phyAttr ≠ 0
      · rw [if_pos hattr]
        exact htaken.trans ((globlPageMmap _ _ (hne hattr)).trans (ih (i + 1) _))
      · rw [if_neg hattr]
        exact htaken.trans (vmmMmapPdeUndo head i _)

theorem vmmFreeLoop (index count : ℕ) (k : Kernel) :
    Reenters k (Kernel.vmmFreeLoop index count k) := by
  induction count with
  | zero => exact of_eq rfl rfl
  | succ count ih =>
      rw [Kernel.vmmFreeLoop]
      exact (ih.with_pmm _).trans (globlPageRemove _ _)

theorem vmmUmmapLoop (index count : ℕ) (k : Kernel) :
    Reenters k (Kernel.vmmUmmapLoop index count k) := by
  induction count with
  | zero => exact of_eq rfl rfl
  | succ count ih => exact ih.trans (globlPageRemove _ _)

theorem vmmTake (k : Kernel) (p count : ℕ) : Reenters k (k.vmmTake p count).2 :=
  ⟨fun _ _ => .inl rfl, fun _ => Word.sub_lt 32 _ _⟩

theorem raiseVmmPos (k : Kernel) (index count : ℕ) :
    Reenters k (k.raiseVmmPos index count) := by
  unfold Kernel.raiseVmmPos
  dsimp only
  split <;> exact of_eq rfl rfl

theorem vmmAllocPage {fuel count r : ℕ} (hcall : k.vmmAllocPage fuel count = some (r, k')) :
    Reenters k k' :=
  vmmAllocPage_rule (of_eq rfl rfl) (fun head => vmmAllocLoop head count 0 k)
    (fun k₁ p h => h.trans (vmmTake k₁ p count)) hcall

theorem vmmMmapPdePage {fuel attr count pde r : ℕ}
    (hcall : k.vmmMmapPdePage fuel attr count pde = some (r, k')) : Reenters k k' :=
  vmmMmapPdePage_rule (of_eq rfl rfl) (fun head => vmmMmapPdeLoop head attr pde count 0 k)
    (fun k₁ p h => h.trans (vmmTake k₁ p count)) hcall

theorem vmmMmapPage (hdirect : 0 < k.dmmapPageCount) (phyAttr : ℕ) :
    Reenters k (k.vmmMmapPage phyAttr).2 := by
  unfold Kernel.vmmMmapPage
  split
  · exact of_eq rfl rfl
  · rename_i hphy
    rcases k.vmmMmapLoop_cases phyAttr k.vmmPos with hnone | ⟨q, pte, -, -, -, hloop, hframe, hset⟩
    · rw [hnone]
      exact of_eq rfl rfl
    · rw [hloop]
      refine ⟨fun x hx => ?_, fun _ => Word.sub_lt 32 _ _⟩
      by_cases heq : x = k.getGloblPageIndex q
      · rw [heq] at hx ⊢
        refine .inr (.inr ?_)
        dsimp only
        rw [hset hx]
        exact getPageAttr_kernelPage (by omega)
      · exact .inl (hframe x heq)

theorem vmmFreePage (k : Kernel) (attr count : ℕ) : Reenters k (k.vmmFreePage attr count) := by
  unfold Kernel.vmmFreePage
  dsimp only
  split
  · exact of_eq rfl rfl
  · have hcount : ∀ k : Kernel, Reenters k
        { k with vmmFreePageCount := add32 k.vmmFreePageCount count } :=
      fun k => ⟨fun _ _ => .inl rfl, fun _ => Word.add_lt 32 _ _⟩
    split
    · exact ((vmmFreeLoop _ count k).trans (raiseVmmPos _ _ count)).trans (hcount _)
    · exact hcount k

theorem vmmUmmapPage (k : Kernel) (attr count : ℕ) : Reenters k (k.vmmUmmapPage attr count) := by
  unfold Kernel.vmmUmmapPage
  dsimp only
  split
  · have hcount : ∀ k : Kernel, Reenters k
        { k with vmmFreePageCount := add32 k.vmmFreePageCount count } :=
      fun k => ⟨fun _ _ => .inl rfl, fun _ => Word.add_lt 32 _ _⟩
    split
    · exact ((vmmUmmapLoop _ count k).trans (raiseVmmPos _ _ count)).trans (hcount _)
    · exact hcount k
  · exact of_eq rfl rfl

theorem setUmmValue (k : Kernel) (attr value pde : ℕ) :
    Reenters k (k.setUmmValue attr value pde).2 := by
  obtain ⟨r, pmm, page, hset, -⟩ := k.setUmmValue_eq attr value pde
  rw [hset]
  exact of_eq rfl rfl

theorem ummHandler (k : Kernel) (attr pde : ℕ) : Reenters k (k.ummHandler attr pde).2 := by
  have htaken : Reenters k { k with pmm := k.pmm.pmmAllocPage.2 } := of_eq rfl rfl
  have hset := htaken.trans (setUmmValue _ attr (setPage k.pmm.pmmAllocPage.1 pageUser) pde)
  unfold Kernel.ummHandler
  dsimp only
  split
  · exact htaken
  · split
    · exact hset.with_pmm _
    · exact hset

theorem ummAllocPde (k : Kernel) : Reenters k k.ummAllocPde.2 := by
  obtain ⟨pde, pmm, halloc, -⟩ := k.dmmAllocPage_eq 1
  unfold Kernel.ummAllocPde
  rw [halloc]
  dsimp only
  split <;> exact of_eq rfl rfl

theorem ummMmapKmm (hdirect : 0 < k.dmmapPageCount) {fuel attr len pde r : ℕ}
    (hcall : k.ummMmapKmm fuel attr len pde = some (r, k')) : Reenters k k' :=
  ummMmapKmm_rule (of_eq rfl rfl) (fun _ _ halloc => vmmAllocPage halloc)
    (fun _ _ h => h.trans (setUmmValue _ _ _ _)) (vmmMmapPage hdirect)
    (fun _ _ hpde => vmmMmapPdePage hpde) hcall

theorem ummFreeTable (k : Kernel) (pte n : ℕ) : Reenters k (Kernel.ummFreeTable pte n k) := by
  induction n with
  | zero => exact of_eq rfl rfl
  | succ n ih =>
      rw [Kernel.ummFreeTable]
      split
      · exact ih.with_pmm _
      · exact ih

theorem ummFreeLoop (k : Kernel) (pde m : ℕ) : Reenters k (Kernel.ummFreeLoop pde m k) := by
  induction m with
  | zero => exact of_eq rfl rfl
  | succ m ih =>
      rw [Kernel.ummFreeLoop]
      split
      · exact (ih.trans (ummFreeTable _ _ pagePteIndex)).with_pmm _
      · exact ih

theorem of_returns (hdirect : 0 < k.dmmapPageCount) {call : MemCall} {r : ℕ}
    (hcall : k.Returns call r k') : Reenters k k' := by
  cases call with
  | vmmAllocPage count =>
      obtain ⟨fuel, hcall⟩ := hcall
      exact vmmAllocPage hcall
  | vmmFreePage attr count => exact hcall.2 ▸ vmmFreePage k attr count
  | vmmMmapPage phyAttr => exact hcall.2 ▸ vmmMmapPage hdirect phyAttr
  | vmmMmapPdePage attr count pde =>
      obtain ⟨fuel, hcall⟩ := hcall
      exact vmmMmapPdePage hcall
  | vmmUmmapPage attr count => exact hcall.2 ▸ vmmUmmapPage k attr count
  | dmmAllocPage count =>
      obtain ⟨r', pmm, halloc, -⟩ := k.dmmAllocPage_eq count
      rw [Returns, halloc] at hcall
      exact hcall.2 ▸ of_eq rfl rfl
  | dmmFreePage attr count => exact hcall.2 ▸ of_eq rfl rfl
  | ummAllocPde => exact hcall.2 ▸ ummAllocPde k
  | ummHandler attr pde => exact hcall.2 ▸ ummHandler k attr pde
  | ummMmapKmm attr len pde =>
      obtain ⟨fuel, hcall⟩ := hcall
      exact ummMmapKmm hdirect hcall
  | ummUmmapKmm attr len => exact hcall.2 ▸ vmmUmmapPage k (pageBase attr) (ummPageCount attr len)
  | ummFree pde => exact hcall.2 ▸ (ummFreeLoop k pde _).with_pmm _
  | store table words => exact hcall.2 ▸ of_eq rfl rfl

end Reenters

/-- Between the calls, an entry of the window that names no frame is empty, and the count
is a word. -/
structure Clean (k : Kernel) : Prop where
  entry : ∀ x, k.dmmapPageCount ≤ x → x < globlPageNum → getPageAttr (k.globlMmapPte x) = 0 →
    k.globlMmapPte x = 0
  count_lt : k.vmmFreePageCount < 2 ^ 32

theorem dmmapPageCount_pos_of_reachable {b : KernelBoot} (hk : (memMachine b).Reachable k) :
    0 < k.dmmapPageCount := by
  rw [dmmapPageCount_of_reachable hk]
  exact b.dmmapPageCount_pos

theorem Clean.of_reachable {b : KernelBoot} (hk : (memMachine b).Reachable k) : k.Clean := by
  induction hk with
  | init hinit =>
      obtain ⟨memory, behind, page, rfl⟩ := hinit
      obtain ⟨pte, hinit, -, hzero⟩ := vmmInit_eq b memory behind page
      rw [hinit]
      refine ⟨fun x hle hlt _ => hzero x hle hlt, ?_⟩
      dsimp only
      lia
  | step hs hstep ih =>
      obtain ⟨r, hcall⟩ := hstep
      have hentries := Reenters.of_returns (dmmapPageCount_pos_of_reachable hs) hcall
      refine ⟨fun x hle hlt hnone => ?_, hentries.count_lt ih.count_lt⟩
      rw [(Keeps.of_returns hcall).dmmapPageCount] at hle
      rcases hentries.entry x hlt with heq | heq | hne
      · rw [heq] at hnone ⊢
        exact ih.entry x hle hlt hnone
      · exact heq
      · exact absurd hnone hne

/-! ## The entries of a run -/

/-- The entry of the page `x` of the window. -/
def windowEntry (k : Kernel) (x : ℕ) : ℕ := k.globlMmapPte (k.dmmapPageCount + x)

theorem sameWindow_iff (hdmmap : k'.dmmapPageCount = k.dmmapPageCount) :
    k.SameWindow k' ↔ (∀ x < k.vmmapPageCount, k'.windowEntry x = k.windowEntry x) ∧
      k'.vmmFreePageCount = k.vmmFreePageCount := by
  have hpages := k.page_count
  unfold windowEntry
  rw [hdmmap]
  constructor
  · intro h
    exact ⟨fun x hx => h.entry _ (Nat.le_add_right _ x) (by omega), h.count⟩
  · rintro ⟨hentry, hcount⟩
    refine ⟨fun x hle hlt => ?_, hcount⟩
    have hx := hentry (x - k.dmmapPageCount) (by omega)
    rwa [Nat.add_sub_cancel' hle] at hx

theorem getGloblPageIndex_eq_iff {x y : ℕ} (hx : x < k.vmmapPageCount) (hy : y < 2 ^ 32) :
    k.getGloblPageIndex y = k.dmmapPageCount + x ↔ y = x := by
  have hpages := k.page_count
  unfold getGloblPageIndex
  rw [add32_eq]
  lia

theorem windowEntry_globlPageRemove {x y : ℕ} (hx : x < k.vmmapPageCount) (hy : y < 2 ^ 32) :
    (k.globlPageRemove (k.getGloblPageIndex y)).windowEntry x =
      if y = x then 0 else k.windowEntry x := by
  have hpages := k.page_count
  obtain ⟨pte, hremove, hframe, hzero⟩ := k.globlPageRemove_eq (k.getGloblPageIndex y)
  rw [hremove]
  unfold windowEntry
  dsimp only
  by_cases hyx : y = x
  · rw [if_pos hyx]
    have hindex := (getGloblPageIndex_eq_iff hx hy).2 hyx
    rw [hindex] at hzero
    exact hzero (by omega)
  · rw [if_neg hyx]
    refine hframe _ fun heq => hyx ((getGloblPageIndex_eq_iff hx hy).1 heq.symm)

theorem windowEntry_globlPageMmap {f x y : ℕ} (hx : x < k.vmmapPageCount) (hy : y < 2 ^ 32) :
    (k.globlPageMmap f (k.getGloblPageIndex y)).windowEntry x =
      if y = x then setPage (f * pageSize) pageKernel else k.windowEntry x := by
  have hpages := k.page_count
  obtain ⟨pte, hmmap, hframe, hset⟩ := k.globlPageMmap_eq f (k.getGloblPageIndex y)
  rw [hmmap]
  unfold windowEntry
  dsimp only
  by_cases hyx : y = x
  · rw [if_pos hyx]
    have hindex := (getGloblPageIndex_eq_iff hx hy).2 hyx
    rw [hindex] at hset
    exact hset (by omega)
  · rw [if_neg hyx]
    refine hframe _ fun heq => hyx ((getGloblPageIndex_eq_iff hx hy).1 heq.symm)

/-- The pages of the window from `head` on, up to the `n`-th, show frames, and the others are
as in `k`. -/
structure Shows (k k' : Kernel) (head n : ℕ) : Prop where
  dmmap : k'.dmmapPageCount = k.dmmapPageCount
  count : k'.vmmFreePageCount = k.vmmFreePageCount
  bits : k'.pmm.pmmBitmapLength = k.pmm.pmmBitmapLength
  other : ∀ x < k.vmmapPageCount, (∀ m < n, add32 head m ≠ x) → k'.windowEntry x = k.windowEntry x
  shown : ∀ m < n, add32 head m < k.vmmapPageCount →
    getPageAttr (k'.windowEntry (add32 head m)) ≠ 0

theorem vmmapPageCount_congr (h : k'.dmmapPageCount = k.dmmapPageCount) :
    k'.vmmapPageCount = k.vmmapPageCount := by
  have hpages := k.page_count
  have hpages' := k'.page_count
  omega

theorem Shows.refl (k : Kernel) (head : ℕ) : Shows k k head 0 :=
  ⟨rfl, rfl, rfl, fun _ _ _ => rfl, fun m hm => absurd hm (Nat.not_lt_zero m)⟩

theorem Shows.next {k₁ : Kernel} {head n f : ℕ} (h : Shows k k₁ head n) (hf : f ≠ 0) :
    Shows k (k₁.globlPageMmap f (k₁.getGloblPageIndex (add32 head n))) head (n + 1) := by
  have hpages := vmmapPageCount_congr h.dmmap
  obtain ⟨pte, hmmap, -⟩ := k₁.globlPageMmap_eq f (k₁.getGloblPageIndex (add32 head n))
  have hentry : ∀ x < k.vmmapPageCount,
      (k₁.globlPageMmap f (k₁.getGloblPageIndex (add32 head n))).windowEntry x =
        if add32 head n = x then setPage (f * pageSize) pageKernel else k₁.windowEntry x :=
    fun x hx => windowEntry_globlPageMmap (by rw [hpages]; exact hx) (add32_lt head n)
  refine ⟨?_, ?_, ?_, fun x hx hout => ?_, fun m hm hx => ?_⟩
  · rw [hmmap]
    exact h.dmmap
  · rw [hmmap]
    exact h.count
  · rw [hmmap]
    exact h.bits
  · rw [hentry x hx, if_neg (hout n (Nat.lt_succ_self n))]
    exact h.other x hx fun m hm => hout m (by omega)
  · rw [hentry _ hx]
    by_cases heq : add32 head n = add32 head m
    · rw [if_pos heq]
      exact getPageAttr_kernelPage hf
    · rw [if_neg heq]
      refine h.shown m ?_ hx
      by_contra hlt
      exact heq (congrArg (add32 head) (by omega))

/-- The page at `attr` is mapped, or there is a frame for it. -/
def Had (k : Kernel) (attr pde : ℕ) : Prop :=
  getPageAttr (k.getUmmValue attr pde) ≠ 0 ∨ k.pmm.reach.Nonempty

theorem pmmAllocPage_ne_zero_iff (hbits : k.pmm.pmmBitmapLength ≤ 0x20000) :
    k.pmm.pmmAllocPage.1 ≠ 0 ↔ k.pmm.reach.Nonempty := by
  rcases k.pmm.pmmAllocPage_cases with ⟨p, hp, -, -, heq⟩ | ⟨hnone, heq⟩
  · rw [heq]
    exact iff_of_true (Pmm.address_ne_zero hbits hp) ⟨p, hp⟩
  · rw [heq, hnone]
    exact iff_of_false (fun h => h rfl) Finset.not_nonempty_empty

theorem pdePage_ne_zero_iff (hbits : k.pmm.pmmBitmapLength ≤ 0x20000) (attr pde : ℕ) :
    (k.pdePage attr pde).1 ≠ 0 ↔ k.Had attr pde := by
  unfold pdePage Had
  dsimp only
  rw [← pmmAllocPage_ne_zero_iff hbits]
  by_cases hmapped : getPageAttr (k.getUmmValue attr pde) = 0
  · rw [if_pos hmapped]
    by_cases halloc : k.pmm.pmmAllocPage.1 ≠ 0
    · rw [if_pos halloc]
      exact iff_of_true halloc (.inr halloc)
    · rw [if_neg halloc]
      refine iff_of_false (fun h => h rfl) ?_
      rintro (hne | hne)
      · exact hne hmapped
      · exact halloc hne
  · rw [if_neg hmapped]
    exact iff_of_true hmapped (.inl hmapped)

/-- The loop of `vmm_mmap_pde_page` shows every page of the range when each can be had, and
stops at the first one that cannot. -/
theorem vmmMmapPdeLoop_outcome {k₀ : Kernel} {head attr pde : ℕ} (rem i : ℕ) (k : Kernel)
    (h : Shows k₀ k head i) (hbits : k₀.pmm.pmmBitmapLength ≤ 0x20000) :
    (EachPage (fun k attr => k.Had attr pde) head attr pde rem i k ∧
      ∃ k', vmmMmapPdeLoop head attr pde rem i k = (true, k') ∧ Shows k₀ k' head (i + rem)) ∨
    (¬ EachPage (fun k attr => k.Had attr pde) head attr pde rem i k ∧
      ∃ j k₁, i ≤ j ∧ j < i + rem ∧ Shows k₀ k₁ head j ∧
        (j = i ↔ ¬ k.Had (add32 attr (mul32 i pageSize)) pde) ∧
        vmmMmapPdeLoop head attr pde rem i k = (false, vmmMmapPdeUndo head j k₁)) := by
  induction rem generalizing i k with
  | zero => exact .inl ⟨trivial, k, rfl, h⟩
  | succ rem ih =>
      have hlen : k.pmm.pmmBitmapLength ≤ 0x20000 := by
        rw [h.bits]
        exact hbits
      have hhad := pdePage_ne_zero_iff hlen (add32 attr (mul32 i pageSize)) pde
      obtain ⟨phyAttr, pmm, page, hpage, hlen', hne⟩ :=
        k.pdePage_eq (add32 attr (mul32 i pageSize)) pde
      have h₁ : Shows k₀ { k with pmm := pmm, page := page } head i :=
        ⟨h.dmmap, h.count, hlen'.trans h.bits, h.other, h.shown⟩
      rw [hpage] at hhad
      dsimp only at hhad
      rw [vmmMmapPdeLoop, EachPage, hpage]
      dsimp only
      by_cases hattr : phyAttr ≠ 0
      · rw [if_pos hattr]
        have hcan := hhad.1 hattr
        rcases ih (i + 1) _ (h₁.next (hne hattr)) with ⟨heach, k', hloop, hshows⟩ |
          ⟨heach, j, k₁, hij, hj, hshows, -, hloop⟩
        · refine .inl ⟨⟨hcan, fun _ _ heq _ => ?_⟩, k', hloop, ?_⟩
          · obtain ⟨rfl, rfl⟩ := Prod.mk.inj heq
            exact heach
          · rw [show i + (rem + 1) = i + 1 + rem by omega]
            exact hshows
        · refine .inr ⟨fun hall => heach (hall.2 _ _ rfl hattr), j, k₁, by omega, by omega, hshows,
            iff_of_false (by omega) (not_not.2 hcan), hloop⟩
      · rw [if_neg hattr]
        have hcannot : ¬ k.Had (add32 attr (mul32 i pageSize)) pde := fun hcan => hattr (hhad.2 hcan)
        exact .inr ⟨fun hall => hcannot hall.1, i, _, le_rfl, by omega, h₁,
          iff_of_true rfl hcannot, rfl⟩

theorem add32_head {p count j : ℕ} (hp : p < 2 ^ 32) (hcount : count < 2 ^ 32) (hj : j < count) :
    add32 (add32 (sub32 p count) 1) j = DownScan.below 32 p (count - 1 - j) := by
  rw [← DownScan.sub_eq_below hp (by omega), add32_eq, add32_eq]
  unfold sub32 Word.sub
  omega

theorem Clean.windowEntry_eq_zero (h : k.Clean) {count p : ℕ} (hsettles : k.VmmSettles count p)
    (hcount : count < 2 ^ 32) {j : ℕ} (hj : j < count)
    (hx : add32 (add32 (sub32 p count) 1) j < k.vmmapPageCount) :
    k.windowEntry (add32 (add32 (sub32 p count) 1) j) = 0 := by
  have hpages := k.page_count
  obtain ⟨-, n, hp, hrun, -⟩ := hsettles
  have hp32 : p < 2 ^ 32 := hp ▸ DownScan.below_lt 32 k.vmmPos n
  have hfree := hrun (count - 1 - j) (by omega)
  rw [← add32_head hp32 hcount hj] at hfree
  have hnone := not_not.1 (of_decide_eq_false hfree)
  unfold getVmmPage at hnone
  rw [if_pos hx, getGloblPageIndex_of_lt hx] at hnone
  exact h.entry _ (Nat.le_add_right _ _) (by omega) hnone

/-- The loop that takes entries back clears those behind the first. -/
theorem windowEntry_vmmMmapPdeUndo (head i : ℕ) (k : Kernel) {x : ℕ} (hx : x < k.vmmapPageCount) :
    ((∃ j, 1 ≤ j ∧ j ≤ i ∧ add32 head j = x) → (vmmMmapPdeUndo head i k).windowEntry x = 0) ∧
      ((∀ j, 1 ≤ j → j ≤ i → add32 head j ≠ x) →
        (vmmMmapPdeUndo head i k).windowEntry x = k.windowEntry x) := by
  induction i generalizing k with
  | zero =>
      refine ⟨?_, fun _ => rfl⟩
      rintro ⟨j, hj, hji, -⟩
      omega
  | succ i ih =>
      have hentry := windowEntry_globlPageRemove hx (add32_lt head (i + 1))
      obtain ⟨pte, hremove, -⟩ := k.globlPageRemove_eq (k.getGloblPageIndex (add32 head (i + 1)))
      have hpages : x < (k.globlPageRemove (k.getGloblPageIndex (add32 head (i + 1)))).vmmapPageCount := by
        rw [hremove]
        exact hx
      obtain ⟨hin, hout⟩ := ih _ hpages
      rw [vmmMmapPdeUndo]
      constructor
      · rintro ⟨j, hj, hji, hjx⟩
        by_cases hrest : ∃ j, 1 ≤ j ∧ j ≤ i ∧ add32 head j = x
        · exact hin hrest
        · rw [hout fun j hj hji hjx => hrest ⟨j, hj, hji, hjx⟩, hentry, if_pos]
          by_cases hlast : j = i + 1
          · rw [← hlast]
            exact hjx
          · exact absurd ⟨j, hj, by omega, hjx⟩ hrest
      · intro hno
        rw [hout fun j hj hji => hno j hj (by omega), hentry, if_neg (hno (i + 1) (by omega) le_rfl)]

/-- A window that ran out of frames leaves no trace when none of its pages was had, or when
its first page does not belong to the window. -/
theorem sameWindow_undo_iff {k₁ : Kernel} {head count j : ℕ} (hcount : count < 2 ^ 32)
    (hhead : head < 2 ^ 32) (hj : j < count) (hshows : Shows k k₁ head j)
    (hfree : ∀ m < count, add32 head m < k.vmmapPageCount → k.windowEntry (add32 head m) = 0) :
    k.SameWindow (vmmMmapPdeUndo head j k₁) ↔ j = 0 ∨ k.vmmapPageCount ≤ head := by
  have hpages := vmmapPageCount_congr hshows.dmmap
  have hfirst : add32 head 0 = head := by
    rw [add32_eq]
    omega
  have hdistinct : ∀ m, 1 ≤ m → m ≤ j → add32 head m ≠ head := by
    intro m hm hmj
    rw [add32_eq]
    omega
  obtain ⟨pte, hundo, -⟩ := vmmMmapPdeUndo_eq head j k₁
  have hentry : ∀ x < k.vmmapPageCount, _ := fun x hx =>
    windowEntry_vmmMmapPdeUndo head j k₁ (x := x) (by rw [hpages]; exact hx)
  rw [sameWindow_iff (by rw [hundo]; exact hshows.dmmap)]
  constructor
  · rintro ⟨hsame, -⟩
    by_contra hcon
    push Not at hcon
    obtain ⟨hj0, hin⟩ := hcon
    -- the entry of the first page is mapped and never cleared
    have hkept := (hentry head hin).2 hdistinct
    have hzero := hfree 0 (by omega) (by rw [hfirst]; exact hin)
    have hshown := hshows.shown 0 (by omega) (by rw [hfirst]; exact hin)
    rw [hfirst] at hzero hshown
    rw [hsame head hin, hzero] at hkept
    rw [← hkept] at hshown
    exact hshown rfl
  · intro hcond
    refine ⟨fun x hx => ?_, ?_⟩
    · by_cases hcleared : ∃ m, 1 ≤ m ∧ m ≤ j ∧ add32 head m = x
      · rw [(hentry x hx).1 hcleared]
        obtain ⟨m, -, hmj, rfl⟩ := hcleared
        exact (hfree m (by omega) hx).symm
      · rw [(hentry x hx).2 fun m hm hmj hmx => hcleared ⟨m, hm, hmj, hmx⟩]
        refine hshows.other x hx fun m hm hmx => ?_
        by_cases hm0 : m = 0
        · rw [hm0, hfirst] at hmx
          omega
        · exact hcleared ⟨m, by omega, by omega, hmx⟩
    · rw [hundo]
      exact hshows.count

/-- The page that the address of a run from `head` on names. -/
def runIndex (k : Kernel) (head : ℕ) : ℕ := add32 k.dmmapPageCount head % 2 ^ 20

theorem address_eq (k : Kernel) (head : ℕ) :
    mul32 (k.getGloblPageIndex head) pageSize = k.runIndex head * pageSize := by
  unfold runIndex getGloblPageIndex
  rw [mul32_eq]
  lia

/-- A run is given back by its address: it lies in the window; or nothing of it does, and its
address names pages behind the window or empty ones. -/
def GivenBack (k : Kernel) (head count : ℕ) : Prop :=
  head + count ≤ k.vmmapPageCount ∨
    (k.vmmapPageCount ≤ head ∧ head + count ≤ 2 ^ 32 ∧ k.dmmapPageCount ≤ k.runIndex head ∧
      (k.vmmapPageCount < k.runIndex head - k.dmmapPageCount + count ∨
        ∀ j < count, k.windowEntry (k.runIndex head - k.dmmapPageCount + j) = 0))

theorem windowEntry_vmmUmmapLoop (index count : ℕ) (k : Kernel) {x : ℕ}
    (hx : x < k.vmmapPageCount) :
    ((∃ j < count, add32 index j = x) → (vmmUmmapLoop index count k).windowEntry x = 0) ∧
      ((∀ j < count, add32 index j ≠ x) →
        (vmmUmmapLoop index count k).windowEntry x = k.windowEntry x) := by
  induction count with
  | zero =>
      refine ⟨?_, fun _ => rfl⟩
      rintro ⟨j, hj, -⟩
      omega
  | succ count ih =>
      obtain ⟨pte, hloop, -⟩ := vmmUmmapLoop_eq index count k
      have hpages : x < (vmmUmmapLoop index count k).vmmapPageCount := by
        rw [hloop]
        exact hx
      have hentry := windowEntry_globlPageRemove hpages (add32_lt index count)
      have hsame : vmmUmmapLoop index (count + 1) k = (vmmUmmapLoop index count k).globlPageRemove
          ((vmmUmmapLoop index count k).getGloblPageIndex (add32 index count)) := by
        rw [vmmUmmapLoop]
      rw [hsame, hentry]
      constructor
      · rintro ⟨j, hj, hjx⟩
        by_cases hlast : add32 index count = x
        · rw [if_pos hlast]
        · rw [if_neg hlast]
          refine ih.1 ⟨j, ?_, hjx⟩
          by_contra hcount
          exact hlast ((congrArg (add32 index) (by omega)).trans hjx)
      · intro hno
        rw [if_neg (hno count (Nat.lt_succ_self count))]
        exact ih.2 fun j hj => hno j (by omega)

/-- Closing a window behind the direct pages restores the count, and clears its entries when
they lie in the window. -/
theorem vmmUmmapPage_entries {index count : ℕ} (hindex : k.dmmapPageCount ≤ index)
    (hsmall : index + count < 2 ^ 32) {k' : Kernel}
    (hk : k.vmmUmmapPage (index * pageSize) count = k') :
    k'.dmmapPageCount = k.dmmapPageCount ∧
      k'.vmmFreePageCount = add32 k.vmmFreePageCount count ∧
      ∀ x < k.vmmapPageCount,
        ((index - k.dmmapPageCount + count ≤ k.vmmapPageCount ∧
            ∃ j < count, index - k.dmmapPageCount + j = x) → k'.windowEntry x = 0) ∧
        (¬ (index - k.dmmapPageCount + count ≤ k.vmmapPageCount ∧
            ∃ j < count, index - k.dmmapPageCount + j = x) →
          k'.windowEntry x = k.windowEntry x) := by
  obtain ⟨t, ht⟩ : ∃ t, index - k.dmmapPageCount = t := ⟨_, rfl⟩
  have hsum : ∀ j ≤ count, add32 t j = t + j := fun j hj => add32_of_lt (by omega)
  have hraise : ∀ k : Kernel, (k.raiseVmmPos t count).dmmapPageCount = k.dmmapPageCount ∧
      (k.raiseVmmPos t count).vmmFreePageCount = k.vmmFreePageCount ∧
      (k.raiseVmmPos t count).windowEntry = k.windowEntry := by
    intro k
    unfold raiseVmmPos
    dsimp only
    split <;> exact ⟨rfl, rfl, rfl⟩
  obtain ⟨pte, hloop, -⟩ := vmmUmmapLoop_eq t count k
  unfold vmmUmmapPage at hk
  dsimp only at hk
  rw [Nat.mul_div_cancel _ (by decide), if_pos hindex, ht, hsum count le_rfl] at hk
  rw [ht]
  by_cases hin : t + count ≤ k.vmmapPageCount
  · rw [if_pos hin] at hk
    obtain ⟨hdmmap, hcount, hentry⟩ := hraise (vmmUmmapLoop t count k)
    rw [← hk]
    refine ⟨?_, ?_, fun x hx => ?_⟩
    · dsimp only
      rw [hdmmap, hloop]
    · dsimp only
      rw [hcount, hloop]
    · obtain ⟨hcleared, hkept⟩ := windowEntry_vmmUmmapLoop t count k hx
      have hsame : (windowEntry { (vmmUmmapLoop t count k).raiseVmmPos t count with
          vmmFreePageCount := add32 ((vmmUmmapLoop t count k).raiseVmmPos t count).vmmFreePageCount
            count }) x = (vmmUmmapLoop t count k).windowEntry x := congrFun hentry x
      rw [hsame]
      constructor
      · rintro ⟨-, j, hj, hjx⟩
        exact hcleared ⟨j, hj, (hsum j (by omega)).trans hjx⟩
      · intro hno
        refine hkept fun j hj hjx => hno ⟨hin, j, hj, ?_⟩
        rwa [hsum j (by omega)] at hjx
  · rw [if_neg hin] at hk
    rw [← hk]
    exact ⟨rfl, rfl, fun x hx => ⟨fun h => absurd h.1 hin, fun _ => rfl⟩⟩

section Run

variable {head count : ℕ} (hmax : k.dmmapPageCount ≤ dmmapPageMax)
  (hcount32 : count ≤ pageOffset / pageSize) (hhead : head < 2 ^ 32)
  (hle : k.dmmapPageCount ≤ k.runIndex head)

include hmax hcount32 hhead hle

/-- A run is given back when all of its pages in the window are among those that are cleared, and
what is cleared was empty. -/
theorem givenBack_of_cleared (hcount : 1 ≤ count)
    (hcleared : ∀ m < count, add32 head m < k.vmmapPageCount →
      k.runIndex head - k.dmmapPageCount + count ≤ k.vmmapPageCount ∧
        ∃ j < count, k.runIndex head - k.dmmapPageCount + j = add32 head m)
    (hempty : k.runIndex head - k.dmmapPageCount + count ≤ k.vmmapPageCount →
      ∀ j < count, k.windowEntry (k.runIndex head - k.dmmapPageCount + j) = 0) :
    k.GivenBack head count := by
  have hpages : k.dmmapPageCount + k.vmmapPageCount = 0x30000 := k.page_count
  replace hmax : k.dmmapPageCount ≤ 0x20000 := hmax
  replace hcount32 : count ≤ 0xc0000 := hcount32
  have hindex : k.runIndex head = (k.dmmapPageCount + head) % 2 ^ 32 % 2 ^ 20 := by
    unfold runIndex
    rw [add32_eq]
  by_cases hin : head + count ≤ k.vmmapPageCount
  · exact .inl hin
  have habove : k.vmmapPageCount ≤ head := by
    by_contra hbelow
    obtain ⟨hfit, j, hj, hjx⟩ := hcleared 0 (by omega) (by rw [add32_eq]; omega)
    rw [add32_eq] at hjx
    omega
  have hend : head + count ≤ 2 ^ 32 := by
    by_contra hwrap
    have hzero : add32 head (2 ^ 32 - head) = 0 := by
      rw [add32_eq]
      omega
    obtain ⟨hfit, j, hj, hjx⟩ := hcleared (2 ^ 32 - head) (by omega) (by rw [hzero]; lia)
    rw [hzero] at hjx
    lia
  refine .inr ⟨habove, hend, hle, ?_⟩
  by_cases hfit : k.runIndex head - k.dmmapPageCount + count ≤ k.vmmapPageCount
  · exact .inr (hempty hfit)
  · exact .inl (Nat.lt_of_not_le hfit)

theorem GivenBack.windowEntry_eq (h : k.GivenBack head count) {k₂ k₃ : Kernel}
    (hfree : ∀ m < count, add32 head m < k.vmmapPageCount → k.windowEntry (add32 head m) = 0)
    (hother : ∀ x < k.vmmapPageCount, (∀ m < count, add32 head m ≠ x) →
      k₂.windowEntry x = k.windowEntry x)
    (hentry : ∀ x < k.vmmapPageCount,
      ((k.runIndex head - k.dmmapPageCount + count ≤ k.vmmapPageCount ∧
          ∃ j < count, k.runIndex head - k.dmmapPageCount + j = x) → k₃.windowEntry x = 0) ∧
        (¬ (k.runIndex head - k.dmmapPageCount + count ≤ k.vmmapPageCount ∧
            ∃ j < count, k.runIndex head - k.dmmapPageCount + j = x) →
          k₃.windowEntry x = k₂.windowEntry x)) {x : ℕ} (hx : x < k.vmmapPageCount) :
    k₃.windowEntry x = k.windowEntry x := by
  have hpages : k.dmmapPageCount + k.vmmapPageCount = 0x30000 := k.page_count
  replace hmax : k.dmmapPageCount ≤ 0x20000 := hmax
  replace hcount32 : count ≤ 0xc0000 := hcount32
  have hindex : k.runIndex head = (k.dmmapPageCount + head) % 2 ^ 32 % 2 ^ 20 := by
    unfold runIndex
    rw [add32_eq]
  unfold GivenBack at h
  obtain ⟨t, ht⟩ : ∃ t, k.runIndex head - k.dmmapPageCount = t := ⟨_, rfl⟩
  rw [ht] at h hentry
  rcases h with hin | ⟨habove, hend, -, hrest⟩
  · -- the pages that are cleared are those of the run
    have hthead : t = head := by lia
    have hsum : ∀ j < count, add32 head j = head + j := fun j hj => add32_of_lt (by lia)
    by_cases hrun : ∃ j < count, t + j = x
    · rw [(hentry x hx).1 ⟨by omega, hrun⟩]
      obtain ⟨j, hj, rfl⟩ := hrun
      have hzero := hfree j hj (by rw [hsum j hj]; omega)
      rw [hsum j hj] at hzero
      rw [hthead]
      exact hzero.symm
    · rw [(hentry x hx).2 fun h => hrun h.2]
      refine hother x hx fun m hm hmx => hrun ⟨m, hm, ?_⟩
      rw [hthead, ← hsum m hm]
      exact hmx
  · -- the run lies behind the window
    have hsame : k₂.windowEntry x = k.windowEntry x := by
      refine hother x hx fun m hm hmx => ?_
      rw [add32_eq] at hmx
      omega
    by_cases hclear : t + count ≤ k.vmmapPageCount ∧ ∃ j < count, t + j = x
    · rw [(hentry x hx).1 hclear]
      obtain ⟨hfit, j, hj, rfl⟩ := hclear
      rcases hrest with hlt | hempty
      · omega
      · exact (hempty j hj).symm
    · rw [(hentry x hx).2 hclear, hsame]

end Run

/-- A window whose pages are all shown leaves no trace, once it is closed, exactly when its
run is given back by its address. -/
theorem givenBack_iff {k₁ : Kernel} (k₂ : Kernel) {head count : ℕ} (h : k.Clean)
    (hdirect : 0 < k.dmmapPageCount) (hmax : k.dmmapPageCount ≤ dmmapPageMax)
    (hcount : 1 ≤ count) (hcount32 : count ≤ pageOffset / pageSize) (hhead : head < 2 ^ 32)
    (hshows : Shows k k₁ head count)
    (hfree : ∀ m < count, add32 head m < k.vmmapPageCount → k.windowEntry (add32 head m) = 0)
    (hdmmap : k₂.dmmapPageCount = k₁.dmmapPageCount) (hentries : k₂.windowEntry = k₁.windowEntry)
    (htaken : k₂.vmmFreePageCount = sub32 k.vmmFreePageCount count) :
    ((k.runIndex head * pageSize = 0 → k.SameWindow k₂) ∧
      (k.runIndex head * pageSize ≠ 0 →
        k.SameWindow (k₂.vmmUmmapPage (k.runIndex head * pageSize) count))) ↔
      k.GivenBack head count := by
  have hpages : k.dmmapPageCount + k.vmmapPageCount = 0x30000 := k.page_count
  have hd₂ : k₂.dmmapPageCount = k.dmmapPageCount := hdmmap.trans hshows.dmmap
  have hv₂ := vmmapPageCount_congr hd₂
  have hlt := h.count_lt
  have hindexlt : k.runIndex head < 2 ^ 20 := Nat.mod_lt _ (by decide)
  have hsmall : count < 2 ^ 32 := Nat.lt_of_le_of_lt hcount32 (by decide)
  have htook : ¬ k.SameWindow k₂ := by
    intro hsame
    refine sub32_ne hcount hsmall (htaken.symm.trans ?_)
    exact hsame.count
  have hother : ∀ x < k.vmmapPageCount, (∀ m < count, add32 head m ≠ x) →
      k₂.windowEntry x = k.windowEntry x := by
    intro x hx hout
    rw [hentries]
    exact hshows.other x hx hout
  have hshown : ∀ m < count, add32 head m < k.vmmapPageCount →
      k₂.windowEntry (add32 head m) ≠ k.windowEntry (add32 head m) := by
    intro m hm hx heq
    have hne := hshows.shown m hm hx
    rw [← hentries, heq, hfree m hm hx] at hne
    exact hne rfl
  by_cases hle : k.dmmapPageCount ≤ k.runIndex head
  · -- the window is closed by its entries
    have hne : k.runIndex head * pageSize ≠ 0 := Nat.mul_ne_zero (by omega) (by decide)
    obtain ⟨k₃, hk₃⟩ : ∃ k₃, k₂.vmmUmmapPage (k.runIndex head * pageSize) count = k₃ := ⟨_, rfl⟩
    obtain ⟨hd₃, hc₃, hentry⟩ := vmmUmmapPage_entries (by rw [hd₂]; exact hle)
      (by have h32 : count ≤ 0xc0000 := hcount32; lia) hk₃
    rw [hd₂, hv₂] at hentry
    rw [hk₃, sameWindow_iff (hd₃.trans hd₂), hc₃, htaken, add32_sub32_cancel hlt (Nat.le_of_lt hsmall)]
    constructor
    · intro hprop
      have hsame := (hprop.2 hne).1
      refine givenBack_of_cleared hmax hcount32 hhead hle hcount (fun m hm hx => ?_)
        fun hfit j hj => ?_
      · -- what the window shows at one of its own pages has to be cleared
        by_contra hno
        exact hshown m hm hx ((hentry _ hx).2 hno ▸ hsame _ hx)
      · have hx : k.runIndex head - k.dmmapPageCount + j < k.vmmapPageCount := by omega
        rw [← hsame _ hx]
        exact (hentry _ hx).1 ⟨hfit, j, hj, rfl⟩
    · intro hback
      exact ⟨fun h0 => absurd h0 hne, fun _ =>
        ⟨fun x hx => hback.windowEntry_eq hmax hcount32 hhead hle hfree hother hentry hx, rfl⟩⟩
  · -- the address names direct pages, which are not closed
    have hno : ¬ k.GivenBack head count := by
      rintro (hin | ⟨-, -, hge, -⟩)
      · have hdirect' : k.dmmapPageCount ≤ 0x20000 := hmax
        have hindex : k.runIndex head = (k.dmmapPageCount + head) % 2 ^ 32 % 2 ^ 20 := by
          unfold runIndex
          rw [add32_eq]
        lia
      · exact hle hge
    refine iff_of_false (fun hprop => htook ?_) hno
    by_cases hzero : k.runIndex head * pageSize = 0
    · exact hprop.1 hzero
    · have hopen := hprop.2 hzero
      unfold vmmUmmapPage at hopen
      dsimp only at hopen
      rwa [Nat.mul_div_cancel _ (by decide), hd₂, if_neg hle] at hopen

/-! ## The call -/

/-- The page at `attr` is mapped to a frame that a direct page shows. -/
def ShowsDirect (k : Kernel) (attr pde : ℕ) : Prop :=
  getPageAttr (k.getUmmValue attr pde) ≠ 0 ∧
    getPageAttr (k.getUmmValue attr pde) / pageSize < k.dmmapPageCount

def EachHad (k : Kernel) (head attr pde count : ℕ) : Prop :=
  EachPage (fun k attr => k.Had attr pde) head attr pde count 0 k

/-- The run at `p` is given back by its address when each page of the range can be had, and
else not even the first can be had, or it does not belong to the window. -/
def RunRetraced (k : Kernel) (attr pde count p : ℕ) : Prop :=
  (k.EachHad (add32 (sub32 p count) 1) attr pde count →
      k.GivenBack (add32 (sub32 p count) 1) count) ∧
    (¬ k.EachHad (add32 (sub32 p count) 1) attr pde count →
      ¬ k.Had attr pde ∨ k.vmmapPageCount ≤ add32 (sub32 p count) 1)

/-- The range ends above `PAGE_OFFSET` or is empty, or its one page is shown by a direct
page, or the run that the scan settles at is retraced. -/
def Retraces (k : Kernel) (attr len pde : ℕ) : Prop :=
  pageOffset < attr + len ∨ ummPageCount attr len = 0 ∨
    (ummPageCount attr len = 1 ∧ k.ShowsDirect (pageBase attr) pde) ∨
    ∀ p, k.VmmSettles (ummPageCount attr len) p →
      k.RunRetraced (pageBase attr) pde (ummPageCount attr len) p

/-- A window at the page `n` that leaves the state `k'` is traceless: at once if its address
is `NULL`, and else after it is closed. -/
def Closes (k : Kernel) (n count : ℕ) (k' : Kernel) : Prop :=
  (n * pageSize = 0 → k.SameWindow k') ∧
    (n * pageSize ≠ 0 → k.SameWindow (k'.vmmUmmapPage (n * pageSize) count))

theorem SameWindow.refl (k : Kernel) : k.SameWindow k := ⟨fun _ _ _ => rfl, rfl⟩

section Range

variable {attr len : ℕ}

theorem ummPageCount_le (hin : attr + len ≤ pageOffset) :
    ummPageCount attr len ≤ pageOffset / pageSize := by
  replace hin : attr + len ≤ 0xc0000000 := hin
  rw [Tabled.ummPageCount_eq hin]
  lia

/-- The address that `umm_mmap_kmm` returns for a window at the page `n` names this page and
as many pages as the range has. -/
theorem ummUmmapKmm_window (hin : attr + len ≤ pageOffset) {n : ℕ} (hn : n < 2 ^ 20) :
    (sub32 (add32 (n * pageSize) attr) (pageBase attr) = n * pageSize + attr % pageSize) ∧
      ∀ k : Kernel, k.ummUmmapKmm (n * pageSize + attr % pageSize) len =
        k.vmmUmmapPage (n * pageSize) (ummPageCount attr len) := by
  replace hin : attr + len ≤ 0xc0000000 := hin
  have hbase : pageBase (n * pageSize + attr % pageSize) = n * pageSize := by
    unfold pageBase
    lia
  refine ⟨?_, fun k => ?_⟩
  · unfold pageBase
    rw [sub32_add32_of_lt (by lia) (by lia) (by lia)]
    lia
  · unfold ummUmmapKmm
    rw [hbase]
    congr 1
    rw [Tabled.ummPageCount_eq hin]
    unfold ummPageCount
    rw [hbase]
    have hbytes : sub32 (add32 (n * pageSize + attr % pageSize) len) (n * pageSize) =
        attr % pageSize + len := by
      rw [sub32_add32_of_lt (by lia) (by lia) (by lia)]
      lia
    rw [hbytes, sub32_add32_of_lt (by lia) (by decide) (by lia)]

theorem closes_iff (hin : attr + len ≤ pageOffset) {n : ℕ} (hn : n < 2 ^ 20) {r : ℕ}
    (hr : r = if n * pageSize = 0 then 0 else sub32 (add32 (n * pageSize) attr) (pageBase attr)) :
    ((r = 0 → k.SameWindow k') ∧ (r ≠ 0 → k.SameWindow (k'.ummUmmapKmm r len))) ↔
      k.Closes n (ummPageCount attr len) k' := by
  obtain ⟨haddr, hclose⟩ := ummUmmapKmm_window hin hn
  unfold Closes
  by_cases hzero : n * pageSize = 0
  · rw [if_pos hzero] at hr
    rw [hr]
    exact ⟨fun h => ⟨fun _ => h.1 rfl, fun hne => absurd hzero hne⟩,
      fun h => ⟨fun _ => h.1 hzero, fun hne => absurd rfl hne⟩⟩
  · rw [if_neg hzero, haddr] at hr
    have hne : r ≠ 0 := by omega
    rw [hr] at hne ⊢
    rw [hclose]
    exact ⟨fun h => ⟨fun h0 => absurd h0 hzero, fun _ => h.2 hne⟩,
      fun h => ⟨fun h0 => absurd h0 hne, fun _ => h.2 hzero⟩⟩

end Range

section Windows

variable {attr pde count fuel p : ℕ}

theorem VmmSettles.lt (h : k.VmmSettles count p) : p < 2 ^ 32 := by
  obtain ⟨-, n, hp, -⟩ := h
  exact hp ▸ DownScan.below_lt 32 k.vmmPos n

theorem closes_zero_iff : k.Closes 0 count k' ↔ k.SameWindow k' := by
  unfold Closes
  rw [Nat.zero_mul]
  exact ⟨fun h => h.1 rfl, fun h => ⟨fun _ => h, fun hne => absurd rfl hne⟩⟩

theorem runIndex_lt (k : Kernel) (head : ℕ) : k.runIndex head < 2 ^ 20 := Nat.mod_lt _ (by decide)

theorem vmmTake_eq {k₁ : Kernel} (hdmmap : k₁.dmmapPageCount = k.dmmapPageCount) (p count : ℕ) :
    (k₁.vmmTake p count).1 = k.runIndex (add32 (sub32 p count) 1) * pageSize := by
  rw [← address_eq]
  change mul32 (add32 k₁.dmmapPageCount (add32 (sub32 p count) 1)) pageSize =
    mul32 (add32 k.dmmapPageCount (add32 (sub32 p count) 1)) pageSize
  rw [hdmmap]

theorem eachHad_one_iff (hattr : attr < 2 ^ 32) (head : ℕ) :
    k.EachHad head attr pde 1 ↔ k.Had attr pde := by
  have hzero : add32 attr (mul32 0 pageSize) = attr := by
    rw [mul32_of_lt (by decide), Nat.zero_mul, add32_of_lt (by omega), Nat.add_zero]
  unfold EachHad
  rw [EachPage, hzero]
  exact ⟨fun h => h.1, fun h => ⟨h, fun _ _ _ _ => trivial⟩⟩

theorem vmmMmapPdePage_closes (pde : ℕ) (h : k.Clean) (hb : k.Bounded) (hdirect : 0 < k.dmmapPageCount)
    (hmax : k.dmmapPageCount ≤ dmmapPageMax) (hattr : attr < 2 ^ 32) (hcount : 1 ≤ count)
    (hcount32 : count ≤ pageOffset / pageSize) (hscan : k.vmmScan fuel count = some (some p)) :
    ∃ n k', n < 2 ^ 20 ∧ k.vmmMmapPdePage fuel attr count pde = some (n * pageSize, k') ∧
      (k.Closes n count k' ↔ k.RunRetraced attr pde count p) := by
  have hlt : count < 2 ^ 32 := by
    replace hcount32 : count ≤ 0xc0000 := hcount32
    omega
  have hsettles := vmmSettles_of_scan hb.vmmPos_lt hlt hscan
  have hfree := fun j hj => h.windowEntry_eq_zero hsettles hlt (j := j) hj
  have hzero : add32 attr (mul32 0 pageSize) = attr := by
    rw [mul32_of_lt (by decide), Nat.zero_mul, add32_of_lt (by omega), Nat.add_zero]
  have hcall : k.vmmMmapPdePage fuel attr count pde =
      some (if (vmmMmapPdeLoop (add32 (sub32 p count) 1) attr pde count 0 k).1 then
          (vmmMmapPdeLoop (add32 (sub32 p count) 1) attr pde count 0 k).2.vmmTake p count
        else (0, (vmmMmapPdeLoop (add32 (sub32 p count) 1) attr pde count 0 k).2)) := by
    unfold vmmMmapPdePage
    rw [hscan, Option.map_some]
    rcases hloop : vmmMmapPdeLoop (add32 (sub32 p count) 1) attr pde count 0 k with ⟨done, k₁⟩
    cases done with
    | true => simp only [hloop, if_true]
    | false => simp only [hloop, Bool.false_eq_true, if_false]
  unfold RunRetraced
  rcases vmmMmapPdeLoop_outcome count 0 k (Shows.refl k _) hb.pmmBitmapLength_le with
    ⟨heach, k₁, hloop, hshows⟩ | ⟨heach, j, k₁, -, hj, hshows, hfirst, hloop⟩
  · rw [Nat.zero_add] at hshows
    refine ⟨k.runIndex (add32 (sub32 p count) 1), (k₁.vmmTake p count).2, runIndex_lt k _, ?_, ?_⟩
    · rw [hcall, hloop, ← vmmTake_eq hshows.dmmap]
      rfl
    · have hiff := givenBack_iff (k₁.vmmTake p count).2 h hdirect hmax hcount hcount32
        (add32_lt _ _) hshows hfree rfl rfl (by rw [← hshows.count]; rfl)
      exact hiff.trans ⟨fun hback => ⟨fun _ => hback, fun hno => absurd heach hno⟩,
        fun hret => hret.1 heach⟩
  · rw [Nat.zero_add] at hj
    rw [hzero] at hfirst
    refine ⟨0, vmmMmapPdeUndo (add32 (sub32 p count) 1) j k₁, by decide, ?_, ?_⟩
    · rw [hcall, hloop, Nat.zero_mul]
      rfl
    · rw [closes_zero_iff, sameWindow_undo_iff hlt (add32_lt _ _) hj hshows hfree, hfirst]
      exact ⟨fun hsame => ⟨fun hyes => absurd hyes heach, fun _ => hsame⟩,
        fun hret => hret.2 heach⟩

theorem ummMmapOne_closes (h : k.Clean) (hb : k.Bounded) (hdirect : 0 < k.dmmapPageCount)
    (hmax : k.dmmapPageCount ≤ dmmapPageMax) (hattr : attr < 2 ^ 32)
    (hunmapped : getPageAttr (k.getUmmValue attr pde) = 0)
    (hscan : k.vmmScan fuel 1 = some (some p)) :
    ∃ n k', n < 2 ^ 20 ∧ k.ummMmapOne fuel attr pde = some (n * pageSize, k') ∧
      (k.Closes n 1 k' ↔ k.RunRetraced attr pde 1 p) := by
  have hsettles := vmmSettles_of_scan hb.vmmPos_lt (by decide) hscan
  have hfree := fun j hj => h.windowEntry_eq_zero hsettles (by decide) (j := j) hj
  have hhad : k.Had attr pde ↔ k.pmm.pmmAllocPage.1 ≠ 0 := by
    rw [pmmAllocPage_ne_zero_iff hb.pmmBitmapLength_le]
    exact ⟨fun h => h.resolve_left (not_not.2 hunmapped), .inr⟩
  unfold RunRetraced ummMmapOne
  dsimp only
  rw [eachHad_one_iff hattr, hhad, if_pos hunmapped, vmmAllocPage_of_scan hscan, vmmAllocLoop]
  dsimp only
  by_cases halloc : k.pmm.pmmAllocPage.1 ≠ 0
  · have htaken : Shows k { k with pmm := k.pmm.pmmAllocPage.2 } (add32 (sub32 p 1) 1) 0 :=
      ⟨rfl, rfl, k.pmm.pmmAllocPage_length, fun _ _ _ => rfl,
        fun m hm => absurd hm (Nat.not_lt_zero m)⟩
    have hshows := htaken.next (Pmm.pmmAllocPage_page_ne_zero halloc).1
    obtain ⟨k₁, hk₁⟩ : ∃ k₁, globlPageMmap { k with pmm := k.pmm.pmmAllocPage.2 }
      (k.pmm.pmmAllocPage.1 / pageSize) (k.getGloblPageIndex (add32 (add32 (sub32 p 1) 1) 0)) = k₁ :=
      ⟨_, rfl⟩
    have hshows₁ : Shows k k₁ (add32 (sub32 p 1) 1) 1 := hk₁ ▸ hshows
    rw [if_pos halloc]
    have hloop : vmmAllocLoop (add32 (sub32 p 1) 1) 0 (0 + 1)
        (globlPageMmap { k with pmm := k.pmm.pmmAllocPage.2 } (k.pmm.pmmAllocPage.1 / pageSize)
          (getGloblPageIndex { k with pmm := k.pmm.pmmAllocPage.2 }
            (add32 (add32 (sub32 p 1) 1) 0))) = (true, k₁) := by
      rw [vmmAllocLoop, ← hk₁]
      rfl
    rw [hloop, Option.map_some]
    dsimp only
    have haddr := vmmTake_eq hshows₁.dmmap p 1
    have hiff : ∀ k₂ : Kernel, k₂.dmmapPageCount = k₁.dmmapPageCount →
        k₂.windowEntry = k₁.windowEntry → k₂.vmmFreePageCount = sub32 k.vmmFreePageCount 1 →
        (k.Closes (k.runIndex (add32 (sub32 p 1) 1)) 1 k₂ ↔
          k.GivenBack (add32 (sub32 p 1) 1) 1) := fun k₂ hd he hc =>
      givenBack_iff k₂ h hdirect hmax le_rfl (by decide) (add32_lt _ _) hshows₁ hfree hd he hc
    have hclause : k.GivenBack (add32 (sub32 p 1) 1) 1 ↔
        (k.pmm.pmmAllocPage.1 ≠ 0 → k.GivenBack (add32 (sub32 p 1) 1) 1) ∧
          (¬ k.pmm.pmmAllocPage.1 ≠ 0 → ¬ k.pmm.pmmAllocPage.1 ≠ 0 ∨
            k.vmmapPageCount ≤ add32 (sub32 p 1) 1) :=
      ⟨fun hback => ⟨fun _ => hback, fun hno => absurd halloc hno⟩, fun hret => hret.1 halloc⟩
    by_cases hnull : (k₁.vmmTake p 1).1 ≠ 0
    · rw [if_pos hnull]
      obtain ⟨r, pmm, page, hset, -⟩ := (k₁.vmmTake p 1).2.setUmmValue_eq attr
        (setPage ((k₁.vmmTake p 1).2.getGloblPhyAttr (k₁.vmmTake p 1).1) pageUser) pde
      refine ⟨_, _, runIndex_lt k _, by rw [hset, haddr], ?_⟩
      rw [← hclause]
      exact hiff _ rfl rfl (by rw [← hshows₁.count]; rfl)
    · rw [if_neg hnull]
      refine ⟨_, _, runIndex_lt k _, by rw [← haddr], ?_⟩
      rw [← hclause]
      exact hiff _ rfl rfl (by rw [← hshows₁.count]; rfl)
  · rw [if_neg halloc]
    refine ⟨0, { k with pmm := k.pmm.pmmAllocPage.2 }, by decide, rfl, ?_⟩
    rw [closes_zero_iff]
    exact iff_of_true ⟨fun _ _ _ => rfl, rfl⟩ ⟨fun hyes => absurd hyes halloc, fun _ => .inl halloc⟩

theorem runFree_one_iff {busy : ℕ → Bool} {q : ℕ} (hq : q < 2 ^ 32) :
    DownScan.RunFree 32 busy 1 q ↔ busy q = false := by
  unfold DownScan.RunFree
  constructor
  · intro hrun
    have hfree := hrun 0 (by decide)
    rwa [DownScan.below_zero hq] at hfree
  · intro hfree i hi
    obtain rfl : i = 0 := by omega
    rwa [DownScan.below_zero hq]

/-- A scan for one page settles at the first free one from `vmm_pos` downward. -/
theorem vmmSettles_one (hpos : k.vmmPos < 2 ^ 32) {q : ℕ} (hq : 1 ≤ q) (hle : q ≤ k.vmmPos)
    (hfree : k.vmmBusy q = false) (habove : ∀ x, q < x → x ≤ k.vmmPos → k.vmmBusy x = true) :
    k.VmmSettles 1 q := by
  refine ⟨by omega, k.vmmPos - q, ?_, (runFree_one_iff (by omega)).2 hfree, fun d hd hrun => ?_,
    .inl (by omega)⟩
  · rw [DownScan.below_of_le hpos (by omega)]
    omega
  · rw [DownScan.below_of_le hpos (by omega), runFree_one_iff (by omega),
      habove _ (by omega) (by omega)] at hrun
    exact absurd hrun (by decide)

theorem not_vmmSettles_one (hpos : k.vmmPos < 2 ^ 32)
    (hbusy : ∀ x, 1 ≤ x → x ≤ k.vmmPos → k.vmmBusy x = true) (p : ℕ) : ¬ k.VmmSettles 1 p := by
  rintro ⟨hpos0, n, hp, hrun, -, hstop⟩
  rcases hstop with hn | hone
  · rw [hp, DownScan.below_of_le hpos (by omega), runFree_one_iff (by omega),
      hbusy _ (by omega) (by omega)] at hrun
    exact absurd hrun (by decide)
  · rw [hbusy 1 le_rfl (by omega)] at hone
    exact absurd hone (by decide)

/-- `vmm_mmap_page` of a frame behind the direct pages takes the first free page from `vmm_pos`
downward. -/
theorem vmmMmapLoop_first (k : Kernel) (phyAttr p : ℕ) :
    (k.vmmMmapLoop phyAttr p = (0, k) ∧ ∀ x, 1 ≤ x → x ≤ p → k.vmmBusy x = true) ∨
    ∃ q, 1 ≤ q ∧ q ≤ p ∧ k.vmmBusy q = false ∧ (∀ x, q < x → x ≤ p → k.vmmBusy x = true) ∧
      k.vmmMmapLoop phyAttr p = (mul32 (k.getGloblPageIndex q) pageSize,
        { k.globlPageMmap (phyAttr / pageSize) (k.getGloblPageIndex q) with
          vmmFreePageCount := sub32 k.vmmFreePageCount 1
          vmmPos := q }) := by
  induction p with
  | zero => exact .inl ⟨rfl, fun x hx hle => by omega⟩
  | succ p ih =>
      rw [vmmMmapLoop]
      by_cases hfree : k.getVmmPage (p + 1) = 0
      · rw [if_pos hfree]
        exact .inr ⟨p + 1, by omega, le_rfl, decide_eq_false (not_not.2 hfree),
          fun x hx hle => by omega, rfl⟩
      · rw [if_neg hfree]
        have hbusy : k.vmmBusy (p + 1) = true := decide_eq_true hfree
        have hstep : ∀ {q x : ℕ}, (∀ x, q ≤ x → x ≤ p → k.vmmBusy x = true) → q ≤ x → x ≤ p + 1 →
            k.vmmBusy x = true := by
          intro q x hall hx hle
          by_cases hlast : x = p + 1
          · rw [hlast]
            exact hbusy
          · exact hall x hx (by omega)
        rcases ih with ⟨hnone, hall⟩ | ⟨q, hq, hqp, hqfree, hall, hloop⟩
        · exact .inl ⟨hnone, fun x hx hle => hstep hall hx hle⟩
        · exact .inr ⟨q, hq, by omega, hqfree, fun x hx hle => hstep hall hx hle, hloop⟩

theorem vmmMmapPage_closes (h : k.Clean) (hb : k.Bounded) (hdirect : 0 < k.dmmapPageCount)
    (hmax : k.dmmapPageCount ≤ dmmapPageMax) (hattr : attr < 2 ^ 32) {phyAttr : ℕ}
    (hhad : k.Had attr pde) (hphy : ¬ phyAttr / pageSize < k.dmmapPageCount) :
    (k.vmmMmapPage phyAttr = (0, k) ∧ ∀ p, ¬ k.VmmSettles 1 p) ∨
    ∃ p n k', k.VmmSettles 1 p ∧ n < 2 ^ 20 ∧ k.vmmMmapPage phyAttr = (n * pageSize, k') ∧
      (k.Closes n 1 k' ↔ k.RunRetraced attr pde 1 p) := by
  unfold vmmMmapPage
  rw [if_neg hphy]
  rcases k.vmmMmapLoop_first phyAttr k.vmmPos with ⟨hnone, hbusy⟩ |
    ⟨q, hq, hqp, hqfree, habove, hloop⟩
  · exact .inl ⟨hnone, fun p => not_vmmSettles_one hb.vmmPos_lt hbusy p⟩
  · have hsettles := vmmSettles_one hb.vmmPos_lt hq hqp hqfree habove
    have hfree := fun j hj => h.windowEntry_eq_zero hsettles (by decide) (j := j) hj
    have hhead : add32 (sub32 q 1) 1 = q := add32_sub32_cancel hsettles.lt (by decide)
    have hfirst : add32 q 0 = q := add32_of_lt hsettles.lt
    rw [hhead] at hfree
    have hshows := (Shows.refl k q).next (by omega : phyAttr / pageSize ≠ 0)
    rw [hfirst] at hshows
    refine .inr ⟨q, k.runIndex q, _, hsettles, runIndex_lt k q, by rw [hloop, address_eq], ?_⟩
    unfold RunRetraced
    rw [eachHad_one_iff hattr, hhead]
    have hiff := givenBack_iff
      { k.globlPageMmap (phyAttr / pageSize) (k.getGloblPageIndex q) with
        vmmFreePageCount := sub32 k.vmmFreePageCount 1
        vmmPos := q }
      h hdirect hmax le_rfl (by decide) hsettles.lt hshows hfree rfl rfl rfl
    exact hiff.trans ⟨fun hback => ⟨fun _ => hback, fun hno => absurd hhad hno⟩,
      fun hret => hret.1 hhad⟩

theorem vmmMmapPdePage_zero (h : k.Clean) {r : ℕ}
    (hcall : k.vmmMmapPdePage fuel attr 0 pde = some (r, k')) :
    ∃ n, n < 2 ^ 20 ∧ r = n * pageSize ∧ k.Closes n 0 k' := by
  rcases vmmMmapPdePage_cases hcall with ⟨-, rfl, rfl⟩ | ⟨p, k₁, -, hreturn⟩
  · exact ⟨0, by decide, by rw [Nat.zero_mul], closes_zero_iff.2 (SameWindow.refl _)⟩
  · rw [vmmMmapPdeLoop] at hreturn
    rcases hreturn with ⟨hloop, hr, hk⟩ | ⟨hloop, -, -⟩
    · rw [← (Prod.mk.inj hloop).2] at hr hk
      have hsub : sub32 k.vmmFreePageCount 0 = k.vmmFreePageCount :=
        sub32_of_le (Nat.zero_le _) h.count_lt
      have hsame : k.SameWindow k' := by
        rw [hk]
        exact ⟨fun _ _ _ => rfl, hsub⟩
      have hdmmap : k'.dmmapPageCount = k.dmmapPageCount := by rw [hk]; rfl
      refine ⟨k.runIndex (add32 (sub32 p 0) 1), runIndex_lt k _, ?_, fun _ => hsame, fun _ => ?_⟩
      · rw [hr, vmmTake_eq rfl]
      · by_cases hle : k'.dmmapPageCount ≤ k.runIndex (add32 (sub32 p 0) 1)
        · have hlt := runIndex_lt k (add32 (sub32 p 0) 1)
          have hsmall : k.runIndex (add32 (sub32 p 0) 1) + 0 < 2 ^ 32 := by omega
          obtain ⟨hd, hc, hentry⟩ := vmmUmmapPage_entries hle hsmall rfl
          rw [sameWindow_iff (hd.trans hdmmap), hc]
          rw [sameWindow_iff hdmmap] at hsame
          refine ⟨fun x hx => ?_, ?_⟩
          · rw [← hsame.1 x hx]
            refine (hentry x (by rw [vmmapPageCount_congr hdmmap]; exact hx)).2 ?_
            rintro ⟨-, j, hj, -⟩
            omega
          · rw [hsame.2]
            exact add32_of_lt h.count_lt
        · unfold vmmUmmapPage
          dsimp only
          rw [Nat.mul_div_cancel _ (by decide), if_neg hle]
          exact hsame
    · exact absurd (Prod.mk.inj hloop).1 (by decide)

end Windows

/-- Where a scan settles, the call comes to that run; and no call opens a window elsewhere. -/
theorem traceless_of_windows {attr len pde : ℕ} (hin : attr + len ≤ pageOffset)
    (hcalls : ∀ fuel p k', (if ummPageCount attr len = 1 then k.ummMmapOne fuel (pageBase attr) pde
        else k.vmmMmapPdePage fuel (pageBase attr) (ummPageCount attr len) pde) = some (p, k') →
      (p = 0 ∧ k' = k) ∨ ∃ q n, k.VmmSettles (ummPageCount attr len) q ∧ n < 2 ^ 20 ∧
        p = n * pageSize ∧ (k.Closes n (ummPageCount attr len) k' ↔
          k.RunRetraced (pageBase attr) pde (ummPageCount attr len) q))
    (hreach : ∀ q, k.VmmSettles (ummPageCount attr len) q → ∃ fuel n k', n < 2 ^ 20 ∧
      (if ummPageCount attr len = 1 then k.ummMmapOne fuel (pageBase attr) pde
        else k.vmmMmapPdePage fuel (pageBase attr) (ummPageCount attr len) pde) =
          some (n * pageSize, k') ∧ (k.Closes n (ummPageCount attr len) k' ↔
            k.RunRetraced (pageBase attr) pde (ummPageCount attr len) q)) :
    k.Traceless attr len pde ↔ ∀ q, k.VmmSettles (ummPageCount attr len) q →
      k.RunRetraced (pageBase attr) pde (ummPageCount attr len) q := by
  have hadd : add32 attr len = attr + len := by
    replace hin : attr + len ≤ 0xc0000000 := hin
    exact add32_of_lt (by omega)
  have hcall : ∀ fuel, k.ummMmapKmm fuel attr len pde =
      (if ummPageCount attr len = 1 then k.ummMmapOne fuel (pageBase attr) pde
        else k.vmmMmapPdePage fuel (pageBase attr) (ummPageCount attr len) pde).map
        fun x => if x.1 = 0 then (0, x.2) else (sub32 (add32 x.1 attr) (pageBase attr), x.2) := by
    intro fuel
    unfold ummMmapKmm
    rw [hadd, if_neg (Nat.not_lt_of_le hin)]
  constructor
  · intro htrace q hsettles
    obtain ⟨fuel, n, k', hn, hwindow, hiff⟩ := hreach q hsettles
    refine hiff.1 ((closes_iff hin hn rfl).1 (htrace _ k' ⟨fuel, ?_⟩))
    rw [hcall, hwindow, Option.map_some]
    dsimp only
    split <;> rfl
  · rintro hall r k' ⟨fuel, hreturn⟩
    rw [hcall, Option.map_eq_some_iff] at hreturn
    obtain ⟨⟨p, k₁⟩, hwindow, hpair⟩ := hreturn
    have hr : r = (if p = 0 then 0 else sub32 (add32 p attr) (pageBase attr)) ∧ k' = k₁ := by
      dsimp only at hpair
      by_cases hp : p = 0
      · rw [if_pos hp] at hpair ⊢
        exact ⟨(Prod.mk.inj hpair).1.symm, (Prod.mk.inj hpair).2.symm⟩
      · rw [if_neg hp] at hpair ⊢
        exact ⟨(Prod.mk.inj hpair).1.symm, (Prod.mk.inj hpair).2.symm⟩
    obtain ⟨hr, rfl⟩ := hr
    rcases hcalls fuel p k' hwindow with ⟨rfl, rfl⟩ | ⟨q, n, hsettles, hn, rfl, hiff⟩
    · rw [if_pos rfl] at hr
      exact ⟨fun _ => SameWindow.refl _, fun hne => absurd hr hne⟩
    · exact (closes_iff hin hn hr).2 (hiff.2 (hall q hsettles))

section Traceless

variable {attr len pde : ℕ}

theorem pageBase_lt_of_le (hin : attr + len ≤ pageOffset) : pageBase attr < 2 ^ 32 := by
  replace hin : attr + len ≤ 0xc0000000 := hin
  unfold pageBase
  lia

theorem traceless_of_beyond (hwrap : attr + len < 2 ^ 32) (hout : pageOffset < attr + len) :
    k.Traceless attr len pde := by
  rintro r k' ⟨fuel, hreturn⟩
  rcases ummMmapKmm_cases hreturn with ⟨-, hr, rfl⟩ | ⟨p, hle, -⟩
  · exact ⟨fun _ => SameWindow.refl _, fun hne => absurd hr hne⟩
  · rw [add32_of_lt hwrap] at hle
    exact absurd hout (Nat.not_lt_of_le hle)

theorem Clean.traceless_of_zero (h : k.Clean) (hin : attr + len ≤ pageOffset)
    (hzero : ummPageCount attr len = 0) : k.Traceless attr len pde := by
  have hadd : add32 attr len = attr + len := by
    replace hin : attr + len ≤ 0xc0000000 := hin
    exact add32_of_lt (by omega)
  rintro r k' ⟨fuel, hreturn⟩
  rcases ummMmapKmm_cases hreturn with ⟨hbeyond, -⟩ | ⟨p, -, hr, ⟨hone, -⟩ | ⟨-, hwindow⟩⟩
  · rw [hadd] at hbeyond
    exact absurd hbeyond (Nat.not_lt_of_le hin)
  · omega
  · rw [hzero] at hwindow
    obtain ⟨n, hn, rfl, hcloses⟩ := vmmMmapPdePage_zero h hwindow
    refine (closes_iff hin hn hr).2 ?_
    rw [hzero]
    exact hcloses

/-- Nor does a page that a direct page shows: its window is that page, and closing it is
refused. -/
theorem traceless_of_showsDirect (hmax : k.dmmapPageCount ≤ dmmapPageMax)
    (hin : attr + len ≤ pageOffset) (hone : ummPageCount attr len = 1)
    (hdirect : k.ShowsDirect (pageBase attr) pde) : k.Traceless attr len pde := by
  obtain ⟨hmapped, hshown⟩ := hdirect
  have hadd : add32 attr len = attr + len := by
    replace hin : attr + len ≤ 0xc0000000 := hin
    exact add32_of_lt (by omega)
  rintro r k' ⟨fuel, hreturn⟩
  rcases ummMmapKmm_cases hreturn with ⟨hbeyond, -⟩ | ⟨p, -, hr, ⟨-, hwindow⟩ | ⟨hmany, -⟩⟩
  · rw [hadd] at hbeyond
    exact absurd hbeyond (Nat.not_lt_of_le hin)
  · unfold ummMmapOne vmmMmapPage at hwindow
    dsimp only at hwindow
    rw [if_neg hmapped, if_pos hshown, Option.some.injEq] at hwindow
    obtain ⟨rfl, rfl⟩ := Prod.mk.inj hwindow
    replace hmax : k.dmmapPageCount ≤ 0x20000 := hmax
    have hpage : getPageAttr (k.getUmmValue (pageBase attr) pde) =
        getPageAttr (k.getUmmValue (pageBase attr) pde) / pageSize * pageSize := by
      unfold getPageAttr
      rw [Nat.mul_div_cancel _ (by decide)]
    rw [hpage] at hr
    refine (closes_iff hin (by omega) hr).2 ⟨fun _ => SameWindow.refl k, fun _ => ?_⟩
    unfold vmmUmmapPage
    dsimp only
    rw [Nat.mul_div_cancel _ (by decide), if_neg (Nat.not_le_of_lt hshown)]
    exact SameWindow.refl k
  · exact absurd hone hmany

variable (h : k.Clean) (hb : k.Bounded) (hdirect : 0 < k.dmmapPageCount)
  (hmax : k.dmmapPageCount ≤ dmmapPageMax) (hin : attr + len ≤ pageOffset)
include h hb hdirect hmax hin

theorem Clean.traceless_new (hone : ummPageCount attr len = 1)
    (hmapped : getPageAttr (k.getUmmValue (pageBase attr) pde) = 0) :
    k.Traceless attr len pde ↔ ∀ q, k.VmmSettles (ummPageCount attr len) q →
      k.RunRetraced (pageBase attr) pde (ummPageCount attr len) q := by
  have hattr := pageBase_lt_of_le hin
  refine traceless_of_windows hin (fun fuel p k' hwindow => ?_) fun q hsettles => ?_
  · rw [if_pos hone] at hwindow
    rw [hone]
    rcases hscan : k.vmmScan fuel 1 with _ | _ | q
    · unfold ummMmapOne vmmAllocPage at hwindow
      dsimp only at hwindow
      rw [if_pos hmapped, hscan] at hwindow
      exact absurd hwindow (by simp)
    · unfold ummMmapOne vmmAllocPage at hwindow
      dsimp only at hwindow
      rw [if_pos hmapped, hscan, Option.map_some, Option.map_some, if_neg (not_not.2 rfl),
        Option.some.injEq] at hwindow
      exact .inl ⟨(Prod.mk.inj hwindow).1.symm, (Prod.mk.inj hwindow).2.symm⟩
    · obtain ⟨n, k₁, hn, hcall, hiff⟩ := ummMmapOne_closes h hb hdirect hmax hattr hmapped hscan
      rw [hcall, Option.some.injEq] at hwindow
      obtain ⟨rfl, rfl⟩ := Prod.mk.inj hwindow
      exact .inr ⟨q, n, vmmSettles_of_scan hb.vmmPos_lt (by decide) hscan, hn, rfl, hiff⟩
  · rw [hone] at hsettles ⊢
    obtain ⟨fuel, hscan⟩ := exists_scan_of_vmmSettles hb.vmmPos_lt (by decide) hsettles
    obtain ⟨n, k₁, hn, hcall, hiff⟩ := ummMmapOne_closes h hb hdirect hmax hattr hmapped hscan
    exact ⟨fuel, n, k₁, hn, by rw [if_pos rfl]; exact hcall, hiff⟩

theorem Clean.traceless_mapped (hone : ummPageCount attr len = 1)
    (hmapped : getPageAttr (k.getUmmValue (pageBase attr) pde) ≠ 0)
    (hshown : ¬ getPageAttr (k.getUmmValue (pageBase attr) pde) / pageSize < k.dmmapPageCount) :
    k.Traceless attr len pde ↔ ∀ q, k.VmmSettles (ummPageCount attr len) q →
      k.RunRetraced (pageBase attr) pde (ummPageCount attr len) q := by
  have hcall : ∀ fuel, k.ummMmapOne fuel (pageBase attr) pde =
      some (k.vmmMmapPage (getPageAttr (k.getUmmValue (pageBase attr) pde))) := by
    intro fuel
    unfold ummMmapOne
    dsimp only
    rw [if_neg hmapped]
  rcases vmmMmapPage_closes h hb hdirect hmax (pageBase_lt_of_le hin) (.inl hmapped) hshown with
    ⟨hnone, hno⟩ | ⟨p, n, k₁, hsettles, hn, hmmap, hiff⟩
  · refine traceless_of_windows hin (fun fuel p k' hwindow => ?_) fun q hsettles => ?_
    · rw [if_pos hone, hcall, hnone, Option.some.injEq] at hwindow
      exact .inl ⟨(Prod.mk.inj hwindow).1.symm, (Prod.mk.inj hwindow).2.symm⟩
    · rw [hone] at hsettles
      exact absurd hsettles (hno q)
  · refine traceless_of_windows hin (fun fuel p' k' hwindow => ?_) fun q hsettles' => ?_
    · rw [if_pos hone, hcall, hmmap, Option.some.injEq] at hwindow
      obtain ⟨rfl, rfl⟩ := Prod.mk.inj hwindow
      rw [hone]
      exact .inr ⟨p, n, hsettles, hn, rfl, hiff⟩
    · rw [hone] at hsettles' ⊢
      obtain rfl := hsettles.eq hsettles'
      exact ⟨0, n, k₁, hn, by rw [if_pos rfl, hcall, hmmap], hiff⟩

theorem Clean.traceless_several (hzero : ummPageCount attr len ≠ 0) (hone : ummPageCount attr len ≠ 1) :
    k.Traceless attr len pde ↔ ∀ q, k.VmmSettles (ummPageCount attr len) q →
      k.RunRetraced (pageBase attr) pde (ummPageCount attr len) q := by
  have hattr := pageBase_lt_of_le hin
  have hcount32 := ummPageCount_le hin
  have hlt : ummPageCount attr len < 2 ^ 32 := by
    replace hcount32 : ummPageCount attr len ≤ 0xc0000 := hcount32
    omega
  refine traceless_of_windows hin (fun fuel p k' hwindow => ?_) fun q hsettles => ?_
  · rw [if_neg hone] at hwindow
    rcases hscan : k.vmmScan fuel (ummPageCount attr len) with _ | _ | q
    · unfold vmmMmapPdePage at hwindow
      rw [hscan] at hwindow
      exact absurd hwindow (by simp)
    · unfold vmmMmapPdePage at hwindow
      rw [hscan, Option.map_some, Option.some.injEq] at hwindow
      exact .inl ⟨(Prod.mk.inj hwindow).1.symm, (Prod.mk.inj hwindow).2.symm⟩
    · obtain ⟨n, k₁, hn, hcall, hiff⟩ := vmmMmapPdePage_closes pde h hb hdirect hmax hattr
        (by omega) hcount32 hscan
      rw [hcall, Option.some.injEq] at hwindow
      obtain ⟨rfl, rfl⟩ := Prod.mk.inj hwindow
      exact .inr ⟨q, n, vmmSettles_of_scan hb.vmmPos_lt hlt hscan, hn, rfl, hiff⟩
  · obtain ⟨fuel, hscan⟩ := exists_scan_of_vmmSettles hb.vmmPos_lt hlt hsettles
    obtain ⟨n, k₁, hn, hcall, hiff⟩ := vmmMmapPdePage_closes pde h hb hdirect hmax hattr
      (by omega) hcount32 hscan
    exact ⟨fuel, n, k₁, hn, by rw [if_neg hone]; exact hcall, hiff⟩

end Traceless

/-- From any state whose window is kept, a window leaves no trace just when it retraces its
run. -/
theorem Clean.retraces_iff (h : k.Clean) (hb : k.Bounded) (hdirect : 0 < k.dmmapPageCount)
    (hmax : k.dmmapPageCount ≤ dmmapPageMax) {attr len : ℕ} (pde : ℕ)
    (hwrap : attr + len < 2 ^ 32) : k.Traceless attr len pde ↔ k.Retraces attr len pde := by
  unfold Retraces
  by_cases hout : pageOffset < attr + len
  · exact iff_of_true (traceless_of_beyond hwrap hout) (.inl hout)
  have hin : attr + len ≤ pageOffset := Nat.le_of_not_lt hout
  by_cases hzero : ummPageCount attr len = 0
  · exact iff_of_true (h.traceless_of_zero hin hzero) (.inr (.inl hzero))
  rw [or_iff_right hout, or_iff_right hzero]
  by_cases hone : ummPageCount attr len = 1
  · by_cases hmapped : getPageAttr (k.getUmmValue (pageBase attr) pde) = 0
    · have hnot : ¬ k.ShowsDirect (pageBase attr) pde := fun hshows => hshows.1 hmapped
      rw [or_iff_right fun hor => hnot hor.2]
      exact h.traceless_new hb hdirect hmax hin hone hmapped
    by_cases hshown : getPageAttr (k.getUmmValue (pageBase attr) pde) / pageSize < k.dmmapPageCount
    · have hshows : k.ShowsDirect (pageBase attr) pde := ⟨hmapped, hshown⟩
      exact iff_of_true (traceless_of_showsDirect hmax hin hone hshows) (.inl ⟨hone, hshows⟩)
    · have hnot : ¬ k.ShowsDirect (pageBase attr) pde := fun hshows => hshown hshows.2
      rw [or_iff_right fun hor => hnot hor.2]
      exact h.traceless_mapped hb hdirect hmax hin hone hmapped hshown
  · rw [or_iff_right fun hor => hone hor.1]
    exact h.traceless_several hb hdirect hmax hin hzero hone

theorem dmmapPageCount_le_of_reachable {b : KernelBoot} (hk : (memMachine b).Reachable k) :
    k.dmmapPageCount ≤ dmmapPageMax := by
  rw [dmmapPageCount_of_reachable hk]
  exact b.dmmapPageCount_le

/-- **Windows come and go without trace exactly when they retrace their run.** For every
state of a run, every directory and every range that does not wrap, a window that cannot be
opened leaves the entries of the window and the count of its free pages alone, and one that is
opened gives them back when it is closed, if and only if the range ends above `PAGE_OFFSET`, is
empty or is shown by a direct page, or the run that the scan settles at is retraced. -/
theorem traceless_iff {b : KernelBoot} (hk : (memMachine b).Reachable k) {attr len : ℕ} (pde : ℕ)
    (hwrap : attr + len < 2 ^ 32) : k.Traceless attr len pde ↔ k.Retraces attr len pde :=
  Clean.retraces_iff (Clean.of_reachable hk) (Bounded.of_reachable hk)
    (dmmapPageCount_pos_of_reachable hk) (dmmapPageCount_le_of_reachable hk) pde hwrap

section Example

/-- The directory took the first of three pages and the range takes the last one, so the frame
for its second page cannot be had. -/
theorem tightRun_not_eachHad (head : ℕ) :
    ¬ (pdeRun tightBoot).kernel.EachHad head (1 * pageSize) (tightBoot.memBasePage * pageSize) 2 := by
  obtain ⟨hbase, hcount, hdmmap⟩ := tightBoot_pages
  obtain ⟨pmm, hspans, heq⟩ := ummAllocPde_vmmInit (b := tightBoot) (by rw [hbase, hcount]; decide)
    (by rw [hbase, hdmmap]; decide)
  have hunmapped := fun attr (hattr : attr < pageOffset) => pdeRun_getUmmValue (b := tightBoot)
    (by rw [hbase, hcount]; decide) (by rw [hbase, hdmmap]; decide) hattr
  have hempty := pdeRun_unmapped (b := tightBoot) (by rw [hbase, hcount]; decide)
    (by rw [hbase, hdmmap]; decide) (pdeIndex (1 * pageSize)) (by decide)
  have hkernel : (pdeRun tightBoot).kernel.pmm = pmm := by
    rw [pdeRun, heq]
  have hcount452 := (pdeRun_window (b := tightBoot) (by rw [hbase, hcount]; decide)
    (by rw [hbase, hdmmap]; decide)).1
  rw [hdmmap] at hcount452
  have htabled := (Owned.of_reachable (pdeRun_reachable (b := tightBoot) (by rw [hbase, hcount]; decide)
    (by rw [hbase, hdmmap]; decide))).toTabled
  have hglobl := htabled.globlPtePage
  rw [← hkernel, hbase, hcount] at hspans
  generalize (pdeRun tightBoot).kernel = k at *
  obtain ⟨hphy, hspans'⟩ := hspans.pmmAllocPage (by decide)
  have hphy0 : k.pmm.pmmAllocPage.1 ≠ 0 := by
    rw [hphy]
    decide
  -- no page is left for a page table, so the directory stays as it is
  have htable : (Kernel.setUmmValue { k with pmm := k.pmm.pmmAllocPage.2 } (1 * pageSize)
      (setPage (k.getGloblPhyAttr k.pmm.pmmAllocPage.1) pageUser) (tightBoot.memBasePage * pageSize)).2 =
        { k with pmm := k.pmm.pmmAllocPage.2 } := by
    have hdmm : Kernel.dmmAllocPage { k with pmm := k.pmm.pmmAllocPage.2 } 1 =
        (0, { k with pmm := k.pmm.pmmAllocPage.2 }) := by
      unfold dmmAllocPage
      dsimp only
      rw [hspans'.pmmUpAllocPage_stays (by decide)]
      dsimp only
      rw [if_neg ?_]
      rw [Nat.zero_div, add32_of_lt (by decide), hcount452]
      decide
    have hword : loadWord { k with pmm := k.pmm.pmmAllocPage.2 } (tightBoot.memBasePage * pageSize)
        (pdeIndex (1 * pageSize)) = 0 := (loadWord_pmm _ _ _ _).trans hempty
    unfold Kernel.setUmmValue ummTable
    dsimp only
    rw [if_neg (by decide), hword, getPageAttr_zero, if_pos rfl, hdmm]
    rfl
  have hpage : k.pdePage (1 * pageSize) (tightBoot.memBasePage * pageSize) =
      (k.pmm.pmmAllocPage.1, { k with pmm := k.pmm.pmmAllocPage.2 }) := by
    unfold pdePage
    dsimp only
    rw [hunmapped _ (by decide), getPageAttr_zero, if_pos rfl, if_pos hphy0]
    exact congrArg _ htable
  rintro ⟨-, hrest⟩
  have hzero : add32 (1 * pageSize) (mul32 0 pageSize) = 1 * pageSize := by with_unfolding_all decide
  rw [hzero] at hrest
  obtain ⟨hhad, -⟩ := hrest _ _ hpage hphy0
  -- the second page is neither mapped nor to be had
  obtain ⟨pte, hmmap, -⟩ := globlPageMmap_eq { k with pmm := k.pmm.pmmAllocPage.2 }
    (k.pmm.pmmAllocPage.1 / pageSize)
    (getGloblPageIndex { k with pmm := k.pmm.pmmAllocPage.2 } (add32 head 0))
  rw [hmmap] at hhad
  have hone : add32 (1 * pageSize) (mul32 1 pageSize) = 2 * pageSize := by with_unfolding_all decide
  rw [hone] at hhad
  rcases hhad with hmapped | hreach
  · refine hmapped ?_
    have hindex : pdeIndex (2 * pageSize) = pdeIndex (1 * pageSize) := by decide
    have hnot : ¬ (k.globlPtePage ≤ tightBoot.memBasePage * pageSize / pageSize ∧
        tightBoot.memBasePage * pageSize / pageSize < k.globlPtePage + globlPteNum) := by
      rw [hglobl, hbase]
      decide
    have hword : loadWord { k with pmm := k.pmm.pmmAllocPage.2, globlMmapPte := pte }
        (tightBoot.memBasePage * pageSize) (pdeIndex (2 * pageSize)) = 0 := by
      rw [hindex]
      exact ((if_neg hnot).trans (if_neg hnot).symm).trans hempty
    unfold getUmmValue
    dsimp only
    rw [if_pos hword, getPageAttr_zero]
  · rw [← pmmAllocPage_ne_zero_iff hspans'.bits] at hreach
    exact hreach (hspans'.pmmAllocPage_none (by decide))

theorem tightRun_settles : (pdeRun tightBoot).kernel.vmmapPageCount = globlPageNum - 452 ∧
    ∀ count p, (pdeRun tightBoot).kernel.VmmSettles count p ↔ p = globlPageNum - 452 - 1 := by
  obtain ⟨hbase, hcount, hdmmap⟩ := tightBoot_pages
  obtain ⟨hdirect, -, hsettles, -⟩ := pdeRun_window (b := tightBoot) (by rw [hbase, hcount]; decide)
    (by rw [hbase, hdmmap]; decide)
  have hpages := (pdeRun tightBoot).kernel.page_count
  rw [hdmmap] at hdirect hsettles
  rw [hdirect] at hpages
  exact ⟨by omega, hsettles⟩

/-- A window of two pages fails behind its first page, and the entry of that page stays. -/
theorem not_traceless : ∃ k, (memMachine tightBoot).Reachable k ∧ ∃ attr len pde,
    attr + len < 2 ^ 32 ∧ ¬ k.Traceless attr len pde := by
  have hk := pdeRun_memReachable tightBoot
  obtain ⟨hbase, hcount, hdmmap⟩ := tightBoot_pages
  obtain ⟨hwindow, hsettles⟩ := tightRun_settles
  refine ⟨_, hk, 1 * pageSize, 2 * pageSize, tightBoot.memBasePage * pageSize, by decide, ?_⟩
  have htwo : ummPageCount (1 * pageSize) (2 * pageSize) = 2 := by with_unfolding_all decide
  have hfirst : pageBase (1 * pageSize) = 1 * pageSize := by decide
  have hhead : add32 (sub32 (globlPageNum - 452 - 1) 2) 1 = globlPageNum - 452 - 2 := by with_unfolding_all decide
  rw [Clean.retraces_iff (Clean.of_reachable hk) (Bounded.of_reachable hk)
    (dmmapPageCount_pos_of_reachable hk) (dmmapPageCount_le_of_reachable hk) _ (by decide)]
  rintro (hout | hzero | ⟨hone, -⟩ | hruns)
  · exact absurd hout (by decide)
  · rw [htwo] at hzero
    exact absurd hzero (by decide)
  · rw [htwo] at hone
    exact absurd hone (by decide)
  · rw [htwo, hfirst] at hruns
    have hrun := (hruns _ ((hsettles 2 _).2 rfl)).2 (tightRun_not_eachHad _)
    rw [hhead] at hrun
    rcases hrun with hno | hbehind
    · refine hno (.inr ?_)
      obtain ⟨pmm, hspans, heq⟩ := ummAllocPde_vmmInit (b := tightBoot)
        (by rw [hbase, hcount]; decide) (by rw [hbase, hdmmap]; decide)
      rw [pdeRun, heq]
      rw [hbase, hcount] at hspans
      rw [← pmmAllocPage_ne_zero_iff hspans.bits, (hspans.pmmAllocPage (by decide)).1]
      decide
    · rw [hwindow] at hbehind
      exact absurd hbehind (by decide)

/-- The window of one page of the new directory leaves no trace. -/
theorem traceless_one_page :
    (pdeRun tightBoot).kernel.Traceless (1 * pageSize) pageSize (tightBoot.memBasePage * pageSize) := by
  obtain ⟨hwindow, hsettles⟩ := tightRun_settles
  have hone : ummPageCount (1 * pageSize) pageSize = 1 := by with_unfolding_all decide
  have hfirst : pageBase (1 * pageSize) = 1 * pageSize := by decide
  have hhead : add32 (sub32 (globlPageNum - 452 - 1) 1) 1 = globlPageNum - 452 - 1 := by with_unfolding_all decide
  refine (traceless_iff (pdeRun_memReachable tightBoot) _ (by decide)).2 (.inr (.inr (.inr ?_)))
  rw [hone, hfirst]
  intro p hp
  obtain rfl := (hsettles 1 p).1 hp
  refine ⟨fun _ => .inl ?_, fun hno => .inl fun hhad => hno ((eachHad_one_iff (by decide) _).2 hhad)⟩
  rw [hhead, hwindow]
  decide

end Example

end Kernel

end BitchKernel
