import BitchKernel.Lib.TwoRun
import BitchKernel.Mm.UmmSafety

/-!
# Two kernels with different contents of their pages

The page allocator and the kernel window never look into a page, so they do the same whatever the
pages hold; the functions of `umm.c` read a directory and the page tables it names. `Twins` says of
two kernels, one of which is the other with the contents of its pages replaced, that they agree
outside of a set of pages and in what such a walk reads. Every function of a page fault and of a
window keeps it.
-/

namespace BitchKernel

open Lib

namespace Kernel

variable {k : Kernel} {fuel count : ℕ}

def withPage (k : Kernel) (page : ℕ → ℕ → ℕ) : Kernel := { k with page := page }

/-! ## What does not look into a page -/

@[simp] theorem withPage_page (k : Kernel) (page : ℕ → ℕ → ℕ) : (k.withPage page).page = page := rfl

@[simp] theorem withPage_pmm (k : Kernel) (page : ℕ → ℕ → ℕ) : (k.withPage page).pmm = k.pmm := rfl

theorem globlPageMmap_withPage (page : ℕ → ℕ → ℕ) (f g : ℕ) :
    (k.withPage page).globlPageMmap f g = (k.globlPageMmap f g).withPage page := by
  unfold globlPageMmap
  split <;> rfl

theorem globlPageRemove_withPage (page : ℕ → ℕ → ℕ) (g : ℕ) :
    (k.withPage page).globlPageRemove g = (k.globlPageRemove g).withPage page := by
  unfold globlPageRemove
  split <;> rfl

theorem vmmScan_withPage (page : ℕ → ℕ → ℕ) :
    (k.withPage page).vmmScan fuel count = k.vmmScan fuel count := rfl

theorem vmmAllocUndo_withPage (page : ℕ → ℕ → ℕ) (head i : ℕ) (k : Kernel) :
    vmmAllocUndo head i (k.withPage page) = (vmmAllocUndo head i k).withPage page := by
  induction i generalizing k with
  | zero => rfl
  | succ i ih =>
      rw [vmmAllocUndo, vmmAllocUndo, ← ih]
      refine congrArg (vmmAllocUndo head i) ?_
      have hremove := globlPageRemove_withPage (k := k) page (k.getGloblPageIndex (add32 head (i + 1)))
      exact congrArg (fun k : Kernel =>
        { k with pmm := k.pmm.pmmFreePage (k.getVmmPage (add32 head (i + 1))) 1 }) hremove

theorem vmmAllocLoop_withPage (page : ℕ → ℕ → ℕ) (head rem i : ℕ) (k : Kernel) :
    vmmAllocLoop head rem i (k.withPage page) =
      ((vmmAllocLoop head rem i k).1, (vmmAllocLoop head rem i k).2.withPage page) := by
  induction rem generalizing i k with
  | zero => rfl
  | succ rem ih =>
      rw [vmmAllocLoop, vmmAllocLoop]
      dsimp only [withPage_pmm]
      by_cases hattr : k.pmm.pmmAllocPage.1 ≠ 0
      · rw [if_pos hattr, if_pos hattr, ← ih]
        refine congrArg (vmmAllocLoop head rem (i + 1)) ?_
        exact globlPageMmap_withPage (k := { k with pmm := k.pmm.pmmAllocPage.2 }) page _ _
      · rw [if_neg hattr, if_neg hattr]
        exact Prod.ext rfl (vmmAllocUndo_withPage page head i { k with pmm := k.pmm.pmmAllocPage.2 })

theorem vmmAllocPage_withPage (page : ℕ → ℕ → ℕ) (fuel count : ℕ) :
    (k.withPage page).vmmAllocPage fuel count =
      (k.vmmAllocPage fuel count).map fun r => (r.1, r.2.withPage page) := by
  unfold vmmAllocPage
  rw [vmmScan_withPage, Option.map_map]
  refine Option.map_congr fun found _ => ?_
  cases found with
  | none => rfl
  | some p =>
      dsimp only [Function.comp]
      rw [vmmAllocLoop_withPage]
      rcases vmmAllocLoop (add32 (sub32 p count) 1) count 0 k with ⟨_ | _, k'⟩
      · rfl
      · rfl

theorem vmmMmapLoop_withPage (page : ℕ → ℕ → ℕ) (phyAttr p : ℕ) :
    (k.withPage page).vmmMmapLoop phyAttr p =
      ((k.vmmMmapLoop phyAttr p).1, (k.vmmMmapLoop phyAttr p).2.withPage page) := by
  induction p with
  | zero => rfl
  | succ p ih =>
      rw [vmmMmapLoop, vmmMmapLoop]
      by_cases hfree : k.getVmmPage (p + 1) = 0
      · rw [if_pos hfree, if_pos (show (k.withPage page).getVmmPage (p + 1) = 0 from hfree)]
        have hindex : (k.withPage page).getGloblPageIndex (p + 1) = k.getGloblPageIndex (p + 1) := rfl
        rw [hindex]
        dsimp only
        rw [globlPageMmap_withPage]
        rfl
      · rw [if_neg hfree, if_neg (show (k.withPage page).getVmmPage (p + 1) ≠ 0 from hfree)]
        exact ih

theorem vmmMmapPage_withPage (page : ℕ → ℕ → ℕ) (phyAttr : ℕ) :
    (k.withPage page).vmmMmapPage phyAttr =
      ((k.vmmMmapPage phyAttr).1, (k.vmmMmapPage phyAttr).2.withPage page) := by
  unfold vmmMmapPage
  by_cases hdirect : phyAttr / pageSize < k.dmmapPageCount
  · rw [if_pos hdirect]
    exact if_pos hdirect
  · rw [if_neg hdirect]
    exact (if_neg hdirect).trans (vmmMmapLoop_withPage page phyAttr _)

theorem vmmMmapPdeUndo_withPage (page : ℕ → ℕ → ℕ) (head i : ℕ) (k : Kernel) :
    vmmMmapPdeUndo head i (k.withPage page) = (vmmMmapPdeUndo head i k).withPage page := by
  induction i generalizing k with
  | zero => rfl
  | succ i ih =>
      rw [vmmMmapPdeUndo, vmmMmapPdeUndo, ← ih]
      exact congrArg (vmmMmapPdeUndo head i) (globlPageRemove_withPage page _)

theorem vmmUmmapLoop_withPage (page : ℕ → ℕ → ℕ) (index count : ℕ) (k : Kernel) :
    vmmUmmapLoop index count (k.withPage page) = (vmmUmmapLoop index count k).withPage page := by
  induction count with
  | zero => rfl
  | succ count ih =>
      rw [vmmUmmapLoop, vmmUmmapLoop, ih]
      exact globlPageRemove_withPage page _

theorem raiseVmmPos_withPage (page : ℕ → ℕ → ℕ) (index count : ℕ) (k : Kernel) :
    (k.withPage page).raiseVmmPos index count = (k.raiseVmmPos index count).withPage page := by
  unfold raiseVmmPos
  dsimp only
  split
  · rename_i hlt
    exact (if_pos hlt).symm ▸ rfl
  · rename_i hle
    exact (if_neg hle).symm ▸ rfl

theorem vmmUmmapPage_withPage (page : ℕ → ℕ → ℕ) (attr count : ℕ) (k : Kernel) :
    (k.withPage page).vmmUmmapPage attr count = (k.vmmUmmapPage attr count).withPage page := by
  unfold vmmUmmapPage
  dsimp only
  by_cases hwindow : k.dmmapPageCount ≤ attr / pageSize
  · have hwindow' : (k.withPage page).dmmapPageCount ≤ attr / pageSize := hwindow
    rw [if_pos hwindow, if_pos hwindow']
    by_cases hrun : add32 (attr / pageSize - k.dmmapPageCount) count ≤ k.vmmapPageCount
    · have hrun' : add32 (attr / pageSize - (k.withPage page).dmmapPageCount) count ≤
          (k.withPage page).vmmapPageCount := hrun
      rw [if_pos hrun, if_pos hrun', vmmUmmapLoop_withPage, raiseVmmPos_withPage]
      rfl
    · have hrun' : ¬ add32 (attr / pageSize - (k.withPage page).dmmapPageCount) count ≤
          (k.withPage page).vmmapPageCount := hrun
      rw [if_neg hrun, if_neg hrun']
      rfl
  · rw [if_neg hwindow]
    exact if_neg hwindow

theorem vmmUmmapPage_kept (k : Kernel) (attr count : ℕ) :
    (k.vmmUmmapPage attr count).page = k.page ∧
      (k.vmmUmmapPage attr count).globlPtePage = k.globlPtePage ∧
      (k.vmmUmmapPage attr count).pmm = k.pmm := by
  obtain ⟨pte, hloop, -⟩ := vmmUmmapLoop_eq (attr / pageSize - k.dmmapPageCount) count k
  unfold vmmUmmapPage
  dsimp only
  split
  · rw [hloop]
    unfold raiseVmmPos
    dsimp only
    split
    · split
      · exact ⟨rfl, rfl, rfl⟩
      · exact ⟨rfl, rfl, rfl⟩
    · exact ⟨rfl, rfl, rfl⟩
  · exact ⟨rfl, rfl, rfl⟩

theorem dmmAllocPage_withPage (page : ℕ → ℕ → ℕ) (count : ℕ) :
    (k.withPage page).dmmAllocPage count =
      ((k.dmmAllocPage count).1, (k.dmmAllocPage count).2.withPage page) := by
  unfold dmmAllocPage
  dsimp only [withPage_pmm]
  by_cases hout : k.dmmapPageCount < add32 ((k.pmm.pmmUpAllocPage count).1 / pageSize) count
  · rw [if_pos hout]
    exact if_pos hout
  · rw [if_neg hout]
    exact if_neg hout

/-! ## Allocated pages stay allocated -/

theorem notMem_freePages_pmmFreePage {s : Pmm} {attr q : ℕ} (hq : q ≠ add32 (attr / pageSize) 0)
    (hused : q ∉ s.freePages) : q ∉ (s.pmmFreePage attr 1).freePages := by
  rw [Pmm.freePages_pmmFreePage]
  simp only [Finset.range_one, Finset.image_singleton, Finset.mem_union, Finset.mem_filter,
    Finset.mem_singleton, not_or]
  exact ⟨hused, fun h => hq h.1⟩

theorem Bounded.pmmAllocPage_taken (h : k.Bounded) {d : ℕ} (hused : d ∉ k.pmm.freePages) :
    d ∉ k.pmm.pmmAllocPage.2.freePages ∧
      (k.pmm.pmmAllocPage.1 ≠ 0 → add32 (k.pmm.pmmAllocPage.1 / pageSize) 0 ≠ d) := by
  have hbits := h.pmmBitmapLength_le
  refine ⟨fun hfree => hused (k.pmm.freePages_pmmAllocPage_subset hfree), ?_⟩
  rcases k.pmm.pmmAllocPage_cases with ⟨p, hp, -, -, heq⟩ | ⟨-, heq⟩
  · intro _
    have hfree := (Pmm.mem_reach.1 hp).1
    have hlt := (Pmm.mem_freePages.1 hfree).1
    have haddr : mul32 p pageSize = p * pageSize := mul32_of_lt (by lia)
    have hpage : p * pageSize / pageSize = p := Nat.mul_div_cancel p (by decide)
    rw [heq]
    dsimp only
    rw [haddr, hpage, add32_of_lt (by lia), Nat.add_zero]
    rintro rfl
    exact hused hfree
  · rw [heq]
    exact fun hne => absurd rfl hne

theorem Bounded.dmmAllocPage_taken (h : k.Bounded) {d : ℕ} (hd : d ≠ 0) (hused : d ∉ k.pmm.freePages) :
    d ∉ (k.dmmAllocPage 1).2.pmm.freePages ∧
      ((k.dmmAllocPage 1).1 ≠ 0 → ∃ p ≠ d, (k.dmmAllocPage 1).1 = p * pageSize) := by
  have hbits := h.pmmBitmapLength_le
  unfold dmmAllocPage
  dsimp only
  rcases k.pmm.pmmUpAllocPage_cases 1 with ⟨p, -, -, hrun, -, hup⟩ | ⟨-, hup⟩
  · have hfree : p ∈ k.pmm.freePages := hrun 0 (by decide)
    have hlt := (Pmm.mem_freePages.1 hfree).1
    have haddr : mul32 p pageSize = p * pageSize := mul32_of_lt (by lia)
    have hpage : p * pageSize / pageSize = p := Nat.mul_div_cancel p (by decide)
    have hne : p ≠ d := by
      rintro rfl
      exact hused hfree
    have htaken : d ∉ (k.pmm.takeRun p 1).freePages := by
      rw [Pmm.freePages_takeRun]
      exact fun hmem => hused (Finset.mem_sdiff.1 hmem).1
    rw [hup, haddr]
    dsimp only
    split
    · refine ⟨notMem_freePages_pmmFreePage ?_ htaken, fun hzero => absurd rfl hzero⟩
      rw [hpage, add32_of_lt (by lia)]
      exact hne.symm
    · exact ⟨htaken, fun _ => ⟨p, hne, rfl⟩⟩
  · rw [hup]
    dsimp only
    split
    · refine ⟨notMem_freePages_pmmFreePage ?_ hused, fun hzero => absurd rfl hzero⟩
      rw [Nat.zero_div, add32_of_lt (by decide)]
      exact hd
    · exact ⟨hused, fun hzero => absurd rfl hzero⟩

/-! ## What reads a directory -/

/-- The page belongs to the array `globl_mmap_pte`. -/
def IsGlobl (k : Kernel) (p : ℕ) : Prop := k.globlPtePage ≤ p ∧ p < k.globlPtePage + globlPteNum

/-- The page of the table that the `m`-th entry of the directory `d` names. -/
def tableAt (k : Kernel) (d m : ℕ) : ℕ := getPageAttr (k.page d m) / pageSize

/-- The directory `d` is an allocated page, and it is none of the page tables it names
for the user. -/
structure Apart (k : Kernel) (d : ℕ) : Prop where
  ne_zero : d ≠ 0
  notGlobl : ¬ k.IsGlobl d
  taken : d ∉ k.pmm.freePages
  table_ne : ∀ m < pdeIndex pageOffset, k.page d m ≠ 0 → k.tableAt d m ≠ d

/-- Two kernels agree outside of `F`, in the directory `d` and in the page tables it names; the
second is the first with the contents `page`. -/
structure Twins (F : Finset ℕ) (d : ℕ) (k : Kernel) (page : ℕ → ℕ → ℕ) : Prop where
  bounded : k.Bounded
  apart : k.Apart d
  same : ∀ p ∉ F, page p = k.page p
  dir : page d = k.page d
  table : ∀ m < 0x400, k.page d m ≠ 0 →
    k.IsGlobl (k.tableAt d m) ∨ page (k.tableAt d m) = k.page (k.tableAt d m)

theorem loadWord_of_not_globl {table : ℕ} (h : ¬ k.IsGlobl (table / pageSize)) (i : ℕ) :
    k.loadWord table i = k.page (table / pageSize) i := if_neg h

theorem loadWord_of_same {page : ℕ → ℕ → ℕ} {table : ℕ}
    (h : k.IsGlobl (table / pageSize) ∨ page (table / pageSize) = k.page (table / pageSize)) (i : ℕ) :
    (k.withPage page).loadWord table i = k.loadWord table i := by
  by_cases hglobl : k.IsGlobl (table / pageSize)
  · have hpte : k.loadWord table i = _ := if_pos hglobl
    exact (if_pos hglobl).trans hpte.symm
  · have hsame := h.resolve_left hglobl
    have hleft := loadWord_of_not_globl (k := k.withPage page) hglobl i
    rw [hleft, loadWord_of_not_globl hglobl]
    exact congrFun hsame i

theorem Apart.loadWord_eq {d : ℕ} (h : k.Apart d) (m : ℕ) : k.loadWord (d * pageSize) m = k.page d m := by
  have hpage : d * pageSize / pageSize = d := Nat.mul_div_cancel d (by decide)
  rw [loadWord_of_not_globl, hpage]
  rw [hpage]
  exact h.notGlobl

theorem pdeIndex_lt {attr : ℕ} (h : attr < 2 ^ 32) : pdeIndex attr < 0x400 := by
  unfold pdeIndex
  lia

namespace Twins

variable {F : Finset ℕ} {d : ℕ} {page : ℕ → ℕ → ℕ}

theorem withPage_apart (h : Twins F d k page) : (k.withPage page).Apart d where
  ne_zero := h.apart.ne_zero
  notGlobl := h.apart.notGlobl
  taken := h.apart.taken
  table_ne m hm hentry := by
    have hsame : (k.withPage page).page d m = k.page d m := congrFun h.dir m
    unfold tableAt
    rw [hsame] at hentry ⊢
    exact h.apart.table_ne m hm hentry

theorem loadWord_dir (h : Twins F d k page) (m : ℕ) :
    (k.withPage page).loadWord (d * pageSize) m = k.loadWord (d * pageSize) m := by
  rw [h.withPage_apart.loadWord_eq, h.apart.loadWord_eq]
  exact congrFun h.dir m

theorem getUmmValue (h : Twins F d k page) {attr : ℕ} (hattr : attr < 2 ^ 32) :
    (k.withPage page).getUmmValue attr (d * pageSize) = k.getUmmValue attr (d * pageSize) := by
  unfold Kernel.getUmmValue
  dsimp only
  rw [h.loadWord_dir, h.apart.loadWord_eq]
  by_cases hentry : k.page d (pdeIndex attr) = 0
  · rw [if_pos hentry, if_pos hentry]
  · rw [if_neg hentry, if_neg hentry]
    exact loadWord_of_same (h.table _ (pdeIndex_lt hattr) hentry) _

theorem of_page_eq (h : Twins F d k page) {k' : Kernel} (hpage : k'.page = k.page)
    (hglobl : k'.globlPtePage = k.globlPtePage) (hbounded : k'.Bounded) (htaken : d ∉ k'.pmm.freePages) :
    Twins F d k' page where
  bounded := hbounded
  apart :=
    { ne_zero := h.apart.ne_zero
      notGlobl := by
        unfold IsGlobl
        rw [hglobl]
        exact h.apart.notGlobl
      taken := htaken
      table_ne := by
        unfold tableAt
        rw [hpage]
        exact h.apart.table_ne }
  same := by
    rw [hpage]
    exact h.same
  dir := by
    rw [hpage]
    exact h.dir
  table := by
    unfold tableAt IsGlobl
    rw [hpage, hglobl]
    exact h.table

theorem update_same {x t i v : ℕ} (hsame : page x = k.page x) :
    Function.update page t (Function.update (page t) i v) x =
      Function.update k.page t (Function.update (k.page t) i v) x := by
  by_cases hx : x = t
  · rw [← hx, Function.update_self, Function.update_self, hsame]
  · rw [Function.update_of_ne hx, Function.update_of_ne hx, hsame]

theorem storeWord (h : Twins F d k page) {table : ℕ} (hne : table / pageSize ≠ d) (i v : ℕ) :
    Twins F d (k.storeWord table i v)
      (Function.update page (table / pageSize) (Function.update (page (table / pageSize)) i v)) := by
  have hdir : (k.storeWord table i v).page d = k.page d := Function.update_of_ne hne.symm _ _
  have htable : ∀ m, (k.storeWord table i v).tableAt d m = k.tableAt d m := by
    intro m
    unfold tableAt
    rw [hdir]
  refine ⟨⟨h.bounded.vmmPos_lt, h.bounded.pmmBitmapLength_le⟩,
    ⟨h.apart.ne_zero, h.apart.notGlobl, h.apart.taken, fun m hm hentry => ?_⟩,
    fun p hp => update_same (h.same p hp), update_same h.dir, fun m hm hentry => ?_⟩
  · rw [hdir] at hentry
    rw [htable]
    exact h.apart.table_ne m hm hentry
  · rw [hdir] at hentry
    rw [htable]
    exact (h.table m hm hentry).imp_right update_same

theorem enterTable (h : Twins F d k page) {p m : ℕ} (hp : p ≠ d) :
    Twins F d ((k.storePage (p * pageSize) fun _ => 0).storeWord (d * pageSize) m
        (setPage (p * pageSize) pageUser))
      (Function.update (Function.update page p fun _ => 0) d
        (Function.update (Function.update page p (fun _ => 0) d) m (setPage (p * pageSize) pageUser))) := by
  have hpage : ∀ q, q * pageSize / pageSize = q := fun q => Nat.mul_div_cancel q (by decide)
  set k₁ := k.storePage (p * pageSize) fun _ => 0 with hk₁
  have hk₁page : k₁.page = Function.update k.page p fun _ => 0 := by
    rw [hk₁]
    unfold storePage
    rw [hpage]
  -- what is the same before is the same behind the zeroed table
  have hsame : ∀ x, page x = k.page x ∨ x = p →
      Function.update page p (fun _ => 0) x = k₁.page x := by
    intro x hx
    rw [hk₁page]
    by_cases hxp : x = p
    · rw [hxp, Function.update_self, Function.update_self]
    · rw [Function.update_of_ne hxp, Function.update_of_ne hxp]
      exact hx.resolve_right hxp
  set k₂ := k₁.storeWord (d * pageSize) m (setPage (p * pageSize) pageUser) with hk₂
  have hk₂page : k₂.page =
      Function.update k₁.page d (Function.update (k₁.page d) m (setPage (p * pageSize) pageUser)) := by
    rw [hk₂]
    unfold Kernel.storeWord storePage
    rw [hpage]
  have hrow : k₂.page d = Function.update (k.page d) m (setPage (p * pageSize) pageUser) := by
    rw [hk₂page, Function.update_self, hk₁page, Function.update_of_ne hp.symm]
  have hnew : k₂.tableAt d m = p := by
    unfold tableAt
    rw [hrow, Function.update_self, getPageAttr_setPage, pageBase_mul, hpage]
  have hold : ∀ m' ≠ m, k₂.page d m' = k.page d m' ∧ k₂.tableAt d m' = k.tableAt d m' := by
    intro m' hm'
    have hentry : k₂.page d m' = k.page d m' := by
      rw [hrow, Function.update_of_ne hm']
    unfold tableAt
    exact ⟨hentry, by rw [hentry]⟩
  refine ⟨⟨h.bounded.vmmPos_lt, h.bounded.pmmBitmapLength_le⟩,
    ⟨h.apart.ne_zero, h.apart.notGlobl, h.apart.taken, fun m' hm' hentry => ?_⟩,
    fun q hq => ?_, ?_, fun m' hm' hentry => ?_⟩
  · by_cases heq : m' = m
    · rw [heq, hnew]
      exact hp
    · rw [(hold m' heq).2]
      rw [(hold m' heq).1] at hentry
      exact h.apart.table_ne m' hm' hentry
  · rw [hk₂page]
    exact update_same (hsame q (.inl (h.same q hq)))
  · rw [hk₂page]
    exact update_same (hsame d (.inl h.dir))
  · rw [hk₂page]
    by_cases heq : m' = m
    · rw [heq, hnew]
      exact .inr (update_same (hsame p (.inr rfl)))
    · rw [(hold m' heq).2]
      rw [(hold m' heq).1] at hentry
      exact (h.table m' hm' hentry).imp_right fun hx => update_same (hsame _ (.inl hx))

/-! ## Calls in both kernels -/

/-- Both calls answer the same, and their kernels are twins again. -/
def Alike {ρ : Type*} (F : Finset ℕ) (d : ℕ) (x y : ρ × Kernel) : Prop :=
  ∃ page, y = (x.1, x.2.withPage page) ∧ Twins F d x.2 page

theorem of_keeps (h : Twins F d k page) {k' : Kernel} (hpage : k'.page = k.page)
    (hglobl : k'.globlPtePage = k.globlPtePage) (hkeeps : Keeps k k') (htaken : d ∉ k'.pmm.freePages) :
    Twins F d k' page :=
  h.of_page_eq hpage hglobl
    ⟨hkeeps.vmmPos_lt h.bounded.vmmPos_lt, hkeeps.length ▸ h.bounded.pmmBitmapLength_le⟩ htaken

theorem dmmAllocPage (h : Twins F d k page) : Twins F d (k.dmmAllocPage 1).2 page := by
  obtain ⟨r, pmm, heq, hlen⟩ := k.dmmAllocPage_eq 1
  have htaken := (h.bounded.dmmAllocPage_taken h.apart.ne_zero h.apart.taken).1
  rw [heq] at htaken ⊢
  exact h.of_keeps rfl rfl ⟨rfl, hlen, id⟩ htaken

theorem ummTable (h : Twins F d k page) {attr : ℕ} (hattr : attr < pageOffset) :
    Alike F d (k.ummTable attr (d * pageSize)) ((k.withPage page).ummTable attr (d * pageSize)) ∧
      ((k.ummTable attr (d * pageSize)).1 ≠ 0 →
        (k.ummTable attr (d * pageSize)).1 / pageSize ≠ d) := by
  have hm : pdeIndex attr < pdeIndex pageOffset := Tabled.pdeIndex_lt hattr
  have hentry := h.loadWord_dir (pdeIndex attr)
  rw [h.apart.loadWord_eq] at hentry
  unfold Kernel.ummTable
  dsimp only
  rw [hentry, h.apart.loadWord_eq]
  by_cases hnone : getPageAttr (k.page d (pdeIndex attr)) = 0
  · rw [if_pos hnone, if_pos hnone, dmmAllocPage_withPage]
    have halloc := h.dmmAllocPage
    obtain ⟨-, hfresh⟩ := h.bounded.dmmAllocPage_taken h.apart.ne_zero h.apart.taken
    dsimp only
    by_cases hpte : (k.dmmAllocPage 1).1 = 0
    · rw [if_pos hpte, if_pos hpte]
      exact ⟨⟨page, rfl, halloc⟩, fun hzero => absurd rfl hzero⟩
    · rw [if_neg hpte, if_neg hpte]
      obtain ⟨p, hp, haddr⟩ := hfresh hpte
      rw [haddr]
      refine ⟨⟨_, ?_, halloc.enterTable hp⟩, fun _ => ?_⟩
      · refine Prod.ext rfl ?_
        unfold Kernel.storeWord Kernel.storePage withPage
        dsimp only
        rw [Nat.mul_div_cancel p (by decide), Nat.mul_div_cancel d (by decide)]
      · rw [Nat.mul_div_cancel p (by decide)]
        exact hp
  · rw [if_neg hnone, if_neg hnone]
    refine ⟨⟨page, rfl, h⟩, fun _ => ?_⟩
    refine h.apart.table_ne _ hm fun hzero => hnone ?_
    rw [hzero, getPageAttr_zero]

theorem setUmmValue (h : Twins F d k page) (attr value : ℕ) :
    Alike F d (k.setUmmValue attr value (d * pageSize))
      ((k.withPage page).setUmmValue attr value (d * pageSize)) := by
  unfold Kernel.setUmmValue
  by_cases hhigh : pageOffset ≤ attr
  · rw [if_pos hhigh, if_pos hhigh]
    exact ⟨page, rfl, h⟩
  · rw [if_neg hhigh, if_neg hhigh]
    obtain ⟨⟨page', htable, h'⟩, hne⟩ := h.ummTable (Nat.lt_of_not_le hhigh)
    rw [htable]
    dsimp only
    by_cases hpte : (k.ummTable attr (d * pageSize)).1 = 0
    · rw [if_pos hpte, if_pos hpte]
      exact ⟨page', rfl, h'⟩
    · rw [if_neg hpte, if_neg hpte]
      exact ⟨_, rfl, h'.storeWord (hne hpte) _ _⟩

theorem pmmAllocPage (h : Twins F d k page) : Twins F d { k with pmm := k.pmm.pmmAllocPage.2 } page :=
  h.of_keeps rfl rfl ⟨rfl, k.pmm.pmmAllocPage_length, id⟩ (h.bounded.pmmAllocPage_taken h.apart.taken).1

theorem ummHandler (h : Twins F d k page) (attr : ℕ) :
    Alike F d (k.ummHandler attr (d * pageSize))
      ((k.withPage page).ummHandler attr (d * pageSize)) := by
  have halloc := h.pmmAllocPage
  have hfresh := (h.bounded.pmmAllocPage_taken h.apart.taken).2
  unfold Kernel.ummHandler
  dsimp only [withPage_pmm]
  by_cases hphy : k.pmm.pmmAllocPage.1 = 0
  · rw [if_pos hphy, if_pos hphy]
    exact ⟨page, rfl, halloc⟩
  · rw [if_neg hphy, if_neg hphy]
    obtain ⟨page', hset, h'⟩ := halloc.setUmmValue attr (setPage k.pmm.pmmAllocPage.1 pageUser)
    have hset' : Kernel.setUmmValue { k.withPage page with pmm := k.pmm.pmmAllocPage.2 } attr
        (setPage k.pmm.pmmAllocPage.1 pageUser) (d * pageSize) = _ := hset
    rw [hset']
    dsimp only
    by_cases hdone : (Kernel.setUmmValue { k with pmm := k.pmm.pmmAllocPage.2 } attr
        (setPage k.pmm.pmmAllocPage.1 pageUser) (d * pageSize)).1 = 0
    · rw [if_pos hdone, if_pos hdone]
      refine ⟨page', rfl, h'.of_keeps rfl rfl ⟨rfl, Pmm.pmmFreePage_length _ _ _, id⟩ ?_⟩
      exact notMem_freePages_pmmFreePage (hfresh hphy).symm h'.apart.taken
    · rw [if_neg hdone, if_neg hdone]
      exact ⟨page', rfl, h'⟩

/-! ## Windows in both kernels -/

theorem globlPageMmap (h : Twins F d k page) (f g : ℕ) : Twins F d (k.globlPageMmap f g) page := by
  obtain ⟨pte, hmmap, -⟩ := globlPageMmap_eq k f g
  rw [hmmap]
  exact h.of_keeps rfl rfl ⟨rfl, rfl, id⟩ h.apart.taken

theorem pdePage (h : Twins F d k page) {attr : ℕ} (hattr : attr < 2 ^ 32) :
    Alike F d (k.pdePage attr (d * pageSize)) ((k.withPage page).pdePage attr (d * pageSize)) := by
  unfold Kernel.pdePage
  dsimp only [withPage_pmm]
  rw [h.getUmmValue hattr]
  by_cases hmapped : getPageAttr (k.getUmmValue attr (d * pageSize)) = 0
  · rw [if_pos hmapped, if_pos hmapped]
    have halloc := h.pmmAllocPage
    by_cases hphy : k.pmm.pmmAllocPage.1 ≠ 0
    · rw [if_pos hphy, if_pos hphy]
      obtain ⟨page', hset, h'⟩ := halloc.setUmmValue attr
        (setPage (getGloblPhyAttr { k with pmm := k.pmm.pmmAllocPage.2 } k.pmm.pmmAllocPage.1) pageUser)
      exact ⟨page', congrArg (fun r => (k.pmm.pmmAllocPage.1, r.2)) hset, h'⟩
    · rw [if_neg hphy, if_neg hphy]
      exact ⟨page, rfl, halloc⟩
  · rw [if_neg hmapped, if_neg hmapped]
    exact ⟨page, rfl, h⟩

theorem vmmMmapPdeLoop (head attr rem i : ℕ) {k : Kernel} {page : ℕ → ℕ → ℕ} (h : Twins F d k page) :
    Alike F d (Kernel.vmmMmapPdeLoop head attr (d * pageSize) rem i k)
      (Kernel.vmmMmapPdeLoop head attr (d * pageSize) rem i (k.withPage page)) := by
  induction rem generalizing i k page with
  | zero => exact ⟨page, rfl, h⟩
  | succ rem ih =>
      have hword : add32 attr (mul32 i pageSize) < 2 ^ 32 := Word.add_lt 32 _ _
      obtain ⟨page', hpde, h'⟩ := h.pdePage hword
      rw [Kernel.vmmMmapPdeLoop, Kernel.vmmMmapPdeLoop, hpde]
      dsimp only
      by_cases hphy : (k.pdePage (add32 attr (mul32 i pageSize)) (d * pageSize)).1 ≠ 0
      · rw [if_pos hphy, if_pos hphy]
        have hindex : ∀ k : Kernel,
            (k.withPage page').getGloblPageIndex (add32 head i) = k.getGloblPageIndex (add32 head i) :=
          fun _ => rfl
        rw [hindex, globlPageMmap_withPage]
        exact ih (i + 1) (h'.globlPageMmap _ _)
      · rw [if_neg hphy, if_neg hphy]
        obtain ⟨pte, hundo, -⟩ := vmmMmapPdeUndo_eq head i
          (k.pdePage (add32 attr (mul32 i pageSize)) (d * pageSize)).2
        refine ⟨page', Prod.ext rfl (vmmMmapPdeUndo_withPage page' head i _), ?_⟩
        dsimp only
        rw [hundo]
        exact h'.of_keeps rfl rfl ⟨rfl, rfl, id⟩ h'.apart.taken

theorem vmmTake (h : Twins F d k page) (p count : ℕ) :
    Alike F d (k.vmmTake p count) ((k.withPage page).vmmTake p count) :=
  ⟨page, rfl, h.of_keeps rfl rfl (Keeps.vmmTake k p count) h.apart.taken⟩

theorem vmmMmapPdePage (h : Twins F d k page) (fuel attr count : ℕ) :
    Option.Rel (Alike F d) (k.vmmMmapPdePage fuel attr count (d * pageSize))
      ((k.withPage page).vmmMmapPdePage fuel attr count (d * pageSize)) := by
  unfold Kernel.vmmMmapPdePage
  rw [vmmScan_withPage]
  rcases k.vmmScan fuel count with _ | _ | p
  · exact .none
  · exact .some ⟨page, rfl, h⟩
  · refine .some ?_
    dsimp only
    obtain ⟨page', hloop, h'⟩ := vmmMmapPdeLoop (add32 (sub32 p count) 1) attr count 0 h
    rw [hloop]
    rcases hval : Kernel.vmmMmapPdeLoop (add32 (sub32 p count) 1) attr (d * pageSize) count 0 k with
      ⟨_ | _, k'⟩
    · rw [hval] at h'
      exact ⟨page', rfl, h'⟩
    · rw [hval] at h'
      exact h'.vmmTake p count

theorem vmmAllocPage (h : Twins F d k page) (fuel count : ℕ) :
    Option.Rel (Alike F d) (k.vmmAllocPage fuel count) ((k.withPage page).vmmAllocPage fuel count) := by
  rw [vmmAllocPage_withPage]
  rcases hcall : k.vmmAllocPage fuel count with _ | ⟨r, k'⟩
  · exact .none
  · refine .some ⟨page, rfl, ?_⟩
    have hpages : k'.page = k.page ∧ k'.globlPtePage = k.globlPtePage := by
      rcases vmmAllocPage_cases hcall with ⟨-, -, rfl⟩ | ⟨p, kMapped, -, hreturn⟩
      · exact ⟨rfl, rfl⟩
      · obtain ⟨done, pmm, pte, heq, -⟩ := vmmAllocLoop_eq (add32 (sub32 p count) 1) count 0 k
        rcases hreturn with ⟨hloop, -, rfl⟩ | ⟨hloop, -, rfl⟩
        · rw [← (Prod.mk.inj (heq.symm.trans hloop)).2]
          exact ⟨rfl, rfl⟩
        · rw [← (Prod.mk.inj (heq.symm.trans hloop)).2]
          exact ⟨rfl, rfl⟩
    exact h.of_keeps hpages.1 hpages.2 (Keeps.vmmAllocPage hcall)
      (notMem_freePages_vmmAllocPage hcall h.apart.ne_zero h.apart.taken)

theorem vmmMmapPage (h : Twins F d k page) (phyAttr : ℕ) :
    Alike F d (k.vmmMmapPage phyAttr) ((k.withPage page).vmmMmapPage phyAttr) := by
  refine ⟨page, vmmMmapPage_withPage page phyAttr, ?_⟩
  unfold Kernel.vmmMmapPage
  split
  · exact h
  · rcases k.vmmMmapLoop_cases phyAttr k.vmmPos with hnone | ⟨q, pte, -, hq, -, hloop, -⟩
    · rw [hnone]
      exact h
    · rw [hloop]
      exact h.of_keeps rfl rfl ⟨rfl, rfl, lt_of_le_of_lt hq⟩ h.apart.taken

theorem ummMmapOne (h : Twins F d k page) (fuel : ℕ) {attr : ℕ} (hattr : attr < 2 ^ 32) :
    Option.Rel (Alike F d) (k.ummMmapOne fuel attr (d * pageSize))
      ((k.withPage page).ummMmapOne fuel attr (d * pageSize)) := by
  unfold Kernel.ummMmapOne
  dsimp only
  rw [h.getUmmValue hattr]
  by_cases hmapped : getPageAttr (k.getUmmValue attr (d * pageSize)) = 0
  · rw [if_pos hmapped, if_pos hmapped]
    refine OptionRel.map (h.vmmAllocPage fuel 1) ?_
    rintro ⟨p, k'⟩ - ⟨page', rfl, h'⟩
    dsimp only at h' ⊢
    by_cases hp : p ≠ 0
    · rw [if_pos hp, if_pos hp]
      obtain ⟨page'', hset, h''⟩ := h'.setUmmValue attr (setPage (k'.getGloblPhyAttr p) pageUser)
      exact ⟨page'', congrArg (fun r => (p, r.2)) hset, h''⟩
    · rw [if_neg hp, if_neg hp]
      exact ⟨page', rfl, h'⟩
  · rw [if_neg hmapped, if_neg hmapped]
    exact .some (h.vmmMmapPage _)

theorem ummMmapKmm (h : Twins F d k page) (fuel : ℕ) {attr : ℕ} (hattr : attr < 2 ^ 32) (len : ℕ) :
    Option.Rel (Alike F d) (k.ummMmapKmm fuel attr len (d * pageSize))
      ((k.withPage page).ummMmapKmm fuel attr len (d * pageSize)) := by
  have hbase : pageBase attr < 2 ^ 32 := by
    unfold pageBase
    lia
  unfold Kernel.ummMmapKmm
  by_cases hout : pageOffset < add32 attr len
  · rw [if_pos hout, if_pos hout]
    exact .some ⟨page, rfl, h⟩
  · rw [if_neg hout, if_neg hout]
    dsimp only
    have hwindow : Option.Rel (Alike F d)
        (if ummPageCount attr len = 1 then k.ummMmapOne fuel (pageBase attr) (d * pageSize)
          else k.vmmMmapPdePage fuel (pageBase attr) (ummPageCount attr len) (d * pageSize))
        (if ummPageCount attr len = 1 then (k.withPage page).ummMmapOne fuel (pageBase attr) (d * pageSize)
          else (k.withPage page).vmmMmapPdePage fuel (pageBase attr) (ummPageCount attr len)
            (d * pageSize)) := by
      by_cases hone : ummPageCount attr len = 1
      · rw [if_pos hone, if_pos hone]
        exact h.ummMmapOne fuel hbase
      · rw [if_neg hone, if_neg hone]
        exact h.vmmMmapPdePage fuel _ _
    refine OptionRel.map hwindow ?_
    rintro ⟨p, k'⟩ - ⟨page', rfl, h'⟩
    dsimp only
    by_cases hp : p = 0
    · rw [if_pos hp, if_pos hp]
      exact ⟨page', rfl, h'⟩
    · rw [if_neg hp, if_neg hp]
      exact ⟨page', rfl, h'⟩

theorem ummUmmapKmm (h : Twins F d k page) (attr len : ℕ) :
    (k.withPage page).ummUmmapKmm attr len = (k.ummUmmapKmm attr len).withPage page ∧
      Twins F d (k.ummUmmapKmm attr len) page := by
  refine ⟨vmmUmmapPage_withPage page _ _ k, ?_⟩
  obtain ⟨hpage, hglobl, hpmm⟩ := k.vmmUmmapPage_kept (pageBase attr) (ummPageCount attr len)
  refine h.of_keeps hpage hglobl (Keeps.vmmUmmapPage k _ _) ?_
  rw [show (k.ummUmmapKmm attr len).pmm = k.pmm from hpmm]
  exact h.apart.taken

end Twins

end Kernel

theorem Tabled.not_isGlobl {b : KernelBoot} {k : Kernel} {live : Finset ℕ} (h : Tabled b k live) {x : ℕ}
    (hx : x ∈ b.arena) : ¬ k.IsGlobl x := by
  have hbehind := b.globlPte_le
  have hbase := (Boot.mem_arena.1 hx).1
  unfold Kernel.IsGlobl
  rw [h.globlPtePage]
  unfold Boot.memBasePage at hbase
  lia

end BitchKernel
