import BitchKernel.Mm.UmmTwin

/-!
# A page fault, all or nothing

`umm_handler` takes a frame from the top of the memory and may take a page for the page table
from the bottom. It fails when either cannot be had, when the page of the table lies behind the
direct pages, and on an address of the kernel. On every way out that fails the bitmap, the count
and all pages are as they were; on the other one the page is mapped to a frame that was free, and
no other translation changed.
-/

namespace BitchKernel

open Lib

namespace Pmm

/-- The same pages are free, and the same number of them is counted. -/
structure SameFree (s t : Pmm) : Prop where
  bitmap : t.pmmBitmap = s.pmmBitmap
  count : t.pmmFreePageCount = s.pmmFreePageCount
  length : t.pmmBitmapLength = s.pmmBitmapLength

/-- The page `p` was free and was taken. -/
structure Took (s : Pmm) (p : ℕ) (t : Pmm) : Prop where
  free : p ∈ s.freePages
  bitmap : t.pmmBitmap = s.pmmBitmap.mark p
  count : t.pmmFreePageCount = sub32 s.pmmFreePageCount 1
  length : t.pmmBitmapLength = s.pmmBitmapLength

variable {s t u : Pmm} {p : ℕ}

theorem SameFree.refl (s : Pmm) : s.SameFree s := ⟨rfl, rfl, rfl⟩

theorem Took.of_sameFree (h : s.Took p t) (hsame : t.SameFree u) : s.Took p u :=
  ⟨h.free, hsame.bitmap.trans h.bitmap, hsame.count.trans h.count, hsame.length.trans h.length⟩

theorem Took.freePages (h : s.Took p t) : t.freePages = s.freePages.erase p := by
  unfold Pmm.freePages
  rw [h.bitmap, h.length]
  exact Bitmap.freeSet_mark _ _ _

theorem Took.notMem (h : s.Took p t) {x : ℕ} (hx : x ∉ s.freePages) : x ∉ t.freePages := by
  rw [h.freePages]
  exact fun hmem => hx (Finset.mem_of_mem_erase hmem)

theorem setBitMask_one_of_free (h : p ∈ s.freePages) :
    (s.setBitMask p 1).2 = { s with pmmBitmap := s.pmmBitmap.mark p } := by
  unfold setBitMask
  rw [if_pos (mem_freePages.1 h).1, if_neg (by decide)]

theorem took_takePage (h : p ∈ s.freePages) : s.Took p (s.takePage p) := by
  unfold takePage
  rw [setBitMask_one_of_free h]
  exact ⟨h, rfl, rfl, rfl⟩

theorem took_takeRun (h : p ∈ s.freePages) : s.Took p (s.takeRun p 1) := by
  unfold takeRun
  rw [setBitMasks, setBitMasks, Nat.add_zero, setBitMask_one_of_free h]
  exact ⟨h, rfl, rfl, rfl⟩

theorem Took.pmmFreePage (h : s.Took p t) (hbits : s.pmmBitmapLength ≤ 0x20000)
    (hcount : s.pmmFreePageCount < 2 ^ 32) : s.SameFree (t.pmmFreePage (p * pageSize) 1) := by
  obtain ⟨hlt, hbit⟩ := mem_freePages.1 h.free
  have hindex : add32 (p * pageSize / pageSize) 0 = p := by
    rw [Nat.mul_div_cancel _ (by decide), add32_of_lt (by lia), Nat.add_zero]
  unfold Pmm.pmmFreePage
  dsimp only
  rw [setBitMasks, setBitMasks, hindex]
  unfold setBitMask
  rw [if_pos (h.length ▸ hlt), if_pos rfl]
  refine ⟨?_, ?_, h.length⟩
  · dsimp only
    rw [h.bitmap, Bitmap.clear_mark hbit]
  · dsimp only
    rw [h.count]
    exact add32_sub32_cancel hcount (by decide)

end Pmm

namespace Kernel

variable {k k' : Kernel}

/-- The page is in use by the kernel, and no word of it is an entry of the global page
tables. -/
def Kept (k : Kernel) (x : ℕ) : Prop := x ≠ 0 ∧ x ∉ k.pmm.freePages ∧ ¬ k.IsGlobl x

/-- What `pmm_init` and `vmm_init` establish: the memory ends at 4 GB, no page of the kernel is
free, the count is a word and there is a direct page. -/
structure AllocState (k : Kernel) : Prop where
  bits : k.pmm.pmmBitmapLength ≤ 0x20000
  free : ∀ p ∈ k.pmm.freePages, p ≠ 0 ∧ ¬ k.IsGlobl p
  count_lt : k.pmm.pmmFreePageCount < 2 ^ 32
  direct : 0 < k.dmmapPageCount

/-- Well-formed directories: each user entry is empty or present, and names a page table of its
own. -/
structure PdeWellFormed (k : Kernel) (live : Finset ℕ) : Prop where
  dir : ∀ d ∈ live, k.Kept d
  entry : ∀ d ∈ live, ∀ m < pdeIndex pageOffset,
    k.page d m = 0 ∨ (k.page d m % 2 = 1 ∧ k.Kept (k.tableAt d m))
  table_ne : ∀ d ∈ live, ∀ m < pdeIndex pageOffset, k.page d m ≠ 0 → k.tableAt d m ∉ live
  table_inj : ∀ d ∈ live, ∀ m < pdeIndex pageOffset, ∀ d' ∈ live, ∀ m' < pdeIndex pageOffset,
    k.page d m ≠ 0 → k.page d' m' ≠ 0 → k.tableAt d m = k.tableAt d' m' → d = d' ∧ m = m'

/-- A well-formed directory, by itself: its user entries name distinct page tables, which are taken
like the directory itself. -/
structure DirWellFormed (k : Kernel) (d : ℕ) : Prop where
  dir : k.Kept d
  table : ∀ m < pdeIndex pageOffset, k.page d m ≠ 0 → k.Kept (k.tableAt d m) ∧ k.tableAt d m ≠ d
  table_inj : ∀ m < pdeIndex pageOffset, ∀ m' < pdeIndex pageOffset,
    k.page d m ≠ 0 → k.page d m' ≠ 0 → k.tableAt d m = k.tableAt d m' → m = m'

/-- The directory `d` translates the address `attr` alike, for the kernel and for the processor. -/
structure SameTranslation (k k' : Kernel) (d attr : ℕ) : Prop where
  value : k'.getUmmValue attr (d * pageSize) = k.getUmmValue attr (d * pageSize)
  maps : ∀ f, k'.Maps d (attr / pageSize) f ↔ k.Maps d (attr / pageSize) f

/-- The bitmap, the count, the directories and all page tables are as before. -/
structure Untouched (k k' : Kernel) : Prop where
  free : k.pmm.SameFree k'.pmm
  page : k'.page = k.page
  globlMmapPte : k'.globlMmapPte = k.globlMmapPte

/-- The page of `attr` has a frame that was free, and no other translation changed. -/
structure FaultServed (k k' : Kernel) (live : Finset ℕ) (d attr : ℕ) : Prop where
  frame : ∃ f ∈ k.pmm.freePages, k'.Maps d (attr / pageSize) f
  others : ∀ d' ∈ live, ∀ attr' < pageOffset, d' ≠ d ∨ attr' / pageSize ≠ attr / pageSize →
    k.SameTranslation k' d' attr'

/-- The words of a page outside the global page tables, whatever became of the allocator. -/
theorem loadWord_of_page {x : ℕ} (h : ¬ k.IsGlobl x) (pmm : Pmm) (page : ℕ → ℕ → ℕ) (i : ℕ) :
    loadWord { k with pmm := pmm, page := page } (x * pageSize) i = page x i := by
  have hpage : x * pageSize / pageSize = x := Nat.mul_div_cancel x (by decide)
  unfold loadWord
  dsimp only
  rw [hpage]
  exact if_neg h

theorem Kept.loadWord {x : ℕ} (h : k.Kept x) (i : ℕ) : k.loadWord (x * pageSize) i = k.page x i :=
  loadWord_of_page h.2.2 k.pmm k.page i

theorem tableAt_mul (k : Kernel) (d m : ℕ) : k.tableAt d m * pageSize = getPageAttr (k.page d m) := by
  unfold tableAt getPageAttr
  rw [Nat.mul_div_cancel _ (by decide)]

theorem maps_index (k : Kernel) (d attr f : ℕ) : k.Maps d (attr / pageSize) f ↔
    (k.loadWord (d * pageSize) (pdeIndex attr) % 2 = 1 ∧
      k.loadWord (getPageAttr (k.loadWord (d * pageSize) (pdeIndex attr))) (pteIndex attr) % 2 = 1 ∧
      f = k.loadWord (getPageAttr (k.loadWord (d * pageSize) (pdeIndex attr))) (pteIndex attr) /
        pageSize) := by
  obtain ⟨hpde, hpte⟩ := Tabled.index_eq attr
  rw [hpde, hpte]
  exact Iff.rfl

theorem sameTranslation_of_words {d attr : ℕ}
    (hdir : k'.loadWord (d * pageSize) (pdeIndex attr) = k.loadWord (d * pageSize) (pdeIndex attr))
    (htable : k.loadWord (d * pageSize) (pdeIndex attr) ≠ 0 →
      k'.loadWord (getPageAttr (k.loadWord (d * pageSize) (pdeIndex attr))) (pteIndex attr) =
        k.loadWord (getPageAttr (k.loadWord (d * pageSize) (pdeIndex attr))) (pteIndex attr)) :
    k.SameTranslation k' d attr := by
  by_cases hentry : k.loadWord (d * pageSize) (pdeIndex attr) = 0
  · refine ⟨?_, fun f => ?_⟩
    · unfold getUmmValue
      dsimp only
      rw [hdir, if_pos hentry, if_pos hentry]
    · rw [maps_index, maps_index, hdir, hentry]
      refine iff_of_false ?_ ?_ <;> exact fun h => absurd h.1 (by decide)
  · have hword := htable hentry
    refine ⟨?_, fun f => ?_⟩
    · unfold getUmmValue
      dsimp only
      rw [hdir, if_neg hentry, if_neg hentry, hword]
    · rw [maps_index, maps_index, hdir, hword]

theorem sameTranslation_of_newTable {d attr : ℕ}
    (hold : k.loadWord (d * pageSize) (pdeIndex attr) = 0)
    (hnew : k'.loadWord (getPageAttr (k'.loadWord (d * pageSize) (pdeIndex attr))) (pteIndex attr) = 0) :
    k.SameTranslation k' d attr := by
  refine ⟨?_, fun f => ?_⟩
  · unfold getUmmValue
    dsimp only
    rw [if_pos hold, hnew, ite_self]
  · rw [maps_index, maps_index, hold, hnew]
    exact iff_of_false (fun h => absurd h.2.1 (by decide)) fun h => absurd h.1 (by decide)

/-! ## The allocator moves -/

theorem AllocState.of_took (h : k.AllocState) {p : ℕ} {pmm : Pmm} (htook : k.pmm.Took p pmm) :
    AllocState { k with pmm := pmm } where
  bits := htook.length.symm ▸ h.bits
  free q hq := by
    replace hq : q ∈ pmm.freePages := hq
    rw [htook.freePages] at hq
    exact h.free q (Finset.mem_of_mem_erase hq)
  count_lt := by
    replace hlt : sub32 k.pmm.pmmFreePageCount 1 < 2 ^ 32 := Word.sub_lt 32 _ _
    rw [← htook.count] at hlt
    exact hlt
  direct := h.direct

theorem Kept.of_took {x p : ℕ} {pmm : Pmm} (h : k.Kept x) (htook : k.pmm.Took p pmm) :
    Kept { k with pmm := pmm } x :=
  ⟨h.1, htook.notMem h.2.1, h.2.2⟩

theorem PdeWellFormed.of_took {live : Finset ℕ} (h : k.PdeWellFormed live) {p : ℕ} {pmm : Pmm}
    (htook : k.pmm.Took p pmm) : PdeWellFormed { k with pmm := pmm } live where
  dir d hd := (h.dir d hd).of_took htook
  entry d hd m hm := (h.entry d hd m hm).imp_right fun hentry => ⟨hentry.1, hentry.2.of_took htook⟩
  table_ne := h.table_ne
  table_inj := h.table_inj

theorem AllocState.dmmAllocPage (h : k.AllocState) :
    (∃ pmm, k.dmmAllocPage 1 = (0, { k with pmm := pmm }) ∧ k.pmm.SameFree pmm) ∨
    ∃ q pmm, k.pmm.Took q pmm ∧ k.dmmAllocPage 1 = (q * pageSize, { k with pmm := pmm }) := by
  have hdirect := h.direct
  unfold Kernel.dmmAllocPage
  dsimp only
  rcases k.pmm.pmmUpAllocPage_cases 1 with ⟨q, -, -, hrun, -, hup⟩ | ⟨-, hup⟩
  · have hfree : q ∈ k.pmm.freePages := hrun 0 (by decide)
    have hbits := h.bits
    have hlt := (Pmm.mem_freePages.1 hfree).1
    rw [hup, mul32_of_lt (by lia)]
    dsimp only
    split
    · exact .inl ⟨_, rfl, (Pmm.took_takeRun hfree).pmmFreePage h.bits h.count_lt⟩
    · exact .inr ⟨q, _, Pmm.took_takeRun hfree, rfl⟩
  · rw [hup]
    dsimp only
    rw [if_neg (by rw [Nat.zero_div, add32_of_lt (by decide)]; omega)]
    exact .inl ⟨_, rfl, Pmm.SameFree.refl _⟩

/-! ## The page table -/

/-- The page table for an address: the one the directory names, a new one, or none. -/
theorem DirWellFormed.ummTable_cases {d attr : ℕ} (ha : k.AllocState)
    (h : k.DirWellFormed d) (hattr : attr < pageOffset) :
    (∃ pmm, k.ummTable attr (d * pageSize) = (0, { k with pmm := pmm }) ∧ k.pmm.SameFree pmm) ∨
    (k.page d (pdeIndex attr) ≠ 0 ∧
      k.ummTable attr (d * pageSize) = (k.tableAt d (pdeIndex attr) * pageSize, k)) ∨
    (k.page d (pdeIndex attr) = 0 ∧ ∃ q pmm, k.pmm.Took q pmm ∧
      k.ummTable attr (d * pageSize) = (q * pageSize, { k with
        pmm := pmm
        page := Function.update (Function.update k.page q fun _ => 0) d
          (Function.update (Function.update k.page q (fun _ => 0) d) (pdeIndex attr) (userEntry q)) })) := by
  unfold Kernel.ummTable
  dsimp only
  rw [h.dir.loadWord]
  by_cases hentry : k.page d (pdeIndex attr) = 0
  · rw [hentry, getPageAttr_zero, if_pos rfl]
    rcases ha.dmmAllocPage with ⟨pmm, halloc, hsame⟩ | ⟨q, pmm, htook, halloc⟩
    · rw [halloc]
      exact .inl ⟨pmm, if_pos rfl, hsame⟩
    · have hq0 : q * pageSize ≠ 0 := Nat.mul_ne_zero (ha.free q htook.free).1 (by decide)
      rw [halloc]
      dsimp only
      rw [if_neg hq0, Tabled.setPage_user, Nat.mul_div_cancel q (by decide)]
      unfold Kernel.storeWord Kernel.storePage
      dsimp only
      rw [Nat.mul_div_cancel q (by decide), Nat.mul_div_cancel d (by decide)]
      exact .inr (.inr ⟨rfl, q, pmm, htook, rfl⟩)
  · have hkept := (h.table _ (Tabled.pdeIndex_lt hattr) hentry).1
    rw [← tableAt_mul, if_neg (Nat.mul_ne_zero hkept.1 (by decide))]
    exact .inr (.inl ⟨hentry, rfl⟩)

namespace PdeWellFormed

variable {live : Finset ℕ} {d attr : ℕ}

theorem dirWellFormed (h : k.PdeWellFormed live) (hd : d ∈ live) : k.DirWellFormed d := by
  refine ⟨h.dir d hd, fun m hm hentry => ⟨?_, ?_⟩, fun m hm m' hm' hentry hentry' heq => ?_⟩
  · exact ((h.entry d hd m hm).resolve_left hentry).2
  · intro heq
    have hnot := h.table_ne d hd m hm hentry
    rw [heq] at hnot
    exact hnot hd
  · exact (h.table_inj d hd m hm d hd m' hm' hentry hentry' heq).2

theorem loadWord_dir (h : k.PdeWellFormed live) (hd : d ∈ live) (m : ℕ) :
    k.loadWord (d * pageSize) m = k.page d m := (h.dir d hd).loadWord m

theorem kept_table (h : k.PdeWellFormed live) (hd : d ∈ live) {m : ℕ} (hm : m < pdeIndex pageOffset)
    (hentry : k.page d m ≠ 0) : k.Kept (k.tableAt d m) :=
  ((h.entry d hd m hm).resolve_left hentry).2

theorem loadWord_table (h : k.PdeWellFormed live) (hd : d ∈ live) {m : ℕ}
    (hm : m < pdeIndex pageOffset) (hentry : k.page d m ≠ 0) (n : ℕ) :
    k.loadWord (getPageAttr (k.page d m)) n = k.page (k.tableAt d m) n := by
  rw [← tableAt_mul]
  exact (h.kept_table hd hm hentry).loadWord n

/-- The words of the directories and of their page tables are the same, except for one word of
one page table. -/
theorem sameTranslation_of_table (h : k.PdeWellFormed live) {page : ℕ → ℕ → ℕ} {pmm : Pmm}
    (hd : d ∈ live) (hattr : attr < pageOffset)
    (hdir : page d (pdeIndex attr) = k.page d (pdeIndex attr))
    (htable : k.page d (pdeIndex attr) ≠ 0 →
      page (k.tableAt d (pdeIndex attr)) (pteIndex attr) =
        k.page (k.tableAt d (pdeIndex attr)) (pteIndex attr)) :
    k.SameTranslation { k with pmm := pmm, page := page } d attr := by
  refine sameTranslation_of_words ?_ fun hentry => ?_
  · rw [loadWord_of_page (h.dir d hd).2.2, h.loadWord_dir hd, hdir]
  · rw [h.loadWord_dir hd] at hentry ⊢
    have hkept := h.kept_table hd (Tabled.pdeIndex_lt hattr) hentry
    rw [← tableAt_mul, hkept.loadWord, loadWord_of_page hkept.2.2, htable hentry]

theorem pteIndex_ne {attr' : ℕ} (hne : attr' / pageSize ≠ attr / pageSize)
    (hpde : pdeIndex attr' = pdeIndex attr) : pteIndex attr' ≠ pteIndex attr := by
  obtain ⟨hm, hn⟩ := Tabled.index_eq attr
  obtain ⟨hm', hn'⟩ := Tabled.index_eq attr'
  intro hpte
  rw [hm, hm'] at hpde
  rw [hn, hn'] at hpte
  exact hne ((Nat.div_add_mod _ pagePteIndex).symm.trans
    ((by rw [hpde, hpte] : _ = _).trans (Nat.div_add_mod _ pagePteIndex)))

theorem served_of_table (h : k.PdeWellFormed live) (hd : d ∈ live) (hattr : attr < pageOffset)
    (hentry : k.page d (pdeIndex attr) ≠ 0) (f : ℕ) {page : ℕ → ℕ → ℕ} (pmm : Pmm)
    (hpage : page = Function.update k.page (k.tableAt d (pdeIndex attr))
      (Function.update (k.page (k.tableAt d (pdeIndex attr))) (pteIndex attr) (userEntry f))) :
    Maps { k with pmm := pmm, page := page } d (attr / pageSize) f ∧
      ∀ d' ∈ live, ∀ attr' < pageOffset, d' ≠ d ∨ attr' / pageSize ≠ attr / pageSize →
        k.SameTranslation { k with pmm := pmm, page := page } d' attr' := by
  have hm := Tabled.pdeIndex_lt hattr
  have hkept := h.kept_table hd hm hentry
  have hnot := h.table_ne d hd _ hm hentry
  -- the page table is no directory
  have hdir : ∀ d' ∈ live, page d' = k.page d' := by
    intro d' hd'
    rw [hpage]
    refine Function.update_of_ne ?_ _ _
    rintro rfl
    exact hnot hd'
  refine ⟨?_, fun d' hd' attr' hattr' hne => ?_⟩
  · obtain ⟨hodd, hframe⟩ := Tabled.userEntry_odd f
    rw [maps_index, loadWord_of_page (h.dir d hd).2.2, hdir d hd, ← tableAt_mul,
      loadWord_of_page hkept.2.2, hpage, Function.update_self, Function.update_self]
    exact ⟨((h.entry d hd _ hm).resolve_left hentry).1, hodd, hframe.symm⟩
  · have hm' := Tabled.pdeIndex_lt hattr'
    refine h.sameTranslation_of_table hd' hattr' (congrFun (hdir d' hd') _) fun hentry' => ?_
    by_cases hsame : k.tableAt d' (pdeIndex attr') = k.tableAt d (pdeIndex attr)
    · obtain ⟨rfl, hpde⟩ := h.table_inj d' hd' _ hm' d hd _ hm hentry' hentry hsame
      have hpte := pteIndex_ne (hne.resolve_left (not_not.2 rfl)) hpde
      rw [hpage, hsame, Function.update_self, Function.update_of_ne hpte]
    · rw [hpage, Function.update_of_ne hsame]

theorem served_of_newTable (h : k.PdeWellFormed live) (hd : d ∈ live)
    (hentry : k.page d (pdeIndex attr) = 0) {q : ℕ} (hq : q ∈ k.pmm.freePages) (hglobl : ¬ k.IsGlobl q)
    (f : ℕ) {page page' : ℕ → ℕ → ℕ} (pmm : Pmm)
    (hpage : page = Function.update (Function.update k.page q fun _ => 0) d
      (Function.update (Function.update k.page q (fun _ => 0) d) (pdeIndex attr) (userEntry q)))
    (hpage' : page' = Function.update page q (Function.update (page q) (pteIndex attr) (userEntry f))) :
    Maps { k with pmm := pmm, page := page' } d (attr / pageSize) f ∧
      ∀ d' ∈ live, ∀ attr' < pageOffset, d' ≠ d ∨ attr' / pageSize ≠ attr / pageSize →
        k.SameTranslation { k with pmm := pmm, page := page' } d' attr' := by
  have hnot : ∀ d' ∈ live, d' ≠ q := by
    rintro d' hd' rfl
    exact (h.dir d' hd').2.1 hq
  have htable : ∀ n, page q n = 0 := by
    intro n
    rw [hpage, Function.update_of_ne (hnot d hd).symm, Function.update_self]
  have hnew : page' d (pdeIndex attr) = userEntry q := by
    rw [hpage', Function.update_of_ne (hnot d hd), hpage, Function.update_self, Function.update_self]
  have hother : ∀ x, x ≠ q → x ≠ d → page' x = k.page x := by
    intro x hxq hxd
    rw [hpage', Function.update_of_ne hxq, hpage, Function.update_of_ne hxd, Function.update_of_ne hxq]
  have hword : ∀ n, loadWord { k with pmm := pmm, page := page' } (getPageAttr (page' d (pdeIndex attr))) n =
      Function.update (page q) (pteIndex attr) (userEntry f) n := by
    intro n
    rw [hnew, getPageAttr_userEntry, loadWord_of_page hglobl, hpage', Function.update_self]
  refine ⟨?_, fun d' hd' attr' hattr' hne => ?_⟩
  · obtain ⟨hodd, hframe⟩ := Tabled.userEntry_odd f
    rw [maps_index, loadWord_of_page (h.dir d hd).2.2, hword, Function.update_self, hnew]
    exact ⟨(Tabled.userEntry_odd q).1, hodd, hframe.symm⟩
  · by_cases hsame : d' = d ∧ pdeIndex attr' = pdeIndex attr
    · obtain ⟨rfl, hpde⟩ := hsame
      have hpte := pteIndex_ne (hne.resolve_left (not_not.2 rfl)) hpde
      refine sameTranslation_of_newTable ?_ ?_
      · rw [h.loadWord_dir hd, hpde, hentry]
      · rw [loadWord_of_page (h.dir d' hd).2.2, hpde, hword, Function.update_of_ne hpte, htable]
    · have hm' := Tabled.pdeIndex_lt hattr'
      refine h.sameTranslation_of_table hd' hattr' ?_ fun hentry' => ?_
      · by_cases heq : d' = d
        · subst heq
          have hpde : pdeIndex attr' ≠ pdeIndex attr := fun hpde => hsame ⟨rfl, hpde⟩
          rw [hpage', Function.update_of_ne (hnot d' hd'), hpage, Function.update_self,
            Function.update_of_ne hpde, Function.update_of_ne (hnot d' hd')]
        · exact congrFun (hother d' (hnot d' hd') heq) _
      · have hkept := h.kept_table hd' hm' hentry'
        have htable' := h.table_ne d' hd' _ hm' hentry'
        refine congrFun (hother _ ?_ ?_) _
        · rintro heq
          exact hkept.2.1 (heq ▸ hq)
        · rintro heq
          exact htable' (heq ▸ hd)

/-- `set_umm_value` enters a frame, or changes nothing that counts. -/
theorem setUmmValue_cases (ha : k.AllocState) (h : k.PdeWellFormed live) (hd : d ∈ live) (attr f : ℕ) :
    (∃ pmm, k.setUmmValue attr (userEntry f) (d * pageSize) = (0, { k with pmm := pmm }) ∧
      k.pmm.SameFree pmm) ∨
    ∃ pmm page, k.setUmmValue attr (userEntry f) (d * pageSize) =
        (1, { k with pmm := pmm, page := page }) ∧
      Maps { k with pmm := pmm, page := page } d (attr / pageSize) f ∧
      ∀ d' ∈ live, ∀ attr' < pageOffset, d' ≠ d ∨ attr' / pageSize ≠ attr / pageSize →
        k.SameTranslation { k with pmm := pmm, page := page } d' attr' := by
  unfold Kernel.setUmmValue
  by_cases hattr : pageOffset ≤ attr
  · rw [if_pos hattr]
    exact .inl ⟨k.pmm, rfl, Pmm.SameFree.refl _⟩
  · rw [if_neg hattr]
    dsimp only
    replace hattr := Nat.lt_of_not_le hattr
    rcases (h.dirWellFormed hd).ummTable_cases ha hattr with ⟨pmm, htable, hsame⟩ |
      ⟨hentry, htable⟩ | ⟨hentry, q, pmm, htook, htable⟩
    · rw [htable]
      exact .inl ⟨pmm, if_pos rfl, hsame⟩
    · have hkept := h.kept_table hd (Tabled.pdeIndex_lt hattr) hentry
      rw [htable]
      dsimp only
      rw [if_neg (Nat.mul_ne_zero hkept.1 (by decide))]
      unfold Kernel.storeWord Kernel.storePage
      rw [Nat.mul_div_cancel _ (by decide)]
      exact .inr ⟨k.pmm, _, rfl, h.served_of_table hd hattr hentry f k.pmm rfl⟩
    · obtain ⟨hq0, hglobl⟩ := ha.free q htook.free
      rw [htable]
      dsimp only
      rw [if_neg (Nat.mul_ne_zero hq0 (by decide))]
      unfold Kernel.storeWord Kernel.storePage
      dsimp only
      rw [Nat.mul_div_cancel _ (by decide)]
      exact .inr ⟨pmm, _, rfl, h.served_of_newTable hd hentry htook.free hglobl f pmm rfl rfl⟩

end PdeWellFormed

/-- **Page-fault handling is all-or-nothing.** For well-formed directories and any state of the
page allocator, the handler of a fault at any address of one of them either returns 0 and leaves
the bitmap, the count, the directories and all page tables as they were, or returns 1, gives the
page a frame that was free and changes no other translation. -/
theorem ummHandler_all_or_nothing {live : Finset ℕ} (ha : k.AllocState) (h : k.PdeWellFormed live)
    {d : ℕ} (hd : d ∈ live) (attr : ℕ) :
    ((k.ummHandler attr (d * pageSize)).1 = 0 ∧ k.Untouched (k.ummHandler attr (d * pageSize)).2) ∨
    ((k.ummHandler attr (d * pageSize)).1 = 1 ∧
      k.FaultServed (k.ummHandler attr (d * pageSize)).2 live d attr) := by
  unfold Kernel.ummHandler
  dsimp only
  rcases k.pmm.pmmAllocPage_cases with ⟨p, hp, -, -, halloc⟩ | ⟨-, halloc⟩
  · have hfree := (Pmm.mem_reach.1 hp).1
    have hbits := ha.bits
    have hlt := (Pmm.mem_freePages.1 hfree).1
    have htook := Pmm.took_takePage hfree
    have hp0 : p * pageSize ≠ 0 := Nat.mul_ne_zero (ha.free p hfree).1 (by decide)
    rw [halloc, mul32_of_lt (by lia)]
    dsimp only
    rw [if_neg hp0, Tabled.setPage_user, Nat.mul_div_cancel p (by decide)]
    rcases (h.of_took htook).setUmmValue_cases (ha.of_took htook) hd attr p with
      ⟨pmm, hset, hsame⟩ | ⟨pmm, page, hset, hmaps, hothers⟩
    · rw [hset]
      exact .inl ⟨rfl, (htook.of_sameFree hsame).pmmFreePage ha.bits ha.count_lt, rfl, rfl⟩
    · rw [hset]
      exact .inr ⟨rfl, ⟨p, hfree, hmaps⟩, fun d' hd' attr' hattr' hne =>
        ⟨(hothers d' hd' attr' hattr' hne).value, (hothers d' hd' attr' hattr' hne).maps⟩⟩
  · rw [halloc]
    exact .inl ⟨rfl, ⟨rfl, rfl, rfl⟩, rfl, rfl⟩

end Kernel

namespace Tabled

open Kernel

variable {b : KernelBoot} {k : Kernel} {live : Finset ℕ}

theorem pdeWellFormed (h : Tabled b k live) : k.PdeWellFormed live := by
  have hkept : ∀ x u, u.Structural → Names k.page live x u → k.Kept x := by
    intro x u hu hnames
    obtain ⟨harena, hused, -⟩ := h.used x u hu hnames
    have hbase := b.le_memBasePage
    have hmem := (Boot.mem_arena.1 harena).1
    exact ⟨by omega, hused, h.not_isGlobl harena⟩
  have htable : ∀ d ∈ live, ∀ m < pdeIndex pageOffset, k.page d m ≠ 0 →
      Names k.page live (k.tableAt d m) (.table d m) := by
    intro d hd m hm hentry
    obtain ⟨t, ht⟩ := (h.entry d hd m hm).resolve_left hentry
    have hat : k.tableAt d m = t := by
      unfold tableAt
      rw [ht, getPageAttr_userEntry, Nat.mul_div_cancel _ (by decide)]
    exact ⟨hd, hm, hat ▸ ht⟩
  refine ⟨fun d hd => hkept d (.dir d) trivial ⟨hd, rfl⟩, fun d hd m hm => ?_, fun d hd m hm hentry hlive => ?_,
    fun d hd m hm d' hd' m' hm' hentry hentry' heq => ?_⟩
  · by_cases hentry : k.page d m = 0
    · exact .inl hentry
    · obtain ⟨t, ht⟩ := (h.entry d hd m hm).resolve_left hentry
      exact .inr ⟨ht ▸ (userEntry_odd t).1, hkept _ (.table d m) trivial (htable d hd m hm hentry)⟩
  · exact absurd (h.alone _ (.table d m) (.dir _) trivial trivial (htable d hd m hm hentry) ⟨hlive, rfl⟩)
      (by simp)
  · have hnames := htable d' hd' m' hm' hentry'
    rw [← heq] at hnames
    have huse := h.alone _ (.table d m) (.table d' m') trivial trivial (htable d hd m hm hentry) hnames
    injection huse with hdir hindex
    exact ⟨hdir, hindex⟩

theorem allocState (h : Tabled b k live) : k.AllocState where
  bits := by
    have hlength := h.sound.length
    have hcount := b.memPageCount_lt
    dsimp only at hlength
    rw [hlength]
    unfold Boot.pmmBitmapLength
    lia
  free p hp := by
    have harena := h.sound.mem_arena hp
    have hbase := b.le_memBasePage
    have hmem := (Boot.mem_arena.1 harena).1
    exact ⟨by omega, h.not_isGlobl harena⟩
  count_lt := by
    have hcount := h.sound.count
    have hcard := Finset.card_le_card fun p (hp : p ∈ k.pmm.freePages) =>
      Finset.mem_range.2 (Boot.mem_arena.1 (h.sound.mem_arena hp)).2
    have hlt := b.memPageCount_lt
    rw [Finset.card_range] at hcard
    dsimp only at hcount
    omega
  direct := h.window.dmmap_pos

end Tabled

section Example

open Kernel

/-- The first fault of the first directory. -/
theorem ummHandler_all_or_nothing_first :
    (((pdeRun smallBoot).kernel.ummHandler 0x1000 (449 * pageSize)).1 = 0 ∧
      (pdeRun smallBoot).kernel.Untouched ((pdeRun smallBoot).kernel.ummHandler 0x1000 (449 * pageSize)).2) ∨
    (((pdeRun smallBoot).kernel.ummHandler 0x1000 (449 * pageSize)).1 = 1 ∧
      (pdeRun smallBoot).kernel.FaultServed ((pdeRun smallBoot).kernel.ummHandler 0x1000 (449 * pageSize)).2
        {449} 449 0x1000) := by
  obtain ⟨hbase, hcount, hdmmap⟩ := smallBoot_pages
  have hreach := pdeRun_reachable (b := smallBoot) (by rw [hbase, hcount]; decide)
    (by rw [hbase, hdmmap]; decide)
  have h := (Owned.of_reachable hreach).toTabled
  have hlive : (pdeRun smallBoot).live = {449} := by
    rw [pdeRun, hbase]
  rw [hlive] at h
  exact ummHandler_all_or_nothing h.allocState h.pdeWellFormed (Finset.mem_singleton_self 449) 0x1000

end Example

end BitchKernel
