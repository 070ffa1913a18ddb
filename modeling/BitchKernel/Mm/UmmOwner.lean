import BitchKernel.Mm.VmmSafety

/-!
# Who owns a page

A page serves a directory as the directory itself, as one of its page tables, or as a
page the user sees at some address. `Names` reads this off the words of the
directories: it holds of a page and a use when the entry for this use names the page.
`Tabled` says that directories and page tables are in order: they are taken pages of
the direct map, each with a single use. `Owned` says the same of the pages of the
users. The lemmas here are the edits: a new directory, a new page table, a page
entered at an address, a directory given back.
-/

namespace BitchKernel

open Lib

namespace Pmm

/-- The allocator is as in a run that allocated the pages which are not free. -/
def Sound (b : Boot) (s : Pmm) : Prop := PmmInv b ⟨s, b.arena \ s.freePages⟩

namespace Sound

variable {b : Boot} {s : Pmm}

theorem of_pmmInv {allocated : Finset ℕ} (h : PmmInv b ⟨s, allocated⟩) : Sound b s := by
  have heq : b.arena \ s.freePages = allocated := by
    rw [h.free, Finset.sdiff_sdiff_eq_self h.allocated_subset]
  unfold Sound
  rw [heq]
  exact h

theorem mem_arena (h : Sound b s) {f : ℕ} (hf : f ∈ s.freePages) : f ∈ b.arena :=
  (h.mem_arena_of_free hf).1

theorem pmmAllocPage (h : Sound b s) :
    Sound b s.pmmAllocPage.2 ∧
    ((∃ f ∈ s.reach, s.pmmAllocPage.1 = f * pageSize ∧ f ≠ 0 ∧
        s.pmmAllocPage.2.freePages = s.freePages.erase f) ∨
      (s.reach = ∅ ∧ s.pmmAllocPage.1 = 0 ∧ s.pmmAllocPage.2.freePages = s.freePages)) := by
  refine ⟨of_pmmInv (PmmInv.of_pmmAllocPage h), ?_⟩
  rcases s.pmmAllocPage_cases with ⟨p, hp, -, -, heq⟩ | ⟨hnone, heq⟩
  · have harena := h.mem_arena (Pmm.mem_reach.1 hp).1
    have hbase := b.le_memBasePage
    have hmem := (Boot.mem_arena.1 harena).1
    rw [heq]
    exact .inl ⟨p, hp, Boot.mul32_pageSize harena, by omega, freePages_takePage s p⟩
  · rw [heq]
    exact .inr ⟨hnone, rfl, freePages_congr rfl rfl⟩

theorem pmmUpAllocPage (h : Sound b s) :
    Sound b (s.pmmUpAllocPage 1).2 ∧
    ((∃ f ∈ s.freePages, (s.pmmUpAllocPage 1).1 = f * pageSize ∧ f ≠ 0 ∧
        (s.pmmUpAllocPage 1).2.freePages = s.freePages.erase f) ∨
      ((s.pmmUpAllocPage 1).1 = 0 ∧ (s.pmmUpAllocPage 1).2.freePages = s.freePages)) := by
  refine ⟨of_pmmInv (PmmInv.of_pmmUpAllocPage h le_rfl), ?_⟩
  rcases s.pmmUpAllocPage_cases 1 with ⟨p, -, -, hrun, -, heq⟩ | ⟨-, heq⟩
  · have hfree : p ∈ s.freePages := hrun 0 Nat.one_pos
    have harena := h.mem_arena hfree
    have hbase := b.le_memBasePage
    have hmem := (Boot.mem_arena.1 harena).1
    rw [heq]
    refine .inl ⟨p, hfree, Boot.mul32_pageSize harena, by omega, ?_⟩
    dsimp only
    rw [freePages_takeRun, Nat.Ico_succ_singleton, Finset.sdiff_singleton_eq_erase]
  · rw [heq]
    exact .inr ⟨rfl, rfl⟩

theorem pmmFreePage (h : Sound b s) {f : ℕ} (harena : f ∈ b.arena) (hused : f ∉ s.freePages) :
    Sound b (s.pmmFreePage (f * pageSize) 1) ∧
      (s.pmmFreePage (f * pageSize) 1).freePages = insert f s.freePages := by
  have hlt := b.memPageCount_lt
  have hbits := b.memPageCount_le_bits
  have hmem := (Boot.mem_arena.1 harena).2
  have hpage : f * pageSize / pageSize = f := Nat.mul_div_cancel _ (by decide)
  refine ⟨of_pmmInv (PmmInv.of_pmmFreePage h (by lia) ?_), ?_⟩
  · rw [hpage, Nat.Ico_succ_singleton, Finset.singleton_subset_iff]
    exact Finset.mem_sdiff.2 ⟨harena, hused⟩
  · have hlen : s.pmmBitmapLength = b.pmmBitmapLength := h.length
    rw [freePages_pmmFreePage, hpage, Finset.range_one, Finset.image_singleton,
      add32_of_lt (by omega), Nat.add_zero, Finset.filter_singleton, if_pos (by omega),
      Finset.union_comm, Finset.insert_eq]

end Sound

end Pmm

/-! ## Uses of a page -/

/-- What a page serves as. A directory is named by its page, a page table by its index
in the directory, and a page of the user by the page index of its address. -/
inductive Use
  | dir (d : ℕ)
  | table (d m : ℕ)
  | user (d a : ℕ)

namespace Use

def pde : Use → ℕ
  | dir d => d
  | table d _ => d
  | user d _ => d

/-- The uses the kernel keeps its words in. -/
def Structural : Use → Prop
  | dir _ => True
  | table _ _ => True
  | user _ _ => False

end Use

/-- The entry of a directory or a page table that names the page `f`. -/
def userEntry (f : ℕ) : ℕ := setPage (f * pageSize) pageUser

@[simp] theorem getPageAttr_userEntry (f : ℕ) : getPageAttr (userEntry f) = f * pageSize := by
  rw [userEntry, getPageAttr_setPage, pageBase_mul]

theorem userEntry_ne_zero (f : ℕ) : userEntry f ≠ 0 := by
  unfold userEntry setPage
  lia

theorem userEntry_inj {f g : ℕ} (h : userEntry f = userEntry g) : f = g := by
  have hattr := congrArg getPageAttr h
  rw [getPageAttr_userEntry, getPageAttr_userEntry] at hattr
  exact Nat.eq_of_mul_eq_mul_right (by decide) hattr

/-- The words of the live directories name the page `f` for the use. -/
def Names (page : ℕ → ℕ → ℕ) (live : Finset ℕ) (f : ℕ) : Use → Prop
  | .dir d => d ∈ live ∧ f = d
  | .table d m => d ∈ live ∧ m < pdeIndex pageOffset ∧ page d m = userEntry f
  | .user d a => ∃ t, (d ∈ live ∧ a / pagePteIndex < pdeIndex pageOffset ∧
      page d (a / pagePteIndex) = userEntry t) ∧ page t (a % pagePteIndex) = userEntry f

theorem names_dir {page : ℕ → ℕ → ℕ} {live : Finset ℕ} {f d : ℕ} :
    Names page live f (.dir d) ↔ d ∈ live ∧ f = d :=
  Iff.rfl

theorem names_table {page : ℕ → ℕ → ℕ} {live : Finset ℕ} {f d m : ℕ} :
    Names page live f (.table d m) ↔ d ∈ live ∧ m < pdeIndex pageOffset ∧ page d m = userEntry f :=
  Iff.rfl

theorem names_user {page : ℕ → ℕ → ℕ} {live : Finset ℕ} {f d a : ℕ} :
    Names page live f (.user d a) ↔
      ∃ t, Names page live t (.table d (a / pagePteIndex)) ∧ page t (a % pagePteIndex) = userEntry f :=
  Iff.rfl

namespace Names

variable {page : ℕ → ℕ → ℕ} {live : Finset ℕ} {f g d a m : ℕ} {u : Use}

theorem pde_mem (h : Names page live f u) : u.pde ∈ live := by
  cases u with
  | dir d => exact h.1
  | table d m => exact h.1
  | user d a =>
      obtain ⟨t, ⟨hd, -⟩, -⟩ := h
      exact hd

theorem eq (h : Names page live f u) (h' : Names page live g u) : f = g := by
  cases u with
  | dir d => exact h.2.trans h'.2.symm
  | table d m => exact userEntry_inj (h.2.2.symm.trans h'.2.2)
  | user d a =>
      obtain ⟨t, ⟨-, -, ht⟩, hf⟩ := h
      obtain ⟨t', ⟨-, -, ht'⟩, hg⟩ := h'
      rw [userEntry_inj (ht'.symm.trans ht)] at hg
      exact userEntry_inj (hf.symm.trans hg)

/-- A store to a page the kernel keeps no directory and no page table in. -/
theorem update {page : ℕ → ℕ → ℕ} {live : Finset ℕ} {x : ℕ}
    (hx : ∀ u : Use, u.Structural → ¬ Names page live x u) (words : ℕ → ℕ) (f : ℕ) (u : Use) :
    Names (Function.update page x words) live f u ↔ Names page live f u := by
  have hdir : ∀ d ∈ live, Function.update page x words d = page d := by
    intro d hd
    refine Function.update_of_ne ?_ _ _
    rintro rfl
    exact hx (.dir d) trivial ⟨hd, rfl⟩
  have htable : ∀ d m t, Names page live t (.table d m) →
      Function.update page x words t = page t := by
    intro d m t ht
    refine Function.update_of_ne ?_ _ _
    rintro rfl
    exact hx (.table d m) trivial ht
  cases u with
  | dir d => exact Iff.rfl
  | table d m =>
      rw [names_table, names_table]
      constructor
      · rintro ⟨hd, hm, hentry⟩
        rw [hdir d hd] at hentry
        exact ⟨hd, hm, hentry⟩
      · rintro ⟨hd, hm, hentry⟩
        rw [← hdir d hd] at hentry
        exact ⟨hd, hm, hentry⟩
  | user d a =>
      rw [names_user, names_user]
      constructor
      · rintro ⟨t, ⟨hd, hm, hentry⟩, hleaf⟩
        rw [hdir d hd] at hentry
        rw [htable d _ t ⟨hd, hm, hentry⟩] at hleaf
        exact ⟨t, ⟨hd, hm, hentry⟩, hleaf⟩
      · rintro ⟨t, ⟨hd, hm, hentry⟩, hleaf⟩
        rw [← htable d _ t ⟨hd, hm, hentry⟩] at hleaf
        rw [← hdir d hd] at hentry
        exact ⟨t, ⟨hd, hm, hentry⟩, hleaf⟩

end Names

/-- Directories and page tables are in order: the entries of both name pages or are
empty, and each of them is a taken page of the direct map with this use alone. -/
structure Tabled (b : KernelBoot) (k : Kernel) (live : Finset ℕ) : Prop where
  globlPtePage : k.globlPtePage = b.globlPtePage
  sound : k.pmm.Sound b.toBoot
  window : VmmInv ⟨k, []⟩
  entry : ∀ d ∈ live, ∀ m < pdeIndex pageOffset, k.page d m = 0 ∨ ∃ t, k.page d m = userEntry t
  leaf : ∀ t d m, Names k.page live t (.table d m) → ∀ n < pagePteIndex,
    k.page t n = 0 ∨ ∃ f, k.page t n = userEntry f
  used : ∀ f u, u.Structural → Names k.page live f u →
    f ∈ b.arena ∧ f ∉ k.pmm.freePages ∧ f < k.dmmapPageCount
  alone : ∀ f u u', u.Structural → u'.Structural → Names k.page live f u →
    Names k.page live f u' → u = u'

/-- Each page in use by a directory is a taken page with this use alone. -/
structure Owned (b : KernelBoot) (k : Kernel) (live : Finset ℕ) : Prop extends Tabled b k live where
  taken : ∀ f u, Names k.page live f u → f ∈ b.arena ∧ f ∉ k.pmm.freePages
  single : ∀ f u u', Names k.page live f u → Names k.page live f u' → u = u'

/-- What `set_umm_value` does to the words of the directories when it enters the page
`g` at the page index `a` of `d`: it may take a free page for the table. -/
structure Entered (k k' : Kernel) (live : Finset ℕ) (g d a : ℕ) (tables : Finset ℕ) : Prop where
  fresh : tables ⊆ k.pmm.freePages
  free : k'.pmm.freePages = k.pmm.freePages \ tables
  names : ∀ f u, Names k'.page live f u ↔ (Names k.page live f u ∧ u ≠ .user d a) ∨
    (f = g ∧ u = .user d a) ∨ (f ∈ tables ∧ u = .table d (a / pagePteIndex))
  kept : ∀ x, (∀ u : Use, u.Structural → ¬ Names k'.page live x u) → k'.page x = k.page x

/-! ## Words of a directory that change -/

namespace Tabled

variable {b : KernelBoot} {k k' : Kernel} {live : Finset ℕ}

theorem dir_ne_table (h : Tabled b k live) {d d' m t : ℕ} (hd : d ∈ live)
    (ht : Names k.page live t (.table d' m)) : d ≠ t := by
  rintro rfl
  exact absurd (h.alone d (.dir d) (.table d' m) trivial trivial ⟨hd, rfl⟩ ht) (by simp)

theorem table_eq (h : Tabled b k live) {d d' m m' t : ℕ} (ht : Names k.page live t (.table d m))
    (ht' : Names k.page live t (.table d' m')) : d' = d ∧ m' = m := by
  have huse := h.alone t (.table d m) (.table d' m') trivial trivial ht ht'
  injection huse with hd hm
  exact ⟨hd.symm, hm.symm⟩

theorem names_newTable (h : Tabled b k live) {d m t : ℕ} (hd : d ∈ live) (hm : m < pdeIndex pageOffset)
    (hnone : k.page d m = 0) (ht : ∀ n < pagePteIndex, k.page t n = 0) (htd : t ≠ d) (f : ℕ) (u : Use) :
    Names (Function.update k.page d (Function.update (k.page d) m (userEntry t))) live f u ↔
      Names k.page live f u ∨ (f = t ∧ u = .table d m) := by
  have hentry : ∀ d' m', ¬ (d' = d ∧ m' = m) →
      Function.update k.page d (Function.update (k.page d) m (userEntry t)) d' m' = k.page d' m' := by
    intro d' m' hne
    by_cases hd' : d' = d
    · rw [hd', Function.update_self]
      exact Function.update_of_ne (fun hm' => hne ⟨hd', hm'⟩) _ _
    · rw [Function.update_of_ne hd']
  have hnew : Function.update k.page d (Function.update (k.page d) m (userEntry t)) d m = userEntry t := by
    rw [Function.update_self, Function.update_self]
  cases u with
  | dir d' => simp [names_dir]
  | table d' m' =>
      rw [names_table, names_table]
      by_cases hslot : d' = d ∧ m' = m
      · obtain ⟨rfl, rfl⟩ := hslot
        rw [hnew, hnone]
        constructor
        · rintro ⟨-, -, hentry⟩
          exact .inr ⟨userEntry_inj hentry.symm, rfl⟩
        · rintro (⟨-, -, hzero⟩ | ⟨rfl, -⟩)
          · exact absurd hzero.symm (userEntry_ne_zero f)
          · exact ⟨hd, hm, rfl⟩
      · rw [hentry d' m' hslot]
        have hother : ¬ (f = t ∧ Use.table d' m' = .table d m) := by
          rintro ⟨-, heq⟩
          injection heq with hd' hm'
          exact hslot ⟨hd', hm'⟩
        rw [or_iff_left hother]
  | user d' a =>
      have hother : ¬ (f = t ∧ Use.user d' a = .table d m) := fun heq => absurd heq.2 (by simp)
      rw [or_iff_left hother]
      simp only [names_user, names_table]
      by_cases hslot : d' = d ∧ a / pagePteIndex = m
      · obtain ⟨rfl, hm'⟩ := hslot
        rw [hm', hnew, hnone]
        constructor
        · rintro ⟨t', ⟨-, -, ht'⟩, hleaf⟩
          rw [← userEntry_inj ht', hentry t _ fun heq => htd heq.1,
            ht _ (Nat.mod_lt a (by decide))] at hleaf
          exact absurd hleaf.symm (userEntry_ne_zero f)
        · rintro ⟨t', ⟨-, -, hzero⟩, -⟩
          exact absurd hzero.symm (userEntry_ne_zero t')
      · rw [hentry d' _ hslot]
        refine exists_congr fun t' => and_congr_right fun ht' => ?_
        have hne : t' ≠ d := (h.dir_ne_table hd ht').symm
        rw [hentry t' _ fun heq => hne heq.1]

theorem names_leaf (h : Tabled b k live) {d a t : ℕ}
    (ht : Names k.page live t (.table d (a / pagePteIndex))) (g f : ℕ) (u : Use) :
    Names (Function.update k.page t (Function.update (k.page t) (a % pagePteIndex) (userEntry g))) live f u ↔
      (Names k.page live f u ∧ u ≠ .user d a) ∨ (f = g ∧ u = .user d a) := by
  have hdir : ∀ d' ∈ live,
      Function.update k.page t (Function.update (k.page t) (a % pagePteIndex) (userEntry g)) d' =
        k.page d' := by
    intro d' hd'
    exact Function.update_of_ne (h.dir_ne_table hd' ht) _ _
  cases u with
  | dir d' => simp [names_dir]
  | table d' m' =>
      rw [names_table, names_table]
      simp only [ne_eq, reduceCtorEq, not_false_eq_true, and_true, and_false, or_false]
      refine and_congr_right fun hd' => and_congr_right fun _ => ?_
      rw [hdir d' hd']
  | user d' a' =>
      rw [names_user, names_user]
      constructor
      · rintro ⟨t', ⟨hd', hm', ht'⟩, hleaf⟩
        rw [hdir d' hd'] at ht'
        have hold : Names k.page live t' (.table d' (a' / pagePteIndex)) := ⟨hd', hm', ht'⟩
        by_cases heq : t' = t
        · obtain ⟨hd, hm⟩ := h.table_eq ht (heq ▸ hold)
          rw [heq, Function.update_self] at hleaf
          by_cases hslot : a' % pagePteIndex = a % pagePteIndex
          · rw [hslot, Function.update_self] at hleaf
            have ha : a' = a := by lia
            exact .inr ⟨userEntry_inj hleaf.symm, by rw [hd, ha]⟩
          · rw [Function.update_of_ne hslot] at hleaf
            refine .inl ⟨⟨t', hold, heq ▸ hleaf⟩, fun huse => hslot ?_⟩
            injection huse with _ ha
            rw [ha]
        · rw [Function.update_of_ne heq] at hleaf
          refine .inl ⟨⟨t', hold, hleaf⟩, fun huse => heq ?_⟩
          injection huse with hd ha
          rw [hd, ha] at ht'
          exact userEntry_inj (ht'.symm.trans ht.2.2)
      · rintro (⟨⟨t', ⟨hd', hm', ht'⟩, hleaf⟩, hne⟩ | ⟨rfl, huse⟩)
        · have hold : Names k.page live t' (.table d' (a' / pagePteIndex)) := ⟨hd', hm', ht'⟩
          refine ⟨t', ⟨hd', hm', by rw [hdir d' hd', ht']⟩, ?_⟩
          by_cases heq : t' = t
          · obtain ⟨hd, hm⟩ := h.table_eq ht (heq ▸ hold)
            have hslot : a' % pagePteIndex ≠ a % pagePteIndex := by
              intro hslot
              have ha : a' = a := by lia
              exact hne (by rw [hd, ha])
            rw [heq, Function.update_self, Function.update_of_ne hslot, ← heq, hleaf]
          · rw [Function.update_of_ne heq, hleaf]
        · injection huse with hd ha
          rw [hd, ha]
          refine ⟨t, ⟨ht.1, ht.2.1, by rw [hdir d ht.1, ht.2.2]⟩, ?_⟩
          rw [Function.update_self, Function.update_self]

theorem of_page_eq (h : Tabled b k live) (hpage : k'.page = k.page)
    (hpte : k'.globlPtePage = k.globlPtePage) (hdmmap : k'.dmmapPageCount = k.dmmapPageCount)
    (hsound : k'.pmm.Sound b.toBoot) (hwindow : VmmInv ⟨k', []⟩)
    (hfree : ∀ f u, u.Structural → Names k.page live f u → f ∉ k'.pmm.freePages) :
    Tabled b k' live where
  globlPtePage := hpte.trans h.globlPtePage
  sound := hsound
  window := hwindow
  entry := by
    rw [hpage]
    exact h.entry
  leaf := by
    rw [hpage]
    exact h.leaf
  used := by
    rw [hpage, hdmmap]
    intro f u hu hf
    obtain ⟨harena, -, hdirect⟩ := h.used f u hu hf
    exact ⟨harena, hfree f u hu hf, hdirect⟩
  alone := by
    rw [hpage]
    exact h.alone

theorem of_pmm (h : Tabled b k live) {pmm : Pmm} (hsound : pmm.Sound b.toBoot)
    (hfree : ∀ f u, u.Structural → Names k.page live f u → f ∉ pmm.freePages) :
    Tabled b { k with pmm := pmm } live :=
  h.of_page_eq rfl rfl rfl hsound (h.window.of_frame rfl h.window.vmmPos_lt fun _ _ => rfl) hfree

theorem of_window (h : Tabled b k live) {pte : ℕ → ℕ} {pos count : ℕ}
    (hwindow : VmmInv ⟨{ k with globlMmapPte := pte, vmmPos := pos, vmmFreePageCount := count }, []⟩) :
    Tabled b { k with globlMmapPte := pte, vmmPos := pos, vmmFreePageCount := count } live :=
  h.of_page_eq rfl rfl rfl h.sound hwindow fun f u hu hf => (h.used f u hu hf).2.1

theorem of_store (h : Tabled b k live) {x : ℕ}
    (hx : ∀ u : Use, u.Structural → ¬ Names k.page live x u) (words : ℕ → ℕ) :
    Tabled b { k with page := Function.update k.page x words } live where
  globlPtePage := h.globlPtePage
  sound := h.sound
  window := h.window.of_frame rfl h.window.vmmPos_lt fun _ _ => rfl
  entry d hd m hm := by
    have hne : d ≠ x := by
      rintro rfl
      exact hx (.dir d) trivial ⟨hd, rfl⟩
    dsimp only
    rw [Function.update_of_ne hne]
    exact h.entry d hd m hm
  leaf t d m ht n hn := by
    have hold := (Names.update hx words t _).1 ht
    have hne : t ≠ x := fun heq => hx (.table d m) trivial (heq ▸ hold)
    dsimp only
    rw [Function.update_of_ne hne]
    exact h.leaf t d m hold n hn
  used f u hu hf := h.used f u hu ((Names.update hx words f u).1 hf)
  alone f u u' hu hu' hf hf' :=
    h.alone f u u' hu hu' ((Names.update hx words f u).1 hf) ((Names.update hx words f u').1 hf')

theorem of_newTable (h : Tabled b k live) {d m t : ℕ} (hd : d ∈ live) (hm : m < pdeIndex pageOffset)
    (hnone : k.page d m = 0) (hzero : ∀ n < pagePteIndex, k.page t n = 0)
    (ht : ∀ u : Use, u.Structural → ¬ Names k.page live t u) (harena : t ∈ b.arena)
    (hused : t ∉ k.pmm.freePages) (hdirect : t < k.dmmapPageCount) :
    Tabled b { k with
      page := Function.update k.page d (Function.update (k.page d) m (userEntry t)) } live := by
  have htd : t ≠ d := by
    rintro rfl
    exact ht (.dir t) trivial ⟨hd, rfl⟩
  have hnames := h.names_newTable hd hm hnone hzero htd
  refine ⟨h.globlPtePage, h.sound, h.window.of_frame rfl h.window.vmmPos_lt fun _ _ => rfl, ?_, ?_,
    ?_, ?_⟩
  · intro d' hd' m' hm'
    dsimp only
    by_cases heq : d' = d
    · rw [heq, Function.update_self]
      by_cases hslot : m' = m
      · rw [hslot, Function.update_self]
        exact .inr ⟨t, rfl⟩
      · rw [Function.update_of_ne hslot]
        exact h.entry d hd m' hm'
    · rw [Function.update_of_ne heq]
      exact h.entry d' hd' m' hm'
  · intro t' d' m' ht' n hn
    dsimp only at ht' ⊢
    rcases (hnames t' _).1 ht' with hold | ⟨rfl, -⟩
    · rw [Function.update_of_ne (h.dir_ne_table hd hold).symm]
      exact h.leaf t' d' m' hold n hn
    · rw [Function.update_of_ne htd]
      exact .inl (hzero n hn)
  · intro f u hu hf
    rcases (hnames f u).1 hf with hold | ⟨rfl, -⟩
    · exact h.used f u hu hold
    · exact ⟨harena, hused, hdirect⟩
  · intro f u u' hu hu' hf hf'
    rcases (hnames f u).1 hf with hold | ⟨rfl, huse⟩
    · rcases (hnames f u').1 hf' with hold' | ⟨rfl, -⟩
      · exact h.alone f u u' hu hu' hold hold'
      · exact absurd hold (ht u hu)
    · rcases (hnames f u').1 hf' with hold' | ⟨-, huse'⟩
      · exact absurd hold' (ht u' hu')
      · exact huse.trans huse'.symm

theorem of_leaf (h : Tabled b k live) {d a t : ℕ}
    (ht : Names k.page live t (.table d (a / pagePteIndex))) (g : ℕ) :
    Tabled b { k with
      page := Function.update k.page t (Function.update (k.page t) (a % pagePteIndex) (userEntry g)) }
      live := by
  have hnames : ∀ f u, u.Structural → Names (Function.update k.page t
      (Function.update (k.page t) (a % pagePteIndex) (userEntry g))) live f u → Names k.page live f u := by
    intro f u hu hf
    rcases (h.names_leaf ht g f u).1 hf with hold | ⟨-, rfl⟩
    · exact hold.1
    · exact absurd hu id
  refine ⟨h.globlPtePage, h.sound, h.window.of_frame rfl h.window.vmmPos_lt fun _ _ => rfl, ?_, ?_,
    fun f u hu hf => h.used f u hu (hnames f u hu hf),
    fun f u u' hu hu' hf hf' => h.alone f u u' hu hu' (hnames f u hu hf) (hnames f u' hu' hf')⟩
  · intro d' hd' m' hm'
    dsimp only
    rw [Function.update_of_ne (h.dir_ne_table hd' ht)]
    exact h.entry d' hd' m' hm'
  · intro t' d' m' ht' n hn
    have hold := hnames t' (.table d' m') trivial ht'
    dsimp only
    by_cases heq : t' = t
    · rw [heq, Function.update_self]
      by_cases hslot : n = a % pagePteIndex
      · rw [hslot, Function.update_self]
        exact .inr ⟨g, rfl⟩
      · rw [Function.update_of_ne hslot]
        exact h.leaf t d' m' (heq ▸ hold) n hn
    · rw [Function.update_of_ne heq]
      exact h.leaf t' d' m' hold n hn

/-! ## Reading and writing an entry -/

theorem loadWord_eq (h : Tabled b k live) {x : ℕ} (hx : x ∈ b.arena) (i : ℕ) :
    k.loadWord (x * pageSize) i = k.page x i := by
  have hbehind := b.globlPte_le
  have hbase : b.memBaseAddr ≤ b.memBasePage * pageSize := by
    unfold Boot.memBasePage
    lia
  have hmem := (Boot.mem_arena.1 hx).1
  have hpage : x * pageSize / pageSize = x := Nat.mul_div_cancel _ (by decide)
  have hnot : ¬ (k.globlPtePage ≤ x ∧ x < k.globlPtePage + globlPteNum) := by
    rw [h.globlPtePage]
    lia
  unfold Kernel.loadWord
  rw [hpage, if_neg hnot]

theorem loadWord_dir (h : Tabled b k live) {d : ℕ} (hd : d ∈ live) (m : ℕ) :
    k.loadWord (d * pageSize) m = k.page d m :=
  h.loadWord_eq (h.used d (.dir d) trivial ⟨hd, rfl⟩).1 m

theorem loadWord_table (h : Tabled b k live) {t d m : ℕ} (ht : Names k.page live t (.table d m))
    (n : ℕ) : k.loadWord (t * pageSize) n = k.page t n :=
  h.loadWord_eq (h.used t (.table d m) trivial ht).1 n

theorem index_eq (attr : ℕ) : pdeIndex attr = attr / pageSize / pagePteIndex ∧
    pteIndex attr = attr / pageSize % pagePteIndex := by
  unfold pdeIndex pteIndex
  exact ⟨(Nat.div_div_eq_div_mul attr pageSize pagePteIndex).symm, rfl⟩

theorem pdeIndex_lt {attr : ℕ} (h : attr < pageOffset) : pdeIndex attr < pdeIndex pageOffset := by
  unfold pdeIndex
  lia

theorem getUmmValue_cases (h : Tabled b k live) {d attr : ℕ} (hd : d ∈ live) (hattr : attr < pageOffset) :
    (k.getUmmValue attr (d * pageSize) = 0 ∧
      ∀ f, ¬ Names k.page live f (.user d (attr / pageSize))) ∨
    ∃ f, k.getUmmValue attr (d * pageSize) = userEntry f ∧
      Names k.page live f (.user d (attr / pageSize)) := by
  obtain ⟨hpde, hpte⟩ := index_eq attr
  have hm := pdeIndex_lt hattr
  unfold Kernel.getUmmValue
  dsimp only
  rw [h.loadWord_dir hd]
  rcases h.entry d hd (pdeIndex attr) hm with hnone | ⟨t, ht⟩
  · rw [if_pos hnone]
    refine .inl ⟨rfl, ?_⟩
    rintro f ⟨t, ⟨-, -, ht⟩, -⟩
    rw [← hpde, hnone] at ht
    exact userEntry_ne_zero t ht.symm
  · have htable : Names k.page live t (.table d (attr / pageSize / pagePteIndex)) :=
      ⟨hd, hpde ▸ hm, hpde ▸ ht⟩
    rw [if_neg (ht ▸ userEntry_ne_zero t), ht, getPageAttr_userEntry, h.loadWord_table htable, hpte]
    rcases h.leaf t d _ htable _ (Nat.mod_lt (attr / pageSize) (by decide)) with hzero | ⟨f, hf⟩
    · refine .inl ⟨hzero, ?_⟩
      rintro f ⟨t', ht', hleaf⟩
      rw [Names.eq (u := .table d _) ht' htable, hzero] at hleaf
      exact userEntry_ne_zero f hleaf.symm
    · exact .inr ⟨f, hf, t, htable, hf⟩

/-- `dmm_alloc_page` takes a free page of the direct map, or finds none. -/
theorem dmmAllocPage (h : Tabled b k live) :
    (∃ pmm, k.dmmAllocPage 1 = (0, { k with pmm := pmm }) ∧ pmm.Sound b.toBoot ∧
      pmm.freePages = k.pmm.freePages) ∨
    ∃ t ∈ k.pmm.freePages, ∃ pmm, k.dmmAllocPage 1 = (t * pageSize, { k with pmm := pmm }) ∧
      pmm.Sound b.toBoot ∧ pmm.freePages = k.pmm.freePages.erase t ∧ t < k.dmmapPageCount := by
  have hdpos : 0 < k.dmmapPageCount := h.window.dmmap_pos
  obtain ⟨hsound, hcases⟩ := h.sound.pmmUpAllocPage
  unfold Kernel.dmmAllocPage
  dsimp only
  rcases hcases with ⟨t, ht, hattr, -, hfree⟩ | ⟨hattr, hfree⟩
  · have harena := h.sound.mem_arena ht
    have hlt := (Boot.mem_arena.1 harena).2
    have hcount := b.memPageCount_lt
    rw [hattr, Nat.mul_div_cancel _ (by decide), add32_of_lt (by omega)]
    by_cases hout : k.dmmapPageCount < t + 1
    · rw [if_pos hout]
      obtain ⟨hfreed, hback⟩ := hsound.pmmFreePage harena (by rw [hfree]; exact Finset.notMem_erase t _)
      refine .inl ⟨_, rfl, hfreed, ?_⟩
      rw [hback, hfree, Finset.insert_erase ht]
    · rw [if_neg hout]
      exact .inr ⟨t, ht, _, rfl, hsound, hfree, by omega⟩
  · rw [hattr, Nat.zero_div, add32_of_lt (by omega), if_neg (by omega)]
    exact .inl ⟨_, rfl, hsound, hfree⟩

theorem unnamed_of_free (h : Tabled b k live) {x : ℕ} (hx : x ∈ k.pmm.freePages) (u : Use)
    (hu : u.Structural) : ¬ Names k.page live x u :=
  fun hnames => (h.used x u hu hnames).2.1 hx

/-- The page table for an address: the one the directory names, a new one, or none. -/
theorem ummTable_cases (h : Tabled b k live) {d attr : ℕ} (hd : d ∈ live) (hattr : attr < pageOffset) :
    (∃ pmm, k.ummTable attr (d * pageSize) = (0, { k with pmm := pmm }) ∧
      Tabled b { k with pmm := pmm } live ∧ pmm.freePages = k.pmm.freePages) ∨
    ∃ t pmm page tables, k.ummTable attr (d * pageSize) =
        (t * pageSize, { k with pmm := pmm, page := page }) ∧ t ≠ 0 ∧
      Tabled b { k with pmm := pmm, page := page } live ∧
      Names page live t (.table d (attr / pageSize / pagePteIndex)) ∧
      tables ⊆ k.pmm.freePages ∧ pmm.freePages = k.pmm.freePages \ tables ∧
      (∀ f u, Names page live f u ↔ Names k.page live f u ∨
        (f ∈ tables ∧ u = .table d (attr / pageSize / pagePteIndex))) ∧
      ∀ x, (∀ u : Use, u.Structural → ¬ Names page live x u) → page x = k.page x := by
  obtain ⟨hpde, -⟩ := index_eq attr
  have hm := pdeIndex_lt hattr
  unfold Kernel.ummTable
  dsimp only
  rw [h.loadWord_dir hd]
  rcases h.entry d hd (pdeIndex attr) hm with hnone | ⟨t, ht⟩
  · rw [hnone, getPageAttr_zero, if_pos rfl]
    rcases h.dmmAllocPage with ⟨pmm, halloc, hsound, hfree⟩ | ⟨t, htfree, pmm, halloc, hsound, hfree, hdirect⟩
    · rw [halloc]
      refine .inl ⟨pmm, if_pos rfl, h.of_pmm hsound fun f u hu hf => ?_, hfree⟩
      rw [hfree]
      exact (h.used f u hu hf).2.1
    · have harena := h.sound.mem_arena htfree
      have hun := h.unnamed_of_free htfree
      have htaken : Tabled b { k with pmm := pmm } live := by
        refine h.of_pmm hsound fun f u hu hf hmem => (h.used f u hu hf).2.1 ?_
        rw [hfree] at hmem
        exact Finset.mem_of_mem_erase hmem
      have hcleared := htaken.of_store hun fun _ => 0
      have htd : t ≠ d := by
        rintro rfl
        exact hun (.dir t) trivial ⟨hd, rfl⟩
      have hwords : Function.update k.page t (fun _ => 0) d = k.page d := Function.update_of_ne htd.symm _ _
      have hun' : ∀ u : Use, u.Structural →
          ¬ Names (Function.update k.page t fun _ => 0) live t u :=
        fun u hu hnames => hun u hu ((Names.update hun _ t u).1 hnames)
      have hzero : ∀ n < pagePteIndex, Function.update k.page t (fun _ => 0) t n = 0 := by
        intro n _
        rw [Function.update_self]
      have hempty : Function.update k.page t (fun _ => 0) d (pdeIndex attr) = 0 := by
        rw [hwords, hnone]
      have hnotfree : t ∉ pmm.freePages := by
        rw [hfree]
        exact Finset.notMem_erase t _
      have hnames := hcleared.names_newTable hd hm hempty hzero htd
      have hnames' : ∀ f u, Names (Function.update (Function.update k.page t fun _ => 0) d
          (Function.update (Function.update k.page t (fun _ => 0) d) (pdeIndex attr) (userEntry t)))
            live f u ↔ Names k.page live f u ∨
              (f ∈ ({t} : Finset ℕ) ∧ u = .table d (attr / pageSize / pagePteIndex)) := by
        intro f u
        rw [hnames f u, Names.update hun, Finset.mem_singleton, hpde]
      rw [halloc]
      dsimp only
      rw [if_neg (Boot.mul_pageSize_ne_zero harena)]
      unfold Kernel.storeWord Kernel.storePage
      dsimp only
      rw [Nat.mul_div_cancel _ (by decide), Nat.mul_div_cancel _ (by decide)]
      refine .inr ⟨t, pmm, _, {t}, rfl, ?_, ?_, ?_, ?_, ?_, hnames', fun x hx => ?_⟩
      · exact fun hzero => Boot.mul_pageSize_ne_zero harena (by rw [hzero, Nat.zero_mul])
      · exact hcleared.of_newTable hd hm hempty hzero hun' harena hnotfree hdirect
      · exact (hnames' t _).2 (.inr ⟨Finset.mem_singleton_self t, rfl⟩)
      · exact Finset.singleton_subset_iff.2 htfree
      · rw [hfree, Finset.sdiff_singleton_eq_erase]
      · have hxd : x ≠ d := by
          rintro rfl
          exact hx (.dir x) trivial ⟨hd, rfl⟩
        have hxt : x ≠ t := by
          rintro rfl
          exact hx (.table d _) trivial ((hnames' x _).2 (.inr ⟨Finset.mem_singleton_self x, rfl⟩))
        rw [Function.update_of_ne hxd, Function.update_of_ne hxt]
  · have htable : Names k.page live t (.table d (attr / pageSize / pagePteIndex)) :=
      ⟨hd, hpde ▸ hm, hpde ▸ ht⟩
    have harena := (h.used t (.table d _) trivial htable).1
    rw [ht, getPageAttr_userEntry, if_neg (Boot.mul_pageSize_ne_zero harena)]
    refine .inr ⟨t, k.pmm, k.page, ∅, rfl, ?_, h, htable, Finset.empty_subset _,
      Finset.sdiff_empty.symm, fun f u => by simp, fun _ _ => rfl⟩
    exact fun hzero => Boot.mul_pageSize_ne_zero harena (by rw [hzero, Nat.zero_mul])

/-- `set_umm_value` enters a page at an address of the user, or finds no page for the
table and changes nothing. -/
theorem setUmmValue_cases (h : Tabled b k live) {d attr : ℕ} (hd : d ∈ live) (hattr : attr < pageOffset)
    (g : ℕ) :
    (∃ pmm, k.setUmmValue attr (userEntry g) (d * pageSize) = (0, { k with pmm := pmm }) ∧
      Tabled b { k with pmm := pmm } live ∧ pmm.freePages = k.pmm.freePages) ∨
    ∃ pmm page tables, k.setUmmValue attr (userEntry g) (d * pageSize) =
        (1, { k with pmm := pmm, page := page }) ∧
      Tabled b { k with pmm := pmm, page := page } live ∧
      Entered k { k with pmm := pmm, page := page } live g d (attr / pageSize) tables := by
  unfold Kernel.setUmmValue
  rw [if_neg (Nat.not_le_of_lt hattr)]
  dsimp only
  rcases h.ummTable_cases hd hattr with ⟨pmm, hcall, htabled, hfree⟩ |
    ⟨t, pmm, page, tables, hcall, ht0, htabled, ht, hfresh, hfree, hnames, hkept⟩
  · rw [hcall]
    exact .inl ⟨pmm, if_pos rfl, htabled, hfree⟩
  · have hleaf := htabled.names_leaf ht g
    rw [hcall]
    dsimp only
    rw [if_neg (Nat.mul_ne_zero ht0 (by decide))]
    unfold Kernel.storeWord Kernel.storePage
    dsimp only
    rw [Nat.mul_div_cancel _ (by decide)]
    refine .inr ⟨pmm, _, tables, rfl, htabled.of_leaf ht g, hfresh, hfree, fun f u => ?_, fun x hx => ?_⟩
    · refine (hleaf f u).trans ?_
      rw [hnames f u]
      constructor
      · rintro (⟨hold | ⟨hf, rfl⟩, hne⟩ | hnew)
        · exact .inl ⟨hold, hne⟩
        · exact .inr (.inr ⟨hf, rfl⟩)
        · exact .inr (.inl hnew)
      · rintro (⟨hold, hne⟩ | hnew | ⟨hf, rfl⟩)
        · exact .inl ⟨.inl hold, hne⟩
        · exact .inr hnew
        · exact .inl ⟨.inr ⟨hf, rfl⟩, by simp⟩
    · have hold : ∀ u : Use, u.Structural → ¬ Names page live x u := by
        intro u hu hnames
        refine hx u hu ((hleaf x u).2 (.inl ⟨hnames, ?_⟩))
        rintro rfl
        exact hu
      have hxt : x ≠ t := by
        rintro rfl
        exact hold (.table d _) trivial ht
      dsimp only
      rw [Function.update_of_ne hxt, hkept x hold]

end Tabled

/-! ## Edits of who owns a page -/

namespace Owned

variable {b : KernelBoot} {k k' : Kernel} {live : Finset ℕ}

theorem of_page_eq (h : Owned b k live) (htabled : Tabled b k' live) (hpage : k'.page = k.page)
    (hfree : ∀ f u, Names k.page live f u → f ∉ k'.pmm.freePages) : Owned b k' live where
  toTabled := htabled
  taken := by
    rw [hpage]
    exact fun f u hf => ⟨(h.taken f u hf).1, hfree f u hf⟩
  single := by
    rw [hpage]
    exact h.single

theorem of_pmm (h : Owned b k live) {pmm : Pmm} (hsound : pmm.Sound b.toBoot)
    (hfree : ∀ f u, Names k.page live f u → f ∉ pmm.freePages) :
    Owned b { k with pmm := pmm } live :=
  h.of_page_eq (h.toTabled.of_pmm hsound fun f u _ hf => hfree f u hf) rfl hfree

theorem of_window (h : Owned b k live) {pte : ℕ → ℕ} {pos count : ℕ}
    (hwindow : VmmInv ⟨{ k with globlMmapPte := pte, vmmPos := pos, vmmFreePageCount := count }, []⟩) :
    Owned b { k with globlMmapPte := pte, vmmPos := pos, vmmFreePageCount := count } live :=
  h.of_page_eq (h.toTabled.of_window hwindow) rfl fun f u hf => (h.taken f u hf).2

theorem of_store (h : Owned b k live) {x : ℕ}
    (hx : ∀ u : Use, u.Structural → ¬ Names k.page live x u) (words : ℕ → ℕ) :
    Owned b { k with page := Function.update k.page x words } live where
  toTabled := h.toTabled.of_store hx words
  taken f u hf := h.taken f u ((Names.update hx words f u).1 hf)
  single f u u' hf hf' :=
    h.single f u u' ((Names.update hx words f u).1 hf) ((Names.update hx words f u').1 hf')

theorem unnamed_of_free (h : Owned b k live) {x : ℕ} (hx : x ∈ k.pmm.freePages) (u : Use) :
    ¬ Names k.page live x u :=
  fun hnames => (h.taken x u hnames).2 hx

theorem of_entered (h : Owned b k live) (htabled : Tabled b k' live) {g d a : ℕ} {tables : Finset ℕ}
    (hentered : Entered k k' live g d a tables) (harena : g ∈ b.arena) (hused : g ∉ k.pmm.freePages)
    (hun : ∀ u, ¬ Names k.page live g u) : Owned b k' live := by
  obtain ⟨hfresh, hfree, hnames, -⟩ := hentered
  have htable : ∀ f ∈ tables, f ∈ k.pmm.freePages := fun f hf => hfresh hf
  refine ⟨htabled, fun f u hf => ?_, fun f u u' hf hf' => ?_⟩
  · rw [hfree, Finset.mem_sdiff]
    rcases (hnames f u).1 hf with ⟨hold, -⟩ | ⟨rfl, -⟩ | ⟨hmem, -⟩
    · obtain ⟨harena', hused'⟩ := h.taken f u hold
      exact ⟨harena', fun hmem => hused' hmem.1⟩
    · exact ⟨harena, fun hmem => hused hmem.1⟩
    · exact ⟨h.sound.mem_arena (htable f hmem), fun hmem' => hmem'.2 hmem⟩
  · rcases (hnames f u).1 hf with ⟨hold, -⟩ | ⟨rfl, rfl⟩ | ⟨hmem, rfl⟩
    · rcases (hnames f u').1 hf' with ⟨hold', -⟩ | ⟨rfl, -⟩ | ⟨hmem', -⟩
      · exact h.single f u u' hold hold'
      · exact absurd hold (hun u)
      · exact absurd hold (h.unnamed_of_free (htable f hmem') u)
    · rcases (hnames f u').1 hf' with ⟨hold', -⟩ | ⟨-, rfl⟩ | ⟨hmem', -⟩
      · exact absurd hold' (hun u')
      · rfl
      · exact absurd (htable f hmem') hused
    · rcases (hnames f u').1 hf' with ⟨hold', -⟩ | ⟨rfl, -⟩ | ⟨-, rfl⟩
      · exact absurd hold' (h.unnamed_of_free (htable f hmem) u')
      · exact absurd (htable f hmem) hused
      · rfl

theorem pmmAllocPage (h : Owned b k live) :
    Owned b { k with pmm := k.pmm.pmmAllocPage.2 } live ∧
    ((∃ f ∈ k.pmm.freePages, k.pmm.pmmAllocPage.1 = f * pageSize ∧ f ≠ 0 ∧ f ∈ b.arena ∧
        k.pmm.pmmAllocPage.2.freePages = k.pmm.freePages.erase f) ∨
      (k.pmm.pmmAllocPage.1 = 0 ∧ k.pmm.pmmAllocPage.2.freePages = k.pmm.freePages)) := by
  obtain ⟨hsound, hcases⟩ := h.sound.pmmAllocPage
  rcases hcases with ⟨f, hf, hattr, hne, hfree⟩ | ⟨-, hattr, hfree⟩
  · have hmem := (Pmm.mem_reach.1 hf).1
    refine ⟨h.of_pmm hsound fun g u hg hgfree => (h.taken g u hg).2 ?_,
      .inl ⟨f, hmem, hattr, hne, h.sound.mem_arena hmem, hfree⟩⟩
    rw [hfree] at hgfree
    exact Finset.mem_of_mem_erase hgfree
  · refine ⟨h.of_pmm hsound fun g u hg => ?_, .inr ⟨hattr, hfree⟩⟩
    rw [hfree]
    exact (h.taken g u hg).2

end Owned

end BitchKernel
