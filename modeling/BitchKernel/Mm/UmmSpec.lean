import BitchKernel.Mm.UmmOwner

/-!
# What the calls on a directory do to who owns a page

One lemma for each of `umm_alloc_pde` and `umm_free`, for a page that a window shows,
and for the window of a single page: which page is taken, which entry names it, and
which pages are given back.
-/

namespace BitchKernel

open Lib

namespace Names

variable {page : ℕ → ℕ → ℕ} {live : Finset ℕ} {d f : ℕ} {u : Use}

/-- A new directory without an entry of the user. -/
theorem insert_live (hd : d ∉ live) (hempty : ∀ m < pdeIndex pageOffset, page d m = 0) :
    Names page (insert d live) f u ↔ Names page live f u ∨ (f = d ∧ u = .dir d) := by
  have hnone : ∀ m t, m < pdeIndex pageOffset → page d m ≠ userEntry t := by
    intro m t hm heq
    rw [hempty m hm] at heq
    exact userEntry_ne_zero t heq.symm
  cases u with
  | dir d' =>
      simp only [names_dir, Finset.mem_insert, Use.dir.injEq]
      constructor
      · rintro ⟨rfl | hd', rfl⟩
        · exact .inr ⟨rfl, rfl⟩
        · exact .inl ⟨hd', rfl⟩
      · rintro (⟨hd', rfl⟩ | ⟨rfl, rfl⟩)
        · exact ⟨.inr hd', rfl⟩
        · exact ⟨.inl rfl, rfl⟩
  | table d' m =>
      simp only [names_table, Finset.mem_insert, reduceCtorEq, and_false, or_false]
      constructor
      · rintro ⟨rfl | hd', hm, hentry⟩
        · exact absurd hentry (hnone m f hm)
        · exact ⟨hd', hm, hentry⟩
      · rintro ⟨hd', hm, hentry⟩
        exact ⟨.inr hd', hm, hentry⟩
  | user d' a =>
      simp only [names_user, names_table, Finset.mem_insert, reduceCtorEq, and_false, or_false]
      constructor
      · rintro ⟨t, ⟨rfl | hd', hm, hentry⟩, hleaf⟩
        · exact absurd hentry (hnone _ t hm)
        · exact ⟨t, ⟨hd', hm, hentry⟩, hleaf⟩
      · rintro ⟨t, ⟨hd', hm, hentry⟩, hleaf⟩
        exact ⟨t, ⟨.inr hd', hm, hentry⟩, hleaf⟩

/-- Without a directory the uses of the others remain. -/
theorem erase_live : Names page (live.erase d) f u ↔ Names page live f u ∧ u.pde ≠ d := by
  cases u with
  | dir d' =>
      simp only [names_dir, Finset.mem_erase, Use.pde]
      exact ⟨fun h => ⟨⟨h.1.2, h.2⟩, h.1.1⟩, fun h => ⟨⟨h.2, h.1.1⟩, h.1.2⟩⟩
  | table d' m =>
      simp only [names_table, Finset.mem_erase, Use.pde]
      exact ⟨fun h => ⟨⟨h.1.2, h.2⟩, h.1.1⟩, fun h => ⟨⟨h.2, h.1.1⟩, h.1.2⟩⟩
  | user d' a =>
      simp only [names_user, names_table, Finset.mem_erase, Use.pde]
      constructor
      · rintro ⟨t, ⟨⟨hne, hd'⟩, hentry⟩, hleaf⟩
        exact ⟨⟨t, ⟨hd', hentry⟩, hleaf⟩, hne⟩
      · rintro ⟨⟨t, ⟨hd', hentry⟩, hleaf⟩, hne⟩
        exact ⟨t, ⟨⟨hne, hd'⟩, hentry⟩, hleaf⟩

end Names

namespace Owned

variable {b : KernelBoot} {k k' : Kernel} {live : Finset ℕ}

/-! ## umm_alloc_pde -/

/-- A directory as `umm_alloc_pde` fills it has no entry of the user. -/
theorem kernelMmapPde_eq (k : Kernel) {m : ℕ} (hm : m < pdeIndex pageOffset) :
    k.kernelMmapPde m = 0 := by
  unfold Kernel.kernelMmapPde
  rw [if_neg (by omega)]

/-- A page in no use becomes a directory without an entry of the user. -/
theorem of_newDir (h : Owned b k live) {d : ℕ} (hempty : ∀ m < pdeIndex pageOffset, k.page d m = 0)
    (hun : ∀ u, ¬ Names k.page live d u) (harena : d ∈ b.arena) (hused : d ∉ k.pmm.freePages)
    (hdirect : d < k.dmmapPageCount) : Owned b k (insert d live) := by
  have hd : d ∉ live := fun hd => hun (.dir d) ⟨hd, rfl⟩
  have hnames := @Names.insert_live k.page live d
  refine ⟨⟨h.globlPtePage, h.sound, h.window, ?_, ?_, ?_, ?_⟩, ?_, ?_⟩
  · intro d' hd' m hm
    rcases Finset.mem_insert.1 hd' with rfl | hd'
    · exact .inl (hempty m hm)
    · exact h.entry d' hd' m hm
  · intro t d' m ht n hn
    rcases (hnames hd hempty).1 ht with hold | ⟨-, huse⟩
    · exact h.leaf t d' m hold n hn
    · exact absurd huse (by simp)
  · intro f u hu hf
    rcases (hnames hd hempty).1 hf with hold | ⟨rfl, -⟩
    · exact h.used f u hu hold
    · exact ⟨harena, hused, hdirect⟩
  · intro f u u' hu hu' hf hf'
    rcases (hnames hd hempty).1 hf with hold | ⟨rfl, rfl⟩
    · rcases (hnames hd hempty).1 hf' with hold' | ⟨rfl, -⟩
      · exact h.alone f u u' hu hu' hold hold'
      · exact absurd hold (hun u)
    · rcases (hnames hd hempty).1 hf' with hold' | ⟨-, rfl⟩
      · exact absurd hold' (hun u')
      · rfl
  · intro f u hf
    rcases (hnames hd hempty).1 hf with hold | ⟨rfl, -⟩
    · exact h.taken f u hold
    · exact ⟨harena, hused⟩
  · intro f u u' hf hf'
    rcases (hnames hd hempty).1 hf with hold | ⟨rfl, rfl⟩
    · rcases (hnames hd hempty).1 hf' with hold' | ⟨rfl, -⟩
      · exact h.single f u u' hold hold'
      · exact absurd hold (hun u)
    · rcases (hnames hd hempty).1 hf' with hold' | ⟨-, rfl⟩
      · exact absurd hold' (hun u')
      · rfl

/-- `umm_alloc_pde` turns a free page into a directory, or finds none. -/
theorem ummAllocPde_cases (h : Owned b k live) :
    (∃ pmm, k.ummAllocPde = (0, { k with pmm := pmm }) ∧ Owned b { k with pmm := pmm } live ∧
      pmm.freePages = k.pmm.freePages) ∨
    ∃ d ∈ k.pmm.freePages, ∃ pmm page, k.ummAllocPde =
        (d * pageSize, { k with pmm := pmm, page := page }) ∧ d ∈ b.arena ∧ d ∉ live ∧
      Owned b { k with pmm := pmm, page := page } (insert d live) ∧
      pmm.freePages = k.pmm.freePages.erase d ∧
      ∀ f u, Names page (insert d live) f u ↔ Names k.page live f u ∨ (f = d ∧ u = .dir d) := by
  unfold Kernel.ummAllocPde
  rcases h.toTabled.dmmAllocPage with ⟨pmm, halloc, hsound, hfree⟩ |
    ⟨d, hdfree, pmm, halloc, hsound, hfree, hdirect⟩
  · rw [halloc]
    refine .inl ⟨pmm, if_pos rfl, h.of_pmm hsound fun f u hf => ?_, hfree⟩
    rw [hfree]
    exact (h.taken f u hf).2
  · have harena := h.sound.mem_arena hdfree
    have hun := h.unnamed_of_free hdfree
    have htaken : Owned b { k with pmm := pmm } live := by
      refine h.of_pmm hsound fun f u hf hmem => (h.taken f u hf).2 ?_
      rw [hfree] at hmem
      exact Finset.mem_of_mem_erase hmem
    have hfilled := htaken.of_store (fun u _ => hun u) k.kernelMmapPde
    have hun' : ∀ u, ¬ Names (Function.update k.page d k.kernelMmapPde) live d u :=
      fun u hnames => hun u ((Names.update (fun u _ => hun u) _ d u).1 hnames)
    have hempty : ∀ m < pdeIndex pageOffset, Function.update k.page d k.kernelMmapPde d m = 0 := by
      intro m hm
      rw [Function.update_self]
      exact kernelMmapPde_eq k hm
    have hused : d ∉ pmm.freePages := by
      rw [hfree]
      exact Finset.notMem_erase d _
    have hd : d ∉ live := fun hd => hun (.dir d) ⟨hd, rfl⟩
    rw [halloc]
    dsimp only
    rw [if_neg (Boot.mul_pageSize_ne_zero harena)]
    unfold Kernel.storePage
    dsimp only
    rw [Nat.mul_div_cancel _ (by decide)]
    refine .inr ⟨d, hdfree, pmm, _, rfl, harena, hd, hfilled.of_newDir hempty hun' harena hused hdirect,
      hfree, fun f u => ?_⟩
    refine (Names.insert_live hd hempty).trans ?_
    rw [Names.update fun u _ => hun u]

/-! ## umm_free -/

/-- The inner loop of `umm_free` gives back the pages the first `n` entries of a page
table name, which are taken when it starts. -/
theorem ummFreeTable_eq (h : Owned b k live) {d m t : ℕ} (ht : Names k.page live t (.table d m)) {n : ℕ}
    (hn : n ≤ pagePteIndex) {pmm : Pmm} (hsound : pmm.Sound b.toBoot)
    (hused : ∀ x, ∀ i < n, Names k.page live x (.user d (m * pagePteIndex + i)) → x ∉ pmm.freePages) :
    ∃ pmm', Kernel.ummFreeTable (t * pageSize) n { k with pmm := pmm } = { k with pmm := pmm' } ∧
      pmm'.Sound b.toBoot ∧ ∀ x, x ∈ pmm'.freePages ↔ x ∈ pmm.freePages ∨
        ∃ i < n, Names k.page live x (.user d (m * pagePteIndex + i)) := by
  induction n with
  | zero => exact ⟨pmm, rfl, hsound, fun x => by simp⟩
  | succ n ih =>
      obtain ⟨pmm', hloop, hsound', hfree⟩ := ih (by omega) fun x i hi => hused x i (by omega)
      have hword : Kernel.loadWord { k with pmm := pmm' } (t * pageSize) n = k.page t n :=
        h.loadWord_table ht n
      have hindex : (m * pagePteIndex + n) / pagePteIndex = m ∧
          (m * pagePteIndex + n) % pagePteIndex = n := by lia
      have hnames : ∀ x, Names k.page live x (.user d (m * pagePteIndex + n)) ↔
          k.page t n = userEntry x := by
        intro x
        rw [names_user, hindex.1, hindex.2]
        constructor
        · rintro ⟨t', ht', hleaf⟩
          rw [Names.eq ht ht', hleaf]
        · exact fun hleaf => ⟨t, ht, hleaf⟩
      rw [Kernel.ummFreeTable, hloop]
      dsimp only
      rw [hword]
      rcases h.leaf t d m ht n hn with hzero | ⟨f, hf⟩
      · rw [hzero, getPageAttr_zero, if_neg (fun hne => hne rfl)]
        refine ⟨pmm', rfl, hsound', fun x => (hfree x).trans (or_congr_right ?_)⟩
        constructor
        · rintro ⟨i, hi, hx⟩
          exact ⟨i, by omega, hx⟩
        · rintro ⟨i, hi, hx⟩
          refine ⟨i, lt_of_le_of_ne (by omega) ?_, hx⟩
          rintro rfl
          rw [hnames, hzero] at hx
          exact userEntry_ne_zero x hx.symm
      · have huse := (hnames f).2 hf
        have harena := (h.taken f _ huse).1
        have hnot : f ∉ pmm'.freePages := by
          rw [hfree]
          rintro (hmem | ⟨i, hi, hx⟩)
          · exact hused f n (Nat.lt_succ_self n) huse hmem
          · have heq := h.single f _ _ huse hx
            injection heq with _ heq
            omega
        obtain ⟨hsound'', hfree'⟩ := hsound'.pmmFreePage harena hnot
        rw [hf, getPageAttr_userEntry, if_pos (Boot.mul_pageSize_ne_zero harena)]
        refine ⟨_, rfl, hsound'', fun x => ?_⟩
        rw [hfree', Finset.mem_insert, hfree]
        constructor
        · rintro (rfl | hmem | ⟨i, hi, hx⟩)
          · exact .inr ⟨n, Nat.lt_succ_self n, huse⟩
          · exact .inl hmem
          · exact .inr ⟨i, by omega, hx⟩
        · rintro (hmem | ⟨i, hi, hx⟩)
          · exact .inr (.inl hmem)
          · by_cases heq : i = n
            · rw [heq, hnames, hf] at hx
              exact .inl (userEntry_inj hx).symm
            · exact .inr (.inr ⟨i, by omega, hx⟩)

/-- The uses of the first `m` entries of the directory `d`. -/
def Below (d m : ℕ) (u : Use) : Prop :=
  (∃ j < m, u = .table d j) ∨ ∃ a < m * pagePteIndex, u = .user d a

/-- The outer loop of `umm_free` gives back the page tables of the first `m` entries of
the directory and the pages these name. -/
theorem ummFreeLoop_eq (h : Owned b k live) {d m : ℕ} (hd : d ∈ live) (hm : m ≤ pdeIndex pageOffset) :
    ∃ pmm, Kernel.ummFreeLoop (d * pageSize) m k = { k with pmm := pmm } ∧ pmm.Sound b.toBoot ∧
      ∀ x, x ∈ pmm.freePages ↔ x ∈ k.pmm.freePages ∨ ∃ u, Below d m u ∧ Names k.page live x u := by
  induction m with
  | zero =>
      refine ⟨k.pmm, rfl, h.sound, fun x => ⟨.inl, ?_⟩⟩
      rintro (hmem | ⟨u, ⟨j, hj, -⟩ | ⟨a, ha, -⟩, -⟩)
      · exact hmem
      · exact absurd hj (Nat.not_lt_zero j)
      · exact absurd ha (by omega)
  | succ m ih =>
      obtain ⟨pmm, hloop, hsound, hfree⟩ := ih (by omega)
      have hword : Kernel.loadWord { k with pmm := pmm } (d * pageSize) m = k.page d m :=
        h.loadWord_dir hd m
      rw [Kernel.ummFreeLoop, hloop, hword]
      rcases h.entry d hd m hm with hnone | ⟨t, ht⟩
      · rw [hnone, getPageAttr_zero, if_neg (fun hne => hne rfl)]
        refine ⟨pmm, rfl, hsound, fun x => (hfree x).trans (or_congr_right ?_)⟩
        constructor
        · rintro ⟨u, ⟨j, hj, hu⟩ | ⟨a, ha, hu⟩, hx⟩
          · exact ⟨u, .inl ⟨j, by omega, hu⟩, hx⟩
          · exact ⟨u, .inr ⟨a, by lia, hu⟩, hx⟩
        · rintro ⟨u, ⟨j, hj, rfl⟩ | ⟨a, ha, rfl⟩, hx⟩
          · refine ⟨_, .inl ⟨j, lt_of_le_of_ne (by omega) ?_, rfl⟩, hx⟩
            rintro rfl
            exact userEntry_ne_zero x (hx.2.2.symm.trans hnone)
          · refine ⟨_, .inr ⟨a, ?_, rfl⟩, hx⟩
            by_contra hout
            have hslot : a / pagePteIndex = m := by lia
            obtain ⟨t, ht, -⟩ := hx
            rw [hslot] at ht
            exact userEntry_ne_zero t (ht.2.2.symm.trans hnone)
      · have htable : Names k.page live t (.table d m) := ⟨hd, hm, ht⟩
        have harena := (h.taken t _ htable).1
        -- what the loop freed before belongs to other entries
        have hfresh : ∀ x u, (∀ v, Below d m v → u ≠ v) → Names k.page live x u → x ∉ pmm.freePages := by
          intro x u hu hx hmem
          rcases (hfree x).1 hmem with hmem | ⟨v, hv, hx'⟩
          · exact (h.taken x u hx).2 hmem
          · exact hu v hv (h.single x u v hx hx')
        have hnotBelow : ∀ i < pagePteIndex, ∀ v, Below d m v → Use.user d (m * pagePteIndex + i) ≠ v := by
          rintro i - v (⟨j, -, rfl⟩ | ⟨a, ha, rfl⟩) heq
          · exact absurd heq (by simp)
          · injection heq with _ heq
            omega
        obtain ⟨pmm', htables, hsound', hfree'⟩ := h.ummFreeTable_eq htable le_rfl hsound
          fun x i hi hx => hfresh x _ (hnotBelow i hi) hx
        have hnot : t ∉ pmm'.freePages := by
          rw [hfree']
          rintro (hmem | ⟨i, -, hx⟩)
          · refine hfresh t _ ?_ htable hmem
            rintro v (⟨j, hj, rfl⟩ | ⟨a, ha, rfl⟩) heq
            · injection heq with _ heq
              omega
            · exact absurd heq (by simp)
          · exact absurd (h.single t _ _ htable hx) (by simp)
        obtain ⟨hsound'', hfree''⟩ := hsound'.pmmFreePage harena hnot
        rw [ht, getPageAttr_userEntry, if_pos (Boot.mul_pageSize_ne_zero harena), htables]
        refine ⟨_, rfl, hsound'', fun x => ?_⟩
        rw [hfree'', Finset.mem_insert, hfree', hfree]
        constructor
        · rintro (rfl | (hmem | ⟨u, ⟨j, hj, hu⟩ | ⟨a, ha, hu⟩, hx⟩) | ⟨i, hi, hx⟩)
          · exact .inr ⟨_, .inl ⟨m, Nat.lt_succ_self m, rfl⟩, htable⟩
          · exact .inl hmem
          · exact .inr ⟨u, .inl ⟨j, by omega, hu⟩, hx⟩
          · exact .inr ⟨u, .inr ⟨a, by lia, hu⟩, hx⟩
          · exact .inr ⟨_, .inr ⟨_, by lia, rfl⟩, hx⟩
        · rintro (hmem | ⟨u, ⟨j, hj, rfl⟩ | ⟨a, ha, rfl⟩, hx⟩)
          · exact .inr (.inl (.inl hmem))
          · by_cases heq : j = m
            · rw [heq] at hx
              exact .inl (Names.eq hx htable)
            · exact .inr (.inl (.inr ⟨_, .inl ⟨j, by omega, rfl⟩, hx⟩))
          · by_cases hlt : a < m * pagePteIndex
            · exact .inr (.inl (.inr ⟨_, .inr ⟨a, hlt, rfl⟩, hx⟩))
            · have ha' : a = m * pagePteIndex + (a - m * pagePteIndex) := by omega
              rw [ha'] at hx
              exact .inr (.inr ⟨a - m * pagePteIndex, by lia, hx⟩)

/-- `umm_free` gives back the directory, its page tables and the pages they name. -/
theorem ummFree_eq (h : Owned b k live) {d : ℕ} (hd : d ∈ live) :
    ∃ pmm, k.ummFree (d * pageSize) = { k with pmm := pmm } ∧
      Owned b { k with pmm := pmm } (live.erase d) ∧
      ∀ x, x ∈ pmm.freePages ↔ x ∈ k.pmm.freePages ∨ ∃ u : Use, u.pde = d ∧ Names k.page live x u := by
  obtain ⟨pmm, hloop, hsound, hfree⟩ := h.ummFreeLoop_eq hd le_rfl
  have hdir : Names k.page live d (.dir d) := ⟨hd, rfl⟩
  obtain ⟨harena, hused⟩ := h.taken d _ hdir
  have hnot : d ∉ pmm.freePages := by
    rw [hfree]
    rintro (hmem | ⟨u, ⟨j, -, rfl⟩ | ⟨a, -, rfl⟩, hx⟩)
    · exact hused hmem
    · exact absurd (h.single d _ _ hdir hx) (by simp)
    · exact absurd (h.single d _ _ hdir hx) (by simp)
  obtain ⟨hsound', hfree'⟩ := hsound.pmmFreePage harena hnot
  have hback : ∀ x, x ∈ (pmm.pmmFreePage (d * pageSize) 1).freePages ↔
      x ∈ k.pmm.freePages ∨ ∃ u : Use, u.pde = d ∧ Names k.page live x u := by
    intro x
    rw [hfree', Finset.mem_insert, hfree]
    constructor
    · rintro (rfl | hmem | ⟨u, ⟨j, -, rfl⟩ | ⟨a, -, rfl⟩, hx⟩)
      · exact .inr ⟨_, rfl, hdir⟩
      · exact .inl hmem
      · exact .inr ⟨_, rfl, hx⟩
      · exact .inr ⟨_, rfl, hx⟩
    · rintro (hmem | ⟨u, rfl, hx⟩)
      · exact .inr (.inl hmem)
      · cases u with
        | dir d => exact .inl hx.2
        | table d m => exact .inr (.inr ⟨_, .inl ⟨m, hx.2.1, rfl⟩, hx⟩)
        | user d a =>
            obtain ⟨t, ⟨hd', hm, ht⟩, hleaf⟩ := hx
            exact .inr (.inr ⟨_, .inr ⟨a, by lia, rfl⟩, t, ⟨hd', hm, ht⟩, hleaf⟩)
  refine ⟨_, ?_, ?_, hback⟩
  · unfold Kernel.ummFree
    rw [hloop]
    rfl
  · have hkept : ∀ f u, Names k.page (live.erase d) f u →
        f ∈ b.arena ∧ f ∉ (pmm.pmmFreePage (d * pageSize) 1).freePages := by
      intro f u hf
      obtain ⟨hold, hne⟩ := Names.erase_live.1 hf
      refine ⟨(h.taken f u hold).1, fun hmem => ?_⟩
      rcases (hback f).1 hmem with hmem | ⟨v, hv, hx⟩
      · exact (h.taken f u hold).2 hmem
      · exact hne (h.single f u v hold hx ▸ hv)
    have hold : ∀ {f u}, Names k.page (live.erase d) f u → Names k.page live f u :=
      fun hf => (Names.erase_live.1 hf).1
    refine ⟨⟨h.globlPtePage, hsound', h.window.of_frame rfl h.window.vmmPos_lt fun _ _ => rfl, ?_,
      ?_, ?_, ?_⟩, hkept, fun f u u' hf hf' => h.single f u u' (hold hf) (hold hf')⟩
    · exact fun d' hd' => h.entry d' (Finset.mem_of_mem_erase hd')
    · exact fun t d' m ht => h.leaf t d' m (hold ht)
    · intro f u hu hf
      exact ⟨(hkept f u hf).1, (hkept f u hf).2, (h.used f u hu (hold hf)).2.2⟩
    · exact fun f u u' hu hu' hf hf' => h.alone f u u' hu hu' (hold hf) (hold hf')

end Owned

/-! ## Windows -/

namespace VmmInv

variable {k : Kernel} {held : List (ℕ × ℕ)}

theorem drop (h : VmmInv ⟨k, held⟩) : VmmInv ⟨k, []⟩ :=
  ⟨⟨h.vmmPos_lt, by simp, .nil, h.direct⟩, h.dmmap_pos, by simp, by simp⟩

theorem of_direct {k' : Kernel} (h : VmmInv ⟨k, []⟩) (hdmmap : k'.dmmapPageCount = k.dmmapPageCount)
    (hpos : k'.vmmPos < k'.vmmapPageCount)
    (hframe : ∀ x < k.dmmapPageCount, k'.globlMmapPte x = k.globlMmapPte x) : VmmInv ⟨k', []⟩ := by
  refine ⟨⟨hpos, by simp, .nil, fun i hi => ?_⟩, hdmmap ▸ h.dmmap_pos, by simp, by simp⟩
  rw [hdmmap] at hi
  exact (congrArg getPageAttr (hframe i hi)).trans (h.direct i hi)

theorem of_globlPageMmap (h : VmmInv ⟨k, []⟩) (f : ℕ) {g : ℕ} (hg : k.dmmapPageCount ≤ g) :
    VmmInv ⟨k.globlPageMmap f g, []⟩ := by
  obtain ⟨pte, hmmap, hframe, -⟩ := k.globlPageMmap_eq f g
  rw [hmmap]
  exact h.of_direct rfl h.vmmPos_lt fun x hx => hframe x (by omega)

end VmmInv

namespace Tabled

variable {b : KernelBoot} {k k' : Kernel} {live : Finset ℕ}

/-- `vmm_alloc_page` of one page shows a free page in the window, or has no effect on
the window. -/
theorem vmmAllocOne_cases (h : Tabled b k live) {fuel r : ℕ}
    (hcall : k.vmmAllocPage fuel 1 = some (r, k')) :
    (r = 0 ∧ ∃ pmm, k' = { k with pmm := pmm } ∧ pmm.Sound b.toBoot ∧
      pmm.freePages = k.pmm.freePages) ∨
    ∃ f ∈ k.pmm.freePages, f ≠ 0 ∧ k.pmm.pmmAllocPage.1 = f * pageSize ∧
      k.pmm.pmmAllocPage.2.freePages = k.pmm.freePages.erase f ∧ ∃ q pte pos count,
      r = (k.dmmapPageCount + q) * pageSize ∧ q < k.vmmapPageCount ∧
      k' = { k with
        pmm := k.pmm.pmmAllocPage.2, globlMmapPte := pte, vmmPos := pos, vmmFreePageCount := count } ∧
      VmmInv ⟨k', []⟩ ∧ pte (k.dmmapPageCount + q) = setPage (f * pageSize) pageKernel := by
  have hpos : k.vmmPos < k.vmmapPageCount := h.window.vmmPos_lt
  have hpages := k.page_count
  have hsafescan := Kernel.safeScan_one hpos
  have hwindow := (h.window.of_vmmAllocPage le_rfl (by decide) hsafescan hcall).drop
  rcases Kernel.vmmAllocPage_cases hcall with ⟨-, rfl, rfl⟩ | ⟨p, kMapped, hfound, hreturn⟩
  · exact .inl ⟨rfl, _, rfl, h.sound, rfl⟩
  have hsafe := hsafescan p (Kernel.vmmSettles_of_scan (by lia) (by decide) hfound)
  have hslot := hsafe.inside.slot_eq hpos (Nat.one_pos)
  have hle := hsafe.1
  obtain ⟨hsound, htake⟩ := h.sound.pmmAllocPage
  rcases htake with ⟨f, hf, hattr, hne, hfree⟩ | ⟨-, hattr, hfree⟩
  · have harena := h.sound.mem_arena (Pmm.mem_reach.1 hf).1
    obtain ⟨pte, hmmap, -, hset⟩ := Kernel.globlPageMmap_eq { k with pmm := k.pmm.pmmAllocPage.2 }
      (k.pmm.pmmAllocPage.1 / pageSize) (k.getGloblPageIndex (add32 (add32 (sub32 p 1) 1) 0))
    have hloop : Kernel.vmmAllocLoop (add32 (sub32 p 1) 1) 1 0 k =
        (true, { k with pmm := k.pmm.pmmAllocPage.2, globlMmapPte := pte }) := by
      rw [Kernel.vmmAllocLoop]
      dsimp only
      rw [if_pos (by rw [hattr]; exact Nat.mul_ne_zero hne (by decide))]
      exact (congrArg (Kernel.vmmAllocLoop _ 0 1) hmmap).trans rfl
    rw [hattr, Nat.mul_div_cancel _ (by decide), hslot] at hset
    rcases hreturn with ⟨heq, hr, hk⟩ | ⟨heq, -, -⟩
    · obtain rfl := (Prod.mk.inj (hloop.symm.trans heq)).2
      refine .inr ⟨f, (Pmm.mem_reach.1 hf).1, hne, hattr, hfree, p, pte, _, _, ?_, ?_, hk, hwindow, ?_⟩
      · rw [hr]
        exact hsafe.inside.windowAddress_eq hpos
      · omega
      · exact hset (by omega)
    · exact absurd (hloop.symm.trans heq) (by simp)
  · have hloop : Kernel.vmmAllocLoop (add32 (sub32 p 1) 1) 1 0 k =
        (false, { k with pmm := k.pmm.pmmAllocPage.2 }) := by
      rw [Kernel.vmmAllocLoop]
      dsimp only
      rw [if_neg (fun hne => hne hattr)]
      rfl
    rcases hreturn with ⟨heq, -, -⟩ | ⟨heq, hr, hk⟩
    · exact absurd (hloop.symm.trans heq) (by simp)
    · obtain rfl := (Prod.mk.inj (hloop.symm.trans heq)).2
      exact .inl ⟨hr, _, hk, hsound, hfree⟩

theorem of_globlPageMmap (h : Tabled b k live) (f : ℕ) {g : ℕ} (hg : k.dmmapPageCount ≤ g) :
    Tabled b (k.globlPageMmap f g) live := by
  have hwindow := h.window.of_globlPageMmap f hg
  obtain ⟨pte, hmmap, -⟩ := k.globlPageMmap_eq f g
  rw [hmmap] at hwindow ⊢
  exact h.of_window hwindow

theorem setPage_user (attr : ℕ) : setPage attr pageUser = userEntry (attr / pageSize) := by
  unfold userEntry setPage
  rw [Nat.mul_div_cancel _ (by decide)]

end Tabled

namespace Kernel

theorem getGloblPhyAttr_page {k : Kernel} {x f : ℕ} (h : k.getGloblPageAttr x = f * pageSize)
    (hf : f * pageSize < 2 ^ 32) : k.getGloblPhyAttr (x * pageSize) = f * pageSize := by
  have hsum : add32 (f * pageSize) 0 = f * pageSize + 0 := add32_of_lt (by rw [Nat.add_zero]; exact hf)
  unfold getGloblPhyAttr
  rw [Nat.mul_div_cancel _ (by decide), Nat.mul_mod_left, h, hsum, Nat.add_zero]

theorem dmmAllocPage_fst (k : Kernel) (count : ℕ) :
    (k.dmmAllocPage count).1 =
      if k.dmmapPageCount < add32 ((k.pmm.pmmUpAllocPage count).1 / pageSize) count then 0
      else (k.pmm.pmmUpAllocPage count).1 := by
  unfold dmmAllocPage
  dsimp only
  split <;> rfl

theorem ummAllocPde_eq (k : Kernel) : k.ummAllocPde.1 = (k.dmmAllocPage 1).1 ∧
    k.ummAllocPde.2.pmm = (k.dmmAllocPage 1).2.pmm := by
  unfold ummAllocPde
  dsimp only
  by_cases hpde : (k.dmmAllocPage 1).1 = 0
  · rw [if_pos hpde]
    exact ⟨hpde.symm, rfl⟩
  · rw [if_neg hpde]
    exact ⟨rfl, rfl⟩

/-- The page table for an address, as `set_umm_value` finds or makes it. -/
theorem ummTable_fst (k : Kernel) (attr pde : ℕ) :
    (k.ummTable attr pde).1 = if getPageAttr (k.loadWord pde (pdeIndex attr)) = 0 then
      (k.dmmAllocPage 1).1 else getPageAttr (k.loadWord pde (pdeIndex attr)) := by
  unfold ummTable
  dsimp only
  by_cases hentry : getPageAttr (k.loadWord pde (pdeIndex attr)) = 0
  · rw [if_pos hentry, if_pos hentry]
    by_cases hpte : (k.dmmAllocPage 1).1 = 0
    · rw [if_pos hpte, hpte]
    · rw [if_neg hpte]
  · rw [if_neg hentry, if_neg hentry]

theorem setUmmValue_fst (k : Kernel) {attr : ℕ} (hattr : attr < pageOffset) (value pde : ℕ) :
    (k.setUmmValue attr value pde).1 = if (k.ummTable attr pde).1 = 0 then 0 else 1 := by
  unfold setUmmValue
  rw [if_neg (Nat.not_le_of_lt hattr)]
  dsimp only
  split <;> rfl

/-- A page that is new at `attr` can be entered there: its page table is there, or a
direct page for it can be had. -/
def Recorded (k : Kernel) (attr pde : ℕ) : Prop :=
  getPageAttr (k.getUmmValue attr pde) = 0 → k.pmm.pmmAllocPage.1 ≠ 0 →
    (ummTable { k with pmm := k.pmm.pmmAllocPage.2 } attr pde).1 ≠ 0

/-- The frame `pmm_alloc_page` hands out for a page that is new at `attr` is shown by
the kernel page of its own index. -/
def Translated (k : Kernel) (attr pde : ℕ) : Prop :=
  getPageAttr (k.getUmmValue attr pde) = 0 → k.pmm.pmmAllocPage.1 ≠ 0 →
    k.getGloblPhyAttr k.pmm.pmmAllocPage.1 = k.pmm.pmmAllocPage.1

/-- A page that is new at `attr` is not lost: there is none to take, or it can be entered. -/
def KeepsPage (k : Kernel) (attr pde : ℕ) : Prop :=
  (pageOffset ≤ attr → getPageAttr (k.getUmmValue attr pde) = 0 → k.pmm.pmmAllocPage.1 = 0) ∧
    k.Recorded attr pde

/-- The page `x` is free or in use by the directory `d`. -/
def InHand (k : Kernel) (live : Finset ℕ) (d x : ℕ) : Prop :=
  x ∈ k.pmm.freePages ∨ ∃ u : Use, u.pde = d ∧ Names k.page live x u

theorem inHand_congr {k k' : Kernel} {live : Finset ℕ} {d : ℕ}
    (hfree : k'.pmm.freePages = k.pmm.freePages) (hpage : k'.page = k.page) (x : ℕ) :
    k'.InHand live d x ↔ k.InHand live d x := by
  unfold InHand
  rw [hfree, hpage]

/-- A new page of a window is entered in the directory, and as itself. -/
def Entering (k : Kernel) (attr pde : ℕ) : Prop := k.Recorded attr pde ∧ k.Translated attr pde

end Kernel

theorem Entered.inHand {k k₁ k' : Kernel} {live tables : Finset ℕ} {d a f : ℕ}
    (h : Entered k₁ k' live f d a tables) (hf : f ∈ k.pmm.freePages) (hpage : k₁.page = k.page)
    (htake : k₁.pmm.freePages = k.pmm.freePages.erase f)
    (hnone : ∀ x, ¬ Names k.page live x (.user d a)) (x : ℕ) :
    k'.InHand live d x ↔ k.InHand live d x := by
  unfold Kernel.InHand
  rw [h.free, htake, Finset.mem_sdiff, Finset.mem_erase]
  constructor
  · rintro (⟨⟨-, hx⟩, -⟩ | ⟨u, hu, hx⟩)
    · exact .inl hx
    · rcases (h.names x u).1 hx with ⟨hold, -⟩ | ⟨rfl, -⟩ | ⟨hmem, -⟩
      · rw [hpage] at hold
        exact .inr ⟨u, hu, hold⟩
      · exact .inl hf
      · have hfree := h.fresh hmem
        rw [htake] at hfree
        exact .inl (Finset.mem_of_mem_erase hfree)
  · rintro (hx | ⟨u, hu, hx⟩)
    · by_cases hxf : x = f
      · exact .inr ⟨.user d a, rfl, (h.names x _).2 (.inr (.inl ⟨hxf, rfl⟩))⟩
      · by_cases htable : x ∈ tables
        · exact .inr ⟨.table d _, rfl, (h.names x _).2 (.inr (.inr ⟨htable, rfl⟩))⟩
        · exact .inl ⟨⟨hxf, hx⟩, htable⟩
    · refine .inr ⟨u, hu, (h.names x u).2 (.inl ⟨hpage ▸ hx, ?_⟩)⟩
      rintro rfl
      exact hnone x hx

namespace Tabled

variable {b : KernelBoot} {k k' : Kernel} {live : Finset ℕ}

theorem pmmAllocPage (h : Tabled b k live) :
    Tabled b { k with pmm := k.pmm.pmmAllocPage.2 } live ∧
    ((∃ f ∈ k.pmm.freePages, k.pmm.pmmAllocPage.1 = f * pageSize ∧ f ≠ 0 ∧
        k.pmm.pmmAllocPage.2.freePages = k.pmm.freePages.erase f) ∨
      (k.pmm.pmmAllocPage.1 = 0 ∧ k.pmm.pmmAllocPage.2.freePages = k.pmm.freePages)) := by
  obtain ⟨hsound, hcases⟩ := h.sound.pmmAllocPage
  have hsub := k.pmm.freePages_pmmAllocPage_subset
  refine ⟨h.of_pmm hsound fun g u hu hg hgfree => (h.used g u hu hg).2.1 (hsub hgfree), ?_⟩
  rcases hcases with ⟨f, hf, hattr, hne, hfree⟩ | ⟨-, hattr, hfree⟩
  · exact .inl ⟨f, (Pmm.mem_reach.1 hf).1, hattr, hne, hfree⟩
  · exact .inr ⟨hattr, hfree⟩

/-- The page a window shows at an address of the user: the one entered there, none, or
a new one that is entered, or is lost when there is no page for its table. -/
theorem pdePage_cases (h : Tabled b k live) {d attr : ℕ} (hd : d ∈ live) (hattr : attr < pageOffset) :
    (∃ f ≠ 0, k.pdePage attr (d * pageSize) = (f * pageSize, k) ∧
      Names k.page live f (.user d (attr / pageSize))) ∨
    (getPageAttr (k.getUmmValue attr (d * pageSize)) = 0 ∧
      ((∃ pmm, k.pdePage attr (d * pageSize) = (0, { k with pmm := pmm }) ∧ pmm.Sound b.toBoot ∧
          pmm.freePages = k.pmm.freePages ∧ k.pmm.pmmAllocPage.1 = 0) ∨
        ∃ f ∈ k.pmm.freePages, f ≠ 0 ∧ k.pmm.pmmAllocPage.1 = f * pageSize ∧
          k.pmm.pmmAllocPage.2.freePages = k.pmm.freePages.erase f ∧
          ((∃ pmm, k.pdePage attr (d * pageSize) = (f * pageSize, { k with pmm := pmm }) ∧
              Tabled b { k with pmm := pmm } live ∧ pmm.freePages = k.pmm.freePages.erase f ∧
              ¬ k.Recorded attr (d * pageSize)) ∨
            ∃ pmm page tables, k.pdePage attr (d * pageSize) =
                (f * pageSize, { k with pmm := pmm, page := page }) ∧
              Tabled b { k with pmm := pmm, page := page } live ∧
              Entered { k with pmm := k.pmm.pmmAllocPage.2 } { k with pmm := pmm, page := page } live
                (k.getGloblPhyAttr (f * pageSize) / pageSize) d (attr / pageSize) tables ∧
              k.Recorded attr (d * pageSize)))) := by
  unfold Kernel.pdePage
  dsimp only
  by_cases hmapped : getPageAttr (k.getUmmValue attr (d * pageSize)) = 0
  · refine .inr ⟨hmapped, ?_⟩
    obtain ⟨htaken, hcases⟩ := h.pmmAllocPage
    rw [if_pos hmapped]
    rcases hcases with ⟨f, hf, hphy, hne, hfree⟩ | ⟨hphy, hfree⟩
    · have hphy0 : k.pmm.pmmAllocPage.1 ≠ 0 := by
        rw [hphy]
        exact Nat.mul_ne_zero hne (by decide)
      refine .inr ⟨f, hf, hne, hphy, hfree, ?_⟩
      have hset := htaken.setUmmValue_cases hd hattr (k.getGloblPhyAttr (f * pageSize) / pageSize)
      have hone := Kernel.setUmmValue_fst { k with pmm := k.pmm.pmmAllocPage.2 } hattr
        (userEntry (k.getGloblPhyAttr (f * pageSize) / pageSize)) (d * pageSize)
      rw [if_pos hphy0, hphy]
      have hglobl : Kernel.getGloblPhyAttr { k with pmm := k.pmm.pmmAllocPage.2 } (f * pageSize) =
          k.getGloblPhyAttr (f * pageSize) := rfl
      rw [hglobl, setPage_user]
      rcases hset with ⟨pmm, hcall, htabled, hfree'⟩ | ⟨pmm, page, tables, hcall, htabled, hentered⟩
      · refine .inl ⟨pmm, by rw [hcall], htabled, by rw [hfree', hfree], fun hrec => ?_⟩
        rw [hcall, if_neg (hrec hmapped hphy0)] at hone
        exact absurd hone (by simp)
      · refine .inr ⟨pmm, page, tables, by rw [hcall], htabled, hentered, fun _ _ hzero => ?_⟩
        rw [hcall, if_pos hzero] at hone
        exact absurd hone (by simp)
    · rw [if_neg (fun hne => hne hphy)]
      exact .inl ⟨_, rfl, htaken.sound, hfree, hphy⟩
  · rw [if_neg hmapped]
    rcases h.getUmmValue_cases hd hattr with ⟨hzero, -⟩ | ⟨f, hf, hnames⟩
    · rw [hzero, getPageAttr_zero] at hmapped
      exact absurd rfl hmapped
    · rw [hf, getPageAttr_userEntry] at hmapped ⊢
      refine .inl ⟨f, ?_, rfl, hnames⟩
      rintro rfl
      exact hmapped (Nat.zero_mul _)

/-- A page of a window leaves the window and the entries for other addresses alone. -/
theorem pdePage_kept (h : Tabled b k live) {d attr phyAttr : ℕ} (hd : d ∈ live)
    (hattr : attr < pageOffset) (hcall : k.pdePage attr (d * pageSize) = (phyAttr, k')) :
    Tabled b k' live ∧ k'.dmmapPageCount = k.dmmapPageCount ∧ k'.globlMmapPte = k.globlMmapPte ∧
      ∀ g d' a, Use.user d' a ≠ .user d (attr / pageSize) →
        (Names k'.page live g (.user d' a) ↔ Names k.page live g (.user d' a)) := by
  rcases h.pdePage_cases hd hattr with ⟨f, -, heq, -⟩ | ⟨-, ⟨pmm, heq, hsound, hfree, -⟩ | hnew⟩
  · obtain rfl := (Prod.mk.inj (heq.symm.trans hcall)).2
    exact ⟨h, rfl, rfl, fun _ _ _ _ => Iff.rfl⟩
  · obtain rfl := (Prod.mk.inj (heq.symm.trans hcall)).2
    refine ⟨h.of_pmm hsound fun f u hu hf => ?_, rfl, rfl, fun _ _ _ _ => Iff.rfl⟩
    rw [hfree]
    exact (h.used f u hu hf).2.1
  obtain ⟨f, -, -, -, -, ⟨pmm, heq, htabled, -⟩ | ⟨pmm, page, tables, heq, htabled, hentered, -⟩⟩ := hnew
  · obtain rfl := (Prod.mk.inj (heq.symm.trans hcall)).2
    exact ⟨htabled, rfl, rfl, fun _ _ _ _ => Iff.rfl⟩
  · obtain rfl := (Prod.mk.inj (heq.symm.trans hcall)).2
    refine ⟨htabled, rfl, rfl, fun g d' a hother => ?_⟩
    rw [hentered.names]
    constructor
    · rintro (⟨hold, -⟩ | ⟨-, huse⟩ | ⟨-, huse⟩)
      · exact hold
      · exact absurd huse hother
      · exact absurd huse (by simp)
    · exact fun hold => .inl ⟨hold, hother⟩

theorem getGloblPhyAttr_dvd (k : Kernel) (f : ℕ) :
    k.getGloblPhyAttr (f * pageSize) / pageSize * pageSize = k.getGloblPhyAttr (f * pageSize) := by
  have hsum := add32_eq (k.getGloblPageAttr f) 0
  unfold Kernel.getGloblPhyAttr
  rw [Nat.mul_div_cancel _ (by decide), Nat.mul_mod_left, hsum]
  unfold Kernel.getGloblPageAttr getPageAttr
  lia

/-- The page a window shows is the one the directory has at the address exactly when it
is entered as itself. -/
theorem pdePage_outcome (h : Tabled b k live) {d attr phyAttr : ℕ} (hd : d ∈ live)
    (hattr : attr < pageOffset) (hcall : k.pdePage attr (d * pageSize) = (phyAttr, k'))
    (hphy : phyAttr ≠ 0) :
    ∃ f ≠ 0, phyAttr = f * pageSize ∧
      (k.Entering attr (d * pageSize) ↔ Names k'.page live f (.user d (attr / pageSize))) := by
  rcases h.pdePage_cases hd hattr with ⟨f, hf, heq, hnames⟩ | ⟨hunmapped, ⟨pmm, heq, -⟩ | hnew⟩
  · obtain ⟨rfl, rfl⟩ := Prod.mk.inj (heq.symm.trans hcall)
    have hmapped : getPageAttr (k.getUmmValue attr (d * pageSize)) ≠ 0 := by
      rcases h.getUmmValue_cases hd hattr with ⟨-, hnone⟩ | ⟨g, hg, hnames'⟩
      · exact absurd hnames (hnone f)
      · rw [hg, getPageAttr_userEntry, Names.eq hnames' hnames]
        exact Nat.mul_ne_zero hf (by decide)
    exact ⟨f, hf, rfl, fun _ => hnames,
      fun _ => ⟨fun hzero => absurd hzero hmapped, fun hzero => absurd hzero hmapped⟩⟩
  · exact absurd (Prod.mk.inj (heq.symm.trans hcall)).1.symm hphy
  obtain ⟨f, hf, hne, hfirst, -, hentered⟩ := hnew
  rcases hentered with ⟨pmm, heq, -, -, hlost⟩ | ⟨pmm, page, tables, heq, -, hentered, hrec⟩
  · obtain ⟨rfl, rfl⟩ := Prod.mk.inj (heq.symm.trans hcall)
    refine ⟨f, hne, rfl, fun hent => absurd hent.1 hlost, fun hnames => ?_⟩
    rcases h.getUmmValue_cases hd hattr with ⟨-, hnone⟩ | ⟨g, hg, hnames'⟩
    · exact absurd hnames (hnone f)
    · rw [hg, getPageAttr_userEntry, Names.eq hnames' hnames] at hunmapped
      exact absurd hunmapped (Nat.mul_ne_zero hne (by decide))
  · obtain ⟨rfl, rfl⟩ := Prod.mk.inj (heq.symm.trans hcall)
    refine ⟨f, hne, rfl, ?_⟩
    rw [hentered.names]
    constructor
    · rintro ⟨-, htrans⟩
      have hself := htrans hunmapped (hfirst ▸ hphy)
      rw [hfirst] at hself
      rw [hself, Nat.mul_div_cancel _ (by decide)]
      exact .inr (.inl ⟨rfl, rfl⟩)
    · rintro (⟨-, hne⟩ | ⟨heq, -⟩ | ⟨-, huse⟩)
      · exact absurd rfl hne
      · refine ⟨hrec, fun _ _ => ?_⟩
        have hself := getGloblPhyAttr_dvd k f
        rw [← heq] at hself
        rw [hfirst]
        exact hself.symm
      · exact absurd huse (by simp)

theorem pageAddress {a i : ℕ} (h : a + i < pageOffset / pageSize) :
    add32 (a * pageSize) (mul32 i pageSize) = (a + i) * pageSize ∧ (a + i) * pageSize < pageOffset ∧
      (a + i) * pageSize / pageSize = a + i := by
  have hmul : mul32 i pageSize = i * pageSize := mul32_of_lt (by lia)
  rw [hmul, add32_of_lt (by lia)]
  refine ⟨by lia, by lia, Nat.mul_div_cancel _ (by decide)⟩

theorem ummTable_window (h : Tabled b k live) {d : ℕ} (hd : d ∈ live) (attr : ℕ) {pte : ℕ → ℕ}
    {pos count : ℕ}
    (hwindow : VmmInv ⟨{ k with globlMmapPte := pte, vmmPos := pos, vmmFreePageCount := count }, []⟩) :
    (Kernel.ummTable { k with globlMmapPte := pte, vmmPos := pos, vmmFreePageCount := count } attr
      (d * pageSize)).1 = (k.ummTable attr (d * pageSize)).1 := by
  rw [Kernel.ummTable_fst, Kernel.ummTable_fst, h.loadWord_dir hd, (h.of_window hwindow).loadWord_dir hd,
    Kernel.dmmAllocPage_fst, Kernel.dmmAllocPage_fst]

theorem vmmMmapPage_shown (h : Tabled b k live) {f : ℕ} (hf : f ≠ 0) :
    (k.vmmMmapPage (f * pageSize) = (0, k)) ∨
    ∃ first pte pos count, k.vmmMmapPage (f * pageSize) = (first * pageSize,
        { k with globlMmapPte := pte, vmmPos := pos, vmmFreePageCount := count }) ∧
      first ≠ 0 ∧ first < globlPageNum ∧
      VmmInv ⟨{ k with globlMmapPte := pte, vmmPos := pos, vmmFreePageCount := count }, []⟩ ∧
      getPageAttr (pte first) = f * pageSize := by
  have hpages := k.page_count
  have hdpos : 0 < k.dmmapPageCount := h.window.dmmap_pos
  have hwindow := (h.window.of_vmmMmapPage (f * pageSize)).drop
  have hfpage : f * pageSize / pageSize = f := Nat.mul_div_cancel _ (by decide)
  unfold Kernel.vmmMmapPage at hwindow ⊢
  rw [hfpage] at hwindow ⊢
  by_cases hdirect : f < k.dmmapPageCount
  · rw [if_pos hdirect]
    exact .inr ⟨f, k.globlMmapPte, k.vmmPos, k.vmmFreePageCount, rfl, hf, by omega, h.window,
      h.window.direct f hdirect⟩
  · rw [if_neg hdirect] at hwindow ⊢
    rcases k.vmmMmapLoop_cases (f * pageSize) k.vmmPos with hnone | ⟨q, pte, -, hq, -, hloop, -, hset⟩
    · exact .inl hnone
    · have hpos : k.vmmPos < k.vmmapPageCount := h.window.vmmPos_lt
      have hslot : k.getGloblPageIndex q = k.dmmapPageCount + q := Kernel.getGloblPageIndex_of_lt (by omega)
      rw [hslot, hfpage] at hset
      rw [hloop] at hwindow ⊢
      refine .inr ⟨k.dmmapPageCount + q, pte, q, _, ?_, by omega, by omega, hwindow, ?_⟩
      · rw [hslot, mul32_of_lt (by lia)]
      · rw [hset (by omega), getPageAttr_setPage, pageBase_mul]

/-- The window of one page: there is none, it shows the page the directory has, or a new
page that is entered, or is lost. -/
theorem ummMmapOne_outcome (h : Tabled b k live) {d attr fuel p : ℕ} (hd : d ∈ live)
    (hcall : k.ummMmapOne fuel attr (d * pageSize) = some (p, k')) :
    (p = 0 ∧ ∃ pmm, k' = { k with pmm := pmm } ∧ pmm.Sound b.toBoot ∧ pmm.freePages = k.pmm.freePages) ∨
    ∃ first pte pos count f, p = first * pageSize ∧ first ≠ 0 ∧ first < globlPageNum ∧
      getPageAttr (pte first) = f * pageSize ∧ f ≠ 0 ∧
      ((f * pageSize = getPageAttr (k.getUmmValue attr (d * pageSize)) ∧
          k' = { k with globlMmapPte := pte, vmmPos := pos, vmmFreePageCount := count } ∧
          VmmInv ⟨k', []⟩) ∨
        (getPageAttr (k.getUmmValue attr (d * pageSize)) = 0 ∧ (∃ p, k.VmmSettles 1 p) ∧
          f ∈ k.pmm.freePages ∧ k.pmm.pmmAllocPage.1 = f * pageSize ∧
          k.pmm.pmmAllocPage.2.freePages = k.pmm.freePages.erase f ∧
          VmmInv ⟨{ k with
            pmm := k.pmm.pmmAllocPage.2, globlMmapPte := pte, vmmPos := pos, vmmFreePageCount := count },
            []⟩ ∧
          ((¬ k.KeepsPage attr (d * pageSize) ∧ ∃ pmm, k' = { k with
              pmm := pmm, globlMmapPte := pte, vmmPos := pos, vmmFreePageCount := count } ∧
              Tabled b k' live ∧ pmm.freePages = k.pmm.freePages.erase f) ∨
            (attr < pageOffset ∧ k.Recorded attr (d * pageSize) ∧ ∃ pmm page tables, k' = { k with
              pmm := pmm, globlMmapPte := pte, vmmPos := pos, vmmFreePageCount := count, page := page } ∧
              Tabled b k' live ∧ Entered { k with
                pmm := k.pmm.pmmAllocPage.2, globlMmapPte := pte, vmmPos := pos, vmmFreePageCount := count }
                k' live f d (attr / pageSize) tables)))) := by
  have hpages := k.page_count
  have hdpos : 0 < k.dmmapPageCount := h.window.dmmap_pos
  have hpos : k.vmmPos < k.vmmapPageCount := h.window.vmmPos_lt
  rcases Kernel.ummMmapOne_cases hcall with ⟨k₁, hunmapped, halloc, hset⟩ | ⟨hmapped, hr, hk⟩
  · rcases h.vmmAllocOne_cases halloc with ⟨rfl, pmm, rfl, hsound, hfree⟩ |
      ⟨f, hf, hne, hphy, hfree, q, pte, pos, count, rfl, hq, rfl, hwindow, hentry⟩
    · rcases hset with ⟨hr, -⟩ | ⟨-, rfl⟩
      · exact absurd rfl hr
      · exact .inl ⟨rfl, pmm, rfl, hsound, hfree⟩
    rcases hset with ⟨hr, rfl⟩ | ⟨hr, -⟩
    · have hsettles : ∃ p, k.VmmSettles 1 p := by
        rcases Kernel.vmmAllocPage_cases halloc with ⟨-, hzero, -⟩ | ⟨p, -, hfound, -⟩
        · exact absurd hzero hr
        · exact ⟨p, Kernel.vmmSettles_of_scan (by lia) (by decide) hfound⟩
      have hphy0 : k.pmm.pmmAllocPage.1 ≠ 0 := by
        rw [hphy]
        exact Nat.mul_ne_zero hne (by decide)
      have hlt := b.memPageCount_lt
      have hmem := (Boot.mem_arena.1 (h.sound.mem_arena hf)).2
      have htaken := h.pmmAllocPage.1
      have hshown := htaken.of_window hwindow
      have hpage : getPageAttr (pte (k.dmmapPageCount + q)) = f * pageSize := by
        rw [hentry, getPageAttr_setPage, pageBase_mul]
      have hself : Kernel.getGloblPhyAttr { k with
          pmm := k.pmm.pmmAllocPage.2, globlMmapPte := pte, vmmPos := pos, vmmFreePageCount := count }
            ((k.dmmapPageCount + q) * pageSize) = f * pageSize :=
        Kernel.getGloblPhyAttr_page hpage (by lia)
      refine .inr ⟨k.dmmapPageCount + q, pte, pos, count, f, rfl, by omega, by omega, hpage, hne,
        .inr ⟨hunmapped, hsettles, hf, hphy, hfree, hwindow, ?_⟩⟩
      rw [hself, setPage_user, Nat.mul_div_cancel _ (by decide)]
      by_cases hattr : attr < pageOffset
      · have hone := Kernel.setUmmValue_fst { k with
          pmm := k.pmm.pmmAllocPage.2, globlMmapPte := pte, vmmPos := pos, vmmFreePageCount := count }
          hattr (userEntry f) (d * pageSize)
        rw [htaken.ummTable_window hd attr hwindow] at hone
        rcases hshown.setUmmValue_cases hd hattr f with ⟨pmm, heq, htabled, hfree'⟩ |
          ⟨pmm, page, tables, heq, htabled, hentered⟩
        · rw [heq] at hone ⊢
          refine .inl ⟨fun hkeep => ?_, pmm, rfl, htabled, hfree'.trans hfree⟩
          rw [if_neg (hkeep.2 hunmapped hphy0)] at hone
          exact absurd hone (by simp)
        · rw [heq] at hone ⊢
          refine .inr ⟨hattr, fun _ _ hzero => ?_, pmm, page, tables, rfl, htabled, hentered⟩
          rw [if_pos hzero] at hone
          exact absurd hone (by simp)
      · unfold Kernel.setUmmValue
        rw [if_pos (Nat.le_of_not_lt hattr)]
        exact .inl ⟨fun hkeep => hphy0 (hkeep.1 (Nat.le_of_not_lt hattr) hunmapped), _, rfl, hshown, hfree⟩
    · exact absurd hr (Nat.mul_ne_zero (by omega) (by decide))
  · obtain ⟨f, hf⟩ : ∃ f, getPageAttr (k.getUmmValue attr (d * pageSize)) = f * pageSize := ⟨_, rfl⟩
    rw [hf] at hmapped hr hk ⊢
    have hf0 : f ≠ 0 := fun hzero => hmapped (by rw [hzero, Nat.zero_mul])
    rcases h.vmmMmapPage_shown hf0 with hnone | ⟨first, pte, pos, count, heq, hne, hfirst, hwindow, hpage⟩
    · rw [hnone] at hr hk
      exact .inl ⟨hr, k.pmm, hk, h.sound, rfl⟩
    · rw [heq] at hr hk
      refine .inr ⟨first, pte, pos, count, f, hr, hne, hfirst, hpage, hf0, .inl ⟨rfl, hk, ?_⟩⟩
      rw [hk]
      exact hwindow

/-- Above the addresses of the user nothing is entered: a new page is lost. -/
theorem pdePage_high (h : Tabled b k live) {attr : ℕ} (hattr : pageOffset ≤ attr) (pde : ℕ) :
    ∃ r pmm, k.pdePage attr pde = (r, { k with pmm := pmm }) ∧ pmm.Sound b.toBoot ∧
      pmm.freePages ⊆ k.pmm.freePages ∧
      (k.KeepsPage attr pde → pmm.freePages = k.pmm.freePages) := by
  unfold Kernel.pdePage Kernel.setUmmValue
  dsimp only
  by_cases hmapped : getPageAttr (k.getUmmValue attr pde) = 0
  · have hsub := k.pmm.freePages_pmmAllocPage_subset
    have hsame : k.KeepsPage attr pde → k.pmm.pmmAllocPage.2.freePages = k.pmm.freePages := by
      rintro ⟨hkeep, -⟩
      rcases h.sound.pmmAllocPage.2 with ⟨f, -, hphy, hne, -⟩ | ⟨-, -, hfree⟩
      · exact absurd (hphy.symm.trans (hkeep hattr hmapped)) (Nat.mul_ne_zero hne (by decide))
      · exact hfree
    rw [if_pos hmapped, if_pos hattr]
    split
    · exact ⟨_, _, rfl, h.sound.pmmAllocPage.1, hsub, hsame⟩
    · exact ⟨_, _, rfl, h.sound.pmmAllocPage.1, hsub, hsame⟩
  · rw [if_neg hmapped]
    exact ⟨_, _, rfl, h.sound, Finset.Subset.refl _, fun _ => rfl⟩

end Tabled

namespace Kernel

/-! ## The pages of a window -/

/-- `C` holds of the state and the address of each page that the loop of
`vmm_mmap_pde_page` comes to. -/
def EachPage (C : Kernel → ℕ → Prop) (head attr pde : ℕ) : (rem i : ℕ) → Kernel → Prop
  | 0, _, _ => True
  | rem + 1, i, k =>
      C k (add32 attr (mul32 i pageSize)) ∧
      ∀ phyAttr k₁, k.pdePage (add32 attr (mul32 i pageSize)) pde = (phyAttr, k₁) → phyAttr ≠ 0 →
        EachPage C head attr pde rem (i + 1)
          (k₁.globlPageMmap (phyAttr / pageSize) (k₁.getGloblPageIndex (add32 head i)))

theorem EachPage.and {C C' : Kernel → ℕ → Prop} {head attr pde rem i : ℕ} {k : Kernel}
    (h : EachPage C head attr pde rem i k) (h' : EachPage C' head attr pde rem i k) :
    EachPage (fun k attr => C k attr ∧ C' k attr) head attr pde rem i k := by
  induction rem generalizing i k with
  | zero => trivial
  | succ rem ih =>
      exact ⟨⟨h.1, h'.1⟩, fun phyAttr k₁ hcall hphy =>
        ih (h.2 phyAttr k₁ hcall hphy) (h'.2 phyAttr k₁ hcall hphy)⟩

/-- The loop keeps what each of its pages keeps, and stops only at a page that cannot
be had. -/
theorem vmmMmapPdeLoop_rule {C : Kernel → ℕ → Prop} {head attr pde n : ℕ} {I : ℕ → Kernel → Prop}
    (hstep : ∀ i < n, ∀ k phyAttr k₁, I i k → C k (add32 attr (mul32 i pageSize)) →
      k.pdePage (add32 attr (mul32 i pageSize)) pde = (phyAttr, k₁) → phyAttr ≠ 0 →
      I (i + 1) (k₁.globlPageMmap (phyAttr / pageSize) (k₁.getGloblPageIndex (add32 head i))))
    (rem i : ℕ) (k : Kernel) (hn : i + rem = n) (hI : I i k)
    (hC : EachPage C head attr pde rem i k) :
    (∃ k', vmmMmapPdeLoop head attr pde rem i k = (true, k') ∧ I n k') ∨
    ∃ j < n, ∃ kLast k₁, I j kLast ∧ C kLast (add32 attr (mul32 j pageSize)) ∧
      kLast.pdePage (add32 attr (mul32 j pageSize)) pde = (0, k₁) ∧
      vmmMmapPdeLoop head attr pde rem i k = (false, vmmMmapPdeUndo head j k₁) := by
  induction rem generalizing i k with
  | zero => exact .inl ⟨k, rfl, hn ▸ hI⟩
  | succ rem ih =>
      obtain ⟨hpage, hrest⟩ := hC
      obtain ⟨phyAttr, k₁, hcall⟩ : ∃ phyAttr k₁,
        k.pdePage (add32 attr (mul32 i pageSize)) pde = (phyAttr, k₁) := ⟨_, _, rfl⟩
      rw [vmmMmapPdeLoop, hcall]
      dsimp only
      by_cases hphy : phyAttr ≠ 0
      · rw [if_pos hphy]
        exact ih (i + 1) _ (by omega) (hstep i (by omega) k phyAttr k₁ hI hpage hcall hphy)
          (hrest phyAttr k₁ hcall hphy)
      · rw [if_neg hphy]
        rw [not_not.1 hphy] at hcall
        exact .inr ⟨i, by omega, k, k₁, hI, hpage, hcall, rfl⟩

theorem loadWord_pmm (k : Kernel) (pmm : Pmm) (table i : ℕ) :
    loadWord { k with pmm := pmm } table i = k.loadWord table i := rfl

theorem getGloblPageIndex_eq (k : Kernel) (index : ℕ) :
    k.getGloblPageIndex index = add32 k.dmmapPageCount index := rfl

theorem ummMmapKmm_of_scan {k : Kernel} {fuel attr len p : ℕ} (pde : ℕ) (hin : add32 attr len ≤ pageOffset)
    (hmany : ummPageCount attr len ≠ 1)
    (hscan : k.vmmScan fuel (ummPageCount attr len) = some (some p)) :
    ∃ r, k.ummMmapKmm fuel attr len pde = some (r,
      match vmmMmapPdeLoop (add32 (sub32 p (ummPageCount attr len)) 1) (pageBase attr) pde
        (ummPageCount attr len) 0 k with
      | (true, k) => (k.vmmTake p (ummPageCount attr len)).2
      | (false, k) => k) := by
  unfold ummMmapKmm vmmMmapPdePage
  dsimp only
  rw [if_neg (Nat.not_lt_of_le hin), if_neg hmany, hscan, Option.map_some, Option.map_some]
  obtain ⟨done, kEnd, hloop⟩ : ∃ done kEnd, vmmMmapPdeLoop (add32 (sub32 p (ummPageCount attr len)) 1)
    (pageBase attr) pde (ummPageCount attr len) 0 k = (done, kEnd) := ⟨_, _, rfl⟩
  simp only [hloop]
  cases done with
  | false => exact ⟨0, rfl⟩
  | true =>
      dsimp only
      by_cases hzero : (kEnd.vmmTake p (ummPageCount attr len)).1 = 0
      · exact ⟨0, by rw [if_pos hzero]⟩
      · exact ⟨_, by rw [if_neg hzero]⟩

end Kernel

end BitchKernel
