import BitchKernel.Mm.UmmFault
import BitchKernel.Mm.UmmTeardown

/-!
# The page tables as a map

`get_umm_value` and `set_umm_value` on a well-formed directory behave like reading and writing a
map from pages to words. A page table that is missing is made and cleared first; no other table,
and not the directory, shares its page.
-/

namespace BitchKernel

open Lib

namespace Kernel

/-- An address of the user, or one for which the directory names no page table or a part of the
global page table. -/
def Leads (k : Kernel) (d attr : ℕ) : Prop :=
  attr < pageOffset ∨ k.page d (pdeIndex attr) = 0 ∨ k.IsGlobl (k.tableAt d (pdeIndex attr))

variable {k : Kernel} {d attr value : ℕ}

theorem getUmmValue_of_words (hdir : ¬ k.IsGlobl d) (pmm : Pmm) {page : ℕ → ℕ → ℕ}
    (hentry : page d (pdeIndex attr) = k.page d (pdeIndex attr))
    (htable : k.page d (pdeIndex attr) ≠ 0 → ¬ k.IsGlobl (k.tableAt d (pdeIndex attr)) →
      page (k.tableAt d (pdeIndex attr)) (pteIndex attr) =
        k.page (k.tableAt d (pdeIndex attr)) (pteIndex attr)) :
    getUmmValue { k with pmm := pmm, page := page } attr (d * pageSize) =
      k.getUmmValue attr (d * pageSize) := by
  have hword : k.loadWord (d * pageSize) (pdeIndex attr) = k.page d (pdeIndex attr) :=
    loadWord_of_page hdir k.pmm k.page _
  unfold getUmmValue
  dsimp only
  rw [loadWord_of_page hdir, hword, hentry]
  by_cases hzero : k.page d (pdeIndex attr) = 0
  · rw [if_pos hzero, if_pos hzero]
  · rw [if_neg hzero, if_neg hzero, ← tableAt_mul]
    by_cases hglobl : k.IsGlobl (k.tableAt d (pdeIndex attr))
    · unfold loadWord
      dsimp only
      rw [Nat.mul_div_cancel _ (by decide)]
      exact (if_pos hglobl).trans (if_pos hglobl).symm
    · rw [loadWord_of_page hglobl, htable hzero hglobl]
      exact (loadWord_of_page hglobl k.pmm k.page _).symm

theorem DirWellFormed.getUmmValue_eq (h : k.DirWellFormed d) (hattr : attr < pageOffset)
    (hentry : k.page d (pdeIndex attr) ≠ 0) :
    k.getUmmValue attr (d * pageSize) = k.page (k.tableAt d (pdeIndex attr)) (pteIndex attr) := by
  have hkept := (h.table _ (Tabled.pdeIndex_lt hattr) hentry).1
  unfold getUmmValue
  dsimp only
  rw [h.dir.loadWord, if_neg hentry, ← tableAt_mul, hkept.loadWord]

theorem index_of_page {attr' : ℕ} (h : attr' / pageSize = attr / pageSize) :
    pdeIndex attr' = pdeIndex attr ∧ pteIndex attr' = pteIndex attr := by
  obtain ⟨hpde, hpte⟩ := Tabled.index_eq attr
  obtain ⟨hpde', hpte'⟩ := Tabled.index_eq attr'
  rw [hpde, hpte, hpde', hpte', h]
  exact ⟨rfl, rfl⟩

/-- What `set_umm_value` has to do to the map of a directory. -/
structure MapSet (k k' : Kernel) (d attr value : ℕ) : Prop where
  here : ∀ attr', attr' / pageSize = attr / pageSize → k'.getUmmValue attr' (d * pageSize) = value
  others : ∀ attr', attr' / pageSize ≠ attr / pageSize → k.Leads d attr' →
    k'.getUmmValue attr' (d * pageSize) = k.getUmmValue attr' (d * pageSize)
  wellFormed : k'.DirWellFormed d

theorem DirWellFormed.mapSet_of_table (h : k.DirWellFormed d) (hattr : attr < pageOffset)
    (hentry : k.page d (pdeIndex attr) ≠ 0) (value : ℕ) {page : ℕ → ℕ → ℕ}
    (hpage : page = Function.update k.page (k.tableAt d (pdeIndex attr))
      (Function.update (k.page (k.tableAt d (pdeIndex attr))) (pteIndex attr) value)) :
    k.MapSet { k with page := page } d attr value := by
  have hm := Tabled.pdeIndex_lt hattr
  obtain ⟨hkept, hne⟩ := h.table _ hm hentry
  -- the directory is not the page table
  have hdir : page d = k.page d := by
    rw [hpage]
    exact Function.update_of_ne hne.symm _ _
  have hword : ∀ n, page (k.tableAt d (pdeIndex attr)) n =
      Function.update (k.page (k.tableAt d (pdeIndex attr))) (pteIndex attr) value n := by
    intro n
    rw [hpage, Function.update_self]
  have hat : ∀ m, tableAt { k with page := page } d m = k.tableAt d m := by
    intro m
    unfold tableAt
    dsimp only
    rw [hdir]
  have hwell : DirWellFormed { k with page := page } d := by
    refine ⟨h.dir, fun m hm hentry => ?_, fun m hm m' hm' hentry hentry' heq => ?_⟩
    · rw [hat]
      exact h.table m hm (congrFun hdir m ▸ hentry)
    · rw [hat, hat] at heq
      exact h.table_inj m hm m' hm' (congrFun hdir m ▸ hentry) (congrFun hdir m' ▸ hentry') heq
  refine ⟨fun attr' hsame => ?_, fun attr' hother hleads => ?_, hwell⟩
  · obtain ⟨hpde, hpte⟩ := index_of_page hsame
    have hentry' : page d (pdeIndex attr') ≠ 0 := by
      rw [hdir, hpde]
      exact hentry
    rw [hwell.getUmmValue_eq (by lia) hentry', hat, hpde, hpte]
    exact (hword _).trans (Function.update_self _ _ _)
  · refine getUmmValue_of_words h.dir.2.2 k.pmm (congrFun hdir _) fun hentry' hglobl => ?_
    have hattr' : attr' < pageOffset := by
      rcases hleads with hlt | hzero | hg
      · exact hlt
      · exact absurd hzero hentry'
      · exact absurd hg hglobl
    by_cases hsame : k.tableAt d (pdeIndex attr') = k.tableAt d (pdeIndex attr)
    · have hpde := h.table_inj _ (Tabled.pdeIndex_lt hattr') _ hm hentry' hentry hsame
      have hpte := PdeWellFormed.pteIndex_ne hother hpde
      rw [hsame, hword, Function.update_of_ne hpte]
    · rw [hpage, Function.update_of_ne hsame]

/-! ## A new page table -/

/-- The page `q`, which was free and is cleared, is the page table of the entry `m`. -/
structure NewTable (k : Kernel) (d m q : ℕ) (pmm : Pmm) (page : ℕ → ℕ → ℕ) : Prop where
  took : k.pmm.Took q pmm
  kept : Kept { k with pmm := pmm, page := page } q
  entry : page d m = userEntry q
  entries : ∀ m', m' ≠ m → page d m' = k.page d m'
  empty : ∀ n, page q n = 0
  others : ∀ x, x ≠ q → x ≠ d → page x = k.page x

theorem Kept.ne_of_took {q : ℕ} {pmm : Pmm} (h : k.Kept d) (htook : k.pmm.Took q pmm) : d ≠ q := by
  rintro rfl
  exact h.2.1 htook.free

theorem Kept.newTable (h : k.Kept d) (m : ℕ) {q : ℕ} {pmm : Pmm} (htook : k.pmm.Took q pmm) (hq0 : q ≠ 0)
    (hglobl : ¬ k.IsGlobl q) {page : ℕ → ℕ → ℕ}
    (hpage : page = Function.update (Function.update k.page q fun _ => 0) d
      (Function.update (Function.update k.page q (fun _ => 0) d) m (userEntry q))) :
    k.NewTable d m q pmm page := by
  have hdq := h.ne_of_took htook
  refine ⟨htook, ⟨hq0, ?_, hglobl⟩, ?_, fun m' hm' => ?_, fun n => ?_, fun x hxq hxd => ?_⟩
  · dsimp only
    rw [htook.freePages]
    exact Finset.notMem_erase q _
  · rw [hpage, Function.update_self, Function.update_self]
  · rw [hpage, Function.update_self, Function.update_of_ne hm', Function.update_of_ne hdq]
  · rw [hpage, Function.update_of_ne hdq.symm, Function.update_self]
  · rw [hpage, Function.update_of_ne hxd, Function.update_of_ne hxq]

namespace NewTable

variable {m q : ℕ} {pmm : Pmm} {page : ℕ → ℕ → ℕ}

theorem tableAt_self (h : k.NewTable d m q pmm page) :
    tableAt { k with pmm := pmm, page := page } d m = q := by
  unfold tableAt
  dsimp only
  rw [h.entry, getPageAttr_userEntry, Nat.mul_div_cancel _ (by decide)]

theorem tableAt_other (h : k.NewTable d m q pmm page) {m' : ℕ} (hm : m' ≠ m) :
    tableAt { k with pmm := pmm, page := page } d m' = k.tableAt d m' := by
  unfold tableAt
  dsimp only
  rw [h.entries m' hm]

theorem tableAt_ne (h : k.NewTable d m q pmm page) (hwell : k.DirWellFormed d) {m' : ℕ}
    (hm : m' < pdeIndex pageOffset) (hentry : k.page d m' ≠ 0) : k.tableAt d m' ≠ q :=
  (hwell.table m' hm hentry).1.ne_of_took h.took

theorem dirWellFormed (h : k.NewTable d m q pmm page) (hwell : k.DirWellFormed d) :
    DirWellFormed { k with pmm := pmm, page := page } d := by
  have hkept : ∀ x, k.Kept x → Kept { k with pmm := pmm, page := page } x := fun x hx =>
    hx.of_took h.took
  refine ⟨hkept d hwell.dir, fun m₁ hm₁ hentry => ?_, fun m₁ hm₁ m₂ hm₂ hentry hentry' heq => ?_⟩
  · by_cases hslot : m₁ = m
    · rw [hslot, h.tableAt_self]
      exact ⟨h.kept, (hwell.dir.ne_of_took h.took).symm⟩
    · obtain ⟨hold, hne⟩ := hwell.table m₁ hm₁ (h.entries m₁ hslot ▸ hentry)
      rw [h.tableAt_other hslot]
      exact ⟨hkept _ hold, hne⟩
  · by_cases hslot : m₁ = m
    · by_cases hslot' : m₂ = m
      · rw [hslot, hslot']
      · rw [hslot, h.tableAt_self, h.tableAt_other hslot'] at heq
        exact absurd heq.symm (h.tableAt_ne hwell hm₂ (h.entries m₂ hslot' ▸ hentry'))
    · by_cases hslot' : m₂ = m
      · rw [hslot', h.tableAt_self, h.tableAt_other hslot] at heq
        exact absurd heq (h.tableAt_ne hwell hm₁ (h.entries m₁ hslot ▸ hentry))
      · rw [h.tableAt_other hslot, h.tableAt_other hslot'] at heq
        exact hwell.table_inj m₁ hm₁ m₂ hm₂ (h.entries m₁ hslot ▸ hentry)
          (h.entries m₂ hslot' ▸ hentry') heq

theorem leads (h : k.NewTable d (pdeIndex attr) q pmm page) (hattr : attr < pageOffset) {attr' : ℕ}
    (hleads : k.Leads d attr') : Leads { k with pmm := pmm, page := page } d attr' := by
  by_cases hslot : pdeIndex attr' = pdeIndex attr
  · refine .inl ?_
    unfold pdeIndex at hslot
    lia
  · unfold Leads
    dsimp only
    rw [h.entries _ hslot, h.tableAt_other hslot]
    exact hleads

/-- No address gives another word: behind the new page table there was none, and now it is zero. -/
theorem getUmmValue_eq (h : k.NewTable d m q pmm page) (hwell : k.DirWellFormed d)
    (hnone : k.page d m = 0) {attr' : ℕ} (hleads : k.Leads d attr') :
    getUmmValue { k with pmm := pmm, page := page } attr' (d * pageSize) =
      k.getUmmValue attr' (d * pageSize) := by
  by_cases hslot : pdeIndex attr' = m
  · have hword : k.loadWord (d * pageSize) (pdeIndex attr') = 0 := by
      rw [hwell.dir.loadWord, hslot, hnone]
    unfold getUmmValue
    dsimp only
    rw [hword, if_pos rfl, loadWord_of_page hwell.dir.2.2, hslot, h.entry, if_neg (userEntry_ne_zero q),
      getPageAttr_userEntry, loadWord_of_page h.kept.2.2, h.empty]
  · refine getUmmValue_of_words hwell.dir.2.2 pmm (h.entries _ hslot) fun hentry hnot => ?_
    have hattr : attr' < pageOffset := by
      rcases hleads with hlt | hzero | hglobl
      · exact hlt
      · exact absurd hzero hentry
      · exact absurd hglobl hnot
    have hm := Tabled.pdeIndex_lt hattr
    rw [h.others _ (h.tableAt_ne hwell hm hentry) (hwell.table _ hm hentry).2]

end NewTable

/-- **The two-level page table is a map.** For every well-formed directory, every user address and
every word: when `set_umm_value` returns 1, `get_umm_value` gives the word for every address of the
page and the previous word for every other address, and the directory stays well formed; when it
returns 0 every address keeps its word. -/
theorem setUmmValue_map (ha : k.AllocState) (h : k.DirWellFormed d) (hattr : attr < pageOffset)
    (value : ℕ) :
    ((k.setUmmValue attr value (d * pageSize)).1 = 1 ∧
      k.MapSet (k.setUmmValue attr value (d * pageSize)).2 d attr value) ∨
    ((k.setUmmValue attr value (d * pageSize)).1 = 0 ∧
      ∀ attr', (k.setUmmValue attr value (d * pageSize)).2.getUmmValue attr' (d * pageSize) =
        k.getUmmValue attr' (d * pageSize)) := by
  unfold Kernel.setUmmValue
  rw [if_neg (Nat.not_le.2 hattr)]
  dsimp only
  rcases h.ummTable_cases ha hattr with ⟨pmm, htable, -⟩ | ⟨hentry, htable⟩ |
    ⟨hnone, q, pmm, htook, htable⟩
  · rw [htable]
    dsimp only
    rw [if_pos rfl]
    exact .inr ⟨rfl, fun _ => rfl⟩
  · have hkept := (h.table _ (Tabled.pdeIndex_lt hattr) hentry).1
    rw [htable]
    dsimp only
    rw [if_neg (Nat.mul_ne_zero hkept.1 (by decide))]
    unfold Kernel.storeWord Kernel.storePage
    rw [Nat.mul_div_cancel _ (by decide)]
    exact .inl ⟨rfl, h.mapSet_of_table hattr hentry value rfl⟩
  · obtain ⟨hq0, hglobl⟩ := ha.free q htook.free
    rw [htable]
    dsimp only
    rw [if_neg (Nat.mul_ne_zero hq0 (by decide))]
    unfold Kernel.storeWord Kernel.storePage
    dsimp only
    rw [Nat.mul_div_cancel _ (by decide)]
    have hnew := h.dir.newTable (pdeIndex attr) htook hq0 hglobl rfl
    generalize Function.update (Function.update k.page q fun _ => 0) d
      (Function.update (Function.update k.page q (fun _ => 0) d) (pdeIndex attr) (userEntry q)) =
        page at hnew
    have hentry : page d (pdeIndex attr) ≠ 0 := by
      rw [hnew.entry]
      exact userEntry_ne_zero q
    have hset := (hnew.dirWellFormed h).mapSet_of_table hattr hentry value rfl
    rw [hnew.tableAt_self] at hset
    refine .inl ⟨rfl, hset.here, fun attr' hne hleads => ?_, hset.wellFormed⟩
    exact (hset.others attr' hne (hnew.leads hattr hleads)).trans
      (hnew.getUmmValue_eq h hnone hleads)

end Kernel

section Example

open Kernel

/-- A word for a page of an empty directory: its page table is made first. -/
theorem setUmmValue_map_new_table :
    ∃ k : Kernel, k.page 449 1 = 0 ∧
      (k.setUmmValue 0x403000 0x1234007 (449 * pageSize)).2.getUmmValue 0x403abc (449 * pageSize) =
        0x1234007 ∧
      (k.setUmmValue 0x403000 0x1234007 (449 * pageSize)).2.getUmmValue 0x404000 (449 * pageSize) =
        0 := by
  obtain ⟨hbase, hcount, hdmmap⟩ := smallBoot_pages
  have htabled := (Owned.of_reachable (pdeRun_reachable (b := smallBoot)
    (by rw [hbase, hcount]; decide) (by rw [hbase, hdmmap]; decide))).toTabled
  have hd : 449 ∈ (pdeRun smallBoot).live := hbase ▸ Finset.mem_singleton_self _
  have hunmapped := pdeRun_unmapped (b := smallBoot) (by rw [hbase, hcount]; decide)
    (by rw [hbase, hdmmap]; decide) 1 (by decide)
  have hold := pdeRun_getUmmValue (b := smallBoot) (by rw [hbase, hcount]; decide)
    (by rw [hbase, hdmmap]; decide) (by decide : 0x404000 < pageOffset)
  obtain ⟨pmm, page, hpde⟩ := ummAllocPde_pdeRun (b := smallBoot) (by rw [hbase, hcount]; decide)
    (by rw [hbase, hdmmap]; decide)
  rw [hbase] at hunmapped hold hpde
  generalize (pdeRun smallBoot).kernel = k at *
  have htable : (k.ummTable 0x403000 (449 * pageSize)).1 ≠ 0 := by
    have hindex : pdeIndex 0x403000 = 1 := by decide
    rw [ummTable_fst, hindex, hunmapped, getPageAttr_zero, if_pos rfl, ← k.ummAllocPde_eq.1, hpde]
    exact (by decide : (449 + 1) * pageSize ≠ 0)
  rcases setUmmValue_map htabled.allocState (htabled.pdeWellFormed.dirWellFormed hd)
    (by decide : 0x403000 < pageOffset) 0x1234007 with ⟨-, hset⟩ | ⟨hnone, -⟩
  · rw [htabled.loadWord_dir hd] at hunmapped
    refine ⟨k, hunmapped, hset.here 0x403abc (by decide), ?_⟩
    exact (hset.others 0x404000 (by decide) (.inl (by decide))).trans hold
  · unfold setUmmValue at hnone
    rw [if_neg (by decide)] at hnone
    dsimp only at hnone
    rw [if_neg htable] at hnone
    cases hnone

end Example

end BitchKernel
