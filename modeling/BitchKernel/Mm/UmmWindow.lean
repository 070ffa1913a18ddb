import BitchKernel.Mm.UmmSafety

/-!
# What a window of a directory shows

A window is coherent when the global page table and the directory give the same frame
for each of its bytes. The loop of `vmm_mmap_pde_page` shows every page it comes to, but
a new page reaches the directory only if there is a page for its table, and under
another frame if the frame lies behind the direct pages: the window is coherent exactly
when neither happens at any of its pages.
-/

namespace BitchKernel

open Lib

namespace Kernel

/-- Each page of the window that is new is entered as itself. The window of a single
page looks at the window for its frame, so there it is enough that the page is entered. -/
def EntersPages (k : Kernel) (attr len pde : ℕ) : Prop :=
  if ummPageCount attr len = 1 then k.Recorded (pageBase attr) pde
  else ∀ p, k.VmmSettles (ummPageCount attr len) p →
    EachPage (fun k attr => k.Entering attr pde) (add32 (sub32 p (ummPageCount attr len)) 1)
      (pageBase attr) pde (ummPageCount attr len) 0 k

/-- For each of the `len` bytes from `p` on, the frame and the offset that the global page
table gives are those that the directory `d` gives from `attr` on. -/
def Coherent (k : Kernel) (p attr len d : ℕ) : Prop :=
  ∀ i < len, (p + i) % pageSize = (attr + i) % pageSize ∧
    ∃ f, (p + i) / pageSize < globlPageNum ∧
      k.getGloblPageAttr ((p + i) / pageSize) = f * pageSize ∧ k.Maps d ((attr + i) / pageSize) f

end Kernel

namespace Tabled

variable {b : KernelBoot} {k k' : Kernel} {live : Finset ℕ}

section Loop

variable {d a n first direct head : ℕ}

/-- The loop of `vmm_mmap_pde_page` over a range below `PAGE_OFFSET` and entries of the
window leaves what it mapped before, shows each page, and shows the page the directory
has exactly where it entered it as itself. -/
theorem vmmMmapPdeLoop_coherent (hd : d ∈ live)
    (hslot : ∀ k : Kernel, k.dmmapPageCount = direct → ∀ j < n,
      k.getGloblPageIndex (add32 head j) = first + j)
    (hfirst : direct ≤ first) (hlast : first + n ≤ globlPageNum) (ha : a + n ≤ pageOffset / pageSize)
    (rem i : ℕ) (k kEnd : Kernel) (hn : i + rem = n) (h : Tabled b k live)
    (hdirect : k.dmmapPageCount = direct)
    (hloop : Kernel.vmmMmapPdeLoop head (a * pageSize) (d * pageSize) rem i k = (true, kEnd)) :
    Tabled b kEnd live ∧ (∀ j < i, kEnd.globlMmapPte (first + j) = k.globlMmapPte (first + j)) ∧
      (∀ g, ∀ a' < a + i, Names kEnd.page live g (.user d a') ↔ Names k.page live g (.user d a')) ∧
      (Kernel.EachPage (fun k attr => k.Entering attr (d * pageSize)) head (a * pageSize)
          (d * pageSize) rem i k ↔
        ∀ j, i ≤ j → j < n → ∃ f, kEnd.getGloblPageAttr (first + j) = f * pageSize ∧
          Names kEnd.page live f (.user d (a + j))) := by
  induction rem generalizing i k with
  | zero =>
      obtain rfl := (Prod.mk.inj hloop).2
      refine ⟨h, fun _ _ => rfl, fun _ _ _ => Iff.rfl, fun _ j hij hj => by omega, fun _ => trivial⟩
  | succ rem ih =>
      obtain ⟨haddr, hlow, hindex⟩ := pageAddress (a := a) (i := i) (by omega)
      obtain ⟨phyAttr, k₁, hcall⟩ : ∃ phyAttr k₁,
        k.pdePage ((a + i) * pageSize) (d * pageSize) = (phyAttr, k₁) := ⟨_, _, rfl⟩
      rw [Kernel.vmmMmapPdeLoop, haddr, hcall] at hloop
      dsimp only at hloop
      by_cases hphy : phyAttr ≠ 0
      · rw [if_pos hphy] at hloop
        obtain ⟨h₁, hd₁, hpte₁, hother⟩ := h.pdePage_kept hd hlow hcall
        obtain ⟨f, hf, rfl, hent⟩ := h.pdePage_outcome hd hlow hcall hphy
        rw [hindex] at hent hother
        have hindex₁ : k₁.getGloblPageIndex (add32 head i) = first + i :=
          hslot k₁ (hd₁.trans hdirect) i (by omega)
        have heach : Kernel.EachPage (fun k attr => k.Entering attr (d * pageSize)) head
              (a * pageSize) (d * pageSize) (rem + 1) i k ↔
            k.Entering ((a + i) * pageSize) (d * pageSize) ∧
              Kernel.EachPage (fun k attr => k.Entering attr (d * pageSize)) head (a * pageSize)
                (d * pageSize) rem (i + 1) (k₁.globlPageMmap f (first + i)) := by
          rw [Kernel.EachPage, haddr, hcall]
          constructor
          · rintro ⟨hpage, hrest⟩
            have hnext := hrest _ _ rfl hphy
            rw [Nat.mul_div_cancel _ (by decide), hindex₁] at hnext
            exact ⟨hpage, hnext⟩
          · rintro ⟨hpage, hnext⟩
            refine ⟨hpage, fun phyAttr k₁' heq _ => ?_⟩
            obtain ⟨rfl, rfl⟩ := Prod.mk.inj heq
            rw [Nat.mul_div_cancel _ (by decide), hindex₁]
            exact hnext
        have h₂ := h₁.of_globlPageMmap f (g := first + i) (by omega)
        rw [Nat.mul_div_cancel _ (by decide), hindex₁] at hloop
        obtain ⟨pte, hmmap, hframe, hset⟩ := k₁.globlPageMmap_eq f (first + i)
        rw [hmmap] at hloop h₂ heach
        obtain ⟨hEnd, hkept, hnames, hrest⟩ := ih (i + 1) { k₁ with globlMmapPte := pte } (by omega) h₂
          (hd₁.trans hdirect) hloop
        dsimp only at hkept hnames
        -- the page shown here and the entry made here are left alone by the rest
        have hshown : kEnd.getGloblPageAttr (first + i) = f * pageSize := by
          unfold Kernel.getGloblPageAttr
          rw [hkept i (by omega), hset (by omega), getPageAttr_setPage, pageBase_mul]
        have hhere : k.Entering ((a + i) * pageSize) (d * pageSize) ↔
            Names kEnd.page live f (.user d (a + i)) := by
          rw [hnames f (a + i) (by omega)]
          exact hent
        refine ⟨hEnd, fun j hj => ?_, fun g a' ha' => ?_, ?_⟩
        · rw [hkept j (by omega), hframe _ (by omega), hpte₁]
        · rw [hnames g a' (by omega)]
          refine hother g d a' fun heq => ?_
          injection heq with _ heq
          omega
        · rw [heach, hrest, hhere]
          constructor
          · rintro ⟨hpage, hnext⟩ j hij hj
            by_cases heq : j = i
            · exact heq ▸ ⟨f, hshown, hpage⟩
            · exact hnext j (by omega) hj
          · intro hall
            refine ⟨?_, fun j hij hj => hall j (by omega) hj⟩
            obtain ⟨g, hg, hnames'⟩ := hall i le_rfl (by omega)
            rw [hshown] at hg
            rw [Nat.eq_of_mul_eq_mul_right (by decide) hg]
            exact hnames'
      · rw [if_neg hphy] at hloop
        exact absurd (Prod.mk.inj hloop).1 (by simp)

end Loop

/-- The window of several pages: what it shows, and when it shows what the directory
has. -/
theorem vmmMmapPdePage_shown (h : Tabled b k live) {d a count fuel p : ℕ} (hd : d ∈ live)
    (ha : a + count ≤ pageOffset / pageSize) (hscan : k.SafeScan count)
    (hcall : k.vmmMmapPdePage fuel (a * pageSize) count (d * pageSize) = some (p, k')) (hp : p ≠ 0) :
    ∃ first, p = first * pageSize ∧ first + count ≤ globlPageNum ∧ Tabled b k' live ∧
      ((∀ q, k.VmmSettles count q →
          Kernel.EachPage (fun k attr => k.Entering attr (d * pageSize)) (add32 (sub32 q count) 1)
            (a * pageSize) (d * pageSize) count 0 k) ↔
        ∀ j < count, ∃ f, k'.getGloblPageAttr (first + j) = f * pageSize ∧
          Names k'.page live f (.user d (a + j))) := by
  have hpos : k.vmmPos < k.vmmapPageCount := h.window.vmmPos_lt
  have hpages := k.page_count
  rcases Kernel.vmmMmapPdePage_cases hcall with ⟨-, rfl, -⟩ | ⟨q, kMapped, hfound, hreturn⟩
  · exact absurd rfl hp
  have hsettles := Kernel.vmmSettles_of_scan (by lia) (by lia) hfound
  have hsafe := hscan q hsettles
  have hle := hsafe.1
  have hlen := hsafe.2
  rcases hreturn with ⟨hloop, hr, hk⟩ | ⟨-, rfl, -⟩
  · have hslot : ∀ kMid : Kernel, kMid.dmmapPageCount = k.dmmapPageCount → ∀ j < count,
        kMid.getGloblPageIndex (add32 (add32 (sub32 q count) 1) j) =
          k.dmmapPageCount + (q + 1 - count) + j := by
      intro kMid hdmmap j hj
      unfold Kernel.getGloblPageIndex
      rw [hdmmap, Nat.add_assoc]
      exact hsafe.inside.slot_eq hpos hj
    obtain ⟨hEnd, -, -, heach⟩ := vmmMmapPdeLoop_coherent hd hslot (Nat.le_add_right _ _) (by omega) ha
      count 0 k kMapped (Nat.zero_add count) h rfl hloop
    obtain ⟨done, pmm, page, pte, heq, -⟩ := Kernel.vmmMmapPdeLoop_eq (add32 (sub32 q count) 1)
      (a * pageSize) (d * pageSize) count 0 k
    obtain rfl := (Prod.mk.inj (heq.symm.trans hloop)).2
    have haddress := hsafe.inside.windowAddress_eq hpos
    refine ⟨k.dmmapPageCount + (q + 1 - count), hr.trans haddress, by omega, ?_, ?_⟩
    · rw [hk]
      refine hEnd.of_window (hEnd.window.of_direct rfl ?_ fun _ _ => rfl)
      dsimp only
      split
      · rw [sub32_of_le (by omega) (by lia)]
        omega
      · exact hpos
    · rw [hk]
      constructor
      · intro hall j hj
        exact heach.1 (hall q hsettles) j (Nat.zero_le j) hj
      · intro hall q' hq'
        obtain rfl := hsettles.eq hq'
        exact heach.2 fun j _ hj => hall j hj
  · exact absurd rfl hp

/-- The window of one page shows the page the directory has, unless the page is new and
cannot be entered. -/
theorem ummMmapOne_shown (h : Tabled b k live) {d a fuel p : ℕ} (hd : d ∈ live)
    (ha : a < pageOffset / pageSize)
    (hcall : k.ummMmapOne fuel (a * pageSize) (d * pageSize) = some (p, k')) (hp : p ≠ 0) :
    ∃ first, p = first * pageSize ∧ first < globlPageNum ∧ Tabled b k' live ∧
      (k.Recorded (a * pageSize) (d * pageSize) ↔
        ∃ f, k'.getGloblPageAttr first = f * pageSize ∧ Names k'.page live f (.user d a)) := by
  have hattr : a * pageSize < pageOffset := by lia
  have hindex : a * pageSize / pageSize = a := Nat.mul_div_cancel _ (by decide)
  rcases h.ummMmapOne_outcome hd hcall with ⟨hzero, -⟩ |
    ⟨first, pte, pos, count, f, hr, -, hfirst, hpage, hne, hold | hnew⟩
  · exact absurd hzero hp
  · obtain ⟨hmapped, rfl, hwindow⟩ := hold
    have hne0 : f * pageSize ≠ 0 := Nat.mul_ne_zero hne (by decide)
    have hrec : k.Recorded (a * pageSize) (d * pageSize) :=
      fun hzero => absurd (hmapped.trans hzero) hne0
    refine ⟨first, hr, hfirst, h.of_window hwindow, fun _ => ⟨f, hpage, ?_⟩, fun _ => hrec⟩
    rcases h.getUmmValue_cases hd hattr with ⟨hzero, -⟩ | ⟨g, hg, hnames⟩
    · rw [hzero, getPageAttr_zero] at hmapped
      exact absurd hmapped hne0
    · rw [hg, getPageAttr_userEntry] at hmapped
      rw [hindex, ← Nat.eq_of_mul_eq_mul_right (by decide) hmapped] at hnames
      exact hnames
  obtain ⟨hunmapped, -, hf, hphy, -, hwindow, hentered⟩ := hnew
  rcases hentered with ⟨hlost, pmm, rfl, htabled, -⟩ |
    ⟨-, hrec, pmm, page, tables, rfl, htabled, hentered⟩
  · refine ⟨first, hr, hfirst, htabled, fun hrec => ?_, ?_⟩
    · exact absurd ⟨fun hhigh => absurd hattr (Nat.not_lt_of_le hhigh), hrec⟩ hlost
    · rintro ⟨g, hg, hnames⟩
      obtain rfl : f = g := Nat.eq_of_mul_eq_mul_right (by decide) (hpage.symm.trans hg)
      rcases h.getUmmValue_cases hd hattr with ⟨-, hnone⟩ | ⟨g, hg, hnames'⟩
      · rw [hindex] at hnone
        exact absurd hnames (hnone f)
      · rw [hindex] at hnames'
        rw [hg, getPageAttr_userEntry, Names.eq hnames' hnames] at hunmapped
        exact absurd hunmapped (Nat.mul_ne_zero hne (by decide))
  · rw [hindex] at hentered
    exact ⟨first, hr, hfirst, htabled,
      fun _ => ⟨f, hpage, (hentered.names f _).2 (.inr (.inl ⟨rfl, rfl⟩))⟩, fun _ => hrec⟩

theorem coherent_iff (h : Tabled b k live) {d first attr len : ℕ} (hd : d ∈ live)
    (hin : attr + len ≤ pageOffset) (hlen : 0 < len)
    (hlast : first + Kernel.ummPageCount attr len ≤ globlPageNum) :
    k.Coherent (first * pageSize + attr % pageSize) attr len d ↔
      ∀ j < Kernel.ummPageCount attr len, ∃ f, k.getGloblPageAttr (first + j) = f * pageSize ∧
        Names k.page live f (.user d (attr / pageSize + j)) := by
  rw [ummPageCount_eq hin] at hlast ⊢
  unfold Kernel.Coherent
  constructor
  · intro hall j hj
    obtain ⟨i, hi, hpage, huser⟩ : ∃ i < len,
        (first * pageSize + attr % pageSize + i) / pageSize = first + j ∧
          (attr + i) / pageSize = attr / pageSize + j := by
      by_cases hj0 : j = 0
      · exact ⟨0, hlen, by lia, by lia⟩
      · obtain ⟨i, hi⟩ : ∃ i, attr % pageSize + i = j * pageSize :=
          ⟨j * pageSize - attr % pageSize, by lia⟩
        exact ⟨i, by lia, by lia, by lia⟩
    obtain ⟨-, f, -, hshown, hmaps⟩ := hall i hi
    rw [hpage] at hshown
    rw [huser] at hmaps
    exact ⟨f, hshown, (h.maps_iff hd (by lia)).1 hmaps⟩
  · intro hall i hi
    have hj : (attr % pageSize + i) / pageSize < (attr % pageSize + len + pageSize - 1) / pageSize := by
      lia
    have hpage : (first * pageSize + attr % pageSize + i) / pageSize =
        first + (attr % pageSize + i) / pageSize := by lia
    have huser : (attr + i) / pageSize = attr / pageSize + (attr % pageSize + i) / pageSize := by lia
    obtain ⟨f, hshown, hnames⟩ := hall _ hj
    refine ⟨by lia, f, ?_, ?_, ?_⟩
    · rw [hpage]
      omega
    · rw [hpage]
      exact hshown
    · rw [huser]
      exact (h.maps_iff hd (by lia)).2 hnames

theorem safeScan_one (h : Tabled b k live) : k.SafeScan 1 := Kernel.safeScan_one h.window.vmmPos_lt

theorem windowReturn_eq {first attr : ℕ} (hattr : attr < 2 ^ 32) (hfirst : first < 2 ^ 20) :
    sub32 (add32 (first * pageSize) attr) (pageBase attr) = first * pageSize + attr % pageSize := by
  rw [pageBase, sub32_add32_of_lt (by lia) (by lia) (by lia)]
  lia

/-- What `umm_mmap_kmm` returns for a range below `PAGE_OFFSET`: a window that is
coherent when the pages that are new are entered as themselves. -/
theorem ummMmapKmm_shown (h : Tabled b k live) {d attr len fuel r : ℕ} (hd : d ∈ live)
    (hin : attr + len ≤ pageOffset) (hscan : k.SafeScan (Kernel.ummPageCount attr len))
    (hcall : k.ummMmapKmm fuel attr len (d * pageSize) = some (r, k')) (hr : r ≠ 0) :
    ∃ first, r = first * pageSize + attr % pageSize ∧
      first + Kernel.ummPageCount attr len ≤ globlPageNum ∧ Tabled b k' live ∧
      (0 < len → (k'.Coherent r attr len d ↔ k.EntersPages attr len (d * pageSize))) := by
  have hcount := ummPageCount_eq hin
  rcases Kernel.ummMmapKmm_cases hcall with ⟨-, hzero, -⟩ | ⟨p, -, hreturn, hwindow⟩
  · exact absurd hzero hr
  by_cases hp : p = 0
  · rw [if_pos hp] at hreturn
    exact absurd hreturn hr
  rw [if_neg hp] at hreturn
  have hbase : pageBase attr = attr / pageSize * pageSize := rfl
  have haddress : ∀ first, p = first * pageSize → first ≤ globlPageNum →
      r = first * pageSize + attr % pageSize := by
    intro first hfirst hlast
    rw [hreturn, hfirst]
    exact windowReturn_eq (by lia) (by lia)
  rcases hwindow with ⟨hone, hwindow⟩ | ⟨hmany, hwindow⟩
  · rw [hbase] at hwindow
    have hpage : attr / pageSize < pageOffset / pageSize := by
      rw [hone] at hcount
      lia
    obtain ⟨first, hfirst, hlast, htabled, hshows⟩ := h.ummMmapOne_shown hd hpage hwindow hp
    have hr := haddress first hfirst (by omega)
    refine ⟨first, hr, by omega, htabled, fun hlen => ?_⟩
    rw [hr, htabled.coherent_iff hd hin hlen (by omega), Kernel.EntersPages, if_pos hone, hone, hbase,
      hshows]
    constructor
    · intro hall
      exact hall 0 Nat.one_pos
    · intro hpage j hj
      obtain rfl : j = 0 := by omega
      exact hpage
  · rw [hbase] at hwindow
    obtain ⟨first, hfirst, hlast, htabled, hshows⟩ :=
      h.vmmMmapPdePage_shown hd (by rw [hcount]; lia) hscan hwindow hp
    have hr := haddress first hfirst (by omega)
    refine ⟨first, hr, hlast, htabled, fun hlen => ?_⟩
    rw [hr, htabled.coherent_iff hd hin hlen hlast, Kernel.EntersPages, if_neg hmany, hbase, hshows]

end Tabled

/-- **When a window is coherent.** For every amount of memory, in every state whose
directories and page tables are in order, also beside heap blocks and stacks, and for every
live directory and every range below `PAGE_OFFSET`: the window that `umm_mmap_kmm` returns
shows, byte by byte, what the directory has at the range, if and only if each new page of the
range is entered in the directory as itself. -/
theorem window_coherent_iff {b : KernelBoot} {k k' : Kernel} {live : Finset ℕ}
    (h : Tabled b k live) {d attr len r : ℕ} (hd : d ∈ live) (hin : attr + len ≤ pageOffset)
    (hscan : k.SafeScan (Kernel.ummPageCount attr len))
    (hcall : k.Returns (.ummMmapKmm attr len (d * pageSize)) r k') (hr : r ≠ 0) :
    k'.Coherent r attr len d ↔ len = 0 ∨ k.EntersPages attr len (d * pageSize) := by
  obtain ⟨fuel, hcall⟩ := hcall
  obtain ⟨first, -, -, -, hcoherent⟩ := h.ummMmapKmm_shown hd hin hscan hcall hr
  by_cases hlen : len = 0
  · rw [hlen]
    exact ⟨fun _ => .inl rfl, fun _ i hi => absurd hi (Nat.not_lt_zero i)⟩
  · rw [hcoherent (by omega)]
    exact ⟨.inr, fun h => h.resolve_left hlen⟩

section Example

open Kernel

variable {b : KernelBoot}

/-- On the run that made the first directory, with another page to take, there is a window
for every page that the directory does not map. -/
theorem pdeRun_window_one (hpages : b.memBasePage + 2 < b.memPageCount)
    (hdirect : b.memBasePage < b.dmmapPageCount) {attr len : ℕ} (hattr : attr < 2 ^ 32)
    (hin : add32 attr len ≤ pageOffset) (hone : ummPageCount attr len = 1)
    (hunmapped : (pdeRun b).kernel.getUmmValue (pageBase attr) (b.memBasePage * pageSize) = 0) :
    ∃ r k', r ≠ 0 ∧ (pdeRun b).kernel.Returns (.ummMmapKmm attr len (b.memBasePage * pageSize)) r k' := by
  obtain ⟨hcount, hpos, hsettles, -⟩ := pdeRun_window (b := b) (by omega) hdirect
  obtain ⟨pmm, hspans, heq⟩ := ummAllocPde_vmmInit (b := b) (by omega) hdirect
  have hkernel : (pdeRun b).kernel.pmm = pmm := by
    rw [pdeRun, heq]
  rw [← hkernel] at hspans
  obtain ⟨hphy, -⟩ := hspans.pmmAllocPage (by omega)
  have hle := b.dmmapPageCount_le
  have hpages' := (pdeRun b).kernel.page_count
  generalize (pdeRun b).kernel = k at *
  have hphy0 : k.pmm.pmmAllocPage.1 ≠ 0 := by
    rw [hphy]
    exact Nat.mul_ne_zero (by omega) (by decide)
  have hsafe : k.SafeAt 1 k.vmmPos := ⟨le_rfl, .inl (by lia)⟩
  have haddress := hsafe.inside.windowAddress_eq (by lia)
  obtain ⟨fuel, hscan⟩ := exists_scan_of_vmmSettles (by lia) (by decide)
    ((hsettles 1 k.vmmPos).2 (by rw [hpos]))
  obtain ⟨pte, hmmap, -⟩ := globlPageMmap_eq { k with pmm := k.pmm.pmmAllocPage.2 }
    (k.pmm.pmmAllocPage.1 / pageSize) (k.getGloblPageIndex (add32 (add32 (sub32 k.vmmPos 1) 1) 0))
  have hloop : vmmAllocLoop (add32 (sub32 k.vmmPos 1) 1) 1 0 k =
      (true, { k with pmm := k.pmm.pmmAllocPage.2, globlMmapPte := pte }) := by
    rw [vmmAllocLoop]
    dsimp only
    rw [if_pos hphy0]
    exact (congrArg (vmmAllocLoop _ 0 1) hmmap).trans rfl
  have halloc := vmmAllocPage_of_scan hscan
  rw [hloop] at halloc
  have hwindow : (vmmTake { k with pmm := k.pmm.pmmAllocPage.2, globlMmapPte := pte } k.vmmPos 1).1 =
      (k.dmmapPageCount + k.vmmPos) * pageSize := haddress
  have hpage0 : (k.dmmapPageCount + k.vmmPos) * pageSize ≠ 0 := by lia
  have hreturn : sub32 (add32 ((k.dmmapPageCount + k.vmmPos) * pageSize) attr) (pageBase attr) ≠ 0 := by
    rw [Tabled.windowReturn_eq hattr (by lia)]
    exact Nat.ne_of_gt (Nat.add_pos_left (Nat.pos_of_ne_zero hpage0) _)
  have hcall : ∃ k', k.ummMmapKmm fuel attr len (b.memBasePage * pageSize) =
      some (sub32 (add32 ((k.dmmapPageCount + k.vmmPos) * pageSize) attr) (pageBase attr), k') := by
    unfold ummMmapKmm ummMmapOne
    dsimp only
    rw [if_neg (Nat.not_lt_of_le hin), if_pos hone, hunmapped, getPageAttr_zero, if_pos rfl, halloc,
      Option.map_some, Option.map_some]
    dsimp only
    rw [hwindow, if_pos hpage0]
    dsimp only
    rw [if_neg hpage0]
    exact ⟨_, rfl⟩
  obtain ⟨k', hcall⟩ := hcall
  exact ⟨_, k', hreturn, fuel, hcall⟩

theorem pdeRun_window_page (hpages : b.memBasePage + 2 < b.memPageCount)
    (hdirect : b.memBasePage < b.dmmapPageCount) :
    ∃ r k', r ≠ 0 ∧ (pdeRun b).kernel.Returns (.ummMmapKmm 0x1000 0x1000 (b.memBasePage * pageSize)) r k' :=
  pdeRun_window_one hpages hdirect (by decide) (by with_unfolding_all decide) (by with_unfolding_all decide)
    (pdeRun_getUmmValue (by omega) hdirect (by decide))

/-- A machine with 452 pages, of which three are free after the boot. -/
def tightBoot : KernelBoot where
  memBaseAddr := 0x1c0000
  memLength := 0x1c4000
  highAttr_le := highAttr_le_base
  memBaseAddr_le := by decide
  memLength_lt := by decide
  bitmap_lt := by decide
  globlPtePage := 0x100
  highAttr_le_globlPte := Kernel.tinyBoot.highAttr_le_globlPte
  globlPte_le := Kernel.tinyBoot.globlPte_le

theorem tightBoot_pages : tightBoot.memBasePage = 449 ∧ tightBoot.memPageCount = 452 ∧
    tightBoot.dmmapPageCount = 452 := by decide

/-- The directory took the first of three pages, a window takes the last one, and the middle
one is no longer handed out: there is none for a page table. -/
theorem tightRun_not_recorded :
    ¬ (pdeRun tightBoot).kernel.Recorded (1 * pageSize) (tightBoot.memBasePage * pageSize) := by
  obtain ⟨hbase, hcount, hdmmap⟩ := tightBoot_pages
  have hunmapped := pdeRun_getUmmValue (b := tightBoot) (by rw [hbase, hcount]; decide)
    (by rw [hbase, hdmmap]; decide) (by decide : 1 * pageSize < pageOffset)
  have hempty := pdeRun_unmapped (b := tightBoot) (by rw [hbase, hcount]; decide)
    (by rw [hbase, hdmmap]; decide) (pdeIndex (1 * pageSize)) (by decide)
  obtain ⟨pmm, hspans, heq⟩ := ummAllocPde_vmmInit (b := tightBoot) (by rw [hbase, hcount]; decide)
    (by rw [hbase, hdmmap]; decide)
  have hkernel : (pdeRun tightBoot).kernel.pmm = pmm := by
    rw [pdeRun, heq]
  rw [← hkernel, hbase, hcount] at hspans
  obtain ⟨hphy, hspans'⟩ := hspans.pmmAllocPage (by decide)
  have hnone := hspans'.pmmUpAllocPage_none (by decide)
  have hword : loadWord { (pdeRun tightBoot).kernel with pmm := (pdeRun tightBoot).kernel.pmm.pmmAllocPage.2 }
      (tightBoot.memBasePage * pageSize) (pdeIndex (1 * pageSize)) = 0 :=
    (loadWord_pmm _ _ _ _).trans hempty
  intro hrec
  refine hrec (by rw [hunmapped, getPageAttr_zero]) (by rw [hphy]; decide) ?_
  rw [ummTable_fst, hword, getPageAttr_zero, if_pos rfl, dmmAllocPage_fst, hnone]
  split <;> rfl

/-- A window whose page does not reach the directory. -/
theorem window_incoherent : ∃ s, (ummMachine tightBoot).Reachable s ∧ ∃ d ∈ s.live, ∃ attr len r k',
    attr + len ≤ pageOffset ∧ s.kernel.Returns (.ummMmapKmm attr len (d * pageSize)) r k' ∧ r ≠ 0 ∧
      ¬ k'.Coherent r attr len d := by
  obtain ⟨hbase, hcount, hdmmap⟩ := tightBoot_pages
  have hreach := pdeRun_reachable (b := tightBoot) (by rw [hbase, hcount]; decide)
    (by rw [hbase, hdmmap]; decide)
  have h := (Owned.of_reachable hreach).toTabled
  have hd : tightBoot.memBasePage ∈ (pdeRun tightBoot).live := Finset.mem_singleton_self _
  obtain ⟨r, k', hr, hcall⟩ := pdeRun_window_page (b := tightBoot) (by rw [hbase, hcount]; decide)
    (by rw [hbase, hdmmap]; decide)
  refine ⟨_, hreach.of_restrict, _, hd, _, _, r, k', by decide, hcall, hr, fun hcoherent => ?_⟩
  obtain ⟨fuel, hcall⟩ := hcall
  have hone : ummPageCount 0x1000 0x1000 = 1 := by with_unfolding_all decide
  obtain ⟨first, -, -, -, hiff⟩ := h.ummMmapKmm_shown hd (by decide)
    (by rw [hone]; exact h.safeScan_one) hcall hr
  have hrec := (hiff (by decide)).1 hcoherent
  have hbase' : pageBase 0x1000 = 1 * pageSize := by decide
  rw [EntersPages, if_pos hone, hbase'] at hrec
  exact tightRun_not_recorded hrec

/-- The window of a page that is new and can be entered. -/
theorem window_coherent_iff_new_page : ∃ r k',
    (pdeRun smallBoot).kernel.Returns (.ummMmapKmm 0x1000 0x1000 (449 * pageSize)) r k' ∧
      k'.Coherent r 0x1000 0x1000 449 := by
  obtain ⟨hbase, hcount, hdmmap⟩ := smallBoot_pages
  have hreach := pdeRun_reachable (b := smallBoot) (by rw [hbase, hcount]; decide)
    (by rw [hbase, hdmmap]; decide)
  have h := (Owned.of_reachable hreach).toTabled
  obtain ⟨r, k', hr, hcall⟩ := pdeRun_window_page (b := smallBoot) (by rw [hbase, hcount]; decide)
    (by rw [hbase, hdmmap]; decide)
  obtain ⟨-, htable⟩ := pdeRun_recorded (b := smallBoot) (by rw [hbase, hcount]; decide)
    (by rw [hbase, hdmmap]; decide) (by decide : 1 * pageSize < pageOffset)
  have hone : ummPageCount 0x1000 0x1000 = 1 := by with_unfolding_all decide
  have hbase' : pageBase 0x1000 = 1 * pageSize := by decide
  have hd : smallBoot.memBasePage ∈ (pdeRun smallBoot).live := Finset.mem_singleton_self _
  have hcoherent := window_coherent_iff h hd (by decide : 0x1000 + 0x1000 ≤ pageOffset)
    (by rw [hone]; exact h.safeScan_one) hcall hr
  rw [hbase] at hcall hcoherent htable
  refine ⟨r, k', hcall, hcoherent.2 (.inr ?_)⟩
  rw [EntersPages, if_pos hone, hbase']
  exact fun _ _ => htable

end Example

end BitchKernel
