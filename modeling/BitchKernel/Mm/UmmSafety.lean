import BitchKernel.Mm.PmmFresh
import BitchKernel.Mm.UmmSpec

/-!
# Isolation of address spaces over whole runs

A run starts at `vmm_init` and makes directories, handles page faults, opens and closes
windows and gives directories back, in any order and for any number of directories.
`UmmRun` carries, beside the state, the pages of the live directories. A window of
several pages enters each new frame under the frame that the kernel page of the same
index shows, which is another one, or none, for a frame behind the direct pages. In the
runs where this does not happen, the pages of the users are apart from each other and
from everything else.
-/

namespace BitchKernel

open Lib

namespace Kernel

/-- A call of `umm_mmap_kmm` that fails its check, opens a window for one page, or opens
one whose run lies inside the kernel window and whose new frames are entered as
themselves. -/
def SafeWindow (k : Kernel) (attr len pde : ℕ) : Prop :=
  pageOffset < add32 attr len ∨ ummPageCount attr len = 1 ∨
    (k.SafeScan (ummPageCount attr len) ∧ ∀ p, k.VmmSettles (ummPageCount attr len) p →
      EachPage (fun k attr => attr < pageOffset → k.Translated attr pde)
        (add32 (sub32 p (ummPageCount attr len)) 1) (pageBase attr) pde (ummPageCount attr len) 0 k)

/-- A call of `umm_ummap_kmm` that does not name the empty range at the start of the
kernel window. -/
def SafeUmmap (k : Kernel) (attr len : ℕ) : Prop :=
  ¬ (pageBase attr / pageSize = k.dmmapPageCount ∧ ummPageCount attr len = 0)

/-- The page tables of `d` map the page index `a` to the frame `f`. -/
def Maps (k : Kernel) (d a f : ℕ) : Prop :=
  let entry := k.loadWord (d * pageSize) (a / pagePteIndex)
  entry % 2 = 1 ∧
    k.loadWord (getPageAttr entry) (a % pagePteIndex) % 2 = 1 ∧
    f = k.loadWord (getPageAttr entry) (a % pagePteIndex) / pageSize

end Kernel

namespace Tabled

variable {b : KernelBoot} {k : Kernel} {live : Finset ℕ}

theorem userEntry_odd (f : ℕ) : userEntry f % 2 = 1 ∧ userEntry f / pageSize = f := by
  unfold userEntry setPage
  lia

theorem maps_iff (h : Tabled b k live) {d a f : ℕ} (hd : d ∈ live)
    (ha : a < pageOffset / pageSize) : k.Maps d a f ↔ Names k.page live f (.user d a) := by
  have hm : a / pagePteIndex < pdeIndex pageOffset := by
    unfold pdeIndex
    lia
  unfold Kernel.Maps
  dsimp only
  rw [h.loadWord_dir hd]
  rcases h.entry d hd (a / pagePteIndex) hm with hnone | ⟨t, ht⟩
  · rw [hnone]
    constructor
    · rintro ⟨hodd, -⟩
      exact absurd hodd (by decide)
    · rintro ⟨t, ⟨-, -, ht⟩, -⟩
      exact absurd (hnone.symm.trans ht).symm (userEntry_ne_zero t)
  · have htable : Names k.page live t (.table d (a / pagePteIndex)) := ⟨hd, hm, ht⟩
    rw [ht, getPageAttr_userEntry, h.loadWord_table htable]
    rcases h.leaf t d _ htable (a % pagePteIndex) (Nat.mod_lt a (by decide)) with hzero | ⟨g, hg⟩
    · rw [hzero]
      constructor
      · rintro ⟨-, hodd, -⟩
        exact absurd hodd (by decide)
      · rintro ⟨t', ht', hleaf⟩
        rw [Names.eq (u := .table d _) ht' htable, hzero] at hleaf
        exact absurd hleaf.symm (userEntry_ne_zero f)
    · obtain ⟨hodd, hframe⟩ := userEntry_odd g
      rw [hg, hframe]
      constructor
      · rintro ⟨-, -, rfl⟩
        exact ⟨t, htable, hg⟩
      · intro hf
        exact ⟨(userEntry_odd t).1, hodd, Names.eq hf ⟨t, htable, hg⟩⟩

end Tabled

/-- The state of the memory management and the pages of the live directories. -/
structure UmmRun where
  kernel : Kernel
  live : Finset ℕ

namespace UmmRun

/-- `pde` is the address of a live directory. -/
def IsLive (s : UmmRun) (pde : ℕ) : Prop := ∃ d ∈ s.live, pde = d * pageSize

/-- A call names a live directory, addresses are words, and a store goes to a page that
is no live directory and that no entry of one names as a page table. -/
def Enabled (s : UmmRun) : MemCall → Prop
  | .ummAllocPde => True
  | .ummHandler attr pde => attr < 2 ^ 32 ∧ s.IsLive pde
  | .ummMmapKmm attr len pde => attr < 2 ^ 32 ∧ len < 2 ^ 32 ∧ s.IsLive pde
  | .ummUmmapKmm attr len => attr < 2 ^ 32 ∧ len < 2 ^ 32
  | .ummFree pde => s.IsLive pde
  | .store table _ => table / pageSize ∉ s.live ∧ ∀ d ∈ s.live, ∀ m < pdeIndex pageOffset,
      s.kernel.loadWord (d * pageSize) m = 0 ∨
        getPageAttr (s.kernel.loadWord (d * pageSize) m) / pageSize ≠ table / pageSize
  | _ => False

/-- The live directories after a call that returned `r`. -/
def liveAfter (s : UmmRun) (r : ℕ) : MemCall → Finset ℕ
  | .ummAllocPde => if r = 0 then s.live else insert (r / pageSize) s.live
  | .ummFree pde => s.live.erase (pde / pageSize)
  | _ => s.live

/-- A window enters its frames as themselves and lies inside the kernel window. -/
def SafeCall (s : UmmRun) : MemCall → Prop
  | .ummMmapKmm attr len pde => s.kernel.SafeWindow attr len pde
  | .ummUmmapKmm attr len => s.kernel.SafeUmmap attr len
  | _ => True

/-- A frame that a live directory maps below `PAGE_OFFSET` is a taken page behind the
kernel, no directory and no page table, and is mapped there once. -/
structure Isolated (b : KernelBoot) (s : UmmRun) : Prop where
  once : ∀ d ∈ s.live, ∀ d' ∈ s.live, ∀ a < pageOffset / pageSize, ∀ a' < pageOffset / pageSize,
    ∀ f, s.kernel.Maps d a f → s.kernel.Maps d' a' f → d = d' ∧ a = a'
  notKernel : ∀ d ∈ s.live, ∀ a < pageOffset / pageSize, ∀ f, s.kernel.Maps d a f → f ∈ b.arena
  notFree : ∀ d ∈ s.live, ∀ a < pageOffset / pageSize, ∀ f, s.kernel.Maps d a f →
    f ∉ s.kernel.pmm.freePages
  notPde : ∀ d ∈ s.live, ∀ a < pageOffset / pageSize, ∀ f, s.kernel.Maps d a f → f ∉ s.live
  notTable : ∀ d ∈ s.live, ∀ a < pageOffset / pageSize, ∀ f, s.kernel.Maps d a f →
    ∀ d' ∈ s.live, ∀ m < pdeIndex pageOffset,
      getPageAttr (s.kernel.loadWord (d' * pageSize) m) ≠ f * pageSize

end UmmRun

/-- The runs of the page directories on the machine `b`, from `vmm_init` on. -/
def ummMachine (b : KernelBoot) : Machine UmmRun MemCall where
  init s := ∃ memory behind page, s = ⟨Kernel.vmmInit b memory behind page, ∅⟩
  step s call s' := s.Enabled call ∧ ∃ r, s.kernel.Returns call r s'.kernel ∧
    s'.live = s.liveAfter r call

theorem UmmRun.step_ummHandler {b : KernelBoot} {s : UmmRun} {attr d : ℕ} (hattr : attr < 2 ^ 32)
    (hd : d ∈ s.live) : (ummMachine b).step s (.ummHandler attr (d * pageSize))
      ⟨(s.kernel.ummHandler attr (d * pageSize)).2, s.live⟩ :=
  ⟨⟨hattr, d, hd, rfl⟩, _, ⟨rfl, rfl⟩, rfl⟩

namespace Owned

variable {b : KernelBoot} {k k' : Kernel} {live : Finset ℕ}

/-! ## Calls that enter a page -/

theorem unnamed_of_unmapped (h : Owned b k live) {d attr : ℕ} (hd : d ∈ live) (hattr : attr < pageOffset)
    (hunmapped : getPageAttr (k.getUmmValue attr (d * pageSize)) = 0) (x : ℕ) :
    ¬ Names k.page live x (.user d (attr / pageSize)) := by
  rcases h.toTabled.getUmmValue_cases hd hattr with ⟨-, hnone⟩ | ⟨f, hf, hnames⟩
  · exact hnone x
  · rw [hf, getPageAttr_userEntry] at hunmapped
    exact absurd hunmapped (Boot.mul_pageSize_ne_zero (h.taken f _ hnames).1)

/-- A page of the user in a window keeps the owners, when its frame is entered as
itself, and loses no page unless it has a new one that it cannot enter. -/
theorem of_pdePage (h : Owned b k live) {d attr phyAttr : ℕ} (hd : d ∈ live)
    (htrans : attr < pageOffset → k.Translated attr (d * pageSize))
    (hcall : k.pdePage attr (d * pageSize) = (phyAttr, k')) :
    Owned b k' live ∧ (k'.dmmapPageCount = k.dmmapPageCount ∧ k'.vmmPos = k.vmmPos ∧
      k'.vmmFreePageCount = k.vmmFreePageCount) ∧
      (k.KeepsPage attr (d * pageSize) → ∀ x, k'.InHand live d x ↔ k.InHand live d x) := by
  have hfields : k'.dmmapPageCount = k.dmmapPageCount ∧ k'.vmmPos = k.vmmPos ∧
      k'.vmmFreePageCount = k.vmmFreePageCount := by
    obtain ⟨r, pmm, page, heq, -⟩ := k.pdePage_eq attr (d * pageSize)
    obtain rfl := (Prod.mk.inj (heq.symm.trans hcall)).2
    exact ⟨rfl, rfl, rfl⟩
  rw [and_left_comm]
  refine ⟨hfields, ?_⟩
  by_cases hattr : attr < pageOffset
  · rcases h.toTabled.pdePage_cases hd hattr with ⟨f, -, heq, -⟩ | ⟨hunmapped, hnew⟩
    · obtain rfl := (Prod.mk.inj (heq.symm.trans hcall)).2
      exact ⟨h, fun _ _ => Iff.rfl⟩
    rcases hnew with ⟨pmm, heq, hsound, hfree, -⟩ | ⟨f, hf, hne, hphy, hfree, hentered⟩
    · obtain rfl := (Prod.mk.inj (heq.symm.trans hcall)).2
      refine ⟨h.of_pmm hsound fun g u hg => ?_, fun _ => Kernel.inHand_congr hfree rfl⟩
      rw [hfree]
      exact (h.taken g u hg).2
    rcases hentered with ⟨pmm, heq, htabled, hfree', hlost⟩ |
      ⟨pmm, page, tables, heq, htabled, hentered, -⟩
    · obtain rfl := (Prod.mk.inj (heq.symm.trans hcall)).2
      refine ⟨h.of_page_eq htabled rfl fun g u hg hgfree => (h.taken g u hg).2 ?_,
        fun hkeep => absurd hkeep.2 hlost⟩
      rw [hfree'] at hgfree
      exact Finset.mem_of_mem_erase hgfree
    · obtain rfl := (Prod.mk.inj (heq.symm.trans hcall)).2
      have hphy0 : k.pmm.pmmAllocPage.1 ≠ 0 := by
        rw [hphy]
        exact Nat.mul_ne_zero hne (by decide)
      have hself := htrans hattr hunmapped hphy0
      rw [hphy] at hself
      rw [hself, Nat.mul_div_cancel _ (by decide)] at hentered
      have hnone := h.unnamed_of_unmapped hd hattr hunmapped
      refine ⟨h.pmmAllocPage.1.of_entered htabled hentered (h.sound.mem_arena hf) ?_
        (h.unnamed_of_free hf), fun _ => hentered.inHand hf rfl hfree hnone⟩
      rw [hfree]
      exact Finset.notMem_erase f _
  · obtain ⟨r, pmm, heq, hsound, hsub, hsame⟩ :=
      h.toTabled.pdePage_high (Nat.le_of_not_lt hattr) (d * pageSize)
    obtain rfl := (Prod.mk.inj (heq.symm.trans hcall)).2
    exact ⟨h.of_pmm hsound fun g u hg hgfree => (h.taken g u hg).2 (hsub hgfree),
      fun hkeep => Kernel.inHand_congr (hsame hkeep) rfl⟩

theorem of_globlPageMmap (h : Owned b k live) (f : ℕ) {g : ℕ} (hg : k.dmmapPageCount ≤ g) :
    Owned b (k.globlPageMmap f g) live := by
  have htabled := h.toTabled.of_globlPageMmap f hg
  obtain ⟨pte, hmmap, -⟩ := k.globlPageMmap_eq f g
  rw [hmmap] at htabled ⊢
  exact h.of_window htabled.window

/-- The loop of `vmm_mmap_pde_page` on a directory keeps the owners, and what each of its
pages keeps and the window has no part in, when the entries it maps lie behind the direct
pages. -/
theorem of_vmmMmapPdeLoop (h : Owned b k live) {d attr count head : ℕ} (hd : d ∈ live)
    (hslot : ∀ kMid : Kernel, kMid.dmmapPageCount = k.dmmapPageCount → ∀ j < count,
      k.dmmapPageCount ≤ kMid.getGloblPageIndex (add32 head j))
    {C : Kernel → ℕ → Prop} {I : Kernel → Prop}
    (htrans : ∀ k attr, C k attr → attr < pageOffset → k.Translated attr (d * pageSize))
    (hkeep : ∀ k attr phyAttr k₁, Owned b k live → I k → C k attr →
      k.pdePage attr (d * pageSize) = (phyAttr, k₁) → I k₁)
    (hwindow : ∀ (k : Kernel) pte, I k → I { k with globlMmapPte := pte }) (hI : I k)
    (heach : Kernel.EachPage C head attr (d * pageSize) count 0 k) {done : Bool} {kEnd : Kernel}
    (hloop : Kernel.vmmMmapPdeLoop head attr (d * pageSize) count 0 k = (done, kEnd)) :
    Owned b kEnd live ∧ kEnd.dmmapPageCount = k.dmmapPageCount ∧ kEnd.vmmPos = k.vmmPos ∧ I kEnd := by
  have hrun := Kernel.vmmMmapPdeLoop_rule
    (I := fun _ kMid => Owned b kMid live ∧ kMid.dmmapPageCount = k.dmmapPageCount ∧
      kMid.vmmPos = k.vmmPos ∧ I kMid) (n := count)
    (fun i hi kMid phyAttr k₁ hI hC hpage _ => by
      obtain ⟨howned, hdmmap, hpos, hI⟩ := hI
      obtain ⟨howned', ⟨hdmmap', hpos', -⟩, -⟩ := howned.of_pdePage hd (htrans _ _ hC) hpage
      have hd₁ := hdmmap'.trans hdmmap
      have hmapped := howned'.of_globlPageMmap (phyAttr / pageSize)
        (g := k₁.getGloblPageIndex (add32 head i)) (hd₁ ▸ hslot k₁ hd₁ i hi)
      obtain ⟨pte, hmmap, -⟩ := k₁.globlPageMmap_eq (phyAttr / pageSize)
        (k₁.getGloblPageIndex (add32 head i))
      rw [hmmap] at hmapped ⊢
      exact ⟨hmapped, hd₁, hpos'.trans hpos, hwindow k₁ pte (hkeep _ _ _ _ howned hI hC hpage)⟩)
    count 0 k (Nat.zero_add count) ⟨h, rfl, rfl, hI⟩ heach
  rcases hrun with ⟨kEnd', heq, hEnd⟩ | ⟨j, hj, kLast, k₁, hI, hC, hpage, heq⟩
  · obtain rfl := (Prod.mk.inj (heq.symm.trans hloop)).2
    exact hEnd
  · obtain rfl := (Prod.mk.inj (heq.symm.trans hloop)).2
    obtain ⟨howned, ⟨hdmmap, hpos, -⟩, -⟩ := hI.1.of_pdePage hd (htrans _ _ hC) hpage
    have hd₁ := hdmmap.trans hI.2.1
    obtain ⟨pte, hundo, hframe⟩ := Kernel.vmmMmapPdeUndo_eq head j k₁
    rw [hundo]
    refine ⟨howned.of_window (howned.window.of_direct rfl howned.window.vmmPos_lt fun x hx => ?_), hd₁,
      hpos.trans hI.2.2.1, hwindow k₁ pte (hkeep _ _ _ _ hI.1 hI.2.2.2 hC hpage)⟩
    refine hframe x fun i _ hi => ?_
    have hbehind := hslot k₁ hd₁ i (by omega)
    omega

/-- The window of `vmm_mmap_pde_page` on a directory keeps the owners, and what each of
its pages keeps and the window has no part in. -/
theorem of_vmmMmapPdePage (h : Owned b k live) {d attr count fuel r : ℕ} (hd : d ∈ live)
    (hcount : count < 2 ^ 32) (hscan : k.SafeScan count) {C : Kernel → ℕ → Prop} {I : Kernel → Prop}
    (htrans : ∀ k attr, C k attr → attr < pageOffset → k.Translated attr (d * pageSize))
    (hkeep : ∀ k attr phyAttr k₁, Owned b k live → I k → C k attr →
      k.pdePage attr (d * pageSize) = (phyAttr, k₁) → I k₁)
    (hwindow : ∀ (k : Kernel) pte pos count, I k →
      I { k with globlMmapPte := pte, vmmPos := pos, vmmFreePageCount := count })
    (hI : I k)
    (heach : ∀ p, k.VmmSettles count p →
      Kernel.EachPage C (add32 (sub32 p count) 1) attr (d * pageSize) count 0 k)
    (hcall : k.vmmMmapPdePage fuel attr count (d * pageSize) = some (r, k')) :
    Owned b k' live ∧ I k' := by
  have hpos : k.vmmPos < k.vmmapPageCount := h.window.vmmPos_lt
  have hpages := k.page_count
  rcases Kernel.vmmMmapPdePage_cases hcall with ⟨-, -, rfl⟩ | ⟨p, kMapped, hfound, hreturn⟩
  · exact ⟨h, hI⟩
  have hsettles := Kernel.vmmSettles_of_scan (by lia) hcount hfound
  have hsafe := hscan p hsettles
  have hslot : ∀ kMid : Kernel, kMid.dmmapPageCount = k.dmmapPageCount → ∀ j < count,
      k.dmmapPageCount ≤ kMid.getGloblPageIndex (add32 (add32 (sub32 p count) 1) j) := by
    intro kMid hdmmap j hj
    unfold Kernel.getGloblPageIndex
    rw [hdmmap]
    have hindex := hsafe.inside.slot_eq hpos hj
    unfold Kernel.getGloblPageIndex at hindex
    omega
  have hEnd := fun done (hloop : Kernel.vmmMmapPdeLoop (add32 (sub32 p count) 1) attr (d * pageSize)
      count 0 k = (done, kMapped)) =>
    h.of_vmmMmapPdeLoop hd hslot htrans hkeep (fun kMid pte => hwindow kMid pte kMid.vmmPos
      kMid.vmmFreePageCount) hI (heach p hsettles) hloop
  rcases hreturn with ⟨hloop, -, hk⟩ | ⟨hloop, -, rfl⟩
  · obtain ⟨howned, hdmmap, hpos', hI⟩ := hEnd true hloop
    rw [hk]
    refine ⟨howned.of_window (howned.window.of_direct rfl ?_ fun _ _ => rfl), hwindow kMapped _ _ _ hI⟩
    have hwindow : kMapped.vmmPos < kMapped.vmmapPageCount := howned.window.vmmPos_lt
    have hpages' := kMapped.page_count
    have hle := hsafe.1
    have hlen := hsafe.2
    dsimp only
    split
    · rw [sub32_of_le (by omega) (by lia)]
      omega
    · exact hwindow
  · obtain ⟨howned, -, -, hI⟩ := hEnd false hloop
    exact ⟨howned, hI⟩

/-- The window of a single page keeps the owners, and loses no page unless it has a new one
that it cannot enter. -/
theorem of_ummMmapOne (h : Owned b k live) {d attr fuel r : ℕ} (hd : d ∈ live)
    (hcall : k.ummMmapOne fuel attr (d * pageSize) = some (r, k')) :
    Owned b k' live ∧ (((∃ p, k.VmmSettles 1 p) → k.KeepsPage attr (d * pageSize)) →
      ∀ x, k'.InHand live d x ↔ k.InHand live d x) := by
  rcases h.ummMmapOne_outcome hd hcall with ⟨-, pmm, rfl, hsound, hfree⟩ |
    ⟨first, pte, pos, count, f, -, -, -, -, -, ⟨-, rfl, hwindow⟩ | hnew⟩
  · refine ⟨h.of_pmm hsound fun g u hg => ?_, fun _ => Kernel.inHand_congr hfree rfl⟩
    rw [hfree]
    exact (h.taken g u hg).2
  · exact ⟨h.of_window hwindow, fun _ _ => Iff.rfl⟩
  obtain ⟨hunmapped, hsettles, hf, -, hfree, hwindow, hentered⟩ := hnew
  have hshown := h.pmmAllocPage.1.of_window hwindow
  rcases hentered with ⟨hlost, pmm, rfl, htabled, hfree'⟩ |
    ⟨hattr, -, pmm, page, tables, rfl, htabled, hentered⟩
  · refine ⟨h.of_page_eq htabled rfl fun g u hg hgfree => (h.taken g u hg).2 ?_,
      fun hkeep => absurd (hkeep hsettles) hlost⟩
    rw [hfree'] at hgfree
    exact Finset.mem_of_mem_erase hgfree
  · refine ⟨hshown.of_entered htabled hentered (h.sound.mem_arena hf) ?_ (h.unnamed_of_free hf),
      fun _ => hentered.inHand hf rfl hfree (h.unnamed_of_unmapped hd hattr hunmapped)⟩
    dsimp only
    rw [hfree]
    exact Finset.notMem_erase f _

theorem ummPageCount_lt (attr len : ℕ) : Kernel.ummPageCount attr len < 2 ^ 20 := by
  have hlt := Word.sub_lt 32 (add32 (sub32 (add32 attr len) (pageBase attr)) pageSize) 1
  unfold Kernel.ummPageCount
  lia

theorem of_ummMmapKmm (h : Owned b k live) {d attr len fuel r : ℕ} (hd : d ∈ live)
    (hsafe : k.SafeWindow attr len (d * pageSize))
    (hcall : k.ummMmapKmm fuel attr len (d * pageSize) = some (r, k')) : Owned b k' live := by
  rcases Kernel.ummMmapKmm_cases hcall with ⟨-, -, rfl⟩ | ⟨p, hin, -, hone | ⟨hmany, hwindow⟩⟩
  · exact h
  · exact (h.of_ummMmapOne hd hone.2).1
  · rcases hsafe with hout | hone | ⟨hscan, heach⟩
    · exact absurd hout (Nat.not_lt_of_le hin)
    · exact absurd hone hmany
    · have hcount := ummPageCount_lt attr len
      exact (h.of_vmmMmapPdePage hd (by omega) hscan (I := fun _ => True) (fun _ _ hC => hC)
        (fun _ _ _ _ _ _ _ _ => trivial) (fun _ _ _ _ _ => trivial) trivial heach hwindow).1

/-- A page fault enters a new page, or gives the page back: at an address without a page
it loses none. -/
theorem of_ummHandler (h : Owned b k live) {d : ℕ} (hd : d ∈ live) (attr : ℕ) :
    Owned b (k.ummHandler attr (d * pageSize)).2 live ∧
      ((attr < pageOffset → ∀ x, ¬ Names k.page live x (.user d (attr / pageSize))) →
        ∀ x, (k.ummHandler attr (d * pageSize)).2.InHand live d x ↔ k.InHand live d x) := by
  obtain ⟨htaken, hcases⟩ := h.pmmAllocPage
  unfold Kernel.ummHandler
  dsimp only
  rcases hcases with ⟨f, hf, hphy, hne, harena, hfree⟩ | ⟨hphy, hfree⟩
  · have hused : f ∉ k.pmm.pmmAllocPage.2.freePages := by
      rw [hfree]
      exact Finset.notMem_erase f _
    have hun := h.unnamed_of_free hf
    have hback : ∀ pmm : Pmm, pmm.Sound b.toBoot → f ∉ pmm.freePages →
        pmm.freePages = k.pmm.freePages.erase f →
        Owned b { k with pmm := pmm.pmmFreePage (f * pageSize) 1 } live ∧
          (pmm.pmmFreePage (f * pageSize) 1).freePages = k.pmm.freePages := by
      intro pmm hsound hnot hsame
      obtain ⟨hsound', hfree'⟩ := hsound.pmmFreePage harena hnot
      rw [hsame, Finset.insert_erase hf] at hfree'
      refine ⟨h.of_pmm hsound' fun g u hg => ?_, hfree'⟩
      rw [hfree']
      exact (h.taken g u hg).2
    rw [hphy, if_neg (Nat.mul_ne_zero hne (by decide)), Tabled.setPage_user,
      Nat.mul_div_cancel _ (by decide)]
    by_cases hattr : attr < pageOffset
    · rcases htaken.toTabled.setUmmValue_cases hd hattr f with ⟨pmm, heq, htabled, hfree'⟩ |
        ⟨pmm, page, tables, heq, htabled, hentered⟩
      · have hsame := hfree'.trans hfree
        obtain ⟨howned, hfree''⟩ :=
          hback pmm htabled.sound (by rw [hsame]; exact Finset.notMem_erase f _) hsame
        rw [heq, if_pos rfl]
        exact ⟨howned, fun _ => Kernel.inHand_congr hfree'' rfl⟩
      · rw [heq, if_neg Nat.one_ne_zero]
        exact ⟨htaken.of_entered htabled hentered harena hused hun,
          fun hnone => hentered.inHand hf rfl hfree (hnone hattr)⟩
    · obtain ⟨howned, hfree'⟩ := hback _ htaken.sound hused hfree
      unfold Kernel.setUmmValue
      rw [if_pos (Nat.le_of_not_lt hattr), if_pos rfl]
      exact ⟨howned, fun _ => Kernel.inHand_congr hfree' rfl⟩
  · rw [if_pos hphy]
    exact ⟨htaken, fun _ => Kernel.inHand_congr hfree rfl⟩

theorem ummUmmapKmm_direct (k : Kernel) {attr : ℕ} (hattr : attr < 2 ^ 32) (len : ℕ) :
    ∃ pte pos count, k.ummUmmapKmm attr len =
        { k with globlMmapPte := pte, vmmPos := pos, vmmFreePageCount := count } ∧
      (∀ x < k.dmmapPageCount, pte x = k.globlMmapPte x) ∧
      (k.SafeUmmap attr len → k.vmmPos < k.vmmapPageCount → pos < k.vmmapPageCount) := by
  have hcount := ummPageCount_lt attr len
  have hpages := k.page_count
  have hbase : pageBase attr / pageSize < 2 ^ 20 := by
    unfold pageBase
    lia
  unfold Kernel.SafeUmmap Kernel.ummUmmapKmm Kernel.vmmUmmapPage
  dsimp only
  generalize Kernel.ummPageCount attr len = count at *
  generalize pageBase attr / pageSize = index at *
  by_cases hdirect : k.dmmapPageCount ≤ index
  · rw [if_pos hdirect, add32_of_lt (by omega)]
    by_cases hin : index - k.dmmapPageCount + count ≤ k.vmmapPageCount
    · rw [if_pos hin]
      obtain ⟨pte, hloop, hframe⟩ := Kernel.vmmUmmapLoop_eq (index - k.dmmapPageCount) count k
      have hkept : ∀ x < k.dmmapPageCount, pte x = k.globlMmapPte x := by
        intro x hx
        refine hframe x fun j hj => ?_
        rw [add32_of_lt (by omega), Kernel.getGloblPageIndex_of_lt (by omega)]
        omega
      rw [hloop]
      unfold Kernel.raiseVmmPos
      dsimp only
      rw [add32_of_lt (by omega)]
      split
      · refine ⟨pte, _, _, rfl, hkept, fun hsafe _ => ?_⟩
        dsimp only
        rw [sub32_of_le (by omega) (by omega)]
        omega
      · exact ⟨pte, _, _, rfl, hkept, fun _ hpos => hpos⟩
    · rw [if_neg hin]
      exact ⟨_, _, _, rfl, fun _ _ => rfl, fun _ hpos => hpos⟩
  · rw [if_neg hdirect]
    exact ⟨_, _, _, rfl, fun _ _ => rfl, fun _ hpos => hpos⟩

/-- Closing a window clears entries of the window. -/
theorem of_ummUmmapKmm (h : Owned b k live) {attr len : ℕ} (hattr : attr < 2 ^ 32)
    (hsafe : k.SafeUmmap attr len) : Owned b (k.ummUmmapKmm attr len) live := by
  obtain ⟨pte, pos, count, heq, hkept, hpos⟩ := ummUmmapKmm_direct k hattr len
  rw [heq]
  exact h.of_window (h.window.of_direct rfl (hpos hsafe h.window.vmmPos_lt) hkept)

/-! ## Runs -/

theorem isolated {s : UmmRun} (h : Owned b s.kernel s.live) : s.Isolated b := by
  have hnames : ∀ d ∈ s.live, ∀ a < pageOffset / pageSize, ∀ f, s.kernel.Maps d a f →
      Names s.kernel.page s.live f (.user d a) := fun d hd a ha f hf => (h.maps_iff hd ha).1 hf
  refine ⟨fun d hd d' hd' a ha a' ha' f hf hf' => ?_, fun d hd a ha f hf => ?_, fun d hd a ha f hf => ?_,
    fun d hd a ha f hf hlive => ?_, fun d hd a ha f hf d' hd' m hm heq => ?_⟩
  · have huse := h.single f _ _ (hnames d hd a ha f hf) (hnames d' hd' a' ha' f hf')
    injection huse with hd ha
    exact ⟨hd, ha⟩
  · exact (h.taken f _ (hnames d hd a ha f hf)).1
  · exact (h.taken f _ (hnames d hd a ha f hf)).2
  · exact absurd (h.single f _ (.dir f) (hnames d hd a ha f hf) ⟨hlive, rfl⟩) (by simp)
  · have hf := hnames d hd a ha f hf
    have harena := (h.taken f _ hf).1
    rw [h.loadWord_dir hd'] at heq
    rcases h.entry d' hd' m hm with hnone | ⟨t, ht⟩
    · rw [hnone, getPageAttr_zero] at heq
      exact Boot.mul_pageSize_ne_zero harena heq.symm
    · rw [ht, getPageAttr_userEntry] at heq
      obtain rfl : t = f := Nat.eq_of_mul_eq_mul_right (by decide) heq
      exact absurd (h.single t _ (.table d' m) hf ⟨hd', hm, ht⟩) (by simp)

theorem of_init {s : UmmRun} (hinit : (ummMachine b).init s) : Owned b s.kernel s.live := by
  obtain ⟨memory, behind, page, rfl⟩ := hinit
  have hnone : ∀ f u, ¬ Names page ∅ f u := fun f u hf => Finset.notMem_empty _ hf.pde_mem
  obtain ⟨pte, heq, -⟩ := Kernel.vmmInit_eq b memory behind page
  have hwindow : VmmInv ⟨Kernel.vmmInit b memory behind page, []⟩ :=
    VmmInv.of_init ⟨memory, behind, page, rfl⟩
  have hsound : (Pmm.pmmInit b.toBoot memory).Sound b.toBoot :=
    Pmm.Sound.of_pmmInv (PmmInv.of_init memory)
  dsimp only
  rw [heq] at hwindow ⊢
  exact ⟨⟨rfl, hsound, hwindow, fun d hd => absurd hd (Finset.notMem_empty d),
    fun t d m ht => absurd ht (hnone t _), fun f u _ hf => absurd hf (hnone f u),
    fun f u _ _ _ hf => absurd hf (hnone f u)⟩, fun f u hf => absurd hf (hnone f u),
    fun f u _ hf => absurd hf (hnone f u)⟩

theorem unnamed_of_store {s : UmmRun} (h : Owned b s.kernel s.live) {table : ℕ} {words : ℕ → ℕ}
    (hen : s.Enabled (.store table words)) (u : Use) (hu : u.Structural) :
    ¬ Names s.kernel.page s.live (table / pageSize) u := by
  intro hx
  cases u with
  | dir d => exact hen.1 (hx.2 ▸ hx.1)
  | table d m =>
      obtain ⟨hd, hm, hentry⟩ := hx
      rcases hen.2 d hd m hm with hzero | hother
      · rw [h.loadWord_dir hd, hentry] at hzero
        exact userEntry_ne_zero _ hzero
      · rw [h.loadWord_dir hd, hentry, getPageAttr_userEntry, Nat.mul_div_cancel _ (by decide)] at hother
        exact hother rfl
  | user d a => exact hu

theorem of_step {s s' : UmmRun} (h : Owned b s.kernel s.live) {call : MemCall}
    (hsafe : s.SafeCall call) (hstep : (ummMachine b).step s call s') : Owned b s'.kernel s'.live := by
  obtain ⟨hen, r, hcall, hlive⟩ := hstep
  rw [hlive]
  cases call with
  | ummAllocPde =>
      rw [hcall.1, hcall.2]
      rcases h.ummAllocPde_cases with ⟨pmm, heq, howned, -⟩ |
        ⟨d, -, pmm, page, heq, harena, -, howned, -⟩
      · rw [heq]
        exact howned
      · rw [heq]
        unfold UmmRun.liveAfter
        dsimp only
        rw [if_neg (Boot.mul_pageSize_ne_zero harena), Nat.mul_div_cancel _ (by decide)]
        exact howned
  | ummHandler attr pde =>
      obtain ⟨-, d, hd, rfl⟩ := hen
      exact hcall.2 ▸ (h.of_ummHandler hd attr).1
  | ummMmapKmm attr len pde =>
      obtain ⟨-, -, d, hd, rfl⟩ := hen
      obtain ⟨fuel, hcall⟩ := hcall
      exact h.of_ummMmapKmm hd hsafe hcall
  | ummUmmapKmm attr len => exact hcall.2 ▸ h.of_ummUmmapKmm hen.1 hsafe
  | ummFree pde =>
      obtain ⟨d, hd, rfl⟩ := hen
      obtain ⟨pmm, heq, howned, -⟩ := h.ummFree_eq hd
      rw [hcall.2, heq]
      unfold UmmRun.liveAfter
      dsimp only
      rw [Nat.mul_div_cancel _ (by decide)]
      exact howned
  | store table words =>
      rw [hcall.2]
      exact h.of_store (h.unnamed_of_store hen) words
  | _ => exact absurd hen id

theorem of_reachable {s : UmmRun} (hs : ((ummMachine b).restrict UmmRun.SafeCall).Reachable s) :
    Owned b s.kernel s.live := by
  refine Machine.Reachable.invariant (M := (ummMachine b).restrict UmmRun.SafeCall)
    (fun s hinit => of_init hinit) (fun s call s' hs hstep => ?_) hs
  obtain ⟨hsafe, hstep⟩ := hstep
  exact hs.of_step hsafe hstep

end Owned

/-- **Isolation in the runs whose windows enter frames as themselves.** For every
amount of memory and in every state of such a run, the frames that the live
directories map below `PAGE_OFFSET` are taken pages behind the kernel, mapped once, and
neither directories nor page tables. -/
theorem address_spaces_isolated {b : KernelBoot} {s : UmmRun}
    (hs : ((ummMachine b).restrict UmmRun.SafeCall).Reachable s) : s.Isolated b :=
  (Owned.of_reachable hs).isolated

namespace Tabled

variable {b : KernelBoot} {k k' : Kernel} {live : Finset ℕ} {d a n direct head : ℕ}

/-- The directories stay in order, and what the directory has below the pages of a window
stays, also when the window fails. -/
theorem vmmMmapPdeLoop_names (hd : d ∈ live)
    (hslot : ∀ k : Kernel, k.dmmapPageCount = direct → ∀ j < n,
      direct ≤ k.getGloblPageIndex (add32 head j))
    (ha : a + n ≤ pageOffset / pageSize) {g a' : ℕ} (rem i : ℕ) (k : Kernel) (hn : i + rem = n)
    (h : Tabled b k live) (hdirect : k.dmmapPageCount = direct) (ha' : a' < a + i)
    (hnames : Names k.page live g (.user d a')) :
    ∃ done kEnd, Kernel.vmmMmapPdeLoop head (a * pageSize) (d * pageSize) rem i k = (done, kEnd) ∧
      Tabled b kEnd live ∧ kEnd.dmmapPageCount = direct ∧ Names kEnd.page live g (.user d a') := by
  induction rem generalizing i k with
  | zero => exact ⟨true, k, rfl, h, hdirect, hnames⟩
  | succ rem ih =>
      obtain ⟨haddr, hlow, hindex⟩ := pageAddress (a := a) (i := i) (by omega)
      obtain ⟨phyAttr, k₁, hcall⟩ : ∃ phyAttr k₁,
        k.pdePage ((a + i) * pageSize) (d * pageSize) = (phyAttr, k₁) := ⟨_, _, rfl⟩
      obtain ⟨h₁, hd₁, -, hother⟩ := h.pdePage_kept hd hlow hcall
      have hnames₁ : Names k₁.page live g (.user d a') := by
        refine (hother g d a' fun heq => ?_).2 hnames
        injection heq with _ heq
        omega
      rw [Kernel.vmmMmapPdeLoop, haddr, hcall]
      dsimp only
      by_cases hphy : phyAttr ≠ 0
      · have hbehind := hslot k₁ (hd₁.trans hdirect) i (by omega)
        have h₂ := h₁.of_globlPageMmap (phyAttr / pageSize)
          (g := k₁.getGloblPageIndex (add32 head i)) (by omega)
        obtain ⟨pte, hmmap, -⟩ :=
          k₁.globlPageMmap_eq (phyAttr / pageSize) (k₁.getGloblPageIndex (add32 head i))
        rw [if_pos hphy, hmmap]
        rw [hmmap] at h₂
        exact ih (i + 1) _ (by omega) h₂ (hd₁.trans hdirect) (by omega) hnames₁
      · obtain ⟨pte, hundo, hframe⟩ := Kernel.vmmMmapPdeUndo_eq head i k₁
        rw [if_neg hphy, hundo]
        refine ⟨false, _, rfl, h₁.of_window (h₁.window.of_direct rfl h₁.window.vmmPos_lt fun x hx => ?_),
          hd₁.trans hdirect, hnames₁⟩
        refine hframe x fun j _ hj => ?_
        have hbehind := hslot k₁ (hd₁.trans hdirect) j (by omega)
        omega

/-- Where all pages are direct, each page is shown by the kernel page of its own index. -/
theorem translated (h : Tabled b k live) (hall : b.memPageCount ≤ k.dmmapPageCount) (attr pde : ℕ) :
    k.Translated attr pde := by
  intro _ hphy
  rcases h.pmmAllocPage.2 with ⟨f, hf, hattr, -⟩ | ⟨hattr, -⟩
  · have hmem := (Boot.mem_arena.1 (h.sound.mem_arena hf)).2
    have hlt := b.memPageCount_lt
    have hdirect : k.getGloblPageAttr f = f * pageSize :=
      h.window.direct f (Nat.lt_of_lt_of_le hmem hall)
    rw [hattr]
    exact Kernel.getGloblPhyAttr_page hdirect (by lia)
  · exact absurd hattr hphy

/-- What holds while the directories are in order holds at each page of a window. -/
theorem eachPage_of_tabled (hd : d ∈ live) {C : Kernel → ℕ → Prop}
    (hC : ∀ k attr, Tabled b k live → k.dmmapPageCount = direct → C k attr)
    (hslot : ∀ k : Kernel, k.dmmapPageCount = direct → ∀ j < n,
      direct ≤ k.getGloblPageIndex (add32 head j))
    (ha : a + n ≤ pageOffset / pageSize) (rem i : ℕ) (k : Kernel) (hn : i + rem = n)
    (hdirect : k.dmmapPageCount = direct) (h : Tabled b k live) :
    Kernel.EachPage C head (a * pageSize) (d * pageSize) rem i k := by
  induction rem generalizing i k with
  | zero => trivial
  | succ rem ih =>
      refine ⟨hC k _ h hdirect, fun phyAttr k₁ hcall hphy => ?_⟩
      obtain ⟨haddr, hlow, -⟩ := pageAddress (a := a) (i := i) (by omega)
      rw [haddr] at hcall
      obtain ⟨h₁, hd₁, -, -⟩ := h.pdePage_kept hd hlow hcall
      have hd₁ := hd₁.trans hdirect
      have hbehind := hslot k₁ hd₁ i (by omega)
      have h₂ := h₁.of_globlPageMmap (phyAttr / pageSize) (g := k₁.getGloblPageIndex (add32 head i))
        (by omega)
      obtain ⟨pte, hmmap, -⟩ := k₁.globlPageMmap_eq (phyAttr / pageSize)
        (k₁.getGloblPageIndex (add32 head i))
      rw [hmmap] at h₂ ⊢
      exact ih (i + 1) _ (by omega) hd₁ h₂

theorem ummPageCount_eq {attr len : ℕ} (hin : attr + len ≤ pageOffset) :
    Kernel.ummPageCount attr len = (attr % pageSize + len + pageSize - 1) / pageSize := by
  have hend : add32 attr len = attr + len := add32_of_lt (by lia)
  have hbase : pageBase attr = attr - attr % pageSize := by
    unfold pageBase
    lia
  have hrest : sub32 (attr + len) (pageBase attr) = attr % pageSize + len := by
    rw [sub32_of_le (by omega) (by lia), hbase]
    lia
  have hround : add32 (attr % pageSize + len) pageSize = attr % pageSize + len + pageSize :=
    add32_of_lt (by lia)
  unfold Kernel.ummPageCount
  rw [hend, hrest, hround, sub32_of_le (by lia) (by lia)]

theorem safeWindow (h : Tabled b k live) (hd : d ∈ live) (hall : b.memPageCount ≤ k.dmmapPageCount)
    {attr len : ℕ} (hin : attr + len ≤ pageOffset)
    (hscan : k.SafeScan (Kernel.ummPageCount attr len)) :
    k.SafeWindow attr len (d * pageSize) := by
  refine .inr (.inr ⟨hscan, fun p hsettles => ?_⟩)
  have hsafe := hscan p hsettles
  have hcount := ummPageCount_eq hin
  have hlast : attr / pageSize + Kernel.ummPageCount attr len ≤ pageOffset / pageSize := by
    rw [hcount]
    lia
  have hbase : pageBase attr = attr / pageSize * pageSize := rfl
  have hpos : k.vmmPos < k.vmmapPageCount := h.window.vmmPos_lt
  have hshown : ∀ k' attr, Tabled b k' live → k'.dmmapPageCount = k.dmmapPageCount →
      attr < pageOffset → k'.Translated attr (d * pageSize) := fun k' attr hk hdirect _ =>
    hk.translated (hdirect ▸ hall) attr (d * pageSize)
  rw [hbase]
  refine h.eachPage_of_tabled hd hshown (fun k' hdmmap j hj => ?_) hlast _ 0 k (Nat.zero_add _) rfl
  have hindex := hsafe.inside.slot_eq hpos hj
  unfold Kernel.getGloblPageIndex at hindex ⊢
  rw [hdmmap]
  omega

end Tabled

section FirstPde

open Kernel

theorem Kernel.ummAllocPde_of_free {k : Kernel} {p : ℕ}
    (hp : (k.pmm.pmmUpAllocPage 1).1 = p * pageSize) (hpos : 0 < p) (hlt : p + 1 < 2 ^ 32)
    (hdirect : p < k.dmmapPageCount) :
    k.ummAllocPde = (p * pageSize, { k with
      pmm := (k.pmm.pmmUpAllocPage 1).2
      page := Function.update k.page p k.kernelMmapPde }) := by
  have hnot : ¬ k.dmmapPageCount < p + 1 := by omega
  unfold Kernel.ummAllocPde Kernel.dmmAllocPage
  dsimp only
  rw [hp, Nat.mul_div_cancel _ (by decide), add32_of_lt hlt, if_neg hnot]
  dsimp only
  rw [if_neg (Nat.mul_ne_zero (by omega) (by decide))]
  unfold Kernel.storePage
  dsimp only
  rw [Nat.mul_div_cancel _ (by decide)]
  rfl

/-- The run that made the first directory, on a machine with zeroed memory. -/
def pdeRun (b : KernelBoot) : UmmRun :=
  ⟨(Kernel.vmmInit b (fun _ => 0) (fun _ => 0) fun _ _ => 0).ummAllocPde.2, {b.memBasePage}⟩

variable {b : KernelBoot}

theorem ummAllocPde_vmmInit (hpages : b.memBasePage + 1 < b.memPageCount)
    (hdirect : b.memBasePage < b.dmmapPageCount) :
    ∃ pmm, pmm.Spans (b.memBasePage + 1) b.memPageCount ∧
      (Kernel.vmmInit b (fun _ => 0) (fun _ => 0) fun _ _ => 0).ummAllocPde =
        (b.memBasePage * pageSize,
          { Kernel.vmmInit b (fun _ => 0) (fun _ => 0) fun _ _ => 0 with
            pmm := pmm
            page := Function.update (fun _ _ => 0) b.memBasePage
              (Kernel.vmmInit b (fun _ => 0) (fun _ => 0) fun _ _ => 0).kernelMmapPde }) := by
  have hlt := b.memPageCount_lt
  have hbase := b.le_memBasePage
  obtain ⟨pte, heq, -⟩ := Kernel.vmmInit_eq b (fun _ => 0) (fun _ => 0) fun _ _ => 0
  obtain ⟨hattr, hspans⟩ := (Pmm.spans_pmmInit b.toBoot fun _ => 0).pmmUpAllocPage hpages
  rw [heq]
  exact ⟨_, hspans, Kernel.ummAllocPde_of_free hattr (by omega) (by omega) hdirect⟩

theorem pdeRun_reachable (hpages : b.memBasePage + 1 < b.memPageCount)
    (hdirect : b.memBasePage < b.dmmapPageCount) :
    ((ummMachine b).restrict UmmRun.SafeCall).Reachable (pdeRun b) := by
  have hbase := b.le_memBasePage
  obtain ⟨pmm, -, heq⟩ := ummAllocPde_vmmInit hpages hdirect
  refine .step (a := .ummAllocPde) (.init ⟨fun _ => 0, fun _ => 0, fun _ _ => 0, rfl⟩)
    ⟨trivial, trivial, _, ⟨rfl, rfl⟩, ?_⟩
  unfold UmmRun.liveAfter pdeRun
  dsimp only
  rw [heq, if_neg (Nat.mul_ne_zero (by omega) (by decide)), Nat.mul_div_cancel _ (by decide)]
  rfl

theorem pdeRun_memReachable (b : KernelBoot) : (memMachine b).Reachable (pdeRun b).kernel :=
  .step (a := .ummAllocPde) (.init ⟨fun _ => 0, fun _ => 0, fun _ _ => 0, rfl⟩) ⟨_, rfl, rfl⟩

theorem pdeRun_unmapped (hpages : b.memBasePage + 1 < b.memPageCount)
    (hdirect : b.memBasePage < b.dmmapPageCount) (m : ℕ) (hm : m < pdeIndex pageOffset) :
    (pdeRun b).kernel.loadWord (b.memBasePage * pageSize) m = 0 := by
  have htabled := (Owned.of_reachable (pdeRun_reachable hpages hdirect)).toTabled
  obtain ⟨pmm, -, heq⟩ := ummAllocPde_vmmInit hpages hdirect
  rw [htabled.loadWord_dir (Finset.mem_singleton_self b.memBasePage), pdeRun, heq]
  dsimp only
  rw [Function.update_self]
  exact Owned.kernelMmapPde_eq _ hm

theorem pdeRun_getUmmValue (hpages : b.memBasePage + 1 < b.memPageCount)
    (hdirect : b.memBasePage < b.dmmapPageCount) {attr : ℕ} (hattr : attr < pageOffset) :
    (pdeRun b).kernel.getUmmValue attr (b.memBasePage * pageSize) = 0 := by
  unfold Kernel.getUmmValue
  exact if_pos (pdeRun_unmapped hpages hdirect _ (Tabled.pdeIndex_lt hattr))

theorem pdeRun_window (hpages : b.memBasePage + 1 < b.memPageCount)
    (hdirect : b.memBasePage < b.dmmapPageCount) :
    (pdeRun b).kernel.dmmapPageCount = b.dmmapPageCount ∧
      (pdeRun b).kernel.vmmPos = globlPageNum - b.dmmapPageCount - 1 ∧
      (∀ count p, (pdeRun b).kernel.VmmSettles count p ↔ p = globlPageNum - b.dmmapPageCount - 1) ∧
      ∀ x, b.dmmapPageCount ≤ x → x < globlPageNum → (pdeRun b).kernel.getGloblPageAttr x = 0 := by
  obtain ⟨pmm, -, heq⟩ := ummAllocPde_vmmInit hpages hdirect
  obtain ⟨pte, hinit, -, hzero⟩ := vmmInit_eq b (fun _ => 0) (fun _ => 0) fun _ _ => 0
  rw [pdeRun, heq]
  refine ⟨vmmInit_dmmapPageCount b _ _ _, vmmInit_vmmPos b _ _ _, fun count p => ?_, fun x hx hlt => ?_⟩
  · exact vmmSettles_vmmInit b (fun _ => 0) (fun _ => 0) (fun _ _ => 0) count p
  · have hentry : (vmmInit b (fun _ => 0) (fun _ => 0) fun _ _ => 0).globlMmapPte x = 0 := by
      rw [hinit]
      exact hzero x hx hlt
    exact (congrArg getPageAttr hentry).trans getPageAttr_zero

/-- With three more pages the last one can be entered: the first is the page table. -/
theorem pdeRun_recorded (hpages : b.memBasePage + 3 < b.memPageCount)
    (hdirect : b.memBasePage + 1 < b.dmmapPageCount) {attr : ℕ} (hattr : attr < pageOffset) :
    (pdeRun b).kernel.pmm.pmmAllocPage.1 = (b.memPageCount - 1) * pageSize ∧
      (Kernel.ummTable { (pdeRun b).kernel with pmm := (pdeRun b).kernel.pmm.pmmAllocPage.2 } attr
        (b.memBasePage * pageSize)).1 ≠ 0 := by
  have hlt := b.memPageCount_lt
  have hempty := pdeRun_unmapped (b := b) (by omega) (by omega) _ (Tabled.pdeIndex_lt hattr)
  obtain ⟨pmm, hspans, heq⟩ := ummAllocPde_vmmInit (b := b) (by omega) (by omega)
  have hkernel : (pdeRun b).kernel.pmm = pmm := by
    rw [pdeRun, heq]
  have hcount : (pdeRun b).kernel.dmmapPageCount = b.dmmapPageCount := by
    rw [pdeRun, heq]
    exact vmmInit_dmmapPageCount b _ _ _
  rw [← hkernel] at hspans
  obtain ⟨hlast, hspans'⟩ := hspans.pmmAllocPage (by omega)
  obtain ⟨hfirst, -⟩ := hspans'.pmmUpAllocPage (by omega)
  have hword : Kernel.loadWord { (pdeRun b).kernel with pmm := (pdeRun b).kernel.pmm.pmmAllocPage.2 }
      (b.memBasePage * pageSize) (pdeIndex attr) = 0 :=
    (Kernel.loadWord_pmm _ _ _ _).trans hempty
  refine ⟨hlast, ?_⟩
  rw [Kernel.ummTable_fst, hword, getPageAttr_zero, if_pos rfl, Kernel.dmmAllocPage_fst]
  rw [hfirst, hcount, Nat.mul_div_cancel _ (by decide), add32_of_lt (by omega), if_neg (by omega)]
  exact Nat.mul_ne_zero (by omega) (by decide)

theorem ummAllocPde_pdeRun (hpages : b.memBasePage + 2 < b.memPageCount)
    (hdirect : b.memBasePage + 1 < b.dmmapPageCount) :
    ∃ pmm page, (pdeRun b).kernel.ummAllocPde = ((b.memBasePage + 1) * pageSize,
      { (pdeRun b).kernel with pmm := pmm, page := page }) := by
  have hlt := b.memPageCount_lt
  obtain ⟨pmm, hspans, heq⟩ := ummAllocPde_vmmInit (b := b) (by omega) (by omega)
  have hkernel : (pdeRun b).kernel.pmm = pmm := by
    rw [pdeRun, heq]
  obtain ⟨hcount, -⟩ := pdeRun_window (b := b) (by omega) (by omega)
  rw [← hkernel] at hspans
  obtain ⟨hattr, -⟩ := hspans.pmmUpAllocPage (by omega)
  exact ⟨_, _, Kernel.ummAllocPde_of_free hattr (by omega) (by omega) (by omega)⟩

/-- The run that made two directories. -/
def pairRun (b : KernelBoot) : UmmRun :=
  ⟨(pdeRun b).kernel.ummAllocPde.2, {b.memBasePage + 1, b.memBasePage}⟩

theorem pairRun_reachable (hpages : b.memBasePage + 2 < b.memPageCount)
    (hdirect : b.memBasePage + 1 < b.dmmapPageCount) :
    ((ummMachine b).restrict UmmRun.SafeCall).Reachable (pairRun b) := by
  obtain ⟨pmm, page, heq⟩ := ummAllocPde_pdeRun hpages hdirect
  refine .step (a := .ummAllocPde) (pdeRun_reachable (by omega) (by omega))
    ⟨trivial, trivial, _, ⟨rfl, rfl⟩, ?_⟩
  unfold UmmRun.liveAfter pairRun
  dsimp only
  rw [heq, if_neg (Nat.mul_ne_zero (by omega) (by decide)), Nat.mul_div_cancel _ (by decide)]
  rfl

theorem pairRun_window (hpages : b.memBasePage + 2 < b.memPageCount)
    (hdirect : b.memBasePage + 1 < b.dmmapPageCount) :
    (pairRun b).kernel.dmmapPageCount = b.dmmapPageCount ∧
      (pairRun b).kernel.vmmPos = globlPageNum - b.dmmapPageCount - 1 ∧
      ∀ count p, (pairRun b).kernel.VmmSettles count p ↔
        p = globlPageNum - b.dmmapPageCount - 1 := by
  obtain ⟨pmm, page, heq⟩ := ummAllocPde_pdeRun hpages hdirect
  obtain ⟨hcount, hpos, hsettles, -⟩ := pdeRun_window (b := b) (by omega) (by omega)
  rw [pairRun, heq]
  exact ⟨hcount, hpos, hsettles⟩

end FirstPde

section Example

open Kernel

/-- A machine with 16 pages more than the direct pages. -/
def largeBoot : KernelBoot where
  memBaseAddr := 0x1c0000
  memLength := 0x20010000
  highAttr_le := highAttr_le_base
  memBaseAddr_le := by decide
  memLength_lt := by decide
  bitmap_lt := by decide
  globlPtePage := 0x100
  highAttr_le_globlPte := Kernel.tinyBoot.highAttr_le_globlPte
  globlPte_le := Kernel.tinyBoot.globlPte_le

/-- A window of two pages enters the frames `0x2000f` and `0x2000e`, which no kernel page
shows, as the frame 0. -/
theorem address_spaces_overlap :
    ∃ s, (ummMachine largeBoot).Reachable s ∧ ¬ s.Isolated largeBoot := by
  have hbase : largeBoot.memBasePage = 0x1c5 := by decide
  have hcount : largeBoot.memPageCount = 0x20010 := by decide
  have hdmmap : largeBoot.dmmapPageCount = 0x20000 := by decide
  have hreach := pdeRun_reachable (b := largeBoot) (by rw [hbase, hcount]; decide)
    (by rw [hbase, hdmmap]; decide)
  have h := (Owned.of_reachable hreach).toTabled
  have hunmapped := pdeRun_getUmmValue (b := largeBoot) (by rw [hbase, hcount]; decide)
    (by rw [hbase, hdmmap]; decide) (by decide : 1 * pageSize < pageOffset)
  obtain ⟨hlast, htable⟩ := pdeRun_recorded (b := largeBoot) (by rw [hbase, hcount]; decide)
    (by rw [hbase, hdmmap]; decide) (by decide : 1 * pageSize < pageOffset)
  obtain ⟨hdirect, hpos, hsettles, hempty⟩ := pdeRun_window (b := largeBoot)
    (by rw [hbase, hcount]; decide) (by rw [hbase, hdmmap]; decide)
  have hlive : (pdeRun largeBoot).live = {0x1c5} := by
    unfold pdeRun
    rw [hbase]
  rw [hlive] at h
  rw [hbase] at hunmapped htable
  rw [hdmmap] at hdirect hpos hsettles hempty
  rw [hcount] at hlast
  have hd : 0x1c5 ∈ ({0x1c5} : Finset ℕ) := Finset.mem_singleton_self _
  obtain ⟨k, hk⟩ : ∃ k, (pdeRun largeBoot).kernel = k := ⟨_, rfl⟩
  rw [hk] at h hunmapped hlast htable hdirect hpos hsettles hempty
  -- the first page of the window
  have hglobl : k.getGloblPhyAttr (0x2000f * pageSize) = 0 := by
    unfold getGloblPhyAttr
    rw [Nat.mul_div_cancel _ (by decide), Nat.mul_mod_left, hempty _ (by decide) (by decide)]
    exact add32_of_lt (by decide)
  obtain ⟨pmm, page, hpage, h₁, hnames⟩ : ∃ pmm page, k.pdePage (1 * pageSize) (0x1c5 * pageSize) =
      (0x2000f * pageSize, { k with pmm := pmm, page := page }) ∧
      Tabled largeBoot { k with pmm := pmm, page := page } {0x1c5} ∧
      Names page {0x1c5} 0 (.user 0x1c5 1) := by
    rcases h.pdePage_cases hd (by decide : 1 * pageSize < pageOffset) with
      ⟨f, -, -, hnames⟩ | ⟨-, ⟨pmm, -, -, -, hnone⟩ | ⟨f, -, -, hphy, -, hnew⟩⟩
    · rcases h.getUmmValue_cases hd (by decide : 1 * pageSize < pageOffset) with ⟨-, hnone⟩ | ⟨g, hg, -⟩
      · exact absurd hnames (hnone f)
      · exact absurd (hg.symm.trans hunmapped) (userEntry_ne_zero g)
    · exact absurd (hnone.symm.trans hlast) (by decide)
    · obtain rfl : f = 0x2000f := Nat.eq_of_mul_eq_mul_right (by decide) (hphy.symm.trans hlast)
      rcases hnew with ⟨pmm, -, -, -, hlost⟩ | ⟨pmm, page, tables, hpage, h₁, hentered, -⟩
      · exact absurd (fun _ _ => htable) hlost
      · rw [hglobl] at hentered
        exact ⟨pmm, page, hpage, h₁, (hentered.names 0 _).2 (.inr (.inl ⟨rfl, rfl⟩))⟩
  -- the rest of the window leaves the entry alone
  have hslot : ∀ k' : Kernel, k'.dmmapPageCount = 0x20000 → ∀ j < 2,
      0x20000 ≤ k'.getGloblPageIndex (add32 (add32 (sub32 0xffff 2) 1) j) := by
    intro k' hk' j hj
    have hhead : add32 (sub32 0xffff 2) 1 = 0xfffe := by with_unfolding_all decide
    rw [getGloblPageIndex_eq, hk', hhead, add32_of_lt (a := 0xfffe) (by omega), add32_of_lt (by omega)]
    omega
  obtain ⟨pte, hmmap, -⟩ := globlPageMmap_eq { k with pmm := pmm, page := page }
    (0x2000f * pageSize / pageSize) (k.getGloblPageIndex (add32 (add32 (sub32 0xffff 2) 1) 0))
  have h₂ := h₁.of_globlPageMmap (0x2000f * pageSize / pageSize)
    (g := k.getGloblPageIndex (add32 (add32 (sub32 0xffff 2) 1) 0)) (hdirect ▸ hslot k hdirect 0 (by decide))
  rw [hmmap] at h₂
  obtain ⟨done, kEnd, hrest, hEnd, -, hkept⟩ := Tabled.vmmMmapPdeLoop_names (a := 1) hd hslot
    (by decide) 1 1 _ rfl h₂ hdirect (by decide) hnames
  have hmaps : kEnd.Maps 0x1c5 1 0 := (hEnd.maps_iff hd (by decide)).2 hkept
  have hloop : vmmMmapPdeLoop (add32 (sub32 0xffff 2) 1) (1 * pageSize) (0x1c5 * pageSize) 2 0 k =
      (done, kEnd) := by
    have haddr : add32 (1 * pageSize) (mul32 0 pageSize) = 1 * pageSize := by with_unfolding_all decide
    rw [vmmMmapPdeLoop, haddr, hpage]
    dsimp only
    rw [if_pos (by decide)]
    exact (congrArg (vmmMmapPdeLoop _ _ _ 1 1) hmmap).trans hrest
  have hpages : ummPageCount 0x1000 0x2000 = 2 := by with_unfolding_all decide
  obtain ⟨fuel, hscan⟩ := exists_scan_of_vmmSettles (by rw [hpos]; decide) (by decide)
    ((hsettles 2 0xffff).2 (by decide))
  rw [← hpages] at hscan
  obtain ⟨r, hcall⟩ := ummMmapKmm_of_scan (0x1c5 * pageSize) (by with_unfolding_all decide)
    (by rw [hpages]; decide) hscan
  have hbase' : pageBase 0x1000 = 1 * pageSize := by decide
  rw [hpages, hbase', hloop] at hcall
  have hstep : ∀ k', k.ummMmapKmm fuel 0x1000 0x2000 (0x1c5 * pageSize) = some (r, k') →
      (ummMachine largeBoot).step (pdeRun largeBoot) (.ummMmapKmm 0x1000 0x2000 (0x1c5 * pageSize))
        ⟨k', {0x1c5}⟩ := by
    intro k' hreturn
    rw [← hk] at hreturn
    exact ⟨⟨by decide, by decide, 0x1c5, hlive ▸ hd, rfl⟩, r, ⟨fuel, hreturn⟩, hlive.symm⟩
  have hout : ∀ k', k'.Maps 0x1c5 1 0 → ¬ UmmRun.Isolated largeBoot ⟨k', {0x1c5}⟩ := by
    intro k' hmaps hiso
    have harena := hiso.notKernel 0x1c5 hd 1 (by decide) 0 hmaps
    rw [Boot.mem_arena, hbase] at harena
    exact absurd harena.1 (by decide)
  cases done with
  | true => exact ⟨_, .step hreach.of_restrict (hstep _ hcall), hout _ hmaps⟩
  | false => exact ⟨_, .step hreach.of_restrict (hstep _ hcall), hout _ hmaps⟩

/-- The run of two directories and a window of two pages of the first. -/
theorem address_spaces_isolated_window : ∃ r k',
    (pairRun smallBoot).kernel.Returns (.ummMmapKmm 0x1000 0x2000 (449 * pageSize)) r k' ∧
      UmmRun.Isolated smallBoot ⟨k', {450, 449}⟩ := by
  obtain ⟨hbase, hcount, hdmmap⟩ := smallBoot_pages
  have hreach := pairRun_reachable (b := smallBoot) (by rw [hbase, hcount]; decide)
    (by rw [hbase, hdmmap]; decide)
  obtain ⟨hdirect, hpos, hsettles⟩ := pairRun_window (b := smallBoot)
    (by rw [hbase, hcount]; decide) (by rw [hbase, hdmmap]; decide)
  have hlive : (pairRun smallBoot).live = {450, 449} := by
    unfold pairRun
    rw [hbase]
  have hd : 449 ∈ (pairRun smallBoot).live := by
    rw [hlive]
    decide
  have h := (Owned.of_reachable hreach).toTabled
  have hpages : ummPageCount 0x1000 0x2000 = 2 := by with_unfolding_all decide
  have hscan : (pairRun smallBoot).kernel.SafeScan (ummPageCount 0x1000 0x2000) := by
    intro p hp
    rw [hpages, (hsettles _ _).1 hp, hdmmap]
    exact ⟨by rw [hpos, hdmmap], .inl (by decide)⟩
  obtain ⟨fuel, hfound⟩ := exists_scan_of_vmmSettles (by rw [hpos, hdmmap]; decide) (by decide)
    ((hsettles 2 _).2 rfl)
  rw [← hpages] at hfound
  obtain ⟨r, hcall⟩ := ummMmapKmm_of_scan (449 * pageSize) (by with_unfolding_all decide)
    (by rw [hpages]; decide) hfound
  refine ⟨r, _, ⟨fuel, hcall⟩, ?_⟩
  rw [← hlive]
  exact address_spaces_isolated (.step (a := .ummMmapKmm 0x1000 0x2000 (449 * pageSize)) hreach
    ⟨h.safeWindow hd (by rw [hdirect, hcount, hdmmap]) (by decide) hscan,
      ⟨by decide, by decide, 449, hd, rfl⟩, r, ⟨fuel, hcall⟩, rfl⟩)

end Example

end BitchKernel
