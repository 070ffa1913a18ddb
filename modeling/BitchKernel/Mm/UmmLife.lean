import BitchKernel.Mm.UmmWindow

/-!
# Frames over the life of a process

A life starts with `umm_alloc_pde`, goes on with page faults and windows of the new
directory, in any order, and ends with `umm_free`. A page the life takes is then free
again if the directory, one of its page tables or an entry of these names it. The page of
a window that is entered nowhere, because there is no page for its table or because its
address is not one of the user, is named by none of them.
-/

namespace BitchKernel

open Lib

namespace Kernel

/-- A call of `umm_mmap_kmm` that fails its check, or whose new pages are entered, each as
itself, and whose run lies inside the kernel window. -/
def KeepsWindow (k : Kernel) (attr len pde : ℕ) : Prop :=
  pageOffset < add32 attr len ∨
  (ummPageCount attr len = 1 ∧ ((∃ p, k.VmmSettles 1 p) → k.KeepsPage (pageBase attr) pde)) ∨
  (ummPageCount attr len ≠ 1 ∧ k.SafeScan (ummPageCount attr len) ∧
    ∀ p, k.VmmSettles (ummPageCount attr len) p →
      EachPage (fun k attr => k.KeepsPage attr pde ∧ (attr < pageOffset → k.Translated attr pde))
        (add32 (sub32 p (ummPageCount attr len)) 1) (pageBase attr) pde (ummPageCount attr len) 0 k)

theorem ummUmmapKmm_eq (k : Kernel) (attr len : ℕ) : ∃ pte pos count, k.ummUmmapKmm attr len =
    { k with globlMmapPte := pte, vmmPos := pos, vmmFreePageCount := count } := by
  unfold ummUmmapKmm vmmUmmapPage
  dsimp only
  split
  · split
    · obtain ⟨pte, hloop, -⟩ := vmmUmmapLoop_eq (pageBase attr / pageSize - k.dmmapPageCount)
        (ummPageCount attr len) k
      rw [hloop]
      unfold raiseVmmPos
      dsimp only
      split
      · exact ⟨_, _, _, rfl⟩
      · exact ⟨_, _, _, rfl⟩
    · exact ⟨_, _, _, rfl⟩
  · exact ⟨_, _, _, rfl⟩

end Kernel

namespace UmmRun

/-- The calls of a process on its own directory `d`. A page fault comes from an address
that is not mapped, or not one of the user. -/
def OnPde (d : ℕ) (s : UmmRun) : MemCall → Prop
  | .ummHandler attr pde => pde = d * pageSize ∧
      (attr < pageOffset → ∀ f, ¬ s.kernel.Maps d (attr / pageSize) f)
  | .ummMmapKmm _ _ pde => pde = d * pageSize
  | .ummUmmapKmm _ _ => True
  | .store _ _ => True
  | _ => False

/-- A window enters its new pages, and lies inside the kernel window. -/
def KeepsCall (s : UmmRun) : MemCall → Prop
  | .ummMmapKmm attr len pde => s.kernel.KeepsWindow attr len pde
  | .ummUmmapKmm attr len => s.kernel.SafeUmmap attr len
  | _ => True

end UmmRun

/-- The life of a process with the directory `d`, which `umm_alloc_pde` returned in the
state `s₀`. -/
def lifeMachine (b : KernelBoot) (s₀ : UmmRun) (d : ℕ) : Machine UmmRun MemCall where
  init s := d ≠ 0 ∧ s₀.kernel.Returns .ummAllocPde (d * pageSize) s.kernel ∧ s.live = insert d s₀.live
  step s call s' := s.OnPde d call ∧ (ummMachine b).step s call s'

namespace Owned

variable {b : KernelBoot} {k k' : Kernel} {live : Finset ℕ}

/-- A window whose new pages are entered loses none. -/
theorem of_keepsWindow (h : Owned b k live) {d attr len fuel r : ℕ} (hd : d ∈ live)
    (hkeep : k.KeepsWindow attr len (d * pageSize))
    (hcall : k.ummMmapKmm fuel attr len (d * pageSize) = some (r, k')) :
    Owned b k' live ∧ ∀ x, k'.InHand live d x ↔ k.InHand live d x := by
  rcases Kernel.ummMmapKmm_cases hcall with ⟨-, -, rfl⟩ | ⟨p, hin, -, hwindow⟩
  · exact ⟨h, fun _ => Iff.rfl⟩
  rcases hkeep with hout | ⟨hone, hpage⟩ | ⟨hmany, hscan, heach⟩
  · exact absurd hout (Nat.not_lt_of_le hin)
  · rcases hwindow with ⟨-, hwindow⟩ | ⟨hmany, -⟩
    · obtain ⟨howned, hkept⟩ := h.of_ummMmapOne hd hwindow
      exact ⟨howned, hkept hpage⟩
    · exact absurd hone hmany
  · rcases hwindow with ⟨hone, -⟩ | ⟨-, hwindow⟩
    · exact absurd hone hmany
    · have hcount := ummPageCount_lt attr len
      exact h.of_vmmMmapPdePage hd (by omega) hscan
        (I := fun kMid => ∀ x, kMid.InHand live d x ↔ k.InHand live d x) (fun _ _ hC => hC.2)
        (fun kMid attr phyAttr k₁ howned hI hC hpage x =>
          ((howned.of_pdePage hd hC.2 hpage).2.2 hC.1 x).trans (hI x))
        (fun _ _ _ _ hI => hI) (fun _ => Iff.rfl) heach hwindow

/-- A window whose new page cannot be entered loses it. -/
theorem ummMmapOne_loses (h : Owned b k live) {d attr fuel p : ℕ} (hd : d ∈ live)
    (hunmapped : getPageAttr (k.getUmmValue attr (d * pageSize)) = 0)
    (hlost : ¬ k.Recorded attr (d * pageSize))
    (hcall : k.ummMmapOne fuel attr (d * pageSize) = some (p, k')) (hp : p ≠ 0) :
    ∃ f ∈ k.pmm.freePages, f ∉ k'.pmm.freePages ∧ k'.page = k.page := by
  rcases h.toTabled.ummMmapOne_outcome hd hcall with ⟨hzero, -⟩ |
    ⟨_, pte, pos, count, f, -, -, -, -, hne, ⟨hmapped, -⟩ | ⟨-, -, hf, -, -, -, hnew⟩⟩
  · exact absurd hzero hp
  · exact absurd (hmapped.trans hunmapped) (Nat.mul_ne_zero hne (by decide))
  · rcases hnew with ⟨-, pmm, rfl, -, hfree⟩ | ⟨-, hrec, -⟩
    · refine ⟨f, hf, ?_, rfl⟩
      dsimp only
      rw [hfree]
      exact Finset.notMem_erase f _
    · exact absurd hrec hlost

end Owned

/-- What holds in the life of a process: the pages that are free or in use by the
directory are those that were free before it. -/
structure Living (b : KernelBoot) (d : ℕ) (before : Finset ℕ) (s : UmmRun) : Prop where
  owned : Owned b s.kernel s.live
  pde_mem : d ∈ s.live
  inHand : ∀ x, s.kernel.InHand s.live d x ↔ x ∈ before

namespace Living

variable {b : KernelBoot} {s₀ s s' : UmmRun} {d : ℕ} {before : Finset ℕ}

theorem of_init (h : Owned b s₀.kernel s₀.live) (hinit : (lifeMachine b s₀ d).init s) :
    Living b d s₀.kernel.pmm.freePages s := by
  obtain ⟨hd, ⟨hr, hk⟩, hlive⟩ := hinit
  rcases h.ummAllocPde_cases with ⟨pmm, heq, -⟩ |
    ⟨d', hfree, pmm, page, heq, -, hnew, howned, hpmm, hnames⟩
  · rw [heq] at hr
    exact absurd hr (Nat.mul_ne_zero hd (by decide))
  · rw [heq] at hr hk
    obtain rfl : d = d' := Nat.eq_of_mul_eq_mul_right (by decide) hr
    obtain ⟨kernel, live⟩ := s
    dsimp only at hk hlive
    rw [hk, hlive]
    refine ⟨howned, Finset.mem_insert_self _ _, fun x => ?_⟩
    unfold Kernel.InHand
    dsimp only
    rw [hpmm, Finset.mem_erase]
    constructor
    · rintro (⟨-, hx⟩ | ⟨u, hu, hx⟩)
      · exact hx
      · rcases (hnames x u).1 hx with hold | ⟨rfl, -⟩
        · exact absurd (hu ▸ hold.pde_mem) hnew
        · exact hfree
    · intro hx
      by_cases hxd : x = d
      · exact .inr ⟨.dir d, rfl, (hnames x _).2 (.inr ⟨hxd, rfl⟩)⟩
      · exact .inl ⟨hxd, hx⟩

theorem of_step (h : Living b d before s) {call : MemCall} (hkeep : s.KeepsCall call)
    (hstep : (lifeMachine b s₀ d).step s call s') : Living b d before s' := by
  obtain ⟨honPde, hen, r, hcall, hlive⟩ := hstep
  obtain ⟨howned, hd, hinHand⟩ := h
  obtain ⟨kernel, live⟩ := s'
  dsimp only at hcall hlive
  cases call with
  | ummHandler attr pde =>
      obtain ⟨rfl, hfault⟩ := honPde
      obtain ⟨howned', hkept⟩ := howned.of_ummHandler hd attr
      rw [hlive, hcall.2]
      refine ⟨howned', hd, fun x => (hkept (fun hattr f hf => ?_) x).trans (hinHand x)⟩
      exact hfault hattr f ((howned.maps_iff hd (by lia)).2 hf)
  | ummMmapKmm attr len pde =>
      obtain ⟨fuel, hcall⟩ := hcall
      rw [honPde] at hcall hkeep
      obtain ⟨howned', hkept⟩ := howned.of_keepsWindow hd hkeep hcall
      rw [hlive]
      exact ⟨howned', hd, fun x => (hkept x).trans (hinHand x)⟩
  | ummUmmapKmm attr len =>
      have howned' := howned.of_ummUmmapKmm hen.1 hkeep
      obtain ⟨pte, pos, count, heq⟩ := s.kernel.ummUmmapKmm_eq attr len
      rw [heq] at howned'
      rw [hlive, hcall.2, heq]
      exact ⟨howned', hd, hinHand⟩
  | store table words =>
      have hun := howned.unnamed_of_store hen
      rw [hlive, hcall.2]
      refine ⟨howned.of_store hun words, hd, fun x => Iff.trans ?_ (hinHand x)⟩
      exact or_congr_right (exists_congr fun u => and_congr_right fun _ => Names.update hun words x u)
  | _ => exact absurd honPde id

end Living

/-- **When a life gives back its frames.** A life starts in any state of a run as above, and
its windows enter the new pages they show and lie inside the kernel window, where the
allocator may find no page at any call. When the directory is given back, the free pages
and their number are those of the state before it. -/
theorem frames_conserved {b : KernelBoot} {s₀ s : UmmRun} {d r : ℕ} {k' : Kernel}
    (hs₀ : ((ummMachine b).restrict UmmRun.SafeCall).Reachable s₀)
    (hs : ((lifeMachine b s₀ d).restrict UmmRun.KeepsCall).Reachable s)
    (hcall : s.kernel.Returns (.ummFree (d * pageSize)) r k') :
    k'.pmm.freePages = s₀.kernel.pmm.freePages ∧
      k'.pmm.pmmFreePageCount = s₀.kernel.pmm.pmmFreePageCount := by
  have h₀ := Owned.of_reachable hs₀
  have h : Living b d s₀.kernel.pmm.freePages s := by
    refine Machine.Reachable.invariant (M := (lifeMachine b s₀ d).restrict UmmRun.KeepsCall)
      (fun s hinit => Living.of_init h₀ hinit) (fun s call s' hs hstep => ?_) hs
    exact hs.of_step hstep.1 hstep.2
  obtain ⟨pmm, heq, howned, hfree⟩ := h.owned.ummFree_eq h.pde_mem
  have hback : pmm.freePages = s₀.kernel.pmm.freePages :=
    Finset.ext fun x => (hfree x).trans (h.inHand x)
  rw [hcall.2, heq]
  refine ⟨hback, howned.sound.count.trans ?_⟩
  rw [h₀.sound.count]
  exact congrArg Finset.card hback

section Example

open Kernel

variable {b : KernelBoot}

/-- The state in which `umm_alloc_pde` makes the first directory. -/
def bootRun (b : KernelBoot) : UmmRun :=
  ⟨Kernel.vmmInit b (fun _ => 0) (fun _ => 0) fun _ _ => 0, ∅⟩

theorem bootRun_reachable : ((ummMachine b).restrict UmmRun.SafeCall).Reachable (bootRun b) :=
  .init ⟨_, _, _, rfl⟩

theorem pdeRun_init (hpages : b.memBasePage + 1 < b.memPageCount)
    (hdirect : b.memBasePage < b.dmmapPageCount) :
    (lifeMachine b (bootRun b) b.memBasePage).init (pdeRun b) := by
  have hbase := b.le_memBasePage
  obtain ⟨pmm, -, heq⟩ := ummAllocPde_vmmInit hpages hdirect
  exact ⟨by omega, ⟨(congrArg Prod.fst heq).symm, rfl⟩, rfl⟩

/-- The window of a page that does not reach the directory is opened and closed, and the
frame it showed is not given back. -/
theorem frames_leaked : ∃ s₀ d s r k', (ummMachine tightBoot).Reachable s₀ ∧
    (lifeMachine tightBoot s₀ d).Reachable s ∧ s.kernel.Returns (.ummFree (d * pageSize)) r k' ∧
      k'.pmm.freePages ≠ s₀.kernel.pmm.freePages := by
  obtain ⟨hbase, hcount, hdmmap⟩ := tightBoot_pages
  have hinit := pdeRun_init (b := tightBoot) (by rw [hbase, hcount]; decide) (by rw [hbase, hdmmap]; decide)
  have hliving := Living.of_init (Owned.of_reachable bootRun_reachable) hinit
  have h := hliving.owned
  have hd := hliving.pde_mem
  obtain ⟨r, k₁, hr, hcall⟩ := pdeRun_window_page (b := tightBoot) (by rw [hbase, hcount]; decide)
    (by rw [hbase, hdmmap]; decide)
  have hopen : (lifeMachine tightBoot (bootRun tightBoot) tightBoot.memBasePage).step (pdeRun tightBoot)
      (.ummMmapKmm 0x1000 0x1000 (tightBoot.memBasePage * pageSize)) ⟨k₁, (pdeRun tightBoot).live⟩ :=
    ⟨rfl, ⟨by decide, by decide, _, hd, rfl⟩, r, hcall, rfl⟩
  obtain ⟨fuel, hcall⟩ := hcall
  have hone : ummPageCount 0x1000 0x1000 = 1 := by with_unfolding_all decide
  have hbase' : pageBase 0x1000 = 1 * pageSize := by decide
  obtain ⟨first, hfirst, hlast, -⟩ := h.toTabled.ummMmapKmm_shown hd (by decide)
    (by rw [hone]; exact h.toTabled.safeScan_one) hcall hr
  rw [hone] at hlast
  have hend : ummPageCount r 0x1000 = 1 := by
    rw [Tabled.ummPageCount_eq (by lia)]
    lia
  have hwindow : ∃ p ≠ 0, (pdeRun tightBoot).kernel.ummMmapOne fuel (1 * pageSize)
      (tightBoot.memBasePage * pageSize) = some (p, k₁) := by
    rcases ummMmapKmm_cases hcall with ⟨-, hzero, -⟩ | ⟨p, -, hreturn, ⟨-, hwindow⟩ | ⟨hmany, -⟩⟩
    · exact absurd hzero hr
    · rw [hbase'] at hwindow
      refine ⟨p, fun hp => hr ?_, hwindow⟩
      rw [hreturn, if_pos hp]
    · exact absurd hone hmany
  obtain ⟨p, hp, hwindow⟩ := hwindow
  have hunmapped := pdeRun_getUmmValue (b := tightBoot) (by rw [hbase, hcount]; decide)
    (by rw [hbase, hdmmap]; decide) (by decide : 1 * pageSize < pageOffset)
  have howned₁ := (h.of_ummMmapOne hd hwindow).1
  obtain ⟨f, hf, hused, hpage⟩ := h.ummMmapOne_loses hd (by rw [hunmapped, getPageAttr_zero])
    tightRun_not_recorded hwindow hp
  have hsafe : k₁.SafeUmmap r 0x1000 := fun hempty => Nat.one_ne_zero (hend.symm.trans hempty.2)
  have howned₂ := howned₁.of_ummUmmapKmm (by lia : r < 2 ^ 32) hsafe
  obtain ⟨pmm, heq, -, hfree⟩ := howned₂.ummFree_eq hd
  have hclose : (lifeMachine tightBoot (bootRun tightBoot) tightBoot.memBasePage).step
      ⟨k₁, (pdeRun tightBoot).live⟩ (.ummUmmapKmm r 0x1000)
      ⟨k₁.ummUmmapKmm r 0x1000, (pdeRun tightBoot).live⟩ :=
    ⟨trivial, ⟨by lia, by decide⟩, 0, ⟨rfl, rfl⟩, rfl⟩
  refine ⟨_, _, _, 0, _, bootRun_reachable.of_restrict, .step (.step (.init hinit) hopen) hclose,
    ⟨rfl, rfl⟩, fun hback => ?_⟩
  rw [heq] at hback
  have hmem := (hliving.inHand f).1 (.inl hf)
  rw [← hback] at hmem
  obtain ⟨pte, pos, count, hwindow⟩ := k₁.ummUmmapKmm_eq r 0x1000
  rcases (hfree f).1 hmem with hmem | ⟨u, -, hnames⟩
  · rw [hwindow] at hmem
    exact hused hmem
  · rw [hwindow] at hnames
    exact h.unnamed_of_free hf u (hpage ▸ hnames)

/-- The life with one window, which is opened on a new page and closed. -/
theorem frames_conserved_one_window : ∃ r k', r ≠ 0 ∧
    (pdeRun smallBoot).kernel.Returns (.ummMmapKmm 0x1000 0x1000 (449 * pageSize)) r k' ∧
      (ummFree (k'.ummUmmapKmm r 0x1000) (449 * pageSize)).pmm.freePages =
        (bootRun smallBoot).kernel.pmm.freePages ∧
      (ummFree (k'.ummUmmapKmm r 0x1000) (449 * pageSize)).pmm.pmmFreePageCount =
        (bootRun smallBoot).kernel.pmm.pmmFreePageCount := by
  obtain ⟨hbase, hcount, hdmmap⟩ := smallBoot_pages
  have hinit := pdeRun_init (b := smallBoot) (by rw [hbase, hcount]; decide) (by rw [hbase, hdmmap]; decide)
  have hliving := Living.of_init (Owned.of_reachable bootRun_reachable) hinit
  have h := hliving.owned.toTabled
  have hd := hliving.pde_mem
  obtain ⟨r, k', hr, hcall⟩ := pdeRun_window_page (b := smallBoot) (by rw [hbase, hcount]; decide)
    (by rw [hbase, hdmmap]; decide)
  obtain ⟨-, htable⟩ := pdeRun_recorded (b := smallBoot) (by rw [hbase, hcount]; decide)
    (by rw [hbase, hdmmap]; decide) (by decide : 1 * pageSize < pageOffset)
  have hone : ummPageCount 0x1000 0x1000 = 1 := by with_unfolding_all decide
  have hbase' : pageBase 0x1000 = 1 * pageSize := by decide
  have hkeeps : (pdeRun smallBoot).kernel.KeepsWindow 0x1000 0x1000
      (smallBoot.memBasePage * pageSize) := by
    refine .inr (.inl ⟨hone, fun _ => ⟨fun hhigh => absurd hhigh (by decide), ?_⟩⟩)
    rw [hbase']
    exact fun _ _ => htable
  have hopen : ((lifeMachine smallBoot (bootRun smallBoot) smallBoot.memBasePage).restrict
      UmmRun.KeepsCall).step (pdeRun smallBoot)
        (.ummMmapKmm 0x1000 0x1000 (smallBoot.memBasePage * pageSize))
        ⟨k', (pdeRun smallBoot).live⟩ :=
    ⟨hkeeps, rfl, ⟨by decide, by decide, _, hd, rfl⟩, r, hcall, rfl⟩
  obtain ⟨first, hfirst, hlast, -⟩ := h.ummMmapKmm_shown hd (by decide)
    (by rw [hone]; exact h.safeScan_one) hcall.choose_spec hr
  rw [hone] at hlast
  have hsafe : k'.SafeUmmap r 0x1000 := by
    have hend : ummPageCount r 0x1000 = 1 := by
      rw [Tabled.ummPageCount_eq (by lia)]
      lia
    exact fun hempty => Nat.one_ne_zero (hend.symm.trans hempty.2)
  have hclose : ((lifeMachine smallBoot (bootRun smallBoot) smallBoot.memBasePage).restrict
      UmmRun.KeepsCall).step ⟨k', (pdeRun smallBoot).live⟩ (.ummUmmapKmm r 0x1000)
        ⟨k'.ummUmmapKmm r 0x1000, (pdeRun smallBoot).live⟩ :=
    ⟨hsafe, trivial, ⟨by lia, by decide⟩, 0, ⟨rfl, rfl⟩, rfl⟩
  have hlife : ((lifeMachine smallBoot (bootRun smallBoot) smallBoot.memBasePage).restrict
      UmmRun.KeepsCall).Reachable ⟨k'.ummUmmapKmm r 0x1000, (pdeRun smallBoot).live⟩ :=
    .step (.step (.init hinit) hopen) hclose
  rw [hbase] at hcall hlife
  exact ⟨r, k', hr, hcall, frames_conserved bootRun_reachable hlife ⟨rfl, rfl⟩⟩

end Example

end BitchKernel
