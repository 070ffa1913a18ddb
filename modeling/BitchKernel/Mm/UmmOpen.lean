import BitchKernel.Mm.UmmWindow
import BitchKernel.Mm.VmmAtomic

/-!
# A window over a directory, opened and closed

On a machine all of whose pages are direct pages, the window that `umm_mmap_kmm` opens for a
range shows what the directory has there, once the page tables it needs are found. The pages
that a directory had before stay where they are, with the words they had. A window may take
all pages down to the first one, which leaves `vmm_pos` outside of the kernel window:
`Settled` is what holds wherever `vmm_pos` points.
-/

namespace BitchKernel

open Lib

namespace Kernel

variable {k : Kernel} {count p : ℕ}

/-- From `vmm_pos` down the kernel window has a free run of `count` pages. -/
def HasRun (k : Kernel) (count : ℕ) : Prop :=
  k.vmmPos < k.vmmapPageCount ∧
    ∃ q ≤ k.vmmPos, count ≤ q + 1 ∧ ∀ j < count, k.getVmmPage (q - j) = 0

theorem HasRun.inside (h : k.HasRun count) (hsettles : k.VmmSettles count p) :
    k.RunInside count p := by
  obtain ⟨hpos, q, hq, hcount, hfree⟩ := h
  obtain ⟨hqp, hp⟩ := hsettles.le_of_run hpos hq hcount hfree
  exact ⟨hp, by omega⟩

/-- For each new page of the range there is a page table, or a direct page to make one. -/
def FindsTables (k : Kernel) (attr len pde : ℕ) : Prop :=
  if ummPageCount attr len = 1 then k.Recorded (pageBase attr) pde
  else ∀ p, k.VmmSettles (ummPageCount attr len) p →
    EachPage (fun k attr => k.Recorded attr pde) (add32 (sub32 p (ummPageCount attr len)) 1)
      (pageBase attr) pde (ummPageCount attr len) 0 k

/-- The pages of the directories are where they were, with the words they had. -/
def KeepsUsers (k k' : Kernel) (live : Finset ℕ) : Prop :=
  ∀ f d a, Names k.page live f (.user d a) → Names k'.page live f (.user d a) ∧ k'.page f = k.page f

namespace KeepsUsers

variable {k₁ k₂ k₃ : Kernel} {live : Finset ℕ}

theorem of_page_eq (h : k₂.page = k₁.page) : KeepsUsers k₁ k₂ live := by
  intro f d a hf
  rw [h]
  exact ⟨hf, rfl⟩

theorem trans (h₁ : KeepsUsers k₁ k₂ live) (h₂ : KeepsUsers k₂ k₃ live) : KeepsUsers k₁ k₃ live := by
  intro f d a hf
  obtain ⟨hf₂, hwords⟩ := h₁ f d a hf
  obtain ⟨hf₃, hwords'⟩ := h₂ f d a hf₂
  exact ⟨hf₃, hwords'.trans hwords⟩

end KeepsUsers

end Kernel

namespace Owned

variable {b : KernelBoot} {k k₁ k' : Kernel} {live tables : Finset ℕ} {d attr : ℕ}

theorem keepsUsers_of_entered (h : Owned b k' live) {g a : ℕ}
    (hentered : Entered k₁ k' live g d a tables) (hpage : k₁.page = k.page)
    (hnone : ∀ x, ¬ Names k.page live x (.user d a)) : k.KeepsUsers k' live := by
  intro f d' a' hf
  have hf' : Names k'.page live f (.user d' a') := by
    refine (hentered.names f _).2 (.inl ⟨hpage ▸ hf, fun heq => ?_⟩)
    rw [heq] at hf
    exact hnone f hf
  refine ⟨hf', ?_⟩
  rw [hentered.kept f fun u hu hu' => ?_, hpage]
  rw [h.single f u _ hu' hf'] at hu
  exact hu

theorem pdePage_keepsUsers (h : Owned b k live) (hd : d ∈ live)
    (htrans : k.Translated attr (d * pageSize)) {phyAttr : ℕ}
    (hcall : k.pdePage attr (d * pageSize) = (phyAttr, k')) : k.KeepsUsers k' live := by
  have howned := (h.of_pdePage hd (fun _ => htrans) hcall).1
  by_cases hattr : attr < pageOffset
  · rcases h.toTabled.pdePage_cases hd hattr with ⟨f, -, heq, -⟩ | ⟨hunmapped, ⟨pmm, heq, -⟩ | hnew⟩
    · obtain rfl := (Prod.mk.inj (heq.symm.trans hcall)).2
      exact .of_page_eq rfl
    · obtain rfl := (Prod.mk.inj (heq.symm.trans hcall)).2
      exact .of_page_eq rfl
    obtain ⟨f, -, -, -, -, ⟨pmm, heq, -⟩ | ⟨pmm, page, tables, heq, -, hentered, -⟩⟩ := hnew
    · obtain rfl := (Prod.mk.inj (heq.symm.trans hcall)).2
      exact .of_page_eq rfl
    · obtain rfl := (Prod.mk.inj (heq.symm.trans hcall)).2
      exact howned.keepsUsers_of_entered hentered rfl (h.unnamed_of_unmapped hd hattr hunmapped)
  · obtain ⟨r, pmm, heq, -⟩ := h.toTabled.pdePage_high (Nat.le_of_not_lt hattr) (d * pageSize)
    obtain rfl := (Prod.mk.inj (heq.symm.trans hcall)).2
    exact .of_page_eq rfl

theorem ummMmapOne_keepsUsers (h : Owned b k live) (hd : d ∈ live) {fuel r : ℕ}
    (hcall : k.ummMmapOne fuel attr (d * pageSize) = some (r, k')) : k.KeepsUsers k' live := by
  have howned := (h.of_ummMmapOne hd hcall).1
  rcases h.ummMmapOne_outcome hd hcall with ⟨-, pmm, rfl, -⟩ |
    ⟨first, pte, pos, count, f, -, -, -, -, -, ⟨-, rfl, -⟩ | ⟨hunmapped, -, -, -, -, -, hnew⟩⟩
  · exact .of_page_eq rfl
  · exact .of_page_eq rfl
  rcases hnew with ⟨-, pmm, rfl, -⟩ | ⟨hattr, -, pmm, page, tables, rfl, -, hentered⟩
  · exact .of_page_eq rfl
  · exact howned.keepsUsers_of_entered hentered rfl (h.unnamed_of_unmapped hd hattr hunmapped)

end Owned

/-- The directories own their pages, wherever `vmm_pos` points, on a machine as it was booted. -/
structure Settled (b : KernelBoot) (k : Kernel) (live : Finset ℕ) : Prop where
  dmmap : k.dmmapPageCount = b.dmmapPageCount
  owned : Owned b { k with vmmPos := 0 } live

namespace Settled

variable {b : KernelBoot} {k k' : Kernel} {live : Finset ℕ} {d attr len : ℕ}

theorem of_owned (h : Owned b k live) (hdmmap : k.dmmapPageCount = b.dmmapPageCount) :
    Settled b k live := by
  have hpos : k.vmmPos < k.vmmapPageCount := h.window.vmmPos_lt
  exact ⟨hdmmap, h.of_window (h.window.of_direct rfl (Nat.zero_lt_of_lt hpos) fun _ _ => rfl)⟩

theorem owned_of_lt (h : Settled b k live) (hpos : k.vmmPos < k.vmmapPageCount) : Owned b k live :=
  h.owned.of_window (h.owned.window.of_direct rfl hpos fun _ _ => rfl)

theorem of_reachable {s : UmmRun} (hs : ((ummMachine b).restrict UmmRun.SafeCall).Reachable s) :
    Settled b s.kernel s.live := by
  refine of_owned (Owned.of_reachable hs) ?_
  refine hs.invariant (I := fun s => s.kernel.dmmapPageCount = b.dmmapPageCount) ?_ ?_
  · rintro s ⟨memory, behind, page, rfl⟩
    exact Kernel.vmmInit_dmmapPageCount b memory behind page
  · rintro s call s' hs ⟨-, -, r, hcall, -⟩
    exact (Kernel.Keeps.of_returns hcall).dmmapPageCount.trans hs

theorem of_window (h : Settled b k live) {pte : ℕ → ℕ} {pos count : ℕ}
    (hpte : ∀ x < k.dmmapPageCount, pte x = k.globlMmapPte x) :
    Settled b { k with globlMmapPte := pte, vmmPos := pos, vmmFreePageCount := count } live :=
  ⟨h.dmmap, h.owned.of_window (h.owned.window.of_direct rfl h.owned.window.vmmPos_lt hpte)⟩

/-- Closing a window leaves the pages of the directories alone. -/
theorem ummUmmapKmm (h : Settled b k live) (hattr : attr < 2 ^ 32) (len : ℕ) :
    Settled b (k.ummUmmapKmm attr len) live ∧ (k.ummUmmapKmm attr len).page = k.page := by
  obtain ⟨pte, pos, count, heq, hkept, -⟩ := Owned.ummUmmapKmm_direct k hattr len
  rw [heq]
  exact ⟨h.of_window hkept, rfl⟩

theorem vmmMmapPdePage (h : Settled b k live) (hmemory : b.memPageCount ≤ dmmapPageMax) (hd : d ∈ live)
    {a count fuel p : ℕ} (ha : a + count ≤ pageOffset / pageSize) (hrun : k.HasRun count)
    (htables : ∀ q, k.VmmSettles count q →
      Kernel.EachPage (fun k attr => k.Recorded attr (d * pageSize)) (add32 (sub32 q count) 1)
        (a * pageSize) (d * pageSize) count 0 k)
    (hcall : k.vmmMmapPdePage fuel (a * pageSize) count (d * pageSize) = some (p, k')) (hp : p ≠ 0) :
    Settled b k' live ∧ k.KeepsUsers k' live ∧ ∃ first, p = first * pageSize ∧
      first + count ≤ globlPageNum ∧ ∀ j < count, ∃ f, k'.getGloblPageAttr (first + j) = f * pageSize ∧
        Names k'.page live f (.user d (a + j)) := by
  have howned := h.owned_of_lt hrun.1
  have hpages := k.page_count
  have hall : b.memPageCount ≤ k.dmmapPageCount := by
    rw [h.dmmap]
    unfold KernelBoot.dmmapPageCount
    split <;> omega
  rcases Kernel.vmmMmapPdePage_cases hcall with ⟨-, rfl, -⟩ |
    ⟨q, kMapped, hfound, ⟨hloop, hr, hk⟩ | ⟨-, rfl, -⟩⟩
  · exact absurd rfl hp
  · have hsettles := Kernel.vmmSettles_of_scan (Nat.lt_trans hrun.1 (by lia)) (by lia) hfound
    have hinside := hrun.inside hsettles
    have hlast : k.dmmapPageCount + (q + 1 - count) + count ≤ globlPageNum := by
      have hle := hinside.1
      have hlen := hinside.2
      have hpos := hrun.1
      omega
    have hslot : ∀ kMid : Kernel, kMid.dmmapPageCount = k.dmmapPageCount → ∀ j < count,
        kMid.getGloblPageIndex (add32 (add32 (sub32 q count) 1) j) =
          k.dmmapPageCount + (q + 1 - count) + j := by
      intro kMid hdmmap j hj
      unfold Kernel.getGloblPageIndex
      rw [hdmmap, Nat.add_assoc]
      exact hinside.slot_eq hrun.1 hj
    have hbehind : ∀ kMid : Kernel, kMid.dmmapPageCount = k.dmmapPageCount → ∀ j < count,
        k.dmmapPageCount ≤ kMid.getGloblPageIndex (add32 (add32 (sub32 q count) 1) j) := by
      intro kMid hdmmap j hj
      rw [hslot kMid hdmmap j hj]
      omega
    have henters := (htables q hsettles).and (howned.toTabled.eachPage_of_tabled hd
      (fun k attr hk hdirect => hk.translated (hdirect ▸ hall) attr (d * pageSize)) hbehind ha count
      0 k (Nat.zero_add count) rfl)
    obtain ⟨-, -, -, hshows⟩ := howned.toTabled.vmmMmapPdeLoop_coherent hd hslot
      (Nat.le_add_right _ _) hlast ha count 0 k kMapped (Nat.zero_add count)
      rfl hloop
    obtain ⟨hmapped, hdmmap, -, hkeeps⟩ := howned.of_vmmMmapPdeLoop (I := fun kMid =>
        k.KeepsUsers kMid live) hd hbehind (fun _ _ hC _ => hC.2)
      (fun kMid attr phyAttr k₁ hMid hI hC hpage => hI.trans (hMid.pdePage_keepsUsers hd hC.2 hpage))
      (fun _ _ hI => hI) (.of_page_eq rfl) henters hloop
    have hsettled := of_owned hmapped (hdmmap.trans h.dmmap)
    refine ⟨?_, ?_, k.dmmapPageCount + (q + 1 - count), ?_, hlast, ?_⟩
    · rw [hk]
      exact hsettled.of_window fun _ _ => rfl
    · rw [hk]
      exact hkeeps
    · rw [hr]
      unfold Kernel.vmmTake Kernel.getGloblPageIndex
      dsimp only
      rw [hdmmap]
      exact hinside.windowAddress_eq hrun.1
    · rw [hk]
      exact fun j hj => hshows.1 henters j (Nat.zero_le j) hj
  · exact absurd rfl hp

/-- What the window that `umm_mmap_kmm` returns for a range below `PAGE_OFFSET` shows, and what
opening it leaves alone. -/
theorem ummMmapKmm (h : Settled b k live) (hmemory : b.memPageCount ≤ dmmapPageMax) (hd : d ∈ live)
    {fuel r : ℕ} (hin : attr + len ≤ pageOffset) (hrun : k.HasRun (Kernel.ummPageCount attr len))
    (htables : k.FindsTables attr len (d * pageSize))
    (hcall : k.ummMmapKmm fuel attr len (d * pageSize) = some (r, k')) (hr : r ≠ 0) :
    Settled b k' live ∧ k.KeepsUsers k' live ∧ k'.Coherent r attr len d ∧ r < 2 ^ 32 := by
  have howned := h.owned_of_lt hrun.1
  have hcount := Tabled.ummPageCount_eq hin
  have hreturns : k.Returns (.ummMmapKmm attr len (d * pageSize)) r k' := ⟨fuel, hcall⟩
  have hdmmap := (Kernel.Keeps.of_returns hreturns).dmmapPageCount.trans h.dmmap
  rcases Kernel.ummMmapKmm_cases hcall with ⟨-, hzero, -⟩ | ⟨p, -, hreturn, ⟨hone, hwindow⟩ | ⟨hmany, hwindow⟩⟩
  · exact absurd hzero hr
  · have hsettled := of_owned (howned.of_ummMmapOne hd hwindow).1 hdmmap
    obtain ⟨first, hfirst, hlast, -, hcoherent⟩ := howned.toTabled.ummMmapKmm_shown hd hin
      (by rw [hone]; exact howned.toTabled.safeScan_one) hcall hr
    refine ⟨hsettled, howned.ummMmapOne_keepsUsers hd hwindow, ?_, by lia⟩
    by_cases hlen : 0 < len
    · rw [hcoherent hlen, Kernel.EntersPages, if_pos hone]
      rw [Kernel.FindsTables, if_pos hone] at htables
      exact htables
    · exact fun i hi => absurd hi (by omega)
  · have hp : p ≠ 0 := by
      rintro rfl
      exact hr hreturn
    have hbase : pageBase attr = attr / pageSize * pageSize := rfl
    rw [Kernel.FindsTables, if_neg hmany, hbase] at htables
    rw [hbase] at hwindow
    obtain ⟨hsettled, hkeeps, first, hfirst, hlast, hshows⟩ :=
      h.vmmMmapPdePage hmemory hd (by rw [hcount]; lia) hrun htables hwindow hp
    have haddress : r = first * pageSize + attr % pageSize := by
      rw [hreturn, if_neg hp, hfirst]
      exact Tabled.windowReturn_eq (by lia) (by lia)
    refine ⟨hsettled, hkeeps, ?_, by lia⟩
    by_cases hlen : 0 < len
    · rw [haddress]
      exact (hsettled.owned.toTabled.coherent_iff hd hin hlen hlast).2 hshows
    · exact fun i hi => absurd hi (by omega)

end Settled

end BitchKernel
