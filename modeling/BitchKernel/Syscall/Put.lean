import BitchKernel.Binfmt.Elf
import BitchKernel.Mm.UmmTwin

/-!
# What a process learns of free memory

`sys_put` of `kernel/syscall/io.c` prints the characters it finds in a window on the pages of the
process. It and the handler of a page fault give the process frames from the page allocator, and
no path of the kernel clears a frame for a user, so a process can read and print what such a frame
held before. Nothing else of the free memory reaches it: for two kernels that differ in the
contents of free frames only, the calls answer alike, the page tables stay alike, and so does what
the process reads and prints from frames that were not free.
-/

namespace BitchKernel

open Lib

/-- A page fault of a process, or its system call `put`. -/
inductive UserCall
  | fault (attr : BitVec 32)
  | put (c len : BitVec 32)

namespace Kernel

/-- The character at `attr`, with the frame it is read from. -/
def readChar (k : Kernel) (attr : ℕ) : ℕ × BitVec 8 :=
  (k.getGloblPageAttr (attr / pageSize) / pageSize, k.loadByte attr)

/-- `sys_put`: its answer and the characters it prints. -/
def sysPut (k : Kernel) (fuel c len pde : ℕ) : Option ((ℕ × List (ℕ × BitVec 8)) × Kernel) :=
  (k.ummMmapKmm fuel c len pde).map fun (p, k) =>
    if p = 0 then ((0, []), k)
    else ((len, (List.range len).map fun i => k.readChar (add32 p i)), k.ummUmmapKmm p len)

/-- A call of the process with the directory `d`: its answer and what it prints. -/
def userCall (fuel d : ℕ) (k : Kernel) : UserCall → Option ((ℕ × List (ℕ × BitVec 8)) × Kernel)
  | .fault attr =>
      let (done, k) := k.ummHandler attr.toNat (d * pageSize)
      some ((done, []), k)
  | .put c len => k.sysPut fuel c.toNat len.toNat (d * pageSize)

/-! ## What the process observes -/

/-- The same answer and the same characters, apart from those read from frames in `F`. -/
def PrintsAlike (F : Finset ℕ) (x y : ℕ × List (ℕ × BitVec 8)) : Prop :=
  x.1 = y.1 ∧ List.Forall₂ (fun c c' => c.1 = c'.1 ∧ (c.1 ∉ F → c.2 = c'.2)) x.2 y.2

/-- The process has the same frames at the same addresses, and reads the same in them,
apart from those in `F`. -/
def ReadsAlike (F : Finset ℕ) (d : ℕ) (k k' : Kernel) : Prop :=
  ∀ a < pageOffset / pageSize, ∀ f, (k.Maps d a f ↔ k'.Maps d a f) ∧
    (k.Maps d a f → f ∉ F → k'.page f = k.page f)

/-- After every sequence of faults and puts the process has printed and reads alike, apart
from what it finds in the frames in `F`. -/
def ObservesAlike (F : Finset ℕ) (d : ℕ) (k k' : Kernel) : Prop :=
  ∀ fuel calls, Option.Rel (Agree (List.Forall₂ (PrintsAlike F)) (ReadsAlike F d))
    (runAll (userCall fuel d) calls k) (runAll (userCall fuel d) calls k')

/-- The two differ in the contents of free frames only. -/
def DifferInFree (k k' : Kernel) : Prop :=
  ∃ page, k' = k.withPage page ∧ ∀ p ∉ k.pmm.freePages, page p = k.page p

/-- The directory `d` and the page tables it names are allocated, or part of
`globl_mmap_pte`, and the directory is no page table of the user. -/
structure OwnPde (k : Kernel) (d : ℕ) : Prop extends k.Apart d where
  table_taken : ∀ m < 0x400, k.page d m ≠ 0 →
    k.IsGlobl (k.tableAt d m) ∨ k.tableAt d m ∉ k.pmm.freePages

variable {k k' : Kernel} {d : ℕ}

def AreTwins (F : Finset ℕ) (d : ℕ) (k k' : Kernel) : Prop :=
  ∃ page, k' = k.withPage page ∧ Twins F d k page

namespace Twins

variable {F : Finset ℕ} {page : ℕ → ℕ → ℕ}

theorem of_free (hbounded : k.Bounded) (hown : k.OwnPde d)
    (hpage : ∀ p ∉ k.pmm.freePages, page p = k.page p) : Twins k.pmm.freePages d k page where
  bounded := hbounded
  apart := hown.toApart
  same := hpage
  dir := hpage d hown.taken
  table m hm hentry := (hown.table_taken m hm hentry).imp_right (hpage _)

theorem readChar (h : Twins F d k page) (attr : ℕ) :
    (k.readChar attr).1 = ((k.withPage page).readChar attr).1 ∧
      ((k.readChar attr).1 ∉ F → (k.readChar attr).2 = ((k.withPage page).readChar attr).2) := by
  refine ⟨rfl, fun hframe => ?_⟩
  have hsame := h.same _ hframe
  unfold Kernel.readChar loadByte
  dsimp only [withPage_page]
  exact congrArg (fun words : ℕ → ℕ =>
    BitVec.ofNat 8 (words (attr % pageSize / 4) / 256 ^ (attr % 4))) hsame.symm

theorem sysPut (h : Twins F d k page) (fuel : ℕ) {c : ℕ} (hc : c < 2 ^ 32) (len : ℕ) :
    Option.Rel (Agree (PrintsAlike F) (AreTwins F d))
      (k.sysPut fuel c len (d * pageSize)) ((k.withPage page).sysPut fuel c len (d * pageSize)) := by
  unfold Kernel.sysPut
  refine OptionRel.map (h.ummMmapKmm fuel hc len) ?_
  rintro ⟨p, k₁⟩ - ⟨page₁, rfl, h₁⟩
  dsimp only at h₁ ⊢
  by_cases hp : p = 0
  · rw [if_pos hp, if_pos hp]
    exact ⟨⟨rfl, .nil⟩, page₁, rfl, h₁⟩
  · rw [if_neg hp, if_neg hp]
    obtain ⟨hummap, h₂⟩ := h₁.ummUmmapKmm p len
    refine ⟨⟨rfl, ?_⟩, page₁, hummap, h₂⟩
    rw [List.forall₂_map_left_iff, List.forall₂_map_right_iff, List.forall₂_same]
    exact fun i _ => h₁.readChar (add32 p i)

theorem userCall (h : Twins F d k page) (fuel : ℕ) (call : UserCall) :
    Option.Rel (Agree (PrintsAlike F) (AreTwins F d))
      (Kernel.userCall fuel d k call) (Kernel.userCall fuel d (k.withPage page) call) := by
  cases call with
  | fault attr =>
      obtain ⟨page', hcall, h'⟩ := h.ummHandler attr.toNat
      refine .some ⟨⟨?_, .nil⟩, page', ?_, h'⟩
      · exact (congrArg Prod.fst hcall).symm
      · exact congrArg Prod.snd hcall
  | put c len => exact h.sysPut fuel c.isLt len.toNat

theorem maps_iff (h : Twins F d k page) {a : ℕ} (ha : a < pageOffset / pageSize) (f : ℕ) :
    k.Maps d a f ↔ (k.withPage page).Maps d a f := by
  have hm : a / pagePteIndex < 0x400 := by lia
  have hdir := h.loadWord_dir (a / pagePteIndex)
  unfold Maps
  dsimp only
  rw [hdir]
  refine and_congr_right fun hodd => ?_
  have hentry : k.page d (a / pagePteIndex) ≠ 0 := by
    intro hzero
    rw [h.apart.loadWord_eq, hzero] at hodd
    exact absurd hodd (by decide)
  have htable := loadWord_of_same (h.table _ hm hentry) (a % pagePteIndex)
  rw [h.apart.loadWord_eq, htable]

theorem readsAlike (h : Twins F d k page) : ReadsAlike F d k (k.withPage page) :=
  fun _ ha f => ⟨h.maps_iff ha f, fun _ hf => h.same f hf⟩

end Twins

/-- **Free memory is seen in the frames a process is given, and nowhere else.** For every
reachable state, every directory whose pages are allocated and every other state that
differs in the contents of free frames only: over every sequence of page faults and puts
the calls return the same, the process has the same frames at the same addresses, and it
reads and prints the same, apart from the frames that were free. -/
theorem free_frames_confined {b : KernelBoot} (hk : (memMachine b).Reachable k) (hown : k.OwnPde d)
    (hdiff : k.DifferInFree k') : ObservesAlike k.pmm.freePages d k k' := by
  intro fuel calls
  obtain ⟨page, rfl, hpage⟩ := hdiff
  have htwins := Twins.of_free (Bounded.of_reachable hk) hown hpage
  have hstep : ∀ k₁ k₂ call, AreTwins k.pmm.freePages d k₁ k₂ →
      Option.Rel (Agree (PrintsAlike k.pmm.freePages) (AreTwins k.pmm.freePages d))
        (userCall fuel d k₁ call) (userCall fuel d k₂ call) := by
    rintro k₁ - call ⟨page₁, rfl, h₁⟩
    exact h₁.userCall fuel call
  refine OptionRel.mono (runAll_rel hstep calls ⟨page, rfl, htwins⟩) ?_
  rintro ⟨outs, k₁⟩ ⟨outs', -⟩ ⟨houts, page₁, rfl, h₁⟩
  exact ⟨houts, h₁.readsAlike⟩

end Kernel

theorem Kernel.kernelMmapPde_congr {k k' : Kernel} (h : k'.globlPtePage = k.globlPtePage) (m : ℕ) :
    k.kernelMmapPde m = k'.kernelMmapPde m := by
  unfold kernelMmapPde
  rw [h]

namespace Tabled

variable {b : KernelBoot} {k : Kernel} {live : Finset ℕ} {d attr f : ℕ}

/-- A live directory that shows the kernel in its upper half is one with allocated pages. -/
theorem ownPde (h : Tabled b k live) (hd : d ∈ live)
    (hupper : ∀ m, pdeIndex pageOffset ≤ m → k.page d m = k.kernelMmapPde m) : k.OwnPde d := by
  obtain ⟨harena, hused, -⟩ := h.used d (.dir d) trivial ⟨hd, rfl⟩
  have hbase := b.le_memBasePage
  have hmem := (Boot.mem_arena.1 harena).1
  have htable : ∀ m < pdeIndex pageOffset, k.page d m ≠ 0 →
      Names k.page live (k.tableAt d m) (.table d m) := by
    intro m hm hentry
    obtain ⟨t, ht⟩ := (h.entry d hd m hm).resolve_left hentry
    have hpage : k.tableAt d m = t := by
      unfold Kernel.tableAt
      rw [ht, getPageAttr_userEntry]
      exact Nat.mul_div_cancel t (by decide)
    rw [hpage]
    exact ⟨hd, hm, ht⟩
  refine ⟨⟨by omega, h.not_isGlobl harena, hused, fun m hm hentry => ?_⟩, fun m hm hentry => ?_⟩
  · exact (h.dir_ne_table hd (htable m hm hentry)).symm
  · by_cases hlow : m < pdeIndex pageOffset
    · exact .inr (h.used _ (.table d m) trivial (htable m hlow hentry)).2.1
    · left
      have hkernel := hupper m (Nat.le_of_not_lt hlow)
      unfold Kernel.kernelMmapPde at hkernel
      by_cases hglobl : pdeIndex pageOffset ≤ m ∧ m < pdeIndex pageOffset + globlPteNum
      · rw [if_pos hglobl] at hkernel
        have hpage : k.tableAt d m = k.globlPtePage + (m - pdeIndex pageOffset) := by
          unfold Kernel.tableAt
          rw [hkernel, getPageAttr_setPage, pageBase_mul]
          exact Nat.mul_div_cancel _ (by decide)
        rw [hpage]
        unfold Kernel.IsGlobl
        omega
      · rw [if_neg hglobl] at hkernel
        exact absurd hkernel hentry

/-- The page that the handler of a page fault gives the process holds what the frame held
before. -/
theorem ummHandler_shows (h : Tabled b k live) (hd : d ∈ live) (hattr : attr < pageOffset)
    (hphy : k.pmm.pmmAllocPage.1 = f * pageSize) (hf : f ≠ 0)
    (htable : (Kernel.ummTable { k with pmm := k.pmm.pmmAllocPage.2 } attr (d * pageSize)).1 ≠ 0) :
    (k.ummHandler attr (d * pageSize)).2.Maps d (attr / pageSize) f ∧
      (k.ummHandler attr (d * pageSize)).2.page f = k.page f := by
  have hf0 : f * pageSize ≠ 0 := Nat.mul_ne_zero hf (by decide)
  obtain ⟨htaken, ⟨g, hg, hgphy, -, hfree⟩ | ⟨hnone, -⟩⟩ := h.pmmAllocPage
  · obtain rfl : g = f := Nat.eq_of_mul_eq_mul_right (by decide) (hgphy.symm.trans hphy)
    unfold Kernel.ummHandler
    dsimp only
    rw [hphy, if_neg hf0, Tabled.setPage_user, Nat.mul_div_cancel g (by decide)]
    rcases htaken.setUmmValue_cases hd hattr g with ⟨pmm, heq, -, -⟩ |
      ⟨pmm, page, tables, heq, htabled, hentered⟩
    · have hdone := Kernel.setUmmValue_fst { k with pmm := k.pmm.pmmAllocPage.2 } hattr (userEntry g)
        (d * pageSize)
      rw [heq, if_neg htable] at hdone
      exact absurd hdone Nat.zero_ne_one
    · rw [heq]
      dsimp only
      rw [if_neg Nat.one_ne_zero]
      have ha : attr / pageSize < pageOffset / pageSize := by lia
      have hnames := (hentered.names g (.user d (attr / pageSize))).2 (.inr (.inl ⟨rfl, rfl⟩))
      refine ⟨(htabled.maps_iff hd ha).2 hnames, hentered.kept g fun u hu hnames' => ?_⟩
      -- the frame was free, so it is neither a directory nor a page table
      rcases (hentered.names g u).1 hnames' with ⟨hold, -⟩ | ⟨-, rfl⟩ | ⟨hnew, -⟩
      · exact (h.used g u hu hold).2.1 hg
      · exact hu
      · have hmem := hentered.fresh hnew
        dsimp only at hmem
        rw [hfree] at hmem
        exact Finset.notMem_erase g _ hmem
  · exact absurd (hphy.symm.trans hnone) hf0

end Tabled

section FirstPde

open Kernel

variable {b : KernelBoot}

theorem pdeRun_ownPde (hpages : b.memBasePage + 1 < b.memPageCount)
    (hdirect : b.memBasePage < b.dmmapPageCount) : (pdeRun b).kernel.OwnPde b.memBasePage := by
  have htabled := (Owned.of_reachable (pdeRun_reachable hpages hdirect)).toTabled
  refine htabled.ownPde (Finset.mem_singleton_self b.memBasePage) fun m _ => ?_
  obtain ⟨pmm, -, heq⟩ := ummAllocPde_vmmInit hpages hdirect
  rw [pdeRun, heq]
  dsimp only
  rw [Function.update_self]
  exact kernelMmapPde_congr rfl m

/-- The run of the first directory, with other words in the last page. -/
def markedRun (b : KernelBoot) : UmmRun :=
  ⟨(pdeRun b).kernel.storePage ((b.memPageCount - 1) * pageSize) fun _ => 1, {b.memBasePage}⟩

theorem markedRun_reachable (hpages : b.memBasePage + 3 < b.memPageCount)
    (hdirect : b.memBasePage + 1 < b.dmmapPageCount) :
    ((ummMachine b).restrict UmmRun.SafeCall).Reachable (markedRun b) := by
  refine .step (a := .store ((b.memPageCount - 1) * pageSize) fun _ => 1)
    (pdeRun_reachable (by omega) (by omega)) ⟨trivial, ⟨?_, ?_⟩, 0, ⟨rfl, rfl⟩, rfl⟩
  · rw [Nat.mul_div_cancel _ (by decide)]
    unfold pdeRun
    rw [Finset.mem_singleton]
    omega
  · intro d hd m hm
    obtain rfl : d = b.memBasePage := Finset.mem_singleton.1 hd
    exact .inl (pdeRun_unmapped (by omega) (by omega) m hm)

theorem fault_shows_marked (hpages : b.memBasePage + 3 < b.memPageCount)
    (hdirect : b.memBasePage + 1 < b.dmmapPageCount) :
    (pdeRun b).kernel.DifferInFree (markedRun b).kernel ∧
      ¬ ObservesAlike ∅ b.memBasePage (pdeRun b).kernel (markedRun b).kernel := by
  have hown := pdeRun_ownPde (b := b) (by omega) (by omega)
  have htabled := (Owned.of_reachable (pdeRun_reachable (b := b) (by omega) (by omega))).toTabled
  have hmarked := (Owned.of_reachable (markedRun_reachable hpages hdirect)).toTabled
  have hd : b.memBasePage ∈ (pdeRun b).live := Finset.mem_singleton_self _
  obtain ⟨hphy, htable⟩ := pdeRun_recorded hpages hdirect (by decide : 0 < pageOffset)
  have hlast : b.memPageCount - 1 ≠ 0 := by omega
  have hlast0 : (b.memPageCount - 1) * pageSize ≠ 0 := Nat.mul_ne_zero hlast (by decide)
  have hfree : b.memPageCount - 1 ∈ (pdeRun b).kernel.pmm.freePages := by
    rcases htabled.pmmAllocPage.2 with ⟨f, hf, hfphy, -, -⟩ | ⟨hnone, -⟩
    · obtain rfl : f = b.memPageCount - 1 :=
        Nat.eq_of_mul_eq_mul_right (by decide) (hfphy.symm.trans hphy)
      exact hf
    · exact absurd (hphy.symm.trans hnone) hlast0
  have hwords : (markedRun b).kernel = (pdeRun b).kernel.withPage
      (Function.update (pdeRun b).kernel.page (b.memPageCount - 1) fun _ => 1) := by
    unfold markedRun storePage withPage
    dsimp only
    rw [Nat.mul_div_cancel _ (by decide)]
  have hdiffer : ∀ p ∉ (pdeRun b).kernel.pmm.freePages,
      Function.update (pdeRun b).kernel.page (b.memPageCount - 1) (fun _ => 1) p =
        (pdeRun b).kernel.page p := by
    intro p hp
    refine Function.update_of_ne ?_ _ _
    rintro rfl
    exact hp hfree
  refine ⟨⟨_, hwords, hdiffer⟩, fun hobserves => ?_⟩
  have htwins := Twins.of_free (Bounded.of_reachable (pdeRun_memReachable b)) hown hdiffer
  -- the same frame and the same page table in both runs
  have hphy' : (markedRun b).kernel.pmm.pmmAllocPage.1 = (b.memPageCount - 1) * pageSize := hphy
  have htable' : (ummTable { (markedRun b).kernel with pmm := (markedRun b).kernel.pmm.pmmAllocPage.2 } 0
      (b.memBasePage * pageSize)).1 ≠ 0 := by
    obtain ⟨⟨page, halike, -⟩, -⟩ := htwins.pmmAllocPage.ummTable (by decide : 0 < pageOffset)
    intro hzero
    rw [hwords] at hzero
    exact htable ((congrArg Prod.fst halike).symm.trans hzero)
  obtain ⟨hmaps, hpage⟩ := htabled.ummHandler_shows hd (by decide : 0 < pageOffset) hphy hlast htable
  obtain ⟨-, hpage'⟩ := hmarked.ummHandler_shows (Finset.mem_singleton_self b.memBasePage)
    (by decide : 0 < pageOffset) hphy' hlast htable'
  have hreads : ReadsAlike ∅ b.memBasePage
      ((pdeRun b).kernel.ummHandler 0 (b.memBasePage * pageSize)).2
      ((markedRun b).kernel.ummHandler 0 (b.memBasePage * pageSize)).2 := by
    cases hobserves 0 [.fault 0] with
    | some hagree => exact hagree.2
  have hsame := (hreads 0 (by decide) (b.memPageCount - 1)).2 hmaps (Finset.notMem_empty _)
  rw [hpage, hpage', hwords, withPage_page, Function.update_self] at hsame
  have hzero : (pdeRun b).kernel.page (b.memPageCount - 1) 0 = 0 := by
    obtain ⟨pmm, -, heq⟩ := ummAllocPde_vmmInit (b := b) (by omega) (by omega)
    rw [pdeRun, heq]
    dsimp only
    rw [Function.update_of_ne (by omega)]
  exact absurd ((congrFun hsame 0).trans hzero) Nat.one_ne_zero

end FirstPde

section Example

open Kernel

/-- Two states of a machine with five free pages differ in the contents of a free frame,
and a page fault shows the process what it holds. -/
theorem fault_shows_free_frame : ∃ k k' d, (memMachine smallBoot).Reachable k ∧ k.OwnPde d ∧
    k.DifferInFree k' ∧ ¬ ObservesAlike ∅ d k k' := by
  obtain ⟨hbase, hcount, hdmmap⟩ := smallBoot_pages
  obtain ⟨hdiffer, hshows⟩ := fault_shows_marked (b := smallBoot)
    (by rw [hbase, hcount]; decide) (by rw [hbase, hdmmap]; decide)
  exact ⟨_, _, _, pdeRun_memReachable smallBoot,
    pdeRun_ownPde (by rw [hbase, hcount]; decide) (by rw [hbase, hdmmap]; decide), hdiffer, hshows⟩

/-- The same two states, apart from the five frames. -/
theorem free_frames_confined_marked : ObservesAlike (pdeRun smallBoot).kernel.pmm.freePages
    smallBoot.memBasePage (pdeRun smallBoot).kernel (markedRun smallBoot).kernel := by
  obtain ⟨hbase, hcount, hdmmap⟩ := smallBoot_pages
  obtain ⟨hdiffer, -⟩ := fault_shows_marked (b := smallBoot)
    (by rw [hbase, hcount]; decide) (by rw [hbase, hdmmap]; decide)
  exact free_frames_confined (pdeRun_memReachable smallBoot)
    (pdeRun_ownPde (by rw [hbase, hcount]; decide) (by rw [hbase, hdmmap]; decide)) hdiffer

end Example

end BitchKernel
