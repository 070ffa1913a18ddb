import BitchKernel.Mm.PmmSafety
import BitchKernel.Mm.VmmSpec

/-!
# When a failed page allocation leaves the state alone

`vmm_alloc_page` maps the pages of a run one by one, and when the frames run out it
takes back what it mapped. That loop names the entry one above each mapped one, and
removes an entry before it reads the frame to free: it frees the frame 0 for each
page and leaves the frames it took allocated. So a failure is without effect only
when it comes before the first page.
-/

namespace BitchKernel

open Lib

namespace Pmm

/-- The pages `pmm_alloc_page` can hand out after it took the page `p`. -/
theorem reach_takePage {s : Pmm} {p : ℕ} (hp : p ∈ s.reach) (hmax : ∀ q ∈ s.reach, q ≤ p) :
    (s.takePage p).reach = s.reach.erase p := by
  obtain ⟨-, hhead, -⟩ := mem_reach.1 hp
  ext q
  simp only [mem_reach, freePages_takePage, Finset.mem_erase, takePage_headPos, takePage_tailPos]
  constructor
  · rintro ⟨⟨hne, hfree⟩, hq, hqp⟩
    have htail := (mem_reach.1 hp).2.2
    exact ⟨hne, hfree, hq, by omega⟩
  · rintro ⟨hne, hfree, hq, htail⟩
    have hle := hmax q (mem_reach.2 ⟨hfree, hq, htail⟩)
    exact ⟨⟨hne, hfree⟩, hq, by omega⟩

theorem mem_reach_pmmInit {b : Boot} {memory : Bitmap} {p : ℕ} :
    p ∈ (pmmInit b memory).reach ↔ b.memBasePage < p ∧ p < b.memPageCount := by
  have hlt := b.memPageCount_lt
  have hle := b.le_memPageCount
  have htail : (pmmInit b memory).pmmTailPos = b.memPageCount - 1 :=
    sub32_of_le (by omega) (by omega)
  have hhead : (pmmInit b memory).pmmHeadPos = b.memBasePage := rfl
  rw [mem_reach, freePages_pmmInit, Boot.mem_arena, htail, hhead]
  omega

theorem address_ne_zero {s : Pmm} (hbits : s.pmmBitmapLength ≤ 0x20000) {p : ℕ} (hp : p ∈ s.reach) :
    mul32 p pageSize ≠ 0 := by
  obtain ⟨hfree, hhead, -⟩ := mem_reach.1 hp
  have hlt := (mem_freePages.1 hfree).1
  rw [mul32_of_lt (by lia)]
  exact Nat.mul_ne_zero (by omega) (by decide)

end Pmm

namespace Kernel

variable {k k' : Kernel} {count : ℕ}

/-! ## The states of a run -/

/-- `vmm_pos` is a 32-bit word, and the bitmap has the length `pmm_init` gave it. -/
structure Bounded (k : Kernel) : Prop where
  vmmPos_lt : k.vmmPos < 2 ^ 32
  pmmBitmapLength_le : k.pmm.pmmBitmapLength ≤ 0x20000

/-- What no call changes; and `vmm_pos` stays a 32-bit word. -/
structure Keeps (k k' : Kernel) : Prop where
  dmmapPageCount : k'.dmmapPageCount = k.dmmapPageCount
  length : k'.pmm.pmmBitmapLength = k.pmm.pmmBitmapLength
  vmmPos_lt : k.vmmPos < 2 ^ 32 → k'.vmmPos < 2 ^ 32

namespace Keeps

theorem refl (k : Kernel) : Keeps k k := ⟨rfl, rfl, id⟩

theorem trans {k₁ k₂ k₃ : Kernel} (h₁ : Keeps k₁ k₂) (h₂ : Keeps k₂ k₃) : Keeps k₁ k₃ :=
  ⟨h₂.dmmapPageCount.trans h₁.dmmapPageCount, h₂.length.trans h₁.length,
    fun h => h₂.vmmPos_lt (h₁.vmmPos_lt h)⟩

theorem vmmTake (k : Kernel) (p count : ℕ) : Keeps k (k.vmmTake p count).2 := by
  refine ⟨rfl, rfl, fun h => ?_⟩
  unfold Kernel.vmmTake
  dsimp only
  split
  · exact Word.sub_lt 32 _ _
  · exact h

theorem raiseVmmPos (k : Kernel) (index count : ℕ) : Keeps k (k.raiseVmmPos index count) := by
  unfold Kernel.raiseVmmPos
  dsimp only
  split
  · exact ⟨rfl, rfl, fun _ => Word.sub_lt 32 _ _⟩
  · exact refl k

theorem vmmAllocPage {fuel r : ℕ} (hcall : k.vmmAllocPage fuel count = some (r, k')) :
    Keeps k k' := by
  refine vmmAllocPage_rule (refl k) (fun head => ?_) (fun k₁ p h => h.trans (vmmTake k₁ p count)) hcall
  obtain ⟨done, pmm, pte, heq, hlen, -⟩ := vmmAllocLoop_eq head count 0 k
  rw [heq]
  exact ⟨rfl, hlen, id⟩

theorem vmmMmapPdePage {fuel attr pde r : ℕ}
    (hcall : k.vmmMmapPdePage fuel attr count pde = some (r, k')) : Keeps k k' := by
  refine vmmMmapPdePage_rule (refl k) (fun head => ?_) (fun k₁ p h => h.trans (vmmTake k₁ p count)) hcall
  obtain ⟨done, pmm, page, pte, heq, hlen, -⟩ := vmmMmapPdeLoop_eq head attr pde count 0 k
  rw [heq]
  exact ⟨rfl, hlen, id⟩

theorem vmmMmapPage (k : Kernel) (phyAttr : ℕ) : Keeps k (k.vmmMmapPage phyAttr).2 := by
  unfold Kernel.vmmMmapPage
  split
  · exact refl k
  · rcases k.vmmMmapLoop_cases phyAttr k.vmmPos with hnone | ⟨q, pte, -, hq, -, hloop, -⟩
    · rw [hnone]
      exact refl k
    · rw [hloop]
      exact ⟨rfl, rfl, lt_of_le_of_lt hq⟩

theorem vmmFreePage (k : Kernel) (attr count : ℕ) : Keeps k (k.vmmFreePage attr count) := by
  have hlen := Pmm.pmmFreePage_length k.pmm attr count
  obtain ⟨pmm, pte, hloop, hlen', -⟩ :=
    vmmFreeLoop_eq (attr / pageSize - k.dmmapPageCount) count k
  have hfreed : Keeps k { k with pmm := pmm, globlMmapPte := pte } := ⟨rfl, hlen', id⟩
  unfold Kernel.vmmFreePage
  dsimp only
  split
  · exact ⟨rfl, hlen, id⟩
  · rw [hloop]
    split
    · have hraised := hfreed.trans (raiseVmmPos _ (attr / pageSize - k.dmmapPageCount) count)
      exact hraised.trans ⟨rfl, rfl, id⟩
    · exact ⟨rfl, rfl, id⟩

theorem vmmUmmapPage (k : Kernel) (attr count : ℕ) : Keeps k (k.vmmUmmapPage attr count) := by
  obtain ⟨pte, hloop, -⟩ := vmmUmmapLoop_eq (attr / pageSize - k.dmmapPageCount) count k
  have hremoved : Keeps k { k with globlMmapPte := pte } := ⟨rfl, rfl, id⟩
  unfold Kernel.vmmUmmapPage
  dsimp only
  split
  · rw [hloop]
    split
    · have hraised := hremoved.trans (raiseVmmPos _ (attr / pageSize - k.dmmapPageCount) count)
      exact hraised.trans ⟨rfl, rfl, id⟩
    · exact ⟨rfl, rfl, id⟩
  · exact refl k

theorem setUmmValue (k : Kernel) (attr value pde : ℕ) :
    Keeps k (k.setUmmValue attr value pde).2 := by
  obtain ⟨r, pmm, page, hset, hlen⟩ := k.setUmmValue_eq attr value pde
  rw [hset]
  exact ⟨rfl, hlen, id⟩

theorem ummHandler (k : Kernel) (attr pde : ℕ) : Keeps k (k.ummHandler attr pde).2 := by
  have htaken : Keeps k { k with pmm := k.pmm.pmmAllocPage.2 } :=
    ⟨rfl, k.pmm.pmmAllocPage_length, id⟩
  have hset := htaken.trans (setUmmValue _ attr (setPage k.pmm.pmmAllocPage.1 pageUser) pde)
  unfold Kernel.ummHandler
  dsimp only
  split
  · exact htaken
  · split
    · exact hset.trans ⟨rfl, Pmm.pmmFreePage_length _ _ _, id⟩
    · exact hset

theorem ummAllocPde (k : Kernel) : Keeps k k.ummAllocPde.2 := by
  obtain ⟨pde, pmm, halloc, hlen⟩ := k.dmmAllocPage_eq 1
  unfold Kernel.ummAllocPde
  rw [halloc]
  dsimp only
  split
  · exact ⟨rfl, hlen, id⟩
  · exact ⟨rfl, hlen, id⟩

theorem ummMmapKmm {fuel attr len pde r : ℕ}
    (hcall : k.ummMmapKmm fuel attr len pde = some (r, k')) : Keeps k k' :=
  ummMmapKmm_rule (refl k) (fun _ _ halloc => vmmAllocPage halloc)
    (fun _ _ h => h.trans (setUmmValue _ _ _ _)) (vmmMmapPage k) (fun _ _ hpde => vmmMmapPdePage hpde)
    hcall

theorem dmmFreePage (k : Kernel) (attr count : ℕ) : Keeps k (k.dmmFreePage attr count) :=
  ⟨rfl, Pmm.pmmFreePage_length k.pmm attr count, id⟩

theorem ummFreeTable (k : Kernel) (pte n : ℕ) : Keeps k (Kernel.ummFreeTable pte n k) := by
  induction n with
  | zero => exact refl k
  | succ n ih =>
      rw [Kernel.ummFreeTable]
      split
      · exact ih.trans (dmmFreePage _ _ 1)
      · exact ih

theorem ummFreeLoop (k : Kernel) (pde m : ℕ) : Keeps k (Kernel.ummFreeLoop pde m k) := by
  induction m with
  | zero => exact refl k
  | succ m ih =>
      rw [Kernel.ummFreeLoop]
      split
      · exact (ih.trans (ummFreeTable _ _ pagePteIndex)).trans (dmmFreePage _ _ 1)
      · exact ih

theorem ummFree (k : Kernel) (pde : ℕ) : Keeps k (k.ummFree pde) :=
  (ummFreeLoop k pde _).trans (dmmFreePage _ pde 1)

theorem of_returns {call : MemCall} {r : ℕ} (hcall : k.Returns call r k') : Keeps k k' := by
  cases call with
  | vmmAllocPage count =>
      obtain ⟨fuel, hcall⟩ := hcall
      exact vmmAllocPage hcall
  | vmmFreePage attr count => exact hcall.2 ▸ vmmFreePage k attr count
  | vmmMmapPage phyAttr => exact hcall.2 ▸ vmmMmapPage k phyAttr
  | vmmMmapPdePage attr count pde =>
      obtain ⟨fuel, hcall⟩ := hcall
      exact vmmMmapPdePage hcall
  | vmmUmmapPage attr count => exact hcall.2 ▸ vmmUmmapPage k attr count
  | dmmAllocPage count =>
      obtain ⟨r', pmm, halloc, hlen⟩ := k.dmmAllocPage_eq count
      rw [Returns, halloc] at hcall
      exact hcall.2 ▸ ⟨rfl, hlen, id⟩
  | dmmFreePage attr count => exact hcall.2 ▸ dmmFreePage k attr count
  | ummAllocPde => exact hcall.2 ▸ ummAllocPde k
  | ummHandler attr pde => exact hcall.2 ▸ ummHandler k attr pde
  | ummMmapKmm attr len pde =>
      obtain ⟨fuel, hcall⟩ := hcall
      exact ummMmapKmm hcall
  | ummUmmapKmm attr len => exact hcall.2 ▸ vmmUmmapPage k (pageBase attr) (ummPageCount attr len)
  | ummFree pde => exact hcall.2 ▸ ummFree k pde
  | store table words => exact hcall.2 ▸ ⟨rfl, rfl, id⟩

end Keeps

theorem dmmapPageCount_of_reachable {b : KernelBoot} (hk : (memMachine b).Reachable k) :
    k.dmmapPageCount = b.dmmapPageCount := by
  induction hk with
  | init hinit =>
      obtain ⟨memory, behind, page, rfl⟩ := hinit
      obtain ⟨pte, hinit, -⟩ := vmmInit_eq b memory behind page
      rw [hinit]
  | step _ hstep ih =>
      obtain ⟨r, hcall⟩ := hstep
      rw [(Keeps.of_returns hcall).dmmapPageCount, ih]

namespace Bounded

theorem of_reachable {b : KernelBoot} (hk : (memMachine b).Reachable k) : k.Bounded := by
  refine hk.invariant (fun k hinit => ?_) fun k call k' hk hstep => ?_
  · obtain ⟨memory, behind, page, rfl⟩ := hinit
    obtain ⟨pte, hinit, -⟩ := vmmInit_eq b memory behind page
    rw [hinit]
    refine ⟨by dsimp only; lia, ?_⟩
    dsimp only
    rw [Pmm.pmmInit_length]
    exact b.pmmBitmapLength_le
  · obtain ⟨r, hcall⟩ := hstep
    have hkeeps := Keeps.of_returns hcall
    exact ⟨hkeeps.vmmPos_lt hk.vmmPos_lt, hkeeps.length ▸ hk.pmmBitmapLength_le⟩

end Bounded

/-- The mapping loop goes through exactly when there are enough frames. -/
theorem vmmAllocLoop_fst (head rem i : ℕ) (k : Kernel) (hbits : k.pmm.pmmBitmapLength ≤ 0x20000) :
    (vmmAllocLoop head rem i k).1 = decide (rem ≤ k.pmm.reach.card) := by
  induction rem generalizing i k with
  | zero => exact (decide_eq_true (Nat.zero_le _)).symm
  | succ rem ih =>
      rw [vmmAllocLoop]
      dsimp only
      rcases k.pmm.pmmAllocPage_cases with ⟨p, hp, hmax, -, heq⟩ | ⟨hnone, heq⟩
      · rw [heq]
        dsimp only
        rw [if_pos (Pmm.address_ne_zero hbits hp)]
        obtain ⟨pte, hmmap, -⟩ := globlPageMmap_eq { k with pmm := k.pmm.takePage p }
          (mul32 p pageSize / pageSize) (k.getGloblPageIndex (add32 head i))
        have hrest := ih (i + 1) { k with pmm := k.pmm.takePage p, globlMmapPte := pte }
          (by rw [Pmm.takePage_length]; exact hbits)
        have hcard : 0 < k.pmm.reach.card := Finset.card_pos.2 ⟨p, hp⟩
        rw [Pmm.reach_takePage hp hmax, Finset.card_erase_of_mem hp] at hrest
        refine (congrArg (fun k => (vmmAllocLoop head rem (i + 1) k).1) hmmap).trans (hrest.trans ?_)
        rw [decide_eq_decide]
        omega
      · rw [heq, hnone]
        simp

/-- The mapping loop takes a frame it does not give back, once there is one. -/
theorem vmmAllocLoop_takes (head i : ℕ) {rem : ℕ} (k : Kernel)
    (hbits : k.pmm.pmmBitmapLength ≤ 0x20000) (hreach : k.pmm.reach.Nonempty) (hrem : 1 ≤ rem) :
    (vmmAllocLoop head rem i k).2.pmm.pmmBitmap ≠ k.pmm.pmmBitmap := by
  obtain ⟨rem, rfl⟩ : ∃ n, rem = n + 1 := ⟨rem - 1, by omega⟩
  rcases k.pmm.pmmAllocPage_cases with ⟨p, hp, -, -, heq⟩ | ⟨hnone, -⟩
  · obtain ⟨hfree, hhead, -⟩ := Pmm.mem_reach.1 hp
    rw [vmmAllocLoop]
    dsimp only
    rw [heq]
    dsimp only
    rw [if_pos (Pmm.address_ne_zero hbits hp)]
    obtain ⟨pte, hmmap, -⟩ := globlPageMmap_eq { k with pmm := k.pmm.takePage p }
      (mul32 p pageSize / pageSize) (k.getGloblPageIndex (add32 head i))
    obtain ⟨r, pmm, pte', hloop, hlen, -, hkept⟩ :=
      vmmAllocLoop_eq head rem (i + 1) { k with pmm := k.pmm.takePage p, globlMmapPte := pte }
    have hused : p ∉ pmm.freePages := by
      refine hkept p (by omega) ?_
      rw [Pmm.freePages_takePage]
      exact Finset.notMem_erase p _
    intro hsame
    refine hused ?_
    have hlength : pmm.pmmBitmapLength = k.pmm.pmmBitmapLength := by
      rw [hlen, Pmm.takePage_length]
    have hbitmap : pmm.pmmBitmap = k.pmm.pmmBitmap := by
      rw [← hsame]
      exact (congrArg (fun x : Bool × Kernel => x.2.pmm.pmmBitmap)
        ((congrArg (vmmAllocLoop head rem (i + 1)) hmmap).trans hloop)).symm
    rw [Pmm.freePages_congr hbitmap hlength]
    exact hfree
  · rw [hnone] at hreach
    exact absurd hreach Finset.not_nonempty_empty

theorem notMem_freePages_vmmAllocPage {fuel r q : ℕ}
    (hcall : k.vmmAllocPage fuel count = some (r, k')) (hq : q ≠ 0) (hused : q ∉ k.pmm.freePages) :
    q ∉ k'.pmm.freePages := by
  rcases vmmAllocPage_cases hcall with ⟨-, -, rfl⟩ | ⟨p, kMapped, -, hreturn⟩
  · exact hused
  · obtain ⟨done, pmm, pte, heq, -, -, hkept⟩ :=
      vmmAllocLoop_eq (add32 (sub32 p count) 1) count 0 k
    rcases hreturn with ⟨hloop, -, hk⟩ | ⟨hloop, -, hk⟩
    · rw [hk, ← (Prod.mk.inj (heq.symm.trans hloop)).2]
      exact hkept q hq hused
    · rw [hk, ← (Prod.mk.inj (heq.symm.trans hloop)).2]
      exact hkept q hq hused

/-- A call that returns `NULL` leaves the global page table, the bitmap and both
free counts as they are. -/
def AllocAtomic (k : Kernel) (count : ℕ) : Prop :=
  ∀ k', k.Returns (.vmmAllocPage count) 0 k' →
    k'.globlMmapPte = k.globlMmapPte ∧ k'.pmm.pmmBitmap = k.pmm.pmmBitmap ∧
      k'.pmm.getPmmFreeCount = k.pmm.getPmmFreeCount ∧ k'.getVmmFreeCount = k.getVmmFreeCount

/-- The scan finds a run and there is a frame to map, but not one for every page, or
the run starts at the address zero. -/
def FailsMidway (k : Kernel) (count : ℕ) : Prop :=
  ∃ p, k.VmmSettles count p ∧ k.pmm.reach.Nonempty ∧
    (k.pmm.reach.card < count ∨ k.windowAddress p count = 0)

theorem vmmAllocPage_of_scan {fuel p : ℕ} (h : k.vmmScan fuel count = some (some p)) :
    k.vmmAllocPage fuel count =
      some (match vmmAllocLoop (add32 (sub32 p count) 1) count 0 k with
        | (true, k) => k.vmmTake p count
        | (false, k) => (0, k)) := by
  unfold vmmAllocPage
  rw [h]
  rfl

/-- `vmm_alloc_page` has an effect beside its answer exactly when it fails midway. -/
theorem Bounded.allocAtomic_iff (h : k.Bounded) (hcount : 1 ≤ count) (hcount32 : count < 2 ^ 32) :
    k.AllocAtomic count ↔ ¬ k.FailsMidway count := by
  have hpos := h.vmmPos_lt
  have hbits := h.pmmBitmapLength_le
  constructor
  · rintro hatomic ⟨p, hsettles, hreach, hfail⟩
    obtain ⟨fuel, hscan⟩ := exists_scan_of_vmmSettles hpos hcount32 hsettles
    have hcall := vmmAllocPage_of_scan hscan
    have htakes := vmmAllocLoop_takes (add32 (sub32 p count) 1) 0 k hbits hreach hcount
    have hfst := vmmAllocLoop_fst (add32 (sub32 p count) 1) count 0 k hbits
    obtain ⟨r, pmm, pte, hloop, -⟩ := vmmAllocLoop_eq (add32 (sub32 p count) 1) count 0 k
    rw [hloop] at hcall htakes hfst
    refine htakes ?_
    cases r with
    | true =>
        have hzero : k.windowAddress p count = 0 := by
          rcases hfail with hlt | hzero
          · exact absurd (of_decide_eq_true hfst.symm) (by omega)
          · exact hzero
        have hreturn := hatomic _ ⟨fuel, hcall.trans (congrArg some (Prod.ext hzero rfl))⟩
        exact hreturn.2.1
    | false =>
        have hreturn := hatomic _ ⟨fuel, hcall⟩
        exact hreturn.2.1
  · intro hfail k' hreturn
    obtain ⟨fuel, hcall⟩ := hreturn
    rcases hscan : k.vmmScan fuel count with _ | _ | p
    · rw [vmmAllocPage, hscan] at hcall
      exact absurd hcall (by simp)
    · rw [vmmAllocPage, hscan] at hcall
      obtain rfl : k = k' := (Prod.mk.inj (Option.some.inj hcall)).2
      exact ⟨rfl, rfl, rfl, rfl⟩
    · have hsettles := vmmSettles_of_scan hpos hcount32 hscan
      rw [vmmAllocPage_of_scan hscan] at hcall
      have hfst := vmmAllocLoop_fst (add32 (sub32 p count) 1) count 0 k hbits
      by_cases hempty : k.pmm.reach.Nonempty
      · have hpart : ¬ (k.pmm.reach.card < count ∨ k.windowAddress p count = 0) :=
          fun h => hfail ⟨p, hsettles, hempty, h⟩
        obtain ⟨henough, haddress⟩ := not_or.1 hpart
        obtain ⟨r, pmm, pte, hloop, -⟩ := vmmAllocLoop_eq (add32 (sub32 p count) 1) count 0 k
        rw [hloop, decide_eq_true (by omega : count ≤ k.pmm.reach.card)] at hfst
        have hr : r = true := hfst
        rw [hloop, hr] at hcall
        exact absurd (Prod.mk.inj (Option.some.inj hcall)).1 haddress
      · rcases k.pmm.pmmAllocPage_cases with ⟨q, hq, -⟩ | ⟨-, hnone⟩
        · exact absurd ⟨q, hq⟩ hempty
        · obtain ⟨n, hn⟩ : ∃ n, count = n + 1 := ⟨count - 1, by omega⟩
          rw [hn, vmmAllocLoop, hnone] at hcall
          dsimp only at hcall
          rw [if_neg (fun h => h rfl)] at hcall
          obtain rfl := (Prod.mk.inj (Option.some.inj hcall)).2
          exact ⟨rfl, rfl, rfl, rfl⟩

/-- **A failed allocation is atomic exactly when it does not fail midway.** For
every state of a run and every count, a call of `vmm_alloc_page` that returns `NULL`
leaves the global page table, the bitmap and both free counts alone if and only if
the request does not run out of frames behind its first page. -/
theorem alloc_atomic_iff {b : KernelBoot} (hk : (memMachine b).Reachable k) (hcount : 1 ≤ count)
    (hcount32 : count < 2 ^ 32) : k.AllocAtomic count ↔ ¬ k.FailsMidway count :=
  (Bounded.of_reachable hk).allocAtomic_iff hcount hcount32

section Example

/-- A machine with 451 pages, of which two are free after the boot. -/
def tinyBoot : KernelBoot where
  memBaseAddr := 0x1c0000
  memLength := 0x1c3000
  highAttr_le := by decide
  memBaseAddr_le := by decide
  memLength_lt := by decide
  bitmap_lt := by decide
  globlPtePage := 0x100
  highAttr_le_globlPte := by decide
  globlPte_le := by decide

def tinyKernel : Kernel := vmmInit tinyBoot (fun _ => 0) (fun _ => 0) fun _ _ => 0

theorem tinyKernel_reachable : (memMachine tinyBoot).Reachable tinyKernel :=
  .init ⟨_, _, _, rfl⟩

theorem reach_tinyKernel : tinyKernel.pmm.reach = {450} := by
  have hbase : tinyBoot.memBasePage = 449 := by decide
  have hcount : tinyBoot.memPageCount = 451 := by decide
  ext p
  rw [tinyKernel, vmmInit_pmm, Pmm.mem_reach_pmmInit, hbase, hcount, Finset.mem_singleton]
  omega

/-- A machine whose memory ends behind the kernel: no page is free. -/
def fullBoot : KernelBoot where
  memBaseAddr := 0x1c0000
  memLength := 0x1c0000
  highAttr_le := tinyBoot.highAttr_le
  memBaseAddr_le := le_rfl
  memLength_lt := by decide
  bitmap_lt := by decide
  globlPtePage := 0x100
  highAttr_le_globlPte := tinyBoot.highAttr_le_globlPte
  globlPte_le := tinyBoot.globlPte_le

def fullKernel : Kernel := vmmInit fullBoot (fun _ => 0) (fun _ => 0) fun _ _ => 0

theorem fullKernel_reachable : (memMachine fullBoot).Reachable fullKernel :=
  .init ⟨_, _, _, rfl⟩

theorem freePages_fullKernel : fullKernel.pmm.freePages = ∅ := by
  have hbase : fullBoot.memBasePage = 449 := by decide
  have hcount : fullBoot.memPageCount = 448 := by decide
  rw [fullKernel, vmmInit_pmm, Pmm.freePages_pmmInit, Boot.arena, hbase, hcount]
  decide

theorem reach_fullKernel : fullKernel.pmm.reach = ∅ := by
  refine Finset.eq_empty_of_forall_notMem fun p hp => ?_
  have hfree := (Pmm.mem_reach.1 hp).1
  rw [freePages_fullKernel] at hfree
  exact Finset.notMem_empty p hfree

/-- A request for two pages finds a run, but no frame, and leaves no trace. -/
theorem alloc_atomic_iff_no_frame :
    (∃ k', fullKernel.Returns (.vmmAllocPage 2) 0 k') ∧ fullKernel.AllocAtomic 2 := by
  refine ⟨?_, (alloc_atomic_iff fullKernel_reachable (by decide) (by decide)).mpr ?_⟩
  · have hb := Bounded.of_reachable fullKernel_reachable
    obtain ⟨fuel, hscan⟩ := exists_scan_of_vmmSettles (k := fullKernel)
      (by have := fullKernel.page_count; have := hb.vmmPos_lt; lia) (by decide : 2 < 2 ^ 32)
      ((vmmSettles_vmmInit _ _ _ _ 2 _).2 rfl)
    obtain ⟨done, k', hloop⟩ : ∃ done k', vmmAllocLoop
        (add32 (sub32 (globlPageNum - fullBoot.dmmapPageCount - 1) 2) 1) 2 0 fullKernel =
          (done, k') := ⟨_, _, rfl⟩
    have hfst := vmmAllocLoop_fst
      (add32 (sub32 (globlPageNum - fullBoot.dmmapPageCount - 1) 2) 1) 2 0 fullKernel
      hb.pmmBitmapLength_le
    rw [hloop, reach_fullKernel] at hfst
    obtain rfl : done = false := hfst.trans (by decide)
    refine ⟨k', fuel, ?_⟩
    rw [vmmAllocPage_of_scan hscan, hloop]
  · rintro ⟨p, -, hframe, -⟩
    rw [reach_fullKernel] at hframe
    exact Finset.not_nonempty_empty hframe

/-- A request for two pages leaves the one frame there is allocated. -/
theorem not_alloc_atomic_two_pages : ¬ tinyKernel.AllocAtomic 2 := by
  rw [(Bounded.of_reachable tinyKernel_reachable).allocAtomic_iff (by decide) (by decide), not_not]
  refine ⟨_, (vmmSettles_vmmInit _ _ _ _ 2 _).2 rfl, ?_, .inl ?_⟩
  · rw [reach_tinyKernel]
    exact Finset.singleton_nonempty 450
  · rw [reach_tinyKernel, Finset.card_singleton]
    decide

end Example

end Kernel

end BitchKernel
