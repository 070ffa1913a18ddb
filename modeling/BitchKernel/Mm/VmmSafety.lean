import BitchKernel.Mm.VmmAtomic

/-!
# Safety of the kernel window over whole runs

A run starts at `vmm_init` and calls the functions of `vmm.c` in any order; a release
names a range that is held. `VmmRun` carries, beside the state, the ranges handed out
in the window and not yet released. The scan for a free run compares unsigned numbers
with zero and takes an index outside the window for a free page, so it can settle at
a run that reaches below the window or lies behind it. In the runs where it never
does, the ranges stay in the window and apart, and the direct pages stay mapped.
-/

namespace BitchKernel

open Lib

theorem KernelBoot.dmmapPageCount_pos (b : KernelBoot) : 0 < b.dmmapPageCount := by
  have hle := b.le_memPageCount
  unfold KernelBoot.dmmapPageCount
  split
  · omega
  · decide

/-- The state of the window and the ranges held in it, each as the index of its first
page and its number of pages. -/
structure VmmRun where
  kernel : Kernel
  held : List (ℕ × ℕ)

namespace VmmRun

def pages (range : ℕ × ℕ) : Finset ℕ := Finset.Ico range.1 (range.1 + range.2)

theorem mem_pages {range : ℕ × ℕ} {x : ℕ} :
    x ∈ pages range ↔ range.1 ≤ x ∧ x < range.1 + range.2 :=
  Finset.mem_Ico

/-- A request names at least one page, a release a held range or a direct page, and
the contents of pages change at any time. -/
def Enabled (s : VmmRun) : MemCall → Prop
  | .vmmAllocPage count => 1 ≤ count ∧ count < 2 ^ 32
  | .vmmMmapPage phyAttr => phyAttr < 2 ^ 32
  | .vmmMmapPdePage _ count _ => 1 ≤ count ∧ count < 2 ^ 32
  | .vmmFreePage attr count =>
      (attr / pageSize, count) ∈ s.held ∨ attr / pageSize < s.kernel.dmmapPageCount
  | .vmmUmmapPage attr count =>
      (attr / pageSize, count) ∈ s.held ∨ attr / pageSize < s.kernel.dmmapPageCount
  | .store _ _ => True
  | _ => False

/-- The range of an answer `r` to a request for `count` pages of the window. -/
def handedOut (r count : ℕ) : List (ℕ × ℕ) := if r = 0 then [] else [(r / pageSize, count)]

/-- The ranges held after a call that returned `r`. -/
def heldAfter (s : VmmRun) (r : ℕ) : MemCall → List (ℕ × ℕ)
  | .vmmAllocPage count => handedOut r count ++ s.held
  | .vmmMmapPage phyAttr =>
      if phyAttr / pageSize < s.kernel.dmmapPageCount then s.held else handedOut r 1 ++ s.held
  | .vmmMmapPdePage _ count _ => handedOut r count ++ s.held
  | .vmmFreePage attr count => s.held.erase (attr / pageSize, count)
  | .vmmUmmapPage attr count => s.held.erase (attr / pageSize, count)
  | _ => s.held

/-- A request for pages of the window does not settle outside of it. -/
def SafeCall (s : VmmRun) : MemCall → Prop
  | .vmmAllocPage count => s.kernel.SafeScan count
  | .vmmMmapPdePage _ count _ => s.kernel.SafeScan count
  | _ => True

/-- `vmm_pos` is in the window, the held ranges are in it and apart from each other,
and the direct page `i` maps the frame `i`. -/
structure WindowSafe (s : VmmRun) : Prop where
  vmmPos_lt : s.kernel.vmmPos < s.kernel.vmmapPageCount
  held_mem : ∀ range ∈ s.held,
    s.kernel.dmmapPageCount ≤ range.1 ∧ range.1 + range.2 ≤ globlPageNum
  disjoint : s.held.Pairwise fun range range' => Disjoint (pages range) (pages range')
  direct : ∀ i < s.kernel.dmmapPageCount, s.kernel.getGloblPageAttr i = i * pageSize

end VmmRun

/-- The runs of the window on the machine `b`, from `vmm_init` on. -/
def vmmMachine (b : KernelBoot) : Machine VmmRun MemCall where
  init s := ∃ memory behind page, s = ⟨Kernel.vmmInit b memory behind page, []⟩
  step s call s' := s.Enabled call ∧ ∃ r, s.kernel.Returns call r s'.kernel ∧
    s'.held = s.heldAfter r call

/-- What holds between the calls: the window is safe, every held range has a page, and
each of its entries shows one. -/
structure VmmInv (s : VmmRun) : Prop extends s.WindowSafe where
  dmmap_pos : 0 < s.kernel.dmmapPageCount
  held_pos : ∀ range ∈ s.held, 1 ≤ range.2
  mapped : ∀ range ∈ s.held, ∀ x ∈ VmmRun.pages range, s.kernel.getGloblPageAttr x ≠ 0

namespace VmmInv

variable {s : VmmRun} {k : Kernel}

open VmmRun

theorem of_init {b : KernelBoot} (h : (vmmMachine b).init s) : VmmInv s := by
  obtain ⟨memory, behind, page, rfl⟩ := h
  have hle := b.dmmapPageCount_le
  refine ⟨⟨?_, by simp, .nil, fun i hi => ?_⟩, ?_, by simp, by simp⟩
  · dsimp only
    rw [Kernel.vmmInit_vmmPos, Kernel.vmmInit_vmmapPageCount]
    lia
  · dsimp only at hi ⊢
    rw [Kernel.vmmInit_dmmapPageCount] at hi
    exact Kernel.getGloblPageAttr_vmmInit b memory behind page hi
  · dsimp only
    rw [Kernel.vmmInit_dmmapPageCount]
    exact b.dmmapPageCount_pos

/-- A state that differs in entries outside the held ranges and the direct pages. -/
theorem of_frame (h : VmmInv s) (hdmmap : k.dmmapPageCount = s.kernel.dmmapPageCount)
    (hpos : k.vmmPos < k.vmmapPageCount)
    (hframe : ∀ x, s.kernel.getGloblPageAttr x ≠ 0 ∨ x < s.kernel.dmmapPageCount →
      k.getGloblPageAttr x = s.kernel.getGloblPageAttr x) : VmmInv ⟨k, s.held⟩ where
  vmmPos_lt := hpos
  held_mem range hrange := by
    dsimp only
    rw [hdmmap]
    exact h.held_mem range hrange
  disjoint := h.disjoint
  direct i hi := by
    dsimp only at hi ⊢
    rw [hdmmap] at hi
    rw [hframe i (.inr hi)]
    exact h.direct i hi
  dmmap_pos := by
    dsimp only
    rw [hdmmap]
    exact h.dmmap_pos
  held_pos := h.held_pos
  mapped range hrange x hx := by
    have hne := h.mapped range hrange x hx
    dsimp only
    rw [hframe x (.inl hne)]
    exact hne

/-- A new range whose entries were free and show pages now. -/
theorem of_handOut (h : VmmInv s) (hdmmap : k.dmmapPageCount = s.kernel.dmmapPageCount)
    (hpos : k.vmmPos < k.vmmapPageCount)
    (hframe : ∀ x, s.kernel.getGloblPageAttr x ≠ 0 ∨ x < s.kernel.dmmapPageCount →
      k.getGloblPageAttr x = s.kernel.getGloblPageAttr x) {first count : ℕ}
    (hfirst : s.kernel.dmmapPageCount ≤ first) (hlast : first + count ≤ globlPageNum)
    (hcount : 1 ≤ count)
    (hfree : ∀ x ∈ pages (first, count), s.kernel.getGloblPageAttr x = 0)
    (hmapped : ∀ x ∈ pages (first, count), k.getGloblPageAttr x ≠ 0) :
    VmmInv ⟨k, (first, count) :: s.held⟩ := by
  have hold := h.of_frame hdmmap hpos hframe
  refine ⟨⟨hpos, ?_, ?_, hold.direct⟩, hold.dmmap_pos, ?_, ?_⟩
  · intro range hrange
    rcases List.mem_cons.1 hrange with rfl | hrange
    · exact ⟨hdmmap ▸ hfirst, hlast⟩
    · exact hold.held_mem range hrange
  · refine List.pairwise_cons.2 ⟨fun range hrange => ?_, h.disjoint⟩
    rw [Finset.disjoint_left]
    intro x hx hx'
    exact h.mapped range hrange x hx' (hfree x hx)
  · intro range hrange
    rcases List.mem_cons.1 hrange with rfl | hrange
    · exact hcount
    · exact h.held_pos range hrange
  · intro range hrange x hx
    rcases List.mem_cons.1 hrange with rfl | hrange
    · exact hmapped x hx
    · exact hold.mapped range hrange x hx

/-! ## Requests -/

/-- The loops that map a run only move entries that were free and lie behind the
direct pages. -/
theorem frame_of_slots (h : VmmInv s) {p count : ℕ} (hsettles : s.kernel.VmmSettles count p)
    (hsafe : s.kernel.SafeAt count p) {pte : ℕ → ℕ}
    (hframe : ∀ x, (∀ j < count, x ≠ s.kernel.getGloblPageIndex
      (add32 (add32 (sub32 p count) 1) j)) → pte x = s.kernel.globlMmapPte x) {x : ℕ}
    (hx : s.kernel.getGloblPageAttr x ≠ 0 ∨ x < s.kernel.dmmapPageCount) :
    getPageAttr (pte x) = s.kernel.getGloblPageAttr x := by
  refine congrArg getPageAttr (hframe x fun j hj => ?_)
  rw [hsafe.inside.slot_eq h.vmmPos_lt hj]
  rintro rfl
  rcases hx with hne | hlt
  · exact hne (hsettles.free hsafe h.vmmPos_lt hj)
  · omega

theorem of_vmmTake (h : VmmInv s) {p count : ℕ} (hcount : 1 ≤ count)
    (hsettles : s.kernel.VmmSettles count p) (hsafe : s.kernel.SafeAt count p) {pmm : Pmm}
    {page : ℕ → ℕ → ℕ} {pte : ℕ → ℕ}
    (hframe : ∀ x, (∀ j < count, x ≠ s.kernel.getGloblPageIndex
      (add32 (add32 (sub32 p count) 1) j)) → pte x = s.kernel.globlMmapPte x)
    (hmapped : ∀ j < count, getPageAttr (pte (s.kernel.getGloblPageIndex
      (add32 (add32 (sub32 p count) 1) j))) ≠ 0)
    (hk : k = { s.kernel with pmm := pmm, page := page, globlMmapPte := pte }) :
    VmmInv ⟨(k.vmmTake p count).2, handedOut (k.vmmTake p count).1 count ++ s.held⟩ := by
  have hpos := h.vmmPos_lt
  have hpages := s.kernel.page_count
  have haddress : (k.vmmTake p count).1 =
      (s.kernel.dmmapPageCount + (p + 1 - count)) * pageSize := by
    rw [hk]
    exact hsafe.inside.windowAddress_eq hpos
  have hdpos := h.dmmap_pos
  have hrange : handedOut (k.vmmTake p count).1 count =
      [(s.kernel.dmmapPageCount + (p + 1 - count), count)] := by
    unfold handedOut
    rw [haddress, if_neg (Nat.mul_ne_zero (by omega) (by decide)),
      Nat.mul_div_cancel _ (by decide)]
  have hslot : ∀ x ∈ pages (s.kernel.dmmapPageCount + (p + 1 - count), count), ∃ j < count,
      x = s.kernel.dmmapPageCount + (p + 1 - count + j) := by
    intro x hx
    obtain ⟨hle, hlt⟩ := mem_pages.1 hx
    dsimp only at hle hlt
    exact ⟨x - (s.kernel.dmmapPageCount + (p + 1 - count)), by omega, by omega⟩
  rw [hrange, List.singleton_append]
  have hle := hsafe.1
  have hlen := hsafe.2
  refine h.of_handOut (by rw [hk]; rfl) ?_ ?_ (Nat.le_add_right _ _) (by omega) hcount ?_ ?_
  · rw [hk]
    unfold Kernel.vmmTake
    dsimp only
    by_cases htop : p = s.kernel.vmmPos
    · rw [if_pos htop, sub32_of_le (by omega) (by lia)]
      omega
    · rw [if_neg htop]
      exact hpos
  · intro x hx
    rw [hk]
    exact h.frame_of_slots hsettles hsafe hframe hx
  · intro x hx
    obtain ⟨j, hj, rfl⟩ := hslot x hx
    exact hsettles.free hsafe hpos hj
  · intro x hx
    obtain ⟨j, hj, rfl⟩ := hslot x hx
    have hne := hmapped j hj
    rw [hsafe.inside.slot_eq hpos hj] at hne
    rw [hk]
    exact hne

/-- The run the scan found, after a loop that changed its slots only: it is handed out
when the loop mapped it to its end. -/
theorem of_vmmRun (h : VmmInv s) {p count r : ℕ} (hcount : 1 ≤ count)
    (hsettles : s.kernel.VmmSettles count p) (hsafe : s.kernel.SafeAt count p) {run : Bool × Kernel}
    {done : Bool} {pmm : Pmm} {page : ℕ → ℕ → ℕ} {pte : ℕ → ℕ} {kMapped : Kernel}
    (hloop : run = (done, { s.kernel with pmm := pmm, page := page, globlMmapPte := pte }))
    (hframe : ∀ x, (∀ j < count, x ≠ s.kernel.getGloblPageIndex
      (add32 (add32 (sub32 p count) 1) j)) → pte x = s.kernel.globlMmapPte x)
    (hmapped : run.1 = true → ∀ j < count,
      s.kernel.getGloblPageIndex (add32 (add32 (sub32 p count) 1) j) < globlPageNum →
      getPageAttr (pte (s.kernel.getGloblPageIndex (add32 (add32 (sub32 p count) 1) j))) ≠ 0)
    (hreturn : (run = (true, kMapped) ∧ r = (kMapped.vmmTake p count).1 ∧
        k = (kMapped.vmmTake p count).2) ∨ (run = (false, kMapped) ∧ r = 0 ∧ k = kMapped)) :
    VmmInv ⟨k, handedOut r count ++ s.held⟩ := by
  have hpos := h.vmmPos_lt
  rcases hreturn with ⟨heq, hr, hk⟩ | ⟨heq, hr, hk⟩
  · rw [hr, hk]
    refine h.of_vmmTake hcount hsettles hsafe hframe (fun j hj => hmapped (by rw [heq]) j hj ?_)
      (Prod.mk.inj (heq.symm.trans hloop)).2
    have hpages := s.kernel.page_count
    have hle := hsafe.1
    have hlen := hsafe.2
    rw [hsafe.inside.slot_eq hpos hj]
    omega
  · rw [hr, hk, (Prod.mk.inj (heq.symm.trans hloop)).2]
    exact h.of_frame rfl hpos fun x hx => h.frame_of_slots hsettles hsafe hframe hx

theorem of_vmmAllocPage (h : VmmInv s) {count fuel r : ℕ} (hcount : 1 ≤ count)
    (hcount32 : count < 2 ^ 32) (hscan : s.kernel.SafeScan count)
    (hcall : s.kernel.vmmAllocPage fuel count = some (r, k)) :
    VmmInv ⟨k, handedOut r count ++ s.held⟩ := by
  have hpos := h.vmmPos_lt
  have hpages := s.kernel.page_count
  rcases Kernel.vmmAllocPage_cases hcall with ⟨-, rfl, rfl⟩ | ⟨p, kMapped, hfound, hreturn⟩
  · exact h
  have hsettles := Kernel.vmmSettles_of_scan (by lia) hcount32 hfound
  obtain ⟨done, pmm, pte, hloop, -, hframe, -⟩ :=
    Kernel.vmmAllocLoop_eq (add32 (sub32 p count) 1) count 0 s.kernel
  have hmapped := Kernel.vmmAllocLoop_mapped (add32 (sub32 p count) 1) count 0 s.kernel
  simp only [Nat.zero_add] at hframe
  refine h.of_vmmRun hcount hsettles (hscan p hsettles) hloop hframe (fun hdone j hj => ?_) hreturn
  have hslot := (hmapped hdone).mapped j (Nat.zero_le j) (by omega)
  rw [hloop] at hslot
  exact hslot

theorem of_vmmMmapPdePage (h : VmmInv s) {attr pde count fuel r : ℕ} (hcount : 1 ≤ count)
    (hcount32 : count < 2 ^ 32) (hscan : s.kernel.SafeScan count)
    (hcall : s.kernel.vmmMmapPdePage fuel attr count pde = some (r, k)) :
    VmmInv ⟨k, handedOut r count ++ s.held⟩ := by
  have hpos := h.vmmPos_lt
  have hpages := s.kernel.page_count
  rcases Kernel.vmmMmapPdePage_cases hcall with ⟨-, rfl, rfl⟩ | ⟨p, kMapped, hfound, hreturn⟩
  · exact h
  have hsettles := Kernel.vmmSettles_of_scan (by lia) hcount32 hfound
  obtain ⟨done, pmm, page, pte, hloop, -, hframe⟩ :=
    Kernel.vmmMmapPdeLoop_eq (add32 (sub32 p count) 1) attr pde count 0 s.kernel
  have hmapped := Kernel.vmmMmapPdeLoop_mapped (add32 (sub32 p count) 1) attr pde count 0 s.kernel
  simp only [Nat.zero_add] at hframe
  refine h.of_vmmRun hcount hsettles (hscan p hsettles) hloop hframe (fun hdone j hj => ?_) hreturn
  have hslot := (hmapped hdone).mapped j (Nat.zero_le j) (by omega)
  rw [hloop] at hslot
  exact hslot

theorem of_vmmMmapPage (h : VmmInv s) (phyAttr : ℕ) :
    VmmInv ⟨(s.kernel.vmmMmapPage phyAttr).2,
      if phyAttr / pageSize < s.kernel.dmmapPageCount then s.held
      else handedOut (s.kernel.vmmMmapPage phyAttr).1 1 ++ s.held⟩ := by
  have hpos := h.vmmPos_lt
  have hpages := s.kernel.page_count
  unfold Kernel.vmmMmapPage
  by_cases hdirect : phyAttr / pageSize < s.kernel.dmmapPageCount
  · rw [if_pos hdirect, if_pos hdirect]
    exact h
  rw [if_neg hdirect, if_neg hdirect]
  rcases s.kernel.vmmMmapLoop_cases phyAttr s.kernel.vmmPos with
    hnone | ⟨q, pte, -, hq, hfree, hloop, hframe, hset⟩
  · rw [hnone]
    exact h
  have hindex : s.kernel.getGloblPageIndex q = s.kernel.dmmapPageCount + q :=
    Kernel.getGloblPageIndex_of_lt (by omega)
  have hdpos := h.dmmap_pos
  rw [Kernel.getVmmPage, if_pos (by omega), hindex] at hfree
  rw [hindex] at hloop hframe hset
  have hrange : handedOut (mul32 (s.kernel.dmmapPageCount + q) pageSize) 1 =
      [(s.kernel.dmmapPageCount + q, 1)] := by
    unfold handedOut
    rw [mul32_of_lt (by lia), if_neg (Nat.mul_ne_zero (by omega) (by decide)),
      Nat.mul_div_cancel _ (by decide)]
  have hpage : ∀ x ∈ pages (s.kernel.dmmapPageCount + q, 1), x = s.kernel.dmmapPageCount + q := by
    intro x hx
    obtain ⟨hle, hlt⟩ := mem_pages.1 hx
    dsimp only at hle hlt
    omega
  rw [hloop, hrange, List.singleton_append]
  have hlast : s.kernel.dmmapPageCount + q + 1 ≤ globlPageNum := by omega
  refine h.of_handOut ?_ ?_ ?_ (Nat.le_add_right _ _) hlast le_rfl ?_ ?_
  · rfl
  · exact lt_of_le_of_lt hq hpos
  · intro x hx
    refine congrArg getPageAttr (hframe x ?_)
    rintro rfl
    rcases hx with hne | hlt
    · exact hne hfree
    · omega
  · intro x hx
    rw [hpage x hx]
    exact hfree
  · intro x hx
    rw [hpage x hx]
    refine (congrArg getPageAttr (hset (by omega))).trans_ne ?_
    exact Kernel.getPageAttr_kernelPage (by omega)

/-! ## Releases -/

/-- A release clears the entries of the range it names, which is apart from the
others. -/
theorem of_release (h : VmmInv s) {range : ℕ × ℕ} (hrange : range ∈ s.held)
    (hdmmap : k.dmmapPageCount = s.kernel.dmmapPageCount) (hpos : k.vmmPos < k.vmmapPageCount)
    (hframe : ∀ x ∉ pages range, k.getGloblPageAttr x = s.kernel.getGloblPageAttr x) :
    VmmInv ⟨k, s.held.erase range⟩ := by
  have hperm := List.perm_cons_erase hrange
  have hapart : (range :: s.held.erase range).Pairwise
      fun range range' => Disjoint (pages range) (pages range') :=
    (hperm.pairwise_iff fun {_ _} hdisj => hdisj.symm).1 h.disjoint
  obtain ⟨hother, hrest⟩ := List.pairwise_cons.1 hapart
  have hsub : ∀ other ∈ s.held.erase range, other ∈ s.held := fun other => List.mem_of_mem_erase
  refine ⟨⟨hpos, fun other hmem => ?_, hrest, fun i hi => ?_⟩, ?_, fun other hmem => ?_,
    fun other hmem x hx => ?_⟩
  · dsimp only
    rw [hdmmap]
    exact h.held_mem other (hsub other hmem)
  · dsimp only at hi ⊢
    rw [hdmmap] at hi
    rw [hframe i fun hmem => ?_]
    · exact h.direct i hi
    · have hfirst := (h.held_mem range hrange).1
      have hi' := (mem_pages.1 hmem).1
      omega
  · dsimp only
    rw [hdmmap]
    exact h.dmmap_pos
  · exact h.held_pos other (hsub other hmem)
  · dsimp only
    rw [hframe x (Finset.disjoint_right.1 (hother other hmem) hx)]
    exact h.mapped other (hsub other hmem) x hx

theorem release_slots (h : VmmInv s) {attr count : ℕ} (hrange : (attr / pageSize, count) ∈ s.held) :
    ¬ attr / pageSize < s.kernel.dmmapPageCount ∧
      add32 (attr / pageSize - s.kernel.dmmapPageCount) count =
        attr / pageSize - s.kernel.dmmapPageCount + count ∧
      attr / pageSize - s.kernel.dmmapPageCount + count ≤ s.kernel.vmmapPageCount ∧
      ∀ x ∉ pages (attr / pageSize, count), ∀ j < count,
        x ≠ s.kernel.getGloblPageIndex
          (add32 (attr / pageSize - s.kernel.dmmapPageCount) j) := by
  have hpages := s.kernel.page_count
  obtain ⟨hfirst, hlast⟩ := h.held_mem _ hrange
  dsimp only at hfirst hlast
  refine ⟨by omega, add32_of_lt (by lia), by omega, fun x hx j hj => ?_⟩
  rw [add32_of_lt (by lia), Kernel.getGloblPageIndex_of_lt (by omega)]
  rintro rfl
  exact hx (mem_pages.2 ⟨by dsimp only; omega, by dsimp only; omega⟩)

/-- Raising `vmm_pos` to the end of a range of the window keeps it in the window. -/
theorem raiseVmmPos_eq (k : Kernel) {index count : ℕ} (hpos : k.vmmPos < k.vmmapPageCount)
    (hcount : 1 ≤ count) (hlast : index + count ≤ k.vmmapPageCount) :
    ∃ pos < k.vmmapPageCount, k.raiseVmmPos index count = { k with vmmPos := pos } := by
  have hpages := k.page_count
  unfold Kernel.raiseVmmPos
  dsimp only
  rw [add32_of_lt (by lia), sub32_of_le (by omega) (by lia)]
  split
  · exact ⟨_, by omega, rfl⟩
  · exact ⟨k.vmmPos, hpos, rfl⟩

theorem erase_of_direct (h : VmmInv s) {page count : ℕ} (hdirect : page < s.kernel.dmmapPageCount) :
    s.held.erase (page, count) = s.held := by
  refine List.erase_of_not_mem fun hrange => ?_
  have hfirst := (h.held_mem _ hrange).1
  dsimp only at hfirst
  omega

theorem of_vmmFreePage (h : VmmInv s) {attr count : ℕ}
    (hen : (attr / pageSize, count) ∈ s.held ∨ attr / pageSize < s.kernel.dmmapPageCount) :
    VmmInv ⟨s.kernel.vmmFreePage attr count, s.held.erase (attr / pageSize, count)⟩ := by
  have hpos := h.vmmPos_lt
  unfold Kernel.vmmFreePage
  dsimp only
  rcases hen with hrange | hdirect
  · obtain ⟨hnot, hsum, hlast, hslots⟩ := h.release_slots hrange
    obtain ⟨pmm, pte, hloop, -, hframe⟩ :=
      Kernel.vmmFreeLoop_eq (attr / pageSize - s.kernel.dmmapPageCount) count s.kernel
    obtain ⟨pos, hlt, hraise⟩ : ∃ pos < s.kernel.vmmapPageCount,
        Kernel.raiseVmmPos { s.kernel with pmm := pmm, globlMmapPte := pte }
            (attr / pageSize - s.kernel.dmmapPageCount) count =
          { s.kernel with pmm := pmm, globlMmapPte := pte, vmmPos := pos } :=
      raiseVmmPos_eq { s.kernel with pmm := pmm, globlMmapPte := pte } hpos (h.held_pos _ hrange)
        hlast
    rw [if_neg hnot, hsum, if_pos hlast, hloop, hraise]
    exact h.of_release hrange rfl hlt fun x hx => congrArg getPageAttr (hframe x (hslots x hx))
  · rw [if_pos hdirect, h.erase_of_direct hdirect]
    exact h.of_frame rfl hpos fun _ _ => rfl

theorem of_vmmUmmapPage (h : VmmInv s) {attr count : ℕ}
    (hen : (attr / pageSize, count) ∈ s.held ∨ attr / pageSize < s.kernel.dmmapPageCount) :
    VmmInv ⟨s.kernel.vmmUmmapPage attr count, s.held.erase (attr / pageSize, count)⟩ := by
  have hpos := h.vmmPos_lt
  unfold Kernel.vmmUmmapPage
  dsimp only
  rcases hen with hrange | hdirect
  · obtain ⟨hnot, hsum, hlast, hslots⟩ := h.release_slots hrange
    obtain ⟨pte, hloop, hframe⟩ :=
      Kernel.vmmUmmapLoop_eq (attr / pageSize - s.kernel.dmmapPageCount) count s.kernel
    obtain ⟨pos, hlt, hraise⟩ : ∃ pos < s.kernel.vmmapPageCount,
        Kernel.raiseVmmPos { s.kernel with globlMmapPte := pte }
            (attr / pageSize - s.kernel.dmmapPageCount) count =
          { s.kernel with globlMmapPte := pte, vmmPos := pos } :=
      raiseVmmPos_eq { s.kernel with globlMmapPte := pte } hpos (h.held_pos _ hrange) hlast
    rw [if_pos (Nat.le_of_not_lt hnot), hsum, if_pos hlast, hloop, hraise]
    exact h.of_release hrange rfl hlt fun x hx => congrArg getPageAttr (hframe x (hslots x hx))
  · rw [if_neg (Nat.not_le_of_lt hdirect), h.erase_of_direct hdirect]
    exact h

/-! ## Runs -/

theorem of_step {b : KernelBoot} (h : VmmInv s) {call : MemCall} {s' : VmmRun}
    (hsafe : s.SafeCall call) (hstep : (vmmMachine b).step s call s') : VmmInv s' := by
  obtain ⟨hen, r, hcall, hheld⟩ := hstep
  obtain ⟨k', held'⟩ := s'
  dsimp only at hcall hheld
  rw [hheld]
  cases call with
  | vmmAllocPage count =>
      obtain ⟨fuel, hcall⟩ := hcall
      exact h.of_vmmAllocPage hen.1 hen.2 hsafe hcall
  | vmmFreePage attr count => exact hcall.2 ▸ h.of_vmmFreePage hen
  | vmmMmapPage phyAttr =>
      rw [hcall.1, hcall.2]
      exact h.of_vmmMmapPage phyAttr
  | vmmMmapPdePage attr count pde =>
      obtain ⟨fuel, hcall⟩ := hcall
      exact h.of_vmmMmapPdePage hen.1 hen.2 hsafe hcall
  | vmmUmmapPage attr count => exact hcall.2 ▸ h.of_vmmUmmapPage hen
  | store table words => exact hcall.2 ▸ h.of_frame rfl h.vmmPos_lt fun _ _ => rfl
  | _ => exact absurd hen id

end VmmInv

/-- **Window safety in the runs whose scans stay inside.** In every state of a run
whose requests never settle outside the window, `vmm_pos` is below
`vmmap_page_count`, the held ranges lie in the window and apart from each other, and
the direct pages are mapped as `vmm_init` mapped them. -/
theorem window_safety {b : KernelBoot} {s : VmmRun}
    (hs : ((vmmMachine b).restrict VmmRun.SafeCall).Reachable s) : s.WindowSafe := by
  have hinv : VmmInv s := by
    refine Machine.Reachable.invariant (M := (vmmMachine b).restrict VmmRun.SafeCall)
      (fun s hinit => VmmInv.of_init hinit) (fun s call s' hs hstep => ?_) hs
    obtain ⟨hsafe, hstep⟩ := hstep
    exact hs.of_step hsafe hstep
  exact hinv.toWindowSafe

/-- With one frame to take, a request for more pages maps it at the first entry of the
run and leaves it there. -/
theorem Kernel.vmmAllocLoop_one_frame (k : Kernel) (head n p : ℕ)
    (hbits : k.pmm.pmmBitmapLength ≤ 0x20000) (hreach : k.pmm.reach = {p})
    (hlt : k.getGloblPageIndex (add32 head 0) < globlPageNum)
    (hne : k.getGloblPageIndex (add32 head 0) ≠ k.getGloblPageIndex (add32 head 1)) :
    ∃ k', vmmAllocLoop head (n + 2) 0 k = (false, k') ∧
      k'.getGloblPageAttr (k.getGloblPageIndex (add32 head 0)) = p * pageSize ∧
      k'.dmmapPageCount = k.dmmapPageCount := by
  have hp : p ∈ k.pmm.reach := hreach ▸ Finset.mem_singleton_self p
  have hmax : ∀ q ∈ k.pmm.reach, q ≤ p := by
    intro q hq
    rw [hreach, Finset.mem_singleton] at hq
    exact hq.le
  have hbound := (Pmm.mem_freePages.1 (Pmm.mem_reach.1 hp).1).1
  have haddress : mul32 p pageSize = p * pageSize := mul32_of_lt (by lia)
  have hfirst : k.pmm.pmmAllocPage = (mul32 p pageSize, k.pmm.takePage p) := by
    rcases k.pmm.pmmAllocPage_cases with ⟨q, hq, -, -, heq⟩ | ⟨hnone, -⟩
    · rw [hreach, Finset.mem_singleton] at hq
      rw [heq, hq]
    · exact absurd (hnone ▸ hp) (Finset.notMem_empty p)
  have hsecond : (k.pmm.takePage p).pmmAllocPage.1 = 0 := by
    rcases (k.pmm.takePage p).pmmAllocPage_cases with ⟨q, hq, -⟩ | ⟨-, heq⟩
    · rw [Pmm.reach_takePage hp hmax, hreach, Finset.erase_singleton] at hq
      exact absurd hq (Finset.notMem_empty q)
    · rw [heq]
  obtain ⟨pte, hmmap, -, hset⟩ := globlPageMmap_eq { k with pmm := k.pmm.takePage p }
    (mul32 p pageSize / pageSize) (k.getGloblPageIndex (add32 head 0))
  obtain ⟨pmm, pte', hundo, -, hframe, -⟩ := vmmAllocUndo_eq head 1
    { k with pmm := (k.pmm.takePage p).pmmAllocPage.2, globlMmapPte := pte }
  refine ⟨{ k with pmm := pmm, globlMmapPte := pte' }, ?_, ?_, rfl⟩
  · rw [vmmAllocLoop, hfirst]
    dsimp only
    rw [if_pos (Pmm.address_ne_zero hbits hp)]
    refine (congrArg (vmmAllocLoop head (n + 1) 1) hmmap).trans ?_
    rw [vmmAllocLoop]
    dsimp only
    rw [hsecond, if_neg (fun h => h rfl), hundo]
  · have hkept : pte' (k.getGloblPageIndex (add32 head 0)) = pte (k.getGloblPageIndex (add32 head 0)) := by
      refine hframe _ fun j hj hj1 => ?_
      obtain rfl : j = 1 := by omega
      exact hne
    unfold getGloblPageAttr
    dsimp only
    rw [hkept, hset hlt, haddress, Nat.mul_div_cancel _ (by decide), getPageAttr_setPage, pageBase_mul]

/-- With a run and enough frames a request gets the address of the run. -/
theorem Kernel.vmmAllocPage_of_enough {k : Kernel} {fuel count p : ℕ}
    (hbits : k.pmm.pmmBitmapLength ≤ 0x20000) (hscan : k.vmmScan fuel count = some (some p))
    (hcount : count ≤ k.pmm.reach.card) :
    ∃ k', k.vmmAllocPage fuel count = some (k.windowAddress p count, k') := by
  have hcall := vmmAllocPage_of_scan hscan
  have hfst := vmmAllocLoop_fst (add32 (sub32 p count) 1) count 0 k hbits
  obtain ⟨r, pmm, pte, hloop, -⟩ := vmmAllocLoop_eq (add32 (sub32 p count) 1) count 0 k
  rw [hloop, decide_eq_true hcount] at hfst
  obtain rfl : r = true := hfst
  rw [hloop] at hcall
  exact ⟨_, hcall⟩

/-- The page at `vmm_pos` and those below it are free, and there are frames to take. -/
structure Kernel.FreshBelow (k : Kernel) (frames : ℕ) : Prop where
  pos_lt : k.vmmPos < k.vmmapPageCount
  free : ∀ x ≤ k.vmmPos, k.getVmmPage x = 0
  bits : k.pmm.pmmBitmapLength ≤ 0x20000
  frames_le : frames ≤ k.pmm.reach.card

theorem Kernel.FreshBelow.vmmSettles {k : Kernel} {n : ℕ} (h : k.FreshBelow n) (hpos : 0 < k.vmmPos) :
    k.VmmSettles 1 k.vmmPos := by
  have hpages := k.page_count
  have hlt := h.pos_lt
  have hhere : DownScan.below 32 k.vmmPos 0 = k.vmmPos := DownScan.below_zero (by lia)
  refine ⟨hpos.ne', 0, hhere.symm, fun i hi => ?_, fun d hd => absurd hd (Nat.not_lt_zero d),
    .inl hpos⟩
  obtain rfl : i = 0 := by omega
  rw [hhere]
  exact decide_eq_false (not_not.2 (h.free _ le_rfl))

theorem Kernel.FreshBelow.vmmAllocPage {k : Kernel} {n : ℕ} (h : k.FreshBelow (n + 1))
    (hpos : 0 < k.vmmPos) :
    ∃ fuel k', k.vmmAllocPage fuel 1 = some ((k.dmmapPageCount + k.vmmPos) * pageSize, k') ∧
      k'.FreshBelow n ∧ k'.vmmPos = k.vmmPos - 1 ∧ k'.dmmapPageCount = k.dmmapPageCount := by
  have hpages := k.page_count
  have hlt := h.pos_lt
  have hinside : k.RunInside 1 k.vmmPos := ⟨le_rfl, by omega⟩
  have hsub : sub32 k.vmmPos 1 = k.vmmPos - 1 := sub32_of_le hpos (by lia)
  have hhead : add32 (sub32 k.vmmPos 1) 1 = k.vmmPos := by
    rw [hsub, add32_of_lt (by lia)]
    omega
  have haddress := hinside.windowAddress_eq hlt
  unfold windowAddress at haddress
  rw [hsub, Nat.add_sub_cancel] at haddress
  obtain ⟨fuel, hscan⟩ := exists_scan_of_vmmSettles (by lia) (by decide) (h.vmmSettles hpos)
  have hcall := vmmAllocPage_of_scan hscan
  -- the loop maps one page
  obtain ⟨p, hp, hmax, heq⟩ : ∃ p ∈ k.pmm.reach, (∀ q ∈ k.pmm.reach, q ≤ p) ∧
      k.pmm.pmmAllocPage = (mul32 p pageSize, k.pmm.takePage p) := by
    rcases k.pmm.pmmAllocPage_cases with ⟨p, hp, hmax, -, heq⟩ | ⟨hnone, -⟩
    · exact ⟨p, hp, hmax, heq⟩
    · have hframes := h.frames_le
      rw [hnone, Finset.card_empty] at hframes
      omega
  obtain ⟨pte, hmmap, hframe, -⟩ := globlPageMmap_eq { k with pmm := k.pmm.takePage p }
    (mul32 p pageSize / pageSize) (k.getGloblPageIndex (add32 k.vmmPos 0))
  have hloop : vmmAllocLoop k.vmmPos 1 0 k =
      (true, { k with pmm := k.pmm.takePage p, globlMmapPte := pte }) := by
    rw [vmmAllocLoop, heq]
    dsimp only
    rw [if_pos (Pmm.address_ne_zero h.bits hp)]
    exact (congrArg (vmmAllocLoop k.vmmPos 0 1) hmmap).trans rfl
  rw [hhead, hloop] at hcall
  unfold vmmTake at hcall
  dsimp only at hcall
  rw [if_pos rfl, hsub] at hcall
  refine ⟨fuel, _, hcall.trans (congrArg some (Prod.ext ?_ rfl)), ⟨?_, ?_, ?_, ?_⟩, rfl, rfl⟩
  · exact haddress
  · exact (Nat.sub_le _ 1).trans_lt hlt
  · intro x hx
    have hx' : x < k.vmmPos := by
      have : x ≤ k.vmmPos - 1 := hx
      omega
    have hfree := h.free x hx'.le
    unfold getVmmPage at hfree ⊢
    rw [if_pos (by lia), getGloblPageIndex_of_lt (by lia)] at hfree
    rw [if_pos (show x < k.vmmapPageCount by lia)]
    have hne : k.dmmapPageCount + x ≠ k.getGloblPageIndex (add32 k.vmmPos 0) := by
      rw [add32_of_lt (by lia), Nat.add_zero, getGloblPageIndex_of_lt hlt]
      omega
    have hsame : getPageAttr (pte (k.dmmapPageCount + x)) = 0 := by
      rw [hframe _ hne]
      exact hfree
    have hindex : k.getGloblPageIndex x = k.dmmapPageCount + x := getGloblPageIndex_of_lt (by lia)
    exact (congrArg (fun i => getPageAttr (pte i)) hindex).trans hsame
  · exact (Pmm.takePage_length _ _).trans_le h.bits
  · have hcard := h.frames_le
    rw [Pmm.reach_takePage hp hmax, Finset.card_erase_of_mem hp]
    omega

section Example

open Kernel

theorem tinyBoot_dmmapPageCount : tinyBoot.dmmapPageCount = 451 := by decide

theorem tinyKernel_vmmPos : tinyKernel.vmmPos = 196156 := by
  rw [tinyKernel, vmmInit_vmmPos, tinyBoot_dmmapPageCount]
  rfl

theorem tinyKernel_dmmapPageCount : tinyKernel.dmmapPageCount = 451 := by
  rw [tinyKernel, vmmInit_dmmapPageCount, tinyBoot_dmmapPageCount]

theorem tinyKernel_bits : tinyKernel.pmm.pmmBitmapLength ≤ 0x20000 :=
  (Bounded.of_reachable tinyKernel_reachable).pmmBitmapLength_le

theorem tinyKernel_settles (count : ℕ) : tinyKernel.VmmSettles count 196156 := by
  refine (vmmSettles_vmmInit tinyBoot (fun _ => 0) (fun _ => 0) (fun _ _ => 0) count _).2 ?_
  rw [tinyBoot_dmmapPageCount]
  rfl

/-- A request for two pages more than the window has maps the direct page 449 to the
frame 450. -/
theorem window_unsafe : ∃ s, (vmmMachine tinyBoot).Reachable s ∧ ¬ s.WindowSafe := by
  obtain ⟨fuel, hscan⟩ := exists_scan_of_vmmSettles
    (by rw [tinyKernel_vmmPos]; decide) (by decide : 196157 + 2 < 2 ^ 32) (tinyKernel_settles _)
  have hfirst : tinyKernel.getGloblPageIndex (add32 (add32 (sub32 196156 (196157 + 2)) 1) 0) = 449 := by
    rw [getGloblPageIndex, tinyKernel_dmmapPageCount]
    with_unfolding_all decide
  have hsecond : tinyKernel.getGloblPageIndex (add32 (add32 (sub32 196156 (196157 + 2)) 1) 1) = 450 := by
    rw [getGloblPageIndex, tinyKernel_dmmapPageCount]
    with_unfolding_all decide
  obtain ⟨k', hloop, hentry, hdmmap⟩ := tinyKernel.vmmAllocLoop_one_frame
    (add32 (sub32 196156 (196157 + 2)) 1) 196157 450 tinyKernel_bits reach_tinyKernel
    (by rw [hfirst]; decide) (by rw [hfirst, hsecond]; decide)
  have hcall := vmmAllocPage_of_scan hscan
  rw [hloop] at hcall
  have hstep : (vmmMachine tinyBoot).step ⟨tinyKernel, []⟩ (.vmmAllocPage (196157 + 2)) ⟨k', []⟩ :=
    ⟨⟨by decide, by decide⟩, 0, ⟨fuel, hcall⟩, rfl⟩
  refine ⟨⟨k', []⟩, .step (.init ⟨_, _, _, rfl⟩) hstep, fun hsafe => ?_⟩
  have hdirect := hsafe.direct 449 (by
    dsimp only
    rw [hdmmap, tinyKernel_dmmapPageCount]
    decide)
  rw [hfirst] at hentry
  exact absurd (hentry.symm.trans hdirect) (by decide)

theorem tinyKernel_vmmMmapPage : ∃ k, tinyKernel.vmmMmapPage (451 * pageSize) =
    (196607 * pageSize, k) ∧ k.pmm = tinyKernel.pmm ∧ k.dmmapPageCount = 451 ∧
    k.vmmPos = 196156 ∧ k.vmmBusy 196156 = true ∧ k.vmmBusy 196155 = false := by
  have hpages := tinyKernel.page_count
  have hdirect := tinyKernel_dmmapPageCount
  have hindex : tinyKernel.getGloblPageIndex (196155 + 1) = 196607 := by
    rw [getGloblPageIndex_of_lt (by lia), hdirect]
  have hfree : ∀ x, tinyKernel.getVmmPage x = 0 := getVmmPage_vmmInit _ _ _ _
  obtain ⟨pte, hmmap, hframe, hset⟩ := globlPageMmap_eq tinyKernel (451 * pageSize / pageSize) 196607
  have hcall : tinyKernel.vmmMmapPage (451 * pageSize) = (196607 * pageSize,
      { tinyKernel.globlPageMmap (451 * pageSize / pageSize) 196607 with
        vmmFreePageCount := sub32 tinyKernel.vmmFreePageCount 1
        vmmPos := 196155 + 1 }) := by
    have haddr : mul32 196607 pageSize = 196607 * pageSize := mul32_of_lt (by decide)
    rw [vmmMmapPage, hdirect, if_neg (by decide), tinyKernel_vmmPos, vmmMmapLoop, if_pos (hfree _),
      hindex]
    exact Prod.ext haddr rfl
  have hlast := hfree 196155
  generalize tinyKernel = k at *
  rw [hmmap] at hcall
  refine ⟨_, hcall, rfl, hdirect, rfl, ?_, ?_⟩
  · unfold vmmBusy getVmmPage
    rw [if_pos (show 196156 < k.vmmapPageCount by lia)]
    have hshown : getPageAttr (pte (k.getGloblPageIndex (196155 + 1))) ≠ 0 := by
      rw [hindex, hset (by decide), Nat.mul_div_cancel _ (by decide)]
      exact getPageAttr_kernelPage (by decide)
    exact decide_eq_true hshown
  · unfold vmmBusy getVmmPage
    rw [if_pos (show 196155 < k.vmmapPageCount by lia)]
    unfold getVmmPage at hlast
    rw [if_pos (by lia), getGloblPageIndex_of_lt (by lia), hdirect] at hlast
    have hshown : getPageAttr (pte (k.getGloblPageIndex 196155)) = 0 := by
      rw [getGloblPageIndex_of_lt (by lia), hdirect, hframe _ (by decide)]
      exact hlast
    exact decide_eq_false (not_not.2 hshown)

/-- The run of one `vmm_mmap_page` and one `vmm_alloc_page`, which takes the page below. -/
theorem window_safety_two_ranges :
    ∃ s : VmmRun, s.held = [(196606, 1), (196607, 1)] ∧ s.WindowSafe := by
  obtain ⟨k, hmmap, hpmm, hdirect, hpos, hbusy, hfree⟩ := tinyKernel_vmmMmapPage
  have hpages := k.page_count
  have hheld : VmmRun.heldAfter ⟨tinyKernel, []⟩ (196607 * pageSize) (.vmmMmapPage (451 * pageSize)) =
      [(196607, 1)] := by
    unfold VmmRun.heldAfter
    dsimp only
    rw [tinyKernel_dmmapPageCount]
    decide
  have hstep : ((vmmMachine tinyBoot).restrict VmmRun.SafeCall).step ⟨tinyKernel, []⟩
      (.vmmMmapPage (451 * pageSize)) ⟨k, [(196607, 1)]⟩ :=
    ⟨trivial, (by decide : 451 * pageSize < 2 ^ 32), _, ⟨(congrArg Prod.fst hmmap).symm,
      (congrArg Prod.snd hmmap).symm⟩, hheld.symm⟩
  -- the scan passes over the page that is taken
  have hsettles : k.VmmSettles 1 196155 := by
    unfold VmmSettles
    rw [hpos]
    have hnext : DownScan.below 32 196156 1 = 196155 := DownScan.below_of_le (by decide) (by decide)
    refine ⟨by decide, 1, hnext.symm, fun i hi => ?_, fun d hd hrun => ?_, .inl (by decide)⟩
    · obtain rfl : i = 0 := by omega
      rw [DownScan.below_zero (by decide), hfree]
    · obtain rfl : d = 0 := by omega
      have hfirst := hrun 0 (by decide)
      rw [DownScan.below_zero (by decide), DownScan.below_zero (by decide), hbusy] at hfirst
      cases hfirst
  have hlt : k.vmmPos < k.vmmapPageCount := by lia
  obtain ⟨fuel, hscan⟩ := exists_scan_of_vmmSettles (by lia) (by decide : 1 < 2 ^ 32) hsettles
  have hinside : k.RunInside 1 196155 := ⟨by omega, by decide⟩
  obtain ⟨k', hcall⟩ := vmmAllocPage_of_enough
    (by rw [hpmm]; exact tinyKernel_bits) hscan
    (by rw [hpmm, reach_tinyKernel, Finset.card_singleton])
  rw [hinside.windowAddress_eq hlt, hdirect] at hcall
  have hheld' : VmmRun.heldAfter ⟨k, [(196607, 1)]⟩ (196606 * pageSize) (.vmmAllocPage 1) =
      [(196606, 1), (196607, 1)] := by
    unfold VmmRun.heldAfter VmmRun.handedOut
    dsimp only
    rw [if_neg (by decide), Nat.mul_div_cancel _ (by decide)]
    rfl
  have hstep' : ((vmmMachine tinyBoot).restrict VmmRun.SafeCall).step ⟨k, [(196607, 1)]⟩
      (.vmmAllocPage 1) ⟨k', [(196606, 1), (196607, 1)]⟩ :=
    ⟨safeScan_one hlt, ⟨by decide, by decide⟩, _, ⟨fuel, hcall⟩, hheld'.symm⟩
  exact ⟨_, rfl, window_safety (.step (.step (.init ⟨_, _, _, rfl⟩) hstep) hstep')⟩

theorem highAttr_le_base : highAttr ≤ 0x1c0000 := by decide

/-- A machine with 454 pages, of which five are free after the boot. -/
def smallBoot : KernelBoot where
  memBaseAddr := 0x1c0000
  memLength := 0x1c6000
  highAttr_le := highAttr_le_base
  memBaseAddr_le := by decide
  memLength_lt := by decide
  bitmap_lt := by decide
  globlPtePage := 0x100
  highAttr_le_globlPte := tinyBoot.highAttr_le_globlPte
  globlPte_le := tinyBoot.globlPte_le

theorem smallBoot_pages : smallBoot.memBasePage = 449 ∧ smallBoot.memPageCount = 454 ∧
    smallBoot.dmmapPageCount = 454 := by decide

/-- Right after `vmm_init` on this machine the window is free. -/
def smallKernel : Kernel := vmmInit smallBoot (fun _ => 0) (fun _ => 0) fun _ _ => 0

theorem smallKernel_reachable : (memMachine smallBoot).Reachable smallKernel :=
  .init ⟨_, _, _, rfl⟩

theorem smallKernel_window : smallKernel.vmmPos = 196153 ∧ smallKernel.dmmapPageCount = 454 := by
  have hdmmap := smallBoot_pages.2.2
  rw [smallKernel, vmmInit_vmmPos, vmmInit_dmmapPageCount, hdmmap]
  exact ⟨rfl, rfl⟩

theorem smallKernel_fresh : smallKernel.FreshBelow 4 := by
  obtain ⟨hbase, hcount, hdmmap⟩ := smallBoot_pages
  obtain ⟨hpos, hdirect⟩ := smallKernel_window
  have hpages := smallKernel.page_count
  refine ⟨by lia, fun x _ => getVmmPage_vmmInit _ _ _ _ x,
    (Bounded.of_reachable smallKernel_reachable).pmmBitmapLength_le, ?_⟩
  have hreach : smallKernel.pmm.reach = {450, 451, 452, 453} := by
    ext p
    rw [smallKernel, vmmInit_pmm, Pmm.mem_reach_pmmInit, hbase, hcount]
    simp only [Finset.mem_insert, Finset.mem_singleton]
    omega
  rw [hreach]
  decide

end Example

end BitchKernel
