import BitchKernel.Mm.Alloc
import BitchKernel.Mm.UmmSafety
import BitchKernel.Mm.VmmSafety
import BitchKernel.Process.Process

/-!
# Starting a program

`exec` of `kernel/process/exec.c` takes a page directory, a copy of the path and,
through `process_create`, the stack of the new process, from three allocators. It
gives the directory back when `process_create` returns no number, and nothing when
there is no room for the path; the path is never given back.
-/

namespace BitchKernel

open Lib

/-! ## A failing page allocation -/

namespace Pmm

/-- `pmm_up_alloc_page` begins at the page 0 and may take it: its address is `NULL`. -/
def TakesNull (s : Pmm) : Prop := s.pmmHeadPos = 0 ∧ 0 < s.pmmTailPos ∧ 0 ∈ s.freePages

theorem freePages_takeRun_one (s : Pmm) (p : ℕ) : (s.takeRun p 1).freePages = s.freePages.erase p := by
  rw [freePages_takeRun, Nat.Ico_succ_singleton, Finset.sdiff_singleton_eq_erase]

end Pmm

namespace Kernel

variable {k : Kernel} {fuel count : ℕ}

/-- `vmm_alloc_page` returns `NULL`: its scan ends without a run, or there is not a
frame for every page of the run, or the run starts at the address zero. -/
def AllocFails (k : Kernel) (count : ℕ) : Prop :=
  (∃ fuel, k.vmmScan fuel count = some none) ∨
    ∃ p, k.VmmSettles count p ∧ (k.pmm.reach.card < count ∨ k.windowAddress p count = 0)

theorem vmmAllocPage_mono {r : ℕ × Kernel} (h : k.vmmAllocPage fuel count = some r) (more : ℕ) :
    k.vmmAllocPage (fuel + more) count = some r := by
  unfold vmmAllocPage at h ⊢
  obtain ⟨found, hscan, hr⟩ := Option.map_eq_some_iff.1 h
  have hmore : k.vmmScan (fuel + more) count = some found := DownScan.downScan_mono hscan more
  rw [hmore, Option.map_some, hr]

theorem Bounded.vmmAllocPage_of_scan (h : k.Bounded) {p : ℕ}
    (hscan : k.vmmScan fuel count = some (some p)) :
    ∃ k', k.vmmAllocPage fuel count =
      some (if k.pmm.reach.card < count then 0 else k.windowAddress p count, k') := by
  have hfst := vmmAllocLoop_fst (add32 (sub32 p count) 1) count 0 k h.pmmBitmapLength_le
  obtain ⟨r, pmm, pte, hloop, -⟩ := vmmAllocLoop_eq (add32 (sub32 p count) 1) count 0 k
  rw [hloop] at hfst
  have hcall := Kernel.vmmAllocPage_of_scan hscan
  rw [hloop] at hcall
  by_cases hless : k.pmm.reach.card < count
  · rw [if_pos hless]
    obtain rfl : r = false := hfst.trans (decide_eq_false (by omega))
    exact ⟨_, hcall⟩
  · rw [if_neg hless]
    obtain rfl : r = true := hfst.trans (decide_eq_true (by omega))
    exact ⟨_, hcall⟩

theorem Bounded.allocFails_iff (h : k.Bounded) (hcount : count < 2 ^ 32) :
    k.AllocFails count ↔ ∃ fuel k', k.vmmAllocPage fuel count = some (0, k') := by
  constructor
  · rintro (⟨fuel, hscan⟩ | ⟨p, hsettles, hfail⟩)
    · refine ⟨fuel, k, ?_⟩
      unfold vmmAllocPage
      rw [hscan]
      rfl
    · obtain ⟨fuel, hscan⟩ := exists_scan_of_vmmSettles h.vmmPos_lt hcount hsettles
      obtain ⟨k', hcall⟩ := h.vmmAllocPage_of_scan hscan
      refine ⟨fuel, k', hcall.trans ?_⟩
      rcases hfail with hless | hzero
      · rw [if_pos hless]
      · rw [hzero, ite_self]
  · rintro ⟨fuel, k', hcall⟩
    rcases hscan : k.vmmScan fuel count with _ | _ | p
    · unfold vmmAllocPage at hcall
      rw [hscan] at hcall
      exact absurd hcall (by simp)
    · exact .inl ⟨fuel, hscan⟩
    · refine .inr ⟨p, vmmSettles_of_scan h.vmmPos_lt hcount hscan, ?_⟩
      obtain ⟨k'', hcall'⟩ := h.vmmAllocPage_of_scan hscan
      have hzero := (Prod.mk.inj (Option.some.inj (hcall'.symm.trans hcall))).1
      by_cases hless : k.pmm.reach.card < count
      · exact .inl hless
      · rw [if_neg hless] at hzero
        exact .inr hzero

/-- `dmm_alloc_page(1)` takes a page, or takes the page 0 and returns `NULL`, or takes
none. -/
theorem Bounded.dmmAllocPage_cases (h : k.Bounded) (hdirect : 0 < k.dmmapPageCount) :
    (∃ p ≠ 0, p ∈ k.pmm.freePages ∧ (k.dmmAllocPage 1).1 ≠ 0 ∧
      p ∉ (k.dmmAllocPage 1).2.pmm.freePages ∧ ¬ k.pmm.TakesNull) ∨
    (k.pmm.TakesNull ∧ (k.dmmAllocPage 1).1 = 0 ∧
      (k.dmmAllocPage 1).2.pmm.freePages = k.pmm.freePages.erase 0) ∨
    (¬ k.pmm.TakesNull ∧ (k.dmmAllocPage 1).1 = 0 ∧
      (k.dmmAllocPage 1).2.pmm.freePages = k.pmm.freePages) := by
  have hbits := h.pmmBitmapLength_le
  have hone : ¬ k.dmmapPageCount < add32 (0 / pageSize) 1 := by
    rw [Nat.zero_div, add32_of_lt (by decide)]
    omega
  unfold dmmAllocPage
  dsimp only
  rcases k.pmm.pmmUpAllocPage_cases 1 with ⟨p, hhead, htail, hrun, hmin, hup⟩ | ⟨hnone, hup⟩
  · have hfree : p ∈ k.pmm.freePages := hrun 0 (by decide)
    have hlt := (Pmm.mem_freePages.1 hfree).1
    have haddr : mul32 p pageSize = p * pageSize := mul32_of_lt (by lia)
    rw [hup, haddr]
    dsimp only
    by_cases hp0 : p = 0
    · obtain rfl := hp0
      rw [Nat.zero_mul, if_neg hone]
      have hnull : k.pmm.TakesNull := ⟨by omega, htail, hfree⟩
      exact .inr (.inl ⟨hnull, rfl, Pmm.freePages_takeRun_one _ _⟩)
    · have hne : p * pageSize ≠ 0 := Nat.mul_ne_zero hp0 (by decide)
      -- the walk starts at the page 0 only when it is not free
      have hnull : ¬ k.pmm.TakesNull := by
        rintro ⟨hhead0, -, hzero⟩
        refine hmin 0 (by omega) (by omega) fun i hi => ?_
        obtain rfl : i = 0 := by omega
        exact hzero
      by_cases hout : k.dmmapPageCount < add32 (p * pageSize / pageSize) 1
      · rw [if_pos hout]
        refine .inr (.inr ⟨hnull, rfl, ?_⟩)
        dsimp only
        have hdiv : p * pageSize / pageSize = p := Nat.mul_div_cancel p (by decide)
        have hadd : add32 p 0 = p := add32_of_lt (by lia)
        rw [Pmm.freePages_pmmFreePage, Pmm.freePages_takeRun_one, Pmm.takeRun_length, hdiv,
          Finset.range_one, Finset.image_singleton, hadd, Finset.filter_singleton, if_pos hlt]
        exact Finset.erase_union_eq p _ hfree
      · rw [if_neg hout]
        have hused : p ∉ (k.pmm.takeRun p 1).freePages := by
          rw [Pmm.freePages_takeRun_one]
          exact Finset.notMem_erase p _
        exact .inl ⟨p, hp0, hfree, hne, hused, hnull⟩
  · rw [hup]
    dsimp only
    rw [if_neg hone]
    refine .inr (.inr ⟨?_, rfl, rfl⟩)
    rintro ⟨hhead, htail, hfree⟩
    refine hnone 0 (by omega) htail fun i hi => ?_
    obtain rfl : i = 0 := by omega
    exact hfree

end Kernel

/-! ## exec -/

/-- The memory management, the heap with its live blocks, and the scheduler. -/
structure ExecState where
  kernel : Kernel
  run : HeapRun
  sched : Sched

namespace Heap

/-- The first byte behind the last block. -/
def tail (h : Heap) : ℕ := add32 h.pos (h.mem h.pos).length

/-- A request for `len` bytes is cut from the last page. -/
def Fits (h : Heap) (len : ℕ) : Prop :=
  h.pos ≠ 0 ∧ add32 len sizeofAllocHeader ≤
    sub32 (pageBase (sub32 (add32 h.tail pageSize) 1)) h.tail

instance (h : Heap) (len : ℕ) : Decidable (h.Fits len) := inferInstanceAs (Decidable (_ ∧ _))

/-- The pages a request for `len` bytes asks for otherwise. -/
def pageCount (len : ℕ) : ℕ :=
  sub32 (add32 (add32 len sizeofAllocHeader) pageSize) 1 / pageSize

theorem pageCount_lt (len : ℕ) : pageCount len < 2 ^ 32 :=
  Nat.lt_of_le_of_lt (Nat.div_le_self _ _) (Word.sub_lt 32 _ _)

variable {h : Heap} {len : ℕ}

theorem kmalloc_of_fits (hfits : h.Fits len) (answer : ℕ → ℕ) :
    h.kmalloc answer len = (add32 h.tail sizeofAllocHeader,
      h.link h.tail (add32 len sizeofAllocHeader), []) := if_pos hfits

theorem kmalloc_of_not_fits (hfits : ¬ h.Fits len) (answer : ℕ → ℕ) :
    h.kmalloc answer len =
      if answer (pageCount len) = 0 then
        (0, h, [.vmmAllocPage (pageCount len) (answer (pageCount len))])
      else
        (add32 (answer (pageCount len)) sizeofAllocHeader,
          h.link (answer (pageCount len)) (add32 len sizeofAllocHeader),
          [.vmmAllocPage (pageCount len) (answer (pageCount len))]) := if_neg hfits

end Heap

def Kernel.vmmCall (fuel : ℕ) (k : Kernel) : VmmCall → Option Kernel
  | .vmmAllocPage count _ => (k.vmmAllocPage fuel count).map Prod.snd
  | .vmmFreePage attr num => some (k.vmmFreePage attr num.toNat)

namespace ExecState

/-- The answers of `vmm_alloc_page` in this state. -/
def answer (s : ExecState) (fuel count : ℕ) : ℕ :=
  ((s.kernel.vmmAllocPage fuel count).map Prod.fst).getD 0

/-- `kmalloc`, with its pages from `vmm_alloc_page`. -/
def kmalloc (s : ExecState) (fuel len : ℕ) : Option (ℕ × ExecState) :=
  let op := HeapOp.kmalloc (s.answer fuel) len
  ((s.run.calls op).foldlM (Kernel.vmmCall fuel) s.kernel).map fun kernel =>
    ((s.run.heap.kmalloc (s.answer fuel) len).1, { s with kernel := kernel, run := s.run.next op })

/-- `process_create`, with the stack from `vmm_alloc_page`. -/
def processCreate (s : ExecState) (fuel pde : ℕ) : Option (ℕ × ExecState) :=
  (s.kernel.vmmAllocPage fuel (kernelStackSize / pageSize)).map fun (new, kernel) =>
    ((s.sched.processCreate new pde).1,
      { s with kernel := kernel, sched := (s.sched.processCreate new pde).2 })

/-- `exec`, for the `strlen` of its path. -/
def exec (s : ExecState) (fuel strlen : ℕ) : Option (ℕ × ExecState) :=
  let (pde, kernel) := s.kernel.ummAllocPde
  let s := { s with kernel := kernel }
  if pde = 0 then some (0, s)
  else
    (s.kmalloc fuel (add32 strlen 1)).bind fun (p, s) =>
      if p = 0 then some (0, s)
      else
        (s.processCreate fuel pde).map fun (pid, s) =>
          if pid = 0 then (pid, { s with kernel := s.kernel.ummFree pde }) else (pid, s)

/-- What a failed `exec` is to leave as it was: the allocated pages, the live blocks
and the processes. -/
def SameResources (s s' : ExecState) : Prop :=
  s'.kernel.pmm.freePages = s.kernel.pmm.freePages ∧ s'.run.live = s.run.live ∧ s'.sched = s.sched

/-- Whenever `exec` returns 0 it leaves these as they were. -/
def FailsCleanly (s : ExecState) (strlen : ℕ) : Prop :=
  ∀ fuel s', s.exec fuel strlen = some (0, s') → s.SameResources s'

/-- `kmalloc` has no room for a block of `len` bytes. -/
def KmallocFails (s : ExecState) (len : ℕ) : Prop :=
  if s.run.heap.Fits len then add32 s.run.heap.tail sizeofAllocHeader = 0
  else s.kernel.AllocFails (Heap.pageCount len)

/-- `process_create` gets no stack, or the number of the process is zero. -/
def ProcessCreateFails (s : ExecState) : Prop :=
  s.kernel.AllocFails (kernelStackSize / pageSize) ∨
    (s.sched.newPid = 0 ∧ ∃ p, s.kernel.VmmSettles (kernelStackSize / pageSize) p)

/-- The state behind a call of `umm_alloc_pde`. -/
def afterPde (s : ExecState) : ExecState := { s with kernel := s.kernel.ummAllocPde.2 }

/-- `exec` takes the page 0 for a directory and believes that there is none, or it
gets a directory and fails later. -/
def LeavesSomething (s : ExecState) (strlen : ℕ) : Prop :=
  s.kernel.pmm.TakesNull ∨
    (s.kernel.ummAllocPde.1 ≠ 0 ∧
      (s.afterPde.KmallocFails (add32 strlen 1) ∨
        ∃ fuel p s', s.afterPde.kmalloc fuel (add32 strlen 1) = some (p, s') ∧ p ≠ 0 ∧
          s'.ProcessCreateFails))

/-! ## The calls of exec -/

variable {s s' : ExecState} {fuel len p : ℕ}

theorem kmalloc_of_fits (hfits : s.run.heap.Fits len) :
    s.kmalloc fuel len = some (add32 s.run.heap.tail sizeofAllocHeader,
      { s with run := s.run.next (.kmalloc (s.answer fuel) len) }) := by
  unfold kmalloc HeapRun.calls
  dsimp only
  rw [Heap.kmalloc_of_fits hfits]
  rfl

theorem kmalloc_of_not_fits (hfits : ¬ s.run.heap.Fits len) :
    s.kmalloc fuel len = (s.kernel.vmmAllocPage fuel (Heap.pageCount len)).map fun r =>
      (if r.1 = 0 then 0 else add32 r.1 sizeofAllocHeader,
        { s with kernel := r.2, run := s.run.next (.kmalloc (s.answer fuel) len) }) := by
  have hkmalloc := Heap.kmalloc_of_not_fits hfits (s.answer fuel)
  unfold kmalloc HeapRun.calls
  dsimp only
  rcases hcall : s.kernel.vmmAllocPage fuel (Heap.pageCount len) with _ | ⟨mem, kernel⟩
  · have hanswer : s.answer fuel (Heap.pageCount len) = 0 := by
      unfold answer
      rw [hcall]
      rfl
    rw [hkmalloc, if_pos hanswer]
    simp [Kernel.vmmCall, hcall]
  · have hanswer : s.answer fuel (Heap.pageCount len) = mem := by
      unfold answer
      rw [hcall]
      rfl
    rw [hkmalloc, hanswer]
    by_cases hmem : mem = 0
    · simp [Kernel.vmmCall, hcall, hmem]
    · simp [Kernel.vmmCall, hcall, hmem]

theorem live_of_kmalloc (hcall : s.kmalloc fuel len = some (p, s')) (hp : p ≠ 0) :
    s'.run.live ≠ s.run.live ∧ s'.sched = s.sched := by
  unfold kmalloc at hcall
  dsimp only at hcall
  obtain ⟨kernel, -, hpair⟩ := Option.map_eq_some_iff.1 hcall
  obtain ⟨rfl, rfl⟩ := Prod.mk.inj hpair
  refine ⟨?_, rfl⟩
  unfold HeapRun.next
  dsimp only
  rw [if_neg hp]
  exact fun hsame => absurd (congrArg List.length hsame) (by simp)

theorem mod_pageSize_of_vmmAllocPage {k k' : Kernel} {count r : ℕ}
    (hcall : k.vmmAllocPage fuel count = some (r, k')) : r % pageSize = 0 := by
  rcases Kernel.vmmAllocPage_cases hcall with ⟨-, rfl, -⟩ | ⟨p, kMapped, -, hreturn⟩
  · rfl
  · rcases hreturn with ⟨-, rfl, -⟩ | ⟨-, rfl, -⟩
    · unfold Kernel.vmmTake
      dsimp only
      rw [mul32_eq, Nat.mod_mod_of_dvd _ (by decide), Nat.mul_mod_left]
    · rfl

theorem kernel_of_kmalloc (hcall : s.kmalloc fuel len = some (p, s')) :
    s'.kernel = s.kernel ∨
      ∃ r, s.kernel.vmmAllocPage fuel (Heap.pageCount len) = some (r, s'.kernel) := by
  by_cases hfits : s.run.heap.Fits len
  · rw [kmalloc_of_fits hfits] at hcall
    obtain ⟨-, rfl⟩ := Prod.mk.inj (Option.some.inj hcall)
    exact .inl rfl
  · rw [kmalloc_of_not_fits hfits] at hcall
    obtain ⟨r, hvmm, hpair⟩ := Option.map_eq_some_iff.1 hcall
    obtain ⟨-, rfl⟩ := Prod.mk.inj hpair
    exact .inr ⟨r.1, hvmm⟩

/-- `kmalloc` returns `NULL` for some number of tests exactly when it has no room. -/
theorem kmallocFails_iff (h : s.kernel.Bounded) :
    s.KmallocFails len ↔ ∃ fuel s', s.kmalloc fuel len = some (0, s') := by
  unfold KmallocFails
  by_cases hfits : s.run.heap.Fits len
  · rw [if_pos hfits]
    constructor
    · intro hzero
      have hcall : s.kmalloc 0 len = _ := kmalloc_of_fits hfits
      rw [hzero] at hcall
      exact ⟨0, _, hcall⟩
    · rintro ⟨fuel, s', hcall⟩
      rw [kmalloc_of_fits hfits] at hcall
      exact (Prod.mk.inj (Option.some.inj hcall)).1
  · rw [if_neg hfits, h.allocFails_iff (Heap.pageCount_lt len)]
    constructor
    · rintro ⟨fuel, k', hvmm⟩
      have hcall : s.kmalloc fuel len = _ := kmalloc_of_not_fits hfits
      rw [hvmm] at hcall
      exact ⟨fuel, _, hcall⟩
    · rintro ⟨fuel, s', hcall⟩
      rw [kmalloc_of_not_fits hfits] at hcall
      obtain ⟨⟨mem, k'⟩, hvmm, hpair⟩ := Option.map_eq_some_iff.1 hcall
      have hzero := (Prod.mk.inj hpair).1
      have hmod := mod_pageSize_of_vmmAllocPage hvmm
      by_cases hmem : mem = 0
      · exact ⟨fuel, k', hmem ▸ hvmm⟩
      · -- a page and the header behind it do not reach the end of the address space
        rw [if_neg hmem, add32_eq] at hzero
        lia

theorem kmalloc_mono {r : ℕ × ExecState} (hcall : s.kmalloc fuel len = some r) (more : ℕ) :
    s.kmalloc (fuel + more) len = some r := by
  have hnext : ∀ answer answer' : ℕ → ℕ,
      s.run.heap.kmalloc answer len = s.run.heap.kmalloc answer' len →
        s.run.next (.kmalloc answer len) = s.run.next (.kmalloc answer' len) := by
    intro answer answer' hsame
    unfold HeapRun.next HeapRun.calls
    dsimp only
    rw [hsame]
  by_cases hfits : s.run.heap.Fits len
  · rw [kmalloc_of_fits hfits] at hcall ⊢
    rw [← hcall, hnext (s.answer (fuel + more)) (s.answer fuel)]
    rw [Heap.kmalloc_of_fits hfits, Heap.kmalloc_of_fits hfits]
  · rw [kmalloc_of_not_fits hfits] at hcall ⊢
    obtain ⟨r', hvmm, hr⟩ := Option.map_eq_some_iff.1 hcall
    have hmore := Kernel.vmmAllocPage_mono hvmm more
    have hanswer : s.answer (fuel + more) (Heap.pageCount len) =
        s.answer fuel (Heap.pageCount len) := by
      unfold answer
      rw [hvmm, hmore]
    rw [hmore, Option.map_some, ← hr, hnext (s.answer (fuel + more)) (s.answer fuel)]
    rw [Heap.kmalloc_of_not_fits hfits, Heap.kmalloc_of_not_fits hfits, hanswer]

theorem Bounded.of_kmalloc (h : s.kernel.Bounded) (hcall : s.kmalloc fuel len = some (p, s')) :
    s'.kernel.Bounded := by
  rcases kernel_of_kmalloc hcall with hsame | ⟨r, hvmm⟩
  · exact hsame ▸ h
  · have hkeeps := Kernel.Keeps.vmmAllocPage hvmm
    exact ⟨hkeeps.vmmPos_lt h.vmmPos_lt, hkeeps.length ▸ h.pmmBitmapLength_le⟩

end ExecState

theorem Sched.processCreate_fst (s : Sched) (new pde : ℕ) :
    (s.processCreate new pde).1 = if new = 0 then 0 else s.newPid := by
  unfold processCreate initNew linkNew
  by_cases hnew : new = 0
  · rw [if_pos hnew, if_pos hnew]
  · rw [if_neg hnew, if_neg hnew]
    dsimp only [store]
    by_cases hself : new = s.currentProcess
    · simp [hself]
    · simp [hself]

namespace ExecState

variable {s s' : ExecState} {fuel : ℕ}

theorem processCreate_of_call {new : ℕ} {k' : Kernel} (pde : ℕ)
    (hvmm : s.kernel.vmmAllocPage fuel (kernelStackSize / pageSize) = some (new, k')) :
    s.processCreate fuel pde = some (if new = 0 then 0 else s.sched.newPid,
      { s with kernel := k', sched := (s.sched.processCreate new pde).2 }) := by
  unfold processCreate
  rw [hvmm, ← s.sched.processCreate_fst new pde]
  rfl

theorem processCreateFails_iff (h : s.kernel.Bounded) (pde : ℕ) :
    s.ProcessCreateFails ↔ ∃ fuel s', s.processCreate fuel pde = some (0, s') := by
  have hcount : kernelStackSize / pageSize < 2 ^ 32 := by decide
  unfold ProcessCreateFails
  rw [h.allocFails_iff hcount]
  constructor
  · rintro (⟨fuel, k', hvmm⟩ | ⟨hpid, p, hsettles⟩)
    · have hcall := processCreate_of_call pde hvmm
      rw [if_pos rfl] at hcall
      exact ⟨fuel, _, hcall⟩
    · obtain ⟨fuel, hscan⟩ := Kernel.exists_scan_of_vmmSettles h.vmmPos_lt hcount hsettles
      obtain ⟨k', hvmm⟩ := h.vmmAllocPage_of_scan hscan
      have hcall := processCreate_of_call pde hvmm
      rw [hpid, ite_self] at hcall
      exact ⟨fuel, _, hcall⟩
  · rintro ⟨fuel, s', hcall⟩
    rcases hvmm : s.kernel.vmmAllocPage fuel (kernelStackSize / pageSize) with _ | ⟨new, k'⟩
    · unfold processCreate at hcall
      rw [hvmm] at hcall
      exact absurd hcall (by simp)
    · rw [processCreate_of_call pde hvmm] at hcall
      have hpid := (Prod.mk.inj (Option.some.inj hcall)).1
      by_cases hnew : new = 0
      · exact .inl ⟨fuel, k', hnew ▸ hvmm⟩
      · rw [if_neg hnew] at hpid
        refine .inr ⟨hpid, ?_⟩
        rcases Kernel.vmmAllocPage_cases hvmm with ⟨-, hzero, -⟩ | ⟨p, -, hscan, -⟩
        · exact absurd hzero hnew
        · exact ⟨p, Kernel.vmmSettles_of_scan h.vmmPos_lt hcount hscan⟩

theorem processCreate_mono {pde : ℕ} {r : ℕ × ExecState}
    (hcall : s.processCreate fuel pde = some r) (more : ℕ) :
    s.processCreate (fuel + more) pde = some r := by
  unfold processCreate at hcall ⊢
  obtain ⟨r', hvmm, hr⟩ := Option.map_eq_some_iff.1 hcall
  rw [Kernel.vmmAllocPage_mono hvmm more, Option.map_some, hr]

/-! ## What a failed exec leaves -/

variable {strlen : ℕ}

theorem exec_of_no_pde (hpde : s.kernel.ummAllocPde.1 = 0) :
    s.exec fuel strlen = some (0, s.afterPde) := if_pos hpde

theorem exec_of_pde (hpde : s.kernel.ummAllocPde.1 ≠ 0) :
    s.exec fuel strlen =
      (s.afterPde.kmalloc fuel (add32 strlen 1)).bind fun (p, s') =>
        if p = 0 then some (0, s')
        else
          (s'.processCreate fuel s.kernel.ummAllocPde.1).map fun (pid, s') =>
            if pid = 0 then (pid, { s' with kernel := s'.kernel.ummFree s.kernel.ummAllocPde.1 })
            else (pid, s') := if_neg hpde

/-- Without room for the path the page of the directory stays allocated. -/
theorem not_sameResources_of_kmallocFails (h : s.kernel.Bounded) (hdirect : 0 < s.kernel.dmmapPageCount)
    (hpde : s.kernel.ummAllocPde.1 ≠ 0) (hfail : s.afterPde.KmallocFails (add32 strlen 1)) :
    ∃ fuel s', s.exec fuel strlen = some (0, s') ∧ ¬ s.SameResources s' := by
  have hkeeps := Kernel.Keeps.ummAllocPde s.kernel
  have hafter : s.afterPde.kernel.Bounded :=
    ⟨hkeeps.vmmPos_lt h.vmmPos_lt, hkeeps.length ▸ h.pmmBitmapLength_le⟩
  obtain ⟨fuel, s', hcall⟩ := (kmallocFails_iff hafter).1 hfail
  refine ⟨fuel, s', ?_, ?_⟩
  · rw [exec_of_pde hpde, hcall]
    rfl
  · obtain ⟨hfst, hpmm⟩ := s.kernel.ummAllocPde_eq
    rcases h.dmmAllocPage_cases hdirect with ⟨p, hp, hfree, -, hused, -⟩ | ⟨-, hzero, -⟩ | ⟨-, hzero, -⟩
    · rintro ⟨hsame, -, -⟩
      rw [← hpmm] at hused
      rw [← hsame] at hfree
      rcases kernel_of_kmalloc hcall with hkernel | ⟨r, hvmm⟩
      · rw [hkernel] at hfree
        exact hused hfree
      · exact Kernel.notMem_freePages_vmmAllocPage hvmm hp hused hfree
    · exact absurd (hfst.trans hzero) hpde
    · exact absurd (hfst.trans hzero) hpde

theorem not_sameResources_of_processCreateFails {fuel p : ℕ} (h : s'.kernel.Bounded)
    (hpde : s.kernel.ummAllocPde.1 ≠ 0)
    (hcall : s.afterPde.kmalloc fuel (add32 strlen 1) = some (p, s')) (hp : p ≠ 0)
    (hfail : s'.ProcessCreateFails) :
    ∃ fuel s', s.exec fuel strlen = some (0, s') ∧ ¬ s.SameResources s' := by
  obtain ⟨fuel', s'', hcreate⟩ := (processCreateFails_iff h s.kernel.ummAllocPde.1).1 hfail
  refine ⟨fuel + fuel', { s'' with kernel := s''.kernel.ummFree s.kernel.ummAllocPde.1 }, ?_, ?_⟩
  · have hcreate' := processCreate_mono hcreate fuel
    rw [Nat.add_comm fuel' fuel] at hcreate'
    rw [exec_of_pde hpde, kmalloc_mono hcall fuel', Option.bind_some]
    dsimp only
    rw [if_neg hp, hcreate', Option.map_some]
    rfl
  · have hlive : s''.run.live = s'.run.live := by
      unfold processCreate at hcreate
      obtain ⟨r, -, hpair⟩ := Option.map_eq_some_iff.1 hcreate
      rw [← (Prod.mk.inj hpair).2]
    rintro ⟨-, hsame, -⟩
    exact (live_of_kmalloc hcall hp).1 (hlive.symm.trans hsame)

/-- **A failed `exec` undoes what it did exactly when it fails before it did
anything.** In every reachable state of the memory, for every path and every state of the
heap and the scheduler: whenever `exec` returns 0, the allocated pages, the live blocks
and the processes are as before, if and only if the first allocation does not take
the page 0 and, should there be a page directory, neither the copy of the path nor
the process fails. -/
theorem exec_undone_iff {b : KernelBoot} (hk : (memMachine b).Reachable s.kernel) :
    s.FailsCleanly strlen ↔ ¬ s.LeavesSomething strlen := by
  have h := Kernel.Bounded.of_reachable hk
  have hdirect : 0 < s.kernel.dmmapPageCount := by
    rw [Kernel.dmmapPageCount_of_reachable hk]
    exact b.dmmapPageCount_pos
  have hkeeps := Kernel.Keeps.ummAllocPde s.kernel
  have hafter : s.afterPde.kernel.Bounded :=
    ⟨hkeeps.vmmPos_lt h.vmmPos_lt, hkeeps.length ▸ h.pmmBitmapLength_le⟩
  obtain ⟨hfst, hpmm⟩ := s.kernel.ummAllocPde_eq
  constructor
  · rintro hundone (hnull | ⟨hpde, hfail | ⟨fuel, p, s', hcall, hp, hfail⟩⟩)
    · rcases h.dmmAllocPage_cases hdirect with ⟨-, -, -, -, -, hnot⟩ | ⟨-, hzero, herase⟩ | ⟨hnot, -⟩
      · exact hnot hnull
      · have hsame := (hundone 0 s.afterPde (exec_of_no_pde (hfst.trans hzero))).1
        have hfree := hnull.2.2
        rw [← hsame, afterPde, hpmm, herase] at hfree
        exact Finset.notMem_erase 0 _ hfree
      · exact hnot hnull
    · obtain ⟨fuel, s', hexec, hnot⟩ := not_sameResources_of_kmallocFails h hdirect hpde hfail
      exact hnot (hundone fuel s' hexec)
    · obtain ⟨fuel, s', hexec, hnot⟩ :=
        not_sameResources_of_processCreateFails (Bounded.of_kmalloc hafter hcall) hpde hcall hp hfail
      exact hnot (hundone fuel s' hexec)
  · intro hleaves fuel s' hexec
    obtain ⟨hnull, hlater⟩ := not_or.1 hleaves
    by_cases hpde : s.kernel.ummAllocPde.1 = 0
    · rw [exec_of_no_pde hpde] at hexec
      obtain ⟨-, rfl⟩ := Prod.mk.inj (Option.some.inj hexec)
      refine ⟨?_, rfl, rfl⟩
      rcases h.dmmAllocPage_cases hdirect with ⟨-, -, -, hne, -⟩ | ⟨hyes, -⟩ | ⟨-, -, hsame⟩
      · exact absurd (hfst.symm.trans hpde) hne
      · exact absurd hyes hnull
      · exact (congrArg Pmm.freePages hpmm).trans hsame
    · obtain ⟨hkmalloc, hcreate⟩ := not_or.1 fun hfail => hlater ⟨hpde, hfail⟩
      rw [exec_of_pde hpde] at hexec
      obtain ⟨⟨p, s₁⟩, hcall, hrest⟩ := Option.bind_eq_some_iff.1 hexec
      dsimp only at hrest
      by_cases hp : p = 0
      · exact absurd ((kmallocFails_iff hafter).2 ⟨fuel, s₁, hp ▸ hcall⟩) hkmalloc
      · rw [if_neg hp] at hrest
        obtain ⟨⟨pid, s₂⟩, hcall', hpair⟩ := Option.map_eq_some_iff.1 hrest
        dsimp only at hpair
        by_cases hpid : pid = 0
        · refine absurd ⟨fuel, p, s₁, hcall, hp, ?_⟩ hcreate
          exact (processCreateFails_iff (Bounded.of_kmalloc hafter hcall) _).2 ⟨fuel, s₂, hpid ▸ hcall'⟩
        · rw [if_neg hpid] at hpair
          exact absurd (Prod.mk.inj hpair).1 hpid

section Example

def bootExec (kernel : Kernel) : ExecState where
  kernel := kernel
  run := ⟨⟨fun _ => ⟨0, 0, 0⟩, 0⟩, [], ∅⟩
  sched := Sched.initCurrentProcess 0xc0100000 0xc0101000 ⟨fun _ => ⟨.run, 0, 0, 0, 0, 0, 0⟩, 0, 0, fun _ => 0, 0⟩

/-- Where no page is free, a failed `exec` leaves nothing. -/
theorem exec_undone_full_memory : (bootExec Kernel.fullKernel).FailsCleanly 4 := by
  refine (exec_undone_iff (s := bootExec Kernel.fullKernel) Kernel.fullKernel_reachable).2 ?_
  have hfree := Kernel.freePages_fullKernel
  rintro (⟨-, -, hzero⟩ | ⟨hpde, -⟩)
  · rw [show (bootExec Kernel.fullKernel).kernel.pmm.freePages = ∅ from hfree] at hzero
    exact Finset.notMem_empty 0 hzero
  · have hreach := Kernel.fullKernel_reachable
    have hdirect : 0 < Kernel.fullKernel.dmmapPageCount := by
      rw [Kernel.dmmapPageCount_of_reachable hreach]
      exact Kernel.fullBoot.dmmapPageCount_pos
    refine hpde (Kernel.fullKernel.ummAllocPde_eq.1.trans ?_)
    rcases (Kernel.Bounded.of_reachable hreach).dmmAllocPage_cases hdirect with
      ⟨p, -, hp, -⟩ | ⟨-, hzero, -⟩ | ⟨-, hzero, -⟩
    · rw [hfree] at hp
      exact absurd hp (Finset.notMem_empty p)
    · exact hzero
    · exact hzero

/-- On a machine with two free pages `exec` returns 0 and keeps the first of them: the
second is behind the reach of `pmm_alloc_page`, so there is no room for the path. -/
theorem exec_keeps_directory : ∃ s : ExecState, (memMachine Kernel.tinyBoot).Reachable s.kernel ∧
    ¬ s.FailsCleanly 4 := by
  have hbase : Kernel.tinyBoot.memBasePage = 449 := by decide
  have hcount : Kernel.tinyBoot.memPageCount = 451 := by decide
  have hdirect := tinyBoot_dmmapPageCount
  have hpos := tinyKernel_dmmapPageCount
  obtain ⟨pmm, hspans, hpde⟩ := ummAllocPde_vmmInit (b := Kernel.tinyBoot)
    (by rw [hbase, hcount]; decide) (by rw [hbase, hdirect]; decide)
  obtain ⟨-, -, hsettles, -⟩ := pdeRun_window (b := Kernel.tinyBoot)
    (by rw [hbase, hcount]; decide) (by rw [hbase, hdirect]; decide)
  rw [hbase, hcount] at hspans
  have hreach : pmm.reach = ∅ := by
    have hhead := hspans.headPos
    have htail := hspans.tailPos
    refine Finset.eq_empty_of_forall_notMem fun q hq => ?_
    obtain ⟨-, hlo, hhi⟩ := Pmm.mem_reach.1 hq
    omega
  have hpmm : (pdeRun Kernel.tinyBoot).kernel.pmm = pmm := by
    rw [pdeRun, hpde]
  refine ⟨bootExec Kernel.tinyKernel, Kernel.tinyKernel_reachable, ?_⟩
  suffices ∃ fuel s', (bootExec Kernel.tinyKernel).exec fuel 4 = some (0, s') ∧
      ¬ (bootExec Kernel.tinyKernel).SameResources s' by
    obtain ⟨fuel, s', hexec, hnot⟩ := this
    exact fun hclean => hnot (hclean fuel s' hexec)
  refine not_sameResources_of_kmallocFails (Kernel.Bounded.of_reachable Kernel.tinyKernel_reachable)
    (by rw [bootExec, hpos]; decide) ?_ ?_
  · have hfst : Kernel.tinyKernel.ummAllocPde.1 = Kernel.tinyBoot.memBasePage * pageSize :=
      congrArg Prod.fst hpde
    rw [bootExec, hfst, hbase]
    decide
  · have hfits : ¬ (bootExec Kernel.tinyKernel).afterPde.run.heap.Fits (add32 4 1) :=
      fun hfits => hfits.1 rfl
    unfold KmallocFails
    rw [if_neg hfits]
    have hkernel : (bootExec Kernel.tinyKernel).afterPde.kernel = (pdeRun Kernel.tinyBoot).kernel := rfl
    have hone : Heap.pageCount (add32 4 1) = 1 := by with_unfolding_all decide
    rw [hkernel, hone]
    refine .inr ⟨_, (hsettles _ _).2 rfl, .inl ?_⟩
    rw [hpmm, hreach, Finset.card_empty]
    exact Nat.zero_lt_one

end Example

end ExecState

end BitchKernel
