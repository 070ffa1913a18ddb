import BitchKernel.Arch.Descriptor
import BitchKernel.Intr.Stub
import BitchKernel.Mm.KernelHalf

/-!
# Paging is turned on

`mmap_init` of `kernel/mm/mmap.c` behind `vmm_init`, and `kernel/mm/flush.S`. The image of
the kernel is linked to the addresses it is loaded to, and runs there in the flat segments
of the boot loader. Later it runs in segments that start at `PAGE_OFFSET`. In between
paging is on while the old segments are still in use, so the image is mapped at both
places for that long. A segment keeps its base until its register is loaded again, and
a load reads the descriptor at its linear address, which only paging makes lead to the
table. The walk reads the tables as they are in memory; what the processor remembers of
an earlier walk is left out.
-/

namespace BitchKernel

open Lib

/-- What the processor keeps of a descriptor with `SEGM_G`: the base and the last offset. -/
structure Segment where
  base : ℕ
  limit : ℕ
deriving DecidableEq

def SegmentDescriptor.segment (d : SegmentDescriptor) : Segment :=
  ⟨d.base.toNat, d.limit.toNat * pageSize + (pageSize - 1)⟩

def flatSegment : Segment := ⟨0, 0xffffffff⟩

def kernelSegment : Segment := ⟨pageOffset, 0xffffffff⟩

/-- `_ptr_t`. -/
structure Ptr where
  limit : ℕ
  baseAttr : ℕ

/-- `load_gdt`, with `sizeof(_segment_descriptor_t)`. -/
def loadGdt (baseAttr length : ℕ) : Ptr := ⟨sub32 (8 * length) 1 % 0x10000, baseAttr⟩

abbrev gdtLength : ℕ := 6

/-- Where the image holds `gdt_list` and `globl_tss`. -/
structure Gdt where
  address : ℕ
  globlTss : BitVec 32

/-- The table as `gdt_init` loads it: under the address it has with paging. -/
def Gdt.ptr (gdt : Gdt) : Ptr := loadGdt (add32 gdt.address pageOffset) gdtLength

/-- The state of the processor and the directory during `mmap_init`. -/
structure MmapState where
  kernel : Kernel
  kernelMmapPde : ℕ → ℕ
  /-- `cr3` points to `kernel_mmap_pde`. -/
  pdeLoaded : Bool
  paging : Bool
  segment : X86.Seg → Segment

inductive MmapStep
  | loadPde
  | setEntry (i : ℕ)
  | clearEntry (i : ℕ)
  | setPaging
  | loadSegment (r : X86.Seg) (s : X86.Selector)

def Kernel.getGloblPte (k : Kernel) (pteIndex : ℕ) : ℕ := (k.globlPtePage + pteIndex) * pageSize

/-- `set_page(get_globl_pte(i), PAGE_PRESENT|PAGE_WRITE)`. -/
def Kernel.globlPteEntry (k : Kernel) (i : ℕ) : ℕ := setPage (k.getGloblPte i) pageKernel

namespace MmapState

def translate (s : MmapState) (acc : PageAccess) (linear : ℕ) : Option ℕ :=
  if s.paging then
    if s.pdeLoaded then s.kernel.walk acc s.kernelMmapPde linear else none
  else some linear

def access (s : MmapState) (r : X86.Seg) (acc : PageAccess) (offset : ℕ) : Option ℕ :=
  if offset ≤ (s.segment r).limit then s.translate acc (add32 (s.segment r).base offset) else none

/-- The eight bytes of the descriptor `n` are in the table and read from there. -/
def FindsDescriptor (s : MmapState) (gdt : Gdt) (n : ℕ) : Prop :=
  n * 8 + 7 ≤ gdt.ptr.limit ∧ ∀ j < 8,
    s.translate ⟨false, false⟩ (add32 gdt.ptr.baseAttr (n * 8 + j)) =
      some (gdt.address + (n * 8 + j))

instance (s : MmapState) (gdt : Gdt) (n : ℕ) : Decidable (s.FindsDescriptor gdt n) :=
  inferInstanceAs (Decidable (_ ∧ ∀ j < 8, _))

/-- A step, or `none` for a fault. -/
def step (gdt : Gdt) (s : MmapState) : MmapStep → Option MmapState
  | .loadPde => some { s with pdeLoaded := true }
  | .setEntry i => some { s with
      kernelMmapPde := Function.update s.kernelMmapPde i (s.kernel.globlPteEntry i) }
  | .clearEntry i => some { s with kernelMmapPde := Function.update s.kernelMmapPde i 0 }
  | .setPaging => some { s with paging := true }
  | .loadSegment r selector =>
      if s.FindsDescriptor gdt (selector >>> 3).toNat then
        (gdtInit gdt.globlTss)[(selector >>> 3).toNat]?.map fun d =>
          { s with segment := Function.update s.segment r d.segment }
      else none

/-- The steps lead from one state to another without a fault, through states that meet `P`. -/
inductive Passes (gdt : Gdt) (P : MmapState → Prop) : MmapState → List MmapStep → MmapState → Prop
  | nil {s : MmapState} (h : P s) : Passes gdt P s [] s
  | cons {s s' s'' : MmapState} {a : MmapStep} {as : List MmapStep} (h : P s)
      (hstep : s.step gdt a = some s') (hs : Passes gdt P s' as s'') : Passes gdt P s (a :: as) s''

end MmapState

/-- The registers `mm_flush` loads, `cs` by the far jump at its end. -/
def segmentLoads : List (X86.Seg × X86.Selector) :=
  [(.ds, kernelData), (.es, kernelData), (.fs, kernelData), (.gs, kernelData), (.ss, kernelData),
    (.cs, kernelCode)]

def mmFlush : List MmapStep := .setPaging :: segmentLoads.map fun load => .loadSegment load.1 load.2

/-- `kernel_page_num`; `_kernel_end` is `_mem_base_addr`, as the image starts at `HIGH_ATTR`. -/
def KernelBoot.kernelPageNum (b : KernelBoot) : ℕ :=
  sub32 (add32 b.memBaseAddr pageSize) 1 / pageSize

/-- `mmap_init` behind `vmm_init`. -/
def mmapSteps (b : KernelBoot) : List MmapStep :=
  .loadPde :: ((List.range (b.kernelPageNum / pagePteIndex + 1)).map .setEntry ++
    (mmFlush ++ (List.range (b.kernelPageNum / pagePteIndex + 1)).map .clearEntry))

/-- The state `vmm_init` leaves. -/
def mmapStart (k : Kernel) : MmapState where
  kernel := k
  kernelMmapPde := k.kernelMmapPde
  pdeLoaded := false
  paging := false
  segment _ := flatSegment

def mmapEnd (k : Kernel) : MmapState where
  kernel := k
  kernelMmapPde := k.kernelMmapPde
  pdeLoaded := true
  paging := true
  segment _ := kernelSegment

/-! ## The directory on the way -/

/-- `kernel_mmap_pde` with the entries from `lo` to `hi` set for the low half. -/
def Kernel.lowPde (k : Kernel) (lo hi m : ℕ) : ℕ :=
  if lo ≤ m ∧ m < hi then k.globlPteEntry m else k.kernelMmapPde m

namespace Kernel

variable {k : Kernel} {lo hi : ℕ}

theorem lowPde_of_le (h : hi ≤ lo) : k.lowPde lo hi = k.kernelMmapPde := by
  funext m
  exact if_neg (by omega)

theorem update_lowPde_set (h : lo ≤ hi) :
    Function.update (k.lowPde lo hi) hi (k.globlPteEntry hi) = k.lowPde lo (hi + 1) := by
  funext m
  by_cases hm : m = hi
  · rw [hm, Function.update_self]
    exact (if_pos ⟨h, Nat.lt_succ_self hi⟩).symm
  · rw [Function.update_of_ne hm]
    unfold lowPde
    exact if_congr (by omega) rfl rfl

theorem update_lowPde_clear (h : lo < pdeIndex pageOffset) :
    Function.update (k.lowPde lo hi) lo 0 = k.lowPde (lo + 1) hi := by
  funext m
  by_cases hm : m = lo
  · rw [hm, Function.update_self]
    unfold lowPde kernelMmapPde
    rw [if_neg (fun hle => Nat.not_succ_le_self lo hle.1), if_neg (by omega)]
  · rw [Function.update_of_ne hm]
    unfold lowPde
    exact if_congr (by omega) rfl rfl

theorem lowPde_high (h : hi ≤ pdeIndex pageOffset) (m : ℕ) (hm : pdeIndex pageOffset ≤ m) :
    k.lowPde lo hi m = k.kernelMmapPde m :=
  if_neg (by omega)

end Kernel

/-! ## Where the image is mapped -/

section Walk

variable {k : Kernel} {acc : PageAccess} {attr : ℕ}

theorem walk_lowPde (hacc : acc.user = false) {hi : ℕ} (hindex : pdeIndex attr < hi)
    (hattr : attr < globlPageNum * pageSize)
    (hdirect : k.globlMmapPte (attr / pageSize) = setPage (attr / pageSize * pageSize) pageKernel) :
    k.walk acc (k.lowPde 0 hi) attr = some attr := by
  obtain ⟨hpde, hpte⟩ := Tabled.index_eq attr
  have htable : attr / pageSize / pagePteIndex < globlPteNum := by lia
  have hentry : k.lowPde 0 hi (pdeIndex attr) = k.globlPteEntry (pdeIndex attr) :=
    if_pos ⟨Nat.zero_le _, hindex⟩
  have hleaf := k.loadWord_globl htable (attr / pageSize % pagePteIndex)
  rw [Nat.div_add_mod', hdirect] at hleaf
  unfold Kernel.walk
  dsimp only
  unfold Kernel.globlPteEntry Kernel.getGloblPte at hentry
  rw [hentry, PageAccess.allowed_kernel, hacc, getPageAttr_setPage, pageBase_mul, hpde, hpte, hleaf,
    PageAccess.allowed_kernel, hacc, getPageAttr_setPage, pageBase_mul]
  simp only [Bool.not_false, if_true]
  rw [Nat.div_add_mod']

theorem walk_kernelPde (hacc : acc.user = false) {pde : ℕ → ℕ}
    (hpde : ∀ m, pdeIndex pageOffset ≤ m → pde m = k.kernelMmapPde m)
    (hattr : attr < globlPageNum * pageSize)
    (hdirect : k.globlMmapPte (attr / pageSize) = setPage (attr / pageSize * pageSize) pageKernel) :
    k.walk acc pde (pageOffset + attr) = some attr := by
  rw [Kernel.walk_linear hattr acc pde hpde, hdirect, PageAccess.allowed_kernel, hacc,
    getPageAttr_setPage, pageBase_mul]
  simp only [Bool.not_false, Bool.and_self, if_true]
  rw [Nat.div_add_mod']

end Walk

/-! ## The run -/

namespace MmapState

/-- The kernel reaches its image under the addresses it was linked to, in every segment. -/
def ReachesImage (b : KernelBoot) (s : MmapState) : Prop :=
  ∀ r acc, acc.user = false → ∀ a < b.memBaseAddr, s.access r acc a = some a

namespace Passes

variable {gdt : Gdt} {P : MmapState → Prop} {s s' s'' : MmapState} {as as' : List MmapStep}

theorem append (h : Passes gdt P s as s') (h' : Passes gdt P s' as' s'') :
    Passes gdt P s (as ++ as') s'' := by
  induction h with
  | nil _ => exact h'
  | cons hP hstep _ ih => exact .cons hP hstep (ih h')

theorem last (h : Passes gdt P s as s') : P s' := by
  induction h with
  | nil hP => exact hP
  | cons _ _ _ ih => exact ih

theorem snoc {a : MmapStep} (h : Passes gdt P s as s') (hstep : s'.step gdt a = some s'')
    (hP : P s'') : Passes gdt P s (as ++ [a]) s'' :=
  h.append (.cons h.last hstep (.nil hP))

/-- A loop over the numbers below `n`, with the state after each round. -/
theorem range {f : ℕ → MmapStep} (state : ℕ → MmapState) (n : ℕ) (hP : ∀ i ≤ n, P (state i))
    (hstep : ∀ i < n, (state i).step gdt (f i) = some (state (i + 1))) :
    Passes gdt P (state 0) ((List.range n).map f) (state n) := by
  induction n with
  | zero => exact .nil (hP 0 le_rfl)
  | succ n ih =>
      rw [List.range_succ, List.map_append, List.map_singleton]
      exact (ih (fun i hi => hP i (by omega)) fun i hi => hstep i (by omega)).snoc
        (hstep n (by omega)) (hP _ le_rfl)

end Passes

end MmapState

section Run

variable {b : KernelBoot} {k : Kernel} {gdt : Gdt}

/-- The direct pages show the frames of their index. -/
def Kernel.Direct (k : Kernel) (count : ℕ) : Prop :=
  ∀ x < count, k.globlMmapPte x = setPage (x * pageSize) pageKernel

theorem reachesImage_unpaged (hfits : b.memBaseAddr ≤ b.dmmapPageCount * pageSize)
    (pde : ℕ → ℕ) (loaded : Bool) :
    MmapState.ReachesImage b ⟨k, pde, loaded, false, fun _ => flatSegment⟩ := by
  intro r acc _ a ha
  have hle := b.dmmapPageCount_le
  have hadd : add32 0 a = a := by
    rw [add32_of_lt (by lia), Nat.zero_add]
  unfold MmapState.access MmapState.translate flatSegment
  dsimp only
  rw [if_pos (by lia), hadd]
  rfl

theorem access_paged {pde : ℕ → ℕ} {segment : X86.Seg → Segment} {r : X86.Seg} {acc : PageAccess}
    {a : ℕ} (h : a ≤ (segment r).limit) : MmapState.access ⟨k, pde, true, true, segment⟩ r acc a =
      k.walk acc pde (add32 (segment r).base a) :=
  if_pos h

/-- With paging it does so through the low half from a flat segment, as long as that is set,
and through the high half from a segment of the kernel. -/
theorem reachesImage_paged (hfits : b.memBaseAddr ≤ b.dmmapPageCount * pageSize)
    (hdirect : k.Direct b.dmmapPageCount) {lo hi : ℕ} (hhi : hi ≤ pdeIndex pageOffset)
    {segment : X86.Seg → Segment}
    (hseg : ∀ r, segment r = kernelSegment ∨ segment r = flatSegment ∧ lo = 0 ∧
      ∀ a < b.memBaseAddr, pdeIndex a < hi) :
    MmapState.ReachesImage b ⟨k, k.lowPde lo hi, true, true, segment⟩ := by
  intro r acc hacc a ha
  have hle := b.dmmapPageCount_le
  have hattr : a < globlPageNum * pageSize := by lia
  have hpage := hdirect (a / pageSize) (Nat.div_lt_of_lt_mul (by lia))
  have hlimit : a ≤ (segment r).limit := by
    rcases hseg r with hr | ⟨hr, -, -⟩
    · rw [hr, kernelSegment]
      lia
    · rw [hr, flatSegment]
      lia
  rw [access_paged hlimit]
  rcases hseg r with hr | ⟨hr, hlo, hindex⟩
  · have hadd : add32 pageOffset a = pageOffset + a := add32_of_lt (by lia)
    rw [hr, kernelSegment, hadd]
    exact walk_kernelPde hacc (Kernel.lowPde_high hhi) hattr hpage
  · have hadd : add32 0 a = a := by
      rw [add32_of_lt (by lia), Nat.zero_add]
    rw [hr, flatSegment, hadd, hlo]
    exact walk_lowPde hacc (hindex a ha) hattr hpage

/-- The two descriptors `mm_flush` loads. -/
theorem gdtInit_kernel (globlTss : BitVec 32) {selector : X86.Selector}
    (h : selector = kernelCode ∨ selector = kernelData) :
    (selector >>> 3).toNat < 3 ∧ ∃ d, (gdtInit globlTss)[(selector >>> 3).toNat]? = some d ∧
      d.segment = kernelSegment := by
  rcases h with rfl | rfl
  · exact ⟨by decide, setSegmentDescriptor 0xc0000000 (limitFrom 0xc0000000) 0xc09a, rfl, by decide⟩
  · exact ⟨by decide, setSegmentDescriptor 0xc0000000 (limitFrom 0xc0000000) 0xc092, rfl, by decide⟩

theorem step_loadSegment (hfits : b.memBaseAddr ≤ b.dmmapPageCount * pageSize)
    (hdirect : k.Direct b.dmmapPageCount) (hgdt : gdt.address + gdtLength * 8 ≤ b.memBaseAddr)
    {hi : ℕ} (hhi : hi ≤ pdeIndex pageOffset) (segment : X86.Seg → Segment) (r : X86.Seg)
    {selector : X86.Selector} (hsel : selector = kernelCode ∨ selector = kernelData) :
    MmapState.step gdt ⟨k, k.lowPde 0 hi, true, true, segment⟩ (.loadSegment r selector) =
      some ⟨k, k.lowPde 0 hi, true, true, Function.update segment r kernelSegment⟩ := by
  have hle := b.dmmapPageCount_le
  obtain ⟨hlt, d, hd, hsegment⟩ := gdtInit_kernel gdt.globlTss hsel
  have hfinds : MmapState.FindsDescriptor ⟨k, k.lowPde 0 hi, true, true, segment⟩ gdt
      (selector >>> 3).toNat := by
    have hlimit : gdt.ptr.limit = 47 := by
      unfold Gdt.ptr loadGdt
      dsimp only
      rw [sub32_of_le (by decide) (by decide)]
      rfl
    refine ⟨by omega, fun j hj => ?_⟩
    have hbase : gdt.ptr.baseAttr = gdt.address + pageOffset := add32_of_lt (by lia)
    have hadd : add32 gdt.ptr.baseAttr ((selector >>> 3).toNat * 8 + j) =
        pageOffset + (gdt.address + ((selector >>> 3).toNat * 8 + j)) := by
      rw [hbase, add32_of_lt (by lia)]
      omega
    rw [hadd]
    exact walk_kernelPde rfl (Kernel.lowPde_high hhi) (by lia)
      (hdirect _ (Nat.div_lt_of_lt_mul (by lia)))
  unfold MmapState.step
  dsimp only
  rw [if_pos hfinds, hd, Option.map_some, hsegment]

theorem passes_loads (hfits : b.memBaseAddr ≤ b.dmmapPageCount * pageSize)
    (hdirect : k.Direct b.dmmapPageCount) (hgdt : gdt.address + gdtLength * 8 ≤ b.memBaseAddr)
    {hi : ℕ} (hhi : hi ≤ pdeIndex pageOffset) (hindex : ∀ a < b.memBaseAddr, pdeIndex a < hi)
    (loads : List (X86.Seg × X86.Selector))
    (hsel : ∀ load ∈ loads, load.2 = kernelCode ∨ load.2 = kernelData)
    (segment : X86.Seg → Segment)
    (hseg : ∀ r, segment r = kernelSegment ∨ segment r = flatSegment) :
    MmapState.Passes gdt (MmapState.ReachesImage b) ⟨k, k.lowPde 0 hi, true, true, segment⟩
      (loads.map fun load => .loadSegment load.1 load.2)
      ⟨k, k.lowPde 0 hi, true, true, loads.foldl
        (fun segment load => Function.update segment load.1 kernelSegment) segment⟩ := by
  have hreaches : MmapState.ReachesImage b ⟨k, k.lowPde 0 hi, true, true, segment⟩ :=
    reachesImage_paged hfits hdirect hhi fun r => (hseg r).imp_right fun hr => ⟨hr, rfl, hindex⟩
  induction loads generalizing segment with
  | nil => exact .nil hreaches
  | cons load loads ih =>
      have hnext : ∀ r, Function.update segment load.1 kernelSegment r = kernelSegment ∨
          Function.update segment load.1 kernelSegment r = flatSegment := by
        intro r
        by_cases hr : r = load.1
        · rw [hr, Function.update_self]
          exact .inl rfl
        · rw [Function.update_of_ne hr]
          exact hseg r
      have hstep := step_loadSegment hfits hdirect hgdt hhi segment load.1
        (hsel load List.mem_cons_self)
      refine .cons hreaches hstep
        (ih (fun l hl => hsel l (List.mem_cons_of_mem load hl)) _ hnext ?_)
      exact reachesImage_paged hfits hdirect hhi fun r =>
        (hnext r).imp_right fun hr => ⟨hr, rfl, hindex⟩

theorem foldl_segmentLoads (segment : X86.Seg → Segment) :
    segmentLoads.foldl (fun segment load => Function.update segment load.1 kernelSegment) segment =
      fun _ => kernelSegment := by
  funext r
  cases r <;> rfl

theorem kernelPageNum_bounds (hfits : b.memBaseAddr ≤ b.dmmapPageCount * pageSize) :
    b.kernelPageNum / pagePteIndex + 1 ≤ pdeIndex pageOffset ∧
      ∀ a < b.memBaseAddr, pdeIndex a < b.kernelPageNum / pagePteIndex + 1 := by
  have hle := b.dmmapPageCount_le
  have hpages : b.kernelPageNum = (b.memBaseAddr + pageSize - 1) / pageSize := by
    unfold KernelBoot.kernelPageNum
    rw [sub32_add32_of_lt (by lia) (by lia) (by lia)]
  rw [hpages]
  unfold pdeIndex
  refine ⟨by lia, fun a ha => by lia⟩

end Run

/-- **Paging is turned on under the running kernel.** Where the image lies in the direct
pages, `mmap_init` goes through: no step faults, and before and after each of them every
offset of the image leads to the same byte of memory in every segment, for the next
instruction and the stack as for the data. At the end the segments are those of the kernel,
`kernel_mmap_pde` has its entries above `PAGE_OFFSET` only, and no address below leads
anywhere. -/
theorem paging_turned_on (b : KernelBoot) (hfits : b.memBaseAddr ≤ b.dmmapPageCount * pageSize)
    (memory : Bitmap) (behind : ℕ → ℕ) (page : ℕ → ℕ → ℕ) (gdt : Gdt)
    (hgdt : gdt.address + gdtLength * 8 ≤ b.memBaseAddr) :
    MmapState.Passes gdt (MmapState.ReachesImage b) (mmapStart (.vmmInit b memory behind page))
        (mmapSteps b) (mmapEnd (.vmmInit b memory behind page)) ∧
      ∀ acc linear, linear < pageOffset →
        (mmapEnd (.vmmInit b memory behind page)).translate acc linear = none := by
  obtain ⟨pte, hinit, hbelow, -⟩ := Kernel.vmmInit_eq b memory behind page
  generalize Kernel.vmmInit b memory behind page = k at hinit
  have hdirect : k.Direct b.dmmapPageCount := by
    intro x hx
    rw [hinit]
    exact hbelow x hx
  obtain ⟨hhi, hindex⟩ := kernelPageNum_bounds hfits
  generalize hn : b.kernelPageNum / pagePteIndex + 1 = n at hhi hindex
  constructor
  · have hset : MmapState.Passes gdt (MmapState.ReachesImage b)
        ⟨k, k.lowPde 0 0, true, false, fun _ => flatSegment⟩ ((List.range n).map .setEntry)
        ⟨k, k.lowPde 0 n, true, false, fun _ => flatSegment⟩ :=
      .range (fun i => ⟨k, k.lowPde 0 i, true, false, fun _ => flatSegment⟩) n
        (fun i _ => reachesImage_unpaged hfits _ _) fun i _ => by
          unfold MmapState.step
          dsimp only
          rw [Kernel.update_lowPde_set (Nat.zero_le i)]
    have hloads := passes_loads hfits hdirect hgdt hhi hindex segmentLoads (by decide)
      (fun _ => flatSegment) fun _ => .inr rfl
    rw [foldl_segmentLoads] at hloads
    have hclear : MmapState.Passes gdt (MmapState.ReachesImage b)
        ⟨k, k.lowPde 0 n, true, true, fun _ => kernelSegment⟩ ((List.range n).map .clearEntry)
        ⟨k, k.lowPde n n, true, true, fun _ => kernelSegment⟩ :=
      .range (fun i => ⟨k, k.lowPde i n, true, true, fun _ => kernelSegment⟩) n
        (fun i _ => reachesImage_paged hfits hdirect hhi fun _ => .inl rfl) fun i hi => by
          unfold MmapState.step
          dsimp only
          rw [Kernel.update_lowPde_clear (by omega)]
    rw [Kernel.lowPde_of_le le_rfl] at hclear hset
    unfold mmapSteps mmFlush
    rw [hn]
    exact .cons (reachesImage_unpaged hfits _ _) rfl
      (hset.append (.cons (reachesImage_unpaged hfits _ _) rfl (hloads.append hclear)))
  · intro acc linear hlinear
    have hentry : k.kernelMmapPde (pdeIndex linear) = 0 :=
      if_neg fun h => absurd (Tabled.pdeIndex_lt hlinear) (Nat.not_lt_of_le h.1)
    unfold MmapState.translate mmapEnd Kernel.walk
    dsimp only
    rw [hentry, PageAccess.allowed_zero]
    rfl

theorem paging_turned_on_tiny :
    MmapState.Passes ⟨0x101000, 0x102000⟩ (MmapState.ReachesImage Kernel.tinyBoot)
      (mmapStart Kernel.tinyKernel) (mmapSteps Kernel.tinyBoot) (mmapEnd Kernel.tinyKernel) :=
  (paging_turned_on Kernel.tinyBoot (by decide) _ _ _ ⟨0x101000, 0x102000⟩ (by decide)).1

end BitchKernel
