import BitchKernel.Mm.Pmm

/-!
# The global page table and page directories

The functions of `kernel/mm/kmm.c`, and those of `kernel/mm/umm.c` and
`kernel/mm/vmm.c` that they share with the rest: reading and writing an entry of a
page directory, and the direct pages that hold directories and page tables.

The kernel reaches a direct page under its own address, so `page p` holds the words
of the direct page `p`. The array `globl_mmap_pte` is kept apart from it; a page
directory names its pages in the half above `PAGE_OFFSET`.
-/

namespace BitchKernel

open Lib

abbrev globlPteNum : ℕ := globlPageNum / pagePteIndex

/-- The variables of `vmm.c`, the array of `kmm.c` and the memory behind them. What
lies behind the last entry of `globlMmapPte` is what a read past the array finds. -/
structure Kernel where
  pmm : Pmm
  globlMmapPte : ℕ → ℕ
  /-- The page at which `globl_mmap_pte` starts. -/
  globlPtePage : ℕ
  dmmapPageCount : ℕ
  vmmapPageCount : ℕ
  vmmFreePageCount : ℕ
  vmmPos : ℕ
  page : ℕ → ℕ → ℕ
  page_count : dmmapPageCount + vmmapPageCount = globlPageNum

namespace Kernel

/-! ## kmm.c -/

/-- `kernel_mmap_pde`, as `globl_mmap_init` and `mmap_init` leave it. -/
def kernelMmapPde (k : Kernel) (m : ℕ) : ℕ :=
  if pdeIndex pageOffset ≤ m ∧ m < pdeIndex pageOffset + globlPteNum then
    setPage ((k.globlPtePage + (m - pdeIndex pageOffset)) * pageSize) pageKernel
  else 0

def globlPageMmap (k : Kernel) (phyPageIndex globlPageIndex : ℕ) : Kernel :=
  if globlPageIndex < globlPteNum * pagePteIndex then
    { k with globlMmapPte :=
        Function.update k.globlMmapPte globlPageIndex (setPage (phyPageIndex * pageSize) pageKernel) }
  else k

def globlPageRemove (k : Kernel) (index : ℕ) : Kernel :=
  if index < globlPteNum * pagePteIndex then
    { k with globlMmapPte := Function.update k.globlMmapPte index 0 }
  else k

def getGloblPageAttr (k : Kernel) (pageIndex : ℕ) : ℕ := getPageAttr (k.globlMmapPte pageIndex)

/-- The macro `get_globl_phy_attr`. -/
def getGloblPhyAttr (k : Kernel) (attr : ℕ) : ℕ :=
  add32 (k.getGloblPageAttr (attr / pageSize)) (attr % pageSize)

/-! ## Direct pages -/

def dmmAllocPage (k : Kernel) (count : ℕ) : ℕ × Kernel :=
  let (attr, pmm) := k.pmm.pmmUpAllocPage count
  if k.dmmapPageCount < add32 (attr / pageSize) count then
    (0, { k with pmm := pmm.pmmFreePage attr count })
  else
    (attr, { k with pmm := pmm })

def dmmFreePage (k : Kernel) (attr count : ℕ) : Kernel :=
  { k with pmm := k.pmm.pmmFreePage attr count }

/-- All words of the page `table` points to. -/
def storePage (k : Kernel) (table : ℕ) (words : ℕ → ℕ) : Kernel :=
  { k with page := Function.update k.page (table / pageSize) words }

/-- `table[i] = value` for the page `table` points to. -/
def storeWord (k : Kernel) (table i value : ℕ) : Kernel :=
  k.storePage table (Function.update (k.page (table / pageSize)) i value)

/-- `table[i]`, also for a page of `globl_mmap_pte`. -/
def loadWord (k : Kernel) (table i : ℕ) : ℕ :=
  if k.globlPtePage ≤ table / pageSize ∧ table / pageSize < k.globlPtePage + globlPteNum then
    k.globlMmapPte ((table / pageSize - k.globlPtePage) * pagePteIndex + i)
  else k.page (table / pageSize) i

/-! ## umm.c -/

def getUmmValue (k : Kernel) (attr pde : ℕ) : ℕ :=
  let entry := k.loadWord pde (pdeIndex attr)
  if entry = 0 then 0 else k.loadWord (getPageAttr entry) (pteIndex attr)

/-- The page table of `set_umm_value`: the one the directory names, or a new one. -/
def ummTable (k : Kernel) (attr pde : ℕ) : ℕ × Kernel :=
  let entry := k.loadWord pde (pdeIndex attr)
  if getPageAttr entry = 0 then
    let (pte, k) := k.dmmAllocPage 1
    if pte = 0 then (0, k)
    else
      let k := k.storePage pte fun _ => 0
      (pte, k.storeWord pde (pdeIndex attr) (setPage pte pageUser))
  else (getPageAttr entry, k)

def setUmmValue (k : Kernel) (attr value pde : ℕ) : ℕ × Kernel :=
  if pageOffset ≤ attr then (0, k)
  else
    let (pte, k) := k.ummTable attr pde
    if pte = 0 then (0, k) else (1, k.storeWord pte (pteIndex attr) value)

def ummAllocPde (k : Kernel) : ℕ × Kernel :=
  let (pde, k) := k.dmmAllocPage 1
  if pde = 0 then (0, k) else (pde, k.storePage pde k.kernelMmapPde)

end Kernel

end BitchKernel
