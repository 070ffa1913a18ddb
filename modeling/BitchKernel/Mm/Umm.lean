import BitchKernel.Lib.Machine
import BitchKernel.Mm.Vmm

/-!
# Page directories of processes

`umm_mmap_kmm`, `umm_ummap_kmm`, `umm_handler` and `umm_free` of `kernel/mm/umm.c`,
and the calls of the memory management together, as one relation between the
state before a call, its answer and the state after it.
-/

namespace BitchKernel

open Lib

namespace Kernel

/-- The number of pages that `len` bytes from `attr` on touch, as the code computes
it. -/
def ummPageCount (attr len : ℕ) : ℕ :=
  sub32 (add32 (sub32 (add32 attr len) (pageBase attr)) pageSize) 1 / pageSize

/-- The window of `umm_mmap_kmm` for a single page. -/
def ummMmapOne (k : Kernel) (fuel mmapAttr pde : ℕ) : Option (ℕ × Kernel) :=
  let phyAttr := getPageAttr (k.getUmmValue mmapAttr pde)
  if phyAttr = 0 then
    (k.vmmAllocPage fuel 1).map fun (p, k) =>
      if p ≠ 0 then (p, (k.setUmmValue mmapAttr (setPage (k.getGloblPhyAttr p) pageUser) pde).2)
      else (p, k)
  else some (k.vmmMmapPage phyAttr)

def ummMmapKmm (k : Kernel) (fuel attr len pde : ℕ) : Option (ℕ × Kernel) :=
  if pageOffset < add32 attr len then some (0, k)
  else
    let mmapAttr := pageBase attr
    let pageConut := ummPageCount attr len
    let window :=
      if pageConut = 1 then k.ummMmapOne fuel mmapAttr pde
      else k.vmmMmapPdePage fuel mmapAttr pageConut pde
    window.map fun (p, k) => if p = 0 then (0, k) else (sub32 (add32 p attr) mmapAttr, k)

def ummUmmapKmm (k : Kernel) (attr len : ℕ) : Kernel :=
  k.vmmUmmapPage (pageBase attr) (ummPageCount attr len)

/-- `umm_handler` for the page fault address `attr`. -/
def ummHandler (k : Kernel) (attr pde : ℕ) : ℕ × Kernel :=
  let (phy, pmm) := k.pmm.pmmAllocPage
  let k := { k with pmm := pmm }
  if phy = 0 then (0, k)
  else
    let (done, k) := k.setUmmValue attr (setPage phy pageUser) pde
    if done = 0 then (0, { k with pmm := k.pmm.pmmFreePage phy 1 }) else (1, k)

/-- The inner loop of `umm_free`, over the first `n` entries of a page table. -/
def ummFreeTable (pte : ℕ) : (n : ℕ) → Kernel → Kernel
  | 0, k => k
  | n + 1, k =>
      let k := ummFreeTable pte n k
      let attr := getPageAttr (k.loadWord pte n)
      if attr ≠ 0 then { k with pmm := k.pmm.pmmFreePage attr 1 } else k

/-- The outer loop of `umm_free`, over the first `m` entries of the directory. -/
def ummFreeLoop (pde : ℕ) : (m : ℕ) → Kernel → Kernel
  | 0, k => k
  | m + 1, k =>
      let k := ummFreeLoop pde m k
      let pte := getPageAttr (k.loadWord pde m)
      if pte ≠ 0 then (ummFreeTable pte pagePteIndex k).dmmFreePage pte 1 else k

def ummFree (k : Kernel) (pde : ℕ) : Kernel :=
  (ummFreeLoop pde (pdeIndex pageOffset) k).dmmFreePage pde 1

end Kernel

/-- A call of the memory management, or a store of words by whoever may reach the
page. -/
inductive MemCall
  | vmmAllocPage (count : ℕ)
  | vmmFreePage (attr count : ℕ)
  | vmmMmapPage (phyAttr : ℕ)
  | vmmMmapPdePage (attr count pde : ℕ)
  | vmmUmmapPage (attr count : ℕ)
  | dmmAllocPage (count : ℕ)
  | dmmFreePage (attr count : ℕ)
  | ummAllocPde
  | ummHandler (attr pde : ℕ)
  | ummMmapKmm (attr len pde : ℕ)
  | ummUmmapKmm (attr len : ℕ)
  | ummFree (pde : ℕ)
  | store (table : ℕ) (words : ℕ → ℕ)

namespace Kernel

/-- The call returns `r` and leaves the state `k'`. -/
def Returns (k : Kernel) : MemCall → ℕ → Kernel → Prop
  | .vmmAllocPage count, r, k' => ∃ fuel, k.vmmAllocPage fuel count = some (r, k')
  | .vmmFreePage attr count, r, k' => r = 0 ∧ k' = k.vmmFreePage attr count
  | .vmmMmapPage phyAttr, r, k' => r = (k.vmmMmapPage phyAttr).1 ∧ k' = (k.vmmMmapPage phyAttr).2
  | .vmmMmapPdePage attr count pde, r, k' =>
      ∃ fuel, k.vmmMmapPdePage fuel attr count pde = some (r, k')
  | .vmmUmmapPage attr count, r, k' => r = 0 ∧ k' = k.vmmUmmapPage attr count
  | .dmmAllocPage count, r, k' => r = (k.dmmAllocPage count).1 ∧ k' = (k.dmmAllocPage count).2
  | .dmmFreePage attr count, r, k' => r = 0 ∧ k' = k.dmmFreePage attr count
  | .ummAllocPde, r, k' => r = k.ummAllocPde.1 ∧ k' = k.ummAllocPde.2
  | .ummHandler attr pde, r, k' => r = (k.ummHandler attr pde).1 ∧ k' = (k.ummHandler attr pde).2
  | .ummMmapKmm attr len pde, r, k' => ∃ fuel, k.ummMmapKmm fuel attr len pde = some (r, k')
  | .ummUmmapKmm attr len, r, k' => r = 0 ∧ k' = k.ummUmmapKmm attr len
  | .ummFree pde, r, k' => r = 0 ∧ k' = k.ummFree pde
  | .store table words, r, k' => r = 0 ∧ k' = k.storePage table words

end Kernel

/-- The runs of the memory management from `vmm_init` on. -/
def memMachine (b : KernelBoot) : Machine Kernel MemCall where
  init k := ∃ memory behind page, k = Kernel.vmmInit b memory behind page
  step k call k' := ∃ r, k.Returns call r k'

end BitchKernel
