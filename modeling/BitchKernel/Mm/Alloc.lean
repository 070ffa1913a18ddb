import BitchKernel.Def
import BitchKernel.Lib.Machine
import Mathlib.Data.Finset.Lattice.Fold
import Mathlib.Logic.Function.Basic
import Mathlib.Order.Interval.Finset.Nat

/-!
# The kernel heap

`kmalloc` and `kfree` of `kernel/mm/alloc.c`. Every block begins with a header,
and the headers form a list in the order of the requests, with `pos` at the most
recent block. A request is cut from the rest of the last page of that block when
it fits there, and otherwise gets whole pages of its own from `vmm_alloc_page`.

The answers of `vmm_alloc_page` are a parameter of `kmalloc`; both functions
return the calls they make to the page allocator.
-/

namespace BitchKernel

/-- `struct alloc_header_t`. -/
structure AllocHeader where
  last : ℕ
  next : ℕ
  length : ℕ

/-- `sizeof(_alloc_header_t)`. -/
abbrev sizeofAllocHeader : ℕ := 12

/-- The headers in memory, by address, and the static variable `pos`. -/
structure Heap where
  mem : ℕ → AllocHeader
  pos : ℕ

/-- A call to the page allocator: a request with its answer, or pages given
back. -/
inductive VmmCall
  | vmmAllocPage (count attr : ℕ)
  | vmmFreePage (attr : ℕ) (num : ℤ)

namespace Heap

/-- `attr -> field = …`: a store to one header. -/
def store (h : Heap) (attr : ℕ) (f : AllocHeader → AllocHeader) : Heap :=
  { h with mem := Function.update h.mem attr (f (h.mem attr)) }

/-- The second half of `kmalloc`: the header of the block at `mem` is written
and linked in behind `pos`. -/
def link (h : Heap) (mem len : ℕ) : Heap :=
  let h := h.store mem fun x => { x with length := len }
  let h := h.store mem fun x => { x with last := h.pos }
  let h := h.store mem fun x => { x with next := 0 }
  let h := if h.pos ≠ 0 then h.store h.pos fun x => { x with next := mem } else h
  { h with pos := mem }

def kmalloc (vmmAllocPage : ℕ → ℕ) (h : Heap) (len : ℕ) : ℕ × Heap × List VmmCall :=
  let len := add32 len sizeofAllocHeader
  let tail := add32 h.pos (h.mem h.pos).length
  if h.pos ≠ 0 ∧ len ≤ sub32 (pageBase (sub32 (add32 tail pageSize) 1)) tail then
    (add32 tail sizeofAllocHeader, h.link tail len, [])
  else
    let count := sub32 (add32 len pageSize) 1 / pageSize
    let mem := vmmAllocPage count
    if mem = 0 then
      (0, h, [.vmmAllocPage count mem])
    else
      (add32 mem sizeofAllocHeader, h.link mem len, [.vmmAllocPage count mem])

/-- The links of `kfree`: the neighbours of `mem` are linked to each other, and
`pos` moves back when `mem` is the last block. -/
def unlink (h : Heap) (mem : ℕ) : Heap :=
  let h := if (h.mem mem).last ≠ 0 then
      h.store (h.mem mem).last fun x => { x with next := (h.mem mem).next }
    else h
  if (h.mem mem).next ≠ 0 then
    h.store (h.mem mem).next fun x => { x with last := (h.mem mem).last }
  else
    { h with pos := (h.mem mem).last }

/-- The block in front of `mem` ends in the page where `mem` begins. -/
def sharesLast (h : Heap) (mem : ℕ) : Bool :=
  let last := (h.mem mem).last
  last ≠ 0 ∧ pageBase (sub32 (add32 last (h.mem last).length) 1) = pageBase mem

/-- The block behind `mem` begins in the page where `mem` ends. -/
def sharesNext (h : Heap) (mem : ℕ) : Bool :=
  let next := (h.mem mem).next
  next ≠ 0 ∧ pageBase (sub32 (add32 mem (h.mem mem).length) 1) = pageBase next

def kfree (h : Heap) (p : ℕ) : Heap × List VmmCall :=
  let mem := sub32 p sizeofAllocHeader
  let attr := pageBase mem
  let num : ℤ := (sub32 (add32 (h.mem mem).length pageSize) 1 / pageSize : ℕ)
  let attr := if h.sharesLast mem then add32 attr pageSize else attr
  let num := if h.sharesLast mem then num - 1 else num
  let num := if h.sharesNext mem then num - 1 else num
  (h.unlink mem, if 0 < num then [.vmmFreePage attr num] else [])

end Heap

/-! ## Runs -/

/-- A block as its owner knows it: the address of its header and its length with
the header. -/
structure Block where
  addr : ℕ
  length : ℕ
deriving DecidableEq

/-- The heap and, as ghosts, the live blocks in the order of their requests and
the pages obtained from the page allocator and not yet given back. -/
structure HeapRun where
  heap : Heap
  live : List Block
  owned : Finset ℕ

inductive HeapOp
  | kmalloc (vmmAllocPage : ℕ → ℕ) (len : ℕ)
  | kfree (p : ℕ)

/-- The pages a call obtains or gives back. -/
def VmmCall.pages : VmmCall → Finset ℕ
  | .vmmAllocPage count attr =>
      if attr = 0 then ∅ else Finset.Ico (attr / pageSize) (attr / pageSize + count)
  | .vmmFreePage attr num =>
      Finset.Ico (attr / pageSize) (attr / pageSize + num.toNat)

def VmmCall.apply (owned : Finset ℕ) : VmmCall → Finset ℕ
  | .vmmAllocPage count attr => owned ∪ (VmmCall.vmmAllocPage count attr).pages
  | .vmmFreePage attr num => owned \ (VmmCall.vmmFreePage attr num).pages

/-- The contract of `vmm_alloc_page`: `NULL`, or a range of whole pages below
the end of the address space that shares no page with `owned`. -/
def PageSource (owned : Finset ℕ) (vmmAllocPage : ℕ → ℕ) : Prop :=
  ∀ count, vmmAllocPage count = 0 ∨ ∃ page, vmmAllocPage count = page * pageSize ∧
    page + count < 0x100000 ∧ Disjoint owned (Finset.Ico page (page + count))

namespace HeapRun

/-- A request does not wrap and the page allocator keeps its contract; a freed
block is live. -/
def Enabled (s : HeapRun) : HeapOp → Prop
  | .kmalloc vmmAllocPage len =>
      len + sizeofAllocHeader + pageSize < 2 ^ 32 ∧ PageSource s.owned vmmAllocPage
  | .kfree p => ∃ b ∈ s.live, p = b.addr + sizeofAllocHeader

def calls (s : HeapRun) : HeapOp → List VmmCall
  | .kmalloc vmmAllocPage len => (s.heap.kmalloc vmmAllocPage len).2.2
  | .kfree p => (s.heap.kfree p).2

def next (s : HeapRun) (op : HeapOp) : HeapRun where
  heap := match op with
    | .kmalloc vmmAllocPage len => (s.heap.kmalloc vmmAllocPage len).2.1
    | .kfree p => (s.heap.kfree p).1
  live := match op with
    | .kmalloc vmmAllocPage len =>
        let p := (s.heap.kmalloc vmmAllocPage len).1
        if p = 0 then s.live
        else s.live ++ [⟨sub32 p sizeofAllocHeader, len + sizeofAllocHeader⟩]
    | .kfree p => s.live.filter fun b => b.addr ≠ sub32 p sizeofAllocHeader
  owned := (s.calls op).foldl VmmCall.apply s.owned

end HeapRun

def heapMachine : Lib.Machine HeapRun HeapOp where
  init s := s.heap.pos = 0 ∧ s.live = [] ∧ s.owned = ∅
  step s op s' := s.Enabled op ∧ s' = s.next op

end BitchKernel
