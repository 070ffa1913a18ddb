import BitchKernel.Mm.AllocSafety
import BitchKernel.Mm.VmmSafety
import Mathlib.Data.Finset.Sort

/-!
# The heap on the kernel window

`alloc.c` gets its pages from `vmm.c`, while others call the functions of the window
too. `AllocRun` puts the two together: a call that `kmalloc` or `kfree` makes is
served by the window as it stands, and between the calls of the heap the others
request and release ranges of their own. The heap gives pages back in other ranges
than it got them, so its pages are counted one by one. In the runs whose scans stay
in the window, the requests of the heap get what `PageSource` asks for, and the
memory of a block is mapped and in no range that another holds.
-/

namespace BitchKernel

open Lib

/-- The pages `kmalloc` requests when the block does not fit behind `pos`. -/
def Heap.requestedPages (len : ℕ) : ℕ :=
  sub32 (add32 (add32 len sizeofAllocHeader) pageSize) 1 / pageSize

namespace Kernel

def ServesCall (k : Kernel) : VmmCall → Kernel → Prop
  | .vmmAllocPage count attr, k' => k.Returns (.vmmAllocPage count) attr k'
  | .vmmFreePage attr num, k' => k.Returns (.vmmFreePage attr num.toNat) 0 k'

/-- The window serves the calls of the heap one after the other. -/
def ServesCalls (k : Kernel) : List VmmCall → Kernel → Prop
  | [], k' => k' = k
  | call :: calls, k' => ∃ k₁, k.ServesCall call k₁ ∧ k₁.ServesCalls calls k'

@[simp] theorem servesCalls_nil {k k' : Kernel} : k.ServesCalls [] k' ↔ k' = k := Iff.rfl

@[simp] theorem servesCalls_singleton {k k' : Kernel} {call : VmmCall} :
    k.ServesCalls [call] k' ↔ k.ServesCall call k' := by
  simp [ServesCalls]

end Kernel

/-- The window, the heap with its ghosts, and the ranges that others hold. -/
structure AllocRun where
  kernel : Kernel
  run : HeapRun
  others : List (ℕ × ℕ)

/-- A call of the heap, or a call of another to the window. -/
inductive AllocCall
  | kmalloc (len : ℕ)
  | kfree (p : ℕ)
  | other (call : MemCall)

namespace AllocRun

def window (s : AllocRun) : VmmRun := ⟨s.kernel, s.others⟩

/-- A request of the heap does not wrap, a freed block is live, and the others release
what they hold. -/
def Enabled (s : AllocRun) : AllocCall → Prop
  | .kmalloc len => len + sizeofAllocHeader + pageSize < 2 ^ 32
  | .kfree p => ∃ b ∈ s.run.live, p = b.addr + sizeofAllocHeader
  | .other call => s.window.Enabled call

/-- What a call does: the answers the heap works with are those of the window. -/
def Steps (s : AllocRun) : AllocCall → AllocRun → Prop
  | .kmalloc len, s' => ∃ vmmAllocPage,
      s.kernel.ServesCalls (s.run.calls (.kmalloc vmmAllocPage len)) s'.kernel ∧
        s'.run = s.run.next (.kmalloc vmmAllocPage len) ∧ s'.others = s.others
  | .kfree p, s' => s.kernel.ServesCalls (s.run.calls (.kfree p)) s'.kernel ∧
      s'.run = s.run.next (.kfree p) ∧ s'.others = s.others
  | .other call, s' => s'.run = s.run ∧ ∃ r, s.kernel.Returns call r s'.kernel ∧
      s'.others = s.window.heldAfter r call

/-- A scan for the pages of the heap or of another stays in the window. -/
def SafeCall (s : AllocRun) : AllocCall → Prop
  | .kmalloc len => s.kernel.SafeScan (Heap.requestedPages len)
  | .kfree _ => True
  | .other call => s.window.SafeCall call

end AllocRun

/-- The runs of the heap and the window on the machine `b`, from `vmm_init` on. -/
def allocMachine (b : KernelBoot) : Machine AllocRun AllocCall where
  init s := (vmmMachine b).init s.window ∧ heapMachine.init s.run
  step s call s' := s.Enabled call ∧ s.Steps call s'

/-! ## The answers of the window -/

/-- `kmalloc` makes no call and reads no answer, or requests its pages and reads the answer to
that. -/
theorem Heap.kmalloc_source (vmmAllocPage : ℕ → ℕ) (h : Heap) (len : ℕ) :
    ((h.kmalloc vmmAllocPage len).2.2 = [] ∧
        h.kmalloc (fun _ => 0) len = h.kmalloc vmmAllocPage len) ∨
      ((h.kmalloc vmmAllocPage len).2.2 =
          [.vmmAllocPage (requestedPages len) (vmmAllocPage (requestedPages len))] ∧
        h.kmalloc (fun count =>
          if count = requestedPages len then vmmAllocPage (requestedPages len) else 0) len =
            h.kmalloc vmmAllocPage len) := by
  by_cases hbump : h.pos ≠ 0 ∧ add32 len sizeofAllocHeader ≤
      sub32 (pageBase (sub32 (add32 (add32 h.pos (h.mem h.pos).length) pageSize) 1))
        (add32 h.pos (h.mem h.pos).length)
  · left
    simp only [kmalloc, if_pos hbump, and_self]
  · right
    unfold requestedPages
    simp only [kmalloc, if_neg hbump, if_true, and_true]
    split_ifs <;> rfl

theorem Heap.kfree_calls (h : Heap) (p : ℕ) :
    (h.kfree p).2 = [] ∨ ∃ attr num, 0 < num ∧ (h.kfree p).2 = [.vmmFreePage attr num] := by
  unfold kfree
  dsimp only
  generalize (if h.sharesNext _ then _ else _ : ℤ) = num
  by_cases hnum : 0 < num
  · rw [if_pos hnum]
    exact .inr ⟨_, _, hnum, rfl⟩
  · rw [if_neg hnum]
    exact .inl rfl

theorem Heap.requestedPages_eq {len : ℕ} (hlen : len + sizeofAllocHeader + pageSize < 2 ^ 32) :
    requestedPages len = (len + sizeofAllocHeader + pageSize - 1) / pageSize := by
  have hadd : add32 len sizeofAllocHeader = len + sizeofAllocHeader := add32_of_lt (by lia)
  unfold requestedPages
  rw [hadd, sub32_add32_of_lt (by lia) (by lia) (by lia)]

theorem Kernel.vmmAllocPage_dvd {k k' : Kernel} {fuel count r : ℕ}
    (hcall : k.vmmAllocPage fuel count = some (r, k')) : pageSize ∣ r := by
  rcases vmmAllocPage_cases hcall with ⟨-, rfl, -⟩ | ⟨p, kMapped, -, ⟨-, rfl, -⟩ | ⟨-, rfl, -⟩⟩
  · exact Nat.dvd_zero _
  · unfold vmmTake
    dsimp only
    rw [mul32_eq]
    exact (Nat.dvd_mod_iff (by decide)).2 (Nat.dvd_mul_left _ _)
  · exact Nat.dvd_zero _

namespace AllocRun

variable {s s' : AllocRun}

/-- A `kmalloc` that works within the last page, or one with a call to the window: the heap
reads its page allocator there only. -/
theorem kmalloc_window {len : ℕ} (hstep : s.Steps (.kmalloc len) s') :
    (s'.kernel = s.kernel ∧ s'.run.owned = s.run.owned ∧
        s'.run = s.run.next (.kmalloc (fun _ => 0) len)) ∨
      ∃ r, s.kernel.ServesCall (.vmmAllocPage (Heap.requestedPages len) r) s'.kernel ∧
        s'.run.owned = VmmCall.apply s.run.owned (.vmmAllocPage (Heap.requestedPages len) r) ∧
        s'.run = s.run.next
          (.kmalloc (fun count => if count = Heap.requestedPages len then r else 0) len) := by
  obtain ⟨vmmAllocPage, hserves, hrun, -⟩ := hstep
  simp only [HeapRun.calls] at hserves
  rcases s.run.heap.kmalloc_source vmmAllocPage len with ⟨hcalls, heq⟩ | ⟨hcalls, heq⟩
  · rw [hcalls, Kernel.servesCalls_nil] at hserves
    refine .inl ⟨hserves, ?_, ?_⟩
    · rw [hrun]
      simp only [HeapRun.next, HeapRun.calls, hcalls, List.foldl_nil]
    · rw [hrun]
      simp only [HeapRun.next, HeapRun.calls, heq]
  · rw [hcalls, Kernel.servesCalls_singleton] at hserves
    refine .inr ⟨_, hserves, ?_, ?_⟩
    · rw [hrun]
      simp only [HeapRun.next, HeapRun.calls, hcalls, List.foldl_cons, List.foldl_nil]
    · rw [hrun]
      simp only [HeapRun.next, HeapRun.calls, heq]

theorem kfree_window (hheap : HeapInv s.run) {p : ℕ} (hen : s.Enabled (.kfree p))
    (hstep : s.Steps (.kfree p) s') :
    (s'.kernel = s.kernel ∧ s'.run.owned = s.run.owned) ∨ ∃ attr num, 0 < num ∧
      VmmRun.pages (attr / pageSize, num) ⊆ s.run.owned ∧
      s'.kernel = s.kernel.vmmFreePage attr num ∧
      s'.run.owned = s.run.owned \ VmmRun.pages (attr / pageSize, num) := by
  obtain ⟨hserves, hrun, -⟩ := hstep
  obtain ⟨b, hb, rfl⟩ := hen
  obtain ⟨pre, post, hlive⟩ := List.append_of_mem hb
  have hgiven : ∀ g, (∃ call ∈ (s.run.heap.kfree (b.addr + sizeofAllocHeader)).2, g ∈ call.pages) →
      g ∈ s.run.owned :=
    fun g hg => (hheap.owned_iff g).2 ⟨b, hb, ((hheap.mem_kfree hlive g).1 hg).1⟩
  simp only [HeapRun.calls] at hserves
  rcases s.run.heap.kfree_calls (b.addr + sizeofAllocHeader) with hcalls | ⟨attr, num, hnum, hcalls⟩
  · rw [hcalls, Kernel.servesCalls_nil] at hserves
    refine .inl ⟨hserves, ?_⟩
    rw [hrun]
    simp only [HeapRun.next, HeapRun.calls, hcalls, List.foldl_nil]
  · rw [hcalls, Kernel.servesCalls_singleton] at hserves
    simp only [hcalls, List.mem_singleton, exists_eq_left] at hgiven
    refine .inr ⟨attr, num.toNat, by omega, hgiven, hserves.2, ?_⟩
    rw [hrun]
    simp only [HeapRun.next, HeapRun.calls, hcalls, List.foldl_cons, List.foldl_nil, VmmCall.apply]
    rfl

end AllocRun

/-! ## Ranges and pages -/

/-- The pages of a set, as ranges of one page. -/
def onePages (owned : Finset ℕ) : List (ℕ × ℕ) := owned.sort.map fun g => (g, 1)

theorem mem_onePages {owned : Finset ℕ} {range : ℕ × ℕ} :
    range ∈ onePages owned ↔ range.1 ∈ owned ∧ range.2 = 1 := by
  obtain ⟨first, count⟩ := range
  simp only [onePages, List.mem_map, Finset.mem_sort, Prod.mk.injEq]
  constructor
  · rintro ⟨g, hg, rfl, rfl⟩
    exact ⟨hg, rfl⟩
  · rintro ⟨hg, rfl⟩
    exact ⟨first, hg, rfl, rfl⟩

theorem self_mem_pages (g : ℕ) : g ∈ VmmRun.pages (g, 1) :=
  VmmRun.mem_pages.2 ⟨le_rfl, Nat.lt_succ_self g⟩

theorem onePage_mem {owned : Finset ℕ} {g : ℕ} (hg : g ∈ owned) : (g, 1) ∈ onePages owned :=
  mem_onePages.2 ⟨hg, rfl⟩

theorem mem_of_onePages {owned : Finset ℕ} {range : ℕ × ℕ} (hrange : range ∈ onePages owned) {x : ℕ}
    (hx : x ∈ VmmRun.pages range) : x ∈ owned := by
  obtain ⟨hg, hcount⟩ := mem_onePages.1 hrange
  rw [VmmRun.mem_pages] at hx
  obtain rfl : x = range.1 := by omega
  exact hg

theorem mem_apply_vmmAllocPage {owned : Finset ℕ} {count r g : ℕ}
    (hg : g ∈ VmmCall.apply owned (.vmmAllocPage count r)) :
    (∃ range ∈ VmmRun.handedOut r count, g ∈ VmmRun.pages range) ∨ g ∈ owned := by
  rcases Finset.mem_union.1 hg with hg | hg
  · exact .inr hg
  · simp only [VmmCall.pages] at hg
    unfold VmmRun.handedOut
    split_ifs at hg ⊢
    · exact absurd hg (Finset.notMem_empty g)
    · exact .inl ⟨_, List.mem_cons_self, hg⟩

theorem pairwise_onePages (owned : Finset ℕ) : (onePages owned).Pairwise
    fun range range' => Disjoint (VmmRun.pages range) (VmmRun.pages range') := by
  refine List.pairwise_map.2 ((Finset.sort_nodup owned _).imp fun {g g'} hne => ?_)
  rw [Finset.disjoint_left]
  intro x hx hx'
  rw [VmmRun.mem_pages] at hx hx'
  omega

/-- The held ranges may be cut and joined: what covers no other page is held as well. -/
theorem VmmInv.regroup {k : Kernel} {held held' : List (ℕ × ℕ)} (h : VmmInv ⟨k, held⟩)
    (hpos : ∀ range ∈ held', 1 ≤ range.2)
    (hdisj : held'.Pairwise fun range range' =>
      Disjoint (VmmRun.pages range) (VmmRun.pages range'))
    (hsub : ∀ range ∈ held', ∀ x ∈ VmmRun.pages range, ∃ old ∈ held, x ∈ VmmRun.pages old) :
    VmmInv ⟨k, held'⟩ where
  vmmPos_lt := h.vmmPos_lt
  held_mem range hrange := by
    have hone := hpos range hrange
    obtain ⟨first, hfirst, hx⟩ := hsub range hrange range.1 (VmmRun.mem_pages.2 (by omega))
    obtain ⟨last, hlast, hy⟩ :=
      hsub range hrange (range.1 + range.2 - 1) (VmmRun.mem_pages.2 (by omega))
    have hfirst := h.held_mem first hfirst
    have hlast := h.held_mem last hlast
    rw [VmmRun.mem_pages] at hx hy
    dsimp only at hfirst hlast ⊢
    omega
  disjoint := hdisj
  direct := h.direct
  dmmap_pos := h.dmmap_pos
  held_pos := hpos
  mapped range hrange x hx := by
    obtain ⟨old, hold, hx⟩ := hsub range hrange x hx
    exact h.mapped old hold x hx

theorem VmmInv.perm {k : Kernel} {held held' : List (ℕ × ℕ)} (h : VmmInv ⟨k, held⟩)
    (hperm : held.Perm held') : VmmInv ⟨k, held'⟩ :=
  h.regroup (fun range hrange => h.held_pos range (hperm.mem_iff.2 hrange))
    ((hperm.pairwise_iff fun {_ _} hdisj => hdisj.symm).1 h.disjoint)
    fun range hrange _ hx => ⟨range, hperm.mem_iff.2 hrange, hx⟩

theorem VmmInv.split {k : Kernel} {held others : List (ℕ × ℕ)} {owned : Finset ℕ}
    (h : VmmInv ⟨k, held ++ others⟩) (hsub : ∀ g ∈ owned, ∃ range ∈ held, g ∈ VmmRun.pages range) :
    VmmInv ⟨k, others ++ onePages owned⟩ := by
  obtain ⟨-, hothers, hcross⟩ := List.pairwise_append.1 h.disjoint
  have hone : ∀ range ∈ onePages owned, ∀ x ∈ VmmRun.pages range,
      ∃ old ∈ held, x ∈ VmmRun.pages old := by
    intro range hrange x hx
    exact hsub x (mem_of_onePages hrange hx)
  refine h.regroup (fun range hrange => ?_)
    (List.pairwise_append.2 ⟨hothers, pairwise_onePages owned, fun other hother range hrange => ?_⟩)
    fun range hrange x hx => ?_
  · rcases List.mem_append.1 hrange with hrange | hrange
    · exact h.held_pos range (List.mem_append_right held hrange)
    · exact (mem_onePages.1 hrange).2.ge
  · rw [Finset.disjoint_left]
    intro x hx hx'
    obtain ⟨old, hold, hxold⟩ := hone range hrange x hx'
    exact Finset.disjoint_left.1 (hcross old hold other hother) hxold hx
  · rcases List.mem_append.1 hrange with hrange | hrange
    · exact ⟨range, List.mem_append_right held hrange, hx⟩
    · obtain ⟨old, hold, hxold⟩ := hone range hrange x hx
      exact ⟨old, List.mem_append_left others hold, hxold⟩

theorem VmmRun.heldAfter_append {k : Kernel} {held rest : List (ℕ × ℕ)} {call : MemCall}
    (h : VmmInv ⟨k, held ++ rest⟩) (hen : VmmRun.Enabled ⟨k, held⟩ call) (r : ℕ) :
    VmmRun.heldAfter ⟨k, held ++ rest⟩ r call = VmmRun.heldAfter ⟨k, held⟩ r call ++ rest := by
  have herase : ∀ page count, (page, count) ∈ held ∨ page < k.dmmapPageCount →
      (held ++ rest).erase (page, count) = held.erase (page, count) ++ rest := by
    rintro page count (hrange | hdirect)
    · exact List.erase_append_left rest hrange
    · have hout : (page, count) ∉ held ++ rest := fun hrange => by
        have hfirst := (h.held_mem _ hrange).1
        dsimp only at hfirst
        omega
      rw [List.erase_of_not_mem hout,
        List.erase_of_not_mem fun hrange => hout (List.mem_append_left rest hrange)]
  cases call with
  | vmmAllocPage count => exact (List.append_assoc _ _ _).symm
  | vmmMmapPage phyAttr =>
      simp only [VmmRun.heldAfter]
      split_ifs
      · rfl
      · exact (List.append_assoc _ _ _).symm
  | vmmMmapPdePage attr count pde => exact (List.append_assoc _ _ _).symm
  | vmmFreePage attr count => exact herase _ _ hen
  | vmmUmmapPage attr count => exact herase _ _ hen
  | store table words => rfl
  | _ => exact absurd hen id

theorem VmmRun.Enabled.append {k : Kernel} {held : List (ℕ × ℕ)} {call : MemCall}
    (hen : VmmRun.Enabled ⟨k, held⟩ call) (rest : List (ℕ × ℕ)) :
    VmmRun.Enabled ⟨k, held ++ rest⟩ call := by
  cases call with
  | vmmFreePage attr count => exact hen.imp_left (List.mem_append_left rest)
  | vmmUmmapPage attr count => exact hen.imp_left (List.mem_append_left rest)
  | _ => exact hen

/-! ## The invariant -/

/-- The run of the heap is one of `heapMachine`, and the window keeps its invariant with the
pages of the heap held one by one. -/
structure AllocInv (s : AllocRun) : Prop where
  heap : heapMachine.Reachable s.run
  window : VmmInv ⟨s.kernel, s.others ++ onePages s.run.owned⟩

namespace AllocInv

variable {s s' : AllocRun}

theorem of_init {b : KernelBoot} (h : (allocMachine b).init s) : AllocInv s := by
  obtain ⟨hwindow, hheap⟩ := h
  have hinv : VmmInv ⟨s.kernel, [] ++ s.others⟩ := VmmInv.of_init hwindow
  refine ⟨.init hheap, ?_⟩
  rw [hheap.2.2]
  exact hinv.split (by simp)

theorem disjoint_others (h : AllocInv s) {range : ℕ × ℕ} (hrange : range ∈ s.others) :
    Disjoint s.run.owned (VmmRun.pages range) := by
  rw [Finset.disjoint_left]
  intro g hg hg'
  have hapart := (List.pairwise_append.1 h.window.disjoint).2.2 range hrange (g, 1) (onePage_mem hg)
  exact Finset.disjoint_left.1 hapart hg' (self_mem_pages g)

/-- A request that the window serves: what it hands out is held beside the pages of the heap. -/
theorem handedOut (h : AllocInv s) {k : Kernel} {count r : ℕ} (hcount : 1 ≤ count)
    (hcount32 : count < 2 ^ 32) (hscan : s.kernel.SafeScan count)
    (hserves : s.kernel.ServesCall (.vmmAllocPage count r) k) :
    VmmInv ⟨k, (VmmRun.handedOut r count ++ onePages s.run.owned) ++ s.others⟩ := by
  obtain ⟨fuel, hcall⟩ := hserves
  refine (h.window.of_vmmAllocPage hcount hcount32 hscan hcall).perm ?_
  rw [List.append_assoc]
  exact List.perm_append_comm.append_left _

theorem pageSource (h : AllocInv s) {k : Kernel} {count r : ℕ} (hcount : 1 ≤ count)
    (hcount32 : count < 2 ^ 32) (hscan : s.kernel.SafeScan count)
    (hserves : s.kernel.ServesCall (.vmmAllocPage count r) k) :
    r = 0 ∨ ∃ page, r = page * pageSize ∧ page + count < 0x100000 ∧
      Disjoint s.run.owned (Finset.Ico page (page + count)) := by
  have hinv := h.handedOut hcount hcount32 hscan hserves
  obtain ⟨fuel, hcall⟩ := hserves
  by_cases hnull : r = 0
  · exact .inl hnull
  · have hrange : (r / pageSize, count) ∈ VmmRun.handedOut r count := by
      simp [VmmRun.handedOut, hnull]
    have hend := (hinv.held_mem _ (List.mem_append_left _ (List.mem_append_left _ hrange))).2
    refine .inr ⟨r / pageSize, (Nat.div_mul_cancel (Kernel.vmmAllocPage_dvd hcall)).symm,
      lt_of_le_of_lt hend (by decide), ?_⟩
    rw [Finset.disjoint_right]
    intro g hg hgowned
    have hapart := List.pairwise_append.1 (List.pairwise_append.1 hinv.disjoint).1
    exact Finset.disjoint_left.1 (hapart.2.2 _ hrange (g, 1) (onePage_mem hgowned)) hg
      (self_mem_pages g)

theorem requestedPages_bounds {len : ℕ} (hlen : len + sizeofAllocHeader + pageSize < 2 ^ 32) :
    1 ≤ Heap.requestedPages len ∧ Heap.requestedPages len < 2 ^ 32 := by
  rw [Heap.requestedPages_eq hlen]
  exact ⟨by lia, by lia⟩

theorem of_kmalloc (h : AllocInv s) {len : ℕ} (hen : s.Enabled (.kmalloc len))
    (hsafe : s.SafeCall (.kmalloc len)) (hstep : s.Steps (.kmalloc len) s') : AllocInv s' := by
  have hothers : s'.others = s.others := by
    obtain ⟨-, -, -, hothers⟩ := hstep
    exact hothers
  rcases AllocRun.kmalloc_window hstep with ⟨hkernel, howned, hnext⟩ | ⟨r, hserves, howned, hnext⟩
  · refine ⟨.step h.heap (a := .kmalloc (fun _ => 0) len) ⟨⟨hen, fun _ => .inl rfl⟩, hnext⟩, ?_⟩
    rw [hkernel, hothers, howned]
    exact h.window
  · obtain ⟨hcount, hcount32⟩ := requestedPages_bounds hen
    refine ⟨.step h.heap (a := .kmalloc _ len) ⟨⟨hen, fun count => ?_⟩, hnext⟩, ?_⟩
    · by_cases hasked : count = Heap.requestedPages len
      · rw [hasked, if_pos rfl]
        exact h.pageSource hcount hcount32 hsafe hserves
      · exact .inl (if_neg hasked)
    · rw [hothers, howned]
      refine (h.handedOut hcount hcount32 hsafe hserves).split fun g hg => ?_
      rcases mem_apply_vmmAllocPage hg with ⟨range, hrange, hg⟩ | hg
      · exact ⟨range, List.mem_append_left _ hrange, hg⟩
      · exact ⟨(g, 1), List.mem_append_right _ (onePage_mem hg), self_mem_pages g⟩

/-- Pages of the heap are taken together to a range that is released next. -/
theorem joined (h : AllocInv s) {range : ℕ × ℕ} (hcount : 0 < range.2)
    (hgiven : VmmRun.pages range ⊆ s.run.owned) :
    VmmInv ⟨s.kernel, range :: (s.others ++ onePages (s.run.owned \ VmmRun.pages range))⟩ := by
  have hrest : VmmInv ⟨s.kernel, s.others ++ onePages (s.run.owned \ VmmRun.pages range)⟩ := by
    refine (h.window.perm List.perm_append_comm).split fun g hg => ?_
    exact ⟨(g, 1), onePage_mem (Finset.mem_sdiff.1 hg).1, self_mem_pages g⟩
  refine h.window.regroup ?_ (List.pairwise_cons.2 ⟨fun other hother => ?_, hrest.disjoint⟩) ?_
  · intro other hother
    rcases List.mem_cons.1 hother with rfl | hother
    · exact hcount
    · exact hrest.held_pos other hother
  · rcases List.mem_append.1 hother with hother | hother
    · exact (h.disjoint_others hother).mono_left hgiven
    · rw [Finset.disjoint_left]
      intro x hx hx'
      exact (Finset.mem_sdiff.1 (mem_of_onePages hother hx')).2 hx
  · intro other hother x hx
    rcases List.mem_cons.1 hother with rfl | hother
    · exact ⟨(x, 1), List.mem_append_right _ (onePage_mem (hgiven hx)), self_mem_pages x⟩
    · rcases List.mem_append.1 hother with hother | hother
      · exact ⟨other, List.mem_append_left _ hother, hx⟩
      · have hg := Finset.mem_sdiff.1 (mem_of_onePages hother hx)
        exact ⟨(x, 1), List.mem_append_right _ (onePage_mem hg.1), self_mem_pages x⟩

theorem of_kfree (h : AllocInv s) {p : ℕ} (hen : s.Enabled (.kfree p))
    (hstep : s.Steps (.kfree p) s') : AllocInv s' := by
  have hwindow := AllocRun.kfree_window (HeapInv.of_reachable h.heap) hen hstep
  obtain ⟨-, hrun, hothers⟩ := hstep
  refine ⟨.step h.heap (a := .kfree p) ⟨hen, hrun⟩, ?_⟩
  rw [hothers]
  rcases hwindow with ⟨hkernel, howned⟩ | ⟨attr, num, hnum, hgiven, hkernel, howned⟩
  · rw [hkernel, howned]
    exact h.window
  · have hfreed : VmmInv ⟨s.kernel.vmmFreePage attr num, List.erase _ (attr / pageSize, num)⟩ :=
      (h.joined hnum hgiven).of_vmmFreePage (.inl List.mem_cons_self)
    rw [List.erase_cons_head] at hfreed
    rw [hkernel, howned]
    exact hfreed

theorem of_other {b : KernelBoot} (h : AllocInv s) {call : MemCall} (hen : s.Enabled (.other call))
    (hsafe : s.SafeCall (.other call)) (hstep : s.Steps (.other call) s') : AllocInv s' := by
  obtain ⟨hrun, r, hcall, hothers⟩ := hstep
  refine ⟨hrun ▸ h.heap, ?_⟩
  rw [hrun, hothers]
  have hwindow : (vmmMachine b).step ⟨s.kernel, s.others ++ onePages s.run.owned⟩ call
      ⟨s'.kernel, s.window.heldAfter r call ++ onePages s.run.owned⟩ :=
    ⟨hen.append _, r, hcall, (VmmRun.heldAfter_append h.window hen r).symm⟩
  refine h.window.of_step ?_ hwindow
  cases call <;> exact hsafe

theorem of_step {b : KernelBoot} (h : AllocInv s) {call : AllocCall} (hsafe : s.SafeCall call)
    (hstep : (allocMachine b).step s call s') : AllocInv s' := by
  obtain ⟨hen, hstep⟩ := hstep
  cases call with
  | kmalloc len => exact h.of_kmalloc hen hsafe hstep
  | kfree p => exact h.of_kfree hen hstep
  | other call => exact h.of_other (b := b) hen hsafe hstep

theorem of_reachable {b : KernelBoot}
    (hs : ((allocMachine b).restrict AllocRun.SafeCall).Reachable s) : AllocInv s := by
  refine Machine.Reachable.invariant (M := (allocMachine b).restrict AllocRun.SafeCall)
    (fun _ hinit => of_init hinit) (fun s call s' hinv hstep => ?_) hs
  obtain ⟨hsafe, hstep⟩ := hstep
  exact hinv.of_step hsafe hstep

end AllocInv

/-- **The heap on the window.** In every run of the heap and the others whose scans stay in
the window, the heap gets from `vmm_alloc_page` what it relies on. Its live blocks lie apart,
and every byte of one, its header included, is in a page of the window that is mapped and
that no range of another holds. -/
theorem heap_memory_private {b : KernelBoot} {s : AllocRun}
    (hs : ((allocMachine b).restrict AllocRun.SafeCall).Reachable s) :
    heapMachine.Reachable s.run ∧
      s.run.live.Pairwise (fun c d => c.addr + c.length ≤ d.addr ∨ d.addr + d.length ≤ c.addr) ∧
      ∀ c ∈ s.run.live, ∀ a, c.addr ≤ a → a < c.addr + c.length →
        s.kernel.dmmapPageCount ≤ a / pageSize ∧ a / pageSize < globlPageNum ∧
          s.kernel.getGloblPageAttr (a / pageSize) ≠ 0 ∧
          ∀ range ∈ s.others, a / pageSize ∉ VmmRun.pages range := by
  have hinv := AllocInv.of_reachable hs
  have hheap := HeapInv.of_reachable hinv.heap
  refine ⟨hinv.heap, hheap.before.imp_of_mem fun hc hd hcd =>
    hcd.disjoint (hheap.wf _ hc) (hheap.wf _ hd), fun c hc a hle hlt => ?_⟩
  have howned : a / pageSize ∈ s.run.owned := by
    refine (hheap.owned_iff _).2 ⟨c, hc, Block.mem_pages.2 ?_⟩
    unfold Block.firstPage Block.lastPage
    lia
  have hpage : (a / pageSize, 1) ∈ s.others ++ onePages s.run.owned :=
    List.mem_append_right _ (onePage_mem howned)
  have hwindow := hinv.window.held_mem _ hpage
  exact ⟨hwindow.1, hwindow.2, hinv.window.mapped _ hpage _ (self_mem_pages _),
    fun range hrange => Finset.disjoint_left.1 (hinv.disjoint_others hrange) howned⟩

section Example

open Kernel

/-- The heap before its first request, with one block, and with two blocks in one page. -/
def emptyHeap : HeapRun := ⟨⟨fun _ => ⟨0, 0, 0⟩, 0⟩, [], ∅⟩

def oneBlock : HeapRun := emptyHeap.next (.kmalloc (fun _ => 196606 * pageSize) 20)

def twoBlocks : HeapRun := oneBlock.next (.kmalloc (fun _ => 0) 100)

theorem twoBlocks_live :
    twoBlocks.live = [⟨196606 * pageSize, 32⟩, ⟨196606 * pageSize + 32, 112⟩] := by
  with_unfolding_all decide

theorem smallAlloc_init : (allocMachine smallBoot).init ⟨smallKernel, emptyHeap, []⟩ :=
  ⟨⟨_, _, _, rfl⟩, rfl, rfl, rfl⟩

theorem smallAlloc_steps : ∃ k k' : Kernel, k.SafeScan 1 ∧ k'.SafeScan 1 ∧
    (allocMachine smallBoot).step ⟨smallKernel, emptyHeap, []⟩ (.other (.vmmAllocPage 1))
      ⟨k, emptyHeap, [(196607, 1)]⟩ ∧
    (allocMachine smallBoot).step ⟨k, emptyHeap, [(196607, 1)]⟩ (.kmalloc 20)
      ⟨k', oneBlock, [(196607, 1)]⟩ ∧
    (allocMachine smallBoot).step ⟨k', oneBlock, [(196607, 1)]⟩ (.kmalloc 100)
      ⟨k', twoBlocks, [(196607, 1)]⟩ := by
  obtain ⟨hpos, hdirect⟩ := smallKernel_window
  obtain ⟨fuel, k, hcall, hfresh, hpos₁, hdirect₁⟩ :=
    smallKernel_fresh.vmmAllocPage (by rw [hpos]; decide)
  rw [hpos] at hcall hpos₁
  rw [hdirect] at hcall hdirect₁
  obtain ⟨fuel', k', hcall', hfresh', -⟩ := hfresh.vmmAllocPage (by rw [hpos₁]; decide)
  rw [hpos₁, hdirect₁] at hcall'
  have hheld : VmmRun.heldAfter ⟨smallKernel, []⟩ ((454 + 196153) * pageSize) (.vmmAllocPage 1) =
      [(196607, 1)] := by
    unfold VmmRun.heldAfter VmmRun.handedOut
    dsimp only
    rw [if_neg (by decide), Nat.mul_div_cancel _ (by decide)]
    rfl
  have hcalls : emptyHeap.calls (.kmalloc (fun _ => 196606 * pageSize) 20) =
      [.vmmAllocPage 1 (196606 * pageSize)] := by with_unfolding_all rfl
  have hnone : oneBlock.calls (.kmalloc (fun _ => 0) 100) = [] := by with_unfolding_all rfl
  refine ⟨k, k', safeScan_one hfresh.pos_lt, safeScan_one hfresh'.pos_lt, ?_, ?_, ?_⟩
  · exact ⟨⟨by decide, by decide⟩, rfl, _, ⟨fuel, hcall⟩, hheld.symm⟩
  · refine ⟨(by decide : 20 + sizeofAllocHeader + pageSize < 2 ^ 32), _, ?_, rfl, rfl⟩
    rw [hcalls, servesCalls_singleton]
    exact ⟨fuel', hcall'⟩
  · refine ⟨(by decide : 100 + sizeofAllocHeader + pageSize < 2 ^ 32), fun _ => 0, ?_, rfl, rfl⟩
    rw [hnone, servesCalls_nil]

theorem requestedPages_small : Heap.requestedPages 20 = 1 ∧ Heap.requestedPages 100 = 1 := by
  with_unfolding_all decide

/-- The second of the two blocks, in the page below the one that another holds. -/
theorem heap_memory_private_two_blocks : ∃ s : AllocRun,
    s.run.live = [⟨196606 * pageSize, 32⟩, ⟨196606 * pageSize + 32, 112⟩] ∧ s.others = [(196607, 1)] ∧
      s.kernel.getGloblPageAttr 196606 ≠ 0 ∧ 196606 ∉ VmmRun.pages (196607, 1) := by
  obtain ⟨k, k', hscan, hscan', hfirst, hsecond, hthird⟩ := smallAlloc_steps
  obtain ⟨hsmall, hsmall'⟩ := requestedPages_small
  have hsafe : AllocRun.SafeCall ⟨smallKernel, emptyHeap, []⟩ (.other (.vmmAllocPage 1)) :=
    safeScan_one smallKernel_fresh.pos_lt
  have hsafe' : AllocRun.SafeCall ⟨k, emptyHeap, [(196607, 1)]⟩ (.kmalloc 20) :=
    hsmall.symm ▸ hscan
  have hsafe'' : AllocRun.SafeCall ⟨k', oneBlock, [(196607, 1)]⟩ (.kmalloc 100) :=
    hsmall'.symm ▸ hscan'
  have hprivate := (heap_memory_private (.step (.step (.step (.init smallAlloc_init)
    ⟨hsafe, hfirst⟩) ⟨hsafe', hsecond⟩) ⟨hsafe'', hthird⟩)).2.2
    ⟨196606 * pageSize + 32, 112⟩ (by rw [twoBlocks_live]; simp) (196606 * pageSize + 32) le_rfl
    (Nat.lt_add_of_pos_right (by decide))
  have hpage : (196606 * pageSize + 32) / pageSize = 196606 := by decide
  rw [hpage] at hprivate
  exact ⟨_, twoBlocks_live, rfl, hprivate.2.2.1, hprivate.2.2.2 _ List.mem_cons_self⟩

end Example

end BitchKernel
