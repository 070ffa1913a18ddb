import BitchKernel.Mm.AllocVmm
import BitchKernel.Mm.KernelHalf

/-!
# The frames behind the heap

`vmm_alloc_page` takes a frame of its own for every page it hands out, and
`vmm_free_page` gives back the frames of the pages it is given. As long as the pages of
the window are handed out and released by these two, the pages that are held show
frames of their own, none of which is free. So a store to one byte of the heap changes no
other byte that is held.
-/

namespace BitchKernel

open Lib

namespace Kernel

variable {k k' : Kernel}

def frame (k : Kernel) (x : ℕ) : ℕ := k.getGloblPageAttr x / pageSize

theorem frame_of_entry {x f : ℕ} (h : k.globlMmapPte x = setPage (f * pageSize) pageKernel) :
    k.frame x = f := by
  unfold frame getGloblPageAttr
  rw [h, getPageAttr_setPage, pageBase_mul, Nat.mul_div_cancel _ (by decide)]

theorem frame_congr {x : ℕ} (h : k'.getGloblPageAttr x = k.getGloblPageAttr x) :
    k'.frame x = k.frame x :=
  congrArg (· / pageSize) h

theorem frame_mul (k : Kernel) (x : ℕ) : k.frame x * pageSize = k.getGloblPageAttr x := by
  unfold frame getGloblPageAttr getPageAttr
  rw [Nat.mul_div_cancel _ (by decide)]

theorem KernelEntries.of_reachable {b : KernelBoot} (hk : (memMachine b).Reachable k) :
    k.KernelEntries := by
  refine hk.invariant (fun k hinit => ?_) fun k call k' hk hstep => ?_
  · obtain ⟨memory, behind, page, rfl⟩ := hinit
    exact .vmmInit b memory behind page
  · obtain ⟨r, hcall⟩ := hstep
    exact hk.of_returns hcall

/-! ## The loops -/

/-- The pages `slot i`, ..., `slot (i + rem - 1)` got frames that were free, one each. -/
structure TakesRun (k k' : Kernel) (slot : ℕ → ℕ) (i rem : ℕ) : Prop where
  kept : ∀ x, (∀ j, i ≤ j → j < i + rem → x ≠ slot j) → k'.globlMmapPte x = k.globlMmapPte x
  free : k'.pmm.freePages ⊆ k.pmm.freePages
  taken : ∀ j, i ≤ j → j < i + rem → k'.frame (slot j) ∈ k.pmm.freePages ∧
    k'.frame (slot j) ∉ k'.pmm.freePages ∧ k'.frame (slot j) ≠ 0
  single : ∀ j, i ≤ j → j < i + rem → ∀ j', i ≤ j' → j' < i + rem →
    k'.frame (slot j) = k'.frame (slot j') → j = j'

theorem TakesRun.cons {slot : ℕ → ℕ} {i rem p : ℕ} {pte : ℕ → ℕ}
    (hrest : TakesRun { k with pmm := k.pmm.takePage p, globlMmapPte := pte } k' slot (i + 1) rem)
    (hp : p ∈ k.pmm.freePages) (hp0 : p ≠ 0)
    (hframe : ∀ x ≠ slot i, pte x = k.globlMmapPte x)
    (hset : pte (slot i) = setPage (p * pageSize) pageKernel)
    (hnew : ∀ j, i + 1 ≤ j → j < i + 1 + rem → slot i ≠ slot j) :
    TakesRun k k' slot i (rem + 1) := by
  have hfirst : k'.frame (slot i) = p := frame_of_entry ((hrest.kept _ hnew).trans hset)
  have herase : ∀ q, q ∈ (k.pmm.takePage p).freePages → q ≠ p ∧ q ∈ k.pmm.freePages := by
    intro q hq
    rw [Pmm.freePages_takePage] at hq
    exact Finset.mem_erase.1 hq
  refine ⟨fun x hx => ?_, fun q hq => (herase q (hrest.free hq)).2, fun j hij hj => ?_,
    fun j hij hj j' hij' hj' heq => ?_⟩
  · rw [hrest.kept x fun j hij hj => hx j (by omega) (by omega)]
    exact hframe x (hx i le_rfl (by omega))
  · by_cases hji : j = i
    · rw [hji, hfirst]
      exact ⟨hp, fun hfree => (herase p (hrest.free hfree)).1 rfl, hp0⟩
    · obtain ⟨hfree, hused, hne⟩ := hrest.taken j (by omega) (by omega)
      exact ⟨(herase _ hfree).2, hused, hne⟩
  · have hother : ∀ n, i + 1 ≤ n → n < i + 1 + rem → k'.frame (slot n) ≠ p :=
      fun n hn hn' => (herase _ (hrest.taken n hn hn').1).1
    by_cases hji : j = i <;> by_cases hji' : j' = i
    · omega
    · rw [hji, hfirst] at heq
      exact absurd heq.symm (hother j' (by omega) (by omega))
    · rw [hji', hfirst] at heq
      exact absurd heq (hother j (by omega) (by omega))
    · exact hrest.single j (by omega) (by omega) j' (by omega) (by omega) heq

theorem vmmAllocLoop_takesRun (head rem i : ℕ) (k : Kernel) {slot : ℕ → ℕ}
    (hslot : ∀ j, k.getGloblPageIndex (add32 head j) = slot j)
    (hlt : ∀ j, i ≤ j → j < i + rem → slot j < globlPageNum)
    (hinj : ∀ j, i ≤ j → j < i + rem → ∀ j', j < j' → j' < i + rem → slot j ≠ slot j')
    (hbits : k.pmm.pmmBitmapLength ≤ 0x20000) (h : (vmmAllocLoop head rem i k).1 = true) :
    TakesRun k (vmmAllocLoop head rem i k).2 slot i rem := by
  induction rem generalizing i k with
  | zero =>
      exact ⟨fun _ _ => rfl, Finset.Subset.refl _, fun j _ _ => by omega, fun j _ _ => by omega⟩
  | succ rem ih =>
      rw [vmmAllocLoop] at h ⊢
      dsimp only at h ⊢
      rcases k.pmm.pmmAllocPage_cases with ⟨p, hp, -, -, heq⟩ | ⟨-, heq⟩
      · obtain ⟨hfree, hhead, -⟩ := Pmm.mem_reach.1 hp
        have hbound := (Pmm.mem_freePages.1 hfree).1
        have hpage : mul32 p pageSize / pageSize = p := by
          rw [mul32_of_lt (by lia), Nat.mul_div_cancel _ (by decide)]
        rw [heq] at h ⊢
        dsimp only at h ⊢
        rw [if_pos (Pmm.address_ne_zero hbits hp), hpage] at h ⊢
        obtain ⟨pte, hmmap, hframe, hset⟩ :=
          globlPageMmap_eq { k with pmm := k.pmm.takePage p } p (slot i)
        have hindex : getGloblPageIndex { k with pmm := k.pmm.takePage p } (add32 head i) =
            slot i := hslot i
        rw [hindex, hmmap] at h ⊢
        refine TakesRun.cons (ih (i + 1) _ hslot (fun j hij hj => hlt j (by omega) (by omega))
            (fun j hij hj j' hjj hj' => hinj j (by omega) (by omega) j' hjj (by omega))
            (by rw [Pmm.takePage_length]; exact hbits) h)
          hfree (by omega) hframe (hset (hlt i le_rfl (by omega))) fun j hij hj => ?_
        exact hinj i le_rfl (by omega) j (by omega) (by omega)
      · rw [heq] at h
        simp at h

theorem globlPageRemove_pmm (k : Kernel) (index : ℕ) : (k.globlPageRemove index).pmm = k.pmm := by
  obtain ⟨pte, hremove, -⟩ := k.globlPageRemove_eq index
  rw [hremove]

theorem vmmFreeLoop_frees (index count : ℕ) {slot : ℕ → ℕ}
    (hslot : ∀ j < count, k.getGloblPageIndex (add32 index j) = slot j)
    (hlt : ∀ j < count, add32 index j < k.vmmapPageCount)
    (hinj : ∀ j < count, ∀ j' < j, slot j ≠ slot j')
    (hframe : ∀ j < count, k.frame (slot j) < 2 ^ 32) {q : ℕ} (hq : q ∉ k.pmm.freePages)
    (hother : ∀ j < count, q ≠ k.frame (slot j)) :
    q ∉ (vmmFreeLoop index count k).pmm.freePages := by
  induction count with
  | zero => exact hq
  | succ count ih =>
      have hrest := ih (fun j hj => hslot j (by omega)) (fun j hj => hlt j (by omega))
        (fun j hj => hinj j (by omega)) (fun j hj => hframe j (by omega))
        fun j hj => hother j (by omega)
      obtain ⟨pmm, pte, hloop, -, hkept⟩ := vmmFreeLoop_eq index count k
      have hentry : pte (slot count) = k.globlMmapPte (slot count) := hkept _ fun j hj => by
        rw [hslot j (by omega)]
        exact hinj count (Nat.lt_succ_self count) j hj
      have hpage : getVmmPage { k with pmm := pmm, globlMmapPte := pte } (add32 index count) =
          k.getGloblPageAttr (slot count) := by
        unfold getVmmPage
        rw [if_pos (hlt count (Nat.lt_succ_self count))]
        have hindex : getGloblPageIndex { k with pmm := pmm, globlMmapPte := pte }
            (add32 index count) = slot count := hslot count (Nat.lt_succ_self count)
        rw [hindex]
        exact congrArg getPageAttr hentry
      rw [hloop] at hrest
      dsimp only at hrest
      rw [vmmFreeLoop, hloop]
      dsimp only
      rw [hpage]
      rw [globlPageRemove_pmm]
      intro hfreed
      rw [Pmm.freePages_pmmFreePage] at hfreed
      simp only [Finset.range_one, Finset.image_singleton, Finset.mem_union, Finset.mem_filter,
        Finset.mem_singleton] at hfreed
      rcases hfreed with hold | ⟨hnew, -⟩
      · exact hrest hold
      · refine hother count (Nat.lt_succ_self count) (hnew.trans ?_)
        exact add32_of_lt (hframe count (Nat.lt_succ_self count))

end Kernel

/-! ## Frames of their own -/

def Covered (held : List (ℕ × ℕ)) (x : ℕ) : Prop := ∃ range ∈ held, x ∈ VmmRun.pages range

/-- The pages show frames of their own, which are not free. -/
structure Framed (k : Kernel) (P : ℕ → Prop) : Prop where
  taken : ∀ x, P x → k.frame x ∉ k.pmm.freePages ∧ k.frame x ≠ 0 ∧ k.frame x < 0x100000
  single : ∀ x, P x → ∀ y, P y → k.frame x = k.frame y → x = y

namespace Framed

variable {k k' : Kernel} {P Q : ℕ → Prop} {held : List (ℕ × ℕ)}

theorem mono (h : Framed k P) (hsub : ∀ x, Q x → P x) : Framed k Q :=
  ⟨fun x hx => h.taken x (hsub x hx), fun x hx y hy => h.single x (hsub x hx) y (hsub y hy)⟩

theorem of_kept (h : Framed k P) (hframe : ∀ x, P x → k'.frame x = k.frame x)
    (hfree : ∀ x, P x → k.frame x ∉ k'.pmm.freePages) : Framed k' P := by
  refine ⟨fun x hx => ?_, fun x hx y hy heq => ?_⟩
  · rw [hframe x hx]
    exact ⟨hfree x hx, (h.taken x hx).2⟩
  · rw [hframe x hx, hframe y hy] at heq
    exact h.single x hx y hy heq

theorem union (h : Framed k P) (hframe : ∀ x, P x → k'.frame x = k.frame x)
    (hfree : ∀ x, P x → k.frame x ∉ k'.pmm.freePages)
    (hnew : ∀ x, Q x → k'.frame x ∈ k.pmm.freePages ∧ k'.frame x ∉ k'.pmm.freePages ∧
      k'.frame x ≠ 0 ∧ k'.frame x < 0x100000)
    (hsingle : ∀ x, Q x → ∀ y, Q y → k'.frame x = k'.frame y → x = y) :
    Framed k' fun x => Q x ∨ P x := by
  have hold := h.of_kept hframe hfree
  have hapart : ∀ x, Q x → ∀ y, P y → k'.frame x ≠ k'.frame y := by
    intro x hx y hy heq
    have hused := (h.taken y hy).1
    rw [← hframe y hy, ← heq] at hused
    exact hused (hnew x hx).1
  refine ⟨fun x hx => ?_, fun x hx y hy heq => ?_⟩
  · rcases hx with hx | hx
    · exact (hnew x hx).2
    · exact hold.taken x hx
  · rcases hx with hx | hx <;> rcases hy with hy | hy
    · exact hsingle x hx y hy heq
    · exact absurd heq (hapart x hx y hy)
    · exact absurd heq.symm (hapart y hy x hx)
    · exact hold.single x hx y hy heq

theorem of_vmmAllocPage (h : Framed k (Covered held)) (hinv : VmmInv ⟨k, held⟩)
    (hbits : k.pmm.pmmBitmapLength ≤ 0x20000) {fuel count r : ℕ} (hcount32 : count < 2 ^ 32)
    (hscan : k.SafeScan count)
    (hcall : k.vmmAllocPage fuel count = some (r, k')) :
    Framed k' (Covered (VmmRun.handedOut r count ++ held)) := by
  have hpos : k.vmmPos < k.vmmapPageCount := hinv.vmmPos_lt
  have hpages := k.page_count
  rcases Kernel.vmmAllocPage_cases hcall with ⟨-, rfl, rfl⟩ | ⟨p, kMapped, hfound, hreturn⟩
  · exact h
  have hsettles := Kernel.vmmSettles_of_scan (by lia) hcount32 hfound
  have hsafe := hscan p hsettles
  have hle := hsafe.1
  have hlen := hsafe.2
  obtain ⟨done, pmm, pte, hloop, -, hkept, hfree⟩ :=
    Kernel.vmmAllocLoop_eq (add32 (sub32 p count) 1) count 0 k
  simp only [Nat.zero_add] at hkept
  -- the pages that were held show what they showed
  have hmapped : ∀ x, Covered held x → k.getGloblPageAttr x ≠ 0 := by
    rintro x ⟨range, hrange, hx⟩
    exact hinv.mapped range hrange x hx
  have hframe : ∀ x, Covered held x →
      Kernel.frame { k with pmm := pmm, globlMmapPte := pte } x = k.frame x :=
    fun x hx => Kernel.frame_congr (hinv.frame_of_slots hsettles hsafe hkept (.inl (hmapped x hx)))
  have hused : ∀ x, Covered held x → k.frame x ∉ pmm.freePages :=
    fun x hx => hfree _ (h.taken x hx).2.1 (h.taken x hx).1
  rcases hreturn with ⟨heq, hr, hk⟩ | ⟨heq, hr, hk⟩
  · -- the run was mapped: its pages have the frames the loop took
    have hslot : ∀ j < count, k.getGloblPageIndex (add32 (add32 (sub32 p count) 1) j) =
        k.dmmapPageCount + (p + 1 - count + j) := fun j hj => hsafe.inside.slot_eq hpos hj
    have hruns := Kernel.vmmAllocLoop_takesRun (add32 (sub32 p count) 1) count 0 k (fun _ => rfl)
      (fun j _ hj => by rw [hslot j (by omega)]; omega)
      (fun j _ hj j' hjj hj' => by rw [hslot j (by omega), hslot j' (by omega)]; omega) hbits
      (by rw [heq])
    rw [hloop] at hruns heq
    obtain ⟨-, rfl⟩ := Prod.mk.inj heq
    have haddress : r = (k.dmmapPageCount + (p + 1 - count)) * pageSize :=
      hr.trans (hsafe.inside.windowAddress_eq hpos)
    have hcovered : ∀ x, Covered (VmmRun.handedOut r count ++ held) x →
        (∃ j < count, x = k.getGloblPageIndex (add32 (add32 (sub32 p count) 1) j)) ∨
          Covered held x := by
      rintro x ⟨range, hrange, hx⟩
      rcases List.mem_append.1 hrange with hrange | hrange
      · unfold VmmRun.handedOut at hrange
        split_ifs at hrange
        · exact absurd hrange List.not_mem_nil
        · rw [List.mem_singleton] at hrange
          rw [hrange, haddress, Nat.mul_div_cancel _ (by decide), VmmRun.mem_pages] at hx
          dsimp only at hx
          refine .inl ⟨x - (k.dmmapPageCount + (p + 1 - count)), by omega, ?_⟩
          rw [hslot _ (by omega)]
          omega
      · exact .inr ⟨range, hrange, hx⟩
    rw [hk]
    refine mono (h.union hframe hused ?_ ?_) hcovered
    · rintro x ⟨j, hj, rfl⟩
      obtain ⟨hfree, htaken, hne⟩ := hruns.taken j (Nat.zero_le j) (by omega)
      have hbound := (Pmm.mem_freePages.1 hfree).1
      exact ⟨hfree, htaken, hne, lt_of_lt_of_le hbound (by lia)⟩
    · rintro x ⟨j, hj, rfl⟩ y ⟨j', hj', rfl⟩ hsame
      rw [hruns.single j (Nat.zero_le j) (by omega) j' (Nat.zero_le j') (by omega) hsame]
  · rw [hk, ← (Prod.mk.inj (hloop.symm.trans heq)).2, hr]
    exact h.of_kept hframe hused

theorem of_vmmFreePage (h : Framed k (Covered held)) (hinv : VmmInv ⟨k, held⟩) {attr count : ℕ}
    (hrange : (attr / pageSize, count) ∈ held) :
    Framed (k.vmmFreePage attr count) (Covered (held.erase (attr / pageSize, count))) := by
  obtain ⟨hnot, hsum, hlast, hslots⟩ := hinv.release_slots hrange
  have hpages := k.page_count
  dsimp only at hnot hsum hlast hslots
  have hperm := List.perm_cons_erase hrange
  have hapart : ((attr / pageSize, count) :: held.erase (attr / pageSize, count)).Pairwise
      fun range range' => Disjoint (VmmRun.pages range) (VmmRun.pages range') :=
    (hperm.pairwise_iff fun {_ _} hdisj => hdisj.symm).1 hinv.disjoint
  have hother := (List.pairwise_cons.1 hapart).1
  have hslot : ∀ j < count, k.getGloblPageIndex
      (add32 (attr / pageSize - k.dmmapPageCount) j) = attr / pageSize + j := by
    intro j hj
    rw [add32_of_lt (by lia), Kernel.getGloblPageIndex_of_lt (by omega)]
    omega
  have hcovers : ∀ j < count, Covered held (attr / pageSize + j) :=
    fun j hj => ⟨_, hrange, VmmRun.mem_pages.2 ⟨Nat.le_add_right _ j, Nat.add_lt_add_left hj _⟩⟩
  have hheld : ∀ x, Covered (held.erase (attr / pageSize, count)) x → Covered held x :=
    fun x ⟨range, hmem, hx⟩ => ⟨range, List.mem_of_mem_erase hmem, hx⟩
  have hout : ∀ x, Covered (held.erase (attr / pageSize, count)) x →
      x ∉ VmmRun.pages (attr / pageSize, count) :=
    fun x ⟨range, hmem, hx⟩ => Finset.disjoint_right.1 (hother range hmem) hx
  have hfree : ∀ x, Covered (held.erase (attr / pageSize, count)) x → k.frame x ∉
      (Kernel.vmmFreeLoop (attr / pageSize - k.dmmapPageCount) count k).pmm.freePages := by
    intro x hx
    refine Kernel.vmmFreeLoop_frees _ count hslot (fun j hj => ?_) (fun j _ j' hj' => by omega)
      (fun j hj => lt_trans (h.taken _ (hcovers j hj)).2.2 (by decide)) (h.taken x (hheld x hx)).1
      fun j hj heq => ?_
    · rw [add32_of_lt (by lia)]
      omega
    · refine hout x hx ?_
      rw [h.single x (hheld x hx) _ (hcovers j hj) heq]
      exact VmmRun.mem_pages.2 ⟨Nat.le_add_right _ j, Nat.add_lt_add_left hj _⟩
  obtain ⟨pmm, pte, hloop, -, hframe⟩ :=
    Kernel.vmmFreeLoop_eq (attr / pageSize - k.dmmapPageCount) count k
  obtain ⟨pos, -, hraise⟩ := VmmInv.raiseVmmPos_eq { k with pmm := pmm, globlMmapPte := pte }
    hinv.vmmPos_lt (hinv.held_pos _ hrange) hlast
  rw [hloop] at hfree
  unfold Kernel.vmmFreePage
  dsimp only
  rw [if_neg hnot, hsum, if_pos hlast, hloop, hraise]
  exact (h.mono hheld).of_kept
    (fun x hx => Kernel.frame_congr (congrArg getPageAttr (hframe x (hslots x (hout x hx))))) hfree

theorem phyAttr_eq (h : Framed k P) {a : ℕ} (ha : P (a / pageSize)) :
    k.getGloblPhyAttr a = k.frame (a / pageSize) * pageSize + a % pageSize := by
  have hlt := (h.taken _ ha).2.2
  unfold Kernel.getGloblPhyAttr
  rw [← Kernel.frame_mul, add32_of_lt (by lia)]

/-- Behind pages that show frames of their own, two addresses are two bytes of memory. -/
theorem phyAttr_inj (h : Framed k P) {a a' : ℕ} (ha : P (a / pageSize)) (ha' : P (a' / pageSize))
    (heq : k.getGloblPhyAttr a = k.getGloblPhyAttr a') : a = a' := by
  rw [h.phyAttr_eq ha, h.phyAttr_eq ha'] at heq
  have hpage := h.single _ ha _ ha' (by lia)
  rw [hpage] at heq
  lia

end Framed

/-! ## Runs of the heap -/

theorem covered_append {held held' : List (ℕ × ℕ)} {x : ℕ} :
    Covered (held ++ held') x ↔ Covered held x ∨ Covered held' x := by
  unfold Covered
  simp only [List.mem_append, or_and_right, exists_or]

theorem covered_onePages {owned : Finset ℕ} {x : ℕ} : Covered (onePages owned) x ↔ x ∈ owned :=
  ⟨fun ⟨_, hrange, hx⟩ => mem_of_onePages hrange hx,
    fun hx => ⟨(x, 1), onePage_mem hx, self_mem_pages x⟩⟩

namespace AllocRun

/-- The pages that the heap or another holds. -/
def HeldPage (s : AllocRun) (x : ℕ) : Prop := Covered (s.others ++ onePages s.run.owned) x

/-- The others use `vmm_alloc_page` and `vmm_free_page` only, and stores. -/
def OwnCall (s : AllocRun) : AllocCall → Prop
  | .other (.vmmAllocPage count) => s.kernel.SafeScan count
  | .other (.vmmFreePage attr count) => (attr / pageSize, count) ∈ s.others
  | .other (.store _ _) => True
  | .other _ => False
  | call => s.SafeCall call

theorem OwnCall.safe {s : AllocRun} {call : AllocCall} (h : s.OwnCall call) : s.SafeCall call := by
  cases call with
  | other call =>
      cases call with
      | vmmAllocPage count => exact h
      | vmmMmapPdePage attr count pde => exact h.elim
      | _ => exact trivial
  | _ => exact h

end AllocRun

/-- The invariant of the heap on the window, and that the pages held have frames of their
own. -/
structure FrameInv (b : KernelBoot) (s : AllocRun) : Prop extends AllocInv s where
  reachable : (memMachine b).Reachable s.kernel
  framed : Framed s.kernel s.HeldPage

namespace FrameInv

variable {b : KernelBoot} {s s' : AllocRun}

theorem bits (h : FrameInv b s) : s.kernel.pmm.pmmBitmapLength ≤ 0x20000 :=
  (Kernel.Bounded.of_reachable h.reachable).pmmBitmapLength_le

theorem of_init (h : (allocMachine b).init s) : FrameInv b s := by
  have hinv := AllocInv.of_init h
  obtain ⟨⟨memory, behind, page, hwindow⟩, -, -, howned⟩ := h
  obtain ⟨hkernel, hothers⟩ := VmmRun.mk.inj hwindow
  refine ⟨hinv, .init ⟨memory, behind, page, hkernel⟩, ?_⟩
  have hnone : ∀ x, ¬ s.HeldPage x := by
    intro x hx
    rcases covered_append.1 hx with ⟨range, hrange, -⟩ | hx
    · rw [hothers] at hrange
      exact absurd hrange List.not_mem_nil
    · rw [covered_onePages, howned] at hx
      exact absurd hx (Finset.notMem_empty x)
  exact ⟨fun x hx => absurd hx (hnone x), fun x hx => absurd hx (hnone x)⟩

theorem of_kmalloc (h : FrameInv b s) {len : ℕ} (hen : s.Enabled (.kmalloc len))
    (hsafe : s.SafeCall (.kmalloc len)) (hstep : s.Steps (.kmalloc len) s') : FrameInv b s' := by
  refine ⟨h.toAllocInv.of_kmalloc hen hsafe hstep, ?_, ?_⟩ <;>
    rcases AllocRun.kmalloc_window hstep with ⟨hkernel, howned, -⟩ | ⟨r, hserves, howned, -⟩
  · rw [hkernel]
    exact h.reachable
  · exact .step (a := .vmmAllocPage _) h.reachable ⟨r, hserves⟩
  · obtain ⟨-, -, -, hothers⟩ := hstep
    unfold AllocRun.HeldPage
    rw [hkernel, hothers, howned]
    exact h.framed
  · obtain ⟨-, -, -, hothers⟩ := hstep
    obtain ⟨-, hcount32⟩ := AllocInv.requestedPages_bounds hen
    obtain ⟨fuel, hcall⟩ := hserves
    refine (h.framed.of_vmmAllocPage h.window h.bits hcount32 hsafe hcall).mono fun x hx => ?_
    unfold AllocRun.HeldPage at hx
    rw [hothers, howned, covered_append, covered_onePages] at hx
    rw [covered_append, covered_append, covered_onePages]
    rcases hx with hx | hx
    · exact .inr (.inl hx)
    · exact (mem_apply_vmmAllocPage hx).imp_right .inr

theorem of_kfree (h : FrameInv b s) {p : ℕ} (hen : s.Enabled (.kfree p))
    (hstep : s.Steps (.kfree p) s') : FrameInv b s' := by
  have hheap := HeapInv.of_reachable h.heap
  refine ⟨h.toAllocInv.of_kfree hen hstep, ?_, ?_⟩ <;>
    rcases AllocRun.kfree_window hheap hen hstep with
      ⟨hkernel, howned⟩ | ⟨attr, num, hnum, hgiven, hkernel, howned⟩
  · rw [hkernel]
    exact h.reachable
  · exact .step (a := .vmmFreePage attr num) h.reachable ⟨0, rfl, hkernel⟩
  · unfold AllocRun.HeldPage
    rw [hkernel, hstep.2.2, howned]
    exact h.framed
  · have hjoined := h.framed.mono (Q := Covered ((attr / pageSize, num) ::
        (s.others ++ onePages (s.run.owned \ VmmRun.pages (attr / pageSize, num))))) fun x hx => ?_
    · have hfreed := hjoined.of_vmmFreePage (h.joined hnum hgiven) List.mem_cons_self
      rw [List.erase_cons_head] at hfreed
      unfold AllocRun.HeldPage
      rw [hkernel, hstep.2.2, howned]
      exact hfreed
    · unfold AllocRun.HeldPage
      rw [← List.singleton_append, covered_append, covered_append, covered_onePages] at hx
      rw [covered_append, covered_onePages]
      rcases hx with ⟨range, hrange, hx⟩ | hx | hx
      · rw [List.mem_singleton] at hrange
        exact .inr (hgiven (hrange ▸ hx))
      · exact .inl hx
      · exact .inr (Finset.mem_sdiff.1 hx).1

theorem of_other (h : FrameInv b s) {call : MemCall} (hen : s.Enabled (.other call))
    (hown : s.OwnCall (.other call)) (hstep : s.Steps (.other call) s') : FrameInv b s' := by
  refine ⟨h.toAllocInv.of_other (b := b) hen hown.safe hstep, ?_, ?_⟩
  · obtain ⟨-, r, hcall, -⟩ := hstep
    exact .step h.reachable ⟨r, hcall⟩
  obtain ⟨hrun, r, hcall, hothers⟩ := hstep
  unfold AllocRun.HeldPage
  rw [hrun, hothers]
  cases call with
  | vmmAllocPage count =>
      obtain ⟨fuel, hcall⟩ := hcall
      have hnew := h.framed.of_vmmAllocPage h.window h.bits hen.2 hown hcall
      rw [← List.append_assoc] at hnew
      exact hnew
  | vmmFreePage attr count =>
      have hfreed := h.framed.of_vmmFreePage h.window (List.mem_append_left _ hown)
      rw [List.erase_append_left _ hown] at hfreed
      rw [hcall.2]
      exact hfreed
  | store table words =>
      rw [hcall.2]
      exact h.framed.of_kept (fun _ _ => rfl) fun x hx => (h.framed.taken x hx).1
  | _ => exact absurd hown id

theorem of_reachable (hs : ((allocMachine b).restrict AllocRun.OwnCall).Reachable s) :
    FrameInv b s := by
  refine Machine.Reachable.invariant (M := (allocMachine b).restrict AllocRun.OwnCall)
    (fun _ hinit => of_init hinit) (fun s call s' hinv hstep => ?_) hs
  obtain ⟨hown, hen, hstep⟩ := hstep
  cases call with
  | kmalloc len => exact hinv.of_kmalloc hen hown hstep
  | kfree p => exact hinv.of_kfree hen hstep
  | other call => exact hinv.of_other hen hown hstep

end FrameInv

/-- The address is in a live block of the heap, its header included, or in a range of
another. -/
def AllocRun.Holds (s : AllocRun) (a : ℕ) : Prop :=
  (∃ c ∈ s.run.live, c.addr ≤ a ∧ a < c.addr + c.length) ∨ Covered s.others (a / pageSize)

theorem AllocInv.heldPage {s : AllocRun} (h : AllocInv s) {a : ℕ} (ha : s.Holds a) :
    s.HeldPage (a / pageSize) := by
  rcases ha with ⟨c, hc, hle, hlt⟩ | ha
  · refine covered_append.2 (.inr (covered_onePages.2 ?_))
    refine ((HeapInv.of_reachable h.heap).owned_iff _).2 ⟨c, hc, Block.mem_pages.2 ?_⟩
    unfold Block.firstPage Block.lastPage
    lia
  · exact covered_append.2 (.inl ha)

/-- **The memory of the heap is its own.** In every run of the heap and of others that request
and release pages of the window, whose scans stay in the window, the kernel reaches a byte of
the physical memory under each address that is held. No two of these bytes are the same, and
none is in a free frame. -/
theorem heap_frames_private {b : KernelBoot} {s : AllocRun}
    (hs : ((allocMachine b).restrict AllocRun.OwnCall).Reachable s) :
    (∀ a, s.Holds a → ∀ acc : PageAccess, acc.user = false →
        s.kernel.walk acc s.kernel.kernelMmapPde (pageOffset + a) =
          some (s.kernel.getGloblPhyAttr a)) ∧
      (∀ a a', s.Holds a → s.Holds a' →
        s.kernel.getGloblPhyAttr a = s.kernel.getGloblPhyAttr a' → a = a') ∧
      ∀ a, s.Holds a → s.kernel.getGloblPhyAttr a / pageSize ∉ s.kernel.pmm.freePages := by
  have hinv := FrameInv.of_reachable hs
  refine ⟨fun a ha acc hacc => ?_,
    fun a a' ha ha' => hinv.framed.phyAttr_inj (hinv.heldPage ha) (hinv.heldPage ha'),
    fun a ha => ?_⟩
  · obtain ⟨range, hrange, hx⟩ := hinv.heldPage ha
    have hend := (hinv.window.held_mem range hrange).2
    have hlt := (VmmRun.mem_pages.1 hx).2
    have hpte := hinv.framed.phyAttr_eq (hinv.heldPage ha)
    rw [hpte, Kernel.frame_mul]
    exact Kernel.walk_shown (Kernel.KernelEntries.of_reachable hinv.reachable)
      (by lia) hacc _ (fun _ _ => rfl) (hinv.window.mapped range hrange _ hx)
  · have hpage := hinv.heldPage ha
    have hframe : s.kernel.getGloblPhyAttr a / pageSize = s.kernel.frame (a / pageSize) := by
      rw [hinv.framed.phyAttr_eq hpage]
      lia
    rw [hframe]
    exact (hinv.framed.taken _ hpage).1

section Example

open Kernel

/-- The first byte of the second of two blocks, and one of the page that another holds. -/
theorem heap_frames_private_two_blocks : ∃ s : AllocRun,
    s.run.live = [⟨196606 * pageSize, 32⟩, ⟨196606 * pageSize + 32, 112⟩] ∧ s.others = [(196607, 1)] ∧
      s.kernel.getGloblPhyAttr (196606 * pageSize + 32) ≠ s.kernel.getGloblPhyAttr (196607 * pageSize) ∧
      s.kernel.getGloblPhyAttr (196607 * pageSize) / pageSize ∉ s.kernel.pmm.freePages := by
  obtain ⟨k, k', hscan, hscan', hfirst, hsecond, hthird⟩ := smallAlloc_steps
  obtain ⟨hsmall, hsmall'⟩ := requestedPages_small
  have hown : AllocRun.OwnCall ⟨smallKernel, emptyHeap, []⟩ (.other (.vmmAllocPage 1)) :=
    safeScan_one smallKernel_fresh.pos_lt
  have hown' : AllocRun.OwnCall ⟨k, emptyHeap, [(196607, 1)]⟩ (.kmalloc 20) :=
    hsmall.symm ▸ hscan
  have hown'' : AllocRun.OwnCall ⟨k', oneBlock, [(196607, 1)]⟩ (.kmalloc 100) :=
    hsmall'.symm ▸ hscan'
  obtain ⟨-, hinj, hused⟩ := heap_frames_private (.step (.step (.step (.init smallAlloc_init)
    ⟨hown, hfirst⟩) ⟨hown', hsecond⟩) ⟨hown'', hthird⟩)
  have hblock : AllocRun.Holds ⟨k', twoBlocks, [(196607, 1)]⟩ (196606 * pageSize + 32) :=
    .inl ⟨⟨196606 * pageSize + 32, 112⟩, by rw [twoBlocks_live]; simp, le_rfl,
      Nat.lt_add_of_pos_right (by decide)⟩
  have hother : AllocRun.Holds ⟨k', twoBlocks, [(196607, 1)]⟩ (196607 * pageSize) :=
    .inr ⟨_, List.mem_cons_self, by decide⟩
  exact ⟨_, twoBlocks_live, rfl, fun heq => absurd (hinj _ _ hblock hother heq) (by decide),
    hused _ hother⟩

end Example

end BitchKernel
