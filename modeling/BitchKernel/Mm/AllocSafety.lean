import Mathlib.Algebra.Order.Ring.Nat
import BitchKernel.Lib.DList
import BitchKernel.Mm.AllocBlock

/-!
# Safety of the kernel heap over whole runs

The invariant `HeapInv` ties the list of headers in memory to the live blocks and
the live blocks to the owned pages. `kmalloc` puts one block at the end of both,
`kfree` takes one out of both.
-/

namespace BitchKernel

open Lib

/-! ## The links -/

namespace Heap

@[simp] theorem store_mem (h : Heap) (attr : ℕ) (f : AllocHeader → AllocHeader) (y : ℕ) :
    (h.store attr f).mem y = if y = attr then f (h.mem attr) else h.mem y := by
  simp [store, Function.update_apply]

@[simp] theorem store_pos (h : Heap) (attr : ℕ) (f : AllocHeader → AllocHeader) :
    (h.store attr f).pos = h.pos := rfl

theorem link_mem (h : Heap) {mem : ℕ} (len : ℕ) (hmem : h.pos ≠ mem) (y : ℕ) :
    (h.link mem len).mem y =
      if y = mem then ⟨h.pos, 0, len⟩
      else if h.pos ≠ 0 ∧ y = h.pos then { h.mem y with next := mem } else h.mem y := by
  unfold link
  by_cases hpos : h.pos = 0
  · simp only [store_pos, ne_eq, hpos, not_true_eq_false, if_false, store_mem, false_and]
    split_ifs <;> rfl
  · simp only [store_pos, ne_eq, hpos, not_false_eq_true, if_true, store_mem, true_and, hmem,
      if_false]
    by_cases hy : y = h.pos
    · rw [if_pos hy, if_neg (hy ▸ hmem), if_pos hy, hy]
    · rw [if_neg hy, if_neg hy]
      split_ifs <;> rfl

/-- The first store of `unlink` leaves the header of the block itself alone. -/
theorem unlink_eq (h : Heap) {mem : ℕ} (hself : (h.mem mem).last ≠ mem) :
    h.unlink mem =
      let h' := if (h.mem mem).last ≠ 0 then
          h.store (h.mem mem).last fun x => { x with next := (h.mem mem).next }
        else h
      if (h.mem mem).next ≠ 0 then
        h'.store (h.mem mem).next fun x => { x with last := (h.mem mem).last }
      else
        { h' with pos := (h.mem mem).last } := by
  unfold unlink
  by_cases hlast : (h.mem mem).last = 0
  · simp [hlast]
  · simp [hlast, hself.symm]

theorem unlink_last (h : Heap) {mem y : ℕ} (hself : (h.mem mem).last ≠ mem) (hy : y ≠ 0) :
    ((h.unlink mem).mem y).last =
      if y = (h.mem mem).next then (h.mem mem).last else (h.mem y).last := by
  rw [unlink_eq h hself]
  by_cases hlast : (h.mem mem).last = 0 <;> by_cases hnext : (h.mem mem).next = 0 <;>
    simp only [hlast, hnext, hy, ne_eq, not_true_eq_false, not_false_eq_true, if_true, if_false,
      store_mem] <;> split_ifs <;> simp_all

theorem unlink_next (h : Heap) {mem y : ℕ} (hself : (h.mem mem).last ≠ mem) (hy : y ≠ 0) :
    ((h.unlink mem).mem y).next =
      if y = (h.mem mem).last then (h.mem mem).next else (h.mem y).next := by
  rw [unlink_eq h hself]
  by_cases hlast : (h.mem mem).last = 0 <;> by_cases hnext : (h.mem mem).next = 0 <;>
    simp only [hlast, hnext, hy, ne_eq, not_true_eq_false, not_false_eq_true, if_true, if_false,
      store_mem] <;> split_ifs <;> simp_all

theorem unlink_length (h : Heap) {mem y : ℕ} (hself : (h.mem mem).last ≠ mem) :
    ((h.unlink mem).mem y).length = (h.mem y).length := by
  rw [unlink_eq h hself]
  by_cases hlast : (h.mem mem).last = 0 <;> by_cases hnext : (h.mem mem).next = 0 <;>
    simp only [hlast, hnext, ne_eq, not_true_eq_false, not_false_eq_true, if_true, if_false,
      store_mem] <;> split_ifs <;> simp_all

theorem unlink_pos (h : Heap) {mem : ℕ} (hself : (h.mem mem).last ≠ mem) :
    (h.unlink mem).pos = if (h.mem mem).next = 0 then (h.mem mem).last else h.pos := by
  rw [unlink_eq h hself]
  by_cases hlast : (h.mem mem).last = 0 <;> by_cases hnext : (h.mem mem).next = 0 <;>
    simp [hlast, hnext]

theorem vmmFreePage_notMem_kmalloc (vmmAllocPage : ℕ → ℕ) (h : Heap) (len attr : ℕ) (num : ℤ) :
    VmmCall.vmmFreePage attr num ∉ (h.kmalloc vmmAllocPage len).2.2 := by
  unfold kmalloc
  dsimp only
  split_ifs <;> simp

end Heap

/-! ## The invariant -/

/-- The list of headers holds the live blocks with their lengths, the blocks lie
in their pages as `Before` and `Contiguous` say, and the owned pages are those
that some live block overlaps. -/
structure HeapInv (s : HeapRun) : Prop where
  list : DList (fun a => (s.heap.mem a).last) (fun a => (s.heap.mem a).next) 0 s.heap.pos
    (s.live.map Block.addr)
  length_eq : ∀ b ∈ s.live, (s.heap.mem b.addr).length = b.length
  wf : ∀ b ∈ s.live, b.Wf
  before : s.live.Pairwise Block.Before
  contiguous : Contiguous s.live
  owned_iff : ∀ g, g ∈ s.owned ↔ ∃ b ∈ s.live, g ∈ b.pages

namespace HeapInv

variable {s : HeapRun}

theorem of_init (h : heapMachine.init s) : HeapInv s := by
  obtain ⟨hpos, hlive, howned⟩ := h
  refine ⟨?_, ?_, ?_, ?_, ?_, ?_⟩ <;> rw [hlive]
  · rw [hpos]
    exact DList.nil _ _ _
  · simp
  · simp
  · exact .nil
  · trivial
  · simp [howned]

theorem of_link (h : HeapInv s) {c : Block} {owned : Finset ℕ} (hwf : c.Wf)
    (hbefore : ∀ b ∈ s.live, b.Before c) (hcont : Contiguous (s.live ++ [c]))
    (howned : ∀ g, g ∈ owned ↔ g ∈ s.owned ∨ g ∈ c.pages) :
    HeapInv ⟨s.heap.link c.addr c.length, s.live ++ [c], owned⟩ := by
  have hne : ∀ b ∈ s.live, b.addr ≠ c.addr := by
    intro b hb heq
    have hlen := (h.wf b hb).header_le
    have hclen := hwf.header_le
    have hdisj := (hbefore b hb).disjoint (h.wf b hb) hwf
    lia
  have hnotMem : c.addr ∉ s.live.map Block.addr := by
    simpa using hne
  have hpos : s.heap.pos ≠ c.addr := by
    intro heq
    refine hnotMem (heq ▸ h.list.pos_mem ?_)
    rw [heq]
    exact hwf.addr_pos.ne'
  refine ⟨?_, ?_, ?_, ?_, hcont, ?_⟩
  · rw [List.map_append]
    change DList _ _ 0 c.addr _
    refine h.list.append hnotMem hwf.addr_pos.ne' ?_ ?_
    · intro y
      simp only [Heap.link_mem s.heap c.length hpos]
      split_ifs <;> rfl
    · intro y hy
      have hy0 : y ≠ 0 := by
        rintro rfl
        rcases List.mem_cons.1 hy with h0 | h0
        · exact hwf.addr_pos.ne h0
        · exact h.list.null_notMem h0
      simp only [Heap.link_mem s.heap c.length hpos]
      by_cases hyc : y = c.addr
      · simp [hyc]
      · by_cases hyp : y = s.heap.pos
        · simp [hyp, hyp ▸ hy0, hpos]
        · simp [hyc, hyp]
  · intro b hb
    simp only [Heap.link_mem s.heap c.length hpos]
    rcases List.mem_append.1 hb with hb | hb
    · rw [if_neg (hne b hb), ← h.length_eq b hb]
      split_ifs <;> rfl
    · rw [List.mem_singleton] at hb
      rw [hb, if_pos rfl]
  · intro b hb
    rcases List.mem_append.1 hb with hb | hb
    · exact h.wf b hb
    · rw [List.mem_singleton] at hb
      rwa [hb]
  · rw [List.pairwise_append]
    refine ⟨h.before, List.pairwise_singleton _ _, ?_⟩
    intro b hb d hd
    rw [List.mem_singleton] at hd
    rw [hd]
    exact hbefore b hb
  · intro g
    rw [howned, h.owned_iff]
    simp only [List.mem_append, List.mem_singleton]
    constructor
    · rintro (⟨b, hb, hg⟩ | hg)
      · exact ⟨b, .inl hb, hg⟩
      · exact ⟨c, .inr rfl, hg⟩
    · rintro ⟨b, hb | rfl, hg⟩
      · exact .inl ⟨b, hb, hg⟩
      · exact .inr hg

theorem exists_pos (h : HeapInv s) (hpos : s.heap.pos ≠ 0) :
    ∃ l z, s.live = l ++ [z] ∧ z.addr = s.heap.pos := by
  have heq := h.list.pos_eq
  rcases List.eq_nil_or_concat s.live with hnil | ⟨l, z, hlive⟩
  · rw [hnil] at heq
    exact absurd heq hpos
  · rw [List.concat_eq_append] at hlive
    refine ⟨l, z, hlive, ?_⟩
    rw [heq, hlive]
    simp

theorem of_bump (h : HeapInv s) {len : ℕ} (hlen : sizeofAllocHeader ≤ len)
    (hpos : s.heap.pos ≠ 0) (tail : ℕ)
    (htail : tail = add32 s.heap.pos (s.heap.mem s.heap.pos).length)
    (hfit : len ≤ sub32 (pageBase (sub32 (add32 tail pageSize) 1)) tail) :
    sub32 (add32 tail sizeofAllocHeader) sizeofAllocHeader = tail ∧
      add32 tail sizeofAllocHeader ≠ 0 ∧
        HeapInv ⟨s.heap.link tail len, s.live ++ [⟨tail, len⟩], s.owned⟩ := by
  obtain ⟨l, z, hlive, hz⟩ := h.exists_pos hpos
  have hzmem : z ∈ s.live := by simp [hlive]
  have hzwf := h.wf z hzmem
  have hzlen := hzwf.header_le
  have hzend := hzwf.end_le
  have htail' : tail = z.addr + z.length := by
    rw [htail, ← hz, h.length_eq z hzmem]
    exact add32_of_lt (by lia)
  -- the next page boundary behind the final block
  have hbase : pageBase (sub32 (add32 tail pageSize) 1) = (tail + pageSize - 1) / pageSize * pageSize := by
    rw [sub32_add32_of_lt (by lia) (by lia) (by lia), pageBase]
  have hbound : tail + len ≤ (tail + pageSize - 1) / pageSize * pageSize ∧
      tail + len + pageSize ≤ 2 ^ 32 ∧ tail % pageSize ≠ 0 := by
    rw [hbase, sub32_of_le (by lia) (by lia)] at hfit
    lia
  obtain ⟨hroom, hend, hmod⟩ := hbound
  have hplus : add32 tail sizeofAllocHeader = tail + sizeofAllocHeader := add32_of_lt (by lia)
  rw [hplus]
  have hfirst : (⟨tail, len⟩ : Block).firstPage = z.lastPage := by
    unfold Block.firstPage Block.lastPage
    rw [htail'] at hroom hmod ⊢
    lia
  have hlast : (⟨tail, len⟩ : Block).lastPage = z.lastPage := by
    unfold Block.lastPage
    rw [htail'] at hroom hmod ⊢
    lia
  have hwf : (⟨tail, len⟩ : Block).Wf :=
    ⟨by lia, hlen, by lia, hend, .inr (hfirst.trans hlast.symm)⟩
  refine ⟨sub32_of_le (by lia) (by lia), by lia, h.of_link hwf ?_ ?_ ?_⟩
  · intro b hb
    rw [hlive] at hb
    rcases List.mem_append.1 hb with hb | hb
    · have hbz : b.Before z := by
        have hpair := h.before
        rw [hlive, List.pairwise_append] at hpair
        exact hpair.2.2 b hb z (List.mem_singleton_self z)
      rcases hbz with hdisj | ⟨hbz, hzz, hle⟩
      · refine .inl (Finset.disjoint_left.2 fun g hg hgc => ?_)
        rw [Block.mem_pages, hfirst, hlast] at hgc
        have hgz : g = z.lastPage := le_antisymm hgc.2 hgc.1
        exact Finset.disjoint_left.1 hdisj hg (hgz ▸ hzwf.lastPage_mem)
      · refine .inr ⟨?_, hfirst.trans hlast.symm, ?_⟩
        · rw [hfirst, hbz, hzz]
        · change b.addr + b.length ≤ tail
          lia
    · rw [List.mem_singleton] at hb
      rw [hb]
      exact .inr ⟨hfirst.symm, hfirst.trans hlast.symm, htail'.ge⟩
  · rw [hlive]
    refine Contiguous.snoc (hlive ▸ h.contiguous) fun b hb hbc => ?_
    have hpair := h.before
    rw [hlive, List.pairwise_append] at hpair
    have hbz := hpair.2.2 b hb z (List.mem_singleton_self z)
    rw [hfirst] at hbc
    have hbwf := h.wf b (by simp [hlive, hb])
    have hmem := hbz.of_mem (hbc ▸ hbwf.lastPage_mem) hzwf.lastPage_mem
    rw [hbc, hmem.2.1]
  · intro g
    refine ⟨.inl, ?_⟩
    rintro (hg | hg)
    · exact hg
    · rw [Block.mem_pages, hfirst, hlast] at hg
      have hgz : g = z.lastPage := le_antisymm hg.2 hg.1
      exact (h.owned_iff g).2 ⟨z, hzmem, hgz ▸ hzwf.lastPage_mem⟩

theorem of_fresh (h : HeapInv s) {len page count : ℕ} (hlen : sizeofAllocHeader ≤ len)
    (hlt : len + pageSize < 2 ^ 32) (hpage : 0 < page)
    (hcount : count = (len + pageSize - 1) / pageSize) (hend : page + count < 0x100000)
    (hdisj : Disjoint s.owned (Finset.Ico page (page + count))) :
    HeapInv ⟨s.heap.link (page * pageSize) len, s.live ++ [⟨page * pageSize, len⟩],
      s.owned ∪ Finset.Ico page (page + count)⟩ := by
  have hfirst : (⟨page * pageSize, len⟩ : Block).firstPage = page := by
    unfold Block.firstPage
    lia
  have hlast : (⟨page * pageSize, len⟩ : Block).lastPage = page + count - 1 := by
    unfold Block.lastPage
    lia
  have hpages : (⟨page * pageSize, len⟩ : Block).pages = Finset.Ico page (page + count) := by
    ext g
    rw [Block.mem_pages, hfirst, hlast, Finset.mem_Ico]
    lia
  have hwf : (⟨page * pageSize, len⟩ : Block).Wf :=
    ⟨by lia, hlen, hlt, by lia, .inl (by simp)⟩
  have hapart : ∀ b ∈ s.live, Disjoint b.pages (⟨page * pageSize, len⟩ : Block).pages := by
    intro b hb
    rw [hpages]
    exact hdisj.mono_left fun g hg => (h.owned_iff g).2 ⟨b, hb, hg⟩
  refine h.of_link hwf (fun b hb => .inl (hapart b hb)) ?_ ?_
  · have hcont := h.contiguous
    rcases List.eq_nil_or_concat s.live with hnil | ⟨l, z, hlive⟩
    · rw [hnil]
      exact ⟨by simp, trivial⟩
    · rw [List.concat_eq_append] at hlive
      rw [hlive] at hcont ⊢
      refine hcont.snoc fun b hb hbc => ?_
      have hbmem : b ∈ s.live := by simp [hlive, hb]
      exact absurd (hbc ▸ hwf.firstPage_mem)
        (Finset.disjoint_left.1 (hapart b hbmem) (h.wf b hbmem).lastPage_mem)
  · intro g
    rw [hpages, Finset.mem_union]

theorem of_kmalloc (h : HeapInv s) {vmmAllocPage : ℕ → ℕ} {len : ℕ}
    (hen : s.Enabled (.kmalloc vmmAllocPage len)) : HeapInv (s.next (.kmalloc vmmAllocPage len)) := by
  obtain ⟨hlen, hsource⟩ := hen
  have hadd : add32 len sizeofAllocHeader = len + sizeofAllocHeader := add32_of_lt (by lia)
  have hcount : sub32 (add32 (len + sizeofAllocHeader) pageSize) 1 / pageSize =
      (len + sizeofAllocHeader + pageSize - 1) / pageSize := by
    rw [sub32_add32_of_lt (by lia) (by lia) (by lia)]
  unfold HeapRun.next HeapRun.calls Heap.kmalloc
  simp only [hadd, hcount]
  by_cases hbump : s.heap.pos ≠ 0 ∧ len + sizeofAllocHeader ≤
      sub32 (pageBase (sub32 (add32 (add32 s.heap.pos (s.heap.mem s.heap.pos).length) pageSize) 1))
        (add32 s.heap.pos (s.heap.mem s.heap.pos).length)
  · simp only [if_pos hbump]
    obtain ⟨haddr, hne, hinv⟩ := h.of_bump (by lia) hbump.1 _ rfl hbump.2
    rw [if_neg hne, haddr]
    exact hinv
  · simp only [if_neg hbump]
    generalize hc : (len + sizeofAllocHeader + pageSize - 1) / pageSize = count
    by_cases hnull : vmmAllocPage count = 0
    · simp only [if_pos hnull, if_true]
      simpa [VmmCall.apply, VmmCall.pages, hnull] using h
    · obtain ⟨page, hmem, hend, hdisj⟩ := (hsource count).resolve_left hnull
      have hpage : 0 < page := by lia
      have hplus : add32 (page * pageSize) sizeofAllocHeader = page * pageSize + sizeofAllocHeader :=
        add32_of_lt (by lia)
      have hminus : sub32 (page * pageSize + sizeofAllocHeader) sizeofAllocHeader = page * pageSize := by
        rw [sub32_of_le (by lia) (by lia)]
        omega
      have hdiv : page * pageSize / pageSize = page := by simp
      simp only [if_neg hnull, List.foldl_cons, List.foldl_nil, VmmCall.apply, VmmCall.pages]
      rw [hmem, hplus, hminus, hdiv, if_neg (by lia)]
      exact h.of_fresh (by lia) hlen hpage hc.symm hend hdisj

/-! ## Freeing a block -/

variable {pre post : List Block} {b : Block}

theorem links (h : HeapInv s) (hlive : s.live = pre ++ b :: post) :
    (s.heap.mem b.addr).last = (pre.map Block.addr).getLastD 0 ∧
      (s.heap.mem b.addr).next = (post.map Block.addr).headD 0 := by
  have hseg := h.list.seg
  rw [hlive, List.map_append, List.map_cons, Seg.append_cons] at hseg
  exact ⟨hseg.2.1, hseg.2.2.1⟩

theorem addr_ne_zero (h : HeapInv s) {d : Block} (hd : d ∈ s.live) : d.addr ≠ 0 :=
  (h.wf d hd).addr_pos.ne'

theorem pageBase_end (h : HeapInv s) {d : Block} (hd : d ∈ s.live) :
    pageBase (sub32 (add32 d.addr (s.heap.mem d.addr).length) 1) = d.lastPage * pageSize := by
  have hwf := h.wf d hd
  have hlen := hwf.header_le
  have hend := hwf.end_le
  rw [h.length_eq d hd, sub32_add32_of_lt (by lia) (by lia) (by lia)]
  rfl

theorem sharesLast_iff (h : HeapInv s) (hlive : s.live = pre ++ b :: post) :
    s.heap.sharesLast b.addr = true ↔ ∃ z ∈ pre.getLast?, z.lastPage = b.firstPage := by
  unfold Heap.sharesLast
  rw [(h.links hlive).1]
  rcases List.eq_nil_or_concat pre with rfl | ⟨l, z, rfl⟩
  · simp
  · rw [List.concat_eq_append] at hlive ⊢
    have hz : z ∈ s.live := by simp [hlive]
    have hgetLast : ((l ++ [z]).map Block.addr).getLastD 0 = z.addr := by simp
    have hbase : pageBase b.addr = b.firstPage * pageSize := rfl
    rw [hgetLast]
    dsimp only
    rw [h.pageBase_end hz, hbase]
    simp [h.addr_ne_zero hz]

theorem sharesNext_iff (h : HeapInv s) (hlive : s.live = pre ++ b :: post) :
    s.heap.sharesNext b.addr = true ↔ ∃ c ∈ post.head?, b.lastPage = c.firstPage := by
  have hb : b ∈ s.live := by simp [hlive]
  unfold Heap.sharesNext
  dsimp only
  rw [(h.links hlive).2, h.pageBase_end hb]
  cases post with
  | nil => simp
  | cons c m =>
      have hc : c ∈ s.live := by simp [hlive]
      have hbase : pageBase c.addr = c.firstPage * pageSize := rfl
      rw [List.map_cons, List.headD_cons, hbase]
      simp [h.addr_ne_zero hc]

/-- The first block of the pair that shares a page stands in front. -/
theorem before_of_split (h : HeapInv s) (hlive : s.live = pre ++ b :: post) :
    (∀ d ∈ pre, d.Before b) ∧ ∀ d ∈ post, b.Before d := by
  have hpair := h.before
  rw [hlive, List.pairwise_append] at hpair
  exact ⟨fun d hd => hpair.2.2 d hd b List.mem_cons_self, (List.pairwise_cons.1 hpair.2.1).1⟩

/-- A block in front of `b` overlaps a page of `b` only if the one directly in
front of it ends there. -/
theorem sharesLast_of_mem (h : HeapInv s) (hlive : s.live = pre ++ b :: post) {d : Block}
    (hd : d ∈ pre) {g : ℕ} (hg : g ∈ d.pages) (hb : g ∈ b.pages) :
    s.heap.sharesLast b.addr = true := by
  have hmem := ((h.before_of_split hlive).1 d hd).of_mem hg hb
  obtain ⟨z, hz⟩ : ∃ z, z ∈ pre.getLast? := by
    cases hlast : pre.getLast? with
    | none => simp [List.getLast?_eq_none_iff.1 hlast] at hd
    | some z => exact ⟨z, rfl⟩
  refine (h.sharesLast_iff hlive).2 ⟨z, hz, ?_⟩
  exact Contiguous.getLast (hlive ▸ h.contiguous) (hlive ▸ h.before) (hlive ▸ h.wf) hd
    (hmem.1.trans hmem.2.1.symm) hz

/-- A block behind `b` overlaps a page of `b` only if the one directly behind it
begins in the last page of `b`. -/
theorem sharesNext_of_mem (h : HeapInv s) (hlive : s.live = pre ++ b :: post) {d : Block}
    (hd : d ∈ post) {g : ℕ} (hg : g ∈ d.pages) (hb : g ∈ b.pages) :
    g = b.lastPage ∧ s.heap.sharesNext b.addr = true := by
  have hmem := ((h.before_of_split hlive).2 d hd).of_mem hb hg
  refine ⟨hmem.1.symm, (h.sharesNext_iff hlive).2 ?_⟩
  have hcont := Contiguous.of_append (hlive ▸ h.contiguous)
  obtain ⟨c, hc⟩ : ∃ c, c ∈ post.head? := by
    cases post with
    | nil => simp at hd
    | cons c m => exact ⟨c, rfl⟩
  exact ⟨c, hc, (Contiguous.cons_iff.1 hcont).1 d hd (hmem.1.trans hmem.2.1.symm) c hc⟩

theorem mem_call {attr g : ℕ} {num : ℤ} :
    (∃ call ∈ if 0 < num then [VmmCall.vmmFreePage attr num] else [], g ∈ call.pages) ↔
      attr / pageSize ≤ g ∧ g < attr / pageSize + num.toNat := by
  by_cases hnum : 0 < num
  · simp [hnum, VmmCall.pages]
  · simp only [if_neg hnum, List.not_mem_nil, false_and, exists_false, false_iff]
    omega

/-- `kfree` gives back the pages of the block that no other live block
overlaps. -/
theorem mem_kfree (h : HeapInv s) (hlive : s.live = pre ++ b :: post) (g : ℕ) :
    (∃ call ∈ (s.heap.kfree (b.addr + sizeofAllocHeader)).2, g ∈ call.pages) ↔
      g ∈ b.pages ∧ ∀ d ∈ pre ++ post, g ∉ d.pages := by
  have hb : b ∈ s.live := by simp [hlive]
  have hwf := h.wf b hb
  have hfirst := hwf.first_le_last
  have hnum : sub32 (add32 b.length pageSize) 1 / pageSize = b.lastPage + 1 - b.firstPage := by
    have hlt := hwf.length_lt
    rw [sub32_add32_of_lt (by lia) (by lia) (by lia), hwf.num_eq]
  have hend := hwf.end_le
  have hlen := hwf.header_le
  have hmem : sub32 (b.addr + sizeofAllocHeader) sizeofAllocHeader = b.addr := by
    rw [sub32_of_le (by lia) (by lia)]
    omega
  have hbase : pageBase b.addr / pageSize = b.firstPage := by
    unfold pageBase Block.firstPage
    lia
  unfold Heap.kfree
  simp only [hmem, h.length_eq b hb, hnum]
  rw [mem_call, Block.mem_pages]
  cases hlast : s.heap.sharesLast b.addr with
  | true =>
      -- the block lies in one page, which it shares with the block in front
      obtain ⟨z, hz, hzb⟩ := (h.sharesLast_iff hlive).1 hlast
      have hzpre : z ∈ pre := List.mem_of_getLast? hz
      have hzwf := h.wf z (by simp [hlive, hzpre])
      have hone := ((h.before_of_split hlive).1 z hzpre).of_eq hzwf hwf hzb
      have hnone : ¬ (b.firstPage ≤ g ∧ g ≤ b.lastPage ∧ ∀ d ∈ pre ++ post, g ∉ d.pages) := by
        rintro ⟨hge, hle, hother⟩
        have hg : g = z.lastPage := by omega
        exact hother z (List.mem_append_left post hzpre) (hg ▸ hzwf.lastPage_mem)
      simp only [if_true]
      split_ifs <;> constructor <;> intro hg
      · omega
      · exact absurd ⟨hg.1.1, hg.1.2, hg.2⟩ hnone
      · omega
      · exact absurd ⟨hg.1.1, hg.1.2, hg.2⟩ hnone
  | false =>
      -- only a block behind can lie in the last page
      have hpost : (g ∈ b.pages ∧ ∀ d ∈ pre ++ post, g ∉ d.pages) ↔
          g ∈ b.pages ∧ ∀ d ∈ post, g ∉ d.pages := by
        refine and_congr_right fun hgb =>
          ⟨fun hother d hd => hother d (List.mem_append_right pre hd), fun hother d hd hgd => ?_⟩
        rcases List.mem_append.1 hd with hd | hd
        · rw [h.sharesLast_of_mem hlive hd hgd hgb] at hlast
          exact Bool.noConfusion hlast
        · exact hother d hd hgd
      rw [← Block.mem_pages, hpost, Block.mem_pages]
      cases hnext : s.heap.sharesNext b.addr with
      | true =>
          obtain ⟨c, hc, hbc⟩ := (h.sharesNext_iff hlive).1 hnext
          have hcpost : c ∈ post := List.mem_of_head? hc
          have hcwf := h.wf c (by simp [hlive, hcpost])
          simp only [Bool.false_eq_true, if_false, if_true, hbase]
          constructor
          · intro hg
            have hgb : g ∈ b.pages := Block.mem_pages.2 (by omega)
            refine ⟨by omega, fun d hd hgd => ?_⟩
            have hglast := (h.sharesNext_of_mem hlive hd hgd hgb).1
            omega
          · rintro ⟨hg, hother⟩
            have hglast : g ≠ b.lastPage := by
              rintro rfl
              exact hother c hcpost (hbc ▸ hcwf.firstPage_mem)
            omega
      | false =>
          simp only [Bool.false_eq_true, if_false, hbase]
          constructor
          · intro hg
            have hgb : g ∈ b.pages := Block.mem_pages.2 (by omega)
            refine ⟨by omega, fun d hd hgd => ?_⟩
            rw [(h.sharesNext_of_mem hlive hd hgd hgb).2] at hnext
            exact Bool.noConfusion hnext
          · rintro ⟨hg, -⟩
            omega

theorem mem_foldl_kfree (owned : Finset ℕ) (heap : Heap) (p g : ℕ) :
    g ∈ (heap.kfree p).2.foldl VmmCall.apply owned ↔
      g ∈ owned ∧ ¬ ∃ call ∈ (heap.kfree p).2, g ∈ call.pages := by
  unfold Heap.kfree
  dsimp only
  split_ifs <;> simp [VmmCall.apply]

theorem addr_ne (h : HeapInv s) (hlive : s.live = pre ++ b :: post) {d : Block}
    (hd : d ∈ pre ++ post) : d.addr ≠ b.addr := by
  have hnodup := h.list.nodup
  rw [hlive, List.map_append, List.map_cons, List.nodup_middle, List.nodup_cons,
    ← List.map_append] at hnodup
  intro heq
  exact hnodup.1 (heq ▸ List.mem_map_of_mem hd)

theorem of_kfree (h : HeapInv s) (hlive : s.live = pre ++ b :: post) :
    HeapInv (s.next (.kfree (b.addr + sizeofAllocHeader))) ∧
      (s.next (.kfree (b.addr + sizeofAllocHeader))).live = pre ++ post := by
  have hb : b ∈ s.live := by simp [hlive]
  have hwf := h.wf b hb
  have hmem : sub32 (b.addr + sizeofAllocHeader) sizeofAllocHeader = b.addr := by
    have hlen := hwf.header_le
    have hend := hwf.end_le
    rw [sub32_of_le (by lia) (by lia)]
    omega
  have hfilter : s.live.filter (fun d => d.addr ≠ b.addr) = pre ++ post := by
    have hkeep : (pre ++ post).filter (fun d => d.addr ≠ b.addr) = pre ++ post :=
      List.filter_eq_self.2 fun d hd => by simpa using h.addr_ne hlive hd
    rw [List.filter_append] at hkeep
    rw [hlive, List.filter_append, List.filter_cons, if_neg (by simp), hkeep]
  have hsub : ∀ d ∈ pre ++ post, d ∈ s.live := by
    intro d hd
    rw [hlive, List.mem_append, List.mem_cons]
    rcases List.mem_append.1 hd with hd | hd
    · exact .inl hd
    · exact .inr (.inr hd)
  have hself : (s.heap.mem b.addr).last ≠ b.addr := by
    rw [(h.links hlive).1]
    intro heq
    have hlast : (pre.map Block.addr).getLastD 0 ∈ 0 :: pre.map Block.addr :=
      List.getLastD_mem_cons
    rw [heq, List.mem_cons, List.mem_map] at hlast
    rcases hlast with hzero | ⟨d, hd, hdb⟩
    · exact h.addr_ne_zero hb hzero
    · exact h.addr_ne hlive (List.mem_append_left post hd) hdb
  have hne : ∀ y ∈ pre.map Block.addr ++ post.map Block.addr, y ≠ 0 := by
    intro y hy
    rw [← List.map_append, List.mem_map] at hy
    obtain ⟨d, hd, rfl⟩ := hy
    exact h.addr_ne_zero (hsub d hd)
  have hlist := h.list
  rw [hlive, List.map_append, List.map_cons] at hlist
  unfold HeapRun.next
  simp only [hmem]
  rw [hfilter]
  refine ⟨⟨?_, ?_, fun d hd => h.wf d (hsub d hd), ?_, ?_, ?_⟩, rfl⟩
  · simp only [Heap.kfree, hmem]
    rw [Heap.unlink_pos _ hself, List.map_append]
    exact hlist.remove (fun y hy => Heap.unlink_last _ hself (hne y hy))
      (fun y hy => Heap.unlink_next _ hself (hne y hy))
  · intro d hd
    simp only [Heap.kfree, hmem, Heap.unlink_length _ hself]
    exact h.length_eq d (hsub d hd)
  · exact h.before.sublist (hlive ▸ (List.sublist_cons_self b post).append_left pre)
  · exact (hlive ▸ h.contiguous).remove (hlive ▸ h.before) (hlive ▸ h.wf)
  · intro g
    simp only [HeapRun.calls]
    rw [mem_foldl_kfree, h.mem_kfree hlive, h.owned_iff]
    constructor
    · rintro ⟨⟨d, hd, hgd⟩, hkept⟩
      by_contra hnone
      push Not at hnone
      rw [hlive, List.mem_append, List.mem_cons] at hd
      rcases hd with hd | rfl | hd
      · exact hnone d (List.mem_append_left post hd) hgd
      · exact hkept ⟨hgd, hnone⟩
      · exact hnone d (List.mem_append_right pre hd) hgd
    · rintro ⟨d, hd, hgd⟩
      exact ⟨⟨d, hsub d hd, hgd⟩, fun hfreed => hfreed.2 d hd hgd⟩

theorem of_step (h : HeapInv s) {op : HeapOp} (hen : s.Enabled op) : HeapInv (s.next op) := by
  cases op with
  | kmalloc vmmAllocPage len => exact h.of_kmalloc hen
  | kfree p =>
      obtain ⟨b, hb, rfl⟩ := hen
      obtain ⟨pre, post, hlive⟩ := List.append_of_mem hb
      exact (h.of_kfree hlive).1

theorem of_reachable (hs : heapMachine.Reachable s) : HeapInv s := by
  refine hs.invariant (fun _ h => of_init h) ?_
  rintro s op _ hinv ⟨hen, rfl⟩
  exact hinv.of_step hen

end HeapInv

/-- The kernel heap is safe in every reachable state: the live blocks do not
overlap and lie in owned pages, a step gives back only owned pages that no block
live after it overlaps, and without live blocks no page is owned. -/
theorem heap_safety {s : HeapRun} (hs : heapMachine.Reachable s) :
    s.live.Pairwise (fun b c => b.addr + b.length ≤ c.addr ∨ c.addr + c.length ≤ b.addr) ∧
      (∀ b ∈ s.live, ∀ a, b.addr ≤ a → a < b.addr + b.length → a / pageSize ∈ s.owned) ∧
      (∀ op, s.Enabled op → ∀ attr num, VmmCall.vmmFreePage attr num ∈ s.calls op →
        (VmmCall.vmmFreePage attr num).pages ⊆ s.owned ∧
          ∀ b ∈ (s.next op).live, Disjoint (VmmCall.vmmFreePage attr num).pages b.pages) ∧
      (s.live = [] → s.owned = ∅) := by
  have h := HeapInv.of_reachable hs
  refine ⟨?_, ?_, ?_, ?_⟩
  · exact h.before.imp_of_mem fun hb hc hbc => hbc.disjoint (h.wf _ hb) (h.wf _ hc)
  · intro b hb a hle hlt
    refine (h.owned_iff _).2 ⟨b, hb, Block.mem_pages.2 ?_⟩
    unfold Block.firstPage Block.lastPage
    lia
  · intro op hen attr num hcall
    cases op with
    | kmalloc vmmAllocPage len =>
        exact absurd hcall (Heap.vmmFreePage_notMem_kmalloc vmmAllocPage s.heap len attr num)
    | kfree p =>
        obtain ⟨b, hb, rfl⟩ := hen
        obtain ⟨pre, post, hlive⟩ := List.append_of_mem hb
        have hgiven : ∀ g ∈ (VmmCall.vmmFreePage attr num).pages,
            g ∈ b.pages ∧ ∀ d ∈ pre ++ post, g ∉ d.pages :=
          fun g hg => (h.mem_kfree hlive g).1 ⟨_, hcall, hg⟩
        refine ⟨fun g hg => (h.owned_iff g).2 ⟨b, hb, (hgiven g hg).1⟩, ?_⟩
        intro d hd
        rw [(h.of_kfree hlive).2] at hd
        exact Finset.disjoint_left.2 fun g hg => (hgiven g hg).2 d hd
  · intro hlive
    ext g
    simp [h.owned_iff, hlive]

/-- Two requests from the empty heap: the second block is cut from the page of
the first. -/
theorem heap_safety_two_blocks :
    let s : HeapRun := ⟨⟨fun _ => ⟨0, 0, 0⟩, 0⟩, [], ∅⟩
    let source : ℕ → ℕ := fun count => if count = 1 then 0x2000 else 0
    let t := (s.next (.kmalloc source 20)).next (.kmalloc (fun _ => 0) 100)
    t.live = [⟨0x2000, 32⟩, ⟨0x2020, 112⟩] ∧
      t.live.Pairwise (fun b c => b.addr + b.length ≤ c.addr ∨ c.addr + c.length ≤ b.addr) := by
  intro s source t
  have hinit : heapMachine.Reachable s := .init ⟨rfl, rfl, rfl⟩
  have hsource : PageSource s.owned source := by
    intro count
    by_cases hcount : count = 1
    · exact .inr ⟨2, by simp [source, hcount, pageSize], by simp [hcount], by simp [s]⟩
    · exact .inl (by simp [source, hcount])
  have hfirst : heapMachine.Reachable (s.next (.kmalloc source 20)) :=
    .step hinit (a := .kmalloc source 20) ⟨⟨by decide, hsource⟩, rfl⟩
  have hsecond : heapMachine.Reachable t :=
    .step hfirst (a := .kmalloc (fun _ => 0) 100) ⟨⟨by decide, fun _ => .inl rfl⟩, rfl⟩
  exact ⟨by with_unfolding_all decide, (heap_safety hsecond).1⟩

end BitchKernel
