import BitchKernel.Mm.Alloc

/-!
# How the blocks of the heap lie in pages

Two blocks may share a page only when the earlier one ends in it and the later
one lies in it entirely; and the blocks that share a page stand next to each
other in the list. The first fact is `Block.Before`, the second `Contiguous`.
Together they say that `kfree`, which looks at its two neighbours only, gives
back exactly the pages of the freed block that no other live block overlaps.
-/

namespace BitchKernel

namespace Block

def firstPage (b : Block) : ℕ := b.addr / pageSize

def lastPage (b : Block) : ℕ := (b.addr + b.length - 1) / pageSize

def pages (b : Block) : Finset ℕ := Finset.Icc b.firstPage b.lastPage

theorem mem_pages {b : Block} {g : ℕ} : g ∈ b.pages ↔ b.firstPage ≤ g ∧ g ≤ b.lastPage :=
  Finset.mem_Icc

/-- A block is large enough for its header and ends before the final page of
memory; it begins a page or stays inside one. -/
structure Wf (b : Block) : Prop where
  addr_pos : 0 < b.addr
  header_le : sizeofAllocHeader ≤ b.length
  length_lt : b.length + pageSize < 2 ^ 32
  end_le : b.addr + b.length + pageSize ≤ 2 ^ 32
  fresh : b.addr % pageSize = 0 ∨ b.firstPage = b.lastPage

theorem Wf.first_le_last {b : Block} (h : b.Wf) : b.firstPage ≤ b.lastPage := by
  have hlen := h.header_le
  unfold firstPage lastPage
  lia

theorem Wf.firstPage_mem {b : Block} (h : b.Wf) : b.firstPage ∈ b.pages :=
  mem_pages.2 ⟨le_rfl, h.first_le_last⟩

theorem Wf.lastPage_mem {b : Block} (h : b.Wf) : b.lastPage ∈ b.pages :=
  mem_pages.2 ⟨h.first_le_last, le_rfl⟩

theorem Wf.num_eq {b : Block} (h : b.Wf) :
    (b.length + pageSize - 1) / pageSize = b.lastPage + 1 - b.firstPage := by
  have hlen := h.header_le
  rcases h.fresh with hfresh | hfresh
  · unfold firstPage lastPage
    lia
  · have hle := h.first_le_last
    unfold firstPage lastPage at *
    lia

/-- `b` may stand before `c` in the list: they overlap no common page, or `c`
lies in the page where `b` ends, behind `b`. -/
def Before (b c : Block) : Prop :=
  Disjoint b.pages c.pages ∨
    (b.lastPage = c.firstPage ∧ c.firstPage = c.lastPage ∧ b.addr + b.length ≤ c.addr)

theorem Before.of_mem {b c : Block} (h : b.Before c) {g : ℕ} (hb : g ∈ b.pages)
    (hc : g ∈ c.pages) :
    b.lastPage = g ∧ c.firstPage = g ∧ c.lastPage = g ∧ b.addr + b.length ≤ c.addr := by
  rcases h with hdisj | ⟨hbc, hcc, hle⟩
  · exact absurd hc (Finset.disjoint_left.1 hdisj hb)
  · rw [mem_pages] at hc
    omega

theorem Before.of_eq {b c : Block} (h : b.Before c) (hb : b.Wf) (hc : c.Wf)
    (heq : b.lastPage = c.firstPage) :
    c.firstPage = c.lastPage ∧ b.addr + b.length ≤ c.addr := by
  have hmem := h.of_mem hb.lastPage_mem (heq ▸ hc.firstPage_mem)
  exact ⟨hmem.2.1.trans hmem.2.2.1.symm, hmem.2.2.2⟩

theorem Before.disjoint {b c : Block} (h : b.Before c) (hb : b.Wf) (hc : c.Wf) :
    b.addr + b.length ≤ c.addr ∨ c.addr + c.length ≤ b.addr := by
  by_contra hover
  push Not at hover
  have hblen := hb.header_le
  have hclen := hc.header_le
  -- the larger of the two first addresses lies in both blocks
  have hmem : max b.addr c.addr / pageSize ∈ b.pages ∧
      max b.addr c.addr / pageSize ∈ c.pages := by
    rw [mem_pages, mem_pages]
    unfold firstPage lastPage
    lia
  have hle := (h.of_mem hmem.1 hmem.2).2.2.2
  omega

end Block

open Block

/-- When a block ends in the page where a later one begins, so does every block
between the two. -/
def Contiguous : List Block → Prop
  | [] => True
  | b :: l => (∀ c ∈ l, b.lastPage = c.firstPage → ∀ d ∈ l.head?, b.lastPage = d.firstPage) ∧
      Contiguous l

namespace Contiguous

theorem cons_iff {b : Block} {l : List Block} :
    Contiguous (b :: l) ↔
      (∀ c ∈ l, b.lastPage = c.firstPage → ∀ d ∈ l.head?, b.lastPage = d.firstPage) ∧
        Contiguous l :=
  Iff.rfl

/-- The final block of `l` ends in the page where `b` begins, when some block of
`l` does. -/
theorem getLast {l m : List Block} {b c z : Block} (h : Contiguous (l ++ b :: m))
    (hbefore : (l ++ b :: m).Pairwise Before) (hwf : ∀ d ∈ l ++ b :: m, d.Wf)
    (hc : c ∈ l) (hcb : c.lastPage = b.firstPage) (hz : z ∈ l.getLast?) :
    z.lastPage = b.firstPage := by
  induction l generalizing c with
  | nil => simp at hc
  | cons d l ih =>
      rw [List.cons_append] at h hbefore hwf
      obtain ⟨hd, hcont⟩ := cons_iff.1 h
      obtain ⟨hdall, hpair⟩ := List.pairwise_cons.1 hbefore
      cases l with
      | nil =>
          simp only [List.mem_singleton] at hc
          simp only [List.getLast?_singleton, Option.mem_def, Option.some.injEq] at hz
          rw [← hz, ← hc]
          exact hcb
      | cons e l =>
          have hz' : z ∈ (e :: l).getLast? := by
            rwa [List.getLast?_cons_cons] at hz
          have hwf' : ∀ d ∈ e :: l ++ b :: m, d.Wf := fun x hx => hwf x (List.mem_cons_of_mem d hx)
          rcases List.mem_cons.1 hc with rfl | hmem
          · -- `c` is the first block; its successor shares the page and ends in it
            have he : c.lastPage = e.firstPage := hd b (by simp) hcb e (by simp)
            have hce := (hdall e (by simp)).of_eq (hwf c (by simp)) (hwf e (by simp)) he
            have heb : e.lastPage = b.firstPage := by rw [← hce.1, ← he, hcb]
            exact ih hcont hpair hwf' List.mem_cons_self heb hz'
          · exact ih hcont hpair hwf' hmem hcb hz'

theorem of_append {l m : List Block} (h : Contiguous (l ++ m)) : Contiguous m := by
  induction l with
  | nil => exact h
  | cons b l ih => exact ih (cons_iff.1 h).2

theorem remove {l m : List Block} {b : Block} (h : Contiguous (l ++ b :: m))
    (hbefore : (l ++ b :: m).Pairwise Before) (hwf : ∀ d ∈ l ++ b :: m, d.Wf) :
    Contiguous (l ++ m) := by
  induction l with
  | nil => exact (cons_iff.1 h).2
  | cons d l ih =>
      rw [List.cons_append] at h hbefore hwf ⊢
      obtain ⟨hd, hcont⟩ := cons_iff.1 h
      obtain ⟨hdall, hpair⟩ := List.pairwise_cons.1 hbefore
      have hwf' : ∀ d ∈ l ++ b :: m, d.Wf := fun x hx => hwf x (List.mem_cons_of_mem d hx)
      refine cons_iff.2 ⟨?_, ih hcont hpair hwf'⟩
      intro c hc hdc e he
      have hc' : c ∈ l ++ b :: m := by
        rw [List.mem_append] at hc
        rw [List.mem_append, List.mem_cons]
        tauto
      cases l with
      | cons f l =>
          have hef : e = f := by simpa using he.symm
          rw [hef]
          exact hd c hc' hdc f (by simp)
      | nil =>
          -- `b` stood between `d` and `e`; both share its page
          rw [List.nil_append] at he hc hd hcont hdall hwf
          have hb : d.lastPage = b.firstPage := hd c hc' hdc b (by simp)
          have hdb := (hdall b (by simp)).of_eq (hwf d (by simp)) (hwf b (by simp)) hb
          have hbc : b.lastPage = c.firstPage := by rw [← hdb.1, ← hb, hdc]
          have hbe : b.lastPage = e.firstPage := (cons_iff.1 hcont).1 c hc hbc e he
          rw [hb, hdb.1, hbe]

/-- A block may be added behind the final block `z` when every earlier block that
ends in its first page also ends in the first page of `z`. -/
theorem snoc {l : List Block} {z c : Block} (h : Contiguous (l ++ [z]))
    (hc : ∀ b ∈ l, b.lastPage = c.firstPage → b.lastPage = z.firstPage) :
    Contiguous (l ++ [z] ++ [c]) := by
  induction l with
  | nil => exact ⟨by simp, by simp, trivial⟩
  | cons b l ih =>
      rw [List.cons_append] at h
      rw [List.cons_append, List.cons_append]
      obtain ⟨hb, hcont⟩ := cons_iff.1 h
      refine cons_iff.2 ⟨?_, ih hcont fun d hd => hc d (List.mem_cons_of_mem b hd)⟩
      intro d hd hbd e he
      have he' : e ∈ (l ++ [z]).head? := by
        cases l <;> simpa using he
      rcases List.mem_append.1 hd with hd | hd
      · exact hb d hd hbd e he'
      · have hdc : d = c := by simpa using hd
        have hbz : b.lastPage = z.firstPage := hc b List.mem_cons_self (by rw [hbd, hdc])
        exact hb z (by simp) hbz e he'

end Contiguous

end BitchKernel
