import BitchKernel.Mm.UmmOpen

/-!
# What the processor makes of the page tables

The walk of the processor from a linear address over an entry of a directory and an entry
of a page table to a physical address, with the bits of `arch/x86/page.h` that it checks. A
process runs in segments that start at zero; the segments of the kernel start at
`PAGE_OFFSET`, so that the address `a` of the kernel is the linear address
`PAGE_OFFSET + a`. Write protection does not hold for the kernel, and no entry has
`PAGE_PDE_PS`.
-/

namespace BitchKernel

open Lib

/-- Who accesses an address, and how. -/
structure PageAccess where
  user : Bool
  write : Bool

namespace PageAccess

/-- The processor goes on at an entry: it is present, and a process may use it. -/
def allowed (acc : PageAccess) (entry : ℕ) : Bool :=
  entry.testBit 0 && (!acc.user || entry.testBit 2 && (!acc.write || entry.testBit 1))

theorem allowed_zero (acc : PageAccess) : acc.allowed 0 = false := by
  unfold allowed
  rw [Nat.zero_testBit]
  rfl

theorem testBit_setPage (base attr : ℕ) {i : ℕ} (hi : i < 12) :
    (setPage base attr).testBit i = attr.testBit i := by
  have hmod : setPage base attr % 2 ^ 12 = attr % 2 ^ 12 := by
    unfold setPage
    lia
  have hlow : ∀ n : ℕ, (n % 2 ^ 12).testBit i = n.testBit i := by
    intro n
    rw [Nat.testBit_mod_two_pow, decide_eq_true hi, Bool.true_and]
  rw [← hlow, hmod, hlow]

/-- `PAGE_PRESENT|PAGE_WRITE|PAGE_USER` lets everyone through. -/
theorem allowed_userEntry (acc : PageAccess) (f : ℕ) : acc.allowed (userEntry f) = true := by
  unfold allowed userEntry
  rw [testBit_setPage _ _ (by decide), testBit_setPage _ _ (by decide), testBit_setPage _ _ (by decide)]
  obtain ⟨user, write⟩ := acc
  cases user <;> cases write <;> rfl

/-- `PAGE_PRESENT|PAGE_WRITE` lets the kernel through, and no process. -/
theorem allowed_kernel (acc : PageAccess) (base : ℕ) :
    acc.allowed (setPage base pageKernel) = !acc.user := by
  unfold allowed
  rw [testBit_setPage _ _ (by decide), testBit_setPage _ _ (by decide), testBit_setPage _ _ (by decide)]
  obtain ⟨user, write⟩ := acc
  cases user <;> cases write <;> rfl

end PageAccess

namespace Kernel

/-- The physical address the processor accesses for the linear address `attr` under the
directory with the entries `pde`, or `none` for a page fault. -/
def walk (k : Kernel) (acc : PageAccess) (pde : ℕ → ℕ) (attr : ℕ) : Option ℕ :=
  let entry := pde (pdeIndex attr)
  if acc.allowed entry then
    let leaf := k.loadWord (getPageAttr entry) (pteIndex attr)
    if acc.allowed leaf then some (getPageAttr leaf + attr % pageSize) else none
  else none

/-- The entries of the directory at `pde`. -/
def entriesAt (k : Kernel) (pde : ℕ) (m : ℕ) : ℕ := k.loadWord pde m

end Kernel

namespace Tabled

variable {b : KernelBoot} {k : Kernel} {live : Finset ℕ} {d attr : ℕ}

/-- Below `PAGE_OFFSET` a directory lets everyone through to what it maps. -/
theorem walk_low (h : Tabled b k live) (hd : d ∈ live) (hattr : attr < pageOffset) (acc : PageAccess)
    (phy : ℕ) : k.walk acc (k.entriesAt (d * pageSize)) attr = some phy ↔
      ∃ f, k.Maps d (attr / pageSize) f ∧ phy = f * pageSize + attr % pageSize := by
  obtain ⟨hpde, hpte⟩ := index_eq attr
  have hm := pdeIndex_lt hattr
  have hmaps : ∀ f, k.Maps d (attr / pageSize) f ↔ Names k.page live f (.user d (attr / pageSize)) :=
    fun f => h.maps_iff hd (by lia)
  simp only [hmaps]
  unfold Kernel.walk Kernel.entriesAt
  dsimp only
  rw [h.loadWord_dir hd]
  rcases h.entry d hd (pdeIndex attr) hm with hnone | ⟨t, ht⟩
  · rw [hnone, PageAccess.allowed_zero, if_neg Bool.false_ne_true]
    constructor
    · exact fun heq => absurd heq.symm (Option.some_ne_none phy)
    · rintro ⟨f, ⟨t, ⟨-, -, ht⟩, -⟩, -⟩
      rw [← hpde, hnone] at ht
      exact absurd ht.symm (userEntry_ne_zero t)
  · have htable : Names k.page live t (.table d (attr / pageSize / pagePteIndex)) :=
      ⟨hd, hpde ▸ hm, hpde ▸ ht⟩
    rw [ht, PageAccess.allowed_userEntry, if_pos rfl, getPageAttr_userEntry, h.loadWord_table htable, hpte]
    rcases h.leaf t d _ htable _ (Nat.mod_lt (attr / pageSize) (by decide)) with hzero | ⟨f, hf⟩
    · rw [hzero, PageAccess.allowed_zero, if_neg Bool.false_ne_true]
      constructor
      · exact fun heq => absurd heq.symm (Option.some_ne_none phy)
      · rintro ⟨f, ⟨t', ht', hleaf⟩, -⟩
        rw [Names.eq (u := .table d _) ht' htable, hzero] at hleaf
        exact absurd hleaf.symm (userEntry_ne_zero f)
    · rw [hf, PageAccess.allowed_userEntry, if_pos rfl, getPageAttr_userEntry]
      constructor
      · exact fun heq => ⟨f, ⟨t, htable, hf⟩, (Option.some.inj heq).symm⟩
      · rintro ⟨g, hg, rfl⟩
        rw [Names.eq (u := .user d _) hg ⟨t, htable, hf⟩]

end Tabled

end BitchKernel
