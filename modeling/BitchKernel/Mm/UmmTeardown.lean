import BitchKernel.Mm.UmmSpec
import Mathlib.Data.List.Nodup
import Mathlib.Data.Set.Card

/-!
# The end of an address space

`umm_free` gives back page after page while it still reads the tables that name them. Giving a
page back changes no word, so the pages it frees are those that the directory and its page tables
name when it starts, in the order of their entries. When they are distinct pages that are taken,
it clears their bits, counts each of them once, and changes no other bit.
-/

namespace BitchKernel

open Lib

/-- What a page of an address space serves as: the directory, the page table of an entry, or the
frame of an entry of a page table. -/
inductive SpaceUse
  | dir
  | table (m : ℕ)
  | frame (m n : ℕ)
deriving DecidableEq

namespace Pmm

def Taken (s : Pmm) (x : ℕ) : Prop :=
  x * pageSize < 2 ^ 32 ∧ x < s.pmmBitmapLength * 8 ∧ s.pmmBitmap.bit x = true

def giveBack (s : Pmm) (l : List ℕ) : Pmm := l.foldl (fun s x => s.pmmFreePage (x * pageSize) 1) s

theorem giveBack_nil (s : Pmm) : s.giveBack [] = s := rfl

theorem giveBack_append (s : Pmm) (l l' : List ℕ) :
    s.giveBack (l ++ l') = (s.giveBack l).giveBack l' :=
  List.foldl_append

theorem giveBack_append_lt (s : Pmm) (l : List ℕ) (x : ℕ) :
    (s.giveBack (l ++ [x])).pmmFreePageCount < 2 ^ 32 := by
  rw [giveBack_append]
  exact Word.add_lt 32 _ _

theorem pmmFreePage_one {s : Pmm} {x : ℕ} (hx : x < s.pmmBitmapLength * 8) (hlt : x < 2 ^ 32) :
    (s.pmmFreePage (x * pageSize) 1).pmmBitmap = s.pmmBitmap.clear x ∧
      (s.pmmFreePage (x * pageSize) 1).pmmFreePageCount = (s.pmmFreePageCount + 1) % 2 ^ 32 := by
  have hindex : add32 (x * pageSize / pageSize) 0 = x := by
    rw [Nat.mul_div_cancel _ (by decide), add32_of_lt (by omega), Nat.add_zero]
  unfold pmmFreePage
  dsimp only
  rw [setBitMasks, setBitMasks, hindex]
  unfold setBitMask
  rw [if_pos hx, if_pos rfl]
  exact ⟨rfl, add32_eq _ _⟩

/-- Distinct pages are given back: their bits are cleared and no others, and each is counted
once. -/
theorem giveBack_spec {s : Pmm} {l : List ℕ} (htaken : ∀ x ∈ l, s.Taken x) (hnodup : l.Nodup) :
    (∀ x, (s.giveBack l).pmmBitmap.bit x = (!decide (x ∈ l) && s.pmmBitmap.bit x)) ∧
      (s.giveBack l).pmmFreePageCount % 2 ^ 32 = (s.pmmFreePageCount + l.length) % 2 ^ 32 ∧
      (s.giveBack l).pmmBitmapLength = s.pmmBitmapLength := by
  induction l generalizing s with
  | nil => simp [giveBack]
  | cons y l ih =>
      obtain ⟨hnot, hnodup⟩ := List.nodup_cons.1 hnodup
      obtain ⟨hpage, hlt, -⟩ := htaken y List.mem_cons_self
      obtain ⟨hmap, hcount⟩ := pmmFreePage_one hlt (by lia)
      have hlength := pmmFreePage_length s (y * pageSize) 1
      have hrest : ∀ x ∈ l, (s.pmmFreePage (y * pageSize) 1).Taken x := by
        intro x hx
        obtain ⟨hpage', hx', hbit⟩ := htaken x (List.mem_cons_of_mem y hx)
        have hne : x ≠ y := fun h => hnot (h ▸ hx)
        refine ⟨hpage', hlength.symm ▸ hx', ?_⟩
        rw [hmap, Bitmap.bit_clear, hbit]
        simp [hne]
      obtain ⟨hbit, hnumber, hlength'⟩ := ih hrest hnodup
      refine ⟨fun x => ?_, ?_, hlength'.trans hlength⟩
      · refine (hbit x).trans ?_
        rw [hmap, Bitmap.bit_clear]
        by_cases hxy : x = y
        · simp [hxy]
        · simp [hxy]
      · refine hnumber.trans ?_
        rw [hcount, List.length_cons, Nat.mod_add_mod]
        congr 1
        omega

end Pmm

namespace Kernel

def entryPage (k : Kernel) (table i : ℕ) : ℕ := getPageAttr (k.loadWord table i) / pageSize

/-- The page serves the address space of the directory `d`. An entry that names the page 0 names
none. -/
def Serves (k : Kernel) (d : ℕ) : SpaceUse → ℕ → Prop
  | .dir, x => x = d
  | .table m, x => m < pdeIndex pageOffset ∧ x = k.entryPage (d * pageSize) m ∧ x ≠ 0
  | .frame m n, x => m < pdeIndex pageOffset ∧ n < pagePteIndex ∧ k.entryPage (d * pageSize) m ≠ 0 ∧
      x = k.entryPage (k.entryPage (d * pageSize) m * pageSize) n ∧ x ≠ 0

def spacePages (k : Kernel) (d : ℕ) : Set ℕ := {x | ∃ u, k.Serves d u x}

/-- The directory, its page tables and the frames mapped by them are distinct pages, and taken. -/
structure SpaceWellFormed (k : Kernel) (d : ℕ) : Prop where
  taken : ∀ x ∈ k.spacePages d, k.pmm.Taken x
  single : ∀ u u' x, k.Serves d u x → k.Serves d u' x → u = u'

/-! ## What is given back -/

/-- The uses of a directory entry, in the order in which their pages are given back. -/
def tableUses (k : Kernel) (d m : ℕ) : List SpaceUse :=
  if k.entryPage (d * pageSize) m = 0 then []
  else
    ((List.range pagePteIndex).filter fun n =>
      k.entryPage (k.entryPage (d * pageSize) m * pageSize) n ≠ 0).map (.frame m) ++ [.table m]

def spaceUses (k : Kernel) (d : ℕ) : List SpaceUse :=
  (List.range (pdeIndex pageOffset)).flatMap (k.tableUses d) ++ [.dir]

def usePage (k : Kernel) (d : ℕ) : SpaceUse → ℕ
  | .dir => d
  | .table m => k.entryPage (d * pageSize) m
  | .frame m n => k.entryPage (k.entryPage (d * pageSize) m * pageSize) n

theorem entryPage_mul (k : Kernel) (table i : ℕ) :
    getPageAttr (k.loadWord table i) = k.entryPage table i * pageSize := by
  unfold entryPage getPageAttr
  rw [Nat.mul_div_cancel _ (by decide)]

theorem entryPage_mul_ne_zero (k : Kernel) (table i : ℕ) :
    k.entryPage table i * pageSize ≠ 0 ↔ k.entryPage table i ≠ 0 :=
  Nat.mul_ne_zero_iff.trans (and_iff_left (by decide))

/-- The inner loop gives back the frames of the first `n` entries. -/
theorem ummFreeTable_giveBack (k : Kernel) (t n : ℕ) (pmm : Pmm) :
    ummFreeTable (t * pageSize) n { k with pmm := pmm } = { k with
      pmm := pmm.giveBack (((List.range n).filter fun n => k.entryPage (t * pageSize) n ≠ 0).map
        (k.entryPage (t * pageSize))) } := by
  induction n with
  | zero => rfl
  | succ n ih =>
      have hword : ∀ pmm, getPageAttr (loadWord { k with pmm := pmm } (t * pageSize) n) =
          k.entryPage (t * pageSize) n * pageSize := fun _ => k.entryPage_mul (t * pageSize) n
      rw [ummFreeTable, ih, List.range_succ, List.filter_append, List.map_append, Pmm.giveBack_append]
      dsimp only
      rw [hword]
      by_cases hpage : k.entryPage (t * pageSize) n = 0
      · rw [if_neg (not_not.2 (by rw [hpage, Nat.zero_mul]))]
        simp [hpage, Pmm.giveBack_nil]
      · rw [if_pos ((k.entryPage_mul_ne_zero _ n).2 hpage)]
        simp [hpage, Pmm.giveBack]

/-- The outer loop gives back the pages of the first `m` entries of the directory. -/
theorem ummFreeLoop_giveBack (k : Kernel) (d m : ℕ) :
    ummFreeLoop (d * pageSize) m k = { k with
      pmm := k.pmm.giveBack (((List.range m).flatMap (k.tableUses d)).map (k.usePage d)) } := by
  induction m with
  | zero => rfl
  | succ m ih =>
      have hword : ∀ pmm, getPageAttr (loadWord { k with pmm := pmm } (d * pageSize) m) =
          k.entryPage (d * pageSize) m * pageSize := fun _ => k.entryPage_mul (d * pageSize) m
      rw [ummFreeLoop, ih, List.range_succ, List.flatMap_append, List.map_append, Pmm.giveBack_append,
        hword, List.flatMap_singleton]
      by_cases hpage : k.entryPage (d * pageSize) m = 0
      · rw [if_neg (not_not.2 (by rw [hpage, Nat.zero_mul]))]
        unfold tableUses
        rw [if_pos hpage]
        rfl
      · rw [if_pos ((k.entryPage_mul_ne_zero _ m).2 hpage), ummFreeTable_giveBack]
        unfold tableUses dmmFreePage
        generalize pagePteIndex = n
        rw [if_neg hpage, List.map_append, Pmm.giveBack_append, List.map_map]
        rfl

theorem ummFree_giveBack (k : Kernel) (d : ℕ) :
    k.ummFree (d * pageSize) = { k with pmm := k.pmm.giveBack ((k.spaceUses d).map (k.usePage d)) } := by
  unfold ummFree spaceUses
  generalize pdeIndex pageOffset = m
  rw [ummFreeLoop_giveBack, List.map_append, Pmm.giveBack_append]
  rfl

/-! ## The uses -/

theorem mem_tableUses {k : Kernel} {d m : ℕ} {u : SpaceUse} :
    u ∈ k.tableUses d m ↔ k.entryPage (d * pageSize) m ≠ 0 ∧ (u = .table m ∨
      ∃ n < pagePteIndex, k.entryPage (k.entryPage (d * pageSize) m * pageSize) n ≠ 0 ∧
        u = .frame m n) := by
  unfold tableUses
  split
  · rename_i hpage
    simp [hpage]
  · rename_i hpage
    simp only [List.mem_append, List.mem_map, List.mem_filter, List.mem_range, List.mem_singleton,
      decide_eq_true_eq]
    rw [and_iff_right hpage, or_comm]
    refine or_congr_right ⟨?_, ?_⟩
    · rintro ⟨n, ⟨hn, hframe⟩, rfl⟩
      exact ⟨n, hn, hframe, rfl⟩
    · rintro ⟨n, hn, hframe, rfl⟩
      exact ⟨n, ⟨hn, hframe⟩, rfl⟩

theorem mem_spaceUses {k : Kernel} {d : ℕ} {u : SpaceUse} :
    u ∈ k.spaceUses d ↔ k.Serves d u (k.usePage d u) := by
  unfold spaceUses
  rw [List.mem_append, List.mem_flatMap]
  simp only [mem_tableUses, List.mem_range, List.mem_singleton]
  cases u with
  | dir => simp [Serves, usePage]
  | table m => simp [Serves, usePage]
  | frame m n =>
      simp only [Serves, usePage, reduceCtorEq, SpaceUse.frame.injEq, false_or, or_false]
      constructor
      · rintro ⟨m', hm, htable, n', hn, hframe, rfl, rfl⟩
        exact ⟨hm, hn, htable, trivial, hframe⟩
      · rintro ⟨hm, hn, htable, -, hframe⟩
        exact ⟨m, hm, htable, n, hn, hframe, rfl, rfl⟩

theorem Serves.eq {k : Kernel} {d : ℕ} {u : SpaceUse} {x : ℕ} (h : k.Serves d u x) :
    x = k.usePage d u := by
  cases u with
  | dir => exact h
  | table m => exact h.2.1
  | frame m n => exact h.2.2.2.1

theorem nodup_tableUses (k : Kernel) (d m : ℕ) : (k.tableUses d m).Nodup := by
  unfold tableUses
  split
  · exact List.nodup_nil
  · refine List.Nodup.append ?_ (List.nodup_singleton _) ?_
    · exact (List.nodup_range.filter _).map fun n n' h => (SpaceUse.frame.inj h).2
    · intro u hu hu'
      obtain ⟨n, -, rfl⟩ := List.mem_map.1 hu
      exact nomatch List.mem_singleton.1 hu'

theorem nodup_spaceUses (k : Kernel) (d : ℕ) : (k.spaceUses d).Nodup := by
  unfold spaceUses
  refine List.Nodup.append ?_ (List.nodup_singleton _) ?_
  · refine List.nodup_flatMap.2 ⟨fun m _ => k.nodup_tableUses d m, ?_⟩
    refine List.Pairwise.imp (fun {m m'} hne u hu hu' => ?_) List.nodup_range
    rw [mem_tableUses] at hu hu'
    rcases hu.2 with rfl | ⟨n, -, -, rfl⟩
    · rcases hu'.2 with heq | ⟨n', -, -, heq⟩
      · exact hne (SpaceUse.table.inj heq)
      · exact nomatch heq
    · rcases hu'.2 with heq | ⟨n', -, -, heq⟩
      · exact nomatch heq
      · exact hne (SpaceUse.frame.inj heq).1
  · intro u hu hu'
    obtain ⟨m, -, hu⟩ := List.mem_flatMap.1 hu
    rw [List.mem_singleton.1 hu', mem_tableUses] at hu
    rcases hu.2 with h | ⟨n, -, -, h⟩
    · exact nomatch h
    · exact nomatch h

theorem mem_usePages {k : Kernel} {d x : ℕ} :
    x ∈ (k.spaceUses d).map (k.usePage d) ↔ x ∈ k.spacePages d := by
  rw [List.mem_map]
  constructor
  · rintro ⟨u, hu, rfl⟩
    exact ⟨u, mem_spaceUses.1 hu⟩
  · rintro ⟨u, hu⟩
    have heq := hu.eq
    exact ⟨u, mem_spaceUses.2 (heq ▸ hu), heq.symm⟩

namespace SpaceWellFormed

variable {k : Kernel} {d : ℕ}

theorem nodup (h : k.SpaceWellFormed d) : ((k.spaceUses d).map (k.usePage d)).Nodup := by
  refine (k.nodup_spaceUses d).map_on fun u hu u' hu' heq => ?_
  exact h.single u u' _ (mem_spaceUses.1 hu) (heq ▸ mem_spaceUses.1 hu')

theorem ncard_eq (h : k.SpaceWellFormed d) : (k.spacePages d).ncard = (k.spaceUses d).length := by
  have hset : k.spacePages d = ((k.spaceUses d).map (k.usePage d)).toFinset := by
    ext x
    rw [List.coe_toFinset]
    exact mem_usePages.symm
  rw [hset, Set.ncard_coe_finset, List.toFinset_card_of_nodup h.nodup, List.length_map]

end SpaceWellFormed

/-- **Tearing down an address space frees exactly it.** For every directory whose mapped frames,
page tables and own page are distinct pages that are taken: `umm_free` clears the bits of these
pages, leaves every other bit as it was, and raises the count of free pages by their number. -/
theorem ummFree_exact {k : Kernel} {d : ℕ} (h : k.SpaceWellFormed d) :
    (∀ x ∈ k.spacePages d, (k.ummFree (d * pageSize)).pmm.pmmBitmap.bit x = false) ∧
    (∀ x ∉ k.spacePages d,
      (k.ummFree (d * pageSize)).pmm.pmmBitmap.bit x = k.pmm.pmmBitmap.bit x) ∧
    (k.ummFree (d * pageSize)).pmm.pmmBitmapLength = k.pmm.pmmBitmapLength ∧
    (k.ummFree (d * pageSize)).pmm.pmmFreePageCount =
      (k.pmm.pmmFreePageCount + (k.spacePages d).ncard) % 2 ^ 32 := by
  obtain ⟨hbit, hnumber, hlength⟩ := Pmm.giveBack_spec
    (fun x hx => h.taken x (mem_usePages.1 hx)) h.nodup
  rw [ummFree_giveBack]
  refine ⟨fun x hx => ?_, fun x hx => ?_, hlength, ?_⟩
  · refine (hbit x).trans ?_
    simp [mem_usePages.2 hx]
  · refine (hbit x).trans ?_
    simp [mt mem_usePages.1 hx]
  · rw [List.length_map, ← h.ncard_eq] at hnumber
    -- the last page that is given back is the directory
    have hlast : (k.pmm.giveBack ((k.spaceUses d).map (k.usePage d))).pmmFreePageCount < 2 ^ 32 := by
      unfold spaceUses
      rw [List.map_append, List.map_singleton]
      exact Pmm.giveBack_append_lt _ _ _
    rw [Nat.mod_eq_of_lt hlast] at hnumber
    dsimp only
    rw [hnumber]

end Kernel

/-! ## The directories of a run -/

namespace Owned

variable {b : KernelBoot} {k : Kernel} {live : Finset ℕ} {d : ℕ}

def spaceUse (d : ℕ) : SpaceUse → Use
  | .dir => .dir d
  | .table m => .table d m
  | .frame m n => .user d (m * pagePteIndex + n)

theorem entryPage_eq {table t n : ℕ} (hword : k.loadWord table n = k.page t n) :
    k.entryPage table n = getPageAttr (k.page t n) / pageSize := by
  unfold Kernel.entryPage
  rw [hword]

theorem names_of_table (h : Owned b k live) (hd : d ∈ live) {m : ℕ} (hm : m < pdeIndex pageOffset)
    (hpage : k.entryPage (d * pageSize) m ≠ 0) :
    Names k.page live (k.entryPage (d * pageSize) m) (.table d m) := by
  have hword := entryPage_eq (h.loadWord_dir hd m)
  rcases h.entry d hd m hm with hnone | ⟨t, ht⟩
  · rw [hword, hnone] at hpage
    exact absurd rfl hpage
  · rw [hword, ht, getPageAttr_userEntry, Nat.mul_div_cancel _ (by decide)]
    exact ⟨hd, hm, ht⟩

theorem names_of_serves (h : Owned b k live) (hd : d ∈ live) {u : SpaceUse} {x : ℕ}
    (hu : k.Serves d u x) : Names k.page live x (spaceUse d u) := by
  cases u with
  | dir => exact ⟨hd, hu⟩
  | table m =>
      obtain ⟨hm, rfl, hne⟩ := hu
      exact h.names_of_table hd hm hne
  | frame m n =>
      obtain ⟨hm, hn, hpage, rfl, hne⟩ := hu
      have htable := h.names_of_table hd hm hpage
      have hindex : (m * pagePteIndex + n) / pagePteIndex = m ∧
          (m * pagePteIndex + n) % pagePteIndex = n := by lia
      refine names_user.2 ⟨_, by rw [hindex.1]; exact htable, ?_⟩
      have hword := entryPage_eq (h.loadWord_table htable n)
      rw [hindex.2, hword]
      rcases h.leaf _ d m htable n hn with hnone | ⟨f, hf⟩
      · rw [hword, hnone] at hne
        exact absurd rfl hne
      · rw [hf, getPageAttr_userEntry, Nat.mul_div_cancel _ (by decide)]

theorem spaceWellFormed (h : Owned b k live) (hd : d ∈ live) : k.SpaceWellFormed d where
  taken := by
    rintro x ⟨u, hu⟩
    obtain ⟨harena, hused⟩ := h.taken x _ (h.names_of_serves hd hu)
    have hmem := (Boot.mem_arena.1 harena).2
    have hlt := b.memPageCount_lt
    have hbits : k.pmm.pmmBitmapLength = b.pmmBitmapLength := h.sound.length
    have hle := b.memPageCount_le_bits
    have hbit : x < k.pmm.pmmBitmapLength * 8 := by omega
    refine ⟨by lia, hbit, ?_⟩
    by_contra hclear
    exact hused (Pmm.mem_freePages.2 ⟨hbit, Bool.not_eq_true _ ▸ hclear⟩)
  single := by
    intro u u' x hu hu'
    have heq := h.single x _ _ (h.names_of_serves hd hu) (h.names_of_serves hd hu')
    cases u with
    | dir =>
        cases u' with
        | dir => rfl
        | table m' => exact nomatch heq
        | frame m' n' => exact nomatch heq
    | table m =>
        cases u' with
        | dir => exact nomatch heq
        | table m' => rw [(Use.table.inj heq).2]
        | frame m' n' => exact nomatch heq
    | frame m n =>
        cases u' with
        | dir => exact nomatch heq
        | table m' => exact nomatch heq
        | frame m' n' =>
            have hn := hu.2.1
            have hn' := hu'.2.1
            have hindex := (Use.user.inj heq).2
            obtain rfl : m = m' := by lia
            obtain rfl : n = n' := by omega
            rfl

end Owned

section Example

/-- A machine of 64 pages, all of them taken. The directory in the page 5 names a page table in the
page 6, which maps the frame 7. -/
def spaceKernel : Kernel where
  pmm := { pmmBitmap := fun _ => 0xff, pmmBitmapLength := 8, pmmFreePageCount := 0, pmmHeadPos := 64,
           pmmTailPos := 63 }
  globlMmapPte _ := 0
  globlPtePage := 64
  dmmapPageCount := 64
  vmmapPageCount := globlPageNum - 64
  vmmFreePageCount := 0
  vmmPos := 0
  page x i := if x = 5 ∧ i = 1 then 6 * pageSize else if x = 6 ∧ i = 2 then 7 * pageSize else 0
  page_count := by decide

theorem spaceKernel_entryPage (i : ℕ) :
    spaceKernel.entryPage (5 * pageSize) i = (if i = 1 then 6 else 0) ∧
      spaceKernel.entryPage (6 * pageSize) i = (if i = 2 then 7 else 0) := by
  have hdir : spaceKernel.loadWord (5 * pageSize) i = if i = 1 then 6 * pageSize else 0 := by
    simp [Kernel.loadWord, spaceKernel]
  have htable : spaceKernel.loadWord (6 * pageSize) i = if i = 2 then 7 * pageSize else 0 := by
    simp [Kernel.loadWord, spaceKernel]
  unfold Kernel.entryPage
  rw [hdir, htable]
  constructor <;> split <;> rfl

theorem spaceKernel_serves {u : SpaceUse} {x : ℕ} (h : spaceKernel.Serves 5 u x) :
    (u = .dir ∧ x = 5) ∨ (u = .table 1 ∧ x = 6) ∨ (u = .frame 1 2 ∧ x = 7) := by
  cases u with
  | dir => exact .inl ⟨rfl, h⟩
  | table m =>
      obtain ⟨-, heq, hne⟩ := h
      rw [(spaceKernel_entryPage m).1] at heq
      by_cases hm : m = 1
      · rw [if_pos hm] at heq
        exact .inr (.inl ⟨by rw [hm], heq⟩)
      · rw [if_neg hm] at heq
        exact absurd heq hne
  | frame m n =>
      obtain ⟨-, -, htable, heq, hne⟩ := h
      rw [(spaceKernel_entryPage m).1] at htable heq
      by_cases hm : m = 1
      · rw [if_pos hm, (spaceKernel_entryPage n).2] at heq
        by_cases hn : n = 2
        · rw [if_pos hn] at heq
          exact .inr (.inr ⟨by rw [hm, hn], heq⟩)
        · rw [if_neg hn] at heq
          exact absurd heq hne
      · exact absurd (if_neg hm) htable

theorem spaceKernel_wellFormed : spaceKernel.SpaceWellFormed 5 where
  taken := by
    rintro x ⟨u, hu⟩
    rcases spaceKernel_serves hu with ⟨-, rfl⟩ | ⟨-, rfl⟩ | ⟨-, rfl⟩
    · exact ⟨by decide, by decide, by decide⟩
    · exact ⟨by decide, by decide, by decide⟩
    · exact ⟨by decide, by decide, by decide⟩
  single := by
    intro u u' x hu hu'
    rcases spaceKernel_serves hu with ⟨rfl, rfl⟩ | ⟨rfl, rfl⟩ | ⟨rfl, rfl⟩
    all_goals
      rcases spaceKernel_serves hu' with ⟨rfl, hx⟩ | ⟨rfl, hx⟩ | ⟨rfl, hx⟩
      all_goals first | rfl | exact absurd hx (by decide)

/-- The bit of the frame is cleared. -/
theorem ummFree_exact_frame : (spaceKernel.ummFree (5 * pageSize)).pmm.pmmBitmap.bit 7 = false := by
  obtain ⟨hclear, -⟩ := Kernel.ummFree_exact spaceKernel_wellFormed
  refine hclear 7 ⟨.frame 1 2, by decide, by decide, ?_, ?_, by decide⟩
  · rw [(spaceKernel_entryPage 1).1]
    decide
  · rw [(spaceKernel_entryPage 1).1]
    exact (spaceKernel_entryPage 2).2.symm

end Example

end BitchKernel
