import BitchKernel.Dev.PartRegion
import Mathlib.Logic.Relation

/-!
# The removal of a disk

`disk_remove`, `disk_remove_part` and `free_disk` of `kernel/dev/disk.c`. The walk
frees nodes of the list it goes along, so a removal records, as ghosts, the blocks
it gave to `kfree` and the freed descriptors it went through afterwards.

A removal that goes through a freed descriptor has no outcome a caller can rely on,
and the runs end there.
-/

namespace BitchKernel

open Lib Relation

/-- A removal under way: the descriptors, the blocks freed so far, and the freed
descriptors that were read or written after that. -/
structure Removal where
  disks : Disks
  freed : List ℕ
  stale : List ℕ

/-- `fs_free`: no type of file system has a case of its own, and `fat_free` is not
called. -/
def fsFree (freed : List ℕ) (_fs : Fs) : List ℕ := freed

namespace Removal

/-- An access through the pointer `attr`. -/
def read (r : Removal) (attr : ℕ) : Removal :=
  if attr ∈ r.freed then { r with stale := attr :: r.stale } else r

/-- A store to the descriptor at `attr`. -/
def store (r : Removal) (attr : ℕ) (f : Disk → Disk) : Removal :=
  { r.read attr with disks := r.disks.store attr f }

/-- The link of the descriptor in front of `disk`. -/
def unlinkLast (r : Removal) (disk : ℕ) : Removal :=
  if (r.disks.mem disk).last = 0 then
    { r with disks := { r.disks with header := (r.disks.mem disk).next } }
  else
    r.store (r.disks.mem disk).last fun x => { x with next := (r.disks.mem disk).next }

/-- The link of the descriptor behind `disk`. -/
def unlinkNext (r : Removal) (disk : ℕ) : Removal :=
  if (r.disks.mem disk).next = 0 then
    { r with disks := { r.disks with pos := (r.disks.mem disk).last } }
  else
    r.store (r.disks.mem disk).next fun x => { x with last := (r.disks.mem disk).last }

/-- `disk -> pdisk -> part_count--`. -/
def leaveParent (r : Removal) (disk : ℕ) : Removal :=
  if (r.disks.mem disk).pdisk ≠ 0 then
    r.store (r.disks.mem disk).pdisk fun x => { x with partCount := sub32 x.partCount 1 }
  else
    r

def freeDisk (r : Removal) (disk : ℕ) : Removal :=
  if disk = 0 then
    r
  else
    let r := (((r.read disk).unlinkLast disk).unlinkNext disk).leaveParent disk
    { r with freed := disk :: fsFree r.freed (r.disks.mem disk).fs }

/-- The accesses of the condition of `disk_remove_part`. -/
def look (r : Removal) (disk : ℕ) : Removal :=
  let r := r.read disk
  if (r.disks.mem disk).pdisk ≠ 0 then r.read (r.disks.mem disk).pdisk else r

/-- The condition under which `disk_remove_part` removes the descriptor at `disk`. -/
def PartOf (s : Disks) (id disk : ℕ) : Prop :=
  (s.mem disk).pdisk ≠ 0 ∧ (s.mem (s.mem disk).pdisk).id = id

instance (s : Disks) (id disk : ℕ) : Decidable (PartOf s id disk) :=
  inferInstanceAs (Decidable (_ ∧ _))

/-- The loop of `disk_remove_part` from `disk` on. -/
def diskRemovePartLoop : (fuel : ℕ) → Removal → (id disk : ℕ) → Option Removal
  | 0, _, _, _ => none
  | fuel + 1, r, id, disk =>
      if disk = 0 then
        some r
      else
        let r := r.look disk
        if PartOf r.disks id disk then
          (diskRemovePartLoop fuel r (r.disks.mem disk).id r.disks.header).bind fun r =>
            let r := (r.freeDisk disk).read disk
            diskRemovePartLoop fuel r id (r.disks.mem disk).next
        else
          diskRemovePartLoop fuel r id (r.disks.mem disk).next

def diskRemovePart (fuel : ℕ) (r : Removal) (id : ℕ) : Option Removal :=
  diskRemovePartLoop fuel r id r.disks.header

end Removal

namespace Disks

/-- `disk_remove` within `fuel` rounds of its loops. -/
def diskRemove (fuel : ℕ) (s : Disks) (id : ℕ) : Option Removal :=
  let r : Removal := ⟨s, [], []⟩
  let disk := s.getDisk id
  if disk ≠ 0 then
    (r.diskRemovePart fuel id).map fun r => r.freeDisk disk
  else
    some r

/-- The blocks that entering the descriptor at `a` took from the heap. -/
def blocks (s : Disks) (a : ℕ) : List ℕ :=
  a :: if (s.mem a).fs.type = .fsFat then [(s.mem a).fs.info] else []

/-- The descriptor at `a` is that of the disk `id` or of a partition nested in it. -/
def Goes (s : Disks) (id a : ℕ) : Prop :=
  s.getDisk id ≠ 0 ∧
    ReflTransGen (fun a b => (s.mem a).pdisk ≠ 0 ∧ (s.mem a).pdisk = b) a (s.getDisk id)

/-- The removal undoes what entering the disk `id` and its partitions did. -/
def Undone (s : Disks) (id : ℕ) (r : Removal) : Prop :=
  (∃ l rest, s.Chain l ∧ rest.Sublist l ∧ (∀ a ∈ l, a ∈ rest ↔ ¬ s.Goes id a) ∧
      r.disks.Chain rest) ∧
    r.stale = [] ∧ ∀ a, s.Listed a → s.Goes id a → ∀ b ∈ s.blocks a, b ∈ r.freed

end Disks

/-! ## Runs -/

inductive DiskListOp
  | enter (op : DiskOp)
  | diskRemove (id : ℕ)

/-- The runs from the empty disk list on that enter and remove disks. -/
def diskListMachine (env : DiskEnv) : Machine Scan DiskListOp where
  init := (diskMachine env).init
  step s op s' :=
    match op with
    | .enter op => (diskMachine env).step s op s'
    | .diskRemove id => id < 2 ^ 32 ∧ ∃ fuel r, s.disks.diskRemove fuel id = some r ∧
        r.stale = [] ∧ s' = { s with disks := r.disks }

/-! ## What a removal keeps -/

namespace Removal

variable {r r' : Removal}

/-- Nothing freed and no stale access is forgotten. -/
structure Later (r r' : Removal) : Prop where
  freed : r.freed ⊆ r'.freed
  stale : r.stale ⊆ r'.stale

theorem Later.refl (r : Removal) : Later r r := ⟨fun _ h => h, fun _ h => h⟩

theorem Later.trans {r'' : Removal} (h : Later r r') (h' : Later r' r'') : Later r r'' :=
  ⟨fun _ ha => h'.freed (h.freed ha), fun _ ha => h'.stale (h.stale ha)⟩

@[simp] theorem read_disks (r : Removal) (attr : ℕ) : (r.read attr).disks = r.disks := by
  unfold read
  split_ifs <;> rfl

@[simp] theorem read_freed (r : Removal) (attr : ℕ) : (r.read attr).freed = r.freed := by
  unfold read
  split_ifs <;> rfl

theorem read_of_freed_nil (h : r.freed = []) (attr : ℕ) : r.read attr = r := by
  unfold read
  rw [if_neg]
  rw [h]
  exact List.not_mem_nil

theorem later_read (r : Removal) (attr : ℕ) : Later r (r.read attr) := by
  refine ⟨?_, ?_⟩
  · rw [read_freed]
    exact fun _ h => h
  · unfold read
    split_ifs
    · exact List.subset_cons_self _ _
    · exact fun _ h => h

theorem later_store (r : Removal) (attr : ℕ) (f : Disk → Disk) : Later r (r.store attr f) :=
  ⟨(later_read r attr).freed, (later_read r attr).stale⟩

theorem later_look (r : Removal) (disk : ℕ) : Later r (r.look disk) := by
  unfold look
  dsimp only
  split_ifs
  · exact (later_read r disk).trans (later_read _ _)
  · exact later_read r disk

@[simp] theorem look_disks (r : Removal) (disk : ℕ) : (r.look disk).disks = r.disks := by
  unfold look
  dsimp only
  split_ifs
  · rw [read_disks, read_disks]
  · rw [read_disks]

theorem look_of_freed_nil (h : r.freed = []) (disk : ℕ) : r.look disk = r := by
  unfold look
  dsimp only
  rw [read_of_freed_nil h, read_of_freed_nil h]
  split_ifs <;> rfl

theorem later_freeDisk (r : Removal) (disk : ℕ) : Later r (r.freeDisk disk) := by
  have hlast : ∀ r : Removal, Later r (r.unlinkLast disk) := by
    intro r
    unfold unlinkLast
    split_ifs
    · exact ⟨fun _ h => h, fun _ h => h⟩
    · exact later_store _ _ _
  have hnext : ∀ r : Removal, Later r (r.unlinkNext disk) := by
    intro r
    unfold unlinkNext
    split_ifs
    · exact ⟨fun _ h => h, fun _ h => h⟩
    · exact later_store _ _ _
  have hparent : ∀ r : Removal, Later r (r.leaveParent disk) := by
    intro r
    unfold leaveParent
    split_ifs
    · exact later_store _ _ _
    · exact Later.refl r
  have hall := (((later_read r disk).trans (hlast _)).trans (hnext _)).trans (hparent _)
  unfold freeDisk
  split_ifs
  · exact Later.refl r
  · exact ⟨fun a ha => List.mem_cons_of_mem disk (hall.freed ha), hall.stale⟩

theorem mem_freed_freeDisk (r : Removal) {disk : ℕ} (hdisk : disk ≠ 0) :
    disk ∈ (r.freeDisk disk).freed := by
  unfold freeDisk
  rw [if_neg hdisk]
  exact List.mem_cons_self

theorem later_diskRemovePartLoop {fuel id disk : ℕ}
    (h : r.diskRemovePartLoop fuel id disk = some r') : Later r r' := by
  induction fuel generalizing r r' id disk with
  | zero => cases h
  | succ fuel ih =>
      rw [diskRemovePartLoop] at h
      by_cases hdisk : disk = 0
      · rw [if_pos hdisk, Option.some.injEq] at h
        exact h ▸ Later.refl r
      · rw [if_neg hdisk] at h
        dsimp only at h
        split_ifs at h with hpart
        · rw [Option.bind_eq_some_iff] at h
          obtain ⟨r₁, hinner, h⟩ := h
          exact (later_look r disk).trans ((ih hinner).trans
            ((later_freeDisk r₁ disk).trans ((later_read _ disk).trans (ih h))))
        · exact (later_look r disk).trans (ih h)

section Walk

variable {prev id : ℕ} {m : List ℕ}

/-- The loop goes through a list without partitions of the disk and changes nothing. -/
theorem diskRemovePartLoop_of_no_part (fuel : ℕ)
    (hseg : Seg (fun a => (r.disks.mem a).last) (fun a => (r.disks.mem a).next) prev m 0)
    (hnull : 0 ∉ m) (hfreed : r.freed = []) (hno : ∀ a ∈ m, ¬ PartOf r.disks id a) :
    r.diskRemovePartLoop fuel id (m.headD 0) = if m.length < fuel then some r else none := by
  induction m generalizing prev fuel with
  | nil =>
      cases fuel with
      | zero => rfl
      | succ fuel =>
          rw [List.length_nil, if_pos fuel.succ_pos]
          rfl
  | cons x m ih =>
      obtain ⟨-, hnext, hrest⟩ := hseg
      dsimp only at hnext
      rw [List.mem_cons, not_or] at hnull
      cases fuel with
      | zero => rfl
      | succ fuel =>
          rw [List.headD_cons, diskRemovePartLoop, if_neg (Ne.symm hnull.1)]
          dsimp only
          rw [look_of_freed_nil hfreed, if_neg (hno x List.mem_cons_self), hnext,
            ih fuel hrest hnull.2 fun a ha => hno a (List.mem_cons_of_mem x ha), List.length_cons]
          simp only [Nat.succ_lt_succ_iff]

theorem stale_of_partOf {fuel : ℕ}
    (hseg : Seg (fun a => (r.disks.mem a).last) (fun a => (r.disks.mem a).next) prev m 0)
    (hnull : 0 ∉ m) {a : ℕ} (ha : a ∈ m) (hpart : PartOf r.disks id a)
    (h : r.diskRemovePartLoop fuel id (m.headD 0) = some r') : r'.stale ≠ [] := by
  induction m generalizing prev fuel r with
  | nil => simp at ha
  | cons x m ih =>
      obtain ⟨-, hnext, hrest⟩ := hseg
      dsimp only at hnext
      rw [List.mem_cons, not_or] at hnull
      cases fuel with
      | zero => cases h
      | succ fuel =>
          rw [List.headD_cons, diskRemovePartLoop, if_neg (Ne.symm hnull.1)] at h
          dsimp only at h
          split_ifs at h with hx
          · rw [Option.bind_eq_some_iff] at h
            obtain ⟨r₁, -, h⟩ := h
            have hstale : x ∈ ((r₁.freeDisk x).read x).stale := by
              unfold read
              rw [if_pos (mem_freed_freeDisk r₁ (Ne.symm hnull.1))]
              exact List.mem_cons_self
            exact List.ne_nil_of_mem ((later_diskRemovePartLoop h).stale hstale)
          · rw [look_disks] at hx h
            have hax : a ∈ m := by
              rcases List.mem_cons.1 ha with rfl | hax
              · exact absurd hpart hx
              · exact hax
            rw [hnext] at h
            have hseg' : Seg (fun a => ((r.look x).disks.mem a).last)
                (fun a => ((r.look x).disks.mem a).next) x m 0 := by
              rw [look_disks]
              exact hrest
            refine ih hseg' hnull.2 hax ?_ h
            rw [look_disks]
            exact hpart

end Walk

theorem unlinkLast_mem (r : Removal) (disk y : ℕ) : (r.unlinkLast disk).disks.mem y =
    { r.disks.mem y with
      next := if (r.disks.mem disk).last ≠ 0 ∧ y = (r.disks.mem disk).last then
        (r.disks.mem disk).next else (r.disks.mem y).next } := by
  unfold unlinkLast
  by_cases hlast : (r.disks.mem disk).last = 0
  · rw [if_pos hlast, if_neg (fun h => h.1 hlast)]
  · rw [if_neg hlast]
    by_cases hy : y = (r.disks.mem disk).last
    · rw [if_pos ⟨hlast, hy⟩, ← hy]
      simp [store]
    · rw [if_neg (fun h => hy h.2)]
      simp [store, hy]

theorem unlinkLast_ends (r : Removal) (disk : ℕ) :
    (r.unlinkLast disk).disks.pos = r.disks.pos ∧ (r.unlinkLast disk).disks.header =
      if (r.disks.mem disk).last = 0 then (r.disks.mem disk).next else r.disks.header := by
  unfold unlinkLast
  split_ifs <;> exact ⟨rfl, rfl⟩

theorem unlinkNext_mem (r : Removal) (disk y : ℕ) : (r.unlinkNext disk).disks.mem y =
    { r.disks.mem y with
      last := if (r.disks.mem disk).next ≠ 0 ∧ y = (r.disks.mem disk).next then
        (r.disks.mem disk).last else (r.disks.mem y).last } := by
  unfold unlinkNext
  by_cases hnext : (r.disks.mem disk).next = 0
  · rw [if_pos hnext, if_neg (fun h => h.1 hnext)]
  · rw [if_neg hnext]
    by_cases hy : y = (r.disks.mem disk).next
    · rw [if_pos ⟨hnext, hy⟩, ← hy]
      simp [store]
    · rw [if_neg (fun h => hy h.2)]
      simp [store, hy]

theorem unlinkNext_ends (r : Removal) (disk : ℕ) :
    (r.unlinkNext disk).disks.header = r.disks.header ∧ (r.unlinkNext disk).disks.pos =
      if (r.disks.mem disk).next = 0 then (r.disks.mem disk).last else r.disks.pos := by
  unfold unlinkNext
  split_ifs <;> exact ⟨rfl, rfl⟩

theorem leaveParent_mem (r : Removal) (disk y : ℕ) : (r.leaveParent disk).disks.mem y =
    { r.disks.mem y with
      partCount := if (r.disks.mem disk).pdisk ≠ 0 ∧ y = (r.disks.mem disk).pdisk then
        sub32 (r.disks.mem y).partCount 1 else (r.disks.mem y).partCount } := by
  unfold leaveParent
  by_cases hp : (r.disks.mem disk).pdisk = 0
  · rw [if_neg (not_not.2 hp), if_neg (fun h => h.1 hp)]
  · rw [if_pos hp]
    by_cases hy : y = (r.disks.mem disk).pdisk
    · rw [if_pos ⟨hp, hy⟩, ← hy]
      simp [store]
    · rw [if_neg (fun h => hy h.2)]
      simp [store, hy]

theorem leaveParent_ends (r : Removal) (disk : ℕ) :
    (r.leaveParent disk).disks.header = r.disks.header ∧
      (r.leaveParent disk).disks.pos = r.disks.pos := by
  unfold leaveParent
  split_ifs <;> exact ⟨rfl, rfl⟩

/-- Freeing the descriptor at `disk`, which does not point to itself, links its
neighbours to each other. -/
theorem freeDisk_links {disk : ℕ} (hdisk : disk ≠ 0) (hlast : (r.disks.mem disk).last ≠ disk) :
    (∀ y ≠ 0, ((r.freeDisk disk).disks.mem y).last =
      if y = (r.disks.mem disk).next then (r.disks.mem disk).last else (r.disks.mem y).last) ∧
    (∀ y ≠ 0, ((r.freeDisk disk).disks.mem y).next =
      if y = (r.disks.mem disk).last then (r.disks.mem disk).next else (r.disks.mem y).next) ∧
    (r.freeDisk disk).disks.pos =
      (if (r.disks.mem disk).next = 0 then (r.disks.mem disk).last else r.disks.pos) ∧
    (r.freeDisk disk).disks.header =
      (if (r.disks.mem disk).last = 0 then (r.disks.mem disk).next else r.disks.header) := by
  obtain ⟨hpos₁, hheader₁⟩ := unlinkLast_ends (r.read disk) disk
  obtain ⟨hheader₂, hpos₂⟩ := unlinkNext_ends ((r.read disk).unlinkLast disk) disk
  have hmem₁ := unlinkLast_mem (r.read disk) disk
  have hmem₂ := unlinkNext_mem ((r.read disk).unlinkLast disk) disk
  obtain ⟨hheader₃, hpos₃⟩ :=
    leaveParent_ends (((r.read disk).unlinkLast disk).unlinkNext disk) disk
  rw [read_disks] at hpos₁ hheader₁ hmem₁
  -- the store to the descriptor in front leaves the links of `disk`
  have hnext : (((r.read disk).unlinkLast disk).disks.mem disk).next = (r.disks.mem disk).next := by
    rw [hmem₁]
    dsimp only
    rw [if_neg fun h => hlast h.2.symm]
  have hself : (((r.read disk).unlinkLast disk).disks.mem disk).last = (r.disks.mem disk).last := by
    rw [hmem₁]
  rw [hnext, hself] at hpos₂
  rw [hnext, hself] at hmem₂
  unfold freeDisk
  rw [if_neg hdisk]
  dsimp only
  refine ⟨fun y hy => ?_, fun y hy => ?_, ?_, ?_⟩
  · rw [leaveParent_mem, hmem₂, hmem₁]
    dsimp only
    by_cases hyn : y = (r.disks.mem disk).next
    · rw [if_pos ⟨hyn ▸ hy, hyn⟩, if_pos hyn]
    · rw [if_neg fun h => hyn h.2, if_neg hyn]
  · rw [leaveParent_mem, hmem₂, hmem₁]
    dsimp only
    by_cases hyl : y = (r.disks.mem disk).last
    · rw [if_pos ⟨hyl ▸ hy, hyl⟩, if_pos hyl]
    · rw [if_neg fun h => hyl h.2, if_neg hyl]
  · rw [hpos₃, hpos₂, hpos₁]
  · rw [hheader₃, hheader₂, hheader₁]

/-- Freeing a descriptor changes no parent and no file system. -/
theorem freeDisk_fields (r : Removal) (disk y : ℕ) :
    ((r.freeDisk disk).disks.mem y).pdisk = (r.disks.mem y).pdisk ∧
      ((r.freeDisk disk).disks.mem y).fs = (r.disks.mem y).fs := by
  unfold freeDisk
  split_ifs
  · exact ⟨rfl, rfl⟩
  · dsimp only
    rw [leaveParent_mem, unlinkNext_mem, unlinkLast_mem, read_disks]
    exact ⟨rfl, rfl⟩

theorem freeDisk_of_freed_nil (hfreed : r.freed = []) {disk : ℕ} (hdisk : disk ≠ 0) :
    (r.freeDisk disk).freed = [disk] ∧ (r.freeDisk disk).stale = r.stale := by
  have hlast : ∀ r : Removal, r.freed = [] →
      (r.unlinkLast disk).freed = [] ∧ (r.unlinkLast disk).stale = r.stale := by
    intro r hr
    unfold unlinkLast store
    rw [read_of_freed_nil hr]
    split_ifs <;> exact ⟨hr, rfl⟩
  have hnext : ∀ r : Removal, r.freed = [] →
      (r.unlinkNext disk).freed = [] ∧ (r.unlinkNext disk).stale = r.stale := by
    intro r hr
    unfold unlinkNext store
    rw [read_of_freed_nil hr]
    split_ifs <;> exact ⟨hr, rfl⟩
  have hparent : ∀ r : Removal, r.freed = [] →
      (r.leaveParent disk).freed = [] ∧ (r.leaveParent disk).stale = r.stale := by
    intro r hr
    unfold leaveParent store
    rw [read_of_freed_nil hr]
    split_ifs <;> exact ⟨hr, rfl⟩
  unfold freeDisk fsFree
  rw [if_neg hdisk, read_of_freed_nil hfreed]
  dsimp only
  obtain ⟨hfreed₁, hstale₁⟩ := hlast r hfreed
  obtain ⟨hfreed₂, hstale₂⟩ := hnext _ hfreed₁
  obtain ⟨hfreed₃, hstale₃⟩ := hparent _ hfreed₂
  exact ⟨by rw [hfreed₃], by rw [hstale₃, hstale₂, hstale₁]⟩

end Removal

namespace Disks

variable {s : Disks} {l : List ℕ}

theorem Chain.freeDisk {pre post : List ℕ} {disk : ℕ} {r : Removal}
    (h : r.disks.Chain (pre ++ disk :: post)) : (r.freeDisk disk).disks.Chain (pre ++ post) := by
  have hdisk : disk ≠ 0 := h.ne_zero (by simp)
  obtain ⟨-, hlast, hnext, -⟩ := Seg.append_cons.1 h.list.seg
  have hnodup := List.nodup_middle.1 h.list.nodup
  rw [List.nodup_cons, List.mem_append, not_or] at hnodup
  have hself : (r.disks.mem disk).last ≠ disk := by
    intro heq
    have hmem : pre.getLastD 0 ∈ 0 :: pre := List.getLastD_mem_cons
    rw [← hlast, heq, List.mem_cons] at hmem
    rcases hmem with hzero | hpre
    · exact hdisk hzero
    · exact hnodup.1.1 hpre
  have hne : ∀ y ∈ pre ++ post, y ≠ 0 := by
    intro y hy
    refine h.ne_zero ?_
    rw [List.mem_append] at hy
    rcases hy with hy | hy
    · exact List.mem_append_left _ hy
    · exact List.mem_append_right _ (List.mem_cons_of_mem disk hy)
  obtain ⟨hlasts, hnexts, hpos, hheader⟩ := Removal.freeDisk_links hdisk hself
  refine ⟨?_, ?_⟩
  · rw [hpos]
    exact h.list.remove (fun y hy => hlasts y (hne y hy)) (fun y hy => hnexts y (hne y hy))
  · rw [hheader, hlast, hnext, h.header_eq]
    cases pre with
    | nil => simp
    | cons x pre =>
        have hx : (x :: pre).getLastD 0 ≠ 0 := by
          rw [List.getLastD_cons]
          have hmem : pre.getLastD x ∈ x :: pre := List.getLastD_mem_cons
          exact hne _ (List.mem_append_left post hmem)
        rw [if_neg hx]
        rfl

theorem Chain.getDisk_id (h : s.Chain l) {id : ℕ} (hid : s.getDisk id ≠ 0) :
    (s.mem (s.getDisk id)).id = id := by
  unfold getDisk at hid ⊢
  rw [h.header_eq] at hid ⊢
  exact of_decide_eq_true (h.list.seg.walk_mem hid).2

theorem diskRemove_of_absent (fuel : ℕ) {id : ℕ} (hid : s.getDisk id = 0) :
    s.diskRemove fuel id = some ⟨s, [], []⟩ := by
  unfold diskRemove
  dsimp only
  rw [if_neg (not_not.2 hid)]

theorem Chain.undone_of_absent (h : s.Chain l) {id : ℕ} (hid : s.getDisk id = 0) :
    s.Undone id ⟨s, [], []⟩ := by
  refine ⟨⟨l, l, h, List.Sublist.refl l, fun a ha => ?_, h⟩, rfl, ?_⟩
  · exact ⟨fun _ hgoes => hgoes.1 hid, fun _ => ha⟩
  · intro a _ hgoes
    exact absurd hid hgoes.1

/-- The list of descriptors is `l`, each is a device or a part of a disk in it, and the
file system of those that are not in `out` keeps its record in a block of its own. -/
structure Tree (s : Disks) (out l : List ℕ) : Prop extends Chain s l where
  parent : ∀ a ∈ l, (s.mem a).pdisk ≠ 0 → (s.mem a).pdisk ∈ l
  volume : ∀ a ∈ l, a ∉ out → (s.mem a).fs.type = .fsFat → (s.mem a).fs.info ≠ a

namespace Tree

variable {out : List ℕ} {attr : ℕ}

theorem enter (h : s.Tree out l) {s' : Disks} (he : Entered s s' attr) (hattr : attr ∉ l)
    (hnull : attr ≠ 0) (hfs : ∀ y ≠ attr, (s'.mem y).fs = (s.mem y).fs)
    (hparent : (s'.mem attr).pdisk ≠ 0 → (s'.mem attr).pdisk ∈ l) :
    s'.Tree (attr :: out) (l ++ [attr]) := by
  have hne : ∀ a ∈ l, a ≠ attr := by
    rintro a ha rfl
    exact hattr ha
  refine ⟨h.toChain.enter he hattr hnull, ?_, ?_⟩
  · intro a ha hp
    refine List.mem_append_left _ ?_
    rcases List.mem_append.1 ha with ha | ha
    · rw [he.pdisk_eq a (hne a ha)] at hp ⊢
      exact h.parent a ha hp
    · rw [List.mem_singleton] at ha
      rw [ha] at hp ⊢
      exact hparent hp
  · intro a ha hout htype
    rw [List.mem_cons, not_or] at hout
    rcases List.mem_append.1 ha with ha | ha
    · rw [hfs a (hne a ha)] at htype ⊢
      exact h.volume a ha hout.2 htype
    · exact absurd (List.mem_singleton.1 ha) hout.1

theorem store_fs (h : s.Tree (attr :: out) l) {fs : Fs} (hfs : fs.type = .fsFat → fs.info ≠ attr) :
    (s.store attr fun x => { x with fs := fs }).Tree out l := by
  refine ⟨h.toChain.store_fs attr fs, ?_, ?_⟩
  · simp only [store_fs_mem]
    exact h.parent
  · intro a ha hout htype
    rw [store_fs_mem] at htype ⊢
    dsimp only at htype ⊢
    by_cases haa : a = attr
    · rw [if_pos haa] at htype ⊢
      rw [haa]
      exact hfs htype
    · rw [if_neg haa] at htype ⊢
      refine h.volume a ha ?_ htype
      rw [List.mem_cons, not_or]
      exact ⟨haa, hout⟩

theorem enterDevice (h : s.Tree out l) (hattr : attr ∉ l) (hnull : attr ≠ 0)
    (devType : DiskDevType) (devId sectorCount : ℕ) :
    (s.enterDevice attr devType devId sectorCount).Tree (attr :: out) (l ++ [attr]) := by
  have hpos := h.pos_ne hattr hnull
  have hmem := enterDevice_mem hpos devType devId sectorCount
  refine h.enter (enterDevice_entered hpos devType devId sectorCount) hattr hnull ?_ ?_
  · intro y hy
    rw [hmem, if_neg hy]
  · intro hp
    rw [hmem, if_pos rfl] at hp
    exact absurd rfl hp

theorem enterPart (h : s.Tree out l) (hattr : attr ∉ l) (hnull : attr ≠ 0) {pdisk : ℕ}
    (hpdisk : pdisk ∈ l) (startSector sectorCount : ℕ) :
    (s.enterPart pdisk attr startSector sectorCount).Tree (attr :: out) (l ++ [attr]) := by
  have hpos := h.pos_ne hattr hnull
  have hne : pdisk ≠ attr := by
    rintro rfl
    exact hattr hpdisk
  have hmem := enterPart_mem hpos hne startSector sectorCount
  refine h.enter (enterPart_entered hpos hne (h.header_ne_zero hpdisk) startSector sectorCount)
    hattr hnull ?_ ?_
  · intro y hy
    rw [hmem, if_neg hy]
  · intro _
    rw [hmem, if_pos rfl]
    exact hpdisk

theorem diskRemove_of_no_part (h : s.Tree out l) (fuel : ℕ) {id : ℕ} (hid : s.getDisk id ≠ 0)
    (hno : ∀ a ∈ l, ¬ Removal.PartOf s id a) :
    s.diskRemove fuel id =
      if l.length < fuel then some (Removal.freeDisk ⟨s, [], []⟩ (s.getDisk id)) else none := by
  have hloop := Removal.diskRemovePartLoop_of_no_part (r := ⟨s, [], []⟩) fuel h.list.seg
    h.list.null_notMem rfl hno
  unfold diskRemove Removal.diskRemovePart
  dsimp only
  rw [if_pos hid, h.header_eq, hloop]
  split_ifs <;> rfl

theorem stale_of_partOf (h : s.Tree out l) {fuel id : ℕ} {r : Removal} (hid : s.getDisk id ≠ 0)
    {a : ℕ} (ha : a ∈ l) (hpart : Removal.PartOf s id a) (hr : s.diskRemove fuel id = some r) :
    r.stale ≠ [] := by
  unfold diskRemove Removal.diskRemovePart at hr
  dsimp only at hr
  rw [if_pos hid, h.header_eq, Option.map_eq_some_iff] at hr
  obtain ⟨r₁, hloop, rfl⟩ := hr
  have hstale := Removal.stale_of_partOf (r := ⟨s, [], []⟩) h.list.seg h.list.null_notMem ha hpart
    hloop
  obtain ⟨b, hb⟩ := List.exists_mem_of_ne_nil _ hstale
  exact List.ne_nil_of_mem ((Removal.later_freeDisk r₁ _).stale hb)

theorem freeDisk (h : s.Tree out l) {id : ℕ} (hid : s.getDisk id ≠ 0)
    (hno : ∀ a ∈ l, ¬ Removal.PartOf s id a) :
    ∃ rest, rest.Sublist l ∧ (∀ a ∈ l, a ∈ rest ↔ a ≠ s.getDisk id) ∧
      (Removal.freeDisk ⟨s, [], []⟩ (s.getDisk id)).disks.Tree out rest := by
  have hroot := h.toChain.getDisk_id hid
  obtain ⟨disk, hdisk⟩ : ∃ disk, s.getDisk id = disk := ⟨_, rfl⟩
  have hmem : disk ∈ l := hdisk ▸ h.toChain.getDisk_mem hid
  rw [hdisk] at hid hroot ⊢
  obtain ⟨pre, post, rfl⟩ := List.append_of_mem hmem
  have hnodup := List.nodup_middle.1 h.list.nodup
  rw [List.nodup_cons] at hnodup
  have hsub : ∀ a, a ∈ pre ++ disk :: post ↔ a = disk ∨ a ∈ pre ++ post := by
    intro a
    rw [List.mem_append, List.mem_cons, List.mem_append]
    tauto
  have hrest : ∀ a ∈ pre ++ disk :: post, a ∈ pre ++ post ↔ a ≠ disk := by
    intro a ha
    refine ⟨?_, fun hne => ((hsub a).1 ha).resolve_left hne⟩
    rintro har rfl
    exact hnodup.1 har
  have hchain : (Removal.freeDisk ⟨s, [], []⟩ disk).disks.Chain (pre ++ post) :=
    Chain.freeDisk (r := ⟨s, [], []⟩) h.toChain
  have hfields := Removal.freeDisk_fields ⟨s, [], []⟩ disk
  refine ⟨pre ++ post, List.Sublist.append_left (List.sublist_cons_self disk post) pre, hrest,
    hchain, ?_, ?_⟩
  · intro a ha hp
    rw [(hfields a).1] at hp ⊢
    have hal := (hsub a).2 (.inr ha)
    refine (hrest _ (h.parent a hal hp)).2 fun heq => hno a hal ⟨hp, ?_⟩
    rw [show (s.mem a).pdisk = disk from heq, hroot]
  · intro a ha hout htype
    rw [(hfields a).2] at htype ⊢
    exact h.volume a ((hsub a).2 (.inr ha)) hout htype

theorem goes_iff (h : s.Tree out l) {id : ℕ} (hid : s.getDisk id ≠ 0)
    (hno : ∀ a ∈ l, ¬ Removal.PartOf s id a) {a : ℕ} (ha : a ∈ l) :
    s.Goes id a ↔ a = s.getDisk id := by
  constructor
  · rintro ⟨-, hpath⟩
    induction hpath using ReflTransGen.head_induction_on with
    | refl => rfl
    | head hstep _ ih =>
        obtain ⟨hp, rfl⟩ := hstep
        have hroot := ih (h.parent _ ha hp)
        refine absurd ⟨hp, ?_⟩ (hno _ ha)
        rw [hroot]
        exact h.toChain.getDisk_id hid
  · rintro rfl
    exact ⟨hid, .refl⟩

theorem undone (h : s.Tree out l) {id : ℕ} (hid : s.getDisk id ≠ 0)
    (hno : ∀ a ∈ l, ¬ Removal.PartOf s id a)
    (hraw : (s.mem (s.getDisk id)).fs.type ≠ .fsFat) :
    s.Undone id (Removal.freeDisk ⟨s, [], []⟩ (s.getDisk id)) := by
  obtain ⟨hfreed, hstale⟩ := Removal.freeDisk_of_freed_nil (r := ⟨s, [], []⟩) rfl hid
  obtain ⟨rest, hsub, hrest, htree⟩ := h.freeDisk hid hno
  refine ⟨⟨l, rest, h.toChain, hsub, ?_, htree.toChain⟩, hstale, ?_⟩
  · intro a ha
    rw [hrest a ha, h.goes_iff hid hno ha]
  · intro a ha hgoes b hb
    rw [(h.goes_iff hid hno (h.toChain.listed_iff.1 ha)).1 hgoes] at hb
    rw [blocks, if_neg hraw, List.mem_singleton] at hb
    rw [hfreed, hb]
    exact List.mem_singleton_self _

theorem not_undone_of_fat (h : s.Tree [] l) {id : ℕ} (hid : s.getDisk id ≠ 0)
    (hfat : (s.mem (s.getDisk id)).fs.type = .fsFat) :
    ¬ s.Undone id (Removal.freeDisk ⟨s, [], []⟩ (s.getDisk id)) := by
  rintro ⟨-, -, hfreed⟩
  have hmem := h.toChain.getDisk_mem hid
  have hinfo := hfreed _ (h.toChain.listed_iff.2 hmem) ⟨hid, .refl⟩
    (s.mem (s.getDisk id)).fs.info (by simp [blocks, hfat])
  rw [(Removal.freeDisk_of_freed_nil (r := ⟨s, [], []⟩) rfl hid).1, List.mem_singleton] at hinfo
  exact h.volume _ hmem List.not_mem_nil hfat hinfo

end Tree

end Disks

namespace Scan

variable {env : DiskEnv} {s : Scan}

/-- The contract of `disk_fs_init`: the record of a FAT volume is in no block that holds
a descriptor. -/
def FreshFs (env : DiskEnv) : Prop :=
  ∀ s id, (env.diskFsInit s id).type = .fsFat → ¬ s.disks.Listed (env.diskFsInit s id).info

theorem FreshFs.ne (hfs : FreshFs env) {out l : List ℕ} (h : s.disks.Tree out l) {attr : ℕ}
    (hattr : attr ∈ l) (id : ℕ) (htype : (env.diskFsInit s id).type = .fsFat) :
    (env.diskFsInit s id).info ≠ attr := by
  intro heq
  refine hfs s id htype ?_
  rw [heq]
  exact h.toChain.listed_iff.2 hattr

theorem exists_tree_diskMmap (henv : Fresh env) (hfs : FreshFs env) {out : List ℕ} {attr : ℕ}
    (id startSector sectorCount : ℕ) (h : ∃ l, s.disks.Tree out l ∧ attr ∈ 0 :: l) :
    ∃ l, (s.diskMmap env id startSector sectorCount).2.disks.Tree out l ∧ attr ∈ 0 :: l := by
  obtain ⟨l, htree, hattr⟩ := h
  unfold Scan.diskMmap
  dsimp only
  split_ifs with hid hrange hnull
  · exact ⟨l, htree, hattr⟩
  · exact ⟨l, htree, hattr⟩
  · exact ⟨l, htree, hattr⟩
  · have hfresh := (henv s).resolve_left hnull
    rw [htree.toChain.listed_iff] at hfresh
    have henter := htree.enterPart hfresh hnull (htree.toChain.getDisk_mem hid) startSector sectorCount
    refine ⟨l ++ [env.kmalloc s], henter.store_fs ?_, ?_⟩
    · exact hfs.ne (s := ⟨_, _⟩) henter (List.mem_append_right l (List.mem_singleton_self _)) _
    · rw [← List.cons_append]
      exact List.mem_append_left _ hattr

theorem exists_tree_exec (henv : Fresh env) (hfs : FreshFs env) (op : DiskOp)
    (h : ∃ l, s.disks.Tree [] l) : ∃ l, (s.exec env op).disks.Tree [] l := by
  obtain ⟨l, htree⟩ := h
  cases op with
  | diskMmap id startSector sectorCount =>
      obtain ⟨l', htree', -⟩ := exists_tree_diskMmap henv hfs id startSector sectorCount
        ⟨l, htree, List.mem_cons_self⟩
      exact ⟨l', htree'⟩
  | diskCreate depth devType devId sectorCount =>
      change ∃ l, (s.diskCreate env depth devType devId sectorCount).2.disks.Tree [] l
      unfold Scan.diskCreate
      dsimp only
      split_ifs with hnull
      · exact ⟨l, htree⟩
      · have hfresh := (henv s).resolve_left hnull
        rw [htree.toChain.listed_iff] at hfresh
        have henter := htree.enterDevice hfresh hnull devType devId sectorCount
        obtain ⟨l', hscan, hmem⟩ := mbrPart_keeps
          (P := fun t => ∃ l, t.disks.Tree [env.kmalloc s] l ∧ env.kmalloc s ∈ 0 :: l)
          (fun t id start count ht => exists_tree_diskMmap henv hfs id start count ht)
          (s := { s with disks := s.disks.enterDevice (env.kmalloc s) devType devId sectorCount })
          ⟨_, henter, List.mem_cons_of_mem 0 (List.mem_append_right l (List.mem_singleton_self _))⟩
          depth _
        refine ⟨l', hscan.store_fs ?_⟩
        exact hfs.ne hscan ((List.mem_cons.1 hmem).resolve_left hnull) _

theorem exists_tree_diskRemove {fuel id : ℕ} {r : Removal} {d : Disks} (h : ∃ l, d.Tree [] l)
    (hr : d.diskRemove fuel id = some r) (hstale : r.stale = []) : ∃ l, r.disks.Tree [] l := by
  obtain ⟨l, htree⟩ := h
  by_cases hid : d.getDisk id = 0
  · rw [Disks.diskRemove_of_absent fuel hid, Option.some.injEq] at hr
    exact ⟨l, hr ▸ htree⟩
  · by_cases hno : ∀ a ∈ l, ¬ Removal.PartOf d id a
    · rw [htree.diskRemove_of_no_part fuel hid hno, Option.ite_none_right_eq_some,
        Option.some.injEq] at hr
      obtain ⟨rest, -, -, hrest⟩ := htree.freeDisk hid hno
      exact ⟨rest, hr.2 ▸ hrest⟩
    · push Not at hno
      obtain ⟨a, ha, hpart⟩ := hno
      exact absurd hstale (htree.stale_of_partOf hid ha hpart hr)

theorem exists_tree_of_reachable (henv : Fresh env) (hfs : FreshFs env)
    (hs : (diskListMachine env).Reachable s) : ∃ l, s.disks.Tree [] l := by
  refine hs.invariant (I := fun s => ∃ l, s.disks.Tree [] l) ?_ ?_
  · rintro s ⟨hheader, hpos, -, -⟩
    refine ⟨[], ⟨?_, hheader⟩, by simp, by simp⟩
    rw [hpos]
    exact DList.nil _ _ _
  · rintro s op s' h hstep
    cases op with
    | enter op =>
        obtain ⟨-, rfl⟩ := hstep
        exact exists_tree_exec henv hfs op h
    | diskRemove id =>
        obtain ⟨-, fuel, r, hr, hstale, rfl⟩ := hstep
        exact exists_tree_diskRemove h hr hstale

end Scan

namespace Disks

def NoPartition (s : Disks) (id : ℕ) : Prop :=
  ∀ a, s.Listed a → (s.mem a).pdisk ≠ 0 → (s.mem (s.mem a).pdisk).id ≠ id

theorem Chain.noPartition_iff {s : Disks} {l : List ℕ} (h : s.Chain l) {id : ℕ} :
    s.NoPartition id ↔ ∀ a ∈ l, ¬ Removal.PartOf s id a := by
  constructor
  · intro hno a ha hpart
    exact hno a (h.listed_iff.2 ha) hpart.1 hpart.2
  · intro hno a ha hp hid
    exact hno a (h.listed_iff.1 ha) ⟨hp, hid⟩

end Disks

/-- In every list that runs build, `disk_remove` undoes what entering the disk did
exactly when there is no such disk, or it has no partition and carries no FAT volume. -/
theorem disk_remove_undone_iff {env : DiskEnv} (henv : Scan.Fresh env) (hfs : Scan.FreshFs env)
    {s : Scan} (hs : (diskListMachine env).Reachable s) (id : ℕ) :
    (∃ fuel r, s.disks.diskRemove fuel id = some r ∧ s.disks.Undone id r) ↔
      s.disks.getDisk id = 0 ∨ (s.disks.NoPartition id ∧
        (s.disks.mem (s.disks.getDisk id)).fs.type ≠ .fsFat) := by
  obtain ⟨l, htree⟩ := Scan.exists_tree_of_reachable henv hfs hs
  rw [htree.toChain.noPartition_iff]
  constructor
  · rintro ⟨fuel, r, hr, hundone⟩
    by_cases hid : s.disks.getDisk id = 0
    · exact .inl hid
    · by_cases hno : ∀ a ∈ l, ¬ Removal.PartOf s.disks id a
      · refine .inr ⟨hno, fun hfat => ?_⟩
        rw [htree.diskRemove_of_no_part fuel hid hno, Option.ite_none_right_eq_some,
          Option.some.injEq] at hr
        rw [← hr.2] at hundone
        exact htree.not_undone_of_fat hid hfat hundone
      · push Not at hno
        obtain ⟨a, ha, hpart⟩ := hno
        exact absurd hundone.2.1 (htree.stale_of_partOf hid ha hpart hr)
  · intro hcond
    by_cases hid : s.disks.getDisk id = 0
    · exact ⟨0, _, Disks.diskRemove_of_absent 0 hid, htree.toChain.undone_of_absent hid⟩
    · obtain ⟨hno, hraw⟩ := hcond.resolve_left hid
      refine ⟨l.length + 1, _, ?_, htree.undone hid hno hraw⟩
      rw [htree.diskRemove_of_no_part _ hid hno, if_pos (Nat.lt_succ_self _)]

/-- The partition of a disk of a hundred sectors goes, and the disk stays. -/
theorem disk_remove_undone_partition :
    let env := twoDisks fun _ => none
    let s := noDisks.exec env (.diskCreate 1 .diskAta 0 100)
    let t := s.exec env (.diskMmap 0 10 20)
    t.disks.Listed 0x1000 ∧ ¬ t.disks.Goes 1 0x1000 ∧
      ∃ fuel r, t.disks.diskRemove fuel 1 = some r ∧ t.disks.Undone 1 r := by
  intro env s t
  have hreach : (diskListMachine env).Reachable t :=
    .step (.step (.init ⟨rfl, rfl, rfl, rfl⟩) (a := .enter (.diskCreate 1 .diskAta 0 100))
      ⟨⟨by decide, by decide⟩, rfl⟩) (a := .enter (.diskMmap 0 10 20))
      ⟨⟨by decide, by decide, by decide⟩, rfl⟩
  have hfields : t.disks.header = 0x1000 ∧ (t.disks.mem 0x1000).next = 0x2000 ∧
      (t.disks.mem 0x2000).next = 0 ∧ (t.disks.mem 0x1000).pdisk = 0 ∧
        (t.disks.mem 0x2000).pdisk = 0x1000 ∧ (t.disks.mem 0x1000).id = 0 ∧
          t.disks.getDisk 1 = 0x2000 ∧ (t.disks.mem 0x2000).fs.type = .fsRaw := by
    with_unfolding_all decide
  obtain ⟨hheader, hfirst, hsecond, hdisk, hpart, hid, hget, hraw⟩ := hfields
  have hlisted : t.disks.Listed 0x1000 := by
    have hlisted : t.disks.Listed t.disks.header := .start (by rw [hheader]; decide)
    rwa [hheader] at hlisted
  refine ⟨hlisted, ?_, (disk_remove_undone_iff (fresh_twoDisks _) ?_ hreach 1).2 (.inr ⟨?_, ?_⟩)⟩
  · rintro ⟨-, hgoes⟩
    rw [hget] at hgoes
    rcases Relation.ReflTransGen.cases_head hgoes with heq | ⟨b, ⟨hne, -⟩, -⟩
    · cases heq
    · exact hne hdisk
  · intro s id htype
    cases htype
  · intro a ha hp
    have htwo := ha.eq_start_or_next (by rw [hheader, hfirst, hsecond])
    rw [hheader, hfirst] at htwo
    rcases htwo with rfl | rfl
    · exact absurd hdisk hp
    · rw [hpart, hid]
      decide
  · rw [hget, hraw]
    decide

/-- Removing a disk of a hundred sectors with one partition reads the `next` of the
descriptor of the partition after that was freed. -/
theorem not_disk_remove_undone :
    let env := twoDisks fun _ => none
    let s := noDisks.exec env (.diskCreate 1 .diskAta 0 100)
    let t := s.exec env (.diskMmap 0 10 20)
    Scan.Fresh env ∧ Scan.FreshFs env ∧ (diskListMachine env).Reachable t ∧
      ¬ ∃ fuel r, t.disks.diskRemove fuel 0 = some r ∧ t.disks.Undone 0 r := by
  intro env s t
  have hfs : Scan.FreshFs env := by
    intro s id htype
    cases htype
  have hreach : (diskListMachine env).Reachable t :=
    .step (.step (.init ⟨rfl, rfl, rfl, rfl⟩) (a := .enter (.diskCreate 1 .diskAta 0 100))
      ⟨⟨by decide, by decide⟩, rfl⟩) (a := .enter (.diskMmap 0 10 20))
      ⟨⟨by decide, by decide, by decide⟩, rfl⟩
  refine ⟨fresh_twoDisks _, hfs, hreach, ?_⟩
  rintro ⟨fuel, r, hr, hundone⟩
  obtain ⟨l, htree⟩ := Scan.exists_tree_of_reachable (fresh_twoDisks _) hfs hreach
  have hfields : t.disks.header = 0x1000 ∧ (t.disks.mem 0x1000).next = 0x2000 ∧
      Removal.PartOf t.disks 0 0x2000 ∧ t.disks.getDisk 0 = 0x1000 := by with_unfolding_all decide
  obtain ⟨hheader, hnext, hpart, hget⟩ := hfields
  have hfirst : t.disks.Listed 0x1000 := by
    have hlisted : t.disks.Listed t.disks.header := .start (by rw [hheader]; decide)
    rwa [hheader] at hlisted
  have hsecond : t.disks.Listed 0x2000 := by
    have hlisted : t.disks.Listed (t.disks.mem 0x1000).next := .next hfirst (by rw [hnext]; decide)
    rwa [hnext] at hlisted
  refine absurd hundone.2.1 (htree.stale_of_partOf ?_ (htree.toChain.listed_iff.1 hsecond) hpart hr)
  rw [hget]
  decide

end BitchKernel
