import BitchKernel.Dev.Part

/-!
# Containment of partitions

A descriptor enters the list behind the others, and no function changes the
sector range or the parent of a descriptor that is there. So containment in the
parent, and from it containment in the device, only has to be checked for the
descriptor that `disk_mmap` enters. The check of `disk_mmap` gives it when the
addition it makes is exact.
-/

namespace BitchKernel

open Lib

namespace Disks

/-- The descriptors found from `header` on. -/
def Listed (s : Disks) (a : ℕ) : Prop := Found (fun a => (s.mem a).next) 0 s.header a

/-- The sector range of `a`, in unbounded numbers, lies in that of its parent and
in that of a device. -/
structure Contained (s : Disks) (a : ℕ) : Prop where
  parent : (s.mem a).pdisk ≠ 0 →
    (s.mem (s.mem a).pdisk).startSector ≤ (s.mem a).startSector ∧
      (s.mem a).startSector + (s.mem a).sectorCount ≤
        (s.mem (s.mem a).pdisk).startSector + (s.mem (s.mem a).pdisk).sectorCount
  device : ∃ r, s.Listed r ∧ (s.mem r).pdisk = 0 ∧ (s.mem r).startSector = 0 ∧
    (s.mem r).devId = (s.mem a).devId ∧
      (s.mem a).startSector + (s.mem a).sectorCount ≤ (s.mem r).sectorCount

/-- The list of descriptors is `l`. -/
structure Chain (s : Disks) (l : List ℕ) : Prop where
  list : DList (fun a => (s.mem a).last) (fun a => (s.mem a).next) 0 s.pos l
  header_eq : s.header = l.headD 0

/-- The list of descriptors is `l`, and each lies in its parent and in a
device. -/
structure Inv (s : Disks) (l : List ℕ) : Prop extends Chain s l where
  parent : ∀ a ∈ l, (s.mem a).pdisk ≠ 0 → (s.mem a).pdisk ∈ l ∧
    (s.mem (s.mem a).pdisk).startSector ≤ (s.mem a).startSector ∧
      (s.mem a).startSector + (s.mem a).sectorCount ≤
        (s.mem (s.mem a).pdisk).startSector + (s.mem (s.mem a).pdisk).sectorCount
  device : ∀ a ∈ l, ∃ r ∈ l, (s.mem r).pdisk = 0 ∧ (s.mem r).startSector = 0 ∧
    (s.mem r).sectorCount < 2 ^ 64 ∧ (s.mem r).devId = (s.mem a).devId ∧
      (s.mem a).startSector + (s.mem a).sectorCount ≤ (s.mem r).sectorCount

/-- The descriptor at `attr` was put behind the others, whose ranges and parents
stay as they are. -/
structure Entered (s s' : Disks) (attr : ℕ) : Prop where
  pos_eq : s'.pos = attr
  header_eq : s'.header = if s.header = 0 then attr else s.header
  last_eq : ∀ y, (s'.mem y).last = if y = attr then s.pos else (s.mem y).last
  next_eq : ∀ y ≠ 0, (s'.mem y).next =
    if y = attr then 0 else if y = s.pos then attr else (s.mem y).next
  startSector_eq : ∀ y ≠ attr, (s'.mem y).startSector = (s.mem y).startSector
  sectorCount_eq : ∀ y ≠ attr, (s'.mem y).sectorCount = (s.mem y).sectorCount
  devId_eq : ∀ y ≠ attr, (s'.mem y).devId = (s.mem y).devId
  pdisk_eq : ∀ y ≠ attr, (s'.mem y).pdisk = (s.mem y).pdisk

@[simp] theorem store_mem (s : Disks) (attr : ℕ) (f : Disk → Disk) (y : ℕ) :
    (s.store attr f).mem y = if y = attr then f (s.mem attr) else s.mem y := by
  simp [store, Function.update_apply]

@[simp] theorem store_pos (s : Disks) (attr : ℕ) (f : Disk → Disk) :
    (s.store attr f).pos = s.pos := rfl

@[simp] theorem store_header (s : Disks) (attr : ℕ) (f : Disk → Disk) :
    (s.store attr f).header = s.header := rfl

@[simp] theorem store_newId (s : Disks) (attr : ℕ) (f : Disk → Disk) :
    (s.store attr f).newId = s.newId := rfl

@[simp] theorem setId_mem (s : Disks) (attr y : ℕ) :
    (s.setId attr).mem y = if y = attr then { s.mem attr with id := s.newId } else s.mem y := by
  simp [setId]

@[simp] theorem setId_pos (s : Disks) (attr : ℕ) : (s.setId attr).pos = s.pos := rfl

@[simp] theorem setId_header (s : Disks) (attr : ℕ) : (s.setId attr).header = s.header := rfl

@[simp] theorem link_pos (s : Disks) (attr : ℕ) : (s.link attr).pos = attr := rfl

@[simp] theorem link_header (s : Disks) (attr : ℕ) : (s.link attr).header = s.header := by
  unfold link
  by_cases hpos : s.pos = 0 <;> simp [hpos]

theorem link_mem (s : Disks) {attr : ℕ} (hattr : s.pos ≠ attr) (y : ℕ) :
    (s.link attr).mem y =
      if y = attr then { s.mem y with last := s.pos, next := 0 }
      else if s.pos ≠ 0 ∧ y = s.pos then { s.mem y with next := attr } else s.mem y := by
  unfold link
  by_cases hpos : s.pos = 0
  · simp only [store_pos, ne_eq, hpos, not_true_eq_false, if_false, store_mem, false_and]
    split_ifs with hy
    · rw [hy]
    · rfl
  · simp only [store_pos, ne_eq, hpos, not_false_eq_true, if_true, store_mem, true_and, hattr,
      if_false]
    by_cases hy : y = s.pos
    · rw [if_pos hy, if_neg (hy ▸ hattr), if_pos hy, hy]
    · rw [if_neg hy, if_neg hy]
      split_ifs with hya
      · rw [hya]
      · rfl

theorem enterDevice_mem {s : Disks} {attr : ℕ} (hattr : s.pos ≠ attr)
    (devType : DiskDevType) (devId sectorCount y : ℕ) :
    (s.enterDevice attr devType devId sectorCount).mem y =
      if y = attr then
        { s.mem attr with
          id := s.newId
          devType := devType
          devId := devId
          startSector := 0
          sectorCount := sectorCount
          partId := 0
          partCount := 0
          pdisk := 0
          last := s.pos
          next := 0 }
      else
        { s.mem y with next := if s.pos ≠ 0 ∧ y = s.pos then attr else (s.mem y).next } := by
  have hmem : (s.enterDevice attr devType devId sectorCount).mem y =
      ((((s.setId attr).store attr fun x =>
        { x with
          devType := devType
          devId := devId
          startSector := 0
          sectorCount := sectorCount
          partId := 0
          partCount := 0
          pdisk := 0 }).link attr).mem y) := by
    unfold enterDevice
    dsimp only
    split_ifs <;> rfl
  rw [hmem, link_mem _ (by simpa using hattr)]
  simp only [store_mem, setId_mem, store_pos, setId_pos]
  by_cases hy : y = attr
  · simp [hy]
  · by_cases hpos : s.pos ≠ 0 ∧ y = s.pos
    · simp only [if_pos hpos, if_neg hy]
    · simp only [if_neg hpos, if_neg hy]

theorem enterPart_mem {s : Disks} {pdisk attr : ℕ} (hattr : s.pos ≠ attr) (hpdisk : pdisk ≠ attr)
    (startSector sectorCount y : ℕ) :
    (s.enterPart pdisk attr startSector sectorCount).mem y =
      if y = attr then
        { s.mem attr with
          id := s.newId
          devType := (s.mem pdisk).devType
          devId := (s.mem pdisk).devId
          startSector := add64 (s.mem pdisk).startSector startSector
          sectorCount := sectorCount
          partId := (s.mem pdisk).partCount
          partCount := 0
          pdisk := pdisk
          last := s.pos
          next := 0 }
      else
        { s.mem y with
          partCount := if y = pdisk then add32 (s.mem y).partCount 1 else (s.mem y).partCount
          next := if s.pos ≠ 0 ∧ y = s.pos then attr else (s.mem y).next } := by
  unfold enterPart
  rw [link_mem _ (by simpa using hattr)]
  simp only [store_mem, setId_mem, store_pos, setId_pos, hpdisk, if_false]
  by_cases hy : y = attr
  · simp [hy, hpdisk.symm]
  · have hay : attr ≠ y := Ne.symm hy
    by_cases hyp : y = pdisk
    · subst hyp
      by_cases hpos : s.pos ≠ 0 ∧ y = s.pos
      · simp only [if_pos hpos, if_neg hy, if_neg hay, if_true]
      · simp only [if_neg hpos, if_neg hy, if_neg hay, if_true]
    · by_cases hpos : s.pos ≠ 0 ∧ y = s.pos
      · simp only [if_pos hpos, if_neg hy, if_neg hyp]
      · simp only [if_neg hpos, if_neg hy, if_neg hyp]

theorem enterDevice_entered {s : Disks} {attr : ℕ} (hattr : s.pos ≠ attr)
    (devType : DiskDevType) (devId sectorCount : ℕ) :
    Entered s (s.enterDevice attr devType devId sectorCount) attr := by
  have hmem := enterDevice_mem hattr devType devId sectorCount
  refine ⟨?_, ?_, ?_, ?_, ?_, ?_, ?_, ?_⟩
  · unfold enterDevice
    dsimp only
    split_ifs <;> simp
  · unfold enterDevice
    dsimp only
    split_ifs <;> simp_all
  · intro y
    rw [hmem]
    split_ifs <;> rfl
  · intro y hy
    rw [hmem]
    by_cases hya : y = attr
    · simp [hya]
    · by_cases hyp : y = s.pos
      · simp [hyp, hattr, hyp ▸ hy]
      · simp [hya, hyp]
  all_goals
    intro y hy
    rw [hmem, if_neg hy]

theorem enterPart_entered {s : Disks} {pdisk attr : ℕ} (hattr : s.pos ≠ attr)
    (hpdisk : pdisk ≠ attr) (hheader : s.header ≠ 0) (startSector sectorCount : ℕ) :
    Entered s (s.enterPart pdisk attr startSector sectorCount) attr := by
  have hmem := enterPart_mem hattr hpdisk startSector sectorCount
  refine ⟨?_, ?_, ?_, ?_, ?_, ?_, ?_, ?_⟩
  · rfl
  · rw [if_neg hheader]
    simp [enterPart]
  · intro y
    rw [hmem]
    split_ifs <;> rfl
  · intro y hy
    rw [hmem]
    by_cases hya : y = attr
    · simp [hya]
    · by_cases hyp : y = s.pos
      · simp [hyp, hattr, hyp ▸ hy]
      · simp [hya, hyp]
  all_goals
    intro y hy
    rw [hmem, if_neg hy]

variable {s s' : Disks} {l : List ℕ} {attr : ℕ}

theorem store_fs_mem (s : Disks) (attr : ℕ) (fs : Fs) (y : ℕ) :
    (s.store attr fun x => { x with fs := fs }).mem y =
      { s.mem y with fs := if y = attr then fs else (s.mem y).fs } := by
  rw [store_mem]
  by_cases hy : y = attr
  · rw [if_pos hy, if_pos hy, hy]
  · rw [if_neg hy, if_neg hy]

namespace Chain

theorem ne_zero (h : s.Chain l) {a : ℕ} (ha : a ∈ l) : a ≠ 0 := by
  rintro rfl
  exact h.list.null_notMem ha

theorem pos_ne (h : s.Chain l) (hattr : attr ∉ l) (hnull : attr ≠ 0) : s.pos ≠ attr := by
  rintro rfl
  exact hattr (h.list.pos_mem hnull)

theorem header_ne_zero (h : s.Chain l) {a : ℕ} (ha : a ∈ l) : s.header ≠ 0 := by
  rw [h.header_eq]
  exact headD_ne (List.ne_nil_of_mem ha) h.list.null_notMem

theorem listed_iff (h : s.Chain l) {a : ℕ} : s.Listed a ↔ a ∈ l := by
  unfold Listed
  rw [h.header_eq]
  exact h.list.found_iff

theorem getDisk_mem (h : s.Chain l) {id : ℕ} (hid : s.getDisk id ≠ 0) : s.getDisk id ∈ l := by
  unfold getDisk at hid ⊢
  rw [h.header_eq] at hid ⊢
  exact (h.list.seg.walk_mem hid).1

theorem enter (h : s.Chain l) (he : Entered s s' attr) (hattr : attr ∉ l) (hnull : attr ≠ 0) :
    s'.Chain (l ++ [attr]) := by
  refine ⟨?_, ?_⟩
  · rw [he.pos_eq]
    refine h.list.append hattr hnull he.last_eq fun y hy => he.next_eq y ?_
    rcases List.mem_cons.1 hy with rfl | hy
    · exact hnull
    · exact h.ne_zero hy
  · rw [he.header_eq, h.header_eq]
    cases l with
    | nil => simp
    | cons x l => simp [h.ne_zero List.mem_cons_self]

theorem store_fs (h : s.Chain l) (attr : ℕ) (fs : Fs) :
    (s.store attr fun x => { x with fs := fs }).Chain l := by
  obtain ⟨hlist, hheader⟩ := h
  refine ⟨?_, hheader⟩
  simp only [store_fs_mem]
  exact hlist

end Chain

namespace Inv

theorem enter (h : s.Inv l) (he : Entered s s' attr) (hattr : attr ∉ l) (hnull : attr ≠ 0)
    (hparent : (s'.mem attr).pdisk ≠ 0 → (s'.mem attr).pdisk ∈ l ∧
      (s.mem (s'.mem attr).pdisk).startSector ≤ (s'.mem attr).startSector ∧
        (s'.mem attr).startSector + (s'.mem attr).sectorCount ≤
          (s.mem (s'.mem attr).pdisk).startSector + (s.mem (s'.mem attr).pdisk).sectorCount)
    (hdevice : ∃ r ∈ l ++ [attr], (s'.mem r).pdisk = 0 ∧ (s'.mem r).startSector = 0 ∧
      (s'.mem r).sectorCount < 2 ^ 64 ∧ (s'.mem r).devId = (s'.mem attr).devId ∧
        (s'.mem attr).startSector + (s'.mem attr).sectorCount ≤ (s'.mem r).sectorCount) :
    s'.Inv (l ++ [attr]) := by
  have hne : ∀ a ∈ l, a ≠ attr := by
    rintro a ha rfl
    exact hattr ha
  refine ⟨h.toChain.enter he hattr hnull, ?_, ?_⟩
  · intro a ha hp
    rcases List.mem_append.1 ha with ha | ha
    · have hna := hne a ha
      rw [he.pdisk_eq a hna] at hp ⊢
      obtain ⟨hpl, hrange⟩ := h.parent a ha hp
      have hnp := hne _ hpl
      rw [he.startSector_eq a hna, he.sectorCount_eq a hna, he.startSector_eq _ hnp,
        he.sectorCount_eq _ hnp]
      exact ⟨List.mem_append_left _ hpl, hrange⟩
    · rw [List.mem_singleton] at ha
      rw [ha] at hp ⊢
      obtain ⟨hpl, hrange⟩ := hparent hp
      have hnp := hne _ hpl
      rw [he.startSector_eq _ hnp, he.sectorCount_eq _ hnp]
      exact ⟨List.mem_append_left _ hpl, hrange⟩
  · intro a ha
    rcases List.mem_append.1 ha with ha | ha
    · have hna := hne a ha
      obtain ⟨r, hr, hrange⟩ := h.device a ha
      have hnr := hne r hr
      refine ⟨r, List.mem_append_left _ hr, ?_⟩
      rw [he.pdisk_eq r hnr, he.startSector_eq r hnr, he.sectorCount_eq r hnr,
        he.devId_eq r hnr, he.devId_eq a hna, he.startSector_eq a hna, he.sectorCount_eq a hna]
      exact hrange
    · rw [List.mem_singleton] at ha
      rw [ha]
      exact hdevice

theorem store_fs (h : s.Inv l) (attr : ℕ) (fs : Fs) :
    (s.store attr fun x => { x with fs := fs }).Inv l := by
  refine ⟨h.toChain.store_fs attr fs, ?_, ?_⟩
  · simp only [store_fs_mem]
    exact h.parent
  · simp only [store_fs_mem]
    exact h.device

theorem contained (h : s.Inv l) {a : ℕ} (ha : s.Listed a) : s.Contained a := by
  have hal := h.listed_iff.1 ha
  refine ⟨fun hp => (h.parent a hal hp).2, ?_⟩
  obtain ⟨r, hr, hpdisk, hstart, -, hid, hle⟩ := h.device a hal
  exact ⟨r, h.listed_iff.2 hr, hpdisk, hstart, hid, hle⟩

theorem enterDevice (h : s.Inv l) (hattr : attr ∉ l) (hnull : attr ≠ 0) (devType : DiskDevType)
    (devId : ℕ) {sectorCount : ℕ} (hcount : sectorCount < 2 ^ 64) :
    (s.enterDevice attr devType devId sectorCount).Inv (l ++ [attr]) := by
  have hpos := h.pos_ne hattr hnull
  have hmem := enterDevice_mem hpos devType devId sectorCount attr
  rw [if_pos rfl] at hmem
  refine h.enter (enterDevice_entered hpos devType devId sectorCount) hattr hnull ?_ ?_
  · rw [hmem]
    simp
  · refine ⟨attr, by simp, ?_⟩
    rw [hmem]
    simpa using hcount

/-- A part whose range, in unbounded numbers, ends inside the disk it is a part
of. -/
theorem enterPart (h : s.Inv l) (hattr : attr ∉ l) (hnull : attr ≠ 0) {pdisk : ℕ}
    (hpdisk : pdisk ∈ l) {startSector sectorCount : ℕ}
    (hrange : ¬ (s.mem pdisk).sectorCount < startSector + sectorCount) :
    (s.enterPart pdisk attr startSector sectorCount).Inv (l ++ [attr]) := by
  have hpos := h.pos_ne hattr hnull
  have hne : pdisk ≠ attr := by
    rintro rfl
    exact hattr hpdisk
  have hheader := h.header_ne_zero hpdisk
  have hmem := enterPart_mem hpos hne startSector sectorCount
  have hself := hmem attr
  rw [if_pos rfl] at hself
  obtain ⟨r, hr, hpr, hstart, hcount, hdev, hle⟩ := h.device pdisk hpdisk
  have hrne : r ≠ attr := by
    rintro rfl
    exact hattr hr
  -- the start of the part is a sector of the device, so the addition is exact
  have hadd : add64 (s.mem pdisk).startSector startSector =
      (s.mem pdisk).startSector + startSector := by
    rw [add64_eq, Nat.mod_eq_of_lt (by omega)]
  refine h.enter (enterPart_entered hpos hne hheader startSector sectorCount) hattr hnull ?_ ?_
  · intro _
    rw [hself]
    dsimp only
    rw [hadd]
    exact ⟨hpdisk, by omega, by omega⟩
  · refine ⟨r, List.mem_append_left _ hr, ?_⟩
    rw [hself, hmem r, if_neg hrne]
    dsimp only
    rw [hadd]
    exact ⟨hpr, hstart, hcount, hdev, by omega⟩

end Inv

end Disks

/-- The addition in the check of `disk_mmap` is exact, or the call enters no
descriptor. -/
def MmapCall.Exact (c : MmapCall) : Prop :=
  c.startSector + c.sectorCount < 2 ^ 64 ∨ c.disks.getDisk c.id = 0 ∨
    (c.disks.mem (c.disks.getDisk c.id)).sectorCount < (c.startSector + c.sectorCount) % 2 ^ 64 ∨
      c.kmalloc = 0

theorem mbrPart_exact (mbr : Bytes) (i : ℕ) :
    (mbrPartOf mbr i).firstSectorLba + (mbrPartOf mbr i).sectorNum < 2 ^ 64 := by
  have hfirst := Bytes.le_lt mbr (16 * i + 8) 4
  have hnum := Bytes.le_lt mbr (16 * i + 12) 4
  change Bytes.le mbr (16 * i + 8) 4 + Bytes.le mbr (16 * i + 12) 4 < 2 ^ 64
  omega

/-- The range of a GPT entry is exact when its last sector does not lie more than
one before its first and has a successor. -/
theorem gptEntry_exact_iff {entry : GptEntry} (hfirst : 0 < entry.firstLba)
    (hfirst64 : entry.firstLba < 2 ^ 64) (hlast : entry.lastLba < 2 ^ 64) :
    entry.firstLba + entry.sectorNum < 2 ^ 64 ↔
      entry.firstLba ≤ entry.lastLba + 1 ∧ entry.lastLba + 1 < 2 ^ 64 := by
  unfold GptEntry.sectorNum
  rw [add64_eq]
  by_cases hle : entry.firstLba ≤ entry.lastLba
  · rw [sub64_of_le hle hlast]
    omega
  · rw [sub64_of_lt (by omega) (Nat.le_of_lt hfirst64)]
    omega

namespace Scan

/-- The lists passed through and the present one are well formed, as long as
every call of `disk_mmap` was exact. -/
def Inv (s : Scan) : Prop :=
  (∀ c ∈ s.calls, c.Exact) →
    (∃ l, s.disks.Inv l) ∧ ∀ c ∈ s.calls, ∃ l, c.disks.Inv l

/-- The contract of `kmalloc`: `NULL`, or a block that is not in use. -/
def Fresh (env : DiskEnv) : Prop :=
  ∀ s, env.kmalloc s = 0 ∨ ¬ s.disks.Listed (env.kmalloc s)

variable {env : DiskEnv} {s : Scan}

/-- The call that `diskMmap` records. -/
def mmapCall (env : DiskEnv) (s : Scan) (id startSector sectorCount : ℕ) : MmapCall :=
  ⟨s.disks, env.kmalloc s, id, startSector, sectorCount⟩

theorem diskMmap_calls (env : DiskEnv) (s : Scan) (id startSector sectorCount : ℕ) :
    (s.diskMmap env id startSector sectorCount).2.calls =
      s.mmapCall env id startSector sectorCount :: s.calls := by
  unfold Scan.diskMmap
  dsimp only
  split_ifs <;> rfl

theorem exec_diskMmap (env : DiskEnv) (s : Scan) (id startSector sectorCount : ℕ) :
    s.exec env (.diskMmap id startSector sectorCount) =
      (s.diskMmap env id startSector sectorCount).2 := rfl

theorem kmalloc_notMem (henv : Fresh env) {l : List ℕ} (h : s.disks.Inv l)
    (hnull : env.kmalloc s ≠ 0) : env.kmalloc s ∉ l := by
  have hfresh := (henv s).resolve_left hnull
  rwa [h.listed_iff] at hfresh

theorem exists_inv_diskMmap (henv : Fresh env) {l : List ℕ} (h : s.disks.Inv l)
    {id startSector sectorCount : ℕ} (hexact : (s.mmapCall env id startSector sectorCount).Exact) :
    ∃ m, (s.diskMmap env id startSector sectorCount).2.disks.Inv m := by
  unfold Scan.diskMmap
  dsimp only
  split_ifs with hid hrange hnull
  · exact ⟨l, h⟩
  · exact ⟨l, h⟩
  · exact ⟨l, h⟩
  · have hsum : startSector + sectorCount < 2 ^ 64 := by
      rcases hexact with hsum | hcall | hcall | hcall
      · exact hsum
      · exact absurd hcall hid
      · rw [add64_eq] at hrange
        exact absurd hcall hrange
      · exact absurd hcall hnull
    rw [add64_eq, Nat.mod_eq_of_lt hsum] at hrange
    exact ⟨_, (h.enterPart (kmalloc_notMem henv h hnull) hnull (h.getDisk_mem hid) hrange).store_fs _ _⟩

/-- A call whose sum wraps below the size of the disk enters a descriptor outside
its parent. -/
theorem not_contained_diskMmap (henv : Fresh env) {l : List ℕ} (h : s.disks.Inv l)
    {id startSector sectorCount : ℕ} (hstart : startSector < 2 ^ 64)
    (hexact : ¬ (s.mmapCall env id startSector sectorCount).Exact) :
    ∃ a, (s.diskMmap env id startSector sectorCount).2.disks.Listed a ∧
      ¬ (s.diskMmap env id startSector sectorCount).2.disks.Contained a := by
  unfold MmapCall.Exact mmapCall at hexact
  push Not at hexact
  obtain ⟨hsum, hid, hrange, hnull⟩ := hexact
  dsimp only at hsum hid hrange hnull
  have hattr := kmalloc_notMem henv h hnull
  have hpdisk := h.getDisk_mem hid
  have hne : s.disks.getDisk id ≠ env.kmalloc s := by
    rintro heq
    exact hattr (heq ▸ hpdisk)
  have hpos := h.pos_ne hattr hnull
  have hmem := Disks.enterPart_mem hpos hne startSector sectorCount
  have hchain := h.toChain.enter
    (Disks.enterPart_entered hpos hne (h.header_ne_zero hpdisk) startSector sectorCount) hattr hnull
  unfold Scan.diskMmap
  dsimp only
  rw [if_neg hid, if_neg (by rw [add64_eq]; exact not_lt.2 hrange), if_neg hnull]
  refine ⟨env.kmalloc s, (hchain.store_fs _ _).listed_iff.2 (by simp), fun hcon => ?_⟩
  have hparent := hcon.parent
  simp only [Disks.store_fs_mem, hmem, if_true, if_neg hne, add64_eq] at hparent
  obtain ⟨r, -, -, -, hr, -, hle⟩ := h.device _ hpdisk
  have hin := hparent hid
  omega

theorem Inv.diskMmap (h : s.Inv) (henv : Fresh env) (id startSector sectorCount : ℕ) :
    (s.diskMmap env id startSector sectorCount).2.Inv := by
  intro hexact
  rw [diskMmap_calls] at hexact ⊢
  obtain ⟨⟨l, hinv⟩, hcalls⟩ := h fun c hc => hexact c (List.mem_cons_of_mem _ hc)
  refine ⟨exists_inv_diskMmap henv hinv (hexact _ List.mem_cons_self), fun c hc => ?_⟩
  rcases List.mem_cons.1 hc with rfl | hc
  · exact ⟨l, hinv⟩
  · exact hcalls c hc

section Keeps

variable {P : Scan → Prop}
  (hmmap : ∀ s id startSector sectorCount, P s → P (s.diskMmap env id startSector sectorCount).2)

include hmmap

theorem gptPartStep_keeps {r : ℕ × Scan} (h : P r.2) (id : ℕ) (header : GptHeader) (i : ℕ) :
    P (gptPartStep env id header i r).2 := by
  unfold Scan.gptPartStep
  dsimp only
  cases r.2.diskRead env id sizeofGptEntry _ with
  | none => exact h
  | some buf =>
      dsimp only
      split_ifs
      · exact hmmap _ id _ _ h
      · exact h

theorem gptPartLoop_keeps {r : ℕ × Scan} (h : P r.2) (id : ℕ) (header : GptHeader) (n : ℕ) :
    P (gptPartLoop env id header n r).2 := by
  induction n with
  | zero => exact h
  | succ n ih => exact gptPartStep_keeps hmmap ih id header n

theorem gptPart_keeps (h : P s) (id : ℕ) : P (s.gptPart env id).2 := by
  unfold Scan.gptPart
  cases s.diskRead env id sizeofGptHeader (s.sectorSize id) with
  | none => exact h
  | some buf =>
      dsimp only
      split_ifs
      · exact gptPartLoop_keeps hmmap h id _ _
      · exact h

theorem mbrPartStep_keeps {rec : Scan → ℕ → ℕ × Scan} (hrec : ∀ s id, P s → P (rec s id).2)
    {r : ℕ × Scan} (h : P r.2) (id : ℕ) (mbr : Bytes) (i : ℕ) :
    P (mbrPartStep env rec id mbr r i).2 := by
  unfold Scan.mbrPartStep
  dsimp only
  split_ifs
  · exact hrec _ _ (hmmap _ id _ _ h)
  · exact gptPart_keeps hmmap h id
  · exact hmmap _ id _ _ h
  · exact h

/-- What every call of `disk_mmap` keeps, the scan keeps at every depth of nesting. -/
theorem mbrPart_keeps (h : P s) (depth id : ℕ) : P (mbrPart env depth s id).2 := by
  induction depth generalizing s id with
  | zero => exact h
  | succ depth ih =>
      have hstep : ∀ (mbr : Bytes) (r : ℕ × Scan) (i : ℕ), P r.2 →
          P (Scan.mbrPartStep env (Scan.mbrPart env depth) id mbr r i).2 :=
        fun mbr r i hr => mbrPartStep_keeps hmmap (fun t id ht => ih ht id) hr id mbr i
      rw [Scan.mbrPart]
      cases s.diskRead env id sizeofMbr 0x1be with
      | none => exact h
      | some mbr =>
          dsimp only
          split_ifs
          · exact hstep mbr _ 3 (hstep mbr _ 2 (hstep mbr _ 1 (hstep mbr _ 0 h)))
          · exact h

end Keeps

theorem Inv.diskCreate (h : s.Inv) (henv : Fresh env) (depth : ℕ) (devType : DiskDevType)
    (devId : ℕ) {sectorCount : ℕ} (hcount : sectorCount < 2 ^ 64) :
    (s.diskCreate env depth devType devId sectorCount).2.Inv := by
  unfold Scan.diskCreate
  dsimp only
  split_ifs with hnull
  · exact h
  · have henter : Scan.Inv
        { s with disks := s.disks.enterDevice (env.kmalloc s) devType devId sectorCount } := by
      intro hexact
      obtain ⟨⟨l, hinv⟩, hcalls⟩ := h hexact
      have hattr := kmalloc_notMem henv hinv hnull
      exact ⟨⟨l ++ [env.kmalloc s], hinv.enterDevice hattr hnull devType devId hcount⟩, hcalls⟩
    intro hexact
    obtain ⟨⟨l, hinv⟩, hcalls⟩ :=
      mbrPart_keeps (fun _ id _ _ h => h.diskMmap henv id _ _) henter depth _ hexact
    exact ⟨⟨l, hinv.store_fs _ _⟩, hcalls⟩

theorem Inv.of_reachable (henv : Fresh env) (hs : (diskMachine env).Reachable s) : s.Inv := by
  refine hs.invariant ?_ ?_
  · rintro s ⟨hheader, hpos, -, hcalls⟩ -
    refine ⟨⟨[], ⟨?_, hheader⟩, by simp, by simp⟩, by simp [hcalls]⟩
    rw [hpos]
    exact DList.nil _ _ _
  · rintro s op _ h ⟨hen, rfl⟩
    cases op with
    | diskCreate depth devType devId sectorCount => exact h.diskCreate henv depth devType devId hen.2
    | diskMmap id startSector sectorCount => exact h.diskMmap henv id startSector sectorCount

end Scan

/-- In a run whose `disk_mmap` calls all compare an exact sum, every descriptor of
the present list and of every list passed through lies in its parent and in a
device. -/
theorem partitions_contained {env : DiskEnv} (henv : Scan.Fresh env) {s : Scan}
    (hs : (diskMachine env).Reachable s) (hexact : ∀ c ∈ s.calls, c.Exact) :
    (∀ a, s.disks.Listed a → s.disks.Contained a) ∧
      ∀ c ∈ s.calls, ∀ a, c.disks.Listed a → c.disks.Contained a := by
  obtain ⟨⟨l, hinv⟩, hcalls⟩ := Scan.Inv.of_reachable henv hs hexact
  refine ⟨fun a ha => hinv.contained ha, fun c hc a ha => ?_⟩
  obtain ⟨m, hm⟩ := hcalls c hc
  exact hm.contained ha

def noDisks : Scan where
  disks :=
    { mem := fun _ => ⟨0, .diskAta, 0, 0, 0, ⟨.fsRaw, 0⟩, 0, 0, 0, 0, 0⟩
      newId := 0
      header := 0
      pos := 0 }
  calls := []

/-- A machine with memory for two descriptors, whose reads are answered by
`content`. -/
def twoDisks (content : ℕ → Option Bytes) : DiskEnv where
  ataRead := fun _ r => content r.offect
  kmalloc := fun s =>
    if s.disks.header = 0 then 0x1000
    else if s.disks.header = 0x1000 ∧ (s.disks.mem 0x1000).next = 0 then 0x2000
    else 0
  diskFsInit := fun _ _ => ⟨.fsRaw, 0⟩

theorem fresh_twoDisks (content : ℕ → Option Bytes) : Scan.Fresh (twoDisks content) := by
  intro s
  change ite _ _ _ = 0 ∨ ¬ s.disks.Listed (ite _ _ _)
  by_cases hheader : s.disks.header = 0
  · rw [if_pos hheader]
    refine .inr fun ha => ?_
    have hnone : ∀ a, ¬ s.disks.Listed a := by
      intro a ha
      induction ha with
      | start h => exact h hheader
      | next _ _ ih => exact ih
    exact hnone _ ha
  · rw [if_neg hheader]
    by_cases hone : s.disks.header = 0x1000 ∧ (s.disks.mem 0x1000).next = 0
    · rw [if_pos hone]
      refine .inr fun ha => ?_
      have hfirst := ha.eq_start (by rw [hone.1]; exact hone.2)
      rw [hone.1] at hfirst
      exact absurd hfirst (by decide)
    · exact .inl (if_neg hone)

theorem reachable_diskCreate (env : DiskEnv) (depth : ℕ) :
    (diskMachine env).Reachable (noDisks.exec env (.diskCreate depth .diskAta 0 100)) :=
  .step (.init ⟨rfl, rfl, rfl, rfl⟩) (a := .diskCreate depth .diskAta 0 100)
    ⟨⟨by decide, by decide⟩, rfl⟩

/-- A disk of a hundred sectors that cannot be read, and a part of it. -/
theorem partitions_contained_one_part :
    let env := twoDisks fun _ => none
    let s := noDisks.exec env (.diskCreate 1 .diskAta 0 100)
    let t := s.exec env (.diskMmap 0 10 20)
    ∀ a, t.disks.Listed a → t.disks.Contained a := by
  intro env s t
  have hreach : (diskMachine env).Reachable t :=
    .step (reachable_diskCreate env 1) (a := .diskMmap 0 10 20) ⟨⟨by decide, by decide, by decide⟩, rfl⟩
  have hnone : s.calls.length = 0 := by with_unfolding_all decide
  have hexact : ∀ c ∈ t.calls, c.Exact := by
    intro c hc
    have ht : t = (s.diskMmap env 0 10 20).2 := Scan.exec_diskMmap env s 0 10 20
    rw [ht, Scan.diskMmap_calls, List.length_eq_zero_iff.1 hnone, List.mem_singleton] at hc
    rw [hc, Scan.mmapCall]
    exact .inl (by decide)
  exact (partitions_contained (fresh_twoDisks fun _ => none) hreach hexact).1

/-- A boot sector with one GPT entry, a GPT header with one partition, and a
partition whose first sector is 60 and whose last sector is 9. -/
def wrappedTable (offect : ℕ) : Option Bytes :=
  if offect = 0x1be then
    some fun k => if k = 4 then 0xee else if k = 64 then 0x55 else if k = 65 then 0xaa else 0
  else if offect = 512 then
    some fun k =>
      if k < 8 then [0x45, 0x46, 0x49, 0x20, 0x50, 0x41, 0x52, 0x54].getD k 0
      else if k = 72 then 2 else if k = 80 then 1 else if k = 84 then 128 else 0
  else if offect = 1024 then
    some fun k => if k = 32 then 60 else if k = 40 then 9 else 0
  else
    none

/-- On a disk of a hundred sectors that partition passes the check and gets almost
`2 ^ 64` sectors. -/
theorem partition_not_contained :
    let env := twoDisks wrappedTable
    let t := noDisks.exec env (.diskCreate 1 .diskAta 0 100)
    Scan.Fresh env ∧ (diskMachine env).Reachable t ∧ t.disks.Listed 0x2000 ∧
      ¬ t.disks.Contained 0x2000 := by
  intro env t
  have hheader : t.disks.header = 0x1000 := by with_unfolding_all decide
  have hnext : (t.disks.mem 0x1000).next = 0x2000 := by with_unfolding_all decide
  have hpart : (t.disks.mem 0x2000).pdisk = 0x1000 ∧ (t.disks.mem 0x1000).sectorCount = 100 ∧
      (t.disks.mem 0x1000).startSector = 0 ∧
        (t.disks.mem 0x2000).sectorCount = 2 ^ 64 - 50 := by with_unfolding_all decide
  obtain ⟨hpdisk, hcount, hstart, hwrapped⟩ := hpart
  refine ⟨fresh_twoDisks _, reachable_diskCreate env 1, ?_, fun hcon => ?_⟩
  · have hfirst : t.disks.Listed 0x1000 := by
      have hlisted : t.disks.Listed t.disks.header := .start (by rw [hheader]; decide)
      rwa [hheader] at hlisted
    have hlisted : t.disks.Listed (t.disks.mem 0x1000).next := .next hfirst (by rw [hnext]; decide)
    rwa [hnext] at hlisted
  · have hparent := hcon.parent (by rw [hpdisk]; decide)
    rw [hpdisk, hcount, hstart, hwrapped] at hparent
    omega

end BitchKernel
