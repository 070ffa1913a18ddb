import BitchKernel.Dev.PartSafety

/-!
# The sector ranges that a scan registers

What a scan registers is a function of what the device holds: the table in a range names
ranges inside it, and an extended partition is scanned like a disk. The scan of the kernel
enters a descriptor for each of these ranges, in the same order, as long as `kmalloc` does not
fail and no identifier is used twice.
-/

namespace BitchKernel

open Lib

/-- A range of sectors of a device. -/
structure Region where
  devId : ℕ
  startSector : ℕ
  sectorCount : ℕ
deriving DecidableEq

def Disk.region (disk : Disk) : Region := ⟨disk.devId, disk.startSector, disk.sectorCount⟩

namespace Region

/-- The request that a read of a range makes of the driver. -/
def request (r : Region) (count offect : ℕ) : AtaRequest where
  n := r.devId % 2 ^ 8
  count :=
    if mul64 r.sectorCount ataSectorSize < add64 count offect then
      sub64 (mul64 r.sectorCount ataSectorSize) offect % 2 ^ 32
    else
      count
  offect := add64 (mul64 r.startSector ataSectorSize) offect

/-- A part of a range, unless it is rejected. -/
def part (r : Region) (startSector sectorCount : ℕ) : Option Region :=
  if r.sectorCount < add64 startSector sectorCount then none
  else some ⟨r.devId, add64 r.startSector startSector, sectorCount⟩

end Region

section Content

variable (content : AtaRequest → Option Bytes)

def gptEntryRegions (r : Region) (header : GptHeader) (i : ℕ) : List Region :=
  match content (r.request sizeofGptEntry
      (add64 (mul64 ataSectorSize header.startPartEntriesLba) (mul32 i header.partEntrySize))) with
  | none => []
  | some buf =>
      if (gptEntryOf buf).firstLba ≠ 0 then
        (r.part (gptEntryOf buf).firstLba (gptEntryOf buf).sectorNum).toList
      else
        []

def gptRegions (r : Region) : List Region :=
  match content (r.request sizeofGptHeader ataSectorSize) with
  | none => []
  | some buf =>
      if (gptHeaderOf buf).sign = 0x5452415020494645 then
        (List.range (gptHeaderOf buf).partEntriesNum).flatMap
          (gptEntryRegions content r (gptHeaderOf buf))
      else
        []

/-- The ranges that an entry of a boot record registers, and whether the scan comes behind it;
`sub` is the scan of the range of an extended partition. -/
def mbrEntryRegions (sub : Option Region → Bool × List Region) (r : Region) (mbr : Bytes)
    (i : ℕ) : Bool × List Region :=
  let part := mbrPartOf mbr i
  let child := r.part part.firstSectorLba part.sectorNum
  if part.partType = typeExt then ((sub child).1, child.toList ++ (sub child).2)
  else if part.partType = typeGpt then (true, gptRegions content r)
  else if part.partType ≠ typeEmpty then (true, child.toList)
  else (true, [])

/-- The ranges that the scan of a range registers, down to some depth, and whether it ends within
it. Where there is no range nothing is read. -/
def mbrRegions : (depth : ℕ) → Option Region → Bool × List Region
  | 0, _ => (false, [])
  | _ + 1, none => (true, [])
  | depth + 1, some r =>
      match content (r.request sizeofMbr 0x1be) with
      | none => (true, [])
      | some mbr =>
          if mbrSign mbr = 0xaa55 then
            ([0, 1, 2, 3].all fun i => (mbrEntryRegions content (mbrRegions depth) r mbr i).1,
              [0, 1, 2, 3].flatMap fun i =>
                (mbrEntryRegions content (mbrRegions depth) r mbr i).2)
          else
            (true, [])

end Content

/-! ## The scan, with the end of its recursion -/

namespace Scan

variable (env : DiskEnv)

/-- `mbrPartStep` with a recursive call that may not come to its end. -/
def mbrStepEnds (mbrPart : Scan → ℕ → Option (ℕ × Scan)) (id : ℕ) (mbr : Bytes) (r : ℕ × Scan)
    (i : ℕ) : Option (ℕ × Scan) :=
  let part := mbrPartOf mbr i
  if part.partType = typeExt then
    let disk := r.2.diskMmap env id part.firstSectorLba part.sectorNum
    (mbrPart disk.2 disk.1).map fun sub => (add32 (add32 r.1 sub.1) 1, sub.2)
  else
    some (mbrPartStep env (fun s _ => (0, s)) id mbr r i)

/-- `mbr_part`, with `none` where the recursion goes deeper than `depth`. -/
def mbrPartEnds : (depth : ℕ) → Scan → (id : ℕ) → Option (ℕ × Scan)
  | 0, _, _ => none
  | depth + 1, s, id =>
      match s.diskRead env id sizeofMbr 0x1be with
      | none => some (0, s)
      | some mbr =>
          if mbrSign mbr = 0xaa55 then
            [0, 1, 2, 3].foldlM (mbrStepEnds env (mbrPartEnds depth) id mbr) (0, s)
          else
            some (0, s)

variable {env}

theorem mbrStepEnds_eq {ends : Scan → ℕ → Option (ℕ × Scan)} {rec : Scan → ℕ → ℕ × Scan}
    (hrec : ∀ s id r, ends s id = some r → rec s id = r) {id i : ℕ} {mbr : Bytes}
    {r r' : ℕ × Scan} (h : mbrStepEnds env ends id mbr r i = some r') :
    mbrPartStep env rec id mbr r i = r' := by
  unfold mbrStepEnds at h
  dsimp only at h
  unfold mbrPartStep
  dsimp only
  split
  · rename_i hext
    rw [if_pos hext] at h
    obtain ⟨sub, hsub, hr⟩ := Option.map_eq_some_iff.1 h
    rw [hrec _ _ _ hsub]
    exact hr
  · rename_i hext
    rw [if_neg hext] at h
    unfold mbrPartStep at h
    dsimp only at h
    rw [if_neg hext] at h
    exact Option.some.inj h

theorem mbrPartEnds_eq {depth : ℕ} {s : Scan} {id : ℕ} {r : ℕ × Scan}
    (h : mbrPartEnds env depth s id = some r) : mbrPart env depth s id = r := by
  induction depth generalizing s id r with
  | zero => cases h
  | succ depth ih =>
      rw [mbrPartEnds] at h
      rw [mbrPart]
      cases hread : s.diskRead env id sizeofMbr 0x1be with
      | none =>
          rw [hread] at h
          exact Option.some.inj h
      | some mbr =>
          rw [hread] at h
          dsimp only at h ⊢
          split
          · rename_i hsign
            rw [if_pos hsign] at h
            have hfold : ∀ (is : List ℕ) (t r : ℕ × Scan),
                is.foldlM (mbrStepEnds env (mbrPartEnds env depth) id mbr) t = some r →
                is.foldl (mbrPartStep env (mbrPart env depth) id mbr) t = r := by
              intro is
              induction is with
              | nil =>
                  intro t r ht
                  exact Option.some.inj ht
              | cons i is ihis =>
                  intro t r ht
                  rw [List.foldlM_cons] at ht
                  obtain ⟨t', ht', hrest⟩ := Option.bind_eq_some_iff.1 ht
                  rw [List.foldl_cons, mbrStepEnds_eq (fun s id r hr => ih hr) ht']
                  exact ihis t' r hrest
            exact hfold _ _ _ h
          · rename_i hsign
            rw [if_neg hsign] at h
            exact Option.some.inj h

end Scan

/-! ## Disk lists in which every identifier names one descriptor -/

namespace Disks

/-- The list of descriptors is `l`, and each has an identifier of its own. -/
structure Ids (s : Disks) (l : List ℕ) : Prop extends Chain s l where
  inj : ∀ a ∈ l, ∀ b ∈ l, (s.mem a).id = (s.mem b).id → a = b
  lt : ∀ a ∈ l, (s.mem a).id < s.newId
  length_le : l.length ≤ s.newId
  newId_lt : s.newId < 2 ^ 32

theorem Chain.unique {s : Disks} {l l' : List ℕ} (h : s.Chain l) (h' : s.Chain l') : l = l' :=
  h.list.seg.unique h.list.null_notMem h'.list.seg h'.list.null_notMem
    (h.header_eq.symm.trans h'.header_eq)

/-- Descriptors for some ranges were put behind the others. -/
structure Grows (s : Disks) (l : List ℕ) (s' : Disks) (l' : List ℕ) (rs : List Region) : Prop where
  ids : Ids s' (l ++ l')
  regions : l'.map (fun a => (s'.mem a).region) = rs
  same : ∀ a ∈ l, (s'.mem a).region = (s.mem a).region ∧ (s'.mem a).id = (s.mem a).id
  newId_eq : s'.newId = s.newId + rs.length

/-- What `id` stands for: a descriptor of the list with this range, or a call that failed. -/
def Names (s : Disks) (l : List ℕ) (id : ℕ) : Option Region → Prop
  | none => id = minusOne
  | some r => ∃ a ∈ l, (s.mem a).id = id ∧ (s.mem a).region = r

variable {s s₁ s₂ : Disks} {l l₁ l₂ : List ℕ} {rs₁ rs₂ : List Region} {a : ℕ}

theorem Names.append {id : ℕ} {child : Option Region} (h : s.Names l₂ id child) (l₁ : List ℕ) :
    s.Names (l₁ ++ l₂) id child := by
  cases child with
  | none => exact h
  | some r =>
      obtain ⟨a, ha, hid, hregion⟩ := h
      exact ⟨a, List.mem_append_right l₁ ha, hid, hregion⟩

theorem Ids.getDisk_eq (h : s.Ids l) (ha : a ∈ l) : s.getDisk (s.mem a).id = a := by
  have hlen := h.length_le
  have hlt := h.newId_lt
  unfold getDisk
  rw [h.header_eq]
  refine h.list.seg.walk_eq h.list.null_notMem (by omega) ha (decide_eq_true rfl) fun b hb hid => ?_
  exact h.inj b hb a ha (of_decide_eq_true hid)

/-- An identifier that was not given yet names nothing. -/
theorem Ids.getDisk_eq_zero (h : s.Ids l) {id : ℕ} (hid : s.newId ≤ id) : s.getDisk id = 0 := by
  by_contra hne
  unfold getDisk at hne
  rw [h.header_eq] at hne
  obtain ⟨hmem, hp⟩ := h.list.seg.walk_mem hne
  have hlt := h.lt _ hmem
  rw [of_decide_eq_true hp] at hlt
  omega

theorem Grows.refl (h : s.Ids l) : Grows s l s [] [] :=
  ⟨by rwa [List.append_nil], rfl, fun _ _ => ⟨rfl, rfl⟩, rfl⟩

theorem Grows.trans (h₁ : Grows s l s₁ l₁ rs₁) (h₂ : Grows s₁ (l ++ l₁) s₂ l₂ rs₂) :
    Grows s l s₂ (l₁ ++ l₂) (rs₁ ++ rs₂) := by
  refine ⟨by rw [← List.append_assoc]; exact h₂.ids, ?_, fun a ha => ?_, ?_⟩
  · rw [List.map_append, h₂.regions, ← h₁.regions]
    congr 1
    exact List.map_congr_left fun a ha => (h₂.same a (List.mem_append_right l ha)).1
  · obtain ⟨hregion, hid⟩ := h₂.same a (List.mem_append_left l₁ ha)
    obtain ⟨hregion', hid'⟩ := h₁.same a ha
    exact ⟨hregion.trans hregion', hid.trans hid'⟩
  · rw [h₂.newId_eq, h₁.newId_eq, List.length_append, Nat.add_assoc]

theorem Chain.enterPart (h : s.Chain l) (ha : a ∈ l) {attr : ℕ} (hattr : attr ∉ l)
    (hnull : attr ≠ 0) (startSector sectorCount : ℕ) (fs : Fs) {t : Disks}
    (ht : t = (s.enterPart a attr startSector sectorCount).store attr fun x =>
      { x with fs := fs }) :
    t.Chain (l ++ [attr]) ∧ t.newId = add32 s.newId 1 ∧ (t.mem attr).id = s.newId ∧
      (t.mem attr).region =
        ⟨(s.mem a).devId, add64 (s.mem a).startSector startSector, sectorCount⟩ ∧
      ∀ b ∈ l, (t.mem b).id = (s.mem b).id ∧ (t.mem b).region = (s.mem b).region := by
  subst ht
  have hpos := h.pos_ne hattr hnull
  have hne : a ≠ attr := by
    rintro rfl
    exact hattr ha
  have hmem := enterPart_mem hpos hne startSector sectorCount
  refine ⟨(h.enter (enterPart_entered hpos hne (h.header_ne_zero ha) startSector sectorCount)
    hattr hnull).store_fs attr fs, ?_, ?_, ?_, fun b hb => ?_⟩
  · rw [store_newId]
    unfold Disks.enterPart link
    dsimp only
    split_ifs <;> rfl
  · rw [store_fs_mem, hmem, if_pos rfl]
  · rw [store_fs_mem, hmem, if_pos rfl]
    rfl
  · have hold : b ≠ attr := by
      rintro rfl
      exact hattr hb
    rw [store_fs_mem, hmem, if_neg hold]
    exact ⟨rfl, rfl⟩

theorem Ids.enterPart (h : s.Ids l) (ha : a ∈ l) {attr : ℕ} (hattr : attr ∉ l) (hnull : attr ≠ 0)
    (hnew : s.newId + 1 < 2 ^ 32) (startSector sectorCount : ℕ) (fs : Fs) :
    Grows s l
      ((s.enterPart a attr startSector sectorCount).store attr fun x => { x with fs := fs }) [attr]
      [⟨(s.mem a).devId, add64 (s.mem a).startSector startSector, sectorCount⟩] := by
  obtain ⟨hchain, hnewId, hself, hregion, hold⟩ :=
    h.toChain.enterPart ha hattr hnull startSector sectorCount fs rfl
  rw [add32_of_lt (by omega)] at hnewId
  have hmem : ∀ b ∈ l ++ [attr], b ∈ l ∨ b = attr := by
    intro b hb
    rwa [List.mem_append, List.mem_singleton] at hb
  refine ⟨⟨hchain, fun b hb c hc heq => ?_, fun b hb => ?_, ?_, by omega⟩, ?_,
    fun b hb => ⟨(hold b hb).2, (hold b hb).1⟩, ?_⟩
  · rcases hmem b hb with hb' | rfl
    · rw [(hold b hb').1] at heq
      rcases hmem c hc with hc' | rfl
      · rw [(hold c hc').1] at heq
        exact h.inj b hb' c hc' heq
      · rw [hself] at heq
        exact absurd heq (Nat.ne_of_lt (h.lt b hb'))
    · rw [hself] at heq
      rcases hmem c hc with hc' | rfl
      · rw [(hold c hc').1] at heq
        exact absurd heq.symm (Nat.ne_of_lt (h.lt c hc'))
      · rfl
  · rw [hnewId]
    rcases hmem b hb with hb' | rfl
    · rw [(hold b hb').1]
      exact Nat.lt_succ_of_lt (h.lt b hb')
    · rw [hself]
      exact Nat.lt_succ_self _
  · rw [hnewId, List.length_append, List.length_singleton]
    exact Nat.succ_le_succ h.length_le
  · rw [List.map_singleton, hregion]
  · rw [hnewId, List.length_singleton]

end Disks

/-! ## The scan registers the ranges of the device -/

/-- A device whose contents do not change, and memory for every descriptor. -/
structure DiskEnv.Steady (env : DiskEnv) (content : AtaRequest → Option Bytes) : Prop where
  read : ∀ s req, env.ataRead s req = content req
  kmalloc : ∀ s l, s.disks.Chain l → env.kmalloc s ≠ 0 ∧ env.kmalloc s ∉ l

namespace Scan

variable {env : DiskEnv} {content : AtaRequest → Option Bytes} {s : Scan} {l : List ℕ} {a : ℕ}

theorem diskRead_eq (henv : env.Steady content) (h : s.disks.Ids l) (ha : a ∈ l)
    (count offect : ℕ) :
    s.diskRead env (s.disks.mem a).id count offect =
      content ((s.disks.mem a).region.request count offect) := by
  unfold diskRead Disks.diskRead Disks.diskIo
  rw [h.getDisk_eq ha, if_neg (h.toChain.ne_zero ha)]
  cases (s.disks.mem a).devType with
  | diskAta =>
      dsimp only
      rw [henv.read]
      rfl

theorem diskRead_eq_none (h : s.disks.Ids l) {id : ℕ} (hid : s.disks.newId ≤ id)
    (count offect : ℕ) : s.diskRead env id count offect = none := by
  unfold diskRead Disks.diskRead Disks.diskIo
  rw [h.getDisk_eq_zero hid, if_pos rfl]

theorem sectorSize_eq (h : s.disks.Ids l) (ha : a ∈ l) :
    s.sectorSize (s.disks.mem a).id = ataSectorSize := by
  unfold sectorSize Disks.getDiskSectorSize
  rw [h.getDisk_eq ha, if_neg (h.toChain.ne_zero ha)]
  cases (s.disks.mem a).devType with
  | diskAta => rfl

theorem diskMmap_eq (env : DiskEnv) {s : Scan} {id : ℕ} (hid : s.disks.getDisk id ≠ 0)
    (startSector sectorCount : ℕ)
    (hrange : ¬ (s.disks.mem (s.disks.getDisk id)).sectorCount < add64 startSector sectorCount)
    (hnull : env.kmalloc s ≠ 0) :
    ∃ fs, ∀ s' : Scan,
      s' = ⟨(s.disks.enterPart (s.disks.getDisk id) (env.kmalloc s) startSector sectorCount).store
          (env.kmalloc s) fun x => { x with fs := fs },
        ⟨s.disks, env.kmalloc s, id, startSector, sectorCount⟩ :: s.calls⟩ →
      s.diskMmap env id startSector sectorCount = ((s'.disks.mem (env.kmalloc s)).id, s') := by
  unfold Scan.diskMmap
  dsimp only
  rw [if_neg hid, if_neg hrange, if_neg hnull]
  refine ⟨env.diskFsInit
    ⟨s.disks.enterPart (s.disks.getDisk id) (env.kmalloc s) startSector sectorCount,
      ⟨s.disks, env.kmalloc s, id, startSector, sectorCount⟩ :: s.calls⟩
    ((s.disks.enterPart (s.disks.getDisk id) (env.kmalloc s) startSector sectorCount).mem
      (env.kmalloc s)).id, ?_⟩
  rintro s' rfl
  rfl

theorem diskMmap_grows (henv : env.Steady content) (h : s.disks.Ids l) (ha : a ∈ l)
    {startSector sectorCount : ℕ} {child : Option Region}
    (hchild : (s.disks.mem a).region.part startSector sectorCount = child)
    (hnew : s.disks.newId + child.toList.length < 2 ^ 32) :
    ∃ l', Disks.Grows s.disks l
        (s.diskMmap env (s.disks.mem a).id startSector sectorCount).2.disks l' child.toList ∧
      (s.diskMmap env (s.disks.mem a).id startSector sectorCount).2.disks.Names l'
        (s.diskMmap env (s.disks.mem a).id startSector sectorCount).1 child := by
  obtain ⟨hnull, hattr⟩ := henv.kmalloc s l h.toChain
  have hget := h.getDisk_eq ha
  unfold Region.part at hchild
  by_cases hrange : (s.disks.mem a).sectorCount < add64 startSector sectorCount
  · rw [if_pos (show (s.disks.mem a).region.sectorCount < _ from hrange)] at hchild
    subst hchild
    have hmmap : s.diskMmap env (s.disks.mem a).id startSector sectorCount = (minusOne,
        { s with calls := ⟨s.disks, env.kmalloc s, (s.disks.mem a).id, startSector, sectorCount⟩ ::
          s.calls }) := by
      unfold Scan.diskMmap
      dsimp only
      rw [hget, if_neg (h.toChain.ne_zero ha), if_pos hrange]
    rw [hmmap]
    exact ⟨[], Disks.Grows.refl h, rfl⟩
  · rw [if_neg (show ¬ (s.disks.mem a).region.sectorCount < _ from hrange)] at hchild
    subst hchild
    have hid : s.disks.getDisk (s.disks.mem a).id ≠ 0 := by
      rw [hget]
      exact h.toChain.ne_zero ha
    obtain ⟨fs, hmmap⟩ := diskMmap_eq env hid startSector sectorCount
      (by rw [hget]; exact hrange) hnull
    rw [hget] at hmmap
    have hgrows := h.enterPart ha hattr hnull hnew startSector sectorCount fs
    rw [hmmap _ rfl]
    refine ⟨[env.kmalloc s], hgrows, env.kmalloc s, List.mem_singleton_self _, rfl, ?_⟩
    have hregion := hgrows.regions
    rw [List.map_singleton, List.cons.injEq] at hregion
    exact hregion.1

/-- The list has come to `count` descriptors, and the identifiers went on from 0 behind the last
of them, if that was passed. -/
def Crowded (count : ℕ) (s : Scan) : Prop :=
  ∃ l, s.disks.Chain l ∧ count ≤ l.length ∧ (s.disks.newId + count) % 2 ^ 32 = l.length % 2 ^ 32

/-- `disk_mmap` puts a descriptor behind the others, or leaves the list as it is. -/
theorem diskMmap_disks (env : DiskEnv) (s : Scan) (id startSector sectorCount : ℕ) :
    (s.diskMmap env id startSector sectorCount).2.disks = s.disks ∨
      s.disks.getDisk id ≠ 0 ∧ ∃ fs, (s.diskMmap env id startSector sectorCount).2.disks =
        (s.disks.enterPart (s.disks.getDisk id) (env.kmalloc s) startSector sectorCount).store
          (env.kmalloc s) fun x => { x with fs := fs } := by
  unfold diskMmap
  dsimp only
  split_ifs with hid _ _
  · exact .inl rfl
  · exact .inl rfl
  · exact .inl rfl
  · exact .inr ⟨hid, _, rfl⟩

theorem Crowded.diskMmap (henv : env.Steady content) {count : ℕ} (h : s.Crowded count)
    (id startSector sectorCount : ℕ) :
    (s.diskMmap env id startSector sectorCount).2.Crowded count := by
  obtain ⟨l, hchain, hlen, hnew⟩ := h
  rcases diskMmap_disks env s id startSector sectorCount with hsame | ⟨hid, fs, henter⟩
  · exact ⟨l, by rwa [hsame], hlen, by rwa [hsame]⟩
  · obtain ⟨hnull, hattr⟩ := henv.kmalloc s l hchain
    obtain ⟨hchain', hnewId, -⟩ := hchain.enterPart (hchain.getDisk_mem hid) hattr hnull
      startSector sectorCount fs henter
    refine ⟨_, hchain', ?_, ?_⟩
    · rw [List.length_append]
      exact Nat.le_add_right_of_le hlen
    · rw [hnewId, add32_eq, List.length_append, List.length_singleton]
      omega

theorem Crowded.not_ids {count : ℕ} (h : s.Crowded count) (hcount : 0 < count)
    {l : List ℕ} : ¬ s.disks.Ids l := by
  intro hids
  obtain ⟨l', hchain, hlen, hnew⟩ := h
  obtain rfl := hids.toChain.unique hchain
  have hle := hids.length_le
  have hlt := hids.newId_lt
  omega

/-- What a part of a scan makes of the list `l`: the descriptors for `rs` are put behind it, or
the identifiers do not suffice for them and the list gets crowded. -/
inductive Fills (s : Scan) (l : List ℕ) (rs : List Region) (t : Scan) : Prop
  | grows {l' : List ℕ} (h : Disks.Grows s.disks l t.disks l' rs)
  | crowded (h : 2 ^ 32 ≤ s.disks.newId + rs.length)
      (h' : t.Crowded (l.length + 2 ^ 32 - s.disks.newId))

namespace Fills

variable {t u : Scan} {rs rs' : List Region}

theorem refl (h : s.disks.Ids l) : s.Fills l [] s := .grows (Disks.Grows.refl h)

/-- The second part starts from what the first leaves, or keeps the list crowded. -/
theorem trans (hfirst : s.Fills l rs t)
    (hsecond : ∀ l', Disks.Grows s.disks l t.disks l' rs → t.Fills (l ++ l') rs' u)
    (hkeep : ∀ count, t.Crowded count → u.Crowded count) : s.Fills l (rs ++ rs') u := by
  rcases hfirst with ⟨hgrows⟩ | ⟨hroom, hcrowded⟩
  · rcases hsecond _ hgrows with ⟨hgrows'⟩ | ⟨hroom, hcrowded⟩
    · exact .grows (hgrows.trans hgrows')
    · have hlen : _ = rs.length := (List.length_map _).symm.trans (congrArg List.length hgrows.regions)
      rw [hgrows.newId_eq] at hroom hcrowded
      rw [List.length_append, hlen] at hcrowded
      refine .crowded (by rw [List.length_append]; omega) ?_
      rwa [show l.length + rs.length + 2 ^ 32 - (s.disks.newId + rs.length) =
        l.length + 2 ^ 32 - s.disks.newId by omega] at hcrowded
  · exact .crowded (by rw [List.length_append]; omega) (hkeep _ hcrowded)

/-- Where every identifier still names one descriptor, the identifiers sufficed. -/
theorem grows_of_ids (h : s.disks.Ids l) (hfills : s.Fills l rs t) {l' : List ℕ}
    (hids : t.disks.Ids l') : ∃ l', Disks.Grows s.disks l t.disks l' rs := by
  rcases hfills with ⟨hgrows⟩ | ⟨-, hcrowded⟩
  · exact ⟨_, hgrows⟩
  · have hlt := h.newId_lt
    exact absurd hids (hcrowded.not_ids (by omega))

/-- Where there are identifiers enough the descriptors are put behind the others. -/
theorem grows_of_room (hfills : s.Fills l rs t) (hroom : s.disks.newId + rs.length < 2 ^ 32) :
    ∃ l', Disks.Grows s.disks l t.disks l' rs := by
  rcases hfills with ⟨hgrows⟩ | ⟨hfull, -⟩
  · exact ⟨_, hgrows⟩
  · omega

end Fills

/-- An entry that is not rejected, with the last identifier given. -/
theorem diskMmap_fills (henv : env.Steady content) (h : s.disks.Ids l) (ha : a ∈ l)
    {startSector sectorCount : ℕ} {child : Option Region}
    (hchild : (s.disks.mem a).region.part startSector sectorCount = child) :
    s.Fills l child.toList (s.diskMmap env (s.disks.mem a).id startSector sectorCount).2 := by
  by_cases hnew : s.disks.newId + child.toList.length < 2 ^ 32
  · obtain ⟨l', hgrows, -⟩ := diskMmap_grows henv h ha hchild hnew
    exact .grows hgrows
  · have hlt := h.newId_lt
    obtain ⟨r, rfl⟩ : ∃ r, child = some r := by
      refine Option.ne_none_iff_exists'.1 ?_
      rintro rfl
      exact hnew hlt
    obtain ⟨hnull, hattr⟩ := henv.kmalloc s l h.toChain
    have hid : s.disks.getDisk (s.disks.mem a).id ≠ 0 := by
      rw [h.getDisk_eq ha]
      exact h.toChain.ne_zero ha
    have hrange : ¬ (s.disks.mem a).sectorCount < add64 startSector sectorCount := by
      intro hrange
      unfold Region.part at hchild
      rw [if_pos (show (s.disks.mem a).region.sectorCount < _ from hrange)] at hchild
      cases hchild
    obtain ⟨fs, hmmap⟩ := diskMmap_eq env hid startSector sectorCount
      (by rw [h.getDisk_eq ha]; exact hrange) hnull
    obtain ⟨hchain, hnewId, -⟩ := h.toChain.enterPart (h.toChain.getDisk_mem hid) hattr hnull
      startSector sectorCount fs rfl
    have hone : s.disks.newId + 1 = 2 ^ 32 := by
      have : s.disks.newId + 1 ≥ 2 ^ 32 := Nat.le_of_not_lt hnew
      omega
    refine .crowded (Nat.le_of_not_lt hnew) ?_
    rw [hmmap _ rfl]
    refine ⟨_, hchain, ?_, ?_⟩
    · rw [List.length_append, List.length_singleton]
      omega
    · rw [hnewId, add32_eq, List.length_append, List.length_singleton]
      omega

theorem gptPartStep_fills (henv : env.Steady content) (h : s.disks.Ids l) (ha : a ∈ l)
    (header : GptHeader) (i n : ℕ) :
    s.Fills l (gptEntryRegions content (s.disks.mem a).region header i)
      (gptPartStep env (s.disks.mem a).id header i (n, s)).2 := by
  unfold gptPartStep gptEntryRegions
  dsimp only
  rw [sectorSize_eq h ha, diskRead_eq henv h ha]
  cases hread : content ((s.disks.mem a).region.request sizeofGptEntry
      (add64 (mul64 ataSectorSize header.startPartEntriesLba) (mul32 i header.partEntrySize))) with
  | none => exact .refl h
  | some buf =>
      dsimp only
      by_cases hfirst : (gptEntryOf buf).firstLba ≠ 0
      · rw [if_pos hfirst, if_pos hfirst]
        exact diskMmap_fills henv h ha rfl
      · rw [if_neg hfirst, if_neg hfirst]
        exact .refl h

theorem gptPartLoop_fills (henv : env.Steady content) (h : s.disks.Ids l) (ha : a ∈ l)
    (header : GptHeader) (count n : ℕ) :
    s.Fills l ((List.range count).flatMap (gptEntryRegions content (s.disks.mem a).region header))
      (gptPartLoop env (s.disks.mem a).id header count (n, s)).2 := by
  induction count with
  | zero => exact .refl h
  | succ count ih =>
      rw [List.range_succ, List.flatMap_append, List.flatMap_singleton]
      obtain ⟨m, t, hloop⟩ : ∃ m t, gptPartLoop env (s.disks.mem a).id header count (n, s) = (m, t) :=
        ⟨_, _, rfl⟩
      rw [gptPartLoop, hloop]
      rw [hloop] at ih
      refine ih.trans (fun l₁ hgrows => ?_) fun k hk =>
        gptPartStep_keeps (fun _ id _ _ hs => hs.diskMmap henv id _ _) hk _ header count
      obtain ⟨hregion, hid⟩ := hgrows.same a ha
      have hstep := gptPartStep_fills (s := t) henv hgrows.ids (List.mem_append_left l₁ ha) header
        count m
      rwa [hregion, hid] at hstep

theorem gptPart_fills (henv : env.Steady content) (h : s.disks.Ids l) (ha : a ∈ l) :
    s.Fills l (gptRegions content (s.disks.mem a).region)
      (s.gptPart env (s.disks.mem a).id).2 := by
  unfold gptPart gptRegions
  rw [sectorSize_eq h ha, diskRead_eq henv h ha]
  cases hread : content ((s.disks.mem a).region.request sizeofGptHeader ataSectorSize) with
  | none => exact .refl h
  | some buf =>
      dsimp only
      by_cases hsign : (gptHeaderOf buf).sign = 0x5452415020494645
      · rw [if_pos hsign, if_pos hsign]
        exact gptPartLoop_fills henv h ha (gptHeaderOf buf) _ 0
      · rw [if_neg hsign, if_neg hsign]
        exact .refl h

/-- `sub` says what a scan registers and, where there are identifiers enough, whether it comes
back. -/
structure Registers (s : Scan) (l : List ℕ) (sub : Bool × List Region)
    (ends : Option (ℕ × Scan)) : Prop where
  fills : ∀ n t, ends = some (n, t) → s.Fills l sub.2 t
  ends : s.disks.newId + sub.2.length < 2 ^ 32 → (ends.isSome ↔ sub.1 = true)

namespace Registers

variable {sub : Bool × List Region} {ends : Option (ℕ × Scan)}

theorem of_fills {rs : List Region} {r : ℕ × Scan} (h : s.Fills l rs r.2) :
    Registers s l (true, rs) (some r) :=
  ⟨fun n t heq => by rw [Option.some.inj heq] at h; exact h, fun _ => ⟨fun _ => rfl, fun _ => rfl⟩⟩

theorem map (h : Registers s l sub ends) (f : ℕ → ℕ) :
    Registers s l sub (ends.map fun r => (f r.1, r.2)) := by
  refine ⟨fun n t heq => ?_, fun hroom => ?_⟩
  · obtain ⟨⟨m, u⟩, rfl, hpair⟩ := Option.map_eq_some_iff.1 heq
    obtain ⟨-, rfl⟩ := Prod.mk.inj hpair
    exact h.fills m u rfl
  · rw [Option.isSome_map]
    exact h.ends hroom

theorem bind (hfirst : Registers s l sub ends) (sub' : Bool × List Region)
    (next : ℕ × Scan → Option (ℕ × Scan))
    (hnext : ∀ n t l', ends = some (n, t) → Disks.Grows s.disks l t.disks l' sub.2 →
      Registers t (l ++ l') sub' (next (n, t)))
    (hkeep : ∀ count n t r, next (n, t) = some r → t.Crowded count → r.2.Crowded count) :
    Registers s l (sub.1 && sub'.1, sub.2 ++ sub'.2) (ends.bind next) := by
  refine ⟨fun n u heq => ?_, fun hroom => ?_⟩
  · obtain ⟨⟨m, t⟩, rfl, hu⟩ := Option.bind_eq_some_iff.1 heq
    exact (hfirst.fills m t rfl).trans (fun l' hgrows => (hnext m t l' rfl hgrows).fills n u hu)
      fun count => hkeep count m t _ hu
  · dsimp only at hroom
    rw [List.length_append] at hroom
    have hends := hfirst.ends (by omega)
    cases hr : ends with
    | none =>
        rw [hr] at hends
        have hfalse : sub.1 = false := Bool.eq_false_iff.2 fun htrue => by cases hends.2 htrue
        rw [hfalse]
        simp
    | some r =>
        obtain ⟨m, t⟩ := r
        rw [hr] at hends
        obtain ⟨l', hgrows⟩ := (hfirst.fills m t hr).grows_of_room (by omega)
        rw [hends.1 rfl, Bool.true_and, Option.bind_some]
        exact (hnext m t l' hr hgrows).ends (by rw [hgrows.newId_eq]; omega)

end Registers

/-- What the scan of an identifier does to a list in which it names `child`. -/
structure Scans (ends : Scan → ℕ → Option (ℕ × Scan)) (sub : Option Region → Bool × List Region) :
    Prop where
  keeps : ∀ count s id r, ends s id = some r → s.Crowded count → r.2.Crowded count
  registers : ∀ (s : Scan) (l : List ℕ), s.disks.Ids l → ∀ id child, s.disks.Names l id child →
    Registers s l (sub child) (ends s id)

theorem mbrStepEnds_keeps (henv : env.Steady content) {ends : Scan → ℕ → Option (ℕ × Scan)}
    {sub : Option Region → Bool × List Region} (hsub : Scans ends sub) {count id i : ℕ} {mbr : Bytes}
    {r r' : ℕ × Scan} (hstep : mbrStepEnds env ends id mbr r i = some r')
    (h : r.2.Crowded count) : r'.2.Crowded count := by
  unfold mbrStepEnds at hstep
  dsimp only at hstep
  split at hstep
  · obtain ⟨sub, hends, rfl⟩ := Option.map_eq_some_iff.1 hstep
    exact hsub.keeps count _ _ sub hends (h.diskMmap henv id _ _)
  · obtain rfl := Option.some.inj hstep
    exact mbrPartStep_keeps (fun _ id _ _ hs => hs.diskMmap henv id _ _)
      (fun s id hs => hs) h id mbr i

theorem mbrStepEnds_registers (henv : env.Steady content) {ends : Scan → ℕ → Option (ℕ × Scan)}
    {sub : Option Region → Bool × List Region} (hsub : Scans ends sub)
    (h : s.disks.Ids l) (ha : a ∈ l) (mbr : Bytes) (i n : ℕ) :
    Registers s l (mbrEntryRegions content sub (s.disks.mem a).region mbr i)
      (mbrStepEnds env ends (s.disks.mem a).id mbr (n, s) i) := by
  unfold mbrEntryRegions mbrStepEnds
  dsimp only
  by_cases hext : (mbrPartOf mbr i).partType = typeExt
  · rw [if_pos hext, if_pos hext]
    obtain ⟨child, hchild⟩ : ∃ child, (s.disks.mem a).region.part (mbrPartOf mbr i).firstSectorLba
      (mbrPartOf mbr i).sectorNum = child := ⟨_, rfl⟩
    rw [hchild]
    have hfirst := Registers.of_fills (diskMmap_fills henv h ha hchild)
    have hboth := hfirst.bind (sub child) (fun disk => ends disk.2 disk.1)
      (fun id t l' heq hgrows => ?_) fun count id t r hr => hsub.keeps count t id r hr
    · rw [Bool.true_and] at hboth
      exact hboth.map fun m => add32 (add32 n m) 1
    · obtain ⟨l'', hgrows', hnames⟩ := diskMmap_grows henv h ha hchild
        (by rw [← hgrows.newId_eq]; exact hgrows.ids.newId_lt)
      rw [Option.some.inj heq] at hgrows' hnames
      obtain rfl := List.append_cancel_left (hgrows'.ids.toChain.unique hgrows.ids.toChain)
      exact hsub.registers t _ hgrows.ids id child (hnames.append l)
  · rw [if_neg hext, if_neg hext]
    unfold mbrPartStep
    dsimp only
    rw [if_neg hext]
    by_cases hgpt : (mbrPartOf mbr i).partType = typeGpt
    · rw [if_pos hgpt, if_pos hgpt]
      exact .of_fills (gptPart_fills henv h ha)
    · rw [if_neg hgpt, if_neg hgpt]
      by_cases hempty : (mbrPartOf mbr i).partType ≠ typeEmpty
      · rw [if_pos hempty, if_pos hempty]
        exact .of_fills (diskMmap_fills henv h ha rfl)
      · rw [if_neg hempty, if_neg hempty]
        exact .of_fills (.refl h)

theorem mbrEntries_keeps (henv : env.Steady content) {ends : Scan → ℕ → Option (ℕ × Scan)}
    {sub : Option Region → Bool × List Region} (hsub : Scans ends sub) {count id : ℕ} {mbr : Bytes}
    {is : List ℕ} {r r' : ℕ × Scan} (hfold : is.foldlM (mbrStepEnds env ends id mbr) r = some r')
    (h : r.2.Crowded count) : r'.2.Crowded count := by
  induction is generalizing r with
  | nil => rwa [← Option.some.inj hfold]
  | cons i is ih =>
      rw [List.foldlM_cons] at hfold
      obtain ⟨t, hstep, hrest⟩ := Option.bind_eq_some_iff.1 hfold
      exact ih hrest (mbrStepEnds_keeps henv hsub hstep h)

theorem mbrEntries_registers (henv : env.Steady content) {ends : Scan → ℕ → Option (ℕ × Scan)}
    {sub : Option Region → Bool × List Region} (hsub : Scans ends sub)
    (h : s.disks.Ids l) (ha : a ∈ l) (mbr : Bytes) (is : List ℕ) (n : ℕ) :
    Registers s l
      (is.all fun i => (mbrEntryRegions content sub (s.disks.mem a).region mbr i).1,
        is.flatMap fun i => (mbrEntryRegions content sub (s.disks.mem a).region mbr i).2)
      (is.foldlM (mbrStepEnds env ends (s.disks.mem a).id mbr) (n, s)) := by
  induction is generalizing s l n with
  | nil => exact .of_fills (.refl h)
  | cons i is ih =>
      rw [List.foldlM_cons, List.all_cons, List.flatMap_cons]
      refine (mbrStepEnds_registers henv hsub h ha mbr i n).bind
        (is.all _, is.flatMap _) _ (fun m t l' _ hgrows => ?_) fun count m t r hr ht => ?_
      · have hrest := ih hgrows.ids (List.mem_append_left l' ha) m
        obtain ⟨hregion, hid⟩ := hgrows.same a ha
        rwa [hregion, hid] at hrest
      · exact mbrEntries_keeps henv hsub hr ht

/-- The scan enters a descriptor for each range that the device names, in this order. -/
theorem mbrPartEnds_scans (henv : env.Steady content) (depth : ℕ) :
    Scans (mbrPartEnds env depth) (mbrRegions content depth) := by
  induction depth with
  | zero =>
      refine ⟨fun count s id r hr => (by cases hr), fun s l h id child _ => ⟨fun n t ht => (by cases ht), ?_⟩⟩
      exact fun _ => ⟨fun hsome => (by cases hsome), fun htrue => by cases htrue⟩
  | succ depth ih =>
      refine ⟨fun count s id r hr hs => ?_, fun s l h id child hnames => ?_⟩
      · rw [← mbrPartEnds_eq hr]
        exact mbrPart_keeps (fun _ id _ _ hs => hs.diskMmap henv id _ _) hs _ id
      · cases child with
        | none =>
            obtain rfl := hnames
            have hid : s.disks.newId ≤ minusOne := Nat.le_sub_one_of_lt h.newId_lt
            rw [mbrPartEnds, diskRead_eq_none h hid]
            exact .of_fills (.refl h)
        | some r =>
            obtain ⟨a, ha, rfl, rfl⟩ := hnames
            rw [mbrPartEnds, diskRead_eq henv h ha, mbrRegions]
            cases hread : content ((s.disks.mem a).region.request sizeofMbr 0x1be) with
            | none => exact .of_fills (.refl h)
            | some mbr =>
                dsimp only
                by_cases hsign : mbrSign mbr = 0xaa55
                · rw [if_pos hsign, if_pos hsign]
                  exact mbrEntries_registers henv ih h ha mbr [0, 1, 2, 3] 0
                · rw [if_neg hsign, if_neg hsign]
                  exact .of_fills (.refl h)

end Scan

end BitchKernel
