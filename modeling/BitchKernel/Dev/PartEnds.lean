import BitchKernel.Dev.PartRegion

/-!
# The end of the partition scan

A part that `disk_mmap` accepts is not larger than its range, and only a part that starts with
its range and has its size is not smaller. So the scan of a range comes to its end unless an
extended partition that it reaches covers the very range whose record names it; the scan of
that range starts over with each descriptor it enters.
-/

namespace BitchKernel

open Lib

section Content

variable (content : AtaRequest → Option Bytes)

/-- The boot record of `r` names `r'` as an extended partition. -/
def ExtPart (r r' : Region) : Prop :=
  ∃ mbr, content (r.request sizeofMbr 0x1be) = some mbr ∧ mbrSign mbr = 0xaa55 ∧ ∃ i < 4,
    (mbrPartOf mbr i).partType = typeExt ∧
      r.part (mbrPartOf mbr i).firstSectorLba (mbrPartOf mbr i).sectorNum = some r'

/-- A range from which an extended partition is reached that covers its own boot record. -/
inductive Endless : Region → Prop
  | self {r : Region} (h : ExtPart content r r) : Endless r
  | nested {r r' : Region} (h : ExtPart content r r') (h' : Endless r') : Endless r

end Content

variable {content : AtaRequest → Option Bytes} {r r' : Region} {depth : ℕ}

/-- The start and the size of a part that an entry of a boot record names. -/
theorem Region.part_eq_some {mbr : Bytes} {i : ℕ}
    (h : r.part (mbrPartOf mbr i).firstSectorLba (mbrPartOf mbr i).sectorNum = some r') :
    r'.devId = r.devId ∧
      r'.startSector = (r.startSector + (mbrPartOf mbr i).firstSectorLba) % 2 ^ 64 ∧
      r'.sectorCount = (mbrPartOf mbr i).sectorNum ∧
      (mbrPartOf mbr i).firstSectorLba + (mbrPartOf mbr i).sectorNum ≤ r.sectorCount := by
  unfold Region.part at h
  split_ifs at h with hrange
  obtain rfl := Option.some.inj h
  rw [add64_eq, Nat.mod_eq_of_lt (mbrPart_exact mbr i)] at hrange
  exact ⟨rfl, add64_eq _ _, rfl, Nat.le_of_not_lt hrange⟩

theorem ExtPart.lt_or_eq (h : ExtPart content r r') (hstart : r.startSector < 2 ^ 64) :
    r'.startSector < 2 ^ 64 ∧ (r'.sectorCount < r.sectorCount ∨ r' = r) := by
  obtain ⟨mbr, -, -, i, -, -, hpart⟩ := h
  obtain ⟨hdev, hfirst, hcount, hle⟩ := Region.part_eq_some hpart
  refine ⟨by omega, ?_⟩
  by_cases hlt : r'.sectorCount < r.sectorCount
  · exact .inl hlt
  · refine .inr ?_
    have hzero : (mbrPartOf mbr i).firstSectorLba = 0 := by omega
    rw [hzero, Nat.add_zero, Nat.mod_eq_of_lt hstart] at hfirst
    cases r
    cases r'
    simp only [Region.mk.injEq] at *
    exact ⟨hdev, hfirst, by omega⟩

/-! ## The ranges, by depth -/

theorem mbrRegions_signed {mbr : Bytes} (hread : content (r.request sizeofMbr 0x1be) = some mbr)
    (hsign : mbrSign mbr = 0xaa55) (depth : ℕ) :
    mbrRegions content (depth + 1) (some r) =
      ([0, 1, 2, 3].all fun i => (mbrEntryRegions content (mbrRegions content depth) r mbr i).1,
        [0, 1, 2, 3].flatMap fun i =>
          (mbrEntryRegions content (mbrRegions content depth) r mbr i).2) := by
  rw [mbrRegions, hread]
  exact if_pos hsign

theorem mbrRegions_unsigned
    (h : ∀ mbr, content (r.request sizeofMbr 0x1be) = some mbr → mbrSign mbr ≠ 0xaa55)
    (depth : ℕ) : mbrRegions content (depth + 1) (some r) = (true, []) := by
  rw [mbrRegions]
  cases hread : content (r.request sizeofMbr 0x1be) with
  | none => rfl
  | some mbr => exact if_neg (h mbr hread)

theorem mbrEntryRegions_ext {sub : Option Region → Bool × List Region} {mbr : Bytes} {i : ℕ}
    (hext : (mbrPartOf mbr i).partType = typeExt) :
    (mbrEntryRegions content sub r mbr i).1 =
      (sub (r.part (mbrPartOf mbr i).firstSectorLba (mbrPartOf mbr i).sectorNum)).1 := by
  unfold mbrEntryRegions
  dsimp only
  rw [if_pos hext]

theorem mbrEntryRegions_of_ne (sub sub' : Option Region → Bool × List Region) {mbr : Bytes}
    {i : ℕ} (hext : (mbrPartOf mbr i).partType ≠ typeExt) :
    (mbrEntryRegions content sub r mbr i).1 = true ∧
      mbrEntryRegions content sub r mbr i = mbrEntryRegions content sub' r mbr i := by
  unfold mbrEntryRegions
  dsimp only
  rw [if_neg hext, if_neg hext]
  refine ⟨?_, rfl⟩
  split_ifs <;> rfl

theorem mem_range_four {i : ℕ} : i ∈ [0, 1, 2, 3] ↔ i < 4 := by
  simp only [List.mem_cons, List.not_mem_nil, or_false]
  omega

theorem Endless.not_ends (h : Endless content r) (depth : ℕ) :
    (mbrRegions content depth (some r)).1 = false := by
  induction depth generalizing r with
  | zero => rfl
  | succ depth ih =>
      obtain ⟨r', hpart, hr'⟩ : ∃ r', ExtPart content r r' ∧ Endless content r' := by
        cases h with
        | self h => exact ⟨r, h, .self h⟩
        | nested h h' => exact ⟨_, h, h'⟩
      obtain ⟨mbr, hread, hsign, i, hi, hext, hchild⟩ := hpart
      rw [mbrRegions_signed hread hsign]
      refine List.all_eq_false.2 ⟨i, mem_range_four.2 hi, ?_⟩
      rw [mbrEntryRegions_ext hext, hchild, ih hr']
      exact Bool.false_ne_true

/-- From another range the scan comes back, one round deeper than the range has sectors. -/
theorem ends_of_not_endless (hstart : r.startSector < 2 ^ 64) (h : ¬ Endless content r)
    (hdepth : r.sectorCount + 1 < depth) : (mbrRegions content depth (some r)).1 = true := by
  induction depth generalizing r with
  | zero => omega
  | succ depth ih =>
      by_cases hsigned : ∃ mbr, content (r.request sizeofMbr 0x1be) = some mbr ∧
        mbrSign mbr = 0xaa55
      · obtain ⟨mbr, hread, hsign⟩ := hsigned
        rw [mbrRegions_signed hread hsign]
        refine List.all_eq_true.2 fun i hi => ?_
        by_cases hext : (mbrPartOf mbr i).partType = typeExt
        · rw [mbrEntryRegions_ext hext]
          cases hchild : r.part (mbrPartOf mbr i).firstSectorLba (mbrPartOf mbr i).sectorNum with
          | none =>
              obtain ⟨d, rfl⟩ : ∃ d, depth = d + 1 := ⟨depth - 1, by omega⟩
              rfl
          | some r' =>
              have hpart : ExtPart content r r' :=
                ⟨mbr, hread, hsign, i, mem_range_four.1 hi, hext, hchild⟩
              obtain ⟨hstart', hlt | rfl⟩ := hpart.lt_or_eq hstart
              · exact ih hstart' (fun hr' => h (.nested hpart hr')) (by omega)
              · exact absurd (.self hpart) h
        · exact (mbrEntryRegions_of_ne (mbrRegions content depth) (mbrRegions content depth) hext).1
      · rw [mbrRegions_unsigned fun mbr hread hsign => hsigned ⟨mbr, hread, hsign⟩]

/-- A scan that comes back registers the same ranges however deep it may go. -/
theorem mbrRegions_succ {child : Option Region} (h : (mbrRegions content depth child).1 = true) :
    mbrRegions content (depth + 1) child = mbrRegions content depth child := by
  induction depth generalizing child with
  | zero => cases h
  | succ depth ih =>
      cases child with
      | none => rfl
      | some r =>
          by_cases hsigned : ∃ mbr, content (r.request sizeofMbr 0x1be) = some mbr ∧
            mbrSign mbr = 0xaa55
          · obtain ⟨mbr, hread, hsign⟩ := hsigned
            rw [mbrRegions_signed hread hsign] at h ⊢
            rw [mbrRegions_signed hread hsign]
            have hentry : ∀ i ∈ [0, 1, 2, 3],
                mbrEntryRegions content (mbrRegions content (depth + 1)) r mbr i =
                  mbrEntryRegions content (mbrRegions content depth) r mbr i := by
              intro i hi
              have hends := List.all_eq_true.1 h i hi
              by_cases hext : (mbrPartOf mbr i).partType = typeExt
              · rw [mbrEntryRegions_ext hext] at hends
                unfold mbrEntryRegions
                dsimp only
                rw [if_pos hext, if_pos hext, ih hends]
              · exact (mbrEntryRegions_of_ne _ _ hext).2
            rw [Prod.mk.injEq]
            refine ⟨(List.all_eq_true.2 fun i hi => ?_).trans h.symm,
              List.flatMap_congr fun i hi => by rw [hentry i hi]⟩
            rw [hentry i hi]
            exact List.all_eq_true.1 h i hi
          · have hunsigned : ∀ mbr, content (r.request sizeofMbr 0x1be) = some mbr →
                mbrSign mbr ≠ 0xaa55 := fun mbr hread hsign => hsigned ⟨mbr, hread, hsign⟩
            rw [mbrRegions_unsigned hunsigned, mbrRegions_unsigned hunsigned]

theorem mbrRegions_of_le {child : Option Region} (h : (mbrRegions content depth child).1 = true)
    {depth' : ℕ} (hle : depth ≤ depth') :
    mbrRegions content depth' child = mbrRegions content depth child := by
  induction hle with
  | refl => rfl
  | step hle ih => rw [mbrRegions_succ (by rw [ih]; exact h), ih]

/-! ## The scan of the kernel -/

/-- The identifiers that are left suffice for what the scan of a range registers. -/
def Disks.Room (s : Disks) (content : AtaRequest → Option Bytes) (depth : ℕ) (r : Region) : Prop :=
  s.newId + (mbrRegions content depth (some r)).2.length < 2 ^ 32

/-- A scan that came back with an identifier of its own for each descriptor has registered the
ranges that the tables name. -/
theorem Scan.mbrPartEnds_grows {env : DiskEnv} (henv : env.Steady content) {s s' : Scan}
    {l m : List ℕ} (h : s.disks.Ids l) {a n : ℕ} (ha : a ∈ l)
    (hscan : Scan.mbrPartEnds env depth s (s.disks.mem a).id = some (n, s'))
    (hids : s'.disks.Ids m) :
    s.disks.Room content depth (s.disks.mem a).region ∧
      (mbrRegions content depth (some (s.disks.mem a).region)).1 = true ∧
        ∃ l', Disks.Grows s.disks l s'.disks l'
          (mbrRegions content depth (some (s.disks.mem a).region)).2 := by
  have hregisters := (mbrPartEnds_scans henv depth).registers s l h (s.disks.mem a).id
    (some (s.disks.mem a).region) ⟨a, ha, rfl, rfl⟩
  obtain ⟨l', hgrows⟩ := (hregisters.fills n s' hscan).grows_of_ids h hids
  have hroom : s.disks.Room content depth (s.disks.mem a).region := by
    unfold Disks.Room
    rw [← hgrows.newId_eq]
    exact hgrows.ids.newId_lt
  exact ⟨hroom, (hregisters.ends hroom).1 (by rw [hscan]; rfl), l', hgrows⟩

/-- With identifiers enough a scan that ends by its tables comes back. -/
theorem Scan.exists_mbrPartEnds {env : DiskEnv} (henv : env.Steady content) {s : Scan}
    {l : List ℕ} (h : s.disks.Ids l) {a : ℕ} (ha : a ∈ l)
    (hroom : s.disks.Room content depth (s.disks.mem a).region)
    (hends : (mbrRegions content depth (some (s.disks.mem a).region)).1 = true) :
    ∃ n s' l', Scan.mbrPartEnds env depth s (s.disks.mem a).id = some (n, s') ∧
      Disks.Grows s.disks l s'.disks l'
        (mbrRegions content depth (some (s.disks.mem a).region)).2 := by
  have hregisters := (mbrPartEnds_scans henv depth).registers s l h (s.disks.mem a).id
    (some (s.disks.mem a).region) ⟨a, ha, rfl, rfl⟩
  obtain ⟨⟨n, s'⟩, hscan⟩ := Option.isSome_iff_exists.1 ((hregisters.ends hroom).2 hends)
  obtain ⟨l', hgrows⟩ := (hregisters.fills n s' hscan).grows_of_room hroom
  exact ⟨n, s', l', hscan, hgrows⟩

/-- The scan of a disk comes to its end, with an identifier of its own for each descriptor it
enters, exactly when no extended partition that it reaches covers its own boot record, and the
ranges to be registered are not more than the identifiers that are left. -/
theorem partScan_ends_iff {env : DiskEnv} (henv : env.Steady content) {s : Scan} {l : List ℕ}
    (h : s.disks.Ids l) {a : ℕ} (ha : a ∈ l) (hstart : (s.disks.mem a).startSector < 2 ^ 64) :
    (∃ depth n s' l' rs, Scan.mbrPartEnds env depth s (s.disks.mem a).id = some (n, s') ∧
      Disks.Grows s.disks l s'.disks l' rs) ↔
    ¬ Endless content (s.disks.mem a).region ∧
      s.disks.Room content ((s.disks.mem a).sectorCount + 2) (s.disks.mem a).region := by
  have hends : ¬ Endless content (s.disks.mem a).region →
      (mbrRegions content ((s.disks.mem a).sectorCount + 2) (some (s.disks.mem a).region)).1 =
        true := fun hendless => ends_of_not_endless hstart hendless (Nat.lt_succ_self _)
  constructor
  · rintro ⟨depth, n, s', l', rs, hscan, hgrows⟩
    obtain ⟨hroom, hdepth, -⟩ := Scan.mbrPartEnds_grows henv h ha hscan hgrows.ids
    have hendless : ¬ Endless content (s.disks.mem a).region := by
      intro hendless
      rw [hendless.not_ends depth] at hdepth
      cases hdepth
    refine ⟨hendless, ?_⟩
    unfold Disks.Room at hroom ⊢
    rcases Nat.le_total depth ((s.disks.mem a).sectorCount + 2) with hle | hle
    · rwa [mbrRegions_of_le hdepth hle]
    · rwa [mbrRegions_of_le (hends hendless) hle] at hroom
  · rintro ⟨hendless, hroom⟩
    obtain ⟨n, s', l', hscan, hgrows⟩ := Scan.exists_mbrPartEnds henv h ha hroom (hends hendless)
    exact ⟨_, n, s', l', _, hscan, hgrows⟩

/-! ## Nested boot records, and one that covers itself -/

/-- A boot record whose first entry is an extended partition of a hundred sectors that starts at
the record. -/
def selfRecord : Bytes := fun k =>
  if k = 4 then 0x05 else if k = 12 then 100 else if k = 64 then 0x55 else if k = 65 then 0xaa
  else 0

/-- The list of a machine with one device of a hundred sectors. -/
def oneDisk : Scan where
  disks :=
    { mem := fun _ => ⟨0, .diskAta, 0, 0, 100, ⟨.fsRaw, 0⟩, 0, 0, 0, 0, 0⟩
      newId := 1
      header := 0x1000
      pos := 0x1000 }
  calls := []

open Classical in
/-- A machine whose memory does not run out. -/
noncomputable def ampleMemory (content : AtaRequest → Option Bytes) : DiskEnv where
  ataRead := fun _ req => content req
  kmalloc := fun s => if h : ∃ a, a ≠ 0 ∧ ¬ s.disks.Listed a then h.choose else 0
  diskFsInit := fun _ _ => ⟨.fsRaw, 0⟩

theorem ampleMemory_steady (content : AtaRequest → Option Bytes) :
    (ampleMemory content).Steady content := by
  refine ⟨fun _ _ => rfl, fun s l h => ?_⟩
  have hex : ∃ a, a ≠ 0 ∧ ¬ s.disks.Listed a := by
    refine ⟨l.foldr max 0 + 1, Nat.succ_ne_zero _, fun hlisted => ?_⟩
    have hle : ∀ (m : List ℕ), ∀ b ∈ m, b ≤ m.foldr max 0 := by
      intro m
      induction m with
      | nil => simp
      | cons b m ih =>
          intro c hc
          rw [List.foldr_cons]
          rcases List.mem_cons.1 hc with rfl | hc
          · exact Nat.le_max_left _ _
          · exact Nat.le_trans (ih c hc) (Nat.le_max_right _ _)
    have := hle l _ (h.listed_iff.1 hlisted)
    omega
  have hkmalloc : (ampleMemory content).kmalloc s = hex.choose := dif_pos hex
  rw [hkmalloc]
  exact ⟨hex.choose_spec.1, fun hmem => hex.choose_spec.2 (h.listed_iff.2 hmem)⟩

theorem oneDisk_ids : oneDisk.disks.Ids [0x1000] := by
  refine ⟨⟨⟨?_, by decide, by decide, rfl⟩, rfl⟩, ?_, ?_, by decide, by decide⟩
  · exact ⟨rfl, rfl, trivial⟩
  · intro a ha b hb _
    rw [List.mem_singleton] at ha hb
    rw [ha, hb]
  · intro a _
    exact Nat.one_pos

/-- A signed boot record with these types, first sectors and sizes. -/
def dosRecord (entries : List (ℕ × ℕ × ℕ)) : Bytes := fun k =>
  if k = 64 then 0x55 else if k = 65 then 0xaa else
    match entries[k / 16]? with
    | none => 0
    | some (partType, first, num) =>
        if k % 16 = 4 then BitVec.ofNat 8 partType else if k % 16 = 8 then BitVec.ofNat 8 first
        else if k % 16 = 12 then BitVec.ofNat 8 num else 0

def dosDisk (records : List (ℕ × List (ℕ × ℕ × ℕ))) (req : AtaRequest) : Option Bytes :=
  (records.find? fun r => r.1 * 512 + 0x1be = req.offect).map fun r => dosRecord r.2

/-- Two logical partitions in an extended partition of ninety sectors. -/
def twoLogicals : AtaRequest → Option Bytes :=
  dosDisk [(0, [(0x05, 10, 90)]), (10, [(0x83, 1, 19), (0x05, 20, 20)]), (30, [(0x83, 1, 19)])]

/-- A device of a hundred sectors with three boot records, each in the extended partition that
the one before it names. -/
theorem partScan_ends_logicals :
    ∃ depth n s', Scan.mbrPartEnds (ampleMemory twoLogicals) depth oneDisk 0 = some (n, s') := by
  have hends : (mbrRegions twoLogicals 3 (some (oneDisk.disks.mem 0x1000).region)).1 = true := by
    with_unfolding_all decide
  have hendless : ¬ Endless twoLogicals (oneDisk.disks.mem 0x1000).region := by
    intro hendless
    rw [hendless.not_ends 3] at hends
    cases hends
  have hroom : oneDisk.disks.Room twoLogicals 102 (oneDisk.disks.mem 0x1000).region := by
    unfold Disks.Room
    rw [mbrRegions_of_le hends (by decide : 3 ≤ 102)]
    with_unfolding_all decide
  obtain ⟨depth, n, s', -, -, hscan, -⟩ := (partScan_ends_iff (ampleMemory_steady _) oneDisk_ids
    (List.mem_singleton_self _) (by decide)).2 ⟨hendless, hroom⟩
  exact ⟨depth, n, s', hscan⟩

/-- Every descriptor has a hundred sectors, and the identifiers were given in turn, over and
over. -/
structure Spinning (s : Disks) (l : List ℕ) : Prop extends s.Chain l where
  count : ∀ a ∈ l, (s.mem a).sectorCount = 100
  id_eq : ∀ i a, l[i]? = some a → (s.mem a).id = i % 2 ^ 32
  newId_eq : s.newId = l.length % 2 ^ 32

theorem Spinning.getDisk_ne_zero {s : Disks} {l : List ℕ} (h : Spinning s l) {id : ℕ}
    (hid : id < l.length) (hid32 : id < 2 ^ 32) : s.getDisk id ≠ 0 := by
  unfold Disks.getDisk
  rw [h.header_eq]
  have hget : l[id]? = some l[id] := List.getElem?_eq_getElem hid
  refine h.list.seg.walk_ne_null h.list.null_notMem hid32 hget (decide_eq_true ?_)
  rw [h.id_eq id _ hget, Nat.mod_eq_of_lt hid32]

/-- With that boot record in front of every range the scan goes deeper and deeper. -/
theorem Spinning.mbrPartEnds_eq_none {env : DiskEnv} (henv : env.Steady fun _ => some selfRecord)
    {s : Scan} {l : List ℕ} (h : Spinning s.disks l) {id : ℕ} (hid : id < l.length)
    (hid32 : id < 2 ^ 32) (depth : ℕ) : Scan.mbrPartEnds env depth s id = none := by
  induction depth generalizing s l id with
  | zero => rfl
  | succ depth ih =>
      have hget := h.getDisk_ne_zero hid hid32
      have hmem := h.toChain.getDisk_mem hget
      obtain ⟨hnull, hattr⟩ := henv.kmalloc s l h.toChain
      have hread : s.diskRead env id sizeofMbr 0x1be = some selfRecord := by
        unfold Scan.diskRead Disks.diskRead Disks.diskIo
        rw [if_neg hget]
        cases (s.disks.mem (s.disks.getDisk id)).devType with
        | diskAta => exact henv.read _ _
      obtain ⟨fs, hmmap⟩ := Scan.diskMmap_eq env hget 0 100
        (by rw [h.count _ hmem]; with_unfolding_all decide) hnull
      obtain ⟨s', hs'⟩ : ∃ s' : Scan, s' = ⟨(s.disks.enterPart (s.disks.getDisk id)
        (env.kmalloc s) 0 100).store (env.kmalloc s) fun x => { x with fs := fs },
          ⟨s.disks, env.kmalloc s, id, 0, 100⟩ :: s.calls⟩ := ⟨_, rfl⟩
      have hdisks : s'.disks = (s.disks.enterPart (s.disks.getDisk id)
          (env.kmalloc s) 0 100).store (env.kmalloc s) fun x => { x with fs := fs } := by
        rw [hs']
      obtain ⟨hchain, hnewId, hself, hregion, hold⟩ :=
        h.toChain.enterPart hmem hattr hnull 0 100 fs hdisks
      have hspin : Spinning s'.disks (l ++ [env.kmalloc s]) := by
        refine ⟨hchain, fun a ha => ?_, fun i a ha => ?_, ?_⟩
        · rw [List.mem_append, List.mem_singleton] at ha
          rcases ha with ha | rfl
          · rw [← h.count a ha]
            exact congrArg Region.sectorCount (hold a ha).2
          · exact congrArg Region.sectorCount hregion
        · by_cases hi : i < l.length
          · rw [List.getElem?_append_left hi] at ha
            rw [(hold a (List.mem_of_getElem? ha)).1]
            exact h.id_eq i a ha
          · obtain ⟨hi', hget'⟩ := List.getElem?_eq_some_iff.1 ha
            rw [List.length_append, List.length_singleton] at hi'
            obtain rfl : i = l.length := by omega
            rw [List.getElem_append_right (Nat.le_refl _), List.getElem_singleton] at hget'
            rw [← hget', hself, h.newId_eq]
        · rw [hnewId, h.newId_eq, add32_eq, List.length_append, List.length_singleton]
          omega
      have hnext : Scan.mbrPartEnds env depth s' (s'.disks.mem (env.kmalloc s)).id = none := by
        rw [hself, h.newId_eq]
        refine ih hspin ?_ (Nat.mod_lt _ (by decide))
        rw [List.length_append, List.length_singleton]
        exact Nat.lt_succ_of_le (Nat.mod_le _ _)
      have hstep : Scan.mbrStepEnds env (Scan.mbrPartEnds env depth) id selfRecord (0, s) 0 =
          none := by
        have hfirst : (mbrPartOf selfRecord 0).firstSectorLba = 0 := by decide
        have hnum : (mbrPartOf selfRecord 0).sectorNum = 100 := by decide
        unfold Scan.mbrStepEnds
        dsimp only
        rw [if_pos (by decide), hfirst, hnum, hmmap s' hs', hnext]
        rfl
      rw [Scan.mbrPartEnds, hread]
      dsimp only
      rw [if_pos (by decide), List.foldlM_cons, hstep]
      rfl

/-- A device of a hundred sectors with that boot record, and memory for every descriptor: the
scan does not come back. -/
theorem partScan_without_end :
    ∃ env, env.Steady (fun _ => some selfRecord) ∧ oneDisk.disks.Ids [0x1000] ∧
      (oneDisk.disks.mem 0x1000).sectorCount = 100 ∧
      ¬ ∃ depth r, Scan.mbrPartEnds env depth oneDisk (oneDisk.disks.mem 0x1000).id = some r := by
  refine ⟨ampleMemory _, ampleMemory_steady _, oneDisk_ids, rfl, ?_⟩
  rintro ⟨depth, r, hscan⟩
  have hspin : Spinning oneDisk.disks [0x1000] := by
    refine ⟨oneDisk_ids.toChain, fun a _ => rfl, fun i a ha => ?_, rfl⟩
    obtain ⟨hi, -⟩ := List.getElem?_eq_some_iff.1 ha
    rw [List.length_singleton] at hi
    obtain rfl : i = 0 := by omega
    rfl
  have hid : (oneDisk.disks.mem 0x1000).id = 0 := rfl
  rw [hid, hspin.mbrPartEnds_eq_none (ampleMemory_steady _) Nat.one_pos (by decide)] at hscan
  cases hscan

end BitchKernel
