import BitchKernel.Dev.PartEnds

/-!
# Logical partitions

In the layout of DOS the link of a boot record counts from the start of the extended partition,
and the logical partition of a boot record from that record. The scan reads a link as a part of
the range whose record names it. For the link of the first record that is the same range, which
starts where the extended partition does; the third record is looked for behind the second.
-/

namespace BitchKernel

open Lib

/-- A logical partition: where its boot record lies in the extended partition, and how many
sectors the record and the partition take, then the entry of the record for the partition. -/
structure Logical where
  record : ℕ
  size : ℕ
  partType : ℕ
  start : ℕ
  count : ℕ

/-- The true place of a logical partition of an extended partition that starts at `first`. -/
def Logical.region (p : Logical) (devId first : ℕ) : Region :=
  ⟨devId, first + p.record + p.start, p.count⟩

def PlainType (partType : ℕ) : Prop :=
  partType ≠ typeExt ∧ partType ≠ typeGpt ∧ partType ≠ typeEmpty

section Layout

variable (content : AtaRequest → Option Bytes) (devId : ℕ)

/-- The part of a sector that holds the table and the signature. -/
def recordAt (sector : ℕ) : Option Bytes :=
  content ⟨devId % 2 ^ 8, sizeofMbr, sector * ataSectorSize + 0x1be⟩

/-- The entry of a boot record for the next one. -/
def LinkTo (part : MbrPart) : Option Logical → Prop
  | none => part.partType = typeEmpty
  | some q => part = ⟨typeExt, q.record, q.size⟩

instance (part : MbrPart) : (next : Option Logical) → Decidable (LinkTo part next)
  | none => inferInstanceAs (Decidable (part.partType = typeEmpty))
  | some q => inferInstanceAs (Decidable (part = ⟨typeExt, q.record, q.size⟩))

/-- The boot record of `p`, with a link to `next`. -/
def RecordOf (sector : ℕ) (p : Logical) (next : Option Logical) : Prop :=
  ∃ mbr, recordAt content devId sector = some mbr ∧ mbrSign mbr = 0xaa55 ∧
    mbrPartOf mbr 0 = ⟨p.partType, p.start, p.count⟩ ∧ LinkTo (mbrPartOf mbr 1) next ∧
      (mbrPartOf mbr 2).partType = typeEmpty ∧ (mbrPartOf mbr 3).partType = typeEmpty

/-- The boot records of a chain in the extended partition that starts at `first`. -/
def Chained (first : ℕ) : List Logical → Prop
  | [] => True
  | p :: rest => RecordOf content devId (first + p.record) p rest.head? ∧ Chained first rest

/-- A disk of `sectors` sectors with one extended partition, from `first` on, in which the logical
partitions are chained. -/
structure DosLayout (sectors first num : ℕ) (chain : List Logical) : Prop where
  mbr : ∃ mbr x, recordAt content devId 0 = some mbr ∧ mbrSign mbr = 0xaa55 ∧ x < 4 ∧
    mbrPartOf mbr x = ⟨typeExt, first, num⟩ ∧
      ∀ i < 4, i ≠ x → (mbrPartOf mbr i).partType = typeEmpty ∨
        PlainType (mbrPartOf mbr i).partType ∧
          ((mbrPartOf mbr i).firstSectorLba + (mbrPartOf mbr i).sectorNum ≤ first ∨
            first + num ≤ (mbrPartOf mbr i).firstSectorLba)
  sectors_lt : sectors < 2 ^ 48
  first_pos : 0 < first
  inside : first + num ≤ sectors
  chained : Chained content devId first chain
  ne_nil : chain ≠ []
  head : ∀ p ∈ chain.head?, p.record = 0
  fits : ∀ p ∈ chain, PlainType p.partType ∧ 0 < p.start ∧ 0 < p.count ∧
    p.start + p.count ≤ p.size ∧ p.record + p.size ≤ num
  apart : chain.Pairwise fun p q =>
    p.record + p.size ≤ q.record ∨ q.record + q.size ≤ p.record

end Layout

variable {content : AtaRequest → Option Bytes} {devId : ℕ} {r r' t : Region} {depth : ℕ}

/-! ## What a scan cannot register -/

/-- A range that lies behind `r`, or in front of it and not next to it. -/
structure Region.Beside (r t : Region) : Prop where
  count_pos : 0 < t.sectorCount
  apart : t.startSector + t.sectorCount < r.startSector ∨
    r.startSector + r.sectorCount ≤ t.startSector
  lt : t.startSector + t.sectorCount < 2 ^ 48 ∧ r.startSector + r.sectorCount < 2 ^ 48

theorem Region.Beside.part_ne (h : r.Beside t) {startSector sectorCount : ℕ}
    (_ : startSector < 2 ^ 64) (hpart : r.part startSector sectorCount = some r') :
    r' ≠ t := by
  rintro rfl
  unfold Region.part at hpart
  split_ifs at hpart with hrange
  obtain rfl := Option.some.inj hpart
  obtain ⟨hpos, hapart, hlt, hlt'⟩ := h
  dsimp only at hpos hapart hlt
  rw [add64_eq] at hrange hapart hlt
  omega

/-- A part that a boot record names lies in its range. -/
theorem Region.Beside.part (h : r.Beside t) {mbr : Bytes} {i : ℕ}
    (hpart : r.part (mbrPartOf mbr i).firstSectorLba (mbrPartOf mbr i).sectorNum = some r') :
    r'.Beside t := by
  obtain ⟨-, hstart, hcount, hle⟩ := Region.part_eq_some hpart
  obtain ⟨hpos, hapart, hlt, hlt'⟩ := h
  rw [Nat.mod_eq_of_lt (by omega)] at hstart
  exact ⟨hpos, by omega, by omega⟩

theorem Region.Beside.notMem_gptRegions (h : r.Beside t) : t ∉ gptRegions content r := by
  unfold gptRegions
  split
  · exact List.not_mem_nil
  · split_ifs
    · rw [List.mem_flatMap]
      rintro ⟨i, -, hi⟩
      unfold gptEntryRegions at hi
      split at hi
      · exact List.not_mem_nil hi
      · rename_i entry _
        split_ifs at hi
        · rw [Option.mem_toList] at hi
          exact h.part_ne (Bytes.le_lt entry 32 8) hi rfl
        · exact List.not_mem_nil hi
    · exact List.not_mem_nil

theorem Region.Beside.notMem_mbrRegions (h : r.Beside t) (depth : ℕ) :
    t ∉ (mbrRegions content depth (some r)).2 := by
  induction depth generalizing r with
  | zero => exact List.not_mem_nil
  | succ depth ih =>
      by_cases hsigned : ∃ mbr, content (r.request sizeofMbr 0x1be) = some mbr ∧
        mbrSign mbr = 0xaa55
      · obtain ⟨mbr, hread, hsign⟩ := hsigned
        rw [mbrRegions_signed hread hsign]
        intro ht
        obtain ⟨i, -, hi⟩ := List.mem_flatMap.1 ht
        have hpart : t ∉ (r.part (mbrPartOf mbr i).firstSectorLba
            (mbrPartOf mbr i).sectorNum).toList := by
          rw [Option.mem_toList]
          intro hpart
          have hlt := mbrPart_exact mbr i
          exact h.part_ne (by omega) hpart rfl
        unfold mbrEntryRegions at hi
        dsimp only at hi
        split_ifs at hi
        · rw [List.mem_append] at hi
          rcases hi with hi | hi
          · exact hpart hi
          · cases hchild : r.part (mbrPartOf mbr i).firstSectorLba (mbrPartOf mbr i).sectorNum with
            | none =>
                rw [hchild] at hi
                cases depth with
                | zero => exact List.not_mem_nil hi
                | succ depth => exact List.not_mem_nil hi
            | some r' =>
                rw [hchild] at hi
                exact ih (h.part hchild) hi
        · exact h.notMem_gptRegions hi
        · exact hpart hi
        · exact List.not_mem_nil hi
      · rw [mbrRegions_unsigned fun mbr hread hsign => hsigned ⟨mbr, hread, hsign⟩]
        exact List.not_mem_nil

/-! ## What the scan of a boot record registers -/

theorem Region.part_eq {startSector sectorCount : ℕ} (hlt : r.startSector + r.sectorCount < 2 ^ 48)
    (hle : startSector + sectorCount ≤ r.sectorCount) :
    r.part startSector sectorCount =
      some ⟨r.devId, r.startSector + startSector, sectorCount⟩ := by
  unfold Region.part
  rw [add64_eq, add64_eq, Nat.mod_eq_of_lt (a := startSector + sectorCount) (by omega),
    Nat.mod_eq_of_lt (by omega), if_neg (Nat.not_lt.2 hle)]

theorem Region.part_of_eq_some {startSector sectorCount : ℕ}
    (hlt : r.startSector + r.sectorCount < 2 ^ 48) (hsum : startSector + sectorCount < 2 ^ 64)
    (h : r.part startSector sectorCount = some r') :
    startSector + sectorCount ≤ r.sectorCount ∧
      r' = ⟨r.devId, r.startSector + startSector, sectorCount⟩ := by
  have hle : startSector + sectorCount ≤ r.sectorCount := by
    by_contra hgt
    unfold Region.part at h
    rw [add64_eq, Nat.mod_eq_of_lt hsum, if_pos (Nat.lt_of_not_le hgt)] at h
    cases h
  rw [Region.part_eq hlt hle] at h
  exact ⟨hle, (Option.some.inj h).symm⟩

theorem content_request (hpos : 0 < r.sectorCount) (hlt : r.startSector + r.sectorCount < 2 ^ 48) :
    content (r.request sizeofMbr 0x1be) = recordAt content r.devId r.startSector := by
  unfold Region.request recordAt
  have hend : add64 sizeofMbr 0x1be = 512 := by with_unfolding_all decide
  rw [mul64_eq, mul64_eq, hend, Nat.mod_eq_of_lt (a := r.sectorCount * _) (by lia),
    Nat.mod_eq_of_lt (a := r.startSector * _) (by lia), if_neg (by lia), add64_eq,
    Nat.mod_eq_of_lt (a := r.startSector * _ + _) (by lia)]

section Entries

variable {sub : Option Region → Bool × List Region} {mbr : Bytes} {i : ℕ}

theorem mbrEntryRegions_plain (h : PlainType (mbrPartOf mbr i).partType) :
    mbrEntryRegions content sub r mbr i =
      (true, (r.part (mbrPartOf mbr i).firstSectorLba (mbrPartOf mbr i).sectorNum).toList) := by
  unfold mbrEntryRegions
  dsimp only
  rw [if_neg h.1, if_neg h.2.1, if_pos h.2.2]

theorem mbrEntryRegions_empty (h : (mbrPartOf mbr i).partType = typeEmpty) :
    mbrEntryRegions content sub r mbr i = (true, []) := by
  unfold mbrEntryRegions
  dsimp only
  rw [h, if_neg (by decide), if_neg (by decide), if_neg (fun hne => hne rfl)]

theorem mbrEntryRegions_of_ext {first num : ℕ} (h : mbrPartOf mbr i = ⟨typeExt, first, num⟩) :
    mbrEntryRegions content sub r mbr i =
      ((sub (r.part first num)).1, (r.part first num).toList ++ (sub (r.part first num)).2) := by
  unfold mbrEntryRegions
  dsimp only
  rw [h, if_pos rfl]

end Entries

theorem RecordOf.regions {p : Logical} {next : Option Logical}
    (h : RecordOf content r.devId r.startSector p next) (hplain : PlainType p.partType)
    (hpos : 0 < r.sectorCount) (hlt : r.startSector + r.sectorCount < 2 ^ 48) (depth : ℕ) :
    (next = none → mbrRegions content (depth + 1) (some r) =
      (true, (r.part p.start p.count).toList)) ∧
    ∀ q, next = some q → mbrRegions content (depth + 1) (some r) =
      ((mbrRegions content depth (r.part q.record q.size)).1, (r.part p.start p.count).toList ++
        ((r.part q.record q.size).toList ++
          (mbrRegions content depth (r.part q.record q.size)).2)) := by
  obtain ⟨mbr, hread, hsign, hentry, hlink, htwo, hthree⟩ := h
  rw [← content_request hpos hlt] at hread
  have hregions := mbrRegions_signed hread hsign depth
  rw [List.flatMap_cons, List.flatMap_cons, List.flatMap_cons, List.flatMap_cons, List.flatMap_nil,
    List.all_cons, List.all_cons, List.all_cons, List.all_cons, List.all_nil,
    mbrEntryRegions_plain (i := 0) (by rw [hentry]; exact hplain), mbrEntryRegions_empty htwo,
    mbrEntryRegions_empty hthree, hentry] at hregions
  refine ⟨?_, ?_⟩
  · rintro rfl
    rw [hregions, mbrEntryRegions_empty hlink]
    simp
  · rintro q rfl
    rw [hregions, mbrEntryRegions_of_ext hlink]
    simp

namespace DosLayout

variable {sectors first num : ℕ} {chain rest : List Logical} {p q u : Logical}

/-- The scan of the disk registers the extended partition, what the scan of that registers, and
the other partitions, which lie outside. -/
theorem regions (h : DosLayout content devId sectors first num chain) :
    ∃ before after : List Region,
      (∀ t ∈ before ++ after, t.startSector + t.sectorCount ≤ first ∨
        first + num ≤ t.startSector) ∧
      ∀ depth, mbrRegions content (depth + 1) (some ⟨devId, 0, sectors⟩) =
        ((mbrRegions content depth (some ⟨devId, first, num⟩)).1,
          before ++ ((⟨devId, first, num⟩ :: (mbrRegions content depth
            (some ⟨devId, first, num⟩)).2) ++ after)) := by
  obtain ⟨mbr, x, hread, hsign, hx, hext, hother⟩ := h.mbr
  have hlt := h.sectors_lt
  have hinside := h.inside
  have hfirst := h.first_pos
  have hdisk : (⟨devId, 0, sectors⟩ : Region).startSector + sectors < 2 ^ 48 := by
    rw [Nat.zero_add]
    exact hlt
  rw [← content_request (r := ⟨devId, 0, sectors⟩) (show 0 < sectors by omega) hdisk] at hread
  have hchild : (⟨devId, 0, sectors⟩ : Region).part first num = some ⟨devId, first, num⟩ := by
    rw [Region.part_eq hdisk hinside, Nat.zero_add]
  have hentry : ∀ sub, mbrEntryRegions content sub ⟨devId, 0, sectors⟩ mbr x =
      ((sub (some ⟨devId, first, num⟩)).1,
        ⟨devId, first, num⟩ :: (sub (some ⟨devId, first, num⟩)).2) := by
    intro sub
    rw [mbrEntryRegions_of_ext hext, hchild]
    rfl
  have hplain : ∀ i < 4, i ≠ x → ∃ rs : List Region,
      (∀ t ∈ rs, t.startSector + t.sectorCount ≤ first ∨ first + num ≤ t.startSector) ∧
      ∀ sub, mbrEntryRegions content sub ⟨devId, 0, sectors⟩ mbr i = (true, rs) := by
    intro i hi hne
    rcases hother i hi hne with hempty | ⟨hplain, hout⟩
    · exact ⟨[], by simp, fun sub => mbrEntryRegions_empty hempty⟩
    · refine ⟨_, fun t ht => ?_, fun sub => mbrEntryRegions_plain hplain⟩
      rw [Option.mem_toList] at ht
      obtain ⟨-, hstart, hcount, hle⟩ := Region.part_eq_some ht
      dsimp only at hstart hle
      rw [Nat.zero_add, Nat.mod_eq_of_lt (by omega)] at hstart
      rwa [hstart, hcount]
  choose! rs hout hrs using hplain
  obtain ⟨l, m, hlm⟩ := List.append_of_mem (mem_range_four.2 hx)
  have hnodup : (l ++ x :: m).Nodup := by
    rw [← hlm]
    decide
  have hmem : ∀ i ∈ l ++ m, i < 4 ∧ i ≠ x := by
    intro i hi
    refine ⟨mem_range_four.1 (by rw [hlm]; simp only [List.mem_append, List.mem_cons] at hi ⊢
                                 tauto), ?_⟩
    rintro rfl
    exact (List.nodup_middle.1 hnodup).notMem hi
  refine ⟨l.flatMap rs, m.flatMap rs, fun t ht => ?_, fun depth => ?_⟩
  · rw [← List.flatMap_append] at ht
    obtain ⟨i, hi, hti⟩ := List.mem_flatMap.1 ht
    exact hout i (hmem i hi).1 (hmem i hi).2 t hti
  · rw [mbrRegions_signed hread hsign, hlm, List.flatMap_append, List.flatMap_cons,
      List.all_append, List.all_cons, hentry]
    have hall : ∀ k : List ℕ, (∀ i ∈ k, i ∈ l ++ m) → ∀ sub,
        (k.all fun i => (mbrEntryRegions content sub ⟨devId, 0, sectors⟩ mbr i).1) = true ∧
        (k.flatMap fun i => (mbrEntryRegions content sub ⟨devId, 0, sectors⟩ mbr i).2) =
          k.flatMap rs := by
      intro k hk sub
      refine ⟨List.all_eq_true.2 fun i hi => ?_, List.flatMap_congr fun i hi => ?_⟩
      · rw [hrs i (hmem i (hk i hi)).1 (hmem i (hk i hi)).2]
      · rw [hrs i (hmem i (hk i hi)).1 (hmem i (hk i hi)).2]
    obtain ⟨hl, hl'⟩ := hall l (fun i hi => List.mem_append_left m hi) (mbrRegions content depth)
    obtain ⟨hm, hm'⟩ := hall m (fun i hi => List.mem_append_right l hi) (mbrRegions content depth)
    rw [hl, hl', hm, hm', Bool.true_and, Bool.and_true]

theorem bounds (h : DosLayout content devId sectors first num chain) {p : Logical}
    (hp : p ∈ chain) :
    0 < first ∧ 0 < p.start ∧ 0 < p.count ∧ p.start + p.count ≤ p.size ∧
      p.record + p.size ≤ num ∧ first + num < 2 ^ 48 := by
  obtain ⟨-, hstart, hcount, hsize, hrecord⟩ := h.fits p hp
  have hlt := h.sectors_lt
  have hinside := h.inside
  exact ⟨h.first_pos, hstart, hcount, hsize, hrecord, by omega⟩

theorem first_part (h : DosLayout content devId sectors first num (p :: rest)) :
    (⟨devId, first, num⟩ : Region).part p.start p.count = some (p.region devId first) := by
  obtain ⟨hfirst, hstart, hcount, hsize, hrecord, hlt⟩ := h.bounds (p := p) (by simp)
  have hzero : p.record = 0 := h.head p rfl
  have hle : p.start + p.count ≤ num := by omega
  rw [Region.part_eq hlt hle, Logical.region, hzero, Nat.add_zero]

theorem one (h : DosLayout content devId sectors first num [p]) (depth : ℕ) :
    mbrRegions content (depth + 1) (some ⟨devId, first, num⟩) =
      (true, [p.region devId first]) := by
  obtain ⟨hfirst, hstart, hcount, hsize, hrecord, hlt⟩ := h.bounds (p := p) (by simp)
  have hzero : p.record = 0 := h.head p rfl
  have hchained := h.chained.1
  rw [hzero, Nat.add_zero] at hchained
  rw [(hchained.regions (r := ⟨devId, first, num⟩) (h.fits p (by simp)).1
    (show 0 < num by omega) hlt depth).1 rfl, h.first_part]
  rfl

/-- The scan of the extended partition of a longer chain: the second boot record is the first of
the range that its link names. -/
theorem two (h : DosLayout content devId sectors first num (p :: q :: rest)) (depth : ℕ) :
    mbrRegions content (depth + 1) (some ⟨devId, first, num⟩) =
      ((mbrRegions content depth (some ⟨devId, first + q.record, q.size⟩)).1,
        p.region devId first :: ⟨devId, first + q.record, q.size⟩ ::
          (mbrRegions content depth (some ⟨devId, first + q.record, q.size⟩)).2) := by
  obtain ⟨hfirst, hstart, hcount, hsize, hrecord, hlt⟩ := h.bounds (p := p) (by simp)
  obtain ⟨-, -, -, -, hrecord', -⟩ := h.bounds (p := q) (by simp)
  have hzero : p.record = 0 := h.head p rfl
  have hchained := h.chained.1
  rw [hzero, Nat.add_zero] at hchained
  rw [(hchained.regions (r := ⟨devId, first, num⟩) (h.fits p (by simp)).1
    (show 0 < num by omega) hlt depth).2 q rfl, h.first_part, Region.part_eq hlt hrecord']
  rfl

/-- The scan of the range that the link to the second boot record names. -/
theorem second (h : DosLayout content devId sectors first num (p :: q :: rest)) (depth : ℕ) :
    (rest = [] → mbrRegions content (depth + 1) (some ⟨devId, first + q.record, q.size⟩) =
      (true, [q.region devId first])) ∧
    ∀ u, rest.head? = some u →
      mbrRegions content (depth + 1) (some ⟨devId, first + q.record, q.size⟩) =
        ((mbrRegions content depth
            ((⟨devId, first + q.record, q.size⟩ : Region).part u.record u.size)).1,
          q.region devId first ::
            (((⟨devId, first + q.record, q.size⟩ : Region).part u.record u.size).toList ++
              (mbrRegions content depth
                ((⟨devId, first + q.record, q.size⟩ : Region).part u.record u.size)).2)) := by
  obtain ⟨hfirst, hstart, hcount, hsize, hrecord, hlt⟩ := h.bounds (p := q) (by simp)
  have hend : first + q.record + q.size < 2 ^ 48 := by omega
  have hpart : (⟨devId, first + q.record, q.size⟩ : Region).part q.start q.count =
      some (q.region devId first) := Region.part_eq hend hsize
  obtain ⟨hlast, hnext⟩ := (h.chained.2.1).regions (r := ⟨devId, first + q.record, q.size⟩)
    (h.fits q (by simp)).1 (show 0 < q.size by omega) hend depth
  refine ⟨?_, fun u hu => ?_⟩
  · rintro rfl
    rw [hlast rfl, hpart]
    rfl
  · rw [hnext u hu, hpart]
    rfl

/-- The third logical partition is not registered: its boot record is looked for in the range of
the second, which it is beside. -/
theorem third_notMem (h : DosLayout content devId sectors first num (p :: q :: u :: rest))
    (depth : ℕ) :
    u.region devId first ∉ (mbrRegions content depth (some ⟨devId, 0, sectors⟩)).2 := by
  obtain ⟨hfirst, hstart, hcount, hsize, hrecord, hlt⟩ := h.bounds (p := u) (by simp)
  obtain ⟨-, hstart₀, hcount₀, hsize₀, -, -⟩ := h.bounds (p := p) (by simp)
  obtain ⟨-, hstart₁, hcount₁, hsize₁, hrecord₁, -⟩ := h.bounds (p := q) (by simp)
  have hzero : p.record = 0 := h.head p rfl
  have hapart := h.apart
  simp only [List.pairwise_cons, List.mem_cons, forall_eq_or_imp] at hapart
  obtain ⟨⟨-, hpu, -⟩, ⟨hqu, -⟩, -⟩ := hapart
  have hend : (⟨devId, first + q.record, q.size⟩ : Region).startSector + q.size < 2 ^ 48 := by
    dsimp only
    omega
  have hne : ∀ t : Region, t.startSector ≠ first + u.record + u.start → u.region devId first ≠ t := by
    rintro t ht rfl
    exact ht rfl
  obtain ⟨before, after, hout, hdisk⟩ := h.regions
  cases depth with
  | zero => exact List.not_mem_nil
  | succ depth =>
      rw [hdisk, List.mem_append, List.mem_append, List.mem_cons, ← or_assoc, ← or_assoc]
      rintro (((hmem | hmem) | hmem) | hmem)
      · have := hout _ (List.mem_append_left after hmem)
        simp only [Logical.region] at this
        omega
      · exact hne _ (by dsimp only; omega) hmem
      · cases depth with
        | zero => exact List.not_mem_nil hmem
        | succ depth =>
            rw [h.two, List.mem_cons, List.mem_cons] at hmem
            rcases hmem with hmem | hmem | hmem
            · exact hne _ (by simp only [Logical.region]; omega) hmem
            · exact hne _ (by dsimp only; omega) hmem
            · cases depth with
              | zero => exact List.not_mem_nil hmem
              | succ depth =>
                  rw [(h.second depth).2 u rfl, List.mem_cons, List.mem_append] at hmem
                  rcases hmem with hmem | hmem | hmem
                  · exact hne _ (by simp only [Logical.region]; omega) hmem
                  · rw [Option.mem_toList] at hmem
                    obtain ⟨hle, hregion⟩ := Region.part_of_eq_some hend (by omega) hmem
                    dsimp only at hle
                    exact hne _ (by dsimp only; omega) hregion
                  · cases hchild : (⟨devId, first + q.record, q.size⟩ : Region).part u.record
                      u.size with
                    | none =>
                        rw [hchild] at hmem
                        cases depth with
                        | zero => exact List.not_mem_nil hmem
                        | succ depth => exact List.not_mem_nil hmem
                    | some r =>
                        rw [hchild] at hmem
                        obtain ⟨hle, rfl⟩ := Region.part_of_eq_some hend (by omega) hchild
                        dsimp only at hle hend
                        refine Region.Beside.notMem_mbrRegions ⟨hcount, ?_, ?_⟩ depth hmem
                        · dsimp only [Logical.region]
                          omega
                        · dsimp only [Logical.region]
                          omega
      · have := hout _ (List.mem_append_right before hmem)
        simp only [Logical.region] at this
        omega

theorem first_two (h : DosLayout content devId sectors first num chain) (hlen : chain.length ≤ 2) :
    (mbrRegions content 3 (some ⟨devId, 0, sectors⟩)).1 = true ∧ ∀ p ∈ chain,
      (mbrRegions content 3 (some ⟨devId, 0, sectors⟩)).2.count (p.region devId first) = 1 := by
  obtain ⟨before, after, hout, hdisk⟩ := h.regions
  have houtside : ∀ p ∈ chain, ∀ mid : List Region,
      (before ++ (mid ++ after)).count (p.region devId first) =
        mid.count (p.region devId first) := by
    intro p hp mid
    obtain ⟨hfirst, hstart, hcount, hsize, hrecord, hlt⟩ := h.bounds hp
    have hnot : p.region devId first ∉ before ++ after := by
      intro hmem
      have := hout _ hmem
      simp only [Logical.region] at this
      omega
    rw [List.mem_append, not_or] at hnot
    rw [List.count_append, List.count_append, List.count_eq_zero.2 hnot.1,
      List.count_eq_zero.2 hnot.2, Nat.zero_add, Nat.add_zero]
  have hne : ∀ (t t' : Region), t'.startSector ≠ t.startSector → t' ≠ t := by
    rintro t t' ht rfl
    exact ht rfl
  match chain, h.ne_nil, hlen with
  | [p], _, _ =>
      obtain ⟨hfirst, hstart, hcount, hsize, hrecord, hlt⟩ := h.bounds (p := p) (by simp)
      rw [hdisk, h.one]
      refine ⟨rfl, fun p' hp' => ?_⟩
      obtain rfl := List.mem_singleton.1 hp'
      rw [houtside _ hp', List.count_cons_of_ne (hne _ _ (by simp only [Logical.region]; omega)),
        List.count_cons_self, List.count_nil]
  | [p, q], _, _ =>
      obtain ⟨hfirst, hstart, hcount, hsize, hrecord, hlt⟩ := h.bounds (p := p) (by simp)
      obtain ⟨-, hstart₁, hcount₁, hsize₁, hrecord₁, -⟩ := h.bounds (p := q) (by simp)
      have hzero : p.record = 0 := h.head p rfl
      have hapart := h.apart
      simp only [List.pairwise_cons, List.mem_singleton, forall_eq] at hapart
      rw [hdisk, h.two, (h.second 0).1 rfl]
      refine ⟨rfl, fun p' hp' => ?_⟩
      rw [houtside _ hp', List.count_cons_of_ne (hne _ _ ?_)]
      · rcases List.mem_cons.1 hp' with rfl | hp'
        · rw [List.count_cons_self, List.count_cons_of_ne (hne _ _ ?_),
            List.count_cons_of_ne (hne _ _ ?_), List.count_nil]
          · simp only [Logical.region]
            omega
          · simp only [Logical.region]
            omega
        · obtain rfl := List.mem_singleton.1 hp'
          rw [List.count_cons_of_ne (hne _ _ ?_), List.count_cons_of_ne (hne _ _ ?_),
            List.count_cons_self, List.count_nil]
          · simp only [Logical.region]
            omega
          · simp only [Logical.region]
            omega
      · obtain ⟨-, hstart', -⟩ := h.bounds hp'
        simp only [Logical.region]
        omega

end DosLayout

theorem Scan.mbrPartEnds_regions {env : DiskEnv} (henv : env.Steady content) {s s' : Scan}
    {l l' : List ℕ} (h : s.disks.Ids l) {a n : ℕ} (ha : a ∈ l)
    (hscan : Scan.mbrPartEnds env depth s (s.disks.mem a).id = some (n, s'))
    (hids : s'.disks.Ids (l ++ l')) :
    s.disks.Room content depth (s.disks.mem a).region ∧
      (mbrRegions content depth (some (s.disks.mem a).region)).1 = true ∧
        l'.map (fun b => (s'.disks.mem b).region) =
          (mbrRegions content depth (some (s.disks.mem a).region)).2 := by
  obtain ⟨hroom, hends, l'', hgrows⟩ := Scan.mbrPartEnds_grows henv h ha hscan hids
  obtain rfl := List.append_cancel_left (hgrows.ids.toChain.unique hids.toChain)
  exact ⟨hroom, hends, hgrows.regions⟩

/-- The scan comes to its end with one descriptor for each logical partition, at its true place
and of its size, exactly when there are not more than two, and the identifiers suffice. -/
theorem logicals_registered_iff {env : DiskEnv} (henv : env.Steady content) {s : Scan}
    {l : List ℕ} (h : s.disks.Ids l) {a : ℕ} (ha : a ∈ l) {devId sectors first num : ℕ}
    {chain : List Logical} (hdisk : (s.disks.mem a).region = ⟨devId, 0, sectors⟩)
    (hlayout : DosLayout content devId sectors first num chain) :
    (∃ depth n s' l', Scan.mbrPartEnds env depth s (s.disks.mem a).id = some (n, s') ∧
      s'.disks.Ids (l ++ l') ∧ ∀ p ∈ chain,
        (l'.map fun b => (s'.disks.mem b).region).count (p.region devId first) = 1) ↔
      chain.length ≤ 2 ∧ s.disks.Room content 3 (s.disks.mem a).region := by
  constructor
  · rintro ⟨depth, n, s', l', hscan, hids, hcount⟩
    obtain ⟨hroom, hends, hregions⟩ := Scan.mbrPartEnds_regions henv h ha hscan hids
    rw [hregions] at hcount
    rw [hdisk] at hends hcount hroom ⊢
    have hlen : chain.length ≤ 2 := by
      match chain, hlayout, hcount with
      | [], _, _ => exact Nat.zero_le 2
      | [_], _, _ => exact Nat.le_succ 1
      | [_, _], _, _ => exact Nat.le_refl 2
      | _ :: _ :: u :: _, hlayout, hcount =>
          have hone := hcount u (by simp)
          rw [List.count_eq_zero.2 (hlayout.third_notMem depth)] at hone
          cases hone
    refine ⟨hlen, ?_⟩
    have hends' := (hlayout.first_two hlen).1
    unfold Disks.Room at hroom ⊢
    rcases Nat.le_total depth 3 with hle | hle
    · rwa [mbrRegions_of_le hends hle]
    · rwa [mbrRegions_of_le hends' hle] at hroom
  · rintro ⟨hlen, hroom⟩
    obtain ⟨hends, hcount⟩ := hlayout.first_two hlen
    rw [← hdisk] at hends hcount
    obtain ⟨n, s', l', hscan, hgrows⟩ := Scan.exists_mbrPartEnds henv h ha hroom hends
    refine ⟨3, n, s', l', hscan, hgrows.ids, ?_⟩
    rw [hgrows.regions]
    exact hcount

def logical (record : ℕ) : Logical := ⟨record, 20, 0x83, 1, 19⟩

/-- Three logical partitions in an extended partition of ninety sectors. -/
def threeLogicals : AtaRequest → Option Bytes :=
  dosDisk [(0, [(0x05, 10, 90)]), (10, [(0x83, 1, 19), (0x05, 20, 20)]),
    (30, [(0x83, 1, 19), (0x05, 40, 20)]), (50, [(0x83, 1, 19)])]

theorem logical_plain (record : ℕ) : PlainType (logical record).partType := by
  change PlainType 0x83
  exact ⟨by decide, by decide, by decide⟩

theorem recordAt_dosDisk {records : List (ℕ × List (ℕ × ℕ × ℕ))} {sector : ℕ}
    {entries : List (ℕ × ℕ × ℕ)} (h : records.find? (fun r => r.1 = sector) = some (sector, entries))
    (devId : ℕ) : recordAt (dosDisk records) devId sector = some (dosRecord entries) := by
  have hfind : (fun r : ℕ × List (ℕ × ℕ × ℕ) =>
      decide (r.1 * 512 + 0x1be = sector * ataSectorSize + 0x1be)) =
        fun r => decide (r.1 = sector) := by
    funext r
    rw [decide_eq_decide]
    lia
  unfold recordAt dosDisk
  rw [hfind, h]
  rfl

theorem twoLogicals_layout : DosLayout twoLogicals 0 100 10 90 [logical 0, logical 20] where
  mbr := by
    refine ⟨dosRecord [(0x05, 10, 90)], 0, recordAt_dosDisk rfl 0, by with_unfolding_all decide, by decide,
      by with_unfolding_all decide, fun i hi hne => .inl ?_⟩
    obtain rfl | rfl | rfl : i = 1 ∨ i = 2 ∨ i = 3 := by omega
    all_goals with_unfolding_all decide
  sectors_lt := by decide
  first_pos := by decide
  inside := by decide
  chained := by
    refine ⟨⟨dosRecord [(0x83, 1, 19), (0x05, 20, 20)], recordAt_dosDisk rfl 0, ?_⟩,
      ⟨dosRecord [(0x83, 1, 19)], recordAt_dosDisk rfl 0, ?_⟩, trivial⟩
    all_goals with_unfolding_all decide
  ne_nil := by decide
  head := by
    rintro p ⟨⟩
    rfl
  fits := by
    intro p hp
    rw [List.mem_cons, List.mem_singleton] at hp
    rcases hp with rfl | rfl
    · exact ⟨logical_plain 0, by decide⟩
    · exact ⟨logical_plain 20, by decide⟩
  apart := by decide

theorem threeLogicals_layout :
    DosLayout threeLogicals 0 100 10 90 [logical 0, logical 20, logical 40] where
  mbr := by
    refine ⟨dosRecord [(0x05, 10, 90)], 0, recordAt_dosDisk rfl 0, by with_unfolding_all decide, by decide,
      by with_unfolding_all decide, fun i hi hne => .inl ?_⟩
    obtain rfl | rfl | rfl : i = 1 ∨ i = 2 ∨ i = 3 := by omega
    all_goals with_unfolding_all decide
  sectors_lt := by decide
  first_pos := by decide
  inside := by decide
  chained := by
    refine ⟨⟨dosRecord [(0x83, 1, 19), (0x05, 20, 20)], recordAt_dosDisk rfl 0, ?_⟩,
      ⟨dosRecord [(0x83, 1, 19), (0x05, 40, 20)], recordAt_dosDisk rfl 0, ?_⟩,
      ⟨dosRecord [(0x83, 1, 19)], recordAt_dosDisk rfl 0, ?_⟩, trivial⟩
    all_goals with_unfolding_all decide
  ne_nil := by decide
  head := by
    rintro p ⟨⟩
    rfl
  fits := by
    intro p hp
    rw [List.mem_cons, List.mem_cons, List.mem_singleton] at hp
    rcases hp with rfl | rfl | rfl
    · exact ⟨logical_plain 0, by decide⟩
    · exact ⟨logical_plain 20, by decide⟩
    · exact ⟨logical_plain 40, by decide⟩
  apart := by decide

/-- The two logical partitions of a disk of a hundred sectors. -/
theorem logicals_registered_two :
    ∃ depth n s' l',
      Scan.mbrPartEnds (ampleMemory twoLogicals) depth oneDisk 0 = some (n, s') ∧
        s'.disks.Ids (0x1000 :: l') ∧
          (l'.map fun b => (s'.disks.mem b).region).count ⟨0, 11, 19⟩ = 1 ∧
            (l'.map fun b => (s'.disks.mem b).region).count ⟨0, 31, 19⟩ = 1 := by
  obtain ⟨depth, n, s', l', hscan, hids, hcount⟩ :=
    (logicals_registered_iff (ampleMemory_steady _) oneDisk_ids (List.mem_singleton_self _) rfl
      twoLogicals_layout).2 ⟨Nat.le_refl 2, by unfold Disks.Room; with_unfolding_all decide⟩
  exact ⟨depth, n, s', l', hscan, hids, hcount (logical 0) (by simp), hcount (logical 20) (by simp)⟩

/-- The third of three logical partitions is missed, to whatever depth the scan goes. -/
theorem third_logical_missed :
    DosLayout threeLogicals 0 100 10 90 [logical 0, logical 20, logical 40] ∧
      (ampleMemory threeLogicals).Steady threeLogicals ∧ oneDisk.disks.Ids [0x1000] ∧
        (oneDisk.disks.mem 0x1000).region = ⟨0, 0, 100⟩ ∧
      ¬ ∃ depth n s' l',
        Scan.mbrPartEnds (ampleMemory threeLogicals) depth oneDisk 0 = some (n, s') ∧
          s'.disks.Ids ([0x1000] ++ l') ∧ ∀ p ∈ [logical 0, logical 20, logical 40],
            (l'.map fun b => (s'.disks.mem b).region).count (p.region 0 10) = 1 := by
  refine ⟨threeLogicals_layout, ampleMemory_steady _, oneDisk_ids, rfl, ?_⟩
  rintro ⟨depth, n, s', l', hscan, hids, hcount⟩
  obtain ⟨-, -, hregions⟩ := Scan.mbrPartEnds_regions (ampleMemory_steady _) oneDisk_ids
    (List.mem_singleton_self _) hscan hids
  have hone := hcount (logical 40) (by simp)
  have hnot : (logical 40).region 0 10 ∉
      (mbrRegions threeLogicals depth (some (oneDisk.disks.mem 0x1000).region)).2 :=
    threeLogicals_layout.third_notMem depth
  rw [hregions, List.count_eq_zero.2 hnot] at hone
  cases hone

end BitchKernel
