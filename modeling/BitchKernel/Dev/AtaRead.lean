import BitchKernel.Dev.Ata

/-!
# What a read of a drive returns

A loop over words stores the bytes of the request and no other byte, as long as the positions
fit in an `int`. The sectors a read waits for end in front of the last sector of the drive, so
a read returns the whole of a request exactly when the request ends there too.
-/

namespace BitchKernel

open Lib

/-! ## The words of a read -/

theorem inw_low (disk : Bytes) (lba n i : ℕ) :
    BitVec.ofNat 8 (inw disk lba n i) = disk ((lba + n) * ataSectorSize + i * 2) := by
  have hlow := (disk ((lba + n) * ataSectorSize + i * 2)).isLt
  apply BitVec.eq_of_toNat_eq
  rw [inw, Bytes.le, BitVec.toNat_ofNat]
  omega

theorem inw_high (disk : Bytes) (lba n i : ℕ) :
    BitVec.ofNat 8 (inw disk lba n i / 2 ^ 8) =
      disk ((lba + n) * ataSectorSize + i * 2 + 1) := by
  have hlow := (disk ((lba + n) * ataSectorSize + i * 2)).isLt
  have hhigh := (disk ((lba + n) * ataSectorSize + i * 2 + 1)).isLt
  apply BitVec.eq_of_toNat_eq
  rw [inw, Bytes.le, Bytes.le, Bytes.le, BitVec.toNat_ofNat]
  omega

theorem intToU64_of_lt {x : ℕ} (h : x < 2 ^ 31) : intToU64 x = x := by
  unfold intToU64
  rw [Nat.mod_eq_of_lt (by omega), if_pos h]

theorem intToU64_of_le {x : ℕ} (h : 2 ^ 31 ≤ x) (hlt : x < 2 ^ 32) :
    intToU64 x = x + (2 ^ 64 - 2 ^ 32) := by
  unfold intToU64
  rw [Nat.mod_eq_of_lt hlt, if_neg (by omega)]

/-- The position of a byte of the buffer that the position `x` of the sectors belongs to. -/
theorem readIndex_iff {x offect count k : ℕ} (hx : x < 2 ^ 32) (hoff : offect < 2 ^ 31)
    (hcount : count < 2 ^ 32) :
    (offect ≤ intToU64 x ∧ sub64 (intToU64 x) offect < count) ∧
        k = sub64 (intToU64 x) offect % 2 ^ 32 ↔
      k < count ∧ offect + k = x ∧ x < 2 ^ 31 := by
  rcases Nat.lt_or_ge x (2 ^ 31) with hlt | hge
  · rw [intToU64_of_lt hlt]
    by_cases hle : offect ≤ x
    · rw [sub64_of_le hle (by omega), Nat.mod_eq_of_lt (by omega)]
      omega
    · omega
  · -- an `int` from `2 ^ 31` on is a huge `_u64_t`, behind every request
    rw [intToU64_of_le hge hx, sub64_of_le (by omega) (by omega)]
    omega

theorem add64_sub64_one {x offect : ℕ} (h : offect ≤ intToU64 (x + 1)) (hx : x + 1 < 2 ^ 32)
    (heven : x % 2 = 0) :
    add64 (sub64 (intToU64 x) offect) 1 = sub64 (intToU64 (x + 1)) offect := by
  have hsucc : intToU64 (x + 1) = intToU64 x + 1 := by
    rcases Nat.lt_or_ge x (2 ^ 31) with hlt | hge
    · rw [intToU64_of_lt hlt, intToU64_of_lt (by omega)]
    · have hword := intToU64_of_le hge (by omega)
      have hnext := intToU64_of_le (x := x + 1) (by omega) hx
      omega
  have hlt : intToU64 (x + 1) < 2 ^ 64 := by
    unfold intToU64
    split <;> omega
  rw [sub64_of_le h hlt, hsucc]
  rw [hsucc] at h hlt
  exact Word.add_sub_of_lt h (by omega) (by omega)

theorem ataReadWord_apply (disk buf : Bytes) {lba count offect n i : ℕ} (hcount : count < 2 ^ 32)
    (hoff : offect < ataSectorSize) (hword : n * ataSectorSize + i * 2 < 2 ^ 32) (k : ℕ) :
    ataReadWord disk lba count offect n i buf k =
      if k < count ∧ n * ataSectorSize + i * 2 ≤ offect + k ∧
          offect + k < n * ataSectorSize + i * 2 + 2 ∧ offect + k < 2 ^ 31 then
        disk (lba * ataSectorSize + offect + k)
      else buf k := by
  have hlba : (lba + n) * ataSectorSize + i * 2 =
      lba * ataSectorSize + (n * ataSectorSize + i * 2) := by
    lia
  have heven : (n * ataSectorSize + i * 2) % 2 = 0 := by
    lia
  obtain ⟨x, hx⟩ : ∃ x, n * ataSectorSize + i * 2 = x := ⟨_, rfl⟩
  simp only [hx] at heven hword hlba ⊢
  have hoff31 : offect < 2 ^ 31 := by lia
  have hlow := readIndex_iff (k := k) hword hoff31 hcount
  have hhigh := readIndex_iff (k := k) (x := x + 1) (by omega) hoff31 hcount
  unfold ataReadWord
  simp only [inw_low, inw_high, hlba, hx, Bytes.update_if_apply]
  by_cases hle : offect ≤ intToU64 (x + 1)
  · rw [add64_sub64_one hle (by omega) heven]
    simp only [hlow, hhigh]
    by_cases hkhigh : k < count ∧ offect + k = x + 1 ∧ x + 1 < 2 ^ 31
    · rw [if_pos hkhigh, if_pos (by omega)]
      exact congrArg disk (by lia)
    · rw [if_neg hkhigh]
      by_cases hklow : k < count ∧ offect + k = x ∧ x < 2 ^ 31
      · rw [if_pos hklow, if_pos (by omega)]
        exact congrArg disk (by lia)
      · rw [if_neg hklow, if_neg (by omega)]
  · -- the request starts behind the word
    have hlt : x + 1 < 2 ^ 31 := by
      by_contra hge
      rw [intToU64_of_le (by omega) (by omega)] at hle
      lia
    rw [intToU64_of_lt hlt] at hle
    rw [if_neg (fun h => absurd (intToU64_of_lt hlt ▸ h.1.1) hle)]
    simp only [hlow]
    rw [if_neg (by omega), if_neg (by omega)]

theorem ataReadSector_apply (disk buf : Bytes) {lba count offect n i : ℕ} (hcount : count < 2 ^ 32)
    (hoff : offect < ataSectorSize) (hword : n * ataSectorSize + i * 2 ≤ 2 ^ 32) (k : ℕ) :
    ataReadSector disk lba count offect n i buf k =
      if k < count ∧ n * ataSectorSize ≤ offect + k ∧
          offect + k < n * ataSectorSize + i * 2 ∧ offect + k < 2 ^ 31 then
        disk (lba * ataSectorSize + offect + k)
      else buf k := by
  induction i with
  | zero => rw [ataReadSector, if_neg (by lia)]
  | succ i ih =>
      rw [ataReadSector, ataReadWord_apply _ _ hcount hoff (by lia), ih (by lia)]
      by_cases hlast : k < count ∧ n * ataSectorSize + i * 2 ≤ offect + k ∧
          offect + k < n * ataSectorSize + i * 2 + 2 ∧ offect + k < 2 ^ 31
      · rw [if_pos hlast, if_pos (by lia)]
      · rw [if_neg hlast]
        exact if_congr (by lia) rfl rfl

theorem ataReadData_apply (disk buf : Bytes) {lba count offect sectorCount : ℕ}
    (hcount : count < 2 ^ 32) (hoff : offect < ataSectorSize)
    (hsector : sectorCount * ataSectorSize ≤ 2 ^ 32) (k : ℕ) :
    ataReadData disk lba count offect sectorCount buf k =
      if k < count ∧ offect + k < sectorCount * ataSectorSize ∧ offect + k < 2 ^ 31 then
        disk (lba * ataSectorSize + offect + k)
      else buf k := by
  induction sectorCount with
  | zero => rw [ataReadData, if_neg (by lia)]
  | succ n ih =>
      rw [ataReadData, ataReadSector_apply _ _ hcount hoff (by lia), ih (by lia)]
      by_cases hlast : k < count ∧ n * ataSectorSize ≤ offect + k ∧
          offect + k < n * ataSectorSize + ataSectorSize / 2 * 2 ∧ offect + k < 2 ^ 31
      · rw [if_pos hlast, if_pos (by lia)]
      · rw [if_neg hlast]
        exact if_congr (by lia) rfl rfl

/-! ## The sectors of a request -/

/-- The number of sectors that the count register of a command can name. -/
def AtaState.limit : AtaState → ℕ
  | .lba48 => 2 ^ 16
  | _ => 2 ^ 8

namespace Ata

/-- A drive in LBA mode whose sectors have addresses in that mode, and which answers no
command with the error bit. -/
structure LbaDrive (ata : Ata) (n : ℕ) : Prop where
  lt : n < 4
  mode : ata.state n = .lba28 ∧ ata.sectors n ≤ 2 ^ 28 ∨
    ata.state n = .lba48 ∧ ata.sectors n ≤ 2 ^ 48
  error : ∀ command, ata.error n command = false

variable {ata : Ata} {n count offect : ℕ}

theorem LbaDrive.sectors_le (h : ata.LbaDrive n) : ata.sectors n ≤ 2 ^ 48 := by
  rcases h.mode with ⟨-, hle⟩ | ⟨-, hle⟩ <;> omega

/-- The command for the sectors of a request names the first sector, and their number modulo
what the register holds. -/
theorem LbaDrive.command (h : ata.LbaDrive n) (sectorCount : ℕ) {startSector : ℕ}
    (hstart : startSector < ata.sectors n) :
    ∃ command, ataCommand (ata.state n) sectorCount startSector = some command ∧
      command.lba = startSector ∧
      command.sectorCount =
        if sectorCount % (ata.state n).limit = 0 then (ata.state n).limit
        else sectorCount % (ata.state n).limit := by
  rcases h.mode with ⟨hstate, hle⟩ | ⟨hstate, hle⟩
  · rw [hstate]
    refine ⟨_, rfl, ?_, rfl⟩
    simp only [ataLba28Attr]
    omega
  · rw [hstate]
    refine ⟨_, rfl, ?_, rfl⟩
    simp only [ataLba48Attr]
    omega

/-- The end of a request is rounded up to a sector, and cut off at the last one. -/
theorem LbaDrive.endSector_eq (h : ata.LbaDrive n) (hcount : count < 2 ^ 32)
    (hstart : offect / ataSectorSize < ata.sectors n) :
    ata.endSector n count offect =
      min ((offect + count + (ataSectorSize - 1)) / ataSectorSize) (ata.sectors n - 1) := by
  have hle := h.sectors_le
  unfold endSector
  rw [add64_eq, add64_eq, Nat.mod_eq_of_lt (b := 2 ^ 64) (by lia),
    Nat.mod_eq_of_lt (b := 2 ^ 64) (by lia), sub64_of_le (by lia) (by lia),
    sub64_of_le (by lia) (by lia)]
  dsimp only
  split <;> lia

theorem LbaDrive.sectorCount_eq (h : ata.LbaDrive n) (hcount : count < 2 ^ 32)
    (hstart : offect / ataSectorSize < ata.sectors n) :
    ata.sectorCount n count offect =
      min ((offect % ataSectorSize + count + (ataSectorSize - 1)) / ataSectorSize)
        (ata.sectors n - 1 - offect / ataSectorSize) := by
  have hle := h.sectors_le
  unfold sectorCount
  rw [h.endSector_eq hcount hstart, sub64_of_le (by lia) (by lia)]
  lia

theorem clampCount_of_lt {count sectorCount startOffect : ℕ} (hcount : count < 2 ^ 32)
    (hsector : sectorCount * ataSectorSize < 2 ^ 32)
    (hstart : startOffect ≤ sectorCount * ataSectorSize) :
    clampCount count sectorCount startOffect =
      min count (sectorCount * ataSectorSize - startOffect) := by
  unfold clampCount
  rw [mul32_of_lt hsector, sub64_of_le hstart (by omega)]
  split <;> omega

theorem clampCount_wrap {count startOffect : ℕ} (hcount : count < 2 ^ 32)
    (hstart : startOffect < ataSectorSize) :
    clampCount count (2 ^ 23) startOffect = if startOffect = 0 then 0 else count := by
  unfold clampCount
  rw [show mul32 (2 ^ 23) ataSectorSize = 0 from by rw [mul32_eq]; rfl]
  by_cases hzero : startOffect = 0
  · rw [if_pos hzero, hzero, sub64_of_le (Nat.le_refl 0) (by omega)]
    split <;> omega
  · rw [if_neg hzero, sub64_of_lt (by omega) (by lia), if_neg (by lia)]

theorem clampCount_wrap_succ {count startOffect : ℕ} (hstart : startOffect < ataSectorSize) :
    clampCount count (2 ^ 23 + 1) startOffect = min count (ataSectorSize - startOffect) := by
  unfold clampCount
  rw [show mul32 (2 ^ 23 + 1) ataSectorSize = ataSectorSize from by rw [mul32_eq]; rfl,
    sub64_of_le (by lia) (by lia)]
  split <;> lia

/-! ## Reads -/

/-- `ata_read` answers how many bytes of the request the drive has, and stores these bytes and
no other. -/
def ReadsWhole (ata : Ata) (n : ℕ) (buf : Bytes) (count offect : ℕ) : Prop :=
  (ata.ataRead n buf count offect).1 = (min count (ata.sectors n * ataSectorSize - offect) : ℕ) ∧
    ∀ k, (ata.ataRead n buf count offect).2 k =
      if k < min count (ata.sectors n * ataSectorSize - offect) then ata.disk n (offect + k)
      else buf k

theorem ataRead_of_le (buf : Bytes) (hn : n < 4) (hstart : ata.sectors n ≤ offect / ataSectorSize) :
    ata.ataRead n buf count offect = (0, buf) := by
  unfold ataRead
  rw [if_neg (by omega)]
  exact if_pos hstart

theorem LbaDrive.ataRead_eq (h : ata.LbaDrive n) (buf : Bytes)
    (hstart : offect / ataSectorSize < ata.sectors n) :
    ata.ataRead n buf count offect =
      if ata.sectorCount n count offect = 0 then (0, buf)
      else
        let clamped :=
          clampCount count (ata.sectorCount n count offect) (offect % ataSectorSize)
        (toSigned clamped,
          ataReadData (ata.disk n) (offect / ataSectorSize) clamped (offect % ataSectorSize)
            (ata.sectorCount n count offect) buf) := by
  obtain ⟨command, hcommand, hlba, -⟩ := h.command (ata.sectorCount n count offect) hstart
  unfold ataRead
  rw [if_neg (by have := h.lt; omega), if_neg (by omega)]
  simp only [hcommand, h.error, hlba, Bool.false_eq_true, if_false]

/-- A read whose positions fit in an `int` returns the part of the request in front of the
last sector. -/
theorem LbaDrive.ataRead_spec (h : ata.LbaDrive n) (buf : Bytes)
    (hstart : offect / ataSectorSize < ata.sectors n)
    (hlong : offect % ataSectorSize + count ≤ 2 ^ 31) :
    (ata.ataRead n buf count offect).1 =
        toSigned (min count ((ata.sectors n - 1) * ataSectorSize - offect)) ∧
      ∀ k, (ata.ataRead n buf count offect).2 k =
        if k < min count ((ata.sectors n - 1) * ataSectorSize - offect) then
          ata.disk n (offect + k)
        else buf k := by
  have hcount : count < 2 ^ 32 := by omega
  have hsector := h.sectorCount_eq hcount hstart
  rw [h.ataRead_eq buf hstart]
  by_cases hzero : ata.sectorCount n count offect = 0
  · have hnone : min count ((ata.sectors n - 1) * ataSectorSize - offect) = 0 := by lia
    rw [if_pos hzero, hnone]
    exact ⟨rfl, fun k => (if_neg (by omega)).symm⟩
  · rw [if_neg hzero]
    dsimp only
    rw [clampCount_of_lt hcount (by lia) (by lia)]
    have hclamp : min count (ata.sectorCount n count offect * ataSectorSize -
        offect % ataSectorSize) = min count ((ata.sectors n - 1) * ataSectorSize - offect) := by
      lia
    rw [hclamp]
    refine ⟨rfl, fun k => ?_⟩
    rw [ataReadData_apply _ _ (by omega) (Nat.mod_lt _ (by decide)) (by lia)]
    have hattr : offect / ataSectorSize * ataSectorSize + offect % ataSectorSize = offect :=
      Nat.div_add_mod' offect ataSectorSize
    rw [hattr]
    exact if_congr (by lia) rfl rfl

theorem lt_of_toSigned_eq {x y : ℕ} (h : toSigned x = y) (hx : x < 2 ^ 32) : x = y ∧ x < 2 ^ 31 := by
  unfold toSigned at h
  split at h <;> omega

theorem LbaDrive.withDisk (h : ata.LbaDrive n) (disk : ℕ → Bytes) :
    LbaDrive { ata with disk := disk } n :=
  ⟨h.lt, h.mode, h.error⟩

/-- From position `2 ^ 31` on the test of `ata_read_data` fails, and a count of that size is
below zero. -/
theorem LbaDrive.not_readsWhole (h : ata.LbaDrive n) (hcount : count < 2 ^ 32)
    (hstart : offect < ata.sectors n * ataSectorSize)
    (hlong : 2 ^ 31 < offect % ataSectorSize + count) :
    ¬ ∀ (disk : ℕ → Bytes) (buf : Bytes),
      ReadsWhole { ata with disk := disk } n buf count offect := by
  intro hall
  obtain ⟨hanswer, hbytes⟩ := hall (fun _ _ => 1) (fun _ => 0)
  have hlt : offect / ataSectorSize < ata.sectors n := by lia
  have hmod : offect % ataSectorSize < ataSectorSize := Nat.mod_lt _ (by decide)
  have hdrive := h.withDisk (fun _ _ => 1)
  have hsector := hdrive.sectorCount_eq hcount hlt
  rw [hdrive.ataRead_eq _ hlt] at hanswer hbytes
  generalize Ata.sectorCount { ata with disk := fun _ _ => 1 } n count offect = sectorCount
    at hsector hanswer hbytes
  by_cases hzero : sectorCount = 0
  · rw [if_pos hzero] at hanswer
    lia
  · rw [if_neg hzero] at hanswer hbytes
    dsimp only at hanswer hbytes hsector
    rcases Nat.lt_trichotomy sectorCount (2 ^ 23) with hsmall | hwrap | hwrap
    · rw [clampCount_of_lt hcount (by lia) (by lia)] at hanswer hbytes
      obtain ⟨hclamp, hbound⟩ := lt_of_toSigned_eq hanswer (by lia)
      have hlast := hbytes (2 ^ 31 - offect % ataSectorSize)
      rw [ataReadData_apply _ _ (by lia) hmod (by lia), if_neg (by lia), if_pos (by lia)] at hlast
      exact absurd hlast (by decide)
    · rw [hwrap, clampCount_wrap hcount hmod] at hanswer
      obtain ⟨hclamp, hbound⟩ := lt_of_toSigned_eq hanswer (by split <;> omega)
      split at hclamp <;> lia
    · have hsucc : sectorCount = 2 ^ 23 + 1 := by lia
      rw [hsucc, clampCount_wrap_succ hmod] at hanswer
      obtain ⟨hclamp, hbound⟩ := lt_of_toSigned_eq hanswer (by lia)
      lia

/-- A read returns the whole of a request exactly when there is nothing to return, or the
request ends in front of the last sector and its positions fit in an `int`. -/
theorem readsWhole_iff (h : ata.LbaDrive n) (hcount : count < 2 ^ 32) :
    (∀ (disk : ℕ → Bytes) (buf : Bytes),
        ReadsWhole { ata with disk := disk } n buf count offect) ↔
      ata.sectors n * ataSectorSize ≤ offect ∨ count = 0 ∨
        offect + count ≤ (ata.sectors n - 1) * ataSectorSize ∧ count < 2 ^ 31 ∧
          offect % ataSectorSize + count ≤ 2 ^ 31 := by
  have hmod : offect % ataSectorSize < ataSectorSize := Nat.mod_lt _ (by decide)
  rcases Nat.lt_or_ge offect (ata.sectors n * ataSectorSize) with hlt | hend
  · have hstart : offect / ataSectorSize < ata.sectors n := by lia
    rcases Nat.lt_or_ge (2 ^ 31) (offect % ataSectorSize + count) with hlong | hshort
    · have hno := h.not_readsWhole hcount hlt hlong
      constructor
      · intro hall
        exact absurd hall hno
      · intro hcond
        lia
    · constructor
      · intro hall
        have hanswer := (hall ata.disk (fun _ => 0)).1
        rw [((h.withDisk _).ataRead_spec _ hstart hshort).1] at hanswer
        obtain ⟨hclamp, hbound⟩ := lt_of_toSigned_eq hanswer (by omega)
        dsimp only at hclamp hbound
        lia
      · intro hcond disk buf
        have hwhole : min count ((ata.sectors n - 1) * ataSectorSize - offect) =
            min count (ata.sectors n * ataSectorSize - offect) := by
          lia
        have hspec := (h.withDisk disk).ataRead_spec buf hstart hshort
        dsimp only at hspec
        rw [hwhole, toSigned_of_lt (by lia)] at hspec
        exact hspec
  · refine ⟨fun _ => Or.inl hend, fun _ disk buf => ?_⟩
    have hnone : min count (ata.sectors n * ataSectorSize - offect) = 0 := by omega
    have hstart : ata.sectors n ≤ offect / ataSectorSize := by lia
    unfold ReadsWhole
    rw [ataRead_of_le buf h.lt (by exact hstart)]
    dsimp only
    rw [hnone]
    exact ⟨rfl, fun k => (if_neg (by omega)).symm⟩

end Ata

def twoSectors : Ata where
  state := fun _ => .lba28
  sectors := fun _ => 2
  buf1 := fun _ => 0
  buf2 := fun _ => 0
  disk := fun _ _ => 0
  error := fun _ _ => false

theorem twoSectors_lbaDrive : twoSectors.LbaDrive 0 :=
  ⟨by decide, Or.inl ⟨rfl, by decide⟩, fun _ => rfl⟩

theorem readsWhole_iff_twoSectors :
    Ata.ReadsWhole { twoSectors with disk := fun _ k => BitVec.ofNat 8 k } 0 (fun _ => 0) 512 0 :=
  (Ata.readsWhole_iff twoSectors_lbaDrive (by decide : 512 < 2 ^ 32)).2
    (Or.inr (Or.inr (by decide))) _ _

/-- The first byte of the last sector is not read: the answer is zero. -/
theorem lastSector_not_read :
    twoSectors.LbaDrive 0 ∧ (twoSectors.ataRead 0 (fun _ => 0) 1 512).1 = 0 ∧
      ¬ twoSectors.ReadsWhole 0 (fun _ => 0) 1 512 := by
  have hanswer : (twoSectors.ataRead 0 (fun _ => 0) 1 512).1 = 0 := by with_unfolding_all decide
  refine ⟨twoSectors_lbaDrive, hanswer, fun hwhole => ?_⟩
  have hfirst := hwhole.1
  rw [hanswer] at hfirst
  exact absurd hfirst (by decide)

end BitchKernel
