import BitchKernel.Dev.AtaRead

/-!
# What a write to a drive changes

A write sends whole sectors: the bytes in front of the request come from `buf_1`, the bytes
behind it from `buf_2`, and both arrays are read from the drive before. The drive stores what
it is sent for the sectors of its count register. A write changes what it reports exactly when
the register holds the number of sectors, up to counts that are below zero as an `int` and the
last sector of the drive, which is never sent.
-/

namespace BitchKernel

open Lib

/-! ## The words of a write -/

/-- The byte that a write sends for the position `x` of its sectors. -/
def sentByte (buf1 buf2 buf : Bytes) (count offect x : ℕ) : BitVec 8 :=
  if x < offect then buf1 x
  else if count ≤ x - offect then buf2 (x - offect - count)
  else buf (x - offect)

section Words

variable {buf1 buf2 buf : Bytes} {count offect n i : ℕ}

theorem ataWriteLow_eq (hoff : offect < ataSectorSize)
    (hword : n * ataSectorSize + i * 2 < 2 ^ 31) :
    ataWriteLow buf1 buf2 buf count offect n i =
      sentByte buf1 buf2 buf count offect (n * ataSectorSize + i * 2) := by
  unfold ataWriteLow sentByte
  rw [intToU64_of_lt hword]
  by_cases hlt : n * ataSectorSize + i * 2 < offect
  · have hn : n = 0 := by lia
    rw [if_pos hlt, if_pos hlt, hn, Nat.zero_mul, Nat.zero_add]
  · have hindex : sub64 (n * ataSectorSize + i * 2) offect = n * ataSectorSize + i * 2 - offect :=
      sub64_of_le (by lia) (by lia)
    rw [if_neg hlt, if_neg hlt, hindex]
    by_cases hle : count ≤ n * ataSectorSize + i * 2 - offect
    · rw [if_pos hle, if_pos hle, sub64_of_le hle (by lia), Nat.mod_eq_of_lt (by lia)]
    · rw [if_neg hle, if_neg hle, Nat.mod_eq_of_lt (by lia)]

theorem ataWriteHigh_eq (hoff : offect < ataSectorSize)
    (hcount : count < 2 ^ 32) (hword : n * ataSectorSize + i * 2 < 2 ^ 31) :
    ataWriteHigh buf1 buf2 buf count offect n i =
      sentByte buf1 buf2 buf count offect (n * ataSectorSize + i * 2 + 1) := by
  unfold ataWriteHigh sentByte
  rw [intToU64_of_lt hword, intToU64_of_lt (x := n * ataSectorSize + i * 2 + 1) (by lia)]
  by_cases hlt : n * ataSectorSize + i * 2 + 1 < offect
  · have hn : n = 0 := by lia
    rw [if_pos hlt, if_pos hlt, hn, Nat.zero_mul, Nat.zero_add]
  · have hindex : add64 (sub64 (n * ataSectorSize + i * 2) offect) 1 =
        n * ataSectorSize + i * 2 + 1 - offect :=
      Word.add_sub_of_lt (by lia) (by lia) (by lia)
    rw [if_neg hlt, if_neg hlt, hindex]
    by_cases hle : count ≤ n * ataSectorSize + i * 2 + 1 - offect
    · have hbehind : add64 (sub64 (sub64 (n * ataSectorSize + i * 2) offect) count) 1 =
          n * ataSectorSize + i * 2 + 1 - offect - count := by
        rcases Nat.lt_or_ge (n * ataSectorSize + i * 2) offect with hodd | hge
        · -- the request is empty and starts at the high byte
          have hzero : count = 0 := by lia
          have hlow := Word.sub_lt 64 (n * ataSectorSize + i * 2) offect
          rw [hzero, sub64_of_le (Nat.zero_le _) hlow, Nat.sub_zero, Nat.sub_zero, hindex]
        · have hlow : sub64 (n * ataSectorSize + i * 2) offect =
              n * ataSectorSize + i * 2 - offect :=
            sub64_of_le hge (by lia)
          have hsub : add64 (sub64 (n * ataSectorSize + i * 2 - offect) count) 1 =
              n * ataSectorSize + i * 2 - offect + 1 - count :=
            Word.add_sub_of_lt (by lia) (by lia) (by lia)
          rw [hlow, hsub]
          lia
      rw [if_pos hle, if_pos hle, hbehind, Nat.mod_eq_of_lt (by lia)]
    · rw [if_neg hle, if_neg hle, Nat.mod_eq_of_lt (by lia)]

variable {command : AtaCommand} {disk : Bytes}

theorem outw_apply (low high : BitVec 8) (k : ℕ) :
    outw command n i low high disk k =
      if n < command.sectorCount ∧ k = (command.lba + n) * ataSectorSize + i * 2 + 1 then high
      else if n < command.sectorCount ∧ k = (command.lba + n) * ataSectorSize + i * 2 then low
      else disk k := by
  unfold outw
  by_cases hn : n < command.sectorCount
  · rw [if_pos hn, Function.update_apply, Function.update_apply]
    simp only [hn, true_and]
  · rw [if_neg hn, if_neg (fun h => hn h.1), if_neg (fun h => hn h.1)]

theorem ataWriteSector_apply (hoff : offect < ataSectorSize) (hcount : count < 2 ^ 32)
    (hcommand : command.sectorCount ≤ 2 ^ 16) (hi : i ≤ 0x100) (k : ℕ) :
    ataWriteSector command buf1 buf2 buf count offect n i disk k =
      if n < command.sectorCount ∧ (command.lba + n) * ataSectorSize ≤ k ∧
          k < (command.lba + n) * ataSectorSize + i * 2 then
        sentByte buf1 buf2 buf count offect (k - command.lba * ataSectorSize)
      else disk k := by
  induction i with
  | zero => rw [ataWriteSector, if_neg (by lia)]
  | succ i ih =>
      rw [ataWriteSector, outw_apply, ih (by omega)]
      by_cases hn : n < command.sectorCount
      · rw [ataWriteLow_eq hoff (by lia), ataWriteHigh_eq hoff hcount (by lia)]
        simp only [hn, true_and]
        by_cases hhigh : k = (command.lba + n) * ataSectorSize + i * 2 + 1
        · rw [if_pos hhigh, if_pos (by lia)]
          exact congrArg _ (by lia)
        · rw [if_neg hhigh]
          by_cases hlow : k = (command.lba + n) * ataSectorSize + i * 2
          · rw [if_pos hlow, if_pos (by lia)]
            exact congrArg _ (by lia)
          · rw [if_neg hlow]
            exact if_congr (by lia) rfl rfl
      · rw [if_neg (fun h => hn h.1), if_neg (fun h => hn h.1), if_neg (fun h => hn h.1),
          if_neg (fun h => hn h.1)]

theorem ataWriteData_apply (hoff : offect < ataSectorSize) (hcount : count < 2 ^ 32)
    (hcommand : command.sectorCount ≤ 2 ^ 16) (sectorCount k : ℕ) :
    ataWriteData command buf1 buf2 buf count offect sectorCount disk k =
      if command.lba * ataSectorSize ≤ k ∧
          k < (command.lba + min sectorCount command.sectorCount) * ataSectorSize then
        sentByte buf1 buf2 buf count offect (k - command.lba * ataSectorSize)
      else disk k := by
  induction sectorCount with
  | zero => rw [ataWriteData, if_neg (by lia)]
  | succ n ih =>
      rw [ataWriteData, ataWriteSector_apply hoff hcount hcommand (Nat.le_refl _), ih]
      by_cases hlast : n < command.sectorCount ∧ (command.lba + n) * ataSectorSize ≤ k ∧
          k < (command.lba + n) * ataSectorSize + 0x100 * 2
      · rw [if_pos hlast, if_pos (by lia)]
      · rw [if_neg hlast]
        exact if_congr (by lia) rfl rfl

end Words

/-! ## The two sections that read -/

namespace Ata

variable {ata : Ata} {n count offect : ℕ}

/-- The section in front of the request fills `buf_1`, unless the request starts in the last
sector. -/
theorem LbaDrive.ataWriteHead_spec (h : ata.LbaDrive n)
    (hstart : offect / ataSectorSize < ata.sectors n) :
    ∃ buf1, ata.ataWriteHead n offect = (true, { ata with buf1 := buf1 }) ∧
      ∀ k, buf1 k =
        if offect / ataSectorSize + 1 < ata.sectors n ∧ k < offect % ataSectorSize then
          ata.disk n (offect / ataSectorSize * ataSectorSize + k)
        else ata.buf1 k := by
  have hmod : offect % ataSectorSize < ataSectorSize := Nat.mod_lt _ (by decide)
  unfold ataWriteHead
  by_cases hzero : offect % ataSectorSize = 0
  · rw [if_neg (not_not_intro hzero), hzero]
    exact ⟨ata.buf1, rfl, fun k => (if_neg (fun hk => Nat.not_lt_zero k hk.2)).symm⟩
  · rw [if_pos hzero]
    have hdiv : offect / ataSectorSize * ataSectorSize / ataSectorSize = offect / ataSectorSize :=
      Nat.mul_div_cancel _ (by decide)
    have hrem : offect / ataSectorSize * ataSectorSize % ataSectorSize = 0 := Nat.mul_mod_left _ _
    have hfront : offect / ataSectorSize * ataSectorSize / ataSectorSize < ata.sectors n := by
      rw [hdiv]
      exact hstart
    have hshort : offect / ataSectorSize * ataSectorSize % ataSectorSize +
        offect % ataSectorSize ≤ 2 ^ 31 := by
      lia
    obtain ⟨hanswer, hbytes⟩ := h.ataRead_spec ata.buf1 hfront hshort
    obtain ⟨r, buf1, hread⟩ : ∃ r buf1, ata.ataRead n ata.buf1 (offect % ataSectorSize)
        (offect / ataSectorSize * ataSectorSize) = (r, buf1) := ⟨_, _, rfl⟩
    rw [hread] at hanswer hbytes ⊢
    dsimp only at hanswer hbytes ⊢
    rw [toSigned_of_lt (by lia)] at hanswer
    refine ⟨buf1, ?_, fun k => ?_⟩
    · rw [decide_eq_true (by omega)]
    · rw [hbytes]
      exact if_congr (by lia) rfl rfl

/-- The section behind the request fills `buf_2` up to the end of a sector, unless the request
reaches into the last sector. -/
theorem LbaDrive.ataWriteTail_spec (h : ata.LbaDrive n) (hcount : count < 2 ^ 32)
    (hstart : offect / ataSectorSize < ata.sectors n) :
    ∃ buf2, ata.ataWriteTail n count offect = (true, { ata with buf2 := buf2 }) ∧
      ∀ k, buf2 k =
        if offect + count ≤ (ata.sectors n - 1) * ataSectorSize ∧ offect + count + k <
            (offect + count + (ataSectorSize - 1)) / ataSectorSize * ataSectorSize then
          ata.disk n (offect + count + k)
        else ata.buf2 k := by
  have hle := h.sectors_le
  have hend := h.endSector_eq hcount hstart
  have hadd : add64 count offect = offect + count := by
    rw [add64_eq, Nat.add_comm, Nat.mod_eq_of_lt (by lia)]
  have hmul : mul64 (ata.endSector n count offect) ataSectorSize =
      ata.endSector n count offect * ataSectorSize := by
    rw [mul64_eq, Nat.mod_eq_of_lt (by lia)]
  have hsucc : mul64 (add64 (ata.endSector n count offect) 1) ataSectorSize =
      (ata.endSector n count offect + 1) * ataSectorSize := by
    rw [add64_eq, mul64_eq, Nat.mod_eq_of_lt (b := 2 ^ 64) (by lia), Nat.mod_eq_of_lt (by lia)]
  unfold ataWriteTail
  simp only [hadd, hmul, hsucc]
  rcases Nat.lt_or_ge ((ata.sectors n - 1) * ataSectorSize) (offect + count) with hlast | hfit
  · -- nothing is read: the end was cut off at the last sector
    by_cases hread : offect + count < (ata.endSector n count offect + 1) * ataSectorSize
    · have hnone : ∀ c < 2 ^ 32, ata.ataRead n ata.buf2 c (offect + count) = (0, ata.buf2) := by
        intro c hc
        have hbehind : (offect + count) / ataSectorSize < ata.sectors n := by lia
        have hsector := h.sectorCount_eq hc hbehind
        rw [h.ataRead_eq _ (by lia), if_pos (by lia)]
      rw [if_pos hread, hnone _ (Nat.mod_lt _ (by decide))]
      exact ⟨ata.buf2, rfl, fun k => (if_neg (by omega)).symm⟩
    · rw [if_neg hread]
      exact ⟨ata.buf2, rfl, fun k => (if_neg (by omega)).symm⟩
  · have hround : ata.endSector n count offect =
        (offect + count + (ataSectorSize - 1)) / ataSectorSize := by
      lia
    rw [if_pos (by lia), sub64_of_le (by lia) (by lia), Nat.mod_eq_of_lt (by lia), ← hround]
    have hbehind : (offect + count) / ataSectorSize < ata.sectors n := by lia
    have hshort : (offect + count) % ataSectorSize +
        (ata.endSector n count offect * ataSectorSize - (offect + count)) ≤ 2 ^ 31 := by
      lia
    obtain ⟨hanswer, hbytes⟩ := h.ataRead_spec ata.buf2 hbehind hshort
    obtain ⟨r, buf2, hread⟩ : ∃ r buf2, ata.ataRead n ata.buf2
        (ata.endSector n count offect * ataSectorSize - (offect + count)) (offect + count) =
          (r, buf2) := ⟨_, _, rfl⟩
    rw [hread] at hanswer hbytes ⊢
    dsimp only at hanswer hbytes ⊢
    rw [toSigned_of_lt (by lia)] at hanswer
    refine ⟨buf2, ?_, fun k => ?_⟩
    · rw [decide_eq_true (by omega)]
    · rw [hbytes]
      exact if_congr (by lia) rfl rfl

/-! ## Writes -/

/-- The number of sectors that the drive stores of those `ata_write` sends. -/
def storedSectors (ata : Ata) (n count offect : ℕ) : ℕ :=
  min (ata.sectorCount n count offect)
    (if ata.sectorCount n count offect % (ata.state n).limit = 0 then (ata.state n).limit
      else ata.sectorCount n count offect % (ata.state n).limit)

/-- The count after `ata_write` cut it off. -/
def clamped (ata : Ata) (n count offect : ℕ) : ℕ :=
  clampCount count (ata.sectorCount n count offect) (offect % ataSectorSize)

theorem limit_eq (state : AtaState) : state.limit = 2 ^ 8 ∨ state.limit = 2 ^ 16 := by
  cases state <;> decide

theorem clamped_lt (hcount : count < 2 ^ 32) : ata.clamped n count offect < 2 ^ 32 := by
  unfold clamped clampCount
  split
  · exact Nat.mod_lt _ (by decide)
  · exact hcount

/-- What `buf_1` holds when the sectors are sent: the bytes in front of the request. -/
def HeadHeld (ata : Ata) (n offect : ℕ) : Prop :=
  offect / ataSectorSize + 1 < ata.sectors n → ∀ k < offect % ataSectorSize,
    ata.buf1 k = ata.disk n (offect / ataSectorSize * ataSectorSize + k)

/-- What `buf_2` holds when the sectors are sent: the bytes behind the request. -/
def TailHeld (ata : Ata) (n count offect : ℕ) : Prop :=
  offect + count ≤ (ata.sectors n - 1) * ataSectorSize → ∀ k,
    offect + count + k < (offect + count + (ataSectorSize - 1)) / ataSectorSize * ataSectorSize →
      ata.buf2 k = ata.disk n (offect + count + k)

/-- The section that sends the sectors answers the count it cut off, and the drive stores what
it is sent for the sectors of its count register. -/
theorem LbaDrive.ataWriteSectors_spec (h : ata.LbaDrive n) (buf : Bytes) (hcount : count < 2 ^ 32)
    (hstart : offect / ataSectorSize < ata.sectors n) :
    ∃ disk, ata.ataWriteSectors n buf count offect =
        (toSigned (ata.clamped n count offect),
          { ata with disk := Function.update ata.disk n disk }) ∧
      ∀ k, disk k =
        if offect / ataSectorSize * ataSectorSize ≤ k ∧
            k < (offect / ataSectorSize + ata.storedSectors n count offect) * ataSectorSize then
          sentByte ata.buf1 ata.buf2 buf (ata.clamped n count offect) (offect % ataSectorSize)
            (k - offect / ataSectorSize * ataSectorSize)
        else ata.disk n k := by
  obtain ⟨command, hcommand, hlba, hsector⟩ := h.command (ata.sectorCount n count offect) hstart
  have hlimit := limit_eq (ata.state n)
  refine ⟨ataWriteData command ata.buf1 ata.buf2 buf (ata.clamped n count offect)
    (offect % ataSectorSize) (ata.sectorCount n count offect) (ata.disk n), ?_, fun k => ?_⟩
  · unfold ataWriteSectors
    simp only [hcommand, h.error, Bool.false_eq_true, if_false]
    rfl
  · have hbound : command.sectorCount ≤ 2 ^ 16 := by
      rw [hsector]
      have hmod := Nat.mod_lt (ata.sectorCount n count offect) (y := (ata.state n).limit) (by omega)
      split <;> omega
    rw [ataWriteData_apply (Nat.mod_lt _ (by decide)) (clamped_lt hcount) hbound, hlba, hsector]
    rfl

theorem LbaDrive.ataWrite_eq (h : ata.LbaDrive n) (buf : Bytes) (hcount : count < 2 ^ 32)
    (hstart : offect / ataSectorSize < ata.sectors n) :
    ∃ buf1 buf2,
      ata.ataWrite n buf count offect =
        ataWriteSectors { ata with buf1 := buf1, buf2 := buf2 } n buf count offect ∧
      (∀ k, buf1 k =
        if offect / ataSectorSize + 1 < ata.sectors n ∧ k < offect % ataSectorSize then
          ata.disk n (offect / ataSectorSize * ataSectorSize + k)
        else ata.buf1 k) ∧
      ∀ k, buf2 k =
        if offect + count ≤ (ata.sectors n - 1) * ataSectorSize ∧ offect + count + k <
            (offect + count + (ataSectorSize - 1)) / ataSectorSize * ataSectorSize then
          ata.disk n (offect + count + k)
        else ata.buf2 k := by
  obtain ⟨buf1, hhead, hbuf1⟩ := h.ataWriteHead_spec hstart
  have hdrive : LbaDrive { ata with buf1 := buf1 } n := ⟨h.lt, h.mode, h.error⟩
  obtain ⟨buf2, htail, hbuf2⟩ := hdrive.ataWriteTail_spec hcount hstart
  refine ⟨buf1, buf2, ?_, hbuf1, hbuf2⟩
  unfold ataWrite
  rw [if_neg (Nat.not_le.2 h.lt), if_neg (Nat.not_le.2 hstart), hhead]
  simp only [Bool.not_true, Bool.false_eq_true, if_false]
  rw [htail]
  simp only [Bool.not_true, Bool.false_eq_true, if_false]

/-- The condition under which the drive stores what the last section reports: the part of the
request that is reported fills the stored sectors, or the whole request is reported and the
stored sectors end with it. -/
structure Stores (ata : Ata) (n count offect : ℕ) : Prop where
  fits : offect % ataSectorSize + ata.clamped n count offect ≤
    ata.storedSectors n count offect * ataSectorSize ∨ ata.clamped n count offect = 0
  front : ata.storedSectors n count offect = 0 ∨ offect / ataSectorSize + 1 < ata.sectors n
  behind : offect % ataSectorSize + ata.clamped n count offect <
      ata.storedSectors n count offect * ataSectorSize →
    ata.clamped n count offect = count ∧
      offect / ataSectorSize * ataSectorSize +
          ata.storedSectors n count offect * ataSectorSize ≤
        (offect + count + (ataSectorSize - 1)) / ataSectorSize * ataSectorSize ∧
      offect + count ≤ (ata.sectors n - 1) * ataSectorSize

/-- With the right bytes in `buf_1` and `buf_2`, the last section stores the part of the request
that it reports, and changes no other byte. -/
theorem LbaDrive.ataWriteSectors_disk (h : ata.LbaDrive n) (buf : Bytes) (hcount : count < 2 ^ 32)
    (hstart : offect / ataSectorSize < ata.sectors n) (hstores : ata.Stores n count offect)
    (hhead : ata.HeadHeld n offect) (htail : ata.TailHeld n count offect) (m k : ℕ) :
    (ata.ataWriteSectors n buf count offect).2.disk m k =
      if m = n ∧ offect ≤ k ∧ k < offect + ata.clamped n count offect then buf (k - offect)
      else ata.disk m k := by
  obtain ⟨disk, hwrite, hdisk⟩ := h.ataWriteSectors_spec buf hcount hstart
  obtain ⟨hfits, hfront, hbehind⟩ := hstores
  have hattr : offect / ataSectorSize * ataSectorSize + offect % ataSectorSize = offect :=
    Nat.div_add_mod' offect ataSectorSize
  rw [hwrite]
  dsimp only
  by_cases hm : m = n
  · rw [hm, Function.update_self, hdisk]
    generalize ata.clamped n count offect = c at hfits hbehind
    by_cases hk : offect / ataSectorSize * ataSectorSize ≤ k ∧
        k < (offect / ataSectorSize + ata.storedSectors n count offect) * ataSectorSize
    · rw [if_pos hk]
      unfold sentByte
      by_cases hlt : k - offect / ataSectorSize * ataSectorSize < offect % ataSectorSize
      · rw [if_pos hlt, if_neg (by omega), hhead (by lia) _ hlt]
        exact congrArg _ (by omega)
      · rw [if_neg hlt]
        by_cases hpast : c ≤ k - offect / ataSectorSize * ataSectorSize - offect % ataSectorSize
        · obtain ⟨hsame, hround, hroom⟩ := hbehind (by lia)
          rw [if_pos hpast, if_neg (by omega), htail hroom _ (by lia)]
          exact congrArg _ (by lia)
        · rw [if_neg hpast, if_pos ⟨rfl, by omega, by omega⟩]
          exact congrArg _ (by omega)
    · rw [if_neg hk, if_neg (by lia)]
  · rw [Function.update_of_ne hm, if_neg (fun hc => hm hc.1)]

/-- A write that answers `r` leaves the bytes of the buffer in the `r` bytes of the drive from
`offect` on, and changes no other byte. -/
def WritesReported (ata : Ata) (n : ℕ) (buf : Bytes) (count offect : ℕ) : Prop :=
  ∀ r : ℕ, (ata.ataWrite n buf count offect).1 = r → ∀ m k,
    (ata.ataWrite n buf count offect).2.disk m k =
      if m = n ∧ offect ≤ k ∧ k < offect + r then buf (k - offect) else ata.disk m k

theorem LbaDrive.writesReported_of_end (h : ata.LbaDrive n) (buf : Bytes)
    (hend : ata.sectors n ≤ offect / ataSectorSize) : ata.WritesReported n buf count offect := by
  intro r
  unfold ataWrite
  rw [if_neg (Nat.not_le.2 h.lt), if_pos hend]
  intro hr m k
  rw [if_neg (by dsimp only at hr; omega)]

theorem LbaDrive.writesReported_of_neg (h : ata.LbaDrive n) (buf : Bytes) (hcount : count < 2 ^ 32)
    (hstart : offect / ataSectorSize < ata.sectors n)
    (hneg : 2 ^ 31 ≤ ata.clamped n count offect) : ata.WritesReported n buf count offect := by
  obtain ⟨buf1, buf2, hwrite, -⟩ := h.ataWrite_eq buf hcount hstart
  have hdrive : LbaDrive { ata with buf1 := buf1, buf2 := buf2 } n := ⟨h.lt, h.mode, h.error⟩
  obtain ⟨disk, hsectors, -⟩ := hdrive.ataWriteSectors_spec buf hcount hstart
  intro r hr
  rw [hwrite, hsectors] at hr
  obtain ⟨-, hlt⟩ := lt_of_toSigned_eq hr (clamped_lt hcount)
  exact absurd hlt (Nat.not_lt.2 hneg)

theorem LbaDrive.writesReported_of_stores (h : ata.LbaDrive n) (buf : Bytes)
    (hcount : count < 2 ^ 32) (hstart : offect / ataSectorSize < ata.sectors n)
    (hstores : ata.Stores n count offect) : ata.WritesReported n buf count offect := by
  obtain ⟨buf1, buf2, hwrite, hbuf1, hbuf2⟩ := h.ataWrite_eq buf hcount hstart
  have hdrive : LbaDrive { ata with buf1 := buf1, buf2 := buf2 } n := ⟨h.lt, h.mode, h.error⟩
  obtain ⟨disk, hsectors, -⟩ := hdrive.ataWriteSectors_spec buf hcount hstart
  intro r hr m k
  rw [hwrite] at hr ⊢
  rw [hsectors] at hr
  obtain ⟨hclamp, -⟩ := lt_of_toSigned_eq hr (clamped_lt hcount)
  rw [hdrive.ataWriteSectors_disk buf hcount hstart ⟨hstores.fits, hstores.front, hstores.behind⟩
    (fun hlast k hk => ?_) (fun hfit k hk => ?_), hclamp]
  · dsimp only at hlast ⊢
    rw [hbuf1, if_pos ⟨hlast, hk⟩]
  · dsimp only at hfit ⊢
    rw [hbuf2, if_pos ⟨hfit, hk⟩]

theorem storedSectors_of_le (h : ata.sectorCount n count offect ≤ (ata.state n).limit) :
    ata.storedSectors n count offect = ata.sectorCount n count offect := by
  unfold storedSectors
  rcases Nat.lt_or_ge (ata.sectorCount n count offect) (ata.state n).limit with hlt | hge
  · rw [Nat.mod_eq_of_lt hlt]
    split <;> omega
  · rw [Nat.le_antisymm h hge, Nat.mod_self, if_pos rfl, Nat.min_self]

theorem storedSectors_le (ata : Ata) (n count offect : ℕ) :
    ata.storedSectors n count offect ≤ (ata.state n).limit := by
  have hlimit := limit_eq (ata.state n)
  have hmod := Nat.mod_lt (ata.sectorCount n count offect) (y := (ata.state n).limit) (by omega)
  unfold storedSectors
  split <;> omega

/-- Where the drive stores fewer sectors than the request has, the last byte that is reported
may differ from the one in the buffer. -/
theorem LbaDrive.not_writesReported (h : ata.LbaDrive n) (hcount : count < 2 ^ 32)
    (hstart : offect / ataSectorSize < ata.sectors n)
    (hpos : 0 < ata.clamped n count offect) (hlt : ata.clamped n count offect < 2 ^ 31)
    (hkept : (offect / ataSectorSize + ata.storedSectors n count offect) * ataSectorSize <
      offect + ata.clamped n count offect) :
    ¬ ∀ (disk : ℕ → Bytes) (buf : Bytes),
      WritesReported { ata with disk := disk } n buf count offect := by
  intro hall
  obtain ⟨buf1, buf2, hwrite, -⟩ :=
    (h.withDisk (fun _ _ => 1)).ataWrite_eq (fun _ => 0) hcount hstart
  have hdrive : LbaDrive { ata with buf1 := buf1, buf2 := buf2, disk := fun _ _ => 1 } n :=
    ⟨h.lt, h.mode, h.error⟩
  obtain ⟨disk, hsectors, hdisk⟩ := hdrive.ataWriteSectors_spec (fun _ => 0) hcount hstart
  rw [hsectors] at hwrite
  have hbyte := hall (fun _ _ => 1) (fun _ => 0) (ata.clamped n count offect)
    (by rw [hwrite]; exact toSigned_of_lt hlt) n (offect + ata.clamped n count offect - 1)
  rw [hwrite, if_pos ⟨rfl, by omega, by omega⟩] at hbyte
  have hsame : Ata.storedSectors
      { ata with buf1 := buf1, buf2 := buf2, disk := fun _ _ => 1 } n count offect =
        ata.storedSectors n count offect := rfl
  dsimp only at hbyte
  rw [Function.update_self, hdisk, hsame, if_neg (by omega)] at hbyte
  change (1 : BitVec 8) = 0 at hbyte
  exact absurd hbyte (by decide)

/-- An aligned write whose length in bytes is zero modulo `2 ^ 32` reports nothing, and fills
its sectors with what it finds behind the request. -/
theorem LbaDrive.not_writesReported_of_wrap (h : ata.LbaDrive n) (hcount : count < 2 ^ 32)
    (hzero : offect % ataSectorSize = 0) (hwrap : 2 ^ 32 - ataSectorSize < count)
    (hroom : 2 ^ 32 ≤ (ata.sectors n - 1) * ataSectorSize - offect) :
    ¬ ∀ (disk : ℕ → Bytes) (buf : Bytes),
      WritesReported { ata with disk := disk } n buf count offect := by
  intro hall
  have hstart : offect / ataSectorSize < ata.sectors n := by lia
  obtain ⟨buf1, buf2, hwrite, -, hbuf2⟩ :=
    (h.withDisk (fun _ _ => ata.buf2 511 + 1)).ataWrite_eq (fun _ => 0) hcount hstart
  have hdrive : LbaDrive
      { ata with buf1 := buf1, buf2 := buf2, disk := fun _ _ => ata.buf2 511 + 1 } n :=
    ⟨h.lt, h.mode, h.error⟩
  obtain ⟨disk, hwritten, hdisk⟩ := hdrive.ataWriteSectors_spec (fun _ => 0) hcount hstart
  rw [hwritten] at hwrite
  have hsector := h.sectorCount_eq hcount hstart
  have hsectors : ata.sectorCount n count offect = 2 ^ 23 := by lia
  have hclamp : ata.clamped n count offect = 0 := by
    unfold clamped
    rw [hsectors, clampCount_wrap hcount (Nat.mod_lt _ (by decide)), if_pos hzero]
  have hstored : 0 < ata.storedSectors n count offect := by
    have hlimit := limit_eq (ata.state n)
    unfold storedSectors
    rw [hsectors]
    split <;> lia
  change ∀ k, disk k = if _ ∧ _ < (_ + ata.storedSectors n count offect) * _ then
    sentByte buf1 buf2 _ (ata.clamped n count offect) _ _ else ata.buf2 511 + 1 at hdisk
  have hbyte := hall (fun _ _ => ata.buf2 511 + 1) (fun _ => 0) 0
    (by rw [hwrite]; exact congrArg toSigned hclamp) n (offect + 511)
  rw [hwrite, if_neg (by omega)] at hbyte
  dsimp only at hbyte hbuf2
  have hindex : offect + 511 - offect / ataSectorSize * ataSectorSize = 511 := by lia
  rw [Function.update_self, hdisk, if_pos (by lia), hclamp, hzero, hindex, sentByte,
    if_neg (by omega), if_pos (by omega), hbuf2 (511 - 0 - 0), if_neg (by lia)] at hbyte
  exact absurd hbyte (by simp)

/-- The count of a write that starts in front of the last sector, by the number of sectors the
request takes there: from `2 ^ 23` on their size in bytes wraps. -/
theorem LbaDrive.clamped_cases (h : ata.LbaDrive n) (hcount : count < 2 ^ 32)
    (hroom : offect < (ata.sectors n - 1) * ataSectorSize) :
    ata.sectorCount n count offect < 2 ^ 23 ∧
        ata.clamped n count offect =
          min count ((ata.sectors n - 1) * ataSectorSize - offect) ∨
      ata.sectorCount n count offect = 2 ^ 23 ∧
        ata.clamped n count offect = (if offect % ataSectorSize = 0 then 0 else count) ∨
      ata.sectorCount n count offect = 2 ^ 23 + 1 ∧
        ata.clamped n count offect = min count (ataSectorSize - offect % ataSectorSize) := by
  have hmod : offect % ataSectorSize < ataSectorSize := Nat.mod_lt _ (by decide)
  have hstart : offect / ataSectorSize < ata.sectors n := by lia
  have hsector := h.sectorCount_eq hcount hstart
  unfold clamped
  generalize ata.sectorCount n count offect = sectorCount at hsector
  rcases Nat.lt_trichotomy sectorCount (2 ^ 23) with hsmall | hwrap | hwrap
  · refine Or.inl ⟨hsmall, ?_⟩
    rw [clampCount_of_lt hcount (by lia) (by lia)]
    lia
  · refine Or.inr (Or.inl ⟨hwrap, ?_⟩)
    rw [hwrap, clampCount_wrap hcount hmod]
  · have hsucc : sectorCount = 2 ^ 23 + 1 := by lia
    refine Or.inr (Or.inr ⟨hsucc, ?_⟩)
    rw [hsucc, clampCount_wrap_succ hmod]

/-- In the last sector no byte is sent, and the count is cut off on the first byte only. -/
theorem LbaDrive.last_sector (h : ata.LbaDrive n) (hcount : count < 2 ^ 32)
    (hlast : (ata.sectors n - 1) * ataSectorSize ≤ offect)
    (hlt : offect < ata.sectors n * ataSectorSize) :
    ata.storedSectors n count offect = 0 ∧
      ata.clamped n count offect = if offect % ataSectorSize = 0 then 0 else count := by
  have hmod : offect % ataSectorSize < ataSectorSize := Nat.mod_lt _ (by decide)
  have hstart : offect / ataSectorSize < ata.sectors n := by lia
  have hsector := h.sectorCount_eq hcount hstart
  have hzero : ata.sectorCount n count offect = 0 := by lia
  constructor
  · rw [storedSectors_of_le (by omega), hzero]
  · unfold clamped clampCount
    rw [hzero, mul32_eq, Nat.zero_mul, Nat.zero_mod]
    by_cases hstart : offect % ataSectorSize = 0
    · rw [if_pos hstart, hstart, sub64_of_le (Nat.le_refl 0) (by omega)]
      split <;> omega
    · rw [if_neg hstart, sub64_of_lt (by omega) (by lia), if_neg (by lia)]

/-- The part of a request in front of the last sector. -/
def room (ata : Ata) (n count offect : ℕ) : ℕ :=
  min count ((ata.sectors n - 1) * ataSectorSize - offect)

/-- A write that takes no more sectors in front of the last one than the count register can
name, or that has nothing to write. -/
def Fits (ata : Ata) (n count offect : ℕ) : Prop :=
  ata.sectors n * ataSectorSize ≤ offect ∨ count = 0 ∨
    (ata.sectors n - 1) * ataSectorSize ≤ offect ∧ offect % ataSectorSize = 0 ∨
    offect < (ata.sectors n - 1) * ataSectorSize ∧
      offect % ataSectorSize + ata.room n count offect ≤ (ata.state n).limit * ataSectorSize

theorem LbaDrive.stores_of_fits (h : ata.LbaDrive n) (hcount : count < 2 ^ 32)
    (hstart : offect / ataSectorSize < ata.sectors n) (hfits : ata.Fits n count offect) :
    ata.clamped n count offect = ata.room n count offect ∧ ata.Stores n count offect := by
  have hlimit := limit_eq (ata.state n)
  unfold Fits room at *
  rcases Nat.lt_or_ge offect ((ata.sectors n - 1) * ataSectorSize) with hroom | hlast
  · have hsector := h.sectorCount_eq hcount hstart
    have hregister : ata.sectorCount n count offect ≤ (ata.state n).limit := by lia
    have hstored := storedSectors_of_le hregister
    rcases h.clamped_cases hcount hroom with ⟨-, hclamp⟩ | ⟨hwrap, -⟩ | ⟨hwrap, -⟩
    · refine ⟨hclamp, Or.inl ?_, Or.inr ?_, ?_⟩ <;> lia
    · lia
    · lia
  · obtain ⟨hstored, hclamp⟩ := h.last_sector hcount hlast (by lia)
    have hzero : ata.clamped n count offect = 0 := by
      split at hclamp <;> lia
    refine ⟨by lia, Or.inr hzero, Or.inl hstored, fun hlt => ?_⟩
    rw [hstored] at hlt
    lia

/-- A write changes exactly what it reports when there is nothing to write, when it starts in
the last sector on its first byte, when the request up to the last sector takes no more sectors
than the count register can name, or when the count is below zero as an `int`. -/
theorem writesReported_iff (h : ata.LbaDrive n) (hcount : count < 2 ^ 32) :
    (∀ (disk : ℕ → Bytes) (buf : Bytes),
        WritesReported { ata with disk := disk } n buf count offect) ↔
      ata.sectors n * ataSectorSize ≤ offect ∨ count = 0 ∨
        (ata.sectors n - 1) * ataSectorSize ≤ offect ∧
          (offect % ataSectorSize = 0 ∨ 2 ^ 31 ≤ count) ∨
        offect < (ata.sectors n - 1) * ataSectorSize ∧
          (offect % ataSectorSize + min count ((ata.sectors n - 1) * ataSectorSize - offect) ≤
              (ata.state n).limit * ataSectorSize ∨
            2 ^ 31 ≤ min count ((ata.sectors n - 1) * ataSectorSize - offect) ∧
              ¬ (offect % ataSectorSize = 0 ∧ 2 ^ 32 - ataSectorSize < count ∧
                2 ^ 32 ≤ (ata.sectors n - 1) * ataSectorSize - offect)) := by
  have hlimit := limit_eq (ata.state n)
  rcases Nat.lt_or_ge offect (ata.sectors n * ataSectorSize) with hlt | hend
  · have hstart : offect / ataSectorSize < ata.sectors n := by lia
    rcases Nat.lt_or_ge offect ((ata.sectors n - 1) * ataSectorSize) with hroom | hlast
    · have hsector := h.sectorCount_eq hcount hstart
      rcases h.clamped_cases hcount hroom with ⟨hsmall, hclamp⟩ | ⟨hwrap, hclamp⟩ | ⟨hwrap, hclamp⟩
      · by_cases hregister : offect % ataSectorSize +
            min count ((ata.sectors n - 1) * ataSectorSize - offect) ≤
              (ata.state n).limit * ataSectorSize
        · have hstores := (h.stores_of_fits hcount hstart
            (Or.inr (Or.inr (Or.inr ⟨hroom, hregister⟩)))).2
          exact ⟨fun _ => by lia, fun _ disk buf => (h.withDisk disk).writesReported_of_stores buf
            hcount hstart ⟨hstores.fits, hstores.front, hstores.behind⟩⟩
        · rcases Nat.lt_or_ge (ata.clamped n count offect) (2 ^ 31) with hpos | hneg
          · have hfew := storedSectors_le ata n count offect
            have hno := h.not_writesReported hcount hstart (by lia) hpos (by lia)
            exact ⟨fun hall => absurd hall hno, fun hcond => by lia⟩
          · exact ⟨fun _ => by lia, fun _ disk buf =>
              (h.withDisk disk).writesReported_of_neg buf hcount hstart hneg⟩
      · by_cases hzero : offect % ataSectorSize = 0
        · have hno := h.not_writesReported_of_wrap hcount hzero (by lia) (by lia)
          exact ⟨fun hall => absurd hall hno, fun hcond => by lia⟩
        · rw [if_neg hzero] at hclamp
          have hneg : 2 ^ 31 ≤ ata.clamped n count offect := by lia
          exact ⟨fun _ => by lia, fun _ disk buf =>
            (h.withDisk disk).writesReported_of_neg buf hcount hstart hneg⟩
      · -- the register holds one, and the count ends with the first sector
        have hstored : ata.storedSectors n count offect = 1 := by
          unfold storedSectors
          rw [hwrap]
          rcases hlimit with hl | hl <;> rw [hl] <;> rfl
        have hstores : ata.Stores n count offect :=
          ⟨Or.inl (by lia), Or.inr (by lia), fun hlt => by lia⟩
        exact ⟨fun _ => by lia, fun _ disk buf => (h.withDisk disk).writesReported_of_stores buf
          hcount hstart ⟨hstores.fits, hstores.front, hstores.behind⟩⟩
    · obtain ⟨hstored, hclamp⟩ := h.last_sector hcount hlast hlt
      by_cases hzero : ata.clamped n count offect = 0
      · have hstores : ata.Stores n count offect :=
          ⟨Or.inr hzero, Or.inl hstored, fun hlt => by rw [hstored] at hlt; omega⟩
        exact ⟨fun _ => by lia, fun _ disk buf => (h.withDisk disk).writesReported_of_stores buf
          hcount hstart ⟨hstores.fits, hstores.front, hstores.behind⟩⟩
      · rcases Nat.lt_or_ge (ata.clamped n count offect) (2 ^ 31) with hpos | hneg
        · have hno := h.not_writesReported hcount hstart (by omega) hpos (by lia)
          exact ⟨fun hall => absurd hall hno, fun hcond => by lia⟩
        · exact ⟨fun _ => by lia, fun _ disk buf =>
            (h.withDisk disk).writesReported_of_neg buf hcount hstart hneg⟩
  · have hpast : ata.sectors n ≤ offect / ataSectorSize := by lia
    exact ⟨fun _ => Or.inl hend, fun _ disk buf =>
      (h.withDisk disk).writesReported_of_end buf hpast⟩

end Ata

theorem writesReported_iff_twoSectors :
    Ata.WritesReported { twoSectors with disk := fun _ k => BitVec.ofNat 8 k } 0 (fun _ => 1) 100 7 :=
  (Ata.writesReported_iff twoSectors_lbaDrive (by decide : 100 < 2 ^ 32)).2
    (Or.inr (Or.inr (Or.inr (by decide)))) _ _

/-- A byte written to the second position of the last sector is reported and not stored. -/
theorem lastSector_not_written :
    twoSectors.LbaDrive 0 ∧ (twoSectors.ataWrite 0 (fun _ => 1) 1 513).1 = 1 ∧
      (twoSectors.ataWrite 0 (fun _ => 1) 1 513).2.disk 0 513 = 0 ∧
      ¬ twoSectors.WritesReported 0 (fun _ => 1) 1 513 := by
  have hanswer : (twoSectors.ataWrite 0 (fun _ => 1) 1 513).1 = 1 := by with_unfolding_all decide
  have hbyte : (twoSectors.ataWrite 0 (fun _ => 1) 1 513).2.disk 0 513 = 0 := by with_unfolding_all decide
  refine ⟨twoSectors_lbaDrive, hanswer, hbyte, fun hreported => ?_⟩
  have hstored := hreported 1 hanswer 0 513
  rw [hbyte, if_pos (by decide)] at hstored
  exact absurd hstored (by decide)

end BitchKernel
