import BitchKernel.Dev.AtaRead
import Mathlib.Tactic.IntervalCases

/-!
# The task file of a drive

The bytes that `ata_lba28_attr` and `ata_lba48_attr` send to the ports of a channel, and what a
drive finds in its registers afterwards. A register for the count or the address keeps the last
two bytes that were written to it; a command with 28-bit addresses looks at the last one, and a
command with 48-bit addresses at both.
-/

namespace BitchKernel

open Lib

/-- The ports of a channel that a command is sent to. -/
inductive AtaPort
  | sectorCountIo
  | lbaLowIo
  | lbaMidIo
  | lbaHighIo
  | deviceIo
  | commandIo
deriving DecidableEq

/-- What `ata_io_lock` fills in for a drive. -/
structure AtaIo where
  deviceReg : BitVec 8
  state : AtaState

/-- `outb_p` with its value and its port. -/
abbrev Outb := BitVec 8 × AtaPort

def ataLba28Outb (io : AtaIo) (count : BitVec 8) (offect : BitVec 32) : List Outb :=
  [(count, .sectorCountIo),
    ((offect &&& 0xff).setWidth 8, .lbaLowIo),
    (((offect >>> 8) &&& 0xff).setWidth 8, .lbaMidIo),
    (((offect >>> 16) &&& 0xff).setWidth 8, .lbaHighIo),
    (((offect >>> 24) &&& 0x0f).setWidth 8 ||| 0xe0 ||| io.deviceReg, .deviceIo)]

def ataLba48Outb (io : AtaIo) (count : BitVec 16) (offect : BitVec 64) : List Outb :=
  [(((count >>> 8) &&& 0xff).setWidth 8, .sectorCountIo),
    (((offect >>> 24) &&& 0xff).setWidth 8, .lbaLowIo),
    (((offect >>> 32) &&& 0xff).setWidth 8, .lbaMidIo),
    (((offect >>> 40) &&& 0xff).setWidth 8, .lbaHighIo),
    ((count &&& 0xff).setWidth 8, .sectorCountIo),
    ((offect &&& 0xff).setWidth 8, .lbaLowIo),
    (((offect >>> 8) &&& 0xff).setWidth 8, .lbaMidIo),
    (((offect >>> 16) &&& 0xff).setWidth 8, .lbaHighIo),
    (0xe0 ||| io.deviceReg, .deviceIo)]

def ataReadLba28 (io : AtaIo) (count : BitVec 8) (offect : BitVec 32) : List Outb :=
  ataLba28Outb io count offect ++ [(0x20, .commandIo)]

def ataWriteLba28 (io : AtaIo) (count : BitVec 8) (offect : BitVec 32) : List Outb :=
  ataLba28Outb io count offect ++ [(0x30, .commandIo)]

def ataReadLba48 (io : AtaIo) (count : BitVec 16) (offect : BitVec 64) : List Outb :=
  ataLba48Outb io count offect ++ [(0x24, .commandIo)]

def ataWriteLba48 (io : AtaIo) (count : BitVec 16) (offect : BitVec 64) : List Outb :=
  ataLba48Outb io count offect ++ [(0x34, .commandIo)]

/-! ## The registers of a drive -/

/-- A register of two bytes: the last one that was written, and the one before. -/
structure AtaReg where
  current : BitVec 8
  previous : BitVec 8
deriving Inhabited

def AtaReg.write (reg : AtaReg) (data : BitVec 8) : AtaReg where
  current := data
  previous := reg.current

/-- The registers of a drive. -/
structure TaskFile where
  sectorCount : AtaReg
  lbaLow : AtaReg
  lbaMid : AtaReg
  lbaHigh : AtaReg
  device : BitVec 8
  command : BitVec 8
deriving Inhabited

namespace TaskFile

/-- The registers after a byte was sent to a port. -/
def outb (file : TaskFile) (out : Outb) : TaskFile :=
  match out.2 with
  | .sectorCountIo => { file with sectorCount := file.sectorCount.write out.1 }
  | .lbaLowIo => { file with lbaLow := file.lbaLow.write out.1 }
  | .lbaMidIo => { file with lbaMid := file.lbaMid.write out.1 }
  | .lbaHighIo => { file with lbaHigh := file.lbaHigh.write out.1 }
  | .deviceIo => { file with device := out.1 }
  | .commandIo => { file with command := out.1 }

def outbs (file : TaskFile) (outs : List Outb) : TaskFile := outs.foldl outb file

/-- The count of eight bits, where zero stands for 256, and the address of 28 bits. -/
def decode28 (file : TaskFile) : AtaCommand where
  lba := file.lbaLow.current.toNat + file.lbaMid.current.toNat * 2 ^ 8 +
    file.lbaHigh.current.toNat * 2 ^ 16 + (file.device &&& 0x0f).toNat * 2 ^ 24
  sectorCount := if file.sectorCount.current = 0 then 2 ^ 8 else file.sectorCount.current.toNat

/-- The count of sixteen bits, where zero stands for 65536, and the address of 48 bits. -/
def decode48 (file : TaskFile) : AtaCommand where
  lba := file.lbaLow.current.toNat + file.lbaMid.current.toNat * 2 ^ 8 +
    file.lbaHigh.current.toNat * 2 ^ 16 + file.lbaLow.previous.toNat * 2 ^ 24 +
    file.lbaMid.previous.toNat * 2 ^ 32 + file.lbaHigh.previous.toNat * 2 ^ 40
  sectorCount :=
    if file.sectorCount.previous.toNat * 2 ^ 8 + file.sectorCount.current.toNat = 0 then 2 ^ 16
    else file.sectorCount.previous.toNat * 2 ^ 8 + file.sectorCount.current.toNat

/-- What a drive is asked for: a command for sectors counts only with the bit of the device
register that says that the address is the number of a sector. -/
def decode (file : TaskFile) : Option AtaCommand :=
  if file.device &&& 0x40 = 0 then none
  else if file.command = 0x20 ∨ file.command = 0x30 then some file.decode28
  else if file.command = 0x24 ∨ file.command = 0x34 then some file.decode48
  else none

end TaskFile

/-! ## The requests -/

/-- What `ata_read` and `ata_write` do once a request is issued: the bytes for the ports, and
the number of sectors that the data loop then moves. -/
structure AtaIssue where
  outs : List Outb
  sectorCount : ℕ

namespace Ata

def ataIoLock (ata : Ata) (n : ℕ) : AtaIo where
  deviceReg := if n % 2 = 1 then 0xb0 else 0xa0
  state := ata.state n

/-- The request that `ata_read` issues, if it issues one. -/
def ataReadIssue (ata : Ata) (n count offect : ℕ) : Option AtaIssue :=
  if 4 ≤ n then none
  else
    let startSector := offect / ataSectorSize
    if ata.sectors n ≤ startSector then none
    else
      let sectorCount := ata.sectorCount n count offect
      if sectorCount = 0 then none
      else
        let io := ata.ataIoLock n
        match io.state with
        | .lba28 =>
            some ⟨ataReadLba28 io (BitVec.ofNat 8 sectorCount) (BitVec.ofNat 32 startSector), sectorCount⟩
        | .lba48 =>
            some ⟨ataReadLba48 io (BitVec.ofNat 16 sectorCount) (BitVec.ofNat 64 startSector), sectorCount⟩
        | _ => none

/-- The last section of `ata_write`, which sends the sectors. -/
def ataWriteSectorsIssue (ata : Ata) (n count offect : ℕ) : Option AtaIssue :=
  let startSector := offect / ataSectorSize
  let sectorCount := ata.sectorCount n count offect
  let io := ata.ataIoLock n
  match io.state with
  | .lba28 =>
      some ⟨ataWriteLba28 io (BitVec.ofNat 8 sectorCount) (BitVec.ofNat 32 startSector), sectorCount⟩
  | .lba48 =>
      some ⟨ataWriteLba48 io (BitVec.ofNat 16 sectorCount) (BitVec.ofNat 64 startSector), sectorCount⟩
  | _ => none

/-- The request that `ata_write` issues after the reads of its two ends. -/
def ataWriteIssue (ata : Ata) (n count offect : ℕ) : Option AtaIssue :=
  if 4 ≤ n then none
  else if ata.sectors n ≤ offect / ataSectorSize then none
  else
    let (done, ata) := ata.ataWriteHead n offect
    if !done then none
    else
      let (done, ata) := ata.ataWriteTail n count offect
      if !done then none
      else ata.ataWriteSectorsIssue n count offect

end Ata

/-! ## What a drive finds after the writes -/

theorem byte_toNat {w : ℕ} (hw : 8 ≤ w) (x : BitVec w) :
    ((x &&& 0xff).setWidth 8).toNat = x.toNat % 2 ^ 8 := by
  have hmask : ((0xff : BitVec w).setWidth 8) = BitVec.allOnes 8 := BitVec.setWidth_ofNat_of_le hw 0xff
  rw [BitVec.setWidth_and, hmask, BitVec.and_allOnes, BitVec.toNat_setWidth]

theorem shift_toNat {w : ℕ} (x : BitVec w) (k : ℕ) : (x >>> k).toNat = x.toNat / 2 ^ k := by
  rw [BitVec.toNat_ushiftRight, Nat.shiftRight_eq_div_pow]

/-- The device register keeps four bits of the address next to the bits of the driver. -/
theorem device_low (x : BitVec 32) {deviceReg : BitVec 8}
    (hreg : deviceReg = 0xa0 ∨ deviceReg = 0xb0) :
    (((x &&& 0x0f).setWidth 8 ||| 0xe0 ||| deviceReg) &&& 0x0f).toNat = x.toNat % 2 ^ 4 := by
  have hkeep : (((x &&& 0x0f).setWidth 8 ||| 0xe0 ||| deviceReg) &&& 0x0f) =
      (x &&& 0x0f).setWidth 8 := by
    rcases hreg with rfl | rfl
    · ext i hi
      interval_cases i <;> simp
    · ext i hi
      interval_cases i <;> simp
  have hlow : x.toNat % 2 ^ 4 < 2 ^ 4 := Nat.mod_lt _ (by decide)
  rw [hkeep, BitVec.toNat_setWidth, BitVec.toNat_and]
  exact (congrArg (· % 2 ^ 8) (Nat.and_two_pow_sub_one_eq_mod x.toNat 4)).trans
    (Nat.mod_eq_of_lt (by omega))

/-- Every command is sent with the bit that says that the address is the number of a sector. -/
theorem device_lba (x deviceReg : BitVec 8) : (x ||| 0xe0 ||| deviceReg) &&& 0x40 ≠ 0 := by
  intro hzero
  have hbit := congrArg (fun d : BitVec 8 => d.getLsbD 6) hzero
  simp at hbit

namespace TaskFile

variable (file : TaskFile) (io : AtaIo)

theorem decode_lba28 (count : BitVec 8) (offect : BitVec 32) {command : BitVec 8}
    (hcommand : command = 0x20 ∨ command = 0x30)
    (hreg : io.deviceReg = 0xa0 ∨ io.deviceReg = 0xb0) :
    (file.outbs (ataLba28Outb io count offect ++ [(command, .commandIo)])).decode =
      some (ataLba28Attr count.toNat offect.toNat) := by
  unfold outbs ataLba28Outb
  simp only [List.cons_append, List.nil_append, List.foldl_cons, List.foldl_nil, outb, AtaReg.write]
  unfold decode decode28 ataLba28Attr
  simp only
  rw [if_neg (device_lba _ _), if_pos hcommand, device_low _ hreg, byte_toNat (by decide),
    byte_toNat (by decide), byte_toNat (by decide), shift_toNat, shift_toNat, shift_toNat]
  simp only [← BitVec.toNat_inj]
  rfl

theorem decode_lba48 (count : BitVec 16) (offect : BitVec 64) {command : BitVec 8}
    (hcommand : command = 0x24 ∨ command = 0x34) :
    (file.outbs (ataLba48Outb io count offect ++ [(command, .commandIo)])).decode =
      some (ataLba48Attr count.toNat offect.toNat) := by
  unfold outbs ataLba48Outb
  simp only [List.cons_append, List.nil_append, List.foldl_cons, List.foldl_nil, outb, AtaReg.write]
  unfold decode decode48 ataLba48Attr
  simp only [byte_toNat, shift_toNat, Nat.reduceLeDiff]
  have hcount : count.toNat / 2 ^ 8 % 2 ^ 8 * 2 ^ 8 + count.toNat % 2 ^ 8 = count.toNat := by
    have hlt := count.isLt
    omega
  have hdevice : (0xe0 ||| io.deviceReg) &&& 0x40 ≠ 0 := device_lba 0xe0 io.deviceReg
  have hother : ¬ (command = 0x20 ∨ command = 0x30) := by
    rcases hcommand with rfl | rfl <;> decide
  rw [if_neg hdevice, if_neg hother, if_pos hcommand, hcount]

end TaskFile

/-- A drive finds in its registers what the data loop is about to move. -/
def AtaIssue.Says (issue : AtaIssue) (startSector : ℕ) : Prop :=
  ∀ file : TaskFile,
    (file.outbs issue.outs).decode = some ⟨startSector, issue.sectorCount⟩

/-- The number of sectors that have an address in a mode. -/
def AtaState.lbaLimit : AtaState → ℕ
  | .lba48 => 2 ^ 48
  | _ => 2 ^ 28

/-- The sectors from the first one of a request up to its end, which is cut off in front of the
last sector of the drive, as a number of 32 bits. -/
def requestSectors (sectors count offect : ℕ) : ℕ :=
  (min ((offect + count + (ataSectorSize - 1)) % 2 ^ 64 / ataSectorSize) (sectors - 1) + 2 ^ 64 -
    offect / ataSectorSize) % 2 ^ 32

/-- Below the end of the 64-bit offsets these are the sectors that the request touches, less
those from the last sector of the drive on. -/
theorem requestSectors_eq {sectors count offect : ℕ} (hcount : count < 2 ^ 32)
    (hend : offect + count + ataSectorSize ≤ 2 ^ 64) (hstart : offect / ataSectorSize < sectors) :
    requestSectors sectors count offect =
      min ((offect % ataSectorSize + count + (ataSectorSize - 1)) / ataSectorSize)
        (sectors - 1 - offect / ataSectorSize) := by
  unfold requestSectors
  rw [Nat.mod_eq_of_lt (b := 2 ^ 64) (by lia)]
  lia

namespace Ata

variable {ata : Ata} {n count offect : ℕ}

theorem ataIoLock_deviceReg (ata : Ata) (n : ℕ) :
    (ata.ataIoLock n).deviceReg = 0xa0 ∨ (ata.ataIoLock n).deviceReg = 0xb0 := by
  unfold ataIoLock
  by_cases hslave : n % 2 = 1
  · exact Or.inr (if_pos hslave)
  · exact Or.inl (if_neg hslave)

theorem sectorCount_eq (hsectors : ata.sectors n < 2 ^ 64)
    (hstart : offect / ataSectorSize < ata.sectors n) :
    ata.sectorCount n count offect = requestSectors (ata.sectors n) count offect := by
  unfold sectorCount endSector requestSectors
  have hend : sub64 (add64 (add64 offect count) ataSectorSize) 1 =
      (offect + count + (ataSectorSize - 1)) % 2 ^ 64 := by
    rw [add64_eq, add64_eq]
    unfold sub64 Word.sub
    lia
  rw [hend]
  dsimp only
  generalize (offect + count + (ataSectorSize - 1)) % 2 ^ 64 / ataSectorSize = last
  rw [sub64_of_le (by lia) hsectors]
  unfold sub64 Word.sub
  split <;> lia

theorem div_two_pow_add (x k w : ℕ) : x / 2 ^ (k + w) = x / 2 ^ k / 2 ^ w := by
  rw [Nat.pow_add, Nat.div_div_eq_div_mul]

/-- Four registers hold the low 28 bits of an address. -/
theorem lba28_split (x : ℕ) :
    x % 2 ^ 8 + x / 2 ^ 8 % 2 ^ 8 * 2 ^ 8 + x / 2 ^ 16 % 2 ^ 8 * 2 ^ 16 +
      x / 2 ^ 24 % 2 ^ 4 * 2 ^ 24 = x % 2 ^ 28 := by
  have hmid : x / 2 ^ 16 = x / 2 ^ 8 / 2 ^ 8 := div_two_pow_add x 8 8
  have hhigh : x / 2 ^ 24 = x / 2 ^ 16 / 2 ^ 8 := div_two_pow_add x 16 8
  have htop : x / 2 ^ 28 = x / 2 ^ 24 / 2 ^ 4 := div_two_pow_add x 24 4
  omega

/-- Six registers hold the low 48 bits. -/
theorem lba48_split (x : ℕ) :
    x % 2 ^ 8 + x / 2 ^ 8 % 2 ^ 8 * 2 ^ 8 + x / 2 ^ 16 % 2 ^ 8 * 2 ^ 16 +
      x / 2 ^ 24 % 2 ^ 8 * 2 ^ 24 + x / 2 ^ 32 % 2 ^ 8 * 2 ^ 32 +
      x / 2 ^ 40 % 2 ^ 8 * 2 ^ 40 = x % 2 ^ 48 := by
  have h₁ : x / 2 ^ 16 = x / 2 ^ 8 / 2 ^ 8 := div_two_pow_add x 8 8
  have h₂ : x / 2 ^ 24 = x / 2 ^ 16 / 2 ^ 8 := div_two_pow_add x 16 8
  have h₃ : x / 2 ^ 32 = x / 2 ^ 24 / 2 ^ 8 := div_two_pow_add x 24 8
  have h₄ : x / 2 ^ 40 = x / 2 ^ 32 / 2 ^ 8 := div_two_pow_add x 32 8
  have h₅ : x / 2 ^ 48 = x / 2 ^ 40 / 2 ^ 8 := div_two_pow_add x 40 8
  omega

/-- A request is issued with the registers of the mode of the drive. -/
structure Sends (ata : Ata) (n count offect : ℕ) (issue : AtaIssue) : Prop where
  start : offect / ataSectorSize < ata.sectors n
  sectorCount : issue.sectorCount = ata.sectorCount n count offect
  outs : (ata.state n = .lba28 ∧ ∃ command : BitVec 8, (command = 0x20 ∨ command = 0x30) ∧
      issue.outs = ataLba28Outb (ata.ataIoLock n) (BitVec.ofNat 8 issue.sectorCount)
        (BitVec.ofNat 32 (offect / ataSectorSize)) ++ [(command, .commandIo)]) ∨
    (ata.state n = .lba48 ∧ ∃ command : BitVec 8, (command = 0x24 ∨ command = 0x34) ∧
      issue.outs = ataLba48Outb (ata.ataIoLock n) (BitVec.ofNat 16 issue.sectorCount)
        (BitVec.ofNat 64 (offect / ataSectorSize)) ++ [(command, .commandIo)])

theorem Sends.decode {issue : AtaIssue} (h : ata.Sends n count offect issue)
    (hoff : offect < 2 ^ 64) :
    ∃ command, (∀ file : TaskFile, (file.outbs issue.outs).decode = some command) ∧
      ataCommand (ata.state n) issue.sectorCount (offect / ataSectorSize) = some command := by
  rcases h.outs with ⟨hstate, command, hcommand, houts⟩ | ⟨hstate, command, hcommand, houts⟩
  · rw [houts, hstate]
    refine ⟨_, fun file => file.decode_lba28 _ _ _ hcommand (ata.ataIoLock_deviceReg n), ?_⟩
    rw [BitVec.toNat_ofNat, BitVec.toNat_ofNat]
    rfl
  · rw [houts, hstate]
    refine ⟨_, fun file => file.decode_lba48 _ _ _ hcommand, ?_⟩
    rw [BitVec.toNat_ofNat, BitVec.toNat_ofNat, Nat.mod_eq_of_lt (b := 2 ^ 64) (by lia)]
    rfl

/-- The registers say what is moved exactly when the number of sectors and the first one fit
the mode of the drive. -/
theorem Sends.says_iff {issue : AtaIssue} (h : ata.Sends n count offect issue)
    (hoff : offect < 2 ^ 64) :
    issue.Says (offect / ataSectorSize) ↔
      1 ≤ issue.sectorCount ∧ issue.sectorCount ≤ (ata.state n).limit ∧
        offect / ataSectorSize < (ata.state n).lbaLimit := by
  obtain ⟨command, hfound, hsent⟩ := h.decode hoff
  unfold AtaIssue.Says
  simp only [hfound, forall_const, Option.some.injEq]
  generalize offect / ataSectorSize = startSector at hsent ⊢
  rcases h.outs with ⟨hstate, -⟩ | ⟨hstate, -⟩
  · rw [hstate] at hsent ⊢
    cases hsent
    have hlow : startSector % 2 ^ 32 % 2 ^ 28 = startSector % 2 ^ 28 :=
      Nat.mod_mod_of_dvd startSector (by decide)
    simp only [ataLba28Attr, AtaCommand.mk.injEq, lba28_split, hlow, AtaState.limit,
      AtaState.lbaLimit]
    split <;> omega
  · rw [hstate] at hsent ⊢
    cases hsent
    simp only [ataLba48Attr, AtaCommand.mk.injEq, lba48_split, AtaState.limit, AtaState.lbaLimit]
    split <;> omega

/-- What `ata_read` and `ata_write` look at before the command is the same for two drivers. -/
theorem Sends.congr {ata' : Ata} {issue : AtaIssue} (h : ata'.Sends n count offect issue)
    (hstate : ata'.state = ata.state) (hsectors : ata'.sectors = ata.sectors) :
    ata.Sends n count offect issue := by
  obtain ⟨hstart, hcount, houts⟩ := h
  unfold ataIoLock at houts
  unfold Ata.sectorCount Ata.endSector at hcount
  rw [hsectors] at hstart hcount
  rw [hstate] at houts
  exact ⟨hstart, hcount, houts⟩

theorem ataReadIssue_sends {issue : AtaIssue} (h : ata.ataReadIssue n count offect = some issue) :
    ata.Sends n count offect issue ∧ issue.sectorCount ≠ 0 := by
  unfold ataReadIssue at h
  by_cases hn : 4 ≤ n
  · rw [if_pos hn] at h
    cases h
  by_cases hstart : ata.sectors n ≤ offect / ataSectorSize
  · rw [if_neg hn, if_pos hstart] at h
    cases h
  by_cases hzero : ata.sectorCount n count offect = 0
  · rw [if_neg hn, if_neg hstart, if_pos hzero] at h
    cases h
  rw [if_neg hn, if_neg hstart, if_neg hzero] at h
  cases hstate : ata.state n with
  | lba28 =>
      simp only [ataIoLock, hstate] at h
      cases h
      refine ⟨⟨by omega, rfl, Or.inl ⟨hstate, 0x20, Or.inl rfl, ?_⟩⟩, hzero⟩
      simp only [ataIoLock, hstate]
      rfl
  | lba48 =>
      simp only [ataIoLock, hstate] at h
      cases h
      refine ⟨⟨by omega, rfl, Or.inr ⟨hstate, 0x24, Or.inl rfl, ?_⟩⟩, hzero⟩
      simp only [ataIoLock, hstate]
      rfl
  | noDisk | chs =>
      simp only [ataIoLock, hstate] at h
      cases h

theorem ataWriteSectorsIssue_sends {issue : AtaIssue}
    (hstart : offect / ataSectorSize < ata.sectors n)
    (h : ata.ataWriteSectorsIssue n count offect = some issue) :
    ata.Sends n count offect issue := by
  unfold ataWriteSectorsIssue at h
  cases hstate : ata.state n with
  | lba28 =>
      simp only [ataIoLock, hstate] at h
      cases h
      refine ⟨hstart, rfl, Or.inl ⟨hstate, 0x30, Or.inr rfl, ?_⟩⟩
      simp only [ataIoLock, hstate]
      rfl
  | lba48 =>
      simp only [ataIoLock, hstate] at h
      cases h
      refine ⟨hstart, rfl, Or.inr ⟨hstate, 0x34, Or.inr rfl, ?_⟩⟩
      simp only [ataIoLock, hstate]
      rfl
  | noDisk | chs =>
      simp only [ataIoLock, hstate] at h
      cases h

/-- The reads of the two ends leave mode and size of the drives as they are. -/
theorem ataWriteHead_same (ata : Ata) (n offect : ℕ) :
    (ata.ataWriteHead n offect).2.state = ata.state ∧
      (ata.ataWriteHead n offect).2.sectors = ata.sectors := by
  unfold ataWriteHead
  dsimp only
  split
  · exact ⟨rfl, rfl⟩
  · exact ⟨rfl, rfl⟩

theorem ataWriteTail_same (ata : Ata) (n count offect : ℕ) :
    (ata.ataWriteTail n count offect).2.state = ata.state ∧
      (ata.ataWriteTail n count offect).2.sectors = ata.sectors := by
  unfold ataWriteTail
  dsimp only
  split
  · exact ⟨rfl, rfl⟩
  · exact ⟨rfl, rfl⟩

/-- The driver behind the reads of the two ends of a write. -/
def afterEnds (ata : Ata) (n count offect : ℕ) : Ata :=
  ((ata.ataWriteHead n offect).2.ataWriteTail n count offect).2

theorem afterEnds_same (ata : Ata) (n count offect : ℕ) :
    (ata.afterEnds n count offect).state = ata.state ∧
      (ata.afterEnds n count offect).sectors = ata.sectors := by
  obtain ⟨hstate, hsectors⟩ := ata.ataWriteHead_same n offect
  obtain ⟨hstate', hsectors'⟩ := (ata.ataWriteHead n offect).2.ataWriteTail_same n count offect
  exact ⟨hstate'.trans hstate, hsectors'.trans hsectors⟩

theorem ataWriteIssue_cases {issue : AtaIssue} (h : ata.ataWriteIssue n count offect = some issue) :
    offect / ataSectorSize < ata.sectors n ∧
      (ata.afterEnds n count offect).ataWriteSectorsIssue n count offect = some issue ∧
      ∀ buf, ata.ataWrite n buf count offect =
        (ata.afterEnds n count offect).ataWriteSectors n buf count offect := by
  unfold ataWriteIssue at h
  unfold ataWrite afterEnds
  by_cases hn : 4 ≤ n
  · rw [if_pos hn] at h
    cases h
  by_cases hstart : ata.sectors n ≤ offect / ataSectorSize
  · rw [if_neg hn, if_pos hstart] at h
    cases h
  rw [if_neg hn, if_neg hstart] at h
  dsimp only at h ⊢
  by_cases hhead : (ata.ataWriteHead n offect).1 = true
  · by_cases htail : ((ata.ataWriteHead n offect).2.ataWriteTail n count offect).1 = true
    · simp only [hhead, htail, Bool.not_true, Bool.false_eq_true, if_false] at h
      refine ⟨by omega, h, fun buf => ?_⟩
      rw [if_neg hn, if_neg hstart]
      simp only [hhead, htail, Bool.not_true, Bool.false_eq_true, if_false]
    · simp only [hhead, htail, Bool.not_true, Bool.not_false, Bool.false_eq_true, if_false, if_true] at h
      cases h
  · simp only [hhead, Bool.not_false, if_true] at h
    cases h

theorem ataWriteIssue_sends {issue : AtaIssue}
    (h : ata.ataWriteIssue n count offect = some issue) : ata.Sends n count offect issue := by
  obtain ⟨hstart, hissue, -⟩ := ataWriteIssue_cases h
  obtain ⟨hstate, hsectors⟩ := ata.afterEnds_same n count offect
  rw [← hsectors] at hstart
  exact (ataWriteSectorsIssue_sends hstart hissue).congr hstate hsectors

/-- `ata_read` sends the bytes of the request, and unless the drive answers with the error bit
it reads the sectors of the request from the address in the registers on. -/
def ReadMoves (ata : Ata) (n count offect : ℕ) (issue : AtaIssue) : Prop :=
  ∃ command, (∀ file : TaskFile, (file.outbs issue.outs).decode = some command) ∧
    ∀ buf, ata.ataRead n buf count offect =
      if ata.error n command then (-1, buf)
      else
        (toSigned (clampCount count issue.sectorCount (offect % ataSectorSize)),
          ataReadData (ata.disk n) command.lba
            (clampCount count issue.sectorCount (offect % ataSectorSize))
            (offect % ataSectorSize) issue.sectorCount buf)

/-- The same for `ata_write`, behind the reads of the two ends. -/
def WriteMoves (ata : Ata) (n count offect : ℕ) (issue : AtaIssue) : Prop :=
  ∃ command, (∀ file : TaskFile, (file.outbs issue.outs).decode = some command) ∧
    ∀ buf, ata.ataWrite n buf count offect =
      let after := ata.afterEnds n count offect
      if after.error n command then (-1, after)
      else
        (toSigned (clampCount count issue.sectorCount (offect % ataSectorSize)),
          { after with
            disk := Function.update after.disk n
              (ataWriteData command after.buf1 after.buf2 buf
                (clampCount count issue.sectorCount (offect % ataSectorSize))
                (offect % ataSectorSize) issue.sectorCount (after.disk n)) })

theorem ataReadIssue_moves {issue : AtaIssue} (hoff : offect < 2 ^ 64)
    (h : ata.ataReadIssue n count offect = some issue) : ata.ReadMoves n count offect issue := by
  obtain ⟨hsends, hzero⟩ := ataReadIssue_sends h
  obtain ⟨command, hfound, hsent⟩ := hsends.decode hoff
  have hn : ¬ 4 ≤ n := by
    intro hn
    unfold ataReadIssue at h
    rw [if_pos hn] at h
    cases h
  refine ⟨command, hfound, fun buf => ?_⟩
  rw [hsends.sectorCount] at hsent hzero ⊢
  unfold ataRead
  rw [if_neg hn, if_neg (Nat.not_le.2 hsends.start), if_neg hzero]
  simp only [hsent]

theorem ataWriteIssue_moves {issue : AtaIssue} (hoff : offect < 2 ^ 64)
    (h : ata.ataWriteIssue n count offect = some issue) : ata.WriteMoves n count offect issue := by
  obtain ⟨hstart, hissue, hwrite⟩ := ataWriteIssue_cases h
  obtain ⟨-, hsectors⟩ := ata.afterEnds_same n count offect
  have hsends := ataWriteSectorsIssue_sends (by rwa [hsectors]) hissue
  obtain ⟨command, hfound, hsent⟩ := hsends.decode hoff
  refine ⟨command, hfound, fun buf => ?_⟩
  rw [hsends.sectorCount] at hsent ⊢
  rw [hwrite buf]
  unfold ataWriteSectors
  simp only [hsent]

/-- The registers say what the driver moves exactly when the sectors of the request are at least
one and at most as many as the count register can name, and the first one has an address in the
mode of the drive. -/
theorem issue_says_iff (ata : Ata) (n count offect : ℕ) (hsectors : ata.sectors n < 2 ^ 64)
    (hoff : offect < 2 ^ 64) :
    (∀ issue, ata.ataReadIssue n count offect = some issue →
      ata.ReadMoves n count offect issue ∧
        (issue.Says (offect / ataSectorSize) ↔
          1 ≤ requestSectors (ata.sectors n) count offect ∧
            requestSectors (ata.sectors n) count offect ≤ (ata.state n).limit ∧
            offect / ataSectorSize < (ata.state n).lbaLimit)) ∧
    (∀ issue, ata.ataWriteIssue n count offect = some issue →
      ata.WriteMoves n count offect issue ∧
        (issue.Says (offect / ataSectorSize) ↔
          1 ≤ requestSectors (ata.sectors n) count offect ∧
            requestSectors (ata.sectors n) count offect ≤ (ata.state n).limit ∧
            offect / ataSectorSize < (ata.state n).lbaLimit)) := by
  constructor
  · intro issue h
    obtain ⟨hsends, -⟩ := ataReadIssue_sends h
    rw [hsends.says_iff hoff, hsends.sectorCount, sectorCount_eq hsectors hsends.start]
    exact ⟨ataReadIssue_moves hoff h, Iff.rfl⟩
  · intro issue h
    have hsends := ataWriteIssue_sends h
    rw [hsends.says_iff hoff, hsends.sectorCount, sectorCount_eq hsectors hsends.start]
    exact ⟨ataWriteIssue_moves hoff h, Iff.rfl⟩

end Ata

/-- The first sector of a drive of two sectors. -/
theorem issue_says_iff_twoSectors :
    ∃ issue, twoSectors.ataReadIssue 0 512 0 = some issue ∧ issue.Says 0 := by
  have hsome : (twoSectors.ataReadIssue 0 512 0).isSome = true := by with_unfolding_all decide
  obtain ⟨issue, hissue⟩ := Option.isSome_iff_exists.1 hsome
  refine ⟨issue, hissue, ?_⟩
  exact (((Ata.issue_says_iff twoSectors 0 512 0 (by decide) (by decide)).1 issue hissue).2).2
    (by with_unfolding_all decide)

/-- An empty write at the start of a sector asks the drive for 256 sectors and sends none. -/
theorem empty_write_not_says :
    ¬ ∀ (ata : Ata) (n count offect : ℕ), ata.sectors n < 2 ^ 64 → offect < 2 ^ 64 →
      ∀ issue, ata.ataWriteIssue n count offect = some issue →
        issue.Says (offect / ataSectorSize) := by
  intro hall
  have hsome : (twoSectors.ataWriteIssue 0 0 0).isSome = true := by with_unfolding_all decide
  obtain ⟨issue, hissue⟩ := Option.isSome_iff_exists.1 hsome
  have hsends := Ata.ataWriteIssue_sends hissue
  have hsays := hall twoSectors 0 0 0 (by decide) (by decide) issue hissue
  have hone := ((hsends.says_iff (by decide)).1 hsays).1
  rw [hsends.sectorCount] at hone
  exact absurd hone (by with_unfolding_all decide)

end BitchKernel
