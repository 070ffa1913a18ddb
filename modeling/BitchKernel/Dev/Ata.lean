import BitchKernel.Dev.Disk
import Mathlib.Logic.Function.Basic

/-!
# The ATA driver

`ata_read` and `ata_write` of `driver/ata.c` for the four drives, with what a drive does
with a command: it hands out the sectors from the one the address registers name on, and it
stores the words it is sent in as many sectors as the count register names. A number that
an `int` holds is compared with a `_u64_t` as the compiler converts it.
-/

namespace BitchKernel

open Lib

/-- `_ata_state_t`. -/
inductive AtaState
  | noDisk
  | chs
  | lba28
  | lba48
deriving DecidableEq

/-- What a drive finds in its registers when a command arrives: the first sector, and the
number of sectors the command is for. -/
structure AtaCommand where
  lba : ℕ
  sectorCount : ℕ
deriving DecidableEq

/-- The variables of `ata.c` and the drives. What lies behind the last byte of `buf_1` and
`buf_2` is what a read past the array finds. -/
structure Ata where
  state : ℕ → AtaState
  sectors : ℕ → ℕ
  buf1 : Bytes
  buf2 : Bytes
  /-- The bytes a drive stores. -/
  disk : ℕ → Bytes
  /-- Whether a drive answers a command with the error bit. -/
  error : ℕ → AtaCommand → Bool

/-- An `int` in a comparison with a `_u64_t`. -/
def intToU64 (x : ℕ) : ℕ := if x % 2 ^ 32 < 2 ^ 31 then x % 2 ^ 32 else x % 2 ^ 32 + (2 ^ 64 - 2 ^ 32)

/-! ## Commands -/

/-- `ata_lba28_attr`: four bytes of the address, the last one cut to four bits, and a byte
for the count, where zero stands for 256. -/
def ataLba28Attr (count offect : ℕ) : AtaCommand where
  lba := offect % 2 ^ 8 + offect / 2 ^ 8 % 2 ^ 8 * 2 ^ 8 + offect / 2 ^ 16 % 2 ^ 8 * 2 ^ 16 +
    offect / 2 ^ 24 % 2 ^ 4 * 2 ^ 24
  sectorCount := if count = 0 then 2 ^ 8 else count

/-- `ata_lba48_attr`: six bytes of the address and two for the count, where zero stands for
65536. -/
def ataLba48Attr (count offect : ℕ) : AtaCommand where
  lba := offect % 2 ^ 8 + offect / 2 ^ 8 % 2 ^ 8 * 2 ^ 8 + offect / 2 ^ 16 % 2 ^ 8 * 2 ^ 16 +
    offect / 2 ^ 24 % 2 ^ 8 * 2 ^ 24 + offect / 2 ^ 32 % 2 ^ 8 * 2 ^ 32 +
    offect / 2 ^ 40 % 2 ^ 8 * 2 ^ 40
  sectorCount := if count = 0 then 2 ^ 16 else count

/-- The `switch` over the state of the drive: the command for `sectorCount` sectors from
`startSector` on. -/
def ataCommand (state : AtaState) (sectorCount startSector : ℕ) : Option AtaCommand :=
  match state with
  | .lba28 => some (ataLba28Attr (sectorCount % 2 ^ 8) (startSector % 2 ^ 32))
  | .lba48 => some (ataLba48Attr (sectorCount % 2 ^ 16) startSector)
  | _ => none

/-! ## Reading -/

/-- The word `i` of the `n`-th sector that a drive hands out. -/
def inw (disk : Bytes) (lba n i : ℕ) : ℕ := Bytes.le disk ((lba + n) * ataSectorSize + i * 2) 2

/-- What `ata_read_data` does with the word `i` of the `n`-th sector. -/
def ataReadWord (disk : Bytes) (lba count offect n i : ℕ) (buf : Bytes) : Bytes :=
  let data := inw disk lba n i
  let index := sub64 (intToU64 (n * ataSectorSize + i * 2)) offect
  let buf :=
    if offect ≤ intToU64 (n * ataSectorSize + i * 2) ∧ index < count then
      Function.update buf (index % 2 ^ 32) (BitVec.ofNat 8 data)
    else buf
  if offect ≤ intToU64 (n * ataSectorSize + i * 2 + 1) ∧ add64 index 1 < count then
    Function.update buf (add64 index 1 % 2 ^ 32) (BitVec.ofNat 8 (data / 2 ^ 8))
  else buf

/-- The first `i` words of the `n`-th sector. -/
def ataReadSector (disk : Bytes) (lba count offect n : ℕ) : (i : ℕ) → Bytes → Bytes
  | 0, buf => buf
  | i + 1, buf => ataReadWord disk lba count offect n i (ataReadSector disk lba count offect n i buf)

def ataReadData (disk : Bytes) (lba count offect : ℕ) : (sectorCount : ℕ) → Bytes → Bytes
  | 0, buf => buf
  | n + 1, buf =>
      ataReadSector disk lba count offect n (ataSectorSize / 2)
        (ataReadData disk lba count offect n buf)

namespace Ata

/-- `end_sector` of `ata_read` and `ata_write`, cut off at the last sector. -/
def endSector (ata : Ata) (n count offect : ℕ) : ℕ :=
  let endSector := sub64 (add64 (add64 offect count) ataSectorSize) 1 / ataSectorSize
  if ata.sectors n ≤ endSector then sub64 (ata.sectors n) 1 else endSector

/-- `sector_count` of `ata_read` and `ata_write`. -/
def sectorCount (ata : Ata) (n count offect : ℕ) : ℕ :=
  sub64 (ata.endSector n count offect) (offect / ataSectorSize) % 2 ^ 32

/-- `if (count > sector_count * ATA_SECTOR_SIZE - start_offect) count = ...;` -/
def clampCount (count sectorCount startOffect : ℕ) : ℕ :=
  if sub64 (mul32 sectorCount ataSectorSize) startOffect < count then
    sub64 (mul32 sectorCount ataSectorSize) startOffect % 2 ^ 32
  else count

/-- `ata_read`: the answer and the buffer after it. -/
def ataRead (ata : Ata) (n : ℕ) (buf : Bytes) (count offect : ℕ) : ℤ × Bytes :=
  if 4 ≤ n then (-1, buf)
  else
    let startSector := offect / ataSectorSize
    if ata.sectors n ≤ startSector then (0, buf)
    else
      let sectorCount := ata.sectorCount n count offect
      if sectorCount = 0 then (0, buf)
      else
        let startOffect := offect % ataSectorSize
        match ataCommand (ata.state n) sectorCount startSector with
        | none => (-1, buf)
        | some command =>
            if ata.error n command then (-1, buf)
            else
              let count := clampCount count sectorCount startOffect
              (toSigned count, ataReadData (ata.disk n) command.lba count startOffect sectorCount buf)

end Ata

/-! ## Writing -/

/-- The low byte of the word that `ata_write_data` sends for the position `x`. -/
def ataWriteLow (buf1 buf2 buf : Bytes) (count offect n i : ℕ) : BitVec 8 :=
  let index := sub64 (intToU64 (n * ataSectorSize + i * 2)) offect
  if intToU64 (n * ataSectorSize + i * 2) < offect then buf1 (i * 2)
  else if count ≤ index then buf2 (sub64 index count % 2 ^ 32)
  else buf (index % 2 ^ 32)

def ataWriteHigh (buf1 buf2 buf : Bytes) (count offect n i : ℕ) : BitVec 8 :=
  let index := sub64 (intToU64 (n * ataSectorSize + i * 2)) offect
  if intToU64 (n * ataSectorSize + i * 2 + 1) < offect then buf1 (i * 2 + 1)
  else if count ≤ add64 index 1 then buf2 (add64 (sub64 index count) 1 % 2 ^ 32)
  else buf (add64 index 1 % 2 ^ 32)

/-- `outw`: the drive stores the word `i` of the `n`-th sector it is sent, as long as the
command is for that sector. -/
def outw (command : AtaCommand) (n i : ℕ) (low high : BitVec 8) (disk : Bytes) : Bytes :=
  if n < command.sectorCount then
    Function.update (Function.update disk ((command.lba + n) * ataSectorSize + i * 2) low)
      ((command.lba + n) * ataSectorSize + i * 2 + 1) high
  else disk

/-- The first `i` words of the `n`-th sector. -/
def ataWriteSector (command : AtaCommand) (buf1 buf2 buf : Bytes) (count offect n : ℕ) :
    (i : ℕ) → Bytes → Bytes
  | 0, disk => disk
  | i + 1, disk =>
      outw command n i (ataWriteLow buf1 buf2 buf count offect n i)
        (ataWriteHigh buf1 buf2 buf count offect n i)
        (ataWriteSector command buf1 buf2 buf count offect n i disk)

def ataWriteData (command : AtaCommand) (buf1 buf2 buf : Bytes) (count offect : ℕ) :
    (sectorCount : ℕ) → Bytes → Bytes
  | 0, disk => disk
  | n + 1, disk =>
      ataWriteSector command buf1 buf2 buf count offect n 0x100
        (ataWriteData command buf1 buf2 buf count offect n disk)

namespace Ata

/-- The section of `ata_write` that reads the bytes in front of the request into `buf_1`:
the answer is whether the call goes on. -/
def ataWriteHead (ata : Ata) (n offect : ℕ) : Bool × Ata :=
  let startOffect := offect % ataSectorSize
  if startOffect ≠ 0 then
    let (r, buf) := ata.ataRead n ata.buf1 startOffect (offect / ataSectorSize * ataSectorSize)
    (decide (r ≠ -1), { ata with buf1 := buf })
  else (true, ata)

/-- The section of `ata_write` that reads the bytes behind the request into `buf_2`. -/
def ataWriteTail (ata : Ata) (n count offect : ℕ) : Bool × Ata :=
  let endSector := ata.endSector n count offect
  if add64 count offect < mul64 (add64 endSector 1) ataSectorSize then
    let (r, buf) := ata.ataRead n ata.buf2
      (sub64 (mul64 endSector ataSectorSize) (add64 count offect) % 2 ^ 32) (add64 count offect)
    (decide (r ≠ -1), { ata with buf2 := buf })
  else (true, ata)

/-- The section of `ata_write` that sends the sectors. -/
def ataWriteSectors (ata : Ata) (n : ℕ) (buf : Bytes) (count offect : ℕ) : ℤ × Ata :=
  let startSector := offect / ataSectorSize
  let sectorCount := ata.sectorCount n count offect
  let startOffect := offect % ataSectorSize
  match ataCommand (ata.state n) sectorCount startSector with
  | none => (-1, ata)
  | some command =>
      if ata.error n command then (-1, ata)
      else
        let count := clampCount count sectorCount startOffect
        let disk :=
          ataWriteData command ata.buf1 ata.buf2 buf count startOffect sectorCount (ata.disk n)
        (toSigned count, { ata with disk := Function.update ata.disk n disk })

def ataWrite (ata : Ata) (n : ℕ) (buf : Bytes) (count offect : ℕ) : ℤ × Ata :=
  if 4 ≤ n then (-1, ata)
  else if ata.sectors n ≤ offect / ataSectorSize then (0, ata)
  else
    let (done, ata) := ata.ataWriteHead n offect
    if !done then (-1, ata)
    else
      let (done, ata) := ata.ataWriteTail n count offect
      if !done then (-1, ata)
      else ata.ataWriteSectors n buf count offect

end Ata

end BitchKernel
