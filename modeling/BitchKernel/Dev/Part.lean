import BitchKernel.Dev.Disk
import BitchKernel.Lib.Machine
import Mathlib.Logic.Function.Basic

/-!
# The partition scan

`disk_create` and `disk_mmap` of `kernel/dev/disk.c`, and the scan of a new disk
by `mbr_part` and `gpt_part` in `kernel/dev/part`. The driver, `kmalloc` and
`disk_fs_init` are the environment of the scan. A scan records its calls of
`disk_mmap`, each with the state it was made in, so the states a scan passes
through can be spoken of.

An extended partition that holds its own table is scanned without end; `depth`
bounds the nesting that is looked at.
-/

namespace BitchKernel

open Lib

/-- The value of `(_size_t) -1`. -/
abbrev minusOne : ℕ := 0xffffffff

namespace Disks

/-- `disk -> field = …`: a store to one descriptor. -/
def store (s : Disks) (attr : ℕ) (f : Disk → Disk) : Disks :=
  { s with mem := Function.update s.mem attr (f (s.mem attr)) }

/-- The stores that put the descriptor at `attr` behind `pos`. -/
def link (s : Disks) (attr : ℕ) : Disks :=
  let s := s.store attr fun x => { x with last := s.pos }
  let s := s.store attr fun x => { x with next := 0 }
  let s := if s.pos ≠ 0 then s.store s.pos fun x => { x with next := attr } else s
  { s with pos := attr }

/-- `disk -> id = new_id++`. -/
def setId (s : Disks) (attr : ℕ) : Disks :=
  { s.store attr (fun x => { x with id := s.newId }) with newId := add32 s.newId 1 }

/-- The stores of `disk_create` up to the scan. -/
def enterDevice (s : Disks) (attr : ℕ) (devType : DiskDevType) (devId sectorCount : ℕ) : Disks :=
  let s := s.setId attr
  let s := s.store attr fun x =>
    { x with
      devType := devType
      devId := devId
      startSector := 0
      sectorCount := sectorCount
      partId := 0
      partCount := 0
      pdisk := 0 }
  let s := s.link attr
  if s.header = 0 then { s with header := attr } else s

/-- The stores of `disk_mmap` for a part of the disk at `pdisk`. -/
def enterPart (s : Disks) (pdisk attr startSector sectorCount : ℕ) : Disks :=
  let s := s.setId attr
  let s := s.store attr fun x =>
    { x with
      devType := (s.mem pdisk).devType
      devId := (s.mem pdisk).devId
      startSector := add64 (s.mem pdisk).startSector startSector
      sectorCount := sectorCount
      partId := (s.mem pdisk).partCount }
  let s := s.store pdisk fun x => { x with partCount := add32 x.partCount 1 }
  let s := s.store attr fun x => { x with partCount := 0, pdisk := pdisk }
  s.link attr

end Disks

/-- A call of `disk_mmap`: the state it is made in, the answer of `kmalloc`
there, and its arguments. -/
structure MmapCall where
  disks : Disks
  kmalloc : ℕ
  id : ℕ
  startSector : ℕ
  sectorCount : ℕ

/-- The descriptors and, as a ghost, the calls of `disk_mmap` so far. -/
structure Scan where
  disks : Disks
  calls : List MmapCall

/-- What the scan asks of the rest of the kernel. `ataRead` answers with the
contents of the buffer after the read, or with `none` for `-1`. -/
structure DiskEnv where
  ataRead : Scan → AtaRequest → Option Bytes
  kmalloc : Scan → ℕ
  diskFsInit : Scan → ℕ → Fs

abbrev typeEmpty : ℕ := 0x00
abbrev typeExt : ℕ := 0x05
abbrev typeGpt : ℕ := 0xee

/-- The fields of `_mbr_part_t` that are read. -/
structure MbrPart where
  partType : ℕ
  firstSectorLba : ℕ
  sectorNum : ℕ
deriving DecidableEq

/-- `mbr.part[i]` of a buffer that holds an `_mbr_t`. -/
def mbrPartOf (mbr : Bytes) (i : ℕ) : MbrPart where
  partType := mbr.le (16 * i + 4) 1
  firstSectorLba := mbr.le (16 * i + 8) 4
  sectorNum := mbr.le (16 * i + 12) 4

abbrev sizeofMbr : ℕ := 66

def mbrSign (mbr : Bytes) : ℕ := mbr.le 64 2

/-- The fields of `_gpt_header_t` that are read. -/
structure GptHeader where
  sign : ℕ
  startPartEntriesLba : ℕ
  partEntriesNum : ℕ
  partEntrySize : ℕ

abbrev sizeofGptHeader : ℕ := 92

def gptHeaderOf (header : Bytes) : GptHeader where
  sign := header.le 0 8
  startPartEntriesLba := header.le 72 8
  partEntriesNum := header.le 80 4
  partEntrySize := header.le 84 4

/-- The fields of `_gpt_entry_t` that are read. -/
structure GptEntry where
  firstLba : ℕ
  lastLba : ℕ

abbrev sizeofGptEntry : ℕ := 128

def gptEntryOf (entry : Bytes) : GptEntry where
  firstLba := entry.le 32 8
  lastLba := entry.le 40 8

/-- The third argument of `disk_mmap` for a GPT entry. -/
def GptEntry.sectorNum (entry : GptEntry) : ℕ :=
  add64 (sub64 entry.lastLba entry.firstLba) 1

namespace Scan

variable (env : DiskEnv)

def diskRead (s : Scan) (id count offect : ℕ) : Option Bytes :=
  (s.disks.diskRead (env.ataRead s) id count offect).1

/-- `get_disk_sector_size`, converted to `_u64_t`. -/
def sectorSize (s : Scan) (id : ℕ) : ℕ :=
  (s.disks.getDiskSectorSize id).getD (2 ^ 64 - 1)

def diskMmap (s : Scan) (id startSector sectorCount : ℕ) : ℕ × Scan :=
  let s' : Scan := { s with calls := ⟨s.disks, env.kmalloc s, id, startSector, sectorCount⟩ :: s.calls }
  let pdisk := s.disks.getDisk id
  let disk := env.kmalloc s
  if pdisk = 0 then
    (minusOne, s')
  else if (s.disks.mem pdisk).sectorCount < add64 startSector sectorCount then
    (minusOne, s')
  else if disk = 0 then
    (minusOne, s')
  else
    let s' := { s' with disks := s.disks.enterPart pdisk disk startSector sectorCount }
    let fs := env.diskFsInit s' (s'.disks.mem disk).id
    let s' := { s' with disks := s'.disks.store disk fun x => { x with fs := fs } }
    ((s'.disks.mem disk).id, s')

/-- A round of the loop of `gpt_part`. -/
def gptPartStep (id : ℕ) (header : GptHeader) (i : ℕ) (r : ℕ × Scan) : ℕ × Scan :=
  let offect := add64 (mul64 (r.2.sectorSize id) header.startPartEntriesLba) (mul32 i header.partEntrySize)
  match r.2.diskRead env id sizeofGptEntry offect with
  | none => r
  | some buf =>
      let entry := gptEntryOf buf
      if entry.firstLba ≠ 0 then
        (add32 r.1 1, (r.2.diskMmap env id entry.firstLba entry.sectorNum).2)
      else
        r

def gptPartLoop (id : ℕ) (header : GptHeader) : ℕ → ℕ × Scan → ℕ × Scan
  | 0, r => r
  | i + 1, r => gptPartStep env id header i (gptPartLoop id header i r)

def gptPart (s : Scan) (id : ℕ) : ℕ × Scan :=
  match s.diskRead env id sizeofGptHeader (s.sectorSize id) with
  | none => (0, s)
  | some buf =>
      let header := gptHeaderOf buf
      if header.sign = 0x5452415020494645 then
        gptPartLoop env id header header.partEntriesNum (0, s)
      else
        (0, s)

/-- A round of the loop of `mbr_part`; `mbrPart` is the recursive call. -/
def mbrPartStep (mbrPart : Scan → ℕ → ℕ × Scan) (id : ℕ) (mbr : Bytes) (r : ℕ × Scan) (i : ℕ) :
    ℕ × Scan :=
  let part := mbrPartOf mbr i
  if part.partType = typeExt then
    let disk := r.2.diskMmap env id part.firstSectorLba part.sectorNum
    let sub := mbrPart disk.2 disk.1
    (add32 (add32 r.1 sub.1) 1, sub.2)
  else if part.partType = typeGpt then
    let sub := r.2.gptPart env id
    (add32 r.1 sub.1, sub.2)
  else if part.partType ≠ typeEmpty then
    (add32 r.1 1, (r.2.diskMmap env id part.firstSectorLba part.sectorNum).2)
  else
    r

def mbrPart : (depth : ℕ) → Scan → (id : ℕ) → ℕ × Scan
  | 0, s, _ => (0, s)
  | depth + 1, s, id =>
      match s.diskRead env id sizeofMbr 0x1be with
      | none => (0, s)
      | some mbr =>
          if mbrSign mbr = 0xaa55 then
            [0, 1, 2, 3].foldl (mbrPartStep env (mbrPart depth) id mbr) (0, s)
          else
            (0, s)

def diskPart (depth : ℕ) (s : Scan) (id : ℕ) : ℕ × Scan := mbrPart env depth s id

def diskCreate (depth : ℕ) (s : Scan) (devType : DiskDevType) (devId sectorCount : ℕ) :
    ℕ × Scan :=
  let disk := env.kmalloc s
  if disk = 0 then
    (minusOne, s)
  else
    let s := { s with disks := s.disks.enterDevice disk devType devId sectorCount }
    let s := (diskPart env depth s (s.disks.mem disk).id).2
    let fs := env.diskFsInit s (s.disks.mem disk).id
    let s := { s with disks := s.disks.store disk fun x => { x with fs := fs } }
    ((s.disks.mem disk).id, s)

end Scan

/-! ## Runs -/

inductive DiskOp
  | diskCreate (depth : ℕ) (devType : DiskDevType) (devId sectorCount : ℕ)
  | diskMmap (id startSector sectorCount : ℕ)

namespace Scan

/-- The arguments are numbers of their types. -/
def Enabled : DiskOp → Prop
  | .diskCreate _ _ devId sectorCount => devId < 2 ^ 32 ∧ sectorCount < 2 ^ 64
  | .diskMmap id startSector sectorCount =>
      id < 2 ^ 32 ∧ startSector < 2 ^ 64 ∧ sectorCount < 2 ^ 64

def exec (env : DiskEnv) (s : Scan) : DiskOp → Scan
  | .diskCreate depth devType devId sectorCount =>
      (s.diskCreate env depth devType devId sectorCount).2
  | .diskMmap id startSector sectorCount => (s.diskMmap env id startSector sectorCount).2

end Scan

/-- The runs from the empty disk list on. -/
def diskMachine (env : DiskEnv) : Machine Scan DiskOp where
  init s := s.disks.header = 0 ∧ s.disks.pos = 0 ∧ s.disks.newId = 0 ∧ s.calls = []
  step s op s' := Scan.Enabled op ∧ s' = s.exec env op

end BitchKernel
