import BitchKernel.Def
import BitchKernel.Lib.Bytes
import BitchKernel.Lib.DList

/-!
# Disks and partitions

`kernel/dev/disk.c`: the list of descriptors, the two transfer functions, which
clamp a request to the partition and hand it to the ATA driver, and the two
functions that enter a descriptor, `disk_create` for a device and `disk_mmap` for
a part of an existing disk.

The descriptors live in memory at the addresses `kmalloc` returned, and `header`
and `pos` point to the ends of their list.
-/

namespace BitchKernel

abbrev ataSectorSize : ℕ := 512

inductive DiskDevType
  | diskAta
deriving DecidableEq

inductive FsType
  | fsRaw
  | fsFat
deriving DecidableEq

/-- `_fs_t`. -/
structure Fs where
  type : FsType
  info : ℕ
deriving DecidableEq

/-- `struct disk_t`. -/
structure Disk where
  id : ℕ
  devType : DiskDevType
  devId : ℕ
  startSector : ℕ
  sectorCount : ℕ
  fs : Fs
  partId : ℕ
  partCount : ℕ
  pdisk : ℕ
  last : ℕ
  next : ℕ

/-- The descriptors in memory, by address, and the static variables of
`disk.c`. -/
structure Disks where
  mem : ℕ → Disk
  newId : ℕ
  header : ℕ
  pos : ℕ

/-- The arguments of a call of `ata_read` or `ata_write`. -/
structure AtaRequest where
  n : ℕ
  count : ℕ
  offect : ℕ
deriving DecidableEq

namespace Disk

/-- The request `disk_read` and `disk_write` make of the driver: a count that
reaches behind the last sector is cut off there. -/
def request (disk : Disk) (count offect : ℕ) : AtaRequest where
  n := disk.devId % 2 ^ 8
  count :=
    if mul64 disk.sectorCount ataSectorSize < add64 count offect then
      sub64 (mul64 disk.sectorCount ataSectorSize) offect % 2 ^ 32
    else
      count
  offect := add64 (mul64 disk.startSector ataSectorSize) offect

end Disk

namespace Disks

variable {β : Type*}

/-- `get_disk`: the address of the descriptor, or `NULL`. A walk through more
nodes than there are addresses never ends. -/
def getDisk (s : Disks) (id : ℕ) : ℕ :=
  Lib.walk (fun a => (s.mem a).next) 0 (fun a => (s.mem a).id = id) (2 ^ 32) s.header

/-- A transfer function of the device type `DISK_ATA`: the answer of the driver,
with `none` for `-1`, and the requests made of it. -/
def diskIo (ata : AtaRequest → Option β) (s : Disks) (id count offect : ℕ) :
    Option β × List AtaRequest :=
  if s.getDisk id = 0 then
    (none, [])
  else
    let disk := s.mem (s.getDisk id)
    match disk.devType with
    | .diskAta => (ata (disk.request count offect), [disk.request count offect])

def diskRead (ataRead : AtaRequest → Option β) (s : Disks) (id count offect : ℕ) :
    Option β × List AtaRequest :=
  s.diskIo ataRead id count offect

def diskWrite (ataWrite : AtaRequest → Option β) (s : Disks) (id count offect : ℕ) :
    Option β × List AtaRequest :=
  s.diskIo ataWrite id count offect

/-- `get_disk_sector_size`, with `none` for `-1`. -/
def getDiskSectorSize (s : Disks) (id : ℕ) : Option ℕ :=
  if s.getDisk id = 0 then
    none
  else
    match (s.mem (s.getDisk id)).devType with
    | .diskAta => some ataSectorSize

end Disks

end BitchKernel
