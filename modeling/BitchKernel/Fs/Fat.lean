import BitchKernel.Def
import BitchKernel.Lib.Bytes
import Mathlib.Data.Nat.Notation

/-!
# Files of a FAT volume

`next_cluster`, `read_cluster` and `read_file` of `kernel/fs/fat.c`. The reads of
the disk are a parameter. A directory entry is its 32 bytes, and a buffer is what
a 32-bit pointer can reach, with the positions counted from `buf`.
-/

namespace BitchKernel

open Lib

inductive FatType
  | fat16
  | fat32
deriving DecidableEq

/-- `_fat_t` of a volume: the sectors of a cluster fit a byte, the size of a sector
two bytes, and neither is zero. -/
structure Fat where
  diskId : ℕ
  fatType : FatType
  sectorSize : ℕ
  clusterSectors : ℕ
  startCluster : ℕ
  fatSector : ℕ
  sectorSize_pos : 0 < sectorSize
  sectorSize_lt : sectorSize < 2 ^ 16
  clusterSectors_pos : 0 < clusterSectors
  clusterSectors_lt : clusterSectors < 2 ^ 8

/-- The answer of `disk_read` to a request for bytes: the bytes it stored, or
`none` for `-1`. -/
abbrev DiskRead := (id count offect : ℕ) → Option (List (BitVec 8))

abbrev attrArchive : ℕ := 0x20

abbrev flagDel : ℕ := 0xe5

/-- `_fat_std_dir_t`, as the bytes of the entry. -/
abbrev FatStdDir := Bytes

namespace FatStdDir

def dosName0 (file : FatStdDir) : ℕ := Bytes.le file 0 1

def fileAttribute (file : FatStdDir) : ℕ := Bytes.le file 11 1

def firstClusterHigh (file : FatStdDir) : ℕ := Bytes.le file 20 2

def firstClusterLow (file : FatStdDir) : ℕ := Bytes.le file 26 2

def fileSize (file : FatStdDir) : ℕ := Bytes.le file 28 4

end FatStdDir

namespace Fat

/-- `fat -> cluster_size`, as `fat_init` sets it. -/
def clusterSize (fat : Fat) : ℕ := fat.clusterSectors * fat.sectorSize

/-- The variable `next` of `next_cluster` after the read of `size` bytes. -/
def tableEntry (diskRead : DiskRead) (fat : Fat) (size cluster : ℕ) : ℕ :=
  match diskRead fat.diskId size (add64 (mul64 fat.fatSector fat.sectorSize) (mul32 cluster size)) with
  | none => 0
  | some bytes => Bytes.leOf bytes

def nextCluster (diskRead : DiskRead) (fat : Fat) (cluster : ℕ) : ℕ :=
  match fat.fatType with
  | .fat16 =>
      let next := fat.tableEntry diskRead 2 cluster
      if next < 0x2 ∨ 0xffef < next then 0 else next
  | .fat32 =>
      let next := fat.tableEntry diskRead 4 cluster
      if next < 0x2 ∨ 0xfffffef < next then 0 else next

/-- The place on the disk of the byte `offect` of a cluster. -/
def clusterOffect (fat : Fat) (cluster offect : ℕ) : ℕ :=
  add64 (add64 fat.startCluster (mul32 (sub32 cluster 2) fat.clusterSize)) offect

/-- The loop of `read_cluster`. -/
def readClusterLoop (diskRead : DiskRead) (fat : Fat) :
    (fuel : ℕ) → (buf : Bytes) → (cluster count offect n bufOffect : ℕ) → Option (ℤ × Bytes)
  | 0, _, _, _, _, _, _ => none
  | fuel + 1, buf, cluster, count, offect, n, bufOffect =>
      let next (buf : Bytes) (count offect n bufOffect : ℕ) :=
        let cluster := fat.nextCluster diskRead cluster
        if cluster ≠ 0 then readClusterLoop diskRead fat fuel buf cluster count offect n bufOffect
        else some (toSigned n, buf)
      if offect < fat.clusterSize then
        if fat.clusterSize < add64 offect count then
          let part := sub64 fat.clusterSize offect
          match diskRead fat.diskId (part % 2 ^ 32) (fat.clusterOffect cluster offect) with
          | none => some (-1, buf)
          | some bytes =>
              let buf := buf.store 32 (bufOffect % 2 ^ 32) bytes
              let n := add32 n bytes.length
              let count := sub64 count part % 2 ^ 32
              let offect := 0
              let bufOffect := add64 bufOffect (sub64 fat.clusterSize offect)
              next buf count offect n bufOffect
        else
          match diskRead fat.diskId count (fat.clusterOffect cluster offect) with
          | none => some (-1, buf)
          | some bytes =>
              some (toSigned (add32 n bytes.length), buf.store 32 (bufOffect % 2 ^ 32) bytes)
      else
        next buf count (sub64 offect fat.clusterSize) n bufOffect

def readCluster (diskRead : DiskRead) (fat : Fat) (fuel : ℕ) (buf : Bytes)
    (cluster count offect : ℕ) : Option (ℤ × Bytes) :=
  readClusterLoop diskRead fat fuel buf cluster count offect 0 0

def fileCluster (fat : Fat) (file : FatStdDir) : ℕ :=
  match fat.fatType with
  | .fat16 => file.firstClusterLow
  | .fat32 => file.firstClusterLow ||| file.firstClusterHigh <<< 0x10

def readFile (diskRead : DiskRead) (fat : Fat) (fuel : ℕ) (file : FatStdDir) (buf : Bytes)
    (count offect : ℕ) : Option (ℤ × Bytes) :=
  if file.dosName0 = flagDel ∨ file.fileAttribute &&& attrArchive = 0 then
    some (-1, buf)
  else if file.fileSize ≤ offect then
    some (0, buf)
  else
    let count :=
      if file.fileSize < add64 offect count then sub64 file.fileSize offect % 2 ^ 32 else count
    readCluster diskRead fat fuel buf (fat.fileCluster file) count offect

end Fat

end BitchKernel
