import BitchKernel.Fs.Fat

/-!
# Directories of a FAT volume

The directory half of `kernel/fs/fat.c`: the reads of an entry, the long names, the two
searches `get_root_file` and `get_file`, the two listings `read_root_dir` and `read_dir`, and
`get_path` with `fat_readdir`. A search and a listing see a directory as the function from the
number of an entry to its 32 bytes. What an uninitialised variable holds is an argument.
-/

namespace BitchKernel

open Lib

/-- `_fat_dir_t`, as the bytes of the entry. -/
abbrev FatDir := Bytes

abbrev attrVolumeId : ℕ := 0x08

abbrev attrDir : ℕ := 0x10

abbrev attrLfn : ℕ := 0x0f

abbrev flagLast : ℕ := 0x40

abbrev fatDirSize : ℕ := 32

def FatStdDir.reserved (file : FatStdDir) : ℕ := Bytes.le file 12 1

namespace FatDir

/-- `entry.dir.name.order`, which is the first byte of `dos_name`. -/
def order (entry : FatDir) : ℕ := Bytes.le entry 0 1

/-- `entry.dir.name.attribute`, at the place of the attribute of a short entry. -/
def fatAttribute (entry : FatDir) : ℕ := Bytes.le entry 11 1

def lfnChar (lfn : FatDir) (n : ℕ) : ℕ :=
  if n < 5 then Bytes.le lfn (1 + n * 2) 2
  else if n < 11 then Bytes.le lfn (14 + (n - 5) * 2) 2
  else if n < 13 then Bytes.le lfn (28 + (n - 11) * 2) 2
  else 0

/-- The test for a long-name entry that is not deleted. -/
def IsLfn (entry : FatDir) : Prop := entry.order ≠ flagDel ∧ entry.fatAttribute = attrLfn

instance (entry : FatDir) : Decidable entry.IsLfn :=
  inferInstanceAs (Decidable (_ ∧ _))

def IsShort (entry : FatDir) : Prop := entry.order ≠ flagDel ∧ entry.fatAttribute ≠ attrLfn

instance (entry : FatDir) : Decidable entry.IsShort :=
  inferInstanceAs (Decidable (_ ∧ _))

/-- `entry.dir.name.order = FLAG_DEL`. -/
def delete (entry : FatDir) : FatDir := Function.update entry 0 (BitVec.ofNat 8 flagDel)

end FatDir

/-- The loop of `lfn_cmp`: whether a character differs. -/
def lfnDiffers (name : ℕ → BitVec 8) (lfn : FatDir) : (len : ℕ) → Bool
  | 0 => false
  | n + 1 => lfnDiffers name lfn n || decide ((name n).toInt ≠ lfn.lfnChar n)

/-- `lfn_cmp`: zero when the characters agree and the name ends with them. -/
def lfnCmp (name : ℕ → BitVec 8) (lfn : FatDir) (len : ℕ) : ℕ :=
  if lfnDiffers name lfn len then 1 else lfn.lfnChar len

/-- The loop of `lfn_cpy` from character `13 - rem` on: the index it ends with, and the name. -/
def lfnCpyLoop (pos : ℕ) (lfn : FatDir) : (rem : ℕ) → Bytes → ℕ × Bytes
  | 0, name => (13, name)
  | rem + 1, name =>
      let n := 13 - (rem + 1)
      let c := BitVec.ofNat 8 (lfn.lfnChar n)
      let name := Function.update name (add32 pos n) c
      if c = 0 then (n, name) else lfnCpyLoop pos lfn rem name

/-- `lfn_cpy` to the position `pos` of a name. -/
def lfnCpy (name : Bytes) (pos : ℕ) (lfn : FatDir) : ℕ × Bytes := lfnCpyLoop pos lfn 13 name

/-! ## Entries -/

/-- What `fat_init` keeps of a volume for its root directory: the number of its entries comes
from two bytes. -/
structure FatVolume extends Fat where
  rootDirCluster : ℕ
  rootDirSector : ℕ
  rootDirCount : ℕ
  rootDirCount_lt : rootDirCount < 2 ^ 16

namespace Fat

/-- The loop of `dir_cluster`. -/
def dirClusterLoop (diskRead : DiskRead) (fat : Fat) : (fuel : ℕ) → (cluster n : ℕ) → Option ℕ
  | 0, _, _ => none
  | fuel + 1, cluster, n =>
      let cluster := fat.nextCluster diskRead cluster
      if cluster ≠ 0 then dirClusterLoop diskRead fat fuel cluster (add32 n 1) else some n

def dirCluster (diskRead : DiskRead) (fat : Fat) (fuel cluster : ℕ) : Option ℕ :=
  dirClusterLoop diskRead fat fuel cluster 1

/-- `fat -> cluster_size * dir_cluster(fat, cluster) / sizeof(_fat_dir_t)`. -/
def dirCount (diskRead : DiskRead) (fat : Fat) (fuel cluster : ℕ) : Option ℕ :=
  (fat.dirCluster diskRead fuel cluster).map fun n => mul32 fat.clusterSize n / fatDirSize

/-- `read_dir_entry`: the loop of `read_cluster` takes at most one round for each byte in front
of the entry and for each byte of it. -/
def readDirEntry (diskRead : DiskRead) (fat : Fat) (dir : FatDir) (cluster n : ℕ) : FatDir :=
  match fat.readCluster diskRead (mul32 n fatDirSize + fatDirSize + 1) dir cluster fatDirSize
      (mul32 n fatDirSize) with
  | none => dir
  | some (_, dir) => dir

end Fat

namespace FatVolume

def readRootDirEntry (diskRead : DiskRead) (fat : FatVolume) (dir : FatDir) (n : ℕ) : FatDir :=
  match fat.fatType with
  | .fat16 =>
      match diskRead fat.diskId fatDirSize
          (add64 (mul64 fat.rootDirSector fat.sectorSize) (mul32 n fatDirSize)) with
      | none => dir
      | some bytes => dir.store 32 0 bytes
  | .fat32 => fat.readDirEntry diskRead dir (fat.rootDirCluster % 2 ^ 32) n

/-- `fat -> root_dir_count`, which a FAT32 volume takes from the chain of the directory. -/
def rootCount (diskRead : DiskRead) (fat : FatVolume) (fuel : ℕ) : Option ℕ :=
  match fat.fatType with
  | .fat16 => some fat.rootDirCount
  | .fat32 => fat.dirCount diskRead fuel (fat.rootDirCluster % 2 ^ 32)

end FatVolume

/-! ## Searches -/

section Search

variable (entry : ℕ → FatDir) (name : ℕ → BitVec 8)

/-- The inner loop of a search, over the parts of a name but the last one: the part at which it
breaks, and the entry it read. -/
def matchParts (n lfnCount : ℕ) : (i : ℕ) → FatDir → ℕ × FatDir
  | 0, e => (0, e)
  | i + 1, _ =>
      let e := entry (sub32 (add32 n lfnCount) (i + 1))
      if e.IsLfn ∧ e.order &&& flagLast = 0 ∧ e.order &&& 0x3f = i + 1 ∧
          lfnCmp (fun k => name (mul32 i 13 + k)) e 13 = 0 then
        matchParts n lfnCount i e
      else (i + 1, e)

/-- The loop of `get_root_file` and `get_file` from entry `n` on, for a name of `len`
characters. -/
def searchLoop (len dirCount : ℕ) : (fuel n : ℕ) → FatDir → FatDir
  | 0, _, e => e.delete
  | fuel + 1, n, e =>
      if n < dirCount then
        let lfnCount := add32 len 12 / 13
        let lastLen := if len % 13 ≠ 0 then len % 13 else 13
        let e := entry n
        if e.IsLfn ∧ e.order &&& flagLast ≠ 0 ∧ e.order &&& 0x3f = lfnCount ∧
            lfnCmp (fun k => name (mul32 (sub32 lfnCount 1) 13 + k)) e lastLen = 0 then
          let (i, e) := matchParts entry name n lfnCount (sub32 lfnCount 1) e
          if i = 0 then
            let e := entry (add32 n lfnCount)
            if e.IsShort then e else searchLoop len dirCount fuel (add32 n 1) e
          else
            searchLoop len dirCount fuel (add32 (add32 n (sub32 (sub32 lfnCount i) 1)) 1) e
        else searchLoop len dirCount fuel (add32 n 1) e
      else e.delete

end Search

/-! ## Listings -/

inductive FileType
  | reg
  | dir
deriving DecidableEq

/-- The value of a `_file_type_t`. -/
def FileType.code : FileType → ℕ
  | .reg => 0
  | .dir => 1

/-- `_file_t` as the bytes from its address on: the array `name`, then `name_len` at 256 and
`type` at 260, where a long name runs into them, and what lies behind the 264 bytes. -/
abbrev FatFile := Bytes

namespace FatFile

def nameLen (file : FatFile) : ℕ := Bytes.le file 256 4

def type (file : FatFile) : FileType :=
  if Bytes.le file 260 4 = FileType.code .reg then .reg else .dir

/-- `file.name_len = n`. -/
def setNameLen (file : FatFile) (n : ℕ) : FatFile := Bytes.storeLe file 256 4 n

/-- `file.type = type`. -/
def setType (file : FatFile) (type : FileType) : FatFile := Bytes.storeLe file 260 4 type.code

variable (file : FatFile) (n : ℕ) (t : FileType) {k : ℕ}

theorem setNameLen_of_lt (hk : k < 256) : file.setNameLen n k = file k :=
  Bytes.storeLe_of_lt file n hk

theorem nameLen_setNameLen {n : ℕ} (hn : n < 2 ^ 32) : (file.setNameLen n).nameLen = n :=
  Bytes.le_storeLe file 256 hn

theorem setType_of_lt (hk : k < 260) : file.setType t k = file k :=
  Bytes.storeLe_of_lt file _ hk

@[simp] theorem nameLen_setType : (file.setType t).nameLen = file.nameLen :=
  Bytes.le_congr fun i hi => file.setType_of_lt t (by omega)

@[simp] theorem type_setType : (file.setType t).type = t := by
  have hcode : Bytes.le (file.setType t) 260 4 = t.code := by
    refine Bytes.le_storeLe file 260 ?_
    cases t <;> decide
  unfold type
  rw [hcode]
  cases t <;> rfl

end FatFile

/-- The tests of `read_root_dir` on the attribute of a short entry. -/
def rootFileType (attr : ℕ) : Option FileType :=
  if attr &&& 0xf0 = attrDir then some .dir
  else if attr &&& 0xf0 = attrArchive then some .reg
  else if attr &&& 0xf0 = 0 then some .reg
  else none

/-- The tests of `read_dir` on the attribute of a short entry. -/
def dirFileType (attr : ℕ) : Option FileType :=
  if attr &&& 0xf0 = attrDir then some .dir
  else if attr &&& 0xf0 = attrArchive then some .reg
  else none

section Listing

variable (entry : ℕ → FatDir)

/-- The inner loop of a listing, over the parts of a name but the last one: whether it came to
its end, and the variable `file`. -/
def copyParts (n lfnCount : ℕ) : (i : ℕ) → FatFile → Bool × FatFile
  | 0, file => (true, file)
  | i + 1, file =>
      let e := entry (sub32 (add32 n lfnCount) (i + 1))
      if e.IsLfn ∧ e.order &&& flagLast = 0 then
        copyParts n lfnCount i (lfnCpy file (mul32 (sub32 (e.order &&& 0x3f) 1) 13) e).2
      else (false, file)

/-- The body of a listing at the first entry of a long name, when the counter is zero: the type
of the file it returns, if any, and the variable `file`. -/
def listEntry (fileType : ℕ → Option FileType) (n : ℕ) (file : FatFile) :
    Option FileType × FatFile :=
  let e := entry n
  let lfnCount := e.order &&& 0x3f
  let pos := mul32 (sub32 lfnCount 1) 13
  let (len, file) := lfnCpy file pos e
  let file := FatFile.setNameLen file (add32 pos len)
  let (complete, file) := copyParts entry n lfnCount (sub32 lfnCount 1) file
  let e := entry (add32 n lfnCount)
  (if complete ∧ e.IsShort then fileType e.fatAttribute else none, file)

/-- The loop of `read_root_dir` and `read_dir` from entry `n` on. -/
def listLoop (fileType : ℕ → Option FileType) (dirCount : ℕ) :
    (fuel n offect : ℕ) → FatFile → FatFile
  | 0, _, _, file => file.setNameLen 0
  | fuel + 1, n, offect, file =>
      if n < dirCount then
        let e := entry n
        if e.IsLfn ∧ e.order &&& flagLast ≠ 0 then
          if offect = 0 then
            match listEntry entry fileType n file with
            | (some type, file) => file.setType type
            | (none, file) => listLoop fileType dirCount fuel (add32 n 1) offect file
          else
            listLoop fileType dirCount fuel (add32 (add32 n (e.order &&& 0x3f)) 1)
              (sub32 offect 1) file
        else listLoop fileType dirCount fuel (add32 n 1) offect file
      else file.setNameLen 0

end Listing

namespace FatVolume

def readRootDir (diskRead : DiskRead) (fat : FatVolume) (fuel : ℕ) (dir : FatDir) (file : FatFile)
    (offect : ℕ) : Option FatFile :=
  (fat.rootCount diskRead fuel).map fun count =>
    listLoop (fat.readRootDirEntry diskRead dir) rootFileType count count 0 offect file

def readDir (diskRead : DiskRead) (fat : FatVolume) (fuel : ℕ) (entry : FatDir) (file : FatFile)
    (dir : FatStdDir) (offect : ℕ) : Option FatFile :=
  if dir.dosName0 = flagDel ∨ dir.fileAttribute &&& attrDir = 0 then
    some (file.setNameLen 0)
  else
    (fat.dirCount diskRead fuel (fat.fileCluster dir)).map fun count =>
      listLoop (fat.readDirEntry diskRead entry (fat.fileCluster dir)) dirFileType count count 0
        offect file

def getRootFile (diskRead : DiskRead) (fat : FatVolume) (fuel : ℕ) (dir : FatDir)
    (name : List (BitVec 8)) : Option FatStdDir :=
  (fat.rootCount diskRead fuel).map fun count =>
    searchLoop (fat.readRootDirEntry diskRead dir) (name.getD · 0) name.length count count 0 dir

def getFile (diskRead : DiskRead) (fat : FatVolume) (fuel : ℕ) (entry : FatDir) (dir : FatStdDir)
    (name : List (BitVec 8)) : Option FatStdDir :=
  if dir.dosName0 = flagDel ∨ dir.fileAttribute &&& attrDir = 0 then some entry.delete
  else
    (fat.dirCount diskRead fuel (fat.fileCluster dir)).map fun count =>
      searchLoop (fat.readDirEntry diskRead entry (fat.fileCluster dir)) (name.getD · 0) name.length
        count count 0 entry

/-- One component of a path, looked up in the directory that the path has come to. -/
def getComponent (diskRead : DiskRead) (fat : FatVolume) (fuel : ℕ) (entry : FatDir)
    (file : FatStdDir) (name : List (BitVec 8)) : Option FatStdDir :=
  if name.length = 0 then some file
  else if file.reserved = 0x2f then fat.getRootFile diskRead fuel entry name
  else fat.getFile diskRead fuel entry file name

/-- The loop of `get_path`, and the component behind the last slash. -/
def getPathLoop (diskRead : DiskRead) (fat : FatVolume) (fuel : ℕ) (entry : FatDir) :
    (slashes : ℕ) → (path : List (BitVec 8)) → FatStdDir → Option FatStdDir
  | 0, path, file => fat.getComponent diskRead fuel entry file path
  | slashes + 1, path, file =>
      let name := path.takeWhile (· ≠ 0x2f)
      match fat.getComponent diskRead fuel entry file name with
      | none => none
      | some file =>
          if name.length ≠ 0 ∧ file.dosName0 = flagDel then some file
          else getPathLoop diskRead fat fuel entry slashes (path.drop (name.length + 1)) file

/-- `get_path`, where `file` is what the variable `file` holds before `reserved` is set. -/
def getPath (diskRead : DiskRead) (fat : FatVolume) (fuel : ℕ) (entry : FatDir) (file : FatStdDir)
    (path : List (BitVec 8)) : Option FatStdDir :=
  fat.getPathLoop diskRead fuel entry (path.count 0x2f) path (Function.update file 12 0x2f)

def fatReaddir (diskRead : DiskRead) (fat : FatVolume) (fuel : ℕ) (entry : FatDir) (file : FatFile)
    (path : List (BitVec 8)) (n : ℕ) : Option FatFile :=
  match fat.getPath diskRead fuel entry entry path with
  | none => none
  | some dir =>
      if dir.reserved = 0x2f then fat.readRootDir diskRead fuel entry file n
      else fat.readDir diskRead fuel entry file dir n

end FatVolume

end BitchKernel
