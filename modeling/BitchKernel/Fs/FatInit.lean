import BitchKernel.Dev.AtaTaskFile
import BitchKernel.Dev.DiskRequest
import BitchKernel.Fs.Fat

/-!
# Mounting a volume

`fat_init` of `kernel/fs/fat.c` and `disk_fs_init` of `kernel/fs/fs.c`, down to the driver. The
header is read into a variable that nobody has set, and what a failed or short read leaves there
is looked at like a header. The signature is tested by the `memcmp` of `lib/string.h`, whose loop
ends at the first byte that is the same in both strings.
-/

namespace BitchKernel

open Lib

/-! ## memcmp -/

/-- The loop of `memcmp`, with `i` the number of bytes it has passed. -/
def memcmpLoop (dest src : Bytes) : (len i : ℕ) → (ret : ℤ) → ℤ
  | 0, _, ret => ret
  | len + 1, i, _ =>
      let ret : ℤ := (dest i).toNat - (src i).toNat
      if ret = 0 then ret else memcmpLoop dest src len (i + 1) ret

def memcmp (dest src : Bytes) (len : ℕ) : ℤ := memcmpLoop dest src len 0 0

/-! ## The header -/

/-- `_fat_header_t`, as the bytes of the structure. -/
abbrev FatHeader := Bytes

/-- `sizeof(_fat_header_t)`. -/
abbrev fatHeaderSize : ℕ := 87

namespace FatHeader

variable (header : FatHeader)

def sectorSize : ℕ := Bytes.le header 8 2

def clusterSectors : ℕ := Bytes.le header 10 1

def reservedSectors : ℕ := Bytes.le header 11 2

def tableCount : ℕ := Bytes.le header 13 1

def rootDirCount : ℕ := Bytes.le header 14 2

def tableSectors : ℕ := Bytes.le header 19 2

/-- `header.ext.fat32_ext.table_sectors`. -/
def tableSectors32 : ℕ := Bytes.le header 33 4

/-- `header.ext.fat32_ext.root_dir_cluster`. -/
def rootDirCluster : ℕ := Bytes.le header 41 4

end FatHeader

def FatType.text : FatType → List (BitVec 8)
  | .fat16 => [0x46, 0x41, 0x54, 0x31, 0x36, 0x20, 0x20, 0x20]
  | .fat32 => [0x46, 0x41, 0x54, 0x33, 0x32, 0x20, 0x20, 0x20]

/-- The place of the signature in the header: `header.ext.fat_ext.fat_type` and
`header.ext.fat32_ext.fat.fat_type`. -/
def FatType.place : FatType → ℕ
  | .fat16 => 51
  | .fat32 => 79

/-- `memcmp(header.ext. … .fat_type, …, 8)`. -/
def FatHeader.memcmpType (header : FatHeader) (type : FatType) : ℤ :=
  memcmp (fun i => header (type.place + i)) (fun i => type.text.getD i 0) 8

/-! ## fat_init -/

/-- `_fat_t`. -/
structure FatInfo where
  diskId : ℕ
  fatType : FatType
  sectorSize : ℕ
  clusterSize : ℕ
  startCluster : ℕ
  fatSector : ℕ
  rootDirCluster : ℕ
  rootDirSector : ℕ
  rootDirCount : ℕ

/-- The branch of `fat_init` that fills in a FAT16 volume. -/
def FatInfo.fill16 (fat : FatInfo) (header : FatHeader) : FatInfo :=
  let rootDirSector := header.reservedSectors + header.tableSectors * header.tableCount
  { fat with
    fatType := .fat16
    rootDirSector := rootDirSector
    startCluster := add64 (mul64 rootDirSector header.sectorSize) (mul32 header.rootDirCount 32) }

def FatInfo.fill32 (fat : FatInfo) (header : FatHeader) : FatInfo :=
  let tables := add32 header.reservedSectors (mul32 header.tableSectors32 header.tableCount)
  { fat with
    fatType := .fat32
    startCluster := mul32 tables header.sectorSize
    rootDirSector := add32 tables (mul32 (sub32 header.rootDirCluster 2) header.clusterSectors)
    rootDirCluster := header.rootDirCluster }

/-- What `fat_init` sets for every volume. -/
def FatInfo.fill (fat : FatInfo) (header : FatHeader) : FatInfo :=
  { fat with
    sectorSize := header.sectorSize
    clusterSize := header.clusterSectors * header.sectorSize
    fatSector := header.reservedSectors
    rootDirCount := header.rootDirCount }

/-- `fat_init`, with the answer of `disk_read`, the header as the read leaves it, what the
variable `fat` holds before, and the answer of `kmalloc`. -/
def fatInit (id : ℕ) (r : ℤ) (header : FatHeader) (fat : FatInfo) (kmalloc : ℕ) :
    Option FatInfo :=
  let fat := { fat with diskId := id }
  let filled :=
    if r ≠ -1 then
      if header.memcmpType .fat16 = 0 then some (fat.fill16 header)
      else if header.memcmpType .fat32 = 0 then some (fat.fill32 header)
      else none
    else some fat
  match filled with
  | none => none
  | some fat => if kmalloc ≠ 0 then some (fat.fill header) else none

namespace Disks

/-- `disk_read` with the driver behind it: the answer, and the buffer after it. -/
def diskReadAta (disks : Disks) (ata : Ata) (id : ℕ) (buf : Bytes) (count offect : ℕ) :
    ℤ × Bytes :=
  match (disks.diskRead (fun r => some (ata.ataRead r.n buf r.count r.offect)) id count offect).1 with
  | none => (-1, buf)
  | some answer => answer

/-- The read of the header in `fat_init`. -/
def bootRead (disks : Disks) (ata : Ata) (id : ℕ) (header : FatHeader) : ℤ × FatHeader :=
  disks.diskReadAta ata id header fatHeaderSize 3

/-- `disk_fs_init`: the type of the file system, and what `info` points to. -/
def diskFsInit (disks : Disks) (ata : Ata) (id : ℕ) (header : FatHeader) (fat : FatInfo)
    (kmalloc : ℕ) : FsType × Option FatInfo :=
  let (r, header) := disks.bootRead ata id header
  match fatInit id r header fat kmalloc with
  | some fat => (.fsFat, some fat)
  | none => (.fsRaw, none)

end Disks

/-! ## What a signature should be -/

theorem memcmpLoop_eq_zero_iff (dest src : Bytes) (len i : ℕ) {ret : ℤ} (hret : ret ≠ 0) :
    memcmpLoop dest src len i ret = 0 ↔ ∃ j < len, dest (i + j) = src (i + j) := by
  induction len generalizing i ret with
  | zero =>
      rw [memcmpLoop]
      constructor
      · intro hzero
        exact absurd hzero hret
      · rintro ⟨j, hj, -⟩
        exact absurd hj (Nat.not_lt_zero j)
  | succ len ih =>
      rw [memcmpLoop]
      by_cases hsame : dest i = src i
      · rw [hsame, Int.sub_self, if_pos rfl]
        exact ⟨fun _ => ⟨0, Nat.succ_pos len, hsame⟩, fun _ => rfl⟩
      · have hdiff : ((dest i).toNat : ℤ) - (src i).toNat ≠ 0 := by
          intro hzero
          exact hsame (BitVec.eq_of_toNat_eq (by omega))
        rw [if_neg hdiff, ih (i + 1) hdiff]
        constructor
        · rintro ⟨j, hj, heq⟩
          refine ⟨j + 1, Nat.succ_lt_succ hj, ?_⟩
          rwa [Nat.add_comm j 1, ← Nat.add_assoc]
        · rintro ⟨j, hj, heq⟩
          cases j with
          | zero => exact absurd heq hsame
          | succ j =>
              refine ⟨j, Nat.lt_of_succ_lt_succ hj, ?_⟩
              rwa [Nat.add_comm j 1, ← Nat.add_assoc] at heq

theorem memcmp_eq_zero_iff (dest src : Bytes) {len : ℕ} (hlen : 0 < len) :
    memcmp dest src len = 0 ↔ ∃ j < len, dest j = src j := by
  obtain ⟨len, rfl⟩ : ∃ m, len = m + 1 := ⟨len - 1, by omega⟩
  have hloop (i : ℕ) (ret ret' : ℤ) :
      memcmpLoop dest src (len + 1) i ret = memcmpLoop dest src (len + 1) i ret' := by
    rw [memcmpLoop, memcmpLoop]
  unfold memcmp
  rw [hloop 0 0 1, memcmpLoop_eq_zero_iff dest src _ 0 (by decide)]
  simp only [Nat.zero_add]

def FatHeader.Carries (header : FatHeader) (type : FatType) : Prop :=
  ∀ i < 8, header (type.place + i) = type.text.getD i 0

def FatHeader.Touches (header : FatHeader) (type : FatType) : Prop :=
  ∃ i < 8, header (type.place + i) = type.text.getD i 0

theorem FatHeader.memcmpType_eq_zero_iff (header : FatHeader) (type : FatType) :
    header.memcmpType type = 0 ↔ header.Touches type :=
  memcmp_eq_zero_iff _ _ (by decide)

theorem FatHeader.Carries.touches {header : FatHeader} {type : FatType}
    (h : header.Carries type) : header.Touches type :=
  ⟨0, by decide, h 0 (by decide)⟩

/-- The fields that the operations on a volume of a type read are those of the header. -/
structure FatInfo.DerivedFrom (fat : FatInfo) (header : FatHeader) : Prop where
  sectorSize : fat.sectorSize = header.sectorSize
  clusterSize : fat.clusterSize = header.clusterSectors * header.sectorSize
  fatSector : fat.fatSector = header.reservedSectors
  fat16 : fat.fatType = .fat16 →
    fat.rootDirSector = header.reservedSectors + header.tableSectors * header.tableCount ∧
      fat.startCluster = fat.rootDirSector * header.sectorSize + header.rootDirCount * 32 ∧
      fat.rootDirCount = header.rootDirCount
  fat32 : fat.fatType = .fat32 →
    fat.rootDirCluster = header.rootDirCluster ∧
      fat.startCluster =
        (header.reservedSectors + header.tableSectors32 * header.tableCount) *
          header.sectorSize % 2 ^ 32

/-- The volume is the one that the boot sector describes. -/
structure FatInfo.MountedFrom (fat : FatInfo) (id : ℕ) (header : FatHeader) : Prop where
  diskId : fat.diskId = id
  carries : header.Carries fat.fatType
  derived : fat.DerivedFrom header

theorem FatHeader.tables_lt (header : FatHeader) :
    header.reservedSectors + header.tableSectors * header.tableCount < 2 ^ 24 := by
  have hreserved : header.reservedSectors < 2 ^ 16 := Bytes.le_lt header 11 2
  have htable : header.tableSectors < 2 ^ 16 := Bytes.le_lt header 19 2
  have hcount : header.tableCount < 2 ^ 8 := Bytes.le_lt header 13 1
  have hproduct := Nat.mul_le_mul (Nat.le_sub_one_of_lt htable) (Nat.le_sub_one_of_lt hcount)
  omega

/-- The fields are found in the header, whatever the variable `fat` holds. -/
theorem FatInfo.fill16_derivedFrom (fat : FatInfo) (header : FatHeader) :
    ((fat.fill16 header).fill header).DerivedFrom header := by
  have hsector : header.sectorSize < 2 ^ 16 := Bytes.le_lt header 8 2
  have hroot : header.rootDirCount < 2 ^ 16 := Bytes.le_lt header 14 2
  have hproduct := Nat.mul_lt_mul'' header.tables_lt hsector
  refine ⟨rfl, rfl, rfl, fun _ => ⟨rfl, ?_, rfl⟩, (fun h => nomatch h)⟩
  change add64 (mul64 (header.reservedSectors + header.tableSectors * header.tableCount)
    header.sectorSize) (mul32 header.rootDirCount 32) = _
  rw [mul64_eq, Nat.mod_eq_of_lt (by omega), mul32_of_lt (by omega), add64_eq,
    Nat.mod_eq_of_lt (by omega)]
  rfl

theorem FatInfo.fill32_derivedFrom (fat : FatInfo) (header : FatHeader) :
    ((fat.fill32 header).fill header).DerivedFrom header := by
  refine ⟨rfl, rfl, rfl, (fun h => nomatch h), fun _ => ⟨rfl, ?_⟩⟩
  change mul32 (add32 header.reservedSectors (mul32 header.tableSectors32 header.tableCount))
    header.sectorSize = _
  rw [mul32_eq, add32_eq, mul32_eq, Nat.add_mod_mod, Nat.mod_mul_mod]

theorem fatInit_eq_some_iff (id : ℕ) (r : ℤ) (header : FatHeader) (fat : FatInfo) (kmalloc : ℕ)
    (v : FatInfo) :
    fatInit id r header fat kmalloc = some v ↔
      kmalloc ≠ 0 ∧
        ((r = -1 ∧ v = FatInfo.fill { fat with diskId := id } header) ∨
          (r ≠ -1 ∧ header.Touches .fat16 ∧
            v = (FatInfo.fill16 { fat with diskId := id } header).fill header) ∨
          (r ≠ -1 ∧ ¬ header.Touches .fat16 ∧ header.Touches .fat32 ∧
            v = (FatInfo.fill32 { fat with diskId := id } header).fill header)) := by
  rw [← header.memcmpType_eq_zero_iff, ← header.memcmpType_eq_zero_iff]
  unfold fatInit
  by_cases hr : r = -1
  · by_cases hnull : kmalloc = 0 <;> simp [hr, hnull, @eq_comm _ v]
  by_cases h16 : header.memcmpType .fat16 = 0
  · by_cases hnull : kmalloc = 0 <;> simp [hr, hnull, h16, @eq_comm _ v]
  by_cases h32 : header.memcmpType .fat32 = 0
  · by_cases hnull : kmalloc = 0 <;> simp [hr, hnull, h16, h32, @eq_comm _ v]
  · simp [hr, h16, h32]

theorem FatType.place_lt (type : FatType) {i : ℕ} (hi : i < 8) :
    type.place + i < fatHeaderSize := by
  cases type <;> change _ < 87 <;> dsimp only [FatType.place] <;> omega

theorem FatHeader.carries_congr {header header' : FatHeader} {type : FatType}
    (hsame : ∀ k < fatHeaderSize, header k = header' k) (h : header.Carries type) :
    header'.Carries type := by
  intro i hi
  rw [← hsame _ (type.place_lt hi)]
  exact h i hi

theorem FatHeader.touches_congr {header header' : FatHeader} {type : FatType}
    (hsame : ∀ k < fatHeaderSize, header k = header' k) :
    header.Touches type ↔ header'.Touches type := by
  have hplace (i : ℕ) (hi : i < 8) : header (type.place + i) = header' (type.place + i) :=
    hsame _ (type.place_lt hi)
  constructor
  · rintro ⟨i, hi, heq⟩
    exact ⟨i, hi, (hplace i hi).symm.trans heq⟩
  · rintro ⟨i, hi, heq⟩
    exact ⟨i, hi, (hplace i hi).trans heq⟩

theorem FatInfo.derivedFrom_congr {fat : FatInfo} {header header' : FatHeader}
    (hsame : ∀ k < fatHeaderSize, header k = header' k) (h : fat.DerivedFrom header) :
    fat.DerivedFrom header' := by
  have hle {k n : ℕ} (hend : k + n ≤ 87) : Bytes.le header k n = Bytes.le header' k n :=
    Bytes.le_congr fun i hi => hsame _ (by change _ < 87; omega)
  have hsectorSize : header.sectorSize = header'.sectorSize := hle (by decide)
  have hclusterSectors : header.clusterSectors = header'.clusterSectors := hle (by decide)
  have hreserved : header.reservedSectors = header'.reservedSectors := hle (by decide)
  have hcount : header.tableCount = header'.tableCount := hle (by decide)
  have htable : header.tableSectors = header'.tableSectors := hle (by decide)
  have htable32 : header.tableSectors32 = header'.tableSectors32 := hle (by decide)
  have hroot : header.rootDirCount = header'.rootDirCount := hle (by decide)
  have hcluster : header.rootDirCluster = header'.rootDirCluster := hle (by decide)
  obtain ⟨hsector, hsize, hfat, h16, h32⟩ := h
  rw [hsectorSize] at hsector
  rw [hclusterSectors, hsectorSize] at hsize
  rw [hreserved] at hfat
  rw [hreserved, htable, hcount, hsectorSize, hroot] at h16
  rw [hcluster, hreserved, htable32, hcount, hsectorSize] at h32
  exact ⟨hsector, hsize, hfat, h16, h32⟩

theorem FatInfo.MountedFrom.congr {fat : FatInfo} {id : ℕ} {header header' : FatHeader}
    (hsame : ∀ k < fatHeaderSize, header k = header' k) (h : fat.MountedFrom id header) :
    fat.MountedFrom id header' :=
  ⟨h.diskId, FatHeader.carries_congr hsame h.carries, FatInfo.derivedFrom_congr hsame h.derived⟩

/-! ## The read of the boot sector -/

namespace Ata

variable {ata : Ata} {n count offect : ℕ}

theorem count_of_clampCount {sectorCount : ℕ} (h : clampCount count sectorCount 3 = fatHeaderSize) :
    count = fatHeaderSize := by
  unfold clampCount at h
  by_cases hclamp : sub64 (mul32 sectorCount ataSectorSize) 3 < count
  · rw [if_pos hclamp, mul32_eq] at h
    unfold sub64 Word.sub at h
    lia
  · rwa [if_neg hclamp] at h

theorem clampCount_lt (hcount : count < 2 ^ 32) (sectorCount startOffect : ℕ) :
    clampCount count sectorCount startOffect < 2 ^ 32 := by
  unfold clampCount
  split
  · exact Nat.mod_lt _ (by decide)
  · exact hcount

theorem requestSectors_header {sectors : ℕ} (hthree : offect % ataSectorSize = 3)
    (hstart : offect / ataSectorSize < sectors) :
    requestSectors sectors fatHeaderSize offect ≤ 1 := by
  unfold requestSectors
  lia

/-- A read of the header that answers its size has stored the bytes of the sector that the drive
hands out. -/
theorem ataRead_header (hsectors : ata.sectors n < 2 ^ 64) (buf : Bytes) (hcount : count < 2 ^ 32)
    (hthree : offect % ataSectorSize = 3)
    (h : (ata.ataRead n buf count offect).1 = fatHeaderSize) :
    ∃ command, ataCommand (ata.state n) (ata.sectorCount n count offect) (offect / ataSectorSize) =
        some command ∧
      ∀ k < fatHeaderSize,
        (ata.ataRead n buf count offect).2 k = ata.disk n (command.lba * ataSectorSize + 3 + k) := by
  unfold ataRead at h ⊢
  by_cases hn : 4 ≤ n
  · rw [if_pos hn] at h
    cases h
  by_cases hstart : ata.sectors n ≤ offect / ataSectorSize
  · rw [if_neg hn, if_pos hstart] at h
    cases h
  by_cases hzero : ata.sectorCount n count offect = 0
  · rw [if_neg hn, if_neg hstart, if_pos hzero] at h
    cases h
  rw [if_neg hn, if_neg hstart, if_neg hzero] at h ⊢
  dsimp only at h ⊢
  rw [hthree] at h ⊢
  cases hcommand : ataCommand (ata.state n) (ata.sectorCount n count offect)
      (offect / ataSectorSize) with
  | none =>
      rw [hcommand] at h
      cases h
  | some command =>
      rw [hcommand] at h
      dsimp only at h ⊢
      by_cases herror : ata.error n command = true
      · rw [if_pos herror] at h
        cases h
      rw [if_neg herror] at h ⊢
      obtain ⟨hanswer, -⟩ := lt_of_toSigned_eq h (clampCount_lt hcount _ _)
      have hheader := count_of_clampCount hanswer
      refine ⟨command, rfl, fun k hk => ?_⟩
      subst hheader
      have hone := requestSectors_header hthree (Nat.lt_of_not_le hstart)
      rw [← sectorCount_eq hsectors (Nat.lt_of_not_le hstart)] at hone
      dsimp only
      rw [hanswer, ataReadData_apply _ _ hcount (by decide) (by lia), if_pos (by lia)]

/-- The drive takes a request: it has the first sector, there is a sector to read in front of the
last one, and it has no error to report. -/
def Serves (ata : Ata) (n count offect : ℕ) : Prop :=
  n < 4 ∧ offect / ataSectorSize < ata.sectors n ∧ ata.sectorCount n count offect ≠ 0 ∧
    ∃ command, ataCommand (ata.state n) (ata.sectorCount n count offect) (offect / ataSectorSize) =
      some command ∧ ata.error n command = false

/-- The driver or the drive gives a request up. -/
def Fails (ata : Ata) (n count offect : ℕ) : Prop :=
  4 ≤ n ∨ (offect / ataSectorSize < ata.sectors n ∧ ata.sectorCount n count offect ≠ 0 ∧
    ∀ command, ataCommand (ata.state n) (ata.sectorCount n count offect) (offect / ataSectorSize) =
      some command → ata.error n command = true)

theorem clampCount_header {sectorCount : ℕ} (hpos : 1 ≤ sectorCount) (hone : sectorCount ≤ 1) :
    clampCount fatHeaderSize sectorCount 3 = fatHeaderSize := by
  obtain rfl : sectorCount = 1 := by omega
  with_unfolding_all decide

theorem ataRead_header_iff (hsectors : ata.sectors n < 2 ^ 64) (buf : Bytes)
    (hcount : count < 2 ^ 32) (hthree : offect % ataSectorSize = 3) :
    (ata.ataRead n buf count offect).1 = fatHeaderSize ↔
      count = fatHeaderSize ∧ ata.Serves n count offect := by
  unfold Serves ataRead
  by_cases hn : 4 ≤ n
  · rw [if_pos hn]
    exact ⟨fun h => (by cases h), fun h => absurd h.2.1 (by omega)⟩
  by_cases hstart : ata.sectors n ≤ offect / ataSectorSize
  · rw [if_neg hn, if_pos hstart]
    exact ⟨fun h => (by cases h), fun h => absurd h.2.2.1 (by omega)⟩
  by_cases hzero : ata.sectorCount n count offect = 0
  · rw [if_neg hn, if_neg hstart, if_pos hzero]
    exact ⟨fun h => (by cases h), fun h => absurd hzero h.2.2.2.1⟩
  rw [if_neg hn, if_neg hstart, if_neg hzero, hthree]
  cases hcommand : ataCommand (ata.state n) (ata.sectorCount n count offect)
      (offect / ataSectorSize) with
  | none =>
      refine ⟨fun h => (by cases h), ?_⟩
      rintro ⟨-, -, -, -, command, hsome, -⟩
      cases hsome
  | some command =>
      dsimp only
      by_cases herror : ata.error n command = true
      · rw [if_pos herror]
        refine ⟨fun h => (by cases h), ?_⟩
        rintro ⟨-, -, -, -, command', hsome, hok⟩
        cases hsome
        rw [herror] at hok
        cases hok
      rw [if_neg herror]
      constructor
      · intro h
        obtain ⟨hanswer, -⟩ := lt_of_toSigned_eq h (clampCount_lt hcount _ _)
        exact ⟨count_of_clampCount hanswer, by omega, by omega, hzero, command, rfl,
          Bool.eq_false_iff.2 herror⟩
      · rintro ⟨rfl, -⟩
        have hone := requestSectors_header hthree (Nat.lt_of_not_le hstart)
        rw [← sectorCount_eq hsectors (Nat.lt_of_not_le hstart)] at hone
        dsimp only
        rw [clampCount_header (by omega) hone]
        decide

/-- The count of a request for the header never looks like an error. -/
theorem toSigned_clampCount_ne (hcount : count = fatHeaderSize ∨ count = 2 ^ 32 - 3)
    (sectorCount : ℕ) : toSigned (clampCount count sectorCount 3) ≠ -1 := by
  have hne : clampCount count sectorCount 3 ≠ 2 ^ 32 - 1 := by
    unfold clampCount
    by_cases hclamp : sub64 (mul32 sectorCount ataSectorSize) 3 < count
    · rw [if_pos hclamp, mul32_eq]
      unfold sub64 Word.sub
      lia
    · rw [if_neg hclamp]
      lia
  unfold toSigned
  split <;> omega

/-- The driver answers `-1` to a request for the header only when it gives the request up. -/
theorem ataRead_fails_iff (buf : Bytes) (hcount : count = fatHeaderSize ∨ count = 2 ^ 32 - 3)
    (hthree : offect % ataSectorSize = 3) :
    (ata.ataRead n buf count offect).1 = -1 ↔ ata.Fails n count offect := by
  unfold Fails ataRead
  by_cases hn : 4 ≤ n
  · rw [if_pos hn]
    exact ⟨fun _ => Or.inl hn, fun _ => rfl⟩
  by_cases hstart : ata.sectors n ≤ offect / ataSectorSize
  · rw [if_neg hn, if_pos hstart]
    exact ⟨fun h => (by cases h), fun h => by omega⟩
  by_cases hzero : ata.sectorCount n count offect = 0
  · rw [if_neg hn, if_neg hstart, if_pos hzero]
    refine ⟨fun h => (by cases h), ?_⟩
    rintro (h | ⟨-, hne, -⟩)
    · exact absurd h hn
    · exact absurd hzero hne
  rw [if_neg hn, if_neg hstart, if_neg hzero, hthree]
  cases hcommand : ataCommand (ata.state n) (ata.sectorCount n count offect)
      (offect / ataSectorSize) with
  | none => exact ⟨fun _ => Or.inr ⟨by omega, hzero, fun command h => nomatch h⟩, fun _ => rfl⟩
  | some command =>
      dsimp only
      by_cases herror : ata.error n command = true
      · rw [if_pos herror]
        refine ⟨fun _ => Or.inr ⟨by omega, hzero, fun command' h => ?_⟩, fun _ => rfl⟩
        cases h
        exact herror
      rw [if_neg herror]
      constructor
      · intro h
        exact absurd h (toSigned_clampCount_ne hcount _)
      · rintro (h | ⟨-, -, hall⟩)
        · exact absurd h hn
        · exact absurd (hall command rfl) herror

end Ata

namespace Disks

variable (disks : Disks) (ata : Ata) (id : ℕ)

/-- The request that `fat_init` makes of the driver. -/
def bootRequest : AtaRequest := (disks.mem (disks.getDisk id)).request fatHeaderSize 3

/-- The header in the boot sector, which is the sector that the drive hands out for the
request. -/
def bootHeader : FatHeader := fun k =>
  let r := disks.bootRequest id
  match ataCommand (ata.state r.n) (ata.sectorCount r.n r.count r.offect)
      (r.offect / ataSectorSize) with
  | some command => ata.disk r.n (command.lba * ataSectorSize + 3 + k)
  | none => 0

theorem bootRequest_offect :
    (disks.bootRequest id).offect =
      ((disks.mem (disks.getDisk id)).startSector * ataSectorSize + 3) % 2 ^ 64 :=
  Disk.request_offect _ _ _

theorem bootRequest_offect_mod : (disks.bootRequest id).offect % ataSectorSize = 3 := by
  rw [bootRequest_offect]
  lia

/-- The request is for the whole header, unless the size of the disk is zero as a number of 64
bits. -/
theorem bootRequest_count :
    (disks.bootRequest id).count =
      if (disks.mem (disks.getDisk id)).sectorCount % 2 ^ 55 = 0 then 2 ^ 32 - 3
      else fatHeaderSize := by
  unfold bootRequest
  rw [Disk.request_count _ _ _ (by decide)]
  split <;> split <;> lia

theorem bootRequest_count_cases :
    (disks.bootRequest id).count = fatHeaderSize ∨ (disks.bootRequest id).count = 2 ^ 32 - 3 := by
  rw [bootRequest_count]
  split
  · exact Or.inr rfl
  · exact Or.inl rfl

theorem bootRequest_count_lt : (disks.bootRequest id).count < 2 ^ 32 := by
  rcases disks.bootRequest_count_cases id with hcount | hcount <;> rw [hcount] <;> decide

/-- On a drive whose sectors have addresses in its mode this is the first sector of the disk. -/
theorem bootHeader_apply {startSector : ℕ}
    (hstart : startSector = (disks.mem (disks.getDisk id)).startSector) (hlt : startSector < 2 ^ 48)
    (hmode : ata.state (disks.bootRequest id).n = .lba28 ∧ startSector < 2 ^ 28 ∨
      ata.state (disks.bootRequest id).n = .lba48) (k : ℕ) :
    disks.bootHeader ata id k =
      ata.disk (disks.bootRequest id).n (startSector * ataSectorSize + 3 + k) := by
  have hoff := disks.bootRequest_offect id
  rw [← hstart, Nat.mod_eq_of_lt (by lia)] at hoff
  have hsector : (disks.bootRequest id).offect / ataSectorSize = startSector := by lia
  unfold bootHeader
  dsimp only
  rw [hsector]
  rcases hmode with ⟨hstate, hsmall⟩ | hstate
  · rw [hstate]
    have hlba : (ataLba28Attr (ata.sectorCount (disks.bootRequest id).n
        (disks.bootRequest id).count (disks.bootRequest id).offect % 2 ^ 8)
        (startSector % 2 ^ 32)).lba = startSector := by
      unfold ataLba28Attr
      dsimp only
      rw [Ata.lba28_split, Nat.mod_mod_of_dvd _ (by decide), Nat.mod_eq_of_lt hsmall]
    simp only [ataCommand, hlba]
  · rw [hstate]
    have hlba : (ataLba48Attr (ata.sectorCount (disks.bootRequest id).n
        (disks.bootRequest id).count (disks.bootRequest id).offect % 2 ^ 16) startSector).lba =
        startSector := by
      unfold ataLba48Attr
      dsimp only
      rw [Ata.lba48_split, Nat.mod_eq_of_lt hlt]
    simp only [ataCommand, hlba]

theorem bootRead_of_null {header : FatHeader} (h : disks.getDisk id = 0) :
    disks.bootRead ata id header = (-1, header) := by
  unfold bootRead diskReadAta diskRead diskIo
  rw [if_pos h]

theorem bootRead_eq {header : FatHeader} (h : disks.getDisk id ≠ 0) :
    disks.bootRead ata id header =
      ata.ataRead (disks.bootRequest id).n header (disks.bootRequest id).count
        (disks.bootRequest id).offect := by
  unfold bootRead diskReadAta diskRead diskIo
  rw [if_neg h]
  cases hdev : (disks.mem (disks.getDisk id)).devType with
  | diskAta => rfl

/-- When the answer is the size of the header, the variable holds the header of the boot
sector. -/
theorem bootRead_header (hsectors : ∀ n, ata.sectors n < 2 ^ 64) {header : FatHeader}
    (h : (disks.bootRead ata id header).1 = fatHeaderSize) :
    ∀ k < fatHeaderSize, (disks.bootRead ata id header).2 k = disks.bootHeader ata id k := by
  by_cases hnull : disks.getDisk id = 0
  · rw [disks.bootRead_of_null ata id hnull] at h
    cases h
  rw [disks.bootRead_eq ata id hnull] at h ⊢
  obtain ⟨command, hcommand, hbytes⟩ := Ata.ataRead_header (hsectors _) header
    (disks.bootRequest_count_lt id) (disks.bootRequest_offect_mod id) h
  intro k hk
  unfold bootHeader
  dsimp only
  rw [hcommand]
  exact hbytes k hk

/-- The disk exists, has a sector, and its drive takes the request for the header. -/
def BootServed : Prop :=
  disks.getDisk id ≠ 0 ∧ (disks.mem (disks.getDisk id)).sectorCount % 2 ^ 55 ≠ 0 ∧
    ata.Serves (disks.bootRequest id).n (disks.bootRequest id).count (disks.bootRequest id).offect

/-- There is no disk, or the driver or the drive gives the request up. -/
def BootFails : Prop :=
  disks.getDisk id = 0 ∨
    ata.Fails (disks.bootRequest id).n (disks.bootRequest id).count (disks.bootRequest id).offect

/-- The whole header is read exactly from a disk that exists, has a sector and whose drive takes
the request. -/
theorem bootRead_complete_iff (hsectors : ∀ n, ata.sectors n < 2 ^ 64) (header : FatHeader) :
    (disks.bootRead ata id header).1 = fatHeaderSize ↔ disks.BootServed ata id := by
  unfold BootServed
  by_cases hnull : disks.getDisk id = 0
  · rw [disks.bootRead_of_null ata id hnull]
    exact ⟨fun h => (by cases h), fun h => absurd hnull h.1⟩
  rw [disks.bootRead_eq ata id hnull, Ata.ataRead_header_iff (hsectors _) header
    (disks.bootRequest_count_lt id) (disks.bootRequest_offect_mod id)]
  have hcount : (disks.bootRequest id).count = fatHeaderSize ↔
      (disks.mem (disks.getDisk id)).sectorCount % 2 ^ 55 ≠ 0 := by
    rw [bootRequest_count]
    split <;> lia
  rw [hcount]
  exact ⟨fun h => ⟨hnull, h⟩, fun h => h.2⟩

theorem bootRead_failed_iff (header : FatHeader) :
    (disks.bootRead ata id header).1 = -1 ↔ disks.BootFails ata id := by
  unfold BootFails
  by_cases hnull : disks.getDisk id = 0
  · rw [disks.bootRead_of_null ata id hnull]
    exact ⟨fun _ => Or.inl hnull, fun _ => rfl⟩
  rw [disks.bootRead_eq ata id hnull, Ata.ataRead_fails_iff header
    (disks.bootRequest_count_cases id) (disks.bootRequest_offect_mod id)]
  exact ⟨Or.inr, fun h => h.resolve_left hnull⟩

/-- `disk_fs_init` mounts nothing but the volume that the boot sector describes, which it has
read as a whole. -/
def MountsRecognised (header : FatHeader) (fat : FatInfo) (kmalloc : ℕ) : Prop :=
  ∀ v, disks.diskFsInit ata id header fat kmalloc = (.fsFat, some v) →
    (disks.bootRead ata id header).1 = fatHeaderSize ∧
      v.MountedFrom id (disks.bootHeader ata id)

theorem diskFsInit_eq_iff (header : FatHeader) (fat : FatInfo) (kmalloc : ℕ) (v : FatInfo) :
    disks.diskFsInit ata id header fat kmalloc = (.fsFat, some v) ↔
      fatInit id (disks.bootRead ata id header).1
        (disks.bootRead ata id header).2 fat kmalloc = some v := by
  unfold diskFsInit
  dsimp only
  cases fatInit id (disks.bootRead ata id header).1
    (disks.bootRead ata id header).2 fat kmalloc with
  | none => simp
  | some w => simp

theorem mountsRecognised_read (hsectors : ∀ n, ata.sectors n < 2 ^ 64) (header : FatHeader)
    (fat : FatInfo) (kmalloc : ℕ) :
    disks.MountsRecognised ata id header fat kmalloc ↔
      kmalloc = 0 ∨
        ((disks.bootRead ata id header).1 ≠ -1 ∧
          ∀ type,
            (disks.bootRead ata id header).2.Touches type →
            (type = .fat32 → ¬ (disks.bootRead ata id header).2.Touches .fat16) →
              (disks.bootRead ata id header).1 = fatHeaderSize ∧
                (disks.bootRead ata id header).2.Carries type) := by
  unfold MountsRecognised
  simp only [diskFsInit_eq_iff, fatInit_eq_some_iff]
  have hwhole := @bootRead_header disks ata id hsectors header
  generalize disks.bootRead ata id header = read at hwhole ⊢
  obtain ⟨r, left⟩ := read
  dsimp only at hwhole ⊢
  by_cases hnull : kmalloc = 0
  · exact ⟨fun _ => Or.inl hnull, fun _ v h => absurd hnull h.1⟩
  constructor
  · intro h
    have hok : r ≠ -1 := by
      intro hfail
      have hread := (h _ ⟨hnull, Or.inl ⟨hfail, rfl⟩⟩).1
      rw [hfail] at hread
      cases hread
    refine Or.inr ⟨hok, fun type htouch hfirst => ?_⟩
    cases type with
    | fat16 =>
        obtain ⟨hread, hmount⟩ := h _ ⟨hnull, Or.inr (Or.inl ⟨hok, htouch, rfl⟩)⟩
        exact ⟨hread, FatHeader.carries_congr (fun k hk => (hwhole hread k hk).symm) hmount.carries⟩
    | fat32 =>
        obtain ⟨hread, hmount⟩ := h _ ⟨hnull, Or.inr (Or.inr ⟨hok, hfirst rfl, htouch, rfl⟩)⟩
        exact ⟨hread, FatHeader.carries_congr (fun k hk => (hwhole hread k hk).symm) hmount.carries⟩
  · rintro (hzero | ⟨hok, htype⟩)
    · exact absurd hzero hnull
    rintro v ⟨-, ⟨hfail, -⟩ | ⟨-, htouch, rfl⟩ | ⟨-, hnot, htouch, rfl⟩⟩
    · exact absurd hfail hok
    · obtain ⟨hread, hcarries⟩ := htype .fat16 htouch (fun h => nomatch h)
      refine ⟨hread, FatInfo.MountedFrom.congr (hwhole hread) ⟨rfl, hcarries, ?_⟩⟩
      exact FatInfo.fill16_derivedFrom _ _
    · obtain ⟨hread, hcarries⟩ := htype .fat32 htouch (fun _ => hnot)
      refine ⟨hread, FatInfo.MountedFrom.congr (hwhole hread) ⟨rfl, hcarries, ?_⟩⟩
      exact FatInfo.fill32_derivedFrom _ _

/-- Nothing but a recognised volume is mounted exactly when there is no memory for it; or the drive
takes the request, and the first signature that has a byte in common with the boot sector is
there as a whole; or the request is neither taken nor given up, and the variable that the header
is read into has no byte in common with a signature. -/
theorem mountsRecognised_iff (hsectors : ∀ n, ata.sectors n < 2 ^ 64) (header : FatHeader)
    (fat : FatInfo) (kmalloc : ℕ) :
    disks.MountsRecognised ata id header fat kmalloc ↔
      kmalloc = 0 ∨
        (disks.BootServed ata id ∧
          ∀ type, (disks.bootHeader ata id).Touches type →
            (type = .fat32 → ¬ (disks.bootHeader ata id).Touches .fat16) →
              (disks.bootHeader ata id).Carries type) ∨
        (¬ disks.BootServed ata id ∧ ¬ disks.BootFails ata id ∧
          ∀ type, ¬ (disks.bootRead ata id header).2.Touches type) := by
  rw [disks.mountsRecognised_read ata id hsectors, ← disks.bootRead_complete_iff ata id hsectors header,
    ← disks.bootRead_failed_iff ata id header]
  have hwhole := @bootRead_header disks ata id hsectors header
  generalize disks.bootRead ata id header = read at hwhole ⊢
  obtain ⟨r, left⟩ := read
  dsimp only at hwhole ⊢
  refine or_congr Iff.rfl ?_
  by_cases hread : r = fatHeaderSize
  · have hsame : ∀ k < fatHeaderSize, left k = disks.bootHeader ata id k := hwhole hread
    have htouch (type : FatType) : left.Touches type ↔ (disks.bootHeader ata id).Touches type :=
      FatHeader.touches_congr hsame
    have hcarry (type : FatType) : left.Carries type ↔ (disks.bootHeader ata id).Carries type :=
      ⟨FatHeader.carries_congr hsame, FatHeader.carries_congr fun k hk => (hsame k hk).symm⟩
    have hok : ¬ ((fatHeaderSize : ℕ) : ℤ) = -1 := by decide
    simp only [htouch, hcarry, hread, hok, not_true, false_and, or_false, true_and, ne_eq,
      not_false_eq_true]
  · simp only [hread, false_and, false_or, not_false_eq_true, true_and, imp_false]
    refine and_congr Iff.rfl ⟨fun h type htouch => ?_, fun h type htouch _ => h type htouch⟩
    cases type with
    | fat16 => exact h .fat16 htouch (fun h => nomatch h)
    | fat32 =>
        refine h .fat32 htouch fun _ h16 => ?_
        exact h .fat16 h16 (fun h => nomatch h)

end Disks

/-- A disk of eight sectors on the first drive. -/
def bootDisk : Disks := ⟨fun _ => ⟨0, .diskAta, 0, 0, 8, ⟨.fsRaw, 0⟩, 0, 0, 0, 0, 0⟩, 1, 0x1000, 0x1000⟩

/-- A drive of sixteen sectors with the signature of a FAT16 volume in its first one, and with an
answer to every command. -/
def signedDrive (error : Bool) : Ata where
  state := fun _ => .lba28
  sectors := fun _ => 16
  buf1 := fun _ => 0
  buf2 := fun _ => 0
  disk := fun _ k => if 54 ≤ k then FatType.fat16.text.getD (k - 54) 0 else 0
  error := fun _ _ => error

theorem signedDrive_sectors_lt (error : Bool) (n : ℕ) : (signedDrive error).sectors n < 2 ^ 64 := by
  change 16 < 2 ^ 64
  decide

theorem oneDisk_serves : bootDisk.BootServed (signedDrive false) 0 := by
  have hsome : (ataCommand .lba28 ((signedDrive false).sectorCount 0 87 3) 0).isSome = true := by
    with_unfolding_all decide
  obtain ⟨command, hcommand⟩ := Option.isSome_iff_exists.1 hsome
  refine ⟨by with_unfolding_all decide, by with_unfolding_all decide, by with_unfolding_all decide, by with_unfolding_all decide,
    by with_unfolding_all decide, command, ?_, rfl⟩
  have hcount : (bootDisk.bootRequest 0).count = 87 := by with_unfolding_all decide
  have hoff : (bootDisk.bootRequest 0).offect = 3 := by with_unfolding_all decide
  have hn : (bootDisk.bootRequest 0).n = 0 := by with_unfolding_all decide
  rw [hcount, hoff, hn]
  exact hcommand

theorem oneDisk_bootHeader (k : ℕ) :
    bootDisk.bootHeader (signedDrive false) 0 k =
      if 51 ≤ k then FatType.fat16.text.getD (k - 51) 0 else 0 := by
  rw [bootDisk.bootHeader_apply (signedDrive false) 0 (rfl : 0 = _) (by decide)
    (Or.inl ⟨rfl, by decide⟩)]
  change (if 54 ≤ 0 * ataSectorSize + 3 + k then
    FatType.fat16.text.getD (0 * ataSectorSize + 3 + k - 54) 0 else 0) = _
  have hindex : 0 * ataSectorSize + 3 + k - 54 = k - 51 := by omega
  rw [hindex]
  exact if_congr (by omega) rfl rfl

theorem oneDisk_carries : (bootDisk.bootHeader (signedDrive false) 0).Carries .fat16 := by
  intro i hi
  rw [oneDisk_bootHeader, if_pos (by change 51 ≤ 51 + i; omega)]
  change FatType.fat16.text.getD (51 + i - 51) 0 = _
  rw [Nat.add_sub_cancel_left]

theorem mountsRecognised_iff_signed :
    bootDisk.MountsRecognised (signedDrive false) 0 (fun _ => 0) ⟨0, .fat16, 0, 0, 0, 0, 0, 0, 0⟩
      0x1000 := by
  refine (bootDisk.mountsRecognised_iff (signedDrive false) 0 (signedDrive_sectors_lt _) _ _ _).2
    (Or.inr (Or.inl ⟨oneDisk_serves, fun type _ hfirst => ?_⟩))
  cases type with
  | fat16 => exact oneDisk_carries
  | fat32 => exact absurd oneDisk_carries.touches (hfirst rfl)

/-- A drive that answers with the error bit: the header that nobody has read is mounted. -/
theorem failed_read_mounted :
    ¬ ∀ (disks : Disks) (ata : Ata) (id : ℕ) (header : FatHeader) (fat : FatInfo) (kmalloc : ℕ),
      (∀ n, ata.sectors n < 2 ^ 64) → disks.MountsRecognised ata id header fat kmalloc := by
  intro hall
  have hmount := hall bootDisk (signedDrive true) 0 (fun _ => 0)
    ⟨0, .fat16, 0, 0, 0, 0, 0, 0, 0⟩ 0x1000 (signedDrive_sectors_lt _)
  have hfails : bootDisk.BootFails (signedDrive true) 0 :=
    Or.inr (Or.inr ⟨by with_unfolding_all decide, by with_unfolding_all decide, fun _ _ => rfl⟩)
  rcases (bootDisk.mountsRecognised_read (signedDrive true) 0 (signedDrive_sectors_lt _) _ _ _).1 hmount with
    hnull | ⟨hok, -⟩
  · exact absurd hnull (by decide)
  · exact hok ((bootDisk.bootRead_failed_iff (signedDrive true) 0 _).2 hfails)

end BitchKernel
