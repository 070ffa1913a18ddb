import BitchKernel.Fs.FatInit
import BitchKernel.Fs.FatRead

/-!
# Where the clusters of a volume lie

`read_cluster` finds a byte of a cluster at `start_cluster + (cluster - 2) * cluster_size + offect`.
The base has 64 bits and the two factors have 32, so the product is cut to 32 bits before it is
added. Clusters whose first byte lies 4 GiB or more behind the first cluster are looked for among
the clusters in front of them.
-/

namespace BitchKernel

open Lib

namespace FatInfo

/-- The place of a byte of a cluster, as `read_cluster` computes it. -/
def clusterOffect (fat : FatInfo) (cluster offect : ℕ) : ℕ :=
  add64 (add64 fat.startCluster (mul32 (sub32 cluster 2) fat.clusterSize)) offect

/-- `fat_init` fills in the volume from a header that was read. -/
def Accepted (v : FatInfo) : Prop :=
  ∃ (id : ℕ) (r : ℤ) (header : FatHeader) (fat : FatInfo) (kmalloc : ℕ),
    r ≠ -1 ∧ fatInit id r header fat kmalloc = some v

/-- The volume of the reads, for a header whose sizes are not zero. -/
def toFat (v : FatInfo) (header : FatHeader) (hsector : 0 < header.sectorSize)
    (hcluster : 0 < header.clusterSectors) : Fat where
  diskId := v.diskId
  fatType := v.fatType
  sectorSize := header.sectorSize
  clusterSectors := header.clusterSectors
  startCluster := v.startCluster
  fatSector := v.fatSector
  sectorSize_pos := hsector
  sectorSize_lt := Bytes.le_lt header 8 2
  clusterSectors_pos := hcluster
  clusterSectors_lt := Bytes.le_lt header 10 1

theorem clusterOffect_toFat {id : ℕ} {r : ℤ} {header : FatHeader} {fat v : FatInfo} {kmalloc : ℕ}
    (hinit : fatInit id r header fat kmalloc = some v) (hsector : 0 < header.sectorSize)
    (hcluster : 0 < header.clusterSectors) (cluster offect : ℕ) :
    (v.toFat header hsector hcluster).clusterOffect cluster offect =
      v.clusterOffect cluster offect := by
  have hsize : v.clusterSize = header.clusterSectors * header.sectorSize := by
    obtain ⟨-, ⟨-, rfl⟩ | ⟨-, -, rfl⟩ | ⟨-, -, -, rfl⟩⟩ :=
      (fatInit_eq_some_iff _ _ _ _ _ _).1 hinit
    · rfl
    · rfl
    · rfl
  unfold clusterOffect
  rw [hsize]
  rfl

/-- The place of a byte of a cluster in unbounded numbers. -/
def clusterPlace (fat : FatInfo) (cluster offect : ℕ) : ℕ :=
  fat.startCluster + (cluster - 2) * fat.clusterSize + offect

variable {v : FatInfo}

/-- An accepted volume starts below `2 ^ 42`, and its clusters are smaller than 16 MiB. -/
theorem Accepted.bounds (h : v.Accepted) : v.startCluster < 2 ^ 42 ∧ v.clusterSize < 2 ^ 24 := by
  obtain ⟨id, r, header, fat, kmalloc, hok, hinit⟩ := h
  have hsector : header.sectorSize < 2 ^ 16 := Bytes.le_lt header 8 2
  have hsectors : header.clusterSectors < 2 ^ 8 := Bytes.le_lt header 10 1
  have hroot : header.rootDirCount < 2 ^ 16 := Bytes.le_lt header 14 2
  have hsize := Nat.mul_lt_mul'' hsectors hsector
  obtain ⟨-, ⟨hfail, -⟩ | ⟨-, -, rfl⟩ | ⟨-, -, -, rfl⟩⟩ := (fatInit_eq_some_iff _ _ _ _ _ _).1 hinit
  · exact absurd hfail hok
  · refine ⟨?_, hsize⟩
    have hstart := (fill16_derivedFrom { fat with diskId := id } header).fat16 rfl
    have htables := Nat.mul_lt_mul'' header.tables_lt hsector
    rw [hstart.2.1, hstart.1]
    omega
  · refine ⟨?_, hsize⟩
    have hstart := (fill32_derivedFrom { fat with diskId := id } header).fat32 rfl
    rw [hstart.2]
    omega

theorem Accepted.clusterOffect_eq (h : v.Accepted) {cluster offect : ℕ} (htwo : 2 ≤ cluster)
    (hlt : offect < v.clusterSize) :
    v.clusterOffect cluster offect =
      v.startCluster + (cluster - 2) * v.clusterSize % 2 ^ 32 + offect := by
  obtain ⟨hstart, hsize⟩ := h.bounds
  have hproduct : mul32 (sub32 cluster 2) v.clusterSize =
      (cluster - 2) * v.clusterSize % 2 ^ 32 := by
    rw [mul32_eq, sub32_eq_of_le htwo (by decide), Nat.mod_mul_mod]
  unfold clusterOffect
  rw [hproduct, add64_eq, add64_eq, Nat.mod_add_mod, Nat.mod_eq_of_lt (by omega)]

/-- A byte is looked for in its place exactly when its cluster starts less than 4 GiB behind the
first one. -/
theorem Accepted.exact_iff (h : v.Accepted) {cluster offect : ℕ} (htwo : 2 ≤ cluster)
    (hlt : offect < v.clusterSize) :
    v.clusterOffect cluster offect = v.clusterPlace cluster offect ↔
      (cluster - 2) * v.clusterSize < 2 ^ 32 := by
  rw [h.clusterOffect_eq htwo hlt]
  unfold clusterPlace
  omega

theorem clusterPlace_inj {cluster offect cluster' offect' : ℕ} (htwo : 2 ≤ cluster)
    (htwo' : 2 ≤ cluster') (hlt : offect < v.clusterSize) (hlt' : offect' < v.clusterSize)
    (h : v.clusterPlace cluster offect = v.clusterPlace cluster' offect') :
    cluster = cluster' ∧ offect = offect' := by
  unfold clusterPlace at h
  have hsame : (cluster - 2) * v.clusterSize + offect =
      (cluster' - 2) * v.clusterSize + offect' := by omega
  have hdiv := congrArg (· / v.clusterSize) hsame
  have hmod := congrArg (· % v.clusterSize) hsame
  have hpos : 0 < v.clusterSize := by omega
  simp only [Nat.mul_add_div hpos, Nat.mul_add_mod, Nat.mul_comm (_ - 2), Nat.div_eq_of_lt hlt,
    Nat.div_eq_of_lt hlt', Nat.mod_eq_of_lt hlt, Nat.mod_eq_of_lt hlt'] at hdiv hmod
  exact ⟨by omega, hmod⟩

/-- The bytes of the clusters up to `last` have places of their own. -/
def Apart (v : FatInfo) (last : ℕ) : Prop :=
  ∀ cluster offect cluster' offect', 2 ≤ cluster → cluster ≤ last → 2 ≤ cluster' → cluster' ≤ last →
    offect < v.clusterSize → offect' < v.clusterSize →
      v.clusterOffect cluster offect = v.clusterOffect cluster' offect' →
        cluster = cluster' ∧ offect = offect'

/-- The first cluster that starts 4 GiB or more behind the first one shares its first byte with a
cluster in front of it. -/
theorem Accepted.apart_iff (h : v.Accepted) {last : ℕ} (htwo : 2 ≤ last) :
    v.Apart last ↔ (last - 2) * v.clusterSize < 2 ^ 32 := by
  constructor
  · intro hapart
    by_contra hlong
    have hpos : 0 < v.clusterSize := by
      by_contra hzero
      have hsize : v.clusterSize = 0 := by omega
      rw [hsize] at hlong
      omega
    obtain ⟨-, hsize⟩ := h.bounds
    -- the number of whole clusters below 4 GiB, rounded up
    obtain ⟨k, hk⟩ : ∃ k, (2 ^ 32 + (v.clusterSize - 1)) / v.clusterSize = k := ⟨_, rfl⟩
    have hdiv := Nat.div_add_mod (2 ^ 32 + (v.clusterSize - 1)) v.clusterSize
    have hmod := Nat.mod_lt (2 ^ 32 + (v.clusterSize - 1)) hpos
    rw [hk, Nat.mul_comm] at hdiv
    have hle : k ≤ last - 2 := by
      by_contra hgt
      have hmul := Nat.mul_le_mul_right v.clusterSize (show last - 2 + 1 ≤ k by omega)
      rw [Nat.add_mul] at hmul
      omega
    have hshare := hapart (k + 2) 0 2 (k * v.clusterSize - 2 ^ 32) (by omega) (by omega) (by omega)
      htwo hpos (by omega) (by
        rw [h.clusterOffect_eq (by omega) hpos, h.clusterOffect_eq (by omega) (by omega),
          Nat.add_sub_cancel, Nat.sub_self, Nat.zero_mul]
        omega)
    have hzero : k = 0 := by omega
    rw [hzero] at hdiv
    omega
  · intro hshort cluster offect cluster' offect' hc hle hc' hle' hlt hlt' hsame
    have hexact {c o : ℕ} (hc : 2 ≤ c) (hle : c ≤ last) (ho : o < v.clusterSize) :
        v.clusterOffect c o = v.clusterPlace c o := by
      refine (h.exact_iff hc ho).2 ?_
      have hmul := Nat.mul_le_mul_right v.clusterSize (show c - 2 ≤ last - 2 by omega)
      omega
    rw [hexact hc hle hlt, hexact hc' hle' hlt'] at hsame
    exact clusterPlace_inj hc hc' hlt hlt' hsame

/-- On every accepted volume a byte of a cluster is looked for in its place exactly when its
cluster starts less than 4 GiB behind the first one, and the clusters up to a last one have
places of their own exactly when that one does. -/
theorem clusterOffect_exact_iff (v : FatInfo) (h : v.Accepted) :
    (∀ cluster offect, 2 ≤ cluster → offect < v.clusterSize →
      (v.clusterOffect cluster offect = v.startCluster + (cluster - 2) * v.clusterSize + offect ↔
        (cluster - 2) * v.clusterSize < 2 ^ 32)) ∧
    ∀ last, 2 ≤ last → (v.Apart last ↔ (last - 2) * v.clusterSize < 2 ^ 32) :=
  ⟨fun _ _ htwo hlt => h.exact_iff htwo hlt, fun _ htwo => h.apart_iff htwo⟩

end FatInfo

/-- A FAT32 header with clusters of 32 KiB. -/
def header32 : FatHeader := fun k =>
  if k = 9 then 2 else if k = 10 then 64 else if 79 ≤ k then FatType.fat32.text.getD (k - 79) 0 else 0

def volume32 : FatInfo :=
  (FatInfo.fill32 ⟨0, .fat32, 0, 0, 0, 0, 0, 0, 0⟩ header32).fill header32

theorem volume32_accepted : volume32.Accepted := by
  refine ⟨0, fatHeaderSize, header32, ⟨0, .fat32, 0, 0, 0, 0, 0, 0, 0⟩, 1, by decide, ?_⟩
  refine (fatInit_eq_some_iff _ _ _ _ _ _).2 ⟨by decide, Or.inr (Or.inr ⟨by decide, ?_, ?_, rfl⟩)⟩
  · unfold FatHeader.Touches
    decide
  · unfold FatHeader.Touches
    decide

theorem clusterOffect_exact_iff_volume32 :
    volume32.clusterOffect 3 7 = volume32.startCluster + (3 - 2) * volume32.clusterSize + 7 :=
  ((FatInfo.clusterOffect_exact_iff volume32 volume32_accepted).1 3 7 (by decide) (by decide)).2
    (by decide)

/-- The cluster `0x20002` is looked for where the cluster 2 lies. -/
theorem clusterOffect_shared :
    ¬ ∀ v : FatInfo, v.Accepted → v.fatType = .fat32 → ∀ cluster offect cluster' offect',
      2 ≤ cluster → cluster ≤ 0xfffffef → 2 ≤ cluster' → cluster' ≤ 0xfffffef →
      offect < v.clusterSize → offect' < v.clusterSize →
        v.clusterOffect cluster offect = v.clusterOffect cluster' offect' →
          cluster = cluster' ∧ offect = offect' := by
  intro hall
  have hshare := hall volume32 volume32_accepted rfl 0x20002 0 2 0 (by decide) (by decide)
    (by decide) (by decide) (by decide) (by decide) (by with_unfolding_all decide)
  exact absurd hshare.1 (by decide)

end BitchKernel
