import BitchKernel.Fs.FatChain
import BitchKernel.Fs.FatHalt

/-!
# Entries of a directory

A directory is the clusters of its chain, one behind the other. `read_dir_entry` skips the
clusters in front of an entry, and an entry never crosses into the next cluster when the size of a
cluster is a multiple of its own. What it returns is what lies where the code computes the cluster
to be: with a product of 32 bits.
-/

namespace BitchKernel

open Lib

namespace Fat

def clusterBytes (disk : Bytes) (fat : Fat) (cluster : ℕ) : List (BitVec 8) :=
  (List.range fat.clusterSize).map fun k =>
    disk (fat.startCluster + (cluster - 2) * fat.clusterSize + k)

def chainBytes (disk : Bytes) (fat : Fat) (l : List ℕ) : List (BitVec 8) :=
  l.flatMap (fat.clusterBytes disk)

/-- The cluster of the entry `n`. -/
def entryCluster (fat : Fat) (l : List ℕ) (n : ℕ) : ℕ := l.getD (n * fatDirSize / fat.clusterSize) 0

/-- The place of the byte `k` of the entry `n`. -/
def entryPlace (fat : Fat) (l : List ℕ) (n k : ℕ) : ℕ :=
  fat.startCluster + (fat.entryCluster l n - 2) * fat.clusterSize +
    (n * fatDirSize % fat.clusterSize + k)

/-- The same with a product of 32 bits and sums of 64 bits. -/
def wrappedEntryPlace (fat : Fat) (l : List ℕ) (n k : ℕ) : ℕ :=
  (fat.startCluster + (fat.entryCluster l n - 2) * fat.clusterSize % 2 ^ 32 +
    (n * fatDirSize % fat.clusterSize + k)) % 2 ^ 64

variable {disk : Bytes} {diskRead : DiskRead} {fat : Fat} {cluster n : ℕ} {l : List ℕ}

theorem clusterBytes_length (disk : Bytes) (fat : Fat) (cluster : ℕ) :
    (fat.clusterBytes disk cluster).length = fat.clusterSize := by
  unfold clusterBytes
  rw [List.length_map, List.length_range]

theorem take_drop_clusterBytes (disk : Bytes) (fat : Fat) (cluster : ℕ) {o j : ℕ}
    (hle : o + j ≤ fat.clusterSize) :
    ((fat.clusterBytes disk cluster).drop o).take j =
      (List.range j).map fun k =>
        disk (fat.startCluster + (cluster - 2) * fat.clusterSize + (o + k)) := by
  have hlen := clusterBytes_length disk fat cluster
  apply List.ext_getElem
  · rw [List.length_take, List.length_drop, hlen, List.length_map, List.length_range]
    omega
  · intro k hk hk'
    rw [List.getElem_take, List.getElem_drop, List.getElem_map, List.getElem_range]
    unfold clusterBytes
    rw [List.getElem_map, List.getElem_range]

theorem two_le_of_chain (h : ChainOf 0 (fat.nextCluster diskRead) cluster l) (htwo : 2 ≤ cluster) :
    ∀ c ∈ l, 2 ≤ c := by
  induction h with
  | last _ =>
      intro c hc
      rwa [List.mem_singleton.1 hc]
  | @cons cluster l hne _ ih =>
      intro c hc
      rcases List.mem_cons.1 hc with rfl | hrest
      · exact htwo
      · refine ih ?_ c hrest
        revert hne
        unfold nextCluster
        split
        all_goals
          dsimp only
          split
          · exact fun hne => absurd rfl hne
          · exact fun _ => by omega

/-- The loop of `read_cluster` for a request inside the cluster `q` of a chain: the clusters in
front of it are skipped, and its bytes are stored. -/
theorem readClusterLoop_of_chain (hexact : ExactRead disk diskRead)
    (h : ChainOf 0 (fat.nextCluster diskRead) cluster l) {count q o : ℕ} (hlt : o < fat.clusterSize)
    (hinside : o + count ≤ fat.clusterSize) (hq : q < l.length)
    (hoffect : q * fat.clusterSize + o < 2 ^ 64) {fuel : ℕ} (hfuel : q < fuel) (buf : Bytes) :
    ∃ bytes, fat.readClusterLoop diskRead fuel buf cluster count (q * fat.clusterSize + o) 0 0 =
        some (toSigned count, buf.store 32 0 bytes) ∧ bytes.length = count ∧
      ∀ k < count, bytes.getD k 0 = disk ((fat.clusterOffect (l.getD q 0) o + k) % 2 ^ 64) := by
  induction h generalizing q fuel with
  | @last cluster hend =>
      obtain ⟨fuel, rfl⟩ : ∃ f, fuel = f + 1 := ⟨fuel - 1, by omega⟩
      obtain rfl : q = 0 := Nat.lt_one_iff.1 hq
      rw [Nat.zero_mul, Nat.zero_add]
      exact readClusterLoop_first hexact fuel buf cluster hinside hlt
  | @cons cluster l hne hl ih =>
      obtain ⟨fuel, rfl⟩ : ∃ f, fuel = f + 1 := ⟨fuel - 1, by omega⟩
      cases q with
      | zero =>
          rw [Nat.zero_mul, Nat.zero_add]
          exact readClusterLoop_first hexact fuel buf cluster hinside hlt
      | succ q =>
          have hplace : (q + 1) * fat.clusterSize + o = fat.clusterSize + (q * fat.clusterSize + o) := by
            rw [Nat.succ_mul]
            omega
          rw [hplace] at hoffect ⊢
          rw [readClusterLoop_next fuel buf hne hoffect]
          exact ih (Nat.lt_of_succ_lt_succ hq) (by omega) (Nat.lt_of_succ_lt_succ hfuel)

theorem dirCluster_le (h : ChainOf 0 (fat.nextCluster diskRead) cluster l) {fuel m : ℕ}
    (hm : fat.dirCluster diskRead fuel cluster = some m) : m ≤ l.length := by
  have hlong : fat.dirClusterLoop diskRead (fuel + l.length) cluster 1 = some m :=
    dirClusterLoop_mono (Nat.le_add_right _ _) hm
  rw [← dirClusterTrace_fst, dirClusterTrace_of_chain h (Nat.le_add_left _ _) (by decide),
    Option.map_some, Nat.add_sub_cancel' h.length_pos, Option.some.injEq] at hlong
  rw [← hlong]
  exact Nat.mod_le _ _

/-- An entry of a directory lies inside one cluster of its chain, and the product of its number
does not wrap. -/
theorem entry_inside (halign : fat.clusterSize % fatDirSize = 0)
    (h : ChainOf 0 (fat.nextCluster diskRead) cluster l) {fuel count n : ℕ}
    (hcount : fat.dirCount diskRead fuel cluster = some count) (hn : n < count) :
    n * fatDirSize < 2 ^ 32 ∧ n * fatDirSize / fat.clusterSize < l.length ∧
      n * fatDirSize % fat.clusterSize + fatDirSize ≤ fat.clusterSize := by
  have hpos := fat.clusterSize_pos
  obtain ⟨m, hm, rfl⟩ := Option.map_eq_some_iff.1 hcount
  have hle : fat.clusterSize * m ≤ fat.clusterSize * l.length :=
    Nat.mul_le_mul_left _ (dirCluster_le h hm)
  have hlt : n * fatDirSize + fatDirSize ≤ mul32 fat.clusterSize m := by
    have hdiv := (Nat.le_div_iff_mul_le (by decide : 0 < fatDirSize)).1 (Nat.succ_le_of_lt hn)
    rwa [Nat.succ_mul] at hdiv
  have hwrap : mul32 fat.clusterSize m ≤ fat.clusterSize * m := by
    rw [mul32_eq]
    exact Nat.mod_le _ _
  refine ⟨by have := Word.mul_lt 32 fat.clusterSize m; lia, ?_, ?_⟩
  · rw [Nat.div_lt_iff_lt_mul hpos, Nat.mul_comm l.length]
    lia
  · obtain ⟨t, ht⟩ := Nat.dvd_of_mod_eq_zero halign
    rw [ht, Nat.mul_comm n, Nat.mul_mod_mul_left, ← Nat.mul_succ]
    refine Nat.mul_le_mul_left _ (Nat.mod_lt _ ?_)
    exact Nat.pos_of_mul_pos_left (ht ▸ hpos)

theorem readDirEntry_apply (hexact : ExactRead disk diskRead)
    (halign : fat.clusterSize % fatDirSize = 0) (htwo : 2 ≤ cluster)
    (h : ChainOf 0 (fat.nextCluster diskRead) cluster l) {fuel count n : ℕ}
    (hcount : fat.dirCount diskRead fuel cluster = some count) (hn : n < count) (dir : FatDir) {k : ℕ}
    (hk : k < fatDirSize) :
    fat.readDirEntry diskRead dir cluster n k = disk (fat.wrappedEntryPlace l n k) := by
  have hpos := fat.clusterSize_pos
  obtain ⟨hwrap, hcluster, hinside⟩ := entry_inside halign h hcount hn
  have hmul : mul32 n fatDirSize =
      n * fatDirSize / fat.clusterSize * fat.clusterSize + n * fatDirSize % fat.clusterSize := by
    rw [mul32_eq, Nat.mod_eq_of_lt hwrap, Nat.div_add_mod']
  have hfuel : n * fatDirSize / fat.clusterSize < mul32 n fatDirSize + fatDirSize + 1 := by
    rw [mul32_eq, Nat.mod_eq_of_lt hwrap]
    have hle := Nat.div_le_self (n * fatDirSize) fat.clusterSize
    omega
  obtain ⟨r, hread⟩ := readDirEntry_eq diskRead fat dir cluster n
  obtain ⟨bytes, hloop, hlen, hbyte⟩ := readClusterLoop_of_chain hexact h (Nat.mod_lt _ hpos)
    hinside hcluster (by rw [Nat.div_add_mod']; omega) hfuel dir
  rw [← hmul] at hloop
  have hdir := (Prod.mk.inj (Option.some.inj (hread.symm.trans hloop))).2
  have htwo' : 2 ≤ l.getD (n * fatDirSize / fat.clusterSize) 0 := by
    rw [List.getD_eq_getElem?_getD, List.getElem?_eq_getElem hcluster, Option.getD_some]
    exact two_le_of_chain h htwo _ (List.getElem_mem hcluster)
  rw [hdir, Bytes.store_apply dir (by lia) (by lia), hlen, if_pos ⟨Nat.zero_le k, by omega⟩,
    Nat.sub_zero, hbyte k hk, clusterOffect_eq fat htwo', Nat.mod_add_mod, Nat.add_assoc]
  rfl

theorem take_drop_chainBytes (disk : Bytes) (halign : fat.clusterSize % fatDirSize = 0)
    (h : ChainOf 0 (fat.nextCluster diskRead) cluster l) {fuel count n : ℕ}
    (hcount : fat.dirCount diskRead fuel cluster = some count) (hn : n < count) :
    ((fat.chainBytes disk l).drop (n * fatDirSize)).take fatDirSize =
      (List.range fatDirSize).map fun k => disk (fat.entryPlace l n k) := by
  obtain ⟨-, hcluster, hinside⟩ := entry_inside halign h hcount hn
  have hpart := take_drop_flatMap 0 (fun c _ => clusterBytes_length disk fat c) hcluster hinside
  rw [Nat.div_add_mod'] at hpart
  unfold chainBytes
  rw [hpart, take_drop_clusterBytes disk fat _ hinside]
  rfl

/-- **Directory entries are read whole where the product does not wrap.** For every volume whose
clusters hold whole entries, every chain that ends, and every entry below the count that
`dir_cluster` yields: `read_dir_entry` returns the 32 bytes of the entry in the concatenated
clusters if and only if the disk holds each of them at the wrapped place too. -/
theorem readDirEntry_whole_iff (hexact : ExactRead disk diskRead)
    (halign : fat.clusterSize % fatDirSize = 0) (htwo : 2 ≤ cluster)
    (h : ChainOf 0 (fat.nextCluster diskRead) cluster l) {fuel count n : ℕ}
    (hcount : fat.dirCount diskRead fuel cluster = some count) (hn : n < count) (dir : FatDir) :
    (List.range fatDirSize).map (fat.readDirEntry diskRead dir cluster n) =
        ((fat.chainBytes disk l).drop (n * fatDirSize)).take fatDirSize ↔
      ∀ k < fatDirSize, disk (fat.wrappedEntryPlace l n k) = disk (fat.entryPlace l n k) := by
  rw [take_drop_chainBytes disk halign h hcount hn, List.map_inj_left]
  refine forall_congr' fun k => ?_
  rw [List.mem_range]
  refine imp_congr_right fun hk => ?_
  rw [readDirEntry_apply hexact halign htwo h hcount hn dir hk]

/-- An entry of a cluster within four gigabytes behind the first one is held at its place. -/
theorem wrappedEntryPlace_eq (hstart : fat.startCluster < 2 ^ 63)
    (hplace : (fat.entryCluster l n - 2) * fat.clusterSize < 2 ^ 32) {k : ℕ} (hk : k < fatDirSize) :
    fat.wrappedEntryPlace l n k = fat.entryPlace l n k := by
  have hsize := fat.clusterSize_lt
  have hmod := Nat.mod_lt (n * fatDirSize) fat.clusterSize_pos
  unfold wrappedEntryPlace entryPlace
  rw [Nat.mod_eq_of_lt hplace, Nat.mod_eq_of_lt (by lia)]

end Fat

section Example

theorem smallDisk_chain : ChainOf 0 (smallFat.nextCluster smallDiskRead) 2 [2, 3] := by
  have hnext : smallFat.nextCluster smallDiskRead 2 = 3 := by with_unfolding_all decide
  refine .cons (by rw [hnext]; decide) ?_
  rw [hnext]
  exact .last (by with_unfolding_all decide)

theorem smallDisk_count : smallFat.dirCount smallDiskRead 2 2 = some 32 := by
  with_unfolding_all decide

/-- Two clusters of sixteen entries each: an entry of the second one. -/
theorem readDirEntry_whole_two_clusters :
    (List.range fatDirSize).map (smallFat.readDirEntry smallDiskRead (fun _ => 0) 2 17) =
      ((smallFat.chainBytes smallDisk [2, 3]).drop (17 * fatDirSize)).take fatDirSize :=
  (Fat.readDirEntry_whole_iff smallDiskRead_exact (by decide) (by decide) smallDisk_chain
    smallDisk_count (by decide) _).mpr
      fun _ hk => congrArg smallDisk (Fat.wrappedEntryPlace_eq (by decide) (by decide) hk)

/-- The table of a FAT32 volume with an end mark for one cluster, more than four gigabytes behind
the cluster 2, whose first entry is not deleted. -/
def farCluster : ℕ := 2 ^ 23 + 2

def farFat : Fat where
  diskId := 0
  fatType := .fat32
  sectorSize := 512
  clusterSectors := 1
  startCluster := 2 ^ 27
  fatSector := 32
  sectorSize_pos := smallFat.sectorSize_pos
  sectorSize_lt := smallFat.sectorSize_lt
  clusterSectors_pos := smallFat.clusterSectors_pos
  clusterSectors_lt := smallFat.clusterSectors_lt

def farDisk (a : ℕ) : BitVec 8 :=
  if a = 2 ^ 27 + 2 ^ 32 then 0x41
  else if 32 * 512 + farCluster * 4 ≤ a ∧ a < 32 * 512 + farCluster * 4 + 3 then 0xff
  else if a = 32 * 512 + farCluster * 4 + 3 then 0x0f
  else 0

def farDiskRead : DiskRead := fun _ count offect =>
  some ((List.range count).map fun j => farDisk ((offect + j) % 2 ^ 64))

theorem farDiskRead_exact : ExactRead farDisk farDiskRead := fun _ _ _ => rfl

theorem farDisk_chain : ChainOf 0 (farFat.nextCluster farDiskRead) farCluster [farCluster] :=
  .last (by with_unfolding_all decide)

theorem farDisk_count : farFat.dirCount farDiskRead 1 farCluster = some 16 := by
  with_unfolding_all decide

/-- The first entry of the cluster is read from the cluster 2. -/
theorem readDirEntry_far :
    ExactRead farDisk farDiskRead ∧ farFat.clusterSize % fatDirSize = 0 ∧
      ChainOf 0 (farFat.nextCluster farDiskRead) farCluster [farCluster] ∧
      farFat.dirCount farDiskRead 1 farCluster = some 16 ∧
      (List.range fatDirSize).map (farFat.readDirEntry farDiskRead (fun _ => 0) farCluster 0) ≠
        ((farFat.chainBytes farDisk [farCluster]).drop (0 * fatDirSize)).take fatDirSize := by
  refine ⟨farDiskRead_exact, by decide, farDisk_chain, farDisk_count, fun hwhole => ?_⟩
  rw [Fat.take_drop_chainBytes farDisk (by decide) farDisk_chain farDisk_count (by decide),
    List.map_inj_left] at hwhole
  have hbyte := hwhole 0 (by decide)
  rw [Fat.readDirEntry_apply farDiskRead_exact (by decide) (by decide) farDisk_chain farDisk_count
    (by decide) _ (by decide)] at hbyte
  exact absurd hbyte (by with_unfolding_all decide)

end Example

end BitchKernel
