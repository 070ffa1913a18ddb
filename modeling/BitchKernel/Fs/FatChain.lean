import BitchKernel.Fs.FatDir
import BitchKernel.Fs.FatRead
import BitchKernel.Lib.Chain

/-!
# The clusters of a chain

The chain that the format defines, and the clusters that `dir_cluster` and `read_cluster` come to.
An entry of a FAT32 table is its low 28 bits. `next_cluster` compares the whole word with the
bounds of a cluster number, so an entry with one of the upper four bits set ends the chain.
-/

namespace BitchKernel

open Lib

/-! ## The format -/

def FatType.entrySize : FatType → ℕ
  | .fat16 => 2
  | .fat32 => 4

def FatType.entryBits : FatType → ℕ
  | .fat16 => 16
  | .fat32 => 28

/-- The last number of a cluster: the numbers behind it are reserved, mark a bad cluster, or end a
chain. -/
def FatType.lastCluster : FatType → ℕ
  | .fat16 => 0xffef
  | .fat32 => 0xfffffef

namespace Fat

variable (disk : ℕ → BitVec 8) (diskRead : DiskRead) (fat : Fat)

def rawEntry (cluster : ℕ) : ℕ :=
  Bytes.le disk (fat.fatSector * fat.sectorSize + cluster * fat.fatType.entrySize)
    fat.fatType.entrySize

/-- The cluster that the format links to, or zero where it ends the chain. -/
def formatNext (cluster : ℕ) : ℕ :=
  let entry := fat.rawEntry disk cluster % 2 ^ fat.fatType.entryBits
  if 2 ≤ entry ∧ entry ≤ fat.fatType.lastCluster then entry else 0

def ReservedBits (cluster : ℕ) : Prop := 2 ^ fat.fatType.entryBits ≤ fat.rawEntry disk cluster

abbrev FormatChain (cluster : ℕ) (l : List ℕ) : Prop := ChainOf 0 (fat.formatNext disk) cluster l

/-! ## What the walks come to -/

/-- `dir_cluster` with the clusters it comes to. -/
def dirClusterTrace : (fuel : ℕ) → (cluster n : ℕ) → Option (ℕ × List ℕ)
  | 0, _, _ => none
  | fuel + 1, cluster, n =>
      let next := fat.nextCluster diskRead cluster
      if next ≠ 0 then
        (dirClusterTrace fuel next (add32 n 1)).map fun r => (r.1, cluster :: r.2)
      else some (n, [cluster])

/-- The loop of `read_cluster` with the clusters it comes to. -/
def readClusterTrace : (fuel : ℕ) → (buf : Bytes) → (cluster count offect n bufOffect : ℕ) →
    Option ((ℤ × Bytes) × List ℕ)
  | 0, _, _, _, _, _, _ => none
  | fuel + 1, buf, cluster, count, offect, n, bufOffect =>
      let next (buf : Bytes) (count offect n bufOffect : ℕ) :=
        let next := fat.nextCluster diskRead cluster
        if next ≠ 0 then
          (readClusterTrace fuel buf next count offect n bufOffect).map fun r =>
            (r.1, cluster :: r.2)
        else some ((toSigned n, buf), [cluster])
      if offect < fat.clusterSize then
        if fat.clusterSize < add64 offect count then
          let part := sub64 fat.clusterSize offect
          match diskRead fat.diskId (part % 2 ^ 32) (fat.clusterOffect cluster offect) with
          | none => some ((-1, buf), [cluster])
          | some bytes =>
              let buf := buf.store 32 (bufOffect % 2 ^ 32) bytes
              let n := add32 n bytes.length
              let count := sub64 count part % 2 ^ 32
              let offect := 0
              let bufOffect := add64 bufOffect (sub64 fat.clusterSize offect)
              next buf count offect n bufOffect
        else
          match diskRead fat.diskId count (fat.clusterOffect cluster offect) with
          | none => some ((-1, buf), [cluster])
          | some bytes =>
              some ((toSigned (add32 n bytes.length), buf.store 32 (bufOffect % 2 ^ 32) bytes),
                [cluster])
      else
        next buf count (sub64 offect fat.clusterSize) n bufOffect

variable {disk diskRead fat}

theorem dirClusterTrace_fst (fuel cluster n : ℕ) :
    (fat.dirClusterTrace diskRead fuel cluster n).map Prod.fst =
      fat.dirClusterLoop diskRead fuel cluster n := by
  induction fuel generalizing cluster n with
  | zero => rfl
  | succ fuel ih =>
      rw [dirClusterTrace, dirClusterLoop]
      split
      · rw [← ih, Option.map_map]
        rfl
      · rfl

theorem readClusterTrace_fst (fuel : ℕ) (buf : Bytes) (cluster count offect n bufOffect : ℕ) :
    (fat.readClusterTrace diskRead fuel buf cluster count offect n bufOffect).map Prod.fst =
      fat.readClusterLoop diskRead fuel buf cluster count offect n bufOffect := by
  induction fuel generalizing buf cluster count offect n bufOffect with
  | zero => rfl
  | succ fuel ih =>
      have hnext (buf : Bytes) (count offect n bufOffect : ℕ) :
          (if fat.nextCluster diskRead cluster ≠ 0 then
              (fat.readClusterTrace diskRead fuel buf (fat.nextCluster diskRead cluster) count offect n
                bufOffect).map fun r => (r.1, cluster :: r.2)
            else some ((toSigned n, buf), [cluster])).map Prod.fst =
            if fat.nextCluster diskRead cluster ≠ 0 then
              fat.readClusterLoop diskRead fuel buf (fat.nextCluster diskRead cluster) count offect n
                bufOffect
            else some (toSigned n, buf) := by
        split
        · rw [← ih, Option.map_map]
          rfl
        · rfl
      rw [readClusterTrace, readClusterLoop]
      dsimp only
      by_cases hin : offect < fat.clusterSize
      · rw [if_pos hin, if_pos hin]
        by_cases hlong : fat.clusterSize < add64 offect count
        · rw [if_pos hlong, if_pos hlong]
          cases diskRead fat.diskId (sub64 fat.clusterSize offect % 2 ^ 32)
              (fat.clusterOffect cluster offect) with
          | none => rfl
          | some bytes => exact hnext _ _ _ _ _
        · rw [if_neg hlong, if_neg hlong]
          cases diskRead fat.diskId count (fat.clusterOffect cluster offect) with
          | none => rfl
          | some bytes => rfl
      · rw [if_neg hin, if_neg hin]
        exact hnext _ _ _ _ _

/-! ## Entries -/

theorem leOf_delivered (off size : ℕ) (hlt : off + size ≤ 2 ^ 64) :
    Bytes.leOf ((List.range size).map fun j => disk ((off + j) % 2 ^ 64)) =
      Bytes.le disk off size := by
  induction size generalizing off with
  | zero => rfl
  | succ size ih =>
      rw [List.range_succ_eq_map, List.map_cons, List.map_map, Bytes.leOf, Bytes.le, Nat.add_zero,
        Nat.mod_eq_of_lt (by omega), ← ih (off + 1) (by omega)]
      have hshift : ((fun j => disk ((off + j) % 2 ^ 64)) ∘ Nat.succ) =
          fun j => disk ((off + 1 + j) % 2 ^ 64) := by
        funext j
        rw [Function.comp_apply, Nat.succ_eq_add_one, Nat.add_right_comm, Nat.add_assoc off j 1]
      rw [hshift]

/-- The number of a cluster of the volume's type. -/
def IsCluster (fat : Fat) (cluster : ℕ) : Prop := cluster ≤ fat.fatType.lastCluster

theorem lastCluster_lt (type : FatType) : type.lastCluster < 2 ^ 28 := by
  cases type <;> decide

theorem formatNext_isCluster (cluster : ℕ) : fat.IsCluster (fat.formatNext disk cluster) := by
  unfold IsCluster formatNext
  dsimp only
  split
  · rename_i h
    exact h.2
  · exact Nat.zero_le _

theorem tableEntry_eq (hexact : ExactRead disk diskRead) (hfat : fat.fatSector < 2 ^ 16)
    {cluster : ℕ} (hcluster : fat.IsCluster cluster) :
    fat.tableEntry diskRead fat.fatType.entrySize cluster = fat.rawEntry disk cluster := by
  have htable := Nat.mul_lt_mul'' hfat fat.sectorSize_lt
  have hlast := lastCluster_lt fat.fatType
  unfold IsCluster at hcluster
  have hsize : fat.fatType.entrySize ≤ 4 := by
    cases fat.fatType <;> decide
  have hentry : cluster * fat.fatType.entrySize ≤ 2 ^ 28 * 4 :=
    Nat.mul_le_mul (by omega) hsize
  unfold tableEntry rawEntry
  rw [hexact, mul64_eq, Nat.mod_eq_of_lt (by omega), mul32_of_lt (by omega), add64_eq,
    Nat.mod_eq_of_lt (by omega)]
  exact leOf_delivered _ _ (by omega)

theorem range_test (entry last : ℕ) :
    (if entry < 0x2 ∨ last < entry then 0 else entry) =
      if 2 ≤ entry ∧ entry ≤ last then entry else 0 := by
  by_cases hin : 2 ≤ entry ∧ entry ≤ last
  · rw [if_pos hin, if_neg (by omega)]
  · rw [if_neg hin, if_pos (by omega)]

theorem nextCluster_of_clear (hexact : ExactRead disk diskRead) (hfat : fat.fatSector < 2 ^ 16)
    {cluster : ℕ} (hcluster : fat.IsCluster cluster) (hclear : ¬ fat.ReservedBits disk cluster) :
    fat.nextCluster diskRead cluster = fat.formatNext disk cluster := by
  have hentry := tableEntry_eq hexact hfat hcluster
  unfold ReservedBits at hclear
  unfold nextCluster formatNext
  rw [Nat.mod_eq_of_lt (by omega)]
  cases htype : fat.fatType with
  | fat16 =>
      rw [htype] at hentry
      change fat.tableEntry diskRead 2 cluster = _ at hentry
      rw [hentry]
      exact range_test _ _
  | fat32 =>
      rw [htype] at hentry
      change fat.tableEntry diskRead 4 cluster = _ at hentry
      rw [hentry]
      exact range_test _ _

theorem nextCluster_of_reserved (hexact : ExactRead disk diskRead) (hfat : fat.fatSector < 2 ^ 16)
    {cluster : ℕ} (hcluster : fat.IsCluster cluster) (hset : fat.ReservedBits disk cluster) :
    fat.nextCluster diskRead cluster = 0 := by
  have hentry := tableEntry_eq hexact hfat hcluster
  unfold ReservedBits at hset
  unfold nextCluster
  cases htype : fat.fatType with
  | fat16 =>
      rw [htype] at hentry hset
      change fat.tableEntry diskRead 2 cluster = _ at hentry
      rw [hentry]
      exact if_pos (Or.inr (by change 2 ^ 16 ≤ _ at hset; omega))
  | fat32 =>
      rw [htype] at hentry hset
      change fat.tableEntry diskRead 4 cluster = _ at hentry
      rw [hentry]
      exact if_pos (Or.inr (by change 2 ^ 28 ≤ _ at hset; omega))

/-! ## The walks -/

def clustersNeeded (fat : Fat) (count offect : ℕ) : ℕ :=
  offect / fat.clusterSize +
    max 1 ((offect % fat.clusterSize + count + (fat.clusterSize - 1)) / fat.clusterSize)

theorem clustersNeeded_skip (fat : Fat) {count offect : ℕ} (hle : fat.clusterSize ≤ offect) :
    fat.clustersNeeded count offect = fat.clustersNeeded count (offect - fat.clusterSize) + 1 := by
  have hpos := fat.clusterSize_pos
  unfold clustersNeeded
  rw [Nat.mod_eq_sub_mod hle, Nat.div_eq_sub_div hpos hle]
  omega

theorem clustersNeeded_first (fat : Fat) {count offect : ℕ} (hlt : offect < fat.clusterSize)
    (hlong : fat.clusterSize < offect + count) :
    fat.clustersNeeded count offect =
      fat.clustersNeeded (count - (fat.clusterSize - offect)) 0 + 1 := by
  have hpos := fat.clusterSize_pos
  unfold clustersNeeded
  rw [Nat.div_eq_of_lt hlt, Nat.mod_eq_of_lt hlt, Nat.zero_div, Nat.zero_mod]
  have hsplit : offect + count + (fat.clusterSize - 1) =
      0 + (count - (fat.clusterSize - offect)) + (fat.clusterSize - 1) + fat.clusterSize := by omega
  rw [hsplit, Nat.add_div_right _ hpos]
  have hone : 1 ≤ (0 + (count - (fat.clusterSize - offect)) + (fat.clusterSize - 1)) /
      fat.clusterSize := by
    rw [Nat.le_div_iff_mul_le hpos]
    omega
  omega

theorem clustersNeeded_inside (fat : Fat) {count offect : ℕ} (hlt : offect < fat.clusterSize)
    (hle : offect + count ≤ fat.clusterSize) : fat.clustersNeeded count offect = 1 := by
  unfold clustersNeeded
  rw [Nat.div_eq_of_lt hlt, Nat.mod_eq_of_lt hlt]
  have hone : (offect + count + (fat.clusterSize - 1)) / fat.clusterSize ≤ 1 := by
    rw [← Nat.lt_succ_iff, Nat.div_lt_iff_lt_mul (fat.clusterSize_pos)]
    omega
  omega

theorem dirClusterTrace_of_chain {cluster : ℕ} {l : List ℕ}
    (h : ChainOf 0 (fat.nextCluster diskRead) cluster l) {fuel n : ℕ} (hfuel : l.length ≤ fuel)
    (hn : n < 2 ^ 32) :
    fat.dirClusterTrace diskRead fuel cluster n = some ((n + (l.length - 1)) % 2 ^ 32, l) := by
  induction h generalizing fuel n with
  | last hend =>
      obtain ⟨fuel, rfl⟩ : ∃ f, fuel = f + 1 := ⟨fuel - 1, by simp at hfuel; omega⟩
      rw [dirClusterTrace, hend, if_neg (fun hne => hne rfl), List.length_singleton,
        Nat.sub_self, Nat.add_zero, Nat.mod_eq_of_lt hn]
  | @cons cluster l hne hl ih =>
      obtain ⟨fuel, rfl⟩ : ∃ f, fuel = f + 1 := ⟨fuel - 1, by simp at hfuel; omega⟩
      have hpos := hl.length_pos
      rw [List.length_cons] at hfuel ⊢
      rw [dirClusterTrace, if_pos hne, ih (by omega) (add32_lt n 1), add32_eq, Nat.mod_add_mod,
        Option.map_some]
      have hsum : n + 1 + (l.length - 1) = n + (l.length + 1 - 1) := by omega
      rw [hsum]

/-- One round of `read_cluster`: it is the last one that the request needs, or the rest of the
request is left for the next cluster. -/
theorem readClusterTrace_step (hexact : ExactRead disk diskRead) (fuel : ℕ) (buf : Bytes)
    (cluster : ℕ) {count offect : ℕ} (hcount : count < 2 ^ 32) (hoff : offect < 2 ^ 64)
    (n bufOffect : ℕ) :
    (fat.clustersNeeded count offect = 1 ∧ ∃ r,
      fat.readClusterTrace diskRead (fuel + 1) buf cluster count offect n bufOffect =
        some (r, [cluster])) ∨
    ∃ buf' count' offect' n' bufOffect', count' < 2 ^ 32 ∧ offect' < 2 ^ 64 ∧
      fat.clustersNeeded count offect = fat.clustersNeeded count' offect' + 1 ∧
      fat.readClusterTrace diskRead (fuel + 1) buf cluster count offect n bufOffect =
        if fat.nextCluster diskRead cluster ≠ 0 then
          (fat.readClusterTrace diskRead fuel buf' (fat.nextCluster diskRead cluster) count' offect'
            n' bufOffect').map fun r => (r.1, cluster :: r.2)
        else some ((toSigned n', buf'), [cluster]) := by
  have hsize := fat.clusterSize_lt
  rw [readClusterTrace]
  dsimp only
  by_cases hin : offect < fat.clusterSize
  · rw [if_pos hin, add64_eq, Nat.mod_eq_of_lt (by omega)]
    by_cases hlong : fat.clusterSize < offect + count
    · have hpart : sub64 fat.clusterSize offect = fat.clusterSize - offect :=
        sub64_of_le (by omega) (by omega)
      have hrest : sub64 count (fat.clusterSize - offect) % 2 ^ 32 =
          count - (fat.clusterSize - offect) := by
        rw [sub64_of_le (by omega) (by omega), Nat.mod_eq_of_lt (by omega)]
      rw [if_pos hlong, hexact, hpart, hrest]
      exact Or.inr ⟨_, _, _, _, _, by omega, by omega, fat.clustersNeeded_first hin hlong, rfl⟩
    · rw [if_neg hlong, hexact]
      exact Or.inl ⟨fat.clustersNeeded_inside hin (by omega), _, rfl⟩
  · have hrest : sub64 offect fat.clusterSize = offect - fat.clusterSize :=
      sub64_of_le (by omega) hoff
    rw [if_neg hin, hrest]
    exact Or.inr ⟨_, _, _, _, _, hcount, by omega, fat.clustersNeeded_skip (by omega), rfl⟩

/-- `read_cluster` comes to the clusters of its chain that the request needs. -/
theorem readClusterTrace_of_chain (hexact : ExactRead disk diskRead) {cluster : ℕ} {l : List ℕ}
    (h : ChainOf 0 (fat.nextCluster diskRead) cluster l) {fuel : ℕ} (hfuel : l.length ≤ fuel)
    (buf : Bytes) {count offect : ℕ} (hcount : count < 2 ^ 32) (hoff : offect < 2 ^ 64)
    (n bufOffect : ℕ) :
    ∃ r, fat.readClusterTrace diskRead fuel buf cluster count offect n bufOffect =
      some (r, l.take (fat.clustersNeeded count offect)) := by
  induction h generalizing fuel buf count offect n bufOffect with
  | @last cluster hend =>
      obtain ⟨fuel, rfl⟩ : ∃ f, fuel = f + 1 := ⟨fuel - 1, by simp at hfuel; omega⟩
      rcases readClusterTrace_step hexact fuel buf cluster hcount hoff n bufOffect with
        ⟨hone, r, htrace⟩ | ⟨buf', count', offect', n', bufOffect', -, -, hneed, htrace⟩
      · exact ⟨r, by rw [htrace, hone, List.take_succ_cons, List.take_zero]⟩
      · rw [hend, if_neg (fun hne => hne rfl)] at htrace
        exact ⟨_, by rw [htrace, hneed, List.take_succ_cons, List.take_nil]⟩
  | @cons cluster l hne hl ih =>
      obtain ⟨fuel, rfl⟩ : ∃ f, fuel = f + 1 := ⟨fuel - 1, by simp at hfuel; omega⟩
      rw [List.length_cons] at hfuel
      rcases readClusterTrace_step hexact fuel buf cluster hcount hoff n bufOffect with
        ⟨hone, r, htrace⟩ | ⟨buf', count', offect', n', bufOffect', hc', ho', hneed, htrace⟩
      · exact ⟨r, by rw [htrace, hone, List.take_succ_cons, List.take_zero]⟩
      · obtain ⟨r, hrest⟩ := ih (by omega : l.length ≤ fuel) buf' hc' ho' n' bufOffect'
        rw [if_pos hne, hrest] at htrace
        exact ⟨r, by rw [htrace, hneed, List.take_succ_cons]; rfl⟩

theorem FormatChain.code (hexact : ExactRead disk diskRead) (hfat : fat.fatSector < 2 ^ 16)
    {cluster : ℕ} (hcluster : fat.IsCluster cluster) {l : List ℕ}
    (h : fat.FormatChain disk cluster l) :
    ∃ l', ChainOf 0 (fat.nextCluster diskRead) cluster l' ∧ l' <+: l ∧
      ∀ n, l'.take n = l.take n ↔ ∀ b ∈ (l.take n).dropLast, ¬ fat.ReservedBits disk b := by
  have hall : ∀ b ∈ l, fat.IsCluster b := h.forall_mem hcluster formatNext_isCluster
  exact h.cut (fun b hb => nextCluster_of_clear hexact hfat (hall b hb))
    (fun b hb => nextCluster_of_reserved hexact hfat (hall b hb))

/-- `dir_cluster` comes to the clusters of the format's chain, and `read_cluster` to those that a
request needs, exactly when none of the entries that these walks follow has a reserved bit. -/
theorem walks_follow_format_iff (disk : ℕ → BitVec 8) (diskRead : DiskRead) (fat : Fat)
    (hexact : ExactRead disk diskRead) (hfat : fat.fatSector < 2 ^ 16) (cluster : ℕ)
    (hcluster : fat.IsCluster cluster) (l : List ℕ) (h : fat.FormatChain disk cluster l) :
    ((∃ bound, ∀ fuel ≥ bound, ∃ n,
        fat.dirClusterTrace diskRead fuel cluster 1 = some (n, l)) ↔
      ∀ b ∈ l.dropLast, ¬ fat.ReservedBits disk b) ∧
    ∀ (buf : Bytes) (count offect : ℕ), count < 2 ^ 32 → offect < 2 ^ 64 →
      ((∃ bound, ∀ fuel ≥ bound, ∃ r,
          fat.readClusterTrace diskRead fuel buf cluster count offect 0 0 =
            some (r, l.take (fat.clustersNeeded count offect))) ↔
        ∀ b ∈ (l.take (fat.clustersNeeded count offect)).dropLast, ¬ fat.ReservedBits disk b) := by
  obtain ⟨l', hl', hpre, htake⟩ := FormatChain.code hexact hfat hcluster h
  constructor
  · have hwhole := htake l.length
    rw [List.take_length, List.take_of_length_le hpre.length_le] at hwhole
    rw [← hwhole]
    constructor
    · rintro ⟨bound, hall⟩
      obtain ⟨n, hn⟩ := hall (max bound l'.length) (le_max_left _ _)
      rw [dirClusterTrace_of_chain hl' (le_max_right _ _) (by decide)] at hn
      cases hn
      rfl
    · rintro rfl
      exact ⟨l'.length, fun fuel hfuel => ⟨_, dirClusterTrace_of_chain hl' hfuel (by decide)⟩⟩
  · intro buf count offect hcount hoff
    rw [← htake]
    constructor
    · rintro ⟨bound, hall⟩
      obtain ⟨r, hr⟩ := hall (max bound l'.length) (le_max_left _ _)
      obtain ⟨r', hr'⟩ := readClusterTrace_of_chain hexact hl' (le_max_right bound l'.length) buf
        hcount hoff 0 0
      rw [hr] at hr'
      exact (Prod.mk.inj (Option.some.inj hr')).2.symm
    · intro hsame
      refine ⟨l'.length, fun fuel hfuel => ?_⟩
      obtain ⟨r, hr⟩ := readClusterTrace_of_chain hexact hl' hfuel buf hcount hoff 0 0
      exact ⟨r, by rw [hr, hsame]⟩

end Fat

/-- A table of a FAT32 volume that links the cluster 2 to the cluster 3, with the upper byte of
the entry as it is given. -/
def linkDisk (upper : BitVec 8) (a : ℕ) : BitVec 8 :=
  if a = 520 then 3 else if a = 523 then upper else 0

def linkDiskRead (upper : BitVec 8) : DiskRead := fun _ count offect =>
  some ((List.range count).map fun j => linkDisk upper ((offect + j) % 2 ^ 64))

def linkFat : Fat := { smallFat with fatType := .fat32 }

theorem linkDiskRead_exact (upper : BitVec 8) : ExactRead (linkDisk upper) (linkDiskRead upper) :=
  fun _ _ _ => rfl

theorem linkDisk_chain : linkFat.FormatChain (linkDisk 0) 2 [2, 3] :=
  .cons (by decide) (.last (by decide))

theorem walks_follow_format_iff_link :
    ∃ bound, ∀ fuel ≥ bound, ∃ n,
      linkFat.dirClusterTrace (linkDiskRead 0) fuel 2 1 = some (n, [2, 3]) :=
  (Fat.walks_follow_format_iff (linkDisk 0) (linkDiskRead 0) linkFat (linkDiskRead_exact 0)
    (by decide) 2 (by unfold Fat.IsCluster; decide) [2, 3] linkDisk_chain).1.2
    (fun b hb => by
      obtain rfl : b = 2 := by simpa using hb
      unfold Fat.ReservedBits
      decide)

theorem linkDisk_chain_reserved : linkFat.FormatChain (linkDisk 0x10) 2 [2, 3] :=
  .cons (by decide) (.last (by decide))

/-- With a reserved bit set in the entry of the cluster 2 the chain ends there. -/
theorem walks_cut_by_reserved_bit :
    ¬ ∀ (disk : ℕ → BitVec 8) (diskRead : DiskRead) (fat : Fat), ExactRead disk diskRead →
      fat.fatSector < 2 ^ 16 → ∀ (cluster : ℕ), fat.IsCluster cluster →
      ∀ l : List ℕ, fat.FormatChain disk cluster l →
        ∃ bound, ∀ fuel ≥ bound, ∃ n,
          fat.dirClusterTrace diskRead fuel cluster 1 = some (n, l) := by
  intro hall
  obtain ⟨bound, hbound⟩ := hall (linkDisk 0x10) (linkDiskRead 0x10) linkFat
    (linkDiskRead_exact 0x10) (by decide) 2 (by unfold Fat.IsCluster; decide) [2, 3]
    linkDisk_chain_reserved
  obtain ⟨n, hn⟩ := hbound (bound + 1) (Nat.le_add_right _ _)
  have hend : linkFat.nextCluster (linkDiskRead 0x10) 2 = 0 := by with_unfolding_all decide
  rw [Fat.dirClusterTrace, hend] at hn
  cases hn

end BitchKernel
