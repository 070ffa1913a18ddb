import BitchKernel.Fs.Fat

/-!
# What a file read stores

`read_cluster` skips whole clusters, reads the rest of a first cluster, and then
reads whole clusters from their start. It advances the buffer by a whole cluster
after the first part too, so a read that starts inside a cluster and goes on into
the next one leaves a gap in the buffer and stores behind its end. A read within
one cluster and a read that starts at a cluster are placed right, and what they
store is what lies where the code computes each cluster to be.
-/

namespace BitchKernel

open Lib

/-- Each `disk_read` delivers exactly the bytes it is asked for, from a disk with
64-bit addresses. -/
def ExactRead (disk : ℕ → BitVec 8) (diskRead : DiskRead) : Prop :=
  ∀ id count offect, diskRead id count offect =
    some ((List.range count).map fun j => disk ((offect + j) % 2 ^ 64))

namespace Fat

variable (diskRead : DiskRead) (fat : Fat) (file : FatStdDir)

def chain : ℕ → ℕ
  | 0 => fat.fileCluster file
  | i + 1 => fat.nextCluster diskRead (chain i)

def Covers : Prop := ∀ i, i * fat.clusterSize < file.fileSize → 2 ≤ fat.chain diskRead file i

/-- The byte of the concatenated clusters at the position `p`. -/
def fileByte (disk : ℕ → BitVec 8) (p : ℕ) : BitVec 8 :=
  disk (fat.startCluster + (fat.chain diskRead file (p / fat.clusterSize) - 2) * fat.clusterSize +
    p % fat.clusterSize)

/-- The same with a product of 32 bits and sums of 64 bits. -/
def wrappedByte (disk : ℕ → BitVec 8) (p : ℕ) : BitVec 8 :=
  disk ((fat.startCluster +
    (fat.chain diskRead file (p / fat.clusterSize) - 2) * fat.clusterSize % 2 ^ 32 +
      p % fat.clusterSize) % 2 ^ 64)

/-- The number of bytes a read of a file returns. -/
def readCount (file : FatStdDir) (count offect : ℕ) : ℕ := min count (file.fileSize - offect)

/-- The read of a file returns the count and stores the bytes of the file, and
nothing else, in every buffer. -/
def ReadsFile (disk : ℕ → BitVec 8) (count offect : ℕ) : Prop :=
  ∀ buf, ∃ bound, ∀ fuel ≥ bound, ∃ buf',
    fat.readFile diskRead fuel file buf count offect = some ((readCount file count offect : ℤ), buf') ∧
      ∀ k < 2 ^ 32, buf' k =
        if k < readCount file count offect then fat.fileByte diskRead file disk (offect + k) else buf k

/-- When a read is right: it starts at or behind the end of the file; or its count
is positive as a `_ssize_t`, it starts at a cluster or stays inside one, and the
wrapped place of each of its bytes holds that byte. -/
def Readable (disk : ℕ → BitVec 8) (count offect : ℕ) : Prop :=
  file.fileSize ≤ offect ∨
    (readCount file count offect < 2 ^ 31 ∧
      (offect % fat.clusterSize = 0 ∨
        offect % fat.clusterSize + readCount file count offect ≤ fat.clusterSize) ∧
      ∀ k < readCount file count offect,
        fat.wrappedByte diskRead file disk (offect + k) = fat.fileByte diskRead file disk (offect + k))

variable {diskRead fat file} {disk : ℕ → BitVec 8}

theorem clusterSize_pos (fat : Fat) : 0 < fat.clusterSize :=
  Nat.mul_pos fat.clusterSectors_pos fat.sectorSize_pos

theorem clusterSize_lt (fat : Fat) : fat.clusterSize < 2 ^ 24 := by
  have hlt := Nat.mul_lt_mul'' fat.clusterSectors_lt fat.sectorSize_lt
  exact hlt

theorem clusterOffect_eq (fat : Fat) {cluster : ℕ} (htwo : 2 ≤ cluster) (offect : ℕ) :
    fat.clusterOffect cluster offect =
      (fat.startCluster + (cluster - 2) * fat.clusterSize % 2 ^ 32 + offect) % 2 ^ 64 := by
  have hproduct : mul32 (sub32 cluster 2) fat.clusterSize =
      (cluster - 2) * fat.clusterSize % 2 ^ 32 := by
    rw [mul32_eq, sub32_eq_of_le htwo (by decide), Nat.mod_mul_mod]
  unfold clusterOffect
  rw [hproduct, add64_eq, add64_eq, Nat.mod_add_mod]

theorem diskRead_cluster (hexact : ExactRead disk diskRead) (fat : Fat) (cluster offect count : ℕ) :
    ∃ bytes, diskRead fat.diskId count (fat.clusterOffect cluster offect) = some bytes ∧
      bytes.length = count ∧
        ∀ k < count, bytes.getD k 0 = disk ((fat.clusterOffect cluster offect + k) % 2 ^ 64) := by
  refine ⟨_, hexact _ count _, by rw [List.length_map, List.length_range], fun k hk => ?_⟩
  simp [hk]

theorem wrappedByte_eq (disk : Bytes) {i offect : ℕ} (htwo : 2 ≤ fat.chain diskRead file i) {k : ℕ}
    (hlt : offect + k < fat.clusterSize) :
    fat.wrappedByte diskRead file disk (i * fat.clusterSize + (offect + k)) =
      disk ((fat.clusterOffect (fat.chain diskRead file i) offect + k) % 2 ^ 64) := by
  unfold wrappedByte
  rw [Nat.mul_comm i, Nat.mul_add_div fat.clusterSize_pos, Nat.div_eq_of_lt hlt, Nat.add_zero,
    Nat.mul_add_mod, Nat.mod_eq_of_lt hlt, ← Nat.add_assoc, clusterOffect_eq fat htwo, Nat.mod_add_mod]

theorem diskRead_part (fat : Fat) (file : FatStdDir) (hexact : ExactRead disk diskRead)
    {i offect count : ℕ} (htwo : 2 ≤ fat.chain diskRead file i)
    (hle : offect + count ≤ fat.clusterSize) :
    ∃ bytes, diskRead fat.diskId count (fat.clusterOffect (fat.chain diskRead file i) offect) =
        some bytes ∧
      bytes.length = count ∧
        ∀ k < count, bytes.getD k 0 =
          fat.wrappedByte diskRead file disk (i * fat.clusterSize + (offect + k)) := by
  obtain ⟨bytes, hread, hlen, hbyte⟩ :=
    diskRead_cluster hexact fat (fat.chain diskRead file i) offect count
  refine ⟨bytes, hread, hlen, fun k hk => ?_⟩
  rw [hbyte k hk, wrappedByte_eq disk htwo (by omega)]

/-- `buf'` is `buf` with `count` bytes stored from `pos` on. -/
def Stored (buf buf' : Bytes) (pos count : ℕ) (byte : ℕ → BitVec 8) : Prop :=
  ∀ k < 2 ^ 32, buf' k = if pos ≤ k ∧ k < pos + count then byte (k - pos) else buf k

theorem stored_store {buf : Bytes} {pos count : ℕ} {bytes : List (BitVec 8)}
    {byte : ℕ → BitVec 8} (hlen : bytes.length = count) (hpos : pos + count ≤ 2 ^ 32)
    (hbyte : ∀ k < count, bytes.getD k 0 = byte k) :
    Stored buf (buf.store 32 pos bytes) pos count byte := by
  intro k hk
  rw [Bytes.store_apply buf (by omega) hk, hlen]
  by_cases hin : pos ≤ k ∧ k < pos + count
  · rw [if_pos hin, if_pos hin, hbyte _ (by omega)]
  · rw [if_neg hin, if_neg hin]

theorem Stored.append {buf buf' buf'' : Bytes} {pos count count' : ℕ} {byte : ℕ → BitVec 8}
    (h : Stored buf buf' pos count byte)
    (h' : Stored buf' buf'' (pos + count) count' fun k => byte (count + k)) :
    Stored buf buf'' pos (count + count') byte := by
  intro k hk
  rw [h' k hk]
  by_cases hback : pos + count ≤ k ∧ k < pos + count + count'
  · have hshift : count + (k - (pos + count)) = k - pos := by omega
    rw [if_pos hback, if_pos (by omega)]
    dsimp only
    rw [hshift]
  · rw [if_neg hback, h k hk]
    by_cases hin : pos ≤ k ∧ k < pos + count
    · rw [if_pos hin, if_pos (by omega)]
    · rw [if_neg hin, if_neg (by omega)]

/-- The loop from the start of a cluster on: the rest of the request is read from
this cluster and the next ones, without a gap. -/
theorem readClusterLoop_aligned (hexact : ExactRead disk diskRead) {fuel j count pos : ℕ} (n : ℕ)
    (buf : Bytes) (hcount : 0 < count) (hcount32 : count < 2 ^ 32) (hfuel : count ≤ fuel)
    (hpos64 : pos + count < 2 ^ 63)
    (hchain : ∀ i, i * fat.clusterSize < count → 2 ≤ fat.chain diskRead file (j + i)) :
    ∃ buf', fat.readClusterLoop diskRead fuel buf (fat.chain diskRead file j) count 0 n pos =
        some (toSigned ((n + count) % 2 ^ 32), buf') ∧
      (pos + count ≤ 2 ^ 32 → Stored buf buf' pos count fun k =>
        fat.wrappedByte diskRead file disk (j * fat.clusterSize + k)) := by
  induction fuel generalizing buf j count n pos with
  | zero => omega
  | succ fuel ih =>
      have hpositive := fat.clusterSize_pos
      have hsize := fat.clusterSize_lt
      have htwo : 2 ≤ fat.chain diskRead file j := hchain 0 (by omega)
      rw [readClusterLoop]
      dsimp only
      rw [if_pos hpositive, add64_eq, Nat.zero_add, Nat.mod_eq_of_lt (by omega : count < 2 ^ 64)]
      by_cases hlong : fat.clusterSize < count
      · rw [if_pos hlong]
        have hpart : sub64 fat.clusterSize 0 = fat.clusterSize := by
          rw [sub64_of_le (Nat.zero_le _) (by omega), Nat.sub_zero]
        have hrest : sub64 count fat.clusterSize % 2 ^ 32 = count - fat.clusterSize := by
          rw [sub64_of_le (by omega) (by omega), Nat.mod_eq_of_lt (by omega)]
        have hpos : add64 pos fat.clusterSize = pos + fat.clusterSize := by
          rw [add64_eq, Nat.mod_eq_of_lt (by omega)]
        obtain ⟨bytes, hread, hlen, hbyte⟩ :=
          diskRead_part fat file hexact htwo
            (by omega : 0 + fat.clusterSize ≤ fat.clusterSize)
        have hnext : fat.nextCluster diskRead (fat.chain diskRead file j) =
            fat.chain diskRead file (j + 1) := rfl
        have hne : fat.chain diskRead file (j + 1) ≠ 0 := by
          have htwo := hchain 1 (by omega)
          omega
        rw [hpart, Nat.mod_eq_of_lt (by omega : fat.clusterSize < 2 ^ 32), hread]
        dsimp only
        rw [hrest, hpos, hlen, hnext, if_pos hne]
        obtain ⟨buf', hloop, hstored⟩ : ∃ buf', fat.readClusterLoop diskRead fuel
            (buf.store 32 (pos % 2 ^ 32) bytes) (fat.chain diskRead file (j + 1))
            (count - fat.clusterSize) 0 (add32 n fat.clusterSize) (pos + fat.clusterSize) =
              some (toSigned ((add32 n fat.clusterSize + (count - fat.clusterSize)) % 2 ^ 32), buf') ∧
            (pos + fat.clusterSize + (count - fat.clusterSize) ≤ 2 ^ 32 →
              Stored (buf.store 32 (pos % 2 ^ 32) bytes) buf' (pos + fat.clusterSize)
                (count - fat.clusterSize) fun k =>
                  fat.wrappedByte diskRead file disk ((j + 1) * fat.clusterSize + k)) := by
          refine ih _ _ (by omega) (by omega) (by omega) (by omega) fun i hi => ?_
          have hindex : j + 1 + i = j + (i + 1) := by omega
          rw [hindex]
          refine hchain (i + 1) ?_
          rw [Nat.add_mul]
          omega
        have htotal : (add32 n fat.clusterSize + (count - fat.clusterSize)) % 2 ^ 32 =
            (n + count) % 2 ^ 32 := by
          rw [add32_eq]
          omega
        rw [htotal] at hloop
        refine ⟨buf', hloop, fun hfits => ?_⟩
        rw [Nat.mod_eq_of_lt (by omega : pos < 2 ^ 32)] at hstored
        have hfirst : Stored buf (buf.store 32 pos bytes) pos fat.clusterSize fun k =>
            fat.wrappedByte diskRead file disk (j * fat.clusterSize + k) :=
          stored_store hlen (by omega) fun k hk => by rw [hbyte k hk, Nat.zero_add]
        have hback := hstored (by omega)
        have hsum : count = fat.clusterSize + (count - fat.clusterSize) := by omega
        rw [hsum]
        refine hfirst.append ?_
        intro k hk
        rw [hback k hk]
        have hplace : ∀ i, (j + 1) * fat.clusterSize + i = j * fat.clusterSize + (fat.clusterSize + i) := by
          intro i
          rw [Nat.add_mul]
          omega
        simp only [hplace]
      · rw [if_neg hlong]
        obtain ⟨bytes, hread, hlen, hbyte⟩ :=
          diskRead_part fat file hexact htwo (by omega : 0 + count ≤ fat.clusterSize)
        rw [hread]
        dsimp only
        refine ⟨_, by rw [hlen, add32_eq], fun hfits => ?_⟩
        rw [Nat.mod_eq_of_lt (by omega : pos < 2 ^ 32)]
        exact stored_store hlen (by omega) fun k hk => by rw [hbyte k hk, Nat.zero_add]

theorem readClusterLoop_next (fuel : ℕ) (buf : Bytes) {cluster : ℕ}
    (hne : fat.nextCluster diskRead cluster ≠ 0) {count offect : ℕ}
    (hoffect : fat.clusterSize + offect < 2 ^ 64) (n pos : ℕ) :
    fat.readClusterLoop diskRead (fuel + 1) buf cluster count (fat.clusterSize + offect) n pos =
      fat.readClusterLoop diskRead fuel buf (fat.nextCluster diskRead cluster) count offect n pos := by
  rw [readClusterLoop]
  dsimp only
  rw [if_neg (by omega), if_pos hne, sub64_of_le (by omega) hoffect, Nat.add_sub_cancel_left]

theorem readClusterLoop_skip (fuel : ℕ) (buf : Bytes) {j q count offect n pos : ℕ}
    (hoffect : q * fat.clusterSize + offect < 2 ^ 64)
    (hchain : ∀ i < q, 2 ≤ fat.chain diskRead file (j + i + 1)) :
    fat.readClusterLoop diskRead (fuel + q) buf (fat.chain diskRead file j) count
        (q * fat.clusterSize + offect) n pos =
      fat.readClusterLoop diskRead fuel buf (fat.chain diskRead file (j + q)) count offect n pos := by
  induction q generalizing j with
  | zero => rw [Nat.zero_mul, Nat.zero_add, Nat.add_zero, Nat.add_zero]
  | succ q ih =>
      have hnext : fat.nextCluster diskRead (fat.chain diskRead file j) =
          fat.chain diskRead file (j + 1) := rfl
      have hne : fat.nextCluster diskRead (fat.chain diskRead file j) ≠ 0 := by
        have htwo := hchain 0 (Nat.succ_pos q)
        rw [Nat.add_zero] at htwo
        omega
      have hsplit : (q + 1) * fat.clusterSize + offect =
          fat.clusterSize + (q * fat.clusterSize + offect) := by
        rw [Nat.succ_mul]
        omega
      rw [hsplit] at hoffect ⊢
      rw [← Nat.add_assoc, readClusterLoop_next _ buf hne hoffect, hnext, ih (by omega) fun i hi => ?_]
      · have hindex : j + 1 + q = j + (q + 1) := by omega
        rw [hindex]
      · have hindex : j + 1 + i + 1 = j + (i + 1) + 1 := by omega
        rw [hindex]
        exact hchain (i + 1) (Nat.succ_lt_succ hi)

theorem readClusterLoop_first (hexact : ExactRead disk diskRead) (fuel : ℕ) (buf : Bytes)
    (cluster : ℕ) {count offect : ℕ} (hle : offect + count ≤ fat.clusterSize)
    (hlt : offect < fat.clusterSize) :
    ∃ bytes, fat.readClusterLoop diskRead (fuel + 1) buf cluster count offect 0 0 =
        some (toSigned count, buf.store 32 0 bytes) ∧ bytes.length = count ∧
      ∀ k < count, bytes.getD k 0 = disk ((fat.clusterOffect cluster offect + k) % 2 ^ 64) := by
  have hsize := fat.clusterSize_lt
  obtain ⟨bytes, hread, hlen, hbyte⟩ := diskRead_cluster hexact fat cluster offect count
  have hn : add32 0 bytes.length = count := by
    rw [hlen, add32_of_lt (by omega), Nat.zero_add]
  refine ⟨bytes, ?_, hlen, hbyte⟩
  rw [readClusterLoop]
  dsimp only
  rw [if_pos hlt, add64_eq, Nat.mod_eq_of_lt (by omega), if_neg (by omega), hread]
  dsimp only
  rw [hn, Nat.zero_mod]

theorem readClusterLoop_inside (hexact : ExactRead disk diskRead) (fuel : ℕ) (buf : Bytes)
    {j count offect : ℕ} (htwo : 2 ≤ fat.chain diskRead file j)
    (hle : offect + count ≤ fat.clusterSize) (hlt : offect < fat.clusterSize) :
    ∃ buf', fat.readClusterLoop diskRead (fuel + 1) buf (fat.chain diskRead file j) count offect 0 0 =
        some (toSigned count, buf') ∧
      Stored buf buf' 0 count fun k =>
        fat.wrappedByte diskRead file disk (j * fat.clusterSize + (offect + k)) := by
  have hsize := fat.clusterSize_lt
  obtain ⟨bytes, hloop, hlen, hbyte⟩ :=
    readClusterLoop_first hexact fuel buf (fat.chain diskRead file j) hle hlt
  refine ⟨_, hloop, stored_store hlen (by omega) fun k hk => ?_⟩
  rw [hbyte k hk, wrappedByte_eq disk htwo (by omega)]

/-- A request that starts inside a cluster and goes on into the next one: the
positions between the first part and the end of the cluster are not written. -/
theorem readClusterLoop_gap (hexact : ExactRead disk diskRead) {fuel j count offect : ℕ}
    (buf : Bytes) (hlong : fat.clusterSize < offect + count) (hlt : offect < fat.clusterSize)
    (hpos : 0 < offect) (hcount : count < 2 ^ 32) (hfuel : count ≤ fuel)
    (hchain : ∀ i, i * fat.clusterSize < offect + count → 2 ≤ fat.chain diskRead file (j + i)) :
    ∃ buf', fat.readClusterLoop diskRead (fuel + 1) buf (fat.chain diskRead file j) count offect 0 0 =
        some (toSigned count, buf') ∧
      (offect + count ≤ 2 ^ 32 →
        buf' (fat.clusterSize - offect) = buf (fat.clusterSize - offect)) := by
  have hsize := fat.clusterSize_lt
  have htwo : 2 ≤ fat.chain diskRead file j := hchain 0 (by omega)
  have hpart : sub64 fat.clusterSize offect = fat.clusterSize - offect := sub64_of_le (by omega) (by omega)
  have hwhole : sub64 fat.clusterSize 0 = fat.clusterSize := by
    rw [sub64_of_le (Nat.zero_le _) (by omega), Nat.sub_zero]
  have hrest : sub64 count (fat.clusterSize - offect) % 2 ^ 32 =
      count - (fat.clusterSize - offect) := by
    rw [sub64_of_le (by omega) (by omega), Nat.mod_eq_of_lt (by omega)]
  have hplace : add64 0 fat.clusterSize = fat.clusterSize := by
    rw [add64_eq, Nat.zero_add, Nat.mod_eq_of_lt (by omega)]
  obtain ⟨bytes, hread, hlen, hbyte⟩ :=
    diskRead_part fat file hexact htwo
      (by omega : offect + (fat.clusterSize - offect) ≤ fat.clusterSize)
  have hn : add32 0 (fat.clusterSize - offect) = fat.clusterSize - offect := by
    rw [add32_of_lt (by omega), Nat.zero_add]
  have hnext : fat.nextCluster diskRead (fat.chain diskRead file j) =
      fat.chain diskRead file (j + 1) := rfl
  have hne : fat.chain diskRead file (j + 1) ≠ 0 := by
    have htwo := hchain 1 (by omega)
    omega
  rw [readClusterLoop]
  dsimp only
  rw [if_pos hlt, add64_eq, Nat.mod_eq_of_lt (by omega), if_pos hlong, hpart,
    Nat.mod_eq_of_lt (by omega : fat.clusterSize - offect < 2 ^ 32), hread]
  dsimp only
  rw [hwhole, hrest, hplace, hlen, hn, hnext, if_pos hne]
  obtain ⟨buf', hloop, hstored⟩ : ∃ buf', fat.readClusterLoop diskRead fuel
      (buf.store 32 (0 % 2 ^ 32) bytes) (fat.chain diskRead file (j + 1))
      (count - (fat.clusterSize - offect)) 0 (fat.clusterSize - offect) fat.clusterSize =
        some (toSigned ((fat.clusterSize - offect + (count - (fat.clusterSize - offect))) % 2 ^ 32), buf') ∧
      (fat.clusterSize + (count - (fat.clusterSize - offect)) ≤ 2 ^ 32 →
        Stored (buf.store 32 (0 % 2 ^ 32) bytes) buf' fat.clusterSize
          (count - (fat.clusterSize - offect)) fun k =>
            fat.wrappedByte diskRead file disk ((j + 1) * fat.clusterSize + k)) := by
    refine readClusterLoop_aligned hexact _ _ (by omega) (by omega) (by omega) (by omega) fun i hi => ?_
    have hindex : j + 1 + i = j + (i + 1) := by omega
    rw [hindex]
    refine hchain (i + 1) ?_
    rw [Nat.add_mul]
    omega
  have htotal : (fat.clusterSize - offect + (count - (fat.clusterSize - offect))) % 2 ^ 32 = count := by
    omega
  rw [htotal] at hloop
  refine ⟨buf', hloop, fun hfits => ?_⟩
  rw [hstored (by omega) _ (by omega), if_neg (by omega), Bytes.store_apply buf (by omega) (by omega),
    if_neg (by omega)]

theorem readFile_eq (fuel : ℕ) (buf : Bytes) {count offect : ℕ} (hdel : file.dosName0 ≠ flagDel)
    (harch : file.fileAttribute &&& attrArchive ≠ 0) (hcount : count < 2 ^ 32)
    (hoffect : offect < file.fileSize) :
    fat.readFile diskRead fuel file buf count offect =
      fat.readClusterLoop diskRead fuel buf (fat.chain diskRead file 0)
        (readCount file count offect) offect 0 0 := by
  have hsize : file.fileSize < 2 ^ 32 := Bytes.le_lt file 28 4
  unfold readFile readCluster
  rw [if_neg (not_or.mpr ⟨hdel, harch⟩), if_neg (by omega), add64_eq,
    Nat.mod_eq_of_lt (by omega : offect + count < 2 ^ 64)]
  dsimp only
  congr 1
  unfold readCount
  by_cases hlong : file.fileSize < offect + count
  · rw [if_pos hlong, sub64_of_le (by omega) (by omega), Nat.mod_eq_of_lt (by omega)]
    omega
  · rw [if_neg hlong]
    omega

/-- Where a read of a file stops depends on the count and the offset only; what it
stores is right when the read does not cross into a next cluster, and leaves a gap
when it does. -/
theorem readFile_cases (hexact : ExactRead disk diskRead) (hdel : file.dosName0 ≠ flagDel)
    (harch : file.fileAttribute &&& attrArchive ≠ 0) (hcover : fat.Covers diskRead file)
    {count offect : ℕ} (hcount : count < 2 ^ 32) (hoffect : offect < file.fileSize) {fuel : ℕ}
    (hfuel : offect / fat.clusterSize + count + 1 ≤ fuel) (buf : Bytes) :
    ∃ buf', fat.readFile diskRead fuel file buf count offect =
        some (toSigned (readCount file count offect), buf') ∧
      ((offect % fat.clusterSize = 0 ∨
          offect % fat.clusterSize + readCount file count offect ≤ fat.clusterSize) →
        Stored buf buf' 0 (readCount file count offect) fun k =>
          fat.wrappedByte diskRead file disk (offect + k)) ∧
      (¬ (offect % fat.clusterSize = 0 ∨
          offect % fat.clusterSize + readCount file count offect ≤ fat.clusterSize) →
        buf' (fat.clusterSize - offect % fat.clusterSize) =
          buf (fat.clusterSize - offect % fat.clusterSize)) := by
  have hsize : file.fileSize < 2 ^ 32 := Bytes.le_lt file 28 4
  have hpositive := fat.clusterSize_pos
  have hlt : offect % fat.clusterSize < fat.clusterSize := Nat.mod_lt _ hpositive
  have hsplit : offect / fat.clusterSize * fat.clusterSize + offect % fat.clusterSize = offect :=
    Nat.div_add_mod' offect fat.clusterSize
  have hread : offect + readCount file count offect ≤ file.fileSize := by
    unfold readCount
    omega
  have hle : readCount file count offect ≤ count := Nat.min_le_left _ _
  -- From here on only the cluster `q`, the place `o` in it and the length `c` matter.
  obtain ⟨q, hq⟩ : ∃ q, q = offect / fat.clusterSize := ⟨_, rfl⟩
  obtain ⟨o, ho⟩ : ∃ o, o = offect % fat.clusterSize := ⟨_, rfl⟩
  obtain ⟨c, hc⟩ : ∃ c, c = readCount file count offect := ⟨_, rfl⟩
  rw [← hq] at hfuel hsplit
  rw [← ho] at hlt hsplit ⊢
  rw [← hc] at hread hle ⊢
  have hchain : ∀ i, q * fat.clusterSize + i * fat.clusterSize < file.fileSize →
      2 ≤ fat.chain diskRead file (q + i) := fun i hi => hcover (q + i) (by rwa [Nat.add_mul])
  have htwo : 2 ≤ fat.chain diskRead file q := hchain 0 (by omega)
  obtain ⟨rest, hrest⟩ : ∃ rest, fuel = rest + 1 + q := ⟨fuel - 1 - q, by omega⟩
  have hskip : fat.readFile diskRead fuel file buf count offect =
      fat.readClusterLoop diskRead (rest + 1) buf (fat.chain diskRead file q) c o 0 0 := by
    rw [readFile_eq fuel buf hdel harch hcount hoffect, ← hc, hrest, ← hsplit]
    have hloop : fat.readClusterLoop diskRead (rest + 1 + q) buf (fat.chain diskRead file 0) c
        (q * fat.clusterSize + o) 0 0 =
          fat.readClusterLoop diskRead (rest + 1) buf (fat.chain diskRead file (0 + q)) c o 0 0 := by
      refine readClusterLoop_skip (rest + 1) buf (by omega) fun i hi => hcover (0 + i + 1) ?_
      have hmul := Nat.mul_le_mul_right fat.clusterSize (by omega : 0 + i + 1 ≤ q)
      omega
    rw [Nat.zero_add] at hloop
    exact hloop
  rw [hskip]
  by_cases hinside : o + c ≤ fat.clusterSize
  · obtain ⟨buf', hloop, hstored⟩ := readClusterLoop_inside hexact rest buf htwo hinside hlt
    refine ⟨buf', hloop, fun _ k hk => ?_, fun hcross => absurd (.inr hinside) hcross⟩
    rw [hstored k hk, ← hsplit]
    simp only [Nat.add_assoc]
  · by_cases haligned : o = 0
    · obtain ⟨buf', hloop, hstored⟩ := readClusterLoop_aligned hexact 0 buf (by omega : 0 < c)
        (by omega) (by omega : c ≤ rest + 1) (by omega : 0 + c < 2 ^ 63) fun i hi => hchain i (by omega)
      rw [Nat.zero_add, Nat.mod_eq_of_lt (by omega : c < 2 ^ 32)] at hloop
      refine ⟨buf', by rw [haligned, hloop], fun _ => ?_, fun hcross => absurd (.inl haligned) hcross⟩
      have hplace : offect = q * fat.clusterSize := by omega
      rw [hplace]
      exact hstored (by omega)
    · obtain ⟨buf', hloop, hgap⟩ : ∃ buf', fat.readClusterLoop diskRead (rest + 1) buf
          (fat.chain diskRead file q) c o 0 0 = some (toSigned c, buf') ∧
            (o + c ≤ 2 ^ 32 → buf' (fat.clusterSize - o) = buf (fat.clusterSize - o)) :=
        readClusterLoop_gap hexact buf (by omega) hlt (by omega) (by omega) (by omega)
          fun i hi => hchain i (by omega)
      refine ⟨buf', hloop, fun hclose => ?_, fun _ => hgap (by omega)⟩
      exact absurd hclose (not_or.mpr ⟨haligned, hinside⟩)

/-- **File reads return the file exactly when they are readable.** For every volume
and every regular file whose chain covers its size, with a disk that delivers what
it is asked for, `read_file` returns the count and stores the bytes of the file and
nothing else if and only if the read is `Readable`. -/
theorem read_file_iff (hexact : ExactRead disk diskRead) (hdel : file.dosName0 ≠ flagDel)
    (harch : file.fileAttribute &&& attrArchive ≠ 0) (hcover : fat.Covers diskRead file)
    {count offect : ℕ} (hcount : count < 2 ^ 32) :
    fat.ReadsFile diskRead file disk count offect ↔ fat.Readable diskRead file disk count offect := by
  by_cases hend : file.fileSize ≤ offect
  · refine ⟨fun _ => .inl hend, fun _ buf => ⟨0, fun fuel _ => ⟨buf, ?_, fun k _ => ?_⟩⟩⟩
    · unfold readFile readCount
      rw [if_neg (not_or.mpr ⟨hdel, harch⟩), if_pos hend, Nat.sub_eq_zero_of_le hend, Nat.min_zero]
      rfl
    · unfold readCount
      rw [Nat.sub_eq_zero_of_le hend, Nat.min_zero, if_neg (Nat.not_lt_zero k)]
  have hoffect : offect < file.fileSize := Nat.lt_of_not_le hend
  have hpositive := fat.clusterSize_pos
  have hlt : offect % fat.clusterSize < fat.clusterSize := Nat.mod_lt _ hpositive
  have hle : readCount file count offect ≤ count := Nat.min_le_left _ _
  constructor
  · intro hreads
    -- What both statements say about one buffer, with enough fuel for either.
    have hboth : ∀ buf : Bytes, ∃ buf' : Bytes,
        toSigned (readCount file count offect) = readCount file count offect ∧
        ((offect % fat.clusterSize = 0 ∨
            offect % fat.clusterSize + readCount file count offect ≤ fat.clusterSize) →
          Stored buf buf' 0 (readCount file count offect) fun k =>
            fat.wrappedByte diskRead file disk (offect + k)) ∧
        (¬ (offect % fat.clusterSize = 0 ∨
            offect % fat.clusterSize + readCount file count offect ≤ fat.clusterSize) →
          buf' (fat.clusterSize - offect % fat.clusterSize) =
            buf (fat.clusterSize - offect % fat.clusterSize)) ∧
        ∀ k < readCount file count offect, buf' k = fat.fileByte diskRead file disk (offect + k) := by
      intro buf
      obtain ⟨bound, hbound⟩ := hreads buf
      obtain ⟨buf', hread, hfile⟩ :=
        hbound (bound + (offect / fat.clusterSize + count + 1)) (Nat.le_add_right _ _)
      obtain ⟨buf'', hread', hstored, hgap⟩ := readFile_cases hexact hdel harch hcover hcount hoffect
        (Nat.le_add_left _ bound) buf
      rw [hread] at hread'
      obtain ⟨hn, rfl⟩ := Prod.mk.inj (Option.some.inj hread')
      refine ⟨buf', hn.symm, hstored, hgap, fun k hk => ?_⟩
      rw [hfile k (by omega), if_pos hk]
    obtain ⟨zeros, hsigned, hstored, hgap, hfile⟩ := hboth fun _ => 0
    obtain ⟨ones, -, -, hgap', hfile'⟩ := hboth fun _ => 1
    have hclose : offect % fat.clusterSize = 0 ∨
        offect % fat.clusterSize + readCount file count offect ≤ fat.clusterSize := by
      by_contra hcross
      have hgapLt : fat.clusterSize - offect % fat.clusterSize < readCount file count offect := by
        omega
      have hzero := hfile _ hgapLt
      have hone := hfile' _ hgapLt
      rw [hgap hcross] at hzero
      rw [hgap' hcross, ← hzero] at hone
      exact absurd hone (by decide)
    refine .inr ⟨lt_of_toSigned hsigned, hclose, fun k hk => ?_⟩
    have hstore := hstored hclose k (by omega)
    rw [if_pos ⟨Nat.zero_le k, by omega⟩, Nat.sub_zero, hfile k hk] at hstore
    exact hstore.symm
  · intro hreadable
    obtain ⟨hsigned, hclose, hbytes⟩ := hreadable.resolve_left hend
    intro buf
    refine ⟨offect / fat.clusterSize + count + 1, fun fuel hfuel => ?_⟩
    obtain ⟨buf', hread, hstored, -⟩ :=
      readFile_cases hexact hdel harch hcover hcount hoffect hfuel buf
    refine ⟨buf', ?_, fun k hk => ?_⟩
    · rw [hread, toSigned_of_lt hsigned]
    · rw [hstored hclose k hk, Nat.zero_add, Nat.sub_zero]
      by_cases hin : k < readCount file count offect
      · rw [if_pos ⟨Nat.zero_le k, hin⟩, if_pos hin]
        exact hbytes k hin
      · rw [if_neg (fun h => hin h.2), if_neg hin]

end Fat

section Example

/-- A volume with one sector of 512 bytes a cluster, whose table takes the cluster
2 to the cluster 3. -/
def smallFat : Fat where
  diskId := 0
  fatType := .fat16
  sectorSize := 512
  clusterSectors := 1
  startCluster := 2048
  fatSector := 1
  sectorSize_pos := by decide
  sectorSize_lt := by decide
  clusterSectors_pos := by decide
  clusterSectors_lt := by decide

def smallDisk (a : ℕ) : BitVec 8 :=
  if a = 516 then 3 else if a < 2048 then 0 else BitVec.ofNat 8 (a / 3)

def smallDiskRead : DiskRead := fun _ count offect =>
  some ((List.range count).map fun j => smallDisk ((offect + j) % 2 ^ 64))

def smallFile : FatStdDir := fun i => if i = 11 then 0x20 else if i = 26 then 2 else if i = 29 then 4 else 0

theorem smallDiskRead_exact : ExactRead smallDisk smallDiskRead := fun _ _ _ => rfl

theorem smallFile_covers : smallFat.Covers smallDiskRead smallFile := by
  intro i hi
  have hsize : smallFile.fileSize = 1024 := by decide
  have hcluster : smallFat.clusterSize = 512 := rfl
  have hlt : i < 2 := by
    rw [hsize, hcluster] at hi
    omega
  obtain rfl | rfl : i = 0 ∨ i = 1 := by omega
  · decide
  · with_unfolding_all decide

/-- The read of 600 bytes from the start of the file. -/
theorem read_file_iff_two_clusters :
    smallFat.ReadsFile smallDiskRead smallFile smallDisk 600 0 :=
  (Fat.read_file_iff smallDiskRead_exact (by decide) (by decide) smallFile_covers (by decide)).mpr
    (.inr ⟨by decide, .inl rfl, by decide +kernel⟩)

/-- The read of 512 bytes at the offset 100 leaves a gap behind its first 412 bytes. -/
theorem read_file_gap : ¬ smallFat.ReadsFile smallDiskRead smallFile smallDisk 512 100 := by
  intro hreads
  obtain ⟨bound, hbound⟩ := hreads fun _ => 0
  obtain ⟨buf, hread, hfile⟩ := hbound (bound + (100 / smallFat.clusterSize + 512 + 1))
    (Nat.le_add_right _ _)
  obtain ⟨buf', hread', -, hgap⟩ := Fat.readFile_cases smallDiskRead_exact (by decide) (by decide)
    smallFile_covers (by decide) (by decide : 100 < smallFile.fileSize)
    (Nat.le_add_left (100 / smallFat.clusterSize + 512 + 1) bound) fun _ => 0
  obtain rfl : buf = buf' := by
    rw [hread'] at hread
    exact (Prod.mk.inj (Option.some.inj hread)).2.symm
  have hbyte := hfile 412 (by decide)
  have hzero : buf 412 = 0 := hgap (by decide)
  rw [hzero] at hbyte
  exact absurd hbyte (by with_unfolding_all decide)

end Example

end BitchKernel
