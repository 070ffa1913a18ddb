import BitchKernel.Dev.AtaRead

/-!
# The words of the data port

`ata_read_data` with the words that it takes from the data port and the stores that it makes, one
after the other. Whatever a drive hands out: the stores are those of the bytes of the request, each
once and in their order, and the port is left behind the last sector.
-/

namespace BitchKernel

open Lib

/-- The words that were taken from the port, and the stores to the buffer in their order. -/
structure PortRun where
  words : ℕ
  stores : List (ℕ × BitVec 8)

/-- The body of the loops of `ata_read_data`; `port` hands out the words. -/
def portWord (port : ℕ → BitVec 16) (count offect n i : ℕ) (s : PortRun) : PortRun :=
  let data := port s.words
  let index := sub64 (intToU64 (n * ataSectorSize + i * 2)) offect
  let low :=
    if offect ≤ intToU64 (n * ataSectorSize + i * 2) ∧ index < count then
      [(index % 2 ^ 32, (data &&& 0xff).setWidth 8)]
    else []
  let high :=
    if offect ≤ intToU64 (n * ataSectorSize + i * 2 + 1) ∧ add64 index 1 < count then
      [(add64 index 1 % 2 ^ 32, (data >>> 8 &&& 0xff).setWidth 8)]
    else []
  ⟨s.words + 1, s.stores ++ low ++ high⟩

/-- The first `i` words of the `n`-th sector. -/
def portSector (port : ℕ → BitVec 16) (count offect n : ℕ) : (i : ℕ) → PortRun → PortRun
  | 0, s => s
  | i + 1, s => portWord port count offect n i (portSector port count offect n i s)

def portData (port : ℕ → BitVec 16) (count offect : ℕ) : (sectorCount : ℕ) → PortRun → PortRun
  | 0, s => s
  | n + 1, s => portSector port count offect n (ataSectorSize / 2) (portData port count offect n s)

def applyStores (stores : List (ℕ × BitVec 8)) (buf : Bytes) : Bytes :=
  stores.foldl (fun buf store => Function.update buf store.1 store.2) buf

/-- The byte `x` of the words, with the low byte of a word in front of its high byte. -/
def portByte (port : ℕ → BitVec 16) (x : ℕ) : BitVec 8 :=
  if x % 2 = 0 then (port (x / 2)).setWidth 8 else (port (x / 2) >>> 8).setWidth 8

section Stores

variable {port : ℕ → BitVec 16} {count offect n i x : ℕ}

theorem applyStores_append (stores stores' : List (ℕ × BitVec 8)) (buf : Bytes) :
    applyStores (stores ++ stores') buf = applyStores stores' (applyStores stores buf) :=
  List.foldl_append

theorem setWidth_and (data : BitVec 16) : (data &&& 0xff).setWidth 8 = data.setWidth 8 := by
  apply BitVec.eq_of_toNat_eq
  have hmask : (0xff : BitVec 16).toNat = 2 ^ 8 - 1 := by decide
  rw [BitVec.toNat_setWidth, BitVec.toNat_setWidth, BitVec.toNat_and, hmask,
    Nat.and_two_pow_sub_one_eq_mod, Nat.mod_mod]

/-- The stores of the bytes of the request in front of the position `x` of the words. -/
def storesTo (port : ℕ → BitVec 16) (count offect x : ℕ) : List (ℕ × BitVec 8) :=
  (List.range (min count (x - offect))).map fun k => (k, portByte port (offect + k))

theorem storesTo_succ (port : ℕ → BitVec 16) (count offect x : ℕ) :
    storesTo port count offect (x + 1) = storesTo port count offect x ++
      if offect ≤ x ∧ x - offect < count then [(x - offect, portByte port x)] else [] := by
  unfold storesTo
  by_cases hin : offect ≤ x ∧ x - offect < count
  · have hnext : min count (x + 1 - offect) = (x - offect) + 1 := by omega
    have hlast : min count (x - offect) = x - offect := by omega
    have hplace : offect + (x - offect) = x := by omega
    rw [if_pos hin, hnext, hlast, List.range_succ, List.map_append, List.map_singleton, hplace]
  · have hsame : min count (x + 1 - offect) = min count (x - offect) := by omega
    rw [if_neg hin, hsame, List.append_nil]

theorem portWord_eq (hcount : count < 2 ^ 32) (hoff : offect < 2 ^ 31)
    (hx : x * 2 = n * ataSectorSize + i * 2) (hlt : x * 2 + 1 < 2 ^ 31) :
    portWord port count offect n i ⟨x, storesTo port count offect (x * 2)⟩ =
      ⟨x + 1, storesTo port count offect ((x + 1) * 2)⟩ := by
  have hlow : portByte port (x * 2) = (port x).setWidth 8 := by
    unfold portByte
    rw [if_pos (by omega), Nat.mul_div_cancel x (by decide)]
  have hhigh : portByte port (x * 2 + 1) = (port x >>> 8).setWidth 8 := by
    have hdiv : (x * 2 + 1) / 2 = x := by omega
    unfold portByte
    rw [if_neg (by omega), hdiv]
  have hnext : (x + 1) * 2 = x * 2 + 1 + 1 := by omega
  rw [hnext, storesTo_succ, storesTo_succ, hlow, hhigh]
  unfold portWord
  dsimp only
  rw [← hx, intToU64_of_lt hlt, intToU64_of_lt (by omega), setWidth_and, setWidth_and]
  congr 2
  · congr 1
    by_cases hle : offect ≤ x * 2
    · rw [sub64_of_le hle (by omega), Nat.mod_eq_of_lt (by omega)]
    · rw [if_neg fun h => hle h.1, if_neg fun h => hle h.1]
  · by_cases hle : offect ≤ x * 2 + 1
    · -- in front of the request the difference wraps, and comes back to zero
      have hindex : add64 (sub64 (x * 2) offect) 1 = x * 2 + 1 - offect := by
        unfold add64 sub64 Word.add Word.sub
        omega
      rw [hindex]
      by_cases hin : x * 2 + 1 - offect < count
      · rw [if_pos ⟨hle, hin⟩, if_pos ⟨hle, hin⟩, Nat.mod_eq_of_lt (by omega)]
      · rw [if_neg fun h => hin h.2, if_neg fun h => hin h.2]
    · rw [if_neg fun h => hle h.1, if_neg fun h => hle h.1]

theorem portSector_eq (hcount : count < 2 ^ 32) (hoff : offect < 2 ^ 31)
    (hlt : n * ataSectorSize + i * 2 < 2 ^ 31) (hn : n * (ataSectorSize / 2) = x) :
    portSector port count offect n i ⟨x, storesTo port count offect (x * 2)⟩ =
      ⟨x + i, storesTo port count offect ((x + i) * 2)⟩ := by
  induction i with
  | zero => rfl
  | succ i ih =>
      rw [portSector, ih (by omega)]
      exact portWord_eq hcount hoff (by lia) (by lia)

theorem portData_eq (port : ℕ → BitVec 16) (hcount : count < 2 ^ 32) (hoff : offect < 2 ^ 31)
    {sectorCount : ℕ} (hsector : sectorCount * ataSectorSize < 2 ^ 31) :
    portData port count offect sectorCount ⟨0, []⟩ =
      ⟨sectorCount * (ataSectorSize / 2),
        storesTo port count offect (sectorCount * (ataSectorSize / 2) * 2)⟩ := by
  induction sectorCount with
  | zero =>
      have hnone : storesTo port count offect (0 * (ataSectorSize / 2) * 2) = [] := by
        unfold storesTo
        rw [Nat.zero_mul, Nat.zero_mul, Nat.zero_sub, Nat.min_zero]
        rfl
      rw [hnone]
      rfl
  | succ n ih =>
      rw [portData, ih (by lia), portSector_eq hcount hoff (by lia) rfl]
      have hwords : n * (ataSectorSize / 2) + ataSectorSize / 2 = (n + 1) * (ataSectorSize / 2) :=
        (Nat.succ_mul n _).symm
      rw [hwords]

theorem applyStores_range (byte : ℕ → BitVec 8) (count : ℕ) (buf : Bytes) (k : ℕ) :
    applyStores ((List.range count).map fun k => (k, byte k)) buf k =
      if k < count then byte k else buf k := by
  induction count with
  | zero => rfl
  | succ count ih =>
      rw [List.range_succ, List.map_append, applyStores_append]
      change Function.update (applyStores _ buf) count (byte count) k = _
      by_cases hlast : k = count
      · rw [hlast, Function.update_self, if_pos (Nat.lt_succ_self count)]
      · rw [Function.update_of_ne hlast, ih]
        by_cases hlt : k < count
        · rw [if_pos hlt, if_pos (by omega)]
        · rw [if_neg hlt, if_neg (by omega)]

/-- **The sector copy loop is exact.** Whatever words the port hands out: the loop takes those of
the sectors and no more; it stores the bytes of the request, each once, in their order and in its
place; and so it leaves every other byte of the buffer as it was. -/
theorem ataReadData_exact (port : ℕ → BitVec 16) {sectorCount : ℕ}
    (hsector : sectorCount * ataSectorSize < 2 ^ 31) (hoff : offect < ataSectorSize)
    (hcount : offect + count ≤ sectorCount * ataSectorSize) :
    (portData port count offect sectorCount ⟨0, []⟩).words = sectorCount * 256 ∧
    (portData port count offect sectorCount ⟨0, []⟩).stores =
      (List.range count).map (fun k => (k, portByte port (offect + k))) ∧
    ∀ buf k, applyStores (portData port count offect sectorCount ⟨0, []⟩).stores buf k =
      if k < count then portByte port (offect + k) else buf k := by
  rw [portData_eq port (by omega) (by lia) hsector]
  have hall : min count (sectorCount * (ataSectorSize / 2) * 2 - offect) = count := by lia
  refine ⟨rfl, ?_, fun buf k => ?_⟩
  · dsimp only
    unfold storesTo
    rw [hall]
  · dsimp only
    unfold storesTo
    rw [hall]
    exact applyStores_range (fun k => portByte port (offect + k)) count buf k

/-- An odd offset and an odd count: the high byte of the first word and both bytes of the next one
are stored. -/
theorem ataReadData_exact_odd :
    (portData (fun w => 0x4100 + BitVec.ofNat 16 w) 3 511 2 ⟨0, []⟩).stores =
      [(0, 0x41), (1, 0x00), (2, 0x42)] :=
  (ataReadData_exact _ (by decide) (by decide) (by decide)).2.1.trans (by decide)

end Stores

/-! ## The words of a drive -/

section Drive

variable {disk buf : Bytes} {lba count offect : ℕ}

/-- The words of the sectors from `lba` on. -/
def diskPort (disk : Bytes) (lba : ℕ) : ℕ → BitVec 16 := fun w =>
  BitVec.ofNat 16 (inw disk lba (w / (ataSectorSize / 2)) (w % (ataSectorSize / 2)))

theorem diskPort_eq (disk : Bytes) (lba n : ℕ) {i : ℕ} (hi : i < ataSectorSize / 2) :
    diskPort disk lba (n * (ataSectorSize / 2) + i) = BitVec.ofNat 16 (inw disk lba n i) := by
  have hdiv : (n * (ataSectorSize / 2) + i) / (ataSectorSize / 2) = n := by lia
  have hmod : (n * (ataSectorSize / 2) + i) % (ataSectorSize / 2) = i := by lia
  unfold diskPort
  rw [hdiv, hmod]

theorem applyStores_portWord {s : PortRun} {n i : ℕ} (hi : i < ataSectorSize / 2)
    (hs : s.words = n * (ataSectorSize / 2) + i) :
    applyStores (portWord (diskPort disk lba) count offect n i s).stores buf =
      ataReadWord disk lba count offect n i (applyStores s.stores buf) := by
  have hword : inw disk lba n i < 2 ^ 16 := Bytes.le_lt disk _ 2
  have hlow : (BitVec.ofNat 16 (inw disk lba n i)).setWidth 8 = BitVec.ofNat 8 (inw disk lba n i) := by
    apply BitVec.eq_of_toNat_eq
    rw [BitVec.toNat_setWidth, BitVec.toNat_ofNat, BitVec.toNat_ofNat]
    omega
  have hhigh : (BitVec.ofNat 16 (inw disk lba n i) >>> 8).setWidth 8 =
      BitVec.ofNat 8 (inw disk lba n i / 2 ^ 8) := by
    apply BitVec.eq_of_toNat_eq
    rw [BitVec.toNat_setWidth, BitVec.toNat_ushiftRight, BitVec.toNat_ofNat, BitVec.toNat_ofNat,
      Nat.shiftRight_eq_div_pow, Nat.mod_eq_of_lt hword]
  unfold portWord ataReadWord
  dsimp only
  rw [hs, diskPort_eq disk lba n hi, setWidth_and, setWidth_and, hlow, hhigh, applyStores_append,
    applyStores_append]
  generalize applyStores s.stores buf = buf
  split
  · split <;> rfl
  · split <;> rfl

theorem applyStores_portSector (disk buf : Bytes) (lba count offect : ℕ) {s : PortRun} {n i : ℕ}
    (hi : i ≤ ataSectorSize / 2) (hs : s.words = n * (ataSectorSize / 2)) :
    (portSector (diskPort disk lba) count offect n i s).words = n * (ataSectorSize / 2) + i ∧
    applyStores (portSector (diskPort disk lba) count offect n i s).stores buf =
      ataReadSector disk lba count offect n i (applyStores s.stores buf) := by
  induction i with
  | zero =>
      rw [Nat.add_zero]
      exact ⟨hs, rfl⟩
  | succ i ih =>
      obtain ⟨hwords, hstores⟩ := ih (by omega)
      rw [portSector, applyStores_portWord (by omega) hwords, hstores, ataReadSector, ← Nat.add_assoc,
        ← hwords]
      exact ⟨rfl, rfl⟩

theorem applyStores_portData (disk buf : Bytes) (lba count offect sectorCount : ℕ) :
    (portData (diskPort disk lba) count offect sectorCount ⟨0, []⟩).words =
      sectorCount * (ataSectorSize / 2) ∧
    applyStores (portData (diskPort disk lba) count offect sectorCount ⟨0, []⟩).stores buf =
      ataReadData disk lba count offect sectorCount buf := by
  induction sectorCount with
  | zero => exact ⟨(Nat.zero_mul _).symm, rfl⟩
  | succ n ih =>
      obtain ⟨hwords, hstores⟩ := ih
      have hsector := applyStores_portSector disk buf lba count offect (Nat.le_refl _) hwords
      rw [portData, ataReadData, Nat.succ_mul, ← hstores]
      exact hsector

end Drive

end BitchKernel
