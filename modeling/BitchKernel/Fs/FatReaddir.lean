import BitchKernel.Fs.FatDir
import BitchKernel.Fs.FatRead
import BitchKernel.Lib.Loop

/-!
# What a listing of a directory returns

A well-formed directory is a list of deleted entries, short entries and long names with their
short entries. A listing counts the long names and, at the one it is asked for, looks for the
first from there on whose attribute it accepts: so it returns every file exactly once when it
accepts all of them.
-/

namespace BitchKernel

open Lib

/-! ## Reads of an entry -/

namespace Fat

/-- Every round of the loop of `read_cluster` takes a byte off the way to the end. -/
theorem readClusterLoop_ne_none (diskRead : DiskRead) (fat : Fat) {fuel count offect : ℕ}
    (hfuel : offect + count < fuel) (hlt : offect + count < 2 ^ 64) (buf : Bytes)
    (cluster n pos : ℕ) :
    fat.readClusterLoop diskRead fuel buf cluster count offect n pos ≠ none := by
  induction fuel generalizing buf cluster count offect n pos with
  | zero => omega
  | succ fuel ih =>
      have hpos := fat.clusterSize_pos
      have hsize := fat.clusterSize_lt
      unfold readClusterLoop
      rw [add64_eq, Nat.mod_eq_of_lt hlt]
      dsimp only
      split
      · rename_i hin
        split
        · rename_i hpast
          split
          · simp
          · split
            · have hpart : sub64 fat.clusterSize offect = fat.clusterSize - offect :=
                sub64_of_le (by omega) (by omega)
              have hcount : sub64 count (sub64 fat.clusterSize offect) =
                  count - (fat.clusterSize - offect) := by
                rw [hpart, sub64_of_le (by omega) (by omega)]
              have hmod := Nat.mod_le (count - (fat.clusterSize - offect)) (2 ^ 32)
              rw [hcount]
              exact ih (by omega) (by omega) _ _ _ _
            · simp
        · split <;> simp
      · split
        · rw [sub64_of_le (by omega) (by omega)]
          exact ih (by omega) (by omega) _ _ _ _
        · simp

theorem readDirEntry_eq (diskRead : DiskRead) (fat : Fat) (dir : FatDir) (cluster n : ℕ) :
    ∃ r, fat.readCluster diskRead (mul32 n fatDirSize + fatDirSize + 1) dir cluster fatDirSize
      (mul32 n fatDirSize) = some (r, fat.readDirEntry diskRead dir cluster n) := by
  have hlt := Word.mul_lt 32 n fatDirSize
  obtain ⟨⟨r, out⟩, hread⟩ := Option.ne_none_iff_exists'.1
    (fat.readClusterLoop_ne_none diskRead (Nat.lt_succ_self (mul32 n fatDirSize + fatDirSize))
      (by lia) dir cluster 0 0)
  refine ⟨r, ?_⟩
  unfold readDirEntry readCluster
  rw [hread]

end Fat

/-! ## Long names -/

namespace FatDir

/-- The number of characters of a part of a name in front of the null character. -/
def partLen (e : FatDir) : ℕ := scanUntil (fun n => decide (e.lfnChar n = 0)) 13 0

/-- The number of characters of a part that `lfn_cpy` copies in front of a null byte. -/
def copyLen (e : FatDir) : ℕ := scanUntil (fun n => decide (BitVec.ofNat 8 (e.lfnChar n) = 0)) 13 0

end FatDir

namespace FatDir

theorem partLen_le (e : FatDir) : e.partLen ≤ 13 := scanUntil_le _ 13 0

theorem lfnChar_partLen {e : FatDir} (h : e.partLen ≠ 13) : e.lfnChar e.partLen = 0 := by
  have hstop : scanUntil (fun n => decide (e.lfnChar n = 0)) 13 0 ≠ 0 + 13 := h
  exact of_decide_eq_true (stop_scanUntil _ hstop)

/-- The characters that are copied are those in front of the first null byte. -/
theorem le_copyLen_iff {e : FatDir} {m : ℕ} (hm : m ≤ 13) :
    m ≤ e.copyLen ↔ ∀ n < m, BitVec.ofNat 8 (e.lfnChar n) ≠ 0 := by
  constructor
  · intro hle n hn
    exact of_decide_eq_false (not_stop_of_lt_scanUntil _ (Nat.zero_le n) (by
      change n < e.copyLen
      omega))
  · intro hall
    by_contra hlt
    have hstop : scanUntil (fun n => decide (BitVec.ofNat 8 (e.lfnChar n) = 0)) 13 0 ≠ 0 + 13 := by
      change e.copyLen ≠ 13
      omega
    exact hall e.copyLen (by omega) (of_decide_eq_true (stop_scanUntil _ hstop))

theorem copyLen_le_partLen (e : FatDir) : e.copyLen ≤ e.partLen := by
  by_contra hlt
  have hcopy : e.copyLen ≤ 13 := scanUntil_le _ 13 0
  have hnull := lfnChar_partLen (e := e) (by omega)
  refine (le_copyLen_iff (e := e) (m := e.partLen + 1) (by omega)).1 (by omega) e.partLen
    (by omega) ?_
  rw [hnull]
  rfl

theorem copyLen_eq_iff {e : FatDir} :
    e.copyLen = e.partLen ↔ ∀ n < e.partLen, BitVec.ofNat 8 (e.lfnChar n) ≠ 0 := by
  rw [← le_copyLen_iff e.partLen_le]
  have hle := e.copyLen_le_partLen
  omega

end FatDir

/-- A long name and its short entry. The parts are given in the order of the name, so the last
of them is the first on the disk. -/
structure LongName where
  count : ℕ
  part : ℕ → FatDir
  entry : FatDir
  count_pos : 0 < count
  isLfn : ∀ i < count, (part i).fatAttribute = attrLfn
  order : ∀ i < count, (part i).order = if i + 1 = count then flagLast + count else i + 1
  full : ∀ i, i + 1 < count → (part i).partLen = 13
  last_pos : 0 < (part (count - 1)).partLen
  length_le : (count - 1) * 13 + (part (count - 1)).partLen ≤ 255
  live : entry.order ≠ flagDel ∧ entry.order ≠ 0
  fileAttr : entry.fatAttribute < 0x40 ∧ entry.fatAttribute &&& attrVolumeId = 0

namespace LongName

def length (e : LongName) : ℕ := (e.count - 1) * 13 + (e.part (e.count - 1)).partLen

def char (e : LongName) (k : ℕ) : ℕ := (e.part (k / 13)).lfnChar (k % 13)

def type (e : LongName) : FileType :=
  if e.entry.fatAttribute &&& attrDir ≠ 0 then .dir else .reg

def entries (e : LongName) : List FatDir :=
  (List.range e.count).map (fun j => e.part (e.count - 1 - j)) ++ [e.entry]

def IsFile (e : LongName) (file : FatFile) : Prop :=
  file.nameLen = e.length ∧ (∀ k < e.length, file k = BitVec.ofNat 8 (e.char k)) ∧
    file.type = e.type

/-- Two names with the same bytes. -/
def SameName (e e' : LongName) : Prop :=
  e.length = e'.length ∧ ∀ k < e.length, BitVec.ofNat 8 (e.char k) = BitVec.ofNat 8 (e'.char k)

/-- No character of the name has a null byte as its low byte, where `lfn_cpy` would take it for
the end: behind the last character of a part but the last one nothing is lost. -/
def Readable (e : LongName) : Prop :=
  (∀ n < (e.part (e.count - 1)).partLen, BitVec.ofNat 8 ((e.part (e.count - 1)).lfnChar n) ≠ 0) ∧
    ∀ i, i + 1 < e.count → ∀ n < 12, BitVec.ofNat 8 ((e.part i).lfnChar n) ≠ 0

end LongName

/-- What a well-formed directory is made of. -/
inductive DirItem
  | deleted (e : FatDir) (h : e.order = flagDel)
  | short (e : FatDir) (h : e.IsShort)
  | long (e : LongName)

namespace DirItem

def entries : DirItem → List FatDir
  | .deleted e _ => [e]
  | .short e _ => [e]
  | .long e => e.entries

def longName : DirItem → Option LongName
  | .long e => some e
  | _ => none

end DirItem

/-- The entries of a directory from entry `n` on are those of a list. -/
def HoldsFrom (entry : ℕ → FatDir) (n : ℕ) (es : List FatDir) : Prop :=
  (List.range' n es.length).map entry = es

/-- A directory of `count` entries holds the items of a list, one after the other. -/
structure HoldsItems (entry : ℕ → FatDir) (count : ℕ) (items : List DirItem) : Prop where
  count_eq : count = (items.flatMap DirItem.entries).length
  holds : HoldsFrom entry 0 (items.flatMap DirItem.entries)

section Copy

variable {lfn : FatDir} {name : Bytes} {pos : ℕ}

theorem lfnCpyLoop_eq (hpos : pos + 13 ≤ 2 ^ 32) {rem : ℕ} (hrem : rem ≤ 13) :
    (lfnCpyLoop pos lfn rem name).1 =
        scanUntil (fun n => decide (BitVec.ofNat 8 (lfn.lfnChar n) = 0)) rem (13 - rem) ∧
      ∀ k, (lfnCpyLoop pos lfn rem name).2 k =
        if pos + (13 - rem) ≤ k ∧ k < pos + 13 ∧ k ≤ pos +
            scanUntil (fun n => decide (BitVec.ofNat 8 (lfn.lfnChar n) = 0)) rem (13 - rem) then
          BitVec.ofNat 8 (lfn.lfnChar (k - pos))
        else name k := by
  induction rem generalizing name with
  | zero => exact ⟨rfl, fun k => (if_neg (by omega)).symm⟩
  | succ rem ih =>
      have hnext : 13 - (rem + 1) + 1 = 13 - rem := by omega
      rw [lfnCpyLoop, scanUntil_succ, add32_of_lt (by omega), hnext]
      by_cases hnull : BitVec.ofNat 8 (lfn.lfnChar (13 - (rem + 1))) = 0
      · rw [if_pos hnull, if_pos (decide_eq_true hnull)]
        refine ⟨rfl, fun k => ?_⟩
        dsimp only
        rw [Function.update_apply]
        by_cases hk : k = pos + (13 - (rem + 1))
        · rw [if_pos hk, if_pos (by omega), hk, Nat.add_sub_cancel_left]
        · rw [if_neg hk, if_neg (by omega)]
      · rw [if_neg hnull, if_neg (by simp only [decide_eq_true_eq]; exact hnull)]
        obtain ⟨hlen, hname⟩ := @ih (Function.update name (pos + (13 - (rem + 1)))
          (BitVec.ofNat 8 (lfn.lfnChar (13 - (rem + 1))))) (by omega)
        have hle := le_scanUntil (fun n => decide (BitVec.ofNat 8 (lfn.lfnChar n) = 0)) rem (13 - rem)
        refine ⟨hlen, fun k => ?_⟩
        rw [hname, Function.update_apply]
        by_cases hk : k = pos + (13 - (rem + 1))
        · rw [if_neg (by omega), if_pos hk, if_pos (by omega), hk, Nat.add_sub_cancel_left]
        · rw [if_neg hk]
          exact if_congr (by omega) rfl rfl

theorem lfnCpy_eq (name : Bytes) (lfn : FatDir) (hpos : pos + 13 ≤ 2 ^ 32) :
    (lfnCpy name pos lfn).1 = lfn.copyLen ∧
      ∀ k, (lfnCpy name pos lfn).2 k =
        if pos ≤ k ∧ k < pos + 13 ∧ k ≤ pos + lfn.copyLen then
          BitVec.ofNat 8 (lfn.lfnChar (k - pos))
        else name k :=
  lfnCpyLoop_eq hpos (Nat.le_refl 13)

end Copy

namespace LongName

variable {e : LongName} {entry : ℕ → FatDir} {n : ℕ}

theorem count_le (e : LongName) : e.count ≤ 20 := by
  have hle := e.length_le
  have hlast := e.last_pos
  omega

theorem flags {c : ℕ} (hc : c ≤ 20) :
    (flagLast + c) &&& flagLast ≠ 0 ∧ (flagLast + c) &&& 0x3f = c ∧ c &&& flagLast = 0 ∧
      c &&& 0x3f = c ∧ flagLast + c ≠ flagDel ∧ c ≠ flagDel := by
  decide +revert

def shown (e : LongName) (file : FatFile) : FatFile := fun k =>
  if k < e.count * 13 ∧ k % 13 ≤ (e.part (k / 13)).copyLen then BitVec.ofNat 8 (e.char k)
  else file.setNameLen ((e.count - 1) * 13 + (e.part (e.count - 1)).copyLen) k

theorem entries_length (e : LongName) : e.entries.length = e.count + 1 := by
  rw [entries, List.length_append, List.length_map, List.length_range, List.length_singleton]

theorem holdsFrom (h : HoldsFrom entry n e.entries) :
    (∀ i < e.count, entry (n + (e.count - 1 - i)) = e.part i) ∧ entry (n + e.count) = e.entry := by
  have hget (j : ℕ) : ((List.range' n e.entries.length).map entry)[j]? = e.entries[j]? := by
    rw [h]
  constructor
  · intro i hi
    have hpart := hget (e.count - 1 - i)
    rw [entries, List.getElem?_append_left (by rw [List.length_map, List.length_range]; omega),
      ← entries, entries_length, List.getElem?_map, List.getElem?_map,
      List.getElem?_range' (by omega), List.getElem?_range (by omega)] at hpart
    simp only [Option.map_some, Option.some.injEq, Nat.one_mul] at hpart
    rw [hpart]
    exact congrArg e.part (by omega)
  · have hlast := hget e.count
    rw [entries, List.getElem?_append_right (by rw [List.length_map, List.length_range]),
      ← entries, entries_length, List.getElem?_map, List.getElem?_range' (by omega),
      List.length_map, List.length_range, Nat.sub_self] at hlast
    simpa using hlast

theorem part_lfn {i : ℕ} (hi : i < e.count) : (e.part i).IsLfn := by
  have hflags := flags e.count_le
  refine ⟨?_, e.isLfn i hi⟩
  rw [e.order i hi]
  split
  · exact hflags.2.2.2.2.1
  · exact (flags (by have := e.count_le; omega)).2.2.2.2.2

theorem part_last : (e.part (e.count - 1)).order &&& flagLast ≠ 0 ∧
    (e.part (e.count - 1)).order &&& 0x3f = e.count := by
  have hpos := e.count_pos
  have hflags := flags e.count_le
  rw [e.order (e.count - 1) (by omega), if_pos (by omega)]
  exact ⟨hflags.1, hflags.2.1⟩

theorem part_other {i : ℕ} (hi : i + 1 < e.count) :
    (e.part i).order &&& flagLast = 0 ∧ (e.part i).order &&& 0x3f = i + 1 := by
  have hle := e.count_le
  have hflags := flags (c := i + 1) (by omega)
  rw [e.order i (by omega), if_neg (by omega)]
  exact ⟨hflags.2.2.1, hflags.2.2.2.1⟩

theorem entry_isShort (e : LongName) : e.entry.IsShort := by
  refine ⟨e.live.1, fun hattr => ?_⟩
  have hfile := e.fileAttr.2
  rw [hattr] at hfile
  exact absurd hfile (by decide)

/-- The inner loop of a listing goes through all parts of a long name. -/
theorem copyParts_eq (h : HoldsFrom entry n e.entries) (hn : n + e.count < 2 ^ 32) {i : ℕ}
    (hi : i + 1 ≤ e.count) (file : FatFile) :
    (copyParts entry n e.count i file).1 = true ∧
      ∀ k, (copyParts entry n e.count i file).2 k =
        if k < i * 13 ∧ k % 13 ≤ (e.part (k / 13)).copyLen then BitVec.ofNat 8 (e.char k)
        else file k := by
  have hle := e.count_le
  induction i generalizing file with
  | zero => exact ⟨rfl, fun k => (if_neg (by omega)).symm⟩
  | succ i ih =>
      have hentry : entry (sub32 (add32 n e.count) (i + 1)) = e.part i := by
        rw [add32_of_lt hn, sub32_of_le (by omega) hn, ← (holdsFrom h).1 i (by omega)]
        exact congrArg entry (by omega)
      obtain ⟨hflag, horder⟩ := part_other (e := e) (i := i) (by omega)
      obtain ⟨hdone, hname⟩ := ih (by omega) (lfnCpy file (i * 13) (e.part i)).2
      have hpos : mul32 (sub32 (i + 1) 1) 13 = i * 13 := by
        rw [sub32_of_le (by omega) (by omega), Nat.add_sub_cancel, mul32_of_lt (by omega)]
      unfold copyParts
      rw [hentry]
      dsimp only
      rw [if_pos ⟨part_lfn (by omega), hflag⟩, horder, hpos]
      refine ⟨hdone, fun k => ?_⟩
      rw [hname, (lfnCpy_eq _ _ (by omega)).2]
      by_cases hk : k < i * 13
      · rw [if_neg (by omega : ¬ (i * 13 ≤ k ∧ k < i * 13 + 13 ∧ k ≤ i * 13 + (e.part i).copyLen))]
        exact if_congr (by omega) rfl rfl
      · rw [if_neg (by omega)]
        by_cases hpart : k < i * 13 + 13
        · have hdiv : k / 13 = i := by omega
          rw [LongName.char, hdiv]
          have hmod : k - i * 13 = k % 13 := by omega
          rw [hmod]
          exact if_congr (by omega) rfl rfl
        · rw [if_neg (by omega), if_neg (by omega)]

theorem shown_fits (e : LongName) {k : ℕ} (hk : 256 ≤ k) :
    ¬ (k < e.count * 13 ∧ k % 13 ≤ (e.part (k / 13)).copyLen) := by
  have hle := e.count_le
  have hlength := e.length_le
  have hcopy := (e.part (e.count - 1)).copyLen_le_partLen
  rintro ⟨hlt, hmod⟩
  have hdiv : k / 13 = e.count - 1 := by omega
  rw [hdiv] at hmod
  omega

theorem nameLen_shown (e : LongName) (file : FatFile) :
    (e.shown file).nameLen = (e.count - 1) * 13 + (e.part (e.count - 1)).copyLen := by
  have hle := e.length_le
  have hcopy := (e.part (e.count - 1)).copyLen_le_partLen
  rw [← file.nameLen_setNameLen (n := (e.count - 1) * 13 + (e.part (e.count - 1)).copyLen)
    (by omega)]
  exact Bytes.le_congr fun i hi => if_neg (e.shown_fits (by omega))

theorem listEntry_eq (h : HoldsFrom entry n e.entries) (hn : n + e.count < 2 ^ 32)
    (fileType : ℕ → Option FileType) (file : FatFile) :
    listEntry entry fileType n file = (fileType e.entry.fatAttribute, e.shown file) := by
  have hle := e.count_le
  have hpos := e.count_pos
  have hfirst : entry n = e.part (e.count - 1) := by
    have hpart := (holdsFrom h).1 (e.count - 1) (by omega)
    rw [Nat.sub_self, Nat.add_zero] at hpart
    exact hpart
  have hat : mul32 (e.count - 1) 13 = (e.count - 1) * 13 := mul32_of_lt (by omega)
  have hcount : sub32 e.count 1 = e.count - 1 := sub32_of_le (by omega) (by omega)
  obtain ⟨len, first, hcpy⟩ : ∃ len first,
      lfnCpy file ((e.count - 1) * 13) (e.part (e.count - 1)) = (len, first) := ⟨_, _, rfl⟩
  have hfits : (e.count - 1) * 13 + 13 ≤ 2 ^ 32 := by omega
  obtain ⟨hlen, hname⟩ := lfnCpy_eq file (e.part (e.count - 1)) hfits
  rw [hcpy] at hlen hname
  dsimp only at hlen hname
  have hcopyLen : (e.part (e.count - 1)).copyLen ≤ 13 := scanUntil_le _ 13 0
  obtain ⟨hdone, hparts⟩ := copyParts_eq h hn (i := e.count - 1) (by omega)
    (FatFile.setNameLen first ((e.count - 1) * 13 + (e.part (e.count - 1)).copyLen))
  obtain ⟨complete, after, hcopy⟩ : ∃ complete after, copyParts entry n e.count (e.count - 1)
      (FatFile.setNameLen first ((e.count - 1) * 13 + (e.part (e.count - 1)).copyLen)) =
        (complete, after) := ⟨_, _, rfl⟩
  rw [hcopy] at hdone hparts
  dsimp only at hdone hparts
  unfold listEntry
  simp only [hfirst, (part_last (e := e)).2, hat, hcpy, hcount, hlen, add32_of_lt
    (show (e.count - 1) * 13 + (e.part (e.count - 1)).copyLen < 2 ^ 32 by omega), hcopy,
    add32_of_lt hn, (holdsFrom h).2]
  rw [if_pos ⟨hdone, e.entry_isShort⟩]
  refine Prod.ext rfl (funext fun k => ?_)
  dsimp only
  rw [hparts]
  unfold shown
  by_cases hk : k < (e.count - 1) * 13
  · rw [FatFile.setNameLen_of_lt _ _ (by omega), FatFile.setNameLen_of_lt _ _ (by omega), hname,
      if_neg (by omega : ¬ ((e.count - 1) * 13 ≤ k ∧ _))]
    exact if_congr (by omega) rfl rfl
  rw [if_neg (by omega)]
  by_cases hfield : 256 ≤ k
  · -- behind the name the copy has changed nothing but the field
    rw [if_neg (e.shown_fits hfield)]
    unfold FatFile.setNameLen Bytes.storeLe
    have hlength := e.length_le
    have hpart := (e.part (e.count - 1)).copyLen_le_partLen
    rw [hname, if_neg (c := (e.count - 1) * 13 ≤ k ∧ _) (by omega)]
  · rw [FatFile.setNameLen_of_lt _ _ (by omega), FatFile.setNameLen_of_lt _ _ (by omega), hname]
    by_cases hpart : k < e.count * 13
    · have hdiv : k / 13 = e.count - 1 := by omega
      have hmod : k - (e.count - 1) * 13 = k % 13 := by omega
      rw [LongName.char, hdiv, hmod]
      exact if_congr (by omega) rfl rfl
    · rw [if_neg (by omega), if_neg (by omega)]

end LongName

/-! ## The loop over the entries -/

section Loop

variable {entry : ℕ → FatDir} {fileType : ℕ → Option FileType} {dirCount : ℕ}

/-- What a listing returns when its counter is zero at the first of a list of long names. -/
def showFirst (fileType : ℕ → Option FileType) : List LongName → FatFile → FatFile
  | [], file => file.setNameLen 0
  | e :: l, file =>
      match fileType e.entry.fatAttribute with
      | some type => (e.shown file).setType type
      | none => showFirst fileType l (e.shown file)

theorem HoldsFrom.append {n : ℕ} {es es' : List FatDir} (h : HoldsFrom entry n (es ++ es')) :
    HoldsFrom entry n es ∧ HoldsFrom entry (n + es.length) es' := by
  unfold HoldsFrom at h ⊢
  rw [List.length_append, ← List.range'_append_1, List.map_append] at h
  exact List.append_inj h (by rw [List.length_map, List.length_range'])

theorem HoldsFrom.singleton {n : ℕ} {e : FatDir} (h : HoldsFrom entry n [e]) : entry n = e := by
  have hget := congrArg (fun l => l[0]?) h
  simpa using hget

theorem listLoop_next {n : ℕ} (hfirst : ¬ ((entry n).IsLfn ∧ (entry n).order &&& flagLast ≠ 0))
    (hn : n < dirCount) (hcount : dirCount < 2 ^ 32) (fuel offect : ℕ) (file : FatFile) :
    listLoop entry fileType dirCount (fuel + 1) n offect file =
      listLoop entry fileType dirCount fuel (n + 1) offect file := by
  rw [listLoop, if_pos hn]
  dsimp only
  rw [if_neg hfirst, add32_of_lt (by omega)]

theorem listLoop_skip {n m : ℕ} (hm : ∀ j < m, ¬ ((entry (n + j)).IsLfn ∧
    (entry (n + j)).order &&& flagLast ≠ 0)) (hn : n + m ≤ dirCount) (hcount : dirCount < 2 ^ 32)
    (fuel offect : ℕ) (file : FatFile) :
    listLoop entry fileType dirCount (fuel + m) n offect file =
      listLoop entry fileType dirCount fuel (n + m) offect file := by
  induction m generalizing n with
  | zero => rfl
  | succ m ih =>
      have hfirst := hm 0 (by omega)
      rw [Nat.add_zero] at hfirst
      rw [← Nat.add_assoc, listLoop_next hfirst (by omega) hcount, ← Nat.add_comm 1 m,
        ← Nat.add_assoc n 1 m]
      refine ih (fun j hj => ?_) (by omega)
      have hnext := hm (j + 1) (by omega)
      rw [Nat.add_comm j 1, ← Nat.add_assoc] at hnext
      exact hnext

theorem LongName.not_first {e : LongName} {n : ℕ} (h : HoldsFrom entry n e.entries) {j : ℕ}
    (hj : j < e.count) : ¬ ((entry (n + 1 + j)).IsLfn ∧
      (entry (n + 1 + j)).order &&& flagLast ≠ 0) := by
  obtain ⟨hparts, hshort⟩ := holdsFrom h
  by_cases hlast : j + 1 = e.count
  · have hentry : entry (n + 1 + j) = e.entry := by
      rw [← hshort]
      exact congrArg entry (by omega)
    rw [hentry]
    exact fun hfirst => e.entry_isShort.2 hfirst.1.2
  · have hentry : entry (n + 1 + j) = e.part (e.count - 1 - (j + 1)) := by
      rw [← hparts (e.count - 1 - (j + 1)) (by omega)]
      exact congrArg entry (by omega)
    have hother := part_other (e := e) (i := e.count - 1 - (j + 1)) (by omega)
    rw [hentry]
    exact fun hfirst => hfirst.2 hother.1

/-- A listing of well-formed entries passes over as many long names as its counter says, and
returns the first file from there on whose attribute it accepts. -/
theorem listLoop_eq (hcount : dirCount + 64 < 2 ^ 32) (items : List DirItem) {n fuel offect : ℕ}
    (h : HoldsFrom entry n (items.flatMap DirItem.entries))
    (hn : dirCount = n + (items.flatMap DirItem.entries).length)
    (hfuel : (items.flatMap DirItem.entries).length ≤ fuel) (hoffect : offect < 2 ^ 32)
    (file : FatFile) :
    listLoop entry fileType dirCount fuel n offect file =
      showFirst fileType ((items.filterMap DirItem.longName).drop offect) file := by
  induction items generalizing n fuel offect file with
  | nil =>
      rw [List.filterMap_nil, List.drop_nil, showFirst]
      rw [List.flatMap_nil, List.length_nil] at hn
      cases fuel with
      | zero => rfl
      | succ fuel => rw [listLoop, if_neg (by omega)]
  | cons item items ih =>
      rw [List.flatMap_cons] at h hn hfuel
      rw [List.length_append] at hn hfuel
      obtain ⟨hitem, hrest⟩ := h.append
      cases item with
      | deleted e hdel =>
          have hentry : entry n = e := hitem.singleton
          obtain ⟨fuel, rfl⟩ : ∃ f, fuel = f + 1 := ⟨fuel - 1, by
            simp only [DirItem.entries, List.length_singleton] at hfuel; omega⟩
          simp only [DirItem.entries, List.length_singleton] at hn hfuel hrest
          rw [listLoop_next (fun hfirst => ?_) (by omega) (by omega)]
          · exact ih hrest (by omega) (by omega) hoffect file
          · rw [hentry] at hfirst
            exact hfirst.1.1 hdel
      | short e hshort =>
          have hentry : entry n = e := hitem.singleton
          obtain ⟨fuel, rfl⟩ : ∃ f, fuel = f + 1 := ⟨fuel - 1, by
            simp only [DirItem.entries, List.length_singleton] at hfuel; omega⟩
          simp only [DirItem.entries, List.length_singleton] at hn hfuel hrest
          rw [listLoop_next (fun hfirst => ?_) (by omega) (by omega)]
          · exact ih hrest (by omega) (by omega) hoffect file
          · rw [hentry] at hfirst
            exact hshort.2 hfirst.1.2
      | long e =>
          change HoldsFrom entry n e.entries at hitem
          change HoldsFrom entry (n + e.entries.length) _ at hrest
          change dirCount = n + (e.entries.length + _) at hn
          change e.entries.length + _ ≤ fuel at hfuel
          rw [e.entries_length] at hrest hn hfuel
          have hpos := e.count_pos
          have hle := e.count_le
          obtain ⟨fuel, rfl⟩ : ∃ f, fuel = f + 1 := ⟨fuel - 1, by omega⟩
          have hfirst : entry n = e.part (e.count - 1) := by
            have hpart := (LongName.holdsFrom hitem).1 (e.count - 1) (by omega)
            rw [Nat.sub_self, Nat.add_zero] at hpart
            exact hpart
          have hlast := LongName.part_last (e := e)
          rw [listLoop, if_pos (by omega)]
          dsimp only
          rw [hfirst, if_pos ⟨LongName.part_lfn (by omega), hlast.1⟩, hlast.2]
          change _ = showFirst fileType ((e :: items.filterMap DirItem.longName).drop offect) file
          by_cases hzero : offect = 0
          · rw [if_pos hzero, LongName.listEntry_eq hitem (by omega), hzero, List.drop_zero,
              showFirst]
            cases fileType e.entry.fatAttribute with
            | some type => rfl
            | none =>
                dsimp only
                obtain ⟨fuel, rfl⟩ : ∃ f, fuel = f + e.count := ⟨fuel - e.count, by omega⟩
                rw [add32_of_lt (by omega), listLoop_skip
                  (fun j hj => LongName.not_first hitem hj) (by omega) (by omega),
                  ih (by rw [Nat.add_assoc, Nat.add_comm 1]; exact hrest) (by omega) (by omega)
                    (by omega), List.drop_zero]
          · rw [if_neg hzero, add32_of_lt (a := n) (by omega), add32_of_lt (by omega),
              sub32_of_le (by omega) hoffect,
              ih (by rw [Nat.add_assoc]; exact hrest) (by omega) (by omega) (by omega)]
            obtain ⟨offect, rfl⟩ : ∃ o, offect = o + 1 := ⟨offect - 1, by omega⟩
            rw [List.drop_succ_cons, Nat.add_sub_cancel]

end Loop

/-! ## The files a listing returns -/

namespace LongName

variable {e : LongName}

theorem length_pos (e : LongName) : 0 < e.length := by
  have hlast := e.last_pos
  unfold length
  omega

theorem readable_iff : e.Readable ↔
    (e.part (e.count - 1)).copyLen = (e.part (e.count - 1)).partLen ∧
      ∀ i, i + 1 < e.count → 12 ≤ (e.part i).copyLen := by
  unfold Readable
  rw [FatDir.copyLen_eq_iff]
  refine and_congr_right fun _ => forall_congr' fun i => forall_congr' fun _ => ?_
  rw [FatDir.le_copyLen_iff (by decide)]

/-- A name without null bytes is copied as it is. -/
theorem isFile_of_readable (h : e.Readable) (file : FatFile) :
    e.IsFile ((e.shown file).setType e.type) := by
  obtain ⟨hlast, hothers⟩ := readable_iff.1 h
  have hlength := e.length_le
  refine ⟨?_, fun k hk => ?_, FatFile.type_setType _ _⟩
  · rw [FatFile.nameLen_setType, nameLen_shown, hlast]
    rfl
  · have hpart := (e.part (e.count - 1)).partLen_le
    have hpos := e.count_pos
    unfold length at hk
    rw [FatFile.setType_of_lt _ _ (by omega)]
    refine if_pos ⟨by omega, ?_⟩
    by_cases hend : k / 13 = e.count - 1
    · rw [hend, hlast]
      omega
    · have hother := hothers (k / 13) (by omega)
      omega

/-- A name that is copied as it is, whatever the file held before, has no null bytes. -/
theorem readable_of_isFile {type : FileType}
    (h : ∀ file, e.IsFile ((e.shown file).setType type)) : e.Readable := by
  have hlength := e.length_le
  have hlen := (h fun _ => 0).1
  rw [FatFile.nameLen_setType, nameLen_shown, length] at hlen
  refine readable_iff.2 ⟨by omega, fun i hi => ?_⟩
  by_contra hlt
  obtain ⟨k, hk⟩ : ∃ k, i * 13 + ((e.part i).copyLen + 1) = k := ⟨_, rfl⟩
  have hdiv : k / 13 = i := by omega
  have hmod : k % 13 = (e.part i).copyLen + 1 := by omega
  -- the byte behind the null byte is the one that the file held before
  have hbyte := (h fun _ => ~~~ (BitVec.ofNat 8 (e.char k))).2.1 k (by unfold length; omega)
  rw [FatFile.setType_of_lt _ _ (by omega), shown, hdiv, hmod, if_neg (by omega),
    FatFile.setNameLen_of_lt _ _ (by omega)] at hbyte
  have hnot := congrArg BitVec.toNat hbyte
  rw [BitVec.toNat_not] at hnot
  have hlt := (BitVec.ofNat 8 (e.char k)).isLt
  omega

end LongName

/-- The answer of a listing for the number `n`: the file of the `n`-th long name, or an empty
name when there is none. -/
def Returned (l : List LongName) (n : ℕ) (out : FatFile) : Prop :=
  match l[n]? with
  | some e => e.IsFile out
  | none => out.nameLen = 0

section Listed

variable {fileType : ℕ → Option FileType} {l : List LongName}

/-- The names that a listing finds from a place on: none, or the first that it accepts. -/
theorem showFirst_cases (fileType : ℕ → Option FileType) (l : List LongName) :
    (∀ file, (showFirst fileType l file).nameLen = 0) ∨
      ∃ j e, l[j]? = some e ∧
        ∀ file, ∃ file', showFirst fileType l file = showFirst fileType (l.drop j) file' := by
  induction l with
  | nil => exact Or.inl fun file => file.nameLen_setNameLen (by decide)
  | cons e l ih =>
      by_cases hnone : fileType e.entry.fatAttribute = none
      · rcases ih with hempty | ⟨j, e', hj, hsame⟩
        · refine Or.inl fun file => ?_
          rw [showFirst, hnone]
          exact hempty _
        · refine Or.inr ⟨j + 1, e', hj, fun file => ?_⟩
          obtain ⟨file', hfile⟩ := hsame (e.shown file)
          refine ⟨file', ?_⟩
          rw [showFirst, hnone]
          exact hfile
      · exact Or.inr ⟨0, e, rfl, fun file => ⟨file, rfl⟩⟩

theorem returned_of_accepted
    (htype : ∀ e : LongName, ∀ type, fileType e.entry.fatAttribute = some type → type = e.type)
    (h : ∀ e ∈ l, fileType e.entry.fatAttribute ≠ none ∧ e.Readable) (n : ℕ) (file : FatFile) :
    Returned l n (showFirst fileType (l.drop n) file) := by
  unfold Returned
  rcases hn : l[n]? with _ | e
  · rw [List.drop_eq_nil_of_le (List.getElem?_eq_none_iff.1 hn)]
    exact file.nameLen_setNameLen (by decide)
  · obtain ⟨hlt, heq⟩ := List.getElem?_eq_some_iff.1 hn
    obtain ⟨haccepted, hreadable⟩ := h e (heq ▸ List.getElem_mem hlt)
    obtain ⟨type, htype'⟩ := Option.ne_none_iff_exists'.1 haccepted
    rw [List.drop_eq_getElem_cons hlt, heq, showFirst, htype']
    dsimp only
    rw [htype e type htype']
    exact LongName.isFile_of_readable hreadable file

/-- Where every name is returned once and no two are the same, all are accepted and
readable. -/
theorem accepted_of_returned (hdistinct : l.Pairwise fun e e' => ¬ e.SameName e')
    (h : ∀ n < l.length, ∀ file, Returned l n (showFirst fileType (l.drop n) file)) :
    ∀ e ∈ l, fileType e.entry.fatAttribute ≠ none ∧ e.Readable := by
  intro e he
  obtain ⟨i, hlt, heq⟩ := List.getElem_of_mem he
  have hfile (file : FatFile) : e.IsFile (showFirst fileType (l.drop i) file) := by
    have hreturned := h i hlt file
    unfold Returned at hreturned
    rw [List.getElem?_eq_getElem hlt, heq] at hreturned
    exact hreturned
  have hdrop : l.drop i = e :: l.drop (i + 1) := by
    rw [List.drop_eq_getElem_cons hlt, heq]
  rcases htype : fileType e.entry.fatAttribute with _ | type
  · -- the name that is returned in its place comes later and has the same bytes
    exfalso
    have hskip (file : FatFile) : e.IsFile (showFirst fileType (l.drop (i + 1)) (e.shown file)) := by
      have hfirst := hfile file
      rw [hdrop, showFirst, htype] at hfirst
      exact hfirst
    rcases showFirst_cases fileType (l.drop (i + 1)) with hempty | ⟨j, e', hj, hsame⟩
    · have hlen := (hskip (fun _ => 0)).1
      rw [hempty] at hlen
      exact absurd hlen (Nat.ne_of_lt e.length_pos)
    · rw [List.getElem?_drop] at hj
      obtain ⟨hlt', heq'⟩ := List.getElem?_eq_some_iff.1 hj
      obtain ⟨file', hfile'⟩ := hsame (e.shown (fun _ => 0))
      have hother := h (i + 1 + j) hlt' file'
      unfold Returned at hother
      rw [hj, ← List.drop_drop, ← hfile'] at hother
      have hthis := hskip (fun _ => 0)
      have hne := List.pairwise_iff_getElem.1 hdistinct i (i + 1 + j) hlt hlt' (by omega)
      rw [heq, heq'] at hne
      refine hne ⟨hthis.1.symm.trans hother.1, fun k hk => ?_⟩
      have hlen : e.length = e'.length := hthis.1.symm.trans hother.1
      rw [← hthis.2.1 k hk, ← hother.2.1 k (by omega)]
  · have hshown (file : FatFile) : e.IsFile ((e.shown file).setType type) := by
      have hfirst := hfile file
      rw [hdrop, showFirst, htype] at hfirst
      exact hfirst
    exact ⟨by simp, LongName.readable_of_isFile hshown⟩

end Listed

/-! ## `fat_readdir` -/

theorem rootFileType_eq {e : LongName} {type : FileType}
    (h : rootFileType e.entry.fatAttribute = some type) : type = e.type := by
  have hall : ∀ attr < 0x40, rootFileType attr = none ∨
      rootFileType attr = some (if attr &&& attrDir ≠ 0 then .dir else .reg) := by
    decide
  rcases hall _ e.fileAttr.1 with hnone | hsome
  · rw [hnone] at h
    cases h
  · rw [hsome] at h
    exact (Option.some.inj h).symm

theorem dirFileType_eq {e : LongName} {type : FileType}
    (h : dirFileType e.entry.fatAttribute = some type) : type = e.type := by
  have hall : ∀ attr < 0x40, dirFileType attr = none ∨
      dirFileType attr = some (if attr &&& attrDir ≠ 0 then .dir else .reg) := by
    decide
  rcases hall _ e.fileAttr.1 with hnone | hsome
  · rw [hnone] at h
    cases h
  · rw [hsome] at h
    exact (Option.some.inj h).symm

namespace FatVolume

/-- A path leads to a directory of `count` entries: to the root, or to a directory below it. -/
def Opens (diskRead : DiskRead) (fat : FatVolume) (fuel : ℕ) (dir : FatDir)
    (path : List (BitVec 8)) (entry : ℕ → FatDir) (fileType : ℕ → Option FileType) (count : ℕ) :
    Prop :=
  ∃ file, fat.getPath diskRead fuel dir dir path = some file ∧
    (file.reserved = 0x2f ∧ entry = fat.readRootDirEntry diskRead dir ∧
        fileType = rootFileType ∧ fat.rootCount diskRead fuel = some count ∨
      file.reserved ≠ 0x2f ∧ file.dosName0 ≠ flagDel ∧ file.fileAttribute &&& attrDir ≠ 0 ∧
        entry = fat.readDirEntry diskRead dir (fat.fileCluster file) ∧ fileType = dirFileType ∧
        fat.dirCount diskRead fuel (fat.fileCluster file) = some count)

variable {diskRead : DiskRead} {fat : FatVolume} {fuel : ℕ} {dir : FatDir}
  {path : List (BitVec 8)} {entry : ℕ → FatDir} {fileType : ℕ → Option FileType} {count : ℕ}

theorem dirCount_lt {fat : Fat} {cluster : ℕ} (h : fat.dirCount diskRead fuel cluster = some count) :
    count < 2 ^ 27 := by
  obtain ⟨n, -, hcount⟩ := Option.map_eq_some_iff.1 h
  have hlt := Word.mul_lt 32 fat.clusterSize n
  rw [← hcount]
  lia

theorem Opens.count_lt (h : fat.Opens diskRead fuel dir path entry fileType count) :
    count < 2 ^ 27 := by
  obtain ⟨file, -, ⟨-, -, -, hcount⟩ | ⟨-, -, -, -, -, hcount⟩⟩ := h
  · unfold rootCount at hcount
    split at hcount
    · have hlt := fat.rootDirCount_lt
      have heq := Option.some.inj hcount
      omega
    · exact dirCount_lt hcount
  · exact dirCount_lt hcount

theorem Opens.type_eq (h : fat.Opens diskRead fuel dir path entry fileType count) (e : LongName)
    (type : FileType) (htype : fileType e.entry.fatAttribute = some type) : type = e.type := by
  obtain ⟨file, -, ⟨-, -, hfile, -⟩ | ⟨-, -, -, -, hfile, -⟩⟩ := h
  · rw [hfile] at htype
    exact rootFileType_eq htype
  · rw [hfile] at htype
    exact dirFileType_eq htype

theorem Opens.fatReaddir_eq (h : fat.Opens diskRead fuel dir path entry fileType count)
    (file : FatFile) (n : ℕ) :
    fat.fatReaddir diskRead fuel dir file path n =
      some (listLoop entry fileType count count 0 n file) := by
  obtain ⟨found, hpath, ⟨hroot, hentry, htype, hcount⟩ |
    ⟨hroot, hlive, hdir, hentry, htype, hcount⟩⟩ := h
  · unfold fatReaddir readRootDir
    rw [hpath]
    dsimp only
    rw [if_pos hroot, hcount, hentry, htype]
    rfl
  · unfold fatReaddir readDir
    rw [hpath]
    dsimp only
    rw [if_neg hroot, if_neg (by simp only [not_or]; exact ⟨hlive, hdir⟩), hcount, hentry, htype]
    rfl

/-- Calls of `fat_readdir` with the numbers from zero on return the files of a list, each once
and in this order, and then nothing. -/
def Lists (diskRead : DiskRead) (fat : FatVolume) (fuel : ℕ) (dir : FatDir)
    (path : List (BitVec 8)) (l : List LongName) : Prop :=
  ∀ n < 2 ^ 32, ∀ file, ∃ out, fat.fatReaddir diskRead fuel dir file path n = some out ∧
    Returned l n out

theorem length_longNames_le (items : List DirItem) :
    (items.filterMap DirItem.longName).length ≤ (items.flatMap DirItem.entries).length := by
  induction items with
  | nil => exact Nat.le_refl 0
  | cons item items ih =>
      rw [List.flatMap_cons, List.length_append, List.filterMap_cons]
      cases item with
      | deleted e h =>
          change _ ≤ 1 + _
          exact Nat.le_add_left_of_le ih
      | short e h =>
          change _ ≤ 1 + _
          exact Nat.le_add_left_of_le ih
      | long e =>
          change _ + 1 ≤ e.entries.length + _
          rw [e.entries_length]
          omega

/-- The files of a well-formed directory are listed when the listing accepts the attribute of
each and copies its name, and where no two names are the same only then. -/
theorem lists_iff (hopens : fat.Opens diskRead fuel dir path entry fileType count)
    {items : List DirItem} (hitems : HoldsItems entry count items) :
    ((∀ e ∈ items.filterMap DirItem.longName,
        fileType e.entry.fatAttribute ≠ none ∧ e.Readable) →
      fat.Lists diskRead fuel dir path (items.filterMap DirItem.longName)) ∧
    ((items.filterMap DirItem.longName).Pairwise (fun e e' => ¬ e.SameName e') →
      fat.Lists diskRead fuel dir path (items.filterMap DirItem.longName) →
        ∀ e ∈ items.filterMap DirItem.longName,
          fileType e.entry.fatAttribute ≠ none ∧ e.Readable) := by
  have hlt := hopens.count_lt
  have hreaddir (n : ℕ) (hn : n < 2 ^ 32) (file : FatFile) :
      fat.fatReaddir diskRead fuel dir file path n =
        some (showFirst fileType ((items.filterMap DirItem.longName).drop n) file) := by
    rw [hopens.fatReaddir_eq, listLoop_eq (by omega) items hitems.holds
      (by rw [Nat.zero_add]; exact hitems.count_eq) (Nat.le_of_eq hitems.count_eq.symm) hn]
  constructor
  · intro haccepted n hn file
    exact ⟨_, hreaddir n hn file, returned_of_accepted hopens.type_eq haccepted n file⟩
  · intro hdistinct hlists
    have hlength := length_longNames_le items
    have hcount := hitems.count_eq
    refine accepted_of_returned hdistinct fun n hn file => ?_
    obtain ⟨out, hout, hreturned⟩ := hlists n (by omega) file
    rw [hreaddir n (by omega) file] at hout
    rw [Option.some.inj hout]
    exact hreturned

end FatVolume

/-! ## A directory of one file -/

section Example

/-- A volume of sectors of 64 bytes, whose root holds the directory `d` with the file `f`. -/
def tinyVolume : FatVolume where
  diskId := 0
  fatType := .fat16
  sectorSize := 64
  clusterSectors := 1
  startCluster := 128
  fatSector := 0
  sectorSize_pos := by decide
  sectorSize_lt := by decide
  clusterSectors_pos := smallFat.clusterSectors_pos
  clusterSectors_lt := smallFat.clusterSectors_lt
  rootDirCluster := 0
  rootDirSector := 1
  rootDirCount := 2
  rootDirCount_lt := by decide

/-- The disk of the volume, where the file has the given attribute. -/
def tinyDisk (attr : BitVec 8) : Bytes
  | 4 => 0xff
  | 5 => 0xff
  | 64 => 0x41
  | 65 => 0x64
  | 75 => 0x0f
  | 96 => 0x44
  | 107 => 0x10
  | 122 => 0x02
  | 128 => 0x41
  | 129 => 0x66
  | 139 => 0x0f
  | 160 => 0x46
  | 171 => attr
  | _ => 0

def tinyDiskRead (attr : BitVec 8) : DiskRead := fun _ count offect =>
  some ((List.range count).map fun i => tinyDisk attr (offect + i))

/-- The entries of the directory `d`. -/
def tinyEntry (attr : BitVec 8) : ℕ → FatDir :=
  tinyVolume.readDirEntry (tinyDiskRead attr) (fun _ => 0) 2

theorem tinyVolume_opens {attr : BitVec 8} (hattr : attr = 0x20 ∨ attr = 0x00) :
    tinyVolume.Opens (tinyDiskRead attr) 2 (fun _ => 0) [0x64] (tinyEntry attr) dirFileType 2 := by
  have hfacts : (tinyVolume.getPath (tinyDiskRead attr) 2 (fun _ => 0) (fun _ => 0) [0x64]).map
      (fun file => (file.reserved, file.dosName0, file.fileAttribute, tinyVolume.fileCluster file)) =
        some (0, 0x44, 0x10, 2) := by
    rcases hattr with rfl | rfl <;> with_unfolding_all decide
  obtain ⟨file, hpath, hfile⟩ := Option.map_eq_some_iff.1 hfacts
  obtain ⟨hreserved, hname, hdir, hcluster⟩ :
      file.reserved = 0 ∧ file.dosName0 = 0x44 ∧ file.fileAttribute = 0x10 ∧
        tinyVolume.fileCluster file = 2 := by
    simpa only [Prod.mk.injEq] using hfile
  refine ⟨file, hpath, Or.inr ⟨by rw [hreserved]; decide, by rw [hname]; decide,
    by rw [hdir]; decide, by rw [hcluster]; rfl, rfl, ?_⟩⟩
  rw [hcluster]
  rcases hattr with rfl | rfl <;> with_unfolding_all decide

/-- The file `f`, with or without the archive bit. -/
def tinyFile (attr : BitVec 8) (hattr : attr = 0x20 ∨ attr = 0x00) : LongName where
  count := 1
  part := fun _ => tinyEntry attr 0
  entry := tinyEntry attr 1
  count_pos := smallFat.clusterSectors_pos
  isLfn := by rcases hattr with rfl | rfl <;> with_unfolding_all decide
  order := by rcases hattr with rfl | rfl <;> with_unfolding_all decide
  full := fun i hi => absurd hi (by omega)
  last_pos := by rcases hattr with rfl | rfl <;> with_unfolding_all decide
  length_le := by rcases hattr with rfl | rfl <;> with_unfolding_all decide
  live := by rcases hattr with rfl | rfl <;> with_unfolding_all decide
  fileAttr := by rcases hattr with rfl | rfl <;> with_unfolding_all decide

theorem tinyEntry_holds {attr : BitVec 8} (hattr : attr = 0x20 ∨ attr = 0x00) :
    HoldsItems (tinyEntry attr) 2 [.long (tinyFile attr hattr)] :=
  ⟨rfl, rfl⟩

theorem lists_tinyFile :
    tinyVolume.Lists (tinyDiskRead 0x20) 2 (fun _ => 0) [0x64] [tinyFile 0x20 (Or.inl rfl)] := by
  refine (FatVolume.lists_iff (tinyVolume_opens (Or.inl rfl)) (tinyEntry_holds (Or.inl rfl))).1
    fun e he => ?_
  obtain rfl : e = tinyFile 0x20 (Or.inl rfl) := List.mem_singleton.1 he
  exact ⟨by with_unfolding_all decide, by with_unfolding_all decide, fun i hi => absurd hi (by change ¬ i + 1 < 1; omega)⟩

/-- A file without the archive bit is not listed in a directory below the root. -/
theorem file_not_listed :
    tinyVolume.Opens (tinyDiskRead 0x00) 2 (fun _ => 0) [0x64] (tinyEntry 0x00) dirFileType 2 ∧
      HoldsItems (tinyEntry 0x00) 2 [.long (tinyFile 0x00 (Or.inr rfl))] ∧
      (tinyVolume.fatReaddir (tinyDiskRead 0x00) 2 (fun _ => 0) (fun _ => 0) [0x64] 0).map
        FatFile.nameLen = some 0 ∧
      ¬ tinyVolume.Lists (tinyDiskRead 0x00) 2 (fun _ => 0) [0x64]
        [tinyFile 0x00 (Or.inr rfl)] := by
  have hlen : (tinyVolume.fatReaddir (tinyDiskRead 0x00) 2 (fun _ => 0) (fun _ => 0) [0x64]
      0).map FatFile.nameLen = some 0 := by
    with_unfolding_all decide
  refine ⟨tinyVolume_opens (Or.inr rfl), tinyEntry_holds (Or.inr rfl), hlen, fun hlists => ?_⟩
  obtain ⟨out, hout, hfile⟩ := hlists 0 (by decide) (fun _ => 0)
  rw [hout] at hlen
  have hname : out.nameLen = (tinyFile 0x00 (Or.inr rfl)).length := hfile.1
  have hpos := (tinyFile 0x00 (Or.inr rfl)).length_pos
  have hzero : out.nameLen = 0 := Option.some.inj hlen
  omega

end Example

end BitchKernel
