import BitchKernel.Fs.FatList

/-!
# Opening what a listing returns

A listing copies the characters of a run of long-name entries to bytes, in any order of the
parts and cut off at a zero byte, and a search compares bytes with signed value with the
characters of a run whose parts are numbered. A listed name is found again where the two agree
on the run, and what the listing calls a regular file can be read where it has the archive bit.
-/

namespace BitchKernel

open Lib

/-! ## The name of a run with numbered parts -/

section Run

variable {entry : ℕ → FatDir} {fileType : ℕ → Option FileType} {n : ℕ}

theorem runPart_last (entry : ℕ → FatDir) (n : ℕ) :
    runPart entry n (runCount entry n - 1) = entry n := by
  unfold runPart
  rw [Nat.sub_self, Nat.add_zero]

/-- The entries behind the first put their characters at their places, from the last but one
down. -/
theorem IsRun.foldl_put (hrun : IsRun entry n) (hn : n + 64 < 2 ^ 32) {m : ℕ}
    (hm : m + 1 ≤ runCount entry n) (file : FatFile) (k : ℕ) :
    (List.range' 0 m).foldl (fun file j => (entry (add32 (n + 1) j)).put file) file k =
      if (runCount entry n - 1 - m) * 13 ≤ k ∧ k < (runCount entry n - 1) * 13 ∧
          k % 13 ≤ (runPart entry n (k / 13)).copyLen then
        BitVec.ofNat 8 (runChar entry n k)
      else file k := by
  have hle := runCount_le entry n
  induction m with
  | zero => exact (if_neg (by omega)).symm
  | succ m ih =>
      obtain ⟨i, hi⟩ : ∃ i, runCount entry n - 1 - (m + 1) = i := ⟨_, rfl⟩
      have hat : entry (add32 (n + 1) m) = runPart entry n i := by
        rw [add32_of_lt (by omega), runPart]
        exact congrArg entry (by omega)
      have hplace : (runPart entry n i).place = i * 13 := by
        have hnumber := (hrun.part i (by omega)).2.2
        rw [FatDir.place_of_pos (by omega), hnumber, Nat.add_sub_cancel]
      rw [List.range'_concat, List.foldl_append, List.foldl_cons, List.foldl_nil, Nat.zero_add,
        Nat.one_mul, hat, FatDir.put, hplace, ih (by omega), hi]
      by_cases hpart : i * 13 ≤ k ∧ k < i * 13 + 13
      · have hdiv : k / 13 = i := by omega
        have hmod : k - i * 13 = k % 13 := by omega
        rw [if_neg (c := (runCount entry n - 1 - m) * 13 ≤ k ∧ _) (by omega), runChar, hdiv, hmod]
        exact if_congr (by omega) rfl rfl
      · rw [if_neg (by omega)]
        exact if_congr (by omega) rfl rfl

theorem IsRun.putRun_apply (hrun : IsRun entry n) (hn : n + 64 < 2 ^ 32) (file : FatFile) (k : ℕ) :
    putRun entry n file k =
      if k < (runCount entry n - 1) * 13 ∧ k % 13 ≤ (runPart entry n (k / 13)).copyLen then
        BitVec.ofNat 8 (runChar entry n k)
      else FatFile.setNameLen ((entry n).put file)
        ((runCount entry n - 1) * 13 + (entry n).copyLen) k := by
  have hle := runCount_le entry n
  have hpos := hrun.count_pos
  obtain ⟨-, -, hsub, -⟩ := runNext n hle
  have hcarried : carried entry n = runCount entry n - 1 := by
    have hall : ∀ j, 0 ≤ j → j < 0 + (runCount entry n - 1) →
        decide (¬ Continues entry (add32 (n + 1) j)) = false := by
      intro j _ hj
      have hpart := hrun.part (runCount entry n - 1 - (j + 1)) (by omega)
      unfold runPart at hpart
      rw [show n + (runCount entry n - 1 - (runCount entry n - 1 - (j + 1))) = n + 1 + j by omega]
        at hpart
      rw [add32_of_lt (by omega)]
      exact decide_eq_false (not_not.2 ⟨hpart.1, hpart.2.1⟩)
    unfold carried
    rw [hsub hpos, (scanUntil_eq_iff _ _ _).2 hall, Nat.zero_add]
  have hcopy : (entry n).copyLen ≤ 13 := scanUntil_le _ 13 0
  have hplace : (entry n).place = (runCount entry n - 1) * 13 := FatDir.place_of_pos hpos
  rw [putRun, hcarried, hrun.foldl_put hn (by omega), hplace, add32_of_lt (by omega)]
  exact if_congr (by omega) rfl rfl

/-- The length that a run of numbered parts leaves, if its parts lie in front of the field. -/
theorem IsRun.nameLen_putRun (hrun : IsRun entry n) (hn : n + 64 < 2 ^ 32)
    (hcount : runCount entry n ≤ 20) (file : FatFile) :
    (putRun entry n file).nameLen = (runCount entry n - 1) * 13 + (entry n).copyLen := by
  have hcopy : (entry n).copyLen ≤ 13 := scanUntil_le _ 13 0
  rw [← FatFile.nameLen_setNameLen ((entry n).put file)
    (n := (runCount entry n - 1) * 13 + (entry n).copyLen) (by omega)]
  refine Bytes.le_congr fun i hi => ?_
  rw [hrun.putRun_apply hn, if_neg (by omega)]

theorem IsRun.putRun_name (hrun : IsRun entry n) (hn : n + 64 < 2 ^ 32) (file : FatFile) {k : ℕ}
    (hk : k < 256) :
    putRun entry n file k =
      if k < runCount entry n * 13 ∧ k % 13 ≤ (runPart entry n (k / 13)).copyLen then
        BitVec.ofNat 8 (runChar entry n k)
      else file k := by
  have hpos := hrun.count_pos
  have hplace : (entry n).place = (runCount entry n - 1) * 13 := FatDir.place_of_pos hpos
  rw [hrun.putRun_apply hn, FatFile.setNameLen_of_lt _ _ hk, FatDir.put, hplace]
  by_cases hlast : k < (runCount entry n - 1) * 13
  · rw [if_neg (c := (runCount entry n - 1) * 13 ≤ k ∧ _) (by omega)]
    exact if_congr (by omega) rfl rfl
  · rw [if_neg (by omega)]
    by_cases hpart : k < runCount entry n * 13
    · have hdiv : k / 13 = runCount entry n - 1 := by omega
      have hmod : k - (runCount entry n - 1) * 13 = k % 13 := by omega
      rw [runChar, hdiv, runPart_last, hmod]
      exact if_congr (by omega) rfl rfl
    · rw [if_neg (by omega), if_neg (by omega)]

end Run

/-! ## Names that are found again -/

theorem toInt_eq_iff {b : BitVec 8} {c : ℕ} : b.toInt = c ↔ c < 0x80 ∧ b = BitVec.ofNat 8 c := by
  have hlt := b.isLt
  rw [BitVec.toInt_eq_toNat_cond]
  constructor
  · intro h
    split at h
    · rename_i hsmall
      have hc : b.toNat = c := by omega
      refine ⟨by omega, ?_⟩
      rw [← hc, BitVec.ofNat_toNat, BitVec.setWidth_eq]
    · omega
  · rintro ⟨hc, rfl⟩
    rw [BitVec.toNat_ofNat, Nat.mod_eq_of_lt (by omega), if_pos (by omega)]

theorem FatDir.partLen_eq {e : FatDir} {m : ℕ} (hm : m ≤ 13) (hchar : ∀ k < m, e.lfnChar k ≠ 0)
    (hends : m = 13 ∨ e.lfnChar m = 0) : e.partLen = m := by
  have hle := e.partLen_le
  by_contra hne
  by_cases hlt : e.partLen < m
  · exact hchar _ hlt (lfnChar_partLen (by omega))
  · rcases hends with h13 | hnull
    · omega
    · have hpass := not_stop_of_lt_scanUntil (fun n => decide (e.lfnChar n = 0)) (Nat.zero_le m)
        (by change m < e.partLen; omega)
      exact of_decide_eq_false hpass hnull

/-- The listing and the search agree on a run that comes to a file which holds the bytes
`before`: its parts are numbered, its last part is not empty, its characters fit the name and are
those of the ASCII code, the bytes of the name behind a zero character are there already, and what
is listed as a regular file has the archive bit. -/
structure Agrees (entry : ℕ → FatDir) (fileType : ℕ → Option FileType) (n : ℕ) (before : FatFile) :
    Prop where
  number : ∀ i, i + 1 < runCount entry n → (runPart entry n i).order &&& 0x3f = i + 1
  last_pos : 0 < (entry n).partLen
  fits : runLength entry n ≤ 256
  ascii : ∀ k < runLength entry n, runChar entry n k < 0x80
  kept : ∀ k < (runCount entry n - 1) * 13, (runPart entry n (k / 13)).copyLen < k % 13 →
    before k = BitVec.ofNat 8 (runChar entry n k)
  archive : fileType (runShort entry n).fatAttribute = some .reg →
    (runShort entry n).fatAttribute &&& attrArchive ≠ 0

/-- The characters of a run at the places of `name_len` are none that a length has there, which is
at most 819. -/
def PlainBehind (entry : ℕ → FatDir) (n : ℕ) : Prop :=
  ∀ k, k = 256 ∨ k = 257 → k < runCount entry n * 13 →
    runChar entry n k = 0 ∨ 4 ≤ runChar entry n k

section Agrees

variable {entry : ℕ → FatDir} {fileType : ℕ → Option FileType} {n count : ℕ} {before : FatFile}

theorem Spells.congr {name name' : ℕ → BitVec 8} {len p : ℕ} (h : ∀ k < len, name k = name' k) :
    Spells entry name len p ↔ Spells entry name' len p := by
  constructor
  · exact fun hs => ⟨hs.count, fun k hk => by rw [← h k hk]; exact hs.char k hk, hs.ends⟩
  · exact fun hs => ⟨hs.count, fun k hk => by rw [h k hk]; exact hs.char k hk, hs.ends⟩

/-- A name that a listed run spells fits: behind it stands its length, which is no character of
the run. -/
theorem nameLen_le_of_spells {name : FatFile} (hplain : PlainBehind entry n)
    (hspells : Spells entry name name.nameLen n) : name.nameLen ≤ 256 := by
  by_contra hlong
  have hle := runCount_le entry n
  have hcount := hspells.count
  obtain ⟨len, hlen⟩ : ∃ len, name.nameLen = len := ⟨_, rfl⟩
  rw [hlen] at hlong hcount hspells
  have hbytes : (name 256).toNat + 256 * ((name 257).toNat + 256 * ((name 258).toNat +
      256 * ((name 259).toNat + 256 * 0))) = len := hlen
  have h256 := (name 256).isLt
  have h257 := (name 257).isLt
  by_cases hone : len = 257
  · have hchar := (toInt_eq_iff.1 (hspells.char 256 (by omega)))
    have hnat := congrArg BitVec.toNat hchar.2
    rw [BitVec.toNat_ofNat, Nat.mod_eq_of_lt (by omega)] at hnat
    have hno := hplain 256 (.inl rfl) (by omega)
    omega
  · have hchar := (toInt_eq_iff.1 (hspells.char 257 (by omega)))
    have hnat := congrArg BitVec.toNat hchar.2
    rw [BitVec.toNat_ofNat, Nat.mod_eq_of_lt (by omega)] at hnat
    have hno := hplain 257 (.inr rfl) (by omega)
    omega

theorem Agrees.of_spells (hn : n + 64 < 2 ^ 32) (hrun : IsRun entry n)
    (hplain : PlainBehind entry n)
    (hspells : Spells entry (putRun entry n before) (putRun entry n before).nameLen n)
    (harchive : fileType (runShort entry n).fatAttribute = some .reg →
      (runShort entry n).fatAttribute &&& attrArchive ≠ 0) :
    Agrees entry fileType n before := by
  have hle := nameLen_le_of_spells hplain hspells
  have hpos := hrun.count_pos
  have hcount := hspells.count
  have hlength := hrun.nameLen_putRun hn (by omega) before
  have hcopyLe : (entry n).copyLen ≤ 13 := scanUntil_le _ 13 0
  have hcopyPos : 0 < (entry n).copyLen := by omega
  have hchar : ∀ k < (entry n).copyLen, (entry n).lfnChar k ≠ 0 := by
    intro k hk hzero
    have hne := (FatDir.le_copyLen_iff hcopyLe).1 (Nat.le_refl _) k hk
    rw [hzero] at hne
    exact hne rfl
  have hpart : (entry n).partLen = (entry n).copyLen := by
    refine FatDir.partLen_eq hcopyLe hchar ?_
    by_cases hfull : (entry n).copyLen = 13
    · exact .inl hfull
    · have hends := hspells.ends
      rw [hlength, if_pos (by omega),
        show ((runCount entry n - 1) * 13 + (entry n).copyLen) % 13 = (entry n).copyLen by omega]
        at hends
      exact .inr hends
  have hrunLength : runLength entry n = (putRun entry n before).nameLen := by
    rw [hlength, runLength, hpart]
  refine ⟨fun i hi => (hrun.part i hi).2.2, by omega, by omega, fun k hk => ?_,
    fun k hk hcut => ?_, harchive⟩
  · rw [hrunLength] at hk
    exact (toInt_eq_iff.1 (hspells.char k hk)).1
  · have heq := (toInt_eq_iff.1 (hspells.char k (by omega))).2
    rwa [hrun.putRun_name hn _ (by omega), if_neg (by omega)] at heq

end Agrees

/-! ## The two directions together -/

/-- `read_file` answers `-1` to every request for a file. -/
def Fat.Rejects (diskRead : DiskRead) (fat : Fat) (file : FatStdDir) : Prop :=
  ∀ fuel buf count offect, fat.readFile diskRead fuel file buf count offect = some (-1, buf)

namespace FatVolume

variable (diskRead : DiskRead) (fat : FatVolume) (fuel : ℕ) (e : FatDir)

/-- The listing of the root, or of the directory of a short entry. -/
def listFile (file : FatFile) : Option FatStdDir → ℕ → Option FatFile
  | none, n => fat.readRootDir diskRead fuel e file n
  | some dir, n => fat.readDir diskRead fuel e file dir n

/-- The search in the root, or in the directory of a short entry. -/
def lookup : Option FatStdDir → List (BitVec 8) → Option FatStdDir
  | none, name => fat.getRootFile diskRead fuel e name
  | some dir, name => fat.getFile diskRead fuel e dir name

/-- The entries of a directory, the attributes that its listing accepts, and the number of its
entries. -/
def Views (dir : Option FatStdDir) (entry : ℕ → FatDir) (fileType : ℕ → Option FileType)
    (count : ℕ) : Prop :=
  match dir with
  | none =>
      entry = fat.readRootDirEntry diskRead e ∧ fileType = rootFileType ∧
        fat.rootCount diskRead fuel = some count
  | some dir =>
      (dir.dosName0 ≠ flagDel ∧ dir.fileAttribute &&& attrDir ≠ 0) ∧
        entry = fat.readDirEntry diskRead e (fat.fileCluster dir) ∧ fileType = dirFileType ∧
        fat.dirCount diskRead fuel (fat.fileCluster dir) = some count

/-- The name of a listed file leads to its short entry, and a regular file can be read. -/
def Found (dir : Option FatStdDir) (out : FatFile) (short : FatStdDir) : Prop :=
  fat.lookup diskRead fuel e dir ((List.range out.nameLen).map out) = some short ∧
    (out.type = .reg → ¬ fat.Rejects diskRead short)

variable {diskRead fat fuel e} {dir : Option FatStdDir} {entry : ℕ → FatDir}
  {fileType : ℕ → Option FileType} {count : ℕ}

theorem Views.listFile_eq (h : fat.Views diskRead fuel e dir entry fileType count) (file : FatFile)
    (n : ℕ) : fat.listFile diskRead fuel e file dir n =
      some (listLoop entry fileType count count 0 n file) := by
  cases dir with
  | none =>
      obtain ⟨rfl, rfl, hcount⟩ := h
      unfold listFile readRootDir
      rw [hcount]
      rfl
  | some dir =>
      obtain ⟨hdir, rfl, rfl, hcount⟩ := h
      change fat.readDir diskRead fuel e file dir n = _
      unfold readDir
      rw [if_neg (by simp only [not_or]; exact hdir), hcount]
      rfl

theorem Views.lookup_eq (h : fat.Views diskRead fuel e dir entry fileType count)
    (name : List (BitVec 8)) : fat.lookup diskRead fuel e dir name =
      some (searchLoop entry (name.getD · 0) name.length count count 0 e) := by
  cases dir with
  | none =>
      obtain ⟨rfl, rfl, hcount⟩ := h
      unfold lookup getRootFile
      rw [hcount]
      rfl
  | some dir =>
      obtain ⟨hdir, rfl, rfl, hcount⟩ := h
      change fat.getFile diskRead fuel e dir name = _
      unfold getFile
      rw [if_neg (by simp only [not_or]; exact hdir), hcount]
      rfl

theorem Views.count_lt (h : fat.Views diskRead fuel e dir entry fileType count) :
    count < 2 ^ 27 := by
  cases dir with
  | none =>
      have hcount := h.2.2
      unfold rootCount at hcount
      split at hcount
      · have hlt := fat.rootDirCount_lt
        have heq := Option.some.inj hcount
        omega
      · exact dirCount_lt hcount
  | some dir => exact dirCount_lt h.2.2.2

end FatVolume

/-! ## A root directory of one file -/

section Example

/-- The disk of the small volume where the root holds a file instead of the directory `d`, with
the given attribute and the given character as its name. -/
def rootDisk (attr char : BitVec 8) : Bytes :=
  Function.update (Function.update (tinyDisk 0x20) 107 attr) 65 char

end Example

end BitchKernel
