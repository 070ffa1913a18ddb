import BitchKernel.Fs.FatOpen

/-!
# What a search finds

A search of a name is the scan that tests every entry in turn and takes the first run that spells
the name. Neither reads the checksum that ties a run to its short entry, nor the end of the
directory: what a search returns is tied to its run where the first run that spells the name is.
-/

namespace BitchKernel

open Lib

/-! ## The plain scan -/

section Scan

variable (entry : ℕ → FatDir) (name : ℕ → BitVec 8) (len n : ℕ)

theorem isRun_iff : IsRun entry n ↔
    Begins entry n ∧ 0 < runCount entry n ∧
      (∀ i < runCount entry n - 1, (runPart entry n i).IsLfn ∧
        (runPart entry n i).order &&& flagLast = 0 ∧
        (runPart entry n i).order &&& 0x3f = i + 1) ∧
      (runShort entry n).IsShort :=
  ⟨fun h => ⟨h.begins, h.count_pos, fun i hi => h.part i (by omega), h.short⟩,
    fun h => ⟨h.1, h.2.1, fun i hi => h.2.2.1 i (by omega), h.2.2.2⟩⟩

theorem spells_iff : Spells entry name len n ↔
    runCount entry n = (len + 12) / 13 ∧
      (∀ k < len, (name k).toInt = runChar entry n k) ∧
      (entry n).lfnChar (if len % 13 ≠ 0 then len % 13 else 13) = 0 :=
  ⟨fun h => ⟨h.count, h.char, h.ends⟩, fun h => ⟨h.1, h.2.1, h.2.2⟩⟩

instance : Decidable (IsRun entry n) := decidable_of_iff _ (isRun_iff entry n).symm

instance : Decidable (Spells entry name len n) :=
  decidable_of_iff _ (spells_iff entry name len n).symm

/-- A complete run that spells a name begins at an entry. -/
def Matches : Prop := IsRun entry n ∧ Spells entry name len n

instance : Decidable (Matches entry name len n) := inferInstanceAs (Decidable (_ ∧ _))

/-- The scan that tests every entry in turn: the first at which a run spells the name. -/
def plainScan (count : ℕ) : Option ℕ :=
  (List.range count).find? fun n => decide (Matches entry name len n)

variable {entry name len n} {count : ℕ}

theorem plainScan_eq_some_iff : plainScan entry name len count = some n ↔
    n < count ∧ Matches entry name len n ∧ ∀ q < n, ¬ Matches entry name len q := by
  unfold plainScan
  rw [List.find?_range_eq_some]
  simp only [decide_eq_true_eq, List.mem_range, Bool.not_eq_true', decide_eq_false_iff_not]
  exact and_left_comm

theorem plainScan_eq_none_iff :
    plainScan entry name len count = none ↔ ∀ q < count, ¬ Matches entry name len q := by
  unfold plainScan
  rw [List.find?_range_eq_none]
  simp only [Bool.not_eq_true', decide_eq_false_iff_not]

end Scan

theorem searchRun_eq_plainScan {entry : ℕ → FatDir} {name : ℕ → BitVec 8} {len count : ℕ}
    (hlen : 0 < len) (hlen' : len < 2 ^ 32) (hcount : count + 64 < 2 ^ 32) :
    searchRun entry name len count count 0 = plainScan entry name len count := by
  obtain ⟨p, -, hp, hmatch, hfirst, hrun⟩ | ⟨hnone, hrun⟩ :=
    @searchRun_spec entry name len 0 count hlen hlen' hcount count (by omega)
  · rw [hrun, eq_comm, plainScan_eq_some_iff]
    exact ⟨hp, hmatch, fun q hq hq' =>
      hfirst q (Nat.zero_le q) hq hq'⟩
  · rw [hrun, eq_comm, plainScan_eq_none_iff]
    exact fun q hq hq' => hnone q (Nat.zero_le q) hq hq'

theorem Matches.count_eq {entry : ℕ → FatDir} {name : ℕ → BitVec 8} {len n : ℕ} (hlen : 0 < len)
    (hlen' : len < 2 ^ 32) (h : Matches entry name len n) :
    add32 len 12 / 13 = (len + 12) / 13 ∧ (len + 12) / 13 ≤ 63 := by
  have hhead := SearchHead.of_spells hlen hlen' h
  have hcount := h.2.count
  have hle := runCount_le entry n
  rcases hhead.count_cases hlen' with hc | hc
  · exact hc
  · omega

namespace FatVolume

variable {diskRead : DiskRead} {fat : FatVolume} {fuel : ℕ} {e : FatDir}
  {dir : Option FatStdDir} {entry : ℕ → FatDir} {fileType : ℕ → Option FileType} {count : ℕ}

/-- A lookup returns the short entry behind the first run that spells the name, and an entry that
is marked deleted where there is no such run: it is the plain scan. -/
theorem lookup_eq_plainScan (hview : fat.Views diskRead fuel e dir entry fileType count)
    {name : List (BitVec 8)} (hname : 0 < name.length) (hlen : name.length < 2 ^ 32) :
    ∃ short : FatStdDir, fat.lookup diskRead fuel e dir name = some short ∧
      ((∃ n, plainScan entry (name.getD · 0) name.length count = some n ∧
          short = entry (n + (name.length + 12) / 13)) ∨
        plainScan entry (name.getD · 0) name.length count = none ∧
          short.dosName0 = flagDel) := by
  have hcount := hview.count_lt
  refine ⟨_, hview.lookup_eq name, ?_⟩
  rw [← searchRun_eq_plainScan hname hlen (by omega)]
  obtain ⟨p, hrun, hloop⟩ | ⟨hrun, e', hloop⟩ :=
    @searchLoop_searchRun entry (name.getD · 0) name.length count count 0 e
  · have hfound := hrun
    rw [searchRun_eq_plainScan hname hlen (by omega), plainScan_eq_some_iff] at hfound
    obtain ⟨hparts, hle⟩ := hfound.2.1.count_eq hname hlen
    refine .inl ⟨p, hrun, ?_⟩
    rw [hloop, hparts, add32_of_lt (by omega)]
  · refine .inr ⟨hrun, ?_⟩
    rw [hloop]
    rfl

end FatVolume

/-! ## The short entry of a run -/

/-- The loop of `lfn_checksum` over the first `n` of its bytes. -/
def lfnChecksumLoop (p : ℕ → BitVec 8) : (n : ℕ) → BitVec 8
  | 0 => 0
  | n + 1 =>
      let sum := lfnChecksumLoop p n
      (if sum &&& 1 ≠ 0 then 0x80 else 0) + (sum >>> 1) + p n

/-- `lfn_checksum` of the eleven bytes of a short name. -/
def lfnChecksum (p : ℕ → BitVec 8) : BitVec 8 := lfnChecksumLoop p 11

/-- `entry.dir.name.checksum`. -/
def FatDir.checksum (entry : FatDir) : BitVec 8 := entry 13

/-- A run is orphaned: one of its parts has the checksum of another short entry. -/
def Orphaned (entry : ℕ → FatDir) (n : ℕ) : Prop :=
  ∃ j < runCount entry n, (entry (n + j)).checksum ≠ lfnChecksum (runShort entry n)

/-- A run is stale: it ends behind the end of the directory, an entry with the first byte zero. -/
def Stale (entry : ℕ → FatDir) (n : ℕ) : Prop :=
  ∃ m ≤ n + runCount entry n, (entry m).order = 0

instance (entry : ℕ → FatDir) (n : ℕ) : Decidable (Orphaned entry n) :=
  inferInstanceAs (Decidable (∃ j < _, _))

instance (entry : ℕ → FatDir) (n : ℕ) : Decidable (Stale entry n) :=
  inferInstanceAs (Decidable (∃ m ≤ _, _))

namespace FatVolume

/-- What a lookup returns is tied to the run at which its search returned: the entry stands in
front of the first entry with the first byte zero, and the parts carry its checksum. -/
def LookupTied (diskRead : DiskRead) (fat : FatVolume) (fuel : ℕ) (e : FatDir)
    (dir : Option FatStdDir) (entry : ℕ → FatDir) (count : ℕ) (name : List (BitVec 8)) : Prop :=
  ∀ short : FatStdDir, fat.lookup diskRead fuel e dir name = some short →
    short.dosName0 ≠ flagDel →
    ∃ n k, searchRun entry (name.getD · 0) name.length count count 0 = some n ∧
      k = n + (name.length + 12) / 13 ∧ short = entry k ∧
      (∀ m ≤ k, (entry m).order ≠ 0) ∧
      ∀ j, n ≤ j → j < k → (entry j).checksum = lfnChecksum short

variable {diskRead : DiskRead} {fat : FatVolume} {fuel : ℕ} {e : FatDir}
  {dir : Option FatStdDir} {entry : ℕ → FatDir} {fileType : ℕ → Option FileType} {count : ℕ}

/-- What a lookup returns is tied to its run where the first run that spells the name is neither
orphaned nor stale. -/
theorem lookup_tied_iff (hview : fat.Views diskRead fuel e dir entry fileType count)
    {name : List (BitVec 8)} (hname : 0 < name.length) (hlen : name.length < 2 ^ 32) :
    fat.LookupTied diskRead fuel e dir entry count name ↔
      ∀ n, plainScan entry (name.getD · 0) name.length count = some n →
        ¬ Orphaned entry n ∧ ¬ Stale entry n := by
  have hcount := hview.count_lt
  unfold LookupTied
  rw [searchRun_eq_plainScan hname hlen (by omega)]
  have hlookup := hview.lookup_eq name
  obtain ⟨p, hrun, hloop⟩ | ⟨hrun, e', hloop⟩ :=
    @searchLoop_searchRun entry (name.getD · 0) name.length count count 0 e
  · rw [searchRun_eq_plainScan hname hlen (by omega)] at hrun
    obtain ⟨hp, hmatch, -⟩ := plainScan_eq_some_iff.1 hrun
    obtain ⟨hparts, hle⟩ := hmatch.count_eq hname hlen
    obtain ⟨hisRun, hspells⟩ := hmatch
    have hk : runCount entry p = (name.length + 12) / 13 := hspells.count
    rw [hloop, hparts, add32_of_lt (by omega), ← hk] at hlookup
    constructor
    · intro htied n hn
      rw [hrun, Option.some.injEq] at hn
      subst hn
      obtain ⟨n, k, hn, rfl, -, hend, hsum⟩ := htied _ hlookup hisRun.short.1
      rw [hrun, Option.some.injEq] at hn
      subst hn
      rw [← hk] at hend hsum
      refine ⟨?_, ?_⟩
      · rintro ⟨j, hj, hne⟩
        exact hne (hsum (p + j) (by omega) (by omega))
      · rintro ⟨m, hm, hzero⟩
        exact hend m hm hzero
    · intro htied short hshort _
      rw [hlookup, Option.some.injEq] at hshort
      subst hshort
      obtain ⟨horphan, hstale⟩ := htied p hrun
      refine ⟨p, _, hrun, rfl, by rw [hk], fun m hm hzero => ?_, fun j hj hlt => ?_⟩
      · exact hstale ⟨m, by omega, hzero⟩
      · by_contra hne
        refine horphan ⟨j - p, by omega, ?_⟩
        rw [show p + (j - p) = j by omega]
        exact hne
  · rw [searchRun_eq_plainScan hname hlen (by omega)] at hrun
    rw [hloop] at hlookup
    refine iff_of_true (fun short hshort hlive => ?_) (fun n hn => ?_)
    · rw [hlookup, Option.some.injEq] at hshort
      subst hshort
      exact absurd rfl hlive
    · rw [hrun] at hn
      cases hn

end FatVolume

/-! ## A root directory of one file -/

section Example

/-- The disk with the file `f` in the root, where its part has the given checksum. -/
def sumDiskRead (sum : BitVec 8) : DiskRead := fun _ count offect =>
  some ((List.range count).map fun i => Function.update (rootDisk 0x20 0x66) 77 sum (offect + i))

def sumEntry (sum : BitVec 8) : ℕ → FatDir :=
  tinyVolume.readRootDirEntry (sumDiskRead sum) fun _ => 0

theorem sumEntry_views (sum : BitVec 8) :
    tinyVolume.Views (sumDiskRead sum) 2 (fun _ => 0) none (sumEntry sum) rootFileType 2 :=
  ⟨rfl, rfl, rfl⟩

/-- The file `f` is found by its name. -/
theorem lookup_eq_plainScan_file :
    tinyVolume.lookup (sumDiskRead 0x11) 2 (fun _ => 0) none [0x66] = some (sumEntry 0x11 1) := by
  have hscan : plainScan (sumEntry 0x11) (([0x66] : List (BitVec 8)).getD · 0) 1 2 = some 0 := by
    with_unfolding_all decide
  obtain ⟨short, hlookup, ⟨n, hn, rfl⟩ | ⟨hn, -⟩⟩ :=
    FatVolume.lookup_eq_plainScan (sumEntry_views 0x11)
      (by decide : 0 < ([0x66] : List (BitVec 8)).length) (by decide)
  · rw [List.length_singleton, hscan, Option.some.injEq] at hn
    subst hn
    exact hlookup
  · rw [List.length_singleton, hscan] at hn
    cases hn

/-- The part of the file `f` carries the checksum of its short entry. -/
theorem lookup_tied_file :
    tinyVolume.LookupTied (sumDiskRead 0x11) 2 (fun _ => 0) none (sumEntry 0x11) 2 [0x66] := by
  refine (FatVolume.lookup_tied_iff (sumEntry_views 0x11) (by decide) (by decide)).2 fun n hn => ?_
  have hscan : plainScan (sumEntry 0x11) (([0x66] : List (BitVec 8)).getD · 0) 1 2 = some 0 := by
    with_unfolding_all decide
  rw [List.length_singleton, hscan, Option.some.injEq] at hn
  subst hn
  decide +kernel

/-- The file `f` is found where its part carries the checksum of another short entry. -/
theorem lookup_not_tied :
    ¬ tinyVolume.LookupTied (sumDiskRead 0x00) 2 (fun _ => 0) none (sumEntry 0x00) 2 [0x66] := by
  intro htied
  have hrun : searchRun (sumEntry 0x00) (([0x66] : List (BitVec 8)).getD · 0) 1 2 2 0 = some 0 := by
    with_unfolding_all decide
  have hlookup := (sumEntry_views 0x00).lookup_eq [0x66]
  rw [List.length_singleton] at hlookup
  obtain ⟨p, hp, hloop⟩ | ⟨hp, -⟩ := @searchLoop_searchRun (sumEntry 0x00)
    (([0x66] : List (BitVec 8)).getD · 0) 1 2 2 0 (fun _ => 0)
  · rw [hrun, Option.some.injEq] at hp
    subst hp
    rw [hloop] at hlookup
    obtain ⟨n, k, hn, rfl, -, -, hsum⟩ := htied _ hlookup (by with_unfolding_all decide)
    rw [List.length_singleton, hrun, Option.some.injEq] at hn
    subst hn
    revert hsum
    decide +kernel
  · rw [hrun] at hp
    cases hp

end Example

end BitchKernel
