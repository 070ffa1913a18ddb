import BitchKernel.Fs.FatPath
import Mathlib.Data.Finset.Card
import Mathlib.Data.Finset.Range

/-!
# Which lookups come to an end

`dir_cluster` follows the links of the allocation table until one of them ends the chain, and
everything else that a lookup or a listing does is bounded. So a path is followed to its end
exactly when no directory on the way has a chain that comes to a cluster again.
-/

namespace BitchKernel

open Lib

namespace Fat

variable (diskRead : DiskRead) (fat : Fat)

/-- The clusters that `dir_cluster` comes to. -/
def dirChain (cluster : ℕ) : ℕ → ℕ
  | 0 => cluster
  | i + 1 => fat.nextCluster diskRead (dirChain cluster i)

/-- The chain comes to a cluster again, before a link ends it. -/
def Loops (cluster : ℕ) : Prop :=
  ∃ i j, i < j ∧ fat.dirChain diskRead cluster i = fat.dirChain diskRead cluster j ∧
    ∀ k, 0 < k → k ≤ j → fat.dirChain diskRead cluster k ≠ 0

variable {diskRead fat}

theorem nextCluster_lt (cluster : ℕ) : fat.nextCluster diskRead cluster < 2 ^ 28 := by
  unfold nextCluster
  dsimp only
  split
  · split <;> omega
  · split <;> omega

theorem dirChain_succ (cluster i : ℕ) :
    fat.dirChain diskRead cluster (i + 1) =
      fat.dirChain diskRead (fat.nextCluster diskRead cluster) i := by
  induction i with
  | zero => rfl
  | succ i ih => rw [dirChain, ih, dirChain]

/-- A chain that comes to a cluster again goes round for ever. -/
theorem Loops.ne_zero {cluster : ℕ} (h : fat.Loops diskRead cluster) {k : ℕ} (hk : 0 < k) :
    fat.dirChain diskRead cluster k ≠ 0 := by
  obtain ⟨i, j, hij, heq, hne⟩ := h
  have hround : ∀ m, fat.dirChain diskRead cluster (i + m) =
      fat.dirChain diskRead cluster (j + m) := by
    intro m
    induction m with
    | zero => exact heq
    | succ m ih => rw [← Nat.add_assoc, ← Nat.add_assoc, dirChain, dirChain, ih]
  induction k using Nat.strong_induction_on with
  | h k ih =>
      by_cases hle : k ≤ j
      · exact hne k hk hle
      · have hback := hround (k - j)
        rw [Nat.add_sub_cancel' (by omega)] at hback
        rw [← hback]
        exact ih (i + (k - j)) (by omega) (by omega)

/-- There are finitely many clusters, so a chain without end comes to one of them again. -/
theorem loops_of_ne_zero {cluster : ℕ}
    (h : ∀ k, 0 < k → fat.dirChain diskRead cluster k ≠ 0) : fat.Loops diskRead cluster := by
  have hmaps : ∀ k ∈ Finset.range (2 ^ 28 + 1),
      fat.dirChain diskRead cluster (k + 1) ∈ Finset.range (2 ^ 28) := by
    intro k _
    rw [Finset.mem_range, dirChain]
    exact nextCluster_lt _
  obtain ⟨i, -, j, -, hne, heq⟩ := Finset.exists_ne_map_eq_of_card_lt_of_maps_to
    (by rw [Finset.card_range, Finset.card_range]; exact Nat.lt_succ_self _) hmaps
  rcases Nat.lt_or_gt_of_ne hne with hlt | hlt
  · exact ⟨i + 1, j + 1, by omega, heq, fun k hk _ => h k hk⟩
  · exact ⟨j + 1, i + 1, by omega, heq.symm, fun k hk _ => h k hk⟩

theorem dirClusterLoop_none_iff {fuel cluster n : ℕ} :
    fat.dirClusterLoop diskRead fuel cluster n = none ↔
      ∀ k < fuel, fat.dirChain diskRead cluster (k + 1) ≠ 0 := by
  induction fuel generalizing cluster n with
  | zero => exact iff_of_true rfl (fun k hk => absurd hk (Nat.not_lt_zero k))
  | succ fuel ih =>
      rw [dirClusterLoop]
      by_cases hnext : fat.nextCluster diskRead cluster = 0
      · rw [if_neg (fun hne => hne hnext)]
        exact iff_of_false (by simp) (fun h => h 0 (Nat.zero_lt_succ _) hnext)
      · rw [if_pos hnext, ih]
        constructor
        · intro h k hk
          cases k with
          | zero => exact hnext
          | succ k =>
              rw [dirChain_succ]
              exact h k (by omega)
        · intro h k hk
          rw [← dirChain_succ]
          exact h (k + 1) (by omega)

theorem dirClusterLoop_mono {fuel fuel' cluster n m : ℕ} (hle : fuel ≤ fuel')
    (h : fat.dirClusterLoop diskRead fuel cluster n = some m) :
    fat.dirClusterLoop diskRead fuel' cluster n = some m := by
  induction fuel generalizing fuel' cluster n with
  | zero => cases h
  | succ fuel ih =>
      obtain ⟨fuel', rfl⟩ : ∃ f, fuel' = f + 1 := ⟨fuel' - 1, by omega⟩
      rw [dirClusterLoop] at h ⊢
      split
      · rename_i hnext
        rw [if_pos hnext] at h
        exact ih (by omega) h
      · rename_i hnext
        rwa [if_neg hnext] at h

theorem dirCount_mono {fuel fuel' cluster m : ℕ} (hle : fuel ≤ fuel')
    (h : fat.dirCount diskRead fuel cluster = some m) :
    fat.dirCount diskRead fuel' cluster = some m := by
  obtain ⟨n, hn, hm⟩ := Option.map_eq_some_iff.1 h
  exact Option.map_eq_some_iff.2 ⟨n, dirClusterLoop_mono hle hn, hm⟩

theorem dirCount_ends_iff {cluster : ℕ} :
    (∃ fuel, fat.dirCount diskRead fuel cluster ≠ none) ↔ ¬ fat.Loops diskRead cluster := by
  constructor
  · rintro ⟨fuel, hfuel⟩ hloops
    refine hfuel ?_
    unfold dirCount dirCluster
    rw [dirClusterLoop_none_iff.2 fun k _ => hloops.ne_zero (Nat.zero_lt_succ k)]
    rfl
  · intro hloops
    by_contra hnone
    refine hloops (loops_of_ne_zero fun k hk => ?_)
    have hk' : fat.dirCount diskRead k cluster = none := by
      by_contra hsome
      exact hnone ⟨k, hsome⟩
    unfold dirCount dirCluster at hk'
    rw [Option.map_eq_none_iff, dirClusterLoop_none_iff] at hk'
    obtain ⟨j, rfl⟩ : ∃ j, k = j + 1 := ⟨k - 1, by omega⟩
    exact hk' j (Nat.lt_succ_self j)

end Fat

namespace FatVolume

variable (diskRead : DiskRead) (fat : FatVolume) (e : FatDir)

/-- The chain that a lookup or a listing in a directory follows, where it follows one. -/
def followed (dir : FatStdDir) : Option ℕ :=
  if dir.reserved = 0x2f then
    match fat.fatType with
    | .fat16 => none
    | .fat32 => some (fat.rootDirCluster % 2 ^ 32)
  else if dir.dosName0 = flagDel ∨ dir.fileAttribute &&& attrDir = 0 then none
  else some (fat.fileCluster dir)

/-- The chains that `get_path` follows for a list of components. -/
inductive Follows : FatStdDir → List (List (BitVec 8)) → ℕ → Prop
  | here {file : FatStdDir} {cluster : ℕ} (name : List (BitVec 8)) (names : List (List (BitVec 8)))
      (h : fat.followed file = some cluster) : Follows file (name :: names) cluster
  | next {file file' : FatStdDir} {cluster fuel : ℕ} {name : List (BitVec 8)}
      {names : List (List (BitVec 8))}
      (hfile : fat.getComponent diskRead fuel e file name = some file')
      (hlive : file'.dosName0 ≠ flagDel) (h : Follows file' names cluster) :
      Follows file (name :: names) cluster

/-- The listing of the directory that `get_path` answers. -/
def list (fuel : ℕ) (file : FatFile) (dir : FatStdDir) (n : ℕ) : Option FatFile :=
  if dir.reserved = 0x2f then fat.readRootDir diskRead fuel e file n
  else fat.readDir diskRead fuel e file dir n

variable {diskRead fat e}

/-- Something that counts the clusters of the chain of a directory, and then ends, ends where the
chain does not loop. -/
theorem ends_iff_of_map {α : Type*} {dir : FatStdDir} (f : ℕ → Option α)
    (root : ℕ → α) (below : ℕ → α) (failed : α)
    (h : ∀ fuel, f fuel =
      if dir.reserved = 0x2f then (fat.rootCount diskRead fuel).map root
      else if dir.dosName0 = flagDel ∨ dir.fileAttribute &&& attrDir = 0 then some failed
      else (fat.dirCount diskRead fuel (fat.fileCluster dir)).map below) :
    (∃ fuel, f fuel ≠ none) ↔
      ∀ cluster, fat.followed dir = some cluster → ¬ fat.Loops diskRead cluster := by
  simp only [h]
  unfold followed
  by_cases hroot : dir.reserved = 0x2f
  · simp only [if_pos hroot, ne_eq, Option.map_eq_none_iff]
    unfold rootCount
    cases fat.fatType with
    | fat16 => exact iff_of_true ⟨0, by simp⟩ (fun cluster h => by cases h)
    | fat32 =>
        dsimp only
        refine Fat.dirCount_ends_iff.trans ⟨fun hends cluster heq => ?_, fun hends => hends _ rfl⟩
        rwa [← Option.some.inj heq]
  · simp only [if_neg hroot]
    by_cases hdir : dir.dosName0 = flagDel ∨ dir.fileAttribute &&& attrDir = 0
    · simp only [if_pos hdir]
      exact iff_of_true ⟨0, by simp⟩ (fun cluster h => by cases h)
    · simp only [if_neg hdir, ne_eq, Option.map_eq_none_iff]
      refine Fat.dirCount_ends_iff.trans ⟨fun hends cluster heq => ?_, fun hends => hends _ rfl⟩
      rwa [← Option.some.inj heq]

theorem list_ends_iff {file : FatFile} {dir : FatStdDir} {n : ℕ} :
    (∃ fuel, fat.list diskRead e fuel file dir n ≠ none) ↔
      ∀ cluster, fat.followed dir = some cluster → ¬ fat.Loops diskRead cluster :=
  ends_iff_of_map _ _ _ _ fun _ => rfl

theorem getComponent_ends_iff {file : FatStdDir} {name : List (BitVec 8)} (hname : name ≠ []) :
    (∃ fuel, fat.getComponent diskRead fuel e file name ≠ none) ↔
      ∀ cluster, fat.followed file = some cluster → ¬ fat.Loops diskRead cluster := by
  refine ends_iff_of_map _ (fun count => searchLoop (fat.readRootDirEntry diskRead e)
    (name.getD · 0) name.length count count 0 e) (fun count => searchLoop
    (fat.readDirEntry diskRead e (fat.fileCluster file)) (name.getD · 0) name.length count count 0 e)
    (FatDir.delete e) fun fuel => ?_
  unfold getComponent
  rw [if_neg fun hlen => hname (List.length_eq_zero_iff.1 hlen)]
  rfl

theorem getComponent_mono {fuel fuel' : ℕ} (hle : fuel ≤ fuel') {file file' : FatStdDir}
    {name : List (BitVec 8)} (h : fat.getComponent diskRead fuel e file name = some file') :
    fat.getComponent diskRead fuel' e file name = some file' := by
  unfold getComponent at h ⊢
  split
  · rename_i hlen
    rwa [if_pos hlen] at h
  · rename_i hlen
    rw [if_neg hlen] at h
    split
    · rename_i hroot
      rw [if_pos hroot] at h
      obtain ⟨count, hcount, hfile⟩ := Option.map_eq_some_iff.1 h
      refine Option.map_eq_some_iff.2 ⟨count, ?_, hfile⟩
      unfold rootCount at hcount ⊢
      split at hcount
      · exact hcount
      · exact Fat.dirCount_mono hle hcount
    · rename_i hroot
      rw [if_neg hroot] at h
      unfold getFile at h ⊢
      split
      · rename_i hdir
        rwa [if_pos hdir] at h
      · rename_i hdir
        rw [if_neg hdir] at h
        obtain ⟨count, hcount, hfile⟩ := Option.map_eq_some_iff.1 h
        exact Option.map_eq_some_iff.2 ⟨count, Fat.dirCount_mono hle hcount, hfile⟩

theorem lookupAll_mono {fuel fuel' : ℕ} (hle : fuel ≤ fuel') {file file' : FatStdDir}
    {names : List (List (BitVec 8))}
    (h : fat.lookupAll diskRead fuel e file names = some file') :
    fat.lookupAll diskRead fuel' e file names = some file' := by
  induction names generalizing file with
  | nil => exact h
  | cons name names ih =>
      rw [lookupAll] at h ⊢
      cases hfound : fat.getComponent diskRead fuel e file name with
      | none =>
          rw [hfound] at h
          cases h
      | some found =>
          rw [hfound] at h
          rw [getComponent_mono hle hfound]
          dsimp only at h ⊢
          split
          · rename_i hdel
            rwa [if_pos hdel] at h
          · rename_i hdel
            rw [if_neg hdel] at h
            exact ih h

theorem lookupAll_ends_iff {names : List (List (BitVec 8))} (hnames : ∀ name ∈ names, name ≠ [])
    (file : FatStdDir) :
    (∃ fuel, fat.lookupAll diskRead fuel e file names ≠ none) ↔
      ∀ cluster, fat.Follows diskRead e file names cluster → ¬ fat.Loops diskRead cluster := by
  induction names generalizing file with
  | nil => exact iff_of_true ⟨0, by simp [lookupAll]⟩ (fun cluster h => by cases h)
  | cons name names ih =>
      have hname := hnames name List.mem_cons_self
      have hrest := ih fun n hn => hnames n (List.mem_cons_of_mem _ hn)
      constructor
      · rintro ⟨fuel, hfuel⟩ cluster hfollows
        rw [lookupAll] at hfuel
        cases hfound : fat.getComponent diskRead fuel e file name with
        | none =>
            rw [hfound] at hfuel
            exact absurd rfl hfuel
        | some found =>
            rw [hfound] at hfuel
            dsimp only at hfuel
            cases hfollows with
            | here _ _ h =>
                exact (getComponent_ends_iff hname).1 ⟨fuel, by rw [hfound]; simp⟩ cluster h
            | @next _ file' _ fuel' _ _ hfile hlive h =>
                -- the answer of a lookup does not depend on the rounds it was given
                have hsame : file' = found := by
                  have hleft := getComponent_mono (Nat.le_max_left fuel fuel') hfound
                  have hright := getComponent_mono (Nat.le_max_right fuel fuel') hfile
                  exact Option.some.inj (hright.symm.trans hleft)
                subst hsame
                rw [if_neg hlive] at hfuel
                exact (hrest file').1 ⟨fuel, hfuel⟩ cluster h
      · intro hall
        have hfirst : ∃ fuel, fat.getComponent diskRead fuel e file name ≠ none :=
          (getComponent_ends_iff hname).2 fun cluster h => hall cluster (.here name names h)
        obtain ⟨fuel, hfuel⟩ := hfirst
        obtain ⟨found, hfound⟩ := Option.ne_none_iff_exists'.1 hfuel
        by_cases hdel : found.dosName0 = flagDel
        · refine ⟨fuel, ?_⟩
          rw [lookupAll, hfound]
          dsimp only
          rw [if_pos hdel]
          simp
        · obtain ⟨fuel', hfuel'⟩ := (hrest found).2 fun cluster h =>
            hall cluster (.next hfound hdel h)
          obtain ⟨answer, hanswer⟩ := Option.ne_none_iff_exists'.1 hfuel'
          refine ⟨max fuel fuel', ?_⟩
          rw [lookupAll, getComponent_mono (Nat.le_max_left fuel fuel') hfound]
          dsimp only
          rw [if_neg hdel, lookupAll_mono (Nat.le_max_right fuel fuel') hanswer]
          simp

/-- `get_path` ends exactly when no chain that it follows loops, and the listing of the directory
it answers exactly when the chain of this directory does not. -/
theorem lookups_end_iff (diskRead : DiskRead) (fat : FatVolume) (e : FatDir) (file : FatStdDir)
    (path : List (BitVec 8)) :
    ((∃ fuel, fat.getPath diskRead fuel e file path ≠ none) ↔
      ∀ cluster, fat.Follows diskRead e (Function.update file 12 0x2f) (components path) cluster →
        ¬ fat.Loops diskRead cluster) ∧
    ∀ fuel dir, fat.getPath diskRead fuel e file path = some dir → ∀ out n,
      ((∃ fuel', fat.list diskRead e fuel' out dir n ≠ none) ↔
        ∀ cluster, fat.followed dir = some cluster → ¬ fat.Loops diskRead cluster) := by
  refine ⟨?_, fun fuel dir _ out n => list_ends_iff⟩
  simp only [getPath_eq]
  exact lookupAll_ends_iff (fun name hname => (ne_nil_of_mem_components hname).1) _

end FatVolume

/-! ## A directory whose chain loops -/

section Example

/-- The disk of the small volume where the link of the directory `d` is its own cluster. -/
def loopDisk : Bytes := Function.update (Function.update (tinyDisk 0x20) 4 2) 5 0

def loopDiskRead : DiskRead := fun _ count offect =>
  some ((List.range count).map fun i => loopDisk (offect + i))

/-- The lookup of `d/f` does not end. -/
theorem lookup_without_end :
    ¬ ∃ fuel, tinyVolume.getPath loopDiskRead fuel (fun _ => 0) (fun _ => 0) [0x64, 0x2f, 0x66] ≠
      none := by
  have hcomponents : components [0x64, 0x2f, 0x66] = [[0x64], [0x66]] := by with_unfolding_all decide
  have hfacts : (tinyVolume.getComponent loopDiskRead 0 (fun _ => 0)
      (Function.update (fun _ => 0) 12 0x2f) [0x64]).map
        (fun file => (file.dosName0, tinyVolume.followed file)) = some (0x44, some 2) := by
    with_unfolding_all decide
  obtain ⟨file, hfile, hd⟩ := Option.map_eq_some_iff.1 hfacts
  rw [Prod.mk.injEq] at hd
  simp only [FatVolume.getPath_eq, hcomponents]
  rw [FatVolume.lookupAll_ends_iff (by simp)]
  intro hends
  refine hends 2 (.next hfile (by rw [hd.1]; decide) (.here [0x66] [] hd.2))
    ⟨0, 1, by decide, by with_unfolding_all decide, fun k hk hk1 => ?_⟩
  obtain rfl : k = 1 := by omega
  with_unfolding_all decide

end Example

end BitchKernel
