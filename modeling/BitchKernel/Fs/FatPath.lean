import BitchKernel.Fs.FatOpen

/-!
# Paths

`get_path` looks up the components of a path one after the other, and tells the root from an
entry by the byte `reserved`, which entries on the disk also have. It is the walk through the
directories as long as no lookup answers an entry with this byte.
-/

namespace BitchKernel

open Lib

def components (path : List (BitVec 8)) : List (List (BitVec 8)) :=
  (path.splitOn 0x2f).filter fun name => !name.isEmpty

theorem components_of_notMem {path : List (BitVec 8)} (h : (0x2f : BitVec 8) ∉ path) :
    components path = if path = [] then [] else [path] := by
  unfold components
  rw [List.splitOn_eq_singleton h]
  by_cases hnil : path = []
  · rw [if_pos hnil, hnil]
    rfl
  · rw [if_neg hnil, List.filter_cons_of_pos (by simpa using hnil), List.filter_nil]

theorem components_slash {name : List (BitVec 8)} (h : (0x2f : BitVec 8) ∉ name)
    (path : List (BitVec 8)) :
    components (name ++ 0x2f :: path) =
      if name = [] then components path else name :: components path := by
  unfold components
  rw [List.splitOn_append_cons_self_of_not_mem h]
  by_cases hnil : name = []
  · rw [if_pos hnil, hnil]
    rfl
  · rw [if_neg hnil, List.filter_cons_of_pos (by simpa using hnil)]

theorem ne_nil_of_mem_components {path name : List (BitVec 8)} (h : name ∈ components path) :
    name ≠ [] ∧ (0x2f : BitVec 8) ∉ name := by
  obtain ⟨hmem, hne⟩ := List.mem_filter.1 h
  refine ⟨by simpa using hne, fun hslash => ?_⟩
  induction hn : path.count 0x2f generalizing path with
  | zero =>
      rw [List.splitOn_eq_singleton (List.count_eq_zero.1 hn), List.mem_singleton] at hmem
      rw [hmem] at hslash
      exact List.count_eq_zero.1 hn hslash
  | succ n ih =>
      obtain ⟨pre, rest, hpre, hpath⟩ :
          ∃ pre rest, (0x2f : BitVec 8) ∉ pre ∧ path = pre ++ 0x2f :: rest := by
        have hin : (0x2f : BitVec 8) ∈ path := List.count_pos_iff.1 (by omega)
        obtain ⟨pre, rest, hpath, hpre⟩ := List.eq_append_cons_of_mem hin
        exact ⟨pre, rest, hpre, hpath⟩
      rw [hpath, List.splitOn_append_cons_self_of_not_mem hpre, List.mem_cons] at hmem
      rcases hmem with rfl | hmem
      · exact hpre hslash
      · refine ih (List.mem_filter.2 ⟨hmem, hne⟩) hmem ?_
        rw [hpath, List.count_append, List.count_cons_self, List.count_eq_zero.2 hpre] at hn
        omega

def slashed : List (List (BitVec 8)) → List (BitVec 8)
  | [] => []
  | name :: names => name ++ 0x2f :: slashed names

theorem components_slashed {names : List (List (BitVec 8))}
    (h : ∀ name ∈ names, name ≠ [] ∧ (0x2f : BitVec 8) ∉ name) :
    components (slashed names) = names := by
  induction names with
  | nil => rfl
  | cons name names ih =>
      obtain ⟨hne, hslash⟩ := h name List.mem_cons_self
      rw [slashed, components_slash hslash, if_neg hne,
        ih fun name' hname' => h name' (List.mem_cons_of_mem _ hname')]

inductive PathResult
  | failed
  | root
  | found (file : FatStdDir)

namespace PathResult

/-- What the callers of `get_path` take its answer for. -/
def ofAnswer (file : FatStdDir) : PathResult :=
  if file.reserved = 0x2f then .root else if file.dosName0 = flagDel then .failed else .found file

def ofLookup : Option FatStdDir → PathResult
  | none => .root
  | some file => if file.dosName0 = flagDel then .failed else .found file

theorem ofAnswer_of_reserved {file : FatStdDir} (h : file.reserved = 0x2f) :
    ofAnswer file = .root := if_pos h

theorem ofAnswer_eq_ofLookup_iff {file : FatStdDir} :
    ofAnswer file = ofLookup (some file) ↔ file.reserved ≠ 0x2f := by
  constructor
  · intro h hroot
    rw [ofAnswer_of_reserved hroot, ofLookup] at h
    split at h <;> cases h
  · exact fun h => if_neg h

end PathResult

namespace FatVolume

variable (diskRead : DiskRead) (fat : FatVolume) (fuel : ℕ) (e : FatDir)

def fatRead (path : List (BitVec 8)) (buf : Bytes) (count offect : ℕ) : Option (ℤ × Bytes) :=
  match fat.getPath diskRead fuel e e path with
  | none => none
  | some file =>
      if file.reserved = 0x2f then some (-1, buf)
      else fat.readFile diskRead fuel file buf count offect

/-- The walk through the directories, component by component, until a lookup fails. A lookup in
what is no directory fails. -/
def walk : Option FatStdDir → List (List (BitVec 8)) → Option (Option FatStdDir)
  | dir, [] => some dir
  | dir, name :: names =>
      match fat.lookup diskRead fuel e dir name with
      | none => none
      | some file => if file.dosName0 = flagDel then some (some file) else walk (some file) names

/-- The answer of `get_path` is where the walk along the components ends. -/
def Resolves (file : FatStdDir) (path : List (BitVec 8)) : Prop :=
  (fat.getPath diskRead fuel e file path).map PathResult.ofAnswer =
    (fat.walk diskRead fuel e none (components path)).map PathResult.ofLookup

/-- The components as `get_path` looks them up. -/
def lookupAll : FatStdDir → List (List (BitVec 8)) → Option FatStdDir
  | file, [] => some file
  | file, name :: names =>
      match fat.getComponent diskRead fuel e file name with
      | none => none
      | some file => if file.dosName0 = flagDel then some file else lookupAll file names

variable {diskRead fat fuel e}

theorem getComponent_nil (file : FatStdDir) :
    fat.getComponent diskRead fuel e file [] = some file := rfl

theorem getPathLoop_eq {slashes : ℕ} {path : List (BitVec 8)} (h : path.count 0x2f = slashes)
    (file : FatStdDir) :
    fat.getPathLoop diskRead fuel e slashes path file =
      fat.lookupAll diskRead fuel e file (components path) := by
  induction slashes generalizing path file with
  | zero =>
      rw [components_of_notMem (List.count_eq_zero.1 h), getPathLoop]
      by_cases hnil : path = []
      · rw [if_pos hnil, hnil]
        rfl
      · rw [if_neg hnil, lookupAll]
        cases fat.getComponent diskRead fuel e file path with
        | none => rfl
        | some file =>
            dsimp only
            split
            · rfl
            · rfl
  | succ slashes ih =>
      have hin : (0x2f : BitVec 8) ∈ path := List.count_pos_iff.1 (by omega)
      obtain ⟨name, rest, rfl, hname⟩ := List.eq_append_cons_of_mem hin
      have htake : (name ++ 0x2f :: rest).takeWhile (fun c => decide (c ≠ 0x2f)) = name := by
        rw [List.takeWhile_append_of_pos fun c hc => by
          simp only [decide_eq_true_eq]
          rintro rfl
          exact hname hc]
        simp
      have hdrop : (name ++ 0x2f :: rest).drop (name.length + 1) = rest := by
        rw [← List.drop_drop, List.drop_left]
        rfl
      have hrest : rest.count 0x2f = slashes := by
        rw [List.count_append, List.count_cons_self, List.count_eq_zero.2 hname] at h
        omega
      rw [getPathLoop, htake, hdrop, components_slash hname]
      by_cases hnil : name = []
      · subst hnil
        rw [if_pos rfl, getComponent_nil]
        dsimp only
        rw [if_neg (fun h => h.1 rfl), ih hrest]
      · rw [if_neg hnil, lookupAll]
        cases fat.getComponent diskRead fuel e file name with
        | none => rfl
        | some file =>
            dsimp only
            by_cases hdel : file.dosName0 = flagDel
            · rw [if_pos ⟨fun hlen => hnil (List.length_eq_zero_iff.1 hlen), hdel⟩, if_pos hdel]
            · rw [if_neg (fun h => hdel h.2), if_neg hdel, ih hrest]

theorem getPath_eq (file : FatStdDir) (path : List (BitVec 8)) :
    fat.getPath diskRead fuel e file path =
      fat.lookupAll diskRead fuel e (Function.update file 12 0x2f) (components path) :=
  getPathLoop_eq rfl _

theorem fatReaddir_eq (file : FatFile) (path : List (BitVec 8)) (n : ℕ) :
    fat.fatReaddir diskRead fuel e file path n =
      ((fat.getPath diskRead fuel e e path).map PathResult.ofAnswer).bind fun
        | .failed => some (file.setNameLen 0)
        | .root => fat.readRootDir diskRead fuel e file n
        | .found dir => fat.readDir diskRead fuel e file dir n := by
  unfold fatReaddir
  cases fat.getPath diskRead fuel e e path with
  | none => rfl
  | some dir =>
      rw [Option.map_some, Option.bind_some, PathResult.ofAnswer]
      by_cases hroot : dir.reserved = 0x2f
      · simp only [if_pos hroot]
      · by_cases hdel : dir.dosName0 = flagDel
        · simp only [if_neg hroot, if_pos hdel]
          unfold readDir
          rw [if_pos (.inl hdel)]
        · simp only [if_neg hroot, if_neg hdel]

theorem fatRead_eq (path : List (BitVec 8)) (buf : Bytes) (count offect : ℕ) :
    fat.fatRead diskRead fuel e path buf count offect =
      ((fat.getPath diskRead fuel e e path).map PathResult.ofAnswer).bind fun
        | .failed => some (-1, buf)
        | .root => some (-1, buf)
        | .found file => fat.readFile diskRead fuel file buf count offect := by
  unfold fatRead
  cases fat.getPath diskRead fuel e e path with
  | none => rfl
  | some file =>
      rw [Option.map_some, Option.bind_some, PathResult.ofAnswer]
      by_cases hroot : file.reserved = 0x2f
      · simp only [if_pos hroot]
      · by_cases hdel : file.dosName0 = flagDel
        · simp only [if_neg hroot, if_pos hdel]
          unfold Fat.readFile
          rw [if_pos (.inl hdel)]
        · simp only [if_neg hroot, if_neg hdel]

theorem reserved_update (file : FatStdDir) :
    FatStdDir.reserved (Function.update file 12 0x2f) = 0x2f := by
  unfold FatStdDir.reserved
  rw [Bytes.le, Bytes.le, Function.update_self]
  rfl

/-- A lookup of `get_path` is one of the walk while the byte `reserved` tells where the walk is. -/
theorem getComponent_eq {file : FatStdDir} {dir : Option FatStdDir} {name : List (BitVec 8)}
    (hname : name ≠ []) (h : dir = none ∧ file.reserved = 0x2f ∨
      dir = some file ∧ file.reserved ≠ 0x2f) :
    fat.getComponent diskRead fuel e file name = fat.lookup diskRead fuel e dir name := by
  unfold getComponent
  rw [if_neg fun hlen => hname (List.length_eq_zero_iff.1 hlen)]
  rcases h with ⟨rfl, hroot⟩ | ⟨rfl, hroot⟩
  · rw [if_pos hroot]
    rfl
  · rw [if_neg hroot]
    rfl

theorem walk_some_ne_root (file : FatStdDir) (names : List (List (BitVec 8))) :
    fat.walk diskRead fuel e (some file) names ≠ some none := by
  induction names generalizing file with
  | nil => simp [walk]
  | cons name names ih =>
      rw [walk]
      split
      · simp
      · split
        · simp
        · exact ih _

/-- `get_path` follows the walk as long as no lookup in front of the last one answers an entry
that looks like the root. -/
theorem lookupAll_eq {names : List (List (BitVec 8))} (hnames : ∀ name ∈ names, name ≠ [])
    {file : FatStdDir} {dir : Option FatStdDir}
    (h : dir = none ∧ file.reserved = 0x2f ∨ dir = some file ∧ file.reserved ≠ 0x2f)
    (hbefore : ∀ names', names' <+: names → names'.length < names.length → names' ≠ [] →
      ∀ file', fat.walk diskRead fuel e dir names' = some (some file') → file'.reserved ≠ 0x2f) :
    fat.lookupAll diskRead fuel e file names =
      (fat.walk diskRead fuel e dir names).map fun dir => dir.getD file := by
  induction names generalizing file dir with
  | nil =>
      rw [lookupAll, walk, Option.map_some]
      rcases h with ⟨rfl, -⟩ | ⟨rfl, -⟩ <;> rfl
  | cons name names ih =>
      rw [lookupAll, walk, getComponent_eq (hnames name List.mem_cons_self) h]
      cases hlookup : fat.lookup diskRead fuel e dir name with
      | none => rfl
      | some found =>
          dsimp only
          by_cases hdel : found.dosName0 = flagDel
          · rw [if_pos hdel, if_pos hdel]
            rfl
          · rw [if_neg hdel, if_neg hdel]
            have hwalk : ∀ names', fat.walk diskRead fuel e dir (name :: names') =
                fat.walk diskRead fuel e (some found) names' := by
              intro names'
              rw [walk, hlookup]
              dsimp only
              rw [if_neg hdel]
            cases names with
            | nil => rfl
            | cons next rest =>
                have hfound : found.reserved ≠ 0x2f := by
                  refine hbefore [name] (List.prefix_append [name] (next :: rest)) (by simp)
                    (by simp) found ?_
                  rw [hwalk, walk]
                rw [ih (fun n hn => hnames n (List.mem_cons_of_mem _ hn)) (.inr ⟨rfl, hfound⟩)
                  fun names' hpre hlt hne file' hfile' => ?_]
                · cases hend : fat.walk diskRead fuel e (some found) (next :: rest) with
                  | none => rfl
                  | some dir' =>
                      cases dir' with
                      | some file' => rfl
                      | none => exact absurd hend (walk_some_ne_root _ _)
                · refine hbefore (name :: names') ?_ ?_ (by simp) file' ?_
                  · exact (List.cons_prefix_cons).2 ⟨rfl, hpre⟩
                  · rw [List.length_cons, List.length_cons]
                    omega
                  · rw [hwalk]
                    exact hfile'

/-- While no earlier lookup answers an entry that looks like the root, a path is resolved where
the last one does not. -/
theorem resolves_iff_of_before {file : FatStdDir} {path : List (BitVec 8)}
    (hbefore : ∀ names, names <+: components path → names.length < (components path).length →
      names ≠ [] → ∀ file', fat.walk diskRead fuel e none names = some (some file') →
        file'.reserved ≠ 0x2f) :
    fat.Resolves diskRead fuel e file path ↔
      ∀ file', fat.walk diskRead fuel e none (components path) = some (some file') →
        file'.reserved ≠ 0x2f := by
  unfold Resolves
  rw [getPath_eq, lookupAll_eq (fun name hname => (ne_nil_of_mem_components hname).1)
    (.inl ⟨rfl, reserved_update file⟩) hbefore]
  cases fat.walk diskRead fuel e none (components path) with
  | none => exact iff_of_true rfl (fun file' h => by cases h)
  | some dir =>
      rw [Option.map_some, Option.map_some, Option.map_some, Option.some.injEq]
      cases dir with
      | none =>
          exact iff_of_true (PathResult.ofAnswer_of_reserved (reserved_update file))
            (fun file' h => by cases h)
      | some found =>
          rw [Option.getD_some, PathResult.ofAnswer_eq_ofLookup_iff]
          constructor
          · intro h file' heq
            rwa [← Option.some.inj (Option.some.inj heq)]
          · exact fun h => h found rfl

theorem exists_components {names : List (List (BitVec 8))} {path : List (BitVec 8)}
    (h : names <+: components path) : ∃ path', components path' = names :=
  ⟨slashed names, components_slashed fun _ hname =>
    ne_nil_of_mem_components (h.subset hname)⟩

/-- A path is resolved, with every path in front of it, exactly when no lookup on the way answers
an entry whose byte `reserved` is a slash. -/
theorem resolves_iff (file : FatStdDir) (path : List (BitVec 8)) :
    (∀ path', components path' <+: components path → fat.Resolves diskRead fuel e file path') ↔
      ∀ path', components path' <+: components path → ∀ file',
        fat.walk diskRead fuel e none (components path') = some (some file') →
          file'.reserved ≠ 0x2f := by
  constructor
  · intro hall path' hpre
    induction hlen : (components path').length using Nat.strong_induction_on generalizing path' with
    | h len ih =>
        refine (resolves_iff_of_before fun names hnames hlt _ => ?_).1 (hall path' hpre)
        obtain ⟨path'', hpath''⟩ := exists_components hnames
        rw [← hpath''] at hnames hlt ⊢
        exact ih _ (by omega) path'' (hnames.trans hpre) rfl
  · intro hall path' hpre
    refine (resolves_iff_of_before fun names hnames _ _ => ?_).2 (hall path' hpre)
    obtain ⟨path'', hpath''⟩ := exists_components hnames
    rw [← hpath''] at hnames ⊢
    exact hall path'' (hnames.trans hpre)

end FatVolume

/-! ## A directory that is taken for the root -/

section Example

/-- The disk of the small volume where the byte `reserved` of the directory `d` is a slash. -/
def slashDisk : Bytes := Function.update (tinyDisk 0x20) 108 0x2f

def slashDiskRead : DiskRead := fun _ count offect =>
  some ((List.range count).map fun i => slashDisk (offect + i))

/-- The directory `d` is found, and `fat_readdir` lists the root in its place. -/
theorem path_not_resolved :
    ¬ tinyVolume.Resolves slashDiskRead 2 (fun _ => 0) (fun _ => 0) [0x64] ∧
      (tinyVolume.fatReaddir slashDiskRead 2 (fun _ => 0) (fun _ => 0) [0x64] 0).map
        (· 0) = some 0x64 ∧
      (tinyVolume.fatReaddir (tinyDiskRead 0x20) 2 (fun _ => 0) (fun _ => 0) [0x64] 0).map
        (· 0) = some 0x66 := by
  refine ⟨fun h => ?_, by with_unfolding_all decide, by with_unfolding_all decide⟩
  have hnone : ∀ names, names <+: components [0x64] →
      names.length < (components [0x64]).length → names ≠ [] → ∀ file',
        tinyVolume.walk slashDiskRead 2 (fun _ => 0) none names = some (some file') →
          file'.reserved ≠ 0x2f := by
    intro names _ hlt hne
    have hlen : (components [0x64]).length = 1 := by with_unfolding_all decide
    rw [hlen, Nat.lt_one_iff, List.length_eq_zero_iff] at hlt
    exact absurd hlt hne
  have hreserved : ((tinyVolume.walk slashDiskRead 2 (fun _ => 0) none (components [0x64])).map
      fun dir => dir.map FatStdDir.reserved) = some (some 0x2f) := by
    with_unfolding_all decide
  obtain ⟨dir, hdir, hfound⟩ := Option.map_eq_some_iff.1 hreserved
  obtain ⟨file', rfl, hslash⟩ := Option.map_eq_some_iff.1 hfound
  exact (FatVolume.resolves_iff_of_before hnone).1 h file' hdir hslash

end Example

end BitchKernel
