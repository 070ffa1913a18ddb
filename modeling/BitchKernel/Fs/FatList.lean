import BitchKernel.Fs.FatRun

/-!
# What a listing leaves in its file

A listing counts off the runs it is to pass over, and copies every run from there on up to the
first it accepts. A run leaves in the 264 bytes of the file the characters of its first entry,
then the length in `name_len`, then the characters of the entries that carry it on, each at the
place its own number gives. So what a listing returns is said by the entries alone.
-/

namespace BitchKernel

open Lib

section Listing

variable (entry : ℕ → FatDir) (fileType : ℕ → Option FileType)

def Continues (k : ℕ) : Prop := (entry k).IsLfn ∧ (entry k).order &&& flagLast = 0

instance (k : ℕ) : Decidable (Continues entry k) := inferInstanceAs (Decidable (_ ∧ _))

/-- A listing accepts a run: all its parts carry it on up to a live short entry, whose attribute
is that of a file. -/
def Listed (n : ℕ) : Prop :=
  Begins entry n ∧ 0 < runCount entry n ∧
    (∀ p, n < p → p < n + runCount entry n → Continues entry p) ∧
    (runShort entry n).IsShort ∧ fileType (runShort entry n).fatAttribute ≠ none

/-- The entry at which a listing has counted off runs, each as long as its first entry tells. -/
def behindRuns (dirCount : ℕ) : (fuel n offect : ℕ) → ℕ
  | 0, n, _ => n
  | fuel + 1, n, offect =>
      if offect = 0 then n
      else if n < dirCount then
        if Begins entry n then behindRuns dirCount fuel (n + runCount entry n + 1) (offect - 1)
        else behindRuns dirCount fuel (n + 1) offect
      else n

/-- The first run from an entry on that a listing accepts. -/
structure FirstListed (count start p : ℕ) : Prop where
  le : start ≤ p
  lt : p < count
  listed : Listed entry fileType p
  first : ∀ q, start ≤ q → q < p → ¬ Listed entry fileType q

/-! ## The bytes of a run -/

/-- The place of the characters of an entry, 13 for each number in front of its own. -/
def FatDir.place (e : FatDir) : ℕ :=
  if e.order &&& 0x3f = 0 then 2 ^ 32 - 13 else ((e.order &&& 0x3f) - 1) * 13

/-- The characters of an entry up to the first null byte, put at its place. -/
def FatDir.put (e : FatDir) (file : FatFile) : FatFile := fun k =>
  if e.place ≤ k ∧ k < e.place + 13 ∧ k ≤ e.place + e.copyLen then
    BitVec.ofNat 8 (e.lfnChar (k - e.place))
  else file k

/-- How many entries carry on a run, at most as many as its first entry tells. -/
def carried (n : ℕ) : ℕ :=
  scanUntil (fun j => decide (¬ Continues entry (add32 (n + 1) j))) (sub32 (runCount entry n) 1) 0

def putRun (n : ℕ) (file : FatFile) : FatFile :=
  (List.range' 0 (carried entry n)).foldl (fun file j => (entry (add32 (n + 1) j)).put file)
    (FatFile.setNameLen ((entry n).put file) (add32 (entry n).place (entry n).copyLen))

/-- What the runs that begin in front of an entry leave in the file, from `start` on. -/
def held (file : FatFile) (start stop : ℕ) : FatFile :=
  (List.range' start (stop - start)).foldl
    (fun file n => if Begins entry n then putRun entry n file else file) file

variable {entry fileType} {n count : ℕ}

theorem FatDir.place_eq (e : FatDir) :
    mul32 (sub32 (e.order &&& 0x3f) 1) 13 = e.place ∧ e.place + 13 ≤ 2 ^ 32 := by
  have hle : e.order &&& 0x3f ≤ 63 := Nat.and_le_right
  unfold place
  by_cases hzero : e.order &&& 0x3f = 0
  · rw [if_pos hzero, hzero]
    exact ⟨by with_unfolding_all decide, by decide⟩
  · rw [if_neg hzero, sub32_of_le (by omega) (by omega), mul32_of_lt (by omega)]
    exact ⟨rfl, by omega⟩

theorem FatDir.place_of_pos {e : FatDir} (h : 0 < e.order &&& 0x3f) :
    e.place = ((e.order &&& 0x3f) - 1) * 13 :=
  if_neg (by omega)

theorem lfnCpy_place (e : FatDir) (file : FatFile) :
    lfnCpy file (mul32 (sub32 (e.order &&& 0x3f) 1) 13) e = (e.copyLen, e.put file) := by
  obtain ⟨hplace, hfit⟩ := e.place_eq
  obtain ⟨hlen, hname⟩ := lfnCpy_eq file e hfit
  rw [hplace]
  exact Prod.ext hlen (funext hname)

theorem held_self (file : FatFile) (start : ℕ) : held entry file start start = file := by
  unfold held
  rw [Nat.sub_self]
  rfl

theorem held_first (file : FatFile) {stop : ℕ} (h : n < stop) :
    held entry file n stop =
      held entry (if Begins entry n then putRun entry n file else file) (n + 1) stop := by
  unfold held
  obtain ⟨m, rfl⟩ : ∃ m, stop = n + 1 + m := ⟨stop - (n + 1), by omega⟩
  rw [show n + 1 + m - n = m + 1 by omega, Nat.add_sub_cancel_left, List.range'_succ,
    List.foldl_cons]

theorem held_last (file : FatFile) {start : ℕ} (h : start ≤ n) :
    held entry file start (n + 1) =
      if Begins entry n then putRun entry n (held entry file start n) else
        held entry file start n := by
  unfold held
  obtain ⟨m, rfl⟩ : ∃ m, n = start + m := ⟨n - start, by omega⟩
  rw [Nat.add_assoc, Nat.add_sub_cancel_left, Nat.add_sub_cancel_left, List.range'_concat,
    List.foldl_append, Nat.one_mul]
  rfl

theorem FirstListed.unique {start p q : ℕ} (hp : FirstListed entry fileType count start p)
    (hq : FirstListed entry fileType count start q) : p = q := by
  rcases Nat.lt_trichotomy p q with hlt | heq | hlt
  · exact absurd hp.listed (hq.first p hp.le hlt)
  · exact heq
  · exact absurd hq.listed (hp.first q hq.le hlt)

/-! ## One round of a listing -/

/-- The next entry that the inner loop reads, when `i` parts are left. -/
theorem sub32_add32_eq {c i k : ℕ} (hk : (k + i) % 2 ^ 32 = (n + c) % 2 ^ 32) (hi : i ≤ 2 ^ 32)
    (hlt : k < 2 ^ 32) : sub32 (add32 n c) i = k := by
  rw [add32_eq, ← hk, sub32, Lib.Word.sub]
  omega

/-- Where the inner loop of a listing begins, behind the first entry of a run. -/
theorem runNext (n : ℕ) {c : ℕ} (hc : c ≤ 63) :
    (n + 1 + sub32 c 1) % 2 ^ 32 = (n + c) % 2 ^ 32 ∧ sub32 c 1 < 2 ^ 32 ∧
      (0 < c → sub32 c 1 = c - 1) ∧ (c = 0 → sub32 c 1 = 4294967295) := by
  rw [sub32, Lib.Word.sub]
  omega

/-- The inner loop of a listing copies the entries that carry on the run, and comes to its end
where none of them breaks it off. -/
theorem copyParts_eq {c j rem : ℕ} (hc : c ≤ 63) (hrem : j + rem = sub32 c 1) (file : FatFile) :
    copyParts entry n c rem file =
      (decide (scanUntil (fun j => decide (¬ Continues entry (add32 (n + 1) j))) rem j = j + rem),
        (List.range' j
          (scanUntil (fun j => decide (¬ Continues entry (add32 (n + 1) j))) rem j - j)).foldl
            (fun file j => (entry (add32 (n + 1) j)).put file) file) := by
  obtain ⟨hnext, hlt, -, -⟩ := runNext n hc
  induction rem generalizing j file with
  | zero =>
      rw [scanUntil_zero, Nat.sub_self]
      exact Prod.ext (decide_eq_true rfl).symm rfl
  | succ rem ih =>
      have hat : sub32 (add32 n c) (rem + 1) = add32 (n + 1) j := by
        rw [add32_eq (n + 1)]
        exact sub32_add32_eq (by omega) (by omega) (Nat.mod_lt _ (by decide))
      rw [copyParts, hat, scanUntil_succ]
      by_cases hcont : Continues entry (add32 (n + 1) j)
      · have hle := le_scanUntil (fun j => decide (¬ Continues entry (add32 (n + 1) j))) rem (j + 1)
        obtain ⟨m, hm⟩ : ∃ m, scanUntil (fun j => decide (¬ Continues entry (add32 (n + 1) j)))
            rem (j + 1) = j + 1 + m := ⟨_, (Nat.add_sub_cancel' hle).symm⟩
        rw [if_pos (show (entry (add32 (n + 1) j)).IsLfn ∧ _ from hcont), lfnCpy_place,
          ih (j := j + 1) (by omega), if_neg (by simpa using hcont), hm,
          show j + 1 + m - j = m + 1 by omega, Nat.add_sub_cancel_left, List.range'_succ,
          List.foldl_cons, show j + 1 + rem = j + (rem + 1) by omega]
      · rw [if_neg (show ¬ ((entry (add32 (n + 1) j)).IsLfn ∧ _) from hcont),
          if_pos (decide_eq_true hcont), Nat.sub_self, decide_eq_false (by omega)]
        rfl

theorem listEntry_eq (fileType : ℕ → Option FileType) (n : ℕ) (file : FatFile) :
    listEntry entry fileType n file =
      (if carried entry n = sub32 (runCount entry n) 1 ∧
          (entry (add32 n (runCount entry n))).IsShort then
        fileType (entry (add32 n (runCount entry n))).fatAttribute
      else none, putRun entry n file) := by
  unfold listEntry
  dsimp only
  rw [lfnCpy_place, (entry n).place_eq.1]
  dsimp only
  have hparts := @copyParts_eq entry n (runCount entry n) 0 _ (runCount_le entry n) (Nat.zero_add _)
    (FatFile.setNameLen ((entry n).put file) (add32 (entry n).place (entry n).copyLen))
  unfold runCount at hparts
  rw [hparts, Nat.zero_add, Nat.sub_zero]
  refine Prod.ext ?_ rfl
  exact if_congr (and_congr_left fun _ => decide_eq_true_iff) rfl rfl

theorem listEntry_eq_some_iff (hn : n + 64 < 2 ^ 32) (hbegins : Begins entry n) {file : FatFile}
    {type : FileType} : (listEntry entry fileType n file).1 = some type ↔
      Listed entry fileType n ∧ fileType (runShort entry n).fatAttribute = some type := by
  have hle := runCount_le entry n
  obtain ⟨-, -, hsub, -⟩ := runNext n hle
  have hshort : entry (add32 n (runCount entry n)) = runShort entry n := by
    rw [add32_of_lt (by omega), runShort]
  rw [listEntry_eq, hshort]
  dsimp only
  by_cases hzero : runCount entry n = 0
  · have hnot : ¬ (runShort entry n).IsShort := by
      unfold runShort
      rw [hzero]
      exact fun h => h.2 hbegins.1.2
    rw [if_neg fun h => hnot h.2]
    exact iff_of_false (by simp) fun h => hnot h.1.2.2.2.1
  have hdone : carried entry n = sub32 (runCount entry n) 1 ↔
      ∀ p, n < p → p < n + runCount entry n → Continues entry p := by
    have hscan := scanUntil_eq_iff (fun j => decide (¬ Continues entry (add32 (n + 1) j)))
      (sub32 (runCount entry n) 1) 0
    rw [Nat.zero_add] at hscan
    unfold carried
    rw [hscan, hsub (by omega)]
    constructor
    · intro hall p hp hlt
      have hcont := hall (p - (n + 1)) (Nat.zero_le _) (by omega)
      rw [add32_of_lt (by omega), show n + 1 + (p - (n + 1)) = p by omega] at hcont
      exact not_not.1 (of_decide_eq_false hcont)
    · intro hall j _ hj
      rw [add32_of_lt (by omega)]
      exact decide_eq_false (not_not.2 (hall (n + 1 + j) (by omega) (by omega)))
  constructor
  · intro h
    split at h
    · rename_i hcomplete
      exact ⟨⟨hbegins, by omega, hdone.1 hcomplete.1, hcomplete.2, by rw [h]; simp⟩, h⟩
    · cases h
  · rintro ⟨hlisted, htype⟩
    rw [if_pos ⟨hdone.2 hlisted.2.2.1, hlisted.2.2.2.1⟩, htype]

theorem listEntry_eq_none_iff (hn : n + 64 < 2 ^ 32) (hbegins : Begins entry n) {file : FatFile} :
    (listEntry entry fileType n file).1 = none ↔ ¬ Listed entry fileType n := by
  constructor
  · intro hnone hlisted
    obtain ⟨type, htype⟩ := Option.ne_none_iff_exists'.1 hlisted.2.2.2.2
    have hsome : (listEntry entry fileType n file).1 = some type :=
      (listEntry_eq_some_iff hn hbegins).2 ⟨hlisted, htype⟩
    rw [hnone] at hsome
    cases hsome
  · intro hnot
    by_contra hsome
    obtain ⟨type, htype⟩ := Option.ne_none_iff_exists'.1 hsome
    exact hnot ((listEntry_eq_some_iff hn hbegins).1 htype).1

/-! ## The loop of a listing -/

theorem listLoop_succ (entry : ℕ → FatDir) (fileType : ℕ → Option FileType)
    (dirCount fuel n offect : ℕ) (file : FatFile) :
    listLoop entry fileType dirCount (fuel + 1) n offect file =
      if n < dirCount then
        if Begins entry n then
          if offect = 0 then
            match listEntry entry fileType n file with
            | (some type, file) => file.setType type
            | (none, file) => listLoop entry fileType dirCount fuel (add32 n 1) offect file
          else
            listLoop entry fileType dirCount fuel (add32 (add32 n (runCount entry n)) 1)
              (sub32 offect 1) file
        else listLoop entry fileType dirCount fuel (add32 n 1) offect file
      else file.setNameLen 0 := rfl

theorem behindRuns_zero (entry : ℕ → FatDir) (count fuel n : ℕ) :
    behindRuns entry count fuel n 0 = n := by
  cases fuel with
  | zero => rfl
  | succ fuel => rfl

theorem firstListed_succ_iff (hnot : ¬ Listed entry fileType n) {p : ℕ} :
    FirstListed entry fileType count n p ↔ FirstListed entry fileType count (n + 1) p := by
  constructor
  · rintro ⟨hle, hlt, hlisted, hfirst⟩
    have hne : n ≠ p := fun heq => hnot (heq ▸ hlisted)
    exact ⟨by omega, hlt, hlisted, fun q hq => hfirst q (by omega)⟩
  · rintro ⟨hle, hlt, hlisted, hfirst⟩
    refine ⟨by omega, hlt, hlisted, fun q hq hqp => ?_⟩
    rcases Nat.eq_or_lt_of_le hq with rfl | hgt
    · exact hnot
    · exact hfirst q hgt hqp

/-- What the loop of a listing returns: the first run that it accepts, with what the runs from
the entry behind those that it counts off leave in the file; or an empty name. -/
theorem listLoop_spec (hcount : count + 64 < 2 ^ 32) {fuel offect : ℕ} (hfuel : count ≤ n + fuel)
    (hoffect : offect < 2 ^ 32) (file : FatFile) :
    (∃ p type, FirstListed entry fileType count (behindRuns entry count fuel n offect) p ∧
        fileType (runShort entry p).fatAttribute = some type ∧
        listLoop entry fileType count fuel n offect file =
          (held entry file (behindRuns entry count fuel n offect) (p + 1)).setType type) ∨
      (∀ p, ¬ FirstListed entry fileType count (behindRuns entry count fuel n offect) p) ∧
        (listLoop entry fileType count fuel n offect file).nameLen = 0 := by
  induction fuel generalizing n offect file with
  | zero =>
      refine .inr ⟨fun p hp => ?_, file.nameLen_setNameLen (by decide)⟩
      have hle : n ≤ p := hp.le
      have hlt := hp.lt
      omega
  | succ fuel ih =>
      rw [listLoop_succ]
      by_cases hn : n < count
      · have hone : add32 n 1 = n + 1 := add32_of_lt (by omega)
        rw [if_pos hn]
        by_cases hzero : offect = 0
        · subst hzero
          rw [behindRuns_zero, hone]
          -- the run at `n` is passed over
          have hnext : ∀ file', ¬ Listed entry fileType n →
              file' = (if Begins entry n then putRun entry n file else file) →
              (∃ p type, FirstListed entry fileType count n p ∧
                  fileType (runShort entry p).fatAttribute = some type ∧
                  listLoop entry fileType count fuel (n + 1) 0 file' =
                    (held entry file n (p + 1)).setType type) ∨
                (∀ p, ¬ FirstListed entry fileType count n p) ∧
                  (listLoop entry fileType count fuel (n + 1) 0 file').nameLen = 0 := by
            intro file' hnot hfile
            simp only [firstListed_succ_iff hnot]
            obtain ⟨p, type, hp, htype, heq⟩ | ⟨hnone, heq⟩ :=
              ih (n := n + 1) (by omega) hoffect file'
            · rw [behindRuns_zero] at hp heq
              refine .inl ⟨p, type, hp, htype, ?_⟩
              rw [heq, held_first file (by have := hp.le; omega), hfile]
            · rw [behindRuns_zero] at hnone
              exact .inr ⟨hnone, heq⟩
          by_cases hbegins : Begins entry n
          · rw [if_pos hbegins, if_pos rfl]
            have hafter : (listEntry entry fileType n file).2 = putRun entry n file := by
              rw [listEntry_eq]
            obtain ⟨type, after, hentry⟩ :
                ∃ type after, listEntry entry fileType n file = (type, after) := ⟨_, _, rfl⟩
            have hfst := congrArg Prod.fst hentry
            rw [hentry] at hafter ⊢
            cases type with
            | some type =>
                obtain ⟨hlisted, htype⟩ := (listEntry_eq_some_iff (by omega) hbegins).1 hfst
                refine .inl ⟨n, type, ⟨Nat.le_refl n, hn, hlisted, fun q hq hlt => by omega⟩, htype,
                  ?_⟩
                rw [held_last file (Nat.le_refl n), if_pos hbegins, held_self, ← hafter]
            | none =>
                refine hnext after ((listEntry_eq_none_iff (by omega) hbegins).1 hfst) ?_
                rw [if_pos hbegins]
                exact hafter
          · rw [if_neg hbegins]
            exact hnext file (fun h => hbegins h.1) (if_neg hbegins).symm
        · rw [behindRuns, if_neg hzero, if_pos hn]
          by_cases hbegins : Begins entry n
          · have hle := runCount_le entry n
            rw [if_pos hbegins, if_neg hzero, if_pos hbegins, add32_of_lt (a := n) (by omega),
              add32_of_lt (by omega), sub32_of_le (by omega) hoffect]
            exact ih (by omega) (by omega) file
          · rw [if_neg hbegins, if_neg hbegins, hone]
            exact ih (by omega) hoffect file
      · rw [if_neg hn]
        refine .inr ⟨fun p hp => ?_, file.nameLen_setNameLen (by decide)⟩
        have hstart : n ≤ behindRuns entry count (fuel + 1) n offect := by
          rw [behindRuns, if_neg hn, ite_self]
        have hle := hp.le
        have hlt := hp.lt
        omega

end Listing

end BitchKernel
