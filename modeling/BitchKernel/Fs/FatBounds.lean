import BitchKernel.Fs.FatScan

/-!
# What the scans of a directory touch

The loops of a search and of a listing test that a run begins inside the directory, but not that
it ends there, and a listing puts a part of a name to the place that its number gives, whatever
the number is. Here are the entries that the scans read and the positions of the name that a
listing stores to, and when they stay inside the directory and inside the name.
-/

namespace BitchKernel

open Lib

/-! ## The entries that a search reads -/

section Search

variable (entry : ℕ → FatDir) (name : ℕ → BitVec 8)

/-- The entries that the inner loop of a search reads. -/
def matchReads (n lfnCount : ℕ) : (i : ℕ) → List ℕ
  | 0 => []
  | i + 1 =>
      let k := sub32 (add32 n lfnCount) (i + 1)
      let e := entry k
      if e.IsLfn ∧ e.order &&& flagLast = 0 ∧ e.order &&& 0x3f = i + 1 ∧
          lfnCmp (fun k => name (mul32 i 13 + k)) e 13 = 0 then
        k :: matchReads n lfnCount i
      else [k]

def searchRoundReads (len n : ℕ) : List ℕ :=
  let lfnCount := add32 len 12 / 13
  if SearchHead entry name len n then
    n :: matchReads entry name n lfnCount (sub32 lfnCount 1) ++
      if searchBreak entry name len n = 0 then [add32 n lfnCount] else []
  else [n]

/-- The entries that the loop of a search reads from entry `n` on. -/
def searchReads (len dirCount : ℕ) : (fuel n : ℕ) → List ℕ
  | 0, _ => []
  | fuel + 1, n =>
      if n < dirCount then
        searchRoundReads entry name len n ++
          match searchNext entry name len n with
          | none => []
          | some next => searchReads len dirCount fuel next
      else []

variable {entry name} {len n count : ℕ}

theorem matchParts_congr {entry' : ℕ → FatDir} {c i : ℕ}
    (h : ∀ k ∈ matchReads entry name n c i, entry k = entry' k) (e : FatDir) :
    matchParts entry name n c i e = matchParts entry' name n c i e := by
  induction i generalizing e with
  | zero => rfl
  | succ i ih =>
      rw [matchReads] at h
      obtain ⟨k, hk⟩ : ∃ k, sub32 (add32 n c) (i + 1) = k := ⟨_, rfl⟩
      rw [matchParts, matchParts, hk]
      rw [hk] at h
      split at h
      · rename_i hpart
        rw [← h k (List.mem_cons_self ..), if_pos hpart, if_pos hpart]
        exact ih (fun j hj => h j (List.mem_cons_of_mem k hj)) _
      · rename_i hpart
        rw [← h k (List.mem_cons_self ..), if_neg hpart, if_neg hpart]

theorem searchLoop_congr {entry' : ℕ → FatDir} {fuel : ℕ}
    (h : ∀ k ∈ searchReads entry name len count fuel n, entry k = entry' k) (e : FatDir) :
    searchLoop entry name len count fuel n e = searchLoop entry' name len count fuel n e := by
  induction fuel generalizing n e with
  | zero => rfl
  | succ fuel ih =>
      rw [searchReads] at h
      rw [searchLoop, searchLoop]
      by_cases hn : n < count
      · rw [if_pos hn, List.forall_mem_append] at h
        rw [if_pos hn, if_pos hn]
        obtain ⟨hround, hrest⟩ := h
        unfold searchRoundReads at hround
        unfold searchNext at hrest
        dsimp only at hround ⊢
        by_cases hhead : SearchHead entry name len n
        · rw [if_pos hhead, List.forall_mem_append, List.forall_mem_cons] at hround
          rw [if_pos hhead] at hrest
          obtain ⟨⟨hfirst, hparts⟩, hshort⟩ := hround
          unfold SearchHead at hhead
          rw [← hfirst, if_pos hhead, if_pos hhead, ← matchParts_congr hparts]
          unfold searchBreak at hshort hrest
          obtain ⟨i, e', hbreak⟩ : ∃ i e', matchParts entry name n (add32 len 12 / 13)
              (sub32 (add32 len 12 / 13) 1) (entry n) = (i, e') := ⟨_, _, rfl⟩
          rw [hbreak] at hshort hrest ⊢
          dsimp only at hshort hrest ⊢
          by_cases hi : i = 0
          · rw [if_pos hi] at hshort hrest ⊢
            rw [if_pos hi, ← hshort _ (List.mem_singleton.2 rfl)]
            by_cases hlive : (entry (add32 n (add32 len 12 / 13))).IsShort
            · rw [if_pos hlive, if_pos hlive]
            · rw [if_neg hlive] at hrest
              rw [if_neg hlive, if_neg hlive]
              exact ih hrest _
          · rw [if_neg hi] at hrest ⊢
            rw [if_neg hi]
            exact ih hrest _
        · rw [if_neg hhead] at hround hrest
          have hfirst := hround n (List.mem_singleton.2 rfl)
          unfold SearchHead at hhead
          rw [← hfirst, if_neg hhead, if_neg hhead]
          exact ih hrest _
      · rw [if_neg hn, if_neg hn]

end Search

/-! ## What a listing reads and stores -/

/-- The read of an entry, or the store of a character to a position of the name. -/
inductive Access
  | read (n : ℕ)
  | store (pos : ℕ)
deriving DecidableEq

/-- The positions that the loop of `lfn_cpy` stores to. -/
def lfnCpyStores (pos : ℕ) (lfn : FatDir) : (rem : ℕ) → List Access
  | 0 => []
  | rem + 1 =>
      let n := 13 - (rem + 1)
      .store (add32 pos n) ::
        if BitVec.ofNat 8 (lfn.lfnChar n) = 0 then [] else lfnCpyStores pos lfn rem

section Listing

variable (entry : ℕ → FatDir) (fileType : ℕ → Option FileType)

/-- What the inner loop of a listing touches. -/
def copyAccess (n lfnCount : ℕ) : (i : ℕ) → List Access
  | 0 => []
  | i + 1 =>
      let k := sub32 (add32 n lfnCount) (i + 1)
      let e := entry k
      .read k ::
        if e.IsLfn ∧ e.order &&& flagLast = 0 then
          lfnCpyStores (mul32 (sub32 (e.order &&& 0x3f) 1) 13) e 13 ++ copyAccess n lfnCount i
        else []

/-- What a listing touches at the first entry of a long name, when the counter is zero. -/
def listEntryAccess (n : ℕ) (file : FatFile) : List Access :=
  let e := entry n
  let lfnCount := e.order &&& 0x3f
  let pos := mul32 (sub32 lfnCount 1) 13
  let (len, after) := lfnCpy file pos e
  let after := FatFile.setNameLen after (add32 pos len)
  lfnCpyStores pos e 13 ++ copyAccess entry n lfnCount (sub32 lfnCount 1) ++
    if (copyParts entry n lfnCount (sub32 lfnCount 1) after).1 then [.read (add32 n lfnCount)]
    else []

/-- What the loop of a listing touches from entry `n` on. -/
def listAccess (dirCount : ℕ) : (fuel n offect : ℕ) → FatFile → List Access
  | 0, _, _, _ => []
  | fuel + 1, n, offect, file =>
      if n < dirCount then
        .read n ::
          if Begins entry n then
            if offect = 0 then
              listEntryAccess entry n file ++
                match listEntry entry fileType n file with
                | (some _, _) => []
                | (none, after) => listAccess dirCount fuel (add32 n 1) offect after
            else
              listAccess dirCount fuel (add32 (add32 n (runCount entry n)) 1) (sub32 offect 1) file
          else listAccess dirCount fuel (add32 n 1) offect file
      else []

/-- The place that an entry gives its characters lies in the name. -/
def FatDir.Fits (e : FatDir) : Prop :=
  0 < e.order &&& 0x3f ∧ ((e.order &&& 0x3f) - 1) * 13 + min e.copyLen 12 < 256

/-- The places of the entries of a run that a listing copies lie in the name. -/
def RunFits (n : ℕ) : Prop :=
  (entry n).Fits ∧ ∀ p, n < p → p < n + runCount entry n →
    (∀ q, n < q → q ≤ p → Continues entry q) → (entry p).Fits

variable {entry fileType} {n count : ℕ}

theorem mem_lfnCpyStores {pos rem : ℕ} (hpos : pos + 13 ≤ 2 ^ 32) (hrem : rem ≤ 13) (e : FatDir)
    (a : Access) : a ∈ lfnCpyStores pos e rem ↔ ∃ j, 13 - rem ≤ j ∧ j < 13 ∧
      j ≤ scanUntil (fun n => decide (BitVec.ofNat 8 (e.lfnChar n) = 0)) rem (13 - rem) ∧
      a = .store (pos + j) := by
  induction rem with
  | zero =>
      refine iff_of_false List.not_mem_nil ?_
      rintro ⟨j, hle, hlt, -⟩
      omega
  | succ rem ih =>
      have hnext : 13 - (rem + 1) + 1 = 13 - rem := by omega
      rw [lfnCpyStores, scanUntil_succ, add32_of_lt (by omega), hnext, List.mem_cons]
      by_cases hnull : BitVec.ofNat 8 (e.lfnChar (13 - (rem + 1))) = 0
      · rw [if_pos hnull, if_pos (decide_eq_true hnull)]
        constructor
        · rintro (rfl | hnil)
          · exact ⟨13 - (rem + 1), Nat.le_refl _, by omega, Nat.le_refl _, rfl⟩
          · cases hnil
        · rintro ⟨j, hle, -, hj, rfl⟩
          rw [show j = 13 - (rem + 1) by omega]
          exact .inl rfl
      · rw [if_neg hnull, if_neg (by simp only [decide_eq_true_eq]; exact hnull), ih (by omega)]
        have hscan := le_scanUntil
          (fun n => decide (BitVec.ofNat 8 (e.lfnChar n) = 0)) rem (13 - rem)
        constructor
        · rintro (rfl | ⟨j, hle, hlt, hj, rfl⟩)
          · exact ⟨13 - (rem + 1), Nat.le_refl _, by omega, by omega, rfl⟩
          · exact ⟨j, by omega, hlt, hj, rfl⟩
        · rintro ⟨j, hle, hlt, hj, rfl⟩
          rcases Nat.eq_or_lt_of_le hle with rfl | hgt
          · exact .inl rfl
          · exact .inr ⟨j, by omega, hlt, hj, rfl⟩

/-- The last position that `lfn_cpy` stores to is that of a null byte, or of the last character. -/
theorem lfnCpyStores_inside_iff (e : FatDir) :
    (∀ p, .store p ∈ lfnCpyStores (mul32 (sub32 (e.order &&& 0x3f) 1) 13) e 13 → p < 256) ↔
      e.Fits := by
  obtain ⟨c, hc⟩ : ∃ c, e.order &&& 0x3f = c := ⟨_, rfl⟩
  have hle : c ≤ 63 := by
    rw [← hc]
    exact Nat.and_le_right
  have hcopy : e.copyLen ≤ 13 := scanUntil_le _ 13 0
  unfold FatDir.Fits
  rw [hc]
  obtain ⟨pos, hpos, hfit⟩ : ∃ pos, mul32 (sub32 c 1) 13 = pos ∧ pos + 13 ≤ 2 ^ 32 ∧
      ((0 < c ∧ (c - 1) * 13 + min e.copyLen 12 < 256) ↔ pos + min e.copyLen 12 < 256) := by
    rcases Nat.eq_zero_or_pos c with rfl | hcpos
    · refine ⟨4294967283, by with_unfolding_all decide, by decide, iff_of_false (fun h => ?_) (by omega)⟩
      exact Nat.lt_irrefl 0 h.1
    · refine ⟨(c - 1) * 13, ?_, by omega, and_iff_right hcpos⟩
      rw [sub32_of_le hcpos (by omega), mul32_of_lt (by omega)]
  rw [hpos, hfit.2]
  constructor
  · intro hall
    refine hall _ ((mem_lfnCpyStores hfit.1 (Nat.le_refl 13) e _).2 ⟨min e.copyLen 12, by omega,
      by omega, Nat.min_le_left _ _, rfl⟩)
  · intro hlast p hp
    obtain ⟨j, -, hlt, hj, heq⟩ := (mem_lfnCpyStores hfit.1 (Nat.le_refl 13) e _).1 hp
    have hj' : j ≤ e.copyLen := hj
    rw [Access.store.injEq] at heq
    omega

/-- The inner loop of a listing stores inside the name where the entries up to the first that
does not carry on the run do. -/
theorem copyAccess_stores_iff {c i k : ℕ} (hk : (k + i) % 2 ^ 32 = (n + c) % 2 ^ 32)
    (hi : k + i ≤ 2 ^ 32) :
    (∀ p, .store p ∈ copyAccess entry n c i → p < 256) ↔
      ∀ p, k ≤ p → p < k + i → (∀ q, k ≤ q → q ≤ p → Continues entry q) → (entry p).Fits := by
  induction i generalizing k with
  | zero => exact iff_of_true (fun p hp => by cases hp) (fun p hp hlt => by omega)
  | succ i ih =>
      rw [copyAccess, sub32_add32_eq hk (by omega) (by omega)]
      by_cases hcont : Continues entry k
      · rw [if_pos (show (entry k).IsLfn ∧ _ from hcont)]
        have hmem : ∀ p, Access.store p ∈ Access.read k ::
            (lfnCpyStores (mul32 (sub32 ((entry k).order &&& 0x3f) 1) 13) (entry k) 13 ++
              copyAccess entry n c i) ↔
            .store p ∈ lfnCpyStores (mul32 (sub32 ((entry k).order &&& 0x3f) 1) 13) (entry k) 13 ∨
              .store p ∈ copyAccess entry n c i := by
          intro p
          rw [List.mem_cons, List.mem_append]
          exact or_iff_right (by simp)
        simp only [hmem, or_imp, forall_and]
        rw [lfnCpyStores_inside_iff, ih (k := k + 1) (by rw [← hk]; omega) (by omega)]
        constructor
        · rintro ⟨hfits, hall⟩ p hp hlt hq
          rcases Nat.eq_or_lt_of_le hp with rfl | hgt
          · exact hfits
          · exact hall p hgt (by omega) fun q hq' hle => hq q (by omega) hle
        · intro hall
          refine ⟨hall k (Nat.le_refl k) (by omega) fun q hq hle => ?_, fun p hp hlt hq => ?_⟩
          · rwa [show q = k by omega]
          · refine hall p (by omega) (by omega) fun q hq' hle => ?_
            rcases Nat.eq_or_lt_of_le hq' with rfl | hgt
            · exact hcont
            · exact hq q hgt hle
      · rw [if_neg (show ¬ ((entry k).IsLfn ∧ _) from hcont)]
        refine iff_of_true (fun p hp => ?_) fun p hp hlt hq => ?_
        · simp at hp
        · exact absurd (hq k (Nat.le_refl k) hp) hcont

/-- The short entry behind a run is read where the inner loop has come to its end. -/
theorem listEntryAccess_eq (entry : ℕ → FatDir) (n : ℕ) (file : FatFile) :
    ∃ after : FatFile, listEntryAccess entry n file =
      lfnCpyStores (mul32 (sub32 (runCount entry n) 1) 13) (entry n) 13 ++
        copyAccess entry n (runCount entry n) (sub32 (runCount entry n) 1) ++
        if (copyParts entry n (runCount entry n) (sub32 (runCount entry n) 1) after).1 then
          [.read (add32 n (runCount entry n))]
        else [] :=
  ⟨_, rfl⟩

theorem listEntryAccess_stores_iff (hn : n + 64 < 2 ^ 32) (file : FatFile) :
    (∀ p, .store p ∈ listEntryAccess entry n file → p < 256) ↔ RunFits entry n := by
  have hle := runCount_le entry n
  obtain ⟨hnext, -, hsub, -⟩ := runNext n hle
  have hmem : ∀ p, Access.store p ∈ listEntryAccess entry n file ↔
      .store p ∈ lfnCpyStores (mul32 (sub32 (runCount entry n) 1) 13) (entry n) 13 ∨
        .store p ∈ copyAccess entry n (runCount entry n) (sub32 (runCount entry n) 1) := by
    intro p
    obtain ⟨after, hafter⟩ := listEntryAccess_eq entry n file
    rw [hafter, List.mem_append, List.mem_append, or_iff_left]
    · split
      · simp
      · exact List.not_mem_nil
  simp only [hmem, or_imp, forall_and]
  unfold RunFits
  rw [show (∀ p, Access.store p ∈ lfnCpyStores (mul32 (sub32 (runCount entry n) 1) 13) (entry n) 13 →
    p < 256) ↔ (entry n).Fits from lfnCpyStores_inside_iff (entry n)]
  refine and_congr_right fun hfits => ?_
  have hpos : 0 < runCount entry n := hfits.1
  rw [copyAccess_stores_iff hnext (by rw [hsub hpos]; omega), hsub hpos]
  constructor
  · exact fun hall p hp hlt hq => hall p (by omega) (by omega) fun q hq' hle' => hq q (by omega) hle'
  · exact fun hall p hp hlt hq => hall p (by omega) (by omega) fun q hq' hle' => hq q (by omega) hle'

/-- A property of all that a listing touches is one of the runs it comes to, from the entry at
which its counter is zero up to the first run that it accepts. -/
theorem listAccess_forall_iff {P : Access → Prop} {Q : ℕ → Prop}
    (hread : ∀ m < count, P (.read m))
    (hround : ∀ m < count, Begins entry m → ∀ file,
      (∀ a ∈ listEntryAccess entry m file, P a) ↔ Q m)
    (hcount : count + 64 < 2 ^ 32) {fuel offect : ℕ} (hfuel : count ≤ n + fuel)
    (hoffect : offect < 2 ^ 32) (file : FatFile) :
    (∀ a ∈ listAccess entry fileType count fuel n offect file, P a) ↔
      ∀ m, behindRuns entry count fuel n offect ≤ m → m < count → Begins entry m →
        (∀ q, behindRuns entry count fuel n offect ≤ q → q < m → ¬ Listed entry fileType q) →
        Q m := by
  induction fuel generalizing n offect file with
  | zero =>
      refine iff_of_true (fun a ha => by cases ha) (fun m hm hlt => ?_)
      have hm' : n ≤ m := hm
      omega
  | succ fuel ih =>
      rw [listAccess]
      by_cases hn : n < count
      · have hone : add32 n 1 = n + 1 := add32_of_lt (by omega)
        rw [if_pos hn, List.forall_mem_cons, and_iff_right (hread n hn)]
        by_cases hbegins : Begins entry n
        · rw [if_pos hbegins]
          by_cases hzero : offect = 0
          · subst hzero
            rw [if_pos rfl, behindRuns_zero, List.forall_mem_append, hround n hn hbegins, hone]
            have hlisted := @listEntry_eq_none_iff entry fileType n (by omega) hbegins file
            obtain ⟨type, after, hentry⟩ :
                ∃ type after, listEntry entry fileType n file = (type, after) := ⟨_, _, rfl⟩
            rw [hentry] at hlisted ⊢
            cases type with
            | some type =>
                have hreturn : Listed entry fileType n := by
                  by_contra hnot
                  cases hlisted.2 hnot
                constructor
                · rintro ⟨hQ, -⟩ m hm hlt hbegins' hnone
                  rcases Nat.eq_or_lt_of_le hm with rfl | hgt
                  · exact hQ
                  · exact absurd hreturn (hnone n (Nat.le_refl n) hgt)
                · intro hall
                  exact ⟨hall n (Nat.le_refl n) hn hbegins fun q hq hlt => by omega,
                    fun a ha => by cases ha⟩
            | none =>
                have hnot := hlisted.1 rfl
                dsimp only
                rw [ih (n := n + 1) (by omega) hoffect, behindRuns_zero]
                constructor
                · rintro ⟨hQ, hall⟩ m hm hlt hbegins' hnone
                  rcases Nat.eq_or_lt_of_le hm with rfl | hgt
                  · exact hQ
                  · exact hall m hgt hlt hbegins' fun q hq hqm => hnone q (by omega) hqm
                · intro hall
                  refine ⟨hall n (Nat.le_refl n) hn hbegins fun q hq hlt => by omega,
                    fun m hm hlt hbegins' hnone => hall m (by omega) hlt hbegins' fun q hq hqm => ?_⟩
                  rcases Nat.eq_or_lt_of_le hq with rfl | hgt
                  · exact hnot
                  · exact hnone q hgt hqm
          · have hle := runCount_le entry n
            rw [if_neg hzero, behindRuns, if_neg hzero, if_pos hn, if_pos hbegins,
              add32_of_lt (a := n) (by omega), add32_of_lt (by omega),
              sub32_of_le (by omega) hoffect]
            exact ih (by omega) (by omega) file
        · rw [if_neg hbegins, hone, ih (by omega) hoffect]
          by_cases hzero : offect = 0
          · subst hzero
            rw [behindRuns_zero, behindRuns_zero]
            constructor
            · intro hall m hm hlt hbegins' hnone
              rcases Nat.eq_or_lt_of_le hm with rfl | hgt
              · exact absurd hbegins' hbegins
              · exact hall m hgt hlt hbegins' fun q hq hqm => hnone q (by omega) hqm
            · intro hall m hm hlt hbegins' hnone
              refine hall m (by omega) hlt hbegins' fun q hq hqm => ?_
              rcases Nat.eq_or_lt_of_le hq with rfl | hgt
              · exact fun hlisted => hbegins hlisted.1
              · exact hnone q hgt hqm
          · rw [behindRuns, if_neg hzero, if_pos hn, if_neg hbegins]
      · rw [if_neg hn]
        refine iff_of_true (fun a ha => by cases ha) (fun m hm hlt => ?_)
        have hstart : n ≤ behindRuns entry count (fuel + 1) n offect := by
          rw [behindRuns, if_neg hn, ite_self]
        omega

theorem FatDir.Fits.nameLen_put {e : FatDir} (h : e.Fits) (file : FatFile) :
    (e.put file).nameLen = file.nameLen := by
  have hend := h.2
  refine Bytes.le_congr fun i hi => ?_
  rw [FatDir.put, FatDir.place_of_pos h.1, if_neg (by omega)]

theorem RunFits.nameLen_putRun (hn : n + 64 < 2 ^ 32) (hfits : RunFits entry n) (file : FatFile) :
    (putRun entry n file).nameLen = (entry n).place + (entry n).copyLen := by
  have hle := runCount_le entry n
  obtain ⟨-, -, hsub, -⟩ := runNext n hle
  have hlength : sub32 (runCount entry n) 1 = runCount entry n - 1 := hsub hfits.1.1
  have hcopy : (entry n).copyLen ≤ 13 := scanUntil_le _ 13 0
  have hplace := FatDir.place_of_pos hfits.1.1
  have hend := hfits.1.2
  have hcarried : carried entry n ≤ runCount entry n - 1 := by
    have := scanUntil_le (fun j => decide (¬ Continues entry (add32 (n + 1) j)))
      (sub32 (runCount entry n) 1) 0
    unfold carried
    omega
  have hcontinues : ∀ q, n < q → q ≤ n + carried entry n → Continues entry q := by
    intro q hq hqn
    have hpass := not_stop_of_lt_scanUntil
      (fun j => decide (¬ Continues entry (add32 (n + 1) j))) (Nat.zero_le (q - (n + 1)))
      (show q - (n + 1) < carried entry n by omega)
    rw [add32_of_lt (by omega), show n + 1 + (q - (n + 1)) = q by omega] at hpass
    exact not_not.1 (of_decide_eq_false hpass)
  -- the entries that carry it on leave the length alone
  have hall : ∀ m ≤ carried entry n, ∀ file : FatFile,
      FatFile.nameLen ((List.range' 0 m).foldl
        (fun file j => (entry (add32 (n + 1) j)).put file) file) = file.nameLen := by
    intro m hm file
    induction m with
    | zero => rfl
    | succ m ih =>
        have hfit := hfits.2 (n + 1 + m) (by omega) (by omega)
          fun q hq hqm => hcontinues q hq (by omega)
        rw [List.range'_concat, List.foldl_append, List.foldl_cons, List.foldl_nil, Nat.zero_add,
          Nat.one_mul, add32_of_lt (by omega), hfit.nameLen_put, ih (by omega)]
  rw [putRun, hall _ (Nat.le_refl _), add32_of_lt (by omega),
    FatFile.nameLen_setNameLen _ (by omega)]

theorem nameLen_le_of_fits (hcount : count + 64 < 2 ^ 32) {fuel offect : ℕ}
    (hfuel : count ≤ n + fuel) (hoffect : offect < 2 ^ 32) {file : FatFile}
    (h : ∀ m, behindRuns entry count fuel n offect ≤ m → m < count → Begins entry m →
      (∀ q, behindRuns entry count fuel n offect ≤ q → q < m → ¬ Listed entry fileType q) →
      RunFits entry m) :
    (listLoop entry fileType count fuel n offect file).nameLen ≤ 256 := by
  obtain ⟨-, hempty⟩ | ⟨p, type, hfirst, -, hloop⟩ :=
    (@listLoop_spec entry fileType n count hcount fuel offect hfuel hoffect file).symm
  · omega
  · have hfits := h p hfirst.le hfirst.lt hfirst.listed.1 hfirst.first
    have hplace := FatDir.place_of_pos hfits.1.1
    have hend := hfits.1.2
    have hcopy : (entry p).copyLen ≤ 13 := scanUntil_le _ 13 0
    have hp := hfirst.lt
    rw [hloop, FatFile.nameLen_setType, held_last file hfirst.le, if_pos hfirst.listed.1,
      hfits.nameLen_putRun (by omega)]
    omega

end Listing

namespace FatVolume

variable {diskRead : DiskRead} {fat : FatVolume} {fuel : ℕ} {e : FatDir}
  {dir : Option FatStdDir} {entry : ℕ → FatDir} {fileType : ℕ → Option FileType} {count : ℕ}

/-- A listing stores inside the name, and returns a length of a name, where the runs that it
copies fit: those from the entry at which it has counted off its runs up to the first run that it
accepts. -/
theorem listing_inside_iff (hview : fat.Views diskRead fuel e dir entry fileType count)
    {offect : ℕ} (hoffect : offect < 2 ^ 32) (file : FatFile) :
    ((∀ p, .store p ∈ listAccess entry fileType count count 0 offect file → p < 256) ∧
      ∀ out, fat.listFile diskRead fuel e file dir offect = some out → out.nameLen ≤ 256) ↔
    ∀ n < count, behindRuns entry count count 0 offect ≤ n → Begins entry n →
      (∀ q < n, behindRuns entry count count 0 offect ≤ q → ¬ Listed entry fileType q) →
      RunFits entry n := by
  have hcount := hview.count_lt
  have hiff := @listAccess_forall_iff entry fileType 0 count
    (fun a => ∀ p, a = .store p → p < 256) (RunFits entry) (fun m hm p hp => by cases hp)
    (fun m hm hbegins file => by
      rw [← listEntryAccess_stores_iff (by omega) file]
      exact ⟨fun h p hp => h _ hp p rfl, fun h a ha p hp => h p (hp ▸ ha)⟩)
    (by omega) count offect (by omega) hoffect file
  have hstores : (∀ p, .store p ∈ listAccess entry fileType count count 0 offect file → p < 256) ↔
      ∀ a ∈ listAccess entry fileType count count 0 offect file, ∀ p, a = .store p → p < 256 :=
    ⟨fun h a ha p hp => h p (hp ▸ ha), fun h p hp => h _ hp p rfl⟩
  rw [and_iff_left_of_imp, hstores, hiff]
  · constructor
    · exact fun hall n hn hstart hbegins hnone =>
        hall n hstart hn hbegins fun q hq hqn => hnone q hqn hq
    · exact fun hall n hstart hn hbegins hnone =>
        hall n hn hstart hbegins fun q hqn hq => hnone q hq hqn
  · intro h out hout
    rw [hview.listFile_eq, Option.some.injEq] at hout
    subst hout
    exact nameLen_le_of_fits (by omega) (by omega) hoffect (hiff.1 (hstores.1 h))

end FatVolume

/-! ## A root directory that ends inside a run -/

section Example

/-- The disk of the small volume where the last entry of the root begins a run: its first byte is
the given one, and its part holds the name `f`. -/
def cutDiskRead (order : BitVec 8) : DiskRead := fun _ count offect =>
  some ((List.range count).map fun i =>
    Function.update (Function.update (Function.update (tinyDisk 0x20) 96 order) 97 0x66) 107 0x0f
      (offect + i))

def cutEntry (order : BitVec 8) : ℕ → FatDir :=
  tinyVolume.readRootDirEntry (cutDiskRead order) fun _ => 0

/-- The listing of the root with the file `f` stays inside the name. -/
theorem listing_inside_file :
    (∀ p, .store p ∈ listAccess (sumEntry 0x11) rootFileType 2 2 0 0 (fun _ => 0) →
        p < 256) ∧
      ∀ out, tinyVolume.listFile (sumDiskRead 0x11) 2 (fun _ => 0) (fun _ => 0) none 0 =
        some out → out.nameLen ≤ 256 := by
  refine (FatVolume.listing_inside_iff (sumEntry_views 0x11) (by decide) _).2
    fun n hn _ hbegins _ => ?_
  obtain rfl | rfl : n = 0 ∨ n = 1 := by omega
  · have hone : runCount (sumEntry 0x11) 0 = 1 := by with_unfolding_all decide
    have hlen : (sumEntry 0x11 0).copyLen = 1 := by with_unfolding_all decide
    refine ⟨⟨by with_unfolding_all decide, ?_⟩, fun p hp hlt => by omega⟩
    rw [hlen]
    with_unfolding_all decide
  · exact absurd hbegins (by with_unfolding_all decide)

/-- A first entry with the number zero: the listing stores in front of the name. -/
theorem listing_not_inside :
    ¬ ((∀ p, .store p ∈ listAccess (cutEntry 0x40) rootFileType 2 2 0 0 (fun _ => 0) →
        p < 256) ∧
      ∀ out, tinyVolume.listFile (cutDiskRead 0x40) 2 (fun _ => 0) (fun _ => 0) none 0 =
        some out → out.nameLen ≤ 256) := by
  intro hinside
  exact absurd (hinside.1 (2 ^ 32 - 13) (by with_unfolding_all decide)) (by decide)

end Example

end BitchKernel
