import BitchKernel.Dev.AtaRead

/-!
# What the driver learns of its drives

`init_status` of `driver/ata.c`: each of the four drives is sent `COM_IDENTIFY`, and the
256 words of its answer are read one after the other. They say whether the drive has
sectors under LBA48 or LBA28 addresses, and how many. The modes of the four drives share
the byte `ata_state`, and a drive with a number of sectors becomes a disk.
-/

namespace BitchKernel

/-- The words of an answer, in the order of the data register, or `none` where the drive
does not set `STAT_REG_DRDY`. -/
abbrev AtaAnswer := Option (ℕ → BitVec 16)

/-- The loop over the words, from word `i` on; it ends early at a first word that is 0. -/
def identifyLoop (data : ℕ → BitVec 16) : (rem i : ℕ) → AtaState → ℕ → AtaState × ℕ
  | 0, _, state, sectors => (state, sectors)
  | rem + 1, i, state, sectors =>
      if i = 0 then
        if data i = 0 then (state, sectors) else identifyLoop data rem (i + 1) .chs sectors
      else if i = 49 ∧ data i &&& 0x100 ≠ 0 then identifyLoop data rem (i + 1) .lba28 sectors
      else if i = 60 ∧ state = .lba28 then identifyLoop data rem (i + 1) state (data i).toNat
      else if i = 61 ∧ state = .lba28 then
        identifyLoop data rem (i + 1) state (add64 sectors ((data i).toNat * 2 ^ 16))
      else if i = 83 ∧ data i &&& 0x200 ≠ 0 then identifyLoop data rem (i + 1) .lba48 sectors
      else if i = 100 ∧ state = .lba48 then identifyLoop data rem (i + 1) state (data i).toNat
      else if i = 101 ∧ state = .lba48 then
        identifyLoop data rem (i + 1) state (add64 sectors ((data i).toNat * 2 ^ 16))
      else if i = 102 ∧ state = .lba48 then
        identifyLoop data rem (i + 1) state (add64 sectors ((data i).toNat * 2 ^ 32))
      else if i = 103 ∧ state = .lba48 then
        identifyLoop data rem (i + 1) state (add64 sectors ((data i).toNat * 2 ^ 48))
      else identifyLoop data rem (i + 1) state sectors

/-- `state` and `ata_sectors[n]` after the answer. -/
def identifyDrive : AtaAnswer → AtaState × ℕ
  | none => (.noDisk, 0)
  | some data => identifyLoop data 256 0 .noDisk 0

/-- The value of an `_ata_state_t`. -/
def AtaState.code : AtaState → BitVec 8
  | .noDisk => 0
  | .chs => 1
  | .lba28 => 2
  | .lba48 => 3

def AtaState.ofCode (code : BitVec 8) : AtaState :=
  if code = 0 then .noDisk else if code = 1 then .chs else if code = 2 then .lba28 else .lba48

/-- The variables `init_status` sets, and its calls of `disk_create` with the drive and the
number of its sectors. -/
structure AtaStatus where
  ataState : BitVec 8
  ataSectors : ℕ → ℕ
  created : List (ℕ × ℕ)

namespace AtaStatus

def identify (drives : ℕ → AtaAnswer) (s : AtaStatus) (n : ℕ) : AtaStatus :=
  let (state, sectors) := identifyDrive (drives n)
  { ataState := s.ataState ||| (state.code <<< (n * 2))
    ataSectors := Function.update s.ataSectors n sectors
    created := if sectors ≠ 0 then s.created ++ [(n, sectors)] else s.created }

/-- `io.state`, as `ata_io_lock` takes it from `ata_state`. -/
def ioState (s : AtaStatus) (n : ℕ) : AtaState := .ofCode ((s.ataState >>> (n * 2)) &&& 0x3)

end AtaStatus

/-- `init_status`; `before` is what `ata_sectors` held. -/
def initStatus (drives : ℕ → AtaAnswer) (before : ℕ → ℕ) : AtaStatus :=
  (List.range 4).foldl (AtaStatus.identify drives) ⟨0, before, []⟩

/-! ## The words of an answer -/

/-- What an answer says: the words 83 and 49 name the mode, and the words behind it the number
of sectors. -/
def identified (data : ℕ → BitVec 16) : AtaState × ℕ :=
  if data 0 = 0 then (.noDisk, 0)
  else if data 83 &&& 0x200 ≠ 0 then
    (.lba48, (data 100).toNat + (data 101).toNat * 2 ^ 16 + (data 102).toNat * 2 ^ 32 +
      (data 103).toNat * 2 ^ 48)
  else if data 49 &&& 0x100 ≠ 0 then (.lba28, (data 60).toNat + (data 61).toNat * 2 ^ 16)
  else (.chs, 0)

section Loop

variable {data : ℕ → BitVec 16} {state : AtaState} {sectors : ℕ}

def identifyWords : List ℕ := [0, 49, 60, 61, 83, 100, 101, 102, 103]

theorem identifyLoop_succ (rem : ℕ) {i : ℕ} (hi : i ∉ identifyWords) :
    identifyLoop data (rem + 1) i state sectors = identifyLoop data rem (i + 1) state sectors := by
  simp only [identifyWords, List.mem_cons, List.not_mem_nil, or_false, not_or] at hi
  obtain ⟨h0, h49, h60, h61, h83, h100, h101, h102, h103⟩ := hi
  rw [identifyLoop]
  simp only [h0, h49, h60, h61, h83, h100, h101, h102, h103, false_and, if_false]

theorem identifyLoop_skip (d rem i : ℕ) (hi : ∀ m, i ≤ m → m < i + d → m ∉ identifyWords) :
    identifyLoop data (rem + d) i state sectors = identifyLoop data rem (i + d) state sectors := by
  induction d generalizing i with
  | zero => rfl
  | succ d ih =>
      rw [← Nat.add_assoc, identifyLoop_succ _ (hi i le_rfl (by omega)),
        ih (i + 1) fun m hm hm' => hi m (by omega) (by omega), Nat.add_right_comm, Nat.add_assoc]

theorem identifyLoop_mode28 (rem : ℕ) : identifyLoop data (rem + 1) 49 state sectors =
    identifyLoop data rem 50 (if data 49 &&& 0x100 ≠ 0 then .lba28 else state) sectors := by
  by_cases hbit : data 49 &&& 256#16 = 0#16 <;> simp [identifyLoop, hbit]

theorem identifyLoop_mode48 (rem : ℕ) : identifyLoop data (rem + 1) 83 state sectors =
    identifyLoop data rem 84 (if data 83 &&& 0x200 ≠ 0 then .lba48 else state) sectors := by
  by_cases hbit : data 83 &&& 512#16 = 0#16 <;> simp [identifyLoop, hbit]

theorem identifyLoop_sectors28 (rem : ℕ) : identifyLoop data (rem + 2) 60 state sectors =
    identifyLoop data rem 62 state (if state = .lba28 then
      (data 60).toNat + (data 61).toNat * 2 ^ 16 else sectors) := by
  by_cases hstate : state = .lba28
  · have h60 := (data 60).isLt
    have h61 := (data 61).isLt
    have hadd : add64 (data 60).toNat ((data 61).toNat * 65536) =
        (data 60).toNat + (data 61).toNat * 65536 := Lib.Word.add_of_lt (by omega)
    simp [identifyLoop, hstate, hadd]
  · simp [identifyLoop, hstate]

theorem identifyLoop_sectors48 (rem : ℕ) : identifyLoop data (rem + 4) 100 state sectors =
    identifyLoop data rem 104 state (if state = .lba48 then
      (data 100).toNat + (data 101).toNat * 2 ^ 16 + (data 102).toNat * 2 ^ 32 +
        (data 103).toNat * 2 ^ 48 else sectors) := by
  by_cases hstate : state = .lba48
  · have h100 := (data 100).isLt
    have h101 := (data 101).isLt
    have h102 := (data 102).isLt
    have h103 := (data 103).isLt
    have hadd : add64 (data 100).toNat ((data 101).toNat * 65536) =
        (data 100).toNat + (data 101).toNat * 65536 := Lib.Word.add_of_lt (by omega)
    have hadd' : ∀ x : ℕ, x < 2 ^ 32 → add64 x ((data 102).toNat * 4294967296) =
        x + (data 102).toNat * 4294967296 := fun x hx => Lib.Word.add_of_lt (by omega)
    have hadd'' : ∀ x : ℕ, x < 2 ^ 48 → add64 x ((data 103).toNat * 281474976710656) =
        x + (data 103).toNat * 281474976710656 := fun x hx => Lib.Word.add_of_lt (by omega)
    simp only [identifyLoop, hstate]
    simp [hadd, hadd' _ (show (data 100).toNat + (data 101).toNat * 65536 < 2 ^ 32 by omega),
      hadd'' _ (show (data 100).toNat + (data 101).toNat * 65536 +
        (data 102).toNat * 4294967296 < 2 ^ 48 by omega)]
  · simp [identifyLoop, hstate]

theorem identifyLoop_eq (data : ℕ → BitVec 16) :
    identifyLoop data 256 0 .noDisk 0 = identified data := by
  have hskip : ∀ (d rem i : ℕ) (state : AtaState) (sectors : ℕ),
      (∀ m ∈ identifyWords, m < i ∨ i + d ≤ m) →
        identifyLoop data (rem + d) i state sectors = identifyLoop data rem (i + d) state sectors :=
    fun d rem i _ _ hout => identifyLoop_skip d rem i fun m hle hlt hm => by
      rcases hout m hm with h | h <;> omega
  unfold identified
  by_cases hzero : data 0 = 0
  · simp [identifyLoop, hzero]
  have hstart : identifyLoop data 256 0 .noDisk 0 = identifyLoop data 255 1 .chs 0 := by
    rw [identifyLoop, if_pos rfl, if_neg hzero]
  rw [if_neg hzero, hstart, hskip 48 207 1 _ _ (by decide), identifyLoop_mode28,
    hskip 10 196 50 _ _ (by decide), identifyLoop_sectors28, hskip 21 173 62 _ _ (by decide),
    identifyLoop_mode48, hskip 16 156 84 _ _ (by decide), identifyLoop_sectors48,
    hskip 152 0 104 _ _ (by decide), identifyLoop]
  by_cases h48 : data 83 &&& 0x200 ≠ 0
  · rw [if_pos h48, if_pos h48, if_pos rfl]
  · rw [if_neg h48, if_neg h48]
    by_cases h28 : data 49 &&& 0x100 ≠ 0
    · rw [if_pos h28, if_pos h28]
      rfl
    · rw [if_neg h28, if_neg h28]
      rfl

end Loop

/-! ## The four drives -/

theorem AtaState.ofCode_code (state : AtaState) : .ofCode state.code = state := by
  cases state <;> rfl

theorem ataState_shift : ∀ a b c d : AtaState,
    let byte := 0 ||| a.code <<< (0 * 2) ||| b.code <<< (1 * 2) ||| c.code <<< (2 * 2) |||
      d.code <<< (3 * 2)
    (byte >>> (0 * 2)) &&& 0x3 = a.code ∧ (byte >>> (1 * 2)) &&& 0x3 = b.code ∧
      (byte >>> (2 * 2)) &&& 0x3 = c.code ∧ (byte >>> (3 * 2)) &&& 0x3 = d.code := by
  intro a b c d
  cases a <;> cases b <;> cases c <;> cases d <;> decide

def AtaAnswer.tells : AtaAnswer → AtaState × ℕ
  | none => (.noDisk, 0)
  | some data => identified data

theorem identifyDrive_eq (answer : AtaAnswer) : identifyDrive answer = answer.tells := by
  cases answer with
  | none => rfl
  | some data => exact identifyLoop_eq data

/-- A drive with a number of sectors has addresses, and the number fits its words. -/
theorem AtaAnswer.tells_mode {answer : AtaAnswer} (h : answer.tells.2 ≠ 0) :
    answer.tells.1 = .lba28 ∧ answer.tells.2 < 2 ^ 32 ∨
      answer.tells.1 = .lba48 ∧ answer.tells.2 < 2 ^ 64 := by
  cases answer with
  | none => exact absurd rfl h
  | some data =>
      have hword : ∀ i, (data i).toNat < 2 ^ 16 := fun i => (data i).isLt
      have h60 := hword 60
      have h61 := hword 61
      have h100 := hword 100
      have h101 := hword 101
      have h102 := hword 102
      have h103 := hword 103
      unfold tells identified at h ⊢
      dsimp only at h ⊢
      split_ifs at h ⊢
      · exact absurd rfl h
      · exact .inr ⟨rfl, by omega⟩
      · exact .inl ⟨rfl, by omega⟩
      · exact absurd rfl h

section Drives

variable (drives : ℕ → AtaAnswer) (s : AtaStatus)

theorem AtaStatus.identify_sectors (n : ℕ) : (AtaStatus.identify drives s n).ataSectors =
    Function.update s.ataSectors n (drives n).tells.2 := by
  rw [← identifyDrive_eq]
  rfl

theorem AtaStatus.mem_created_identify (n m x : ℕ) :
    (m, x) ∈ (AtaStatus.identify drives s n).created ↔
      (m, x) ∈ s.created ∨ m = n ∧ x = (drives m).tells.2 ∧ x ≠ 0 := by
  have hdisk : (AtaStatus.identify drives s n).created =
      if (drives n).tells.2 ≠ 0 then s.created ++ [(n, (drives n).tells.2)] else s.created := by
    rw [← identifyDrive_eq]
    rfl
  rw [hdisk]
  split_ifs with hzero
  · rw [List.mem_append, List.mem_singleton, Prod.mk.injEq]
    refine or_congr_right (and_congr_right ?_)
    rintro rfl
    exact ⟨fun hx => ⟨hx, hx ▸ hzero⟩, And.left⟩
  · refine (or_iff_left ?_).symm
    rintro ⟨rfl, hx, hne⟩
    exact hzero (hx ▸ hne)

/-- The numbers of sectors after the first drives, and the disks made of them. -/
theorem foldl_identify (n : ℕ) (hnone : s.created = []) :
    (∀ m < n, ((List.range n).foldl (AtaStatus.identify drives) s).ataSectors m =
        (drives m).tells.2) ∧
      ∀ m x, (m, x) ∈ ((List.range n).foldl (AtaStatus.identify drives) s).created ↔
        m < n ∧ x = (drives m).tells.2 ∧ x ≠ 0 := by
  induction n with
  | zero => simp [hnone]
  | succ n ih =>
      obtain ⟨hsectors, hcreated⟩ := ih
      rw [List.range_succ, List.foldl_append, List.foldl_cons, List.foldl_nil]
      refine ⟨fun m hm => ?_, fun m x => ?_⟩
      · rw [AtaStatus.identify_sectors]
        by_cases hmn : m = n
        · rw [hmn, Function.update_self]
        · rw [Function.update_of_ne hmn, hsectors m (by omega)]
      · rw [AtaStatus.mem_created_identify, hcreated, ← or_and_right, Nat.lt_succ_iff_lt_or_eq]

end Drives

theorem ioState_initStatus (drives : ℕ → AtaAnswer) (before : ℕ → ℕ) {n : ℕ} (hn : n < 4) :
    (initStatus drives before).ioState n = (drives n).tells.1 := by
  obtain ⟨h0, h1, h2, h3⟩ := ataState_shift (identifyDrive (drives 0)).1
    (identifyDrive (drives 1)).1 (identifyDrive (drives 2)).1 (identifyDrive (drives 3)).1
  rw [← identifyDrive_eq]
  unfold AtaStatus.ioState
  have hcases : n = 0 ∨ n = 1 ∨ n = 2 ∨ n = 3 := by omega
  rcases hcases with rfl | rfl | rfl | rfl
  · exact (congrArg AtaState.ofCode h0).trans (AtaState.ofCode_code _)
  · exact (congrArg AtaState.ofCode h1).trans (AtaState.ofCode_code _)
  · exact (congrArg AtaState.ofCode h2).trans (AtaState.ofCode_code _)
  · exact (congrArg AtaState.ofCode h3).trans (AtaState.ofCode_code _)

/-- The driver with the variables that `init_status` set. -/
def AtaStatus.toAta (s : AtaStatus) (ata : Ata) : Ata :=
  { ata with state := s.ioState, sectors := s.ataSectors }

/-- The commands of an LBA mode name every sector of a drive exactly when their number fits the
addresses of the mode. -/
theorem ataCommand_lba_iff {state : AtaState} (hlba : state = .lba28 ∨ state = .lba48) {sectors : ℕ} :
    (∀ sectorCount, ∀ startSector < sectors, ∃ command,
        ataCommand state sectorCount startSector = some command ∧ command.lba = startSector) ↔
      sectors ≤ if state = .lba28 then 2 ^ 28 else 2 ^ 48 := by
  rcases hlba with rfl | rfl
  · rw [if_pos rfl]
    refine ⟨fun hnames => ?_, fun hle sectorCount startSector hlt => ⟨_, rfl, ?_⟩⟩
    · by_contra hgt
      -- the first address that the four bytes cut off
      obtain ⟨command, hcommand, hlba⟩ := hnames 0 (2 ^ 28) (by omega)
      rw [← Option.some.inj hcommand] at hlba
      exact absurd hlba (by decide)
    · simp only [ataLba28Attr]
      omega
  · rw [if_neg (by decide)]
    refine ⟨fun hnames => ?_, fun hle sectorCount startSector hlt => ⟨_, rfl, ?_⟩⟩
    · by_contra hgt
      obtain ⟨command, hcommand, hlba⟩ := hnames 0 (2 ^ 48) (by omega)
      rw [← Option.some.inj hcommand] at hlba
      exact absurd hlba (by decide)
    · simp only [ataLba48Attr]
      omega

/-- **The driver knows its drives.** Whatever the drives answer, `init_status` reads from the
words of each what they say of its mode and its number of sectors, and the mode is read back
from the byte the drives share. The drives with a number of sectors become disks, and they
alone; each of them is in an LBA mode. The commands to it name each of its sectors exactly when
their number fits the addresses of the mode, and where none of them fails the reads and the
writes find an `LbaDrive` exactly then. -/
theorem drives_identified (drives : ℕ → AtaAnswer) (before : ℕ → ℕ) (ata : Ata) :
    let s := initStatus drives before
    (∀ n < 4, (s.ioState n, s.ataSectors n) = (drives n).tells) ∧
      (∀ n sectors, (n, sectors) ∈ s.created ↔ n < 4 ∧ sectors = s.ataSectors n ∧ sectors ≠ 0) ∧
      ∀ n sectors, (n, sectors) ∈ s.created →
        (s.ioState n = .lba28 ∨ s.ioState n = .lba48) ∧
          ((∀ sectorCount, ∀ startSector < sectors, ∃ command,
              ataCommand (s.ioState n) sectorCount startSector = some command ∧
                command.lba = startSector) ↔
            sectors ≤ if s.ioState n = .lba28 then 2 ^ 28 else 2 ^ 48) ∧
          ((s.toAta ata).LbaDrive n ↔ (∀ command, ata.error n command = false) ∧
            sectors ≤ if s.ioState n = .lba28 then 2 ^ 28 else 2 ^ 48) := by
  intro s
  obtain ⟨hsectors, hcreated⟩ := foldl_identify drives ⟨0, before, []⟩ 4 rfl
  have hmade : ∀ n sectors, (n, sectors) ∈ s.created ↔
      n < 4 ∧ sectors = s.ataSectors n ∧ sectors ≠ 0 := by
    intro n sectors
    refine (hcreated n sectors).trans (and_congr_right fun hn => ?_)
    rw [← hsectors n hn]
    rfl
  refine ⟨fun n hn => ?_, hmade, fun n sectors hmem => ?_⟩
  · rw [ioState_initStatus drives before hn]
    exact Prod.ext rfl (hsectors n hn)
  · obtain ⟨hn, hcount, hne⟩ := (hmade n sectors).1 hmem
    have hmode : s.ioState n = (drives n).tells.1 := ioState_initStatus drives before hn
    have htells : s.ataSectors n = (drives n).tells.2 := hsectors n hn
    have hlba : s.ioState n = .lba28 ∨ s.ioState n = .lba48 := by
      rw [hmode]
      exact (AtaAnswer.tells_mode (htells ▸ hcount ▸ hne)).imp And.left And.left
    refine ⟨hlba, ataCommand_lba_iff hlba, fun h => ⟨h.error, ?_⟩, fun ⟨herror, hle⟩ => ⟨hn, ?_, herror⟩⟩
    · rcases h.mode with ⟨hstate, hle⟩ | ⟨hstate, hle⟩
      · have hstate : s.ioState n = .lba28 := hstate
        rw [if_pos hstate, hcount]
        exact hle
      · have hstate : s.ioState n = .lba48 := hstate
        rw [if_neg (by rw [hstate]; decide), hcount]
        exact hle
    · rw [hcount] at hle
      rcases hlba with hstate | hstate
      · rw [if_pos hstate] at hle
        exact .inl ⟨hstate, hle⟩
      · rw [if_neg (by rw [hstate]; decide)] at hle
        exact .inr ⟨hstate, hle⟩

end BitchKernel
