import BitchKernel.Dev.Ata
import BitchKernel.Lib.Machine

/-!
# Waiting for a sector

The sections of `ata_read` and `ata_write` under the lock of a channel, statement by statement,
with the drives of the channel and the interrupts that they have raised and that are still to
come. A read waits for each sector until an interrupt that finds the drive not busy has cleared
the flag, and a write never waits for its interrupts: one of them that comes late is taken for
that of a sector. Without such an interrupt a read takes only words that the drive has ready.
-/

namespace BitchKernel

open Lib

/-- A drive: the sectors of its read command, the number of the one it hands out next, whether that
is in its buffer and how many of its words were taken; the sectors of its write command that are
still to come, how many words of the next were given, and whether it still absorbs a sector. -/
structure AtaDrive where
  toRead : ℕ
  sector : ℕ
  ready : Bool
  taken : ℕ
  toWrite : ℕ
  given : ℕ
  absorbing : Bool
deriving DecidableEq

namespace AtaDrive

def rest : AtaDrive := ⟨0, 0, false, 0, 0, 0, false⟩

/-- `STAT_REG_BSY` of the status register. -/
def busy (d : AtaDrive) : Bool := d.absorbing || decide (d.sector < d.toRead) && !d.ready

def startRead (d : AtaDrive) (count : ℕ) : AtaDrive :=
  { d with toRead := count, sector := 0, ready := false, taken := 0, toWrite := 0, given := 0 }

def startWrite (d : AtaDrive) (count : ℕ) : AtaDrive :=
  { d with toRead := 0, sector := 0, ready := false, taken := 0, toWrite := count, given := 0 }

def takeWord (d : AtaDrive) : AtaDrive :=
  if d.ready then
    if d.taken + 1 < 256 then { d with taken := d.taken + 1 }
    else { d with sector := d.sector + 1, ready := false, taken := 0 }
  else d

def giveWord (d : AtaDrive) : AtaDrive :=
  if 0 < d.toWrite ∧ d.absorbing = false then
    if d.given + 1 < 256 then { d with given := d.given + 1 }
    else { d with toWrite := d.toWrite - 1, given := 0, absorbing := true }
  else d

end AtaDrive

/-- What a section works on: the drive, `sector_count` and `start_sector`. -/
structure AtaTransfer where
  n : ℕ
  sectorCount : ℕ
  startSector : ℕ
deriving DecidableEq

/-- The next statement of the section that has the lock of the channel. -/
inductive ChannelPc
  | idle
  /-- `init_intr_lock(io.ilock)` of `ata_read` -/
  | readInit (t : AtaTransfer)
  /-- `ata_lba28_attr` or `ata_lba48_attr` -/
  | readAttr (t : AtaTransfer)
  | readCommand (t : AtaTransfer) (command : AtaCommand)
  /-- `if ((inb(io.status_io) & STAT_REG_ERR) != 0)` -/
  | readStatus (t : AtaTransfer) (command : AtaCommand)
  /-- the `while` of `intr_lock` -/
  | lockLoop (t : AtaTransfer) (k : ℕ)
  /-- `if (*lock == 1)` of `intr_lock` -/
  | lockTest (t : AtaTransfer) (k : ℕ)
  /-- the state `LOCK`, until `process_switch` finds the flag cleared -/
  | locked (t : AtaTransfer) (k : ℕ)
  /-- `init_intr_lock(io.ilock)` of `ata_read_data` -/
  | dataInit (t : AtaTransfer) (k : ℕ)
  /-- `inw(io.data_io)` for the word `i` of sector `k` -/
  | inw (t : AtaTransfer) (k i : ℕ)
  | writeAttr (t : AtaTransfer)
  | writeCommand (t : AtaTransfer) (command : AtaCommand)
  | writeStatus (t : AtaTransfer) (command : AtaCommand)
  /-- the `while` of `ata_write_data` -/
  | poll (t : AtaTransfer) (k : ℕ)
  /-- `outw(data, io.data_io)` for the word `i` of sector `k` -/
  | outw (t : AtaTransfer) (k i : ℕ)
  /-- `ata_io_unlock(n)` -/
  | unlock
deriving DecidableEq

/-- A channel: `*io.ilock`, the drive that the device register selects, the drives, and the
interrupts that were raised for a sector in the buffer or an absorbed sector and are still to
come. -/
structure AtaChannel where
  ilock : ℕ
  selected : ℕ
  drive : ℕ → AtaDrive
  readOwed : ℕ
  writeOwed : ℕ
  pc : ChannelPc

inductive ChannelOp
  | ataRead (n count offect : ℕ)
  | ataWrite (n count offect : ℕ)
  /-- A statement of the section; `alone` tells whether the process is the only one. -/
  | statement (alone : Bool)
  /-- A drive has the next sector in its buffer. -/
  | sectorReady (n : ℕ)
  /-- A drive has absorbed a sector. -/
  | absorbed (n : ℕ)
  /-- An interrupt for a sector in the buffer. -/
  | readIrq
  /-- An interrupt for an absorbed sector. -/
  | writeIrq
deriving DecidableEq

namespace AtaChannel

variable (ata : Ata) (channel : ℕ) (s : AtaChannel)

def setDrive (n : ℕ) (d : AtaDrive) : AtaChannel := { s with drive := Function.update s.drive n d }

/-- `irq14_handler` and `irq15_handler`. -/
def irqHandler : AtaChannel := if (s.drive s.selected).busy then s else { s with ilock := 0 }

/-- The head of the loop of `ata_read_data` or `ata_write_data`, with its body at `pc`. -/
def nextSector (t : AtaTransfer) (k : ℕ) (pc : ChannelPc) : AtaChannel :=
  { s with pc := if k < t.sectorCount then pc else .unlock }

def statement (alone : Bool) : AtaChannel :=
  match s.pc with
  | .idle => s
  | .readInit t => { s with ilock := 1, pc := .readAttr t }
  | .readAttr t =>
      match ataCommand (ata.state t.n) t.sectorCount t.startSector with
      | none => { s with pc := .unlock }
      | some command => { s with selected := t.n, pc := .readCommand t command }
  | .readCommand t command =>
      { s.setDrive t.n ((s.drive t.n).startRead
          (if ata.error t.n command then 0 else command.sectorCount)) with
        pc := .readStatus t command }
  | .readStatus t command =>
      if ata.error t.n command then { s with pc := .unlock } else s.nextSector t 0 (.lockLoop t 0)
  | .lockLoop t k => if alone ∧ s.ilock = 1 then s else { s with pc := .lockTest t k }
  | .lockTest t k => { s with pc := if s.ilock = 1 then .locked t k else .dataInit t k }
  | .locked t k => if s.ilock = 0 then { s with ilock := 1, pc := .dataInit t k } else s
  | .dataInit t k => { s with ilock := 1, pc := .inw t k 0 }
  | .inw t k i =>
      let s := s.setDrive t.n (s.drive t.n).takeWord
      if i + 1 < 256 then { s with pc := .inw t k (i + 1) }
      else s.nextSector t (k + 1) (.lockLoop t (k + 1))
  | .writeAttr t =>
      match ataCommand (ata.state t.n) t.sectorCount t.startSector with
      | none => { s with pc := .unlock }
      | some command => { s with selected := t.n, pc := .writeCommand t command }
  | .writeCommand t command =>
      { s.setDrive t.n ((s.drive t.n).startWrite
          (if ata.error t.n command then 0 else command.sectorCount)) with
        pc := .writeStatus t command }
  | .writeStatus t command =>
      if ata.error t.n command then { s with pc := .unlock } else s.nextSector t 0 (.poll t 0)
  | .poll t k => if (s.drive s.selected).busy then s else { s with pc := .outw t k 0 }
  | .outw t k i =>
      let s := s.setDrive t.n (s.drive t.n).giveWord
      if i + 1 < 256 then { s with pc := .outw t k (i + 1) }
      else s.nextSector t (k + 1) (.poll t (k + 1))
  | .unlock => { s with pc := .idle }

/-- When an operation can be taken. A call comes to its section on a drive of the channel with its
first sector on the drive, and that of `ata_read` with a sector to read. -/
def Enabled : ChannelOp → Prop
  | .ataRead n count offect =>
      s.pc = .idle ∧ n < 4 ∧ n / 2 = channel ∧ offect / ataSectorSize < ata.sectors n ∧
        ata.sectorCount n count offect ≠ 0
  | .ataWrite n _ offect =>
      s.pc = .idle ∧ n < 4 ∧ n / 2 = channel ∧ offect / ataSectorSize < ata.sectors n
  | .statement _ => s.pc ≠ .idle
  | .sectorReady n =>
      (s.drive n).absorbing = false ∧ (s.drive n).sector < (s.drive n).toRead ∧
        (s.drive n).ready = false
  | .absorbed n => (s.drive n).absorbing = true
  | .readIrq => 0 < s.readOwed
  | .writeIrq => 0 < s.writeOwed

instance : (op : ChannelOp) → Decidable (s.Enabled ata channel op)
  | .ataRead _ _ _ => inferInstanceAs (Decidable (_ ∧ _))
  | .ataWrite _ _ _ => inferInstanceAs (Decidable (_ ∧ _))
  | .statement _ => inferInstanceAs (Decidable (_ ≠ _))
  | .sectorReady _ => inferInstanceAs (Decidable (_ ∧ _))
  | .absorbed _ => inferInstanceAs (Decidable (_ = _))
  | .readIrq => inferInstanceAs (Decidable (_ < _))
  | .writeIrq => inferInstanceAs (Decidable (_ < _))

def apply : ChannelOp → AtaChannel
  | .ataRead n count offect =>
      { s with pc := .readInit ⟨n, ata.sectorCount n count offect, offect / ataSectorSize⟩ }
  | .ataWrite n count offect =>
      { s with pc := .writeAttr ⟨n, ata.sectorCount n count offect, offect / ataSectorSize⟩ }
  | .statement alone => s.statement ata alone
  | .sectorReady n =>
      { s.setDrive n { s.drive n with ready := true } with readOwed := s.readOwed + 1 }
  | .absorbed n =>
      { s.setDrive n { s.drive n with absorbing := false } with writeOwed := s.writeOwed + 1 }
  | .readIrq => { s with readOwed := s.readOwed - 1 }.irqHandler
  | .writeIrq => { s with writeOwed := s.writeOwed - 1 }.irqHandler

/-- The flag decides a wait that is still to come. -/
def Armed : Prop :=
  match s.pc with
  | .readAttr t => ∃ command, ataCommand (ata.state t.n) t.sectorCount t.startSector = some command ∧
      ata.error t.n command = false
  | .readCommand t command | .readStatus t command => ata.error t.n command = false
  | .lockLoop _ _ | .lockTest _ _ | .locked _ _ => True
  | .inw t k _ => k + 1 < t.sectorCount
  | _ => False

/-- No interrupt for an absorbed sector finds the drive not busy while the flag decides a wait of
a read. -/
def WriteIrqIgnored : ChannelOp → Prop
  | .writeIrq => s.Armed ata → (s.drive s.selected).busy = true
  | _ => True

def ReadsReady : Prop :=
  ∀ t k i, s.pc = .inw t k i →
    (s.drive t.n).ready = true ∧ (s.drive t.n).sector = k ∧ (s.drive t.n).taken = i

end AtaChannel

/-- The runs of the sections of any calls on a channel, from drives at rest. A call of `ata_write`
is up to two calls of `ata_read` and a section of its own. -/
def channelMachine (ata : Ata) (channel : ℕ) : Machine AtaChannel ChannelOp where
  init s := s.ilock ≤ 1 ∧ (∀ n, s.drive n = .rest) ∧ s.readOwed = 0 ∧ s.writeOwed = 0 ∧ s.pc = .idle
  step s op s' := s.Enabled ata channel op ∧ s' = s.apply ata op

theorem ataCommand_sectorCount_le {state : AtaState} {sectorCount startSector : ℕ}
    {command : AtaCommand} (h : ataCommand state sectorCount startSector = some command)
    (hpos : 0 < sectorCount) : command.sectorCount ≤ sectorCount := by
  unfold ataCommand at h
  cases state with
  | noDisk => cases h
  | chs => cases h
  | lba28 =>
      rw [Option.some.injEq] at h
      subst h
      unfold ataLba28Attr
      dsimp only
      have hle := Nat.mod_le sectorCount (2 ^ 8)
      split
      · omega
      · exact hle
  | lba48 =>
      rw [Option.some.injEq] at h
      subst h
      unfold ataLba48Attr
      dsimp only
      have hle := Nat.mod_le sectorCount (2 ^ 16)
      split
      · omega
      · exact hle

def AtaDrive.Empty (d : AtaDrive) : Prop := d.toRead ≤ d.sector ∧ d.ready = false

theorem AtaDrive.Empty.giveWord {d : AtaDrive} (h : d.Empty) : d.giveWord.Empty := by
  unfold AtaDrive.giveWord
  split
  · split
    · exact h
    · exact h
  · exact h

/-- How far a read has come: it waits for a sector, or takes the words of one. -/
inductive ReadPhase
  | quiet
  | waits (t : AtaTransfer) (k : ℕ)
  | takes (t : AtaTransfer) (k i : ℕ)

namespace ChannelPc

def phase (ata : Ata) : ChannelPc → ReadPhase
  | .readStatus t command => if ata.error t.n command then .quiet else .waits t 0
  | .lockLoop t k | .lockTest t k | .locked t k => .waits t k
  | .dataInit t k => .takes t k 0
  | .inw t k i => .takes t k i
  | _ => .quiet

def Ok : ChannelPc → Prop
  | .readInit t | .readAttr t => 0 < t.sectorCount
  | .readCommand t command => 0 < t.sectorCount ∧ command.sectorCount ≤ t.sectorCount
  | .readStatus t _ => 0 < t.sectorCount
  | .inw _ _ i => i < 256
  | _ => True

end ChannelPc

namespace AtaChannel

variable {ata : Ata} {channel : ℕ} {s s' : AtaChannel} {t : AtaTransfer} {k i n : ℕ}
  {phase : ReadPhase}

structure Quiet (s : AtaChannel) : Prop where
  empty : ∀ n, (s.drive n).Empty
  owed : s.readOwed = 0

/-- A read waits for sector `k`: its interrupt was raised, and delivered, only if the drive has it
in the buffer. -/
structure Waits (s : AtaChannel) (t : AtaTransfer) (k : ℕ) : Prop where
  others : ∀ n ≠ t.n, (s.drive n).Empty
  sector : (s.drive t.n).sector = k
  taken : (s.drive t.n).taken = 0
  toRead : (s.drive t.n).toRead ≤ t.sectorCount
  owed : s.readOwed + (if s.ilock = 0 then 1 else 0) ≤ if (s.drive t.n).ready then 1 else 0

/-- A read takes sector `k`, of which it has `i` words, and its interrupt has come. -/
structure TakesSector (s : AtaChannel) (t : AtaTransfer) (k i : ℕ) : Prop where
  others : ∀ n ≠ t.n, (s.drive n).Empty
  ready : (s.drive t.n).ready = true
  sector : (s.drive t.n).sector = k
  taken : (s.drive t.n).taken = i
  toRead : (s.drive t.n).toRead ≤ t.sectorCount
  owed : s.readOwed = 0

def InPhase (s : AtaChannel) : ReadPhase → Prop
  | .quiet => s.Quiet
  | .waits t k => s.Waits t k
  | .takes t k i => s.TakesSector t k i

/-- The invariant of the runs in which the interrupts of writes are ignored. -/
structure Inv (ata : Ata) (s : AtaChannel) : Prop where
  lock : s.ilock ≤ 1
  ok : s.pc.Ok
  phase : s.InPhase (s.pc.phase ata)
  flag : s.Armed ata → (∀ t k, s.pc.phase ata ≠ .waits t k) → s.ilock = 1

@[simp] theorem setDrive_drive (s : AtaChannel) (n m : ℕ) (d : AtaDrive) :
    (s.setDrive n d).drive m = if m = n then d else s.drive m := by
  unfold setDrive
  exact Function.update_apply s.drive n d m

@[simp] theorem setDrive_readOwed (s : AtaChannel) (n : ℕ) (d : AtaDrive) :
    (s.setDrive n d).readOwed = s.readOwed := rfl

@[simp] theorem setDrive_ilock (s : AtaChannel) (n : ℕ) (d : AtaDrive) :
    (s.setDrive n d).ilock = s.ilock := rfl

/-! ## Drives and interrupts -/

theorem irqHandler_eq (s : AtaChannel) : s.irqHandler = { s with ilock := s.irqHandler.ilock } := by
  unfold irqHandler
  split <;> rfl

theorem irqHandler_ilock (s : AtaChannel) :
    s.irqHandler.ilock = if (s.drive s.selected).busy then s.ilock else 0 := by
  unfold irqHandler
  split <;> rfl

theorem Quiet.setDrive (h : s.Quiet) {d : AtaDrive} (hd : d.Empty) : (s.setDrive n d).Quiet := by
  refine ⟨fun m => ?_, h.owed⟩
  rw [setDrive_drive]
  split
  · exact hd
  · exact h.empty m

theorem InPhase.absorbed (h : s.InPhase phase) (n : ℕ) :
    ({ s.setDrive n { s.drive n with absorbing := false } with
      writeOwed := s.writeOwed + 1 } : AtaChannel).InPhase phase := by
  obtain ⟨d, hd, hsame⟩ : ∃ d, { s.drive n with absorbing := false } = d ∧
      d.sector = (s.drive n).sector ∧ d.taken = (s.drive n).taken ∧
      d.toRead = (s.drive n).toRead ∧ d.ready = (s.drive n).ready := ⟨_, rfl, rfl, rfl, rfl, rfl⟩
  obtain ⟨hsector, htaken, htoRead, hready⟩ := hsame
  rw [hd]
  have hempty : ∀ m, (s.drive m).Empty → ((s.setDrive n d).drive m).Empty := by
    intro m hm
    rw [setDrive_drive]
    split
    · rename_i heq
      subst heq
      exact ⟨by rw [htoRead, hsector]; exact hm.1, hready.trans hm.2⟩
    · exact hm
  have hfields : ∀ m, ((s.setDrive n d).drive m).sector = (s.drive m).sector ∧
      ((s.setDrive n d).drive m).taken = (s.drive m).taken ∧
      ((s.setDrive n d).drive m).toRead = (s.drive m).toRead ∧
      ((s.setDrive n d).drive m).ready = (s.drive m).ready := by
    intro m
    rw [setDrive_drive]
    split
    · rename_i heq
      subst heq
      exact ⟨hsector, htaken, htoRead, hready⟩
    · exact ⟨rfl, rfl, rfl, rfl⟩
  cases phase with
  | quiet => exact ⟨fun m => hempty m (h.empty m), h.owed⟩
  | waits t k =>
      obtain ⟨h₁, h₂, h₃, h₄⟩ := hfields t.n
      refine ⟨fun m hm => hempty m (h.others m hm), h₁.trans h.sector, h₂.trans h.taken,
        le_of_eq_of_le h₃ h.toRead, ?_⟩
      change s.readOwed + _ ≤ if ((s.setDrive n d).drive t.n).ready then 1 else 0
      rw [h₄]
      exact h.owed
  | takes t k i =>
      obtain ⟨h₁, h₂, h₃, h₄⟩ := hfields t.n
      exact ⟨fun m hm => hempty m (h.others m hm), h₄.trans h.ready, h₁.trans h.sector,
        h₂.trans h.taken, le_of_eq_of_le h₃ h.toRead, h.owed⟩

theorem InPhase.sectorReady (h : s.InPhase phase) (hsector : (s.drive n).sector < (s.drive n).toRead)
    (hready : (s.drive n).ready = false) :
    ({ s.setDrive n { s.drive n with ready := true } with
      readOwed := s.readOwed + 1 } : AtaChannel).InPhase phase := by
  have hempty : ¬ (s.drive n).Empty := fun hempty => Nat.not_lt.2 hempty.1 hsector
  cases phase with
  | quiet => exact absurd (h.empty n) hempty
  | waits t k =>
      have hn : n = t.n := by
        by_contra hne
        exact hempty (h.others n hne)
      subst hn
      have howed := h.owed
      rw [hready, if_neg Bool.false_ne_true] at howed
      refine ⟨fun m hm => ?_, ?_, ?_, ?_, ?_⟩
      · change ((s.setDrive t.n _).drive m).Empty
        rw [setDrive_drive, if_neg hm]
        exact h.others m hm
      · change ((s.setDrive t.n _).drive t.n).sector = k
        rw [setDrive_drive, if_pos rfl]
        exact h.sector
      · change ((s.setDrive t.n _).drive t.n).taken = 0
        rw [setDrive_drive, if_pos rfl]
        exact h.taken
      · change ((s.setDrive t.n _).drive t.n).toRead ≤ t.sectorCount
        rw [setDrive_drive, if_pos rfl]
        exact h.toRead
      · change s.readOwed + 1 + (if s.ilock = 0 then 1 else 0) ≤
          if ((s.setDrive t.n _).drive t.n).ready then 1 else 0
        rw [setDrive_drive, if_pos rfl, if_pos rfl]
        omega
  | takes t k i =>
      have hn : n = t.n := by
        by_contra hne
        exact hempty (h.others n hne)
      subst hn
      rw [h.ready] at hready
      cases hready

theorem InPhase.congr (h : s.InPhase phase) (hdrive : s'.drive = s.drive)
    (howed : s'.readOwed = s.readOwed)
    (hlock : (∀ t k, phase ≠ .waits t k) ∨ s'.ilock = s.ilock) : s'.InPhase phase := by
  cases phase with
  | quiet => exact ⟨fun n => by rw [hdrive]; exact h.empty n, howed.trans h.owed⟩
  | waits t k =>
      have hsame : s'.ilock = s.ilock := hlock.resolve_left fun hne => hne t k rfl
      exact ⟨fun n hn => by rw [hdrive]; exact h.others n hn, by rw [hdrive]; exact h.sector,
        by rw [hdrive]; exact h.taken, by rw [hdrive]; exact h.toRead,
        by rw [hdrive, howed, hsame]; exact h.owed⟩
  | takes t k i =>
      exact ⟨fun n hn => by rw [hdrive]; exact h.others n hn, by rw [hdrive]; exact h.ready,
        by rw [hdrive]; exact h.sector, by rw [hdrive]; exact h.taken,
        by rw [hdrive]; exact h.toRead, howed.trans h.owed⟩

theorem InPhase.readIrq (h : s.InPhase phase) (howed : 0 < s.readOwed) :
    (∃ t k, phase = .waits t k) ∧
      ({ s with readOwed := s.readOwed - 1 } : AtaChannel).irqHandler.InPhase phase := by
  cases phase with
  | quiet =>
      have := h.owed
      omega
  | takes t k i =>
      have := h.owed
      omega
  | waits t k =>
      refine ⟨⟨t, k, rfl⟩, ?_⟩
      rw [irqHandler_eq]
      refine ⟨h.others, h.sector, h.taken, h.toRead, ?_⟩
      have hle := h.owed
      dsimp only
      split <;> split at hle <;> omega

theorem armed_of_waits (h : s.pc.phase ata = .waits t k) : s.Armed ata := by
  unfold Armed
  cases hpc : s.pc with
  | readStatus t command =>
      rw [hpc] at h
      unfold ChannelPc.phase at h
      dsimp only at h
      split at h
      · cases h
      · rename_i herror
        exact Bool.eq_false_iff.2 herror
  | _ => rw [hpc] at h; trivial

/-- What leaves the section where it is keeps the invariant, if the flag stays set where it
decides a wait to come. -/
theorem Inv.of_pc (h : Inv ata s) (hpc : s'.pc = s.pc) (hlock : s'.ilock ≤ 1)
    (hphase : s'.InPhase (s.pc.phase ata))
    (hflag : s.Armed ata → (∀ t k, s.pc.phase ata ≠ .waits t k) → s'.ilock = 1) : Inv ata s' := by
  refine ⟨hlock, by rw [hpc]; exact h.ok, by rw [hpc]; exact hphase, fun harmed hne => ?_⟩
  unfold Armed at harmed
  rw [hpc] at harmed hne
  exact hflag harmed hne

theorem Inv.env {op : ChannelOp} (h : Inv ata s) (henabled : s.Enabled ata channel op)
    (hignored : s.WriteIrqIgnored ata op)
    (hop : (∃ n, op = .sectorReady n) ∨ (∃ n, op = .absorbed n) ∨ op = .readIrq ∨ op = .writeIrq) :
    Inv ata (s.apply ata op) := by
  obtain ⟨n, rfl⟩ | ⟨n, rfl⟩ | rfl | rfl := hop
  · exact h.of_pc rfl h.lock (h.phase.sectorReady henabled.2.1 henabled.2.2) h.flag
  · exact h.of_pc rfl h.lock (h.phase.absorbed n) h.flag
  · obtain ⟨⟨t, k, hwaits⟩, hphase⟩ := h.phase.readIrq henabled
    refine h.of_pc ?_ ?_ hphase fun _ hne => absurd hwaits (hne t k)
    · change AtaChannel.pc (irqHandler _) = s.pc
      rw [irqHandler_eq]
    · change AtaChannel.ilock (irqHandler _) ≤ 1
      rw [irqHandler_ilock]
      split
      · exact h.lock
      · exact Nat.zero_le 1
  · have hsame : s.Armed ata → (s.apply ata .writeIrq).ilock = s.ilock := by
      intro harmed
      change AtaChannel.ilock (irqHandler _) = s.ilock
      rw [irqHandler_ilock]
      exact if_pos (hignored harmed)
    refine h.of_pc ?_ ?_ (h.phase.congr ?_ ?_ ?_) fun harmed hne => ?_
    · change AtaChannel.pc (irqHandler _) = s.pc
      rw [irqHandler_eq]
    · change AtaChannel.ilock (irqHandler _) ≤ 1
      rw [irqHandler_ilock]
      split
      · exact h.lock
      · exact Nat.zero_le 1
    · change AtaChannel.drive (irqHandler _) = s.drive
      rw [irqHandler_eq]
    · change AtaChannel.readOwed (irqHandler _) = s.readOwed
      rw [irqHandler_eq]
    · by_cases hwaits : ∃ t k, s.pc.phase ata = .waits t k
      · obtain ⟨t, k, hwaits⟩ := hwaits
        exact .inr (hsame (armed_of_waits hwaits))
      · exact .inl fun t k heq => hwaits ⟨t, k, heq⟩
    · rw [hsame harmed]
      exact h.flag harmed hne

/-! ## Statements -/

theorem Inv.of_quiet (hlock : s.ilock ≤ 1) (hquiet : s.Quiet) (hok : s.pc.Ok)
    (hphase : s.pc.phase ata = .quiet) (hflag : s.Armed ata → s.ilock = 1) : Inv ata s :=
  ⟨hlock, hok, by rw [hphase]; exact hquiet, fun harmed _ => hflag harmed⟩

theorem Inv.of_waits (hlock : s.ilock ≤ 1) (hwaits : s.Waits t k) (hok : s.pc.Ok)
    (hphase : s.pc.phase ata = .waits t k) : Inv ata s :=
  ⟨hlock, hok, by rw [hphase]; exact hwaits, fun _ hne => absurd hphase (hne t k)⟩

theorem Inv.of_takes (hlock : s.ilock ≤ 1) (htakes : s.TakesSector t k i) (hok : s.pc.Ok)
    (hphase : s.pc.phase ata = .takes t k i) (hflag : s.Armed ata → s.ilock = 1) : Inv ata s :=
  ⟨hlock, hok, by rw [hphase]; exact htakes, fun harmed _ => hflag harmed⟩

/-- A read that finds the flag cleared has its sector in the buffer of the drive. -/
theorem Waits.takes (h : s.Waits t k) (hzero : s.ilock = 0) : s.TakesSector t k 0 := by
  have howed := h.owed
  rw [if_pos hzero] at howed
  split at howed
  · rename_i hready
    exact ⟨h.others, hready, h.sector, h.taken, h.toRead, by omega⟩
  · omega

/-- The words of a sector that a read takes: after the last of them the drive prepares the next
sector, or has none to hand out. -/
theorem TakesSector.takeWord (h : s.TakesSector t k i) :
    (i + 1 < 256 → (s.setDrive t.n (s.drive t.n).takeWord).TakesSector t k (i + 1)) ∧
    (¬ i + 1 < 256 → s.ilock = 1 →
      (s.setDrive t.n (s.drive t.n).takeWord).Waits t (k + 1)) ∧
    (¬ i + 1 < 256 → ¬ k + 1 < t.sectorCount →
      (s.setDrive t.n (s.drive t.n).takeWord).Quiet) := by
  have hothers : ∀ d, ∀ n ≠ t.n, ((s.setDrive t.n d).drive n).Empty := by
    intro d n hn
    rw [setDrive_drive, if_neg hn]
    exact h.others n hn
  have hsector := h.sector
  have htoRead := h.toRead
  unfold AtaDrive.takeWord
  rw [if_pos h.ready, h.taken]
  refine ⟨fun hmore => ?_, fun hlast hlock => ?_, fun hlast hend => ?_⟩
  · rw [if_pos hmore]
    refine ⟨hothers _, ?_, ?_, ?_, ?_, h.owed⟩ <;> rw [setDrive_drive, if_pos rfl]
    · exact h.ready
    · exact hsector
    · exact htoRead
  · rw [if_neg hlast]
    refine ⟨hothers _, ?_, ?_, ?_, ?_⟩
    · rw [setDrive_drive, if_pos rfl, ← hsector]
    · rw [setDrive_drive, if_pos rfl]
    · rw [setDrive_drive, if_pos rfl]
      exact htoRead
    · rw [setDrive_readOwed, setDrive_ilock, hlock, h.owed]
      exact Nat.zero_le _
  · rw [if_neg hlast]
    refine ⟨fun n => ?_, h.owed⟩
    by_cases hn : n = t.n
    · subst hn
      rw [setDrive_drive, if_pos rfl]
      exact ⟨by dsimp only; omega, rfl⟩
    · exact hothers _ n hn

theorem Quiet.goto (h : s.Quiet) (pc : ChannelPc) : ({ s with pc := pc } : AtaChannel).Quiet :=
  ⟨h.empty, h.owed⟩

theorem Waits.goto (h : s.Waits t k) (pc : ChannelPc) :
    ({ s with pc := pc } : AtaChannel).Waits t k :=
  ⟨h.others, h.sector, h.taken, h.toRead, h.owed⟩

theorem TakesSector.goto (h : s.TakesSector t k i) (pc : ChannelPc) :
    ({ s with pc := pc } : AtaChannel).TakesSector t k i :=
  ⟨h.others, h.ready, h.sector, h.taken, h.toRead, h.owed⟩

theorem TakesSector.lock (h : s.TakesSector t k i) (pc : ChannelPc) :
    ({ s with ilock := 1, pc := pc } : AtaChannel).TakesSector t k i :=
  ⟨h.others, h.ready, h.sector, h.taken, h.toRead, h.owed⟩

theorem Quiet.startRead (h : s.Quiet) (t : AtaTransfer) {count : ℕ} (hle : count ≤ t.sectorCount)
    (hset : s.ilock = 1) : (s.setDrive t.n ((s.drive t.n).startRead count)).Waits t 0 := by
  refine ⟨fun n hn => ?_, ?_, ?_, ?_, ?_⟩
  · rw [setDrive_drive, if_neg hn]
    exact h.empty n
  · rw [setDrive_drive, if_pos rfl]
    rfl
  · rw [setDrive_drive, if_pos rfl]
    rfl
  · rw [setDrive_drive, if_pos rfl]
    exact hle
  · rw [setDrive_readOwed, setDrive_ilock, hset, h.owed]
    exact Nat.zero_le _

theorem Inv.statement (h : Inv ata s) (alone : Bool) : Inv ata (s.statement ata alone) := by
  have hlock := h.lock
  have hphase := h.phase
  have hok := h.ok
  have hflag := h.flag
  unfold Armed at hflag
  unfold AtaChannel.statement
  cases hpc : s.pc with
  | idle => exact h
  | readInit t =>
      rw [hpc] at hphase hok
      exact .of_quiet (Nat.le_refl 1) ⟨hphase.empty, hphase.owed⟩ hok rfl fun _ => rfl
  | readAttr t =>
      rw [hpc] at hphase hok hflag
      dsimp only at hflag ⊢
      cases hcommand : ataCommand (ata.state t.n) t.sectorCount t.startSector with
      | none =>
          exact .of_quiet hlock ⟨hphase.empty, hphase.owed⟩ trivial rfl fun harmed => harmed.elim
      | some command =>
          exact .of_quiet hlock ⟨hphase.empty, hphase.owed⟩
            ⟨hok, ataCommand_sectorCount_le hcommand hok⟩ rfl
            fun harmed => hflag ⟨command, hcommand, harmed⟩ fun t k heq => by cases heq
  | readCommand t command =>
      rw [hpc] at hphase hok hflag
      have hset (hnot : ata.error t.n command = false) : s.ilock = 1 :=
        hflag hnot fun t k heq => by cases heq
      have hquiet : s.Quiet := hphase
      dsimp only
      by_cases herror : ata.error t.n command = true
      · rw [if_pos herror]
        have hnext := hquiet.setDrive (n := t.n) (d := (s.drive t.n).startRead 0)
          ⟨Nat.le_refl 0, rfl⟩
        exact .of_quiet hlock (hnext.goto _) hok.1 (if_pos herror) hset
      · rw [if_neg herror]
        have hwaits := hquiet.startRead t hok.2 (hset (Bool.eq_false_iff.2 herror))
        exact .of_waits hlock (hwaits.goto _) hok.1 (if_neg herror)
  | readStatus t command =>
      rw [hpc] at hphase hok hflag
      by_cases herror : ata.error t.n command = true
      · unfold ChannelPc.phase at hphase
        dsimp only at hphase
        rw [if_pos herror] at hphase
        dsimp only
        rw [if_pos herror]
        exact .of_quiet hlock ⟨hphase.empty, hphase.owed⟩ trivial rfl fun harmed => harmed.elim
      · unfold ChannelPc.phase at hphase
        dsimp only at hphase
        rw [if_neg herror] at hphase
        have hwaits : s.Waits t 0 := hphase
        have hpos : 0 < t.sectorCount := hok
        dsimp only
        rw [if_neg herror, nextSector, if_pos hpos]
        exact .of_waits hlock (hwaits.goto _) trivial rfl
  | lockLoop t k =>
      rw [hpc] at hphase
      have hwaits : s.Waits t k := hphase
      dsimp only
      split
      · exact h
      · exact .of_waits hlock (hwaits.goto _) trivial rfl
  | lockTest t k =>
      rw [hpc] at hphase
      have hwaits : s.Waits t k := hphase
      dsimp only
      by_cases hset : s.ilock = 1
      · rw [if_pos hset]
        exact .of_waits hlock (hwaits.goto _) trivial rfl
      · rw [if_neg hset]
        have htakes := hwaits.takes (by omega)
        exact .of_takes hlock (htakes.goto _) trivial rfl fun harmed => harmed.elim
  | locked t k =>
      rw [hpc] at hphase
      have hwaits : s.Waits t k := hphase
      dsimp only
      by_cases hzero : s.ilock = 0
      · rw [if_pos hzero]
        have htakes := hwaits.takes hzero
        exact .of_takes (Nat.le_refl 1) (htakes.lock _) trivial rfl fun harmed => harmed.elim
      · rw [if_neg hzero]
        exact h
  | dataInit t k =>
      rw [hpc] at hphase
      have htakes : s.TakesSector t k 0 := hphase
      exact .of_takes (Nat.le_refl 1) (htakes.lock _) (by decide : 0 < 256) rfl fun _ => rfl
  | inw t k i =>
      rw [hpc] at hphase hok hflag
      have htakes : s.TakesSector t k i := hphase
      obtain ⟨hmore, hlast, hend⟩ := htakes.takeWord
      dsimp only
      by_cases hi : i + 1 < 256
      · rw [if_pos hi]
        have hnext := hmore hi
        exact .of_takes hlock (hnext.goto _) hi rfl fun harmed => hflag harmed fun t k heq => by cases heq
      · rw [if_neg hi, nextSector]
        by_cases hk : k + 1 < t.sectorCount
        · rw [if_pos hk]
          have hnext := hlast hi (hflag hk fun t k heq => by cases heq)
          exact .of_waits hlock (hnext.goto _) trivial rfl
        · rw [if_neg hk]
          have hnext := hend hi hk
          exact .of_quiet hlock (hnext.goto _) trivial rfl fun harmed => harmed.elim
  | writeAttr t =>
      rw [hpc] at hphase
      dsimp only
      cases hcommand : ataCommand (ata.state t.n) t.sectorCount t.startSector with
      | none =>
          exact .of_quiet hlock ⟨hphase.empty, hphase.owed⟩ trivial rfl fun harmed => harmed.elim
      | some command =>
          exact .of_quiet hlock ⟨hphase.empty, hphase.owed⟩ trivial rfl fun harmed => harmed.elim
  | writeCommand t command =>
      rw [hpc] at hphase
      have hquiet : s.Quiet := hphase
      have hnext := hquiet.setDrive (n := t.n) (d := (s.drive t.n).startWrite
        (if ata.error t.n command then 0 else command.sectorCount)) ⟨Nat.le_refl 0, rfl⟩
      exact .of_quiet hlock (hnext.goto _) trivial rfl fun harmed => harmed.elim
  | writeStatus t command =>
      rw [hpc] at hphase
      have hquiet : s.Quiet := hphase
      dsimp only
      split
      · exact .of_quiet hlock (hquiet.goto _) trivial rfl fun harmed => harmed.elim
      · rw [nextSector]
        split
        · exact .of_quiet hlock (hquiet.goto _) trivial rfl fun harmed => harmed.elim
        · exact .of_quiet hlock (hquiet.goto _) trivial rfl fun harmed => harmed.elim
  | poll t k =>
      rw [hpc] at hphase
      have hquiet : s.Quiet := hphase
      dsimp only
      split
      · exact h
      · exact .of_quiet hlock (hquiet.goto _) trivial rfl fun harmed => harmed.elim
  | outw t k i =>
      rw [hpc] at hphase
      have hquiet : s.Quiet := hphase
      have hnext := hquiet.setDrive (n := t.n) (hquiet.empty t.n).giveWord
      dsimp only
      split
      · exact .of_quiet hlock (hnext.goto _) trivial rfl fun harmed => harmed.elim
      · rw [nextSector]
        split
        · exact .of_quiet hlock (hnext.goto _) trivial rfl fun harmed => harmed.elim
        · exact .of_quiet hlock (hnext.goto _) trivial rfl fun harmed => harmed.elim
  | unlock =>
      rw [hpc] at hphase
      exact .of_quiet hlock ⟨hphase.empty, hphase.owed⟩ trivial rfl fun harmed => harmed.elim

/-- A step in which no interrupt of a write is taken for that of a sector keeps the invariant. -/
theorem Inv.step {op : ChannelOp} (h : Inv ata s) (henabled : s.Enabled ata channel op)
    (hignored : s.WriteIrqIgnored ata op) : Inv ata (s.apply ata op) := by
  cases op with
  | ataRead n count offect =>
      obtain ⟨hpc, -, -, -, hcount⟩ := henabled
      have hphase := h.phase
      rw [hpc] at hphase
      exact .of_quiet h.lock ⟨hphase.empty, hphase.owed⟩ (Nat.pos_of_ne_zero hcount) rfl
        fun harmed => harmed.elim
  | ataWrite n count offect =>
      have hphase := h.phase
      rw [henabled.1] at hphase
      exact .of_quiet h.lock ⟨hphase.empty, hphase.owed⟩ trivial rfl fun harmed => harmed.elim
  | statement alone => exact h.statement alone
  | sectorReady n => exact h.env henabled hignored (.inl ⟨n, rfl⟩)
  | absorbed n => exact h.env henabled hignored (.inr (.inl ⟨n, rfl⟩))
  | readIrq => exact h.env henabled hignored (.inr (.inr (.inl rfl)))
  | writeIrq => exact h.env henabled hignored (.inr (.inr (.inr rfl)))

/-- In the runs in which every interrupt for an absorbed sector finds the drive busy, or comes
where the flag decides no wait of a read, a read takes only words that the drive has ready. -/
theorem reads_ready (ata : Ata) (channel : ℕ) {s : AtaChannel}
    (h : ((channelMachine ata channel).restrict (WriteIrqIgnored ata)).Reachable s) : s.ReadsReady := by
  have hinv : Inv ata s := by
    refine h.invariant (fun s hinit => ?_) (fun s op s' hs hstep => ?_)
    · obtain ⟨hlock, hrest, hread, -, hpc⟩ := hinit
      refine .of_quiet hlock ⟨fun n => ?_, hread⟩ (by rw [hpc]; trivial) (by rw [hpc]; rfl) ?_
      · rw [hrest n]
        exact ⟨Nat.le_refl 0, rfl⟩
      · unfold Armed
        rw [hpc]
        exact False.elim
    · obtain ⟨hignored, henabled, rfl⟩ := hstep
      exact hs.step henabled hignored
  intro t k i hpc
  have hphase := hinv.phase
  rw [hpc] at hphase
  exact ⟨hphase.ready, hphase.sector, hphase.taken⟩

end AtaChannel

/-! ## A write and a read of one sector -/

section Example

/-- Drives of four sectors that answer every command. -/
def fourSectors : Ata where
  state _ := .lba28
  sectors _ := 4
  buf1 _ := 0
  buf2 _ := 0
  disk _ _ := 0
  error _ _ := false

def atRest : AtaChannel := ⟨1, 0, fun _ => .rest, 0, 0, .idle⟩

/-- The channel after `i` words of the sector that `ata_write(0, buf, 512, 0)` sends. -/
def sending (i : ℕ) : AtaChannel :=
  ⟨1, 0, Function.update (fun _ => .rest) 0 ⟨0, 0, false, 0, 1, i, false⟩, 0, 0, .outw ⟨0, 1, 0⟩ 0 i⟩

/-- A read of one sector that nothing disturbs, up to its first word. -/
def readOps : List ChannelOp :=
  [.ataRead 0 512 0, .statement true, .statement true, .statement true, .statement true,
    .sectorReady 0, .readIrq, .statement true, .statement true, .statement true]

/-- The first word of a read is one of the sector that the drive has ready. -/
theorem reads_ready_one :
    (readOps.foldl (AtaChannel.apply fourSectors) atRest).ReadsReady ∧
      (readOps.foldl (AtaChannel.apply fourSectors) atRest).pc = .inw ⟨0, 1, 0⟩ 0 0 := by
  refine ⟨AtaChannel.reads_ready fourSectors 0 (Machine.Reachable.foldl
    (.init ⟨Nat.le_refl 1, fun _ => rfl, rfl, rfl, rfl⟩) ?_), by with_unfolding_all decide⟩
  refine ⟨⟨trivial, by with_unfolding_all decide, rfl⟩, ⟨trivial, by with_unfolding_all decide, rfl⟩,
    ⟨trivial, by with_unfolding_all decide, rfl⟩, ⟨trivial, by with_unfolding_all decide, rfl⟩,
    ⟨trivial, by with_unfolding_all decide, rfl⟩, ⟨trivial, by with_unfolding_all decide, rfl⟩,
    ⟨trivial, by with_unfolding_all decide, rfl⟩, ⟨trivial, by with_unfolding_all decide, rfl⟩,
    ⟨trivial, by with_unfolding_all decide, rfl⟩, ⟨trivial, by with_unfolding_all decide, rfl⟩, trivial⟩

theorem sending_reachable {i : ℕ} (hi : i < 256) :
    (channelMachine fourSectors 0).Reachable (sending i) := by
  induction i with
  | zero =>
      have hcount : fourSectors.sectorCount 0 512 0 = 1 := by with_unfolding_all decide
      have hrun : [ChannelOp.ataWrite 0 512 0, .statement true, .statement true, .statement true,
          .statement true].foldl (AtaChannel.apply fourSectors) atRest = sending 0 := by
        simp only [List.foldl, AtaChannel.apply, hcount]
        rfl
      rw [← hrun]
      refine Machine.Reachable.foldl (.init ⟨Nat.le_refl 1, fun _ => rfl, rfl, rfl, rfl⟩) ?_
      refine ⟨⟨by with_unfolding_all decide, rfl⟩, ⟨by with_unfolding_all decide, rfl⟩, ⟨by with_unfolding_all decide, rfl⟩,
        ⟨by with_unfolding_all decide, rfl⟩, ⟨by with_unfolding_all decide, rfl⟩, trivial⟩
  | succ i ih =>
      refine .step (a := .statement true) (ih (by omega)) ⟨by simp [AtaChannel.Enabled, sending], ?_⟩
      simp [AtaChannel.apply, AtaChannel.statement, sending, AtaChannel.setDrive,
        AtaDrive.giveWord, hi]

/-- What is left of the write, whose interrupt comes after the read has set the flag. -/
def lateOps : List ChannelOp :=
  [.statement true, .statement true, .absorbed 0, .ataRead 0 512 0, .statement true, .writeIrq,
    .statement true, .statement true, .statement true, .statement true, .statement true,
    .statement true]

/-- The interrupt of a write that comes late lets a read take words that are not there. -/
theorem reads_not_ready :
    ¬ ∀ s, (channelMachine fourSectors 0).Reachable s → s.ReadsReady := by
  intro hall
  have hreach : (channelMachine fourSectors 0).Reachable
      (lateOps.foldl (AtaChannel.apply fourSectors) (sending 255)) := by
    refine Machine.Reachable.foldl (sending_reachable (by decide)) ?_
    refine ⟨⟨by with_unfolding_all decide, rfl⟩, ⟨by with_unfolding_all decide, rfl⟩, ⟨by with_unfolding_all decide, rfl⟩,
      ⟨by with_unfolding_all decide, rfl⟩, ⟨by with_unfolding_all decide, rfl⟩, ⟨by with_unfolding_all decide, rfl⟩,
      ⟨by with_unfolding_all decide, rfl⟩, ⟨by with_unfolding_all decide, rfl⟩, ⟨by with_unfolding_all decide, rfl⟩,
      ⟨by with_unfolding_all decide, rfl⟩, ⟨by with_unfolding_all decide, rfl⟩, ⟨by with_unfolding_all decide, rfl⟩, trivial⟩
  have hready := (hall _ hreach ⟨0, 1, 0⟩ 0 0 (by with_unfolding_all decide)).1
  revert hready
  with_unfolding_all decide

end Example

end BitchKernel
