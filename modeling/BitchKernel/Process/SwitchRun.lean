import BitchKernel.Process.SwitchCode
import Mathlib.Data.Finset.Basic

/-!
# Processes that are switched away go on where they were

`SwitchRun` puts the code of a switch into runs: code of the process that holds the processor does
what it likes to the registers and to memory outside the contexts and stacks of the others,
`process_create` prepares a new process, `process_switch` calls `switch_context`, and gives the
stack of an exited process back. Whatever happens in between, a process that is switched to goes on
with exactly the registers, the return address and the stack it was suspended with.
-/

namespace BitchKernel

open Lib X86

/-- What a process that does not run goes on with. -/
structure Suspended where
  esp : Dword
  ebp : Dword
  eflags : Dword
  eip : Dword
  stack : Dword → Dword

/-- The processor, the `current_process`, and the processes whose stacks are allocated. -/
structure SwitchRun where
  cpu : Cpu
  current : Dword
  procs : Finset Dword

inductive SwitchOp
  | run (c : Cpu)
  | create (new fn arg exit : Dword)
  | switch (next back : Dword)
  | free (p : Dword)

/-- The words of a process that code of other processes leaves alone: its context and the stack
above its record. -/
def Kept (p a : Dword) : Prop :=
  p.toNat + 16 ≤ a.toNat ∧ a.toNat < p.toNat + 28 ∨
    p.toNat + 40 ≤ a.toNat ∧ a.toNat < p.toNat + 0x2000

/-- Two stacks that do not overlap. -/
def Apart (p q : Dword) : Prop :=
  p.toNat + 0x2000 ≤ q.toNat ∨ q.toNat + 0x2000 ≤ p.toNat

/-- The process that `op` takes the processor from, or creates, with what it is to go on with. -/
def SwitchOp.suspends (s : SwitchRun) : SwitchOp → Option (Dword × Suspended)
  | .run _ => none
  | .create new fn arg exit =>
      some (new, ⟨new + 0x2000 - 8, s.cpu.mem (contextOf new + 4), 0x200, fn,
        fun a => if a = new + 0x2000 - 8 then exit else arg⟩)
  | .switch next back =>
      some (s.current, ⟨s.cpu.esp - 8, s.cpu.reg .ebp, s.cpu.eflags, back,
        (pushContexts s.current next s.cpu).mem⟩)
  | .free _ => none

/-- The process `p` is neither switched to nor freed. -/
def SwitchOp.leaves (p : Dword) : SwitchOp → Prop
  | .switch next _ => next ≠ p
  | .free q => q ≠ p
  | _ => True

/-- One step: `dpl` is the level of the descriptor behind a selector. -/
inductive SwitchStep (dpl : Selector → BitVec 2) : SwitchRun → SwitchOp → SwitchRun → Prop
  | run {s : SwitchRun} {c : Cpu}
      (hkept : ∀ p ∈ s.procs, p ≠ s.current → ∀ a, Kept p a → c.mem a = s.cpu.mem a) :
      SwitchStep dpl s (.run c) { s with cpu := c }
  | create {s : SwitchRun} {new fn arg exit : Dword} (hplaced : new.toNat + 0x2000 < 2 ^ 32)
      (haligned : 4096 ∣ new.toNat) (hnew : ∀ p ∈ s.procs, Apart p new) :
      SwitchStep dpl s (.create new fn arg exit)
        { s with
          cpu := { s.cpu with mem := createContext new fn arg exit s.cpu.mem }
          procs := insert new s.procs }
  | switch {s : SwitchRun} {next back : Dword} (hnext : next ∈ s.procs) (hne : next ≠ s.current)
      (hroom : Room s.current s.cpu) (haligned : 4 ∣ s.cpu.esp.toNat) :
      SwitchStep dpl s (.switch next back)
        { s with cpu := callSwitch dpl s.current next back s.cpu, current := next }
  | free {s : SwitchRun} {p : Dword} (hp : p ∈ s.procs) (hne : p ≠ s.current) :
      SwitchStep dpl s (.free p) { s with procs := s.procs.erase p }

/-- The kernel starts with `init_kernel_stack` as its only process. -/
def switchMachine (dpl : Selector → BitVec 2) : Machine SwitchRun SwitchOp where
  init s := s.procs = {s.current} ∧ s.current.toNat + 0x2000 < 2 ^ 32
  step := SwitchStep dpl

/-! ## What is ready -/

/-- The words of `p` are those a switch to it needs to go on with `t`. -/
structure Ready (mem : Dword → Dword) (p : Dword) (t : Suspended) : Prop where
  placed : p.toNat + 0x2000 ≤ 2 ^ 32
  low : p.toNat + 48 ≤ t.esp.toNat
  high : t.esp.toNat ≤ p.toNat + 0x2000
  esp : mem (contextOf p) = t.esp - 4
  ebp : mem (contextOf p + 4) = t.ebp
  eflags : mem (contextOf p + 8) = t.eflags
  eip : mem (t.esp - 4) = t.eip
  stack : ∀ a : Dword, 4 ∣ a.toNat → t.esp.toNat ≤ a.toNat → a.toNat < p.toNat + 0x2000 →
    mem a = t.stack a

section Ready

variable {mem mem' : Dword → Dword} {p q a : Dword} {t : Suspended}

theorem Kept.within (h : Kept p a) : Within p a := by
  unfold Kept at h
  unfold Within
  omega

theorem Apart.symm (h : Apart p q) : Apart q p := h.elim .inr .inl

theorem Apart.not_within (h : Apart p q) (ha : Within p a) : ¬ Within q a := by
  unfold Apart at h
  unfold Within at *
  omega

theorem Apart.ne (h : Apart p q) : p ≠ q := by
  rintro rfl
  unfold Apart at h
  omega

theorem kept_context (hplaced : p.toNat + 0x2000 ≤ 2 ^ 32) :
    Kept p (contextOf p) ∧ Kept p (contextOf p + 4) ∧ Kept p (contextOf p + 8) := by
  obtain ⟨h₁, h₂, h₃⟩ := contextOf_toNat hplaced
  unfold Kept
  omega

theorem Ready.esp_toNat (h : Ready mem p t) : (t.esp - 4).toNat = t.esp.toNat - 4 ∧
    (t.esp - 8).toNat = t.esp.toNat - 8 := by
  have hlow := h.low
  exact ⟨toNat_sub_of_le (k := 4) (by omega), toNat_sub_of_le (k := 8) (by omega)⟩

theorem Ready.congr (h : Ready mem p t) (hsame : ∀ a, Kept p a → mem' a = mem a) :
    Ready mem' p t := by
  obtain ⟨h₁, h₂, h₃⟩ := kept_context h.placed
  have hlow := h.low
  have hhigh := h.high
  refine ⟨h.placed, hlow, hhigh, (hsame _ h₁).trans h.esp, (hsame _ h₂).trans h.ebp,
    (hsame _ h₃).trans h.eflags, (hsame _ ?_).trans h.eip, fun a ha hesp htop =>
      (hsame _ ?_).trans (h.stack a ha hesp htop)⟩
  · have hsub := h.esp_toNat.1
    exact .inr (by omega)
  · exact .inr (by omega)

end Ready

/-! ## The call of `switch_context` -/

section Call

variable (dpl : Selector → BitVec 2) {prev next : Dword} (back : Dword) {a : Dword} {c : Cpu}
  {t : Suspended}

theorem callSwitch_resumes (h : Room prev c) (hready : Ready c.mem next t) (hapart : Apart prev next) :
    let c' := callSwitch dpl prev next back c
    c'.esp = t.esp ∧ c'.reg .ebp = t.ebp ∧ c'.eflags = t.eflags ∧ c'.eip = t.eip ∧
      c'.mem = Function.update (saveContext prev (Cpu.push back (pushContexts prev next c)))
        (t.esp - 8) t.eflags := by
  obtain ⟨-, hprev, hnext⟩ := saveContext_arguments next back h
  have hsaved : Ready (saveContext prev (Cpu.push back (pushContexts prev next c))) next t :=
    hready.congr fun a ha => saveContext_outside next back h (hapart.symm.not_within ha.within)
  obtain ⟨hesp, hebp, heflags, hmem, heip⟩ := exec_switchContext dpl rfl hprev hnext
  rw [hsaved.esp] at hesp hmem heip
  rw [hsaved.eflags] at hmem heflags
  have hbelow : t.esp - 4 - 4 = t.esp - 8 := sub_sub_ofNat _ 4 4
  rw [hbelow] at hmem
  have hne : t.esp - 4 ≠ t.esp - 8 := by
    obtain ⟨h₁, h₂⟩ := hready.esp_toNat
    have hlow := hready.low
    exact ne_of_toNat_ne (by omega)
  refine ⟨hesp.trans (BitVec.sub_add_cancel _ _), hebp.trans hsaved.ebp, heflags, heip.trans ?_, hmem⟩
  rw [hmem, Function.update_of_ne hne, hsaved.eip]

theorem callSwitch_outside (h : Room prev c) (hready : Ready c.mem next t) (hapart : Apart prev next)
    (hp : ¬ Within prev a) (hn : ¬ Within next a) :
    (callSwitch dpl prev next back c).mem a = c.mem a := by
  obtain ⟨-, -, -, -, hmem⟩ := callSwitch_resumes dpl back h hready hapart
  have hne : a ≠ t.esp - 8 := by
    rintro rfl
    obtain ⟨-, h₂⟩ := hready.esp_toNat
    have hlow := hready.low
    have hhigh := hready.high
    unfold Within at hn
    omega
  rw [hmem, Function.update_of_ne hne, saveContext_outside next back h hp]

theorem callSwitch_ready (h : Room prev c) (hready : Ready c.mem next t) (hapart : Apart prev next) :
    Ready (callSwitch dpl prev next back c).mem prev
      ⟨c.esp - 8, c.reg .ebp, c.eflags, back, (pushContexts prev next c).mem⟩ := by
  obtain ⟨-, -, -, -, hmem⟩ := callSwitch_resumes dpl back h hready hapart
  have hkeep : ∀ a, Within prev a → (callSwitch dpl prev next back c).mem a =
      saveContext prev (Cpu.push back (pushContexts prev next c)) a := by
    intro a ha
    have hne : a ≠ t.esp - 8 := by
      rintro rfl
      obtain ⟨-, h₂⟩ := hready.esp_toNat
      have hlow := hready.low
      have hhigh := hready.high
      have hnot := hapart.not_within ha
      unfold Within at hnot
      omega
    rw [hmem, Function.update_of_ne hne]
  obtain ⟨h₁, h₂, h₃⟩ := h.within_context
  obtain ⟨-, -, h₄, -⟩ := h.within_stack
  obtain ⟨-, hesp, -⟩ := h.esp_toNat
  obtain ⟨hsp, hbp, hfl, hip, hst⟩ := saveContext_inside next back h
  have hlow := h.low
  have hhigh := h.high
  have hword : c.esp - 8 - 4 = c.esp - 12 := sub_sub_ofNat _ 8 4
  refine ⟨h.placed, by dsimp only; omega, by dsimp only; omega, ?_, (hkeep _ h₂).trans hbp,
    (hkeep _ h₃).trans hfl, ?_, fun a _ ha htop => ?_⟩
  · rw [hkeep _ h₁, hsp, hword]
  · dsimp only
    rw [hword, hkeep _ h₄, hip]
  · dsimp only at ha ⊢
    have hwithin : Within prev a := ⟨by omega, htop⟩
    rw [hkeep a hwithin, hst a (by omega)]

end Call

/-! ## A process that is created -/

section Create

variable {mem : Dword → Dword} {new fn arg exit a : Dword}

theorem stackTop_toNat {k : ℕ} (hk : 0 < k) (hle : k ≤ 0x2000)
    (hplaced : new.toNat + 0x2000 ≤ 2 ^ 32) :
    (new + BitVec.ofNat 32 0x2000 - BitVec.ofNat 32 k).toNat = new.toNat + (0x2000 - k) := by
  have hsplit : BitVec.ofNat 32 0x2000 = BitVec.ofNat 32 (0x2000 - k) + BitVec.ofNat 32 k := by
    rw [← BitVec.ofNat_add, Nat.sub_add_cancel hle]
  rw [hsplit, ← BitVec.add_assoc, BitVec.add_sub_cancel]
  exact toNat_add_of_lt (by omega)

theorem stackTop_words (hplaced : new.toNat + 0x2000 ≤ 2 ^ 32) :
    (new + 0x2000 - 4).toNat = new.toNat + 0x1ffc ∧ (new + 0x2000 - 8).toNat = new.toNat + 0x1ff8 ∧
      (new + 0x2000 - 12).toNat = new.toNat + 0x1ff4 :=
  ⟨stackTop_toNat (k := 4) (by omega) (by omega) hplaced,
    stackTop_toNat (k := 8) (by omega) (by omega) hplaced,
    stackTop_toNat (k := 12) (by omega) (by omega) hplaced⟩

theorem createContext_outside (hplaced : new.toNat + 0x2000 ≤ 2 ^ 32) (ha : ¬ Within new a) :
    createContext new fn arg exit mem a = mem a := by
  obtain ⟨h₁, h₂, h₃⟩ := contextOf_toNat hplaced
  obtain ⟨h₄, h₅, h₆⟩ := stackTop_words hplaced
  have hne : ∀ {b : Dword}, Within new b → a ≠ b := fun hb heq => ha (heq ▸ hb)
  unfold createContext
  rw [Function.update_of_ne (hne (by unfold Within; omega)),
    Function.update_of_ne (hne (by unfold Within; omega)),
    Function.update_of_ne (hne (by unfold Within; omega)),
    Function.update_of_ne (hne (by unfold Within; omega)),
    Function.update_of_ne (hne (by unfold Within; omega))]

theorem createContext_ready (hplaced : new.toNat + 0x2000 ≤ 2 ^ 32) (haligned : 4096 ∣ new.toNat) :
    Ready (createContext new fn arg exit mem) new
      ⟨new + 0x2000 - 8, mem (contextOf new + 4), 0x200, fn,
        fun a => if a = new + 0x2000 - 8 then exit else arg⟩ := by
  obtain ⟨h₁, h₂, h₃⟩ := contextOf_toNat hplaced
  obtain ⟨h₄, h₅, h₆⟩ := stackTop_words hplaced
  have hword : new + 0x2000 - 8 - 4 = new + 0x2000 - 12 := sub_sub_ofNat _ 8 4
  refine ⟨hplaced, ?_, ?_, ?_, ?_, Function.update_self _ _ _, ?_, fun a ha hlow htop => ?_⟩
  · dsimp only
    omega
  · dsimp only
    omega
  · rw [hword]
    unfold createContext
    rw [Function.update_of_ne (ne_of_toNat_ne (by omega)), Function.update_self]
  · unfold createContext
    iterate 5 rw [Function.update_of_ne (ne_of_toNat_ne (by omega))]
  · dsimp only
    rw [hword]
    unfold createContext
    iterate 2 rw [Function.update_of_ne (ne_of_toNat_ne (by omega))]
    rw [Function.update_self]
  · dsimp only at hlow ⊢
    unfold createContext
    iterate 3 rw [Function.update_of_ne (ne_of_toNat_ne (by omega))]
    split
    · rename_i heq
      rw [heq, Function.update_self]
    · rename_i hne
      have hlast : a = new + 0x2000 - 4 := by
        have hneq : a.toNat ≠ (new + 0x2000 - 8).toNat := fun h => hne (BitVec.eq_of_toNat_eq h)
        exact BitVec.eq_of_toNat_eq (by omega)
      rw [Function.update_of_ne hne, hlast, Function.update_self]

end Create

/-! ## Runs -/

section Run

variable {dpl : Selector → BitVec 2} {s s' u v : SwitchRun} {op : SwitchOp} {p next back : Dword}
  {t : Suspended}

/-- What holds after every step: the stacks do not overlap, and every process that does not run
can go on. -/
structure SwitchInv (s : SwitchRun) : Prop where
  current : s.current ∈ s.procs
  placed : ∀ p ∈ s.procs, p.toNat + 0x2000 < 2 ^ 32
  apart : ∀ p ∈ s.procs, ∀ q ∈ s.procs, p ≠ q → Apart p q
  ready : ∀ p ∈ s.procs, p ≠ s.current → ∃ t, Ready s.cpu.mem p t

theorem SwitchInv.ready_step (hs : SwitchInv s) (hstep : SwitchStep dpl s op s') (hp : p ∈ s.procs)
    (hne : p ≠ s.current) (hop : op.leaves p) (h : Ready s.cpu.mem p t) :
    p ∈ s'.procs ∧ p ≠ s'.current ∧ Ready s'.cpu.mem p t := by
  cases hstep with
  | run hkept => exact ⟨hp, hne, h.congr fun a ha => hkept p hp hne a ha⟩
  | create hplaced haligned hnew =>
      exact ⟨Finset.mem_insert_of_mem hp, hne, h.congr fun a ha =>
        createContext_outside hplaced.le ((hnew p hp).not_within ha.within)⟩
  | switch hnext hcur hroom haligned =>
      obtain ⟨tn, hready⟩ := hs.ready _ hnext hcur
      have hapart := hs.apart _ hs.current _ hnext hcur.symm
      refine ⟨hp, fun heq => hop heq.symm, h.congr fun a ha => ?_⟩
      exact callSwitch_outside dpl _ hroom hready hapart
        ((hs.apart _ hp _ hs.current hne).not_within ha.within)
        ((hs.apart _ hp _ hnext fun heq => hop heq.symm).not_within ha.within)
  | free hq hcur => exact ⟨Finset.mem_erase.2 ⟨fun heq => hop heq.symm, hp⟩, hne, h⟩

theorem SwitchInv.ready_suspends (hs : SwitchInv s) (hstep : SwitchStep dpl s op s')
    (h : op.suspends s = some (p, t)) : p ∈ s'.procs ∧ p ≠ s'.current ∧ Ready s'.cpu.mem p t := by
  cases hstep with
  | run => exact nomatch h
  | create hplaced haligned hnew =>
      cases h
      refine ⟨Finset.mem_insert_self _ _, ?_, createContext_ready hplaced.le haligned⟩
      exact (hnew _ hs.current).ne.symm
  | switch hnext hcur hroom haligned =>
      cases h
      obtain ⟨tn, hready⟩ := hs.ready _ hnext hcur
      exact ⟨hs.current, hcur.symm, callSwitch_ready dpl _ hroom hready
        (hs.apart _ hs.current _ hnext hcur.symm)⟩
  | free => exact nomatch h

theorem SwitchInv.of_step (hs : SwitchInv s) (hstep : SwitchStep dpl s op s') : SwitchInv s' := by
  have hkeep := fun {p t} => hs.ready_step (p := p) (t := t) hstep
  have hnew := fun {p t} => hs.ready_suspends (p := p) (t := t) hstep
  cases hstep with
  | run hkept =>
      refine ⟨hs.current, hs.placed, hs.apart, fun p hp hne => ?_⟩
      obtain ⟨t, ht⟩ := hs.ready p hp hne
      exact ⟨t, (hkeep hp hne trivial ht).2.2⟩
  | @create new fn arg exit hplaced haligned hfresh =>
      refine ⟨Finset.mem_insert_of_mem hs.current, fun p hp => ?_, ?_, fun p hp hne => ?_⟩
      · rcases Finset.mem_insert.1 hp with rfl | hold
        · exact hplaced
        · exact hs.placed p hold
      · intro p hp q hq hne
        rcases Finset.mem_insert.1 hp with rfl | hold <;>
          rcases Finset.mem_insert.1 hq with rfl | hold'
        · exact absurd rfl hne
        · exact (hfresh q hold').symm
        · exact hfresh p hold
        · exact hs.apart p hold q hold' hne
      · rcases Finset.mem_insert.1 hp with rfl | hp
        · exact ⟨_, (hnew rfl).2.2⟩
        · obtain ⟨t, ht⟩ := hs.ready p hp hne
          exact ⟨t, (hkeep hp hne trivial ht).2.2⟩
  | @switch next back hnext hcur hroom haligned =>
      refine ⟨hnext, hs.placed, hs.apart, fun p hp hne => ?_⟩
      by_cases heq : p = s.current
      · subst heq
        exact ⟨_, (hnew rfl).2.2⟩
      · obtain ⟨t, ht⟩ := hs.ready p hp heq
        exact ⟨t, (hkeep hp heq (fun h => hne h.symm) ht).2.2⟩
  | @free q hq hcur =>
      refine ⟨Finset.mem_erase.2 ⟨hcur.symm, hs.current⟩, fun p hp =>
        hs.placed p (Finset.mem_of_mem_erase hp), fun p hp r hr => hs.apart p
          (Finset.mem_of_mem_erase hp) r (Finset.mem_of_mem_erase hr), fun p hp hne => ?_⟩
      obtain ⟨t, ht⟩ := hs.ready p (Finset.mem_of_mem_erase hp) hne
      exact ⟨t, ht⟩

theorem SwitchInv.of_reachable (h : (switchMachine dpl).Reachable s) : SwitchInv s := by
  refine h.invariant (fun s hinit => ?_) fun s op s' hs hstep => hs.of_step hstep
  obtain ⟨hprocs, hplaced⟩ := hinit
  refine ⟨hprocs ▸ Finset.mem_singleton_self _, fun p hp => ?_, fun p hp q hq hne => ?_,
    fun p hp hne => ?_⟩
  · rw [hprocs, Finset.mem_singleton] at hp
    rwa [hp]
  · rw [hprocs, Finset.mem_singleton] at hp hq
    exact absurd (hp.trans hq.symm) hne
  · rw [hprocs, Finset.mem_singleton] at hp
    exact absurd hp hne

/-- What a step suspends stays ready while the process is neither switched to nor freed. -/
theorem ready_of_run (hs : (switchMachine dpl).Reachable s)
    (hstep : (switchMachine dpl).step s op s') (hsusp : op.suspends s = some (p, t))
    (hrun : (((switchMachine dpl).startAt s').restrict fun _ op => op.leaves p).Reachable u) :
    p ∈ u.procs ∧ p ≠ u.current ∧ Ready u.cpu.mem p t := by
  have hfirst := (SwitchInv.of_reachable hs).ready_suspends hstep hsusp
  refine (hrun.invariant (I := fun w => (switchMachine dpl).Reachable w ∧ p ∈ w.procs ∧
    p ≠ w.current ∧ Ready w.cpu.mem p t) ?_ ?_).2
  · intro w hw
    subst hw
    exact ⟨hs.step hstep, hfirst⟩
  · intro w o w' hw hstep
    obtain ⟨hreach, hp, hne, hready⟩ := hw
    exact ⟨hreach.step hstep.2, (SwitchInv.of_reachable hreach).ready_step hstep.2 hp hne hstep.1
      hready⟩

/-- A process that was switched away or created, and is then switched to, goes on with the
registers, the return address and the stack it was suspended with, whatever runs in between. -/
theorem suspended_process_goes_on (hs : (switchMachine dpl).Reachable s)
    (hstep : (switchMachine dpl).step s op s') (hsusp : op.suspends s = some (p, t))
    (hrun : (((switchMachine dpl).startAt s').restrict fun _ op => op.leaves p).Reachable u)
    (hswitch : (switchMachine dpl).step u (.switch p back) v) :
    v.current = p ∧ v.cpu.esp = t.esp ∧ v.cpu.reg .ebp = t.ebp ∧ v.cpu.eflags = t.eflags ∧
      v.cpu.eip = t.eip ∧
      ∀ a : Dword, 4 ∣ a.toNat → t.esp.toNat ≤ a.toNat → a.toNat < p.toNat + 0x2000 →
        v.cpu.mem a = t.stack a := by
  obtain ⟨hp, hne, hready⟩ := ready_of_run hs hstep hsusp hrun
  have hinv := SwitchInv.of_reachable ((hs.step hstep).of_startAt hrun.of_restrict)
  cases hswitch with
  | switch hnext hcur hroom haligned =>
      have hapart := hinv.apart _ hinv.current _ hnext hcur.symm
      obtain ⟨hesp, hebp, heflags, heip, hmem⟩ := callSwitch_resumes dpl back
        hroom hready hapart
      refine ⟨rfl, hesp, hebp, heflags, heip, fun a ha hlow htop => ?_⟩
      have hbelow := hready.esp_toNat.2
      have hle := hready.low
      have hword := toNat_sub_of_le (x := t.esp) (k := 8) (by omega)
      have hwithin : Within p a := ⟨by omega, htop⟩
      change (callSwitch dpl u.current p back u.cpu).mem a = t.stack a
      rw [hmem, Function.update_of_ne (ne_of_toNat_ne (by omega)),
        saveContext_outside _ _ hroom (hapart.symm.not_within hwithin), hready.stack a ha hlow htop]

end Run

/-- The first process, with its stack still empty. -/
def firstRun : SwitchRun where
  cpu := ⟨fun _ => 0x102000, fun _ => 0, 0x200, 0, fun _ => 0⟩
  current := 0x100000
  procs := {0x100000}

/-- A process is created and switched to: it starts at its function, with `exit` to return to. -/
theorem suspended_process_goes_on_created :
    let mem := createContext 0x200000 0x5000 7 0x6000 fun _ => 0
    let c := callSwitch (fun _ => 0) 0x100000 0x200000 0x4000
      { firstRun.cpu with mem := mem }
    c.eip = 0x5000 ∧ c.eflags = 0x200 ∧ c.esp = 0x201ff8 ∧ c.mem 0x201ff8 = 0x6000 ∧
      c.mem 0x201ffc = 7 := by
  intro mem c
  have hinit : (switchMachine fun _ => 0).Reachable firstRun := .init ⟨rfl, by decide⟩
  have hapart : ∀ p ∈ firstRun.procs, Apart p 0x200000 := fun p hp => by
    rw [Finset.mem_singleton.1 hp]
    exact .inl (by decide)
  have hcreate : (switchMachine fun _ => 0).step firstRun (.create 0x200000 0x5000 7 0x6000) _ :=
    .create (by decide) (by decide) hapart
  have hswitch : (switchMachine fun _ => 0).step
      ⟨{ firstRun.cpu with mem := mem }, 0x100000, {0x200000, 0x100000}⟩ (.switch 0x200000 0x4000)
      ⟨c, 0x200000, {0x200000, 0x100000}⟩ :=
    .switch (by decide) (by decide) ⟨by decide, by decide, by decide⟩ (by decide)
  obtain ⟨-, hesp, -, heflags, heip, hmem⟩ :=
    suspended_process_goes_on hinit hcreate rfl (.init rfl) hswitch
  have hexit : (if (0x201ff8 : Dword) = 0x200000 + 0x2000 - 8 then 0x6000 else 7 : Dword) = 0x6000 :=
    if_pos (by decide)
  have harg : (if (0x201ffc : Dword) = 0x200000 + 0x2000 - 8 then 0x6000 else 7 : Dword) = 7 :=
    if_neg (by decide)
  refine ⟨heip, heflags, hesp.trans (by decide), ?_, ?_⟩
  · exact (hmem 0x201ff8 (by decide) (by decide) (by decide)).trans hexit
  · exact (hmem 0x201ffc (by decide) (by decide) (by decide)).trans harg

end BitchKernel
