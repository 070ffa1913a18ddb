import BitchKernel.Process.Switch

/-!
# Sleeps

`process_wait`, `process_lock` and `intr_lock` statement by statement, on any number of processes.
Each of them ends in `intr(TIMER_INT)`, which advances the tick counter as the timer does. A sleep
is kept with the ticks that were asked for and with the hardware interrupts since the call: it is
long enough as long as the wake tick does not wrap and no process raises the interrupt while
another one sleeps.
-/

namespace BitchKernel

open Lib

/-- The statement of `process_wait`, `process_lock` or `intr_lock` that a process comes to next. -/
inductive CallPc
  | idle
  /-- `current_process -> state = WAIT` -/
  | enterWait
  /-- the `while` of `intr_lock` -/
  | intrLoop (lock : ℕ)
  /-- `if (*lock == 1)` of `intr_lock` -/
  | intrTest (lock : ℕ)
  /-- `current_process -> state = LOCK` -/
  | enterLock
  /-- `intr(TIMER_INT)` -/
  | timerInt
deriving DecidableEq

/-- A call of `process_wait`: its argument, and the hardware interrupts of the timer since. -/
structure Sleep where
  asked : ℕ
  hardware : ℕ
deriving DecidableEq

/-- The scheduler and the next statement of each process by its header. As ghosts: the sleeps, and
those that `process_switch` has ended. -/
structure SleepRun where
  sched : Sched
  pc : ℕ → CallPc
  asleep : ℕ → Option Sleep
  ended : List Sleep

inductive SleepOp
  | processWait (tick : ℕ)
  | enterWait
  | processLock (lock : ℕ)
  | intrLock (lock : ℕ)
  | intrLoop
  | intrTest
  | enterLock
  | processUnlock (lock : ℕ)
  | processCreate (new pde : ℕ)
  | processExit
  /-- `intr(TIMER_INT)` by the running process. -/
  | softInt (fuel : ℕ)
  /-- The timer interrupts, between any two statements. -/
  | hardInt (fuel : ℕ)

namespace SleepRun

def current (s : SleepRun) : ℕ := s.sched.currentProcess

/-- The running process comes to the statement `pc`. -/
def goto (s : SleepRun) (pc : CallPc) : SleepRun :=
  { s with pc := Function.update s.pc s.current pc }

/-- The running process is in its own program. -/
def Free (s : SleepRun) : Prop := (s.sched.mem s.current).state = .run ∧ s.pc s.current = .idle

def wake (s : SleepRun) : SwitchEvent → SleepRun
  | .woken process =>
      match s.asleep process with
      | some sleep =>
          { s with
            asleep := Function.update s.asleep process none
            ended := sleep :: s.ended }
      | none => s
  | .granted _ _ => s
  | .reaped _ => s

def interrupt (s : SleepRun) (sched : Sched) (events : List SwitchEvent) : SleepRun :=
  { events.foldl wake s with sched := sched }

/-- The timer itself has interrupted. -/
def countHardware (s : SleepRun) : SleepRun :=
  { s with asleep := fun a => (s.asleep a).map fun z => { z with hardware := z.hardware + 1 } }

/-- The steps of the running process, and the timer. A new stack is not one of a process that
sleeps. -/
inductive Step (s : SleepRun) : SleepOp → SleepRun → Prop
  | processWait (tick : ℕ) (hfree : s.Free) (htick : tick < 2 ^ 32) :
      Step s (.processWait tick)
        ({ s with
          sched := s.sched.setTick tick
          asleep := Function.update s.asleep s.current (some ⟨tick, 0⟩) }.goto .enterWait)
  | enterWait (hpc : s.pc s.current = .enterWait) :
      Step s .enterWait ({ s with sched := s.sched.enterWait }.goto .timerInt)
  | processLock (lock : ℕ) (hfree : s.Free) :
      Step s (.processLock lock) ({ s with sched := s.sched.setLock lock }.goto .enterLock)
  | intrLock (lock : ℕ) (hfree : s.Free) :
      Step s (.intrLock lock) ({ s with sched := s.sched.setLock lock }.goto (.intrLoop lock))
  | intrLoop {lock : ℕ} (hpc : s.pc s.current = .intrLoop lock) :
      Step s .intrLoop
        (if s.current = (s.sched.mem s.current).next ∧ s.sched.lockByte lock = 1 then s
        else s.goto (.intrTest lock))
  | intrTest {lock : ℕ} (hpc : s.pc s.current = .intrTest lock) :
      Step s .intrTest (if s.sched.lockByte lock = 1 then s.goto .enterLock else s.goto .idle)
  | enterLock (hpc : s.pc s.current = .enterLock) :
      Step s .enterLock ({ s with sched := s.sched.enterLock }.goto .timerInt)
  | processUnlock (lock : ℕ) (hfree : s.Free) :
      Step s (.processUnlock lock) { s with sched := s.sched.processUnlock lock }
  | processCreate (new pde : ℕ) (hfree : s.Free) (hnew : new ≠ 0) (hfresh : s.asleep new = none) :
      Step s (.processCreate new pde)
        { s with
          sched := (s.sched.processCreate new pde).2
          pc := Function.update s.pc new .idle }
  | processExit (hfree : s.Free) : Step s .processExit { s with sched := s.sched.processExit }
  | softInt (fuel : ℕ) {sched : Sched} {events : List SwitchEvent} (hpc : s.pc s.current = .timerInt)
      (hswitch : s.sched.irq0Handler fuel = some (sched, events)) :
      Step s (.softInt fuel) ((s.goto .idle).interrupt sched events)
  | hardInt (fuel : ℕ) {sched : Sched} {events : List SwitchEvent}
      (hswitch : s.sched.irq0Handler fuel = some (sched, events)) :
      Step s (.hardInt fuel) (s.countHardware.interrupt sched events)

/-- A sleep does not wrap its wake tick, and a process that raises the timer interrupt finds no
other process asleep that still needs the timer. -/
def SleepsSafe (s : SleepRun) : SleepOp → Prop
  | .processWait tick => s.sched.tick + tick < 2 ^ 32
  | .softInt _ => ∀ a ≠ s.current, ∀ z, s.asleep a = some z → z.asked ≤ z.hardware
  | _ => True

end SleepRun

/-- The runs from any ring and any value of the tick counter. -/
def sleepMachine : Machine SleepRun SleepOp where
  init s := s.sched.tick < 2 ^ 32 ∧ (∀ a, s.pc a = .idle) ∧ (∀ a, s.asleep a = none) ∧ s.ended = []
  step s op s' := s.Step op s'

/-! ## What a switch does to a sleeper -/

namespace Sched

theorem store_mem_of_ne (s : Sched) {a x : ℕ} (f : Process → Process) (ha : a ≠ x) :
    (s.store x f).mem a = s.mem a := by
  rw [store_mem, if_neg ha]

theorem processCreate_mem (s : Sched) {new : ℕ} (hnew : new ≠ 0) (pde : ℕ) :
    (s.processCreate new pde).2.tick = s.tick ∧
      ∀ a ≠ new, a ≠ s.currentProcess → (s.processCreate new pde).2.mem a = s.mem a := by
  unfold processCreate
  rw [if_neg hnew]
  refine ⟨rfl, fun a hne hcurrent => ?_⟩
  change ((s.initNew new pde).linkNew new).mem a = s.mem a
  exact (store_mem_of_ne _ _ hcurrent).trans (s.initNew_mem new pde hne)

variable {tick prev fuel last : ℕ} {s s' : Sched} {events : List SwitchEvent}

/-- What a walk does to the headers: a process is woken only if its tick has come, and one that
waits stays so unless it is woken. -/
structure Wakes (s s' : Sched) (tick : ℕ) (events : List SwitchEvent) : Prop where
  tick_eq : ∀ a, (s'.mem a).tick = (s.mem a).tick
  due : ∀ a, .woken a ∈ events → (s.mem a).tick ≤ tick
  waits : ∀ a, (s.mem a).state = .wait → .woken a ∉ events → (s'.mem a).state = .wait
  counter : s'.tick = s.tick

theorem Wakes.of_store {x : ℕ} {f : Process → Process} {s₁ : Sched} (h : Wakes s₁ s' tick events)
    (hmem : s₁.mem = (s.store x f).mem) (htick : ∀ y, (f y).tick = y.tick)
    (hstate : (s.mem x).state = .wait → .woken x ∉ events → (f (s.mem x)).state = .wait)
    (hcounter : s₁.tick = s.tick) : Wakes s s' tick events := by
  have htick₁ : ∀ a, (s₁.mem a).tick = (s.mem a).tick := by
    intro a
    rw [hmem, store_mem]
    by_cases ha : a = x
    · rw [if_pos ha, htick, ha]
    · rw [if_neg ha]
  refine ⟨fun a => (h.tick_eq a).trans (htick₁ a), fun a ha => htick₁ a ▸ h.due a ha,
    fun a hwait hnot => h.waits a ?_ hnot, h.counter.trans hcounter⟩
  rw [hmem, store_mem]
  by_cases ha : a = x
  · subst ha
    rw [if_pos rfl]
    exact hstate hwait hnot
  · rw [if_neg ha]
    exact hwait

theorem Wakes.of_mem_iff {events' : List SwitchEvent}
    (h : ∀ a, SwitchEvent.woken a ∈ events' ↔ SwitchEvent.woken a ∈ events)
    (hw : Wakes s s' tick events) : Wakes s s' tick events' :=
  ⟨hw.tick_eq, fun a ha => hw.due a ((h a).1 ha),
    fun a hwait hnot => hw.waits a hwait fun ha => hnot ((h a).2 ha), hw.counter⟩

theorem Wakes.of_pass {x : ℕ} (h : Wakes (s.pass tick x).1 s' tick events) :
    Wakes s s' tick ((s.pass tick x).2 ++ events) := by
  unfold pass at h ⊢
  split_ifs at h ⊢ with hfree hdue
  · have hw : Wakes s s' tick events := by
      refine h.of_store (rfl : _ = (s.store x fun y => { y with state := .run }).mem)
        (fun _ => rfl) (fun hwait => ?_) rfl
      rw [hfree.1] at hwait
      exact absurd hwait (by decide)
    exact hw.of_mem_iff fun a => by simp
  · refine ⟨fun a => ?_, fun a ha => ?_, fun a hwait hnot => ?_, h.counter⟩
    · rw [h.tick_eq, store_mem]
      by_cases ha : a = x
      · rw [if_pos ha, ha]
      · rw [if_neg ha]
    · rcases List.mem_cons.1 ha with heq | ha
      · rw [SwitchEvent.woken.inj heq]
        exact hdue.2
      · have hle := h.due a ha
        rw [store_mem] at hle
        by_cases hx : a = x
        · rw [hx]
          exact hdue.2
        · rwa [if_neg hx] at hle
    · rw [List.cons_append, List.mem_cons, not_or] at hnot
      refine h.waits a ?_ hnot.2
      rw [store_mem, if_neg fun ha => hnot.1 (by rw [ha])]
      exact hwait
  · exact h

theorem switchTo_wakes (h : switchTo tick prev fuel s last = some (s', events)) :
    Wakes s s' tick events := by
  induction fuel generalizing s last events with
  | zero => simp [switchTo] at h
  | succ fuel ih =>
      by_cases hrun : (s.mem (s.mem last).next).state = .run
      · rw [switchTo_run rfl hrun] at h
        obtain ⟨rfl, rfl⟩ := Prod.mk.inj (Option.some.inj h)
        split_ifs
        · exact ⟨fun _ => rfl, fun a ha => by simp at ha, fun _ hwait _ => hwait, rfl⟩
        · exact ⟨fun _ => rfl, fun a ha => by simp at ha, fun _ hwait _ => hwait, rfl⟩
      by_cases hexit : (s.mem (s.mem last).next).state = .exit
      · rw [switchTo_reap rfl hexit] at h
        obtain ⟨q, hq, heq⟩ := Option.map_eq_some_iff.1 h
        obtain ⟨rfl, rfl⟩ := Prod.mk.inj heq
        have hw : Wakes s q.1 tick q.2 :=
          (ih hq).of_store
            (rfl : _ = (s.store last fun y => { y with next := (s.mem (s.mem last).next).next }).mem)
            (fun _ => rfl) (fun hwait _ => hwait) rfl
        exact hw.of_mem_iff fun a => by simp
      · rw [switchTo_pass rfl hrun hexit] at h
        obtain ⟨q, hq, heq⟩ := Option.map_eq_some_iff.1 h
        obtain ⟨rfl, rfl⟩ := Prod.mk.inj heq
        exact (ih hq).of_pass

theorem irq0Handler_wakes (h : s.irq0Handler fuel = some (s', events)) :
    (∀ a, (s'.mem a).tick = (s.mem a).tick) ∧ (∀ a, .woken a ∈ events → (s.mem a).tick ≤ s.tick) ∧
      (∀ a, (s.mem a).state = .wait → .woken a ∉ events → (s'.mem a).state = .wait) ∧
      s'.tick = add32 s.tick 1 := by
  have hw := switchTo_wakes h
  exact ⟨hw.tick_eq, hw.due, hw.waits, hw.counter⟩

end Sched

/-! ## The runs -/

namespace SleepRun

variable {s s' : SleepRun}

/-- What the own `intr(TIMER_INT)` of a sleep has added to the counter. -/
def charge : CallPc → ℕ
  | .idle => 1
  | _ => 0

/-- A sleep that goes on: the process is in `process_wait` or waits, and the ticks that it still
has to wait for are the interrupts that it still has to sleep through. -/
structure Keeping (s : SleepRun) (a : ℕ) (sleep : Sleep) : Prop where
  pc : s.pc a = .enterWait ∨
    ((s.pc a = .timerInt ∨ s.pc a = .idle) ∧ (s.sched.mem a).state = .wait)
  on_time : sleep.hardware < sleep.asked → (s.sched.mem a).tick < 2 ^ 32 ∧
    s.sched.tick + sleep.asked = (s.sched.mem a).tick + sleep.hardware + charge (s.pc a)

/-- The invariant of the runs in which nobody disturbs a sleep. -/
structure SleepInv (s : SleepRun) : Prop where
  tick_lt : s.sched.tick < 2 ^ 32
  ended : ∀ z ∈ s.ended, z.asked ≤ z.hardware
  keeping : ∀ a z, s.asleep a = some z → s.Keeping a z

@[simp] theorem goto_sched (s : SleepRun) (pc : CallPc) : (s.goto pc).sched = s.sched := rfl

@[simp] theorem goto_asleep (s : SleepRun) (pc : CallPc) : (s.goto pc).asleep = s.asleep := rfl

@[simp] theorem goto_ended (s : SleepRun) (pc : CallPc) : (s.goto pc).ended = s.ended := rfl

theorem charge_le (pc : CallPc) : charge pc ≤ 1 := by
  cases pc <;> simp [charge]

theorem SleepInv.awake (h : SleepInv s) (hfree : s.Free) : s.asleep s.current = none := by
  cases hasleep : s.asleep s.current with
  | none => rfl
  | some z =>
      rcases (h.keeping _ z hasleep).pc with hpc | ⟨-, hwait⟩
      · rw [hfree.2] at hpc
        exact absurd hpc (by decide)
      · rw [hfree.1] at hwait
        exact absurd hwait (by decide)

/-- Neither does one between two statements of a call for a lock. -/
theorem SleepInv.awake_of_pc (h : SleepInv s) (hwait : s.pc s.current ≠ .enterWait)
    (hint : s.pc s.current ≠ .timerInt) (hidle : s.pc s.current ≠ .idle) :
    s.asleep s.current = none := by
  cases hasleep : s.asleep s.current with
  | none => rfl
  | some z =>
      rcases (h.keeping _ z hasleep).pc with hpc | ⟨hpc | hpc, -⟩
      · exact absurd hpc hwait
      · exact absurd hpc hint
      · exact absurd hpc hidle

theorem SleepInv.of_statement (h : SleepInv s) (htick : s'.sched.tick = s.sched.tick)
    (hended : s'.ended = s.ended)
    (hkeep : ∀ a z, s'.asleep a = some z → s'.Keeping a z ∨ (s.asleep a = some z ∧ s'.pc a = s.pc a ∧
      (s'.sched.mem a).state = (s.sched.mem a).state ∧ (s'.sched.mem a).tick = (s.sched.mem a).tick)) :
    SleepInv s' := by
  refine ⟨htick ▸ h.tick_lt, hended ▸ h.ended, fun a z ha => ?_⟩
  rcases hkeep a z ha with hkeeping | ⟨hold, hpc, hstate, hmem⟩
  · exact hkeeping
  · obtain ⟨hat, htime⟩ := h.keeping a z hold
    refine ⟨?_, ?_⟩
    · rw [hpc, hstate]
      exact hat
    · rw [hpc, hmem, htick]
      exact htime

/-- A statement of a process that does not sleep, which stores to its own header at most. -/
theorem SleepInv.of_awake (h : SleepInv s) (hawake : s.asleep s.current = none) {sched : Sched}
    {pc : ℕ → CallPc} (htick : sched.tick = s.sched.tick) (hpc : ∀ a ≠ s.current, pc a = s.pc a)
    (hmem : ∀ a ≠ s.current, sched.mem a = s.sched.mem a) :
    SleepInv { s with sched := sched, pc := pc } := by
  refine h.of_statement htick rfl fun a z ha => .inr ?_
  have hne : a ≠ s.current := by
    rintro rfl
    rw [hawake] at ha
    exact absurd ha (by simp)
  exact ⟨ha, hpc a hne, by rw [hmem a hne], by rw [hmem a hne]⟩

theorem update_pc_of_ne {pc : CallPc} {a : ℕ} (ha : a ≠ s.current) :
    Function.update s.pc s.current pc a = s.pc a := Function.update_of_ne ha _ _

theorem store_mem_self (s : SleepRun) (f : Process → Process) :
    (s.sched.store s.current f).mem s.current = f (s.sched.mem s.current) := by
  rw [Sched.store_mem, if_pos rfl]

theorem SleepInv.processWait (h : SleepInv s) {tick : ℕ} (hwrap : s.sched.tick + tick < 2 ^ 32) :
    SleepInv ({ s with
      sched := s.sched.setTick tick
      asleep := Function.update s.asleep s.current (some ⟨tick, 0⟩) }.goto .enterWait) := by
  refine h.of_statement rfl rfl fun a z ha => ?_
  replace ha : Function.update s.asleep s.current (some ⟨tick, 0⟩) a = some z := ha
  by_cases hcurrent : a = s.current
  · subst hcurrent
    rw [Function.update_self, Option.some.injEq] at ha
    subst ha
    have hmem : ((s.sched.setTick tick).mem s.current).tick = s.sched.tick + tick :=
      (congrArg Process.tick (store_mem_self s _)).trans (add32_of_lt hwrap)
    have hpc : (goto { s with
        sched := s.sched.setTick tick
        asleep := Function.update s.asleep s.current (some ⟨tick, 0⟩) } .enterWait).pc s.current =
          .enterWait := Function.update_self _ _ _
    refine .inl ⟨.inl hpc, fun _ => ?_⟩
    rw [hpc]
    dsimp only [goto_sched]
    rw [hmem]
    exact ⟨hwrap, rfl⟩
  · rw [Function.update_of_ne hcurrent] at ha
    have hmem : (s.sched.setTick tick).mem a = s.sched.mem a :=
      s.sched.store_mem_of_ne _ hcurrent
    exact .inr ⟨ha, update_pc_of_ne hcurrent, congrArg Process.state hmem, congrArg Process.tick hmem⟩

theorem SleepInv.enterWait (h : SleepInv s) (hpc : s.pc s.current = .enterWait) :
    SleepInv ({ s with sched := s.sched.enterWait }.goto .timerInt) := by
  refine h.of_statement rfl rfl fun a z ha => ?_
  by_cases hcurrent : a = s.current
  · subst hcurrent
    obtain ⟨-, htime⟩ := h.keeping _ z ha
    have hpc' : (goto { s with sched := s.sched.enterWait } .timerInt).pc s.current = .timerInt :=
      Function.update_self _ _ _
    have hheader : s.sched.enterWait.mem s.current = { s.sched.mem s.current with state := .wait } :=
      store_mem_self s fun x => { x with state := .wait }
    refine .inl ⟨.inr ⟨.inl hpc', congrArg Process.state hheader⟩, fun hlt => ?_⟩
    · have hmem : (s.sched.enterWait.mem s.current).tick = (s.sched.mem s.current).tick :=
        by rw [hheader]
      have htime := htime hlt
      rw [hpc] at htime
      rw [hpc']
      dsimp only [goto_sched]
      rw [hmem]
      exact htime
  · have hmem : s.sched.enterWait.mem a = s.sched.mem a :=
      s.sched.store_mem_of_ne _ hcurrent
    exact .inr ⟨ha, update_pc_of_ne hcurrent, congrArg Process.state hmem, congrArg Process.tick hmem⟩

/-! ## The interrupts -/

theorem wake_asleep (s : SleepRun) (e : SwitchEvent) (a : ℕ) :
    (s.wake e).asleep a = if e = .woken a then none else s.asleep a := by
  cases e with
  | granted process lock => simp [wake]
  | reaped process => simp [wake]
  | woken process =>
      cases hasleep : s.asleep process with
      | none =>
          simp only [wake, hasleep]
          by_cases ha : process = a
          · subst ha
            simpa using hasleep
          · simp [ha]
      | some z =>
          simp only [wake, hasleep]
          by_cases ha : process = a
          · subst ha
            simp
          · simp [ha, Function.update_of_ne (Ne.symm ha)]

theorem mem_wake_ended {e : SwitchEvent} {z : Sleep} (h : z ∈ (s.wake e).ended) :
    z ∈ s.ended ∨ ∃ a, e = .woken a ∧ s.asleep a = some z := by
  cases e with
  | granted process lock => exact .inl h
  | reaped process => exact .inl h
  | woken process =>
      cases hasleep : s.asleep process with
      | none =>
          simp only [wake, hasleep] at h
          exact .inl h
      | some y =>
          simp only [wake, hasleep, List.mem_cons] at h
          rcases h with rfl | h
          · exact .inr ⟨process, rfl, hasleep⟩
          · exact .inl h

theorem wake_pc (s : SleepRun) (e : SwitchEvent) : (s.wake e).pc = s.pc := by
  cases e with
  | granted process lock => rfl
  | reaped process => rfl
  | woken process =>
      cases hasleep : s.asleep process with
      | none => simp only [wake, hasleep]
      | some z => simp only [wake, hasleep]

theorem foldl_wake_asleep (events : List SwitchEvent) (s : SleepRun) (a : ℕ) :
    (events.foldl wake s).asleep a = if .woken a ∈ events then none else s.asleep a := by
  induction events generalizing s with
  | nil => simp
  | cons e events ih =>
      rw [List.foldl_cons, ih, wake_asleep]
      by_cases hmem : SwitchEvent.woken a ∈ events
      · rw [if_pos hmem, if_pos (List.mem_cons_of_mem e hmem)]
      · rw [if_neg hmem]
        by_cases he : e = .woken a
        · rw [if_pos he, if_pos (he ▸ List.mem_cons_self)]
        · rw [if_neg he, if_neg (by simp [hmem, Ne.symm he])]

theorem mem_foldl_wake_ended {events : List SwitchEvent} {z : Sleep}
    (h : z ∈ (events.foldl wake s).ended) :
    z ∈ s.ended ∨ ∃ a, .woken a ∈ events ∧ s.asleep a = some z := by
  induction events generalizing s with
  | nil => exact .inl h
  | cons e events ih =>
      rcases ih h with hold | ⟨a, ha, hasleep⟩
      · rcases mem_wake_ended hold with hold | ⟨a, rfl, hasleep⟩
        · exact .inl hold
        · exact .inr ⟨a, List.mem_cons_self, hasleep⟩
      · rw [wake_asleep] at hasleep
        by_cases he : e = .woken a
        · rw [if_pos he] at hasleep
          exact absurd hasleep (by simp)
        · rw [if_neg he] at hasleep
          exact .inr ⟨a, List.mem_cons_of_mem e ha, hasleep⟩

theorem foldl_wake_pc (events : List SwitchEvent) (s : SleepRun) : (events.foldl wake s).pc = s.pc := by
  induction events generalizing s with
  | nil => rfl
  | cons e events ih => rw [List.foldl_cons, ih, wake_pc]

theorem SleepInv.interrupt {fuel : ℕ} {sched : Sched} {events : List SwitchEvent} (h : SleepInv s)
    (hswitch : s.sched.irq0Handler fuel = some (sched, events))
    (hended : s'.ended = s.ended)
    (hdue : ∀ a z, s'.asleep a = some z → (s.sched.mem a).tick ≤ s.sched.tick → z.asked ≤ z.hardware)
    (hkeep : ∀ a z, s'.asleep a = some z →
      (s'.pc a = .enterWait ∨ ((s'.pc a = .timerInt ∨ s'.pc a = .idle) ∧ (s.sched.mem a).state = .wait)) ∧
      (z.hardware < z.asked → (s.sched.mem a).tick < 2 ^ 32 ∧
        s.sched.tick + 1 + z.asked = (s.sched.mem a).tick + z.hardware + charge (s'.pc a) ∧
        s.sched.tick + 1 ≤ (s.sched.mem a).tick)) :
    SleepInv (s'.interrupt sched events) := by
  obtain ⟨htick, hwoken, hwaits, hcounter⟩ := Sched.irq0Handler_wakes hswitch
  refine ⟨?_, fun z hz => ?_, fun a z ha => ?_⟩
  · exact hcounter ▸ add32_lt s.sched.tick 1
  · rcases mem_foldl_wake_ended hz with hold | ⟨a, ha, hasleep⟩
    · exact h.ended z (hended ▸ hold)
    · exact hdue a z hasleep (hwoken a ha)
  · replace ha : (events.foldl wake s').asleep a = some z := ha
    rw [foldl_wake_asleep] at ha
    by_cases hmem : SwitchEvent.woken a ∈ events
    · rw [if_pos hmem] at ha
      exact absurd ha (by simp)
    · rw [if_neg hmem] at ha
      obtain ⟨hpc, htime⟩ := hkeep a z ha
      have hpc' : (s'.interrupt sched events).pc a = s'.pc a := congrFun (foldl_wake_pc events s') a
      refine ⟨?_, fun hlt => ?_⟩
      · rw [hpc']
        exact hpc.imp_right fun hwait => ⟨hwait.1, hwaits a hwait.2 hmem⟩
      · obtain ⟨hwake, heq, hle⟩ := htime hlt
        rw [hpc']
        change (sched.mem a).tick < 2 ^ 32 ∧
          sched.tick + z.asked = (sched.mem a).tick + z.hardware + charge (s'.pc a)
        rw [htick, hcounter, add32_of_lt (by omega)]
        exact ⟨hwake, heq⟩

theorem SleepInv.hardInt {fuel : ℕ} {sched : Sched} {events : List SwitchEvent} (h : SleepInv s)
    (hswitch : s.sched.irq0Handler fuel = some (sched, events)) :
    SleepInv (s.countHardware.interrupt sched events) := by
  refine h.interrupt hswitch rfl (fun a z ha hdue => ?_) fun a z ha => ?_
  all_goals
    obtain ⟨y, hy, rfl⟩ := Option.map_eq_some_iff.1 ha
    obtain ⟨hpc, htime⟩ := h.keeping a y hy
    have hcharge := charge_le (s.pc a)
    dsimp only
  · by_contra hlt
    obtain ⟨-, heq⟩ := htime (by omega)
    omega
  · refine ⟨hpc, fun hlt => ?_⟩
    obtain ⟨hwake, heq⟩ := htime (by omega)
    change (s.sched.mem a).tick < 2 ^ 32 ∧
      s.sched.tick + 1 + y.asked = (s.sched.mem a).tick + (y.hardware + 1) + charge (s.pc a) ∧ _
    exact ⟨hwake, by omega, by omega⟩

/-- `intr(TIMER_INT)`, while no other process needs the timer. -/
theorem SleepInv.softInt {fuel : ℕ} {sched : Sched} {events : List SwitchEvent} (h : SleepInv s)
    (hpc : s.pc s.current = .timerInt)
    (hothers : ∀ a ≠ s.current, ∀ z, s.asleep a = some z → z.asked ≤ z.hardware)
    (hswitch : s.sched.irq0Handler fuel = some (sched, events)) :
    SleepInv ((s.goto .idle).interrupt sched events) := by
  refine h.interrupt hswitch rfl (fun a z ha hdue => ?_) fun a z ha => ?_
  all_goals
    replace ha : s.asleep a = some z := ha
    obtain ⟨hat, htime⟩ := h.keeping a z ha
  · by_cases hcurrent : a = s.current
    · subst hcurrent
      by_contra hlt
      obtain ⟨-, heq⟩ := htime (by omega)
      rw [hpc] at heq
      simp only [charge] at heq
      omega
    · exact hothers a hcurrent z ha
  · by_cases hcurrent : a = s.current
    · subst hcurrent
      have hidle : (s.goto .idle).pc s.current = .idle := Function.update_self _ _ _
      rw [hidle]
      refine ⟨.inr ⟨.inr rfl, ?_⟩, fun hlt => ?_⟩
      · rcases hat with hwait | ⟨-, hwait⟩
        · rw [hpc] at hwait
          exact absurd hwait (by decide)
        · exact hwait
      · obtain ⟨hwake, heq⟩ := htime hlt
        rw [hpc] at heq
        simp only [charge] at heq ⊢
        exact ⟨hwake, by omega, by omega⟩
    · have hsame : (s.goto .idle).pc a = s.pc a := update_pc_of_ne hcurrent
      rw [hsame]
      exact ⟨hat, fun hlt => absurd (hothers a hcurrent z ha) (Nat.not_le_of_lt hlt)⟩

/-! ## The runs -/

theorem SleepInv.of_init (h : sleepMachine.init s) : SleepInv s := by
  obtain ⟨htick, -, hasleep, hended⟩ := h
  refine ⟨htick, fun z hz => ?_, fun a z ha => ?_⟩
  · rw [hended] at hz
    exact absurd hz List.not_mem_nil
  · rw [hasleep] at ha
    exact absurd ha (by simp)

theorem SleepInv.of_step {op : SleepOp} (h : SleepInv s) (hsafe : s.SleepsSafe op)
    (hstep : s.Step op s') : SleepInv s' := by
  cases hstep with
  | processWait tick hfree htick => exact h.processWait hsafe
  | enterWait hpc => exact h.enterWait hpc
  | processLock lock hfree =>
      exact h.of_awake (h.awake hfree) rfl (fun a ha => update_pc_of_ne ha) fun a ha =>
        s.sched.store_mem_of_ne (fun x => { x with lock := lock }) ha
  | intrLock lock hfree =>
      exact h.of_awake (h.awake hfree) rfl (fun a ha => update_pc_of_ne ha) fun a ha =>
        s.sched.store_mem_of_ne (fun x => { x with lock := lock }) ha
  | intrLoop hpc =>
      split
      · exact h
      · refine h.of_awake (h.awake_of_pc ?_ ?_ ?_) rfl (fun a ha => update_pc_of_ne ha) fun _ _ => rfl
        all_goals
          rw [hpc]
          simp
  | intrTest hpc =>
      have hawake : s.asleep s.current = none := by
        refine h.awake_of_pc ?_ ?_ ?_
        all_goals
          rw [hpc]
          simp
      split
      · exact h.of_awake hawake rfl (fun a ha => update_pc_of_ne ha) fun _ _ => rfl
      · exact h.of_awake hawake rfl (fun a ha => update_pc_of_ne ha) fun _ _ => rfl
  | enterLock hpc =>
      refine h.of_awake (h.awake_of_pc ?_ ?_ ?_) rfl (fun a ha => update_pc_of_ne ha)
        fun a ha => s.sched.store_mem_of_ne (fun x => { x with state := .lock }) ha
      all_goals
        rw [hpc]
        simp
  | processUnlock lock hfree => exact h.of_awake (h.awake hfree) rfl (fun _ _ => rfl) fun _ _ => rfl
  | processCreate new pde hfree hnew hfresh =>
      have hcreate := Sched.processCreate_mem s.sched hnew pde
      refine h.of_statement hcreate.1 rfl fun a z ha => .inr ?_
      have hne : a ≠ new := by
        rintro rfl
        rw [hfresh] at ha
        exact absurd ha (by simp)
      have hcurrent : a ≠ s.current := by
        rintro rfl
        rw [h.awake hfree] at ha
        exact absurd ha (by simp)
      have hmem := hcreate.2 a hne hcurrent
      exact ⟨ha, Function.update_of_ne hne _ _, congrArg Process.state hmem, congrArg Process.tick hmem⟩
  | processExit hfree =>
      exact h.of_awake (h.awake hfree) rfl (fun _ _ => rfl) fun a ha => s.sched.store_mem_of_ne _ ha
  | softInt fuel hpc hswitch => exact h.softInt hpc hsafe hswitch
  | hardInt fuel hswitch => exact h.hardInt hswitch

end SleepRun

/-- **Sleeps that nobody disturbs are never cut short.** From any ring and any value of the tick
counter, in every run in which no wake tick wraps and no process raises the timer interrupt while
another one still needs it, `process_switch` ends no sleep before the timer has interrupted as often
as was asked for. -/
theorem sleeps_never_cut_short {s : SleepRun}
    (hs : (sleepMachine.restrict SleepRun.SleepsSafe).Reachable s) :
    ∀ z ∈ s.ended, z.asked ≤ z.hardware := by
  have hinv : SleepRun.SleepInv s := by
    induction hs with
    | init h => exact .of_init h
    | step _ h ih => exact ih.of_step h.1 h.2
  exact hinv.ended

section Example

open SleepRun

def twoProcesses : SleepRun where
  sched :=
    { mem a := { state := .run, pid := a, stackTop := 0, pde := 0, lock := 0, tick := 0, next := 3 - a }
      currentProcess := 1
      newPid := 3
      lockByte _ := 0
      tick := 0 }
  pc _ := .idle
  asleep _ := none
  ended := []

/-- `intr(TIMER_INT)` as a function; the state stays when the switch does not return. -/
def soft (s : SleepRun) (fuel : ℕ) : SleepRun :=
  match s.sched.irq0Handler fuel with
  | some (sched, events) => (s.goto .idle).interrupt sched events
  | none => s

def hard (s : SleepRun) (fuel : ℕ) : SleepRun :=
  match s.sched.irq0Handler fuel with
  | some (sched, events) => s.countHardware.interrupt sched events
  | none => s

theorem step_soft {s : SleepRun} {fuel : ℕ} (hpc : s.pc s.current = .timerInt)
    (h : (s.sched.irq0Handler fuel).isSome) : s.Step (.softInt fuel) (soft s fuel) := by
  unfold soft
  cases hswitch : s.sched.irq0Handler fuel with
  | none =>
      rw [hswitch] at h
      exact absurd h (by decide)
  | some r => exact .softInt fuel hpc hswitch

theorem step_hard {s : SleepRun} {fuel : ℕ} (h : (s.sched.irq0Handler fuel).isSome) :
    s.Step (.hardInt fuel) (hard s fuel) := by
  unfold hard
  cases hswitch : s.sched.irq0Handler fuel with
  | none =>
      rw [hswitch] at h
      exact absurd h (by decide)
  | some r => exact .hardInt fuel hswitch

/-- The process 1 comes to the `intr(TIMER_INT)` of `process_wait(1)`. -/
def oneWaits : SleepRun :=
  let s := { twoProcesses with
    sched := twoProcesses.sched.setTick 1
    asleep := Function.update twoProcesses.asleep twoProcesses.current (some ⟨1, 0⟩) }.goto .enterWait
  { s with sched := s.sched.enterWait }.goto .timerInt

def oneAsleep : SleepRun := soft oneWaits 5

theorem oneWaits_reachable : (sleepMachine.restrict SleepsSafe).Reachable oneWaits := by
  have hinit : (sleepMachine.restrict SleepsSafe).Reachable twoProcesses :=
    .init ⟨by decide, fun _ => rfl, fun _ => rfl, rfl⟩
  have hsafe : twoProcesses.SleepsSafe (.processWait 1) := by
    change 0 + 1 < 2 ^ 32
    decide
  have hwait := Machine.Reachable.step hinit ⟨hsafe, .processWait 1 ⟨rfl, rfl⟩ (by decide)⟩
  exact .step (a := .enterWait) hwait ⟨trivial, .enterWait rfl⟩

theorem oneAsleep_reachable : (sleepMachine.restrict SleepsSafe).Reachable oneAsleep := by
  refine .step (a := .softInt 5) oneWaits_reachable ⟨fun a ha z hz => ?_, step_soft rfl (by with_unfolding_all decide)⟩
  have hnone : Function.update twoProcesses.asleep 1 (some ⟨1, 0⟩) a = none := Function.update_of_ne ha _ _
  exact absurd (hnone.symm.trans hz) (by simp)

/-- The process 2 takes a lock, and the interrupt that it raises ends the sleep of the process 1. -/
theorem sleep_cut_short : ∃ s, sleepMachine.Reachable s ∧ ∃ z ∈ s.ended, z.hardware < z.asked := by
  let s := { oneAsleep with sched := oneAsleep.sched.setLock 7 }.goto .enterLock
  let s₁ := { s with sched := s.sched.enterLock }.goto .timerInt
  have hs : sleepMachine.Reachable s :=
    .step (a := .processLock 7) oneAsleep_reachable.of_restrict
      (.processLock 7 ⟨by with_unfolding_all decide, by with_unfolding_all decide⟩)
  have hs₁ : sleepMachine.Reachable s₁ := .step (a := .enterLock) hs (.enterLock (by with_unfolding_all decide))
  refine ⟨soft s₁ 5, .step (a := .softInt 5) hs₁ (step_soft (by with_unfolding_all decide) (by with_unfolding_all decide)),
    ⟨1, 0⟩, ?_, by decide⟩
  with_unfolding_all decide

/-- The timer ends the sleep of the process 1. -/
theorem sleeps_never_cut_short_one_tick :
    (hard oneAsleep 5).ended = [⟨1, 1⟩] ∧ ∀ z ∈ (hard oneAsleep 5).ended, z.asked ≤ z.hardware :=
  ⟨by with_unfolding_all decide, sleeps_never_cut_short
    (.step (a := .hardInt 5) oneAsleep_reachable ⟨trivial, step_hard (by with_unfolding_all decide)⟩)⟩

end Example

end BitchKernel
