import BitchKernel.Def
import BitchKernel.Lib.Machine
import Mathlib.Data.Finset.Basic
import Mathlib.Logic.Function.Basic

/-!
# Processes and their switch

`kernel/process/process.c` with the requests of `lock.c` and `wait.c` and the
tick counter of `driver/timer.c`. A process is the header at the bottom of its
kernel stack; the headers form a ring through `next`, which `process_switch`
walks from the running process on.

The statements of `process_lock` and of `process_wait` are steps of their own, and so
are the two stores of `process_create` that link a new process, so the timer may come
between any two of them; the `int` that ends the first two is a timer step.
`process_switch` runs with interrupts off and is one step.
-/

namespace BitchKernel

open Lib

inductive ProcessState
  | run
  | exit
  | lock
  | wait
deriving DecidableEq

/-- `struct process_t` without the saved registers. -/
structure Process where
  state : ProcessState
  pid : ℕ
  stackTop : ℕ
  pde : ℕ
  lock : ℕ
  tick : ℕ
  next : ℕ

/-- The process headers by address, `current_process`, `new_pid`, the lock bytes
by address, and `tick` of the timer. -/
structure Sched where
  mem : ℕ → Process
  currentProcess : ℕ
  newPid : ℕ
  lockByte : ℕ → ℕ
  tick : ℕ

/-- What `process_switch` does to a process it passes: a lock granted, a sleeper
woken, an exited process taken out and its stack freed. -/
inductive SwitchEvent
  | granted (process lock : ℕ)
  | woken (process : ℕ)
  | reaped (process : ℕ)
deriving DecidableEq

namespace Sched

/-- `process -> field = …`: a store to one header. -/
def store (s : Sched) (process : ℕ) (f : Process → Process) : Sched :=
  { s with mem := Function.update s.mem process (f (s.mem process)) }

/-- The walk of `process_switch` from `last` on; `tick` is the tick it was called
with. -/
def switchTo (tick prev : ℕ) : ℕ → Sched → ℕ → Option (Sched × List SwitchEvent)
  | 0, _, _ => none
  | fuel + 1, s, last =>
      let next := (s.mem last).next
      match (s.mem next).state with
      | .run =>
          if next ≠ prev then some ({ s with currentProcess := next }, [])
          else some (s, [])
      | .lock =>
          let lock := (s.mem next).lock
          if s.lockByte lock = 0 then
            let s := { s with lockByte := Function.update s.lockByte lock 1 }
            let s := s.store next fun x => { x with state := .run }
            (switchTo tick prev fuel s next).map fun r => (r.1, .granted next lock :: r.2)
          else
            switchTo tick prev fuel s next
      | .wait =>
          if (s.mem next).tick ≤ tick then
            let s := s.store next fun x => { x with state := .run }
            (switchTo tick prev fuel s next).map fun r => (r.1, .woken next :: r.2)
          else
            switchTo tick prev fuel s next
      | .exit =>
          let s := s.store last fun x => { x with next := (s.mem next).next }
          (switchTo tick prev fuel s last).map fun r => (r.1, .reaped next :: r.2)

def processSwitch (fuel : ℕ) (s : Sched) (tick : ℕ) : Option (Sched × List SwitchEvent) :=
  switchTo tick s.currentProcess fuel s s.currentProcess

/-- `irq0_handler` with `process_switch` registered. -/
def irq0Handler (fuel : ℕ) (s : Sched) : Option (Sched × List SwitchEvent) :=
  processSwitch fuel { s with tick := add32 s.tick 1 } s.tick

/-- `init_current_process`: `boot` is the address of `init_kernel_stack`. -/
def initCurrentProcess (boot kernelMmapPde : ℕ) (s : Sched) : Sched :=
  let s := { s with currentProcess := boot }
  let s := s.store boot fun x => { x with state := .run, pid := s.newPid }
  let s := { s with newPid := add32 s.newPid 1 }
  s.store boot fun x =>
    { x with stackTop := add32 boot kernelStackSize, pde := kernelMmapPde, next := boot }

/-- `process_create` from the first store to the new header to
`new -> next = current_process -> next`. -/
def initNew (s : Sched) (new pde : ℕ) : Sched :=
  let s := s.store new fun x => { x with state := .run, pid := s.newPid }
  let s := { s with newPid := add32 s.newPid 1 }
  s.store new fun x =>
    { x with
      stackTop := add32 new kernelStackSize
      pde := pde
      next := (s.mem s.currentProcess).next }

/-- `current_process -> next = new` of `process_create`. -/
def linkNew (s : Sched) (new : ℕ) : Sched :=
  s.store s.currentProcess fun x => { x with next := new }

/-- `process_create` after `vmm_alloc_page` has returned `new`, where no timer comes. -/
def processCreate (s : Sched) (new pde : ℕ) : ℕ × Sched :=
  if new = 0 then
    (0, s)
  else
    let s := (s.initNew new pde).linkNew new
    ((s.mem new).pid, s)

/-- `process_exit` up to the loop that halts. -/
def processExit (s : Sched) : Sched :=
  s.store s.currentProcess fun x => { x with state := .exit }

/-- `current_process -> lock = lock` of `process_lock`. -/
def setLock (s : Sched) (lock : ℕ) : Sched :=
  s.store s.currentProcess fun x => { x with lock := lock }

/-- `current_process -> state = LOCK` of `process_lock`. -/
def enterLock (s : Sched) : Sched :=
  s.store s.currentProcess fun x => { x with state := .lock }

def processUnlock (s : Sched) (lock : ℕ) : Sched :=
  { s with lockByte := Function.update s.lockByte lock 0 }

/-- `current_process -> tick = get_timer_ticks() + tick` of `process_wait`. -/
def setTick (s : Sched) (tick : ℕ) : Sched :=
  s.store s.currentProcess fun x => { x with tick := add32 s.tick tick }

/-- `current_process -> state = WAIT` of `process_wait`. -/
def enterWait (s : Sched) : Sched :=
  s.store s.currentProcess fun x => { x with state := .wait }

end Sched

/-! ## Runs -/

/-- The scheduler, with the variable `new` of a process that stands between the two link
stores of `process_create`, by the address of the process. The ghosts: the stacks of the
processes in the ring, the number of the process on each stack, how many processes there
were, the numbers of those that have exited and of those taken out, and the holders of
each lock. -/
structure SchedRun where
  sched : Sched
  creating : ℕ → Option ℕ
  inUse : Finset ℕ
  number : ℕ → ℕ
  count : ℕ
  exited : List ℕ
  reaped : List ℕ
  holders : ℕ → List ℕ

inductive SchedOp
  | initNew (new pde : ℕ)
  | linkNew (new : ℕ)
  | processExit
  | setLock (lock : ℕ)
  | enterLock
  | processUnlock (lock : ℕ)
  | setTick (tick : ℕ)
  | enterWait
  | timer (fuel : ℕ)

namespace SchedRun

def self (s : SchedRun) : ℕ := s.number s.sched.currentProcess

/-- The running process can begin a call: its state is `RUN`, and it is not inside
`process_create`. -/
def Ready (s : SchedRun) : Prop :=
  (s.sched.mem s.sched.currentProcess).state = .run ∧ s.creating s.sched.currentProcess = none

def note (s : SchedRun) : SwitchEvent → SchedRun
  | .granted process lock =>
      { s with
        holders := Function.update s.holders lock (s.number process :: s.holders lock) }
  | .woken _ => s
  | .reaped process =>
      { s with
        inUse := s.inUse.erase process
        reaped := s.number process :: s.reaped }

/-- The state after the first stores of `process_create`, with the stack `new`. -/
def initNew (s : SchedRun) (new pde : ℕ) : SchedRun :=
  { s with
    sched := s.sched.initNew new pde
    creating := Function.update s.creating s.sched.currentProcess (some new) }

/-- The state after the store that links the new process. -/
def linkNew (s : SchedRun) (new : ℕ) : SchedRun :=
  { s with
    sched := s.sched.linkNew new
    creating := Function.update s.creating s.sched.currentProcess none
    inUse := insert new s.inUse
    number := Function.update s.number new s.count
    count := s.count + 1 }

def processExit (s : SchedRun) : SchedRun :=
  { s with sched := s.sched.processExit, exited := s.self :: s.exited }

/-- The steps. A process takes the steps of its program while its state is `RUN`;
otherwise the next thing that happens on the processor is the timer. The stack that
`vmm_alloc_page` returns is in no other use, and a process unlocks only locks it was
granted. -/
inductive Step (s : SchedRun) : SchedOp → SchedRun → Prop
  | initNew (new pde : ℕ) (hready : s.Ready) (hnew : new ≠ 0) (hfresh : new ∉ s.inUse)
      (hother : ∀ p, s.creating p ≠ some new) :
      Step s (.initNew new pde) (s.initNew new pde)
  | linkNew (new : ℕ) (hrun : (s.sched.mem s.sched.currentProcess).state = .run)
      (hnew : s.creating s.sched.currentProcess = some new) :
      Step s (.linkNew new) (s.linkNew new)
  | processExit (hready : s.Ready) : Step s .processExit s.processExit
  | setLock (lock : ℕ) (hready : s.Ready) :
      Step s (.setLock lock) { s with sched := s.sched.setLock lock }
  | enterLock (hready : s.Ready) :
      Step s .enterLock { s with sched := s.sched.enterLock }
  | processUnlock (lock : ℕ) (hready : s.Ready) (hheld : s.self ∈ s.holders lock) :
      Step s (.processUnlock lock)
        { s with
          sched := s.sched.processUnlock lock
          holders := Function.update s.holders lock ((s.holders lock).erase s.self) }
  | setTick (tick : ℕ) (hready : s.Ready) :
      Step s (.setTick tick) { s with sched := s.sched.setTick tick }
  | enterWait (hready : s.Ready) :
      Step s .enterWait { s with sched := s.sched.enterWait }
  | timer (fuel : ℕ) {sched : Sched} {events : List SwitchEvent}
      (hswitch : s.sched.irq0Handler fuel = some (sched, events)) :
      Step s (.timer fuel) { events.foldl note s with sched := sched }

/-- A timer interrupt as a function; the state stays when the switch does not
return. -/
def tick (s : SchedRun) (fuel : ℕ) : SchedRun :=
  match s.sched.irq0Handler fuel with
  | some (sched, events) => { events.foldl note s with sched := sched }
  | none => s

theorem step_tick {s : SchedRun} {fuel : ℕ} (h : (s.sched.irq0Handler fuel).isSome) :
    s.Step (.timer fuel) (s.tick fuel) := by
  unfold tick
  cases hswitch : s.sched.irq0Handler fuel with
  | none =>
      rw [hswitch] at h
      exact absurd h (by decide)
  | some r => exact .timer fuel hswitch

end SchedRun

/-- The runs from `init_current_process` on, with the locks initialised to
zero. -/
def schedMachine (boot kernelMmapPde : ℕ) : Machine SchedRun SchedOp where
  init s := ∃ s₀ : Sched, s₀.newPid = 0 ∧ (∀ l, s₀.lockByte l = 0) ∧
    s.sched = s₀.initCurrentProcess boot kernelMmapPde ∧ (∀ p, s.creating p = none) ∧
      s.inUse = {boot} ∧ s.number boot = 0 ∧ s.count = 1 ∧ s.exited = [] ∧ s.reaped = [] ∧
        s.holders = fun _ => []
  step s op s' := s.Step op s'

namespace SchedRun

variable {boot kernelMmapPde : ℕ} {C : SchedRun → SchedOp → Prop} {s : SchedRun}

theorem initNew_reachable (new pde : ℕ)
    (hs : ((schedMachine boot kernelMmapPde).restrict C).Reachable s)
    (hC : C s (.initNew new pde)) (hready : s.Ready) (hnew : new ≠ 0) (hfresh : new ∉ s.inUse)
    (hother : ∀ p, s.creating p ≠ some new) :
    ((schedMachine boot kernelMmapPde).restrict C).Reachable (s.initNew new pde) :=
  .step hs ⟨hC, .initNew new pde hready hnew hfresh hother⟩

theorem linkNew_reachable (new : ℕ)
    (hs : ((schedMachine boot kernelMmapPde).restrict C).Reachable s)
    (hC : C s (.linkNew new)) (hrun : (s.sched.mem s.sched.currentProcess).state = .run)
    (hnew : s.creating s.sched.currentProcess = some new) :
    ((schedMachine boot kernelMmapPde).restrict C).Reachable (s.linkNew new) :=
  .step hs ⟨hC, .linkNew new hrun hnew⟩

theorem processExit_reachable (hs : ((schedMachine boot kernelMmapPde).restrict C).Reachable s)
    (hC : C s .processExit) (hready : s.Ready) :
    ((schedMachine boot kernelMmapPde).restrict C).Reachable s.processExit :=
  .step hs ⟨hC, .processExit hready⟩

theorem tick_reachable (fuel : ℕ)
    (hs : ((schedMachine boot kernelMmapPde).restrict C).Reachable s)
    (hC : C s (.timer fuel)) (hswitch : (s.sched.irq0Handler fuel).isSome) :
    ((schedMachine boot kernelMmapPde).restrict C).Reachable (s.tick fuel) :=
  .step hs ⟨hC, step_tick hswitch⟩

end SchedRun

/-- The boot process at the address `0x1000`, alone. -/
def schedBoot : SchedRun where
  sched := Sched.initCurrentProcess 0x1000 0 ⟨fun _ => ⟨.run, 0, 0, 0, 0, 0, 0⟩, 0, 0, fun _ => 0, 0⟩
  creating := fun _ => none
  inUse := {0x1000}
  number := fun _ => 0
  count := 1
  exited := []
  reaped := []
  holders := fun _ => []

theorem schedBoot_init : (schedMachine 0x1000 0).init schedBoot :=
  ⟨_, rfl, fun _ => rfl, rfl, fun _ => rfl, rfl, rfl, rfl, rfl, rfl, rfl⟩

end BitchKernel
