import BitchKernel.Process.Switch

/-!
# One scheduling decision

`process_switch` passes the processes behind the running one in ring order and stops at the first
that is `RUN` when it gets there. What it does to a process on the way depends on the process and
on the lock bytes as they are at that moment: a lock granted to one process is taken for the ones
behind it.
-/

namespace BitchKernel

open Lib

namespace Sched

/-- The lock bytes behind the processes of the list: each process that waits for a lock takes it
if its byte is 0. -/
def bytesAfter (mem : ℕ → Process) : List ℕ → (ℕ → ℕ) → ℕ → ℕ
  | [], bytes => bytes
  | x :: l, bytes =>
      bytesAfter mem l
        (if (mem x).state = .lock ∧ bytes (mem x).lock = 0 then
          Function.update bytes (mem x).lock 1
        else bytes)

/-- The state of a process that was passed, where `byte` is its lock byte at that moment. -/
def stateAfter (tick byte : ℕ) (process : Process) : ProcessState :=
  match process.state with
  | .run => .run
  | .exit => .exit
  | .lock => if byte = 0 then .run else .lock
  | .wait => if process.tick ≤ tick then .run else .wait

def survivors (mem : ℕ → Process) (l : List ℕ) : List ℕ := l.filter fun x => (mem x).state ≠ .exit

/-- What the scheduler looks like when the processes `passed` were passed and `y` was found: `y` is
current and the ring goes on with `behind`. -/
structure Decided (s s' : Sched) (tick : ℕ) (passed : List ℕ) (y : ℕ) (behind : List ℕ) : Prop where
  current : s'.currentProcess = y
  ring : s'.ProcessRing y behind
  passed_state : ∀ pre x post, passed = pre ++ x :: post →
    (s'.mem x).state = stateAfter tick (bytesAfter s.mem pre s.lockByte (s.mem x).lock) (s.mem x)
  other_state : ∀ a ∉ passed, (s'.mem a).state = (s.mem a).state
  lockByte : s'.lockByte = bytesAfter s.mem passed s.lockByte
  header : ∀ a, { s'.mem a with state := (s.mem a).state, next := (s.mem a).next } = s.mem a
  outside : ∀ a ∉ y :: behind, s'.mem a = s.mem a
  newPid : s'.newPid = s.newPid
  tick_eq : s'.tick = s.tick

variable {tick prev last x y : ℕ} {s s₁ s' : Sched} {pre post passed rest behind : List ℕ}
  {events : List SwitchEvent}

theorem bytesAfter_congr {mem mem' : ℕ → Process} {l : List ℕ} {bytes : ℕ → ℕ}
    (h : ∀ a ∈ l, (mem' a).state = (mem a).state ∧ (mem' a).lock = (mem a).lock) :
    bytesAfter mem' l bytes = bytesAfter mem l bytes := by
  induction l generalizing bytes with
  | nil => rfl
  | cons a l ih =>
      obtain ⟨hstate, hlock⟩ := h a List.mem_cons_self
      rw [bytesAfter, bytesAfter, hstate, hlock]
      exact ih fun z hz => h z (List.mem_cons_of_mem a hz)

/-- What passing one process does to all the headers and bytes, links apart. -/
structure PassedOne (s s₁ : Sched) (tick x : ℕ) : Prop where
  state : (s₁.mem x).state = stateAfter tick (s.lockByte (s.mem x).lock) (s.mem x)
  other_state : ∀ a ≠ x, (s₁.mem a).state = (s.mem a).state
  lockByte : s₁.lockByte = bytesAfter s.mem [x] s.lockByte
  header : ∀ a, { s₁.mem a with state := (s.mem a).state, next := (s.mem a).next } = s.mem a
  newPid : s₁.newPid = s.newPid
  tick_eq : s₁.tick = s.tick

theorem PassedOne.lock_eq (h : PassedOne s s₁ tick x) (a : ℕ) : (s₁.mem a).lock = (s.mem a).lock :=
  (congrArg Process.lock (h.header a) : _)

theorem PassedOne.tickOf_eq (h : PassedOne s s₁ tick x) (a : ℕ) : (s₁.mem a).tick = (s.mem a).tick :=
  (congrArg Process.tick (h.header a) : _)

theorem Decided.cons (hone : PassedOne s s₁ tick x) (houtside : ∀ a ∉ y :: behind, s₁.mem a = s.mem a)
    (hx : x ∉ passed) (h : Decided s₁ s' tick passed y behind) :
    Decided s s' tick (x :: passed) y behind where
  current := h.current
  ring := h.ring
  passed_state := by
    intro pre z post heq
    cases pre with
    | nil =>
        obtain ⟨rfl, -⟩ := List.cons.inj heq
        rw [h.other_state x hx, hone.state]
        rfl
    | cons w pre =>
        obtain ⟨rfl, rfl⟩ := List.cons.inj heq
        have hz : z ≠ x := by
          rintro rfl
          exact hx (by simp)
        have hpre : ∀ a ∈ pre, (s₁.mem a).state = (s.mem a).state ∧ (s₁.mem a).lock = (s.mem a).lock := by
          intro a ha
          refine ⟨hone.other_state a ?_, hone.lock_eq a⟩
          rintro rfl
          exact hx (List.mem_append_left _ ha)
        have hbytes : bytesAfter s₁.mem pre s₁.lockByte = bytesAfter s.mem (x :: pre) s.lockByte := by
          rw [bytesAfter_congr hpre, hone.lockByte]
          rfl
        rw [h.passed_state pre z post rfl, hbytes]
        unfold stateAfter
        rw [hone.other_state z hz, hone.lock_eq z, hone.tickOf_eq z]
  other_state := by
    intro a ha
    rw [List.mem_cons, not_or] at ha
    exact (h.other_state a ha.2).trans (hone.other_state a ha.1)
  lockByte := by
    have hpassed : ∀ a ∈ passed, (s₁.mem a).state = (s.mem a).state ∧ (s₁.mem a).lock = (s.mem a).lock := by
      intro a ha
      refine ⟨hone.other_state a ?_, hone.lock_eq a⟩
      rintro rfl
      exact hx ha
    rw [h.lockByte, bytesAfter_congr hpassed, hone.lockByte]
    rfl
  header a := by
    have h₁ := h.header a
    have h₂ := hone.header a
    rw [← h₁] at h₂
    exact h₂
  outside a ha := (h.outside a ha).trans (houtside a ha)
  newPid := h.newPid.trans hone.newPid
  tick_eq := h.tick_eq.trans hone.tick_eq

theorem PassedOne.refl (hwait : (s.mem x).state = stateAfter tick (s.lockByte (s.mem x).lock) (s.mem x))
    (hlock : (s.mem x).state = .lock → s.lockByte (s.mem x).lock ≠ 0) : PassedOne s s tick x where
  state := hwait
  other_state _ _ := rfl
  lockByte := by
    rw [bytesAfter, bytesAfter, if_neg fun h => hlock h.1 h.2]
  header _ := rfl
  newPid := rfl
  tick_eq := rfl

/-- A process that is set to `RUN`, with the lock bytes `lockByte`. -/
theorem PassedOne.store_run (hmem : s₁.mem = (s.store x fun z => { z with state := .run }).mem)
    (hstate : stateAfter tick (s.lockByte (s.mem x).lock) (s.mem x) = .run)
    (hbytes : s₁.lockByte = bytesAfter s.mem [x] s.lockByte) (hpid : s₁.newPid = s.newPid)
    (htick : s₁.tick = s.tick) : PassedOne s s₁ tick x where
  state := by
    rw [hmem, store_mem, if_pos rfl, hstate]
  other_state a ha := by
    rw [hmem, store_mem, if_neg ha]
  lockByte := hbytes
  header a := by
    rw [hmem, store_mem]
    by_cases ha : a = x
    · subst ha
      rw [if_pos rfl]
    · rw [if_neg ha]
  newPid := hpid
  tick_eq := htick

theorem PassedOne.reap (hexit : (s.mem x).state = .exit) (last next : ℕ) :
    PassedOne s (s.store last fun z => { z with next := next }) tick x where
  state := by
    rw [store_next_state, hexit]
    unfold stateAfter
    rw [hexit]
  other_state a _ := store_next_state s last next a
  lockByte := by
    rw [store_lockByte, bytesAfter, bytesAfter, hexit, if_neg fun h => absurd h.1 (by decide)]
  header a := by
    rw [store_mem]
    by_cases ha : a = last
    · subst ha
      rw [if_pos rfl]
    · rw [if_neg ha]
  newPid := rfl
  tick_eq := rfl

theorem survivors_cons_of_ne {mem : ℕ → Process} {l : List ℕ} (h : (mem x).state ≠ .exit) :
    survivors mem (x :: l) = x :: survivors mem l := by
  unfold survivors
  rw [List.filter_cons_of_pos (by simpa using h)]

theorem survivors_congr {mem mem' : ℕ → Process} {l : List ℕ}
    (h : ∀ a ∈ l, (mem' a).state = (mem a).state) : survivors mem' l = survivors mem l := by
  refine List.filter_congr fun a ha => ?_
  rw [h a ha]

theorem PassedOne.pass (hrun : (s.mem x).state ≠ .run) (hexit : (s.mem x).state ≠ .exit) :
    PassedOne s (s.pass tick x).1 tick x := by
  unfold Sched.pass
  cases hstate : (s.mem x).state with
  | run => exact absurd hstate hrun
  | exit => exact absurd hstate hexit
  | lock =>
      by_cases hbyte : s.lockByte (s.mem x).lock = 0
      · rw [if_pos ⟨rfl, hbyte⟩]
        refine .store_run rfl ?_ ?_ rfl rfl
        · unfold stateAfter
          rw [hstate]
          exact if_pos hbyte
        · rw [bytesAfter, bytesAfter, if_pos ⟨hstate, hbyte⟩]
          rfl
      · rw [if_neg fun h => hbyte h.2, if_neg fun h => ProcessState.noConfusion h.1]
        refine .refl ?_ fun _ => hbyte
        unfold stateAfter
        rw [hstate]
        exact (if_neg hbyte).symm
  | wait =>
      have hlock : (s.mem x).state ≠ .lock := by
        rw [hstate]
        decide
      by_cases hdue : (s.mem x).tick ≤ tick
      · rw [if_neg fun h => ProcessState.noConfusion h.1, if_pos ⟨rfl, hdue⟩]
        refine .store_run rfl ?_ ?_ rfl rfl
        · unfold stateAfter
          rw [hstate]
          exact if_pos hdue
        · rw [bytesAfter, bytesAfter, if_neg fun h => hlock h.1]
          rfl
      · rw [if_neg fun h => ProcessState.noConfusion h.1, if_neg fun h => hdue h.2]
        refine .refl ?_ fun h => absurd h hlock
        unfold stateAfter
        rw [hstate]
        exact (if_neg hdue).symm

theorem pass_mem_of_ne (s : Sched) (tick : ℕ) {x a : ℕ} (ha : a ≠ x) :
    (s.pass tick x).1.mem a = s.mem a := by
  unfold pass
  split_ifs
  · rw [store_mem, if_neg ha]
  · rw [store_mem, if_neg ha]
  · rfl

theorem decided_stop (hring : s.ProcessRing prev (pre ++ post)) (hcurrent : s.currentProcess = prev)
    (hsplit : post ++ [prev] = y :: rest) :
    Decided s (if y ≠ prev then { s with currentProcess := y } else s) tick [] y (rest ++ pre) := by
  have hnone : ∀ a b c, ([] : List ℕ) ≠ a ++ b :: c := by
    intro a b c heq
    simp at heq
  cases post with
  | nil =>
      rw [List.nil_append, List.cons.injEq] at hsplit
      obtain ⟨rfl, rfl⟩ := hsplit
      rw [List.append_nil] at hring
      rw [if_neg (not_not.2 rfl)]
      exact ⟨hcurrent, hring, fun a b c heq => absurd heq (hnone a b c), fun _ _ => rfl, rfl, fun _ => rfl,
        fun _ _ => rfl, rfl, rfl⟩
  | cons z post =>
      rw [List.cons_append, List.cons.injEq] at hsplit
      obtain ⟨rfl, rfl⟩ := hsplit
      have hne : z ≠ prev := by
        rintro rfl
        exact (List.nodup_cons.1 hring.nodup).1 (by simp)
      rw [if_pos hne]
      refine ⟨rfl, ?_, fun a b c heq => absurd heq (hnone a b c), fun _ _ => rfl, rfl, fun _ => rfl,
        fun _ _ => rfl, rfl, rfl⟩
      rw [List.append_assoc]
      exact hring.rotate

theorem split_cons (hring : s.ProcessRing prev (pre ++ post))
    (hsplit : post ++ [prev] = x :: passed ++ y :: rest) :
    ∃ behind, post = x :: behind ∧ behind ++ [prev] = passed ++ y :: rest ∧ x ∉ passed ∧ y ≠ x := by
  cases post with
  | nil => simp at hsplit
  | cons z post =>
      rw [List.cons_append, List.cons_append, List.cons.injEq] at hsplit
      obtain ⟨rfl, hsplit⟩ := hsplit
      have hnotmem : z ∉ post ++ [prev] := by
        have hnodup := hring.nodup
        rw [List.nodup_cons, List.nodup_append] at hnodup
        obtain ⟨hprev, -, hpost, -⟩ := hnodup
        simp only [List.mem_append, List.mem_singleton, not_or]
        refine ⟨(List.nodup_cons.1 hpost).1, ?_⟩
        rintro rfl
        exact hprev (by simp)
      rw [hsplit] at hnotmem
      refine ⟨post, rfl, hsplit, fun hmem => hnotmem (List.mem_append_left _ hmem), ?_⟩
      rintro rfl
      exact hnotmem (by simp)

theorem Decided.pass (hrun : (s.mem x).state ≠ .run) (hexit : (s.mem x).state ≠ .exit) (hx : x ∉ passed)
    (h : Decided (s.pass tick x).1 s' tick passed y
      (rest ++ (pre ++ [x] ++ survivors (s.pass tick x).1.mem passed))) :
    Decided s s' tick (x :: passed) y (rest ++ (pre ++ survivors s.mem (x :: passed))) := by
  have hone : PassedOne s (s.pass tick x).1 tick x := .pass hrun hexit
  have hstates : ∀ a ∈ passed, ((s.pass tick x).1.mem a).state = (s.mem a).state := by
    intro a ha
    refine hone.other_state a ?_
    rintro rfl
    exact hx ha
  have hlist : rest ++ (pre ++ [x] ++ survivors s.mem passed) =
      rest ++ (pre ++ x :: survivors s.mem passed) := by simp
  rw [survivors_congr hstates, hlist] at h
  rw [survivors_cons_of_ne hexit]
  refine h.cons hone (fun a ha => pass_mem_of_ne s tick ?_) hx
  rintro rfl
  exact ha (by simp)

/-- The decision behind a process that is taken out: the header that was stored to is still on
the ring. -/
theorem Decided.reap {next : ℕ} (hexit : (s.mem x).state = .exit) (hlast : last ∈ prev :: pre)
    (hprev : prev ∈ y :: rest) (hx : x ∉ passed)
    (h : Decided (s.store last fun z => { z with next := next }) s' tick passed y
      (rest ++ (pre ++ survivors (s.store last fun z => { z with next := next }).mem passed))) :
    Decided s s' tick (x :: passed) y (rest ++ (pre ++ survivors s.mem (x :: passed))) := by
  have hsurvivors : survivors s.mem (x :: passed) = survivors s.mem passed := by
    unfold survivors
    rw [List.filter_cons_of_neg (by simpa using hexit)]
  rw [survivors_congr fun a _ => store_next_state s last next a] at h
  rw [hsurvivors]
  refine h.cons (.reap hexit last next) (fun a ha => ?_) hx
  rw [store_mem, if_neg]
  rintro rfl
  refine ha ?_
  rcases List.mem_cons.1 hlast with rfl | hpre
  · rcases List.mem_cons.1 hprev with rfl | hmem
    · exact List.mem_cons_self
    · exact List.mem_cons_of_mem y (List.mem_append_left _ hmem)
  · exact List.mem_cons_of_mem y (List.mem_append_right _ (List.mem_append_left _ hpre))

theorem switchTo_decides {fuel : ℕ} (hring : s.ProcessRing prev (pre ++ post))
    (hlast : last = pre.getLastD prev) (hcurrent : s.currentProcess = prev)
    (hsplit : post ++ [prev] = passed ++ y :: rest) (hpassed : ∀ a ∈ passed, (s.mem a).state ≠ .run)
    (hy : (s.mem y).state = .run) (hfuel : passed.length < fuel) :
    ∃ s' events, switchTo tick prev fuel s last = some (s', events) ∧
      reapedOf events = passed.filter (fun a => (s.mem a).state = .exit) ∧
      Decided s s' tick passed y (rest ++ (pre ++ survivors s.mem passed)) := by
  induction passed generalizing s last pre post fuel with
  | nil =>
      obtain ⟨fuel, rfl⟩ := Nat.exists_eq_add_one_of_ne_zero (Nat.ne_zero_of_lt hfuel)
      have hhead : post.headD prev = y := by
        cases post with
        | nil => exact (List.cons.inj hsplit).1
        | cons z post => exact (List.cons.inj hsplit).1
      have hnext : (s.mem last).next = y := by
        rw [hlast, hring.next_eq, hhead]
      rw [switchTo_run hnext hy]
      refine ⟨_, [], rfl, rfl, ?_⟩
      have hstop : Decided s _ tick [] y (rest ++ pre) := decided_stop hring hcurrent hsplit
      simpa [survivors] using hstop
  | cons x passed ih =>
      obtain ⟨fuel, rfl⟩ := Nat.exists_eq_add_one_of_ne_zero (Nat.ne_zero_of_lt hfuel)
      rw [List.length_cons, Nat.add_lt_add_iff_right] at hfuel
      obtain ⟨post, rfl, hbehind, hx, hxy⟩ := split_cons hring hsplit
      have hnext : (s.mem last).next = x := by
        rw [hlast, hring.next_eq]
        rfl
      have hrun := hpassed x List.mem_cons_self
      have hrest := fun a ha => hpassed a (List.mem_cons_of_mem x ha)
      by_cases hexit : (s.mem x).state = .exit
      · have hstates := store_next_state s last (s.mem x).next
        obtain ⟨s', events, hcall, hreaped, hdecided⟩ := ih (reap_ring hring hlast) hlast hcurrent hbehind
          (fun a ha => by rw [hstates]; exact hrest a ha) ((hstates y).trans hy) hfuel
        have hprev : prev ∈ y :: rest := by
          have hend := congrArg List.getLast? hbehind
          rw [List.getLast?_append_of_ne_nil _ (List.cons_ne_nil _ _),
            List.getLast?_append_of_ne_nil _ (List.cons_ne_nil _ _)] at hend
          exact List.mem_of_getLast? hend.symm
        rw [switchTo_reap hnext hexit, hcall]
        refine ⟨s', _, rfl, ?_, hdecided.reap hexit (hlast ▸ Ring.getLastD_mem prev pre) hprev hx⟩
        rw [List.filter_cons_of_pos (by simpa using hexit), reapedOf, hreaped]
        refine congrArg _ (List.filter_congr fun a _ => ?_)
        rw [hstates a]
      · have hone : PassedOne s (s.pass tick x).1 tick x := .pass hrun hexit
        have hp := Passed.pass s tick x
        have hring₁ := hp.ring hring
        rw [show pre ++ x :: post = pre ++ [x] ++ post by simp] at hring₁
        have hstates : ∀ a ∈ passed, ((s.pass tick x).1.mem a).state = (s.mem a).state := by
          intro a ha
          refine hone.other_state a ?_
          rintro rfl
          exact hx ha
        obtain ⟨s', events, hcall, hreaped, hdecided⟩ := ih hring₁
          (by simp : x = (pre ++ [x]).getLastD prev) (hp.currentProcess.trans hcurrent) hbehind
          (fun a ha => by rw [hstates a ha]; exact hrest a ha) ((hone.other_state y hxy).trans hy) hfuel
        rw [switchTo_pass hnext hrun hexit, hcall]
        refine ⟨s', _, rfl, ?_, hdecided.pass hrun hexit hx⟩
        rw [reapedOf_pass, List.filter_cons_of_neg (by simpa using hexit), hreaped]
        refine List.filter_congr fun a ha => ?_
        rw [hstates a ha]

/-- **One scheduling decision.** On every ring with a process that is `RUN` and for every tick,
`process_switch` returns within one revolution. It makes the first process current that is `RUN` on
arrival; the ones passed before it are granted their lock, woken or taken out as the bytes and the
tick are at that moment, and nothing else changes. -/
theorem processSwitch_decides {l : List ℕ} (hring : s.ProcessRing s.currentProcess l)
    (hrun : ∃ a ∈ s.currentProcess :: l, (s.mem a).state = .run) (tick : ℕ) :
    ∃ passed y rest, l ++ [s.currentProcess] = passed ++ y :: rest ∧
      (∀ a ∈ passed, (s.mem a).state ≠ .run) ∧ (s.mem y).state = .run ∧
      ∀ fuel, passed.length < fuel → ∃ s' events, s.processSwitch fuel tick = some (s', events) ∧
        reapedOf events = passed.filter (fun a => (s.mem a).state = .exit) ∧
        Decided s s' tick passed y (rest ++ survivors s.mem passed) := by
  obtain ⟨a, ha, hstate⟩ := hrun
  have hmem : a ∈ l ++ [s.currentProcess] := by
    rw [List.mem_append, List.mem_singleton]
    exact (List.mem_cons.1 ha).symm
  obtain ⟨y, hfind⟩ := Option.isSome_iff_exists.1
    (List.find?_isSome.2 ⟨a, hmem, decide_eq_true hstate⟩ :
      ((l ++ [s.currentProcess]).find? fun a => decide ((s.mem a).state = .run)).isSome)
  obtain ⟨hy, passed, rest, hsplit, hpassed⟩ := List.find?_eq_some_iff_append.1 hfind
  have hnot : ∀ a ∈ passed, (s.mem a).state ≠ .run := by
    intro a ha
    simpa using hpassed a ha
  refine ⟨passed, y, rest, hsplit, hnot, of_decide_eq_true hy, fun fuel hfuel => ?_⟩
  have hstart : s.ProcessRing s.currentProcess ([] ++ l) := hring
  exact switchTo_decides hstart rfl rfl hsplit hnot (of_decide_eq_true hy) hfuel

section Example

/-- Two processes wait for the byte 7, one has exited, and the last one runs. The running process
has exited itself. -/
def waitingSched : Sched where
  mem a :=
    { state := if a = 1 ∨ a = 4 then .exit else if a = 5 then .run else .lock
      pid := a
      stackTop := 0
      pde := 0
      lock := 7
      tick := 0
      next := if a = 5 then 1 else a + 1 }
  currentProcess := 1
  newPid := 6
  lockByte _ := 0
  tick := 0

/-- The first waiter gets the lock, the second one does not, and the exited one is taken out. -/
example : (waitingSched.processSwitch 4 0).map (fun r => (r.1.currentProcess, r.2)) =
    some (5, [.granted 2 7, .reaped 4]) := by with_unfolding_all decide

theorem processSwitch_decides_waiting :
    ∃ passed y rest, [2, 3, 4, 5] ++ [1] = passed ++ y :: rest ∧
      (∀ a ∈ passed, (waitingSched.mem a).state ≠ .run) ∧ (waitingSched.mem y).state = .run ∧
      ∀ fuel, passed.length < fuel → ∃ s' events, waitingSched.processSwitch fuel 0 = some (s', events) ∧
        reapedOf events = passed.filter (fun a => (waitingSched.mem a).state = .exit) ∧
        Decided waitingSched s' 0 passed y (rest ++ survivors waitingSched.mem passed) :=
  processSwitch_decides (s := waitingSched) (l := [2, 3, 4, 5])
    ⟨⟨rfl, rfl, rfl, rfl, rfl⟩, by decide⟩ ⟨5, by decide, rfl⟩ 0

end Example

end Sched

end BitchKernel
