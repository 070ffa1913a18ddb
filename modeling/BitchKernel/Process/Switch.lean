import BitchKernel.Lib.Ring
import BitchKernel.Process.Process

/-!
# The walk of `process_switch`

The walk stays on the ring it started on. It takes out exited processes only, and
it stops at the latest where it meets a process that is `RUN`; so it never comes
back to the process it started from as long as such a process lies ahead. The
boot process is one.
-/

namespace BitchKernel

open Lib

def reapedOf : List SwitchEvent → List ℕ
  | [] => []
  | .reaped process :: events => process :: reapedOf events
  | .granted _ _ :: events => reapedOf events
  | .woken _ :: events => reapedOf events

namespace Sched

@[simp] theorem store_mem (s : Sched) (process : ℕ) (f : Process → Process) (a : ℕ) :
    (s.store process f).mem a = if a = process then f (s.mem process) else s.mem a := by
  simp [store, Function.update_apply]

@[simp] theorem store_currentProcess (s : Sched) (process : ℕ) (f : Process → Process) :
    (s.store process f).currentProcess = s.currentProcess := rfl

@[simp] theorem store_lockByte (s : Sched) (process : ℕ) (f : Process → Process) :
    (s.store process f).lockByte = s.lockByte := rfl

/-- The first stores of `process_create` change the new header alone. -/
theorem initNew_mem (s : Sched) (new pde : ℕ) {a : ℕ} (ha : a ≠ new) :
    (s.initNew new pde).mem a = s.mem a := by
  simp [initNew, ha]

/-- The ring of processes from `c` on. -/
abbrev ProcessRing (s : Sched) (c : ℕ) (l : List ℕ) : Prop := Ring (fun a => (s.mem a).next) c l

/-- What a walk has done to the ring `ring` when it stops: the processes left form
a ring again, and those taken out had exited. -/
structure Walked (s s' : Sched) (ring reaped : List ℕ) : Prop where
  ring : ∃ l, s'.ProcessRing s'.currentProcess l ∧
    (s'.currentProcess :: l ++ reaped).Perm ring
  exited : ∀ a ∈ reaped, (s.mem a).state = .exit
  exit_of_exit : ∀ a, (s'.mem a).state = .exit → (s.mem a).state = .exit
  run_of_run : ∀ a, (s.mem a).state = .run → (s'.mem a).state = .run

/-- A process ahead of the walk that stops it: the boot process, unless it is the
only process. -/
structure Ahead (s : Sched) (boot prev : ℕ) (pre post : List ℕ) : Prop where
  ahead : boot = prev ∨ boot ∈ post
  state : (s.mem boot).state = .run ∨
    (boot = prev ∧ pre = [] ∧ post = [] ∧ (s.mem boot).state ≠ .exit)

variable {boot tick prev fuel last x : ℕ} {s s₁ s' : Sched} {pre post : List ℕ}
  {events : List SwitchEvent}

/-- What the walk does when it passes a waiting process: no link changes, and some
process may have become `RUN`. -/
structure Passed (s s₁ : Sched) : Prop where
  next_eq : ∀ a, (s₁.mem a).next = (s.mem a).next
  exit_of_exit : ∀ a, (s₁.mem a).state = .exit → (s.mem a).state = .exit
  run_of_run : ∀ a, (s.mem a).state = .run → (s₁.mem a).state = .run
  currentProcess : s₁.currentProcess = s.currentProcess

namespace Passed

theorem refl (s : Sched) : Passed s s :=
  ⟨fun _ => rfl, fun _ h => h, fun _ h => h, rfl⟩

theorem store_run (h : s₁.mem = (s.store x fun y => { y with state := .run }).mem)
    (hcurrent : s₁.currentProcess = s.currentProcess) : Passed s s₁ := by
  refine ⟨?_, ?_, ?_, hcurrent⟩
  all_goals
    intro a
    rw [h, store_mem]
    by_cases ha : a = x
  · rw [if_pos ha, ha]
  · rw [if_neg ha]
  · rw [if_pos ha]
    intro hrun
    exact ProcessState.noConfusion hrun
  · rw [if_neg ha]
    exact id
  · rw [if_pos ha]
    exact fun _ => rfl
  · rw [if_neg ha]
    exact id

theorem ring {c : ℕ} {l : List ℕ} (h : Passed s s₁) (hring : s.ProcessRing c l) :
    s₁.ProcessRing c l :=
  ⟨hring.path.congr fun a _ => h.next_eq a, hring.nodup⟩

theorem walked {ring reaped : List ℕ} (h : Passed s s₁) (hw : Walked s₁ s' ring reaped) :
    Walked s s' ring reaped :=
  ⟨hw.ring, fun a ha => h.exit_of_exit a (hw.exited a ha),
    fun a ha => h.exit_of_exit a (hw.exit_of_exit a ha),
    fun a ha => hw.run_of_run a (h.run_of_run a ha)⟩

end Passed

namespace Ahead

/-- A process in front of the one that stops the walk is not the boot process. -/
theorem tail (h : s.Ahead boot prev pre (x :: post)) (hx : (s.mem x).state ≠ .run) :
    (s.mem boot).state = .run ∧ (boot = prev ∨ boot ∈ post) := by
  have hrun : (s.mem boot).state = .run :=
    h.state.resolve_right fun hnone => List.cons_ne_nil x post hnone.2.2.1
  refine ⟨hrun, h.ahead.imp_right fun hmem => (List.mem_cons.1 hmem).resolve_left ?_⟩
  rintro rfl
  exact hx hrun

end Ahead

theorem reap_ring (hring : s.ProcessRing prev (pre ++ x :: post)) (hlast : last = pre.getLastD prev) :
    (s.store last fun y => { y with next := (s.mem x).next }).ProcessRing prev (pre ++ post) := by
  refine hring.remove ?_ ?_
  · rw [hlast, store_mem, if_pos rfl]
  · intro y _ hy
    rw [hlast, store_mem, if_neg hy]

theorem store_next_state (s : Sched) (last next a : ℕ) :
    ((s.store last fun y => { y with next := next }).mem a).state = (s.mem a).state := by
  rw [store_mem]
  by_cases ha : a = last
  · rw [if_pos ha, ha]
  · rw [if_neg ha]

/-! ## One round of the walk -/

/-- What the walk does to a process `x` that is `LOCK` or `WAIT`: a free lock is taken for
it, and it is woken when its tick has come. -/
def pass (s : Sched) (tick x : ℕ) : Sched × List SwitchEvent :=
  if (s.mem x).state = .lock ∧ s.lockByte (s.mem x).lock = 0 then
    (store { s with lockByte := Function.update s.lockByte (s.mem x).lock 1 } x
      fun y => { y with state := .run }, [.granted x (s.mem x).lock])
  else if (s.mem x).state = .wait ∧ (s.mem x).tick ≤ tick then
    (s.store x fun y => { y with state := .run }, [.woken x])
  else (s, [])

theorem Passed.pass (s : Sched) (tick x : ℕ) : Passed s (s.pass tick x).1 := by
  unfold Sched.pass
  split_ifs
  · exact .store_run rfl rfl
  · exact .store_run rfl rfl
  · exact .refl s

theorem reapedOf_pass (s : Sched) (tick x : ℕ) (events : List SwitchEvent) :
    reapedOf ((s.pass tick x).2 ++ events) = reapedOf events := by
  unfold pass
  split_ifs <;> rfl

theorem switchTo_run (hnext : (s.mem last).next = x) (hrun : (s.mem x).state = .run) :
    switchTo tick prev (fuel + 1) s last =
      some (if x ≠ prev then { s with currentProcess := x } else s, []) := by
  rw [switchTo]
  dsimp only
  rw [hnext, hrun]
  by_cases hne : x ≠ prev
  · rw [if_pos hne, if_pos hne]
  · rw [if_neg hne, if_neg hne]

theorem switchTo_pass (hnext : (s.mem last).next = x) (hrun : (s.mem x).state ≠ .run)
    (hexit : (s.mem x).state ≠ .exit) : switchTo tick prev (fuel + 1) s last =
      (switchTo tick prev fuel (s.pass tick x).1 x).map fun r => (r.1, (s.pass tick x).2 ++ r.2) := by
  have hnil : ∀ r : Option (Sched × List SwitchEvent), r = r.map fun r => (r.1, [] ++ r.2) := by
    intro r
    cases r <;> rfl
  rw [switchTo]
  dsimp only
  rw [hnext]
  unfold pass
  cases hstate : (s.mem x).state with
  | run => exact absurd hstate hrun
  | exit => exact absurd hstate hexit
  | lock =>
      dsimp only
      by_cases hbyte : s.lockByte (s.mem x).lock = 0
      · rw [if_pos hbyte, if_pos ⟨rfl, hbyte⟩]
        rfl
      · rw [if_neg hbyte, if_neg fun h => hbyte h.2, if_neg fun h => ProcessState.noConfusion h.1]
        exact hnil _
  | wait =>
      dsimp only
      by_cases hdue : (s.mem x).tick ≤ tick
      · rw [if_pos hdue, if_neg fun h => ProcessState.noConfusion h.1, if_pos ⟨rfl, hdue⟩]
        rfl
      · rw [if_neg hdue, if_neg fun h => ProcessState.noConfusion h.1, if_neg fun h => hdue h.2]
        exact hnil _

theorem switchTo_reap (hnext : (s.mem last).next = x) (hexit : (s.mem x).state = .exit) :
    switchTo tick prev (fuel + 1) s last =
      (switchTo tick prev fuel (s.store last fun y => { y with next := (s.mem x).next }) last).map
        fun r => (r.1, .reaped x :: r.2) := by
  rw [switchTo]
  dsimp only
  rw [hnext, hexit]

/-! ## Whole walks -/

theorem walked_stop (hring : s.ProcessRing prev (pre ++ post)) (hcurrent : s.currentProcess = prev) :
    Walked s (if post.headD prev ≠ prev then { s with currentProcess := post.headD prev } else s)
      (prev :: (pre ++ post)) [] := by
  cases post with
  | nil =>
      rw [List.append_nil] at hring ⊢
      rw [List.headD_nil, if_neg (not_not.2 rfl)]
      refine ⟨⟨pre, hcurrent ▸ hring, ?_⟩, by simp, fun _ h => h, fun _ h => h⟩
      rw [hcurrent, List.append_nil]
  | cons x post =>
      have hne : x ≠ prev := by
        rintro rfl
        exact (List.nodup_cons.1 hring.nodup).1 (by simp)
      rw [List.headD_cons, if_pos hne]
      refine ⟨⟨post ++ prev :: pre, hring.rotate, ?_⟩, by simp, fun _ h => h, fun _ h => h⟩
      rw [List.append_nil]
      exact (List.perm_append_comm : (x :: post ++ prev :: pre).Perm (prev :: pre ++ x :: post))

theorem Walked.reap {reaped : List ℕ} {next : ℕ} (hexit : (s.mem x).state = .exit)
    (h : Walked (s.store last fun y => { y with next := next }) s' (prev :: (pre ++ post)) reaped) :
    Walked s s' (prev :: (pre ++ x :: post)) (x :: reaped) := by
  obtain ⟨⟨l, hl, hperm⟩, hexited, hexits, hkeep⟩ := h
  simp only [store_next_state] at hexited hexits hkeep
  refine ⟨⟨l, hl, ?_⟩, ?_, hexits, hkeep⟩
  · exact List.perm_middle.trans
      ((hperm.cons x).trans (List.perm_middle : (prev :: pre ++ x :: post).Perm _).symm)
  · intro a ha
    rcases List.mem_cons.1 ha with rfl | ha
    · exact hexit
    · exact hexited a ha

theorem switchTo_walked (hring : s.ProcessRing prev (pre ++ post))
    (hlast : last = pre.getLastD prev) (hboot : s.Ahead boot prev pre post)
    (hcurrent : s.currentProcess = prev)
    (h : switchTo tick prev fuel s last = some (s', events)) :
    Walked s s' (prev :: (pre ++ post)) (reapedOf events) ∧ prev ∉ reapedOf events := by
  induction fuel generalizing s last pre post events with
  | zero => simp [switchTo] at h
  | succ fuel ih =>
      have hnext : (s.mem last).next = post.headD prev := by
        rw [hlast]
        exact hring.next_eq
      by_cases hrun : (s.mem (post.headD prev)).state = .run
      · rw [switchTo_run hnext hrun] at h
        obtain ⟨rfl, rfl⟩ := Prod.mk.inj (Option.some.inj h)
        exact ⟨walked_stop hring hcurrent, List.not_mem_nil⟩
      by_cases hexit : (s.mem (post.headD prev)).state = .exit
      · rw [switchTo_reap hnext hexit] at h
        obtain ⟨r, hr, heq⟩ := Option.map_eq_some_iff.1 h
        obtain ⟨rfl, rfl⟩ := Prod.mk.inj heq
        cases post with
        | nil =>
            -- the walk would be back at the process it started from
            have hprev : boot = prev := hboot.ahead.resolve_right (List.not_mem_nil)
            rw [List.headD_nil, ← hprev] at hrun hexit
            rcases hboot.state with hstate | hnone
            · exact absurd hstate hrun
            · exact absurd hexit hnone.2.2.2
        | cons x post =>
            rw [List.headD_cons] at hr hrun hexit
            obtain ⟨hstate, hmem⟩ := hboot.tail hrun
            have hahead : (s.store last fun y => { y with next := (s.mem x).next }).Ahead boot prev pre post :=
              ⟨hmem, .inl ((store_next_state s last _ boot).trans hstate)⟩
            obtain ⟨hw, hnot⟩ := ih (reap_ring hring hlast) hlast hahead hcurrent hr
            refine ⟨hw.reap hexit, ?_⟩
            rw [reapedOf, List.mem_cons, not_or]
            refine ⟨?_, hnot⟩
            rintro rfl
            exact (List.nodup_cons.1 hring.nodup).1 (by simp)
      · have hp := Passed.pass s tick (post.headD prev)
        rw [switchTo_pass hnext hrun hexit] at h
        obtain ⟨r, hr, heq⟩ := Option.map_eq_some_iff.1 h
        obtain ⟨rfl, rfl⟩ := Prod.mk.inj heq
        rw [reapedOf_pass]
        cases post with
        | nil =>
            -- the walk goes round again, from the only process
            have hprev : boot = prev := hboot.ahead.resolve_right (List.not_mem_nil)
            have hpre : pre = [] := by
              rcases hboot.state with hstate | hstate
              · rw [hprev] at hstate
                exact absurd hstate hrun
              · exact hstate.2.1
            subst hpre
            obtain ⟨hw, hnot⟩ := ih (hp.ring hring) rfl
              ⟨.inl hprev, .inr ⟨hprev, rfl, rfl, fun hstate => hexit (hprev ▸ hp.exit_of_exit _ hstate)⟩⟩
              (hp.currentProcess.trans hcurrent) hr
            exact ⟨hp.walked hw, hnot⟩
        | cons x post =>
            obtain ⟨hstate, hmem⟩ := hboot.tail hrun
            have hsplit : pre ++ x :: post = pre ++ [x] ++ post := by simp
            rw [hsplit] at hring ⊢
            obtain ⟨hw, hnot⟩ := ih (hp.ring hring) (by simp) ⟨hmem, .inl (hp.run_of_run _ hstate)⟩
              (hp.currentProcess.trans hcurrent) hr
            exact ⟨hp.walked hw, hnot⟩

end Sched

end BitchKernel
