import BitchKernel.Process.Switch

/-!
# Mutual exclusion of the process locks

A lock byte is written in two places only: a switch sets it for the waiter it
passes, and only where it reads zero, and `process_unlock` clears it for a
holder. So the byte tells at every moment whether the lock has a holder, whatever
a walk passes and wherever the timer comes between two statements.
-/

namespace BitchKernel

/-- The byte of a lock is zero and nobody holds it, or it is one and it has one
holder. -/
def LocksHeld (lockByte : ℕ → ℕ) (holders : ℕ → List ℕ) : Prop :=
  ∀ lock, (lockByte lock = 0 ∧ holders lock = []) ∨
    (lockByte lock = 1 ∧ ∃ n, holders lock = [n])

namespace LocksHeld

variable {lockByte : ℕ → ℕ} {holders : ℕ → List ℕ}

theorem grant (h : LocksHeld lockByte holders) {lock : ℕ} (hfree : lockByte lock = 0) (n : ℕ) :
    LocksHeld (Function.update lockByte lock 1)
      (Function.update holders lock (n :: holders lock)) := by
  intro l
  by_cases hl : l = lock
  · subst hl
    rw [Function.update_self, Function.update_self]
    refine .inr ⟨rfl, n, ?_⟩
    rcases h l with ⟨-, hnone⟩ | ⟨hone, -⟩
    · rw [hnone]
    · rw [hfree] at hone
      exact absurd hone (by decide)
  · rw [Function.update_of_ne hl, Function.update_of_ne hl]
    exact h l

theorem release (h : LocksHeld lockByte holders) {lock n : ℕ} (hheld : n ∈ holders lock) :
    LocksHeld (Function.update lockByte lock 0)
      (Function.update holders lock ((holders lock).erase n)) := by
  intro l
  by_cases hl : l = lock
  · subst hl
    rw [Function.update_self, Function.update_self]
    refine .inl ⟨rfl, ?_⟩
    rcases h l with ⟨-, hnone⟩ | ⟨-, m, hone⟩
    · rw [hnone]
      rfl
    · rw [hone, List.mem_singleton] at hheld
      rw [hone, hheld, List.erase_cons_head]
  · rw [Function.update_of_ne hl, Function.update_of_ne hl]
    exact h l

/-- A walk keeps the bytes and the holders in step, whichever waiters of whichever
locks it passes. -/
theorem switchTo {tick prev fuel last : ℕ} {s s' : Sched} {events : List SwitchEvent}
    (h : Sched.switchTo tick prev fuel s last = some (s', events)) {r : SchedRun}
    (hr : LocksHeld s.lockByte r.holders) :
    LocksHeld s'.lockByte (events.foldl SchedRun.note r).holders := by
  induction fuel generalizing s last events r with
  | zero => simp [Sched.switchTo] at h
  | succ fuel ih =>
      rw [Sched.switchTo] at h
      dsimp only at h
      cases hstate : (s.mem (s.mem last).next).state with
      | run =>
          simp only [hstate] at h
          split_ifs at h
          · obtain ⟨rfl, rfl⟩ := h
            exact hr
          · obtain ⟨rfl, rfl⟩ := h
            exact hr
      | lock =>
          simp only [hstate] at h
          split_ifs at h with hfree
          · obtain ⟨q, hq, heq⟩ := Option.map_eq_some_iff.1 h
            rw [Prod.mk.injEq] at heq
            obtain ⟨rfl, rfl⟩ := heq
            rw [List.foldl_cons]
            exact ih hq (hr.grant hfree _)
          · exact ih h hr
      | wait =>
          simp only [hstate] at h
          split_ifs at h
          · obtain ⟨q, hq, heq⟩ := Option.map_eq_some_iff.1 h
            rw [Prod.mk.injEq] at heq
            obtain ⟨rfl, rfl⟩ := heq
            rw [List.foldl_cons]
            exact ih hq hr
          · exact ih h hr
      | exit =>
          simp only [hstate] at h
          obtain ⟨q, hq, heq⟩ := Option.map_eq_some_iff.1 h
          rw [Prod.mk.injEq] at heq
          obtain ⟨rfl, rfl⟩ := heq
          rw [List.foldl_cons]
          exact ih hq hr

theorem of_step {s s' : SchedRun} {op : SchedOp} (h : LocksHeld s.sched.lockByte s.holders)
    (hstep : s.Step op s') : LocksHeld s'.sched.lockByte s'.holders := by
  cases hstep with
  | initNew new pde hready hnew hfresh hother => exact h
  | linkNew new hrun hnew => exact h
  | processExit hready => exact h
  | setLock lock hready => exact h
  | enterLock hready => exact h
  | processUnlock lock hready hheld => exact h.release hheld
  | setTick tick hready => exact h
  | enterWait hready => exact h
  | timer fuel hswitch => exact LocksHeld.switchTo hswitch h

theorem of_reachable {boot kernelMmapPde : ℕ} {s : SchedRun}
    (hs : (schedMachine boot kernelMmapPde).Reachable s) :
    LocksHeld s.sched.lockByte s.holders := by
  refine hs.invariant (I := fun s => LocksHeld s.sched.lockByte s.holders) ?_ ?_
  · rintro s ⟨s₀, -, hbyte, hsched, -, -, -, -, -, -, hholders⟩ lock
    rw [hsched, hholders]
    exact .inl ⟨hbyte lock, rfl⟩
  · exact fun s op s' h hstep => h.of_step hstep

end LocksHeld

/-- In every reachable state a lock has at most one holder, and its byte is one
exactly when it has one. -/
theorem lock_exclusive {boot kernelMmapPde : ℕ} {s : SchedRun}
    (hs : (schedMachine boot kernelMmapPde).Reachable s) (lock : ℕ) :
    (s.holders lock).length ≤ 1 ∧ (s.sched.lockByte lock = 1 ↔ s.holders lock ≠ []) := by
  rcases LocksHeld.of_reachable hs lock with ⟨hzero, hnone⟩ | ⟨hone, n, hn⟩
  · simp [hzero, hnone]
  · simp [hone, hn]

/-- The boot process and a second one ask for one lock; the switch that grants it to the boot
process passes over the second one, which goes on waiting. -/
theorem lock_exclusive_granted :
    let s₁ := ((schedBoot.initNew 0x3000 0).linkNew 0x3000)
    let s₂ : SchedRun := { s₁ with sched := s₁.sched.setLock 0x500 }
    let s₃ : SchedRun := { s₂ with sched := s₂.sched.enterLock }
    let s₄ := s₃.tick 1
    let s₅ : SchedRun := { s₄ with sched := s₄.sched.setLock 0x500 }
    let s₆ : SchedRun := { s₅ with sched := s₅.sched.enterLock }
    let t := s₆.tick 3
    t.holders 0x500 = [0] ∧ (t.sched.mem 0x3000).state = .lock ∧
      (t.sched.lockByte 0x500 = 1 ↔ t.holders 0x500 ≠ []) := by
  intro s₁ s₂ s₃ s₄ s₅ s₆ t
  have hs : (schedMachine 0x1000 0).Reachable (schedBoot.initNew 0x3000 0) :=
    .step (.init schedBoot_init) (.initNew 0x3000 0 ⟨by with_unfolding_all decide, rfl⟩ (by decide)
      (by decide) (fun p h => by cases h))
  have hs₁ : (schedMachine 0x1000 0).Reachable s₁ :=
    .step hs (.linkNew 0x3000 (by with_unfolding_all decide) (by with_unfolding_all decide))
  have hs₂ : (schedMachine 0x1000 0).Reachable s₂ :=
    .step hs₁ (.setLock 0x500 ⟨by with_unfolding_all decide, by with_unfolding_all decide⟩)
  have hs₃ : (schedMachine 0x1000 0).Reachable s₃ :=
    .step hs₂ (.enterLock ⟨by with_unfolding_all decide, by with_unfolding_all decide⟩)
  have hs₄ : (schedMachine 0x1000 0).Reachable s₄ :=
    .step hs₃ (SchedRun.step_tick (by with_unfolding_all decide))
  have hs₅ : (schedMachine 0x1000 0).Reachable s₅ :=
    .step hs₄ (.setLock 0x500 ⟨by with_unfolding_all decide, by with_unfolding_all decide⟩)
  have hs₆ : (schedMachine 0x1000 0).Reachable s₆ :=
    .step hs₅ (.enterLock ⟨by with_unfolding_all decide, by with_unfolding_all decide⟩)
  have ht : (schedMachine 0x1000 0).Reachable t :=
    .step hs₆ (SchedRun.step_tick (by with_unfolding_all decide))
  exact ⟨by with_unfolding_all decide, by with_unfolding_all decide, (lock_exclusive ht 0x500).2⟩

end BitchKernel
