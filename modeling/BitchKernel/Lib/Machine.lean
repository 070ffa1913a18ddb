import Mathlib.Logic.Relation

/-!
# Labelled transition systems and their runs

A machine is a set of initial states and a step relation whose labels name the
operations. `Reachable` collects the states of all finite runs, so a property of
every reachable state is proved once by `Reachable.invariant`: it holds at the
start and one step keeps it. `restrict` keeps only the steps that meet a
condition on the state they start from, which is how a statement about the runs
that avoid some step is written.
-/

namespace Lib

/-- A labelled transition system over states `σ` and operations `α`. -/
structure Machine (σ α : Type*) where
  init : σ → Prop
  step : σ → α → σ → Prop

namespace Machine

variable {σ α : Type*}

/-- The states of the finite runs of `M`. -/
inductive Reachable (M : Machine σ α) : σ → Prop
  | init {s : σ} (h : M.init s) : Reachable M s
  | step {s s' : σ} {a : α} (hs : Reachable M s) (h : M.step s a s') : Reachable M s'

/-- The machine that only takes the steps whose start state meets `C`. -/
def restrict (M : Machine σ α) (C : σ → α → Prop) : Machine σ α where
  init := M.init
  step s a s' := C s a ∧ M.step s a s'

variable {M : Machine σ α}

/-- What holds at the start and is kept by a step holds in every reachable
state. -/
theorem Reachable.invariant {I : σ → Prop} (hinit : ∀ s, M.init s → I s)
    (hstep : ∀ s a s', I s → M.step s a s' → I s') {s : σ}
    (hs : M.Reachable s) : I s := by
  induction hs with
  | init h => exact hinit _ h
  | step _ h ih => exact hstep _ _ _ ih h

theorem Reachable.of_restrict {C : σ → α → Prop} {s : σ}
    (hs : (M.restrict C).Reachable s) : M.Reachable s := by
  induction hs with
  | init h => exact .init h
  | step _ h ih => exact .step ih h.2

/-- The machine that starts in the state `s`. -/
def startAt (M : Machine σ α) (s : σ) : Machine σ α where
  init := (· = s)
  step := M.step

theorem Reachable.of_startAt {s s' : σ} (hs : M.Reachable s)
    (h : (M.startAt s).Reachable s') : M.Reachable s' := by
  induction h with
  | init h => exact h ▸ hs
  | step _ h ih => exact .step ih h

/-- The operations can be taken one after the other, each with the outcome `f` gives it. -/
def Takes (M : Machine σ α) (f : σ → α → σ) : σ → List α → Prop
  | _, [] => True
  | s, a :: as => M.step s a (f s a) ∧ M.Takes f (f s a) as

theorem Reachable.foldl {f : σ → α → σ} {s : σ} {as : List α} (hs : M.Reachable s)
    (h : M.Takes f s as) : M.Reachable (as.foldl f s) := by
  induction as generalizing s with
  | nil => exact hs
  | cons a as ih => exact ih (.step hs h.1) h.2

end Machine

end Lib
