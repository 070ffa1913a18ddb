import Mathlib.Data.List.Forall2

/-!
# Two runs of one step function

What an observer learns from a run is stated over two runs that start in states related by `R`: a
step from related states gives outputs related by `O` and related states again, or comes back in
neither of them. `runAll_rel` carries this from one step to a list of operations.
-/

namespace Lib

variable {α β γ δ σ ω : Type*}

namespace OptionRel

variable {P : α → β → Prop} {Q : γ → δ → Prop} {x : Option α} {y : Option β}

theorem bind (h : Option.Rel P x y) {f : α → Option γ} {g : β → Option δ}
    (hfg : ∀ a b, P a b → Option.Rel Q (f a) (g b)) : Option.Rel Q (x.bind f) (y.bind g) := by
  cases h with
  | some hab => exact hfg _ _ hab
  | none => exact .none

theorem map (h : Option.Rel P x y) {f : α → γ} {g : β → δ}
    (hfg : ∀ a b, P a b → Q (f a) (g b)) : Option.Rel Q (x.map f) (y.map g) := by
  cases h with
  | some hab => exact .some (hfg _ _ hab)
  | none => exact .none

theorem mono {P' : α → β → Prop} (h : Option.Rel P x y) (hP : ∀ a b, P a b → P' a b) :
    Option.Rel P' x y := by
  cases h with
  | some hab => exact .some (hP _ _ hab)
  | none => exact .none

end OptionRel

/-- The outputs of the operations of a list, one after the other, and the state behind them;
`none` where one does not come back. -/
def runAll (step : σ → α → Option (ω × σ)) : List α → σ → Option (List ω × σ)
  | [], s => some ([], s)
  | a :: as, s =>
      (step s a).bind fun (o, s) => (runAll step as s).map fun (os, s) => (o :: os, s)

/-- Related outputs and related states. -/
def Agree (O : ω → ω → Prop) (R : σ → σ → Prop) (x y : ω × σ) : Prop := O x.1 y.1 ∧ R x.2 y.2

theorem runAll_rel {step : σ → α → Option (ω × σ)} {O : ω → ω → Prop} {R : σ → σ → Prop}
    (hstep : ∀ s t a, R s t → Option.Rel (Agree O R) (step s a) (step t a)) (as : List α) {s t : σ}
    (h : R s t) :
    Option.Rel (Agree (List.Forall₂ O) R) (runAll step as s) (runAll step as t) := by
  induction as generalizing s t with
  | nil => exact .some ⟨.nil, h⟩
  | cons a as ih =>
      refine OptionRel.bind (hstep s t a h) fun x y hxy => ?_
      refine OptionRel.map (ih hxy.2) fun xs ys hrest => ?_
      exact ⟨.cons hxy.1 hrest.1, hrest.2⟩

end Lib
