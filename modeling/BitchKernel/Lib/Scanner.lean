import Mathlib.Data.List.Basic
import Mathlib.Data.List.Infix

/-!
# Scanners

A scanner takes a text to what it leaves of it. It decides by the front of the text alone: what
stands behind the place where it stopped makes no difference, and where a text ends in the middle
of what is scanned, more text is only scanned on. Scanners are closed under composition and under a
choice by the first character, so a text that is read piece by piece can be cut at the pieces.
-/

namespace Lib

variable {α : Type*}

/-- `E` leaves an end of the text; what follows an end that it leaves is left with it; and of what
follows a text that it uses up, it leaves an end. -/
structure Scanner (E : List α → List α) : Prop where
  suffix : ∀ f, E f <:+ f
  append : ∀ f g, E f ≠ [] → E (f ++ g) = E f ++ g
  cut : ∀ f g, E f = [] → E (f ++ g) <:+ g

namespace Scanner

variable {E E₁ E₂ : List α → List α}

theorem nil (h : Scanner E) : E [] = [] := List.suffix_nil.1 (h.suffix [])

theorem ne_nil (h : Scanner E) {f : List α} (hf : E f ≠ []) : f ≠ [] := by
  rintro rfl
  exact hf h.nil

theorem of_append (h : Scanner E) {f g r : List α} (hr : r ≠ []) (hE : E (f ++ g) = r ++ g) :
    E f = r := by
  by_cases hf : E f = []
  · have hlength := (h.cut f g hf).length_le
    have hpos := List.length_pos_iff.2 hr
    rw [hE, List.length_append] at hlength
    omega
  · have happend := h.append f g hf
    rw [hE] at happend
    exact (List.append_cancel_right happend).symm

theorem id : Scanner (id : List α → List α) where
  suffix := List.suffix_refl
  append _ _ _ := rfl
  cut f g hf := by
    obtain rfl : f = [] := hf
    exact List.suffix_refl g

theorem tail : Scanner (List.tail : List α → List α) where
  suffix := List.tail_suffix
  append f g hf := by
    cases f with
    | nil => exact absurd rfl hf
    | cons a f => rfl
  cut f g hf := by
    cases f with
    | nil => exact List.tail_suffix g
    | cons a f =>
        obtain rfl : f = [] := hf
        exact List.suffix_refl g

theorem dropWhile (p : α → Bool) : Scanner (List.dropWhile p) where
  suffix _ := List.dropWhile_suffix p
  append f g hf := by
    rw [List.dropWhile_append, if_neg]
    rw [List.isEmpty_iff]
    exact hf
  cut f g hf := by
    rw [List.dropWhile_append, if_pos (List.isEmpty_iff.2 hf)]
    exact List.dropWhile_suffix p

theorem comp (h₂ : Scanner E₂) (h₁ : Scanner E₁) : Scanner fun f => E₂ (E₁ f) where
  suffix f := (h₂.suffix _).trans (h₁.suffix f)
  append f g hf := by
    rw [h₁.append f g (h₂.ne_nil hf), h₂.append _ g hf]
  cut f g hf := by
    by_cases hfirst : E₁ f = []
    · exact (h₂.suffix _).trans (h₁.cut f g hfirst)
    · rw [h₁.append f g hfirst]
      exact h₂.cut _ g hf

theorem ite (p : Option α → Prop) [DecidablePred p] (h₁ : Scanner E₁) (h₂ : Scanner E₂) :
    Scanner fun f => if p f.head? then E₁ f else E₂ f where
  suffix f := by
    split
    · exact h₁.suffix f
    · exact h₂.suffix f
  append f g hf := by
    cases f with
    | nil =>
        rw [h₁.nil, h₂.nil, ite_self] at hf
        exact absurd rfl hf
    | cons a f =>
        have hhead : ((a :: f) ++ g).head? = (a :: f).head? := rfl
        rw [hhead]
        split
        · rename_i hp
          rw [if_pos hp] at hf
          exact h₁.append _ g hf
        · rename_i hp
          rw [if_neg hp] at hf
          exact h₂.append _ g hf
  cut f g hf := by
    cases f with
    | nil =>
        rw [List.nil_append]
        split
        · exact h₁.suffix g
        · exact h₂.suffix g
    | cons a f =>
        have hhead : ((a :: f) ++ g).head? = (a :: f).head? := rfl
        rw [hhead]
        split
        · rename_i hp
          rw [if_pos hp] at hf
          exact h₁.cut _ g hf
        · rename_i hp
          rw [if_neg hp] at hf
          exact h₂.cut _ g hf

end Scanner

end Lib
