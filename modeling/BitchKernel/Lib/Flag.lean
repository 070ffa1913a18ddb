import Mathlib.Data.List.Induction
import Mathlib.Data.Nat.Notation

/-!
# Flags

A flag is one bit of a word, which is set, cleared and tested by masks. Over a list of events
`Since` says that an event of one kind came, and nothing but events of another kind since. A flag
that some events set and others clear is a `Since` of its history.
-/

namespace Lib

section Word

variable {w : ℕ} {x f g : BitVec w}

def IsFlag (f : BitVec w) : Prop := ∃ i < w, f = BitVec.twoPow w i

def HasFlag (x f : BitVec w) : Prop := x &&& f = f

instance (x f : BitVec w) : Decidable (HasFlag x f) := inferInstanceAs (Decidable (_ = _))

theorem hasFlag_twoPow {i : ℕ} (hi : i < w) :
    HasFlag x (BitVec.twoPow w i) ↔ x.getLsbD i = true := by
  unfold HasFlag
  rw [BitVec.and_twoPow]
  split
  · rename_i hset
    exact ⟨fun _ => hset, fun _ => rfl⟩
  · rename_i hclear
    refine ⟨fun h => ?_, fun h => absurd h hclear⟩
    have hbit := congrArg (fun y => BitVec.getLsbD y i) h
    simp [hi] at hbit

theorem eq_of_twoPow_eq {i j : ℕ} (hi : i < w) (h : BitVec.twoPow w i = BitVec.twoPow w j) : i = j := by
  have hbit := congrArg (fun y => BitVec.getLsbD y i) h
  simp only [BitVec.getLsbD_twoPow, hi, decide_true, Bool.true_and] at hbit
  have hj := hbit.symm
  rw [Bool.and_eq_true, decide_eq_true_eq, decide_eq_true_eq] at hj
  exact hj.2.symm

theorem hasFlag_or (hf : IsFlag f) (hg : IsFlag g) :
    HasFlag (x ||| g) f ↔ HasFlag x f ∨ f = g := by
  obtain ⟨i, hi, rfl⟩ := hf
  obtain ⟨j, hj, rfl⟩ := hg
  rw [hasFlag_twoPow hi, hasFlag_twoPow hi, BitVec.getLsbD_or, Bool.or_eq_true, BitVec.getLsbD_twoPow]
  refine or_congr_right ⟨fun h => ?_, fun h => ?_⟩
  · rw [Bool.and_eq_true, decide_eq_true_eq, decide_eq_true_eq] at h
    rw [h.2]
  · obtain rfl := eq_of_twoPow_eq hi h
    simp [hi]

theorem hasFlag_and_not (hf : IsFlag f) (hg : IsFlag g) :
    HasFlag (x &&& ~~~g) f ↔ HasFlag x f ∧ f ≠ g := by
  obtain ⟨i, hi, rfl⟩ := hf
  obtain ⟨j, hj, rfl⟩ := hg
  rw [hasFlag_twoPow hi, hasFlag_twoPow hi, BitVec.getLsbD_and, Bool.and_eq_true, BitVec.getLsbD_not,
    BitVec.getLsbD_twoPow]
  refine and_congr_right fun _ => ⟨fun h heq => ?_, fun h => ?_⟩
  · obtain rfl := eq_of_twoPow_eq hi heq
    simp [hi] at h
  · have hne : j ≠ i := fun heq => h (by rw [heq])
    simp [hi, hne]

end Word

/-! ## Events -/

section Since

variable {A : Type*} {q p : List A → A → Prop} {l : List A} {a : A}

/-- An event of `p` came, and only events of `q` since. An event is judged with what came before
it. -/
def Since (q p : List A → A → Prop) (l : List A) : Prop :=
  ∃ before a after, l = before ++ a :: after ∧ p before a ∧
    ∀ between b rest, after = between ++ b :: rest → q (before ++ a :: between) b

theorem not_since_nil : ¬ Since q p [] := by
  rintro ⟨before, a, after, hl, -⟩
  exact List.append_ne_nil_of_right_ne_nil before (List.cons_ne_nil a after) hl.symm

theorem since_append_singleton : Since q p (l ++ [a]) ↔ p l a ∨ (q l a ∧ Since q p l) := by
  constructor
  · rintro ⟨before, b, after, hl, hp, hq⟩
    rcases List.eq_nil_or_concat after with rfl | ⟨after, c, rfl⟩
    · obtain ⟨rfl, hlast⟩ := List.append_inj' hl rfl
      rw [List.singleton_inj] at hlast
      exact .inl (hlast ▸ hp)
    · rw [List.concat_eq_append, ← List.cons_append, ← List.append_assoc] at hl
      obtain ⟨rfl, hlast⟩ := List.append_inj' hl rfl
      rw [List.singleton_inj] at hlast
      refine .inr ⟨hlast ▸ hq after c [] List.concat_eq_append, before, b, after, rfl, hp, ?_⟩
      intro between d rest hafter
      refine hq between d (rest ++ [c]) ?_
      rw [List.concat_eq_append, hafter, List.append_assoc, List.cons_append]
  · rintro (hp | ⟨hqa, before, b, after, rfl, hp, hq⟩)
    · exact ⟨l, a, [], rfl, hp, fun between b rest h =>
        absurd h.symm (List.append_ne_nil_of_right_ne_nil between (List.cons_ne_nil b rest))⟩
    · refine ⟨before, b, after ++ [a], by rw [List.append_assoc, List.cons_append], hp, ?_⟩
      intro between d rest hafter
      rcases List.eq_nil_or_concat rest with rfl | ⟨rest, c, rfl⟩
      · obtain ⟨rfl, hlast⟩ := List.append_inj' hafter rfl
        rw [List.singleton_inj] at hlast
        exact hlast ▸ hqa
      · rw [List.concat_eq_append, ← List.cons_append, ← List.append_assoc] at hafter
        obtain ⟨rfl, -⟩ := List.append_inj' hafter rfl
        exact hq between d rest rfl

theorem iff_since_of_step (bit : List A → Prop) (ok : A → Prop) (hnil : ¬ bit [])
    (hstep : ∀ l a, (∀ b ∈ l, ok b) → ok a → (bit (l ++ [a]) ↔ p l a ∨ (q l a ∧ bit l)))
    (hok : ∀ b ∈ l, ok b) : bit l ↔ Since q p l := by
  induction l using List.reverseRecOn with
  | nil => exact iff_of_false hnil not_since_nil
  | append_singleton l a ih =>
      have hl : ∀ b ∈ l, ok b := fun b hb => hok b (List.mem_append_left _ hb)
      have ha : ok a := hok a (List.mem_append_right _ (List.mem_singleton_self a))
      rw [hstep l a hl ha, since_append_singleton, ih hl]

end Since

end Lib
