import Mathlib.Data.List.Basic

/-!
# Chains of links

A store gives every address the link that follows it, and `null` ends a chain. `ChainOf` lists
the addresses of a chain that comes to an end. A second store that agrees with the first but ends
the chain at some addresses cuts it there: what is left is the part up to the first such address.
Blocks of one size, one behind the other, are read a part at a time.
-/

namespace Lib

variable {A : Type*} {null : A} {next : A → A}

/-- The addresses that the links lead to from one of them on, up to the end. -/
inductive ChainOf (null : A) (next : A → A) : A → List A → Prop
  | last {a : A} (h : next a = null) : ChainOf null next a [a]
  | cons {a : A} {l : List A} (h : next a ≠ null) (hl : ChainOf null next (next a) l) :
      ChainOf null next a (a :: l)

namespace ChainOf

theorem ne_nil {a : A} {l : List A} (h : ChainOf null next a l) : l ≠ [] := by
  cases h with
  | last => exact List.cons_ne_nil _ _
  | cons => exact List.cons_ne_nil _ _

theorem length_pos {a : A} {l : List A} (h : ChainOf null next a l) : 0 < l.length :=
  List.length_pos_iff.2 h.ne_nil

/-- What holds of the first address and behind every link holds along the chain. -/
theorem forall_mem {p : A → Prop} {a : A} {l : List A} (h : ChainOf null next a l) (hfirst : p a)
    (hnext : ∀ b, p (next b)) : ∀ b ∈ l, p b := by
  induction h with
  | last _ =>
      intro b hb
      rwa [List.mem_singleton.1 hb]
  | cons _ _ ih =>
      intro b hb
      rcases List.mem_cons.1 hb with rfl | hrest
      · exact hfirst
      · exact ih (hnext _) b hrest

/-- The chain of a store that ends at the addresses of `cut` is the part of the chain up to the
first of them. A part of the whole chain is kept exactly when nothing is cut in front of its last
address. -/
theorem cut {next' : A → A} {cut : A → Prop} {a : A} {l : List A} (h : ChainOf null next a l)
    (hkeep : ∀ b ∈ l, ¬ cut b → next' b = next b) (hcut : ∀ b ∈ l, cut b → next' b = null) :
    ∃ l', ChainOf null next' a l' ∧ l' <+: l ∧ ∀ n, l'.take n = l.take n ↔
      ∀ b ∈ (l.take n).dropLast, ¬ cut b := by
  induction h with
  | @last a hnull =>
      refine ⟨[a], .last ?_, List.prefix_refl _, fun n => ?_⟩
      · by_cases hc : cut a
        · exact hcut a List.mem_cons_self hc
        · rw [hkeep a List.mem_cons_self hc, hnull]
      · cases n with
        | zero => simp
        | succ n => simp
  | @cons a l hne hl ih =>
      by_cases hc : cut a
      · refine ⟨[a], .last (hcut a List.mem_cons_self hc), ⟨l, rfl⟩, fun n => ?_⟩
        obtain ⟨b, l, rfl⟩ := List.exists_cons_of_ne_nil hl.ne_nil
        cases n with
        | zero => simp
        | succ n =>
            cases n with
            | zero => simp
            | succ n => simp [hc]
      · obtain ⟨l', hl', hpre, htake⟩ := ih
          (fun b hb => hkeep b (List.mem_cons_of_mem a hb))
          (fun b hb => hcut b (List.mem_cons_of_mem a hb))
        rw [← hkeep a List.mem_cons_self hc] at hne hl'
        refine ⟨a :: l', .cons hne hl', List.cons_prefix_cons.2 ⟨rfl, hpre⟩, fun n => ?_⟩
        cases n with
        | zero => simp
        | succ n =>
            rw [List.take_succ_cons, List.take_succ_cons, List.cons.injEq, htake n]
            cases n with
            | zero => simp
            | succ n =>
                have hrest : l.take (n + 1) ≠ [] := by
                  simp [hl.ne_nil]
                rw [List.dropLast_cons_of_ne_nil hrest]
                simp [hc]

end ChainOf

theorem take_drop_flatMap {B C : Type*} {f : B → List C} {size : ℕ} {l : List B} {q : ℕ} (d : B)
    (hlen : ∀ b ∈ l, (f b).length = size) (hq : q < l.length) {o j : ℕ} (hle : o + j ≤ size) :
    ((l.flatMap f).drop (q * size + o)).take j = ((f (l.getD q d)).drop o).take j := by
  induction l generalizing q with
  | nil => exact absurd hq (Nat.not_lt_zero q)
  | cons b l ih =>
      have hb := hlen b List.mem_cons_self
      rw [List.flatMap_cons]
      cases q with
      | zero =>
          rw [Nat.zero_mul, Nat.zero_add, List.getD_cons_zero, List.drop_append_of_le_length (by omega)]
          exact List.take_append_of_le_length (by rw [List.length_drop]; omega)
      | succ q =>
          have hplace : (q + 1) * size + o = (f b).length + (q * size + o) := by
            rw [hb, Nat.succ_mul]
            omega
          rw [hplace, List.drop_length_add_append, List.getD_cons_succ]
          exact ih (fun c hc => hlen c (List.mem_cons_of_mem b hc)) (Nat.lt_of_succ_lt_succ hq)

end Lib
