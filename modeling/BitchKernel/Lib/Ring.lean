import Mathlib.Data.List.Basic
import Mathlib.Data.List.Nodup
import Mathlib.Data.List.Perm.Basic

/-!
# Singly linked rings

A ring is a set of nodes whose `next` fields lead from a node `c` through all the
others and back to `c`. `Path` is the walk from one node to another, `Ring` the
walk that returns. A ring may be entered at any of its nodes (`rotate`), a node
may be put behind the first one (`insert`), and a node may be taken out by
linking the node in front of it to the one behind it (`remove`).
-/

namespace Lib

variable {A : Type*}

/-- The links lead from `a` through the nodes of the list to `b`. -/
def Path (next : A → A) : A → List A → A → Prop
  | a, [], b => next a = b
  | a, x :: l, b => next a = x ∧ Path next x l b

/-- The links lead from `c` through the distinct nodes of the list back to
`c`. -/
structure Ring (next : A → A) (c : A) (l : List A) : Prop where
  path : Path next c l c
  nodup : (c :: l).Nodup

namespace Path

variable {next next' : A → A} {a b x : A} {l m : List A}

theorem append_cons : Path next a (l ++ x :: m) b ↔ Path next a l x ∧ Path next x m b := by
  induction l generalizing a with
  | nil => rfl
  | cons y l ih =>
      rw [List.cons_append, Path, Path, ih, and_assoc]

theorem congr (h : Path next a l b) (hnext : ∀ y ∈ a :: l, next' y = next y) :
    Path next' a l b := by
  induction l generalizing a with
  | nil => exact (hnext a List.mem_cons_self).trans h
  | cons y l ih =>
      obtain ⟨hy, hpath⟩ := h
      exact ⟨(hnext a List.mem_cons_self).trans hy,
        ih hpath fun z hz => hnext z (List.mem_cons_of_mem a hz)⟩

/-- The link of the final node leads to the end of the path. -/
theorem next_getLastD (h : Path next a l b) : next (l.getLastD a) = b := by
  induction l generalizing a with
  | nil => exact h
  | cons y l ih =>
      rw [List.getLastD_cons]
      exact ih h.2

theorem set_end (h : Path next a l b) (hnodup : (a :: l).Nodup) (hlast : next' (l.getLastD a) = x)
    (hnext : ∀ y ∈ a :: l, y ≠ l.getLastD a → next' y = next y) : Path next' a l x := by
  induction l generalizing a with
  | nil => exact hlast
  | cons y l ih =>
      obtain ⟨hy, hpath⟩ := h
      rw [List.getLastD_cons] at hlast hnext
      obtain ⟨ha, hnodup⟩ := List.nodup_cons.1 hnodup
      refine ⟨(hnext a List.mem_cons_self ?_).trans hy, ih hpath hnodup hlast ?_⟩
      · rintro heq
        have hmem : l.getLastD y ∈ y :: l := List.getLastD_mem_cons
        exact ha (heq ▸ hmem)
      · exact fun z hz => hnext z (List.mem_cons_of_mem a hz)

end Path

namespace Ring

variable {next next' : A → A} {c x : A} {l m : List A}

theorem single (h : next c = c) : Ring next c [] :=
  ⟨h, List.nodup_singleton c⟩

theorem next_eq (h : Ring next c (l ++ m)) : next (l.getLastD c) = m.headD c := by
  cases m with
  | nil =>
      rw [List.append_nil] at h
      exact h.path.next_getLastD
  | cons x m => exact (Path.append_cons.1 h.path).1.next_getLastD

theorem getLastD_mem (c : A) (l : List A) : l.getLastD c ∈ c :: l :=
  List.getLastD_mem_cons

theorem rotate (h : Ring next c (l ++ x :: m)) : Ring next x (m ++ c :: l) := by
  obtain ⟨hl, hm⟩ := Path.append_cons.1 h.path
  refine ⟨Path.append_cons.2 ⟨hm, hl⟩, ?_⟩
  have hperm : (c :: (l ++ x :: m)).Perm (x :: (m ++ c :: l)) :=
    (List.perm_append_comm : (c :: l ++ x :: m).Perm (x :: m ++ c :: l))
  exact hperm.nodup_iff.1 h.nodup

theorem insert [DecidableEq A] (h : Ring next c l) (hx : x ∉ c :: l) (hc : next' c = x)
    (hnext : next' x = next c) (hl : ∀ y ∈ l, next' y = next y) : Ring next' c (x :: l) := by
  refine ⟨⟨hc, ?_⟩, ?_⟩
  · have hpath := h.path
    cases l with
    | nil => exact hnext.trans hpath
    | cons y l =>
        obtain ⟨hy, hpath⟩ := hpath
        exact ⟨hnext.trans hy, hpath.congr hl⟩
  · have hperm : (x :: c :: l).Perm (c :: x :: l) := List.Perm.swap c x l
    exact hperm.nodup_iff.1 (List.nodup_cons.2 ⟨hx, h.nodup⟩)

/-- The node `x` taken out: the node in front of it is linked to the one behind. -/
theorem remove (h : Ring next c (l ++ x :: m)) (hlast : next' (l.getLastD c) = next x)
    (hnext : ∀ y ∈ c :: (l ++ m), y ≠ l.getLastD c → next' y = next y) :
    Ring next' c (l ++ m) := by
  obtain ⟨hl, hm⟩ := Path.append_cons.1 h.path
  have hsub : (c :: (l ++ m)).Sublist (c :: (l ++ x :: m)) :=
    ((List.sublist_cons_self x m).append_left l).cons_cons c
  have hnodup := h.nodup.sublist hsub
  have hnodupl : (c :: l).Nodup := hnodup.sublist ((List.sublist_append_left l m).cons_cons c)
  have hnextl : ∀ y ∈ c :: l, y ≠ l.getLastD c → next' y = next y :=
    fun y hy => hnext y (List.mem_append_left m hy)
  refine ⟨?_, hnodup⟩
  cases m with
  | nil =>
      rw [List.append_nil]
      exact hl.set_end hnodupl (hlast.trans hm) hnextl
  | cons y m =>
      refine Path.append_cons.2 ⟨hl.set_end hnodupl (hlast.trans hm.1) hnextl, ?_⟩
      refine hm.2.congr fun z hz => hnext z (List.mem_append_right (c :: l) hz) ?_
      rintro rfl
      rw [← List.cons_append, List.nodup_append] at hnodup
      exact hnodup.2.2 _ (getLastD_mem c l) _ hz rfl

end Ring

end Lib
