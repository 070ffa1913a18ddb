import Mathlib.Data.List.Basic
import Mathlib.Data.List.Nodup

/-!
# Doubly linked lists in a store

A store gives every address two link fields, `last` and `next`. `Seg` says that a
list of addresses is linked both ways between the address before it and the one
behind it; `DList` is the whole list, ended by `null` on both sides and found
from a pointer `pos` to its final node. The two rules are the edits a program
makes: `append` links a node in behind `pos`, `remove` links the neighbours of a
node to each other. Both only ask what the two fields are after the edit, so
they apply to any record type that has such fields.
-/

namespace Lib

variable {A : Type*}

/-- The nodes of the list are linked both ways, from `prev` in front of the
first to `after` behind the final one. -/
def Seg (last next : A → A) : A → List A → A → Prop
  | _, [], _ => True
  | prev, x :: l, after => last x = prev ∧ next x = l.headD after ∧ Seg last next x l after

/-- A doubly linked list with the nodes `l` and the final node `pos`. -/
structure DList (last next : A → A) (null pos : A) (l : List A) : Prop where
  seg : Seg last next null l null
  nodup : l.Nodup
  null_notMem : null ∉ l
  pos_eq : pos = l.getLastD null

/-- The nodes found from `start` on along `next`. -/
inductive Found (next : A → A) (null start : A) : A → Prop
  | start (h : start ≠ null) : Found next null start start
  | next {a : A} (ha : Found next null start a) (h : next a ≠ null) : Found next null start (next a)

theorem Found.eq_start {next : A → A} {null start a : A} (ha : Found next null start a)
    (h : next start = null) : a = start := by
  induction ha with
  | start _ => rfl
  | next _ hnext ih =>
      rw [ih] at hnext
      exact absurd h hnext

theorem Found.eq_start_or_next {next : A → A} {null start a : A} (ha : Found next null start a)
    (h : next (next start) = null) : a = start ∨ a = next start := by
  induction ha with
  | start _ => exact .inl rfl
  | next _ hnext ih =>
      rcases ih with rfl | rfl
      · exact .inr rfl
      · exact absurd h hnext

/-- The first node from `a` on that meets `p`, within `fuel` nodes. -/
def walk [DecidableEq A] (next : A → A) (null : A) (p : A → Bool) : ℕ → A → A
  | 0, _ => null
  | fuel + 1, a =>
      if a = null then null else if p a then a else walk next null p fuel (next a)

theorem headD_ne {null : A} {l : List A} (hl : l ≠ []) (hnull : null ∉ l) :
    l.headD null ≠ null := by
  cases l with
  | nil => exact absurd rfl hl
  | cons x l =>
      intro hx
      rw [List.headD_cons] at hx
      exact hnull (hx ▸ List.mem_cons_self)

namespace Seg

variable {last next last' next' : A → A}

theorem append_cons {prev after x : A} {l m : List A} :
    Seg last next prev (l ++ x :: m) after ↔
      Seg last next prev l x ∧ last x = l.getLastD prev ∧ next x = m.headD after ∧
        Seg last next x m after := by
  induction l generalizing prev with
  | nil => simp [Seg]
  | cons y l ih =>
      have hhead : (l ++ x :: m).headD after = l.headD x := by cases l <;> simp
      rw [List.cons_append, Seg, Seg, ih, hhead, List.getLastD_cons]
      tauto

/-- A segment only depends on the links of its own nodes. -/
theorem congr {prev after : A} {l : List A} (h : Seg last next prev l after)
    (hl : ∀ x ∈ l, last' x = last x ∧ next' x = next x) :
    Seg last' next' prev l after := by
  induction l generalizing prev with
  | nil => trivial
  | cons x l ih =>
      obtain ⟨hlast, hnext, hseg⟩ := h
      have hx := hl x List.mem_cons_self
      exact ⟨hx.1.trans hlast, hx.2.trans hnext,
        ih hseg fun y hy => hl y (List.mem_cons_of_mem x hy)⟩

/-- The end of a segment moves with the forward link of its final node. -/
theorem set_after [DecidableEq A] {prev after after' : A} {l : List A} (h : Seg last next prev l after)
    (hnodup : l.Nodup) (hlast : ∀ x ∈ l, last' x = last x)
    (hnext : ∀ x ∈ l, next' x = if x = l.getLastD prev then after' else next x) :
    Seg last' next' prev l after' := by
  induction l generalizing prev with
  | nil => trivial
  | cons x l ih =>
      obtain ⟨hx, hn, hseg⟩ := h
      rw [List.nodup_cons] at hnodup
      have hself := hnext x List.mem_cons_self
      rw [List.getLastD_cons] at hself
      refine ⟨(hlast x List.mem_cons_self).trans hx, ?_, ?_⟩
      · cases l with
        | nil => simpa using hself
        | cons y m =>
            have hne : x ≠ (y :: m).getLastD x := by
              intro heq
              have hmem : m.getLastD y ∈ y :: m := List.getLastD_mem_cons
              rw [List.getLastD_cons] at heq
              rw [← heq] at hmem
              exact hnodup.1 hmem
            rw [if_neg hne] at hself
            rw [hself, hn]
            rfl
      · refine ih hseg hnodup.2 (fun y hy => hlast y (List.mem_cons_of_mem x hy)) ?_
        intro y hy
        rw [hnext y (List.mem_cons_of_mem x hy), List.getLastD_cons]

/-- The start of a segment moves with the backward link of its first node. -/
theorem set_prev [DecidableEq A] {prev prev' after : A} {l : List A} (h : Seg last next prev l after)
    (hnodup : l.Nodup) (hlast : ∀ x ∈ l, last' x = if x = l.headD after then prev' else last x)
    (hnext : ∀ x ∈ l, next' x = next x) :
    Seg last' next' prev' l after := by
  cases l with
  | nil => trivial
  | cons x l =>
      obtain ⟨-, hn, hseg⟩ := h
      rw [List.nodup_cons] at hnodup
      have hself := hlast x List.mem_cons_self
      rw [List.headD_cons, if_pos rfl] at hself
      refine ⟨hself, (hnext x List.mem_cons_self).trans hn, hseg.congr ?_⟩
      intro y hy
      have hne : y ≠ x := by
        rintro rfl
        exact hnodup.1 hy
      have hy' := hlast y (List.mem_cons_of_mem x hy)
      rw [List.headD_cons, if_neg hne] at hy'
      exact ⟨hy', hnext y (List.mem_cons_of_mem x hy)⟩

/-- The nodes of a segment are found once its first node is. -/
theorem found {null start prev : A} {l : List A} (h : Seg last next prev l null)
    (hnull : null ∉ l) (hhead : l ≠ [] → Found next null start (l.headD null)) {a : A}
    (ha : a ∈ l) : Found next null start a := by
  induction l generalizing prev with
  | nil => simp at ha
  | cons x l ih =>
      obtain ⟨-, hnext, hseg⟩ := h
      rw [List.mem_cons, not_or] at hnull
      have hx : Found next null start x := hhead (by simp)
      rcases List.mem_cons.1 ha with rfl | ha
      · exact hx
      · refine ih hseg hnull.2 (fun hl => ?_) ha
        rw [← hnext]
        refine .next hx ?_
        rw [hnext]
        exact headD_ne hl hnull.2

theorem walk_mem [DecidableEq A] {null prev : A} {l : List A} (h : Seg last next prev l null)
    {p : A → Bool} {fuel : ℕ} (hwalk : walk next null p fuel (l.headD null) ≠ null) :
    walk next null p fuel (l.headD null) ∈ l ∧ p (walk next null p fuel (l.headD null)) = true := by
  induction fuel generalizing prev l with
  | zero => exact absurd rfl hwalk
  | succ fuel ih =>
      cases l with
      | nil => simp [walk] at hwalk
      | cons x l =>
          obtain ⟨-, hnext, hseg⟩ := h
          rw [List.headD_cons, walk] at hwalk ⊢
          by_cases hx : x = null
          · rw [if_pos hx] at hwalk
            exact absurd rfl hwalk
          · rw [if_neg hx] at hwalk ⊢
            cases hp : p x with
            | true => simp [hp]
            | false =>
                simp only [hp, Bool.false_eq_true, if_false] at hwalk ⊢
                rw [hnext] at hwalk ⊢
                have hrest := ih hseg hwalk
                exact ⟨List.mem_cons_of_mem x hrest.1, hrest.2⟩

theorem walk_eq [DecidableEq A] {null prev a : A} {l : List A} (h : Seg last next prev l null)
    (hnull : null ∉ l) {p : A → Bool} {fuel : ℕ} (hfuel : l.length ≤ fuel) (ha : a ∈ l)
    (hp : p a = true) (honly : ∀ b ∈ l, p b = true → b = a) :
    walk next null p fuel (l.headD null) = a := by
  induction l generalizing prev fuel with
  | nil => simp at ha
  | cons x l ih =>
      obtain ⟨-, hnext, hseg⟩ := h
      rw [List.mem_cons, not_or] at hnull
      obtain ⟨fuel, rfl⟩ : ∃ f, fuel = f + 1 := ⟨fuel - 1, by
        rw [List.length_cons] at hfuel
        omega⟩
      rw [List.headD_cons, walk, if_neg (Ne.symm hnull.1)]
      by_cases hx : p x = true
      · rw [if_pos hx]
        exact honly x List.mem_cons_self hx
      · rw [if_neg hx, hnext]
        have hal : a ∈ l := by
          rcases List.mem_cons.1 ha with rfl | hal
          · exact absurd hp hx
          · exact hal
        refine ih hseg hnull.2 ?_ hal fun b hb => honly b (List.mem_cons_of_mem x hb)
        rw [List.length_cons] at hfuel
        omega

/-- A walk finds a node, where one of the nodes within its reach meets `p`. -/
theorem walk_ne_null [DecidableEq A] {null prev : A} {l : List A} (h : Seg last next prev l null)
    (hnull : null ∉ l) {p : A → Bool} {fuel i : ℕ} (hi : i < fuel) {a : A} (ha : l[i]? = some a)
    (hp : p a = true) : walk next null p fuel (l.headD null) ≠ null := by
  induction l generalizing prev fuel i with
  | nil => simp at ha
  | cons x l ih =>
      obtain ⟨-, hnext, hseg⟩ := h
      rw [List.mem_cons, not_or] at hnull
      obtain ⟨fuel, rfl⟩ : ∃ f, fuel = f + 1 := ⟨fuel - 1, by omega⟩
      rw [List.headD_cons, walk, if_neg (Ne.symm hnull.1)]
      by_cases hx : p x = true
      · rw [if_pos hx]
        exact Ne.symm hnull.1
      · rw [if_neg hx, hnext]
        cases i with
        | zero =>
            obtain rfl : x = a := by simpa using ha
            exact absurd hp hx
        | succ i =>
            have hi' : i < fuel := by omega
            exact ih hseg hnull.2 hi' (by simpa using ha)

theorem unique {null prev prev' : A} {l l' : List A} (h : Seg last next prev l null)
    (hnull : null ∉ l) (h' : Seg last next prev' l' null) (hnull' : null ∉ l')
    (hhead : l.headD null = l'.headD null) : l = l' := by
  induction l generalizing prev prev' l' with
  | nil =>
      cases l' with
      | nil => rfl
      | cons x l' =>
          rw [List.headD_nil, List.headD_cons] at hhead
          exact absurd (hhead ▸ List.mem_cons_self) hnull'
  | cons x l ih =>
      cases l' with
      | nil =>
          rw [List.headD_nil, List.headD_cons] at hhead
          exact absurd (hhead ▸ List.mem_cons_self) hnull
      | cons y l' =>
          rw [List.headD_cons, List.headD_cons] at hhead
          obtain rfl := hhead
          obtain ⟨-, hnext, hseg⟩ := h
          obtain ⟨-, hnext', hseg'⟩ := h'
          rw [List.mem_cons, not_or] at hnull hnull'
          rw [ih hseg hnull.2 hseg' hnull'.2 (hnext.symm.trans hnext')]

end Seg

namespace DList

variable {last next last' next' : A → A} {null pos x : A} {l m : List A}

theorem nil (last next : A → A) (null : A) : DList last next null null [] :=
  ⟨trivial, List.nodup_nil, List.not_mem_nil, rfl⟩

theorem pos_mem (h : DList last next null pos l) (hpos : pos ≠ null) : pos ∈ l := by
  have hmem : l.getLastD null ∈ null :: l := List.getLastD_mem_cons
  rw [← h.pos_eq] at hmem
  exact (List.mem_cons.1 hmem).resolve_left hpos

theorem found_iff (h : DList last next null pos l) {a : A} :
    Found next null (l.headD null) a ↔ a ∈ l := by
  constructor
  · intro ha
    induction ha with
    | start hstart =>
        cases l with
        | nil => exact absurd rfl hstart
        | cons x l => exact List.mem_cons_self
    | next _ hnext ih =>
        obtain ⟨pre, post, rfl⟩ := List.append_of_mem ih
        have hn := (Seg.append_cons.1 h.seg).2.2.1
        cases post with
        | nil => exact absurd hn hnext
        | cons y m =>
            rw [hn]
            simp
  · intro ha
    refine h.seg.found h.null_notMem (fun hl => .start ?_) ha
    exact headD_ne hl h.null_notMem

theorem append [DecidableEq A] (h : DList last next null pos l) (hx : x ∉ l) (hnull : x ≠ null)
    (hlast : ∀ y, last' y = if y = x then pos else last y)
    (hnext : ∀ y ∈ x :: l, next' y = if y = x then null else if y = pos then x else next y) :
    DList last' next' null x (l ++ [x]) := by
  have hne : ∀ y ∈ l, y ≠ x := by
    rintro y hy rfl
    exact hx hy
  refine ⟨Seg.append_cons.2 ⟨?_, ?_, ?_, trivial⟩, ?_, ?_, by simp⟩
  · refine h.seg.set_after h.nodup ?_ ?_
    · intro y hy
      rw [hlast, if_neg (hne y hy)]
    · intro y hy
      rw [hnext y (List.mem_cons_of_mem x hy), if_neg (hne y hy), ← h.pos_eq]
  · rw [hlast, if_pos rfl, h.pos_eq]
  · rw [hnext x List.mem_cons_self, if_pos rfl]
    rfl
  · rw [List.nodup_append]
    refine ⟨h.nodup, List.nodup_singleton x, ?_⟩
    intro y hy z hz
    rw [List.mem_singleton] at hz
    rw [hz]
    exact hne y hy
  · simp [h.null_notMem, hnull.symm]

theorem remove [DecidableEq A] (h : DList last next null pos (l ++ x :: m))
    (hlast : ∀ y ∈ l ++ m, last' y = if y = next x then last x else last y)
    (hnext : ∀ y ∈ l ++ m, next' y = if y = last x then next x else next y) :
    DList last' next' null (if next x = null then last x else pos) (l ++ m) := by
  obtain ⟨hl, hlx, hnx, hm⟩ := Seg.append_cons.1 h.seg
  have hnodup : (l ++ m).Nodup := (List.nodup_append_comm.1 (by
    have hperm := h.nodup
    rw [List.nodup_middle] at hperm
    exact List.nodup_append_comm.1 (List.nodup_cons.1 hperm).2))
  have hnull : null ∉ l ++ m := by
    have hn := h.null_notMem
    simp only [List.mem_append, List.mem_cons, not_or] at hn ⊢
    exact ⟨hn.1, hn.2.2⟩
  obtain ⟨hnl, hnm, hdisj⟩ := List.nodup_append.1 hnodup
  -- no node of `l` is the first of `m`, and none of `m` is the final one of `l`
  have hl_next : ∀ y ∈ l, y ≠ next x := by
    intro y hy heq
    rw [hnx] at heq
    cases m with
    | nil =>
        rw [List.headD_nil] at heq
        rw [heq] at hy
        exact hnull (List.mem_append_left [] hy)
    | cons z k => exact hdisj y hy z (by simp) heq
  have hm_last : ∀ y ∈ m, y ≠ last x := by
    intro y hy heq
    rw [hlx] at heq
    have hmem : l.getLastD null ∈ null :: l := List.getLastD_mem_cons
    rw [← heq, List.mem_cons] at hmem
    rcases hmem with rfl | hmem
    · exact hnull (List.mem_append_right l hy)
    · exact hdisj y hmem y hy rfl
  have hsegl : Seg last' next' null l (next x) := by
    refine hl.set_after hnl ?_ ?_
    · intro y hy
      rw [hlast y (by simp [hy]), if_neg (hl_next y hy)]
    · intro y hy
      rw [hnext y (by simp [hy]), hlx]
  have hsegm : Seg last' next' (last x) m null := by
    refine hm.set_prev hnm ?_ ?_
    · intro y hy
      rw [hlast y (by simp [hy]), hnx]
    · intro y hy
      rw [hnext y (by simp [hy]), if_neg (hm_last y hy)]
  refine ⟨?_, hnodup, hnull, ?_⟩
  · cases m with
    | nil =>
        have hend : next x = null := by simpa using hnx
        rw [List.append_nil, ← hend]
        rwa [hend] at hsegl ⊢
    | cons z k =>
        rw [Seg.append_cons]
        have hz : next x = z := by simpa using hnx
        rw [hz] at hsegl
        exact ⟨hsegl, hsegm.1.trans hlx, hsegm.2.1, hsegm.2.2⟩
  · cases m with
    | nil =>
        have hend : next x = null := by simpa using hnx
        rw [if_pos hend, List.append_nil, hlx]
    | cons z k =>
        have hz : next x = z := by simpa using hnx
        have hzn : next x ≠ null := by
          rw [hz]
          rintro rfl
          exact hnull (by simp)
        rw [if_neg hzn, h.pos_eq]
        simp [List.getLastD_eq_getLast?]

end DList

end Lib
