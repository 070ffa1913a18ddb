import Mathlib.Algebra.Group.Nat.Defs
import Mathlib.Data.Nat.Notation
import Mathlib.Logic.Function.Basic
import Mathlib.Tactic.SplitIfs

/-!
# The 8259A interrupt controllers

The pair of controllers of a PC: sixteen request lines, eight on each controller, with the slave on
input 2 of the master. A request stays in the request register until it is acknowledged. Of the
requests that are not masked the lowest input wins, unless an input at or below it is in service.
The commands that rotate priorities and those that select what a read returns do nothing here.
-/

namespace Lib

namespace I8259

/-- The initialization words that follow the first. -/
inductive Icw | icw2 | icw3 | icw4
deriving DecidableEq

structure Chip where
  /-- The words that the data port takes before it takes the mask. -/
  expects : List Icw
  base : BitVec 8
  wiring : BitVec 8
  aeoi : Bool
  imr : BitVec 8
  irr : BitVec 8
  isr : BitVec 8
deriving DecidableEq

def highest (req isr : BitVec 8) : Option ℕ :=
  ((List.range 8).find? fun n => (req ||| isr).getLsbD n).filter fun n => !isr.getLsbD n

namespace Chip

/-- A write to the control port: the first initialization word, or an end of interrupt. -/
def writeCtl (c : Chip) (v : BitVec 8) : Chip :=
  if v.getLsbD 4 then
    { c with
      expects := .icw2 :: ((if v.getLsbD 1 then [] else [.icw3]) ++ if v.getLsbD 0 then [.icw4] else [])
      aeoi := false, imr := 0, irr := 0, isr := 0 }
  else if v.getLsbD 3 then c
  else if v &&& 0xe0 = 0x20 then { c with isr := c.isr &&& (c.isr - 1) }
  else if v &&& 0xe0 = 0x60 then { c with isr := c.isr &&& ~~~BitVec.twoPow 8 (v &&& 7).toNat }
  else c

def writeData (c : Chip) (v : BitVec 8) : Chip :=
  match c.expects with
  | .icw2 :: rest => { c with expects := rest, base := v &&& 0xf8 }
  | .icw3 :: rest => { c with expects := rest, wiring := v }
  | .icw4 :: rest => { c with expects := rest, aeoi := v.getLsbD 1 }
  | [] => { c with imr := v }

def raise (c : Chip) (n : ℕ) : Chip := { c with irr := c.irr ||| BitVec.twoPow 8 n }

/-- The request that the controller passes on, with the requests `inputs` besides its own. -/
def request (c : Chip) (inputs : BitVec 8) : Option ℕ :=
  highest ((c.irr ||| inputs) &&& ~~~c.imr) c.isr

def accept (c : Chip) (n : ℕ) : Chip :=
  { c with
    irr := c.irr &&& ~~~BitVec.twoPow 8 n
    isr := if c.aeoi then c.isr else c.isr ||| BitVec.twoPow 8 n }

theorem writeCtl_requests (c : Chip) (v k : BitVec 8) :
    ({ c with irr := c.irr &&& k } : Chip).writeCtl v =
      { c.writeCtl v with irr := (c.writeCtl v).irr &&& k } := by
  unfold writeCtl
  by_cases hicw : v.getLsbD 4 = true
  · rw [if_pos hicw, if_pos hicw]
    simp
  · rw [if_neg hicw, if_neg hicw]
    split_ifs <;> rfl

theorem writeData_requests (c : Chip) (v k : BitVec 8) :
    ({ c with irr := c.irr &&& k } : Chip).writeData v =
      { c.writeData v with irr := (c.writeData v).irr &&& k } := by
  unfold writeData
  dsimp only
  split <;> rfl

end Chip

structure Pair where
  master : Chip
  slave : Chip
deriving DecidableEq

namespace Pair

def outb (p : Pair) (v : BitVec 8) : ℕ → Pair
  | 0x20 => { p with master := p.master.writeCtl v }
  | 0x21 => { p with master := p.master.writeData v }
  | 0xa0 => { p with slave := p.slave.writeCtl v }
  | 0xa1 => { p with slave := p.slave.writeData v }
  | _ => p

def raise (p : Pair) (n : ℕ) : Pair :=
  if n < 8 then { p with master := p.master.raise n } else { p with slave := p.slave.raise (n - 8) }

/-- What the slave puts on the inputs of the master. -/
def cascade (p : Pair) : BitVec 8 := if (p.slave.request 0).isSome then BitVec.twoPow 8 2 else 0

def wired (p : Pair) : Bool := p.master.wiring.getLsbD 2 && p.slave.wiring &&& 7 = 2

def line (p : Pair) : Option ℕ :=
  match p.master.request p.cascade with
  | some 2 => if p.wired then (p.slave.request 0).map (8 + ·) else some 2
  | n => n

def vector (p : Pair) (n : ℕ) : BitVec 8 :=
  if n < 8 then p.master.base + BitVec.ofNat 8 n else p.slave.base + BitVec.ofNat 8 (n - 8)

/-- The acknowledge cycle for the line `n`. -/
def ack (p : Pair) (n : ℕ) : Pair :=
  if n < 8 then { p with master := p.master.accept n }
  else { master := p.master.accept 2, slave := p.slave.accept (n - 8) }

end Pair

/-! ## Requests -/

theorem getLsbD_raised {x : BitVec 8} {n m : ℕ} (hn : n < 8) :
    (x ||| BitVec.twoPow 8 n).getLsbD m = true ↔ m = n ∨ x.getLsbD m = true := by
  rw [BitVec.getLsbD_or, Bool.or_eq_true, BitVec.getLsbD_twoPow, Bool.and_eq_true,
    decide_eq_true_eq, decide_eq_true_eq, or_comm]
  exact or_congr_left ⟨fun h => h.2.symm, fun h => ⟨hn, h.symm⟩⟩

theorem getLsbD_cleared {x : BitVec 8} {n m : ℕ} :
    (x &&& ~~~BitVec.twoPow 8 n).getLsbD m = true ↔ x.getLsbD m = true ∧ m ≠ n := by
  rw [BitVec.getLsbD_and, Bool.and_eq_true, BitVec.getLsbD_not, BitVec.getLsbD_twoPow]
  refine and_congr_right fun hm => ?_
  have hlt : m < 8 := BitVec.lt_of_getLsbD hm
  by_cases hmn : m = n
  · subst hmn
    simp [hlt]
  · simp [hlt, hmn, Ne.symm hmn]

/-- The end of interrupt clears what one acknowledge cycle set. -/
theorem eoi_twoPow {n : ℕ} (hn : n < 8) :
    BitVec.twoPow 8 n &&& (BitVec.twoPow 8 n - 1) = 0 := by
  revert n
  decide

theorem highest_eq_find {req : BitVec 8} :
    highest req 0 = (List.range 8).find? fun n => req.getLsbD n := by
  have hall : ∀ o : Option ℕ, o.filter (fun _ => true) = o := by
    rintro (_ | n) <;> rfl
  unfold highest
  simp [hall]

theorem highest_eq_some {req : BitVec 8} {n : ℕ} :
    highest req 0 = some n ↔ req.getLsbD n = true ∧ ∀ m < n, req.getLsbD m = false := by
  rw [highest_eq_find, List.find?_range_eq_some]
  simp only [Bool.not_eq_true', List.mem_range]
  exact ⟨fun h => ⟨h.1, h.2.2⟩, fun h => ⟨h.1, BitVec.lt_of_getLsbD h.1, h.2⟩⟩

theorem highest_eq_none {req : BitVec 8} : highest req 0 = none ↔ ∀ n, req.getLsbD n = false := by
  rw [highest_eq_find, List.find?_eq_none]
  simp only [List.mem_range, Bool.not_eq_true]
  refine ⟨fun h n => ?_, fun h n _ => h n⟩
  rcases Nat.lt_or_ge n 8 with hn | hn
  · exact h n hn
  · exact BitVec.getLsbD_of_ge _ _ hn

/-! ## The line the processor is interrupted for -/

namespace Pair

variable {p : Pair} {n m k : ℕ}

def pending (p : Pair) (n : ℕ) : Bool :=
  if n < 8 then p.master.irr.getLsbD n else p.slave.irr.getLsbD (n - 8)

def masked (p : Pair) (n : ℕ) : Bool :=
  if n < 8 then p.master.imr.getLsbD n else p.slave.imr.getLsbD (n - 8)

/-- The place of a line in the order in which the lines are served. -/
def rank (n : ℕ) : ℕ :=
  if n < 2 then n else if n < 8 then n + 8 else if n < 16 then n - 6 else n

def Ready (p : Pair) (n : ℕ) : Prop := p.pending n = true ∧ p.masked n = false

/-- Of the lines that are ready, `n` is served first. -/
def First (p : Pair) (n : ℕ) : Prop := p.Ready n ∧ ∀ m, p.Ready m → rank n ≤ rank m

theorem rank_inj (h : rank n = rank m) : n = m := by
  unfold rank at h
  grind

theorem First.unique (hn : p.First n) (hm : p.First m) : n = m :=
  rank_inj (Nat.le_antisymm (hn.2 m hm.1) (hm.2 n hn.1))

theorem getLsbD_unmasked {irr imr : BitVec 8} {k : ℕ} :
    (irr &&& ~~~imr).getLsbD k = true ↔ irr.getLsbD k = true ∧ imr.getLsbD k = false := by
  rw [BitVec.getLsbD_and, Bool.and_eq_true, BitVec.getLsbD_not, Bool.and_eq_true,
    decide_eq_true_eq, Bool.not_eq_true']
  exact and_congr_right fun h => and_iff_right (BitVec.lt_of_getLsbD h)

theorem ready_slave : p.Ready (8 + k) ↔
    p.slave.irr.getLsbD k = true ∧ p.slave.imr.getLsbD k = false := by
  unfold Ready pending masked
  rw [if_neg (by omega), if_neg (by omega), Nat.add_sub_cancel_left]

theorem ready_master (hk : k < 8) : p.Ready k ↔
    p.master.irr.getLsbD k = true ∧ p.master.imr.getLsbD k = false := by
  unfold Ready pending masked
  rw [if_pos hk, if_pos hk]

theorem slave_request (hs : p.slave.isr = 0) :
    p.slave.request 0 = some k ↔ p.Ready (8 + k) ∧ ∀ j < k, ¬ p.Ready (8 + j) := by
  unfold Chip.request
  have hzero : p.slave.irr ||| 0 = p.slave.irr := BitVec.or_zero
  rw [hs, highest_eq_some, hzero, getLsbD_unmasked, ready_slave]
  refine and_congr_right fun _ => forall₂_congr fun j _ => ?_
  rw [ready_slave, ← getLsbD_unmasked, Bool.not_eq_true]

theorem slave_request_none (hs : p.slave.isr = 0) :
    p.slave.request 0 = none ↔ ∀ k, ¬ p.Ready (8 + k) := by
  unfold Chip.request
  have hzero : p.slave.irr ||| 0 = p.slave.irr := BitVec.or_zero
  rw [hs, highest_eq_none, hzero]
  refine forall_congr' fun j => ?_
  rw [ready_slave, ← getLsbD_unmasked, Bool.not_eq_true]

theorem cascade_bit (hs : p.slave.isr = 0) :
    p.cascade.getLsbD k = true ↔ k = 2 ∧ ∃ j, p.Ready (8 + j) := by
  unfold cascade
  cases hreq : p.slave.request 0 with
  | none =>
    rw [slave_request_none hs] at hreq
    simp [hreq]
  | some j =>
    rw [slave_request hs] at hreq
    have hex : ∃ j, p.Ready (8 + j) := ⟨j, hreq.1⟩
    rw [Option.isSome_some, if_pos rfl, BitVec.getLsbD_twoPow]
    simp [hex, eq_comm]

theorem master_bit (hs : p.slave.isr = 0) (hmasked : p.masked 2 = false) :
    ((p.master.irr ||| p.cascade) &&& ~~~p.master.imr).getLsbD k = true ↔
      k < 8 ∧ p.Ready k ∨ k = 2 ∧ ∃ j, p.Ready (8 + j) := by
  rw [getLsbD_unmasked, BitVec.getLsbD_or, Bool.or_eq_true, cascade_bit hs]
  constructor
  · rintro ⟨hirr | hslave, himr⟩
    · have hk := BitVec.lt_of_getLsbD hirr
      exact .inl ⟨hk, (ready_master hk).2 ⟨hirr, himr⟩⟩
    · exact .inr hslave
  · rintro (⟨hk, hready⟩ | ⟨rfl, hslave⟩)
    · rw [ready_master hk] at hready
      exact ⟨.inl hready.1, hready.2⟩
    · exact ⟨.inr ⟨rfl, hslave⟩, hmasked⟩

theorem Ready.lt (h : p.Ready n) : n < 16 := by
  rcases Nat.lt_or_ge n 8 with hn | hn
  · omega
  · obtain ⟨k, rfl⟩ := Nat.exists_eq_add_of_le hn
    have hk := BitVec.lt_of_getLsbD (ready_slave.1 h).1
    omega

/-- The master passes on its own input `k`, which none above the cascade and none of the slave
precedes. -/
theorem first_master (hbit : ∀ k, ((p.master.irr ||| p.cascade) &&& ~~~p.master.imr).getLsbD k = true ↔
      k < 8 ∧ p.Ready k ∨ k = 2 ∧ ∃ j, p.Ready (8 + j)) (hk : p.Ready k) (hlt : k < 8)
    (hleast : ∀ j < k, ((p.master.irr ||| p.cascade) &&& ~~~p.master.imr).getLsbD j = false)
    (hne : k ≠ 2) : p.First k := by
  refine ⟨hk, fun m hm => ?_⟩
  have hno : ∀ j < k, ¬ (j < 8 ∧ p.Ready j ∨ j = 2 ∧ ∃ i, p.Ready (8 + i)) := fun j hj => by
    rw [← hbit, hleast j hj]
    exact Bool.false_ne_true
  have hlt' := hm.lt
  rcases Nat.lt_or_ge m 8 with hm8 | hm8
  · have hkm : k ≤ m := Nat.le_of_not_lt fun h => hno m h (.inl ⟨hm8, hm⟩)
    unfold rank
    grind
  · obtain ⟨i, rfl⟩ := Nat.exists_eq_add_of_le hm8
    have hk2 : k ≤ 2 := Nat.le_of_not_lt fun h => hno 2 h (.inr ⟨rfl, i, hm⟩)
    unfold rank
    grind

theorem first_slave (hbit : ∀ k, ((p.master.irr ||| p.cascade) &&& ~~~p.master.imr).getLsbD k = true ↔
      k < 8 ∧ p.Ready k ∨ k = 2 ∧ ∃ j, p.Ready (8 + j)) (hk : p.Ready (8 + k))
    (hmaster : ∀ j < 2, ((p.master.irr ||| p.cascade) &&& ~~~p.master.imr).getLsbD j = false)
    (hslave : ∀ j < k, ¬ p.Ready (8 + j)) (hready₂ : ¬ p.Ready 2) : p.First (8 + k) := by
  refine ⟨hk, fun m hm => ?_⟩
  have hlt := hk.lt
  have hlt' := hm.lt
  rcases Nat.lt_or_ge m 8 with hm8 | hm8
  · have hm2 : 2 ≤ m := Nat.le_of_not_lt fun h => by
      have hset := (hbit m).2 (.inl ⟨hm8, hm⟩)
      rw [hmaster m h] at hset
      cases hset
    have hne : m ≠ 2 := fun h => hready₂ (h ▸ hm)
    unfold rank
    grind
  · obtain ⟨i, rfl⟩ := Nat.exists_eq_add_of_le hm8
    have hki : k ≤ i := Nat.le_of_not_lt fun h => hslave i h hm
    unfold rank
    grind

/-- With nothing in service the processor is interrupted for the first line that is ready. -/
theorem line_eq_some (hm : p.master.isr = 0) (hs : p.slave.isr = 0) (hw : p.wired = true)
    (hpending : p.pending 2 = false) (hmasked : p.masked 2 = false) :
    p.line = some n ↔ p.First n := by
  have hbit := fun k => master_bit (k := k) hs hmasked
  have hready₂ : ¬ p.Ready 2 := fun h => by rw [h.1] at hpending; cases hpending
  have hmaster : p.master.request p.cascade =
      highest ((p.master.irr ||| p.cascade) &&& ~~~p.master.imr) 0 := by rw [← hm]; rfl
  have hsome : ∀ n, p.line = some n → p.First n := by
    intro n hn
    unfold line at hn
    rw [hmaster, hw] at hn
    split at hn
    · rename_i hreq
      rw [highest_eq_some] at hreq
      rw [if_pos rfl, Option.map_eq_some_iff] at hn
      obtain ⟨j, hj, rfl⟩ := hn
      rw [slave_request hs] at hj
      exact first_slave hbit hj.1 hreq.2 hj.2 hready₂
    · rename_i hne
      rw [highest_eq_some] at hn
      have hne₂ : n ≠ 2 := fun h => hne (h ▸ highest_eq_some.2 hn)
      rcases (hbit n).1 hn.1 with ⟨hlt, hready⟩ | ⟨h, -⟩
      · exact first_master hbit hready hlt hn.2 hne₂
      · exact absurd h hne₂
  have hnone : p.line = none → ∀ n, ¬ p.Ready n := by
    intro hn m hready
    unfold line at hn
    rw [hmaster, hw] at hn
    split at hn
    · rename_i hreq
      rw [if_pos rfl, Option.map_eq_none_iff, slave_request_none hs] at hn
      rcases (hbit 2).1 (highest_eq_some.1 hreq).1 with ⟨-, h⟩ | ⟨-, j, h⟩
      · exact hready₂ h
      · exact hn j h
    · rw [highest_eq_none] at hn
      have hno : ∀ k, ¬ (k < 8 ∧ p.Ready k ∨ k = 2 ∧ ∃ j, p.Ready (8 + j)) := fun k => by
        rw [← hbit, hn]
        exact Bool.false_ne_true
      rcases Nat.lt_or_ge m 8 with hm8 | hm8
      · exact hno m (.inl ⟨hm8, hready⟩)
      · obtain ⟨i, rfl⟩ := Nat.exists_eq_add_of_le hm8
        exact hno 2 (.inr ⟨rfl, i, hready⟩)
  refine ⟨hsome n, fun hfirst => ?_⟩
  cases hline : p.line with
  | none => exact absurd hfirst.1 (hnone hline n)
  | some m => rw [(hsome m hline).unique hfirst]

/-! ## Requests and acknowledge cycles -/

theorem pending_low (hk : k < 8) : p.pending k = p.master.irr.getLsbD k := if_pos hk

theorem pending_high : p.pending (8 + k) = p.slave.irr.getLsbD k := by
  unfold pending
  rw [if_neg (by omega), Nat.add_sub_cancel_left]

theorem masked_low (hk : k < 8) : p.masked k = p.master.imr.getLsbD k := if_pos hk

theorem masked_high : p.masked (8 + k) = p.slave.imr.getLsbD k := by
  unfold masked
  rw [if_neg (by omega), Nat.add_sub_cancel_left]

theorem raise_low (hn : n < 8) : p.raise n = { p with master := p.master.raise n } := if_pos hn

theorem raise_high : p.raise (8 + n) = { p with slave := p.slave.raise n } := by
  unfold raise
  rw [if_neg (by omega), Nat.add_sub_cancel_left]

theorem ack_low (hn : n < 8) : p.ack n = { p with master := p.master.accept n } := if_pos hn

theorem ack_high : p.ack (8 + n) = ⟨p.master.accept 2, p.slave.accept n⟩ := by
  unfold ack
  rw [if_neg (by omega), Nat.add_sub_cancel_left]

/-- Two line-wise functions that agree on both controllers. -/
theorem funext_lines {f g : ℕ → Bool} (hlow : ∀ k < 8, (f k = true ↔ g k = true))
    (hhigh : ∀ k, f (8 + k) = true ↔ g (8 + k) = true) : f = g := by
  funext m
  rw [Bool.eq_iff_iff]
  rcases Nat.lt_or_ge m 8 with hm | hm
  · exact hlow m hm
  · obtain ⟨k, rfl⟩ := Nat.exists_eq_add_of_le hm
    exact hhigh k

theorem update_true {f : ℕ → Bool} : Function.update f n true m = true ↔ m = n ∨ f m = true := by
  rw [Function.update_apply]
  split <;> simp_all

theorem update_false {f : ℕ → Bool} : Function.update f n false m = true ↔ f m = true ∧ m ≠ n := by
  rw [Function.update_apply]
  split <;> simp_all

theorem raise_pending (hn : n < 16) : (p.raise n).pending = Function.update p.pending n true := by
  rcases Nat.lt_or_ge n 8 with hn8 | hn8
  · refine funext_lines (fun k hk => ?_) fun k => ?_
    · rw [raise_low hn8, update_true, pending_low hk, pending_low hk]
      exact getLsbD_raised hn8
    · rw [raise_low hn8, update_true, pending_high, pending_high]
      exact (or_iff_right (by omega)).symm
  · obtain ⟨i, rfl⟩ := Nat.exists_eq_add_of_le hn8
    refine funext_lines (fun k hk => ?_) fun k => ?_
    · rw [raise_high, update_true, pending_low hk, pending_low hk]
      exact (or_iff_right (by omega)).symm
    · rw [raise_high, update_true, pending_high, pending_high, Nat.add_left_cancel_iff]
      exact getLsbD_raised (by omega)

theorem ack_pending (hpending : p.pending 2 = false) :
    (p.ack n).pending = Function.update p.pending n false := by
  rcases Nat.lt_or_ge n 8 with hn8 | hn8
  · refine funext_lines (fun k hk => ?_) fun k => ?_
    · rw [ack_low hn8, update_false, pending_low hk, pending_low hk]
      exact getLsbD_cleared
    · rw [ack_low hn8, update_false, pending_high, pending_high]
      exact (and_iff_left (by omega)).symm
  · obtain ⟨i, rfl⟩ := Nat.exists_eq_add_of_le hn8
    refine funext_lines (fun k hk => ?_) fun k => ?_
    · rw [ack_high, update_false, pending_low hk, pending_low hk]
      refine getLsbD_cleared.trans (and_congr_right fun hbit => ?_)
      refine iff_of_true ?_ (by omega)
      rintro rfl
      exact Bool.false_ne_true (hpending.symm.trans hbit)
    · rw [ack_high, update_false, pending_high, pending_high, Ne, Nat.add_left_cancel_iff]
      exact getLsbD_cleared

@[simp]
theorem raise_masked : (p.raise n).masked = p.masked := by
  unfold raise
  split <;> rfl

@[simp]
theorem ack_masked : (p.ack n).masked = p.masked := by
  unfold ack
  split <;> rfl

end Pair

end I8259

end Lib
