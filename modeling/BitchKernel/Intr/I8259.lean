import BitchKernel.Lib.I8259
import BitchKernel.Lib.Machine
import Mathlib.Tactic.Tauto

/-!
# Interrupt requests

`driver/i8259.c`: `init_8259A` programs the controllers, `reg_irq_handler` lets a line through, and
`irq_handler` ends the interrupt at the controllers before it calls the handler of the line. The
code runs one port write at a time, with requests coming at any point and interrupts whenever they
are on. Seen from outside there are sixteen lines, each of which waits, is taken when its turn has
come, and gets its handler called.
-/

namespace BitchKernel

open Lib I8259

def mIntVector : ℕ := 0x20

def sIntVector : ℕ := 0x28

/-- What `driver/i8259.c` does, one action at a time, with handlers in `H`. -/
inductive IrqAct (H : Type)
  | outb (value : BitVec 8) (port : ℕ)
  /-- Both masks to `0xff`, and `NULL` for every handler. -/
  | clear
  /-- The stores of `reg_irq_handler`. -/
  | setHandler (n : ℕ) (handler : Option H)
  /-- `outb` of the mask that has the line `n`. -/
  | outMask (n : ℕ)
  | enableIntr
  | call (n : ℕ)

inductive IrqEvent (H : Type)
  | raised (n : ℕ)
  | called (n : ℕ) (handler : H)

variable {H : Type}

def irqHandler (intCode : ℕ) : List (IrqAct H) :=
  .outb 0x20 0x20 ::
    if intCode < sIntVector then [.call (intCode - mIntVector)]
    else [.outb 0x20 0xa0, .call (intCode - sIntVector + 8)]

def regIrqHandler (n : ℕ) (handler : Option H) : List (IrqAct H) :=
  if n < 16 then [.setHandler n handler, .outMask n] else []

def init8259A : List (IrqAct H) :=
  [.clear,
   .outb 0x11 0x20, .outb 0x11 0xa0,
   .outb 0x20 0x21, .outb 0x28 0xa1,
   .outb 0x04 0x21, .outb 0x02 0xa1,
   .outb 0x01 0x21, .outb 0x01 0xa1,
   .outMask 0, .outMask 8] ++ regIrqHandler 2 none

structure IrqState (H : Type) where
  pic : Pair
  masterIntMask : BitVec 8
  slaveIntMask : BitVec 8
  irqHandlerList : ℕ → Option H
  enabled : Bool
  log : List (IrqEvent H)

namespace IrqState

def exec (s : IrqState H) : IrqAct H → IrqState H
  | .outb value port => { s with pic := s.pic.outb value port }
  | .clear =>
      { s with masterIntMask := 0xff, slaveIntMask := 0xff, irqHandlerList := fun _ => none }
  | .setHandler n handler =>
    { s with
      irqHandlerList := Function.update s.irqHandlerList n handler
      masterIntMask := if n < 8 then s.masterIntMask &&& ~~~BitVec.twoPow 8 n else s.masterIntMask
      slaveIntMask :=
        if n < 8 then s.slaveIntMask else s.slaveIntMask &&& ~~~BitVec.twoPow 8 (n - 8) }
  | .outMask n =>
    { s with
      pic := if n < 8 then s.pic.outb s.masterIntMask 0x21 else s.pic.outb s.slaveIntMask 0xa1 }
  | .enableIntr => { s with enabled := true }
  | .call n => { s with log := s.log ++ (s.irqHandlerList n).toList.map (.called n) }

end IrqState

/-- The controllers, with what is left of the code that runs: `boot` outside interrupts, `head` in
`irq_handler`. -/
structure IrqRun (H : Type) extends IrqState H where
  boot : List (IrqAct H)
  head : List (IrqAct H)

inductive IrqOp (H : Type)
  | raise (n : ℕ)
  | boot
  | register (n : ℕ) (handler : Option H)
  | ack (n : ℕ)
  | int (n : ℕ)
  | head

inductive IrqStep : IrqRun H → IrqOp H → IrqRun H → Prop
  /-- A device requests an interrupt; it does not take the request back. -/
  | raise {s : IrqRun H} {n : ℕ} (hn : n < 16) (hne : n ≠ 2) :
      IrqStep s (.raise n)
        { s with toIrqState := { s.toIrqState with pic := s.pic.raise n, log := s.log ++ [.raised n] } }
  | boot {s : IrqRun H} {a : IrqAct H} {rest : List (IrqAct H)} (hhead : s.head = [])
      (hboot : s.boot = a :: rest) :
      IrqStep s .boot { s with toIrqState := s.exec a, boot := rest }
  | register {s : IrqRun H} {n : ℕ} {handler : Option H} (hhead : s.head = []) (hboot : s.boot = []) :
      IrqStep s (.register n handler) { s with boot := regIrqHandler n handler }
  | ack {s : IrqRun H} {n : ℕ} (hon : s.enabled = true) (hhead : s.head = [])
      (hline : s.pic.line = some n) :
      IrqStep s (.ack n)
        { s with
          toIrqState := { s.toIrqState with pic := s.pic.ack n }
          head := irqHandler (s.pic.vector n).toNat }
  /-- The instruction `int` with the vector of the line `n`. -/
  | int {s : IrqRun H} {n : ℕ} (hon : s.enabled = true) (hhead : s.head = []) (hn : n < 16) :
      IrqStep s (.int n) { s with head := irqHandler (mIntVector + n) }
  | head {s : IrqRun H} {a : IrqAct H} {rest : List (IrqAct H)} (hhead : s.head = a :: rest) :
      IrqStep s .head { s with toIrqState := s.exec a, head := rest }

/-- From the first instruction of `init_8259A` up to `enable_intr`, and on. -/
def irqMachine (H : Type) : Machine (IrqRun H) (IrqOp H) where
  init s := s.boot = init8259A ++ [.enableIntr] ∧ s.head = [] ∧ s.enabled = false ∧ s.log = []
  step := IrqStep

/-! ## The lines seen from outside -/

structure IrqLines (H : Type) where
  pending : ℕ → Bool
  masked : ℕ → Bool
  /-- The handler of a line that was registered. -/
  handler : ℕ → Option (Option H)
  serving : Option ℕ
  log : List (IrqEvent H)

namespace IrqLines

def Ready (s : IrqLines H) (n : ℕ) : Prop := s.pending n = true ∧ s.masked n = false

def First (s : IrqLines H) (n : ℕ) : Prop :=
  s.Ready n ∧ ∀ m, s.Ready m → Pair.rank n ≤ Pair.rank m

end IrqLines

inductive LinesOp (H : Type)
  | raise (n : ℕ)
  | register (n : ℕ) (handler : Option H)
  | unmask (n : ℕ)
  | take (n : ℕ)
  | int (n : ℕ)
  | call

inductive LinesStep : IrqLines H → LinesOp H → IrqLines H → Prop
  | raise {s : IrqLines H} {n : ℕ} (hn : n < 16) (hne : n ≠ 2) :
      LinesStep s (.raise n)
        { s with pending := Function.update s.pending n true, log := s.log ++ [.raised n] }
  | register {s : IrqLines H} {n : ℕ} {handler : Option H} (hserving : s.serving = none) :
      LinesStep s (.register n handler)
        { s with handler := Function.update s.handler n (some handler) }
  | unmask {s : IrqLines H} {n : ℕ} (hhandler : (s.handler n).isSome) :
      LinesStep s (.unmask n) { s with masked := Function.update s.masked n false }
  | take {s : IrqLines H} {n : ℕ} (hserving : s.serving = none) (hfirst : s.First n) :
      LinesStep s (.take n)
        { s with pending := Function.update s.pending n false, serving := some n }
  | int {s : IrqLines H} {n : ℕ} (hserving : s.serving = none) (hn : n < 16) :
      LinesStep s (.int n) { s with serving := some n }
  | call {s : IrqLines H} {n : ℕ} (hserving : s.serving = some n) :
      LinesStep s .call
        { s with
          serving := none
          log := s.log ++ ((s.handler n).getD none).toList.map (.called n) }

/-- At first only the line of the slave is registered, with no handler. -/
def irqLines (H : Type) : Machine (IrqLines H) (LinesOp H) where
  init s := s.pending 2 = false ∧ (∀ n, s.masked n = decide (n < 16 ∧ n ≠ 2)) ∧
    (∀ n, s.handler n = if n < 16 ∧ n ≠ 2 then none else some none) ∧ s.serving = none ∧
    ∀ e ∈ s.log, ∃ n, e = .raised n
  step := LinesStep

def IrqAct.line : IrqAct H → Option ℕ
  | .call n => some n
  | _ => none

namespace IrqRun

variable {s s' : IrqRun H} {op : IrqOp H} {a : IrqAct H} {rest : List (IrqAct H)} {n m : ℕ}

/-- `reg_irq_handler` has cleared the bit of the line in its mask. -/
def registered (s : IrqRun H) (n : ℕ) : Bool :=
  !if n < 8 then s.masterIntMask.getLsbD n else s.slaveIntMask.getLsbD (n - 8)

def lines (s : IrqRun H) : IrqLines H where
  pending := s.pic.pending
  masked := s.pic.masked
  handler n := if s.registered n then some (s.irqHandlerList n) else none
  serving := s.head.findSome? IrqAct.line
  log := s.log

/-- What is left of `irq_handler` ends what is in service. -/
inductive Ends : List (IrqAct H) → BitVec 8 → BitVec 8 → Prop
  | nil : Ends [] 0 0
  | call {n : ℕ} : Ends [.call n] 0 0
  | slave {n : ℕ} {isr : BitVec 8} (hisr : isr &&& (isr - 1) = 0) :
      Ends [.outb 0x20 0xa0, .call n] 0 isr
  | low {n : ℕ} {isr : BitVec 8} (hisr : isr &&& (isr - 1) = 0) :
      Ends [.outb 0x20 0x20, .call n] isr 0
  | high {n : ℕ} {isr isr' : BitVec 8} (hisr : isr &&& (isr - 1) = 0)
      (hisr' : isr' &&& (isr' - 1) = 0) :
      Ends [.outb 0x20 0x20, .outb 0x20 0xa0, .call n] isr isr'

/-- The masks of the controllers are those of the driver, but for a line that is about to be let
through. -/
inductive Masks (masked registered : ℕ → Bool) : List (IrqAct H) → Prop
  | nil (h : ∀ m, masked m = !registered m) : Masks masked registered []
  | set {n : ℕ} {handler : Option H} (hn : n < 16) (h : ∀ m, masked m = !registered m) :
      Masks masked registered [.setHandler n handler, .outMask n]
  | out {n : ℕ} (hn : n < 16) (hregistered : registered n = true)
      (h : ∀ m, m ≠ n → masked m = !registered m) : Masks masked registered [.outMask n]

/-- The controllers work as `init_8259A` set them up. -/
structure Works (p : Pair) : Prop where
  masterData : p.master.expects = []
  slaveData : p.slave.expects = []
  masterBase : p.master.base = 0x20
  slaveBase : p.slave.base = 0x28
  wired : p.wired = true
  masterEoi : p.master.aeoi = false
  slaveEoi : p.slave.aeoi = false
  pending : p.pending 2 = false
  masked : p.masked 2 = false

structure On (s : IrqRun H) : Prop where
  works : Works s.pic
  ends : Ends s.head s.pic.master.isr s.pic.slave.isr
  masks : Masks s.pic.masked s.registered s.boot
  unset : ∀ n, s.registered n = false → s.irqHandlerList n = none

/-! ## Running lines -/

theorem irqHandler_low (hn : n < 8) :
    irqHandler (H := H) (mIntVector + n) = [.outb 0x20 0x20, .call n] := by
  unfold irqHandler mIntVector sIntVector
  rw [if_pos (by omega), Nat.add_sub_cancel_left]

theorem irqHandler_high : irqHandler (H := H) (mIntVector + (8 + n)) =
    [.outb 0x20 0x20, .outb 0x20 0xa0, .call (8 + n)] := by
  unfold irqHandler mIntVector sIntVector
  rw [if_neg (by omega), show 0x20 + (8 + n) - 0x28 + 8 = 8 + n by omega]

theorem irqHandler_line :
    (irqHandler (H := H) (mIntVector + n)).findSome? IrqAct.line = some n := by
  rcases Nat.lt_or_ge n 8 with hn | hn
  · rw [irqHandler_low hn]
    rfl
  · obtain ⟨i, rfl⟩ := Nat.exists_eq_add_of_le hn
    rw [irqHandler_high]
    rfl

theorem Works.vector (h : Works s.pic) (hn : n < 16) :
    (s.pic.vector n).toNat = mIntVector + n := by
  unfold Pair.vector mIntVector
  split
  · rw [h.masterBase, BitVec.toNat_add, BitVec.toNat_ofNat]
    change (0x20 + n % 256) % 256 = _
    omega
  · rw [h.slaveBase, BitVec.toNat_add, BitVec.toNat_ofNat]
    change (0x28 + (n - 8) % 256) % 256 = _
    omega

theorem ends_irqHandler {isr isr' : BitVec 8} (hisr : isr &&& (isr - 1) = 0)
    (hisr' : isr' &&& (isr' - 1) = 0) (hlow : n < 8 → isr' = 0) :
    Ends (irqHandler (H := H) (mIntVector + n)) isr isr' := by
  rcases Nat.lt_or_ge n 8 with hn | hn
  · rw [irqHandler_low hn, hlow hn]
    exact .low hisr
  · obtain ⟨i, rfl⟩ := Nat.exists_eq_add_of_le hn
    rw [irqHandler_high]
    exact .high hisr hisr'

theorem Works.raise {p : Pair} (h : Works p) (hn : n < 16) (hne : n ≠ 2) : Works (p.raise n) := by
  have hpending : (p.raise n).pending 2 = false := by
    rw [Pair.raise_pending hn, Function.update_of_ne hne.symm]
    exact h.pending
  have hmasked : (p.raise n).masked 2 = false := by
    rw [Pair.raise_masked]
    exact h.masked
  obtain ⟨h₁, h₂, h₃, h₄, h₅, h₆, h₇, -, -⟩ := h
  rcases Nat.lt_or_ge n 8 with hn8 | hn8
  · rw [Pair.raise_low hn8] at hpending hmasked ⊢
    exact ⟨h₁, h₂, h₃, h₄, h₅, h₆, h₇, hpending, hmasked⟩
  · obtain ⟨i, rfl⟩ := Nat.exists_eq_add_of_le hn8
    rw [Pair.raise_high] at hpending hmasked ⊢
    exact ⟨h₁, h₂, h₃, h₄, h₅, h₆, h₇, hpending, hmasked⟩

theorem Works.ack {p : Pair} (h : Works p) : Works (p.ack n) := by
  have hpending : (p.ack n).pending 2 = false := by
    rw [Pair.ack_pending h.pending, Function.update_apply]
    split
    · rfl
    · exact h.pending
  have hmasked : (p.ack n).masked 2 = false := by
    rw [Pair.ack_masked]
    exact h.masked
  obtain ⟨h₁, h₂, h₃, h₄, h₅, h₆, h₇, -, -⟩ := h
  rcases Nat.lt_or_ge n 8 with hn8 | hn8
  · rw [Pair.ack_low hn8] at hpending hmasked ⊢
    exact ⟨h₁, h₂, h₃, h₄, h₅, h₆, h₇, hpending, hmasked⟩
  · obtain ⟨i, rfl⟩ := Nat.exists_eq_add_of_le hn8
    rw [Pair.ack_high] at hpending hmasked ⊢
    exact ⟨h₁, h₂, h₃, h₄, h₅, h₆, h₇, hpending, hmasked⟩

theorem raise_isr (p : Pair) :
    (p.raise n).master.isr = p.master.isr ∧ (p.raise n).slave.isr = p.slave.isr := by
  unfold Pair.raise
  split <;> exact ⟨rfl, rfl⟩

/-- An acknowledge cycle puts one input of each controller in service at most. -/
theorem Works.ack_isr {p : Pair} (h : Works p) (hm : p.master.isr = 0) (hs : p.slave.isr = 0)
    (hn : n < 16) : (p.ack n).master.isr &&& ((p.ack n).master.isr - 1) = 0 ∧
      (p.ack n).slave.isr &&& ((p.ack n).slave.isr - 1) = 0 ∧ (n < 8 → (p.ack n).slave.isr = 0) := by
  have haccept : ∀ (c : Chip) (k : ℕ), c.aeoi = false → c.isr = 0 →
      (c.accept k).isr = BitVec.twoPow 8 k := by
    intro c k haeoi hisr
    unfold Chip.accept
    dsimp only
    rw [haeoi, hisr, if_neg Bool.false_ne_true]
    exact BitVec.zero_or
  rcases Nat.lt_or_ge n 8 with hn8 | hn8
  · rw [Pair.ack_low hn8, haccept _ _ h.masterEoi hm, hs]
    exact ⟨eoi_twoPow hn8, rfl, fun _ => rfl⟩
  · obtain ⟨i, rfl⟩ := Nat.exists_eq_add_of_le hn8
    rw [Pair.ack_high, haccept _ _ h.masterEoi hm, haccept _ _ h.slaveEoi hs]
    exact ⟨eoi_twoPow (by omega), eoi_twoPow (by omega), fun h => absurd h (by omega)⟩

theorem Works.line {p : Pair} (h : Works p) (hm : p.master.isr = 0) (hs : p.slave.isr = 0) :
    p.line = some n ↔ p.First n :=
  Pair.line_eq_some hm hs h.wired h.pending h.masked

theorem On.idle (h : On s) (hhead : s.head = []) :
    s.pic.master.isr = 0 ∧ s.pic.slave.isr = 0 := by
  have hends := h.ends
  rw [hhead] at hends
  generalize s.pic.master.isr = isr at hends ⊢
  generalize s.pic.slave.isr = isr' at hends ⊢
  cases hends
  exact ⟨rfl, rfl⟩

theorem Masks.congr {masked registered masked' registered' : ℕ → Bool} {boot : List (IrqAct H)}
    (h : Masks masked registered boot) (hmasked : masked' = masked)
    (hregistered : registered' = registered) : Masks masked' registered' boot := by
  rwa [hmasked, hregistered]

/-! ## One step -/

/-- The run goes on as the lines may, or the lines do not see the step. -/
def Follows (s s' : IrqRun H) : Prop := s'.lines = s.lines ∨ ∃ op, LinesStep s.lines op s'.lines

theorem On.raise (h : On s) (hn : n < 16) (hne : n ≠ 2) :
    On { s with toIrqState := { s.toIrqState with pic := s.pic.raise n, log := s.log ++ [.raised n] } } ∧
    Follows s
      { s with toIrqState := { s.toIrqState with pic := s.pic.raise n, log := s.log ++ [.raised n] } } := by
  constructor
  · refine ⟨h.works.raise hn hne, ?_, h.masks.congr Pair.raise_masked rfl, h.unset⟩
    dsimp only
    rw [(raise_isr s.pic).1, (raise_isr s.pic).2]
    exact h.ends
  · refine .inr ⟨.raise n, ?_⟩
    have hlines : lines { s with toIrqState :=
        { s.toIrqState with pic := s.pic.raise n, log := s.log ++ [.raised n] } } =
        { s.lines with
          pending := Function.update s.lines.pending n true
          log := s.lines.log ++ [.raised n] } := by
      unfold lines
      dsimp only
      rw [Pair.raise_pending hn, Pair.raise_masked]
      rfl
    rw [hlines]
    exact .raise hn hne

theorem registered_low {k : ℕ} (hk : k < 8) : s.registered k = !s.masterIntMask.getLsbD k := by
  unfold registered
  rw [if_pos hk]

theorem registered_high {k : ℕ} : s.registered (8 + k) = !s.slaveIntMask.getLsbD k := by
  unfold registered
  rw [if_neg (by omega), Nat.add_sub_cancel_left]

theorem not_cleared {x : BitVec 8} {k : ℕ} :
    (!(x &&& ~~~BitVec.twoPow 8 n).getLsbD k) = true ↔ k = n ∨ (!x.getLsbD k) = true := by
  rw [Bool.not_eq_true', Bool.not_eq_true', ← Bool.not_eq_true, ← Bool.not_eq_true, getLsbD_cleared]
  tauto

theorem registered_setHandler {handler : Option H} :
    registered { s with toIrqState := s.exec (.setHandler n handler) } =
      Function.update s.registered n true := by
  rcases Nat.lt_or_ge n 8 with hn8 | hn8
  · have hmaster : (s.exec (.setHandler n handler)).masterIntMask =
        s.masterIntMask &&& ~~~BitVec.twoPow 8 n := if_pos hn8
    have hslave : (s.exec (.setHandler n handler)).slaveIntMask = s.slaveIntMask := if_pos hn8
    refine Pair.funext_lines (fun k hk => ?_) fun k => ?_
    · rw [Pair.update_true, registered_low hk, registered_low hk, hmaster]
      exact not_cleared
    · rw [Pair.update_true, registered_high, registered_high, hslave]
      exact (or_iff_right (by omega)).symm
  · obtain ⟨i, rfl⟩ := Nat.exists_eq_add_of_le hn8
    have hnot : ¬ 8 + i < 8 := Nat.not_lt.2 (Nat.le_add_right 8 i)
    have hmaster : (s.exec (.setHandler (8 + i) handler)).masterIntMask = s.masterIntMask :=
      if_neg hnot
    have hslave : (s.exec (.setHandler (8 + i) handler)).slaveIntMask =
        s.slaveIntMask &&& ~~~BitVec.twoPow 8 i := by
      have hi : 8 + i - 8 = i := Nat.add_sub_cancel_left _ _
      refine (if_neg hnot).trans ?_
      rw [hi]
    refine Pair.funext_lines (fun k hk => ?_) fun k => ?_
    · rw [Pair.update_true, registered_low hk, registered_low hk, hmaster]
      exact (or_iff_right (by omega)).symm
    · rw [Pair.update_true, registered_high, registered_high, hslave, Nat.add_left_cancel_iff]
      exact not_cleared

theorem On.setHandler {handler : Option H} (h : On s) (hhead : s.head = []) (hn : n < 16)
    (hmasked : ∀ m, s.pic.masked m = !s.registered m) :
    On { s with toIrqState := s.exec (.setHandler n handler), boot := [.outMask n] } ∧
      Follows s { s with toIrqState := s.exec (.setHandler n handler), boot := [.outMask n] } := by
  have hregistered : registered
      { s with toIrqState := s.exec (.setHandler n handler), boot := [.outMask n] } =
      Function.update s.registered n true := registered_setHandler
  have hlist : (s.exec (.setHandler n handler)).irqHandlerList =
      Function.update s.irqHandlerList n handler := rfl
  constructor
  · refine ⟨h.works, h.ends, ?_, fun m hm => ?_⟩
    · rw [hregistered]
      refine .out hn (Function.update_self _ _ _) fun m hm => ?_
      rw [Function.update_of_ne hm]
      exact hmasked m
    · rw [hregistered, Function.update_apply] at hm
      split at hm
      · cases hm
      · rename_i hne
        exact (congrFun hlist m).trans ((Function.update_of_ne hne _ _).trans (h.unset m hm))
  · refine .inr ⟨.register n handler, ?_⟩
    have hlines : lines
        { s with toIrqState := s.exec (.setHandler n handler), boot := [.outMask n] } =
        { s.lines with handler := Function.update s.lines.handler n (some handler) } := by
      unfold lines
      rw [hregistered]
      congr 1
      funext m
      rw [Function.update_apply, Function.update_apply]
      split
      · rename_i heq
        rw [if_pos rfl, hlist, heq, Function.update_self]
      · rename_i hne
        rw [hlist, Function.update_of_ne hne]
    rw [hlines]
    refine .register ?_
    unfold lines
    rw [hhead]
    rfl

theorem outMask_pic (h : Works s.pic) : (s.exec (.outMask n)).pic =
    if n < 8 then { s.pic with master := { s.pic.master with imr := s.masterIntMask } }
    else { s.pic with slave := { s.pic.slave with imr := s.slaveIntMask } } := by
  have hdata : ∀ (c : Chip) (v : BitVec 8), c.expects = [] →
      c.writeData v = { c with imr := v } := by
    intro c v hc
    unfold Chip.writeData
    rw [hc]
  rw [← hdata _ _ h.masterData, ← hdata _ _ h.slaveData]
  rfl

theorem outMask_masked (h : Works s.pic) (hregistered : s.registered n = true)
    (hmasked : ∀ m, m ≠ n → s.pic.masked m = !s.registered m) :
    (s.exec (.outMask n)).pic.masked = Function.update s.pic.masked n false ∧
      ∀ m, (s.exec (.outMask n)).pic.masked m = !s.registered m := by
  have hall : ∀ m, (s.exec (.outMask n)).pic.masked m = !s.registered m := by
    intro m
    rw [outMask_pic h]
    rcases Nat.lt_or_ge m 8 with hm8 | hm8
    · rw [Pair.masked_low hm8]
      have hreg : (!s.registered m) = s.masterIntMask.getLsbD m := by
        rw [registered_low hm8, Bool.not_not]
      split
      · exact hreg.symm
      · rw [← hmasked m (by omega), Pair.masked_low hm8]
    · obtain ⟨k, rfl⟩ := Nat.exists_eq_add_of_le hm8
      rw [Pair.masked_high]
      have hreg : (!s.registered (8 + k)) = s.slaveIntMask.getLsbD k := by
        rw [registered_high, Bool.not_not]
      split
      · rw [← hmasked (8 + k) (by omega), Pair.masked_high]
      · exact hreg.symm
  refine ⟨?_, hall⟩
  funext m
  rw [Function.update_apply, hall]
  split
  · rename_i heq
    rw [heq, hregistered]
    rfl
  · rename_i hne
    exact (hmasked m hne).symm

theorem On.outMask (h : On s) (hregistered : s.registered n = true)
    (hmasked : ∀ m, m ≠ n → s.pic.masked m = !s.registered m) :
    On { s with toIrqState := s.exec (.outMask n), boot := [] } ∧
      Follows s { s with toIrqState := s.exec (.outMask n), boot := [] } := by
  obtain ⟨hupdate, hall⟩ := outMask_masked h.works hregistered hmasked
  have hpic := outMask_pic (n := n) h.works
  have hpending : (s.exec (.outMask n)).pic.pending = s.pic.pending := by
    rw [hpic]
    split <;> rfl
  have hends : Ends s.head (s.exec (.outMask n)).pic.master.isr
      (s.exec (.outMask n)).pic.slave.isr := by
    rw [hpic]
    split <;> exact h.ends
  constructor
  · refine ⟨?_, hends, .nil hall, h.unset⟩
    have hpending₂ : (s.exec (.outMask n)).pic.pending 2 = false := by
      rw [hpending]
      exact h.works.pending
    have hmasked₂ : (s.exec (.outMask n)).pic.masked 2 = false := by
      rw [hupdate, Function.update_apply]
      split
      · rfl
      · exact h.works.masked
    obtain ⟨h₁, h₂, h₃, h₄, h₅, h₆, h₇, -, -⟩ := h.works
    dsimp only
    rw [hpic] at hpending₂ hmasked₂ ⊢
    split
    · rename_i hn8
      rw [if_pos hn8] at hpending₂ hmasked₂
      exact ⟨h₁, h₂, h₃, h₄, h₅, h₆, h₇, hpending₂, hmasked₂⟩
    · rename_i hn8
      rw [if_neg hn8] at hpending₂ hmasked₂
      exact ⟨h₁, h₂, h₃, h₄, h₅, h₆, h₇, hpending₂, hmasked₂⟩
  · refine .inr ⟨.unmask n, ?_⟩
    have hlines : lines { s with toIrqState := s.exec (.outMask n), boot := [] } =
        { s.lines with masked := Function.update s.lines.masked n false } := by
      unfold lines
      dsimp only
      rw [hpending, hupdate]
      rfl
    rw [hlines]
    refine .unmask ?_
    unfold lines
    dsimp only
    rw [hregistered]
    rfl

theorem On.register {handler : Option H} (h : On s) (hboot : s.boot = []) :
    On { s with boot := regIrqHandler n handler } := by
  have hmasks := h.masks
  rw [hboot] at hmasks
  cases hmasks with
  | nil hmasked =>
    refine ⟨h.works, h.ends, ?_, h.unset⟩
    unfold regIrqHandler
    split
    · rename_i hn
      exact .set hn hmasked
    · exact .nil hmasked

theorem On.ack (h : On s) (hhead : s.head = []) (hline : s.pic.line = some n) :
    On { s with
      toIrqState := { s.toIrqState with pic := s.pic.ack n }
      head := irqHandler (s.pic.vector n).toNat } ∧
    Follows s { s with
      toIrqState := { s.toIrqState with pic := s.pic.ack n }
      head := irqHandler (s.pic.vector n).toNat } := by
  obtain ⟨hm, hs⟩ := h.idle hhead
  have hfirst := (h.works.line hm hs).1 hline
  have hn := hfirst.1.lt
  obtain ⟨hmaster, hslave, hlow⟩ := h.works.ack_isr hm hs hn
  rw [h.works.vector hn]
  constructor
  · exact ⟨h.works.ack, ends_irqHandler hmaster hslave hlow, h.masks.congr Pair.ack_masked rfl,
      h.unset⟩
  · refine .inr ⟨.take n, ?_⟩
    have hlines : lines { s with
        toIrqState := { s.toIrqState with pic := s.pic.ack n }
        head := irqHandler (mIntVector + n) } =
        { s.lines with
          pending := Function.update s.lines.pending n false
          serving := some n } := by
      unfold lines
      dsimp only
      rw [Pair.ack_pending h.works.pending, Pair.ack_masked, irqHandler_line]
      rfl
    rw [hlines]
    refine .take ?_ hfirst
    unfold lines
    rw [hhead]
    rfl

/-- An interrupt that the kernel raises itself finds nothing in service. -/
theorem On.int (h : On s) (hhead : s.head = []) (hn : n < 16) :
    On { s with head := irqHandler (mIntVector + n) } ∧
      Follows s { s with head := irqHandler (mIntVector + n) } := by
  obtain ⟨hm, hs⟩ := h.idle hhead
  constructor
  · refine ⟨h.works, ?_, h.masks, h.unset⟩
    dsimp only
    rw [hm, hs]
    exact ends_irqHandler rfl rfl fun _ => rfl
  · refine .inr ⟨.int n, ?_⟩
    have hlines : lines { s with head := irqHandler (mIntVector + n) } =
        { s.lines with serving := some n } := by
      unfold lines
      dsimp only
      rw [irqHandler_line]
      rfl
    rw [hlines]
    refine .int ?_ hn
    unfold lines
    rw [hhead]
    rfl

theorem On.called (h : On s) : ((s.lines.handler n).getD none) = s.irqHandlerList n := by
  unfold lines
  dsimp only
  cases hreg : s.registered n with
  | true => rfl
  | false => exact (h.unset n hreg).symm

theorem Works.eoi {p : Pair} (h : Works p) :
    Works (p.outb 0x20 0x20) ∧ Works (p.outb 0x20 0xa0) := by
  obtain ⟨h₁, h₂, h₃, h₄, h₅, h₆, h₇, h₈, h₉⟩ := h
  exact ⟨⟨h₁, h₂, h₃, h₄, h₅, h₆, h₇, h₈, h₉⟩, ⟨h₁, h₂, h₃, h₄, h₅, h₆, h₇, h₈, h₉⟩⟩

/-- The ends of interrupt leave nothing in service, and the call comes after them. -/
theorem On.head (h : On s) (hhead : s.head = a :: rest) :
    On { s with toIrqState := s.exec a, head := rest } ∧
      Follows s { s with toIrqState := s.exec a, head := rest } := by
  have hends := h.ends
  rw [hhead] at hends
  generalize hisr : s.pic.master.isr = isr at hends
  generalize hisr' : s.pic.slave.isr = isr' at hends
  cases hends with
  | call =>
    rename_i n
    constructor
    · refine ⟨h.works, ?_, h.masks, h.unset⟩
      change Ends [] s.pic.master.isr s.pic.slave.isr
      rw [hisr, hisr']
      exact .nil
    · refine .inr ⟨.call, ?_⟩
      have hlines : lines { s with toIrqState := s.exec (.call n), head := [] } =
          { s.lines with
            serving := none
            log := s.lines.log ++ ((s.lines.handler n).getD none).toList.map (.called n) } := by
        rw [h.called]
        rfl
      rw [hlines]
      refine .call ?_
      unfold lines
      rw [hhead]
      rfl
  | slave heoi =>
    rename_i n
    refine ⟨⟨h.works.eoi.2, ?_, h.masks, h.unset⟩, .inl ?_⟩
    · change Ends [.call n] s.pic.master.isr (s.pic.slave.isr &&& (s.pic.slave.isr - 1))
      rw [hisr, hisr', heoi]
      exact .call
    · unfold lines
      rw [hhead]
      rfl
  | low heoi =>
    rename_i n
    refine ⟨⟨h.works.eoi.1, ?_, h.masks, h.unset⟩, .inl ?_⟩
    · change Ends [.call n] (s.pic.master.isr &&& (s.pic.master.isr - 1)) s.pic.slave.isr
      rw [hisr, hisr', heoi]
      exact .call
    · unfold lines
      rw [hhead]
      rfl
  | high heoi heoi' =>
    rename_i n
    refine ⟨⟨h.works.eoi.1, ?_, h.masks, h.unset⟩, .inl ?_⟩
    · change Ends [.outb 0x20 0xa0, .call n] (s.pic.master.isr &&& (s.pic.master.isr - 1))
        s.pic.slave.isr
      rw [hisr, hisr', heoi]
      exact .slave heoi'
    · unfold lines
      rw [hhead]
      rfl

theorem On.boot (h : On s) (hhead : s.head = []) (hboot : s.boot = a :: rest) :
    On { s with toIrqState := s.exec a, boot := rest } ∧
      Follows s { s with toIrqState := s.exec a, boot := rest } := by
  have hmasks := h.masks
  rw [hboot] at hmasks
  generalize hmasked : s.pic.masked = masked at hmasks
  generalize hregistered : s.registered = registered at hmasks
  cases hmasks with
  | set hn hall =>
    subst hmasked hregistered
    exact h.setHandler hhead hn hall
  | out hn hreg hall =>
    subst hmasked hregistered
    exact h.outMask hreg hall

theorem On.step (h : On s) (hstep : IrqStep s op s') : On s' ∧ Follows s s' := by
  cases hstep with
  | raise hn hne => exact h.raise hn hne
  | boot hhead hboot => exact h.boot hhead hboot
  | register hhead hboot => exact ⟨h.register hboot, .inl rfl⟩
  | ack hon hhead hline => exact h.ack hhead hline
  | int hon hhead hn => exact h.int hhead hn
  | head hhead => exact h.head hhead

end IrqRun

/-! ## Before interrupts are on -/

namespace IrqState

variable {s t : IrqState H} {a : IrqAct H} {acts : List (IrqAct H)} {n : ℕ}

def calm (s : IrqState H) : IrqState H :=
  { s with
    pic := ⟨{ s.pic.master with irr := s.pic.master.irr &&& 4 },
      { s.pic.slave with irr := s.pic.slave.irr &&& 0 }⟩
    log := [] }

theorem calm_calm : s.calm.calm = s.calm := by
  unfold calm
  simp [BitVec.and_assoc]

theorem outb_calm (v : BitVec 8) (port : ℕ) :
    ({ s with pic := s.pic.outb v port } : IrqState H).calm =
      ({ s.calm with pic := s.calm.pic.outb v port } : IrqState H).calm := by
  unfold Pair.outb
  split
  · unfold calm
    dsimp only
    rw [Chip.writeCtl_requests]
    simp [BitVec.and_assoc]
  · unfold calm
    dsimp only
    rw [Chip.writeData_requests]
    simp [BitVec.and_assoc]
  · unfold calm
    dsimp only
    rw [Chip.writeCtl_requests]
    simp [BitVec.and_assoc]
  · unfold calm
    dsimp only
    rw [Chip.writeData_requests]
    simp [BitVec.and_assoc]
  · exact calm_calm.symm

theorem exec_calm : (s.exec a).calm = (s.calm.exec a).calm := by
  cases a with
  | outb value port => exact outb_calm value port
  | outMask n =>
    unfold exec
    dsimp only
    split
    · exact outb_calm _ _
    · exact outb_calm _ _
  | _ =>
    unfold exec calm
    simp [BitVec.and_assoc]

theorem foldl_calm : (acts.foldl exec s).calm = (acts.foldl exec s.calm).calm := by
  induction acts generalizing s with
  | nil => exact calm_calm.symm
  | cons a acts ih =>
    rw [List.foldl_cons, List.foldl_cons, ih, exec_calm, ← ih]

theorem raise_calm (hne : n ≠ 2) (l : List (IrqEvent H)) :
    ({ s with pic := s.pic.raise n, log := l } : IrqState H).calm = s.calm := by
  rcases Nat.lt_or_ge n 8 with hn8 | hn8
  · have hbit : (s.pic.master.irr ||| BitVec.twoPow 8 n) &&& 4 = s.pic.master.irr &&& 4 := by
      have hclear : ∀ n < 8, n ≠ 2 → BitVec.twoPow 8 n &&& 4 = 0 := by decide
      rw [BitVec.and_or_distrib_right, hclear n hn8 hne]
      exact BitVec.or_zero
    unfold calm
    rw [Pair.raise_low hn8]
    unfold Chip.raise
    dsimp only
    rw [hbit]
  · obtain ⟨i, rfl⟩ := Nat.exists_eq_add_of_le hn8
    unfold calm
    rw [Pair.raise_high]
    unfold Chip.raise
    simp

/-- What `init_8259A` leaves. -/
def prepared (H : Type) : IrqState H where
  pic := ⟨⟨[], 0x20, 0x04, false, 0xfb, 0, 0⟩, ⟨[], 0x28, 0x02, false, 0xff, 0, 0⟩⟩
  masterIntMask := 0xfb
  slaveIntMask := 0xff
  irqHandlerList := Function.update (fun _ => none) 2 none
  enabled := false
  log := []

theorem init8259A_calm (h : s.enabled = false) :
    (init8259A.foldl exec s).calm = prepared H := by
  have hmask : 255#8 &&& ~~~BitVec.twoPow 8 2 = 251#8 := by decide
  simp [calm, init8259A, regIrqHandler, exec, Pair.outb, Chip.writeCtl, Chip.writeData, prepared, h,
    hmask]

end IrqState

namespace IrqRun

variable {s s' : IrqRun H} {op : IrqOp H} {n : ℕ}

/-- In `init_8259A`, whatever the devices do meanwhile. -/
structure Booting (s : IrqRun H) : Prop where
  head : s.head = []
  enabled : s.enabled = false
  log : ∀ e ∈ s.log, ∃ n, e = .raised n
  boot : ∃ acts, s.boot = acts ++ [.enableIntr] ∧ (∀ a ∈ acts, a ≠ .enableIntr ∧ a.line = none) ∧
    (acts.foldl IrqState.exec s.toIrqState).calm = .prepared H

theorem exec_plain {t : IrqState H} {a : IrqAct H} (henable : a ≠ .enableIntr)
    (hline : a.line = none) :
    (t.exec a).enabled = t.enabled ∧ (t.exec a).log = t.log := by
  cases a with
  | enableIntr => exact absurd rfl henable
  | call n => cases hline
  | _ => exact ⟨rfl, rfl⟩

theorem exec_enabled {t : IrqState H} {a : IrqAct H} (h : t.enabled = true) :
    (t.exec a).enabled = true := by
  cases a with
  | enableIntr => rfl
  | _ => exact h

theorem mask_master : ∀ k < 8, (0xfb : BitVec 8).getLsbD k = decide (k ≠ 2) := by decide

theorem mask_slave {k : ℕ} : (0xff : BitVec 8).getLsbD k = decide (k < 8) :=
  BitVec.getLsbD_allOnes

theorem registered_prepared (hm : s.masterIntMask = 0xfb) (hs : s.slaveIntMask = 0xff) :
    s.registered n = !decide (n < 16 ∧ n ≠ 2) := by
  rcases Nat.lt_or_ge n 8 with hn8 | hn8
  · rw [registered_low hn8, hm, mask_master n hn8]
    simp [show n < 16 by omega]
  · obtain ⟨k, rfl⟩ := Nat.exists_eq_add_of_le hn8
    rw [registered_high, hs, mask_slave]
    congr 1
    rw [decide_eq_decide]
    omega

theorem masked_prepared {p : Pair} (hm : p.master.imr = 0xfb) (hs : p.slave.imr = 0xff) :
    p.masked n = decide (n < 16 ∧ n ≠ 2) := by
  rcases Nat.lt_or_ge n 8 with hn8 | hn8
  · rw [Pair.masked_low hn8, hm, mask_master n hn8, decide_eq_decide]
    omega
  · obtain ⟨k, rfl⟩ := Nat.exists_eq_add_of_le hn8
    rw [Pair.masked_high, hs, mask_slave, decide_eq_decide]
    omega

theorem Booting.on (h : Booting s) (hboot : s.boot = [.enableIntr]) :
    On { s with toIrqState := s.exec .enableIntr, boot := [] } ∧
      (irqLines H).init (lines { s with toIrqState := s.exec .enableIntr, boot := [] }) := by
  have hhead := h.head
  have hlog := h.log
  obtain ⟨acts, hacts, -, hcalm⟩ := h.boot
  have hnil : acts = [] := by
    rw [hboot] at hacts
    exact List.append_left_eq_self.1 hacts.symm
  subst hnil
  have hpic : s.calm.pic = (IrqState.prepared H).pic := congrArg IrqState.pic hcalm
  have hmaster : s.masterIntMask = 0xfb := congrArg IrqState.masterIntMask hcalm
  have hslave : s.slaveIntMask = 0xff := congrArg IrqState.slaveIntMask hcalm
  have hlist : s.irqHandlerList = fun _ => none := by
    have hlist : s.irqHandlerList = Function.update (fun _ => none) 2 none :=
      congrArg IrqState.irqHandlerList hcalm
    rw [hlist]
    exact Function.update_eq_self _ _
  have hm : ({ s.pic.master with irr := s.pic.master.irr &&& 4 } : Chip) =
      ⟨[], 0x20, 0x04, false, 0xfb, 0, 0⟩ := congrArg Pair.master hpic
  have hs : ({ s.pic.slave with irr := s.pic.slave.irr &&& 0 } : Chip) =
      ⟨[], 0x28, 0x02, false, 0xff, 0, 0⟩ := congrArg Pair.slave hpic
  obtain ⟨hm₁, hm₂, hm₃, hm₄, hm₅, hm₆, hm₇⟩ := Chip.mk.inj hm
  obtain ⟨hs₁, hs₂, hs₃, hs₄, hs₅, -, hs₇⟩ := Chip.mk.inj hs
  have hpending : s.pic.pending 2 = false := by
    have hbit := congrArg (BitVec.getLsbD · 2) hm₆
    rw [Pair.pending_low (by omega)]
    simpa using hbit
  have hwired : s.pic.wired = true := by
    unfold Pair.wired
    rw [hm₃, hs₃]
    decide
  have hmasked := fun n => masked_prepared (n := n) hm₅ hs₅
  have hregistered := fun n => registered_prepared (n := n) hmaster hslave
  have hworks : Works s.pic :=
    ⟨hm₁, hs₁, hm₂, hs₂, hwired, hm₄, hs₄, hpending, (hmasked 2).trans (by decide)⟩
  refine ⟨⟨hworks, ?_, .nil fun m => ?_, fun n _ => congrFun hlist n⟩, hpending, hmasked, fun n => ?_,
    ?_, hlog⟩
  · change Ends s.head s.pic.master.isr s.pic.slave.isr
    rw [hhead, hm₇, hs₇]
    exact .nil
  · change s.pic.masked m = !s.registered m
    rw [hmasked, hregistered, Bool.not_not]
  · change (if s.registered n then some (s.irqHandlerList n) else none) = _
    rw [hregistered, hlist]
    by_cases hn : n < 16 ∧ n ≠ 2
    · rw [if_pos hn, decide_eq_true hn]
      rfl
    · rw [if_neg hn, decide_eq_false hn]
      rfl
  · unfold lines
    rw [hhead]
    rfl

theorem Booting.boot_step (h : Booting s) {a : IrqAct H} {rest : List (IrqAct H)}
    (hboot : s.boot = a :: rest) :
    Booting { s with toIrqState := s.exec a, boot := rest } ∨ a = .enableIntr ∧ rest = [] := by
  obtain ⟨acts, hacts, hplain, hcalm⟩ := h.boot
  rw [hboot] at hacts
  cases acts with
  | nil => exact .inr (List.cons.inj hacts)
  | cons b acts =>
    obtain ⟨rfl, hrest⟩ := List.cons.inj hacts
    obtain ⟨henable, hline⟩ := hplain a (List.mem_cons_self ..)
    obtain ⟨henabled, hlog⟩ := exec_plain (t := s.toIrqState) henable hline
    refine .inl ⟨h.head, henabled.trans h.enabled, ?_, acts, hrest,
      fun b hb => hplain b (List.mem_cons_of_mem _ hb), hcalm⟩
    intro e he
    exact h.log e (hlog ▸ he)

theorem Booting.raise (h : Booting s) (hne : n ≠ 2) : Booting { s with
    toIrqState := { s.toIrqState with pic := s.pic.raise n, log := s.log ++ [.raised n] } } := by
  obtain ⟨acts, hacts, hplain, hcalm⟩ := h.boot
  refine ⟨h.head, h.enabled, fun e he => ?_, acts, hacts, hplain, ?_⟩
  · rcases List.mem_append.1 he with he | he
    · exact h.log e he
    · exact ⟨n, List.mem_singleton.1 he⟩
  · dsimp only
    rw [IrqState.foldl_calm, IrqState.raise_calm hne, ← IrqState.foldl_calm]
    exact hcalm

theorem Booting.init (hs : (irqMachine H).init s) : Booting s := by
  obtain ⟨hboot, hhead, henabled, hlog⟩ := hs
  refine ⟨hhead, henabled, fun e he => ?_, init8259A, hboot, ?_, IrqState.init8259A_calm henabled⟩
  · rw [hlog] at he
    cases he
  · simp [init8259A, regIrqHandler, IrqAct.line]

theorem booting_or_on (hs : (irqMachine H).Reachable s) :
    Booting s ∨ s.enabled = true ∧ On s ∧ (irqLines H).Reachable s.lines := by
  refine hs.invariant
    (I := fun s => Booting s ∨ s.enabled = true ∧ On s ∧ (irqLines H).Reachable s.lines)
    (fun s hinit => .inl (.init hinit)) fun s op s' h hstep => ?_
  rcases h with h | ⟨henabled, hon, hlines⟩
  · cases hstep with
    | raise hn hne => exact .inl (h.raise hne)
    | boot hhead hboot =>
      rcases h.boot_step hboot with h' | ⟨rfl, rfl⟩
      · exact .inl h'
      · obtain ⟨hon, hinit⟩ := h.on hboot
        exact .inr ⟨rfl, hon, .init hinit⟩
    | register hhead hboot =>
      obtain ⟨acts, hacts, -⟩ := h.boot
      rw [hboot] at hacts
      simp at hacts
    | ack hon =>
      rw [h.enabled] at hon
      cases hon
    | int hon =>
      rw [h.enabled] at hon
      cases hon
    | head hhead =>
      rw [h.head] at hhead
      cases hhead
  · obtain ⟨hon', hfollows⟩ := hon.step hstep
    refine .inr ⟨?_, hon', ?_⟩
    · cases hstep with
      | boot => exact exec_enabled henabled
      | head => exact exec_enabled henabled
      | _ => exact henabled
    · rcases hfollows with hsame | ⟨op', hstep'⟩
      · exact hsame ▸ hlines
      · exact hlines.step hstep'

end IrqRun

open IrqRun in
/-- **The lines are served in turn.** Whatever state the controllers are in before, and whenever
requests come, once interrupts are on a run shows what the sixteen lines may show: a request waits
until its turn comes among the lines that are let through, and then the handler that is registered
for its line is called, one line at a time. When no `irq_handler` is between its first write and its
call, nothing is in service, so the processor is interrupted for the first line that is ready. -/
theorem irq_lines_served {s : IrqRun H} (hs : (irqMachine H).Reachable s) (hon : s.enabled = true) :
    (irqLines H).Reachable s.lines ∧
      (s.head = [] → s.pic.master.isr = 0 ∧ s.pic.slave.isr = 0 ∧
        ∀ n, s.pic.line = some n ↔ s.lines.First n) := by
  rcases booting_or_on hs with h | ⟨-, h, hlines⟩
  · rw [h.enabled] at hon
    cases hon
  · refine ⟨hlines, fun hhead => ?_⟩
    obtain ⟨hm, hs⟩ := h.idle hhead
    exact ⟨hm, hs, fun n => h.works.line hm hs⟩

theorem boot_reachable {s : IrqRun H} (hs : (irqMachine H).Reachable s) (hhead : s.head = []) :
    (irqMachine H).Reachable
      { s with toIrqState := s.boot.foldl IrqState.exec s.toIrqState, boot := [] } := by
  obtain ⟨t, boot, head⟩ := s
  dsimp only at *
  induction boot generalizing t with
  | nil => exact hs
  | cons a boot ih => exact ih (t.exec a) (hs.step (.boot hhead rfl))

theorem register_reachable {s : IrqRun H} (hs : (irqMachine H).Reachable s) (hhead : s.head = [])
    (hboot : s.boot = []) (n : ℕ) (handler : Option H) : (irqMachine H).Reachable
      { s with
        toIrqState := (regIrqHandler n handler).foldl IrqState.exec s.toIrqState, boot := [] } :=
  boot_reachable (hs.step (.register hhead hboot)) hhead

/-- The controllers before `init_8259A`. -/
def beforeInit : IrqRun ℕ :=
  ⟨⟨⟨⟨[], 0, 0, false, 0, 0, 0⟩, ⟨[], 0, 0, false, 0, 0, 0⟩⟩, 0, 0, fun _ => none, false, []⟩,
    init8259A ++ [.enableIntr], []⟩

/-- With handlers for lines 1 and 14, line 1 comes first when both requests are there. -/
theorem irq_lines_served_two : ∃ s : IrqRun ℕ, (irqLines ℕ).Reachable s.lines ∧
    s.log = [.raised 14, .raised 1, .called 1 60, .called 14 494] := by
  have hinit : (irqMachine ℕ).Reachable beforeInit := .init ⟨rfl, rfl, rfl, rfl⟩
  have hs := register_reachable (register_reachable (boot_reachable hinit rfl) rfl rfl 1 (some 60))
    rfl rfl 14 (some 494)
  have h₁ := hs.step (.raise (n := 14) (by decide) (by decide))
  have h₂ := h₁.step (.raise (n := 1) (by decide) (by decide))
  have h₃ := h₂.step (.ack (n := 1) rfl rfl (by decide))
  have h₄ := (h₃.step (.head rfl)).step (.head rfl)
  have h₅ := h₄.step (.ack (n := 14) rfl rfl (by decide))
  have h₆ := ((h₅.step (.head rfl)).step (.head rfl)).step (.head rfl)
  exact ⟨_, (irq_lines_served h₆ rfl).1, rfl⟩

end BitchKernel
