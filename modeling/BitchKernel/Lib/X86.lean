import Mathlib.Algebra.Group.Nat.Defs
import Mathlib.Data.Nat.Notation
import Mathlib.Logic.Function.Basic

/-!
# A processor with a stack

The instructions of the i386 that move words between registers, segment registers, the flags and
a stack in memory, with calls of code that is not given, returns from interrupts and the delivery
of interrupts. Memory is a map from the addresses of double words. `Holds` says which words lie on
the stack from an address on, whatever the address is, so that a push and a pop are a cons and its
inverse.
-/

namespace Lib

namespace X86

abbrev Dword := BitVec 32

abbrev Selector := BitVec 16

inductive Reg
  | eax | ecx | edx | ebx | esp | ebp | esi | edi
deriving DecidableEq

inductive Seg
  | cs | ss | ds | es | fs | gs
deriving DecidableEq

structure Cpu where
  reg : Reg → Dword
  seg : Seg → Selector
  eflags : Dword
  eip : Dword
  mem : Dword → Dword

def flagIf : Dword := 0x200

/-- The privilege level a selector asks for. -/
def Selector.rpl (s : Selector) : BitVec 2 := s.setWidth 2

inductive Operand
  | reg (r : Reg)
  | imm (v : Dword)
  | at (disp : Dword) (base : Reg)

inductive Instr
  | movl (src dst : Operand)
  | movwImm (s : Selector) (r : Reg)
  | movwFrom (s : Seg) (r : Reg)
  | movwTo (r : Reg) (s : Seg)
  | addl (v : Dword) (r : Reg)
  | orl (v : Dword) (r : Reg)
  | pushl (src : Operand)
  | popl (r : Reg)
  | pusha
  | popa
  | pushf
  | popf
  | cli
  | ret
  | iret

namespace Cpu

def setReg (c : Cpu) (r : Reg) (v : Dword) : Cpu := { c with reg := Function.update c.reg r v }

def setSeg (c : Cpu) (s : Seg) (v : Selector) : Cpu := { c with seg := Function.update c.seg s v }

def setMem (c : Cpu) (a v : Dword) : Cpu := { c with mem := Function.update c.mem a v }

def esp (c : Cpu) : Dword := c.reg .esp

def top (c : Cpu) : Dword := c.mem c.esp

def push (v : Dword) (c : Cpu) : Cpu := (c.setMem (c.esp - 4) v).setReg .esp (c.esp - 4)

/-- The top of the stack is taken off. -/
def drop (c : Cpu) : Cpu := c.setReg .esp (c.esp + 4)

/-- The low half of a register is replaced. -/
def setLow (c : Cpu) (r : Reg) (s : Selector) : Cpu :=
  c.setReg r (((c.reg r).extractLsb' 16 16 ++ s : Dword))

def load (c : Cpu) : Operand → Dword
  | .reg r => c.reg r
  | .imm v => v
  | .at disp base => c.mem (c.reg base + disp)

def store (c : Cpu) (v : Dword) : Operand → Cpu
  | .reg r => c.setReg r v
  | .imm _ => c
  | .at disp base => c.setMem (c.reg base + disp) v

/-- `pusha` pushes the registers, with the stack pointer from before. -/
def pusha (c : Cpu) : Cpu :=
  push (c.reg .edi) (push (c.reg .esi) (push (c.reg .ebp) (push (c.reg .esp)
    (push (c.reg .ebx) (push (c.reg .edx) (push (c.reg .ecx) (push (c.reg .eax) c)))))))

/-- `popa` takes the registers back, apart from the stack pointer. -/
def popa (c : Cpu) : Cpu :=
  let c := c.drop.setReg .edi c.top
  let c := c.drop.setReg .esi c.top
  let c := c.drop.setReg .ebp c.top
  let c := c.drop
  let c := c.drop.setReg .ebx c.top
  let c := c.drop.setReg .edx c.top
  let c := c.drop.setReg .ecx c.top
  c.drop.setReg .eax c.top

/-- A data segment stays on a return to an outer level when its descriptor allows that level. -/
def outward (dpl : Selector → BitVec 2) (level : BitVec 2) (s : Selector) : Selector :=
  if dpl s < level then 0 else s

/-- `iret`: to the same level, or to an outer one, whose stack is taken back too. -/
def iret (dpl : Selector → BitVec 2) (c : Cpu) : Cpu :=
  let eip := c.top
  let c := c.drop
  let cs : Selector := c.top.setWidth 16
  let c := c.drop
  let eflags := c.top
  let c := c.drop
  let back : Cpu := { c with eip := eip, eflags := eflags }
  if cs.rpl = (c.seg .cs).rpl then back.setSeg .cs cs
  else
    let esp := c.top
    let ss : Selector := c.drop.top.setWidth 16
    let level := cs.rpl
    { back with
      reg := Function.update c.reg .esp esp
      seg := fun
        | .cs => cs
        | .ss => ss
        | .ds => outward dpl level (c.seg .ds)
        | .es => outward dpl level (c.seg .es)
        | .fs => outward dpl level (c.seg .fs)
        | .gs => outward dpl level (c.seg .gs) }

/-- An interrupt is delivered: from an outer level on the stack of the task state, which takes the
stack pointer from before, and with the error code if there is one. -/
def interrupt (ss0 : Selector) (esp0 : Dword) (gate : Selector) (offset : Dword) (code : Option Dword)
    (c : Cpu) : Cpu :=
  let base :=
    if (c.seg .cs).rpl = gate.rpl then c
    else push c.esp (push ((c.seg .ss).setWidth 32) ((c.setReg .esp esp0).setSeg .ss ss0))
  let frame := push c.eip (push ((c.seg .cs).setWidth 32) (push c.eflags base))
  let frame :=
    match code with
    | none => frame
    | some v => push v frame
  { frame.setSeg .cs gate with eflags := c.eflags &&& ~~~flagIf, eip := offset }

end Cpu

/-- The effect of an instruction; `dpl` is the level of the descriptor behind a selector. -/
def Instr.exec (dpl : Selector → BitVec 2) (c : Cpu) : Instr → Cpu
  | .movl src dst => c.store (c.load src) dst
  | .movwImm s r => c.setLow r s
  | .movwFrom s r => c.setLow r (c.seg s)
  | .movwTo r s => c.setSeg s ((c.reg r).setWidth 16)
  | .addl v r => c.setReg r (c.reg r + v)
  | .orl v r => c.setReg r (c.reg r ||| v)
  | .pushl src => c.push (c.load src)
  | .popl r => c.drop.setReg r c.top
  | .pusha => c.pusha
  | .popa => c.popa
  | .pushf => c.push c.eflags
  | .popf => { c.drop with eflags := c.top }
  | .cli => { c with eflags := c.eflags &&& ~~~flagIf }
  | .ret => { c.drop with eip := c.top }
  | .iret => c.iret dpl

def exec (dpl : Selector → BitVec 2) (code : List Instr) (c : Cpu) : Cpu :=
  code.foldl (fun c i => i.exec dpl c) c

theorem exec_append (dpl : Selector → BitVec 2) (code code' : List Instr) (c : Cpu) :
    exec dpl (code ++ code') c = exec dpl code' (exec dpl code c) :=
  List.foldl_append

/-! ## Addresses -/

section Address

variable {x y : Dword} {k : ℕ}

theorem toNat_sub_of_le (h : k ≤ x.toNat) : (x - BitVec.ofNat 32 k).toNat = x.toNat - k := by
  have hlt := x.isLt
  have hk : k < 2 ^ 32 := by omega
  rw [BitVec.toNat_sub, BitVec.toNat_ofNat, Nat.mod_eq_of_lt hk]
  omega

theorem toNat_add_of_lt (h : x.toNat + k < 2 ^ 32) : (x + BitVec.ofNat 32 k).toNat = x.toNat + k := by
  rw [BitVec.toNat_add, BitVec.toNat_ofNat, Nat.mod_eq_of_lt (by omega : k < 2 ^ 32)]
  exact Nat.mod_eq_of_lt h

theorem sub_sub_ofNat (x : Dword) (i j : ℕ) :
    x - BitVec.ofNat 32 i - BitVec.ofNat 32 j = x - BitVec.ofNat 32 (i + j) := by
  rw [BitVec.ofNat_add, BitVec.sub_sub]

theorem sub_add_ofNat (x : Dword) (i j : ℕ) :
    x - BitVec.ofNat 32 (i + j) + BitVec.ofNat 32 j = x - BitVec.ofNat 32 i := by
  rw [← sub_sub_ofNat, BitVec.sub_add_cancel]

theorem ne_of_toNat_ne (h : x.toNat ≠ y.toNat) : x ≠ y := fun heq => h (heq ▸ rfl)

end Address

/-! ## The words on a stack -/

/-- The words from the address `sp` on are those of the list. -/
def Holds (mem : Dword → Dword) : (sp : Dword) → List Dword → Prop
  | _, [] => True
  | sp, v :: l => mem sp = v ∧ Holds mem (sp + 4) l

/-- The words from `lo` up to `hi` are the same. -/
def SameOn (lo hi : ℕ) (mem mem' : Dword → Dword) : Prop :=
  ∀ a : Dword, lo ≤ a.toNat → a.toNat < hi → mem' a = mem a

namespace Holds

variable {mem mem' : Dword → Dword} {sp v : Dword} {l l' : List Dword}

theorem congr (h : Holds mem sp l) (hsame : ∀ i < l.length, mem' (sp + 4 * BitVec.ofNat 32 i) =
    mem (sp + 4 * BitVec.ofNat 32 i)) : Holds mem' sp l := by
  induction l generalizing sp with
  | nil => trivial
  | cons v l ih =>
      have hfirst := hsame 0 (Nat.zero_lt_succ _)
      refine ⟨?_, ih h.2 fun i hi => ?_⟩
      · simpa using hfirst.trans (by simpa using h.1)
      · have hnext := hsame (i + 1) (Nat.succ_lt_succ hi)
        have haddr : sp + 4 * BitVec.ofNat 32 (i + 1) = sp + 4 + 4 * BitVec.ofNat 32 i := by
          rw [BitVec.ofNat_add, BitVec.mul_add, BitVec.add_assoc, BitVec.add_comm (4 * _)]
          rfl
        rwa [haddr] at hnext

theorem push (h : Holds mem sp l) (hlen : l.length < 2 ^ 30) (v : Dword) :
    Holds (Function.update mem (sp - 4) v) (sp - 4) (v :: l) := by
  refine ⟨Function.update_self _ _ _, ?_⟩
  rw [BitVec.sub_add_cancel]
  refine h.congr fun i hi => Function.update_of_ne ?_ _ _
  bv_omega

theorem append (h : Holds mem sp (l ++ l')) : Holds mem sp l := by
  induction l generalizing sp with
  | nil => trivial
  | cons v l ih => exact ⟨h.1, ih h.2⟩

theorem of_sameOn {hi : ℕ} (h : Holds mem sp l) (hfit : sp.toNat + 4 * l.length ≤ hi)
    (hhi : hi ≤ 2 ^ 32) (hsame : SameOn sp.toNat hi mem mem') : Holds mem' sp l := by
  refine h.congr fun i hi' => ?_
  have hword : 4 * BitVec.ofNat 32 i = BitVec.ofNat 32 (4 * i) := (BitVec.ofNat_mul 4 i).symm
  have haddr : (sp + 4 * BitVec.ofNat 32 i).toNat = sp.toNat + 4 * i := by
    rw [hword, toNat_add_of_lt (by omega)]
  exact hsame _ (by omega) (by omega)

end Holds

namespace Cpu

variable {c : Cpu} {a v : Dword} {l : List Dword} {r : Reg}

theorem setSeg_self (t : Seg) (s : Selector) : (c.setSeg t s).seg t = s := by
  unfold setSeg
  dsimp only
  rw [Function.update_self]

theorem drop_esp : c.drop.esp = c.esp + 4 := by
  unfold drop esp setReg
  dsimp only
  rw [Function.update_self]

theorem drop_reg (h : r ≠ .esp) : c.drop.reg r = c.reg r := Function.update_of_ne h _ _

theorem iret_same (dpl : Selector → BitVec 2) {eip cs eflags : Dword}
    (h : Holds c.mem c.esp [eip, cs, eflags])
    (hlevel : Selector.rpl (cs.setWidth 16) = (c.seg .cs).rpl) :
    c.iret dpl = { (c.drop.drop.drop.setSeg .cs (cs.setWidth 16)) with
      eip := eip, eflags := eflags } := by
  obtain ⟨h₁, h₂, h₃, -⟩ := h
  have htop₂ : c.drop.top = cs := by
    unfold top
    rw [drop_esp]
    exact h₂
  have htop₃ : c.drop.drop.top = eflags := by
    unfold top
    rw [drop_esp, drop_esp]
    exact h₃
  have htop₁ : c.top = eip := h₁
  unfold iret
  dsimp only
  rw [htop₁, htop₂, htop₃, if_pos]
  · rfl
  · exact hlevel

theorem iret_outer (dpl : Selector → BitVec 2) {eip cs eflags esp ss : Dword}
    (h : Holds c.mem c.esp [eip, cs, eflags, esp, ss])
    (hlevel : Selector.rpl (cs.setWidth 16) ≠ (c.seg .cs).rpl) :
    c.iret dpl = ⟨Function.update c.drop.drop.drop.reg .esp esp, fun
        | .cs => cs.setWidth 16
        | .ss => ss.setWidth 16
        | .ds => outward dpl (Selector.rpl (cs.setWidth 16)) (c.seg .ds)
        | .es => outward dpl (Selector.rpl (cs.setWidth 16)) (c.seg .es)
        | .fs => outward dpl (Selector.rpl (cs.setWidth 16)) (c.seg .fs)
        | .gs => outward dpl (Selector.rpl (cs.setWidth 16)) (c.seg .gs), eflags, eip, c.mem⟩ := by
  obtain ⟨h₁, h₂, h₃, h₄, h₅, -⟩ := h
  have htop₁ : c.top = eip := h₁
  have htop₂ : c.drop.top = cs := by
    unfold top
    rw [drop_esp]
    exact h₂
  have htop₃ : c.drop.drop.top = eflags := by
    unfold top
    rw [drop_esp, drop_esp]
    exact h₃
  have htop₄ : c.drop.drop.drop.top = esp := by
    unfold top
    rw [drop_esp, drop_esp, drop_esp]
    exact h₄
  have htop₅ : c.drop.drop.drop.drop.top = ss := by
    unfold top
    rw [drop_esp, drop_esp, drop_esp, drop_esp]
    exact h₅
  unfold iret
  dsimp only
  rw [htop₁, htop₂, htop₃, htop₄, htop₅, if_neg]
  · rfl
  · exact hlevel

/-- The words of a list are pushed, the last one first. -/
def pushes (l : List Dword) (c : Cpu) : Cpu := l.foldr push c

theorem push_esp : (c.push v).esp = c.esp - 4 := by
  unfold push esp setReg
  dsimp only
  rw [Function.update_self]

theorem push_reg (h : r ≠ .esp) : (c.push v).reg r = c.reg r := Function.update_of_ne h _ _

theorem pushes_reg (h : r ≠ .esp) : (pushes l c).reg r = c.reg r := by
  induction l with
  | nil => rfl
  | cons v l ih => exact (push_reg h).trans ih

theorem pushes_seg : (pushes l c).seg = c.seg := by
  induction l with
  | nil => rfl
  | cons v l ih => exact ih

theorem pushes_esp : (pushes l c).esp = c.esp - BitVec.ofNat 32 (4 * l.length) := by
  induction l with
  | nil => exact (BitVec.sub_zero _).symm
  | cons v l ih =>
      have hstep : (pushes (v :: l) c).esp = (pushes l c).esp - 4 := push_esp
      rw [hstep, ih]
      exact sub_sub_ofNat _ _ 4

theorem pushes_append (l' : List Dword) : pushes (l ++ l') c = pushes l (pushes l' c) :=
  List.foldr_append

theorem pushes_congr {c' : Cpu} (hmem : c'.mem = c.mem) (hesp : c'.esp = c.esp) :
    (pushes l c').mem = (pushes l c).mem ∧ (pushes l c').esp = (pushes l c).esp := by
  induction l with
  | nil => exact ⟨hmem, hesp⟩
  | cons v l ih =>
      have hstep : ∀ d : Cpu, (pushes (v :: l) d).mem =
          Function.update (pushes l d).mem ((pushes l d).esp - 4) v := fun _ => rfl
      have hpush : ∀ d : Cpu, (pushes (v :: l) d).esp = (pushes l d).esp - 4 := fun _ => push_esp
      rw [hstep, hstep, hpush, hpush, ih.1, ih.2]
      exact ⟨rfl, rfl⟩

theorem pushes_holds_append {l' : List Dword} (h : Holds c.mem c.esp l')
    (hlen : (l ++ l').length < 2 ^ 30) :
    Holds (pushes l c).mem (pushes l c).esp (l ++ l') := by
  induction l with
  | nil => exact h
  | cons v l ih =>
      have hlt : (l ++ l').length < 2 ^ 30 := Nat.lt_of_succ_lt hlen
      have hesp : (pushes (v :: l) c).esp = (pushes l c).esp - 4 := push_esp
      rw [hesp]
      exact (ih hlt).push hlt v

theorem pushes_holds (h : l.length < 2 ^ 30) : Holds (pushes l c).mem (pushes l c).esp l := by
  have hnone : Holds c.mem c.esp [] := trivial
  have hall := pushes_holds_append (l := l) hnone (by rwa [List.append_nil])
  rwa [List.append_nil] at hall

/-- Only the words below the stack pointer are written. -/
theorem pushes_outside (hroom : 4 * l.length ≤ c.esp.toNat)
    (ha : c.esp.toNat ≤ a.toNat ∨ a.toNat < c.esp.toNat - 4 * l.length) :
    (pushes l c).mem a = c.mem a := by
  induction l with
  | nil => rfl
  | cons v l ih =>
      rw [List.length_cons] at hroom ha
      have hesp : ((pushes l c).esp - 4).toNat = c.esp.toNat - 4 * (l.length + 1) := by
        have hl : (pushes l c).esp.toNat = c.esp.toNat - 4 * l.length := by
          rw [pushes_esp, toNat_sub_of_le (by omega)]
        have hv : ((pushes l c).esp - 4).toNat = (pushes l c).esp.toNat - 4 :=
          toNat_sub_of_le (k := 4) (by omega)
        omega
      have hne : a ≠ (pushes l c).esp - 4 := ne_of_toNat_ne (by omega)
      exact (Function.update_of_ne hne _ _).trans (ih (by omega) (by omega))

/-- The words that the delivery of an interrupt leaves on the stack. -/
def trapWords (c : Cpu) (gate : Selector) (code : Option Dword) : List Dword :=
  code.toList ++ [c.eip, (c.seg .cs).setWidth 32, c.eflags] ++
    if (c.seg .cs).rpl = gate.rpl then [] else [c.esp, (c.seg .ss).setWidth 32]

/-- The state whose stack an interrupt is delivered on. -/
def trapBase (c : Cpu) (ss0 : Selector) (esp0 : Dword) (gate : Selector) : Cpu :=
  if (c.seg .cs).rpl = gate.rpl then c else (c.setReg .esp esp0).setSeg .ss ss0

theorem interrupt_eq (ss0 : Selector) (esp0 : Dword) (gate : Selector) (offset : Dword)
    (code : Option Dword) : c.interrupt ss0 esp0 gate offset code =
      { (pushes (c.trapWords gate code) (c.trapBase ss0 esp0 gate)).setSeg .cs gate with
        eflags := c.eflags &&& ~~~flagIf, eip := offset } := by
  unfold interrupt trapWords trapBase
  cases code <;> split <;> rfl

section Interrupt

variable {ss0 gate : Selector} {esp0 offset : Dword} {code : Option Dword} {t : Seg}

theorem interrupt_mem : (c.interrupt ss0 esp0 gate offset code).mem =
    (pushes (c.trapWords gate code) (c.trapBase ss0 esp0 gate)).mem := by
  rw [interrupt_eq]
  rfl

theorem interrupt_esp : (c.interrupt ss0 esp0 gate offset code).esp =
    (pushes (c.trapWords gate code) (c.trapBase ss0 esp0 gate)).esp := by
  rw [interrupt_eq]
  rfl

theorem interrupt_reg (h : r ≠ .esp) : (c.interrupt ss0 esp0 gate offset code).reg r = c.reg r := by
  rw [interrupt_eq]
  refine (pushes_reg h).trans ?_
  unfold trapBase
  split
  · rfl
  · exact Function.update_of_ne h _ _

theorem interrupt_cs : (c.interrupt ss0 esp0 gate offset code).seg .cs = gate := by
  rw [interrupt_eq]
  dsimp only
  rw [setSeg_self]

theorem interrupt_seg (hcs : t ≠ .cs) (hss : t ≠ .ss) :
    (c.interrupt ss0 esp0 gate offset code).seg t = c.seg t := by
  rw [interrupt_eq]
  refine (Function.update_of_ne hcs _ _).trans ?_
  rw [pushes_seg]
  unfold trapBase
  split
  · rfl
  · exact Function.update_of_ne hss _ _

end Interrupt

end Cpu

end X86

end Lib
