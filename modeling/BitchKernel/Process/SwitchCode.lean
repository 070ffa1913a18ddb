import Mathlib.Data.BitVec
import BitchKernel.Lib.Machine
import BitchKernel.Lib.X86

/-!
# The code of a switch

`switch_context` of `kernel/process/switch.S`, instruction by instruction, on the contexts and the
stacks of processes in one memory. A process is named by the address of its `_process_t`, which
lies at the start of its stack. `Suspended` remembers what a process that is not running is to go
on with: it was written by `process_create`, or by the switch that took the processor away. The
registers `ebx`, `esi` and `edi` are not part of it, since the code does not save them.
-/

namespace BitchKernel

open Lib X86

def switchContext : List Instr :=
  [.movl (.at 4 .esp) (.reg .eax),
   .movl (.reg .esp) (.at 0 .eax),
   .movl (.reg .ebp) (.at 4 .eax),
   .pushf,
   .popl .ecx,
   .movl (.reg .ecx) (.at 8 .eax),
   .movl (.at 8 .esp) (.reg .eax),
   .movl (.at 0 .eax) (.reg .esp),
   .movl (.at 4 .eax) (.reg .ebp),
   .movl (.at 8 .eax) (.reg .eax),
   .pushl (.reg .eax),
   .popf,
   .ret]

/-- `&process -> context`. -/
def contextOf (p : Dword) : Dword := p + 16

/-- The arguments of `switch_context(&prev -> context, &next -> context)` on the stack. -/
def pushContexts (prev next : Dword) (c : Cpu) : Cpu :=
  Cpu.push (contextOf prev) (Cpu.push (contextOf next) c)

/-- The call of `switch_context` in `process_switch`, which returns to `back`. -/
def callSwitch (dpl : Selector → BitVec 2) (prev next back : Dword) (c : Cpu) : Cpu :=
  exec dpl switchContext (Cpu.push back (pushContexts prev next c))

/-- What `process_create` writes to the stack and the context of the process `new`. -/
def createContext (new fn arg exit : Dword) (mem : Dword → Dword) : Dword → Dword :=
  let stackTop := new + 0x2000
  let mem := Function.update mem (stackTop - 4) arg
  let mem := Function.update mem (stackTop - 8) exit
  let mem := Function.update mem (stackTop - 12) fn
  let mem := Function.update mem (contextOf new) (stackTop - 12)
  Function.update mem (contextOf new + 8) 0x200

/-! ## The two halves of the code -/

/-- The memory with the context of `prev` written. -/
def saveContext (prev : Dword) (c : Cpu) : Dword → Dword :=
  Function.update (Function.update (Function.update (Function.update c.mem (contextOf prev) c.esp)
    (contextOf prev + 4) (c.reg .ebp)) (c.esp - 4) c.eflags) (contextOf prev + 8) c.eflags

theorem exec_switchContext (dpl : Selector → BitVec 2) {prev next : Dword} {c : Cpu}
    {m : Dword → Dword} (hm : m = saveContext prev c) (hprev : c.mem (c.esp + 4) = contextOf prev)
    (hnext : m (c.esp + 8) = contextOf next) :
    let c' := exec dpl switchContext c
    c'.esp = m (contextOf next) + 4 ∧ c'.reg .ebp = m (contextOf next + 4) ∧
      c'.eflags = m (contextOf next + 8) ∧ c'.mem =
        Function.update m (m (contextOf next) - 4) (m (contextOf next + 8)) ∧
      c'.eip = c'.mem (m (contextOf next)) := by
  subst hm
  rw [← hnext]
  unfold saveContext exec switchContext
  rw [← hprev]
  simp [Instr.exec, Cpu.load, Cpu.store, Cpu.push, Cpu.setReg, Cpu.setMem, Cpu.drop, Cpu.top, Cpu.esp]

/-- The words of a process lie within its stack. -/
def Within (p a : Dword) : Prop := p.toNat ≤ a.toNat ∧ a.toNat < p.toNat + 0x2000

section Save

variable {prev : Dword} (next back : Dword) {c : Cpu} {a : Dword}

/-- Where the words lie that are written before the stack of `prev` is left. -/
structure Room (prev : Dword) (c : Cpu) : Prop where
  placed : prev.toNat + 0x2000 ≤ 2 ^ 32
  low : prev.toNat + 56 ≤ c.esp.toNat
  high : c.esp.toNat ≤ prev.toNat + 0x2000

theorem contextOf_toNat (hplaced : prev.toNat + 0x2000 ≤ 2 ^ 32) :
    (contextOf prev).toNat = prev.toNat + 16 ∧ (contextOf prev + 4).toNat = prev.toNat + 20 ∧
      (contextOf prev + 8).toNat = prev.toNat + 24 := by
  have h₁ : (prev + 16).toNat = prev.toNat + 16 := toNat_add_of_lt (k := 16) (by omega)
  have h₂ : (prev + 16 + 4).toNat = (prev + 16).toNat + 4 := toNat_add_of_lt (k := 4) (by omega)
  have h₃ : (prev + 16 + 8).toNat = (prev + 16).toNat + 8 := toNat_add_of_lt (k := 8) (by omega)
  unfold contextOf
  omega

theorem Room.esp_toNat (h : Room prev c) : (c.esp - 4).toNat = c.esp.toNat - 4 ∧
    (c.esp - 8).toNat = c.esp.toNat - 8 ∧ (c.esp - 12).toNat = c.esp.toNat - 12 ∧
      (c.esp - 16).toNat = c.esp.toNat - 16 := by
  have hlow := h.low
  exact ⟨toNat_sub_of_le (k := 4) (by omega), toNat_sub_of_le (k := 8) (by omega),
    toNat_sub_of_le (k := 12) (by omega), toNat_sub_of_le (k := 16) (by omega)⟩

/-- The words that are written before the stack of `prev` is left. -/
theorem saveContext_eq : saveContext prev (Cpu.push back (pushContexts prev next c)) =
    Function.update (Function.update (Function.update (Function.update (Function.update (Function.update
      (Function.update c.mem (c.esp - 4) (contextOf next)) (c.esp - 8) (contextOf prev)) (c.esp - 12) back)
        (contextOf prev) (c.esp - 12)) (contextOf prev + 4) (c.reg .ebp)) (c.esp - 16) c.eflags)
          (contextOf prev + 8) c.eflags := by
  have h₂ : c.reg .esp - 4 - 4 = c.reg .esp - 8 := sub_sub_ofNat _ 4 4
  have h₃ : c.reg .esp - 8 - 4 = c.reg .esp - 12 := sub_sub_ofNat _ 8 4
  have h₄ : c.reg .esp - 12 - 4 = c.reg .esp - 16 := sub_sub_ofNat _ 12 4
  unfold saveContext pushContexts Cpu.push Cpu.setReg Cpu.setMem Cpu.esp
  simp only [Function.update_self, h₂, h₃, h₄]
  simp

theorem Room.within_stack (h : Room prev c) : Within prev (c.esp - 4) ∧ Within prev (c.esp - 8) ∧
    Within prev (c.esp - 12) ∧ Within prev (c.esp - 16) := by
  obtain ⟨h₄, h₅, h₆, h₇⟩ := h.esp_toNat
  have hlow := h.low
  have hhigh := h.high
  unfold Within
  omega

theorem Room.within_context (h : Room prev c) : Within prev (contextOf prev) ∧
    Within prev (contextOf prev + 4) ∧ Within prev (contextOf prev + 8) := by
  obtain ⟨h₁, h₂, h₃⟩ := contextOf_toNat h.placed
  unfold Within
  omega

/-- Nothing outside of the stack of `prev` is written before it is left. -/
theorem saveContext_outside (h : Room prev c) (ha : ¬ Within prev a) :
    saveContext prev (Cpu.push back (pushContexts prev next c)) a = c.mem a := by
  have hne : ∀ {b}, Within prev b → a ≠ b := fun hb heq => ha (heq ▸ hb)
  obtain ⟨h₁, h₂, h₃⟩ := h.within_context
  obtain ⟨h₄, h₅, h₆, h₇⟩ := h.within_stack
  rw [saveContext_eq, Function.update_of_ne (hne h₃), Function.update_of_ne (hne h₇),
    Function.update_of_ne (hne h₂), Function.update_of_ne (hne h₁), Function.update_of_ne (hne h₆),
    Function.update_of_ne (hne h₅), Function.update_of_ne (hne h₄)]

theorem saveContext_inside (h : Room prev c) :
    let m := saveContext prev (Cpu.push back (pushContexts prev next c))
    m (contextOf prev) = c.esp - 12 ∧ m (contextOf prev + 4) = c.reg .ebp ∧
      m (contextOf prev + 8) = c.eflags ∧ m (c.esp - 12) = back ∧
      ∀ a, c.esp.toNat - 8 ≤ a.toNat → m a = (pushContexts prev next c).mem a := by
  obtain ⟨h₁, h₂, h₃⟩ := contextOf_toNat h.placed
  obtain ⟨h₄, h₅, h₆, h₇⟩ := h.esp_toNat
  have hlow := h.low
  have hhigh := h.high
  dsimp only
  rw [saveContext_eq]
  refine ⟨?_, ?_, Function.update_self _ _ _, ?_, fun a ha => ?_⟩
  · iterate 3 rw [Function.update_of_ne (ne_of_toNat_ne (by omega))]
    rw [Function.update_self]
  · iterate 2 rw [Function.update_of_ne (ne_of_toNat_ne (by omega))]
    rw [Function.update_self]
  · iterate 4 rw [Function.update_of_ne (ne_of_toNat_ne (by omega))]
    rw [Function.update_self]
  · iterate 5 rw [Function.update_of_ne (ne_of_toNat_ne (by omega))]
    have hargs : c.reg .esp - 4 - 4 = c.reg .esp - 8 := sub_sub_ofNat _ 4 4
    unfold pushContexts Cpu.push Cpu.setReg Cpu.setMem Cpu.esp
    simp only [Function.update_self, hargs]

theorem saveContext_arguments (h : Room prev c) :
    let entry := Cpu.push back (pushContexts prev next c)
    entry.esp = c.esp - 12 ∧ entry.mem (entry.esp + 4) = contextOf prev ∧
      saveContext prev entry (entry.esp + 8) = contextOf next := by
  obtain ⟨h₁, h₂, h₃⟩ := contextOf_toNat h.placed
  obtain ⟨h₄, h₅, h₆, h₇⟩ := h.esp_toNat
  have hlow := h.low
  have hhigh := h.high
  have hentry : (Cpu.push back (pushContexts prev next c)).esp = c.esp - 12 := by
    have h₂ : c.reg .esp - 4 - 4 = c.reg .esp - 8 := sub_sub_ofNat _ 4 4
    have h₃ : c.reg .esp - 8 - 4 = c.reg .esp - 12 := sub_sub_ofNat _ 8 4
    unfold pushContexts Cpu.push Cpu.setReg Cpu.setMem Cpu.esp
    simp only [Function.update_self, h₂, h₃]
  have hprev : c.esp - 12 + 4 = c.esp - 8 := sub_add_ofNat _ 8 4
  have hnext : c.esp - 12 + 8 = c.esp - 4 := sub_add_ofNat _ 4 8
  have hmem : (Cpu.push back (pushContexts prev next c)).mem = Function.update (Function.update
      (Function.update c.mem (c.esp - 4) (contextOf next)) (c.esp - 8) (contextOf prev)) (c.esp - 12)
        back := by
    have h₂ : c.reg .esp - 4 - 4 = c.reg .esp - 8 := sub_sub_ofNat _ 4 4
    have h₃ : c.reg .esp - 8 - 4 = c.reg .esp - 12 := sub_sub_ofNat _ 8 4
    unfold pushContexts Cpu.push Cpu.setReg Cpu.setMem Cpu.esp
    simp only [Function.update_self, h₂, h₃]
  dsimp only
  rw [hentry, hprev, hnext, hmem, saveContext_eq]
  refine ⟨rfl, ?_, ?_⟩
  · rw [Function.update_of_ne (ne_of_toNat_ne (by omega)), Function.update_self]
  · iterate 6 rw [Function.update_of_ne (ne_of_toNat_ne (by omega))]
    rw [Function.update_self]

end Save

end BitchKernel
