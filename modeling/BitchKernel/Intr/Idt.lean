import BitchKernel.Arch.Descriptor
import BitchKernel.Intr.Stub

/-!
# The interrupt table

The gates that `idt_set` and `idt_attribute` write through `set_gate_descriptor`, and the handlers
that `reg_intr_handler` enters beside them, after `intr_init` and `syscall_init`. A user program
that executes `int` gets through the gate of system calls and comes back behind the instruction;
for every other vector the processor raises a general protection fault, which ends the program.
-/

namespace BitchKernel

open Lib X86

/-- `_gate_descriptor_t`. -/
structure GateDescriptor where
  offset1 : BitVec 16
  selector : Selector
  always0 : BitVec 8
  gateAttribute : BitVec 8
  offset2 : BitVec 16
deriving DecidableEq

def setGateDescriptor (selector : Selector) (offset : Dword) (attr : BitVec 8) :
    GateDescriptor where
  selector := selector &&& 0xffff
  offset1 := (offset &&& 0xffff).setWidth 16
  offset2 := ((offset >>> 16) &&& 0xffff).setWidth 16
  gateAttribute := attr &&& 0xff
  always0 := 0x00

namespace GateDescriptor

/-! ## The layout of the processor -/

def offset (d : GateDescriptor) : Dword := d.offset2 ++ d.offset1

def present (d : GateDescriptor) : Bool := d.gateAttribute.getLsbD 7

/-- The lowest level that may come through the gate by an instruction. -/
def dpl (d : GateDescriptor) : BitVec 2 := d.gateAttribute.extractLsb' 5 2

def isInterrupt (d : GateDescriptor) : Bool := d.gateAttribute &&& 0x1f = 0x0e

end GateDescriptor

/-- `DESC_P|DESC_D|GATE_TYPE_INT`. -/
def gateKernel : BitVec 8 := 0x80 ||| 0x08 ||| 0x06

def descDpl3 : BitVec 8 := 0x60

def syscallInt : BitVec 8 := 0xbe

/-- The functions that are entered with `reg_intr_handler`. -/
inductive IntrHandler | isrHandler | irqHandler | syscallHandler
deriving DecidableEq

/-- The limit and the gates of the interrupt table, and `intr_handler_list`. -/
structure IntrTables where
  limit : BitVec 16
  idt : BitVec 8 → GateDescriptor
  intrHandlerList : ℕ → Option IntrHandler

namespace IntrTables

def idtSet (t : IntrTables) (n : BitVec 8) (baseAttr : Dword) : IntrTables :=
  if n.toNat < 0x100 then
    { t with idt := Function.update t.idt n (setGateDescriptor kernelCode baseAttr gateKernel) }
  else t

def idtAttribute (t : IntrTables) (n attr : BitVec 8) : IntrTables :=
  if n.toNat < 0x100 then
    { t with
      idt := Function.update t.idt n
        { t.idt n with gateAttribute := (t.idt n).gateAttribute ||| attr } }
  else t

def regIntrHandler (t : IntrTables) (n : BitVec 8) (handler : IntrHandler) : IntrTables :=
  if n.toNat < 0x100 then
    { t with intrHandlerList := Function.update t.intrHandlerList n.toNat (some handler) }
  else t

def idtInit (t : IntrTables) : IntrTables := { t with limit := 8 * 0x100 - 1 }

def vectors : List (BitVec 8) := (List.range 0x100).map (BitVec.ofNat 8)

/-- `stub_init`, with the addresses of the entries. -/
def stubInit (entry : BitVec 8 → Dword) (t : IntrTables) : IntrTables :=
  vectors.foldl (fun t n => t.idtSet n (entry n)) { t with intrHandlerList := fun _ => none }

def isrInt (t : IntrTables) : IntrTables :=
  (List.range 0x14).foldl (fun t i => t.regIntrHandler (BitVec.ofNat 8 i) .isrHandler) t

/-- The part of `init_8259A` that enters `irq_handler`. -/
def irqInit (t : IntrTables) : IntrTables :=
  (List.range 8).foldl (fun t i => (t.regIntrHandler (BitVec.ofNat 8 (0x20 + i)) .irqHandler)
    |>.regIntrHandler (BitVec.ofNat 8 (0x28 + i)) .irqHandler) t

def syscallInit (t : IntrTables) : IntrTables :=
  (t.idtAttribute syscallInt descDpl3).regIntrHandler syscallInt .syscallHandler

/-- The tables after `intr_init` and `syscall_init`. -/
def booted (entry : BitVec 8 → Dword) (t : IntrTables) : IntrTables :=
  (((t.idtInit.stubInit entry).isrInt).irqInit).syscallInit

end IntrTables

/-! ## Handlers -/

/-- What a handler does with the frame. -/
inductive Outcome
  | returns (f : IntrRegs)
  /-- `exec_exit`. -/
  | exits
  | panics

/-- What the handlers find besides: whether `umm_handler` maps a page, and what `sys_exec`, `sys_get`
and `sys_put` return for the arguments in `ebx` and `ecx`. -/
structure Kernelspace where
  ummHandler : Dword
  sysExec : Dword → Dword → Dword
  sysGet : Dword → Dword → Dword
  sysPut : Dword → Dword → Dword

namespace Kernelspace

/-- `user_isr_handler` of `kernel/process/exec.c`. -/
def userIsrHandler (k : Kernelspace) (f : IntrRegs) : Outcome :=
  if f.intCode = 0x0e ∧ k.ummHandler ≠ 0 then .returns f else .exits

/-- `isr_handler`, once `exec_init` has entered `user_isr_handler`. -/
def isrHandler (k : Kernelspace) (f : IntrRegs) : Outcome :=
  if f.cs = userCode.setWidth 32 then k.userIsrHandler f else .panics

def syscallHandler (k : Kernelspace) (f : IntrRegs) : Outcome :=
  match f.eax.toNat with
  | 0 => .exits
  | 1 => .returns { f with eax := k.sysExec f.ebx f.ecx }
  | 2 => .returns { f with eax := k.sysGet f.ebx f.ecx }
  | 3 => .returns { f with eax := k.sysPut f.ebx f.ecx }
  | _ => .returns f

/-- What `syscall_handler` leaves in `eax`. -/
def result (k : Kernelspace) (eax ebx ecx : Dword) : Dword :=
  match eax.toNat with
  | 1 => k.sysExec ebx ecx
  | 2 => k.sysGet ebx ecx
  | 3 => k.sysPut ebx ecx
  | _ => eax

def intHandler (k : Kernelspace) (t : IntrTables) (f : IntrRegs) : Outcome :=
  match t.intrHandlerList f.intCode.toNat with
  | none => .returns f
  | some .isrHandler => k.isrHandler f
  | some .irqHandler => .returns f
  | some .syscallHandler => k.syscallHandler f

end Kernelspace

/-! ## Through a gate -/

namespace IntrTables

/-- The vector that the instruction `int` of `c` comes to, with the error code, and the state the
interrupt is delivered from: behind the instruction, which is two bytes long, or before it. -/
def softInt (t : IntrTables) (n : BitVec 8) (c : Cpu) : BitVec 8 × Option Dword × Cpu :=
  let errCode : Dword := n.setWidth 32 * 8 + 2
  if t.limit.toNat < 8 * n.toNat + 7 ∨ (t.idt n).isInterrupt = false ∨
      (t.idt n).dpl < (c.seg .cs).rpl then (0x0d, some errCode, c)
  else if (t.idt n).present then (n, none, { c with eip := c.eip + 2 })
  else (0x0b, some errCode, c)

/-- The processor goes through the gate `n` and runs the code that it finds there, up to the call of
`int_handler`. -/
def enter (t : IntrTables) (code : Dword → List Instr) (dpl : Selector → BitVec 2) (n : BitVec 8)
    (errCode : Option Dword) (esp0 : Dword) (c : Cpu) : Cpu :=
  exec dpl (code (t.idt n).offset)
    (c.interrupt kernelData esp0 (t.idt n).selector (t.idt n).offset errCode)

end IntrTables

/-! ## Gates -/

theorem setGateDescriptor_offset (selector : Selector) (offset : Dword) (attr : BitVec 8) :
    (setGateDescriptor selector offset attr).offset = offset := by
  unfold setGateDescriptor GateDescriptor.offset
  dsimp only
  rw [setWidth_low, setWidth_low]
  apply BitVec.eq_of_getLsbD_eq
  intro i hi
  rw [BitVec.getLsbD_append]
  simp only [BitVec.getLsbD_setWidth, BitVec.getLsbD_ushiftRight]
  by_cases h : i < 16
  · simp [h]
  · have heq : 16 + (i - 16) = i := by omega
    have hlt : i - 16 < 16 := by omega
    simp [h, hlt, heq]

theorem setGateDescriptor_selector (selector : Selector) (offset : Dword) (attr : BitVec 8) :
    (setGateDescriptor selector offset attr).selector = selector := BitVec.and_allOnes

theorem setGateDescriptor_attribute (selector : Selector) (offset : Dword) (attr : BitVec 8) :
    (setGateDescriptor selector offset attr).gateAttribute = attr := BitVec.and_allOnes

namespace IntrTables

variable {t : IntrTables} {entry : BitVec 8 → Dword} {n : BitVec 8} {handler : IntrHandler}

theorem idtSet_idt (m : BitVec 8) (baseAttr : Dword) : (t.idtSet m baseAttr).idt n =
    if n = m then setGateDescriptor kernelCode baseAttr gateKernel else t.idt n := by
  unfold idtSet
  rw [if_pos m.isLt]
  exact Function.update_apply _ _ _ _

theorem regIntrHandler_eq (m : BitVec 8) : t.regIntrHandler m handler =
    { t with intrHandlerList := Function.update t.intrHandlerList m.toNat (some handler) } :=
  if_pos m.isLt

theorem foldl_idtSet (entry : BitVec 8 → Dword) (l : List (BitVec 8)) :
    (l.foldl (fun t n => t.idtSet n (entry n)) t).idt n =
      if n ∈ l then setGateDescriptor kernelCode (entry n) gateKernel else t.idt n := by
  induction l generalizing t with
  | nil => rfl
  | cons m l ih =>
    rw [List.foldl_cons, ih, idtSet_idt]
    by_cases hm : n = m
    · subst hm
      simp
    · simp [hm]

theorem foldl_idtSet_list (entry : BitVec 8 → Dword) (l : List (BitVec 8)) :
    (l.foldl (fun t n => t.idtSet n (entry n)) t).intrHandlerList = t.intrHandlerList ∧
      (l.foldl (fun t n => t.idtSet n (entry n)) t).limit = t.limit := by
  induction l generalizing t with
  | nil => exact ⟨rfl, rfl⟩
  | cons m l ih =>
    obtain ⟨hlist, hlimit⟩ := ih (t := t.idtSet m (entry m))
    have hset : (t.idtSet m (entry m)).intrHandlerList = t.intrHandlerList ∧
        (t.idtSet m (entry m)).limit = t.limit := by
      unfold idtSet
      rw [if_pos m.isLt]
      exact ⟨rfl, rfl⟩
    exact ⟨hlist.trans hset.1, hlimit.trans hset.2⟩

theorem mem_vectors (n : BitVec 8) : n ∈ vectors :=
  List.mem_map.2 ⟨n.toNat, List.mem_range.2 n.isLt, by simp⟩

theorem foldl_isr (m : ℕ) (hm : m ≤ 0x100) :
    (List.range m).foldl (fun t i => t.regIntrHandler (BitVec.ofNat 8 i) .isrHandler) t =
      { t with
        intrHandlerList := fun k => if k < m then some .isrHandler else t.intrHandlerList k } := by
  induction m with
  | zero => rfl
  | succ m ih =>
    rw [List.range_succ, List.foldl_append, ih (by omega), List.foldl_cons, List.foldl_nil,
      regIntrHandler_eq]
    congr 1
    funext k
    rw [Function.update_apply, BitVec.toNat_ofNat, Nat.mod_eq_of_lt (by omega : m < 2 ^ 8)]
    grind

theorem foldl_irq (m : ℕ) (hm : m ≤ 8) :
    (List.range m).foldl (fun t i => (t.regIntrHandler (BitVec.ofNat 8 (0x20 + i)) .irqHandler)
      |>.regIntrHandler (BitVec.ofNat 8 (0x28 + i)) .irqHandler) t =
      { t with
        intrHandlerList := fun k =>
          if 0x20 ≤ k ∧ k < 0x20 + m ∨ 0x28 ≤ k ∧ k < 0x28 + m then some .irqHandler
          else t.intrHandlerList k } := by
  induction m with
  | zero =>
    have hnone : ∀ k, ¬ (0x20 ≤ k ∧ k < 0x20 + 0 ∨ 0x28 ≤ k ∧ k < 0x28 + 0) := by omega
    simp only [hnone, if_false]
    rfl
  | succ m ih =>
    rw [List.range_succ, List.foldl_append, ih (by omega), List.foldl_cons, List.foldl_nil,
      regIntrHandler_eq, regIntrHandler_eq]
    congr 1
    funext k
    rw [Function.update_apply]
    dsimp only
    rw [Function.update_apply, BitVec.toNat_ofNat, BitVec.toNat_ofNat,
      Nat.mod_eq_of_lt (by omega : 0x20 + m < 2 ^ 8),
      Nat.mod_eq_of_lt (by omega : 0x28 + m < 2 ^ 8)]
    grind

theorem booted_list (k : ℕ) : (t.booted entry).intrHandlerList k =
    if k = 0xbe then some .syscallHandler
    else if 0x20 ≤ k ∧ k < 0x30 then some .irqHandler
    else if k < 0x14 then some .isrHandler else none := by
  unfold booted syscallInit irqInit isrInt stubInit
  rw [foldl_irq 8 (by omega), foldl_isr 0x14 (by omega), regIntrHandler_eq]
  have hlist := (foldl_idtSet_list (t := { t.idtInit with intrHandlerList := fun _ => none })
    entry vectors).1
  unfold idtAttribute
  rw [if_pos syscallInt.isLt]
  dsimp only
  rw [Function.update_apply, hlist, show syscallInt.toNat = 0xbe from rfl]
  grind

theorem booted_idt : (t.booted entry).idt n =
    if n = syscallInt then
      { setGateDescriptor kernelCode (entry n) gateKernel with
        gateAttribute := gateKernel ||| descDpl3 }
    else setGateDescriptor kernelCode (entry n) gateKernel := by
  unfold booted syscallInit irqInit isrInt stubInit
  rw [foldl_irq 8 (by omega), foldl_isr 0x14 (by omega), regIntrHandler_eq]
  have hidt := fun m => foldl_idtSet (n := m)
    (t := { t.idtInit with intrHandlerList := fun _ => none }) entry vectors
  unfold idtAttribute
  rw [if_pos syscallInt.isLt]
  dsimp only
  rw [Function.update_apply, hidt, hidt, if_pos (mem_vectors _), if_pos (mem_vectors _),
    setGateDescriptor_attribute]
  split
  · rename_i heq
    rw [heq]
  · rfl

theorem booted_limit : (t.booted entry).limit = 0x7ff := by
  unfold booted syscallInit irqInit isrInt stubInit
  rw [foldl_irq 8 (by omega), foldl_isr 0x14 (by omega), regIntrHandler_eq]
  have hlimit := (foldl_idtSet_list (t := { t.idtInit with intrHandlerList := fun _ => none })
    entry vectors).2
  unfold idtAttribute
  rw [if_pos syscallInt.isLt]
  dsimp only
  rw [hlimit]
  rfl

theorem booted_gate (entry : BitVec 8 → Dword) : ((t.booted entry).idt n).offset = entry n ∧
    ((t.booted entry).idt n).selector = kernelCode ∧
    ((t.booted entry).idt n).gateAttribute =
      if n = syscallInt then gateKernel ||| descDpl3 else gateKernel := by
  have hoffset := setGateDescriptor_offset kernelCode (entry n) gateKernel
  have hselector := setGateDescriptor_selector kernelCode (entry n) gateKernel
  rw [booted_idt]
  split
  · exact ⟨hoffset, hselector, rfl⟩
  · exact ⟨hoffset, hselector, setGateDescriptor_attribute _ _ _⟩

/-- A user program gets through the gate of system calls only. -/
theorem booted_softInt {c : Cpu} (huser : c.seg .cs = userCode) : (t.booted entry).softInt n c =
    if n = syscallInt then (n, none, { c with eip := c.eip + 2 })
    else (0x0d, some (n.setWidth 32 * 8 + 2), c) := by
  have hgate := (booted_gate (t := t) (n := n) entry).2.2
  have hlimit : ¬ (t.booted entry).limit.toNat < 8 * n.toNat + 7 := by
    rw [booted_limit]
    have hn := n.isLt
    change ¬ 0x7ff < _
    omega
  have hrpl : (c.seg .cs).rpl = 3 := by
    rw [huser]
    rfl
  unfold softInt GateDescriptor.isInterrupt GateDescriptor.dpl GateDescriptor.present
  rw [hrpl, hgate]
  by_cases hn : n = syscallInt
  · rw [if_pos hn, if_pos hn, if_neg, if_pos (by decide)]
    rintro (h | h | h)
    · exact hlimit h
    · revert h
      decide
    · revert h
      decide
  · rw [if_neg hn, if_neg hn, if_pos (.inr (.inr (by decide)))]

/-- The processor comes to `int_handler` through the gate. -/
theorem booted_enter {code : Dword → List Instr}
    (hcode : ∀ n, code (entry n) = intEntry n ++ intStub)
    (dpl : Selector → BitVec 2) (errCode : Option Dword) (esp0 : Dword) (c : Cpu) :
    (t.booted entry).enter code dpl n errCode esp0 c =
      intrEnter dpl n errCode esp0 (entry n) c := by
  obtain ⟨hoffset, hselector, -⟩ := booted_gate (t := t) (n := n) entry
  unfold enter intrEnter
  rw [hoffset, hselector, hcode]

end IntrTables

/-! ## System calls -/

section UserInt

variable {k : Kernelspace} {t : IntrTables} {entry : BitVec 8 → Dword} {n : BitVec 8}
  {f f' : IntrRegs}

theorem syscallHandler_returns (h : k.syscallHandler f = .returns f') :
    f' = { f with eax := k.result f.eax f.ebx f.ecx } := by
  unfold Kernelspace.syscallHandler at h
  unfold Kernelspace.result
  generalize f.eax.toNat = m at h ⊢
  match m, h with
  | 0, h => cases h
  | 1, h => exact (Outcome.returns.inj h).symm
  | 2, h => exact (Outcome.returns.inj h).symm
  | 3, h => exact (Outcome.returns.inj h).symm
  | m + 4, h => exact (Outcome.returns.inj h).symm

theorem intHandler_syscall (hcode : f.intCode.toNat = 0xbe) :
    k.intHandler (t.booted entry) f = k.syscallHandler f := by
  unfold Kernelspace.intHandler
  rw [IntrTables.booted_list, hcode]
  rfl

theorem intHandler_protection (hcode : f.intCode = 0x0d) (hcs : f.cs = userCode.setWidth 32) :
    k.intHandler (t.booted entry) f = .exits := by
  unfold Kernelspace.intHandler
  rw [IntrTables.booted_list, hcode]
  change k.isrHandler f = .exits
  unfold Kernelspace.isrHandler Kernelspace.userIsrHandler
  rw [if_pos hcs, hcode, if_neg fun h => absurd h.1 (by decide)]

theorem setWidth_selector (s : Selector) : (s.setWidth 32).setWidth 16 = s := by simp

theorem syscall_goes_on (dpl : Selector → BitVec 2) {esp0 offset eax : Dword} {c h : Cpu}
    (huser : c.seg .cs = userCode)
    (hf : f' = { intrRegs syscallInt none esp0 { c with eip := c.eip + 2 } with eax := eax })
    (hesp : h.esp = (intrEnter dpl syscallInt none esp0 offset { c with eip := c.eip + 2 }).esp)
    (hcs : h.seg .cs = kernelCode) (hframe : Holds h.mem (h.esp + 4) (f'.words true)) :
    let r := exec dpl intStubReturn h
    r.eip = c.eip + 2 ∧ r.reg .eax = eax ∧ (∀ q, q ≠ .eax → r.reg q = c.reg q) ∧
      r.eflags = c.eflags ∧ r.seg .cs = c.seg .cs ∧ r.seg .ss = c.seg .ss ∧ r.mem = h.mem := by
  have houter : fromOuter { c with eip := c.eip + 2 } = true := by
    unfold fromOuter
    rw [huser]
    rfl
  have hcs' : f'.cs.setWidth 16 = c.seg .cs := by
    rw [hf]
    exact setWidth_selector _
  obtain ⟨hback, hmem⟩ := returned_of_frame dpl esp0 offset (n := syscallInt)
    (c := { c with eip := c.eip + 2 }) (f := f')
    (rfl : (none : Option Dword).isSome = withErrCode syscallInt) hesp hcs (congrArg Selector.rpl hcs')
    (houter.symm ▸ hframe)
  rw [houter] at hback
  subst hf
  refine ⟨hback.eip, hback.reg .eax (by decide), fun q hq => ?_, hback.eflags,
    hback.cs.trans hcs', (hback.ss rfl).trans (setWidth_selector _), hmem⟩
  cases q with
  | eax => exact absurd rfl hq
  | esp => exact hback.esp
  | ebx => exact hback.reg .ebx (by decide)
  | ecx => exact hback.reg .ecx (by decide)
  | edx => exact hback.reg .edx (by decide)
  | ebp => exact hback.reg .ebp (by decide)
  | esi => exact hback.reg .esi (by decide)
  | edi => exact hback.reg .edi (by decide)

/-- **What `int` does for a user program.** The processor comes to `int_handler` with the frame of
the program. For `SYSCALL_INT` the program goes on behind the instruction, with what the call
returns in `eax` and all its other registers, its flags and its stack pointer. Every other vector is
a general protection fault, for which `int_handler` ends the program: no user program calls the
handler of a device, or brings the kernel to `panic`. -/
theorem user_int_served (k : Kernelspace) (t : IntrTables) (entry : BitVec 8 → Dword)
    (code : Dword → List Instr) (hcode : ∀ n, code (entry n) = intEntry n ++ intStub)
    (dpl : Selector → BitVec 2) (esp0 : Dword) (n : BitVec 8) {c : Cpu} (huser : c.seg .cs = userCode) :
    let b := t.booted entry
    let (v, errCode, d) := b.softInt n c
    let e := b.enter code dpl v errCode esp0 d
    let f := intrRegs v errCode esp0 d
    Holds e.mem e.esp ((e.esp + 4) :: f.words true) ∧
      (n ≠ syscallInt → f.intCode = 0x0d ∧ f.errCode = n.setWidth 32 * 8 + 2 ∧ f.eip = c.eip ∧
        k.intHandler b f = .exits) ∧
      (n = syscallInt → ∀ (h : Cpu) (f' : IntrRegs), k.intHandler b f = .returns f' →
        h.esp = e.esp → h.seg .cs = kernelCode → Holds h.mem (h.esp + 4) (f'.words true) →
          let r := exec dpl intStubReturn h
          r.eip = c.eip + 2 ∧ r.reg .eax = k.result (c.reg .eax) (c.reg .ebx) (c.reg .ecx) ∧
            (∀ q, q ≠ .eax → r.reg q = c.reg q) ∧ r.eflags = c.eflags ∧
            r.seg .cs = c.seg .cs ∧ r.seg .ss = c.seg .ss ∧ r.mem = h.mem) := by
  have houter : ∀ d : Cpu, d.seg .cs = userCode → fromOuter d = true := by
    intro d hd
    unfold fromOuter
    rw [hd]
    rfl
  dsimp only
  rw [IntrTables.booted_softInt huser]
  by_cases hn : n = syscallInt
  · rw [if_pos hn]
    subst hn
    dsimp only
    rw [IntrTables.booted_enter hcode]
    have hd : fromOuter { c with eip := c.eip + 2 } = true := houter _ huser
    have hholds := intrEnter_holds dpl esp0 (entry syscallInt) (n := syscallInt)
      (c := { c with eip := c.eip + 2 })
      (rfl : (none : Option Dword).isSome = withErrCode syscallInt)
    rw [hd] at hholds
    refine ⟨hholds, fun h => absurd rfl h, fun _ h f' hreturn hesp hcs hframe => ?_⟩
    rw [intHandler_syscall rfl] at hreturn
    exact syscall_goes_on dpl huser (syscallHandler_returns hreturn) hesp hcs hframe
  · rw [if_neg hn]
    dsimp only
    rw [IntrTables.booted_enter hcode]
    have hholds := intrEnter_holds dpl esp0 (entry 0x0d) (n := 0x0d) (c := c)
      (rfl : (some (n.setWidth 32 * 8 + 2 : Dword)).isSome = withErrCode 0x0d)
    rw [houter c huser] at hholds
    refine ⟨hholds, fun _ => ⟨rfl, rfl, rfl, intHandler_protection rfl ?_⟩, fun h => absurd h hn⟩
    exact congrArg (BitVec.setWidth 32) huser

end UserInt

/-- A user program that is about to execute `int` for `put`. -/
def putCpu : Cpu where
  reg r := if r = .eax then 3 else 0x8000
  seg s := if s = .cs then userCode else userData
  eflags := 0x202
  eip := 0x08048000
  mem _ := 0

/-- With entries at the addresses 0 to 255, for a call of `put` that answers 3. -/
theorem user_int_served_put :
    ∃ r : Cpu, r.eip = 0x08048002 ∧ r.reg .eax = 3 ∧ r.reg .esp = 0x8000 := by
  have hserved := user_int_served ⟨0, fun _ _ => 0, fun _ _ => 0, fun _ _ => 3⟩
    ⟨0, fun _ => ⟨0, 0, 0, 0, 0⟩, fun _ => none⟩ (BitVec.setWidth 32)
    (fun o => intEntry (o.setWidth 8) ++ intStub) (fun n => by simp) (fun _ => 3) 0x2000
    syscallInt (c := putCpu) rfl
  dsimp only at hserved
  rw [IntrTables.booted_softInt rfl, if_pos rfl] at hserved
  dsimp only at hserved
  rw [IntrTables.booted_enter fun n => by simp] at hserved
  obtain ⟨hholds, -, hcall⟩ := hserved
  have hcs := (intrEnter_eq (fun _ => 3) 0x2000 (BitVec.setWidth 32 syscallInt) (n := syscallInt)
    (c := { putCpu with eip := putCpu.eip + 2 })
    (rfl : (none : Option Dword).isSome = withErrCode syscallInt)).2.2
  obtain ⟨heip, heax, hreg, -⟩ := hcall rfl _ _ ((intHandler_syscall rfl).trans rfl) rfl hcs hholds.2
  exact ⟨_, heip, heax, hreg .esp (by decide)⟩

end BitchKernel
