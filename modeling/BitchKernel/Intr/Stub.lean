import BitchKernel.Lib.X86

/-!
# The interrupt stub

`int_stub` of `kernel/intr/intstub.S` with the 256 entries that lead to it. The delivery of an
interrupt and the stub leave a `_intr_regs_t` on the stack, and hand its address to `int_handler`;
when the handler has returned, the stub takes the registers from there. Whatever the handler did
besides, the program that was interrupted goes on with the registers of the frame.
-/

namespace BitchKernel

open Lib X86

def selector (n rpl : Selector) : Selector := n <<< 3 ||| rpl

/-- `selector(GDT_KERNEL_CODE_INDEX, SEL_RPL0)`. -/
def kernelCode : Selector := selector 1 0

/-- `selector(GDT_KERNEL_DATA_INDEX, SEL_RPL0)`. -/
def kernelData : Selector := selector 2 0

/-- `selector(GDT_USER_CODE_INDEX, SEL_RPL3)`. -/
def userCode : Selector := selector 3 3

/-- `selector(GDT_USER_DATA_INDEX, SEL_RPL3)`. -/
def userData : Selector := selector 4 3

/-- The vectors whose entry is written with `inte`: the processor pushes an error code for them. -/
def withErrCode (n : BitVec 8) : Bool := [0x08, 0x0a, 0x0b, 0x0c, 0x0d, 0x0e, 0x11].contains n

/-- The macros `int` and `inte`. -/
def intEntry (n : BitVec 8) : List Instr :=
  if withErrCode n then [.cli, .pushl (.imm (n.setWidth 32))]
  else [.cli, .pushl (.imm 0), .pushl (.imm (n.setWidth 32))]

/-- `int_stub`, up to the call of `int_handler`. -/
def intStub : List Instr :=
  [.pusha,
   .movwFrom .ds .eax,
   .pushl (.reg .eax),
   .movwImm kernelData .eax,
   .movwTo .eax .ds,
   .movwTo .eax .es,
   .movwTo .eax .fs,
   .movwTo .eax .gs,
   .movwTo .eax .ss,
   .pushl (.reg .esp)]

/-- `int_stub`, after the call, up to `iret`. -/
def intStubRestore : List Instr :=
  [.addl 4 .esp,
   .popl .ebx,
   .movwTo .ebx .ds,
   .movwTo .ebx .es,
   .movwTo .ebx .fs,
   .movwTo .ebx .gs,
   .popa,
   .addl 8 .esp]

/-- `int_stub`, after the call. -/
def intStubReturn : List Instr := intStubRestore ++ [.iret]

/-- `_intr_regs_t`. -/
structure IntrRegs where
  ds : Dword
  edi : Dword
  esi : Dword
  ebp : Dword
  esp : Dword
  ebx : Dword
  edx : Dword
  ecx : Dword
  eax : Dword
  intCode : Dword
  errCode : Dword
  eip : Dword
  cs : Dword
  eflags : Dword
  useresp : Dword
  ss : Dword

namespace IntrRegs

/-- The words of the frame; the last two are there when the interrupt came from an outer level. -/
def words (f : IntrRegs) (outer : Bool) : List Dword :=
  [f.ds, f.edi, f.esi, f.ebp, f.esp, f.ebx, f.edx, f.ecx, f.eax, f.intCode, f.errCode, f.eip, f.cs,
    f.eflags] ++ if outer then [f.useresp, f.ss] else []

/-- The registers that a program comes back with. -/
def reg (f : IntrRegs) : Reg → Dword
  | .eax => f.eax
  | .ecx => f.ecx
  | .edx => f.edx
  | .ebx => f.ebx
  | .esp => f.useresp
  | .ebp => f.ebp
  | .esi => f.esi
  | .edi => f.edi

end IntrRegs

/-- The interrupt comes from another level than the kernel's. -/
def fromOuter (c : Cpu) : Bool := (c.seg .cs).rpl ≠ kernelCode.rpl

/-- The stack an interrupt of `c` is handled on: its own, or that of the task state. -/
def kernelStack (esp0 : Dword) (c : Cpu) : Dword := if fromOuter c then esp0 else c.esp

/-- The frame of an interrupt `n` of `c`. -/
def intrRegs (n : BitVec 8) (code : Option Dword) (esp0 : Dword) (c : Cpu) : IntrRegs where
  ds := (c.reg .eax).extractLsb' 16 16 ++ c.seg .ds
  edi := c.reg .edi
  esi := c.reg .esi
  ebp := c.reg .ebp
  esp := kernelStack esp0 c - if fromOuter c then 28 else 20
  ebx := c.reg .ebx
  edx := c.reg .edx
  ecx := c.reg .ecx
  eax := c.reg .eax
  intCode := n.setWidth 32
  errCode := code.getD 0
  eip := c.eip
  cs := (c.seg .cs).setWidth 32
  eflags := c.eflags
  useresp := c.esp
  ss := (c.seg .ss).setWidth 32

/-- An interrupt `n` is delivered and the stub runs up to the call of `int_handler`. -/
def intrEnter (dpl : Selector → BitVec 2) (n : BitVec 8) (code : Option Dword) (esp0 offset : Dword)
    (c : Cpu) : Cpu :=
  exec dpl (intEntry n ++ intStub) (c.interrupt kernelData esp0 kernelCode offset code)

/-! ## The frame -/

section Enter

variable (dpl : Selector → BitVec 2) {n : BitVec 8} {code : Option Dword} (esp0 offset : Dword)
  {c : Cpu}

theorem exec_intEntry :
    let words := n.setWidth 32 :: if withErrCode n then [] else [0]
    let e := exec dpl (intEntry n) c
    e.mem = (Cpu.pushes words c).mem ∧ e.esp = (Cpu.pushes words c).esp ∧
      (∀ r, r ≠ .esp → e.reg r = c.reg r) ∧ e.seg = c.seg := by
  unfold intEntry
  split
  · exact ⟨rfl, rfl, fun r hr => Cpu.push_reg hr, rfl⟩
  · exact ⟨rfl, rfl, fun r hr => (Cpu.push_reg hr).trans (Cpu.push_reg hr), rfl⟩

theorem exec_intStub :
    let regs := [(c.reg .eax).extractLsb' 16 16 ++ c.seg .ds, c.reg .edi, c.reg .esi, c.reg .ebp,
      c.esp, c.reg .ebx, c.reg .edx, c.reg .ecx, c.reg .eax]
    let e := exec dpl intStub c
    e.mem = (Cpu.pushes ((Cpu.pushes regs c).esp :: regs) c).mem ∧
      e.esp = (Cpu.pushes regs c).esp - 4 ∧ e.seg .cs = c.seg .cs ∧ e.eflags = c.eflags := by
  unfold intStub exec
  simp [Instr.exec, Cpu.pusha, Cpu.push, Cpu.setReg, Cpu.setMem, Cpu.setSeg, Cpu.setLow, Cpu.load,
    Cpu.pushes, Cpu.esp]

def trapFrame (n : BitVec 8) (code : Option Dword) (c : Cpu) : List Dword :=
  [n.setWidth 32, code.getD 0, c.eip, (c.seg .cs).setWidth 32, c.eflags] ++
    if fromOuter c then [c.esp, (c.seg .ss).setWidth 32] else []

theorem trapFrame_eq (hcode : code.isSome = withErrCode n) :
    (n.setWidth 32 :: if withErrCode n then [] else [0]) ++ c.trapWords kernelCode code =
      trapFrame n code c := by
  unfold Cpu.trapWords trapFrame fromOuter
  rw [← hcode]
  by_cases h : (c.seg .cs).rpl = kernelCode.rpl <;> cases code <;> simp [h]

theorem trapBase_esp : (c.trapBase kernelData esp0 kernelCode).esp = kernelStack esp0 c := by
  unfold Cpu.trapBase kernelStack fromOuter
  by_cases h : (c.seg .cs).rpl = kernelCode.rpl
  · simp [h]
  · simp [h, Cpu.esp, Cpu.setReg, Cpu.setSeg]

theorem trapFrame_esp : (Cpu.pushes (trapFrame n code c) (c.trapBase kernelData esp0 kernelCode)).esp =
    (intrRegs n code esp0 c).esp := by
  rw [Cpu.pushes_esp, trapBase_esp]
  unfold trapFrame intrRegs
  by_cases h : fromOuter c <;> simp [h]

theorem exec_intEntry_interrupt (hcode : code.isSome = withErrCode n) :
    let base := c.trapBase kernelData esp0 kernelCode
    let d := exec dpl (intEntry n) (c.interrupt kernelData esp0 kernelCode offset code)
    d.mem = (Cpu.pushes (trapFrame n code c) base).mem ∧
      d.esp = (Cpu.pushes (trapFrame n code c) base).esp ∧ (∀ r, r ≠ .esp → d.reg r = c.reg r) ∧
      d.seg .ds = c.seg .ds ∧ d.seg .cs = kernelCode := by
  obtain ⟨hmem, hesp, hreg, hseg⟩ := exec_intEntry dpl (n := n)
    (c := c.interrupt kernelData esp0 kernelCode offset code)
  have htrap : (c.interrupt kernelData esp0 kernelCode offset code).mem = (Cpu.pushes
    (c.trapWords kernelCode code) (c.trapBase kernelData esp0 kernelCode)).mem := Cpu.interrupt_mem
  obtain ⟨hm, hs⟩ := Cpu.pushes_congr (l := n.setWidth 32 :: if withErrCode n then [] else [0])
    htrap Cpu.interrupt_esp
  dsimp only
  rw [← trapFrame_eq hcode, Cpu.pushes_append]
  refine ⟨hmem.trans hm, hesp.trans hs, fun r hr => (hreg r hr).trans (Cpu.interrupt_reg hr), ?_, ?_⟩
  · rw [hseg, Cpu.interrupt_seg (by decide) (by decide)]
  · rw [hseg, Cpu.interrupt_cs]

/-- `int_handler` is called with the address of the frame, which has the registers of the program
that was interrupted. -/
theorem intrEnter_eq (hcode : code.isSome = withErrCode n) :
    let base := c.trapBase kernelData esp0 kernelCode
    let regs := (intrRegs n code esp0 c).words (fromOuter c)
    let e := intrEnter dpl n code esp0 offset c
    e.mem = (Cpu.pushes ((Cpu.pushes regs base).esp :: regs) base).mem ∧
      e.esp = (Cpu.pushes regs base).esp - 4 ∧ e.seg .cs = kernelCode := by
  obtain ⟨hmem, hesp, hreg, hds, hcs⟩ := exec_intEntry_interrupt dpl esp0 offset (c := c) hcode
  dsimp only
  unfold intrEnter
  rw [exec_append]
  generalize exec dpl (intEntry n) (c.interrupt kernelData esp0 kernelCode offset code) = d at *
  have hwords : (intrRegs n code esp0 c).words (fromOuter c) =
      [(d.reg .eax).extractLsb' 16 16 ++ d.seg .ds, d.reg .edi, d.reg .esi, d.reg .ebp,
        d.esp, d.reg .ebx, d.reg .edx, d.reg .ecx, d.reg .eax] ++ trapFrame n code c := by
    rw [hds, hesp, trapFrame_esp, hreg _ (by decide), hreg _ (by decide), hreg _ (by decide),
      hreg _ (by decide), hreg _ (by decide), hreg _ (by decide), hreg _ (by decide)]
    rfl
  obtain ⟨hstub, hstubEsp, hstubCs, -⟩ := exec_intStub dpl (c := d)
  have hpushes := fun l => Cpu.pushes_congr (l := l) hmem hesp
  rw [hwords, Cpu.pushes_append, ← List.cons_append, Cpu.pushes_append, ← (hpushes _).1,
    ← (hpushes _).2]
  exact ⟨hstub, hstubEsp, hstubCs.trans hcs⟩

end Enter

/-! ## The return -/

section Return

variable (dpl : Selector → BitVec 2) {c : Cpu} {f : IntrRegs} {ptr : Dword} {outer : Bool}

/-- The data segment of the frame, as it is left by `iret`. -/
def returnSeg (dpl : Selector → BitVec 2) (outer : Bool) (f : IntrRegs) : Selector :=
  let ds : Selector := f.ds.setWidth 16
  if outer then Cpu.outward dpl (Selector.rpl (f.cs.setWidth 16)) ds else ds

/-- The program goes on with the frame `f`; without an outer level its stack starts at `esp`. -/
structure GoesOnWith (dpl : Selector → BitVec 2) (outer : Bool) (f : IntrRegs) (esp : Dword)
    (c : Cpu) : Prop where
  reg : ∀ r, r ≠ .esp → c.reg r = f.reg r
  esp : c.esp = if outer then f.useresp else esp
  eip : c.eip = f.eip
  eflags : c.eflags = f.eflags
  cs : c.seg .cs = f.cs.setWidth 16
  data : ∀ s, s ≠ .cs → s ≠ .ss → c.seg s = returnSeg dpl outer f
  ss : outer = true → c.seg .ss = f.ss.setWidth 16

theorem add_eight (x : Dword) : x + 8 = x + 4 + 4 := (BitVec.add_assoc x 4 4).symm

/-- The stub takes the registers and the data segments from the frame. -/
theorem exec_intStubRestore (h : Holds c.mem c.esp (ptr :: f.words outer)) :
    let d := exec dpl intStubRestore c
    (∀ r, r ≠ .esp → d.reg r = f.reg r) ∧ d.esp = c.esp + 48 ∧
      Holds d.mem d.esp ([f.eip, f.cs, f.eflags] ++ if outer then [f.useresp, f.ss] else []) ∧
      d.mem = c.mem ∧ d.seg .cs = c.seg .cs ∧
      ∀ s, s ≠ .cs → s ≠ .ss → d.seg s = f.ds.setWidth 16 := by
  obtain ⟨-, hds, hedi, hesi, hebp, -, hebx, hedx, hecx, heax, -, -, hrest⟩ := h
  have hesp : (exec dpl intStubRestore c).esp =
      c.esp + 4 + 4 + 4 + 4 + 4 + 4 + 4 + 4 + 4 + 4 + 8 := rfl
  refine ⟨fun r hr => ?_, ?_, ?_, rfl, rfl, fun s hcs hss => ?_⟩
  · cases r with
    | eax => exact heax
    | ecx => exact hecx
    | edx => exact hedx
    | ebx => exact hebx
    | esp => exact absurd rfl hr
    | ebp => exact hebp
    | esi => exact hesi
    | edi => exact hedi
  · simp only [hesp, BitVec.add_assoc]
    rfl
  · rw [hesp, add_eight]
    exact hrest
  · have hds' := congrArg (BitVec.setWidth 16) hds
    cases s with
    | cs => exact absurd rfl hcs
    | ss => exact absurd rfl hss
    | ds => exact hds'
    | es => exact hds'
    | fs => exact hds'
    | gs => exact hds'

theorem exec_intStubReturn (h : Holds c.mem c.esp (ptr :: f.words outer))
    (houter : outer = decide (Selector.rpl (f.cs.setWidth 16) ≠ (c.seg .cs).rpl)) :
    GoesOnWith dpl outer f (c.esp + 60) (exec dpl intStubReturn c) ∧
      (exec dpl intStubReturn c).mem = c.mem := by
  obtain ⟨hreg, hesp, hholds, hmem, hcs, hseg⟩ := exec_intStubRestore dpl h
  unfold intStubReturn
  rw [exec_append]
  generalize exec dpl intStubRestore c = d at *
  cases outer with
  | false =>
      have hlevel : Selector.rpl (f.cs.setWidth 16) = (d.seg .cs).rpl := by
        rw [hcs]
        simpa using houter.symm
      have hback := Cpu.iret_same dpl hholds hlevel
      have hiret : exec dpl [.iret] d = d.iret dpl := rfl
      rw [hiret, hback]
      refine ⟨⟨fun r hr => ?_, ?_, rfl, rfl, ?_, fun s hc hs => ?_, fun h => nomatch h⟩,
        hmem⟩
      · exact (Cpu.drop_reg hr).trans ((Cpu.drop_reg hr).trans ((Cpu.drop_reg hr).trans (hreg r hr)))
      · refine (Cpu.drop_esp (c := d.drop.drop)).trans ?_
        rw [Cpu.drop_esp, Cpu.drop_esp, hesp]
        simp only [BitVec.add_assoc]
        rfl
      · exact Cpu.setSeg_self (c := d.drop.drop.drop) .cs (f.cs.setWidth 16)
      · exact (Function.update_of_ne hc _ _).trans (hseg s hc hs)
  | true =>
      have hlevel : Selector.rpl (f.cs.setWidth 16) ≠ (d.seg .cs).rpl := by
        rw [hcs]
        simpa using houter.symm
      have hback := Cpu.iret_outer dpl hholds hlevel
      have hiret : exec dpl [.iret] d = d.iret dpl := rfl
      rw [hiret, hback]
      refine ⟨⟨fun r hr => ?_, rfl, rfl, rfl, rfl, fun s hc hs => ?_,
        fun _ => rfl⟩, hmem⟩
      · refine (Function.update_of_ne hr _ _).trans ?_
        exact (Cpu.drop_reg hr).trans ((Cpu.drop_reg hr).trans ((Cpu.drop_reg hr).trans (hreg r hr)))
      · have hds := hseg s hc hs
        cases s with
        | cs => exact absurd rfl hc
        | ss => exact absurd rfl hs
        | ds => exact congrArg (Cpu.outward dpl _) hds
        | es => exact congrArg (Cpu.outward dpl _) hds
        | fs => exact congrArg (Cpu.outward dpl _) hds
        | gs => exact congrArg (Cpu.outward dpl _) hds

end Return

/-! ## Interrupt and return -/

section Interrupt

variable (dpl : Selector → BitVec 2) {n : BitVec 8} {code : Option Dword} (esp0 offset : Dword)
  {c h : Cpu} {f : IntrRegs}

theorem words_length (outer : Bool) : (f.words outer).length = if outer then 16 else 14 := by
  cases outer <;> rfl

/-- `int_handler` finds the frame behind its argument. -/
theorem intrEnter_holds (hcode : code.isSome = withErrCode n) :
    let e := intrEnter dpl n code esp0 offset c
    Holds e.mem e.esp ((e.esp + 4) :: (intrRegs n code esp0 c).words (fromOuter c)) := by
  obtain ⟨hmem, hesp, -⟩ := intrEnter_eq dpl esp0 offset (c := c) hcode
  dsimp only
  have hlen : ((intrRegs n code esp0 c).words (fromOuter c)).length ≤ 16 := by
    rw [words_length]
    split <;> omega
  rw [hmem, hesp, BitVec.sub_add_cancel]
  refine Eq.subst (motive := fun sp => Holds _ sp _) Cpu.push_esp (Cpu.pushes_holds ?_)
  rw [List.length_cons]
  omega

theorem intrEnter_esp (hcode : code.isSome = withErrCode n) (houter : fromOuter c = false) :
    (intrEnter dpl n code esp0 offset c).esp + 60 = c.esp := by
  obtain ⟨-, hesp, -⟩ := intrEnter_eq dpl esp0 offset (c := c) hcode
  rw [hesp, Cpu.pushes_esp, trapBase_esp, words_length, houter]
  unfold kernelStack
  rw [houter]
  exact (sub_sub_ofNat c.esp 56 4).symm ▸ BitVec.sub_add_cancel _ _

theorem returned_of_frame (hcode : code.isSome = withErrCode n)
    (hesp : h.esp = (intrEnter dpl n code esp0 offset c).esp) (hcs : h.seg .cs = kernelCode)
    (hlevel : Selector.rpl (f.cs.setWidth 16) = (c.seg .cs).rpl)
    (hframe : Holds h.mem (h.esp + 4) (f.words (fromOuter c))) :
    GoesOnWith dpl (fromOuter c) f c.esp (exec dpl intStubReturn h) ∧
      (exec dpl intStubReturn h).mem = h.mem := by
  have hcons : Holds h.mem h.esp (h.mem h.esp :: f.words (fromOuter c)) := ⟨rfl, hframe⟩
  have houter : fromOuter c = decide (Selector.rpl (f.cs.setWidth 16) ≠ (h.seg .cs).rpl) := by
    rw [hlevel, hcs]
    rfl
  obtain ⟨hback, hmem⟩ := exec_intStubReturn dpl hcons houter
  refine ⟨⟨hback.reg, hback.esp.trans ?_, hback.eip, hback.eflags, hback.cs, hback.data, hback.ss⟩,
    hmem⟩
  cases hout : fromOuter c with
  | false =>
      rw [hesp, intrEnter_esp _ _ _ hcode hout]
  | true => rfl

/-- Every interrupt hands its handler a frame with the registers of the program, and the program
goes on with what the handler leaves there. -/
theorem interrupt_round_trip (hcode : code.isSome = withErrCode n) :
    let e := intrEnter dpl n code esp0 offset c
    Holds e.mem e.esp ((e.esp + 4) :: (intrRegs n code esp0 c).words (fromOuter c)) ∧
      ∀ (h : Cpu) (f : IntrRegs), h.esp = e.esp → h.seg .cs = kernelCode →
        Selector.rpl (f.cs.setWidth 16) = (c.seg .cs).rpl →
        Holds h.mem (h.esp + 4) (f.words (fromOuter c)) →
        GoesOnWith dpl (fromOuter c) f c.esp (exec dpl intStubReturn h) ∧
          (exec dpl intStubReturn h).mem = h.mem :=
  ⟨intrEnter_holds dpl esp0 offset hcode, fun _ _ hesp hcs hlevel hframe =>
    returned_of_frame dpl esp0 offset hcode hesp hcs hlevel hframe⟩

end Interrupt

/-- A program in the kernel, with its stack pointer at the top of a stack. -/
def idleCpu : Cpu where
  reg _ := 0x102000
  seg _ := kernelCode
  eflags := 0x200
  eip := 0x1234
  mem _ := 0

theorem interrupt_round_trip_timer :
    let e := intrEnter (fun _ => 0) 0x20 none 0x102000 0x7000 idleCpu
    let c := exec (fun _ => 0) intStubReturn e
    e.mem e.esp = e.esp + 4 ∧ c.eip = 0x1234 ∧ c.eflags = 0x200 ∧ c.esp = 0x102000 := by
  have hcs : (intrEnter (fun _ => 0) 0x20 none 0x102000 0x7000 idleCpu).seg .cs = kernelCode :=
    (intrEnter_eq (fun _ => 0) 0x102000 0x7000 (n := 0x20) (c := idleCpu) rfl).2.2
  obtain ⟨hframe, hreturn⟩ := interrupt_round_trip (fun _ => 0) 0x102000 0x7000 (n := 0x20)
    (c := idleCpu) (rfl : (none : Option Dword).isSome = withErrCode 0x20)
  obtain ⟨hback, -⟩ := hreturn _ _ rfl hcs rfl hframe.2
  exact ⟨hframe.1, hback.eip, hback.eflags, hback.esp⟩

end BitchKernel
