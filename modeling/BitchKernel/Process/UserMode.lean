import Mathlib.Data.BitVec
import BitchKernel.Intr.Stub

/-!
# The way to user mode

`switch_to_user_mode` of `kernel/process/switch.S` leaves the kernel through the frame of an
interrupt that never was.
-/

namespace BitchKernel

open Lib X86

/-- `switch_to_user_mode`, up to `iret`. -/
def switchToUserFrame : List Instr :=
  [.cli,
   .movwImm userData .eax,
   .movwTo .eax .ds,
   .movwTo .eax .es,
   .movwTo .eax .fs,
   .movwTo .eax .gs,
   .movl (.at 8 .esp) (.reg .eax),
   .pushl (.imm (userData.setWidth 32)),
   .pushl (.reg .eax),
   .pushf,
   .popl .eax,
   .orl flagIf .eax,
   .pushl (.reg .eax),
   .pushl (.imm (userCode.setWidth 32)),
   .pushl (.at 20 .esp)]

def switchToUserMode : List Instr := switchToUserFrame ++ [.iret]

section UserMode

variable (dpl : Selector → BitVec 2) {c : Cpu} {entry stackTop back : Dword}

/-- The words that are pushed before the entry point. -/
def userWords (eflags stackTop : Dword) : List Dword :=
  [userCode.setWidth 32, (eflags &&& ~~~flagIf) ||| flagIf, stackTop, userData.setWidth 32]

theorem exec_switchToUserFrame :
    let words := userWords c.eflags (c.mem (c.esp + 8))
    let entry := (Cpu.pushes words c).mem ((Cpu.pushes words c).esp + 20)
    let d := exec dpl switchToUserFrame c
    d.mem = (Cpu.pushes (entry :: words) c).mem ∧ d.esp = (Cpu.pushes (entry :: words) c).esp := by
  unfold switchToUserFrame exec userWords
  simp [Instr.exec, Cpu.push, Cpu.setReg, Cpu.setMem, Cpu.setSeg, Cpu.setLow, Cpu.load, Cpu.store,
    Cpu.drop, Cpu.top, Cpu.pushes, Cpu.esp]

theorem switchToUserFrame_holds (h : Holds c.mem c.esp [back, entry, stackTop]) :
    let d := exec dpl switchToUserFrame c
    Holds d.mem d.esp (entry :: userWords c.eflags stackTop) := by
  obtain ⟨hmem, hesp⟩ := exec_switchToUserFrame dpl (c := c)
  have htop : c.mem (c.esp + 8) = stackTop := by
    rw [add_eight]
    exact h.2.2.1
  rw [htop] at hmem hesp
  have hwords := Cpu.pushes_holds_append (l := userWords c.eflags stackTop) h (by simp [userWords])
  have hentry : (Cpu.pushes (userWords c.eflags stackTop) c).mem
      ((Cpu.pushes (userWords c.eflags stackTop) c).esp + 20) = entry := by
    generalize Cpu.pushes (userWords c.eflags stackTop) c = d at hwords
    have haddr : d.esp + 20 = d.esp + 4 + 4 + 4 + 4 + 4 := by simp only [BitVec.add_assoc]; rfl
    rw [haddr]
    exact hwords.2.2.2.2.2.1
  rw [hentry] at hmem hesp
  dsimp only
  rw [hmem, hesp]
  exact Cpu.pushes_holds (by simp [userWords])

theorem exec_switchToUserFrame_seg {s : Seg} (hcs : s ≠ .cs) (hss : s ≠ .ss) :
    (exec dpl switchToUserFrame c).seg s = userData := by
  have hlow := BitVec.setWidth_append_eq_right (a := (c.reg .eax).extractLsb' 16 16) (b := userData)
  cases s with
  | cs => exact absurd rfl hcs
  | ss => exact absurd rfl hss
  | ds => exact hlow
  | es => exact hlow
  | fs => exact hlow
  | gs => exact hlow

theorem or_flagIf (v : Dword) : (v &&& ~~~flagIf) ||| flagIf = v ||| flagIf := by
  ext i hi
  simp only [BitVec.getElem_or, BitVec.getElem_and, BitVec.getElem_not]
  cases flagIf[i] <;> simp

/-- The process goes on in user mode at `entry`, on the stack it is given, with interrupts on. -/
theorem switch_to_user_mode_enters (h : Holds c.mem c.esp [back, entry, stackTop])
    (hcs : c.seg .cs = kernelCode) (hdpl : dpl userData = 3) :
    let u := exec dpl switchToUserMode c
    u.eip = entry ∧ u.esp = stackTop ∧ u.seg .cs = userCode ∧ (∀ s, s ≠ .cs → u.seg s = userData) ∧
      u.eflags = c.eflags ||| flagIf ∧ fromOuter u = true := by
  have hframe := switchToUserFrame_holds dpl h
  have hseg := fun {s} => exec_switchToUserFrame_seg dpl (c := c) (s := s)
  have hlevel : Selector.rpl ((userCode.setWidth 32).setWidth 16) ≠
      ((exec dpl switchToUserFrame c).seg .cs).rpl := by
    have hkernel : (exec dpl switchToUserFrame c).seg .cs = kernelCode := hcs
    rw [hkernel]
    decide
  have hback := Cpu.iret_outer dpl hframe hlevel
  dsimp only
  unfold switchToUserMode
  rw [exec_append]
  generalize exec dpl switchToUserFrame c = d at *
  have hiret : exec dpl [.iret] d = d.iret dpl := rfl
  have hstay : ∀ s, s = userData →
      Cpu.outward dpl (Selector.rpl ((userCode.setWidth 32).setWidth 16)) s = userData := by
    intro s hs
    unfold Cpu.outward
    rw [hs, hdpl, if_neg (by decide)]
  rw [hiret, hback]
  have houter : decide (Selector.rpl ((userCode.setWidth 32).setWidth 16) ≠ kernelCode.rpl) = true := by
    decide
  refine ⟨rfl, rfl, rfl, fun s hs => ?_, or_flagIf _, houter⟩
  cases s with
  | cs => exact absurd rfl hs
  | ss => rfl
  | ds => exact hstay _ (hseg (by decide) (by decide))
  | es => exact hstay _ (hseg (by decide) (by decide))
  | fs => exact hstay _ (hseg (by decide) (by decide))
  | gs => exact hstay _ (hseg (by decide) (by decide))

end UserMode

/-- The call of `switch_to_user_mode(0x8048000, 0xc0000000)`. -/
def userCall : Cpu where
  reg _ := 0x101ff4
  seg _ := kernelCode
  eflags := 0x200
  eip := 0
  mem := Function.update (Function.update (fun _ => 0) 0x101ff8 0x8048000) 0x101ffc 0xc0000000

def userLevel (s : Selector) : BitVec 2 := if s = userData then 3 else 0

theorem switch_to_user_mode_enters_program :
    let u := exec userLevel switchToUserMode userCall
    u.eip = 0x8048000 ∧ u.esp = 0xc0000000 ∧ u.eflags = 0x200 ||| flagIf := by
  have hstack : Holds userCall.mem userCall.esp [0, 0x8048000, 0xc0000000] :=
    ⟨by decide, by decide, by decide, trivial⟩
  obtain ⟨heip, hesp, -, -, heflags, -⟩ := switch_to_user_mode_enters userLevel hstack rfl rfl
  exact ⟨heip, hesp, heflags⟩

end BitchKernel
