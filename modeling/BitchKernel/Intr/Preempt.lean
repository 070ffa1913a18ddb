import BitchKernel.Intr.Stub
import BitchKernel.Process.SwitchRun

/-!
# Interrupted programs and switches

While a process handles an interrupt, it may be switched away, any number of times, and other
processes run and handle interrupts of their own. The words that are on its stack stay through all
of this, so when its handler returns at last, the program goes on with the registers that it was
interrupted with.
-/

namespace BitchKernel

open Lib X86

/-- The process `p` itself leaves the words from `lo` up to `hi` alone and keeps its stack pointer
below them, and it is not freed. -/
def SwitchOp.Spares (p : Dword) (lo hi : ℕ) (s : SwitchRun) : SwitchOp → Prop
  | .run c => s.current = p → SameOn lo hi s.cpu.mem c.mem
  | .switch _ _ => s.current = p → s.cpu.esp.toNat ≤ lo
  | .free q => q ≠ p
  | .create _ _ _ _ => True

/-! ## The words on a stack stay -/

section Stack

variable {dpl : Selector → BitVec 2} {s s' : SwitchRun} {op : SwitchOp} {p prev next back a : Dword}
  {lo hi : ℕ} {mem : Dword → Dword} {c : Cpu} {t : Suspended}

/-- A process that is switched away keeps the words above its stack pointer. -/
theorem callSwitch_above (h : Room prev c) (hready : Ready c.mem next t) (hapart : Apart prev next)
    (hlow : c.esp.toNat ≤ a.toNat) (hhigh : a.toNat < prev.toNat + 0x2000) :
    (callSwitch dpl prev next back c).mem a = c.mem a := by
  have hroom := h.low
  have hstack := callSwitch_ready dpl back h hready hapart
  obtain ⟨-, -, -, -, hmem⟩ := callSwitch_resumes dpl back h hready hapart
  obtain ⟨-, -, -, -, hinside⟩ := saveContext_inside next back h
  have hne : a ≠ t.esp - 8 := by
    have hnot := hapart.not_within (a := a) ⟨by omega, hhigh⟩
    have hlow' := hready.low
    have hhigh' := hready.high
    obtain ⟨-, hsub⟩ := hready.esp_toNat
    unfold Within at hnot
    exact ne_of_toNat_ne (by omega)
  have hargs : pushContexts prev next c = Cpu.pushes [contextOf prev, contextOf next] c := rfl
  rw [hmem, Function.update_of_ne hne, hinside a (by omega), hargs]
  exact Cpu.pushes_outside (by simp only [List.length_cons, List.length_nil]; omega) (.inl hlow)

/-- What holds while the words stay: a process that does not run has its stack pointer below
them. -/
structure Spared (p : Dword) (lo hi : ℕ) (mem : Dword → Dword) (s : SwitchRun) : Prop where
  mem_procs : p ∈ s.procs
  same : SameOn lo hi mem s.cpu.mem
  below : p ≠ s.current → ∃ t, Ready s.cpu.mem p t ∧ t.esp.toNat ≤ lo

theorem Spared.of_step (hinv : SwitchInv s) (hlo : p.toNat + 40 ≤ lo) (hhi : hi ≤ p.toNat + 0x2000)
    (hs : Spared p lo hi mem s) (hop : op.Spares p lo hi s) (hstep : SwitchStep dpl s op s') :
    Spared p lo hi mem s' := by
  have hwithin : ∀ {a : Dword}, lo ≤ a.toNat → a.toNat < hi → Within p a :=
    fun h₁ h₂ => ⟨by omega, by omega⟩
  have hready : ∀ t, p ≠ s.current → op.leaves p → Ready s.cpu.mem p t →
      p ∈ s'.procs ∧ p ≠ s'.current ∧ Ready s'.cpu.mem p t :=
    fun t hne hleave h => hinv.ready_step hstep hs.mem_procs hne hleave h
  cases hstep with
  | run hkept =>
      refine ⟨hs.mem_procs, fun a h₁ h₂ => ?_, fun hne => ?_⟩
      · by_cases hcur : s.current = p
        · exact (hop hcur a h₁ h₂).trans (hs.same a h₁ h₂)
        · have hk : Kept p a := .inr (by omega)
          exact (hkept p hs.mem_procs (Ne.symm hcur) a hk).trans (hs.same a h₁ h₂)
      · obtain ⟨t, ht, hle⟩ := hs.below hne
        exact ⟨t, (hready t hne trivial ht).2.2, hle⟩
  | create hplaced haligned hnew =>
      refine ⟨Finset.mem_insert_of_mem hs.mem_procs, fun a h₁ h₂ => ?_, fun hne => ?_⟩
      · have hout := (hnew p hs.mem_procs).not_within (hwithin h₁ h₂)
        exact (createContext_outside hplaced.le hout).trans (hs.same a h₁ h₂)
      · obtain ⟨t, ht, hle⟩ := hs.below hne
        exact ⟨t, (hready t hne trivial ht).2.2, hle⟩
  | @switch next back hnext hcur hroom haligned =>
      obtain ⟨tn, htn⟩ := hinv.ready next hnext hcur
      have hapart := hinv.apart _ hinv.current _ hnext hcur.symm
      by_cases hp : s.current = p
      · subst hp
        have hesp : s.cpu.esp.toNat ≤ lo := hop rfl
        have hroomLow := hroom.low
        refine ⟨hs.mem_procs, fun a h₁ h₂ => ?_, fun _ => ⟨_, callSwitch_ready dpl _ hroom htn hapart, ?_⟩⟩
        · exact (callSwitch_above hroom htn hapart (by omega) (by omega)).trans (hs.same a h₁ h₂)
        · have hsub : (s.cpu.esp - 8).toNat = s.cpu.esp.toNat - 8 :=
            toNat_sub_of_le (k := 8) (by omega)
          dsimp only
          omega
      · have hout := fun a h₁ h₂ => (hinv.apart _ hs.mem_procs _ hinv.current (Ne.symm hp)).not_within
          (hwithin (a := a) h₁ h₂)
        by_cases hn : next = p
        · subst hn
          obtain ⟨t, ht, hle⟩ := hs.below hcur
          obtain ⟨-, -, -, -, hmem⟩ := callSwitch_resumes dpl back hroom ht hapart
          have hlow := ht.low
          obtain ⟨-, hsub⟩ := ht.esp_toNat
          refine ⟨hs.mem_procs, fun a h₁ h₂ => ?_, fun h => absurd rfl h⟩
          change (callSwitch dpl s.current next back s.cpu).mem a = mem a
          rw [hmem, Function.update_of_ne (ne_of_toNat_ne (by omega)),
            saveContext_outside _ _ hroom (hout a h₁ h₂)]
          exact hs.same a h₁ h₂
        · refine ⟨hs.mem_procs, fun a h₁ h₂ => ?_, fun hne => ?_⟩
          · exact (callSwitch_outside dpl _ hroom htn hapart (hout a h₁ h₂)
              ((hinv.apart _ hs.mem_procs _ hnext (Ne.symm hn)).not_within (hwithin h₁ h₂))).trans
                (hs.same a h₁ h₂)
          · obtain ⟨t, ht, hle⟩ := hs.below (Ne.symm hp)
            exact ⟨t, (hready t (Ne.symm hp) hn ht).2.2, hle⟩
  | free hq hcur =>
      refine ⟨Finset.mem_erase.2 ⟨fun h => hop h.symm, hs.mem_procs⟩, hs.same, fun hne => ?_⟩
      exact hs.below hne

/-- The words on the stack of a process that handles something stay over every run. -/
theorem Spared.of_run (hs : (switchMachine dpl).Reachable s) (hlo : s.current.toNat + 40 ≤ lo)
    (hhi : hi ≤ s.current.toNat + 0x2000)
    (hrun : (((switchMachine dpl).startAt s).restrict
      fun u op => op.Spares s.current lo hi u).Reachable s') :
    Spared s.current lo hi s.cpu.mem s' := by
  refine (hrun.invariant (I := fun u => (switchMachine dpl).Reachable u ∧
    Spared s.current lo hi s.cpu.mem u) ?_ ?_).2
  · intro u hu
    subst hu
    exact ⟨hs, (SwitchInv.of_reachable hs).current, fun _ _ _ => rfl, fun h => absurd rfl h⟩
  · intro u op u' hu hstep
    exact ⟨hu.1.step hstep.2, hu.2.of_step (SwitchInv.of_reachable hu.1) hlo hhi hstep.1 hstep.2⟩

end Stack

/-! ## The frame of an interrupted process -/

section Frame

variable (dpl : Selector → BitVec 2) {n : BitVec 8} {code : Option Dword} (offset : Dword)
  {s u : SwitchRun} {a : Dword}

/-- The process is interrupted, and the stub has called `int_handler`. -/
def SwitchRun.intr (dpl : Selector → BitVec 2) (n : BitVec 8) (code : Option Dword) (offset : Dword)
    (s : SwitchRun) : SwitchRun :=
  { s with cpu := intrEnter dpl n code (s.current + 0x2000) offset s.cpu }

def SwitchRun.intrStack (s : SwitchRun) : Dword := kernelStack (s.current + 0x2000) s.cpu

def SwitchRun.FrameRoom (s : SwitchRun) : Prop :=
  s.current.toNat + 108 ≤ s.intrStack.toNat ∧ s.intrStack.toNat ≤ s.current.toNat + 0x2000

theorem intr_esp_toNat (hcode : code.isSome = withErrCode n) (hroom : s.FrameRoom) :
    let len := if fromOuter s.cpu then 16 else 14
    (s.intr dpl n code offset).cpu.esp.toNat + 4 + 4 * len = s.intrStack.toNat := by
  obtain ⟨hlow, -⟩ := hroom
  obtain ⟨-, hesp, -⟩ := intrEnter_eq dpl (s.current + 0x2000) offset (c := s.cpu) hcode
  have hpush := Cpu.pushes_esp (c := s.cpu.trapBase kernelData (s.current + 0x2000) kernelCode)
    (l := (intrRegs n code (s.current + 0x2000) s.cpu).words (fromOuter s.cpu))
  rw [trapBase_esp, words_length] at hpush
  change (intrEnter dpl n code (s.current + 0x2000) offset s.cpu).esp.toNat + 4 + _ = _
  rw [hesp, hpush]
  unfold SwitchRun.intrStack at hlow ⊢
  generalize kernelStack (s.current + 0x2000) s.cpu = b at *
  have hlen : (if fromOuter s.cpu = true then 16 else 14) ≤ 16 := by split <;> omega
  generalize (if fromOuter s.cpu = true then 16 else 14) = len at *
  have h₁ : (b - BitVec.ofNat 32 (4 * len)).toNat = b.toNat - 4 * len := toNat_sub_of_le (by omega)
  have h₂ : (b - BitVec.ofNat 32 (4 * len) - 4).toNat =
      (b - BitVec.ofNat 32 (4 * len)).toNat - 4 := toNat_sub_of_le (k := 4) (by omega)
  omega

/-- The delivery of an interrupt writes to the stack of the process. -/
theorem intr_outside (hcode : code.isSome = withErrCode n) (hroom : s.FrameRoom)
    (ha : ¬ Within s.current a) : (s.intr dpl n code offset).cpu.mem a = s.cpu.mem a := by
  obtain ⟨hlow, hhigh⟩ := hroom
  obtain ⟨hmem, -⟩ := intrEnter_eq dpl (s.current + 0x2000) offset (c := s.cpu) hcode
  have hbase : (s.cpu.trapBase kernelData (s.current + 0x2000) kernelCode).mem = s.cpu.mem := by
    unfold Cpu.trapBase
    split <;> rfl
  have hlen : (if fromOuter s.cpu = true then 16 else 14) ≤ 16 := by split <;> omega
  refine (congrFun hmem a).trans ?_
  unfold SwitchRun.intrStack at hlow hhigh
  unfold Within at ha
  rw [Cpu.pushes_outside, hbase]
  · rw [List.length_cons, words_length, trapBase_esp]
    omega
  · rw [List.length_cons, words_length, trapBase_esp]
    omega

theorem intr_reachable (hs : (switchMachine dpl).Reachable s) (hcode : code.isSome = withErrCode n)
    (hroom : s.FrameRoom) : (switchMachine dpl).Reachable (s.intr dpl n code offset) := by
  refine hs.step (a := .run (s.intr dpl n code offset).cpu) (SwitchStep.run fun p hp hne a ha => ?_)
  have hinv := SwitchInv.of_reachable hs
  exact intr_outside dpl offset hcode hroom ((hinv.apart p hp _ hinv.current hne).not_within ha.within)

/-- A process that was interrupted goes on with the registers it had, however often it is switched
away before its handler returns, and whatever the others do in the meantime. -/
theorem interrupted_process_goes_on (hs : (switchMachine dpl).Reachable s)
    (hcode : code.isSome = withErrCode n) (hroom : s.FrameRoom)
    (hrun : (((switchMachine dpl).startAt (s.intr dpl n code offset)).restrict fun u op =>
      op.Spares s.current ((s.intr dpl n code offset).cpu.esp.toNat + 4) s.intrStack.toNat u).Reachable
        u)
    (hesp : u.cpu.esp = (s.intr dpl n code offset).cpu.esp) (hcs : u.cpu.seg .cs = kernelCode) :
    GoesOnWith dpl (fromOuter s.cpu) (intrRegs n code (s.current + 0x2000) s.cpu) s.cpu.esp
      (exec dpl intStubReturn u.cpu) := by
  have hlen := intr_esp_toNat dpl offset hcode hroom
  obtain ⟨hlow, hhigh⟩ := hroom
  have hinv := SwitchInv.of_reachable hs
  have hplaced := hinv.placed _ hinv.current
  have hwords := words_length (f := intrRegs n code (s.current + 0x2000) s.cpu) (fromOuter s.cpu)
  have hframe : Holds (s.intr dpl n code offset).cpu.mem ((s.intr dpl n code offset).cpu.esp + 4)
      ((intrRegs n code (s.current + 0x2000) s.cpu).words (fromOuter s.cpu)) :=
    (intrEnter_holds dpl _ offset hcode).2
  have hlen16 : (if fromOuter s.cpu = true then 16 else 14) ≤ 16 := by split <;> omega
  have hsp : ((s.intr dpl n code offset).cpu.esp + 4).toNat =
      (s.intr dpl n code offset).cpu.esp.toNat + 4 := toNat_add_of_lt (k := 4) (by omega)
  have hspared := Spared.of_run (intr_reachable dpl offset hs hcode ⟨hlow, hhigh⟩)
    (by change s.current.toNat + 40 ≤ _; omega) hhigh hrun
  have hsame : SameOn ((s.intr dpl n code offset).cpu.esp + 4).toNat s.intrStack.toNat
      (s.intr dpl n code offset).cpu.mem u.cpu.mem := hsp ▸ hspared.same
  have hkept := hframe.of_sameOn (by rw [hwords]; omega) (by omega) hsame
  have hcsBack : (intrRegs n code (s.current + 0x2000) s.cpu).cs.setWidth 16 = s.cpu.seg .cs := by
    unfold intrRegs
    exact BitVec.setWidth_setWidth_of_le _ (by omega)
  refine (returned_of_frame dpl _ offset hcode hesp hcs (hcsBack ▸ rfl) ?_).1
  rw [hesp]
  exact hkept

end Frame

/-- The first process while it handles a timer interrupt. -/
def firstIntr : SwitchRun := firstRun.intr (fun _ => 0) 0x20 none 0x7000

/-- The runs from there that leave its frame alone. -/
def firstMachine : Machine SwitchRun SwitchOp :=
  ((switchMachine fun _ => 0).startAt firstIntr).restrict fun u op =>
    op.Spares 0x100000 (firstIntr.cpu.esp.toNat + 4) firstRun.intrStack.toNat u

theorem handled_mem (c : Cpu) (v : Dword) :
    ((c.setReg .esp v).setSeg .cs kernelCode).mem = c.mem := rfl

theorem handled_esp (c : Cpu) (v : Dword) : ((c.setReg .esp v).setSeg .cs kernelCode).esp = v := rfl

/-- A process is created while the first one handles a timer interrupt, switched to, and switched
away again; then the handler returns. -/
theorem interrupted_process_goes_on_twice :
    let created := createContext 0x200000 0x5000 7 0x6000 firstIntr.cpu.mem
    let away := callSwitch (fun _ => 0) 0x100000 0x200000 0x4000 { firstIntr.cpu with mem := created }
    let back := callSwitch (fun _ => 0) 0x200000 0x100000 0x4000 away
    let c := exec (fun _ => 0) intStubReturn
      ((back.setReg .esp firstIntr.cpu.esp).setSeg .cs kernelCode)
    c.esp = 0x102000 ∧ c.eip = 0 ∧ c.eflags = 0x200 := by
  intro created away back c
  have hinit : (switchMachine fun _ => 0).Reachable firstRun := .init ⟨rfl, by decide⟩
  have hroom : firstRun.FrameRoom := ⟨by decide, by decide⟩
  have hapart : ∀ p ∈ firstIntr.procs, Apart p 0x200000 := fun p hp => by
    rw [Finset.mem_singleton.1 hp]
    exact .inl (by decide)
  have hcreate : firstMachine.step firstIntr (.create 0x200000 0x5000 7 0x6000)
      ⟨{ firstIntr.cpu with mem := created }, 0x100000, {0x200000, 0x100000}⟩ :=
    ⟨trivial, .create (by decide) (by decide) hapart⟩
  have haway : firstMachine.step
      ⟨{ firstIntr.cpu with mem := created }, 0x100000, {0x200000, 0x100000}⟩
      (.switch 0x200000 0x4000) ⟨away, 0x200000, {0x200000, 0x100000}⟩ :=
    ⟨fun _ => by decide, .switch (by decide) (by decide) ⟨by decide, by decide, by decide⟩
      (by decide)⟩
  have hesp : away.esp = 0x201ff8 := by decide
  have hback : firstMachine.step ⟨away, 0x200000, {0x200000, 0x100000}⟩ (.switch 0x100000 0x4000)
      ⟨back, 0x100000, {0x200000, 0x100000}⟩ :=
    ⟨fun h => absurd h (by decide), .switch (by decide) (by decide)
      ⟨by decide, hesp ▸ by decide, hesp ▸ by decide⟩ (hesp ▸ by decide)⟩
  have hhandled : firstMachine.step ⟨back, 0x100000, {0x200000, 0x100000}⟩
      (.run ((back.setReg .esp firstIntr.cpu.esp).setSeg .cs kernelCode))
      ⟨(back.setReg .esp firstIntr.cpu.esp).setSeg .cs kernelCode, 0x100000,
        {0x200000, 0x100000}⟩ :=
    ⟨fun _ a _ _ => congrFun (handled_mem back _) a, .run fun _ _ _ a _ =>
      congrFun (handled_mem back _) a⟩
  have hrun := (((Machine.Reachable.init rfl).step hcreate).step haway).step hback |>.step hhandled
  have hret := interrupted_process_goes_on _ _ hinit rfl hroom hrun (handled_esp back _)
    (Cpu.setSeg_self _ _)
  exact ⟨hret.esp, hret.eip, hret.eflags⟩

end BitchKernel
