import BitchKernel.Lib.Custody
import BitchKernel.Mm.KernelHalf

/-!
# The directory the processor runs on

`exec` takes up a page directory for a process, `process_switch` loads the directory of the
process it switches to when that differs from the one of the process it leaves, and `exec_exit`
gives the directory back. When `kmalloc` has no room for the copy of the path, `exec` returns
without `umm_free`, and nobody has the directory any more. The calls are taken apart at the places
where a timer interrupt may switch the process away, so a process may lose the processor between
the store to its `pde` field and `load_pde`, and again before `umm_free`. A directory is named by
its page, and `none` is `kernel_mmap_pde`.
-/

namespace BitchKernel

open Lib

/-- Where a process stands in a call that takes up a directory or gives one back. -/
inductive PdePhase
  /-- Neither. -/
  | plain
  /-- In `exec`, between `umm_alloc_pde` and `process_create`. -/
  | building (d : ℕ)
  /-- In `exec_exit`, before `load_pde(kernel_mmap_pde)`. -/
  | leaving (d : ℕ)
  /-- In `exec_exit`, before `umm_free`. -/
  | loaded (d : ℕ)
  /-- In `process_exit`. -/
  | exited
deriving DecidableEq

/-- The memory management, the ring of processes with the `pde` field of each, the
`current_process`, the directory in `cr3`, and the process whose stack is in `globl_tss.esp0`. -/
structure LoadRun extends UmmRun where
  procs : Finset ℕ
  pde : ℕ → Option ℕ
  phase : ℕ → PdePhase
  current : ℕ
  cr3 : Option ℕ
  esp0 : Option ℕ
  lost : Finset ℕ

inductive LoadOp
  | call (call : MemCall)
  | execAlloc
  | execNoCopy
  | execCreate (q : ℕ)
  | execFails
  | exitClear
  | exitLoad
  | exitFree
  | switch (next : ℕ)
  | free (p : ℕ)

namespace LoadRun

/-- The current process goes on in another place. -/
def setPhase (s : LoadRun) (ph : PdePhase) : LoadRun :=
  { s with phase := Function.update s.phase s.current ph }

/-- `process_create` in `exec`: the new process `q` gets the directory `d`. -/
def created (s : LoadRun) (d q : ℕ) : LoadRun :=
  { s.setPhase .plain with
    procs := insert q s.procs
    pde := Function.update s.pde q (some d)
    phase := Function.update (s.setPhase .plain).phase q .plain }

/-- `exec` returns after `kmalloc`, without `umm_free`. -/
def dropped (s : LoadRun) (d : ℕ) : LoadRun := setPhase { s with lost := insert d s.lost } .plain

/-- `current_process -> pde = kernel_mmap_pde` in `exec_exit`. -/
def cleared (s : LoadRun) (d : ℕ) : LoadRun :=
  { s.setPhase (.leaving d) with pde := Function.update s.pde s.current none }

/-- `load_pde(kernel_mmap_pde)` in `exec_exit`. -/
def kernelLoaded (s : LoadRun) (d : ℕ) : LoadRun := { s.setPhase (.loaded d) with cr3 := none }

/-- `process_switch` with the process it settles on. -/
def switchTo (s : LoadRun) (next : ℕ) : LoadRun :=
  { s with
    current := next
    esp0 := some next
    cr3 := if s.pde s.current ≠ s.pde next then s.pde next else s.cr3 }

/-- The memory after `umm_alloc_pde`. -/
def allocPde (s : LoadRun) : UmmRun :=
  ⟨s.kernel.ummAllocPde.2, s.toUmmRun.liveAfter s.kernel.ummAllocPde.1 .ummAllocPde⟩

/-- The memory after `umm_free` of the directory `d`. -/
def freePde (s : LoadRun) (d : ℕ) : UmmRun := ⟨s.kernel.ummFree (d * pageSize), s.live.erase d⟩

/-- The calls of the memory management that neither take up nor give back a directory. -/
def OtherCall : MemCall → Prop
  | .ummAllocPde => False
  | .ummFree _ => False
  | _ => True

end LoadRun

/-- A step of the current process, or a timer interrupt. -/
inductive LoadStep (b : KernelBoot) : LoadRun → LoadOp → LoadRun → Prop
  | call {s : LoadRun} {call : MemCall} {u : UmmRun} (hother : LoadRun.OtherCall call)
      (h : ((ummMachine b).restrict UmmRun.SafeCall).step s.toUmmRun call u) :
      LoadStep b s (.call call) { s with toUmmRun := u }
  | execNull {s : LoadRun} (hplain : s.phase s.current = .plain) (hnull : s.kernel.ummAllocPde.1 = 0) :
      LoadStep b s .execAlloc { s with toUmmRun := s.allocPde }
  | execAlloc {s : LoadRun} (hplain : s.phase s.current = .plain)
      (hnull : s.kernel.ummAllocPde.1 ≠ 0) :
      LoadStep b s .execAlloc (LoadRun.setPhase { s with toUmmRun := s.allocPde }
        (.building (s.kernel.ummAllocPde.1 / pageSize)))
  | execNoCopy {s : LoadRun} {d : ℕ} (hphase : s.phase s.current = .building d) :
      LoadStep b s .execNoCopy (s.dropped d)
  | execCreate {s : LoadRun} {d q : ℕ} (hphase : s.phase s.current = .building d)
      (hnew : q ∉ s.procs) :
      LoadStep b s (.execCreate q) (s.created d q)
  | execFails {s : LoadRun} {d : ℕ} (hphase : s.phase s.current = .building d) :
      LoadStep b s .execFails (LoadRun.setPhase { s with toUmmRun := s.freePde d } .plain)
  | exitClear {s : LoadRun} {d : ℕ} (hplain : s.phase s.current = .plain)
      (hpde : s.pde s.current = some d) :
      LoadStep b s .exitClear (s.cleared d)
  | exitLoad {s : LoadRun} {d : ℕ} (hphase : s.phase s.current = .leaving d) :
      LoadStep b s .exitLoad (s.kernelLoaded d)
  | exitFree {s : LoadRun} {d : ℕ} (hphase : s.phase s.current = .loaded d) :
      LoadStep b s .exitFree (LoadRun.setPhase { s with toUmmRun := s.freePde d } .exited)
  | switch {s : LoadRun} {next : ℕ} (hnext : next ∈ s.procs) (hne : next ≠ s.current) :
      LoadStep b s (.switch next) (s.switchTo next)
  | free {s : LoadRun} {p : ℕ} (hp : p ∈ s.procs) (hne : p ≠ s.current)
      (hexit : s.phase p = .exited) :
      LoadStep b s (.free p) { s with procs := s.procs.erase p }

/-- The runs from `process_init` on, where the only process runs on `kernel_mmap_pde`. -/
def loadMachine (b : KernelBoot) : Machine LoadRun LoadOp where
  init s := (ummMachine b).init s.toUmmRun ∧ s.procs = {s.current} ∧ s.pde s.current = none ∧
    s.phase s.current = .plain ∧ s.cr3 = none ∧ s.esp0 = none ∧ s.lost = ∅
  step := LoadStep b

/-! ## Who holds a directory -/

namespace LoadRun

variable {b : KernelBoot} {s s' : LoadRun} {op : LoadOp} {p q d : ℕ}

/-- A process with this `pde` field that stands there has the directory `d`. -/
def Has (pde : Option ℕ) (ph : PdePhase) (d : ℕ) : Prop :=
  pde = some d ∨ ph = .building d ∨ ph = .leaving d ∨ ph = .loaded d

/-- The process `p` has the directory `d`, for itself or in a call. -/
def Holds (s : LoadRun) (p d : ℕ) : Prop := p ∈ s.procs ∧ Has (s.pde p) (s.phase p) d

/-- What a process may be in the middle of, with its `pde` field. -/
def Placed (pde : Option ℕ) : PdePhase → Prop
  | .plain => True
  | .building d => pde ≠ some d
  | _ => pde = none

/-- Every directory has one holder, and the processor is on the directory of the current process,
or on one that its holder is about to leave. -/
structure Inv (b : KernelBoot) (s : LoadRun) : Prop where
  reach : ((ummMachine b).restrict UmmRun.SafeCall).Reachable s.toUmmRun
  current : s.current ∈ s.procs
  custody : Custody (s.live \ s.lost) s.Holds
  lost : s.lost ⊆ s.live
  placed : ∀ p ∈ s.procs, Placed (s.pde p) (s.phase p)
  cr3 : s.cr3 = s.pde s.current ∨ s.pde s.current = none ∧
    ∃ p ∈ s.procs, ∃ d, s.phase p = .leaving d ∧ s.cr3 = some d
  esp0 : s.pde s.current ≠ none → s.esp0 = some s.current

theorem Inv.live (h : Inv b s) (hd : s.Holds p d) : d ∈ s.live :=
  Finset.sdiff_subset (h.custody.mem hd)

theorem Inv.allocPde (h : Inv b s) :
    ((ummMachine b).restrict UmmRun.SafeCall).Reachable s.allocPde :=
  h.reach.step (a := .ummAllocPde) ⟨trivial, trivial, _, ⟨rfl, rfl⟩, rfl⟩

theorem Inv.freePde (h : Inv b s) (hd : d ∈ s.live) :
    ((ummMachine b).restrict UmmRun.SafeCall).Reachable (s.freePde d) := by
  refine h.reach.step (a := .ummFree (d * pageSize)) ⟨trivial, ⟨d, hd, rfl⟩, 0, ⟨rfl, rfl⟩, ?_⟩
  unfold LoadRun.freePde UmmRun.liveAfter
  dsimp only
  rw [Nat.mul_div_cancel _ (by decide)]

theorem Inv.allocPde_live (h : Inv b s) (hnull : s.kernel.ummAllocPde.1 ≠ 0) :
    s.kernel.ummAllocPde.1 / pageSize ∉ s.live ∧
      s.allocPde.live = insert (s.kernel.ummAllocPde.1 / pageSize) s.live := by
  refine ⟨?_, if_neg hnull⟩
  rcases (Owned.of_reachable h.reach).ummAllocPde_cases with ⟨pmm, heq, -⟩ |
    ⟨d, -, pmm, page, heq, -, hd, -⟩
  · rw [heq] at hnull
    exact absurd rfl hnull
  · rw [heq]
    dsimp only
    rwa [Nat.mul_div_cancel _ (by decide)]

theorem setPhase_holds (u : UmmRun) {ph : PdePhase} {r e : ℕ} (hc : s.current ∈ s.procs) :
    (LoadRun.setPhase { s with toUmmRun := u } ph).Holds r e ↔
      (r ≠ s.current ∧ s.Holds r e) ∨ (r = s.current ∧ Has (s.pde s.current) ph e) := by
  unfold Holds setPhase
  dsimp only
  by_cases hr : r = s.current
  · subst hr
    rw [Function.update_self]
    exact ⟨fun h => .inr ⟨rfl, h.2⟩, fun h => h.elim (fun h => absurd rfl h.1) fun h => ⟨hc, h.2⟩⟩
  · rw [Function.update_of_ne hr]
    exact ⟨fun h => .inl ⟨hr, h⟩, fun h => h.elim (fun h => h.2) fun h => absurd h.1 hr⟩

@[simp]
theorem setPhase_phase (s : LoadRun) (ph : PdePhase) : (s.setPhase ph).phase s.current = ph :=
  Function.update_self _ _ _

theorem has_plain {pde : Option ℕ} {e : ℕ} : Has pde .plain e ↔ pde = some e := by
  simp [Has]

theorem has_building {pde : Option ℕ} {e : ℕ} : Has pde (.building d) e ↔ pde = some e ∨ e = d := by
  simp [Has, eq_comm]

theorem has_leaving {e : ℕ} : Has none (.leaving d) e ↔ e = d := by
  simp [Has, eq_comm]

theorem has_loaded {e : ℕ} : Has none (.loaded d) e ↔ e = d := by
  simp [Has, eq_comm]

theorem has_exited {e : ℕ} : ¬ Has none .exited e := by
  simp [Has]

theorem holds_current (h : Inv b s) {e : ℕ} :
    s.Holds s.current e ↔ Has (s.pde s.current) (s.phase s.current) e :=
  and_iff_right h.current

/-- A step of the current process that leaves the ring alone. -/
theorem Inv.setPhase (h : Inv b s) {u : UmmRun} {l : Finset ℕ} {ph : PdePhase}
    (hreach : ((ummMachine b).restrict UmmRun.SafeCall).Reachable u)
    (hcustody : Custody (u.live \ l) (LoadRun.setPhase { s with toUmmRun := u } ph).Holds)
    (hlost : l ⊆ u.live) (hplaced : Placed (s.pde s.current) ph)
    (hleaving : ∀ d, s.phase s.current ≠ .leaving d) :
    Inv b (LoadRun.setPhase { s with toUmmRun := u, lost := l } ph) := by
  refine ⟨hreach, h.current, hcustody, hlost, fun p hp => ?_, ?_, h.esp0⟩
  · unfold LoadRun.setPhase
    dsimp only
    by_cases hc : p = s.current
    · subst hc
      rwa [Function.update_self]
    · rw [Function.update_of_ne hc]
      exact h.placed p hp
  · refine h.cr3.imp id fun hstale => ⟨hstale.1, ?_⟩
    obtain ⟨-, p, hp, d, hphase, hcr3⟩ := hstale
    have hc : p ≠ s.current := fun heq => hleaving d (heq ▸ hphase)
    exact ⟨p, hp, d, (Function.update_of_ne hc _ _).trans hphase, hcr3⟩

theorem Inv.of_call (h : Inv b s) {call : MemCall} {u : UmmRun} (hother : OtherCall call)
    (hstep : ((ummMachine b).restrict UmmRun.SafeCall).step s.toUmmRun call u) :
    Inv b { s with toUmmRun := u } := by
  have hlive : u.live = s.live := by
    obtain ⟨-, -, r, -, hlive⟩ := hstep
    rw [hlive]
    cases call <;> first | rfl | exact hother.elim
  have hcustody : Custody (u.live \ s.lost) s.Holds := hlive ▸ h.custody
  exact ⟨h.reach.step hstep, h.current, hcustody, hlive ▸ h.lost, h.placed, h.cr3, h.esp0⟩

theorem Inv.of_execNull (h : Inv b s) (hnull : s.kernel.ummAllocPde.1 = 0) :
    Inv b { s with toUmmRun := s.allocPde } := by
  have hlive : s.allocPde.live = s.live := if_pos hnull
  have hcustody : Custody (s.allocPde.live \ s.lost) s.Holds := hlive ▸ h.custody
  exact ⟨h.allocPde, h.current, hcustody, hlive ▸ h.lost, h.placed, h.cr3, h.esp0⟩

theorem Inv.of_execAlloc (h : Inv b s) (hplain : s.phase s.current = .plain)
    (hnull : s.kernel.ummAllocPde.1 ≠ 0) :
    Inv b (LoadRun.setPhase { s with toUmmRun := s.allocPde }
      (.building (s.kernel.ummAllocPde.1 / pageSize))) := by
  obtain ⟨hnew, hlive⟩ := h.allocPde_live hnull
  generalize s.kernel.ummAllocPde.1 / pageSize = d at *
  have hholds : ∀ e, s.Holds s.current e ↔ s.pde s.current = some e := fun e => by
    rw [holds_current h, hplain, has_plain]
  refine h.setPhase h.allocPde ?_ ?_ ?_ fun d' hd' => by rw [hplain] at hd'; cases hd'
  · rw [hlive, Finset.insert_sdiff_of_notMem _ fun hd => hnew (h.lost hd)]
    refine h.custody.take (p := s.current) (fun hd => hnew (Finset.sdiff_subset hd)) fun r e => ?_
    rw [setPhase_holds _ h.current, has_building, ← hholds]
    by_cases hr : r = s.current
    · subst hr
      simp
    · simp [hr]
  · rw [hlive]
    exact h.lost.trans (Finset.subset_insert _ _)
  · intro hpde
    exact hnew (h.live ((hholds d).2 hpde))

theorem Inv.of_execCreate (h : Inv b s) {d q : ℕ} (hphase : s.phase s.current = .building d)
    (hnew : q ∉ s.procs) : Inv b (s.created d q) := by
  have hq : s.current ≠ q := fun heq => hnew (heq ▸ h.current)
  have hplaced := h.placed _ h.current
  rw [hphase] at hplaced
  have hholds : ∀ e, s.Holds s.current e ↔ s.pde s.current = some e ∨ e = d := fun e => by
    rw [holds_current h, hphase, has_building]
  refine ⟨h.reach, Finset.mem_insert_of_mem h.current, ?_, h.lost, fun p hp => ?_, ?_, ?_⟩
  · refine h.custody.pass (q := q) ((hholds d).2 (.inr rfl)) fun r e => ?_
    unfold Holds LoadRun.created LoadRun.setPhase
    dsimp only
    by_cases hr : r = q
    · subst hr
      rw [Function.update_self, Function.update_self, has_plain, Option.some_inj]
      refine ⟨fun h => .inr ⟨rfl, h.2.symm⟩, fun h => ⟨Finset.mem_insert_self _ _, ?_⟩⟩
      exact h.elim (fun h => absurd h.1.1 hnew) fun h => h.2.symm
    · rw [Function.update_of_ne hr, Function.update_of_ne hr, Finset.mem_insert, or_iff_right hr]
      by_cases hc : r = s.current
      · subst hc
        rw [Function.update_self, has_plain, hphase, has_building]
        refine ⟨fun h => .inl ⟨⟨h.1, .inl h.2⟩, ?_⟩, fun h => ?_⟩
        · rintro rfl
          exact hplaced h.2
        · rcases h with ⟨⟨hmem, hpde | rfl⟩, hne⟩ | ⟨rfl, -⟩
          · exact ⟨hmem, hpde⟩
          · exact absurd rfl hne
          · exact absurd rfl hr
      · rw [Function.update_of_ne hc]
        refine ⟨fun h' => .inl ⟨h', ?_⟩,
          fun h' => h'.elim (fun h' => h'.1) fun h' => absurd h'.1 hr⟩
        rintro rfl
        exact hc (h.custody.once r _ _ h' ((hholds _).2 (.inr rfl)))
  · unfold LoadRun.created LoadRun.setPhase
    dsimp only
    by_cases hr : p = q
    · subst hr
      rw [Function.update_self, Function.update_self]
      trivial
    · rw [Function.update_of_ne hr, Function.update_of_ne hr]
      by_cases hc : p = s.current
      · subst hc
        rw [Function.update_self]
        trivial
      · rw [Function.update_of_ne hc]
        exact h.placed p ((Finset.mem_insert.1 hp).resolve_left hr)
  · unfold LoadRun.created LoadRun.setPhase
    dsimp only
    rw [Function.update_of_ne hq]
    refine h.cr3.imp id fun hstale => ⟨hstale.1, ?_⟩
    obtain ⟨-, p, hp, e, hleaving, hcr3⟩ := hstale
    have hc : p ≠ s.current := by
      rintro rfl
      rw [hphase] at hleaving
      cases hleaving
    have hpq : p ≠ q := fun heq => hnew (heq ▸ hp)
    refine ⟨p, Finset.mem_insert_of_mem hp, e, ?_, hcr3⟩
    rw [Function.update_of_ne hpq, Function.update_of_ne hc, hleaving]
  · have hsame : Function.update s.pde q (some d) s.current = s.pde s.current :=
      Function.update_of_ne hq _ _
    exact fun hpde => h.esp0 fun hnone => hpde (hsame.trans hnone)

theorem Inv.custody_give (h : Inv b s) (u : UmmRun) {ph : PdePhase} (hd : s.Holds s.current d)
    (hhas : ∀ e, Has (s.pde s.current) ph e ↔ s.Holds s.current e ∧ e ≠ d) :
    Custody ((s.live \ s.lost).erase d) (LoadRun.setPhase { s with toUmmRun := u } ph).Holds := by
  refine h.custody.give fun r e => ?_
  rw [setPhase_holds u h.current, hhas]
  refine ⟨fun hr => ?_, fun hr => ?_⟩
  · rcases hr with ⟨hr, hold⟩ | ⟨hr, hold⟩
    · refine ⟨hold, fun he => hr (h.custody.once _ _ _ hold (he ▸ hd))⟩
    · exact hr ▸ hold
  · by_cases hc : r = s.current
    · exact .inr ⟨hc, hc ▸ hr⟩
    · exact .inl ⟨hc, hr.1⟩

theorem Inv.of_freePde (h : Inv b s) {ph : PdePhase} (hd : s.Holds s.current d)
    (hleaving : ∀ e, s.phase s.current ≠ .leaving e) (hplaced : Placed (s.pde s.current) ph)
    (hhas : ∀ e, Has (s.pde s.current) ph e ↔ s.Holds s.current e ∧ e ≠ d) :
    Inv b (LoadRun.setPhase { s with toUmmRun := s.freePde d } ph) := by
  have hlive : (s.freePde d).live = s.live.erase d := rfl
  have hlost : d ∉ s.lost := (Finset.mem_sdiff.1 (h.custody.mem hd)).2
  have hreach := h.freePde (h.live hd)
  generalize s.freePde d = u at *
  refine h.setPhase hreach ?_ ?_ hplaced hleaving
  · rw [hlive, Finset.erase_sdiff_comm]
    exact h.custody_give u hd hhas
  · rw [hlive]
    exact Finset.subset_erase.2 ⟨h.lost, hlost⟩

/-- The directory a process is building, and no other, is gone when it goes on without it. -/
theorem Inv.has_built (h : Inv b s) (hphase : s.phase s.current = .building d) :
    s.Holds s.current d ∧
      ∀ e, Has (s.pde s.current) .plain e ↔ s.Holds s.current e ∧ e ≠ d := by
  have hplaced := h.placed _ h.current
  rw [hphase] at hplaced
  refine ⟨?_, fun e => ?_⟩
  · rw [holds_current h, hphase, has_building]
    exact .inr rfl
  · rw [holds_current h, hphase, has_building, has_plain]
    refine ⟨fun he => ⟨.inl he, ?_⟩, fun he => he.1.resolve_right he.2⟩
    rintro rfl
    exact hplaced he

theorem Inv.of_execNoCopy (h : Inv b s) (hphase : s.phase s.current = .building d) :
    Inv b (s.dropped d) := by
  obtain ⟨hd, hhas⟩ := h.has_built hphase
  have hplaced : Placed (s.pde s.current) .plain := trivial
  refine h.setPhase h.reach ?_ ?_ hplaced fun e he => by rw [hphase] at he; cases he
  · rw [Finset.sdiff_insert]
    exact h.custody_give s.toUmmRun hd hhas
  · exact Finset.insert_subset (h.live hd) h.lost

theorem Inv.of_execFails (h : Inv b s) (hphase : s.phase s.current = .building d) :
    Inv b (LoadRun.setPhase { s with toUmmRun := s.freePde d } .plain) := by
  obtain ⟨hd, hhas⟩ := h.has_built hphase
  exact h.of_freePde hd (fun e he => by rw [hphase] at he; cases he) trivial hhas

theorem Inv.of_exitFree (h : Inv b s) (hphase : s.phase s.current = .loaded d) :
    Inv b (LoadRun.setPhase { s with toUmmRun := s.freePde d } .exited) := by
  have hplaced := h.placed _ h.current
  rw [hphase] at hplaced
  have hpde : s.pde s.current = none := hplaced
  refine h.of_freePde ?_ (fun e he => by rw [hphase] at he; cases he) hpde fun e => ?_
  · rw [holds_current h, hphase, hpde, has_loaded]
  · rw [holds_current h, hphase, hpde, has_loaded]
    exact ⟨fun he => absurd he has_exited, fun he => absurd he.1 he.2⟩

theorem Inv.of_exitClear (h : Inv b s) (hplain : s.phase s.current = .plain)
    (hpde : s.pde s.current = some d) : Inv b (s.cleared d) := by
  have hself : Function.update s.pde s.current none s.current = none := Function.update_self _ _ _
  have hcr3 : s.cr3 = some d := by
    rcases h.cr3 with hcr3 | ⟨hnone, -⟩
    · exact hcr3.trans hpde
    · rw [hpde] at hnone
      cases hnone
  refine ⟨h.reach, h.current, h.custody.congr fun r e => ?_, h.lost, fun p hp => ?_, .inr ⟨hself, ?_⟩,
    fun hne => absurd hself hne⟩
  · unfold Holds LoadRun.cleared LoadRun.setPhase
    dsimp only
    by_cases hr : r = s.current
    · subst hr
      rw [Function.update_self, Function.update_self, has_leaving, hplain, has_plain, hpde,
        Option.some_inj]
      exact and_congr_right fun _ => eq_comm
    · rw [Function.update_of_ne hr, Function.update_of_ne hr]
  · unfold LoadRun.cleared LoadRun.setPhase
    dsimp only
    by_cases hc : p = s.current
    · subst hc
      rw [Function.update_self, Function.update_self]
      rfl
    · rw [Function.update_of_ne hc, Function.update_of_ne hc]
      exact h.placed p hp
  · exact ⟨s.current, h.current, d, Function.update_self _ _ _, hcr3⟩

theorem Inv.of_exitLoad (h : Inv b s) (hphase : s.phase s.current = .leaving d) :
    Inv b (s.kernelLoaded d) := by
  have hplaced := h.placed _ h.current
  rw [hphase] at hplaced
  have hpde : s.pde s.current = none := hplaced
  refine ⟨h.reach, h.current, h.custody.congr fun r e => ?_, h.lost, fun p hp => ?_, .inl hpde.symm,
    h.esp0⟩
  · refine (setPhase_holds s.toUmmRun h.current).trans ?_
    rw [hpde, has_loaded]
    by_cases hr : r = s.current
    · subst hr
      rw [holds_current h, hphase, hpde, has_leaving]
      simp
    · simp [hr]
  · unfold LoadRun.kernelLoaded LoadRun.setPhase
    dsimp only
    by_cases hc : p = s.current
    · subst hc
      rw [Function.update_self]
      exact hpde
    · rw [Function.update_of_ne hc]
      exact h.placed p hp

/-- `process_switch` looks at the `pde` fields; a directory that is about to be left stays loaded
when the next process runs on `kernel_mmap_pde`. -/
theorem Inv.of_switch (h : Inv b s) {next : ℕ} (hnext : next ∈ s.procs) :
    Inv b (s.switchTo next) := by
  refine ⟨h.reach, hnext, h.custody, h.lost, h.placed, ?_, fun _ => rfl⟩
  unfold switchTo
  dsimp only
  split
  · exact .inl rfl
  · rename_i hsame
    rw [← not_not.1 hsame]
    exact h.cr3

theorem Inv.of_free (h : Inv b s) (hne : p ≠ s.current) (hexit : s.phase p = .exited) :
    Inv b { s with procs := s.procs.erase p } := by
  refine ⟨h.reach, Finset.mem_erase.2 ⟨hne.symm, h.current⟩, h.custody.congr fun r e => ?_, h.lost,
    fun q hq => h.placed q (Finset.mem_of_mem_erase hq), ?_, h.esp0⟩
  · unfold Holds
    dsimp only
    rw [Finset.mem_erase]
    refine ⟨fun hr => ⟨hr.1.2, hr.2⟩, fun hr => ⟨⟨?_, hr.1⟩, hr.2⟩⟩
    rintro rfl
    have hplaced := h.placed _ hr.1
    rw [hexit] at hplaced
    have hpde : s.pde _ = none := hplaced
    rw [hexit, hpde] at hr
    exact has_exited hr.2
  · refine h.cr3.imp id fun hstale => ⟨hstale.1, ?_⟩
    obtain ⟨-, q, hq, d, hleaving, hcr3⟩ := hstale
    have hqp : q ≠ p := by
      rintro rfl
      rw [hexit] at hleaving
      cases hleaving
    exact ⟨q, Finset.mem_erase.2 ⟨hqp, hq⟩, d, hleaving, hcr3⟩

theorem Inv.of_step (h : Inv b s) (hstep : LoadStep b s op s') : Inv b s' := by
  cases hstep with
  | call hother hstep => exact h.of_call hother hstep
  | execNull hplain hnull => exact h.of_execNull hnull
  | execAlloc hplain hnull => exact h.of_execAlloc hplain hnull
  | execNoCopy hphase => exact h.of_execNoCopy hphase
  | execCreate hphase hnew => exact h.of_execCreate hphase hnew
  | execFails hphase => exact h.of_execFails hphase
  | exitClear hplain hpde => exact h.of_exitClear hplain hpde
  | exitLoad hphase => exact h.of_exitLoad hphase
  | exitFree hphase => exact h.of_exitFree hphase
  | switch hnext hne => exact h.of_switch hnext
  | free hp hne hexit => exact h.of_free hne hexit

theorem Inv.of_reachable (hs : (loadMachine b).Reachable s) : Inv b s := by
  refine hs.invariant (fun s hinit => ?_) fun s op s' h hstep => h.of_step hstep
  obtain ⟨humm, hprocs, hpde, hphase, hcr3, -, hlost⟩ := hinit
  have hall : ∀ p ∈ s.procs, p = s.current := fun p hp => by
    rw [hprocs] at hp
    exact Finset.mem_singleton.1 hp
  have hlive : s.live = ∅ := by
    obtain ⟨memory, behind, page, heq⟩ := humm
    rw [heq]
  have hnone : ∀ p d, ¬ s.Holds p d := by
    rintro p d ⟨hp, hhas⟩
    rw [hall p hp, hphase, hpde, has_plain] at hhas
    cases hhas
  refine ⟨.init humm, hprocs ▸ Finset.mem_singleton_self _, ⟨fun d => ?_, fun p q d hp => ?_⟩,
    hlost ▸ Finset.empty_subset _, fun p hp => ?_, .inl (hcr3.trans hpde.symm),
    fun hne => absurd hpde hne⟩
  · rw [hlive, Finset.empty_sdiff]
    exact ⟨fun hd => absurd hd (Finset.notMem_empty d), fun ⟨p, hp⟩ => absurd hp (hnone p d)⟩
  · exact absurd hp (hnone p d)
  · rw [hall p hp, hphase]
    trivial

end LoadRun

/-- The entries of the directory in `cr3`. -/
def LoadRun.entries (s : LoadRun) : ℕ → ℕ :=
  match s.cr3 with
  | none => s.kernel.kernelMmapPde
  | some d => s.kernel.entriesAt (d * pageSize)

/-- **The processor never runs on a directory that was given back.** In every state of every run
whose memory calls are safe, also while processes that exit are switched away between the steps
of `exec_exit`, the directory in `cr3` is `kernel_mmap_pde` or a live one, and the kernel finds the same above `PAGE_OFFSET` as
under `kernel_mmap_pde`. A process with a directory of its own runs on that one, with interrupts
on its own stack. Every live directory is held by one process, which alone gives it back, but for
those that `exec` dropped for want of a copy of the path: these stay live for good. -/
theorem loaded_directory_live {b : KernelBoot} {s : LoadRun} (hs : (loadMachine b).Reachable s) :
    (∀ d, s.cr3 = some d → d ∈ s.live) ∧
      (∀ acc attr, pageOffset ≤ attr →
        s.kernel.walk acc s.entries attr = s.kernel.walk acc s.kernel.kernelMmapPde attr) ∧
      (∀ d, s.pde s.current = some d → s.cr3 = some d ∧ s.esp0 = some s.current) ∧
      (∀ d, d ∈ s.live ↔ (∃ p, s.Holds p d) ∨ d ∈ s.lost) ∧
      (∀ p d, s.Holds p d → d ∉ s.lost) ∧ ∀ p q d, s.Holds p d → s.Holds q d → p = q := by
  have h := LoadRun.Inv.of_reachable hs
  have hlive : ∀ d, s.cr3 = some d → d ∈ s.live := by
    intro d hd
    rcases h.cr3 with hcr3 | ⟨-, p, hp, e, hleaving, hcr3⟩
    · exact h.live (p := s.current) ⟨h.current, .inl (hcr3.symm.trans hd)⟩
    · rw [hd, Option.some_inj] at hcr3
      subst hcr3
      exact h.live (p := p) ⟨hp, .inr (.inr (.inl hleaving))⟩
  refine ⟨hlive, fun acc attr hattr => ?_, fun d hd => ⟨?_, ?_⟩, fun d => ?_,
    fun p d hp => (Finset.mem_sdiff.1 (h.custody.mem hp)).2, h.custody.once⟩
  · unfold LoadRun.entries
    cases hcr3 : s.cr3 with
    | none => rfl
    | some d => exact UmmRun.walk_high h.reach (hlive d hcr3) acc hattr
  · rcases h.cr3 with hcr3 | ⟨hnone, -⟩
    · exact hcr3.trans hd
    · rw [hd] at hnone
      cases hnone
  · exact h.esp0 fun hnone => by rw [hd] at hnone; cases hnone
  · rw [← h.custody.held, Finset.mem_sdiff]
    refine ⟨fun hd => ?_, fun hd => hd.elim (fun hd => hd.1) fun hd => h.lost hd⟩
    by_cases hlost : d ∈ s.lost
    · exact .inr hlost
    · exact .inl ⟨hd, hlost⟩

theorem LoadRun.created_pde (s : LoadRun) (d q p : ℕ) :
    (s.created d q).pde p = if p = q then some d else s.pde p :=
  Function.update_apply _ _ _ _

theorem LoadRun.created_phase (s : LoadRun) (d q p : ℕ) : (s.created d q).phase p =
    if p = q then .plain else if p = s.current then .plain else s.phase p := by
  unfold LoadRun.created LoadRun.setPhase
  dsimp only
  rw [Function.update_apply, Function.update_apply]

theorem LoadRun.cleared_pde (s : LoadRun) (d p : ℕ) :
    (s.cleared d).pde p = if p = s.current then none else s.pde p :=
  Function.update_apply _ _ _ _

/-- A process that has just cleared its `pde` field in `exec_exit` is switched away, and the first
process runs on its directory. -/
theorem stale_reachable {b : KernelBoot} {u : UmmRun} (hu : (ummMachine b).init u)
    (hnull : u.kernel.ummAllocPde.1 ≠ 0) :
    ∃ s, (loadMachine b).Reachable s ∧ s.pde s.current = none ∧
      s.cr3 = some (u.kernel.ummAllocPde.1 / pageSize) := by
  have hinit : (loadMachine b).Reachable ⟨u, {0}, fun _ => none, fun _ => .plain, 0, none, none, ∅⟩ :=
    .init ⟨hu, rfl, rfl, rfl, rfl, rfl, rfl⟩
  obtain ⟨s, hs, hprocs, hcur, hphase, hpde⟩ : ∃ s, (loadMachine b).Reachable s ∧
      s.procs = {0} ∧ s.current = 0 ∧
      s.phase s.current = .building (u.kernel.ummAllocPde.1 / pageSize) ∧ s.pde 0 = none :=
    ⟨_, hinit.step (LoadStep.execAlloc rfl hnull), rfl, rfl, LoadRun.setPhase_phase _ _, rfl⟩
  generalize u.kernel.ummAllocPde.1 / pageSize = d at *
  have hcreate : LoadStep b s (.execCreate 1) (s.created d 1) :=
    .execCreate hphase (by rw [hprocs]; decide)
  have hplain : (s.created d 1).phase 1 = .plain := by rw [s.created_phase]; rfl
  have hpde₀ : (s.created d 1).pde 0 = none := by rw [s.created_pde, hpde]; rfl
  have hpde₁ : (s.created d 1).pde 1 = some d := by rw [s.created_pde]; rfl
  have hprocs₁ : (s.created d 1).procs = {1, 0} := congrArg (insert 1) hprocs
  have hcur₁ : (s.created d 1).current = 0 := hcur
  generalize s.created d 1 = t at *
  have hswitch : LoadStep b t (.switch 1) (t.switchTo 1) :=
    .switch (by rw [hprocs₁]; decide) (by rw [hcur₁]; decide)
  have hload : (t.switchTo 1).cr3 = some d := by
    unfold LoadRun.switchTo
    dsimp only
    rw [hcur₁, hpde₀, hpde₁, if_pos (by simp)]
  have hclear : LoadStep b (t.switchTo 1) .exitClear ((t.switchTo 1).cleared d) :=
    .exitClear hplain hpde₁
  have hcleared₀ : ((t.switchTo 1).cleared d).pde 0 = none := by
    rw [LoadRun.cleared_pde]
    exact hpde₀
  have hcleared₁ : ((t.switchTo 1).cleared d).pde 1 = none := by rw [LoadRun.cleared_pde]; rfl
  have hstate : ((t.switchTo 1).cleared d).procs = {1, 0} ∧ ((t.switchTo 1).cleared d).current = 1 ∧
      ((t.switchTo 1).cleared d).cr3 = some d := ⟨hprocs₁, rfl, hload⟩
  have hreach := ((hs.step hcreate).step hswitch).step hclear
  generalize (t.switchTo 1).cleared d = w at *
  obtain ⟨hprocs₂, hcur₂, hcr3⟩ := hstate
  refine ⟨w.switchTo 0, hreach.step (LoadStep.switch (by rw [hprocs₂]; decide)
    (by rw [hcur₂]; decide)), hcleared₀, ?_⟩
  unfold LoadRun.switchTo
  dsimp only
  rw [hcur₂, hcleared₀, hcleared₁, if_neg (by simp), hcr3]

theorem stale_first {b : KernelBoot} (hpages : b.memBasePage + 1 < b.memPageCount)
    (hdirect : b.memBasePage < b.dmmapPageCount) :
    ∃ s, (loadMachine b).Reachable s ∧ s.pde s.current = none ∧ s.cr3 = some b.memBasePage := by
  have hbase := b.le_memBasePage
  obtain ⟨pmm, -, heq⟩ := ummAllocPde_vmmInit hpages hdirect
  have hpde := congrArg Prod.fst heq
  dsimp only at hpde
  have hinit : (ummMachine b).init ⟨Kernel.vmmInit b (fun _ => 0) (fun _ => 0) fun _ _ => 0, ∅⟩ :=
    ⟨_, _, _, rfl⟩
  obtain ⟨s, hs, hnone, hcr3⟩ := stale_reachable hinit
    (by rw [hpde]; exact Nat.mul_ne_zero (by omega) (by decide))
  rw [hpde, Nat.mul_div_cancel _ (by decide)] at hcr3
  exact ⟨s, hs, hnone, hcr3⟩

/-- The directory that is loaded there is a live one. -/
theorem loaded_directory_live_stale : ∃ s, (loadMachine smallBoot).Reachable s ∧
    s.pde s.current = none ∧ s.cr3 = some 449 ∧ 449 ∈ s.live := by
  obtain ⟨hbase, hcount, hdmmap⟩ := smallBoot_pages
  obtain ⟨s, hs, hnone, hcr3⟩ := stale_first (b := smallBoot) (by rw [hbase, hcount]; decide)
    (by rw [hbase, hdmmap]; decide)
  rw [hbase] at hcr3
  exact ⟨s, hs, hnone, hcr3, (loaded_directory_live hs).1 _ hcr3⟩

end BitchKernel
