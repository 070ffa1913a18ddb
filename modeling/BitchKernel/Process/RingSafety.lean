import BitchKernel.Process.Switch
import Mathlib.Data.Finset.Insert

/-!
# The ring of processes over whole runs

`process_create` reads `current_process -> next` for the new process and then stores the
new process there, and a tick between the two may take out the process it read. In every
run in which the boot process keeps running once there is a second process, and in which
no link is stored after such a tick, the ring holds exactly the processes that were
created and not taken out. A switch takes out processes that have exited, and neither the
one it started from nor the one it ends at.
-/

namespace BitchKernel

open Lib

/-- The boot process never exits, and it waits for a lock or for the timer only
while it is the only process there ever was. -/
def BootRuns (boot : ℕ) (s : SchedRun) : SchedOp → Prop
  | .processExit => s.sched.currentProcess ≠ boot
  | .enterLock | .enterWait => s.sched.currentProcess = boot → s.count = 1
  | _ => True

/-- When the new process is linked, the process it is put behind still has the successor
that `new -> next` was set to. -/
def LinkKept (s : SchedRun) : SchedOp → Prop
  | .linkNew new => (s.sched.mem s.sched.currentProcess).next = (s.sched.mem new).next
  | _ => True

/-- The stacks in use have numbers of their own, and these are the numbers below `count` that are
not in `reaped`. -/
structure Numbered (inUse : Finset ℕ) (number : ℕ → ℕ) (count : ℕ) (reaped : List ℕ) : Prop where
  inj : ∀ a ∈ inUse, ∀ b ∈ inUse, number a = number b → a = b
  live_iff : ∀ n, (∃ a ∈ inUse, number a = n) ↔ n < count ∧ n ∉ reaped
  nodup : reaped.Nodup
  lt : ∀ n ∈ reaped, n < count

namespace Numbered

variable {inUse rest : Finset ℕ} {number : ℕ → ℕ} {count new : ℕ} {reaped l : List ℕ}

theorem update_of_mem (hfresh : new ∉ inUse) {a : ℕ} (ha : a ∈ inUse) :
    Function.update number new count a = number a := by
  rw [Function.update_of_ne]
  rintro rfl
  exact hfresh ha

/-- A new stack gets the next number. -/
theorem insert (h : Numbered inUse number count reaped) (hfresh : new ∉ inUse) :
    Numbered (insert new inUse) (Function.update number new count) (count + 1) reaped := by
  have hnumber : ∀ a ∈ inUse, Function.update number new count a = number a :=
    fun a ha => update_of_mem hfresh ha
  have hlt : ∀ a ∈ inUse, number a < count := fun a ha => ((h.live_iff _).1 ⟨a, ha, rfl⟩).1
  refine ⟨?_, ?_, h.nodup, fun n hn => Nat.lt_succ_of_lt (h.lt n hn)⟩
  · intro a ha b hb heq
    rcases Finset.mem_insert.1 ha with han | hain <;> rcases Finset.mem_insert.1 hb with hbn | hbin
    · rw [han, hbn]
    · rw [han, Function.update_self, hnumber b hbin] at heq
      exact absurd heq (hlt b hbin).ne'
    · rw [hbn, Function.update_self, hnumber a hain] at heq
      exact absurd heq (hlt a hain).ne
    · rw [hnumber a hain, hnumber b hbin] at heq
      exact h.inj a hain b hbin heq
  · intro n
    constructor
    · rintro ⟨a, ha, rfl⟩
      rcases Finset.mem_insert.1 ha with rfl | ha
      · rw [Function.update_self]
        exact ⟨by omega, fun hin => absurd (h.lt _ hin) (lt_irrefl _)⟩
      · rw [hnumber a ha]
        have hna := (h.live_iff _).1 ⟨a, ha, rfl⟩
        exact ⟨by omega, hna.2⟩
    · rintro ⟨hn, hnot⟩
      by_cases heq : n = count
      · exact ⟨new, Finset.mem_insert_self _ _, by rw [Function.update_self, heq]⟩
      · obtain ⟨a, ha, hna⟩ := (h.live_iff n).2 ⟨by omega, hnot⟩
        exact ⟨a, Finset.mem_insert_of_mem ha, by rw [hnumber a ha, hna]⟩

/-- The numbers of the stacks that go out of use are reaped. -/
theorem remove (h : Numbered inUse number count reaped) (hnodup : l.Nodup)
    (hin : ∀ a ∈ l, a ∈ inUse) (hrest : ∀ a, a ∈ rest ↔ a ∈ inUse ∧ a ∉ l) :
    Numbered rest number count ((l.map number).reverse ++ reaped) := by
  have hmem : ∀ n, n ∈ (l.map number).reverse ++ reaped ↔ (∃ a ∈ l, number a = n) ∨ n ∈ reaped := by
    intro n
    rw [List.mem_append, List.mem_reverse, List.mem_map]
  refine ⟨fun a ha b hb => h.inj a ((hrest a).1 ha).1 b ((hrest b).1 hb).1, ?_, ?_, ?_⟩
  · intro n
    rw [hmem, not_or]
    constructor
    · rintro ⟨a, ha, rfl⟩
      obtain ⟨hain, hanot⟩ := (hrest a).1 ha
      obtain ⟨hlt, hnot⟩ := (h.live_iff _).1 ⟨a, hain, rfl⟩
      refine ⟨hlt, ?_, hnot⟩
      rintro ⟨b, hb, hba⟩
      exact hanot (h.inj b (hin b hb) a hain hba ▸ hb)
    · rintro ⟨hlt, hnot, hold⟩
      obtain ⟨a, ha, han⟩ := (h.live_iff n).2 ⟨hlt, hold⟩
      exact ⟨a, (hrest a).2 ⟨ha, fun hr => hnot ⟨a, hr, han⟩⟩, han⟩
  · rw [List.nodup_append]
    refine ⟨?_, h.nodup, ?_⟩
    · rw [List.nodup_reverse]
      exact hnodup.map_on fun a ha b hb => h.inj a (hin a ha) b (hin b hb)
    · intro n hn m hm heq
      rw [List.mem_reverse, List.mem_map] at hn
      obtain ⟨a, ha, rfl⟩ := hn
      exact ((h.live_iff _).1 ⟨a, hin a ha, rfl⟩).2 (heq ▸ hm)
  · intro n hn
    rcases (hmem n).1 hn with ⟨a, ha, rfl⟩ | hn
    · exact ((h.live_iff _).1 ⟨a, hin a ha, rfl⟩).1
    · exact h.lt n hn

end Numbered

/-- The ring holds the stacks in use, and these are the stacks of the processes
not yet taken out; a process whose state is `EXIT` has exited, and the boot
process can run. A process that is being created has a stack of its own outside the
ring. -/
structure RingInv (boot : ℕ) (s : SchedRun) : Prop where
  ring : ∃ l, s.sched.ProcessRing s.sched.currentProcess l ∧
    ∀ a, a ∈ s.sched.currentProcess :: l ↔ a ∈ s.inUse
  number_inj : ∀ a ∈ s.inUse, ∀ b ∈ s.inUse, s.number a = s.number b → a = b
  live_iff : ∀ n, (∃ a ∈ s.inUse, s.number a = n) ↔ n < s.count ∧ n ∉ s.reaped
  reaped_nodup : s.reaped.Nodup
  reaped_exited : ∀ n ∈ s.reaped, n < s.count ∧ n ∈ s.exited
  exit_exited : ∀ a ∈ s.inUse, (s.sched.mem a).state = .exit → s.number a ∈ s.exited
  boot_mem : boot ∈ s.inUse
  boot_number : s.number boot = 0
  boot_state : (s.sched.mem boot).state = .run ∨
    (s.count = 1 ∧ (s.sched.mem boot).state ≠ .exit)
  new_run : ∀ p new, s.creating p = some new → new ∉ s.inUse ∧ (s.sched.mem new).state = .run
  new_inj : ∀ p q new, s.creating p = some new → s.creating q = some new → p = q

theorem SchedRun.foldl_note (events : List SwitchEvent) (s : SchedRun) :
    (∀ a, a ∈ (events.foldl note s).inUse ↔ a ∈ s.inUse ∧ a ∉ reapedOf events) ∧
      (events.foldl note s).reaped = ((reapedOf events).map s.number).reverse ++ s.reaped ∧
        (events.foldl note s).number = s.number ∧ (events.foldl note s).count = s.count ∧
          (events.foldl note s).exited = s.exited ∧
            (events.foldl note s).creating = s.creating := by
  induction events generalizing s with
  | nil => simp [reapedOf]
  | cons event events ih =>
      rw [List.foldl_cons]
      obtain ⟨hinUse, hreaped, hnumber, hcount, hexited, hcreating⟩ := ih (s.note event)
      rw [hreaped, hnumber, hcount, hexited, hcreating]
      cases event with
      | granted process lock => exact ⟨hinUse, rfl, rfl, rfl, rfl, rfl⟩
      | woken process => exact ⟨hinUse, rfl, rfl, rfl, rfl, rfl⟩
      | reaped process =>
          refine ⟨fun a => ?_, ?_, rfl, rfl, rfl, rfl⟩
          · rw [hinUse, reapedOf, List.mem_cons, not_or]
            simp only [note, Finset.mem_erase]
            tauto
          · simp [note, reapedOf]

namespace Sched

variable {s : Sched} {new pde : ℕ}

theorem initNew_state (s : Sched) (new pde : ℕ) :
    ((s.initNew new pde).mem new).state = .run := by
  simp [initNew]

theorem linkNew_state (s : Sched) (new a : ℕ) :
    ((s.linkNew new).mem a).state = (s.mem a).state :=
  store_next_state s s.currentProcess new a

/-- The new process stands behind the current one, where that one still has the successor
that the new one was given. -/
theorem linkNew_ring {l : List ℕ} (hring : s.ProcessRing s.currentProcess l)
    (hfresh : new ∉ s.currentProcess :: l)
    (hkept : (s.mem s.currentProcess).next = (s.mem new).next) :
    (s.linkNew new).ProcessRing s.currentProcess (new :: l) := by
  have hne : new ≠ s.currentProcess := fun heq => hfresh (heq ▸ List.mem_cons_self)
  refine hring.insert hfresh ?_ ?_ fun y hy => ?_
  · simp [linkNew]
  · simp [linkNew, hne, hkept]
  · have hyc : y ≠ s.currentProcess := by
      rintro rfl
      exact (List.nodup_cons.1 hring.nodup).1 hy
    simp [linkNew, hyc]

end Sched

namespace RingInv

variable {boot kernelMmapPde : ℕ} {s : SchedRun}

theorem of_init (h : (schedMachine boot kernelMmapPde).init s) : RingInv boot s := by
  obtain ⟨s₀, hpid, hbyte, hsched, hcreating, hinUse, hnumber, hcount, hexited, hreaped,
    hholders⟩ := h
  have hmem : s.sched.currentProcess = boot ∧ (s.sched.mem boot).state = .run ∧
      (s.sched.mem boot).next = boot := by
    rw [hsched]
    simp [Sched.initCurrentProcess]
  obtain ⟨hcurrent, hstate, hnext⟩ := hmem
  have hnone : ∀ p new, s.creating p ≠ some new := fun p new h => by
    rw [hcreating] at h
    cases h
  refine ⟨⟨[], ?_, ?_⟩, ?_, ?_, ?_, ?_, ?_, ?_, hnumber, .inl hstate,
    fun p new h => absurd h (hnone p new), fun p _ new h => absurd h (hnone p new)⟩
  · rw [hcurrent]
    exact Ring.single hnext
  · simp [hcurrent, hinUse]
  · simp [hinUse]
  · intro n
    simp only [hinUse, Finset.mem_singleton, exists_eq_left, hnumber, hcount, hreaped,
      List.not_mem_nil, not_false_eq_true, and_true]
    omega
  · simp [hreaped]
  · simp [hreaped]
  · intro a ha hexit
    rw [hinUse, Finset.mem_singleton] at ha
    rw [ha, hstate] at hexit
    exact absurd hexit (by decide)
  · simp [hinUse]

theorem numbered (h : RingInv boot s) : Numbered s.inUse s.number s.count s.reaped :=
  ⟨h.number_inj, h.live_iff, h.reaped_nodup, fun n hn => (h.reaped_exited n hn).1⟩

theorem inUse_eq (h : RingInv boot s) (hcount : s.count = 1) {a : ℕ} (ha : a ∈ s.inUse) :
    a = boot := by
  have hlive := ((h.live_iff (s.number a)).1 ⟨a, ha, rfl⟩).1
  refine h.number_inj a ha boot h.boot_mem ?_
  rw [h.boot_number]
  omega

theorem current_mem (h : RingInv boot s) : s.sched.currentProcess ∈ s.inUse := by
  obtain ⟨l, -, hl⟩ := h.ring
  exact (hl _).1 List.mem_cons_self

theorem of_next_eq (h : RingInv boot s) {sched : Sched} {exited : List ℕ} {holders : ℕ → List ℕ}
    {creating : ℕ → Option ℕ} (hcurrent : sched.currentProcess = s.sched.currentProcess)
    (hnext : ∀ a ∈ s.inUse, (sched.mem a).next = (s.sched.mem a).next)
    (hsub : ∀ n ∈ s.exited, n ∈ exited)
    (hexit : ∀ a ∈ s.inUse, (sched.mem a).state = .exit → s.number a ∈ exited)
    (hboot : (sched.mem boot).state = .run ∨ (s.count = 1 ∧ (sched.mem boot).state ≠ .exit))
    (hnew : ∀ p new, creating p = some new → new ∉ s.inUse ∧ (sched.mem new).state = .run)
    (hinj : ∀ p q new, creating p = some new → creating q = some new → p = q) :
    RingInv boot
      { s with sched := sched, creating := creating, exited := exited, holders := holders } := by
  obtain ⟨l, hring, hl⟩ := h.ring
  refine ⟨⟨l, ?_, ?_⟩, h.number_inj, h.live_iff, h.reaped_nodup,
    fun n hn => (h.reaped_exited n hn).imp_right (hsub n), hexit, h.boot_mem, h.boot_number, hboot,
    hnew, hinj⟩
  · change sched.ProcessRing sched.currentProcess l
    rw [hcurrent]
    exact ⟨hring.path.congr fun a ha => hnext a ((hl a).1 ha), hring.nodup⟩
  · intro a
    change a ∈ sched.currentProcess :: l ↔ _
    rw [hcurrent]
    exact hl a

/-- A store of the running process to its own header that changes no link. -/
theorem of_store (h : RingInv boot s) {f : Process → Process} {exited : List ℕ}
    (hnext : ∀ x, (f x).next = x.next) (hsub : ∀ n ∈ s.exited, n ∈ exited)
    (hexit : (f (s.sched.mem s.sched.currentProcess)).state = .exit → s.self ∈ exited)
    (hboot : s.sched.currentProcess = boot →
      (f (s.sched.mem boot)).state = .run ∨ (s.count = 1 ∧ (f (s.sched.mem boot)).state ≠ .exit)) :
    RingInv boot { s with sched := s.sched.store s.sched.currentProcess f, exited := exited } := by
  refine h.of_next_eq rfl ?_ hsub ?_ ?_ (fun p new hnew => ?_) h.new_inj
  · intro a _
    rw [Sched.store_mem]
    by_cases ha : a = s.sched.currentProcess
    · rw [if_pos ha, hnext, ha]
    · rw [if_neg ha]
  · intro a ha hstate
    rw [Sched.store_mem] at hstate
    by_cases hac : a = s.sched.currentProcess
    · rw [if_pos hac] at hstate
      rw [hac]
      exact hexit hstate
    · rw [if_neg hac] at hstate
      exact hsub _ (h.exit_exited a ha hstate)
  · rw [Sched.store_mem]
    by_cases hb : boot = s.sched.currentProcess
    · rw [if_pos hb, ← hb]
      exact hboot hb.symm
    · rw [if_neg hb]
      exact h.boot_state
  · obtain ⟨hout, hrun⟩ := h.new_run p new hnew
    have hne : new ≠ s.sched.currentProcess := fun heq => hout (heq ▸ h.current_mem)
    rw [Sched.store_mem, if_neg hne]
    exact ⟨hout, hrun⟩

theorem of_initNew (h : RingInv boot s) {new pde : ℕ} (hfresh : new ∉ s.inUse)
    (hother : ∀ p, s.creating p ≠ some new) :
    RingInv boot (s.initNew new pde) := by
  have hmem : ∀ a ∈ s.inUse, (s.sched.initNew new pde).mem a = s.sched.mem a := by
    intro a ha
    refine Sched.initNew_mem _ _ _ ?_
    rintro rfl
    exact hfresh ha
  have hcreating : ∀ p a, Function.update s.creating s.sched.currentProcess (some new) p = some a →
      p = s.sched.currentProcess ∧ a = new ∨ s.creating p = some a ∧ a ≠ new := by
    intro p a hp
    by_cases hpc : p = s.sched.currentProcess
    · rw [hpc, Function.update_self] at hp
      exact .inl ⟨hpc, (Option.some.inj hp).symm⟩
    · rw [Function.update_of_ne hpc] at hp
      exact .inr ⟨hp, fun heq => hother p (heq ▸ hp)⟩
  refine h.of_next_eq rfl (fun a ha => by rw [hmem a ha]) (fun _ hn => hn) (fun a ha hexit => ?_)
    ?_ (fun p a hp => ?_) fun p q a hp hq => ?_
  · rw [hmem a ha] at hexit
    exact h.exit_exited a ha hexit
  · rw [hmem boot h.boot_mem]
    exact h.boot_state
  · rcases hcreating p a hp with ⟨-, rfl⟩ | ⟨hp, hne⟩
    · exact ⟨hfresh, s.sched.initNew_state a pde⟩
    · rw [Sched.initNew_mem _ _ _ hne]
      exact h.new_run p a hp
  · rcases hcreating p a hp with ⟨hpc, hpa⟩ | ⟨hp, hne⟩ <;> rcases hcreating q a hq with
      ⟨hqc, hqa⟩ | ⟨hq, hne'⟩
    · rw [hpc, hqc]
    · exact absurd hpa hne'
    · exact absurd hqa hne
    · exact h.new_inj p q a hp hq

theorem of_linkNew (h : RingInv boot s) {new : ℕ}
    (hrun : (s.sched.mem s.sched.currentProcess).state = .run)
    (hnew : s.creating s.sched.currentProcess = some new) (hkept : LinkKept s (.linkNew new)) :
    RingInv boot (s.linkNew new) := by
  unfold SchedRun.linkNew
  obtain ⟨l, hring, hl⟩ := h.ring
  obtain ⟨hfresh, hstate⟩ := h.new_run _ new hnew
  have hstates := s.sched.linkNew_state new
  have hnumbered := h.numbered.insert hfresh
  have hnumber : ∀ a ∈ s.inUse, Function.update s.number new s.count a = s.number a :=
    fun a ha => Numbered.update_of_mem hfresh ha
  have hcreating : ∀ p a, Function.update s.creating s.sched.currentProcess none p = some a →
      s.creating p = some a ∧ a ≠ new := by
    intro p a hp
    by_cases hpc : p = s.sched.currentProcess
    · rw [hpc, Function.update_self] at hp
      cases hp
    · rw [Function.update_of_ne hpc] at hp
      refine ⟨hp, ?_⟩
      rintro rfl
      exact hpc (h.new_inj p _ a hp hnew)
  refine ⟨⟨new :: l, ?_, ?_⟩, hnumbered.inj, hnumbered.live_iff, h.reaped_nodup,
    fun n hn => ⟨hnumbered.lt n hn, (h.reaped_exited n hn).2⟩, ?_, ?_, ?_, ?_, ?_, ?_⟩
  · exact Sched.linkNew_ring hring (fun hin => hfresh ((hl new).1 hin)) hkept
  · intro a
    change a ∈ s.sched.currentProcess :: new :: l ↔ _
    rw [Finset.mem_insert, ← hl a]
    simp only [List.mem_cons]
    tauto
  · intro a ha hexit
    change ((s.sched.linkNew new).mem a).state = .exit at hexit
    rw [hstates a] at hexit
    rcases Finset.mem_insert.1 ha with rfl | hain
    · rw [hstate] at hexit
      exact absurd hexit (by decide)
    · change Function.update s.number new s.count a ∈ _
      rw [hnumber a hain]
      exact h.exit_exited a hain hexit
  · exact Finset.mem_insert_of_mem h.boot_mem
  · change Function.update s.number new s.count boot = 0
    rw [hnumber boot h.boot_mem]
    exact h.boot_number
  · left
    change ((s.sched.linkNew new).mem boot).state = .run
    rw [hstates boot]
    rcases h.boot_state with hstate | ⟨hcount, -⟩
    · exact hstate
    · rwa [← h.inUse_eq hcount h.current_mem]
  · intro p a hp
    obtain ⟨hp, hne⟩ := hcreating p a hp
    obtain ⟨hout, hrun'⟩ := h.new_run p a hp
    refine ⟨fun hin => (Finset.mem_insert.1 hin).elim hne hout, ?_⟩
    change ((s.sched.linkNew new).mem a).state = .run
    rw [hstates a]
    exact hrun'
  · exact fun p q a hp hq => h.new_inj p q a (hcreating p a hp).1 (hcreating q a hq).1

theorem walked (h : RingInv boot s) {fuel : ℕ} {sched : Sched} {events : List SwitchEvent}
    (hswitch : s.sched.irq0Handler fuel = some (sched, events)) :
    ∃ l, s.sched.ProcessRing s.sched.currentProcess l ∧
      (∀ a, a ∈ s.sched.currentProcess :: l ↔ a ∈ s.inUse) ∧
        s.sched.Walked sched (s.sched.currentProcess :: l) (reapedOf events) ∧
          s.sched.currentProcess ∉ reapedOf events := by
  obtain ⟨l, hring, hl⟩ := h.ring
  have hahead : Sched.Ahead { s.sched with tick := add32 s.sched.tick 1 } boot
      s.sched.currentProcess [] l := by
    have hboot := (hl boot).2 h.boot_mem
    refine ⟨List.mem_cons.1 hboot, h.boot_state.imp_right ?_⟩
    rintro ⟨hcount, hexit⟩
    have hcurrent := h.inUse_eq hcount h.current_mem
    refine ⟨hcurrent.symm, rfl, ?_, hexit⟩
    rw [List.eq_nil_iff_forall_not_mem]
    intro a ha
    have hab := h.inUse_eq hcount ((hl a).1 (List.mem_cons_of_mem _ ha))
    rw [hab, ← hcurrent] at ha
    exact (List.nodup_cons.1 hring.nodup).1 ha
  have hwalk : Sched.Walked { s.sched with tick := add32 s.sched.tick 1 } sched
      (s.sched.currentProcess :: l) (reapedOf events) ∧ s.sched.currentProcess ∉ reapedOf events := by
    refine Sched.switchTo_walked ?_ rfl hahead rfl hswitch
    exact hring
  obtain ⟨hw, hnot⟩ := hwalk
  exact ⟨l, hring, hl, ⟨hw.ring, hw.exited, hw.exit_of_exit, hw.run_of_run⟩, hnot⟩

theorem of_timer (h : RingInv boot s) {fuel : ℕ} {sched : Sched} {events : List SwitchEvent}
    (hswitch : s.sched.irq0Handler fuel = some (sched, events)) :
    RingInv boot { events.foldl SchedRun.note s with sched := sched } := by
  obtain ⟨l, hring, hl, hw, -⟩ := h.walked hswitch
  obtain ⟨⟨l', hring', hperm⟩, hexited, hexit, hrun⟩ := hw
  obtain ⟨hinUse, hreaped, hnumber, hcount, hexits, hcreating⟩ := s.foldl_note events
  have hnodup := hperm.nodup_iff.2 hring.nodup
  have hin : ∀ a ∈ reapedOf events, a ∈ s.inUse := fun a ha =>
    (hl a).1 (hperm.mem_iff.1 (List.mem_append_right _ ha))
  have hmem : ∀ a, a ∈ sched.currentProcess :: l' ↔ a ∈ s.inUse ∧ a ∉ reapedOf events := by
    intro a
    rw [← hl a, ← hperm.mem_iff, List.mem_append]
    have hdisj := (List.nodup_append.1 hnodup).2.2 a
    constructor
    · exact fun ha => ⟨.inl ha, fun hr => hdisj ha a hr rfl⟩
    · rintro ⟨ha | ha, hnot⟩
      · exact ha
      · exact absurd ha hnot
  have hrun_boot : boot ∉ reapedOf events := by
    intro hb
    have hstate := hexited boot hb
    rcases h.boot_state with hstate' | hstate'
    · rw [hstate] at hstate'
      exact absurd hstate' (by decide)
    · exact hstate'.2 hstate
  have hnumbered : Numbered (events.foldl SchedRun.note s).inUse (events.foldl SchedRun.note s).number
      (events.foldl SchedRun.note s).count (events.foldl SchedRun.note s).reaped := by
    rw [hnumber, hcount, hreaped]
    exact h.numbered.remove (List.nodup_append.1 hnodup).2.1 hin hinUse
  refine ⟨⟨l', hring', fun a => ?_⟩, hnumbered.inj, hnumbered.live_iff, hnumbered.nodup,
    fun n hn => ⟨hnumbered.lt n hn, ?_⟩, ?_, ?_, ?_, ?_, ?_, ?_⟩
  · rw [hmem]
    exact (hinUse a).symm
  · change n ∈ (events.foldl SchedRun.note s).exited
    rw [hexits]
    have hn : n ∈ (events.foldl SchedRun.note s).reaped := hn
    rw [hreaped] at hn
    rcases List.mem_append.1 hn with hn | hn
    · rw [List.mem_reverse, List.mem_map] at hn
      obtain ⟨a, ha, rfl⟩ := hn
      exact h.exit_exited a (hin a ha) (hexited a ha)
    · exact (h.reaped_exited n hn).2
  · intro a ha hstate
    change (events.foldl SchedRun.note s).number a ∈ (events.foldl SchedRun.note s).exited
    rw [hnumber, hexits]
    exact h.exit_exited a ((hinUse a).1 ha).1 (hexit a hstate)
  · exact (hinUse boot).2 ⟨h.boot_mem, hrun_boot⟩
  · change (events.foldl SchedRun.note s).number boot = 0
    rw [hnumber]
    exact h.boot_number
  · change (sched.mem boot).state = .run ∨
      ((events.foldl SchedRun.note s).count = 1 ∧ (sched.mem boot).state ≠ .exit)
    rw [hcount]
    rcases h.boot_state with hstate | ⟨hone, hstate⟩
    · exact .inl (hrun boot hstate)
    · exact .inr ⟨hone, fun hex => hstate (hexit boot hex)⟩
  · intro p new hnew
    change (events.foldl SchedRun.note s).creating p = some new at hnew
    rw [hcreating] at hnew
    obtain ⟨hout, hstate⟩ := h.new_run p new hnew
    exact ⟨fun hin => hout ((hinUse new).1 hin).1, hrun new hstate⟩
  · intro p q new hp hq
    change (events.foldl SchedRun.note s).creating p = some new at hp
    change (events.foldl SchedRun.note s).creating q = some new at hq
    rw [hcreating] at hp hq
    exact h.new_inj p q new hp hq

theorem of_step (h : RingInv boot s) {op : SchedOp} {s' : SchedRun} (hboot : BootRuns boot s op)
    (hkept : LinkKept s op) (hstep : s.Step op s') : RingInv boot s' := by
  have hkeep : ∀ {f : Process → Process}, (∀ x, (f x).next = x.next) → (∀ x, (f x).state = x.state) →
      RingInv boot { s with sched := s.sched.store s.sched.currentProcess f } := by
    intro f hnext hstate
    refine h.of_store hnext (fun _ hn => hn) (fun hexit => ?_) fun _ => ?_
    · rw [hstate] at hexit
      exact h.exit_exited _ h.current_mem hexit
    · rw [hstate]
      exact h.boot_state
  cases hstep with
  | initNew new pde hready hnew hfresh hother => exact h.of_initNew hfresh hother
  | linkNew new hrun hnew => exact h.of_linkNew hrun hnew hkept
  | processExit hready =>
      refine h.of_store (fun _ => rfl) (fun _ hn => List.mem_cons_of_mem _ hn)
        (fun _ => List.mem_cons_self) fun hcurrent => absurd hcurrent hboot
  | setLock lock hready => exact hkeep (fun _ => rfl) fun _ => rfl
  | enterLock hready =>
      refine h.of_store (fun _ => rfl) (fun _ hn => hn) (fun hexit => ?_) fun hcurrent => ?_
      · exact ProcessState.noConfusion hexit
      · exact .inr ⟨hboot hcurrent, fun hexit => ProcessState.noConfusion hexit⟩
  | processUnlock lock hready hheld =>
      exact h.of_next_eq rfl (fun _ _ => rfl) (fun _ hn => hn) h.exit_exited h.boot_state h.new_run
        h.new_inj
  | setTick tick hready => exact hkeep (fun _ => rfl) fun _ => rfl
  | enterWait hready =>
      refine h.of_store (fun _ => rfl) (fun _ hn => hn) (fun hexit => ?_) fun hcurrent => ?_
      · exact ProcessState.noConfusion hexit
      · exact .inr ⟨hboot hcurrent, fun hexit => ProcessState.noConfusion hexit⟩
  | timer fuel hswitch => exact h.of_timer hswitch

theorem of_reachable (hs : ((schedMachine boot kernelMmapPde).restrict
    fun s op => BootRuns boot s op ∧ LinkKept s op).Reachable s) : RingInv boot s := by
  refine hs.invariant ?_ ?_
  · exact fun s h => of_init h
  · rintro s op s' h ⟨⟨hboot, hkept⟩, hstep⟩
    exact h.of_step hboot hkept hstep

end RingInv

/-- Following `next` from the running process gives one cycle with the boot
process and every created process that was not taken out, each once. A process is
taken out at most once and only after it exited, and a switch takes out neither
the process it starts from nor the one it ends at. -/
def RingSafe (boot : ℕ) (s : SchedRun) : Prop :=
  (∃ l, s.sched.ProcessRing s.sched.currentProcess l ∧ boot ∈ s.sched.currentProcess :: l ∧
    ((s.sched.currentProcess :: l).map s.number).Nodup ∧
      ∀ n, n ∈ (s.sched.currentProcess :: l).map s.number ↔ n < s.count ∧ n ∉ s.reaped) ∧
  s.reaped.Nodup ∧ (∀ n ∈ s.reaped, n ∈ s.exited) ∧
  ∀ fuel sched events, s.sched.irq0Handler fuel = some (sched, events) →
    s.sched.currentProcess ∉ reapedOf events ∧ sched.currentProcess ∉ reapedOf events

/-- The ring is right in every run in which each new process is linked while the process
it is put behind still has the successor that was read. -/
theorem ring_safety {boot kernelMmapPde : ℕ} {s : SchedRun}
    (hs : ((schedMachine boot kernelMmapPde).restrict
      fun s op => BootRuns boot s op ∧ LinkKept s op).Reachable s) : RingSafe boot s := by
  have h := RingInv.of_reachable hs
  refine ⟨?_, h.reaped_nodup, fun n hn => (h.reaped_exited n hn).2, ?_⟩
  · obtain ⟨l, hring, hl⟩ := h.ring
    refine ⟨l, hring, (hl boot).2 h.boot_mem, ?_, fun n => ?_⟩
    · exact hring.nodup.map_on fun a ha b hb => h.number_inj a ((hl a).1 ha) b ((hl b).1 hb)
    · rw [← h.live_iff, List.mem_map]
      constructor
      · rintro ⟨a, ha, han⟩
        exact ⟨a, (hl a).1 ha, han⟩
      · rintro ⟨a, ha, han⟩
        exact ⟨a, (hl a).2 ha, han⟩
  · intro fuel sched events hswitch
    obtain ⟨l, hring, -, hw, hnot⟩ := h.walked hswitch
    obtain ⟨l', -, hperm⟩ := hw.ring
    refine ⟨hnot, fun hin => ?_⟩
    have hnodup := hperm.nodup_iff.2 hring.nodup
    exact (List.nodup_append.1 hnodup).2.2 _ List.mem_cons_self _ hin rfl

/-! ## Runs of two and three processes -/

section Example

/-- The boot process creates a second one, with a tick between the two link stores; the
second one exits and is taken out two ticks later. -/
theorem ring_safety_one_exit :
    let s := (((((schedBoot.initNew 0x3000 0).tick 1).linkNew 0x3000).tick 1).processExit.tick 1).tick 2
    s.reaped = [1] ∧ RingSafe 0x1000 s := by
  intro s
  have h₁ := SchedRun.initNew_reachable (C := fun s op => BootRuns 0x1000 s op ∧ LinkKept s op) 0x3000 0
    (.init schedBoot_init) ⟨trivial, trivial⟩ ⟨by with_unfolding_all decide, rfl⟩
    (by decide) (by decide) (fun p h => by cases h)
  have h₂ := SchedRun.tick_reachable 1 h₁ ⟨trivial, trivial⟩ (by with_unfolding_all decide)
  have hkept : LinkKept ((schedBoot.initNew 0x3000 0).tick 1) (.linkNew 0x3000) := by
    change (_ : ℕ) = _
    with_unfolding_all decide
  have h₃ := SchedRun.linkNew_reachable 0x3000 h₂ ⟨trivial, hkept⟩ (by with_unfolding_all decide)
    (by with_unfolding_all decide)
  have h₄ := SchedRun.tick_reachable 1 h₃ ⟨trivial, trivial⟩ (by with_unfolding_all decide)
  have hother : ((((schedBoot.initNew 0x3000 0).tick 1).linkNew 0x3000).tick 1).sched.currentProcess ≠
      0x1000 := by with_unfolding_all decide
  have h₅ := SchedRun.processExit_reachable h₄ ⟨hother, trivial⟩
    ⟨by with_unfolding_all decide, by with_unfolding_all decide⟩
  have h₆ := SchedRun.tick_reachable 1 h₅ ⟨trivial, trivial⟩ (by with_unfolding_all decide)
  have hs := SchedRun.tick_reachable 2 h₆ ⟨trivial, trivial⟩ (by with_unfolding_all decide)
  exact ⟨by with_unfolding_all decide, ring_safety hs⟩

/-- The boot process reads its successor for a new process; the successor exits and is taken
out before the new process is linked, which then leads to the stack that was freed. -/
theorem ring_not_safe :
    ¬ ∀ s : SchedRun, ((schedMachine 0x1000 0).restrict (BootRuns 0x1000)).Reachable s →
      RingSafe 0x1000 s := by
  intro hall
  have h₁ := SchedRun.initNew_reachable (C := BootRuns 0x1000) 0x3000 0
    (.init schedBoot_init)
    trivial ⟨by with_unfolding_all decide, rfl⟩ (by decide) (by decide) (fun p h => by cases h)
  have h₂ := SchedRun.linkNew_reachable 0x3000 h₁ trivial (by with_unfolding_all decide)
    (by with_unfolding_all decide)
  have h₃ := SchedRun.initNew_reachable 0x5000 0 h₂ trivial
    ⟨by with_unfolding_all decide, by with_unfolding_all decide⟩ (by decide) (by decide)
    (fun p h => by
      have hnone : ((schedBoot.initNew 0x3000 0).linkNew 0x3000).creating p = none := by
        change Function.update (Function.update (fun _ => none) 0x1000 (some 0x3000)) 0x1000 none p =
          (none : Option ℕ)
        rw [Function.update_idem, Function.update_apply, ite_self]
      rw [hnone] at h
      cases h)
  have h₄ := SchedRun.tick_reachable 1 h₃ trivial (by with_unfolding_all decide)
  have hother : ((((schedBoot.initNew 0x3000 0).linkNew 0x3000).initNew 0x5000 0).tick
      1).sched.currentProcess ≠ 0x1000 := by with_unfolding_all decide
  have h₅ := SchedRun.processExit_reachable h₄ hother
    ⟨by with_unfolding_all decide, by with_unfolding_all decide⟩
  have h₆ := SchedRun.tick_reachable 1 h₅ trivial (by with_unfolding_all decide)
  have h₇ := SchedRun.tick_reachable 2 h₆ trivial (by with_unfolding_all decide)
  have h₈ := SchedRun.linkNew_reachable 0x5000 h₇ trivial (by with_unfolding_all decide)
    (by with_unfolding_all decide)
  obtain ⟨⟨l, hring, -, -, hmem⟩, -⟩ := hall _ h₈
  generalize hs : ((((((schedBoot.initNew 0x3000 0).linkNew 0x3000).initNew 0x5000 0).tick
    1).processExit.tick 1).tick 2).linkNew 0x5000 = s at hring hmem
  have hlinks : s.sched.currentProcess = 0x1000 ∧ (s.sched.mem 0x1000).next = 0x5000 ∧
      (s.sched.mem 0x5000).next = 0x3000 ∧ s.number 0x3000 = 1 ∧ 1 ∈ s.reaped := by
    rw [← hs]
    with_unfolding_all decide
  obtain ⟨hcurrent, hfirst, hsecond, hnumber, hreaped⟩ := hlinks
  have hpath : Path (fun a => (s.sched.mem a).next) 0x1000 l 0x1000 := hcurrent ▸ hring.path
  -- the way from the boot process leads through the new process to the stack that was freed
  have hin : 0x3000 ∈ l := by
    cases l with
    | nil => exact absurd (hfirst.symm.trans hpath) (by decide)
    | cons x l =>
        obtain ⟨hx, hpath⟩ := hpath
        obtain rfl : 0x5000 = x := hfirst.symm.trans hx
        cases l with
        | nil => exact absurd (hsecond.symm.trans hpath) (by decide)
        | cons y l =>
            obtain rfl : 0x3000 = y := hsecond.symm.trans hpath.1
            exact List.mem_cons_of_mem _ List.mem_cons_self
  have hnot := (hmem 1).1 (List.mem_map.2 ⟨0x3000, List.mem_cons_of_mem _ hin, hnumber⟩)
  exact hnot.2 hreaped

end Example

end BitchKernel
