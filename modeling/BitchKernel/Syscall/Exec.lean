import BitchKernel.Binfmt.Image
import BitchKernel.CString
import BitchKernel.Process.Exec

/-!
# The path of a new process

`sys_exec` maps `len` bytes of the user and hands their address to `exec`, which measures and
copies the path with `strlen` and `strcpy`. The two functions do not know `len`: they stop at the
first zero. So the call stays inside the mapped window exactly when there is a zero in it.

The bytes behind the addresses of the kernel are `mem`; in a window that shows the pages of the
user they are the bytes of the user. What `exec` stores on the way, the page tables, the headers of
the heap and the copy itself, lies outside the window.
-/

namespace BitchKernel

open Lib

namespace Kernel

variable {k : Kernel} {fuel : ℕ}

theorem vmmMmapPdePage_mono {attr count pde : ℕ} {r : ℕ × Kernel}
    (h : k.vmmMmapPdePage fuel attr count pde = some r) (more : ℕ) :
    k.vmmMmapPdePage (fuel + more) attr count pde = some r := by
  unfold vmmMmapPdePage at h ⊢
  obtain ⟨found, hscan, hr⟩ := Option.map_eq_some_iff.1 h
  have hmore : k.vmmScan (fuel + more) count = some found := DownScan.downScan_mono hscan more
  rw [hmore, Option.map_some, hr]

theorem ummMmapOne_mono {attr pde : ℕ} {r : ℕ × Kernel} (h : k.ummMmapOne fuel attr pde = some r)
    (more : ℕ) : k.ummMmapOne (fuel + more) attr pde = some r := by
  unfold ummMmapOne at h ⊢
  dsimp only at h ⊢
  split
  · rename_i hzero
    rw [if_pos hzero] at h
    obtain ⟨found, halloc, hr⟩ := Option.map_eq_some_iff.1 h
    rw [vmmAllocPage_mono halloc more, Option.map_some, hr]
  · rename_i hzero
    rw [if_neg hzero] at h
    exact h

theorem ummMmapKmm_mono {attr len pde : ℕ} {r : ℕ × Kernel}
    (h : k.ummMmapKmm fuel attr len pde = some r) (more : ℕ) :
    k.ummMmapKmm (fuel + more) attr len pde = some r := by
  unfold ummMmapKmm at h ⊢
  by_cases hout : pageOffset < add32 attr len
  · rw [if_pos hout] at h ⊢
    exact h
  rw [if_neg hout] at h ⊢
  dsimp only at h ⊢
  obtain ⟨window, hwindow, hr⟩ := Option.map_eq_some_iff.1 h
  by_cases hone : ummPageCount attr len = 1
  · rw [if_pos hone] at hwindow ⊢
    rw [ummMmapOne_mono hwindow more, Option.map_some, hr]
  · rw [if_neg hone] at hwindow ⊢
    rw [vmmMmapPdePage_mono hwindow more, Option.map_some, hr]

theorem ummMmapKmm_lt {attr len pde : ℕ} {p : ℕ} {k' : Kernel}
    (h : k.ummMmapKmm fuel attr len pde = some (p, k')) : p < 2 ^ 32 := by
  unfold ummMmapKmm at h
  by_cases hout : pageOffset < add32 attr len
  · rw [if_pos hout] at h
    cases h
    decide
  rw [if_neg hout] at h
  dsimp only at h
  obtain ⟨⟨page, kernel⟩, -, hr⟩ := Option.map_eq_some_iff.1 h
  dsimp only at hr
  by_cases hpage : page = 0
  · rw [if_pos hpage] at hr
    cases hr
    decide
  · rw [if_neg hpage] at hr
    cases hr
    exact Word.sub_lt 32 _ _

end Kernel

namespace Kernel

/-- What the kernel finds in a window that shows what the directory has is what the user finds. -/
theorem Coherent.userByte {k : Kernel} {p attr len d i : ℕ} (h : k.Coherent p attr len d)
    (hi : i < len) : k.UserByte d (attr + i) (k.loadByte (p + i)) := by
  obtain ⟨hoffset, f, -, hshown, hmaps⟩ := h i hi
  have hslot : (attr + i) % pageSize % 4 = (p + i) % 4 := by
    rw [← hoffset]
    exact Nat.mod_mod_of_dvd _ (by decide)
  refine ⟨f, hmaps, ?_⟩
  unfold frameByte loadByte
  rw [hshown, Nat.mul_div_cancel _ (by decide), hslot, hoffset]

end Kernel

/-- What a call leaves: its answer, the path it handed to `process_create` if it came so far, and
the state. -/
abbrev ExecOutcome : Type := ℕ × Option (List (BitVec 8)) × ExecState

namespace ExecState

/-- `exec`, and the addresses at which it reads the path. -/
def execPath (s : ExecState) (mem : Bytes) (fuel path : ℕ) : Option ExecOutcome × List ℕ :=
  let (pde, kernel) := s.kernel.ummAllocPde
  let s := { s with kernel := kernel }
  if pde = 0 then (some (0, none, s), [])
  else
    let (len, reads) := strlen mem fuel path
    match len.bind fun len => s.kmalloc fuel (add32 len 1) with
    | none => (none, reads)
    | some (p, s) =>
        if p = 0 then (some (0, none, s), reads)
        else
          let (copy, more) := strcpy mem fuel path
          (copy.bind fun copy => (s.processCreate fuel pde).map fun (pid, s) =>
              (pid, some copy, if pid = 0 then { s with kernel := s.kernel.ummFree pde } else s),
            reads ++ more)

def sysExec (s : ExecState) (mem : Bytes) (fuel path len : ℕ) : Option ExecOutcome × List ℕ :=
  match s.kernel.ummMmapKmm fuel path len (s.sched.mem s.sched.currentProcess).pde with
  | none => (none, [])
  | some (p, kernel) =>
      let s := { s with kernel := kernel }
      if p = 0 then (some (0, none, s), [])
      else
        let (outcome, reads) := s.execPath mem fuel p
        (outcome.map fun (pid, copy, s) =>
          (pid, copy, { s with kernel := s.kernel.ummUmmapKmm p len }), reads)

variable {s : ExecState} {mem mem' : Bytes} {fuel p n path len : ℕ}

/-! ## exec on a string -/

theorem execPath_of_no_pde (hpde : s.kernel.ummAllocPde.1 = 0) :
    s.execPath mem fuel p = (some (0, none, s.afterPde), []) := by
  unfold execPath
  dsimp only
  rw [if_pos hpde]
  rfl

/-- What `exec` does with the results of `strlen` and `strcpy`. -/
def execWith (s : ExecState) (fuel : ℕ) (len : Option ℕ × List ℕ)
    (copied : Option (List (BitVec 8)) × List ℕ) : Option ExecOutcome × List ℕ :=
  match len.1.bind fun len => s.afterPde.kmalloc fuel (add32 len 1) with
  | none => (none, len.2)
  | some (p, s') =>
      if p = 0 then (some (0, none, s'), len.2)
      else
        (copied.1.bind fun copy => (s'.processCreate fuel s.kernel.ummAllocPde.1).map fun r =>
            (r.1, some copy,
              if r.1 = 0 then { r.2 with kernel := r.2.kernel.ummFree s.kernel.ummAllocPde.1 }
              else r.2),
          len.2 ++ copied.2)

theorem execPath_of_pde (hpde : s.kernel.ummAllocPde.1 ≠ 0) :
    s.execPath mem fuel p = s.execWith fuel (strlen mem fuel p) (strcpy mem fuel p) := by
  unfold execPath execWith
  dsimp only
  rw [if_neg hpde]
  rfl

/-- What `exec` reads it reads in `strlen` or in `strcpy`, and in the latter only when the former
has come to an end. -/
theorem mem_execWith {len : Option ℕ × List ℕ} {copied : Option (List (BitVec 8)) × List ℕ} {a : ℕ}
    (ha : a ∈ (s.execWith fuel len copied).2) : a ∈ len.2 ∨ (len.1 ≠ none ∧ a ∈ copied.2) := by
  unfold execWith at ha
  split at ha
  · exact Or.inl ha
  · rename_i p s' hbind
    split at ha
    · exact Or.inl ha
    · rcases List.mem_append.1 ha with ha | ha
      · exact Or.inl ha
      · refine Or.inr ⟨fun hnone => ?_, ha⟩
        rw [hnone] at hbind
        cases hbind

theorem subset_execWith {len : Option ℕ × List ℕ} {copied : Option (List (BitVec 8)) × List ℕ} {a : ℕ}
    (ha : a ∈ len.2) : a ∈ (s.execWith fuel len copied).2 := by
  unfold execWith
  split
  · exact ha
  · split
    · exact ha
    · exact List.mem_append_left _ ha

theorem execPath_of_endsAt (h : EndsAt mem p n) (hp : p < 2 ^ 32) (hn : n < 2 ^ 32) (hfuel : n < fuel) :
    (s.execPath mem fuel p).1.map (fun r => (r.1, r.2.2)) = s.exec fuel n := by
  by_cases hpde : s.kernel.ummAllocPde.1 = 0
  · rw [execPath_of_no_pde hpde, exec_of_no_pde hpde]
    rfl
  · obtain ⟨reads, hcopy, -⟩ := h.strcpy_eq hp hfuel
    rw [execPath_of_pde hpde, exec_of_pde hpde, h.strlen_eq hp hn, if_pos hfuel, hcopy]
    unfold execWith
    rw [Option.bind_some]
    rcases s.afterPde.kmalloc fuel (add32 n 1) with _ | ⟨q, s'⟩
    · rfl
    · dsimp only
      rw [Option.bind_some, Option.bind_some]
      dsimp only
      by_cases hq : q = 0
      · rw [if_pos hq, if_pos hq]
        rfl
      · rw [if_neg hq, if_neg hq]
        dsimp only
        rw [Option.map_map]
        congr 1
        funext r
        dsimp only [Function.comp]
        split <;> rfl

/-- The bytes of a string decide what `exec` does, and it reads no others. -/
theorem execPath_congr (h : EndsAt mem p n) (hp : p < 2 ^ 32) (hn : n < 2 ^ 32)
    (hsame : ∀ i ≤ n, mem' (add32 p i) = mem (add32 p i)) :
    (s.execPath mem' fuel p).1 = (s.execPath mem fuel p).1 := by
  by_cases hpde : s.kernel.ummAllocPde.1 = 0
  · rw [execPath_of_no_pde hpde, execPath_of_no_pde hpde]
  · have h' := h.congr hsame
    rw [execPath_of_pde hpde, execPath_of_pde hpde, h.strlen_eq hp hn, h'.strlen_eq hp hn]
    by_cases hfuel : n < fuel
    · obtain ⟨reads, hcopy, -⟩ := h.strcpy_eq hp hfuel
      obtain ⟨reads', hcopy', -⟩ := h'.strcpy_eq hp hfuel
      have hmap : (tested p n).map mem' = (tested p n).map mem := by
        refine List.map_congr_left fun a ha => ?_
        obtain ⟨i, hi, rfl⟩ := mem_tested.1 ha
        exact hsame i hi.le
      rw [if_pos hfuel, hcopy, hcopy', hmap]
      unfold execWith
      dsimp only
      split
      · rfl
      · split <;> rfl
    · rw [if_neg hfuel]
      rfl

theorem execPath_reads (h : EndsAt mem p n) (hp : p < 2 ^ 32) (hn : n < 2 ^ 32) :
    ∀ a ∈ (s.execPath mem fuel p).2, ∃ i ≤ n, a = add32 p i := by
  intro a ha
  suffices a ∈ tested p (n + 1) by
    obtain ⟨i, hi, rfl⟩ := mem_tested.1 this
    exact ⟨i, Nat.le_of_lt_succ hi, rfl⟩
  by_cases hpde : s.kernel.ummAllocPde.1 = 0
  · rw [execPath_of_no_pde hpde] at ha
    exact absurd ha List.not_mem_nil
  rw [execPath_of_pde hpde, h.strlen_eq hp hn] at ha
  by_cases hfuel : n < fuel
  · obtain ⟨reads, hcopy, hreads⟩ := h.strcpy_eq hp hfuel
    rw [if_pos hfuel, hcopy] at ha
    rcases mem_execWith ha with ha | ⟨-, ha⟩
    · exact ha
    · exact hreads a ha
  · rw [if_neg hfuel] at ha
    rcases mem_execWith ha with ha | ⟨hnone, -⟩
    · obtain ⟨i, hi, rfl⟩ := mem_tested.1 ha
      exact mem_tested.2 ⟨i, by omega, rfl⟩
    · exact absurd rfl hnone

/-! ## The window -/

/-- Whatever window the call gets, it reads only the `len` bytes of it, and what it hands on and
returns is the same for every memory with the same bytes there. -/
def ReadsOnlyBuffer (s : ExecState) (mem : Bytes) (path len : ℕ) : Prop :=
  ∀ p kernel, s.kernel.Returns
      (.ummMmapKmm path len (s.sched.mem s.sched.currentProcess).pde) p kernel → p ≠ 0 →
    (∀ fuel, ∀ a ∈ (s.sysExec mem fuel path len).2, ∃ i < len, a = add32 p i) ∧
    ∀ mem', (∀ i < len, mem' (add32 p i) = mem (add32 p i)) →
      ∀ fuel, (s.sysExec mem' fuel path len).1 = (s.sysExec mem fuel path len).1

/-- `exec` gets no page directory, or there is a zero in the window. -/
def BufferEnds (s : ExecState) (mem : Bytes) (path len : ℕ) : Prop :=
  ∀ p kernel, s.kernel.Returns
      (.ummMmapKmm path len (s.sched.mem s.sched.currentProcess).pde) p kernel → p ≠ 0 →
    kernel.ummAllocPde.1 = 0 ∨ ∃ i < len, mem (add32 p i) = 0

theorem sysExec_of_window {kernel : Kernel}
    (h : s.kernel.ummMmapKmm fuel path len (s.sched.mem s.sched.currentProcess).pde = some (p, kernel))
    (hp : p ≠ 0) :
    s.sysExec mem fuel path len =
      ((execPath { s with kernel := kernel } mem fuel p).1.map fun r =>
          (r.1, r.2.1, { r.2.2 with kernel := r.2.2.kernel.ummUmmapKmm p len }),
        (execPath { s with kernel := kernel } mem fuel p).2) := by
  unfold sysExec
  rw [h]
  dsimp only
  rw [if_neg hp]

theorem sysExec_of_none
    (h : s.kernel.ummMmapKmm fuel path len (s.sched.mem s.sched.currentProcess).pde = none) :
    s.sysExec mem fuel path len = (none, []) := by
  unfold sysExec
  rw [h]

/-- The window does not depend on how many tests its scan may make. -/
theorem window_unique {fuel' q : ℕ} {pde : ℕ} {kernel kernel' : Kernel}
    (h : s.kernel.ummMmapKmm fuel path len pde = some (p, kernel))
    (h' : s.kernel.ummMmapKmm fuel' path len pde = some (q, kernel')) : q = p ∧ kernel' = kernel := by
  have hmore := Kernel.ummMmapKmm_mono h fuel'
  have hmore' := Kernel.ummMmapKmm_mono h' fuel
  rw [Nat.add_comm fuel' fuel, hmore] at hmore'
  obtain ⟨hpage, hkernel⟩ := Prod.mk.inj (Option.some.inj hmore')
  exact ⟨hpage.symm, hkernel.symm⟩

/-- **When the exec call reads only the caller's buffer.** In every state, for every content of
the memory and every path and length: `sys_exec` reads no byte outside the window of the `len`
bytes, and its result and the path of the new process depend on these bytes only, exactly when
`exec` does not come to the path or there is a zero among them. -/
theorem sysExec_reads_only_iff (hlen : len < 2 ^ 32) :
    s.ReadsOnlyBuffer mem path len ↔ s.BufferEnds mem path len := by
  constructor
  · rintro hreads p kernel ⟨fuel, hcall⟩ hp
    by_contra hneither
    obtain ⟨hpde, hnone⟩ := not_or.1 hneither
    have hsrc := Kernel.ummMmapKmm_lt hcall
    -- the byte behind the window is read
    have hmore := Kernel.ummMmapKmm_mono hcall (len + 1)
    have hread : add32 p len ∈ (s.sysExec mem (fuel + (len + 1)) path len).2 := by
      rw [sysExec_of_window hmore hp]
      dsimp only
      rw [execPath_of_pde hpde]
      exact subset_execWith (mem_strlen hsrc (fun i hi hzero => hnone ⟨i, hi, hzero⟩) (by omega))
    obtain ⟨i, hi, hsame⟩ := (hreads p kernel ⟨fuel, hcall⟩ hp).1 _ _ hread
    rw [add32_eq, add32_eq] at hsame
    omega
  · rintro hends p kernel ⟨fuel₀, hcall⟩ hp
    have hsrc := Kernel.ummMmapKmm_lt hcall
    have hone : ∀ fuel, (∀ mem, s.sysExec mem fuel path len = (none, [])) ∨
        ∀ mem, s.sysExec mem fuel path len = _ := fun fuel => by
      rcases hfuel : s.kernel.ummMmapKmm fuel path len (s.sched.mem s.sched.currentProcess).pde with
        _ | ⟨q, kernel'⟩
      · exact Or.inl fun mem => sysExec_of_none hfuel
      · obtain ⟨rfl, rfl⟩ := window_unique hcall hfuel
        exact Or.inr fun mem => sysExec_of_window hfuel hp
    rcases hends p kernel ⟨fuel₀, hcall⟩ hp with hpde | hzero
    · have hstop : ∀ mem fuel, (execPath { s with kernel := kernel } mem fuel p) =
          (some (0, none, afterPde { s with kernel := kernel }), []) :=
        fun mem fuel => execPath_of_no_pde hpde
      constructor
      · intro fuel a ha
        rcases hone fuel with hnone | hsome
        · rw [hnone] at ha
          exact absurd ha List.not_mem_nil
        · rw [hsome, hstop] at ha
          exact absurd ha List.not_mem_nil
      · intro mem' _ fuel
        rcases hone fuel with hnone | hsome
        · rw [hnone, hnone]
        · rw [hsome, hsome, hstop, hstop]
    · obtain ⟨n, hn, hend⟩ := exists_endsAt hzero
      constructor
      · intro fuel a ha
        rcases hone fuel with hnone | hsome
        · rw [hnone] at ha
          exact absurd ha List.not_mem_nil
        · rw [hsome] at ha
          obtain ⟨i, hi, rfl⟩ := execPath_reads hend hsrc (by omega) a ha
          exact ⟨i, by omega, rfl⟩
      · intro mem' hsame fuel
        rcases hone fuel with hnone | hsome
        · rw [hnone, hnone]
        · rw [hsome, hsome]
          dsimp only
          rw [execPath_congr hend hsrc (by omega) fun i hi => hsame i (by omega)]

section Example

/-- The process of the first directory, before anything was allocated from the heap. -/
def firstExec : ExecState :=
  { bootExec (pdeRun smallBoot).kernel with
    sched := Sched.initCurrentProcess 0xc0100000 (449 * pageSize)
      ⟨fun _ => ⟨.run, 0, 0, 0, 0, 0, 0⟩, 0, 0, fun _ => 0, 0⟩ }

theorem firstExec_kernel : firstExec.kernel = (pdeRun smallBoot).kernel := by
  rw [firstExec, bootExec]

theorem firstExec_pde : (firstExec.sched.mem firstExec.sched.currentProcess).pde = 449 * pageSize := by
  decide

/-- The boot process gets a window for a path of four bytes, and a directory for the new process. -/
theorem firstExec_window : ∃ p kernel, firstExec.kernel.Returns
    (.ummMmapKmm 0x1000 4 (firstExec.sched.mem firstExec.sched.currentProcess).pde) p kernel ∧
      p ≠ 0 ∧ kernel.ummAllocPde.1 ≠ 0 := by
  have hcall : ((pdeRun smallBoot).kernel.ummMmapKmm 2 0x1000 4 (449 * pageSize)).map
      (fun r => (decide (r.1 = 0), decide (r.2.ummAllocPde.1 = 0))) = some (false, false) := by
    decide +kernel
  obtain ⟨⟨p, kernel⟩, hwindow, hr⟩ := Option.map_eq_some_iff.1 hcall
  obtain ⟨hp, hpde⟩ := Prod.mk.inj hr
  refine ⟨p, kernel, ?_, of_decide_eq_false hp, of_decide_eq_false hpde⟩
  rw [firstExec_kernel, firstExec_pde]
  exact ⟨2, hwindow⟩

/-- A memory of strings of three characters. -/
def shortStrings (a : ℕ) : BitVec 8 := if a % 4 = 3 then 0 else 0x61

/-- Four bytes of this memory have a zero among them, wherever the window lies. -/
theorem sysExec_reads_only_iff_strings :
    (∃ p kernel, firstExec.kernel.Returns
      (.ummMmapKmm 0x1000 4 (firstExec.sched.mem firstExec.sched.currentProcess).pde) p kernel ∧
        p ≠ 0 ∧ kernel.ummAllocPde.1 ≠ 0) ∧
      firstExec.ReadsOnlyBuffer shortStrings 0x1000 4 := by
  refine ⟨firstExec_window, (sysExec_reads_only_iff (by decide)).2 fun p _ _ _ => ?_⟩
  refine Or.inr ⟨3 - p % 4, by omega, if_pos ?_⟩
  rw [add32_eq]
  omega

/-- Four bytes without a zero: `strlen` goes on behind the window. -/
theorem path_read_past_buffer :
    ¬ ∀ (b : KernelBoot) (s : ExecState) (mem : Bytes) (path len : ℕ),
      (memMachine b).Reachable s.kernel → path < 2 ^ 32 → len < 2 ^ 32 →
        s.ReadsOnlyBuffer mem path len := by
  intro hall
  obtain ⟨p, kernel, hcall, hp, hpde⟩ := firstExec_window
  have hreachable : (memMachine smallBoot).Reachable firstExec.kernel := by
    rw [firstExec_kernel]
    exact pdeRun_memReachable smallBoot
  have hreads := hall smallBoot firstExec (fun _ => 1) 0x1000 4 hreachable (by decide) (by decide)
  have hends : firstExec.BufferEnds (fun _ => 1) 0x1000 4 := (sysExec_reads_only_iff (by decide)).1 hreads
  rcases hends p kernel hcall hp with hzero | ⟨i, -, hone⟩
  · exact hpde hzero
  · have hne : (1 : BitVec 8) ≠ 0 := by decide
    exact hne hone

end Example

end ExecState

end BitchKernel
