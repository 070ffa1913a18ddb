import BitchKernel.Binfmt.ElfShort

/-!
# The block of the path

The block that holds the path is handed from `exec` to `binfmt_exec`, which frees it at its end.
When the program was loaded `elf_exec` does not come back, so it frees the block itself; the
message behind that reads it.
-/

namespace BitchKernel

section Exec

variable {σ : Type*} {w : UserWindows σ} {io : FileIo} {stack : ℕ → Lib.Bytes}

def FreedOnceAtEnd (uses : List PathUse) : Prop :=
  uses.count .free = 1 ∧ ∀ i j : ℕ, uses[i]? = some .free → uses[j]? = some .read → j < i

/-- The file is an executable of which `load_program` loads every segment. -/
def LoadsImage (w : UserWindows σ) (io : FileIo) (stack : ℕ → Lib.Bytes) (onStack : Lib.Bytes)
    (s : σ) : Prop :=
  ¬ io.Fails sizeofElfHeader 0 ∧ (headerRead io onStack).IsExec ∧ ∃ r s' uses,
    loadProgram w io stack (headerRead io onStack).ePhoff (headerRead io onStack).ePhentsize
      (headerRead io onStack).ePhnum s = some (r, s', uses) ∧ r ≠ -1

theorem freedOnceAtEnd_append {uses : List PathUse} (h : ∀ u ∈ uses, u = .read) :
    FreedOnceAtEnd (uses ++ [.free]) := by
  have hnone : PathUse.free ∉ uses := fun hmem => by cases h _ hmem
  refine ⟨?_, fun i j hi hj => ?_⟩
  · rw [List.count_append, List.count_eq_zero.2 hnone, List.count_singleton_self]
  · have hlast : uses.length ≤ i := by
      by_contra hlt
      rw [List.getElem?_append_left (Nat.lt_of_not_le hlt)] at hi
      exact hnone (List.mem_of_getElem? hi)
    by_contra hle
    have hj' : uses.length ≤ j := by omega
    rw [List.getElem?_append_right hj'] at hj
    have hmem := List.mem_of_getElem? hj
    rw [List.mem_singleton] at hmem
    cases hmem

theorem not_freedOnceAtEnd (uses : List PathUse) : ¬ FreedOnceAtEnd (uses ++ [.free, .read]) := by
  rintro ⟨-, hlater⟩
  have hfree : (uses ++ [PathUse.free, .read])[uses.length]? = some .free := by
    rw [List.getElem?_append_right (Nat.le_refl _), Nat.sub_self]
    rfl
  have hread : (uses ++ [PathUse.free, .read])[uses.length + 1]? = some .read := by
    rw [List.getElem?_append_right (Nat.le_add_right _ 1), Nat.add_sub_cancel_left]
    rfl
  have hlt := hlater _ _ hfree hread
  omega

/-! ## What the loader does to it -/

theorem loadSegment_reads {s s' : σ} {pheader : ProgramHeader} {on : Bool} {uses : List PathUse}
    (h : loadSegment w io s pheader = some (on, s', uses)) : ∀ u ∈ uses, u = .read := by
  unfold loadSegment at h
  obtain ⟨⟨p, t⟩, -, h⟩ := Option.bind_eq_some_iff.1 h
  dsimp only at h
  split at h
  · obtain ⟨-, hstate⟩ := Prod.mk.inj (Option.some.inj h)
    obtain ⟨-, rfl⟩ := Prod.mk.inj hstate
    simp
  · obtain ⟨r, -, h⟩ := Option.map_eq_some_iff.1 h
    split at h
    · obtain ⟨-, hstate⟩ := Prod.mk.inj h
      obtain ⟨-, rfl⟩ := Prod.mk.inj hstate
      simp
    · obtain ⟨-, hstate⟩ := Prod.mk.inj h
      obtain ⟨-, rfl⟩ := Prod.mk.inj hstate
      simp

theorem loadRound_reads {offect size n : ℕ} {s s' : σ} {on : Bool} {uses : List PathUse}
    (h : loadRound w io stack offect size n s = some (on, s', uses)) : ∀ u ∈ uses, u = .read := by
  unfold loadRound at h
  obtain ⟨r, -, h⟩ := Option.bind_eq_some_iff.1 h
  split at h
  · obtain ⟨-, hstate⟩ := Prod.mk.inj (Option.some.inj h)
    obtain ⟨-, rfl⟩ := Prod.mk.inj hstate
    simp
  · dsimp only at h
    split at h
    · obtain ⟨⟨on', t, uses'⟩, hsegment, heq⟩ := Option.map_eq_some_iff.1 h
      obtain ⟨-, hstate⟩ := Prod.mk.inj heq
      obtain ⟨-, rfl⟩ := Prod.mk.inj hstate
      intro u hu
      rcases List.mem_cons.1 hu with rfl | hu
      · rfl
      · exact loadSegment_reads hsegment u hu
    · obtain ⟨-, hstate⟩ := Prod.mk.inj (Option.some.inj h)
      obtain ⟨-, rfl⟩ := Prod.mk.inj hstate
      simp

theorem loadLoop_reads {offect size rem n : ℕ} {s s' : σ} {r : ℤ} {uses : List PathUse}
    (h : loadLoop w io stack offect size rem n s = some (r, s', uses)) :
    ∀ u ∈ uses, u = .read := by
  induction rem generalizing n s uses with
  | zero =>
      obtain ⟨-, hstate⟩ := Prod.mk.inj (Option.some.inj h)
      obtain ⟨-, rfl⟩ := Prod.mk.inj hstate
      simp
  | succ rem ih =>
      rw [loadLoop] at h
      obtain ⟨⟨on, t, uses'⟩, hround, h⟩ := Option.bind_eq_some_iff.1 h
      have hreads := loadRound_reads hround
      cases on with
      | false =>
          obtain ⟨-, hstate⟩ := Prod.mk.inj (Option.some.inj h)
          obtain ⟨-, rfl⟩ := Prod.mk.inj hstate
          exact hreads
      | true =>
          obtain ⟨⟨r', t', uses''⟩, hrest, heq⟩ := Option.map_eq_some_iff.1 h
          obtain ⟨rfl, hstate⟩ := Prod.mk.inj heq
          obtain ⟨rfl, rfl⟩ := Prod.mk.inj hstate
          intro u hu
          rcases List.mem_append.1 hu with hu | hu
          · exact hreads u hu
          · exact ih hrest u hu

/-- How `elf_exec` ends: without the image, having read the path; or in user mode, having freed it
and read it again. -/
theorem elfExec_cases {onStack : Lib.Bytes} {s s' : σ} {e : ExecEnd} {uses : List PathUse}
    (h : elfExec w io stack onStack s = some (e, s', uses)) :
    (e = .returned ∧ (∀ u ∈ uses, u = .read) ∧ ¬ LoadsImage w io stack onStack s) ∨
      ((∃ entry, e = .userMode entry) ∧ (∃ reads, uses = reads ++ [.free, .read]) ∧
        LoadsImage w io stack onStack s) := by
  unfold elfExec at h
  obtain ⟨r, hanswer, h⟩ := Option.bind_eq_some_iff.1 h
  split at h
  · rename_i hr
    obtain ⟨rfl, hstate⟩ := Prod.mk.inj (Option.some.inj h)
    obtain ⟨-, rfl⟩ := Prod.mk.inj hstate
    exact .inl ⟨rfl, by simp, fun hloads => hloads.1 (.inr (by rw [hanswer, hr]))⟩
  · rename_i hr
    dsimp only at h
    split at h
    · rename_i hexec
      obtain ⟨⟨r', t, uses'⟩, hload, heq⟩ := Option.map_eq_some_iff.1 h
      dsimp only at heq
      split at heq
      · rename_i hr'
        obtain ⟨rfl, hstate⟩ := Prod.mk.inj heq
        obtain ⟨-, rfl⟩ := Prod.mk.inj hstate
        refine .inr ⟨⟨_, rfl⟩, ⟨.read :: uses', rfl⟩, ?_, hexec, r', t, uses', hload, hr'⟩
        rintro (hfails | hfails)
        · rw [hanswer] at hfails
          cases hfails
        · rw [hanswer] at hfails
          exact hr (Option.some.inj hfails)
      · rename_i hr'
        obtain ⟨rfl, hstate⟩ := Prod.mk.inj heq
        obtain ⟨-, rfl⟩ := Prod.mk.inj hstate
        refine .inl ⟨rfl, fun u hu => ?_, ?_⟩
        · have hreads := loadLoop_reads hload
          rw [List.mem_append, List.mem_cons, List.mem_singleton] at hu
          rcases hu with (rfl | hu) | rfl
          · rfl
          · exact hreads u hu
          · rfl
        · rintro ⟨-, -, r'', t', uses'', hload', hne⟩
          rw [hload] at hload'
          obtain ⟨rfl, -⟩ := Prod.mk.inj (Option.some.inj hload')
          exact hr' hne
    · rename_i hexec
      obtain ⟨rfl, hstate⟩ := Prod.mk.inj (Option.some.inj h)
      obtain ⟨-, rfl⟩ := Prod.mk.inj hstate
      exact .inl ⟨rfl, by simp, fun hloads => hexec hloads.2.1⟩

end Exec

/-- The block of the path is freed once and not read behind that exactly when the program is not
loaded. -/
theorem path_freed_once_iff {σ : Type*} {w : UserWindows σ} {io : FileIo}
    {stack : ℕ → Lib.Bytes} {onStack : Lib.Bytes} {s s' : σ} {e : ExecEnd} {uses : List PathUse}
    (h : binfmtExec w io stack onStack s = some (e, s', uses)) :
    FreedOnceAtEnd uses ↔ ¬ LoadsImage w io stack onStack s := by
  unfold binfmtExec at h
  obtain ⟨⟨e', t, uses'⟩, helf, heq⟩ := Option.map_eq_some_iff.1 h
  rcases elfExec_cases helf with ⟨rfl, hreads, hloads⟩ | ⟨⟨entry, rfl⟩, ⟨reads, rfl⟩, hloads⟩
  · obtain ⟨-, hstate⟩ := Prod.mk.inj heq
    obtain ⟨-, rfl⟩ := Prod.mk.inj hstate
    have hall : ∀ u ∈ PathUse.read :: uses' ++ [.read], u = .read := by
      intro u hu
      rw [List.mem_append, List.mem_cons, List.mem_singleton] at hu
      rcases hu with (rfl | hu) | rfl
      · rfl
      · exact hreads u hu
      · rfl
    have hfreed := freedOnceAtEnd_append hall
    rw [List.append_assoc] at hfreed
    exact ⟨fun _ => hloads, fun _ => hfreed⟩
  · obtain ⟨-, hstate⟩ := Prod.mk.inj heq
    obtain ⟨-, rfl⟩ := Prod.mk.inj hstate
    exact ⟨fun hfreed => absurd hfreed (not_freedOnceAtEnd (.read :: reads)),
      fun hnot => absurd hloads hnot⟩

/-- A path of which no file is found. -/
theorem path_freed_once_no_file :
    FreedOnceAtEnd [.read, .read, .read, .free] := by
  have hexec : binfmtExec grantingWindows ⟨fun _ _ => some (-1), fun buf _ _ => buf⟩
      (fun _ _ => 0) (fun _ => 0) () = some (.returned, (), [.read, .read, .read, .free]) := rfl
  exact (path_freed_once_iff hexec).2 fun hloads => hloads.1 (.inr rfl)

/-- The header of an executable without segments. -/
def emptyImage : Lib.Bytes := fun k =>
  if k = 0 then 0x7f else if k = 1 then 0x45 else if k = 2 then 0x4c else if k = 3 then 0x46
  else if k = 4 then 0x1 else if k = 16 then 0x2 else 0

/-- It is loaded, and the path is read behind its `kfree`. -/
theorem path_read_after_free :
    ∃ e s' uses, binfmtExec grantingWindows ⟨fun count _ => some count, fun _ _ _ => emptyImage⟩
      (fun _ _ => 0) (fun _ => 0) () = some (e, s', uses) ∧
        uses = [.read, .read, .free, .read] ∧ ¬ FreedOnceAtEnd uses := by
  refine ⟨.userMode 0, (), [.read, .read, .free, .read], by with_unfolding_all decide, rfl, ?_⟩
  exact not_freedOnceAtEnd [.read, .read]

end BitchKernel
