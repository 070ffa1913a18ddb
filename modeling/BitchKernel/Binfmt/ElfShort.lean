import BitchKernel.Binfmt.Elf
import BitchKernel.Fs.FatRead

/-!
# Reads that are cut off

`load_program` takes every answer of `file_read` but `-1` for a read of all it asked for. A file
that ends in its program headers, or in front of the end of a segment, answers a smaller count,
and the load goes on with what the stack and the window held before. So what decides is whether
the file has every byte that the headers ask for, or the load fails anyway.
-/

namespace BitchKernel

open Lib

section Load

variable (io : FileIo) (stack : ℕ → Bytes) (offect size : ℕ)

/-- A read answers `-1` or does not come back. -/
def FileIo.Fails (count offect : ℕ) : Prop :=
  io.answer count offect = none ∨ io.answer count offect = some (-1)

/-- The `n`-th program header stops every load: a read fails, or its segment does not end below
`PAGE_OFFSET`. -/
def Refused (n : ℕ) : Prop :=
  io.Fails sizeofProgramHeader (headerOffect offect size n) ∨
    (pheaderAt io stack offect size n).pType = ptLoad ∧
      (pageOffset < add32 (pheaderAt io stack offect size n).pVaddr
          (pheaderAt io stack offect size n).size ∨
        io.Fails (pheaderAt io stack offect size n).pFilesz
          (pheaderAt io stack offect size n).pOffset)

variable {σ : Type*} (w : UserWindows σ)

/-- A range that goes beyond `PAGE_OFFSET` gets no window. -/
def UserWindows.Bounded : Prop :=
  ∀ s attr len p s', pageOffset < add32 attr len → w.ummMmapKmm s attr len = some (p, s') → p = 0

end Load

variable {io : FileIo} {stack : ℕ → Bytes} {offect size n : ℕ} {σ : Type*} {w : UserWindows σ}

theorem Refused.loadRound (h : Refused io stack offect size n) (hw : w.Bounded) (s : σ)
    {on : Bool} {s' : σ} {uses : List PathUse}
    (hround : loadRound w io stack offect size n s = some (on, s', uses)) : on = false := by
  unfold BitchKernel.loadRound at hround
  obtain ⟨r, hanswer, hround⟩ := Option.bind_eq_some_iff.1 hround
  by_cases hr : r = -1
  · rw [if_pos hr] at hround
    obtain ⟨rfl, -⟩ := Prod.mk.inj (Option.some.inj hround)
    rfl
  · rw [if_neg hr] at hround
    dsimp only at hround
    rcases h with hfails | ⟨hload, hstops⟩
    · unfold FileIo.Fails at hfails
      rw [hanswer] at hfails
      rcases hfails with hfails | hfails
      · cases hfails
      · exact absurd (Option.some.inj hfails) hr
    · rw [if_pos hload] at hround
      obtain ⟨⟨on', t, uses'⟩, hsegment, hround⟩ := Option.map_eq_some_iff.1 hround
      obtain ⟨rfl, -⟩ := Prod.mk.inj hround
      unfold loadSegment at hsegment
      obtain ⟨⟨p, t'⟩, hwindow, hsegment⟩ := Option.bind_eq_some_iff.1 hsegment
      dsimp only at hsegment
      by_cases hp : p = 0
      · rw [if_pos hp] at hsegment
        obtain ⟨rfl, -⟩ := Prod.mk.inj (Option.some.inj hsegment)
        rfl
      · rw [if_neg hp] at hsegment
        rcases hstops with hrange | hfails
        · exact absurd (hw _ _ _ _ _ hrange hwindow) hp
        · obtain ⟨r', hanswer', hsegment⟩ := Option.map_eq_some_iff.1 hsegment
          unfold FileIo.Fails at hfails
          rw [hanswer'] at hfails
          rcases hfails with hfails | hfails
          · cases hfails
          · rw [if_pos (Option.some.inj hfails)] at hsegment
            obtain ⟨rfl, -⟩ := Prod.mk.inj hsegment
            rfl

theorem Refused.loadLoop {m rem : ℕ} (h : Refused io stack offect size m) (hw : w.Bounded)
    (hle : n ≤ m) (hlt : m < n + rem) {s s' : σ} {r : ℤ} {uses : List PathUse}
    (hloop : loadLoop w io stack offect size rem n s = some (r, s', uses)) : r = -1 := by
  induction rem generalizing n s uses with
  | zero => omega
  | succ rem ih =>
      rw [BitchKernel.loadLoop] at hloop
      obtain ⟨⟨on, t, uses'⟩, hround, hloop⟩ := Option.bind_eq_some_iff.1 hloop
      dsimp only at hloop
      cases on with
      | false =>
          obtain ⟨rfl, -⟩ := Prod.mk.inj (Option.some.inj hloop)
          rfl
      | true =>
          have hne : n ≠ m := by
            rintro rfl
            cases h.loadRound hw s hround
          obtain ⟨⟨r', t', uses''⟩, hrest, heq⟩ := Option.map_eq_some_iff.1 hloop
          obtain ⟨rfl, hstate⟩ := Prod.mk.inj heq
          obtain ⟨rfl, -⟩ := Prod.mk.inj hstate
          exact ih (n := n + 1) (by omega) (by omega) hrest

/-- Windows that are there for every range below `PAGE_OFFSET`. -/
def grantingWindows : UserWindows Unit where
  ummMmapKmm := fun _ attr len => some (if pageOffset < add32 attr len then 0 else 1, ())
  ummUmmapKmm := fun _ _ _ => ()
  load := fun _ _ _ => 0
  store := fun _ _ _ _ => ()

def wholeFile (file : Bytes) : FileIo where
  answer := fun count _ => some count
  fill := fun buf count offect i => if i < count then file (offect + i) else buf i

/-- The reads of a regular file whose chain covers its size: a read is full when it ends in the
file, and otherwise answers what is left of the file. -/
theorem Fat.fileIo_answer {fat : Fat} {file : FatStdDir} {diskRead : DiskRead}
    {disk : ℕ → BitVec 8} (hexact : ExactRead disk diskRead) (hdel : file.dosName0 ≠ flagDel)
    (harch : file.fileAttribute &&& attrArchive ≠ 0) (hcover : fat.Covers diskRead file)
    {count offect fuel : ℕ} (hcount : count < 2 ^ 32)
    (hfuel : offect / fat.clusterSize + count + 1 ≤ fuel) :
    (fat.fileIo diskRead fuel file).answer count offect =
      some (toSigned (min count (file.fileSize - offect))) := by
  unfold Fat.fileIo
  dsimp only
  by_cases hoffect : offect < file.fileSize
  · obtain ⟨buf', hread, -⟩ := Fat.readFile_cases hexact hdel harch hcover hcount hoffect hfuel
      fun _ => 0
    rw [hread]
    rfl
  · unfold Fat.readFile
    rw [if_neg (not_or.mpr ⟨hdel, harch⟩), if_pos (Nat.le_of_not_lt hoffect),
      Nat.sub_eq_zero_of_le (Nat.le_of_not_lt hoffect), Nat.min_zero]
    rfl

theorem Fat.fileIo_full_iff {fat : Fat} {file : FatStdDir} {diskRead : DiskRead}
    {disk : ℕ → BitVec 8} (hexact : ExactRead disk diskRead) (hdel : file.dosName0 ≠ flagDel)
    (harch : file.fileAttribute &&& attrArchive ≠ 0) (hcover : fat.Covers diskRead file)
    {count offect fuel : ℕ} (hcount : count < 2 ^ 32)
    (hfuel : offect / fat.clusterSize + count + 1 ≤ fuel) :
    (fat.fileIo diskRead fuel file).answer count offect = some (toSigned count) ↔
      count ≤ file.fileSize - offect := by
  rw [fileIo_answer hexact hdel harch hcover hcount hfuel, Option.some.injEq]
  unfold toSigned
  split_ifs <;> omega

/-- The windows of the kernel on a directory end below `PAGE_OFFSET`. -/
theorem Kernel.userWindows_bounded (fuel pde : ℕ) : (Kernel.userWindows fuel pde).Bounded := by
  intro k attr len p k' hrange hwindow
  unfold Kernel.userWindows Kernel.ummMmapKmm at hwindow
  dsimp only at hwindow
  rw [if_pos hrange] at hwindow
  exact (Prod.mk.inj (Option.some.inj hwindow)).1.symm

end BitchKernel
