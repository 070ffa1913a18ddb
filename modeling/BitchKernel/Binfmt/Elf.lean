import BitchKernel.Fs.Fat
import BitchKernel.Mm.Umm

/-!
# Loading a program

`load_program` and `elf_exec` of `kernel/binfmt/elf.c` and `binfmt_exec` of
`kernel/binfmt/binfmt.c`, in the build with `DEBUG`. The file is what `file_read` answers for its
path, and the loader reaches the pages of the process through windows of the kernel. The local
variables that `file_read` fills hold what was on the stack before.

As a ghost, a run lists the uses of the block that holds the path: it is read by each `file_read`
and by each message, and freed by `kfree`.
-/

namespace BitchKernel

open Lib

/-- What `file_read` does for one path: its answer, `none` where it does not come back, and the
buffer behind it. -/
structure FileIo where
  answer : (count offect : ℕ) → Option ℤ
  fill : Bytes → (count offect : ℕ) → Bytes

/-- The windows of the kernel on the pages of the process, and the bytes behind an address. -/
structure UserWindows (σ : Type*) where
  ummMmapKmm : σ → (attr len : ℕ) → Option (ℕ × σ)
  ummUmmapKmm : σ → (attr len : ℕ) → σ
  load : σ → (attr : ℕ) → Bytes
  store : σ → (attr count : ℕ) → Bytes → σ

/-- A use of the block that holds the path. -/
inductive PathUse
  | read
  | free
deriving DecidableEq

abbrev sizeofElfHeader : ℕ := 52

/-- The fields of `_elf32_header_t` that are read. -/
structure ElfHeader where
  eIdent : ℕ → ℕ
  eType : ℕ
  eEntry : ℕ
  ePhoff : ℕ
  ePhentsize : ℕ
  ePhnum : ℕ

def elfHeaderOf (header : Bytes) : ElfHeader where
  eIdent := fun i => header.le i 1
  eType := header.le 16 2
  eEntry := header.le 24 4
  ePhoff := header.le 28 4
  ePhentsize := header.le 42 2
  ePhnum := header.le 44 2

/-- The test of `elf_exec`. -/
def ElfHeader.IsExec (header : ElfHeader) : Prop :=
  header.eIdent 0 = 0x7f ∧ header.eIdent 1 = 0x45 ∧ header.eIdent 2 = 0x4c ∧
    header.eIdent 3 = 0x46 ∧ header.eIdent 4 = 0x1 ∧ header.eType = 0x2

instance (header : ElfHeader) : Decidable header.IsExec := by
  unfold ElfHeader.IsExec
  infer_instance

abbrev sizeofProgramHeader : ℕ := 32

abbrev ptLoad : ℕ := 0x00000001

/-- The fields of `_elf32_program_header_t` that are read. -/
structure ProgramHeader where
  pType : ℕ
  pOffset : ℕ
  pVaddr : ℕ
  pFilesz : ℕ
  pMemsz : ℕ

def programHeaderOf (pheader : Bytes) : ProgramHeader where
  pType := pheader.le 0 4
  pOffset := pheader.le 4 4
  pVaddr := pheader.le 8 4
  pFilesz := pheader.le 16 4
  pMemsz := pheader.le 20 4

/-- The variable `size` of `load_program` for a segment. -/
def ProgramHeader.size (pheader : ProgramHeader) : ℕ :=
  if pheader.pFilesz < pheader.pMemsz then pheader.pMemsz else pheader.pFilesz

section Load

variable {σ : Type*} (w : UserWindows σ) (io : FileIo) (stack : ℕ → Bytes)

/-- The body of `load_program` for a `PT_LOAD` header; the answer is whether it goes on. -/
def loadSegment (s : σ) (pheader : ProgramHeader) : Option (Bool × σ × List PathUse) :=
  (w.ummMmapKmm s pheader.pVaddr pheader.size).bind fun (p, s) =>
    if p = 0 then some (false, s, [])
    else
      (io.answer pheader.pFilesz pheader.pOffset).map fun r =>
        let s := w.store s p pheader.pFilesz
          (io.fill (w.load s p) pheader.pFilesz pheader.pOffset)
        if r = -1 then (false, w.ummUmmapKmm s p pheader.size, [.read])
        else
          let s := w.store s (add32 p pheader.pFilesz) (sub32 pheader.size pheader.pFilesz)
            fun _ => 0
          (true, w.ummUmmapKmm s p pheader.size, [.read, .read])

/-- The place in the file of the `n`-th program header. -/
def headerOffect (offect size n : ℕ) : ℕ := add32 offect (mul32 size n)

/-- The variable `pheader` behind the read of the `n`-th program header. -/
def pheaderAt (offect size n : ℕ) : ProgramHeader :=
  programHeaderOf (io.fill (stack n) sizeofProgramHeader (headerOffect offect size n))

/-- A round of the loop of `load_program`. -/
def loadRound (offect size n : ℕ) (s : σ) : Option (Bool × σ × List PathUse) :=
  (io.answer sizeofProgramHeader (headerOffect offect size n)).bind fun r =>
    if r = -1 then some (false, s, [.read])
    else
      let pheader := pheaderAt io stack offect size n
      if pheader.pType = ptLoad then
        (loadSegment w io s pheader).map fun (on, s, uses) => (on, s, .read :: uses)
      else some (true, s, [.read])

/-- The loop of `load_program`, with `rem` rounds left. -/
def loadLoop (offect size : ℕ) : (rem n : ℕ) → σ → Option (ℤ × σ × List PathUse)
  | 0, n, s => some (toSigned n, s, [])
  | rem + 1, n, s =>
      (loadRound w io stack offect size n s).bind fun (on, s, uses) =>
        if on then (loadLoop offect size rem (n + 1) s).map fun (r, s, uses') => (r, s, uses ++ uses')
        else some (-1, s, uses)

def loadProgram (offect size num : ℕ) (s : σ) : Option (ℤ × σ × List PathUse) :=
  loadLoop w io stack offect size num 0 s

/-- How a run ends: it returns, or the processor goes to user mode. -/
inductive ExecEnd
  | returned
  | userMode (entry : ℕ)
deriving DecidableEq

/-- The variable `header` of `elf_exec` behind its read; `onStack` is what it held. -/
def headerRead (onStack : Bytes) : ElfHeader := elfHeaderOf (io.fill onStack sizeofElfHeader 0)

def elfExec (onStack : Bytes) (s : σ) : Option (ExecEnd × σ × List PathUse) :=
  (io.answer sizeofElfHeader 0).bind fun r =>
    if r = -1 then some (.returned, s, [.read])
    else
      let header := headerRead io onStack
      if header.IsExec then
        (loadProgram w io stack header.ePhoff header.ePhentsize header.ePhnum s).map
          fun (r, s, uses) =>
            if r ≠ -1 then (.userMode header.eEntry, s, .read :: uses ++ [.free, .read])
            else (.returned, s, .read :: uses ++ [.read])
      else some (.returned, s, [.read])

/-- `binfmt_exec`; `a_out_exec` does nothing. -/
def binfmtExec (onStack : Bytes) (s : σ) : Option (ExecEnd × σ × List PathUse) :=
  (elfExec w io stack onStack s).map fun (e, s, uses) =>
    match e with
    | .userMode entry => (.userMode entry, s, .read :: uses)
    | .returned => (.returned, s, .read :: uses ++ [.read, .free])

variable {w io stack} {offect size n : ℕ} {s s' : σ} {r : ℤ} {uses : List PathUse}

theorem loadRound_of_segment {on : Bool}
    (hanswer : io.answer sizeofProgramHeader (headerOffect offect size n) = some r) (hr : r ≠ -1)
    (hload : (pheaderAt io stack offect size n).pType = ptLoad)
    (hsegment : loadSegment w io s (pheaderAt io stack offect size n) = some (on, s', uses)) :
    loadRound w io stack offect size n s = some (on, s', .read :: uses) := by
  unfold loadRound
  rw [hanswer, Option.bind_some, if_neg hr]
  dsimp only
  rw [if_pos hload, hsegment]
  rfl

theorem loadRound_of_ne
    (hanswer : io.answer sizeofProgramHeader (headerOffect offect size n) = some r) (hr : r ≠ -1)
    (hload : (pheaderAt io stack offect size n).pType ≠ ptLoad) :
    loadRound w io stack offect size n s = some (true, s, [.read]) := by
  unfold loadRound
  rw [hanswer, Option.bind_some, if_neg hr]
  exact if_neg hload

theorem loadLoop_round {rem : ℕ}
    (h : loadRound w io stack offect size n s = some (true, s', uses)) :
    loadLoop w io stack offect size (rem + 1) n s =
      (loadLoop w io stack offect size rem (n + 1) s').map fun (r, s, uses') => (r, s, uses ++ uses') := by
  rw [loadLoop, h, Option.bind_some]
  exact if_pos rfl

end Load

/-! ## The files of a volume and the windows of the kernel -/

/-- The reads of a file of a volume, with `fuel` for the cluster chain. -/
def Fat.fileIo (diskRead : DiskRead) (fat : Fat) (fuel : ℕ) (file : FatStdDir) : FileIo where
  answer := fun count offect =>
    (fat.readFile diskRead fuel file (fun _ => 0) count offect).map Prod.fst
  fill := fun buf count offect =>
    ((fat.readFile diskRead fuel file buf count offect).map Prod.snd).getD buf

namespace Kernel

/-- The byte that the kernel finds at `attr`. -/
def loadByte (k : Kernel) (attr : ℕ) : BitVec 8 :=
  BitVec.ofNat 8 (k.page (k.getGloblPageAttr (attr / pageSize) / pageSize) (attr % pageSize / 4) /
    256 ^ (attr % 4))

/-- A word with one of its four bytes replaced. -/
def setWordByte (word i : ℕ) (b : BitVec 8) : ℕ :=
  word - word / 256 ^ i % 256 * 256 ^ i + b.toNat * 256 ^ i

def storeByte (k : Kernel) (attr : ℕ) (b : BitVec 8) : Kernel :=
  let frame := k.getGloblPageAttr (attr / pageSize)
  k.storeWord frame (attr % pageSize / 4)
    (setWordByte (k.page (frame / pageSize) (attr % pageSize / 4)) (attr % 4) b)

/-- The stores of the first `count` bytes of a buffer from `attr` on. -/
def storeBytes (k : Kernel) (attr : ℕ) (bytes : Bytes) : (count : ℕ) → Kernel
  | 0 => k
  | count + 1 => (storeBytes k attr bytes count).storeByte (add32 attr count) (bytes count)

/-- The windows on the pages of the directory `pde`, with `fuel` for their scans. -/
def userWindows (fuel pde : ℕ) : UserWindows Kernel where
  ummMmapKmm := fun k attr len => k.ummMmapKmm fuel attr len pde
  ummUmmapKmm := fun k attr len => k.ummUmmapKmm attr len
  load := fun k attr i => k.loadByte (add32 attr i)
  store := fun k attr count bytes => k.storeBytes attr bytes count

end Kernel

end BitchKernel
