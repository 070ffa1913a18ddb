import BitchKernel.Binfmt.PathLife
import BitchKernel.Printk.Text
import BitchKernel.Syscall.Exec

/-!
# The messages of a program start

`debug` and `printk` of the build with `DEBUG`, and the messages that `binfmt_exec`, `elf_exec` and
`load_program` print with them. `vsprintf` has no limit, so whether a message fits the buffer of
`printk` is a matter of the path, which is as long as the user made it.

`mem` holds the bytes while the block of the path is live, `freed` those behind its `kfree`.
-/

namespace BitchKernel

open Lib

/-! ## printk -/

/-- A call of `printk`, and the bytes that it finds. -/
structure Message where
  mem : Bytes
  fmt : List (BitVec 8)
  args : List (BitVec 32)

/-- `debug`, in the line `line` of `file`. -/
def debug (mem : Bytes) (file : String) (line : ℕ) (format : String) (args : List (BitVec 32)) : Message where
  mem := mem
  fmt := text ("[" ++ file ++ ":%d] " ++ format ++ "\n")
  args := BitVec.ofNat 32 line :: args

/-- The size of `buf`. -/
abbrev sizeofBuf : ℕ := 1024

/-- The places of `buf` in which `vsprintf` and `printk` store: the characters and the NUL. -/
def bufStores (out : List (BitVec 8)) : List ℕ := List.range (out.length + 1)

namespace Message

/-- What `vsprintf` produces for the message. -/
def Prints (m : Message) (out : List (BitVec 8)) : Prop :=
  ∃ n, ∀ fuel, n ≤ fuel → (vsprintf m.mem fuel m.fmt m.args).map Round.out = .ok out

/-- The message comes to an end with at most 1023 characters, and is stored inside of `buf`. -/
def Fits (m : Message) : Prop :=
  ∃ out, m.Prints out ∧ out.length ≤ 1023 ∧ ∀ i ∈ bufStores out, i < sizeofBuf

theorem Prints.unique {m : Message} {out out' : List (BitVec 8)} (h : m.Prints out) (h' : m.Prints out') :
    out = out' := by
  obtain ⟨n, hrun⟩ := h
  obtain ⟨n', hrun'⟩ := h'
  have hsame := (hrun (n + n') (by omega)).symm.trans (hrun' (n + n') (by omega))
  rwa [Except.ok.injEq] at hsame

theorem Prints.fits_iff {m : Message} {out : List (BitVec 8)} (h : m.Prints out) :
    m.Fits ↔ out.length ≤ 1023 := by
  constructor
  · rintro ⟨out', hout, hle, -⟩
    rwa [h.unique hout]
  · refine fun hle => ⟨out, h, hle, fun i hi => ?_⟩
    have hlt := List.mem_range.1 hi
    lia

end Message

theorem debug_fits_iff {mem : Bytes} {file format : String} {args rest : List (BitVec 32)}
    {out : List (BitVec 8)} (hfile : IsLiteral (text file)) (hformat : Prints mem (text format) args out rest)
    (line : ℕ) : (debug mem file line format args).Fits ↔
      5 + (text file).length + decimalLength (BitVec.ofNat 32 line) + out.length ≤ 1023 := by
  have hfmt : text ("[" ++ file ++ ":%d] " ++ format ++ "\n") =
      text "[" ++ (text file ++ (text ":" ++ (text "%d" ++ (text "] " ++ (text format ++ text "\n"))))) := by
    have hsplit : text ":%d] " = text ":" ++ (text "%d" ++ text "] ") := by decide
    rw [text_append, text_append, text_append, text_append, hsplit]
    simp only [List.append_assoc]
  have hprints := (Prints.literal (by decide : IsLiteral (text "[")) mem
    (BitVec.ofNat 32 line :: args)).append ((Prints.literal hfile mem _).append
      ((Prints.literal (by decide : IsLiteral (text ":")) mem _).append
        ((Prints.decimal mem (BitVec.ofNat 32 line) args).append
          ((Prints.literal (by decide : IsLiteral (text "] ")) mem _).append
            (hformat.append (Prints.literal (by decide : IsLiteral (text "\n")) mem rest))))))
  rw [← hfmt] at hprints
  obtain ⟨n, hrun⟩ := hprints.run
  have hmessage : (debug mem file line format args).Prints _ :=
    ⟨n, fun fuel hfuel => congrArg (Except.map Round.out) (hrun fuel hfuel)⟩
  rw [hmessage.fits_iff]
  have hopen : (text "[").length = 1 := by decide
  have hcolon : (text ":").length = 1 := by decide
  have hclose : (text "] ").length = 2 := by decide
  have hbreak : (text "\n").length = 1 := by decide
  dsimp only
  rw [List.length_append, List.length_append, List.length_append, List.length_append, List.length_append,
    List.length_append, decimal_length, hopen, hcolon, hclose, hbreak]
  omega

/-! ## The messages of a run -/

section Messages

variable {σ : Type*} (w : UserWindows σ) (io : FileIo) (stack : ℕ → Bytes)

/-- The headers of the segments that the loop of `load_program` loads, with `rem` rounds left. -/
def loadedSegments (offect size : ℕ) : (rem n : ℕ) → σ → List ProgramHeader
  | 0, _, _ => []
  | rem + 1, n, s =>
      match loadRound w io stack offect size n s with
      | some (true, s, _) =>
          (if (pheaderAt io stack offect size n).pType = ptLoad then [pheaderAt io stack offect size n]
            else []) ++ loadedSegments offect size rem (n + 1) s
      | _ => []

def segmentsOf (onStack : Bytes) (s : σ) : List ProgramHeader :=
  loadedSegments w io stack (headerRead io onStack).ePhoff (headerRead io onStack).ePhentsize
    (headerRead io onStack).ePhnum 0 s

def segmentMessage (mem : Bytes) (path : BitVec 32) (pheader : ProgramHeader) : Message :=
  debug mem "./kernel/binfmt/elf.c" 108 "ELF(%s): Load Segment, VirtAddr 0x%08X, MemSize 0x%X"
    [path, BitVec.ofNat 32 pheader.pVaddr, BitVec.ofNat 32 pheader.pMemsz]

def entryMessage (freed : Bytes) (path : BitVec 32) (header : ElfHeader) : Message :=
  debug freed "./kernel/binfmt/elf.c" 129 "ELF(%s): Entry point Address 0x%08X"
    [path, BitVec.ofNat 32 header.eEntry]

def failMessage (mem : Bytes) (path : BitVec 32) : Message :=
  debug mem "./kernel/binfmt/elf.c" 133 "ELF(%s): Load Fail" [path]

def formatMessage (mem : Bytes) (pid path : BitVec 32) : Message :=
  debug mem "./kernel/binfmt/binfmt.c" 11 "Process %d: Binary Format (%s)" [pid, path]

def errorMessage (mem : Bytes) (pid path : BitVec 32) : Message :=
  debug mem "./kernel/binfmt/binfmt.c" 17 "Process %d: Format Error (%s)" [pid, path]

/-- The messages of `elf_exec`. -/
def elfMessages (mem freed : Bytes) (path : BitVec 32) (onStack : Bytes) (s : σ) : List Message :=
  match io.answer sizeofElfHeader 0 with
  | none => []
  | some r =>
      if r = -1 then []
      else
        let header := headerRead io onStack
        if header.IsExec then
          (segmentsOf w io stack onStack s).map (segmentMessage mem path) ++
            match loadProgram w io stack header.ePhoff header.ePhentsize header.ePhnum s with
            | none => []
            | some (r, _, _) => if r ≠ -1 then [entryMessage freed path header] else [failMessage mem path]
        else []

/-- The messages of `binfmt_exec` in the process `pid`. -/
def binfmtMessages (mem freed : Bytes) (pid path : BitVec 32) (onStack : Bytes) (s : σ) : List Message :=
  formatMessage mem pid path :: elfMessages w io stack mem freed path onStack s ++
    match elfExec w io stack onStack s with
    | some (.returned, _, _) => [errorMessage mem pid path]
    | _ => []

end Messages

section Lengths

variable {mem : Bytes} {pid path : BitVec 32} {n : ℕ}

theorem elf_literal : IsLiteral (text "./kernel/binfmt/elf.c") := by decide

theorem binfmt_literal : IsLiteral (text "./kernel/binfmt/binfmt.c") := by decide

theorem process_prints (pid : BitVec 32) (hpath : EndsAt mem path.toNat n) (hn : n < 2 ^ 32) {kind : String}
    (hkind : IsLiteral (text kind)) : Prints mem
      (text "Process " ++ (text "%d" ++ (text kind ++ (text "%s" ++ text ")")))) [pid, path]
      (text "Process " ++ (numberOut pid 10 (-1) (-1) Flag.sign ++ (text kind ++
        (stringText mem path.toNat n 0 (-1) (-1) ++ text ")")))) [] :=
  (Prints.literal (by decide) mem _).append ((Prints.decimal mem pid _).append
    ((Prints.literal hkind mem _).append ((Prints.string hpath hn _).append
      (Prints.literal (by decide) mem _))))

theorem formatMessage_fits_iff (hpath : EndsAt mem path.toNat n) (hn : n < 2 ^ 32) :
    (formatMessage mem pid path).Fits ↔ 57 + decimalLength pid + stringLength n ≤ 1023 := by
  have hsplit : text "Process %d: Binary Format (%s)" =
      text "Process " ++ (text "%d" ++ (text ": Binary Format (" ++ (text "%s" ++ text ")"))) := by
    rw [← text_append, ← text_append, ← text_append, ← text_append]
    rfl
  have hprints := process_prints pid hpath hn (by decide : IsLiteral (text ": Binary Format ("))
  rw [← hsplit] at hprints
  have hline : decimalLength (BitVec.ofNat 32 11) = 2 := by decide
  unfold formatMessage
  rw [debug_fits_iff binfmt_literal hprints, hline, List.length_append, List.length_append,
    List.length_append, List.length_append, decimal_length, stringText_length mem _ hn]
  have hfile : (text "./kernel/binfmt/binfmt.c").length = 24 := by decide
  have hopen : (text "Process ").length = 8 := by decide
  have hkind : (text ": Binary Format (").length = 17 := by decide
  have hclose : (text ")").length = 1 := by decide
  omega

theorem errorMessage_fits_iff (hpath : EndsAt mem path.toNat n) (hn : n < 2 ^ 32) :
    (errorMessage mem pid path).Fits ↔ 56 + decimalLength pid + stringLength n ≤ 1023 := by
  have hsplit : text "Process %d: Format Error (%s)" =
      text "Process " ++ (text "%d" ++ (text ": Format Error (" ++ (text "%s" ++ text ")"))) := by
    rw [← text_append, ← text_append, ← text_append, ← text_append]
    rfl
  have hprints := process_prints pid hpath hn (by decide : IsLiteral (text ": Format Error ("))
  rw [← hsplit] at hprints
  have hline : decimalLength (BitVec.ofNat 32 17) = 2 := by decide
  unfold errorMessage
  rw [debug_fits_iff binfmt_literal hprints, hline, List.length_append, List.length_append,
    List.length_append, List.length_append, decimal_length, stringText_length mem _ hn]
  have hfile : (text "./kernel/binfmt/binfmt.c").length = 24 := by decide
  have hopen : (text "Process ").length = 8 := by decide
  have hkind : (text ": Format Error (").length = 16 := by decide
  have hclose : (text ")").length = 1 := by decide
  omega

theorem elf_prints (hpath : EndsAt mem path.toNat n) (hn : n < 2 ^ 32) {f out : List (BitVec 8)}
    {args rest : List (BitVec 32)} (hbehind : Prints mem f args out rest) :
    Prints mem (text "ELF(" ++ (text "%s" ++ f)) (path :: args)
      (text "ELF(" ++ (stringText mem path.toNat n 0 (-1) (-1) ++ out)) rest :=
  (Prints.literal (by decide) mem _).append ((Prints.string hpath hn _).append hbehind)

theorem segmentMessage_fits_iff (hpath : EndsAt mem path.toNat n) (hn : n < 2 ^ 32) (pheader : ProgramHeader) :
    (segmentMessage mem path pheader).Fits ↔
      81 + hexLength (BitVec.ofNat 32 pheader.pMemsz) + stringLength n ≤ 1023 := by
  have hsplit : text "ELF(%s): Load Segment, VirtAddr 0x%08X, MemSize 0x%X" =
      text "ELF(" ++ (text "%s" ++ (text "): Load Segment, VirtAddr 0x" ++ (text "%08X" ++
        (text ", MemSize 0x" ++ text "%X")))) := by
    rw [← text_append, ← text_append, ← text_append, ← text_append, ← text_append]
    rfl
  have hprints := elf_prints hpath hn
    ((Prints.literal (by decide : IsLiteral (text "): Load Segment, VirtAddr 0x")) mem _).append
      ((Prints.address mem (BitVec.ofNat 32 pheader.pVaddr) _).append
        ((Prints.literal (by decide : IsLiteral (text ", MemSize 0x")) mem _).append
          (Prints.hex mem (BitVec.ofNat 32 pheader.pMemsz) []))))
  rw [← hsplit] at hprints
  have hline : decimalLength (BitVec.ofNat 32 108) = 3 := by decide
  unfold segmentMessage
  rw [debug_fits_iff elf_literal hprints, hline, List.length_append, List.length_append,
    List.length_append, List.length_append, List.length_append, stringText_length mem _ hn,
    address_length, hex_length]
  have hfile : (text "./kernel/binfmt/elf.c").length = 21 := by decide
  have hopen : (text "ELF(").length = 4 := by decide
  have haddress : (text "): Load Segment, VirtAddr 0x").length = 28 := by decide
  have hsize : (text ", MemSize 0x").length = 12 := by decide
  omega

theorem entryMessage_fits_iff (hpath : EndsAt mem path.toNat n) (hn : n < 2 ^ 32) (header : ElfHeader) :
    (entryMessage mem path header).Fits ↔ 66 + stringLength n ≤ 1023 := by
  have hsplit : text "ELF(%s): Entry point Address 0x%08X" =
      text "ELF(" ++ (text "%s" ++ (text "): Entry point Address 0x" ++ text "%08X")) := by
    rw [← text_append, ← text_append, ← text_append]
    rfl
  have hprints := elf_prints hpath hn
    ((Prints.literal (by decide : IsLiteral (text "): Entry point Address 0x")) mem _).append
      (Prints.address mem (BitVec.ofNat 32 header.eEntry) []))
  rw [← hsplit] at hprints
  have hline : decimalLength (BitVec.ofNat 32 129) = 3 := by decide
  unfold entryMessage
  rw [debug_fits_iff elf_literal hprints, hline, List.length_append, List.length_append,
    List.length_append, stringText_length mem _ hn, address_length]
  have hfile : (text "./kernel/binfmt/elf.c").length = 21 := by decide
  have hopen : (text "ELF(").length = 4 := by decide
  have haddress : (text "): Entry point Address 0x").length = 25 := by decide
  omega

theorem failMessage_fits_iff (hpath : EndsAt mem path.toNat n) (hn : n < 2 ^ 32) :
    (failMessage mem path).Fits ↔ 45 + stringLength n ≤ 1023 := by
  have hsplit : text "ELF(%s): Load Fail" = text "ELF(" ++ (text "%s" ++ text "): Load Fail") := by
    rw [← text_append, ← text_append]
    rfl
  have hprints := elf_prints hpath hn (Prints.literal (by decide : IsLiteral (text "): Load Fail")) mem [])
  rw [← hsplit] at hprints
  have hline : decimalLength (BitVec.ofNat 32 133) = 3 := by decide
  unfold failMessage
  rw [debug_fits_iff elf_literal hprints, hline, List.length_append, List.length_append,
    stringText_length mem _ hn]
  have hfile : (text "./kernel/binfmt/elf.c").length = 21 := by decide
  have hopen : (text "ELF(").length = 4 := by decide
  have hfail : (text "): Load Fail").length = 12 := by decide
  omega

end Lengths

section Run

variable {σ : Type*} {w : UserWindows σ} {io : FileIo} {stack : ℕ → Bytes} {mem freed onStack : Bytes}
  {pid path : BitVec 32} {s : σ}

def ReadsExec (io : FileIo) (onStack : Bytes) : Prop :=
  ¬ io.Fails sizeofElfHeader 0 ∧ (headerRead io onStack).IsExec

theorem elfMessages_cases {m : Message} (hm : m ∈ elfMessages w io stack mem freed path onStack s) :
    (ReadsExec io onStack ∧ ∃ pheader ∈ segmentsOf w io stack onStack s, segmentMessage mem path pheader = m) ∨
    (LoadsImage w io stack onStack s ∧ m = entryMessage freed path (headerRead io onStack)) ∨
    m = failMessage mem path := by
  unfold elfMessages at hm
  cases hanswer : io.answer sizeofElfHeader 0 with
  | none =>
      rw [hanswer] at hm
      exact absurd hm List.not_mem_nil
  | some r =>
      rw [hanswer] at hm
      dsimp only at hm
      by_cases hr : r = -1
      · rw [if_pos hr] at hm
        exact absurd hm List.not_mem_nil
      rw [if_neg hr] at hm
      have hread : ¬ io.Fails sizeofElfHeader 0 := by
        unfold FileIo.Fails
        rw [hanswer, Option.some.injEq]
        exact not_or.2 ⟨Option.some_ne_none r, hr⟩
      by_cases hexec : (headerRead io onStack).IsExec
      · rw [if_pos hexec] at hm
        rcases List.mem_append.1 hm with hm | hm
        · exact Or.inl ⟨⟨hread, hexec⟩, List.mem_map.1 hm⟩
        · cases hload : loadProgram w io stack (headerRead io onStack).ePhoff
            (headerRead io onStack).ePhentsize (headerRead io onStack).ePhnum s with
          | none =>
              rw [hload] at hm
              exact absurd hm List.not_mem_nil
          | some result =>
              obtain ⟨r', s', uses⟩ := result
              rw [hload] at hm
              dsimp only at hm
              by_cases hr' : r' ≠ -1
              · rw [if_pos hr', List.mem_singleton] at hm
                exact Or.inr (Or.inl ⟨⟨hread, hexec, r', s', uses, hload, hr'⟩, hm⟩)
              · rw [if_neg hr', List.mem_singleton] at hm
                exact Or.inr (Or.inr hm)
      · rw [if_neg hexec] at hm
        exact absurd hm List.not_mem_nil

theorem elfMessages_of_exec (h : ReadsExec io onStack) :
    elfMessages w io stack mem freed path onStack s =
      (segmentsOf w io stack onStack s).map (segmentMessage mem path) ++
        match loadProgram w io stack (headerRead io onStack).ePhoff (headerRead io onStack).ePhentsize
          (headerRead io onStack).ePhnum s with
        | none => []
        | some (r, _, _) =>
            if r ≠ -1 then [entryMessage freed path (headerRead io onStack)] else [failMessage mem path] := by
  obtain ⟨hread, hexec⟩ := h
  obtain ⟨hnone, hfail⟩ := not_or.1 hread
  obtain ⟨r, hanswer⟩ := Option.ne_none_iff_exists'.1 hnone
  have hr : r ≠ -1 := fun hr => hfail (hr ▸ hanswer)
  unfold elfMessages
  rw [hanswer]
  dsimp only
  rw [if_neg hr, if_pos hexec]

theorem segmentMessage_mem (h : ReadsExec io onStack) {pheader : ProgramHeader}
    (hsegment : pheader ∈ segmentsOf w io stack onStack s) :
    segmentMessage mem path pheader ∈ elfMessages w io stack mem freed path onStack s := by
  rw [elfMessages_of_exec h]
  exact List.mem_append_left _ (List.mem_map_of_mem hsegment)

theorem entryMessage_mem (h : LoadsImage w io stack onStack s) :
    entryMessage freed path (headerRead io onStack) ∈ elfMessages w io stack mem freed path onStack s := by
  obtain ⟨hread, hexec, r, s', uses, hload, hr⟩ := h
  rw [elfMessages_of_exec ⟨hread, hexec⟩, hload]
  dsimp only
  rw [if_pos hr]
  exact List.mem_append_right _ (List.mem_singleton_self _)

theorem mem_binfmtMessages_of_elf {m : Message} (hm : m ∈ elfMessages w io stack mem freed path onStack s) :
    m ∈ binfmtMessages w io stack mem freed pid path onStack s :=
  List.mem_append_left _ (List.mem_cons_of_mem _ hm)

theorem binfmtMessages_cases {m : Message} (hm : m ∈ binfmtMessages w io stack mem freed pid path onStack s) :
    m = formatMessage mem pid path ∨ m ∈ elfMessages w io stack mem freed path onStack s ∨
      m = errorMessage mem pid path := by
  unfold binfmtMessages at hm
  rcases List.mem_append.1 hm with hm | hm
  · rcases List.mem_cons.1 hm with rfl | hm
    · exact Or.inl rfl
    · exact Or.inr (Or.inl hm)
  · split at hm
    · exact Or.inr (Or.inr (List.mem_singleton.1 hm))
    · exact absurd hm List.not_mem_nil

/-- The path that `sys_exec` hands to the new process is a string at the user's path; in whatever
block it lies, there is a string of its length. -/
theorem sysExec_path {s s' : ExecState} {user : Bytes} {fuel attr len pid : ℕ} {copy : List (BitVec 8)}
    (hcall : (s.sysExec user fuel attr len).1 = some (pid, some copy, s'))
    (hblock : ∀ i < copy.length, mem (add32 path.toNat i) = copy.getD i 0) :
    ∃ p n, EndsAt user p n ∧ copy.length = n + 1 ∧ EndsAt mem path.toNat n := by
  unfold ExecState.sysExec at hcall
  split at hcall
  · cases hcall
  · rename_i p kernel hwindow
    dsimp only at hcall
    by_cases hp : p = 0
    · rw [if_pos hp] at hcall
      cases hcall
    rw [if_neg hp] at hcall
    obtain ⟨⟨pid', copy', s₁⟩, hexec, heq⟩ := Option.map_eq_some_iff.1 hcall
    dsimp only at heq
    obtain ⟨-, heq⟩ := Prod.mk.inj heq
    obtain ⟨rfl, -⟩ := Prod.mk.inj heq
    have hp32 := Kernel.ummMmapKmm_lt hwindow
    suffices hcopied : (strcpy user fuel p).1 = some copy by
      obtain ⟨n, hend, rfl⟩ := endsAt_of_strcpy hp32 hcopied
      have hlength : ((tested p n).map user ++ [0]).length = n + 1 := by
        rw [List.length_append, List.length_map, tested, List.length_map, List.length_range]
        rfl
      exact ⟨p, n, hend, hlength, hend.of_copy fun i hi => hblock i (hlength ▸ hi)⟩
    by_cases hpde : kernel.ummAllocPde.1 = 0
    · rw [ExecState.execPath_of_no_pde hpde] at hexec
      cases hexec
    · rw [ExecState.execPath_of_pde hpde] at hexec
      unfold ExecState.execWith at hexec
      split at hexec
      · cases hexec
      · split at hexec
        · cases hexec
        · obtain ⟨copy', hcopied, hcreate⟩ := Option.bind_eq_some_iff.1 hexec
          obtain ⟨r, -, hr⟩ := Option.map_eq_some_iff.1 hcreate
          obtain ⟨-, hr⟩ := Prod.mk.inj hr
          obtain ⟨hsame, -⟩ := Prod.mk.inj hr
          rw [hcopied, hsame]

/-- **When the messages of a program start fit.** For every path, process, file and state, with the
string of `n` bytes in the block of the path and one of `n'` bytes there behind its `kfree`: every
message of `binfmt_exec`, `elf_exec` and `load_program` has at most 1023 characters, and is stored
inside of `buf`, exactly when the path is short enough for the first message, for that of every
segment that is loaded, and, if the program is loaded, for the one behind the `kfree`. -/
theorem messages_fit_iff {n n' : ℕ} (hpath : EndsAt mem path.toNat n) (hfreed : EndsAt freed path.toNat n') :
    (∀ m ∈ binfmtMessages w io stack mem freed pid path onStack s, m.Fits) ↔
      57 + decimalLength pid + stringLength n ≤ 1023 ∧
      (ReadsExec io onStack → ∀ pheader ∈ segmentsOf w io stack onStack s,
        81 + hexLength (BitVec.ofNat 32 pheader.pMemsz) + stringLength n ≤ 1023) ∧
      (LoadsImage w io stack onStack s → 66 + stringLength n' ≤ 1023) := by
  have hn := hpath.lt
  have hn' := hfreed.lt
  constructor
  · intro hfit
    refine ⟨?_, fun hexec pheader hsegment => ?_, fun hloads => ?_⟩
    · exact (formatMessage_fits_iff hpath hn).1
        (hfit _ (List.mem_append_left _ List.mem_cons_self))
    · exact (segmentMessage_fits_iff hpath hn pheader).1
        (hfit _ (mem_binfmtMessages_of_elf (segmentMessage_mem hexec hsegment)))
    · exact (entryMessage_fits_iff hfreed hn' (headerRead io onStack)).1
        (hfit _ (mem_binfmtMessages_of_elf (entryMessage_mem hloads)))
  · rintro ⟨hformat, hsegments, hentry⟩ m hm
    have hpid : 1 ≤ decimalLength pid := Nat.le_add_left_of_le (Nat.le_max_left 1 _)
    rcases binfmtMessages_cases hm with rfl | hm | rfl
    · exact (formatMessage_fits_iff hpath hn).2 hformat
    · rcases elfMessages_cases hm with ⟨hexec, pheader, hsegment, rfl⟩ | ⟨hloads, rfl⟩ | rfl
      · exact (segmentMessage_fits_iff hpath hn pheader).2 (hsegments hexec pheader hsegment)
      · exact (entryMessage_fits_iff hfreed hn' _).2 (hentry hloads)
      · exact (failMessage_fits_iff hpath hn).2 (by omega)
    · exact (errorMessage_fits_iff hpath hn).2 (by omega)

/-- An executable with two segments, at `0x1000` and at `0x2000`. -/
def twoSegments : Bytes := fun k =>
  if k = 28 then 52 else if k = 42 then 32 else if k = 44 then 2
  else if k = 52 then 1 else if k = 61 then 0x10 else if k = 68 then 4 else if k = 72 then 8
  else if k = 84 then 1 else if k = 93 then 0x20 else if k = 100 then 4 else if k = 104 then 8
  else emptyImage k

/-- It is the file of the path `"init"`, and is loaded. -/
theorem messages_fit_iff_init :
    let mem : Bytes := fun a => (text "init").getD (a - 0x100) 0
    let io := wholeFile twoSegments
    EndsAt mem (0x100 : BitVec 32).toNat 4 ∧ LoadsImage grantingWindows io (fun _ _ => 0) (fun _ => 0) () ∧
      (segmentsOf grantingWindows io (fun _ _ => 0) (fun _ => 0) ()).map (fun p => (p.pVaddr, p.pMemsz)) =
        [(0x1000, 8), (0x2000, 8)] ∧
      ∀ m ∈ binfmtMessages grantingWindows io (fun _ _ => 0) mem mem 1 0x100 (fun _ => 0) (), m.Fits := by
  intro mem io
  have hpath : EndsAt mem (0x100 : BitVec 32).toNat 4 :=
    ⟨by with_unfolding_all decide, by with_unfolding_all decide⟩
  have hload : loadProgram grantingWindows io (fun _ _ => 0) 52 32 2 () =
      some (2, (), [.read, .read, .read, .read, .read, .read]) := by with_unfolding_all decide
  have hread : ¬ io.Fails sizeofElfHeader 0 := by
    rintro (hnone | hfails)
    · cases hnone
    · exact absurd (Option.some.inj hfails) (by decide)
  refine ⟨hpath, ⟨hread, by with_unfolding_all decide, _, _, _, hload, by decide⟩,
    by with_unfolding_all decide,
    (messages_fit_iff hpath hpath).2 ⟨by with_unfolding_all decide, fun _ pheader _ => ?_,
      fun _ => by with_unfolding_all decide⟩⟩
  have hhex := hexLength_le (BitVec.ofNat 32 pheader.pMemsz)
  have hstring : stringLength 4 = 4 := by with_unfolding_all decide
  omega

/-- A path of 1000 bytes: the first message has more than 1023 characters. -/
theorem message_past_buffer :
    ¬ ∀ (w : UserWindows Unit) (io : FileIo) (stack : ℕ → Bytes) (mem freed onStack : Bytes)
      (pid path : BitVec 32) (n n' : ℕ), EndsAt mem path.toNat n → EndsAt freed path.toNat n' →
        ∀ m ∈ binfmtMessages w io stack mem freed pid path onStack (), m.Fits := by
  intro hall
  have hpath : EndsAt (fun a => if a < 1256 then chr 'a' else 0) (256 : BitVec 32).toNat 1000 := by
    have haddr : ∀ i ≤ 1000, add32 (256 : BitVec 32).toNat i = 256 + i := fun i hi =>
      add32_of_lt (by
        have hpath : (256 : BitVec 32).toNat = 256 := by decide
        omega)
    constructor
    · rw [haddr 1000 (Nat.le_refl _)]
      exact if_neg (by decide)
    · intro i hi
      rw [haddr i (Nat.le_of_lt hi)]
      dsimp only
      rw [if_pos (by omega)]
      decide
  have hfits := hall grantingWindows ⟨fun _ _ => some (-1), fun buf _ _ => buf⟩ (fun _ _ => 0) _ _
    (fun _ => 0) 1 256 1000 1000 hpath hpath (formatMessage _ 1 256)
    (List.mem_append_left _ List.mem_cons_self)
  rw [formatMessage_fits_iff hpath (by decide)] at hfits
  revert hfits
  decide

end Run

end BitchKernel
