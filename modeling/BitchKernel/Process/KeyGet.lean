import BitchKernel.Def
import BitchKernel.Lib.Machine
import Mathlib.Logic.Function.Basic

/-!
# Requests for keys

`key_get` and `sys_get` of `kernel/syscall/io.c` with `intr_lock`. A request is published in
the variables `key_lock`, `key_c` and `key_len`, which all processes share, and `key_get` runs
as an interrupt between any two statements. A pointer into a buffer is the request the buffer
belongs to and an index, and a pointer to the variable `lock` of `sys_get` is the process on
whose stack the variable is.
-/

namespace BitchKernel

open Lib

/-- The statement of `sys_get` or `intr_lock` that a process comes to next. -/
inductive GetPc
  | idle
  /-- `while (key_len > 0)` -/
  | check
  /-- `key_lock = &lock` -/
  | keyLock
  /-- `key_c = c` -/
  | keyC
  /-- `key_len = len` -/
  | keyLen
  /-- `init_intr_lock(&lock)` -/
  | initLock
  /-- `set_input_mode(2)` -/
  | inputMode
  /-- `reg_key_callback(key_get)` -/
  | keyCallback
  /-- `current_process -> lock = lock` -/
  | processLock
  /-- `if (*lock == 1)` of `intr_lock`, and the loop of a lone process in front of it -/
  | testLock
  /-- `current_process -> state = LOCK` -/
  | enterLock
  /-- `intr(TIMER_INT)`, until a switch finds the lock byte at zero -/
  | waiting
  /-- `if (key_lock == &lock)` -/
  | testKeyLock
  /-- `key_lock = NULL` -/
  | clearKeyLock
deriving DecidableEq

/-- The variables of `io.c`, the processes in `sys_get` with their lock bytes, and the requests
with their buffers, where `none` is a byte that no key was stored in. As ghosts: how many
requests there were, how many keys had come when a request was published, and the keys that
have come. -/
structure KeyRun where
  keyC : Option (ℕ × ℕ)
  keyLen : ℕ
  keyLock : Option ℕ
  registered : Bool
  lockByte : ℕ → ℕ
  pc : ℕ → GetPc
  request : ℕ → ℕ
  owner : ℕ → ℕ
  len : ℕ → ℕ
  buf : ℕ → ℕ → Option (BitVec 8)
  requests : ℕ
  start : ℕ → Option ℕ
  keys : List (BitVec 8)

inductive KeyOp
  /-- A process enters `sys_get` and maps its buffer. -/
  | call (p len : ℕ)
  /-- A process takes its next statement. -/
  | statement (p : ℕ)
  /-- The keyboard interrupt calls `key_get`. -/
  | key (key : ℕ)
  /-- `process_switch` passes a process. -/
  | pass (p : ℕ)

namespace KeyRun

def call (s : KeyRun) (p len : ℕ) : KeyRun :=
  { s with
    pc := Function.update s.pc p .check
    request := Function.update s.request p s.requests
    owner := Function.update s.owner s.requests p
    len := Function.update s.len s.requests len
    requests := s.requests + 1 }

/-- The first `if` of `key_get`. -/
def storeKey (s : KeyRun) (key : ℕ) : KeyRun :=
  match s.keyC with
  | some (r, i) =>
      if 0 < s.keyLen then
        { s with
          buf := Function.update s.buf r (Function.update (s.buf r) i (some (BitVec.ofNat 8 key)))
          keyC := some (r, i + 1)
          keyLen := sub32 s.keyLen 1 }
      else s
  | none => s

/-- The second `if` of `key_get`. -/
def unlockKey (s : KeyRun) : KeyRun :=
  match s.keyLock with
  | some p => if s.keyLen = 0 then { s with lockByte := Function.update s.lockByte p 0 } else s
  | none => s

def keyGet (s : KeyRun) (key : ℕ) : KeyRun :=
  { (s.storeKey key).unlockKey with keys := s.keys ++ [BitVec.ofNat 8 key] }

/-- The state after the process `p` has come to the statement `pc`. -/
def goto (s : KeyRun) (p : ℕ) (pc : GetPc) : KeyRun := { s with pc := Function.update s.pc p pc }

def statement (s : KeyRun) (p : ℕ) : KeyRun :=
  match s.pc p with
  | .idle => s
  | .check => if 0 < s.keyLen then s else s.goto p .keyLock
  | .keyLock => { s with keyLock := some p }.goto p .keyC
  | .keyC => { s with keyC := some (s.request p, 0) }.goto p .keyLen
  | .keyLen =>
      { s with
        keyLen := s.len (s.request p)
        start := Function.update s.start (s.request p) (some s.keys.length) }.goto p .initLock
  | .initLock => { s with lockByte := Function.update s.lockByte p 1 }.goto p .inputMode
  | .inputMode => s.goto p .keyCallback
  | .keyCallback => { s with registered := true }.goto p .processLock
  | .processLock => s.goto p .testLock
  | .testLock => if s.lockByte p = 1 then s.goto p .enterLock else s.goto p .testKeyLock
  | .enterLock => s.goto p .waiting
  | .waiting => s
  | .testKeyLock => if s.keyLock = some p then s.goto p .clearKeyLock else s.goto p .idle
  | .clearKeyLock => { s with keyLock := none }.goto p .idle

/-- `process_switch` passes a process whose state is `LOCK`: when its lock byte is zero, the
byte is set and the process runs again, which ends its `intr_lock`. -/
def pass (s : KeyRun) (p : ℕ) : KeyRun :=
  if s.pc p = .waiting ∧ s.lockByte p = 0 then
    { s with lockByte := Function.update s.lockByte p 1 }.goto p .testKeyLock
  else s

/-- The steps. `key_get` is called once it has been registered. -/
inductive Step (s : KeyRun) : KeyOp → KeyRun → Prop
  | call (p len : ℕ) (hidle : s.pc p = .idle) (hpos : 0 < len) (hlt : len < 2 ^ 32) :
      Step s (.call p len) (s.call p len)
  | statement (p : ℕ) : Step s (.statement p) (s.statement p)
  | key (key : ℕ) (hregistered : s.registered = true) : Step s (.key key) (s.keyGet key)
  | pass (p : ℕ) : Step s (.pass p) (s.pass p)

def boot (lockByte : ℕ → ℕ) : KeyRun where
  keyC := none
  keyLen := 0
  keyLock := none
  registered := false
  lockByte := lockByte
  pc := fun _ => .idle
  request := fun _ => 0
  owner := fun _ => 0
  len := fun _ => 0
  buf := fun _ _ => none
  requests := 0
  start := fun _ => none
  keys := []

end KeyRun

/-- The runs of any number of processes that enter `sys_get` again and again. -/
def keyMachine : Machine KeyRun KeyOp where
  init s := ∃ lockByte, s = KeyRun.boot lockByte
  step s op s' := s.Step op s'

end BitchKernel
