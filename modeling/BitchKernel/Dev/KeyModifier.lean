import BitchKernel.Dev.Keyboard
import Mathlib.Algebra.Group.Nat.Defs

/-!
# Modifier keys

A modifier key is held when the last of its make and break codes was a make code. The word of
flags holds it for each of the six keys and for every run of bytes, prefixes and changes of the
input mode, and an input mode hands on characters only.
-/

namespace BitchKernel

open Lib

/-- The modifier keys that the handler remembers. -/
inductive Modifier
  | shiftL
  | shiftR
  | ctrlL
  | ctrlR
  | altL
  | altR
deriving DecidableEq

namespace Modifier

def key : Modifier → ℕ
  | shiftL => keyShiftL
  | shiftR => keyShiftR
  | ctrlL => keyCtrlL
  | ctrlR => keyCtrlR
  | altL => keyAltL
  | altR => keyAltR

def flag : Modifier → BitVec 16
  | shiftL => flagShiftL
  | shiftR => flagShiftR
  | ctrlL => flagCtrlL
  | ctrlR => flagCtrlR
  | altL => flagAltL
  | altR => flagAltR

/-- The make code of the key; the break code is `0x80` above it. -/
def code : Modifier → BitVec 8
  | shiftL => 0x2a
  | shiftR => 0x36
  | ctrlL => 0x1d
  | ctrlR => 0x1d
  | altL => 0x38
  | altR => 0x38

/-- The codes of the key stand behind the prefix `E0`. -/
def extended : Modifier → Bool
  | ctrlR => true
  | altR => true
  | _ => false

end Modifier

/-! ## Histories -/

/-- An `E0` byte came since the last byte that is no prefix. -/
def Extended : List KeyEvent → Prop :=
  Since (fun _ e => ∀ c, e = .byte c → c = 0xe0 ∨ c = 0xe1) (fun _ e => e = .byte 0xe0)

namespace Modifier

def Make (m : Modifier) (before : List KeyEvent) (e : KeyEvent) : Prop :=
  e = .byte m.code ∧ (Extended before ↔ m.extended)

def Break (m : Modifier) (before : List KeyEvent) (e : KeyEvent) : Prop :=
  e = .byte (m.code + 0x80) ∧ (Extended before ↔ m.extended)

/-- The last make or break code of the key was a make code. -/
def Down (m : Modifier) : List KeyEvent → Prop :=
  Since (fun before e => ¬ m.Make before e ∧ ¬ m.Break before e) m.Make

end Modifier

/-! ## Flags of keys -/

theorem flagEmul0_isFlag : IsFlag flagEmul0 := ⟨0, by decide, by decide⟩

theorem flagEmul1_isFlag : IsFlag flagEmul1 := ⟨1, by decide, by decide⟩

namespace Modifier

theorem flag_isFlag (m : Modifier) : IsFlag m.flag := by
  cases m with
  | shiftL => exact ⟨2, by decide, by decide⟩
  | shiftR => exact ⟨3, by decide, by decide⟩
  | ctrlL => exact ⟨4, by decide, by decide⟩
  | ctrlR => exact ⟨5, by decide, by decide⟩
  | altL => exact ⟨6, by decide, by decide⟩
  | altR => exact ⟨7, by decide, by decide⟩

theorem keyFlag_key (m : Modifier) : keyFlag m.key = m.flag := by
  cases m <;> rfl

theorem flag_ne_prefix (m : Modifier) : m.flag ≠ flagEmul0 ∧ m.flag ≠ flagEmul1 := by
  cases m <;> decide

theorem eq_of_flag_eq {m m' : Modifier} (h : m.flag = m'.flag) : m = m' := by
  revert h
  cases m <;> cases m' <;> decide

end Modifier

theorem keyFlag_cases (key : ℕ) :
    (∃ m : Modifier, key = m.key ∧ keyFlag key = m.flag) ∨
      ((∀ m : Modifier, key ≠ m.key) ∧ keyFlag key = 0#16) := by
  by_cases hex : ∃ m : Modifier, key = m.key
  · obtain ⟨m, rfl⟩ := hex
    exact .inl ⟨m, rfl, m.keyFlag_key⟩
  · have hne : ∀ m : Modifier, key ≠ m.key := fun m h => hex ⟨m, h⟩
    refine .inr ⟨hne, ?_⟩
    unfold keyFlag
    rw [if_neg (show ¬ key = keyShiftL from hne .shiftL),
      if_neg (show ¬ key = keyShiftR from hne .shiftR), if_neg (show ¬ key = keyCtrlL from hne .ctrlL),
      if_neg (show ¬ key = keyCtrlR from hne .ctrlR), if_neg (show ¬ key = keyAltL from hne .altL),
      if_neg (show ¬ key = keyAltR from hne .altR)]
    rfl

section Flags

variable {x : BitVec 16} {key : ℕ}

theorem hasFlag_or_keyFlag (m : Modifier) :
    HasFlag (x ||| keyFlag key) m.flag ↔ HasFlag x m.flag ∨ key = m.key := by
  rcases keyFlag_cases key with ⟨m', rfl, hflag⟩ | ⟨hne, hflag⟩
  · rw [hflag, hasFlag_or m.flag_isFlag m'.flag_isFlag]
    refine or_congr_right ⟨fun h => ?_, fun h => ?_⟩
    · rw [Modifier.eq_of_flag_eq h]
    · rw [← m.keyFlag_key, ← h, m'.keyFlag_key]
  · rw [hflag, BitVec.or_zero]
    exact (or_iff_left (hne m)).symm

theorem hasFlag_and_keyFlag (m : Modifier) :
    HasFlag (x &&& ~~~keyFlag key) m.flag ↔ HasFlag x m.flag ∧ key ≠ m.key := by
  rcases keyFlag_cases key with ⟨m', rfl, hflag⟩ | ⟨hne, hflag⟩
  · rw [hflag, hasFlag_and_not m.flag_isFlag m'.flag_isFlag]
    refine and_congr_right fun _ => not_congr ⟨fun h => ?_, fun h => ?_⟩
    · rw [Modifier.eq_of_flag_eq h]
    · rw [← m.keyFlag_key, ← h, m'.keyFlag_key]
  · rw [hflag, BitVec.not_zero, BitVec.and_allOnes]
    exact (and_iff_left (hne m)).symm

theorem hasFlag_or_keyFlag_emul0 : HasFlag (x ||| keyFlag key) flagEmul0 ↔ HasFlag x flagEmul0 := by
  rcases keyFlag_cases key with ⟨m, rfl, hflag⟩ | ⟨-, hflag⟩
  · rw [hflag, hasFlag_or flagEmul0_isFlag m.flag_isFlag]
    exact or_iff_left fun h => m.flag_ne_prefix.1 h.symm
  · rw [hflag, BitVec.or_zero]

theorem hasFlag_and_keyFlag_emul0 :
    HasFlag (x &&& ~~~keyFlag key) flagEmul0 ↔ HasFlag x flagEmul0 := by
  rcases keyFlag_cases key with ⟨m, rfl, hflag⟩ | ⟨-, hflag⟩
  · rw [hflag, hasFlag_and_not flagEmul0_isFlag m.flag_isFlag]
    exact and_iff_left fun h => m.flag_ne_prefix.1 h.symm
  · rw [hflag, BitVec.not_zero, BitVec.and_allOnes]

end Flags

/-! ## The table -/

theorem keyboardMap_of_lt (behind : ℕ → BitVec 8) {code : ℕ} (hcode : code < 0x80) (flags : ℕ) :
    keyboardMap behind code flags = keyboardMap (fun _ => 0) code flags := by
  unfold keyboardMap
  rw [if_pos hcode, if_pos hcode]

theorem keyboardMap_eq_key (behind : ℕ → BitVec 8) {code : ℕ} (hcode : code < 0x80) (p : Prop)
    [Decidable p] (m : Modifier) :
    keyboardMap behind code (if p then 2 else 0) = m.key ↔
      code = m.code.toNat ∧ (p ↔ m.extended) := by
  have hall : ∀ c < 0x80, ∀ e : Bool, keyboardMap (fun _ => 0) c (if e then 2 else 0) = m.key ↔
      c = m.code.toNat ∧ (e ↔ m.extended) := by
    cases m <;> decide
  have hkey := hall code hcode (decide p)
  simp only [decide_eq_true_eq] at hkey
  rw [keyboardMap_of_lt behind hcode, hkey]

/-! ## One byte -/

theorem or_iff_or_not_and (a b : Prop) : a ∨ b ↔ a ∨ (¬ a ∧ b) := by
  rw [or_and_left, and_iff_right (em a)]

namespace Keyboard

variable {behind : ℕ → BitVec 8} {s : Keyboard} {code : ℕ}

def unprefixed (s : Keyboard) : BitVec 16 :=
  if HasFlag s.keyFlags flagEmul0 then s.keyFlags &&& ~~~flagEmul0 else s.keyFlags

theorem hasFlag_unprefixed (s : Keyboard) (m : Modifier) :
    HasFlag s.unprefixed m.flag ↔ HasFlag s.keyFlags m.flag := by
  unfold unprefixed
  split
  · rw [hasFlag_and_not m.flag_isFlag flagEmul0_isFlag]
    exact and_iff_left m.flag_ne_prefix.1
  · exact Iff.rfl

theorem not_hasFlag_unprefixed (s : Keyboard) : ¬ HasFlag s.unprefixed flagEmul0 := by
  unfold unprefixed
  split
  · rw [hasFlag_and_not flagEmul0_isFlag flagEmul0_isFlag]
    exact fun h => h.2 rfl
  · assumption

theorem handler_keyFlags (h0 : code ≠ codeEmul0) (h1 : code ≠ codeEmul1) :
    (s.handler behind code).1.keyFlags =
      if codeBreak < code then
        s.unprefixed &&& ~~~keyFlag (keyboardMap behind (code - codeBreak)
          (if HasFlag s.keyFlags flagEmul0 then 2 else 0))
      else
        s.unprefixed ||| keyFlag (keyboardMap behind code
          (if HasFlag s.keyFlags flagEmul0 then 2 else 0)) := by
  unfold handler unprefixed
  rw [if_neg h0, if_neg h1]
  dsimp only
  split
  · rfl
  · split <;> rfl

theorem not_hasFlag_emul0_of_code (h0 : code ≠ codeEmul0) (h1 : code ≠ codeEmul1) :
    ¬ HasFlag (s.handler behind code).1.keyFlags flagEmul0 := by
  rw [handler_keyFlags h0 h1]
  split
  · rw [hasFlag_and_keyFlag_emul0]
    exact s.not_hasFlag_unprefixed
  · rw [hasFlag_or_keyFlag_emul0]
    exact s.not_hasFlag_unprefixed

/-- A make code sets the flag of its key, a break code clears it, and nothing else changes it. -/
theorem hasFlag_handler (h0 : code ≠ codeEmul0) (h1 : code ≠ codeEmul1) (hbreak : code ≠ codeBreak)
    (hbyte : code < 2 ^ 8) (m : Modifier) :
    HasFlag (s.handler behind code).1.keyFlags m.flag ↔
      (code = m.code.toNat ∧ (HasFlag s.keyFlags flagEmul0 ↔ m.extended)) ∨
      ((¬ (code = m.code.toNat ∧ (HasFlag s.keyFlags flagEmul0 ↔ m.extended)) ∧
        ¬ (code = m.code.toNat + codeBreak ∧ (HasFlag s.keyFlags flagEmul0 ↔ m.extended))) ∧
          HasFlag s.keyFlags m.flag) := by
  have hcode : m.code.toNat < 0x80 := by cases m <;> decide
  have hcolumn : ∀ c < 0x80,
      keyboardMap behind c (if HasFlag s.keyFlags flagEmul0 then 2 else 0) = m.key ↔
        c = m.code.toNat ∧ (HasFlag s.keyFlags flagEmul0 ↔ m.extended) := fun c hc =>
    keyboardMap_eq_key behind hc _ m
  rw [handler_keyFlags h0 h1]
  by_cases hhigh : codeBreak < code
  · have hmake : ¬ (code = m.code.toNat ∧ (HasFlag s.keyFlags flagEmul0 ↔ m.extended)) := by
      intro h
      lia
    have hplace : code - codeBreak = m.code.toNat ↔ code = m.code.toNat + codeBreak := by lia
    rw [if_pos hhigh, hasFlag_and_keyFlag, hasFlag_unprefixed, Ne, hcolumn _ (by lia), hplace,
      or_iff_right hmake, and_iff_right hmake, and_comm]
  · have hbreak' : ¬ (code = m.code.toNat + codeBreak ∧
        (HasFlag s.keyFlags flagEmul0 ↔ m.extended)) := by
      intro h
      lia
    rw [if_neg hhigh, hasFlag_or_keyFlag, hasFlag_unprefixed, hcolumn _ (by lia),
      and_iff_left hbreak', or_comm]
    exact or_iff_or_not_and _ _

theorem handler_emul0 (behind : ℕ → BitVec 8) (s : Keyboard) :
    s.handler behind codeEmul0 = ({ s with keyFlags := s.keyFlags ||| flagEmul0 }, []) := by
  unfold handler
  rw [if_pos rfl]

theorem handler_emul1 (behind : ℕ → BitVec 8) (s : Keyboard) :
    s.handler behind codeEmul1 = ({ s with keyFlags := s.keyFlags ||| flagEmul1 }, []) := by
  unfold handler
  rw [if_neg (by decide), if_pos rfl]

/-! ## Runs -/

theorem byte_cases (c : BitVec 8) :
    c = 0xe0 ∨ c = 0xe1 ∨ (c ≠ 0xe0 ∧ c ≠ 0xe1 ∧ c.toNat ≠ codeEmul0 ∧ c.toNat ≠ codeEmul1) := by
  by_cases h0 : c = 0xe0
  · exact .inl h0
  · by_cases h1 : c = 0xe1
    · exact .inr (.inl h1)
    · exact .inr (.inr ⟨h0, h1, fun h => h0 (BitVec.eq_of_toNat_eq h),
        fun h => h1 (BitVec.eq_of_toNat_eq h)⟩)

theorem run_append_singleton (behind : ℕ → BitVec 8) (events : List KeyEvent) (e : KeyEvent) :
    run behind (events ++ [e]) = step behind (run behind events) e := by
  unfold run
  rw [List.foldl_append]
  rfl

/-- The flag of the prefix says whether the next code is extended. -/
theorem hasFlag_emul0_iff (behind : ℕ → BitVec 8) (events : List KeyEvent) :
    HasFlag (run behind events).keyFlags flagEmul0 ↔ Extended events := by
  refine iff_since_of_step (fun events => HasFlag (run behind events).keyFlags flagEmul0)
    (fun _ => True) (fun h => absurd h (by decide : ¬ HasFlag keyboardInit.keyFlags flagEmul0))
    (fun events e _ _ => ?_) fun _ _ => trivial
  rw [run_append_singleton]
  generalize run behind events = s
  cases e with
  | byte c =>
      rcases byte_cases c with rfl | rfl | ⟨h0, h1, hcode0, hcode1⟩
      · have hflags : (step behind s (.byte 0xe0)).keyFlags = s.keyFlags ||| flagEmul0 :=
          congrArg (fun r => r.1.keyFlags) (handler_emul0 behind s)
        rw [hflags, hasFlag_or flagEmul0_isFlag flagEmul0_isFlag]
        exact iff_of_true (.inr rfl) (.inl rfl)
      · have hflags : (step behind s (.byte 0xe1)).keyFlags = s.keyFlags ||| flagEmul1 :=
          congrArg (fun r => r.1.keyFlags) (handler_emul1 behind s)
        rw [hflags, hasFlag_or flagEmul0_isFlag flagEmul1_isFlag]
        simp
      · refine iff_of_false (not_hasFlag_emul0_of_code hcode0 hcode1) ?_
        rintro (h | ⟨h, -⟩)
        · exact h0 (KeyEvent.byte.inj h)
        · exact (h c rfl).elim h0 h1
  | setInputMode m => simp [step]
  | regKeyCallback callback => simp [step]

theorem hasFlag_iff_down (behind : ℕ → BitVec 8) {events : List KeyEvent}
    (hevents : ∀ e ∈ events, e ≠ .byte 0x80) (m : Modifier) :
    HasFlag (run behind events).keyFlags m.flag ↔ m.Down events := by
  have hinit : ¬ HasFlag keyboardInit.keyFlags m.flag := by
    cases m <;> decide
  refine iff_since_of_step (fun events => HasFlag (run behind events).keyFlags m.flag)
    (fun e => e ≠ .byte 0x80) hinit (fun events e _ he => ?_) hevents
  rw [run_append_singleton]
  unfold Modifier.Make Modifier.Break
  rw [← hasFlag_emul0_iff behind events]
  generalize run behind events = s
  have hcode : m.code ≠ 0xe0 ∧ m.code ≠ 0xe1 ∧ m.code + 0x80 ≠ 0xe0 ∧ m.code + 0x80 ≠ 0xe1 := by
    cases m <;> decide
  have hkeep : ∀ (c : BitVec 8) (f : BitVec 16), IsFlag f → m.flag ≠ f → c ≠ m.code →
      c ≠ m.code + 0x80 → (step behind s (.byte c)).keyFlags = s.keyFlags ||| f →
      (HasFlag (step behind s (.byte c)).keyFlags m.flag ↔
        (c = m.code ∧ (HasFlag s.keyFlags flagEmul0 ↔ m.extended)) ∨
        ((¬ (c = m.code ∧ (HasFlag s.keyFlags flagEmul0 ↔ m.extended)) ∧
          ¬ (c = m.code + 0x80 ∧ (HasFlag s.keyFlags flagEmul0 ↔ m.extended))) ∧
            HasFlag s.keyFlags m.flag)) := by
    intro c f hf hne hmake hbreak hflags
    rw [hflags, hasFlag_or m.flag_isFlag hf, or_iff_left hne, or_iff_right fun h => hmake h.1,
      and_iff_right ⟨fun h => hmake h.1, fun h => hbreak h.1⟩]
  cases e with
  | byte c =>
      rw [KeyEvent.byte.injEq, KeyEvent.byte.injEq]
      rcases byte_cases c with rfl | rfl | ⟨h0, h1, hcode0, hcode1⟩
      · exact hkeep _ flagEmul0 flagEmul0_isFlag m.flag_ne_prefix.1 hcode.1.symm hcode.2.2.1.symm
          (congrArg (fun r => r.1.keyFlags) (handler_emul0 behind s))
      · exact hkeep _ flagEmul1 flagEmul1_isFlag m.flag_ne_prefix.2 hcode.2.1.symm hcode.2.2.2.symm
          (congrArg (fun r => r.1.keyFlags) (handler_emul1 behind s))
      · have hbreak : c.toNat ≠ codeBreak := fun h => he (congrArg _ (BitVec.eq_of_toNat_eq h))
        have hmake : c = m.code ↔ c.toNat = m.code.toNat := BitVec.toNat_inj.symm
        have hbreak' : c = m.code + 0x80 ↔ c.toNat = m.code.toNat + codeBreak := by
          rw [← BitVec.toNat_inj]
          have hadd : (m.code + 0x80).toNat = m.code.toNat + codeBreak := by cases m <;> rfl
          rw [hadd]
        rw [hmake, hbreak']
        exact hasFlag_handler hcode0 hcode1 hbreak c.isLt m
  | setInputMode m => simp [step]
  | regKeyCallback callback => simp [step]

/-! ## What the callback gets -/

theorem mem_send {s : Keyboard} {key key' : ℕ} (h : KeyCall.callback key ∈ s.send key') :
    key = key' ∧ key' ≠ 0 := by
  unfold send at h
  split at h
  · rename_i hsend
    exact ⟨KeyCall.callback.inj (List.mem_singleton.1 h), hsend.1⟩
  · exact absurd h List.not_mem_nil

theorem cut_le (a k : ℕ) : (if a < k then 0 else k) ≤ a := by
  split <;> omega

theorem inputKey_le (behind : ℕ → BitVec 8) (s : Keyboard) (code key : ℕ) :
    s.inputKey behind code key ≤ keyFlagExt := by
  unfold inputKey
  exact cut_le _ _

theorem inputKey_eq_zero (behind : ℕ → BitVec 8) {s : Keyboard} {m : Modifier} (hl : m ≠ .shiftL)
    (hr : m ≠ .shiftR) (hm : HasFlag s.keyFlags m.flag) (code key : ℕ) :
    s.inputKey behind code key = 0 := by
  have hheld : HasFlag s.keyFlags flagCtrlL ∨ HasFlag s.keyFlags flagCtrlR ∨
      HasFlag s.keyFlags flagAltL ∨ HasFlag s.keyFlags flagAltR := by
    cases m with
    | shiftL => exact absurd rfl hl
    | shiftR => exact absurd rfl hr
    | ctrlL => exact .inl hm
    | ctrlR => exact .inr (.inl hm)
    | altL => exact .inr (.inr (.inl hm))
    | altR => exact .inr (.inr (.inr hm))
  unfold inputKey
  dsimp only
  rw [if_pos hheld]
  rfl

theorem handler_break_input (behind : ℕ → BitVec 8) (h0 : code ≠ codeEmul0) (h1 : code ≠ codeEmul1)
    (hhigh : codeBreak < code) (hmode : s.inputMode ≠ 0) :
    ∃ s' : Keyboard, s.handler behind code = (s', s'.send 0) := by
  unfold handler
  rw [if_neg h0, if_neg h1]
  dsimp only
  rw [if_pos hhigh, if_neg hmode]
  exact ⟨_, rfl⟩

theorem handler_make_input (behind : ℕ → BitVec 8) (h0 : code ≠ codeEmul0) (h1 : code ≠ codeEmul1)
    (hlow : ¬ codeBreak < code) (hmode : s.inputMode ≠ 0) :
    ∃ (s' : Keyboard) (key : ℕ), s.handler behind code =
      (s', (if s'.inputKey behind code key ≠ 0 ∧ s'.inputMode = 2 then
        [.putchar (s'.inputKey behind code key)] else []) ++ s'.send (s'.inputKey behind code key)) := by
  unfold handler
  rw [if_neg h0, if_neg h1]
  dsimp only
  rw [if_neg hlow, if_pos hmode]
  exact ⟨_, _, rfl⟩

/-- In an input mode the callback gets characters of make codes without Ctrl and Alt. -/
theorem callback_mem_handler (hmode : s.inputMode ≠ 0) {key : ℕ}
    (h : KeyCall.callback key ∈ (s.handler behind code).2) :
    ¬ codeBreak < code ∧ key ≤ keyFlagExt ∧ ∀ m : Modifier, m ≠ .shiftL → m ≠ .shiftR →
      ¬ HasFlag (s.handler behind code).1.keyFlags m.flag := by
  by_cases h0 : code = codeEmul0
  · rw [h0, handler_emul0] at h
    exact absurd h List.not_mem_nil
  by_cases h1 : code = codeEmul1
  · rw [h1, handler_emul1] at h
    exact absurd h List.not_mem_nil
  by_cases hhigh : codeBreak < code
  · obtain ⟨s', hs'⟩ := handler_break_input behind h0 h1 hhigh hmode
    rw [hs'] at h
    change KeyCall.callback key ∈ s'.send 0 at h
    obtain ⟨-, hne⟩ := mem_send h
    exact absurd rfl hne
  · obtain ⟨s', key', hs'⟩ := handler_make_input behind h0 h1 hhigh hmode
    rw [hs'] at h ⊢
    rcases List.mem_append.1 h with hput | hsend
    · split at hput
      · exact nomatch List.mem_singleton.1 hput
      · exact absurd hput List.not_mem_nil
    · obtain ⟨rfl, hne⟩ := mem_send hsend
      refine ⟨hhigh, inputKey_le _ _ _ _, fun m hl hr hm => hne ?_⟩
      exact inputKey_eq_zero behind hl hr hm _ _

end Keyboard

/-- **Modifiers are tracked, and an input mode hands on characters only.** In every run of bytes
without the code `0x80`, of changes of the input mode and of callbacks: the flag of each modifier is
set exactly when the last make or break code of its key was a make code; and while the input mode is
not zero the callback gets nothing on a break code, no value above `0x80`, and nothing on a make
code with Ctrl or Alt held. -/
theorem keyboard_modifiers (behind : ℕ → BitVec 8) {events : List KeyEvent}
    (hevents : ∀ e ∈ events, e ≠ .byte 0x80) :
    (∀ m : Modifier, HasFlag (Keyboard.run behind events).keyFlags m.flag ↔ m.Down events) ∧
    ∀ before code after, events = before ++ .byte code :: after →
      (Keyboard.run behind before).inputMode ≠ 0 →
      ∀ key, .callback key ∈ ((Keyboard.run behind before).handler behind code.toNat).2 →
        ¬ codeBreak < code.toNat ∧ key ≤ keyFlagExt ∧
          ∀ m : Modifier, m ≠ .shiftL → m ≠ .shiftR →
            ¬ HasFlag (Keyboard.run behind (before ++ [.byte code])).keyFlags m.flag := by
  refine ⟨fun m => Keyboard.hasFlag_iff_down behind hevents m, ?_⟩
  intro before code after _ hmode key hkey
  rw [Keyboard.run_append_singleton]
  exact Keyboard.callback_mem_handler hmode hkey

/-- The right Alt key, with a change of the input mode and the prefix `E1` in front of its code. -/
theorem keyboard_modifiers_altR :
    Modifier.altR.Down [.byte 0xe0, .setInputMode 2, .byte 0xe1, .byte 0x38] :=
  ((keyboard_modifiers (fun _ => 0) (by decide)).1 .altR).mp (by with_unfolding_all decide)

end BitchKernel
