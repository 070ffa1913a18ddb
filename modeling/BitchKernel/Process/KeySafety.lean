import BitchKernel.Process.KeyGet

/-!
# Which runs deliver the keys

A request has the slot of `key_lock`, `key_c` and `key_len` from its first statement to its
last key, as long as no other process publishes in between, and its process is woken, as long
as the last key does not come before `init_intr_lock`. Nothing in `sys_get` rules these orders
out; the runs without them deliver every request its own segment of the keys.
-/

namespace BitchKernel

open Lib

/-- The process has begun to publish its request. -/
def GetPc.publishing : GetPc → Bool
  | .keyC | .keyLen => true
  | _ => false

/-- The request of the process is published, and its `intr_lock` has not returned. -/
def GetPc.published : GetPc → Bool
  | .initLock | .inputMode | .keyCallback | .processLock | .testLock | .enterLock | .waiting => true
  | _ => false

namespace KeyRun

/-- The keys of the request `r`, published after `t` keys, have not all been stored. -/
def Short (s : KeyRun) (r t : ℕ) : Prop := s.keys.length < t + s.len r

/-- Each request has its own segment of the keys, has the slot until its last key, and wakes
its process with it. -/
structure Delivered (s : KeyRun) : Prop where
  stored : ∀ r t, s.start r = some t → ∀ j,
    s.buf r j = if j < s.len r then s.keys[t + j]? else none
  untouched : ∀ r, s.start r = none → ∀ j, s.buf r j = none
  apart : ∀ r r' t t', r ≠ r' → s.start r = some t → s.start r' = some t' →
    t + s.len r ≤ t' ∨ t' + s.len r' ≤ t
  begun : ∀ p, (s.pc p).publishing = true →
    s.keyLock = some p ∧ (s.pc p = .keyLen → s.keyC = some (s.request p, 0))
  held : ∀ r t, s.start r = some t → s.Short r t →
    s.keyLock = some (s.owner r) ∧ s.keyC = some (r, s.keys.length - t) ∧
      s.keyLen = t + s.len r - s.keys.length
  woken : ∀ r t, s.start r = some t → ¬ s.Short r t → s.request (s.owner r) = r →
    (s.pc (s.owner r)).published = true → s.lockByte (s.owner r) ≠ 1

/-- The slot is free, also for a process that came to it before `p`. -/
def Free (s : KeyRun) (p : ℕ) : Prop :=
  s.keyLen = 0 ∧ ∀ q, q ≠ p → (s.pc q).publishing = false

/-- A process begins to publish, or clears `key_lock`, only where this takes the slot from
nobody, and the last key of a request comes after the `init_intr_lock` of its process. -/
def Orderly (s : KeyRun) : KeyOp → Prop
  | .statement p =>
      (s.pc p = .keyLock → s.Free p) ∧ (s.pc p = .clearKeyLock → s.keyLock = some p ∨ s.Free p)
  | .key _ => s.keyLen = 1 → ∀ p, s.keyLock = some p → s.pc p ≠ .initLock
  | .call _ _ | .pass _ => True

theorem orderly_statement {s : KeyRun} {p : ℕ} (hpc : s.pc p ≠ .keyLock)
    (hpc' : s.pc p ≠ .clearKeyLock) : s.Orderly (.statement p) :=
  ⟨fun h => absurd h hpc, fun h => absurd h hpc'⟩

/-- What holds between the statements of an orderly run. -/
structure Served (s : KeyRun) : Prop extends s.Delivered where
  fresh : ∀ r, s.requests ≤ r → s.start r = none
  size : ∀ r, r < s.requests → 0 < s.len r ∧ s.len r < 2 ^ 32
  called : ∀ p, s.pc p ≠ .idle → s.owner (s.request p) = p ∧ s.request p < s.requests
  unpublished : ∀ p, s.pc p = .check ∨ s.pc p = .keyLock ∨ (s.pc p).publishing = true →
    s.start (s.request p) = none
  empty : ∀ p, (s.pc p).publishing = true → s.keyLen = 0
  busy : 0 < s.keyLen → ∃ r t, s.start r = some t ∧ s.Short r t
  past : ∀ r t, s.start r = some t → t ≤ s.keys.length
  locked : ∀ r t, s.start r = some t → s.Short r t →
    s.request (s.owner r) = r ∧ (s.pc (s.owner r)).published = true ∧
      (s.pc (s.owner r) ≠ .initLock → s.lockByte (s.owner r) = 1)
  unlocked : ∀ r t, s.start r = some t → ¬ s.Short r t → s.request (s.owner r) = r →
    s.pc (s.owner r) ≠ .initLock

namespace Served

variable {s s' : KeyRun}

theorem of_boot (lockByte : ℕ → ℕ) : (boot lockByte).Served where
  stored r t ht := by simp [boot] at ht
  untouched r _ j := rfl
  apart r r' t t' _ ht := by simp [boot] at ht
  begun p hp := by simp [boot, GetPc.publishing] at hp
  held r t ht := by simp [boot] at ht
  woken r t ht := by simp [boot] at ht
  fresh r _ := rfl
  size r hr := by simp [boot] at hr
  called p hp := by simp [boot] at hp
  unpublished p hp := by simp [boot, GetPc.publishing] at hp
  empty p hp := by simp [boot, GetPc.publishing] at hp
  busy h := by simp [boot] at h
  past r t ht := by simp [boot] at ht
  locked r t ht := by simp [boot] at ht
  unlocked r t ht := by simp [boot] at ht

theorem started_lt (h : s.Served) {r t : ℕ} (ht : s.start r = some t) : r < s.requests := by
  by_contra hr
  rw [h.fresh r (Nat.le_of_not_lt hr)] at ht
  cases ht

theorem short_eq (h : s.Served) {r r' t t' : ℕ} (ht : s.start r = some t)
    (ht' : s.start r' = some t') (hshort : s.Short r t) (hshort' : s.Short r' t') : r = r' := by
  have hc := (h.held r t ht hshort).2.1
  rw [(h.held r' t' ht' hshort').2.1, Option.some.injEq, Prod.mk.injEq] at hc
  exact hc.1.symm

theorem not_short (h : s.Served) (hempty : s.keyLen = 0) {r t : ℕ} (ht : s.start r = some t) :
    ¬ s.Short r t := by
  intro hshort
  have hlen := (h.held r t ht hshort).2.2
  unfold Short at hshort
  omega

theorem call (h : s.Served) {p len : ℕ} (hidle : s.pc p = .idle) (hpos : 0 < len)
    (hlt : len < 2 ^ 32) : (s.call p len).Served := by
  have hlen : ∀ r t, s.start r = some t → (s.call p len).len r = s.len r := fun r t ht =>
    Function.update_of_ne (Nat.ne_of_lt (h.started_lt ht)) _ _
  have howner : ∀ r t, s.start r = some t → (s.call p len).owner r = s.owner r := fun r t ht =>
    Function.update_of_ne (Nat.ne_of_lt (h.started_lt ht)) _ _
  have hshort : ∀ r t, s.start r = some t → ((s.call p len).Short r t ↔ s.Short r t) := by
    intro r t ht
    unfold Short
    rw [hlen r t ht]
    rfl
  have hpc : ∀ q, q ≠ p → (s.call p len).pc q = s.pc q := fun q hq =>
    Function.update_of_ne hq _ _
  have hpcSelf : (s.call p len).pc p = .check := Function.update_self ..
  have hrequest : ∀ q, q ≠ p → (s.call p len).request q = s.request q := fun q hq =>
    Function.update_of_ne hq _ _
  have hrequestSelf : (s.call p len).request p = s.requests := Function.update_self ..
  have howned : ∀ r t, s.start r = some t → (s.call p len).request (s.owner r) = r →
      s.owner r ≠ p := by
    intro r t ht hr hp
    rw [hp, hrequestSelf] at hr
    exact absurd (h.started_lt ht) (by omega)
  refine ⟨⟨fun r t ht j => ?_, fun r ht j => h.untouched r ht j, fun r r' t t' hne ht ht' => ?_,
    fun q hq => ?_, fun r t ht hs => ?_, fun r t ht hs hr hq => ?_⟩,
    fun r hr => h.fresh r (Nat.le_of_succ_le hr), fun r hr => ?_, fun q hq => ?_, fun q hq => ?_,
    fun q hq => ?_, fun hbusy => ?_, h.past, fun r t ht hs => ?_, fun r t ht hs hr => ?_⟩
  · rw [hlen r t ht]
    exact h.stored r t ht j
  · rw [hlen r t ht, hlen r' t' ht']
    exact h.apart r r' t t' hne ht ht'
  · have hqp : q ≠ p := by
      rintro rfl
      rw [hpcSelf] at hq
      cases hq
    rw [hpc q hqp] at hq ⊢
    rw [hrequest q hqp]
    exact h.begun q hq
  · rw [howner r t ht, hlen r t ht]
    exact h.held r t ht ((hshort r t ht).1 hs)
  · rw [howner r t ht] at hr hq ⊢
    have hp := howned r t ht hr
    rw [hrequest _ hp] at hr
    rw [hpc _ hp] at hq
    exact h.woken r t ht (fun hs' => hs ((hshort r t ht).2 hs')) hr hq
  · by_cases hnew : r = s.requests
    · subst hnew
      have hself : (s.call p len).len s.requests = len := Function.update_self ..
      rw [hself]
      exact ⟨hpos, hlt⟩
    · have hold : (s.call p len).len r = s.len r := Function.update_of_ne hnew _ _
      rw [hold]
      have hr' : r < s.requests + 1 := hr
      exact h.size r (by omega)
  · by_cases hqp : q = p
    · subst hqp
      rw [hrequestSelf]
      exact ⟨Function.update_self .., Nat.lt_succ_self _⟩
    · rw [hpc q hqp] at hq
      rw [hrequest q hqp]
      obtain ⟨hown, hr⟩ := h.called q hq
      have hold : (s.call p len).owner (s.request q) = s.owner (s.request q) :=
        Function.update_of_ne (Nat.ne_of_lt hr) _ _
      exact ⟨hold.trans hown, Nat.lt_succ_of_lt hr⟩
  · by_cases hqp : q = p
    · subst hqp
      rw [hrequestSelf]
      exact h.fresh _ (Nat.le_refl _)
    · rw [hpc q hqp] at hq
      rw [hrequest q hqp]
      exact h.unpublished q hq
  · have hqp : q ≠ p := by
      rintro rfl
      rw [hpcSelf] at hq
      cases hq
    rw [hpc q hqp] at hq
    exact h.empty q hq
  · obtain ⟨r, t, ht, hs⟩ := h.busy hbusy
    exact ⟨r, t, ht, (hshort r t ht).2 hs⟩
  · obtain ⟨hr, hq, hbyte⟩ := h.locked r t ht ((hshort r t ht).1 hs)
    have hp : s.owner r ≠ p := by
      intro hp
      rw [hp, hidle] at hq
      cases hq
    rw [howner r t ht, hrequest _ hp, hpc _ hp]
    exact ⟨hr, hq, hbyte⟩
  · rw [howner r t ht] at hr ⊢
    have hp := howned r t ht hr
    rw [hrequest _ hp] at hr
    rw [hpc _ hp]
    exact h.unlocked r t ht (fun hs' => hs ((hshort r t ht).2 hs')) hr

/-- A statement that publishes nothing: what it writes to the slot takes it from nobody, and the
lock byte of its process tells from `init_intr_lock` on whether the last key has come. -/
theorem moved (h : s.Served) {p : ℕ} {pc : GetPc} {keyC : Option (ℕ × ℕ)} {keyLock : Option ℕ}
    {lockByte : ℕ → ℕ} (hcalled : s.pc p ≠ .idle) (hinit : pc ≠ .initLock)
    (hslot : (0 < s.keyLen ∨ ∃ q, q ≠ p ∧ (s.pc q).publishing = true) →
      keyC = s.keyC ∧ keyLock = s.keyLock)
    (hbegun : pc.publishing = true → s.keyLen = 0 ∧ keyLock = some p ∧
      (pc = .keyLen → keyC = some (s.request p, 0)))
    (hbefore : pc = .check ∨ pc = .keyLock ∨ pc.publishing = true →
      s.start (s.request p) = none)
    (hbyte : ∀ q, q ≠ p → lockByte q = s.lockByte q)
    (hshort : (s.pc p).published = true → ∀ t, s.start (s.request p) = some t →
      s.Short (s.request p) t → pc.published = true ∧ lockByte p = 1)
    (hfull : pc.published = true → ∀ t, s.start (s.request p) = some t →
      ¬ s.Short (s.request p) t → lockByte p ≠ 1) :
    ({ s with keyC := keyC, keyLock := keyLock, lockByte := lockByte }.goto p pc).Served := by
  have hpc : ∀ q, q ≠ p → Function.update s.pc p pc q = s.pc q := fun q hq =>
    Function.update_of_ne hq _ _
  refine ⟨⟨h.stored, h.untouched, h.apart, fun q hq => ?_, fun r t ht hs => ?_,
    fun r t ht hs hr hq => ?_⟩, h.fresh, h.size, fun q hq => ?_, fun q hq => ?_, fun q hq => ?_,
    h.busy, h.past, fun r t ht hs => ?_, fun r t ht hs hr => ?_⟩
  · dsimp only [KeyRun.goto] at hq ⊢
    by_cases hqp : q = p
    · rw [hqp, Function.update_self] at hq ⊢
      exact (hbegun hq).2
    · rw [hpc q hqp] at hq ⊢
      obtain ⟨hkeyC, hkeyLock⟩ := hslot (.inr ⟨q, hqp, hq⟩)
      rw [hkeyC, hkeyLock]
      exact h.begun q hq
  · obtain ⟨hlock, hc, hlen⟩ := h.held r t ht hs
    have hpos : 0 < s.keyLen := by
      have hs' : s.keys.length < t + s.len r := hs
      omega
    obtain ⟨hkeyC, hkeyLock⟩ := hslot (.inl hpos)
    exact ⟨hkeyLock.trans hlock, hkeyC.trans hc, hlen⟩
  · dsimp only [KeyRun.goto] at hr hq ⊢
    by_cases hqp : s.owner r = p
    · rw [hqp, Function.update_self] at hq
      rw [hqp] at hr ⊢
      rw [← hr] at ht hs
      exact hfull hq t ht hs
    · rw [hpc _ hqp] at hq
      rw [hbyte _ hqp]
      exact h.woken r t ht hs hr hq
  · dsimp only [KeyRun.goto] at hq ⊢
    by_cases hqp : q = p
    · rw [hqp]
      exact h.called p hcalled
    · rw [hpc q hqp] at hq
      exact h.called q hq
  · dsimp only [KeyRun.goto] at hq ⊢
    by_cases hqp : q = p
    · rw [hqp, Function.update_self] at hq
      rw [hqp]
      exact hbefore hq
    · rw [hpc q hqp] at hq
      exact h.unpublished q hq
  · dsimp only [KeyRun.goto] at hq ⊢
    by_cases hqp : q = p
    · rw [hqp, Function.update_self] at hq
      exact (hbegun hq).1
    · rw [hpc q hqp] at hq
      exact h.empty q hq
  · obtain ⟨hr, hq, hone⟩ := h.locked r t ht hs
    dsimp only [KeyRun.goto]
    by_cases hqp : s.owner r = p
    · rw [hqp] at hr hq ⊢
      rw [Function.update_self]
      rw [← hr] at ht hs
      obtain ⟨hstill, hbyteSelf⟩ := hshort hq t ht hs
      exact ⟨hr, hstill, fun _ => hbyteSelf⟩
    · rw [hpc _ hqp, hbyte _ hqp]
      exact ⟨hr, hq, hone⟩
  · dsimp only [KeyRun.goto] at hr ⊢
    by_cases hqp : s.owner r = p
    · rw [hqp, Function.update_self]
      exact hinit
    · rw [hpc _ hqp]
      exact h.unlocked r t ht hs hr

/-- A statement that writes no shared variable. `intr_lock` is left only with the lock byte at
zero. -/
theorem goto (h : s.Served) {p : ℕ} {pc : GetPc} (hcalled : s.pc p ≠ .idle)
    (hinit : s.pc p ≠ .initLock) (hinit' : pc ≠ .initLock) (hbegun : pc.publishing = false)
    (hbefore : pc = .check ∨ pc = .keyLock → s.pc p = .check)
    (hpublished : pc.published = true → (s.pc p).published = true)
    (hleave : (s.pc p).published = true → pc.published = false → s.lockByte p ≠ 1) :
    (s.goto p pc).Served := by
  have hown := (h.called p hcalled).1
  refine h.moved hcalled hinit' (fun _ => ⟨rfl, rfl⟩) (fun hp => ?_) (fun hp => ?_)
    (fun q _ => rfl) (fun hp t ht hs => ?_) (fun hp t ht hs => ?_)
  · rw [hbegun] at hp
    cases hp
  · rw [hbegun] at hp
    exact h.unpublished p (.inl (hbefore (by simpa using hp)))
  · obtain ⟨-, -, hone⟩ := h.locked _ t ht hs
    rw [hown] at hone
    refine ⟨?_, hone hinit⟩
    by_contra hnot
    exact hleave hp (by simpa using hnot) (hone hinit)
  · have hwoken := h.woken _ t ht hs
    rw [hown] at hwoken
    exact hwoken rfl (hpublished hp)

theorem keyLock (h : s.Served) {p : ℕ} (hpc : s.pc p = .keyLock) (hfree : s.Free p) :
    ({ s with keyLock := some p }.goto p .keyC).Served := by
  refine h.moved (by rw [hpc]; decide) (by decide) (fun hbusy => ?_)
    (fun _ => ⟨hfree.1, rfl, fun heq => by cases heq⟩)
    (fun _ => h.unpublished p (.inr (.inl hpc))) (fun q _ => rfl) (fun hp => ?_)
    (fun hp => by cases hp)
  · rcases hbusy with hpos | ⟨q, hqp, hq⟩
    · rw [hfree.1] at hpos
      exact absurd hpos (by decide)
    · rw [hfree.2 q hqp] at hq
      cases hq
  · rw [hpc] at hp
    cases hp

theorem publishing_eq (h : s.Served) {p q : ℕ} (hp : (s.pc p).publishing = true)
    (hq : (s.pc q).publishing = true) : q = p := by
  have hlock := (h.begun q hq).1
  rw [(h.begun p hp).1, Option.some.injEq] at hlock
  exact hlock.symm

theorem keyC (h : s.Served) {p : ℕ} (hpc : s.pc p = .keyC) :
    ({ s with keyC := some (s.request p, 0) }.goto p .keyLen).Served := by
  have hpub : (s.pc p).publishing = true := by
    rw [hpc]
    rfl
  have hempty := h.empty p hpub
  refine h.moved (by rw [hpc]; decide) (by decide) (fun hbusy => ?_)
    (fun _ => ⟨hempty, (h.begun p hpub).1, fun _ => rfl⟩)
    (fun _ => h.unpublished p (.inr (.inr hpub))) (fun q _ => rfl) (fun hp => ?_)
    (fun hp => by cases hp)
  · rcases hbusy with hpos | ⟨q, hqp, hq⟩
    · rw [hempty] at hpos
      exact absurd hpos (by decide)
    · exact absurd (h.publishing_eq hpub hq) hqp
  · rw [hpc] at hp
    cases hp

theorem initLock (h : s.Served) {p : ℕ} (hpc : s.pc p = .initLock) :
    ({ s with lockByte := Function.update s.lockByte p 1 }.goto p .inputMode).Served := by
  have hcalled : s.pc p ≠ .idle := by
    rw [hpc]
    decide
  refine h.moved hcalled (by decide) (fun _ => ⟨rfl, rfl⟩) (fun hp => by cases hp)
    (fun hp => by simp [GetPc.publishing] at hp) (fun q hq => Function.update_of_ne hq _ _)
    (fun _ t _ _ => ⟨rfl, Function.update_self ..⟩)
    (fun _ t ht hs => ?_)
  have hunlocked := h.unlocked _ t ht hs
  rw [(h.called p hcalled).1] at hunlocked
  exact absurd hpc (hunlocked rfl)

theorem clearKeyLock (h : s.Served) {p : ℕ} (hpc : s.pc p = .clearKeyLock)
    (hown : s.keyLock = some p ∨ s.Free p) :
    ({ s with keyLock := none }.goto p .idle).Served := by
  have hnot : ¬ ∃ t, s.start (s.request p) = some t ∧ s.Short (s.request p) t := by
    rintro ⟨t, ht, hs⟩
    have hp := (h.locked _ t ht hs).2.1
    rw [(h.called p (by rw [hpc]; decide)).1, hpc] at hp
    cases hp
  refine h.moved (by rw [hpc]; decide) (by decide) (fun hbusy => ?_) (fun hp => by cases hp)
    (fun hp => by simp [GetPc.publishing] at hp) (fun q _ => rfl)
    (fun hp => by rw [hpc] at hp; cases hp) (fun hp => by cases hp)
  rcases hbusy with hpos | ⟨q, hqp, hq⟩
  · rcases hown with hlock | hfree
    · obtain ⟨r, t, ht, hs⟩ := h.busy hpos
      obtain ⟨hr, hp, -⟩ := h.locked r t ht hs
      have howner := (h.held r t ht hs).1
      rw [hlock, Option.some.injEq] at howner
      rw [← howner] at hr
      rw [← hr] at ht hs
      exact absurd ⟨t, ht, hs⟩ hnot
    · rw [hfree.1] at hpos
      exact absurd hpos (by decide)
  · rcases hown with hlock | hfree
    · have hlock' := (h.begun q hq).1
      rw [hlock, Option.some.injEq] at hlock'
      exact absurd hlock'.symm hqp
    · rw [hfree.2 q hqp] at hq
      cases hq

theorem publish (h : s.Served) {p : ℕ} (hpc : s.pc p = .keyLen) :
    ({ s with
      keyLen := s.len (s.request p)
      start := Function.update s.start (s.request p) (some s.keys.length) }.goto p
        .initLock).Served := by
  have hpub : (s.pc p).publishing = true := by
    rw [hpc]
    rfl
  have hempty := h.empty p hpub
  obtain ⟨hlock, hkeyC⟩ := h.begun p hpub
  obtain ⟨hown, hlt⟩ := h.called p (by rw [hpc]; decide)
  have hpos := (h.size _ hlt).1
  have hnone := h.unpublished p (.inr (.inr hpub))
  -- only the request of `p` is short afterwards
  have hstart : ∀ r t, Function.update s.start (s.request p) (some s.keys.length) r = some t →
      (r = s.request p ∧ t = s.keys.length) ∨
        (r ≠ s.request p ∧ s.start r = some t ∧ ¬ s.Short r t) := by
    intro r t ht
    by_cases hr : r = s.request p
    · rw [hr, Function.update_self, Option.some.injEq] at ht
      exact .inl ⟨hr, ht.symm⟩
    · rw [Function.update_of_ne hr] at ht
      exact .inr ⟨hr, ht, h.not_short hempty ht⟩
  have hpcOther : ∀ q, q ≠ p → Function.update s.pc p .initLock q = s.pc q := fun q hq =>
    Function.update_of_ne hq _ _
  have howner : ∀ r, r ≠ s.request p → s.request (s.owner r) = r → s.owner r ≠ p := by
    intro r hne hr hp
    rw [hp] at hr
    exact hne hr.symm
  refine ⟨⟨fun r t ht j => ?_, fun r ht j => ?_, fun r r' t t' hne ht ht' => ?_,
    fun q hq => ?_, fun r t ht hs => ?_, fun r t ht hs hr hq => ?_⟩,
    fun r hr => ?_, h.size, fun q hq => ?_, fun q hq => ?_, fun q hq => ?_, fun _ => ?_,
    fun r t ht => ?_, fun r t ht hs => ?_, fun r t ht hs hr => ?_⟩
  all_goals dsimp only [KeyRun.goto] at *
  · rcases hstart r t ht with ⟨hr, ht'⟩ | ⟨-, ht', -⟩
    · rw [hr, ht', h.untouched _ hnone, List.getElem?_eq_none (Nat.le_add_right _ _)]
      exact (ite_self _).symm
    · exact h.stored r t ht' j
  · by_cases hr : r = s.request p
    · rw [hr, Function.update_self] at ht
      cases ht
    · rw [Function.update_of_ne hr] at ht
      exact h.untouched r ht j
  · rcases hstart r t ht with ⟨hr, hkeys⟩ | ⟨-, hold, hfull⟩
    · rcases hstart r' t' ht' with ⟨hr', -⟩ | ⟨-, hold', hfull'⟩
      · exact absurd (hr.trans hr'.symm) hne
      · unfold Short at hfull'
        exact .inr (by omega)
    · rcases hstart r' t' ht' with ⟨hr', hkeys'⟩ | ⟨-, hold', -⟩
      · unfold Short at hfull
        exact .inl (by omega)
      · exact h.apart r r' t t' hne hold hold'
  · by_cases hqp : q = p
    · rw [hqp, Function.update_self] at hq
      cases hq
    · rw [hpcOther q hqp] at hq
      exact absurd (h.publishing_eq hpub hq) hqp
  · rcases hstart r t ht with ⟨hr, hkeys⟩ | ⟨-, -, hfull⟩
    · rw [hr, hkeys, hown, hkeyC hpc, Nat.sub_self, Nat.add_sub_cancel_left]
      exact ⟨hlock, rfl, rfl⟩
    · exact absurd hs hfull
  · rcases hstart r t ht with ⟨hr', hkeys⟩ | ⟨hne, hold, hfull⟩
    · rw [hr', hkeys] at hs
      exact absurd (Nat.lt_add_of_pos_right hpos) hs
    · rw [hpcOther _ (howner r hne hr)] at hq
      exact h.woken r t hold hfull hr hq
  · rw [Function.update_of_ne (by omega)]
    exact h.fresh r hr
  · by_cases hqp : q = p
    · rw [hqp]
      exact ⟨hown, hlt⟩
    · rw [hpcOther q hqp] at hq
      exact h.called q hq
  · by_cases hqp : q = p
    · rw [hqp, Function.update_self] at hq
      simp [GetPc.publishing] at hq
    · rw [hpcOther q hqp] at hq
      have hne : s.request q ≠ s.request p := by
        intro heq
        have hcalled : s.pc q ≠ .idle := by
          intro hidle
          rw [hidle] at hq
          simp [GetPc.publishing] at hq
        have hownq := (h.called q hcalled).1
        rw [heq, hown] at hownq
        exact hqp hownq.symm
      rw [Function.update_of_ne hne]
      exact h.unpublished q hq
  · by_cases hqp : q = p
    · rw [hqp, Function.update_self] at hq
      cases hq
    · rw [hpcOther q hqp] at hq
      exact absurd (h.publishing_eq hpub hq) hqp
  · exact ⟨s.request p, s.keys.length, Function.update_self .., Nat.lt_add_of_pos_right hpos⟩
  · rcases hstart r t ht with ⟨-, hkeys⟩ | ⟨-, hold, -⟩
    · exact Nat.le_of_eq hkeys
    · exact h.past r t hold
  · rcases hstart r t ht with ⟨hr, -⟩ | ⟨-, -, hfull⟩
    · rw [hr, hown, Function.update_self]
      exact ⟨rfl, rfl, fun hne => absurd rfl hne⟩
    · exact absurd hs hfull
  · rcases hstart r t ht with ⟨hr', hkeys⟩ | ⟨hne, hold, hfull⟩
    · rw [hr', hkeys] at hs
      exact absurd (Nat.lt_add_of_pos_right hpos) hs
    · rw [hpcOther _ (howner r hne hr)]
      exact h.unlocked r t hold hfull hr

theorem keys_append (h : s.Served) {r t : ℕ} (ht : s.start r = some t) (hfull : ¬ s.Short r t)
    (key : BitVec 8) (j : ℕ) :
    (if j < s.len r then (s.keys ++ [key])[t + j]? else none) = s.buf r j := by
  rw [h.stored r t ht j]
  unfold Short at hfull
  split
  · rw [List.getElem?_append_left (by omega)]
  · rfl

theorem key_unused (h : s.Served) (hempty : s.keyLen = 0) (key : BitVec 8) {lockByte : ℕ → ℕ}
    (hbyte : ∀ q, lockByte q ≠ s.lockByte q → lockByte q = 0) :
    ({ s with lockByte := lockByte, keys := s.keys ++ [key] } : KeyRun).Served := by
  have hfull : ∀ r t, s.start r = some t → ¬ s.keys.length + 1 < t + s.len r := by
    intro r t ht
    have hnot := h.not_short hempty ht
    unfold Short at hnot
    omega
  refine ⟨⟨fun r t ht j => ?_, h.untouched, h.apart, h.begun, fun r t ht hs => ?_,
    fun r t ht _ hr hq => ?_⟩, h.fresh, h.size, h.called, h.unpublished, h.empty, fun hbusy => ?_,
    fun r t ht => ?_, fun r t ht hs => ?_, fun r t ht _ hr => ?_⟩
  · exact (h.keys_append ht (h.not_short hempty ht) key j).symm
  · unfold Short at hs
    rw [List.length_append] at hs
    exact absurd hs (hfull r t ht)
  · have hwoken := h.woken r t ht (h.not_short hempty ht) hr hq
    by_cases heq : lockByte (s.owner r) = s.lockByte (s.owner r)
    · rwa [← heq] at hwoken
    · dsimp only
      rw [hbyte _ heq]
      decide
  · dsimp only at hbusy
    rw [hempty] at hbusy
    exact absurd hbusy (by decide)
  · have hpast := h.past r t ht
    dsimp only
    rw [List.length_append]
    omega
  · unfold Short at hs
    rw [List.length_append] at hs
    exact absurd hs (hfull r t ht)
  · exact h.unlocked r t ht (h.not_short hempty ht) hr

/-- A key is stored for the request that has the slot, and its process is woken with the last
one. -/
theorem key_stored (h : s.Served) {r t : ℕ} (ht : s.start r = some t) (hshort : s.Short r t)
    (key : BitVec 8) {lockByte : ℕ → ℕ}
    (hbyte : s.keyLen ≠ 1 → lockByte = s.lockByte)
    (hbyte' : s.keyLen = 1 → lockByte = Function.update s.lockByte (s.owner r) 0)
    (hinit : s.keyLen = 1 → s.pc (s.owner r) ≠ .initLock) :
    ({ s with
      buf := Function.update s.buf r
        (Function.update (s.buf r) (s.keys.length - t) (some key))
      keyC := some (r, s.keys.length - t + 1)
      keyLen := s.keyLen - 1
      lockByte := lockByte
      keys := s.keys ++ [key] } : KeyRun).Served := by
  obtain ⟨hlock, -, hlen⟩ := h.held r t ht hshort
  have hpast := h.past r t ht
  unfold Short at hshort
  have hother : ∀ r' t', r' ≠ r → s.start r' = some t' → ¬ s.Short r' t' := fun r' t' hne ht' hs =>
    hne (h.short_eq ht' ht hs hshort)
  -- the requests that are short with the new key were short before, and are `r`
  have hstill : ∀ r' t', s.start r' = some t' → (s.keys ++ [key]).length < t' + s.len r' →
      r' = r ∧ t' = t ∧ s.keyLen ≠ 1 := by
    intro r' t' ht' hs
    rw [List.length_append, List.length_singleton] at hs
    have hr : r' = r := by
      by_contra hne
      have hnot := hother r' t' hne ht'
      unfold Short at hnot
      omega
    subst hr
    rw [ht, Option.some.injEq] at ht'
    exact ⟨rfl, ht'.symm, by omega⟩
  refine ⟨⟨fun r' t' ht' j => ?_, fun r' hnone j => ?_, h.apart, fun q hq => ?_,
    fun r' t' ht' hs => ?_, fun r' t' ht' hs hr hq => ?_⟩, h.fresh, h.size, h.called,
    h.unpublished, fun q hq => ?_, fun hbusy => ?_, fun r' t' ht' => ?_, fun r' t' ht' hs => ?_,
    fun r' t' ht' hs hr => ?_⟩
  · dsimp only
    by_cases hr : r' = r
    · subst hr
      rw [ht, Option.some.injEq] at ht'
      subst ht'
      rw [Function.update_self]
      by_cases hj : j = s.keys.length - t
      · rw [hj, Function.update_self, if_pos (by omega), Nat.add_sub_cancel' hpast,
          List.getElem?_append_right (Nat.le_refl _), Nat.sub_self]
        rfl
      · rw [Function.update_of_ne hj, h.stored r' t ht j]
        by_cases hjt : t + j < s.keys.length
        · rw [List.getElem?_append_left hjt]
        · rw [List.getElem?_eq_none (by omega : s.keys.length ≤ t + j),
            List.getElem?_eq_none (by rw [List.length_append, List.length_singleton]; omega)]
    · rw [Function.update_of_ne hr]
      exact (h.keys_append ht' (hother r' t' hr ht') key j).symm
  · dsimp only at hnone ⊢
    have hr : r' ≠ r := by
      rintro rfl
      rw [ht] at hnone
      cases hnone
    rw [Function.update_of_ne hr]
    exact h.untouched r' hnone j
  · have hempty := h.empty q hq
    omega
  · obtain ⟨rfl, rfl, hne⟩ := hstill r' t' ht' hs
    dsimp only
    rw [List.length_append, List.length_singleton, Nat.sub_add_comm hpast]
    exact ⟨hlock, rfl, by omega⟩
  · dsimp only at ht' hr hq ⊢
    by_cases hr' : r' = r
    · subst hr'
      rw [ht, Option.some.injEq] at ht'
      subst ht'
      unfold Short at hs
      rw [List.length_append, List.length_singleton] at hs
      rw [hbyte' (by dsimp only at hs; omega), Function.update_self]
      decide
    · have hwoken := h.woken r' t' ht' (hother r' t' hr' ht') hr hq
      by_cases hone : s.keyLen = 1
      · rw [hbyte' hone]
        by_cases hown : s.owner r' = s.owner r
        · rw [hown, Function.update_self]
          decide
        · rwa [Function.update_of_ne hown]
      · rwa [hbyte hone]
  · have hempty := h.empty q hq
    omega
  · refine ⟨r, t, ht, ?_⟩
    unfold Short
    dsimp only at hbusy ⊢
    rw [List.length_append, List.length_singleton]
    omega
  · have hpast' := h.past r' t' ht'
    dsimp only
    rw [List.length_append]
    omega
  · obtain ⟨rfl, rfl, hne⟩ := hstill r' t' ht' hs
    dsimp only
    rw [hbyte hne]
    exact h.locked r' t' ht hshort
  · dsimp only at ht' hr ⊢
    by_cases hr' : r' = r
    · subst hr'
      rw [ht, Option.some.injEq] at ht'
      subst ht'
      unfold Short at hs
      rw [List.length_append, List.length_singleton] at hs
      exact hinit (by dsimp only at hs; omega)
    · exact h.unlocked r' t' ht' (hother r' t' hr' ht') hr

theorem keyGet (h : s.Served) {key : ℕ} (horderly : s.Orderly (.key key)) :
    (s.keyGet key).Served := by
  by_cases hempty : s.keyLen = 0
  · have hstore : s.storeKey key = s := by
      unfold storeKey
      split
      · rw [if_neg (by omega)]
      · rfl
    unfold KeyRun.keyGet
    rw [hstore]
    unfold unlockKey
    cases hlock : s.keyLock with
    | none => exact h.key_unused hempty _ (fun q hq => absurd rfl hq)
    | some p =>
        dsimp only
        rw [if_pos hempty, ← hlock]
        refine h.key_unused hempty _ (fun q hq => ?_)
        dsimp only at hq ⊢
        by_cases hqp : q = p
        · rw [hqp, Function.update_self]
        · rw [Function.update_of_ne hqp] at hq
          exact absurd rfl hq
  · have hpos : 0 < s.keyLen := Nat.pos_of_ne_zero hempty
    obtain ⟨r, t, ht, hshort⟩ := h.busy hpos
    obtain ⟨hlock, hkeyC, hlen⟩ := h.held r t ht hshort
    have hpast := h.past r t ht
    have hsub : sub32 s.keyLen 1 = s.keyLen - 1 := by
      have hsize := (h.size r (h.started_lt ht)).2
      unfold Short at hshort
      exact sub32_of_le hpos (by omega)
    have hinit : s.keyLen = 1 → s.pc (s.owner r) ≠ .initLock := fun hone =>
      horderly hone _ hlock
    unfold KeyRun.keyGet storeKey
    rw [hkeyC]
    dsimp only
    rw [if_pos hpos, hsub]
    unfold unlockKey
    dsimp only
    rw [hlock]
    dsimp only
    by_cases hone : s.keyLen = 1
    · rw [if_pos (by omega)]
      rw [← hlock]
      exact h.key_stored ht hshort _ (fun hne => absurd hone hne) (fun _ => rfl) hinit
    · rw [if_neg (by omega)]
      rw [← hlock]
      exact h.key_stored ht hshort _ (fun _ => rfl) (fun heq => absurd heq hone) hinit

/-- A switch ends the `intr_lock` of a process whose keys have all come. -/
theorem pass (h : s.Served) (p : ℕ) : (s.pass p).Served := by
  unfold KeyRun.pass
  by_cases hready : s.pc p = .waiting ∧ s.lockByte p = 0
  · rw [if_pos hready]
    obtain ⟨hpc, hzero⟩ := hready
    have hcalled : s.pc p ≠ .idle := by
      rw [hpc]
      decide
    refine h.moved hcalled (by decide) (fun _ => ⟨rfl, rfl⟩) (fun hp => by cases hp)
      (fun hp => by simp [GetPc.publishing] at hp) (fun q hq => Function.update_of_ne hq _ _)
      (fun _ t ht hs => ?_) (fun hp => by cases hp)
    have hone := (h.locked _ t ht hs).2.2
    rw [(h.called p hcalled).1, hpc, hzero] at hone
    exact absurd (hone (by decide)) (by decide)
  · rw [if_neg hready]
    exact h

theorem statement (h : s.Served) {p : ℕ} (horderly : s.Orderly (.statement p)) :
    (s.statement p).Served := by
  unfold KeyRun.statement
  cases hpc : s.pc p with
  | idle => exact h
  | check =>
      dsimp only
      split
      · exact h
      · exact h.goto (by rw [hpc]; decide) (by rw [hpc]; decide) (by decide) rfl
          (fun _ => hpc) (fun hp => by cases hp) (fun hp => by rw [hpc] at hp; cases hp)
  | keyLock => exact h.keyLock hpc (horderly.1 hpc)
  | keyC => exact h.keyC hpc
  | keyLen => exact h.publish hpc
  | initLock => exact h.initLock hpc
  | inputMode =>
      exact h.goto (by rw [hpc]; decide) (by rw [hpc]; decide) (by decide) rfl (by simp)
        (fun _ => by rw [hpc]; rfl) (fun _ hp => by cases hp)
  | keyCallback =>
      have hgoto : (s.goto p .processLock).Served :=
        h.goto (by rw [hpc]; decide) (by rw [hpc]; decide) (by decide) rfl (by simp)
          (fun _ => by rw [hpc]; rfl) (fun _ hp => by cases hp)
      exact ⟨⟨hgoto.stored, hgoto.untouched, hgoto.apart, hgoto.begun, hgoto.held, hgoto.woken⟩,
        hgoto.fresh, hgoto.size, hgoto.called, hgoto.unpublished, hgoto.empty, hgoto.busy,
        hgoto.past, hgoto.locked, hgoto.unlocked⟩
  | processLock =>
      exact h.goto (by rw [hpc]; decide) (by rw [hpc]; decide) (by decide) rfl (by simp)
        (fun _ => by rw [hpc]; rfl) (fun _ hp => by cases hp)
  | testLock =>
      dsimp only
      split
      · exact h.goto (by rw [hpc]; decide) (by rw [hpc]; decide) (by decide) rfl (by simp)
          (fun _ => by rw [hpc]; rfl) (fun _ hp => by cases hp)
      · rename_i hbyte
        exact h.goto (by rw [hpc]; decide) (by rw [hpc]; decide) (by decide) rfl (by simp)
          (fun hp => by cases hp) (fun _ _ => hbyte)
  | enterLock =>
      exact h.goto (by rw [hpc]; decide) (by rw [hpc]; decide) (by decide) rfl (by simp)
        (fun _ => by rw [hpc]; rfl) (fun _ hp => by cases hp)
  | waiting => exact h
  | testKeyLock =>
      dsimp only
      split
      · exact h.goto (by rw [hpc]; decide) (by rw [hpc]; decide) (by decide) rfl (by simp)
          (fun hp => by cases hp) (fun hp => by rw [hpc] at hp; cases hp)
      · exact h.goto (by rw [hpc]; decide) (by rw [hpc]; decide) (by decide) rfl (by simp)
          (fun hp => by cases hp) (fun hp => by rw [hpc] at hp; cases hp)
  | clearKeyLock => exact h.clearKeyLock hpc (horderly.2 hpc)

theorem of_step (h : s.Served) {op : KeyOp} (horderly : s.Orderly op) (hstep : s.Step op s') :
    s'.Served := by
  cases hstep with
  | call p len hidle hpos hlt => exact h.call hidle hpos hlt
  | statement p => exact h.statement horderly
  | key key hregistered => exact h.keyGet horderly
  | pass p => exact h.pass p

end Served

end KeyRun

namespace KeyRun

def enabled (s : KeyRun) : KeyOp → Bool
  | .call p len => s.pc p = .idle ∧ 0 < len ∧ len < 2 ^ 32
  | .key _ => s.registered
  | .statement _ | .pass _ => true

def act (s : KeyRun) : KeyOp → KeyRun
  | .call p len => s.call p len
  | .statement p => s.statement p
  | .key key => s.keyGet key
  | .pass p => s.pass p

theorem step_act {s : KeyRun} {op : KeyOp} (h : s.enabled op = true) :
    keyMachine.step s op (s.act op) := by
  cases op with
  | call p len =>
      obtain ⟨hidle, hpos, hlt⟩ := of_decide_eq_true h
      exact .call p len hidle hpos hlt
  | statement p => exact .statement p
  | key key => exact .key key h
  | pass p => exact .pass p

def allEnabled (s : KeyRun) : List KeyOp → Bool
  | [] => true
  | op :: ops => s.enabled op && (s.act op).allEnabled ops

theorem takes_of_allEnabled {s : KeyRun} {ops : List KeyOp} (h : s.allEnabled ops = true) :
    keyMachine.Takes act s ops := by
  induction ops generalizing s with
  | nil => trivial
  | cons op ops ih =>
      obtain ⟨hop, hops⟩ := Bool.and_eq_true_iff.1 h
      exact ⟨step_act hop, ih hops⟩

end KeyRun

/-- Every run that takes the slot from nobody and lets no last key come before the
`init_intr_lock` of its process delivers the keys. -/
theorem keys_delivered {s : KeyRun} (hs : (keyMachine.restrict KeyRun.Orderly).Reachable s) :
    s.Delivered := by
  have hserved : s.Served := by
    refine hs.invariant (fun s hinit => ?_) (fun s op s' h hstep => ?_)
    · obtain ⟨lockByte, rfl⟩ := hinit
      exact KeyRun.Served.of_boot lockByte
    · exact h.of_step hstep.1 hstep.2
  exact hserved.toDelivered

/-- A process asks for one key and gets it. -/
def oneKey : List KeyOp :=
  [.call 0 1, .statement 0, .statement 0, .statement 0, .statement 0, .statement 0, .statement 0,
    .statement 0, .key 65]

theorem keys_delivered_oneKey :
    (oneKey.foldl KeyRun.act (KeyRun.boot fun _ => 0)).Delivered := by
  have hboot : (keyMachine.restrict KeyRun.Orderly).Reachable (KeyRun.boot fun _ => 0) :=
    .init ⟨_, rfl⟩
  refine keys_delivered (hboot.foldl ⟨⟨?_, KeyRun.step_act rfl⟩, ⟨?_, KeyRun.step_act rfl⟩,
    ⟨?_, KeyRun.step_act rfl⟩, ⟨?_, KeyRun.step_act rfl⟩, ⟨?_, KeyRun.step_act rfl⟩,
    ⟨?_, KeyRun.step_act rfl⟩, ⟨?_, KeyRun.step_act rfl⟩, ⟨?_, KeyRun.step_act rfl⟩,
    ⟨?_, KeyRun.step_act rfl⟩, trivial⟩)
  · trivial
  · exact KeyRun.orderly_statement (by decide) (by decide)
  · refine ⟨fun _ => ⟨rfl, fun q hq => ?_⟩, fun hp => by cases hp⟩
    simp [KeyRun.act, KeyRun.call, KeyRun.statement, KeyRun.goto, KeyRun.boot, hq,
      GetPc.publishing]
  · exact KeyRun.orderly_statement (by decide) (by decide)
  · exact KeyRun.orderly_statement (by decide) (by decide)
  · exact KeyRun.orderly_statement (by decide) (by decide)
  · exact KeyRun.orderly_statement (by decide) (by decide)
  · exact KeyRun.orderly_statement (by decide) (by decide)
  · rintro - p hp
    obtain rfl : p = 0 := (Option.some.inj hp).symm
    decide

/-- Two processes find `key_len` zero before either publishes. -/
def twoPublish : List KeyOp :=
  [.call 0 1, .call 1 1, .statement 0, .statement 1, .statement 0, .statement 0, .statement 0,
    .statement 1, .statement 1]

/-- The last key of the second request comes before `init_intr_lock`. -/
def earlyKey : List KeyOp :=
  oneKey ++ [.statement 0, .statement 0, .statement 0, .statement 0, .call 0 1, .statement 0,
    .statement 0, .statement 0, .statement 0, .key 66, .statement 0]

/-- A request can be overwritten before its key has come, and a process can be left waiting
although its key has come. -/
theorem keys_not_delivered :
    (∃ s, keyMachine.Reachable s ∧ ¬ s.Delivered ∧
      s.start 0 = some 0 ∧ s.Short 0 0 ∧ s.keyC = some (1, 0)) ∧
    ∃ s, keyMachine.Reachable s ∧ ¬ s.Delivered ∧
      s.start 1 = some 1 ∧ ¬ s.Short 1 1 ∧ s.request 0 = 1 ∧ s.owner 1 = 0 ∧
        s.pc 0 = .inputMode ∧ s.lockByte 0 = 1 := by
  have hboot : keyMachine.Reachable (KeyRun.boot fun _ => 0) := .init ⟨_, rfl⟩
  have htwo : (KeyRun.boot fun _ => 0).allEnabled twoPublish = true := by decide
  have hearly : (KeyRun.boot fun _ => 0).allEnabled earlyKey = true := by with_unfolding_all decide
  constructor
  · let s := twoPublish.foldl KeyRun.act (KeyRun.boot fun _ => 0)
    have hs : s.start 0 = some 0 ∧ s.Short 0 0 ∧ s.keyC = some (1, 0) := by
      unfold KeyRun.Short
      with_unfolding_all decide
    refine ⟨s, hboot.foldl (KeyRun.takes_of_allEnabled htwo), fun h => ?_, hs⟩
    have hheld := (h.held 0 0 hs.1 hs.2.1).2.1
    rw [hs.2.2] at hheld
    exact absurd hheld (by simp)
  · let s := earlyKey.foldl KeyRun.act (KeyRun.boot fun _ => 0)
    have hs : s.start 1 = some 1 ∧ ¬ s.Short 1 1 ∧ s.request 0 = 1 ∧ s.owner 1 = 0 ∧
        s.pc 0 = .inputMode ∧ s.lockByte 0 = 1 := by
      unfold KeyRun.Short
      with_unfolding_all decide
    refine ⟨s, hboot.foldl (KeyRun.takes_of_allEnabled hearly), fun h => ?_, hs⟩
    obtain ⟨hstart, hfull, hrequest, howner, hpc, hbyte⟩ := hs
    have hwoken := h.woken 1 1 hstart hfull
    rw [howner, hpc] at hwoken
    exact hwoken hrequest rfl hbyte

end BitchKernel
