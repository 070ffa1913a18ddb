import BitchKernel.Dev.AtaWrite
import BitchKernel.Lib.Machine

/-!
# Two writers on one channel

`ata_write` takes the lock of the channel three times: to read the bytes in front of the
request, to read the bytes behind it, and to send the sectors. Between two of these sections
another process may run. What the first two sections read waits in `buf_1` and `buf_2`, which
all calls share, so a write is undone or mixed up when another section comes between; the runs
in which no section comes between in that way end as if one call had followed the other.
-/

namespace BitchKernel

open Lib

/-- The arguments of a call of `ata_write`. -/
structure AtaCall where
  n : ℕ
  buf : Bytes
  count : ℕ
  offect : ℕ

/-- The section a call of `ata_write` comes to next, or its answer. -/
inductive AtaSection
  | head
  | tail
  | sectors
  | done (r : ℤ)
deriving DecidableEq

def AtaCall.next (call : AtaCall) (ata : Ata) : AtaSection → AtaSection × Ata
  | .head =>
      if 4 ≤ call.n then (.done (-1), ata)
      else if ata.sectors call.n ≤ call.offect / ataSectorSize then (.done 0, ata)
      else
        let (done, ata) := ata.ataWriteHead call.n call.offect
        (if done then .tail else .done (-1), ata)
  | .tail =>
      let (done, ata) := ata.ataWriteTail call.n call.count call.offect
      (if done then .sectors else .done (-1), ata)
  | .sectors =>
      let (r, ata) := ata.ataWriteSectors call.n call.buf call.count call.offect
      (.done r, ata)
  | .done r => (.done r, ata)

/-- Without another section in between, the sections of a call are the call. -/
theorem AtaCall.next_alone (call : AtaCall) (ata : Ata) :
    let first := call.next ata .head
    let second := call.next first.2 first.1
    call.next second.2 second.1 =
      (.done (ata.ataWrite call.n call.buf call.count call.offect).1,
        (ata.ataWrite call.n call.buf call.count call.offect).2) := by
  unfold Ata.ataWrite
  by_cases hn : 4 ≤ call.n
  · simp only [next, if_pos hn]
  · by_cases hend : ata.sectors call.n ≤ call.offect / ataSectorSize
    · simp only [next, if_neg hn, if_pos hend]
    · obtain ⟨head, ata₁, hhead⟩ : ∃ head ata₁,
          ata.ataWriteHead call.n call.offect = (head, ata₁) := ⟨_, _, rfl⟩
      obtain ⟨tail, ata₂, htail⟩ : ∃ tail ata₂,
          ata₁.ataWriteTail call.n call.count call.offect = (tail, ata₂) := ⟨_, _, rfl⟩
      simp only [next, if_neg hn, if_neg hend, hhead]
      cases head with
      | false => rfl
      | true =>
          simp only [if_true, htail]
          cases tail with
          | false => rfl
          | true => rfl

/-- Two calls on the drives of one channel. -/
structure AtaWriters where
  call : Bool → AtaCall
  channel : (call false).n / 2 = (call true).n / 2

/-- The driver and its drives, and how far each of the two calls has come. -/
structure AtaRun where
  ata : Ata
  pc : Bool → AtaSection

namespace AtaWriters

variable (w : AtaWriters)

/-- The runs of the two calls, which start when neither has come to its first section: each
step is one section of one call. -/
def machine (ata₀ : Ata) : Machine AtaRun Bool where
  init s := s.ata = ata₀ ∧ ∀ p, s.pc p = .head
  step s p s' :=
    s' = ⟨((w.call p).next s.ata (s.pc p)).2,
      Function.update s.pc p ((w.call p).next s.ata (s.pc p)).1⟩

/-- The byte `k` of drive `m` is one of those that a call writes. -/
def Writes (ata : Ata) (call : AtaCall) (m k : ℕ) : Prop :=
  m = call.n ∧ call.offect ≤ k ∧ k < call.offect + ata.room call.n call.count call.offect

/-- The byte `k` of drive `m` is in front of the request of a call, in its first sector. -/
def InHead (ata : Ata) (call : AtaCall) (m k : ℕ) : Prop :=
  m = call.n ∧ call.offect / ataSectorSize + 1 < ata.sectors call.n ∧
    call.offect / ataSectorSize * ataSectorSize ≤ k ∧ k < call.offect

/-- The byte `k` of drive `m` is behind the request of a call, in its last sector. -/
def InTail (ata : Ata) (call : AtaCall) (m k : ℕ) : Prop :=
  m = call.n ∧ call.offect + call.count ≤ (ata.sectors call.n - 1) * ataSectorSize ∧
    call.offect + call.count ≤ k ∧
    k < (call.offect + call.count + (ataSectorSize - 1)) / ataSectorSize * ataSectorSize

/-- A read into `buf_1` keeps what waits there for another call: one of the two calls needs
nothing from `buf_1`, or both need bytes of the same sector. -/
def HeadsAgree (ata : Ata) (call call' : AtaCall) : Prop :=
  ∀ m k m' k', InHead ata call m k → InHead ata call' m' k' →
    m = m' ∧ k / ataSectorSize = k' / ataSectorSize

/-- A read into `buf_2` keeps what waits there for another call. -/
def TailsAgree (ata : Ata) (call call' : AtaCall) : Prop :=
  ∀ m k m' k', InTail ata call m k → InTail ata call' m' k' →
    m = m' ∧ call.offect + call.count = call'.offect + call'.count

/-- The next section of the call `p` keeps what the other call has read and not yet sent. -/
def KeepsApart (ata₀ : Ata) (s : AtaRun) (p : Bool) : Prop :=
  match s.pc p with
  | .head => s.pc (!p) = .tail ∨ s.pc (!p) = .sectors → HeadsAgree ata₀ (w.call p) (w.call !p)
  | .tail => s.pc (!p) = .sectors → TailsAgree ata₀ (w.call p) (w.call !p)
  | .sectors =>
      (s.pc (!p) = .tail ∨ s.pc (!p) = .sectors → ∀ m k, InHead ata₀ (w.call !p) m k →
        ¬ Writes ata₀ (w.call p) m k) ∧
      (s.pc (!p) = .sectors → ∀ m k, InTail ata₀ (w.call !p) m k → ¬ Writes ata₀ (w.call p) m k)
  | .done _ => True

/-- What holds between the sections of the two calls. -/
structure Raced (ata₀ : Ata) (s : AtaRun) : Prop where
  same : ∃ buf1 buf2 disk, s.ata = { ata₀ with buf1 := buf1, buf2 := buf2, disk := disk }
  start : ∀ p, s.pc p = .tail ∨ s.pc p = .sectors →
    (w.call p).offect / ataSectorSize < ata₀.sectors (w.call p).n
  head : ∀ p, s.pc p = .tail ∨ s.pc p = .sectors →
    s.ata.HeadHeld (w.call p).n (w.call p).offect
  tail : ∀ p, s.pc p = .sectors →
    s.ata.TailHeld (w.call p).n (w.call p).count (w.call p).offect
  answer : ∀ p r, s.pc p = .done r →
    r = ata₀.room (w.call p).n (w.call p).count (w.call p).offect
  written : ∀ p r, s.pc p = .done r → ∀ m k, Writes ata₀ (w.call p) m k →
    s.ata.disk m k = (w.call p).buf (k - (w.call p).offect)
  kept : ∀ m k, (∀ p r, s.pc p = .done r → ¬ Writes ata₀ (w.call p) m k) →
    s.ata.disk m k = ata₀.disk m k

/-- Two calls with drives in LBA mode, whose byte ranges are disjoint, and each of which alone
writes what it reports. -/
structure Disjoint (ata₀ : Ata) : Prop where
  drive : ∀ p, ata₀.LbaDrive (w.call p).n
  count : ∀ p, (w.call p).count < 2 ^ 32
  fits : ∀ p, ata₀.Fits (w.call p).n (w.call p).count (w.call p).offect
  ranges : ∀ p m k, Writes ata₀ (w.call p) m k → ¬ Writes ata₀ (w.call !p) m k

variable {w} {ata₀ : Ata} {s s' : AtaRun}

theorem Raced.of_init (h : (w.machine ata₀).init s) : w.Raced ata₀ s := by
  obtain ⟨hata, hpc⟩ := h
  refine ⟨⟨_, _, _, hata⟩, fun p hp => ?_, fun p hp => ?_, fun p hp => ?_, fun p r hp => ?_,
    fun p r hp => ?_, fun m k _ => by rw [hata]⟩
  all_goals
    rw [hpc p] at hp
    simp at hp

theorem Raced.of_read (h : w.Raced ata₀ s) {p : Bool} {buf1 buf2 : Bytes} {next : AtaSection}
    (hpc : ∀ r, s.pc p ≠ .done r) (hnext : ∀ r, next ≠ .done r)
    (hstart : (w.call p).offect / ataSectorSize < ata₀.sectors (w.call p).n)
    (hhead : ∀ q, Function.update s.pc p next q = .tail ∨ Function.update s.pc p next q = .sectors →
      Ata.HeadHeld { s.ata with buf1 := buf1, buf2 := buf2 } (w.call q).n (w.call q).offect)
    (htail : ∀ q, Function.update s.pc p next q = .sectors →
      Ata.TailHeld { s.ata with buf1 := buf1, buf2 := buf2 } (w.call q).n (w.call q).count
        (w.call q).offect) :
    w.Raced ata₀
      ⟨{ s.ata with buf1 := buf1, buf2 := buf2 }, Function.update s.pc p next⟩ := by
  have hdone : ∀ q r, Function.update s.pc p next q = .done r ↔ s.pc q = .done r := by
    intro q r
    by_cases hq : q = p
    · rw [hq, Function.update_self]
      exact iff_of_false (hnext r) (hpc r)
    · rw [Function.update_of_ne hq]
  obtain ⟨b1, b2, disk, hsame⟩ := h.same
  refine ⟨⟨buf1, buf2, disk, by rw [hsame]⟩, fun q hq => ?_, hhead, htail, fun q r hq => ?_,
    fun q r hq => ?_, fun m k hm => ?_⟩
  · by_cases hqp : q = p
    · rw [hqp]
      exact hstart
    · dsimp only at hq
      rw [Function.update_of_ne hqp] at hq
      exact h.start q hq
  · exact h.answer q r ((hdone q r).1 hq)
  · exact h.written q r ((hdone q r).1 hq)
  · exact h.kept m k (fun q r hq => hm q r ((hdone q r).2 hq))

theorem Raced.of_done (hw : w.Disjoint ata₀) (h : w.Raced ata₀ s) {p : Bool} {disk : ℕ → Bytes}
    {r : ℤ} (hpc : ∀ r, s.pc p ≠ .done r)
    (hr : r = ata₀.room (w.call p).n (w.call p).count (w.call p).offect)
    (hdisk : ∀ m k, Writes ata₀ (w.call p) m k →
      disk m k = (w.call p).buf (k - (w.call p).offect))
    (hkept : ∀ m k, ¬ Writes ata₀ (w.call p) m k → disk m k = s.ata.disk m k)
    (hhead : s.pc (!p) = .tail ∨ s.pc (!p) = .sectors → ∀ m k, InHead ata₀ (w.call !p) m k →
      ¬ Writes ata₀ (w.call p) m k)
    (htail : s.pc (!p) = .sectors → ∀ m k, InTail ata₀ (w.call !p) m k →
      ¬ Writes ata₀ (w.call p) m k) :
    w.Raced ata₀ ⟨{ s.ata with disk := disk }, Function.update s.pc p (.done r)⟩ := by
  obtain ⟨b1, b2, d, hsame⟩ := h.same
  have hother : ∀ q, q ≠ p → q = !p := fun q hq => Bool.eq_not.2 hq
  refine ⟨⟨b1, b2, disk, by rw [hsame]⟩, fun q hq => ?_, fun q hq => ?_, fun q hq => ?_,
    fun q r' hq => ?_, fun q r' hq => ?_, fun m k hm => ?_⟩
  · dsimp only at hq
    by_cases hqp : q = p
    · rw [hqp, Function.update_self] at hq
      simp at hq
    · rw [Function.update_of_ne hqp] at hq
      exact h.start q hq
  · dsimp only at hq
    by_cases hqp : q = p
    · rw [hqp, Function.update_self] at hq
      simp at hq
    · rw [Function.update_of_ne hqp] at hq
      intro hlast k hk
      have hheld := h.head q hq hlast k hk
      rw [hother q hqp] at hq hheld hlast hk ⊢
      dsimp only
      rw [hheld, hkept]
      refine hhead hq _ _ ⟨rfl, ?_, by omega, ?_⟩
      · rw [hsame] at hlast
        exact hlast
      · have hattr := Nat.div_add_mod' (w.call !p).offect ataSectorSize
        omega
  · dsimp only at hq
    by_cases hqp : q = p
    · rw [hqp, Function.update_self] at hq
      simp at hq
    · rw [Function.update_of_ne hqp] at hq
      intro hfit k hk
      have hheld := h.tail q hq hfit k hk
      rw [hother q hqp] at hq hheld hfit hk ⊢
      dsimp only
      rw [hheld, hkept]
      refine htail hq _ _ ⟨rfl, ?_, by omega, hk⟩
      rw [hsame] at hfit
      exact hfit
  · dsimp only at hq
    by_cases hqp : q = p
    · rw [hqp, Function.update_self] at hq
      rw [hqp, ← hr]
      exact (AtaSection.done.inj hq).symm
    · rw [Function.update_of_ne hqp] at hq
      exact h.answer q r' hq
  · dsimp only at hq
    intro m k hwrites
    by_cases hqp : q = p
    · rw [hqp] at hwrites ⊢
      exact hdisk m k hwrites
    · rw [Function.update_of_ne hqp] at hq
      have hkeep : ¬ Writes ata₀ (w.call p) m k := by
        have hranges := hw.ranges q m k hwrites
        rw [hother q hqp, Bool.not_not] at hranges
        exact hranges
      rw [← h.written q r' hq m k hwrites]
      exact hkept m k hkeep
  · have hkeep := hm p r (Function.update_self ..)
    rw [← h.kept m k (fun q r' hq => ?_)]
    · exact hkept m k hkeep
    · refine hm q r' ?_
      dsimp only
      by_cases hqp : q = p
      · rw [hqp] at hq
        exact absurd hq (hpc r')
      · rw [Function.update_of_ne hqp]
        exact hq

theorem Raced.of_head (hw : w.Disjoint ata₀) (h : w.Raced ata₀ s) {p : Bool}
    (hpc : s.pc p = .head)
    (hagree : s.pc (!p) = .tail ∨ s.pc (!p) = .sectors →
      HeadsAgree ata₀ (w.call p) (w.call !p)) :
    w.Raced ata₀ ⟨((w.call p).next s.ata .head).2,
      Function.update s.pc p ((w.call p).next s.ata .head).1⟩ := by
  obtain ⟨ata, pc⟩ := s
  obtain ⟨b1, b2, disk, hsame⟩ := h.same
  dsimp only at hpc hagree hsame
  subst hsame
  have hnotdone : ∀ r, pc p ≠ .done r := fun r hr => by
    rw [hpc] at hr
    cases hr
  have hdrive := hw.drive p
  unfold AtaCall.next
  rw [if_neg (Nat.not_le.2 hdrive.lt)]
  dsimp only
  by_cases hend : ata₀.sectors (w.call p).n ≤ (w.call p).offect / ataSectorSize
  · have hnone : ata₀.room (w.call p).n (w.call p).count (w.call p).offect = 0 := by
      unfold Ata.room
      lia
    have hno : ∀ m k, ¬ Writes ata₀ (w.call p) m k := by
      rintro m k ⟨-, hle, hlt⟩
      omega
    rw [if_pos hend]
    exact Raced.of_done hw h hnotdone (by rw [hnone]; rfl)
      (fun m k hwrites => absurd hwrites (hno m k)) (fun m k _ => rfl)
      (fun _ m k _ => hno m k) (fun _ m k _ => hno m k)
  · rw [if_neg hend]
    have hdrive' : Ata.LbaDrive { ata₀ with buf1 := b1, buf2 := b2, disk := disk } (w.call p).n :=
      ⟨hdrive.lt, hdrive.mode, hdrive.error⟩
    obtain ⟨buf1, hhead, hbuf1⟩ := hdrive'.ataWriteHead_spec (Nat.lt_of_not_le hend)
    rw [hhead]
    dsimp only at hbuf1 ⊢
    rw [if_pos rfl]
    refine h.of_read hnotdone (fun r hr => by cases hr) (Nat.lt_of_not_le hend)
      (fun q hq => ?_) (fun q hq => ?_)
    · intro hlast k hk
      dsimp only at hlast ⊢
      rw [hbuf1]
      by_cases hqp : q = p
      · rw [hqp] at hlast hk ⊢
        rw [if_pos ⟨hlast, hk⟩]
      · rw [Function.update_of_ne hqp] at hq
        have hheld := h.head q hq hlast k hk
        rw [Bool.eq_not.2 hqp] at hq hlast hk hheld ⊢
        split
        · rename_i hread
          obtain ⟨hm, hsector⟩ := hagree hq _
            ((w.call p).offect / ataSectorSize * ataSectorSize + k) _
            ((w.call !p).offect / ataSectorSize * ataSectorSize + k)
            ⟨rfl, hread.1, by omega, by lia⟩ ⟨rfl, hlast, by omega, by lia⟩
          rw [hm]
          exact congrArg _ (by lia)
        · exact hheld
    · by_cases hqp : q = p
      · rw [hqp, Function.update_self] at hq
        simp at hq
      · rw [Function.update_of_ne hqp] at hq
        exact h.tail q hq

theorem Raced.of_tail (hw : w.Disjoint ata₀) (h : w.Raced ata₀ s) {p : Bool}
    (hpc : s.pc p = .tail)
    (hagree : s.pc (!p) = .sectors → TailsAgree ata₀ (w.call p) (w.call !p)) :
    w.Raced ata₀ ⟨((w.call p).next s.ata .tail).2,
      Function.update s.pc p ((w.call p).next s.ata .tail).1⟩ := by
  obtain ⟨ata, pc⟩ := s
  obtain ⟨b1, b2, disk, hsame⟩ := h.same
  dsimp only at hpc hagree hsame
  subst hsame
  have hnotdone : ∀ r, pc p ≠ .done r := fun r hr => by
    rw [hpc] at hr
    cases hr
  have hdrive := hw.drive p
  have hstart := h.start p (Or.inl hpc)
  have hdrive' : Ata.LbaDrive { ata₀ with buf1 := b1, buf2 := b2, disk := disk } (w.call p).n :=
    ⟨hdrive.lt, hdrive.mode, hdrive.error⟩
  obtain ⟨buf2, htail, hbuf2⟩ := hdrive'.ataWriteTail_spec (hw.count p) hstart
  unfold AtaCall.next
  rw [htail]
  dsimp only at hbuf2 ⊢
  rw [if_pos rfl]
  refine h.of_read hnotdone (fun r hr => by cases hr) hstart
    (fun q hq => ?_) (fun q hq => ?_)
  · by_cases hqp : q = p
    · rw [hqp]
      exact h.head p (Or.inl hpc)
    · rw [Function.update_of_ne hqp] at hq
      exact h.head q hq
  · intro hfit k hk
    dsimp only at hfit ⊢
    rw [hbuf2]
    by_cases hqp : q = p
    · rw [hqp] at hfit hk ⊢
      rw [if_pos ⟨hfit, hk⟩]
    · rw [Function.update_of_ne hqp] at hq
      have hheld := h.tail q hq hfit k hk
      rw [Bool.eq_not.2 hqp] at hq hfit hk hheld ⊢
      split
      · rename_i hread
        obtain ⟨hm, hend⟩ := hagree hq _ ((w.call p).offect + (w.call p).count + k) _
          ((w.call !p).offect + (w.call !p).count + k)
          ⟨rfl, hread.1, by omega, hread.2⟩ ⟨rfl, hfit, by omega, hk⟩
        rw [hm, hend]
      · exact hheld

theorem room_lt {n count offect : ℕ} (h : ata₀.Fits n count offect) :
    ata₀.room n count offect < 2 ^ 31 := by
  have hlimit := Ata.limit_eq (ata₀.state n)
  unfold Ata.Fits at h
  unfold Ata.room at *
  lia

theorem Raced.of_sectors (hw : w.Disjoint ata₀) (h : w.Raced ata₀ s) {p : Bool}
    (hpc : s.pc p = .sectors)
    (hhead : s.pc (!p) = .tail ∨ s.pc (!p) = .sectors → ∀ m k, InHead ata₀ (w.call !p) m k →
      ¬ Writes ata₀ (w.call p) m k)
    (htail : s.pc (!p) = .sectors → ∀ m k, InTail ata₀ (w.call !p) m k →
      ¬ Writes ata₀ (w.call p) m k) :
    w.Raced ata₀ ⟨((w.call p).next s.ata .sectors).2,
      Function.update s.pc p ((w.call p).next s.ata .sectors).1⟩ := by
  obtain ⟨ata, pc⟩ := s
  obtain ⟨b1, b2, disk, hsame⟩ := h.same
  dsimp only at hpc hhead htail hsame
  subst hsame
  have hnotdone : ∀ r, pc p ≠ .done r := fun r hr => by
    rw [hpc] at hr
    cases hr
  have hdrive := hw.drive p
  have hstart := h.start p (Or.inr hpc)
  have hdrive' : Ata.LbaDrive { ata₀ with buf1 := b1, buf2 := b2, disk := disk } (w.call p).n :=
    ⟨hdrive.lt, hdrive.mode, hdrive.error⟩
  obtain ⟨hclamp, hstores⟩ := hdrive'.stores_of_fits (hw.count p) hstart (hw.fits p)
  obtain ⟨disk', hwrite, -⟩ := hdrive'.ataWriteSectors_spec (w.call p).buf (hw.count p) hstart
  have hdisk := hdrive'.ataWriteSectors_disk (w.call p).buf (hw.count p) hstart hstores
    (h.head p (Or.inr hpc)) (h.tail p hpc)
  unfold AtaCall.next
  rw [hwrite] at hdisk ⊢
  rw [hclamp] at hdisk ⊢
  dsimp only at hdisk ⊢
  refine h.of_done hw hnotdone (toSigned_of_lt (room_lt (hw.fits p)))
    (fun m k hwrites => ?_) (fun m k hno => ?_) hhead htail
  · rw [hdisk]
    exact if_pos hwrites
  · rw [hdisk]
    exact if_neg hno

/-- A section of one call that keeps what the other call has read keeps the invariant. -/
theorem Raced.of_step (hw : w.Disjoint ata₀) (h : w.Raced ata₀ s) {p : Bool}
    (hapart : w.KeepsApart ata₀ s p) (hstep : (w.machine ata₀).step s p s') :
    w.Raced ata₀ s' := by
  unfold KeepsApart at hapart
  change s' = _ at hstep
  rw [hstep]
  cases hpc : s.pc p with
  | head =>
      rw [hpc] at hapart
      exact h.of_head hw hpc hapart
  | tail =>
      rw [hpc] at hapart
      exact h.of_tail hw hpc hapart
  | sectors =>
      rw [hpc] at hapart
      exact h.of_sectors hw hpc hapart.1 hapart.2
  | done r =>
      have hpc' : Function.update s.pc p (.done r) = s.pc := by
        rw [← hpc, Function.update_eq_self]
      unfold AtaCall.next
      dsimp only
      rw [hpc']
      exact h

theorem Raced.of_reachable (hw : w.Disjoint ata₀)
    (hs : ((w.machine ata₀).restrict (w.KeepsApart ata₀)).Reachable s) : w.Raced ata₀ s :=
  Machine.Reachable.invariant (M := (w.machine ata₀).restrict (w.KeepsApart ata₀))
    (fun _ hinit => Raced.of_init hinit) (fun _ _ _ h hstep => h.of_step hw hstep.1 hstep.2) hs

/-! ## One call after the other -/

/-- Nothing comes between the sections of a call while the other call has not begun or is at
its end. -/
theorem keepsApart_of_idle {p : Bool}
    (hidle : s.pc (!p) = .head ∨ ∃ r, s.pc (!p) = .done r) : w.KeepsApart ata₀ s p := by
  have hread : ¬ (s.pc (!p) = .tail ∨ s.pc (!p) = .sectors) := by
    rcases hidle with hpc | ⟨r, hpc⟩ <;> rw [hpc] <;> simp
  unfold KeepsApart
  cases s.pc p with
  | head => exact fun hother => absurd hother hread
  | tail => exact fun hother => absurd (Or.inr hother) hread
  | sectors =>
      exact ⟨fun hother => absurd hother hread, fun hother => absurd (Or.inr hother) hread⟩
  | done r => trivial

/-- A call that begins while the other is idle can be run to its end. -/
theorem reachable_alone {p : Bool}
    (hs : ((w.machine ata₀).restrict (w.KeepsApart ata₀)).Reachable s) (hpc : s.pc p = .head)
    (hidle : s.pc (!p) = .head ∨ ∃ r, s.pc (!p) = .done r) :
    ((w.machine ata₀).restrict (w.KeepsApart ata₀)).Reachable
      ⟨(s.ata.ataWrite (w.call p).n (w.call p).buf (w.call p).count (w.call p).offect).2,
        Function.update s.pc p
          (.done (s.ata.ataWrite (w.call p).n (w.call p).buf (w.call p).count (w.call p).offect).1)⟩ := by
  have halone := (w.call p).next_alone s.ata
  have hne : (!p) ≠ p := (Bool.not_eq_self p).1
  have hfirst := Machine.Reachable.step hs
    (M := (w.machine ata₀).restrict (w.KeepsApart ata₀)) ⟨keepsApart_of_idle (p := p) hidle, rfl⟩
  rw [hpc] at hfirst
  have hsecond := Machine.Reachable.step hfirst (a := p)
    (M := (w.machine ata₀).restrict (w.KeepsApart ata₀))
    ⟨keepsApart_of_idle (by dsimp only; rw [Function.update_of_ne hne]; exact hidle), rfl⟩
  dsimp only at hsecond
  rw [Function.update_self, Function.update_idem] at hsecond
  have hthird := Machine.Reachable.step hsecond (a := p)
    (M := (w.machine ata₀).restrict (w.KeepsApart ata₀))
    ⟨keepsApart_of_idle (by dsimp only; rw [Function.update_of_ne hne]; exact hidle), rfl⟩
  dsimp only at hthird halone
  rw [Function.update_self, Function.update_idem, halone] at hthird
  exact hthird

/-- When both calls have returned, what the drives store is determined. -/
theorem Raced.disk_eq (h : w.Raced ata₀ s) (h' : w.Raced ata₀ s')
    (hdone : ∀ p, ∃ r, s.pc p = .done r) (hdone' : ∀ p, ∃ r, s'.pc p = .done r) :
    s.ata.disk = s'.ata.disk := by
  funext m k
  by_cases hwrites : ∃ p, Writes ata₀ (w.call p) m k
  · obtain ⟨p, hp⟩ := hwrites
    obtain ⟨r, hr⟩ := hdone p
    obtain ⟨r', hr'⟩ := hdone' p
    rw [h.written p r hr m k hp, h'.written p r' hr' m k hp]
  · rw [h.kept m k (fun p _ _ hp => hwrites ⟨p, hp⟩), h'.kept m k (fun p _ _ hp => hwrites ⟨p, hp⟩)]

/-- In a run in which no section touches what the other call has read and not yet sent, both
ranges are stored and every other byte is as it was: the drives end as if one call had followed
the other. -/
theorem no_lost_update (hw : w.Disjoint ata₀)
    (hs : ((w.machine ata₀).restrict (w.KeepsApart ata₀)).Reachable s) {r : Bool → ℤ}
    (hdone : ∀ p, s.pc p = .done (r p)) :
    (∀ p (k : ℕ), k < r p →
        s.ata.disk (w.call p).n ((w.call p).offect + k) = (w.call p).buf k) ∧
      (∀ m k : ℕ, (∀ p, ¬ (m = (w.call p).n ∧ (w.call p).offect ≤ k ∧
          k < (w.call p).offect + r p)) → s.ata.disk m k = ata₀.disk m k) ∧
      (∀ p, r p = ata₀.room (w.call p).n (w.call p).count (w.call p).offect) ∧
      ∀ p, s.ata.disk =
        ((ata₀.ataWrite (w.call p).n (w.call p).buf (w.call p).count (w.call p).offect).2.ataWrite
          (w.call !p).n (w.call !p).buf (w.call !p).count (w.call !p).offect).2.disk := by
  have h := Raced.of_reachable hw hs
  have hanswer := fun p => h.answer p (r p) (hdone p)
  refine ⟨fun p k hk => ?_, fun m k hk => ?_, hanswer, fun p => ?_⟩
  · rw [hanswer p] at hk
    rw [h.written p (r p) (hdone p) _ _ ⟨rfl, Nat.le_add_right _ _, by omega⟩,
      Nat.add_sub_cancel_left]
  · refine h.kept m k (fun p r' hr' hwrites => hk p ⟨hwrites.1, hwrites.2.1, ?_⟩)
    have hlt := hwrites.2.2
    rw [hanswer p]
    omega
  · have hbegin : ((w.machine ata₀).restrict (w.KeepsApart ata₀)).Reachable
        ⟨ata₀, fun _ => .head⟩ :=
      .init ⟨rfl, fun _ => rfl⟩
    have hfirst := reachable_alone (p := p) hbegin rfl (Or.inl rfl)
    have hsecond := reachable_alone (p := !p) hfirst
      (Function.update_of_ne (Bool.not_eq_self p).1 _ _)
      (Or.inr ⟨_, by rw [Bool.not_not]; exact Function.update_self ..⟩)
    refine h.disk_eq (Raced.of_reachable hw hsecond) (fun q => ⟨r q, hdone q⟩) (fun q => ?_)
    dsimp only
    by_cases hq : q = !p
    · rw [hq, Function.update_self]
      exact ⟨_, rfl⟩
    · have hqp : q = p := by
        rw [Bool.eq_not.2 hq, Bool.not_not]
      rw [Function.update_of_ne hq, hqp, Function.update_self]
      exact ⟨_, rfl⟩

/-- The run of the sections in a given order. -/
def run (w : AtaWriters) (ata₀ : Ata) : List Bool → AtaRun
  | [] => ⟨ata₀, fun _ => .head⟩
  | p :: l =>
      let s := w.run ata₀ l
      ⟨((w.call p).next s.ata (s.pc p)).2,
        Function.update s.pc p ((w.call p).next s.ata (s.pc p)).1⟩

theorem run_reachable (w : AtaWriters) (ata₀ : Ata) (l : List Bool) :
    (w.machine ata₀).Reachable (w.run ata₀ l) := by
  induction l with
  | nil => exact .init ⟨rfl, fun _ => rfl⟩
  | cons p l ih => exact .step (a := p) ih rfl

/-- Two calls that write one byte each to the first sector. -/
def oneSector : AtaWriters where
  call p := if p then ⟨0, fun _ => 2, 1, 3⟩ else ⟨0, fun _ => 1, 1, 1⟩
  channel := rfl

theorem oneSector_disjoint : oneSector.Disjoint twoSectors := by
  have hroom : ∀ p, twoSectors.room (oneSector.call p).n (oneSector.call p).count
      (oneSector.call p).offect = 1 := by
    decide
  refine ⟨fun p => ?_, by decide, fun p => ?_, fun p m k => ?_⟩
  · cases p <;> exact twoSectors_lbaDrive
  · refine Or.inr (Or.inr (Or.inr ?_))
    cases p <;> decide
  · unfold Writes
    rw [hroom, hroom]
    cases p <;> simp only [oneSector] <;> simp <;> omega

theorem no_lost_update_oneSector :
    (oneSector.run twoSectors [true, true, true, false, false, false]).ata.disk 0 1 = 1 ∧
      (oneSector.run twoSectors [true, true, true, false, false, false]).ata.disk 0 3 = 2 := by
  have hfirst (l : List Bool) (hidle : (oneSector.run twoSectors l).pc true = .head)
      (hs : ((oneSector.machine twoSectors).restrict (oneSector.KeepsApart twoSectors)).Reachable
        (oneSector.run twoSectors l)) :
      ((oneSector.machine twoSectors).restrict (oneSector.KeepsApart twoSectors)).Reachable
        (oneSector.run twoSectors (false :: l)) :=
    .step (a := false) hs ⟨keepsApart_of_idle (Or.inl hidle), rfl⟩
  have hsecond (l : List Bool) (hidle : (oneSector.run twoSectors l).pc false = .done 1)
      (hs : ((oneSector.machine twoSectors).restrict (oneSector.KeepsApart twoSectors)).Reachable
        (oneSector.run twoSectors l)) :
      ((oneSector.machine twoSectors).restrict (oneSector.KeepsApart twoSectors)).Reachable
        (oneSector.run twoSectors (true :: l)) :=
    .step (a := true) hs ⟨keepsApart_of_idle (Or.inr ⟨1, hidle⟩), rfl⟩
  have hbegin : ((oneSector.machine twoSectors).restrict
      (oneSector.KeepsApart twoSectors)).Reachable (oneSector.run twoSectors []) :=
    .init ⟨rfl, fun _ => rfl⟩
  have hs := hsecond _ (by decide +kernel) (hsecond _ (by decide +kernel) (hsecond _
    (by decide +kernel) (hfirst _ (by decide +kernel) (hfirst _ (by decide +kernel)
      (hfirst _ (by with_unfolding_all decide) hbegin)))))
  have hstored := (no_lost_update oneSector_disjoint hs (r := fun _ => 1)
    (by decide +kernel)).1
  exact ⟨hstored false 0 (by decide), hstored true 0 (by decide)⟩

/-- Both calls read the sector before one of them sends it: the byte that the first one wrote
is gone. -/
theorem update_lost :
    (oneSector.machine twoSectors).Reachable
        (oneSector.run twoSectors [true, false, true, true, false, false]) ∧
      oneSector.Disjoint twoSectors ∧
      (oneSector.run twoSectors [true, false, true, true, false, false]).pc false = .done 1 ∧
      (oneSector.run twoSectors [true, false, true, true, false, false]).pc true = .done 1 ∧
      (oneSector.call false).buf 0 = 1 ∧
      (oneSector.run twoSectors [true, false, true, true, false, false]).ata.disk 0 1 = 0 :=
  ⟨run_reachable _ _ _, oneSector_disjoint, by decide +kernel, by decide +kernel, rfl,
    by decide +kernel⟩

end AtaWriters

end BitchKernel
