import Mathlib.Data.Finset.Basic

/-!
# One holder for every resource

`Custody live H` says that the resources in `live` are those that somebody holds, and that nobody
shares one. It is kept when a fresh resource is taken up, when one is given back, and when one is
passed on.
-/

namespace Lib

/-- Every resource of `live` has one holder, and nothing else has any. -/
structure Custody {π δ : Type*} (live : Finset δ) (H : π → δ → Prop) : Prop where
  held : ∀ d, d ∈ live ↔ ∃ p, H p d
  once : ∀ p q d, H p d → H q d → p = q

namespace Custody

variable {π δ : Type*} {live : Finset δ} {H H' : π → δ → Prop} {p q : π} {d : δ}

theorem mem (h : Custody live H) (hp : H p d) : d ∈ live := (h.held d).2 ⟨p, hp⟩

theorem congr (h : Custody live H) (hsame : ∀ p d, H' p d ↔ H p d) : Custody live H' := by
  refine ⟨fun d => (h.held d).trans ?_, fun p q d hp hq => ?_⟩
  · exact ⟨fun ⟨p, hp⟩ => ⟨p, (hsame p d).2 hp⟩, fun ⟨p, hp⟩ => ⟨p, (hsame p d).1 hp⟩⟩
  · exact h.once p q d ((hsame p d).1 hp) ((hsame q d).1 hq)

variable [DecidableEq δ]

theorem take (h : Custody live H) (hnew : d ∉ live)
    (hH : ∀ r e, H' r e ↔ H r e ∨ r = p ∧ e = d) : Custody (insert d live) H' := by
  refine ⟨fun e => ?_, fun r r' e hr hr' => ?_⟩
  · rw [Finset.mem_insert, h.held]
    constructor
    · rintro (rfl | ⟨r, hr⟩)
      · exact ⟨p, (hH p e).2 (.inr ⟨rfl, rfl⟩)⟩
      · exact ⟨r, (hH r e).2 (.inl hr)⟩
    · rintro ⟨r, hr⟩
      rcases (hH r e).1 hr with hr | ⟨-, he⟩
      · exact .inr ⟨r, hr⟩
      · exact .inl he
  · rcases (hH r e).1 hr with hr | ⟨rfl, rfl⟩ <;> rcases (hH r' e).1 hr' with hr' | ⟨rfl, he⟩
    · exact h.once r r' e hr hr'
    · exact absurd (h.mem (he ▸ hr)) hnew
    · exact absurd (h.mem hr') hnew
    · rfl

theorem give (h : Custody live H) (hH : ∀ r e, H' r e ↔ H r e ∧ e ≠ d) :
    Custody (live.erase d) H' := by
  refine ⟨fun e => ?_, fun r r' e hr hr' => ?_⟩
  · rw [Finset.mem_erase, h.held]
    constructor
    · rintro ⟨hne, r, hr⟩
      exact ⟨r, (hH r e).2 ⟨hr, hne⟩⟩
    · rintro ⟨r, hr⟩
      exact ⟨((hH r e).1 hr).2, r, ((hH r e).1 hr).1⟩
  · exact h.once r r' e ((hH r e).1 hr).1 ((hH r' e).1 hr').1

theorem pass (h : Custody live H) (hd : H p d)
    (hH : ∀ r e, H' r e ↔ H r e ∧ e ≠ d ∨ r = q ∧ e = d) : Custody live H' := by
  have hgive : Custody (live.erase d) fun r e => H r e ∧ e ≠ d := h.give fun _ _ => Iff.rfl
  have htake := hgive.take (Finset.notMem_erase d live) hH
  rwa [Finset.insert_erase (h.mem hd)] at htake

end Custody

end Lib
