import Mathlib.Data.Nat.Basic

/-!
# Loops without a counter

A loop is a body that takes a state to the next one or leaves with a result.  `loop body n s` runs
at most `n` passes, and is `none` when they are not enough.

* `loop_more` — passes that are not needed change nothing.
* `loop_exits` — a loop that uses up at least `d` of something in every pass that goes on leaves
  within one pass more than there are `d`s.
* `loop_invariant` — what an invariant says about the result.
-/

set_option autoImplicit false

namespace SevlaMq

variable {σ ρ : Type}

/-- What one pass does. -/
inductive Pass (σ ρ : Type) where
  | next (s : σ)
  | exit (r : ρ)

/-- At most `n` passes. -/
def loop (body : σ → Pass σ ρ) : Nat → σ → Option ρ
  | 0, _ => none
  | n + 1, s =>
    match body s with
    | .exit r => some r
    | .next s => loop body n s

variable {body : σ → Pass σ ρ} {r : ρ}

theorem loop_more : ∀ {n m : Nat} {s : σ}, loop body n s = some r → n ≤ m → loop body m s = some r
  | 0, _, _, h, _ => by cases h
  | n + 1, 0, _, _, hle => absurd hle (Nat.not_succ_le_zero n)
  | n + 1, m + 1, s, h, hle => by
    rw [loop] at h ⊢
    cases hpass : body s with
    | exit r' =>
      rw [hpass] at h
      exact h
    | next s' =>
      rw [hpass] at h
      exact loop_more h (Nat.le_of_succ_le_succ hle)

/-- **A loop that consumes leaves.** -/
theorem loop_exits {μ : σ → Nat} {d : Nat} (hd : 0 < d)
    (hnext : ∀ s s', body s = .next s' → μ s' + d ≤ μ s) (s : σ) :
    ∃ r, loop body (μ s / d + 1) s = some r := by
  induction hs : μ s using Nat.strong_induction_on generalizing s with
  | _ m ih =>
    subst hs
    rw [loop]
    cases hpass : body s with
    | exit r => exact ⟨r, rfl⟩
    | next s' =>
      have hless := hnext s s' hpass
      obtain ⟨r, hr⟩ := ih (μ s') (by omega) s' rfl
      refine ⟨r, loop_more hr ?_⟩
      calc μ s' / d + 1 = (μ s' + d) / d := (Nat.add_div_right _ hd).symm
        _ ≤ μ s / d := Nat.div_le_div_right hless

/-- **Invariant rule for loops.** -/
theorem loop_invariant {I : σ → Prop} {Q : ρ → Prop}
    (hnext : ∀ s s', I s → body s = .next s' → I s') (hexit : ∀ s r, I s → body s = .exit r → Q r) :
    ∀ {n : Nat} {s : σ}, I s → loop body n s = some r → Q r
  | 0, _, _, h => by cases h
  | n + 1, s, hI, h => by
    rw [loop] at h
    cases hpass : body s with
    | exit r' =>
      rw [hpass] at h
      cases h
      exact hexit s _ hI hpass
    | next s' =>
      rw [hpass] at h
      exact loop_invariant hnext hexit (hnext s s' hI hpass) h

end SevlaMq
