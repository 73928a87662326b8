import Mathlib.Data.List.Basic

/-!
# Readers and the number of items left

A reader takes items off the front of a list and may fail.  Whether it asks for items that are not
there, and whether it leaves some behind, is a matter of their number, so the conditions before and
after a reader speak of the number only.

* `Reads bad r Q n` — from `n` items the reader does not fail with `bad`, and where it returns `a`
  and leaves `m` items, `Q a m` holds.
* `Reads.bind`, `Reads.map`, `Reads.mono` — the rules for putting readers together.
* `Drains` — the reader leaves nothing, whatever it is given.
-/

set_option autoImplicit false

namespace SevlaMq

variable {α β γ ε : Type} {bad : ε}

/-- From `n` items `r` does not fail with `bad`, and what it returns and leaves meets `Q`. -/
def Reads (bad : ε) (r : StateT (List β) (Except ε) α) (Q : α → Nat → Prop) (n : Nat) : Prop :=
  ∀ items : List β, items.length = n →
    r items ≠ .error bad ∧ ∀ a left, r items = .ok (a, left) → Q a left.length

theorem Reads.mono {r : StateT (List β) (Except ε) α} {Q Q' : α → Nat → Prop} {n : Nat}
    (h : Reads bad r Q n) (hQ : ∀ a m, Q a m → Q' a m) : Reads bad r Q' n := by
  intro items hlen
  obtain ⟨hgood, hpost⟩ := h items hlen
  exact ⟨hgood, fun a left hok => hQ a left.length (hpost a left hok)⟩

theorem Reads.pure {a : α} {Q : α → Nat → Prop} {n : Nat} (h : Q a n) :
    Reads bad (Pure.pure a : StateT (List β) (Except ε) α) Q n := by
  intro items hlen
  have hresult : (Pure.pure a : StateT (List β) (Except ε) α) items = .ok (a, items) := rfl
  rw [hresult]
  refine ⟨by simp, fun a' left hok => ?_⟩
  cases hok
  rwa [hlen]

/-- One reader after the other. -/
theorem Reads.bind {r : StateT (List β) (Except ε) α} {f : α → StateT (List β) (Except ε) γ}
    {P : α → Nat → Prop} {Q : γ → Nat → Prop} {n : Nat} (hr : Reads bad r P n)
    (hf : ∀ a m, P a m → Reads bad (f a) Q m) : Reads bad (r >>= f) Q n := by
  intro items hlen
  obtain ⟨hgood, hpost⟩ := hr items hlen
  have hstep : (r >>= f) items = match r items with
      | .error e => .error e
      | .ok (a, left) => f a left := by
    show (StateT.bind r f) items = _
    unfold StateT.bind
    cases r items <;> rfl
  rw [hstep]
  cases hresult : r items with
  | error e =>
    refine ⟨fun hbad => hgood (by rw [hresult, Except.error.inj hbad]), fun c left hok => ?_⟩
    cases hok
  | ok pair => exact hf pair.1 pair.2.length (hpost _ _ hresult) pair.2 rfl

theorem Reads.map {r : StateT (List β) (Except ε) α} {f : α → γ} {Q : γ → Nat → Prop} {n : Nat}
    (h : Reads bad r (fun a m => Q (f a) m) n) : Reads bad (f <$> r) Q n := by
  have hsame : f <$> r = r >>= fun a => Pure.pure (f a) := (bind_pure_comp f r).symm
  rw [hsame]
  exact h.bind fun a m hQ => .pure hQ

/-- A reader that leaves nothing, whatever it is given. -/
def Drains (bad : ε) (r : StateT (List β) (Except ε) α) : Prop :=
  ∀ n, Reads bad r (fun _ m => m = 0) n

theorem Drains.map {r : StateT (List β) (Except ε) α} (h : Drains bad r) (f : α → γ) :
    Drains bad (f <$> r) :=
  fun n => (h n).map

end SevlaMq
