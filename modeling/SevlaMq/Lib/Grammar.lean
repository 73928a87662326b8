import Mathlib.Data.List.Basic

/-!
# Readers and the sentences they take

A grammar says which lists of items stand for a value.  A reader takes items off the front of a list
and may fail; it recognizes a grammar when it succeeds exactly where a sentence of the grammar
stands at the front.

* `Recognizes r G` — the reader takes exactly the sentences of `G`, whatever follows them.
* `Recognizes.bind_eq_ok`, `Recognizes.bind_append` — what goes on after such a reader.
* `Covers r G` — the reader succeeds exactly on lists that are sentences of `G` as a whole.
-/

set_option autoImplicit false

namespace SevlaMq

variable {α β γ ε : Type}

/-- `r` takes a sentence off the front exactly where there is one. -/
def Recognizes (r : StateT (List β) (Except ε) α) (G : α → List β → Prop) : Prop :=
  ∀ items a left, r items = .ok (a, left) ↔ ∃ s, G a s ∧ items = s ++ left

/-- `r` succeeds exactly where all items together are a sentence. -/
def Covers (r : StateT (List β) (Except ε) α) (G : α → List β → Prop) : Prop :=
  ∀ items a left, r items = .ok (a, left) ↔ G a items ∧ left = []

/-- When one reader after the other succeeds. -/
theorem bind_eq_ok_iff (r : StateT (List β) (Except ε) α) (f : α → StateT (List β) (Except ε) γ)
    (items : List β) (p : γ × List β) :
    (r >>= f) items = .ok p ↔ ∃ a left, r items = .ok (a, left) ∧ f a left = .ok p := by
  show (StateT.bind r f) items = .ok p ↔ _
  unfold StateT.bind
  cases hresult : r items with
  | error e =>
    constructor
    · intro h
      cases h
    · rintro ⟨a, left, h, _⟩
      cases h
  | ok pair =>
    constructor
    · intro h
      exact ⟨pair.1, pair.2, rfl, h⟩
    · rintro ⟨a, left, h, hf⟩
      cases h
      exact hf

theorem map_eq_ok_iff (r : StateT (List β) (Except ε) α) (f : α → γ) (items : List β)
    (p : γ × List β) :
    (f <$> r) items = .ok p ↔ ∃ a, r items = .ok (a, p.2) ∧ p.1 = f a := by
  show (StateT.map f r) items = .ok p ↔ _
  unfold StateT.map
  cases hresult : r items with
  | error e =>
    constructor
    · intro h
      cases h
    · rintro ⟨a, h, _⟩
      cases h
  | ok pair =>
    constructor
    · intro h
      cases h
      exact ⟨pair.1, rfl, rfl⟩
    · rintro ⟨a, h, hp⟩
      cases h
      show Except.ok (f a, p.2) = _
      rw [← hp]

/-- What follows a reader begins behind a sentence. -/
theorem Recognizes.bind_eq_ok {r : StateT (List β) (Except ε) α} {G : α → List β → Prop}
    (h : Recognizes r G) (f : α → StateT (List β) (Except ε) γ) (items : List β)
    (p : γ × List β) :
    (r >>= f) items = .ok p ↔ ∃ a s left, G a s ∧ items = s ++ left ∧ f a left = .ok p := by
  rw [bind_eq_ok_iff]
  constructor
  · rintro ⟨a, left, hr, hf⟩
    obtain ⟨s, hs, rfl⟩ := (h _ _ _).1 hr
    exact ⟨a, s, left, hs, rfl, hf⟩
  · rintro ⟨a, s, left, hs, rfl, hf⟩
    exact ⟨a, left, (h _ _ _).2 ⟨s, hs, rfl⟩, hf⟩

/-- A sentence is read, and what follows begins behind it. -/
theorem Recognizes.bind_append {r : StateT (List β) (Except ε) α} {G : α → List β → Prop}
    (h : Recognizes r G) {a : α} {s : List β} (hs : G a s)
    (f : α → StateT (List β) (Except ε) γ) (left : List β) : (r >>= f) (s ++ left) = f a left := by
  have hr := (h (s ++ left) a left).2 ⟨s, hs, rfl⟩
  show (StateT.bind r f) (s ++ left) = _
  unfold StateT.bind
  rw [hr]
  rfl

theorem Covers.map {r : StateT (List β) (Except ε) α} {G : α → List β → Prop} (h : Covers r G)
    (f : α → γ) : Covers (f <$> r) fun c s => ∃ a, G a s ∧ c = f a := by
  intro items c left
  rw [map_eq_ok_iff]
  constructor
  · rintro ⟨a, hr, hc⟩
    obtain ⟨hs, hleft⟩ := (h _ _ _).1 hr
    exact ⟨⟨a, hs, hc⟩, hleft⟩
  · rintro ⟨⟨a, hs, hc⟩, hleft⟩
    exact ⟨a, (h _ _ _).2 ⟨hs, hleft⟩, hc⟩

end SevlaMq
