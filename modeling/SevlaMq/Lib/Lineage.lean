import Mathlib.Data.List.Infix
import Mathlib.Logic.Function.Basic

/-!
# Lineages of lists

A lineage is a numbered sequence of lists in which each generation starts as a prefix of its
predecessor, cut at a length fixed in advance, and is then extended on its own.  A generation
that nobody has taken over yet is exactly the cut of its predecessor and follows it.

* `line own cut e` — generation `e`; `own e = some xs` if it has been taken over and stands at
  `xs`, `own e = none` if not.
* `Linked own cut` — a generation taken over agrees with its predecessor up to the cut, and the
  predecessor had reached the cut.
* `Linked.transfer` — a prefix of one generation that is no longer than the cuts in between is a
  prefix of a later one.
* `Linked.found`, `Linked.grow`, `Linked.write` — taking a generation over and extending it keep
  the lineage linked, and no generation ever loses an element.
-/

set_option autoImplicit false

namespace SevlaMq.Lineage

variable {α : Type}

/-- Generation `e` of the lineage. -/
def line (own : Nat → Option (List α)) (cut : Nat → Nat) : Nat → List α
  | 0 => (own 0).getD []
  | e + 1 => (own (e + 1)).getD ((line own cut e).take (cut (e + 1)))

/-- Every generation taken over starts at its cut of the predecessor. -/
def Linked (own : Nat → Option (List α)) (cut : Nat → Nat) : Prop :=
  ∀ e xs, own (e + 1) = some xs →
    cut (e + 1) ≤ (line own cut e).length ∧
      xs.take (cut (e + 1)) = (line own cut e).take (cut (e + 1))

variable {own own' : Nat → Option (List α)} {cut cut' : Nat → Nat}

theorem line_of_some {e : Nat} {xs : List α} (h : own e = some xs) : line own cut e = xs := by
  cases e with
  | zero => simp [line, h]
  | succ e => simp [line, h]

theorem line_succ_of_none {e : Nat} (h : own (e + 1) = none) :
    line own cut (e + 1) = (line own cut e).take (cut (e + 1)) := by
  simp [line, h]

theorem line_zero_of_none (h : own 0 = none) : line own cut 0 = [] := by
  simp [line, h]

/-- A generation depends on itself and the earlier ones only. -/
theorem line_congr : ∀ {e : Nat}, (∀ k ≤ e, own k = own' k ∧ cut k = cut' k) →
    line own cut e = line own' cut' e
  | 0, h => by simp only [line, (h 0 (Nat.le_refl 0)).1]
  | e + 1, h => by
    have ih : line own cut e = line own' cut' e := line_congr fun k hk => h k (by omega)
    simp only [line, ih, (h (e + 1) (Nat.le_refl _)).1, (h (e + 1) (Nat.le_refl _)).2]

theorem linked_none (cut : Nat → Nat) : Linked (fun _ => (none : Option (List α))) cut :=
  fun _ _ h => by cases h

namespace Linked

theorem take_eq (h : Linked own cut) (e : Nat) :
    (line own cut (e + 1)).take (cut (e + 1)) = (line own cut e).take (cut (e + 1)) := by
  cases ho : own (e + 1) with
  | none => rw [line_succ_of_none ho, List.take_take, Nat.min_self]
  | some xs => rw [line_of_some ho]; exact (h e xs ho).2

/-- A prefix no longer than the next cut goes over to the next generation. -/
theorem transfer_succ (h : Linked own cut) {xs : List α} {e : Nat} (hp : xs <+: line own cut e)
    (hl : xs.length ≤ cut (e + 1)) : xs <+: line own cut (e + 1) := by
  have h1 : xs <+: (line own cut e).take (cut (e + 1)) := List.prefix_take_iff.2 ⟨hp, hl⟩
  rw [← h.take_eq e] at h1
  exact h1.trans (List.take_prefix _ _)

/-- **Transfer.**  A prefix no longer than the cuts in between goes over to a later generation. -/
theorem transfer (h : Linked own cut) {xs : List α} {e : Nat} (hp : xs <+: line own cut e) :
    ∀ {e' : Nat}, e ≤ e' → (∀ k, e < k → k ≤ e' → xs.length ≤ cut k) → xs <+: line own cut e'
  | 0, hle, _ => by
    obtain rfl : e = 0 := by omega
    exact hp
  | e' + 1, hle, hl => by
    rcases Nat.lt_or_ge e' e with hlt | hge
    · obtain rfl : e = e' + 1 := by omega
      exact hp
    · have ih : xs <+: line own cut e' :=
        h.transfer hp hge fun k h1 h2 => hl k h1 (by omega)
      exact h.transfer_succ ih (hl _ (by omega) (Nat.le_refl _))

/-- Elements below the next cut go over to the next generation. -/
theorem getElem?_succ (h : Linked own cut) {e i : Nat} (hi : i < cut (e + 1)) :
    (line own cut (e + 1))[i]? = (line own cut e)[i]? := by
  have := congrArg (·[i]?) (h.take_eq e)
  simpa [List.getElem?_take, hi] using this

/-- Taking over a generation as it stands changes no generation. -/
theorem line_found {e : Nat} (k : Nat) :
    line (Function.update own e (some (line own cut e))) cut k = line own cut k := by
  induction k with
  | zero =>
    by_cases he : 0 = e
    · subst he; simp [line]
    · simp only [line, Function.update_of_ne he]
  | succ k ih =>
    by_cases he : k + 1 = e
    · subst he; exact line_of_some (Function.update_self _ _ _)
    · simp only [line, Function.update_of_ne he, ih]

/-- **Taking over** generation `e` when it has reached its cut. -/
theorem found (h : Linked own cut) {e : Nat}
    (hcut : ∀ k, e = k + 1 → cut e ≤ (line own cut e).length) :
    Linked (Function.update own e (some (line own cut e))) cut := by
  intro k xs hk
  rw [line_found]
  by_cases he : k + 1 = e
  · subst he
    rw [Function.update_self] at hk
    cases hk
    refine ⟨?_, h.take_eq k⟩
    have h1 := hcut k rfl
    have h2 := congrArg List.length (h.take_eq k)
    rw [List.length_take, List.length_take] at h2
    omega
  · rw [Function.update_of_ne he] at hk
    exact h k xs hk

/-- Extending one generation extends all that follow it and shortens none. -/
theorem line_grow {e : Nat} {xs ys : List α} (he : own e = some xs) (hp : xs <+: ys) (k : Nat) :
    line own cut k <+: line (Function.update own e (some ys)) cut k := by
  induction k with
  | zero =>
    by_cases hk : 0 = e
    · subst hk
      rw [line_of_some he, line_of_some (Function.update_self _ _ _)]
      exact hp
    · simp only [line, Function.update_of_ne hk]
      exact List.prefix_rfl
  | succ k ih =>
    by_cases hk : k + 1 = e
    · subst hk
      rw [line_of_some he, line_of_some (Function.update_self _ _ _)]
      exact hp
    · simp only [line, Function.update_of_ne hk]
      cases own (k + 1) with
      | none => exact ih.take _
      | some zs => exact List.prefix_rfl

/-- **Extending** a generation that has been taken over. -/
theorem grow (h : Linked own cut) {e : Nat} {xs ys : List α} (he : own e = some xs)
    (hp : xs <+: ys) : Linked (Function.update own e (some ys)) cut := by
  intro k zs hk
  have hgrow : line own cut k <+: line (Function.update own e (some ys)) cut k := line_grow he hp k
  -- below a length the old generation had reached, the grown one has the same elements
  have hstable : cut (k + 1) ≤ (line own cut k).length →
      (line (Function.update own e (some ys)) cut k).take (cut (k + 1)) =
        (line own cut k).take (cut (k + 1)) := fun hle => by
    obtain ⟨rest, hrest⟩ := hgrow
    rw [← hrest, List.take_append_of_le_length hle]
  by_cases hke : k + 1 = e
  · subst hke
    rw [Function.update_self] at hk
    cases hk
    obtain ⟨hle, htake⟩ := h k xs he
    refine ⟨Nat.le_trans hle hgrow.length_le, ?_⟩
    rw [hstable hle, ← htake]
    have hxs : cut (k + 1) ≤ xs.length := by
      have h2 := congrArg List.length htake
      rw [List.length_take, List.length_take] at h2
      omega
    obtain ⟨rest, rfl⟩ := hp
    exact List.take_append_of_le_length hxs
  · rw [Function.update_of_ne hke] at hk
    obtain ⟨hle, htake⟩ := h k zs hk
    exact ⟨Nat.le_trans hle hgrow.length_le, by rw [hstable hle, htake]⟩

/-- **Writing** to a generation that has been taken over, or to the first one. -/
theorem write (h : Linked own cut) {e : Nat} {ys : List α} (he : own e ≠ none ∨ e = 0)
    (hp : line own cut e <+: ys) : Linked (Function.update own e (some ys)) cut ∧
      ∀ k, line own cut k <+: line (Function.update own e (some ys)) cut k := by
  -- taken over as it stands, the generation is extended
  have htaken : Linked (Function.update own e (some (line own cut e))) cut := by
    obtain hne | rfl := he
    · obtain ⟨xs, hxs⟩ := Option.ne_none_iff_exists'.1 hne
      rw [line_of_some hxs, ← hxs, Function.update_eq_self]
      exact h
    · exact h.found fun k hk => by cases hk
  have hself := Function.update_self e (some (line own cut e)) own
  have hgrow := htaken.grow hself hp
  rw [Function.update_idem] at hgrow
  refine ⟨hgrow, fun k => ?_⟩
  have hline : line _ cut k <+: _ := line_grow hself hp k
  rwa [Function.update_idem, line_found] at hline

end Linked

end SevlaMq.Lineage
