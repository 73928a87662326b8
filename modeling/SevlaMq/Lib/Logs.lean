import Mathlib.Data.List.Basic

/-!
# Families of logs

Logs that are found by a name and that records are added to at the end.  What a change of such logs
has added is told by entries: the name of a log, a position and a record.

* `Extends` — every log that is there stays there and only gets longer.
* `Added` — the entries of a change: each is found where it says, beyond what was there before, and
  entries of one log have increasing positions.
* `Added.append` — the entries of two changes in a row.
-/

set_option autoImplicit false

namespace SevlaMq.Logs

variable {κ ρ : Type}

/-- The log of a name, if there is one. -/
abbrev Family (κ ρ : Type) := κ → Option (List ρ)

structure Entry (κ ρ : Type) where
  name : κ
  position : Nat
  record : ρ

/-- The entry is found in the logs. -/
def Entry.In (e : Entry κ ρ) (f : Family κ ρ) : Prop :=
  ∃ log, f e.name = some log ∧ log[e.position]? = some e.record

def Extends (f f' : Family κ ρ) : Prop :=
  ∀ k log, f k = some log → ∃ new, f' k = some (log ++ new)

variable {f f₁ f₂ : Family κ ρ} {es es' : List (Entry κ ρ)}

theorem Extends.refl (f : Family κ ρ) : Extends f f :=
  fun _ log h => ⟨[], by rw [h, List.append_nil]⟩

theorem Extends.trans (h : Extends f f₁) (h' : Extends f₁ f₂) : Extends f f₂ := by
  intro k log hlog
  obtain ⟨new, hnew⟩ := h k log hlog
  obtain ⟨new', hnew'⟩ := h' k _ hnew
  exact ⟨new ++ new', by rw [hnew', List.append_assoc]⟩

theorem Entry.In.extends {e : Entry κ ρ} (he : e.In f) (h : Extends f f₁) : e.In f₁ := by
  obtain ⟨log, hlog, hrecord⟩ := he
  obtain ⟨new, hnew⟩ := h _ log hlog
  refine ⟨_, hnew, ?_⟩
  rw [List.getElem?_append_left (List.getElem?_eq_some_iff.1 hrecord).1, hrecord]

/-- The change from `f` to `f'` has added `entries`, and maybe other records. -/
structure Added (f f' : Family κ ρ) (entries : List (Entry κ ρ)) : Prop where
  grows : Extends f f'
  found : ∀ e ∈ entries, e.In f'
  beyond : ∀ e ∈ entries, ∀ log, f e.name = some log → log.length ≤ e.position
  ordered : entries.Pairwise fun e e' => e.name = e'.name → e.position < e'.position

theorem Added.of_extends (h : Extends f f₁) : Added f f₁ [] where
  grows := h
  found := fun _ he => absurd he List.not_mem_nil
  beyond := fun _ he => absurd he List.not_mem_nil
  ordered := .nil

/-- One record at the end of one log. -/
theorem Added.single {k : κ} {log : List ρ} {r : ρ} (hlog : f k = some log)
    (hself : f₁ k = some (log ++ [r])) (hother : ∀ x, x ≠ k → f₁ x = f x) :
    Added f f₁ [⟨k, log.length, r⟩] where
  grows := by
    intro x log' hx
    by_cases hk : x = k
    · rw [hk, hlog] at hx
      cases hx
      exact ⟨[r], by rw [hk, hself]⟩
    · exact ⟨[], by rw [hother x hk, hx, List.append_nil]⟩
  found := by
    intro e he
    rw [List.mem_singleton.1 he]
    exact ⟨_, hself, List.getElem?_concat_length⟩
  beyond := by
    intro e he log' hlog'
    rw [List.mem_singleton.1 he] at hlog' ⊢
    rw [hlog] at hlog'
    cases hlog'
    exact Nat.le_refl _
  ordered := List.pairwise_singleton _ _

/-- Two changes in a row: what the second one adds comes after what the first one has added. -/
theorem Added.append (h : Added f f₁ es) (h' : Added f₁ f₂ es') : Added f f₂ (es ++ es') where
  grows := h.grows.trans h'.grows
  found := by
    intro e he
    rcases List.mem_append.1 he with he | he
    · exact (h.found e he).extends h'.grows
    · exact h'.found e he
  beyond := by
    intro e he log hlog
    rcases List.mem_append.1 he with he | he
    · exact h.beyond e he log hlog
    · obtain ⟨new, hnew⟩ := h.grows _ log hlog
      have hbeyond := h'.beyond e he _ hnew
      rw [List.length_append] at hbeyond
      exact Nat.le_trans (Nat.le_add_right _ _) hbeyond
  ordered := by
    refine List.pairwise_append.2 ⟨h.ordered, h'.ordered, fun e he e' he' hname => ?_⟩
    obtain ⟨log, hlog, hrecord⟩ := h.found e he
    rw [hname] at hlog
    exact Nat.lt_of_lt_of_le (List.getElem?_eq_some_iff.1 hrecord).1 (h'.beyond e' he' log hlog)

section Lift

variable {ι : Type} {F F₁ : Family (ι × κ) ρ} {i : ι}

/-- An entry of the logs of one owner. -/
def Entry.lift (i : ι) (e : Entry κ ρ) : Entry (ι × κ) ρ := ⟨(i, e.name), e.position, e.record⟩

/-- Only one owner's logs have changed. -/
theorem Extends.lift (h : Extends f f₁) (hi : ∀ k, F (i, k) = f k) (hi₁ : ∀ k, F₁ (i, k) = f₁ k)
    (hother : ∀ j, j ≠ i → ∀ k, F₁ (j, k) = F (j, k)) : Extends F F₁ := by
  rintro ⟨j, k⟩ log hlog
  by_cases hj : j = i
  · rw [hj, hi] at hlog
    rw [hj, hi₁]
    exact h k log hlog
  · exact ⟨[], by rw [hother j hj, hlog, List.append_nil]⟩

theorem Added.lift (h : Added f f₁ es) (hi : ∀ k, F (i, k) = f k) (hi₁ : ∀ k, F₁ (i, k) = f₁ k)
    (hother : ∀ j, j ≠ i → ∀ k, F₁ (j, k) = F (j, k)) : Added F F₁ (es.map (Entry.lift i)) where
  grows := h.grows.lift hi hi₁ hother
  found := by
    intro e he
    obtain ⟨e, hmem, rfl⟩ := List.mem_map.1 he
    obtain ⟨log, hlog, hrecord⟩ := h.found e hmem
    exact ⟨log, by rw [Entry.lift, hi₁, hlog], hrecord⟩
  beyond := by
    intro e he log hlog
    obtain ⟨e, hmem, rfl⟩ := List.mem_map.1 he
    rw [Entry.lift, hi] at hlog
    exact h.beyond e hmem log hlog
  ordered := by
    refine List.pairwise_map.2 (h.ordered.imp fun hlt hname => hlt ?_)
    exact (Prod.ext_iff.1 hname).2

end Lift

end SevlaMq.Logs
