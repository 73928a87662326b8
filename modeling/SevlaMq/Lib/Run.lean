import Mathlib.Data.List.Basic

/-!
# Runs of a guarded transition function

`step s a = none` means that action `a` is not possible in state `s`.  A run is a list of
actions; `Along step Q s acts` says that every action of the run meets the condition `Q` in
the state it is taken in.

`run_invariant` is the induction rule: what the initial state satisfies and every step under
`Q` preserves holds at the end of every run that stays within `Q`.  `run_history` is the same
rule for a property that also looks at the run so far, such as `Once`: some state on the way.
-/

set_option autoImplicit false

namespace SevlaMq

variable {σ α : Type}

/-- Execute a list of actions; `none` if one of them is not possible. -/
def run (step : σ → α → Option σ) : σ → List α → Option σ
  | s, [] => some s
  | s, a :: acts =>
    match step s a with
    | none => none
    | some s' => run step s' acts

/-- Every action of the run meets `Q` in the state in which it is taken. -/
def Along (step : σ → α → Option σ) (Q : σ → α → Prop) : σ → List α → Prop
  | _, [] => True
  | s, a :: acts => Q s a ∧ ∀ s', step s a = some s' → Along step Q s' acts

/-- Whether a run stays within a decidable condition can be computed. -/
instance Along.decidable {step : σ → α → Option σ} {Q : σ → α → Prop} [∀ s a, Decidable (Q s a)] :
    ∀ (acts : List α) (s : σ), Decidable (Along step Q s acts)
  | [], _ => isTrue trivial
  | a :: acts, s =>
    match hs : step s a with
    | none => decidable_of_iff (Q s a)
        ⟨fun h => ⟨h, fun s' h' => by rw [hs] at h'; cases h'⟩, And.left⟩
    | some s' =>
      have : Decidable (Along step Q s' acts) := Along.decidable acts s'
      decidable_of_iff (Q s a ∧ Along step Q s' acts)
        ⟨fun h => ⟨h.1, fun s'' h' => by rw [hs] at h'; cases h'; exact h.2⟩,
          fun h => ⟨h.1, h.2 s' hs⟩⟩

theorem run_append (step : σ → α → Option σ) (bs : List α) :
    ∀ (as : List α) (s : σ), run step s (as ++ bs) = (run step s as).bind (run step · bs)
  | [], s => rfl
  | a :: as, s => by
    simp only [List.cons_append, run]
    cases h : step s a with
    | none => rfl
    | some s' => exact run_append step bs as s'

theorem Along.mono {step : σ → α → Option σ} {Q Q' : σ → α → Prop}
    (h : ∀ s a, Q s a → Q' s a) : ∀ {acts : List α} {s : σ}, Along step Q s acts →
      Along step Q' s acts
  | [], _, _ => trivial
  | _ :: _, _, hq => ⟨h _ _ hq.1, fun s' hs => (hq.2 s' hs).mono h⟩

theorem Along.and {step : σ → α → Option σ} {Q Q' : σ → α → Prop} :
    ∀ {acts : List α} {s : σ}, Along step Q s acts → Along step Q' s acts →
      Along step (fun s a => Q s a ∧ Q' s a) s acts
  | [], _, _, _ => trivial
  | _ :: _, _, h, h' => ⟨⟨h.1, h'.1⟩, fun s' hs => (h.2 s' hs).and (h'.2 s' hs)⟩

theorem along_append {step : σ → α → Option σ} {Q : σ → α → Prop} {bs : List α} :
    ∀ {as : List α} {s s' : σ}, run step s as = some s' →
      (Along step Q s (as ++ bs) ↔ Along step Q s as ∧ Along step Q s' bs)
  | [], s, s', h => by
    cases h
    exact ⟨fun hb => ⟨trivial, hb⟩, And.right⟩
  | a :: as, s, s', h => by
    simp only [run] at h
    split at h
    · cases h
    · rename_i s₁ hs
      rw [List.cons_append, Along, Along, and_assoc]
      refine and_congr_right fun _ => ⟨fun hall => ?_, fun ⟨hall, hbs⟩ s₂ hs₂ => ?_⟩
      · obtain ⟨has, hbs⟩ := (along_append h).1 (hall s₁ hs)
        refine ⟨fun s₂ hs₂ => ?_, hbs⟩
        rw [hs] at hs₂
        cases hs₂; exact has
      · rw [hs] at hs₂
        cases hs₂
        exact (along_append h).2 ⟨hall s₁ hs, hbs⟩

/-- A condition on the actions alone. -/
theorem Along.of_mem {step : σ → α → Option σ} {Q : α → Prop} :
    ∀ {acts : List α} {s : σ}, (∀ a ∈ acts, Q a) → Along step (fun _ a => Q a) s acts
  | [], _, _ => trivial
  | a :: _, _, h => ⟨h a List.mem_cons_self,
      fun _ _ => Along.of_mem fun x hx => h x (List.mem_cons_of_mem _ hx)⟩

theorem Along.of_forall {step : σ → α → Option σ} {Q : σ → α → Prop} (h : ∀ s a, Q s a) :
    ∀ {acts : List α} {s : σ}, Along step Q s acts
  | [], _ => trivial
  | _ :: _, _ => ⟨h _ _, fun _ _ => Along.of_forall h⟩

/-- **Invariant rule for runs within a step condition.** -/
theorem run_invariant {step : σ → α → Option σ} {Q : σ → α → Prop} {P : σ → Prop}
    (hstep : ∀ s a s', P s → Q s a → step s a = some s' → P s') :
    ∀ {acts : List α} {s s' : σ}, P s → Along step Q s acts → run step s acts = some s' → P s'
  | [], s, s', hp, _, h => by cases h; exact hp
  | a :: acts, s, s', hp, hq, h => by
    simp only [run] at h
    split at h
    · cases h
    · rename_i s₁ hs
      exact run_invariant hstep (hstep s a s₁ hp hq.1 hs) (hq.2 s₁ hs) h

/-- What an invariant and the step condition imply holds along the run. -/
theorem Along.of_invariant {step : σ → α → Option σ} {Q R : σ → α → Prop} {P : σ → Prop}
    (hstep : ∀ s a s', P s → Q s a → step s a = some s' → P s') (hR : ∀ s a, P s → Q s a → R s a) :
    ∀ {acts : List α} {s : σ}, P s → Along step Q s acts → Along step R s acts
  | [], _, _, _ => trivial
  | a :: _, s, hp, hq => ⟨hR s a hp hq.1,
      fun s' hs => Along.of_invariant hstep hR (hstep s a s' hp hq.1 hs) (hq.2 s' hs)⟩

/-- **Invariant rule with history.** -/
theorem run_history {step : σ → α → Option σ} {Q : σ → α → Prop} {P : List α → σ → Prop}
    (hstep : ∀ acts s a s', P acts s → Q s a → step s a = some s' → P (acts ++ [a]) s') :
    ∀ {acts past : List α} {s s' : σ}, P past s → Along step Q s acts →
      run step s acts = some s' → P (past ++ acts) s'
  | [], past, s, s', hp, _, h => by cases h; rw [List.append_nil]; exact hp
  | a :: acts, past, s, s', hp, hq, h => by
    simp only [run] at h
    split at h
    · cases h
    · rename_i s₁ hs
      have := run_history hstep (hstep past s a s₁ hp hq.1 hs) (hq.2 s₁ hs) h
      rwa [List.append_assoc] at this

/-- Some state on the run `acts` from `s₀`, its ends included, satisfies `P`. -/
def Once (step : σ → α → Option σ) (s₀ : σ) (acts : List α) (P : σ → Prop) : Prop :=
  ∃ past rest s, acts = past ++ rest ∧ run step s₀ past = some s ∧ P s

theorem Once.now {step : σ → α → Option σ} {s₀ s : σ} {acts : List α} {P : σ → Prop}
    (h : run step s₀ acts = some s) (hp : P s) : Once step s₀ acts P :=
  ⟨acts, [], s, (List.append_nil _).symm, h, hp⟩

theorem once_nil {step : σ → α → Option σ} {s : σ} {P : σ → Prop} : Once step s [] P ↔ P s := by
  constructor
  · rintro ⟨past, rest, s', hnil, hr, hp⟩
    obtain ⟨rfl, rfl⟩ := List.append_eq_nil_iff.1 hnil.symm
    cases hr
    exact hp
  · intro hp
    exact ⟨[], [], s, rfl, rfl, hp⟩

theorem once_cons {step : σ → α → Option σ} {s : σ} {a : α} {acts : List α} {P : σ → Prop} :
    Once step s (a :: acts) P ↔ P s ∨ ∃ s', step s a = some s' ∧ Once step s' acts P := by
  constructor
  · rintro ⟨past, rest, s', happ, hr, hp⟩
    cases past with
    | nil =>
      cases hr
      exact Or.inl hp
    | cons x past =>
      cases happ
      simp only [run] at hr
      split at hr
      · cases hr
      · rename_i s₁ hs
        exact Or.inr ⟨s₁, hs, past, rest, s', rfl, hr, hp⟩
  · rintro (hp | ⟨s₁, hs, past, rest, s', rfl, hr, hp⟩)
    · exact ⟨[], a :: acts, s, rfl, rfl, hp⟩
    · refine ⟨a :: past, rest, s', rfl, ?_, hp⟩
      simp only [run, hs]
      exact hr

/-- Whether some state of a run has a decidable property can be computed. -/
instance Once.decidable {step : σ → α → Option σ} {P : σ → Prop} [DecidablePred P] :
    ∀ (acts : List α) (s : σ), Decidable (Once step s acts P)
  | [], s => decidable_of_iff (P s) once_nil.symm
  | a :: acts, s =>
    match hs : step s a with
    | none => decidable_of_iff (P s) (by rw [once_cons, hs]; simp)
    | some s' =>
      have : Decidable (Once step s' acts P) := Once.decidable acts s'
      decidable_of_iff (P s ∨ Once step s' acts P) (by rw [once_cons, hs]; simp)

theorem Once.later {step : σ → α → Option σ} {s₀ : σ} {acts : List α} {P : σ → Prop}
    (h : Once step s₀ acts P) (more : List α) : Once step s₀ (acts ++ more) P := by
  obtain ⟨past, rest, s, rfl, hr, hp⟩ := h
  exact ⟨past, rest ++ more, s, by rw [List.append_assoc], hr, hp⟩

theorem run_snoc {step : σ → α → Option σ} {s₀ s s' : σ} {acts : List α} {a : α}
    (h : run step s₀ acts = some s) (hs : step s a = some s') :
    run step s₀ (acts ++ [a]) = some s' := by
  rw [run_append, h]
  simp only [Option.bind_some, run, hs]

/-- When every action is possible, a run is a fold. -/
theorem run_total (f : σ → α → σ) : ∀ (acts : List α) (s : σ),
    run (fun s a => some (f s a)) s acts = some (acts.foldl f s)
  | [], _ => rfl
  | a :: acts, s => run_total f acts (f s a)

end SevlaMq
