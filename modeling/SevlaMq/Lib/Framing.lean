import Mathlib.Data.List.Basic

/-!
# Self-delimiting frames and the decode loop

A stream decoder `dec` looks at the front of a buffer and answers with an error, with
`ok none` (the frame is not complete yet, buffer untouched) or with a value and the rest of
the buffer.

* `IsFrame dec a bs` — `bs` is a complete frame of `a`: it decodes whatever follows it, and
  every proper prefix of it is reported as incomplete.
* `foldFrames` — the loop "decode, handle the value, repeat until incomplete", with the
  position of each frame handed to the handler.  Structural fuel; one unit per frame.
* `foldFrames_concat` — on a concatenation of frames followed by an incomplete tail the loop
  is a plain left fold over the frames and leaves exactly the tail.
* `prefix_concatFrames` — every prefix of a concatenation of frames is such an input: some whole
  frames and an incomplete tail.
-/

set_option autoImplicit false

namespace SevlaMq

variable {α β ε σ : Type}

/-- A decoder of one frame from the front of a buffer. -/
abbrev Decoder (α β ε : Type) := List β → Except ε (Option (α × List β))

/-- `bs` is a complete, self-delimiting frame of the value `a`. -/
structure IsFrame (dec : Decoder α β ε) (a : α) (bs : List β) : Prop where
  complete : ∀ rest, dec (bs ++ rest) = .ok (some (a, rest))
  torn : ∀ t, t <+: bs → t ≠ bs → dec t = .ok none
  ne_nil : bs ≠ []

/-- Decode and handle frames until the buffer holds no complete one.  `total` is the length
of the whole input, so `total - buf.length` is the position of the frame at hand. -/
def foldFrames (dec : Decoder α β ε) (step : σ → Nat → α → Except ε σ) (total : Nat) :
    Nat → σ → List β → Except ε (σ × List β)
  | 0, s, buf => .ok (s, buf)
  | fuel + 1, s, buf =>
    match dec buf with
    | .error e => .error e
    | .ok none => .ok (s, buf)
    | .ok (some (a, rest)) =>
      match step s (total - buf.length) a with
      | .error e => .error e
      | .ok s' => foldFrames dec step total fuel s' rest

/-- The bytes of a list of frames. -/
def concatFrames (fs : List (α × List β)) : List β := fs.flatMap (·.2)

@[simp] theorem concatFrames_nil : concatFrames ([] : List (α × List β)) = [] := rfl

@[simp] theorem concatFrames_cons (f : α × List β) (fs : List (α × List β)) :
    concatFrames (f :: fs) = f.2 ++ concatFrames fs := by
  simp [concatFrames]

@[simp] theorem concatFrames_append (fs gs : List (α × List β)) :
    concatFrames (fs ++ gs) = concatFrames fs ++ concatFrames gs := by
  simp [concatFrames]

/-- The handler run over a list of frames, the first of them at position `pos`. -/
def foldSteps (step : σ → Nat → α → Except ε σ) : Nat → σ → List (α × List β) → Except ε σ
  | _, s, [] => .ok s
  | pos, s, f :: fs =>
    match step s pos f.1 with
    | .error e => .error e
    | .ok s' => foldSteps step (pos + f.2.length) s' fs

theorem foldSteps_append (step : σ → Nat → α → Except ε σ) (gs : List (α × List β)) :
    ∀ (fs : List (α × List β)) (pos : Nat) (s : σ), foldSteps step pos s (fs ++ gs) =
      match foldSteps step pos s fs with
      | .error e => .error e
      | .ok s' => foldSteps step (pos + (concatFrames fs).length) s' gs
  | [], pos, s => rfl
  | f :: fs, pos, s => by
    rw [List.cons_append, foldSteps, foldSteps]
    cases step s pos f.1 with
    | error e => rfl
    | ok s₁ =>
      simp only
      rw [foldSteps_append step gs fs, concatFrames_cons, List.length_append, Nat.add_assoc]

/-- **The decode loop over a concatenation of frames and an incomplete tail.** -/
theorem foldFrames_concat {dec : Decoder α β ε} (step : σ → Nat → α → Except ε σ) {t : List β}
    (ht : dec t = .ok none) :
    ∀ (fs : List (α × List β)) (fuel pos : Nat) (s s' : σ),
      (∀ f ∈ fs, IsFrame dec f.1 f.2) → fs.length < fuel →
      foldSteps step pos s fs = .ok s' →
      foldFrames dec step (pos + (concatFrames fs ++ t).length) fuel s (concatFrames fs ++ t) =
        .ok (s', t)
  | [], fuel, pos, s, s', _, hfuel, h => by
    cases h
    obtain ⟨n, rfl⟩ : ∃ n, fuel = n + 1 := ⟨fuel - 1, by simp at hfuel; omega⟩
    simp [foldFrames, ht]
  | f :: fs, fuel, pos, s, s', hf, hfuel, h => by
    obtain ⟨n, rfl⟩ : ∃ n, fuel = n + 1 := ⟨fuel - 1, by simp at hfuel; omega⟩
    simp only [foldSteps] at h
    split at h
    · cases h
    rename_i s₁ h₁
    have hdec := (hf f List.mem_cons_self).complete (concatFrames fs ++ t)
    have hbuf : concatFrames (f :: fs) ++ t = f.2 ++ (concatFrames fs ++ t) := by simp
    have hpos : pos + (f.2 ++ (concatFrames fs ++ t)).length -
        (f.2 ++ (concatFrames fs ++ t)).length = pos := by omega
    have htot : pos + (f.2 ++ (concatFrames fs ++ t)).length =
        pos + f.2.length + (concatFrames fs ++ t).length := by
      simp only [List.length_append]; omega
    rw [hbuf, foldFrames, hdec]
    simp only
    rw [hpos, h₁, htot]
    exact foldFrames_concat step ht fs n (pos + f.2.length) s₁ s'
      (fun g hg => hf g (List.mem_cons_of_mem _ hg)) (by simp at hfuel; omega) h

/-- Frames are non-empty, so a buffer has at least as many bytes as frames. -/
theorem length_le_concatFrames {dec : Decoder α β ε} :
    ∀ {fs : List (α × List β)}, (∀ f ∈ fs, IsFrame dec f.1 f.2) →
      fs.length ≤ (concatFrames fs).length
  | [], _ => by simp
  | f :: fs, h => by
    have hne : 0 < f.2.length := List.length_pos_iff.2 (h f List.mem_cons_self).ne_nil
    have ih := length_le_concatFrames (fun g hg => h g (List.mem_cons_of_mem _ hg))
    simp only [List.length_cons, concatFrames_cons, List.length_append]
    omega

/-- **A prefix of a concatenation of frames** is its first `k` frames and an incomplete tail that
ends before frame `k` does. -/
theorem prefix_concatFrames {dec : Decoder α β ε} (hnil : dec [] = .ok none) :
    ∀ {fs : List (α × List β)} {p : List β}, (∀ f ∈ fs, IsFrame dec f.1 f.2) →
      p <+: concatFrames fs →
      ∃ k t, k ≤ fs.length ∧ p = concatFrames (fs.take k) ++ t ∧ dec t = .ok none ∧
        (k < fs.length → p.length < (concatFrames (fs.take (k + 1))).length) ∧
        (k = fs.length → t = [])
  | [], p, _, hp => by
    have hp' : p = [] := List.prefix_nil.1 hp
    subst hp'
    exact ⟨0, [], Nat.le_refl _, rfl, hnil, fun h => absurd h (Nat.lt_irrefl _), fun _ => rfl⟩
  | f :: fs, p, hf, hp => by
    have hframe := hf f List.mem_cons_self
    rw [concatFrames_cons] at hp
    rcases Nat.lt_or_ge p.length f.2.length with hlt | hge
    · -- the prefix ends inside the first frame
      have hpf : p <+: f.2 := List.prefix_of_prefix_length_le hp (List.prefix_append _ _)
        (Nat.le_of_lt hlt)
      have hne : p ≠ f.2 := fun h => by rw [h] at hlt; exact Nat.lt_irrefl _ hlt
      refine ⟨0, p, Nat.zero_le _, rfl, hframe.torn p hpf hne, fun _ => ?_, fun h => by cases h⟩
      simpa using hlt
    · have hfp : f.2 <+: p := List.prefix_of_prefix_length_le (List.prefix_append _ _) hp hge
      obtain ⟨q, rfl⟩ := hfp
      have hq : q <+: concatFrames fs := (List.prefix_append_right_inj _).1 hp
      obtain ⟨k, t, hk, hqt, ht, hlen, hend⟩ :=
        prefix_concatFrames hnil (fun g hg => hf g (List.mem_cons_of_mem _ hg)) hq
      refine ⟨k + 1, t, Nat.succ_le_succ hk, ?_, ht, fun h => ?_, fun h => ?_⟩
      · rw [List.take_succ_cons, concatFrames_cons, List.append_assoc, ← hqt]
      · have := hlen (Nat.lt_of_succ_lt_succ h)
        rw [List.take_succ_cons, concatFrames_cons, List.length_append, List.length_append]
        omega
      · exact hend (Nat.succ.inj h)

end SevlaMq
