import SevlaMq.Lib.Framing

/-!
# Decoding a stream that arrives in pieces

Two loops around a stream decoder.  One reads a piece and then decodes all that is there
(`readLoop`); the other decodes first and reads a piece only when there is nothing to decode
(`receive`, `receiveMany`).

* `Stable dec` — more bytes change neither a value that was decoded nor an error.
* `drain_concatFrames` — frames and an incomplete tail give the values and leave the tail.
* `readLoop_eq_drain` — the first loop decodes the whole stream at once.
* `receiveMany_congr` — the second depends on the bytes only.
-/

set_option autoImplicit false

namespace SevlaMq

variable {α β ε : Type}

/-- What a decoder says about a buffer it still says when more bytes follow, unless it waits for
them. -/
structure Stable (dec : Decoder α β ε) : Prop where
  nil : dec [] = .ok none
  failed : ∀ {buf e}, dec buf = .error e → ∀ more, dec (buf ++ more) = .error e
  decoded : ∀ {buf a rest}, dec buf = .ok (some (a, rest)) →
    ∀ more, dec (buf ++ more) = .ok (some (a, rest ++ more))
  shrinks : ∀ {buf a rest}, dec buf = .ok (some (a, rest)) → rest.length < buf.length

/-- What a loop decoded, and the error that ended it or the bytes it left. -/
abbrev Decoded (α β ε : Type) := List α × Except ε (List β)

/-- One value more, before the others. -/
def Decoded.cons (a : α) (r : Decoded α β ε) : Decoded α β ε := (a :: r.1, r.2)

/-- Go on with the bytes that are left. -/
def Decoded.andThen (r : Decoded α β ε) (next : List β → Decoded α β ε) : Decoded α β ε :=
  match r.2 with
  | .error e => (r.1, .error e)
  | .ok rest => (r.1 ++ (next rest).1, (next rest).2)

theorem Decoded.cons_andThen (a : α) (r : Decoded α β ε) (next : List β → Decoded α β ε) :
    (r.cons a).andThen next = (r.andThen next).cons a := by
  obtain ⟨as, e | rest⟩ := r
  · rfl
  · rfl

/-- Decode until there is no complete value or an error; one unit of fuel per value. -/
def drainLoop (dec : Decoder α β ε) : Nat → List β → Decoded α β ε
  | 0, buf => ([], .ok buf)
  | fuel + 1, buf =>
    match dec buf with
    | .error e => ([], .error e)
    | .ok none => ([], .ok buf)
    | .ok (some (a, rest)) => (drainLoop dec fuel rest).cons a

/-- The loop with enough fuel: a value takes at least one byte. -/
def drain (dec : Decoder α β ε) (buf : List β) : Decoded α β ε :=
  drainLoop dec (buf.length + 1) buf

/-- Read a piece, decode all that is there, and so on; an empty piece is the end of the stream. -/
def readLoop (dec : Decoder α β ε) : List β → List (List β) → Decoded α β ε
  | buf, [] => ([], .ok buf)
  | buf, piece :: pieces =>
    if piece = [] then ([], .ok buf)
    else (drain dec (buf ++ piece)).andThen fun rest => readLoop dec rest pieces

section Drain

variable {dec : Decoder α β ε}

/-- More fuel than there are bytes changes nothing. -/
theorem drainLoop_fuel (hdec : Stable dec) :
    ∀ {fuel fuel' : Nat} {buf : List β}, buf.length < fuel → buf.length < fuel' →
      drainLoop dec fuel buf = drainLoop dec fuel' buf
  | 0, _, buf, h, _ => absurd h (Nat.not_lt_zero _)
  | _ + 1, 0, buf, _, h => absurd h (Nat.not_lt_zero _)
  | fuel + 1, fuel' + 1, buf, h, h' => by
    cases hbuf : dec buf with
    | error e => simp only [drainLoop, hbuf]
    | ok o =>
      cases o with
      | none => simp only [drainLoop, hbuf]
      | some p =>
        have hlt := hdec.shrinks hbuf
        simp only [drainLoop, hbuf]
        rw [drainLoop_fuel hdec (show p.2.length < fuel by omega)
          (show p.2.length < fuel' by omega)]

theorem drain_error {buf : List β} {e : ε} (h : dec buf = .error e) :
    drain dec buf = ([], .error e) := by
  simp only [drain, drainLoop, h]

theorem drain_none {buf : List β} (h : dec buf = .ok none) : drain dec buf = ([], .ok buf) := by
  simp only [drain, drainLoop, h]

theorem drain_some (hdec : Stable dec) {buf rest : List β} {a : α}
    (h : dec buf = .ok (some (a, rest))) : drain dec buf = (drain dec rest).cons a := by
  have hlt := hdec.shrinks h
  simp only [drain, drainLoop, h]
  rw [drainLoop_fuel hdec hlt (Nat.lt_succ_self _)]
  rfl

/-- The loop ends at an incomplete value. -/
theorem drain_rest (hdec : Stable dec) {buf rest : List β} {as : List α}
    (h : drain dec buf = (as, .ok rest)) : dec rest = .ok none := by
  induction hn : buf.length using Nat.strongRecOn generalizing buf as with
  | ind n ih =>
    cases hbuf : dec buf with
    | error e =>
      rw [drain_error hbuf] at h
      cases h
    | ok o =>
      cases o with
      | none =>
        rw [drain_none hbuf] at h
        cases h
        exact hbuf
      | some p =>
        rw [drain_some hdec hbuf] at h
        have hlt := hdec.shrinks hbuf
        have hrest : (drain dec p.2).2 = .ok rest := congrArg Prod.snd h
        have hdrain : drain dec p.2 = ((drain dec p.2).1, .ok rest) := Prod.ext rfl hrest
        exact ih p.2.length (by omega) hdrain rfl

theorem drainLoop_concatFrames {t : List β} (ht : dec t = .ok none) :
    ∀ {fs : List (α × List β)} {fuel : Nat}, (∀ f ∈ fs, IsFrame dec f.1 f.2) → fs.length < fuel →
      drainLoop dec fuel (concatFrames fs ++ t) = (fs.map Prod.fst, .ok t)
  | [], fuel + 1, _, _ => by
    simp [drainLoop, ht]
  | f :: fs, fuel + 1, hf, hfuel => by
    rw [List.length_cons] at hfuel
    have hdec := (hf f List.mem_cons_self).complete (concatFrames fs ++ t)
    have hrest := drainLoop_concatFrames ht (fun g hg => hf g (List.mem_cons_of_mem _ hg))
      (Nat.lt_of_succ_lt_succ hfuel)
    rw [concatFrames_cons, List.append_assoc, drainLoop, hdec]
    simp only
    rw [hrest]
    rfl

/-- **Draining frames and an incomplete tail** gives the values and leaves the tail. -/
theorem drain_concatFrames {fs : List (α × List β)} {t : List β}
    (hf : ∀ f ∈ fs, IsFrame dec f.1 f.2) (ht : dec t = .ok none) :
    drain dec (concatFrames fs ++ t) = (fs.map Prod.fst, .ok t) := by
  have hlen := length_le_concatFrames hf
  refine drainLoop_concatFrames ht hf ?_
  rw [List.length_append]
  omega

/-- **Draining a buffer and then what follows it** is draining both. -/
theorem drain_append (hdec : Stable dec) (buf more : List β) :
    drain dec (buf ++ more) = (drain dec buf).andThen fun rest => drain dec (rest ++ more) := by
  induction hn : buf.length using Nat.strongRecOn generalizing buf with
  | ind n ih =>
    cases hbuf : dec buf with
    | error e =>
      rw [drain_error hbuf, drain_error (hdec.failed hbuf more)]
      rfl
    | ok o =>
      cases o with
      | none =>
        rw [drain_none hbuf]
        rfl
      | some p =>
        have hlt := hdec.shrinks hbuf
        rw [drain_some hdec hbuf, drain_some hdec (hdec.decoded hbuf more),
          ih p.2.length (by omega) p.2 rfl, Decoded.cons_andThen]

/-- **Reading in pieces is draining the whole stream.** -/
theorem readLoop_eq_drain (hdec : Stable dec) {buf : List β} (hbuf : dec buf = .ok none)
    {pieces : List (List β)} (hne : ∀ piece ∈ pieces, piece ≠ []) :
    readLoop dec buf pieces = drain dec (buf ++ pieces.flatten) := by
  induction pieces generalizing buf with
  | nil =>
    rw [List.flatten_nil, List.append_nil, drain_none hbuf]
    rfl
  | cons piece pieces ih =>
    rw [readLoop, if_neg (hne piece List.mem_cons_self), List.flatten_cons, ← List.append_assoc,
      drain_append hdec (buf ++ piece)]
    cases hdrain : drain dec (buf ++ piece) with
    | mk as out =>
      cases out with
      | error e => rfl
      | ok rest =>
        have hrest := drain_rest hdec hdrain
        simp only [Decoded.andThen]
        rw [ih hrest fun p hp => hne p (List.mem_cons_of_mem _ hp)]

/-- The pieces do not matter, only their bytes. -/
theorem readLoop_congr (hdec : Stable dec) {pieces pieces' : List (List β)}
    (hne : ∀ piece ∈ pieces, piece ≠ []) (hne' : ∀ piece ∈ pieces', piece ≠ [])
    (h : pieces.flatten = pieces'.flatten) :
    readLoop dec [] pieces = readLoop dec [] pieces' := by
  rw [readLoop_eq_drain hdec hdec.nil hne, readLoop_eq_drain hdec hdec.nil hne', h]

end Drain

/-! ## Reading on demand -/

/-- What waiting for one value ends with. -/
inductive Received (α β ε : Type) where
  | failed (e : ε)
  | closed (buf : List β)
  | value (a : α) (buf : List β) (pieces : List (List β))

/-- Decode, and read a piece when there is no complete value. -/
def receive (dec : Decoder α β ε) : List β → List (List β) → Received α β ε
  | buf, [] =>
    match dec buf with
    | .error e => .failed e
    | .ok (some (a, rest)) => .value a rest []
    | .ok none => .closed buf
  | buf, piece :: pieces =>
    match dec buf with
    | .error e => .failed e
    | .ok (some (a, rest)) => .value a rest (piece :: pieces)
    | .ok none => if piece = [] then .closed buf else receive dec (buf ++ piece) pieces

/-- Wait for `n` values, up to the first error or the end of the stream; `none` if all of them
came. -/
def receiveMany (dec : Decoder α β ε) :
    Nat → List β → List (List β) → List α × Option (Except ε (List β))
  | 0, _, _ => ([], none)
  | n + 1, buf, pieces =>
    match receive dec buf pieces with
    | .failed e => ([], some (.error e))
    | .closed buf => ([], some (.ok buf))
    | .value a buf pieces =>
      let r := receiveMany dec n buf pieces
      (a :: r.1, r.2)

/-- **What one wait ends with**, from the bytes alone. -/
theorem receive_spec {dec : Decoder α β ε} (hdec : Stable dec) (buf : List β)
    {pieces : List (List β)} (hne : ∀ piece ∈ pieces, piece ≠ []) :
    match dec (buf ++ pieces.flatten) with
    | .error e => receive dec buf pieces = .failed e
    | .ok none => receive dec buf pieces = .closed (buf ++ pieces.flatten)
    | .ok (some (a, rest)) => ∃ buf' pieces', receive dec buf pieces = .value a buf' pieces' ∧
        buf' ++ pieces'.flatten = rest ∧ ∀ piece ∈ pieces', piece ≠ [] := by
  induction pieces generalizing buf with
  | nil =>
    rw [List.flatten_nil, List.append_nil]
    cases hbuf : dec buf with
    | error e => simp only [receive, hbuf]
    | ok o =>
      cases o with
      | none => simp only [receive, hbuf]
      | some p =>
        simp only [receive, hbuf]
        exact ⟨p.2, [], rfl, by simp, by simp⟩
  | cons piece pieces ih =>
    cases hbuf : dec buf with
    | error e => simp only [hdec.failed hbuf, receive, hbuf]
    | ok o =>
      cases o with
      | none =>
        simp only [receive, hbuf, if_neg (hne piece List.mem_cons_self), List.flatten_cons]
        rw [← List.append_assoc]
        exact ih (buf ++ piece) fun p hp => hne p (List.mem_cons_of_mem _ hp)
      | some p =>
        simp only [hdec.decoded hbuf, receive, hbuf]
        exact ⟨p.2, piece :: pieces, rfl, rfl, hne⟩

/-- The pieces do not matter, only the bytes that were not decoded yet. -/
theorem receiveMany_congr {dec : Decoder α β ε} (hdec : Stable dec) :
    ∀ (n : Nat) {buf buf' : List β} {pieces pieces' : List (List β)},
      (∀ piece ∈ pieces, piece ≠ []) → (∀ piece ∈ pieces', piece ≠ []) →
      buf ++ pieces.flatten = buf' ++ pieces'.flatten →
      receiveMany dec n buf pieces = receiveMany dec n buf' pieces'
  | 0, _, _, _, _, _, _, _ => rfl
  | n + 1, buf, buf', pieces, pieces', hne, hne', h => by
    have hspec := receive_spec hdec buf hne
    have hspec' := receive_spec hdec buf' hne'
    rw [← h] at hspec'
    cases hbuf : dec (buf ++ pieces.flatten) with
    | error e =>
      simp only [hbuf] at hspec hspec'
      simp only [receiveMany, hspec, hspec']
    | ok o =>
      cases o with
      | none =>
        simp only [hbuf] at hspec hspec'
        simp only [receiveMany, hspec, hspec']
      | some p =>
        simp only [hbuf] at hspec hspec'
        obtain ⟨rest, pieces₁, hrec, hrest, hne₁⟩ := hspec
        obtain ⟨rest', pieces₁', hrec', hrest', hne₁'⟩ := hspec'
        have ih := receiveMany_congr hdec n hne₁ hne₁' (hrest.trans hrest'.symm)
        simp only [receiveMany, hrec, hrec', ih]

end SevlaMq
