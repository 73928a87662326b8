import Mathlib.Order.WellFounded
import Mathlib.Data.Prod.Lex
import SevlaMq.Lib.Run
import SevlaMq.Lib.Stream

/-!
# Calls over two byte streams

A client writes a request, waits for the response and returns it; a server reads requests and
writes a response to each.  Both streams hand their bytes over in pieces of any size.  Responses
carry no number: that a response belongs to the call that returns it is a matter of order only.

* `Channel` — how values of one kind are written to a stream and read from it.
* `Session.step` — the calls, the reads of both sides, the answers, and what ends them early.
* `Session.Sound` — the invariant: what a buffer and its stream hold are the messages that were
  written and not read.
* `answered_in_turn` — a call that returns has the answer to its own request.
* `waiting_moves` — a call waits for something that can happen.
-/

set_option autoImplicit false

namespace SevlaMq

/-- How values are written to a stream and read from it.  `write` puts a value behind what the
buffer holds: the bytes that go out, and what stays in the buffer. -/
structure Channel (α β ε : Type) where
  write : List β → α → Except ε (List β) × List β
  decode : Decoder α β ε
  Fits : α → Prop
  stable : Stable decode
  arrives : ∀ {a bs}, Fits a → (write [] a).1 = .ok bs →
    ∀ rest, decode (bs ++ rest) = .ok (some (a, rest))

namespace Channel

variable {α β ε : Type} {c : Channel α β ε}

/-- No value that fits leaves anything in the buffer, whether it was written or refused. -/
def Tidy (c : Channel α β ε) : Prop := ∀ a, c.Fits a → (c.write [] a).2 = []

/-- The bytes are those of the values, one behind the other. -/
inductive Carries (c : Channel α β ε) : List α → List β → Prop
  | nil : Carries c [] []
  | cons {a as bs rest} : c.Fits a → (c.write [] a).1 = .ok bs → Carries c as rest →
      Carries c (a :: as) (bs ++ rest)

theorem Carries.snoc {as : List α} {bytes : List β} (h : c.Carries as bytes) {a : α} {bs : List β}
    (hfits : c.Fits a) (hwrite : (c.write [] a).1 = .ok bs) :
    c.Carries (as ++ [a]) (bytes ++ bs) := by
  induction h with
  | nil =>
    rw [List.nil_append, List.nil_append, ← List.append_nil bs]
    exact .cons hfits hwrite .nil
  | cons hfits' hwrite' _ ih =>
    rw [List.cons_append, List.append_assoc]
    exact .cons hfits' hwrite' ih

/-- **What a buffer says when the rest of its bytes is still on the way**: nothing yet, or the first
value. -/
theorem Carries.decode {as : List α} {buf more : List β} (h : c.Carries as (buf ++ more)) :
    c.decode buf = .ok none ∨
      ∃ a as' rest, as = a :: as' ∧ c.decode buf = .ok (some (a, rest)) ∧
        c.Carries as' (rest ++ more) := by
  generalize hbytes : buf ++ more = bytes at h
  cases h with
  | nil =>
    rw [(List.append_eq_nil_iff.1 hbytes).1]
    exact Or.inl c.stable.nil
  | @cons a as' bs rest hfits hwrite hrest =>
    have hwhole := c.arrives hfits hwrite rest
    rw [← hbytes] at hwhole
    cases hbuf : c.decode buf with
    | error e =>
      rw [c.stable.failed hbuf more] at hwhole
      cases hwhole
    | ok o =>
      cases o with
      | none => exact Or.inl rfl
      | some p =>
        obtain ⟨a', rest'⟩ := p
        rw [c.stable.decoded hbuf more] at hwhole
        cases hwhole
        exact Or.inr ⟨a, as', rest', rfl, rfl, hrest⟩

/-- When all the bytes are there, so is a value. -/
theorem Carries.complete {a : α} {as : List α} {buf : List β} (h : c.Carries (a :: as) buf) :
    ∃ rest, c.decode buf = .ok (some (a, rest)) := by
  cases h with
  | @cons _ _ bs rest hfits hwrite _ => exact ⟨rest, c.arrives hfits hwrite rest⟩

/-- The buffer decodes to a value only when one was written. -/
theorem Carries.decoded {as : List α} {buf more rest : List β} {a : α}
    (h : c.Carries as (buf ++ more)) (hbuf : c.decode buf = .ok (some (a, rest))) :
    ∃ as', as = a :: as' ∧ c.Carries as' (rest ++ more) := by
  obtain hnone | ⟨a', as', rest', rfl, hsome, hrest⟩ := h.decode
  · rw [hbuf] at hnone
    cases hnone
  · rw [hbuf] at hsome
    cases hsome
    exact ⟨as', rfl, hrest⟩

end Channel

/-! ## The two sides -/

/-- A connection.  `asked`, `served` and `returned` record what has happened: the requests that were
written, the answers with their requests, and the responses with the requests of the calls that
returned them. -/
structure Session (Req Res β : Type) where
  writeBuffer : List β
  upstream : List β
  serverBuffer : List β
  downstream : List β
  clientBuffer : List β
  waiting : Option Req
  closed : Bool
  abandoned : Bool
  asked : List Req
  served : List (Req × Res)
  returned : List (Req × Res)

/-- What can happen.  A read brings `n` bytes; `close` ends the server's side, also where it fails;
`giveUp` is a caller that does not wait any longer, and `lost` one that finds the stream ended. -/
inductive SessionAction (Req Res : Type) where
  | call (req : Req)
  | hear (n : Nat)
  | answer (res : Res)
  | close
  | read (n : Nat)
  | take
  | giveUp
  | lost

namespace Session

variable {Req Res β ε ε' : Type}

def fresh : Session Req Res β := ⟨[], [], [], [], [], none, false, false, [], [], []⟩

/-- One step.  The server reads when its buffer holds no complete request, and so does the client,
as long as it waits. -/
def step (requests : Channel Req β ε) (responses : Channel Res β ε')
    (s : Session Req Res β) : SessionAction Req Res → Option (Session Req Res β)
  | .call req =>
    match s.waiting with
    | some _ => none
    | none =>
      match requests.write s.writeBuffer req with
      | (.error _, left) => some { s with writeBuffer := left }
      | (.ok bs, left) =>
        some { s with
          writeBuffer := left
          upstream := s.upstream ++ bs
          waiting := some req
          asked := s.asked ++ [req] }
  | .hear n =>
    match requests.decode s.serverBuffer with
    | .ok none =>
      if s.closed = false ∧ 0 < n ∧ n ≤ s.upstream.length then
        some { s with
          serverBuffer := s.serverBuffer ++ s.upstream.take n
          upstream := s.upstream.drop n }
      else none
    | _ => none
  | .answer res =>
    match requests.decode s.serverBuffer with
    | .ok (some (req, rest)) =>
      if s.closed then none else
        match (responses.write [] res).1 with
        | .error _ => some { s with closed := true }
        | .ok bs =>
          some { s with
            serverBuffer := rest
            downstream := s.downstream ++ bs
            served := s.served ++ [(req, res)] }
    | _ => none
  | .close => if s.closed then none else some { s with closed := true }
  | .read n =>
    match s.waiting, responses.decode s.clientBuffer with
    | some _, .ok none =>
      if 0 < n ∧ n ≤ s.downstream.length then
        some { s with
          clientBuffer := s.clientBuffer ++ s.downstream.take n
          downstream := s.downstream.drop n }
      else none
    | _, _ => none
  | .take =>
    match s.waiting, responses.decode s.clientBuffer with
    | some req, .ok (some (res, rest)) =>
      some { s with
        clientBuffer := rest
        waiting := none
        returned := s.returned ++ [(req, res)] }
    | _, _ => none
  | .giveUp =>
    match s.waiting with
    | none => none
    | some _ => some { s with waiting := none, abandoned := true }
  | .lost =>
    match s.waiting, responses.decode s.clientBuffer with
    | some _, .ok none =>
      if s.closed ∧ s.downstream = [] then some { s with waiting := none } else none
    | _, _ => none

/-- The messages that are written fit. -/
def FitsAct (requests : Channel Req β ε) (responses : Channel Res β ε') :
    SessionAction Req Res → Prop
  | .call req => requests.Fits req
  | .answer res => responses.Fits res
  | _ => True

/-! ## The invariant -/

/-- Every message that was written is read, or in a buffer or a stream, in the order in which it was
written.  As long as no caller gave up, a call is under way exactly when one more request was
written than returned, unless the stream ended. -/
structure Sound (requests : Channel Req β ε) (responses : Channel Res β ε')
    (s : Session Req Res β) : Prop where
  clear : s.writeBuffer = []
  sent : ∃ reqs, s.asked = s.served.map Prod.fst ++ reqs ∧
    requests.Carries reqs (s.serverBuffer ++ s.upstream)
  replied : ∃ ress, s.served.map Prod.snd = s.returned.map Prod.snd ++ ress ∧
    responses.Carries ress (s.clientBuffer ++ s.downstream)
  paired : s.abandoned = false → s.returned <+: s.served
  turn : s.abandoned = false →
    s.asked = s.returned.map Prod.fst ++ s.waiting.toList ∨
      s.closed = true ∧ s.served.length = s.returned.length

variable {requests : Channel Req β ε} {responses : Channel Res β ε'} {s s' : Session Req Res β}

theorem sound_fresh : (fresh : Session Req Res β).Sound requests responses where
  clear := rfl
  sent := ⟨[], rfl, .nil⟩
  replied := ⟨[], rfl, .nil⟩
  paired := fun _ => List.prefix_rfl
  turn := fun _ => Or.inl rfl

/-- **What is answered while a call waits is its own request**, and nothing else is on the way. -/
theorem Sound.own (h : s.Sound requests responses) (hkept : s.abandoned = false) {req : Req}
    (hwaiting : s.waiting = some req) {res : Res} {ress : List Res}
    (hress : s.served.map Prod.snd = s.returned.map Prod.snd ++ res :: ress) :
    s.served = s.returned ++ [(req, res)] := by
  obtain ⟨reqs, hasked, -⟩ := h.sent
  obtain ⟨more, hmore⟩ := h.paired hkept
  have hlen := congrArg List.length hress
  simp only [List.length_map, List.length_append, List.length_cons] at hlen
  rcases h.turn hkept with hturn | ⟨-, hend⟩
  · rw [hwaiting, hasked, ← hmore, List.map_append, List.append_assoc] at hturn
    rw [← hmore, List.map_append] at hress
    have hreqs := List.append_cancel_left hturn
    have hanswers := List.append_cancel_left hress
    -- `more` is one pair: its request is the one at hand, its answer the first that is pending
    cases more with
    | nil => cases hanswers
    | cons p more =>
      simp only [List.map_cons, List.cons_append, Option.toList_some, List.cons.injEq,
        List.append_eq_nil_iff, List.map_eq_nil_iff] at hreqs hanswers
      obtain ⟨hfst, rfl, -⟩ := hreqs
      rw [← hmore, ← hfst, ← hanswers.1]
  · omega

section Steps

variable (h : s.Sound requests responses)

include h in
theorem Sound.call {req : Req} (hfits : requests.Fits req) (htidy : requests.Tidy)
    (hs : s.step requests responses (.call req) = some s') : s'.Sound requests responses := by
  have hleft := htidy req hfits
  simp only [step, h.clear] at hs
  split at hs
  · cases hs
  rename_i hidle
  split at hs
  · rename_i e left hwrite
    rw [hwrite] at hleft
    cases hs
    exact ⟨hleft, h.sent, h.replied, h.paired, h.turn⟩
  · rename_i bs left hwrite
    rw [hwrite] at hleft
    cases hs
    obtain ⟨reqs, hasked, hcarries⟩ := h.sent
    refine ⟨hleft, ⟨reqs ++ [req], ?_, ?_⟩, h.replied, h.paired, fun hkept => ?_⟩
    · rw [hasked, List.append_assoc]
    · rw [← List.append_assoc]
      exact hcarries.snoc hfits (congrArg Prod.fst hwrite)
    · rcases h.turn hkept with hturn | hend
      · left
        rw [hturn, hidle, Option.toList_none, List.append_nil, Option.toList_some]
      · exact Or.inr hend

include h in
theorem Sound.hear {n : Nat} (hs : s.step requests responses (.hear n) = some s') :
    s'.Sound requests responses := by
  simp only [step] at hs
  split at hs
  · split at hs
    · cases hs
      obtain ⟨reqs, hasked, hcarries⟩ := h.sent
      refine ⟨h.clear, ⟨reqs, hasked, ?_⟩, h.replied, h.paired, h.turn⟩
      rwa [List.append_assoc, List.take_append_drop]
    · cases hs
  · cases hs

include h in
theorem Sound.answer {res : Res} (hfits : responses.Fits res)
    (hs : s.step requests responses (.answer res) = some s') : s'.Sound requests responses := by
  simp only [step] at hs
  split at hs
  · rename_i req rest hbuf
    split at hs
    · cases hs
    rename_i hopen
    split at hs
    · cases hs
      exact ⟨h.clear, h.sent, h.replied, h.paired, fun hkept =>
        (h.turn hkept).imp id fun hend => absurd hend.1 hopen⟩
    · rename_i bs hwrite
      cases hs
      obtain ⟨reqs, hasked, hcarries⟩ := h.sent
      obtain ⟨reqs', rfl, hrest⟩ := hcarries.decoded hbuf
      obtain ⟨ress, hserved, hpending⟩ := h.replied
      refine ⟨h.clear, ⟨reqs', ?_, hrest⟩, ⟨ress ++ [res], ?_, ?_⟩, fun hkept => ?_,
        fun hkept => ?_⟩
      · rw [hasked, List.map_append, List.append_assoc]
        rfl
      · rw [List.map_append, hserved, List.append_assoc]
        rfl
      · rw [← List.append_assoc]
        exact hpending.snoc hfits hwrite
      · exact (h.paired hkept).trans (List.prefix_append _ _)
      · exact (h.turn hkept).imp id fun hend => absurd hend.1 hopen
  · cases hs

include h in
theorem Sound.close (hs : s.step requests responses .close = some s') :
    s'.Sound requests responses := by
  simp only [step] at hs
  split at hs
  · cases hs
  · cases hs
    exact ⟨h.clear, h.sent, h.replied, h.paired, fun hkept =>
      (h.turn hkept).imp id fun hend => ⟨rfl, hend.2⟩⟩

include h in
theorem Sound.read {n : Nat} (hs : s.step requests responses (.read n) = some s') :
    s'.Sound requests responses := by
  simp only [step] at hs
  split at hs
  · split at hs
    · cases hs
      obtain ⟨ress, hserved, hpending⟩ := h.replied
      refine ⟨h.clear, h.sent, ⟨ress, hserved, ?_⟩, h.paired, h.turn⟩
      rwa [List.append_assoc, List.take_append_drop]
    · cases hs
  · cases hs

include h in
theorem Sound.take (hs : s.step requests responses .take = some s') :
    s'.Sound requests responses := by
  simp only [step] at hs
  split at hs
  · rename_i req res rest hwaiting hbuf
    cases hs
    obtain ⟨ress, hserved, hpending⟩ := h.replied
    obtain ⟨ress', rfl, hrest⟩ := hpending.decoded hbuf
    refine ⟨h.clear, h.sent, ⟨ress', ?_, hrest⟩, fun hkept => ?_, fun hkept => ?_⟩
    · rw [hserved, List.map_append, List.append_assoc]
      rfl
    · exact ⟨[], by rw [List.append_nil, h.own hkept hwaiting hserved]⟩
    · rcases h.turn hkept with hturn | ⟨hclosed, -⟩
      · left
        rw [hturn, hwaiting]
        simp
      · refine Or.inr ⟨hclosed, congrArg List.length (h.own hkept hwaiting hserved)⟩
  · cases hs

include h in
theorem Sound.giveUp (hs : s.step requests responses .giveUp = some s') :
    s'.Sound requests responses := by
  simp only [step] at hs
  split at hs
  · cases hs
  · cases hs
    exact ⟨h.clear, h.sent, h.replied, fun hno => (Bool.noConfusion hno),
      fun hno => (Bool.noConfusion hno)⟩

include h in
/-- A stream that ended without a response has delivered all of them. -/
theorem Sound.lost (hs : s.step requests responses .lost = some s') :
    s'.Sound requests responses := by
  simp only [step] at hs
  split at hs
  · rename_i req hwaiting hbuf
    split at hs
    · rename_i hend
      cases hs
      obtain ⟨ress, hserved, hpending⟩ := h.replied
      refine ⟨h.clear, h.sent, h.replied, h.paired, fun _ => Or.inr ⟨hend.1, ?_⟩⟩
      cases ress with
      | nil => simpa using congrArg List.length hserved
      | cons res ress =>
        rw [hend.2, List.append_nil] at hpending
        obtain ⟨rest, hsome⟩ := hpending.complete
        rw [hbuf] at hsome
        cases hsome
    · cases hs
  · cases hs

end Steps

/-- **Every step keeps the invariant.** -/
theorem sound_step (htidy : requests.Tidy) {a : SessionAction Req Res}
    (h : s.Sound requests responses) (hfits : FitsAct requests responses a)
    (hs : s.step requests responses a = some s') : s'.Sound requests responses := by
  cases a with
  | call req => exact h.call hfits htidy hs
  | hear n => exact h.hear hs
  | answer res => exact h.answer hfits hs
  | close => exact h.close hs
  | read n => exact h.read hs
  | take => exact h.take hs
  | giveUp => exact h.giveUp hs
  | lost => exact h.lost hs

theorem sound_run (htidy : requests.Tidy) {acts : List (SessionAction Req Res)}
    (hfits : ∀ a ∈ acts, FitsAct requests responses a)
    (h : SevlaMq.run (step requests responses) fresh acts = some s) :
    s.Sound requests responses := by
  refine run_invariant (fun s a s' hp hq hs => ?_) sound_fresh (Along.of_mem hfits) h
  exact sound_step htidy hp hq hs

/-! ## What the invariant says -/

/-- **Both sides read what was written, in order**, and neither meets an error. -/
theorem Sound.in_order (h : s.Sound requests responses) :
    s.served.map Prod.fst <+: s.asked ∧
    s.returned.map Prod.snd <+: s.served.map Prod.snd ∧
    (∀ e, requests.decode s.serverBuffer ≠ .error e) ∧
    ∀ e, responses.decode s.clientBuffer ≠ .error e := by
  obtain ⟨reqs, hasked, hcarries⟩ := h.sent
  obtain ⟨ress, hserved, hpending⟩ := h.replied
  refine ⟨⟨reqs, hasked.symm⟩, ⟨ress, hserved.symm⟩, fun e he => ?_, fun e he => ?_⟩
  · rcases hcarries.decode with hnone | ⟨_, _, _, _, hsome, _⟩
    · rw [hnone] at he
      cases he
    · rw [hsome] at he
      cases he
  · rcases hpending.decode with hnone | ⟨_, _, _, _, hsome, _⟩
    · rw [hnone] at he
      cases he
    · rw [hsome] at he
      cases he

/-- **A call that returns has the answer to its own request**, as long as no caller gave up: the
calls that returned are the first that were served, and at most one was served beyond them. -/
theorem Sound.answered_in_turn (h : s.Sound requests responses) (hkept : s.abandoned = false) :
    s.returned <+: s.served ∧ s.served.length ≤ s.returned.length + 1 := by
  refine ⟨h.paired hkept, ?_⟩
  obtain ⟨reqs, hasked, -⟩ := h.sent
  rcases h.turn hkept with hturn | hend
  · have hlen := congrArg List.length (hturn.symm.trans hasked)
    simp only [List.length_append, List.length_map] at hlen
    have hwaiting : s.waiting.toList.length ≤ 1 := by
      cases s.waiting with
      | none => exact Nat.zero_le _
      | some req => exact Nat.le_refl _
    omega
  · omega

/-- **A call waits for something that can happen**: bytes on their way, a request that was read, a
response that was read, or the end of the stream. -/
theorem Sound.waiting_moves (h : s.Sound requests responses) (hkept : s.abandoned = false)
    {req : Req} (hwaiting : s.waiting = some req) :
    (s.step requests responses (.hear 1)).isSome ∨
    (∀ res, (s.step requests responses (.answer res)).isSome) ∨
    (s.step requests responses (.read 1)).isSome ∨
    (s.step requests responses .take).isSome ∨
    (s.step requests responses .lost).isSome := by
  obtain ⟨reqs, hasked, hcarries⟩ := h.sent
  obtain ⟨ress, hserved, hpending⟩ := h.replied
  -- the client has a response, or bytes of one are on the way
  rcases hpending.decode with hnone | ⟨res, _, rest, _, hsome, _⟩
  swap
  · refine Or.inr (Or.inr (Or.inr (Or.inl ?_)))
    simp only [step, hwaiting, hsome, Option.isSome_some]
  cases hdown : s.downstream with
  | cons b more =>
    refine Or.inr (Or.inr (Or.inl ?_))
    simp [step, hwaiting, hnone, hdown]
  | nil =>
    cases hclosed : s.closed with
    | true =>
      refine Or.inr (Or.inr (Or.inr (Or.inr ?_)))
      simp [step, hwaiting, hnone, hclosed, hdown]
    | false =>
      -- nothing was answered beyond what was returned, so the request was not read
      rcases h.turn hkept with hturn | hend
      swap
      · rw [hclosed] at hend
        cases hend.1
      have hress : ress = [] := by
        cases ress with
        | nil => rfl
        | cons res ress =>
          rw [hdown, List.append_nil] at hpending
          obtain ⟨rest, hsome⟩ := hpending.complete
          rw [hnone] at hsome
          cases hsome
      have hlen := congrArg List.length hserved
      have hlen' := congrArg List.length (hturn.symm.trans hasked)
      simp only [hress, hwaiting, List.length_append, List.length_map, List.length_nil,
        Option.toList_some, List.length_cons] at hlen hlen'
      rcases hcarries.decode with hwait | ⟨req', _, rest, _, hsome, _⟩
      · left
        cases hup : s.upstream with
        | cons b more => simp [step, hwait, hclosed, hup]
        | nil =>
          cases reqs with
          | nil =>
            rw [List.length_nil] at hlen'
            omega
          | cons req' reqs =>
            rw [hup, List.append_nil] at hcarries
            obtain ⟨rest, hsome⟩ := hcarries.complete
            rw [hwait] at hsome
            cases hsome
      · refine Or.inr (Or.inl fun res => ?_)
        simp only [step, hsome, hclosed, Bool.false_eq_true, if_false]
        split
        · rfl
        · rfl

/-- What goes on while a call waits. -/
def Busy : SessionAction Req Res → Prop
  | .hear _ => True
  | .answer _ => True
  | .close => True
  | .read _ => True
  | _ => False

/-- What is left to read for the server, and what is left on the way. -/
def work (s : Session Req Res β) : Nat ×ₗ Nat :=
  toLex (s.serverBuffer.length + s.upstream.length + (if s.closed then 0 else 1),
    s.upstream.length + s.downstream.length)

/-- **The work gets less**: an answer makes the stream to the client longer, but the server has one
request less to read. -/
theorem work_decreases {a : SessionAction Req Res} (hbusy : Busy a)
    (hs : s.step requests responses a = some s') : s'.work < s.work := by
  rw [work, work, Prod.Lex.toLex_lt_toLex]
  cases a with
  | hear n =>
    simp only [step] at hs
    split at hs
    · split at hs
      · rename_i hn
        cases hs
        refine Or.inr ⟨?_, ?_⟩
        · simp only [List.length_append, List.length_take, List.length_drop]
          omega
        · simp only [List.length_drop]
          omega
      · cases hs
    · cases hs
  | answer res =>
    simp only [step] at hs
    split at hs
    · rename_i hbuf
      have hlt := requests.stable.shrinks hbuf
      split at hs
      · cases hs
      rename_i hopen
      split at hs
      · cases hs
        left
        simp [hopen]
      · cases hs
        left
        simp only
        omega
    · cases hs
  | read n =>
    simp only [step] at hs
    split at hs
    · split at hs
      · rename_i hn
        cases hs
        refine Or.inr ⟨rfl, ?_⟩
        simp only [List.length_drop]
        omega
      · cases hs
    · cases hs
  | close =>
    simp only [step] at hs
    split at hs
    · cases hs
    · rename_i hopen
      cases hs
      left
      simp [hopen]
  | call req => cases hbusy
  | take => cases hbusy
  | giveUp => cases hbusy
  | lost => cases hbusy

/-- **Nobody reads and answers for ever**: sooner or later a call returns, is given up or a new one
is made. -/
theorem busy_ends (states : Nat → Session Req Res β) (acts : Nat → SessionAction Req Res) :
    ∃ i, ¬ (Busy (acts i) ∧
      (states i).step requests responses (acts i) = some (states (i + 1))) := by
  obtain ⟨i, hi⟩ := @WellFounded.not_rel_apply_succ _ (· < ·) _ fun i => (states i).work
  exact ⟨i, fun ⟨hbusy, hs⟩ => hi (work_decreases hbusy hs)⟩

end Session

end SevlaMq
