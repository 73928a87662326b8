import SevlaMq.Lib.Session
import SevlaMq.Protocol.EncoderErrors

/-!
# Calls of a client

A connection between `Client::request` of `crates/client/src/lib.rs` and `handle_connection` of
`crates/broker/src/lib.rs`, as a `Session`: what the client writes are requests, what comes back are
responses, and neither carries a number.  What the broker answers is left open.

* `requestChannel`, `responseChannel` — the encoder and the decoder of either direction.
* `calls_answered` — however the two streams are cut, the broker reads the requests as they were
  written, and a call returns the answer to its own request; no call waits for nothing.
-/

set_option autoImplicit false

namespace SevlaMq.Protocol

/-- `encode_response` into the write buffer of a connection, which is empty after each write. -/
def connectionResponse (writeBuffer : Bytes) (response : Response) :
    Except ProtocolError Bytes × Bytes :=
  match encodeResponse response writeBuffer with
  | (.error e, left) => (.error e, left)
  | (.ok (), written) => (.ok written, [])

/-- The decoder of the client accepts the response. -/
structure Response.Deliverable (r : Response) : Prop where
  fits : r.Fits
  acks : ∀ acks, r = .produceBatchAck acks → acks ≠ [] ∧ acks.length ≤ MAX_BATCH_MESSAGES

section Channels

variable {zstd : Zstd}

theorem clientRequest_arrives (hinverts : zstd.Inverts) {r : Request} {bs : Bytes}
    (h : (clientRequest zstd [] r).1 = .ok bs) (rest : Bytes) :
    decodeRequest zstd (bs ++ rest) = .ok (some (r, rest)) := by
  rw [clientRequest] at h
  split at h
  · cases h
  · rename_i written hencode
    cases h
    obtain ⟨body, rfl, hne, hmax, hread⟩ := encodeRequest_arrives hinverts hencode
    exact decodeFrame_append hne hmax hread rest

theorem connectionResponse_arrives {r : Response} (hr : r.Deliverable) {bs : Bytes}
    (h : (connectionResponse [] r).1 = .ok bs) (rest : Bytes) :
    decodeResponse (bs ++ rest) = .ok (some (r, rest)) := by
  rw [connectionResponse] at h
  split at h
  · cases h
  · rename_i written hencode
    cases h
    obtain ⟨header, body, -, rfl, hfits, hread⟩ := encodeResponse_delivered hr.acks hencode
    have hmax := hfits.2 hr.fits
    obtain ⟨hframe, hne, hbody⟩ := hread hmax
    rw [List.nil_append, hframe]
    exact decodeFrame_append hne hmax hbody rest

/-- From the client to the broker. -/
def requestChannel (hinverts : zstd.Inverts) : Channel Request UInt8 ProtocolError where
  write := clientRequest zstd
  decode := decodeRequest zstd
  Fits := Request.Short
  stable := decodeFrame_stable _
  arrives := fun _ h => clientRequest_arrives hinverts h

/-- From the broker to the client. -/
def responseChannel : Channel Response UInt8 ProtocolError where
  write := connectionResponse
  decode := decodeResponse
  Fits := Response.Deliverable
  stable := decodeFrame_stable _
  arrives := fun hr h => connectionResponse_arrives hr h

theorem requestChannel_tidy (hinverts : zstd.Inverts) (hcompact : zstd.Compact) :
    (requestChannel hinverts).Tidy := by
  intro r hr
  exact clientRequest_left_iff.2 ((encodeRequest_atomicAt_iff hcompact r).2 hr)

end Channels

/-- A connection of a client to a broker. -/
abbrev Connection := Session Request Response UInt8

/-- One step of either side. -/
def Connection.step {zstd : Zstd} (hinverts : zstd.Inverts) (s : Connection)
    (a : SessionAction Request Response) : Option Connection :=
  Session.step (requestChannel hinverts) responseChannel s a

/-- The request can be written without leaving anything behind, or the answer can be read. -/
def FitsConnection : SessionAction Request Response → Prop
  | .call req => req.Short
  | .answer res => res.Deliverable
  | _ => True

/-- **Every call returns the answer to its own request.**  The requests arrive as they were written,
and as long as no call was given up, the calls that returned are the first that were served, and the
one that waits can go on; and nothing but calls goes on for ever. -/
theorem calls_answered {zstd : Zstd} (hinverts : zstd.Inverts) (hcompact : zstd.Compact)
    {acts : List (SessionAction Request Response)} {s : Connection}
    (hfits : ∀ a ∈ acts, FitsConnection a)
    (h : run (Connection.step hinverts) Session.fresh acts = some s) :
    (s.served.map Prod.fst <+: s.asked ∧ s.returned.map Prod.snd <+: s.served.map Prod.snd ∧
      (∀ e, decodeRequest zstd s.serverBuffer ≠ .error e) ∧
      ∀ e, decodeResponse s.clientBuffer ≠ .error e) ∧
    (s.abandoned = false →
      s.returned <+: s.served ∧ s.served.length ≤ s.returned.length + 1 ∧
      ∀ req, s.waiting = some req →
        (s.step hinverts (.hear 1)).isSome ∨ (∀ res, (s.step hinverts (.answer res)).isSome) ∨
        (s.step hinverts (.read 1)).isSome ∨ (s.step hinverts .take).isSome ∨
        (s.step hinverts .lost).isSome) ∧
    ∀ (states : Nat → Connection) (more : Nat → SessionAction Request Response),
      ∃ i, ¬ (Session.Busy (more i) ∧
        (states i).step hinverts (more i) = some (states (i + 1))) := by
  have hfits' : ∀ a ∈ acts, Session.FitsAct (requestChannel hinverts) responseChannel a := by
    intro a ha
    have ha' := hfits a ha
    cases a with
    | call req => exact ha'
    | answer res => exact ha'
    | _ => trivial
  have hsound := Session.sound_run (requestChannel_tidy hinverts hcompact) hfits' h
  refine ⟨hsound.in_order, fun hkept => ?_, Session.busy_ends⟩
  obtain ⟨hpaired, hcount⟩ := hsound.answered_in_turn hkept
  exact ⟨hpaired, hcount, fun req hwaiting => hsound.waiting_moves hkept hwaiting⟩

theorem rawZstd_inverts : rawZstd.Inverts := by
  intro records encoded hcompress hsize
  cases hcompress
  simp [rawZstd, hsize]

theorem rawZstd_compact : rawZstd.Compact := by
  intro records encoded h _
  cases h
  simp

/-- Two calls: the first request comes in two pieces, the answer to the second in two more. -/
def twoCalls : List (SessionAction Request Response) :=
  [.call .listTopics, .hear 2, .hear 3, .answer (.topics []), .read 5, .read 4, .take,
    .call (.heartbeat ⟨"billing", "orders", "m1", 3⟩), .hear 34, .answer .groupAck, .read 3,
    .read 2, .take]

/-- The opcode of a request. -/
def Request.opcode (r : Request) : Option UInt8 := ((encodeRequest rawZstd r []).2.drop 4).head?

theorem twoCalls_end :
    (run (Connection.step rawZstd_inverts) Session.fresh twoCalls).map
      (fun s => (s.abandoned, s.returned.map fun p => (p.1.opcode, p.2))) =
    some (false, [(some 0x31, .topics []), (some 0x22, .groupAck)]) := by
  decide +kernel

theorem twoCalls_fit : ∀ a ∈ twoCalls, FitsConnection a := by
  have hshort : Request.Short (.heartbeat ⟨"billing", "orders", "m1", 3⟩) := by
    intro v hv
    simp only [List.mem_cons, List.not_mem_nil, or_false] at hv
    rcases hv with rfl | rfl | rfl
    · decide
    · decide
    · decide
  simp only [twoCalls, List.forall_mem_cons, FitsConnection, true_and]
  exact ⟨trivial, ⟨show 5 + _ ≤ _ by decide, fun _ hno => by cases hno⟩, hshort,
    ⟨trivial, fun _ hno => by cases hno⟩, by simp⟩

theorem calls_answered_heartbeat :
    ∃ s, run (Connection.step rawZstd_inverts) Session.fresh twoCalls = some s ∧
      s.returned.map (fun p => (p.1.opcode, p.2)) =
        [(some 0x31, .topics []), (some 0x22, .groupAck)] ∧
      s.returned <+: s.served ∧ s.served.length ≤ s.returned.length + 1 := by
  obtain ⟨s, hrun, hends⟩ := Option.map_eq_some_iff.1 twoCalls_end
  rw [Prod.mk.injEq] at hends
  obtain ⟨-, hkept, -⟩ := calls_answered rawZstd_inverts rawZstd_compact twoCalls_fit hrun
  obtain ⟨hpaired, hcount, -⟩ := hkept hends.1
  exact ⟨s, hrun, hends.2, hpaired, hcount⟩

/-- Who gives a call up must not make another one on the connection: it returns the answer to the
first. -/
example :
    (run (Connection.step rawZstd_inverts) Session.fresh
      [.call .listTopics, .giveUp, .call .clusterMetadata, .hear 10, .answer (.topics []), .read 9,
        .take]).map (fun s => s.returned.map fun p => (p.1.opcode, p.2)) =
    some [(some 0x40, .topics [])] := by
  decide +kernel

end SevlaMq.Protocol
