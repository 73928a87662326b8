import SevlaMq.Consumer.RetryProducer
import SevlaMq.Protocol.Replicate
import SevlaMq.Protocol.RequestRoundTrip

/-!
# Handling what a client has published

The consumer takes a record for an envelope when it starts with the bytes of `MAGIC`, and an envelope
has to find room in a message.  Neither is checked when the record is published.

* `Published` — topic, key and payload of a record that a request of the client carries.
* `Handled` — the record is seen as it was published, and when the handler fails there is a request
  for the retry topic.
* `handled_iff` — a published record is handled exactly when its payload does not start with `MAGIC`
  and message and topic name leave room for what the consumer adds.
-/

set_option autoImplicit false

namespace SevlaMq.Consumer

open SevlaMq.Storage (Checksum utf8 utf8_eq_flatMap)
open SevlaMq.Protocol (FetchedRecord ProduceRequest ProduceBatchRequest BatchRecord nonEmpty
  validateTopic validateProduce validateSize MAX_MESSAGE_SIZE MAX_KEY_SIZE MAX_TOPIC_NAME)

/-- Topic, key and payload of a record that a client has sent in a request. -/
inductive Published : String → Bytes → Bytes → Prop
  | produce (r : ProduceRequest) : Published r.topic r.key r.payload
  | produceBatch (r : ProduceBatchRequest) {record : BatchRecord} (h : record ∈ r.records) :
      Published r.topic record.key record.payload

theorem Published.limits {topic : String} {key payload : Bytes} (h : Published topic key payload) :
    validateTopic topic = .ok () ∧ key.length ≤ MAX_KEY_SIZE ∧
      payload.length ≤ MAX_MESSAGE_SIZE := by
  cases h with
  | produce r =>
    obtain ⟨htopic, hkey, hpayload, _⟩ := r.limits
    exact ⟨htopic, hkey, hpayload⟩
  | produceBatch r hmem =>
    obtain ⟨htopic, _, _, hall, _⟩ := r.limits
    obtain ⟨hkey, hpayload⟩ := hall _ hmem
    exact ⟨htopic, hkey, hpayload⟩

/-! ## The context -/

/-- What is decoded from a record is smaller than the record. -/
theorem decodeEnvelope_payload {record : FetchedRecord} {decoded : MessageContext}
    (h : decodeEnvelope record = .ok decoded) :
    decoded.payload.length + ENVELOPE_HEADER_SIZE ≤ record.value.length := by
  have hheader : ENVELOPE_HEADER_SIZE = 48 := rfl
  have hmagic : MAGIC.length = 4 := rfl
  unfold decodeEnvelope at h
  split at h
  · cases h
  rename_i hlong
  dsimp only [getUInt] at h
  split at h
  · cases h
  split at h
  · cases h
  · cases h
    simp only [List.length_take, List.length_drop]
    omega

/-- A record is seen as it was published unless it looks like an envelope. -/
theorem context_eq_iff {topic : String} {partition : UInt32} {offset timestampMs : UInt64}
    {key payload : Bytes} :
    context topic partition ⟨offset, timestampMs, nonEmpty key, payload⟩ =
        .ok ⟨topic, partition, offset, timestampMs, 0, 0, key, payload⟩ ↔
      MAGIC.isPrefixOf payload = false := by
  unfold context
  constructor
  · intro h
    by_contra hmagic
    rw [if_pos (by simpa using hmagic)] at h
    have hshorter := decodeEnvelope_payload h
    have hheader : ENVELOPE_HEADER_SIZE = 48 := rfl
    simp only at hshorter
    omega
  · intro hmagic
    have hkey : (nonEmpty key).getD [] = key := by
      unfold nonEmpty
      split
      · rename_i hnil
        rw [hnil]
        rfl
      · rfl
    rw [if_neg (by simp [hmagic]), hkey]

/-! ## The request for the retry topic -/

/-- What the topic of a first failure adds to the original one. -/
def destinationSuffix : List UInt64 → String
  | [] => ".DLQ"
  | delay :: _ => ".retry." ++ formatDelay delay

theorem destination_first (topic : String) (delays : List UInt64) :
    destination topic delays 0 = topic ++ destinationSuffix delays := by
  cases delays with
  | nil => rfl
  | cons delay rest =>
    simp only [destination, destinationSuffix, List.getElem?_cons_zero, String.append_assoc]

theorem destinationSuffix_dot (delays : List UInt64) :
    ∃ rest, utf8 (destinationSuffix delays) = 46 :: rest := by
  cases delays with
  | nil => exact ⟨_, (by decide : utf8 ".DLQ" = [46, 68, 76, 81])⟩
  | cons delay rest =>
    rw [destinationSuffix, utf8_append, (by decide : utf8 ".retry." = [46, 114, 101, 116, 114, 121, 46])]
    exact ⟨_, rfl⟩

/-- A suffix after a dot makes no other name invalid; it only makes it longer. -/
theorem validateTopic_append {topic suffix : String} {rest : Bytes}
    (h : validateTopic topic = .ok ()) (hsuffix : utf8 suffix = 46 :: rest) :
    validateTopic (topic ++ suffix) = .ok () ↔
      (utf8 topic).length + (utf8 suffix).length ≤ MAX_TOPIC_NAME := by
  have hname : ∀ t, validateTopic t = .ok () ↔
      (utf8 t).length ≤ MAX_TOPIC_NAME ∧ ¬ (utf8 t = [] ∨ utf8 "__" <+: utf8 t) := by
    intro t
    unfold validateTopic
    split
    · rename_i hsize
      unfold validateSize at hsize
      split at hsize
      · rename_i hlong
        simp only [reduceCtorEq, false_iff, not_and]
        intro hshort
        exact absurd hshort (Nat.not_le.2 hlong)
      · cases hsize
    · rename_i hsize
      rw [Protocol.ite_error_eq_ok]
      exact ⟨fun hvalid => ⟨Protocol.validateSize_eq_ok.1 hsize, hvalid⟩, fun hvalid => hvalid.2⟩
  rw [hname, utf8_append, List.length_append]
  obtain ⟨_, hvalid⟩ := (hname topic).1 h
  rw [not_or] at hvalid
  obtain ⟨hne, hinternal⟩ := hvalid
  refine ⟨fun hall => hall.1, fun hlen => ⟨hlen, ?_⟩⟩
  rintro (hnil | hprefix)
  · exact hne (List.append_eq_nil_iff.1 hnil).1
  · -- the second character is that of the topic, or the dot
    have hunderscores : utf8 "__" = [95, 95] := by decide
    rw [hunderscores, hsuffix] at hprefix
    rw [hunderscores] at hinternal
    cases htopic : utf8 topic with
    | nil => exact hne htopic
    | cons a as =>
      rw [htopic, List.cons_append, List.cons_prefix_cons] at hprefix
      obtain ⟨rfl, hprefix⟩ := hprefix
      cases as with
      | nil =>
        rw [List.nil_append, List.cons_prefix_cons] at hprefix
        exact absurd hprefix.1 (by decide)
      | cons b bs =>
        rw [List.cons_append, List.cons_prefix_cons] at hprefix
        obtain ⟨rfl, _⟩ := hprefix
        rw [htopic] at hinternal
        exact hinternal (List.prefix_append [95, 95] bs)

section Handling

variable [Checksum] (group error : String) (delays : List UInt64) (nowMs : UInt64)

/-- The request that `Client::produce` makes of a failure. -/
def FailureMessage.request (message : FailureMessage) :
    Except Protocol.ProtocolError ProduceRequest :=
  ProduceRequest.new message.topic message.routingKey message.envelope .durable
    (some message.producer)

/-- The record at `partition` and `offset` is seen as it was published, with its first attempt, and a
failure of its handler can be published. -/
def Handled (topic : String) (partition : UInt32) (offset timestampMs : UInt64)
    (key payload : Bytes) : Prop :=
  context topic partition ⟨offset, timestampMs, nonEmpty key, payload⟩ =
      .ok ⟨topic, partition, offset, timestampMs, 0, 0, key, payload⟩ ∧
    ∃ message request,
      failureMessage (.ok nowMs) group ⟨topic, partition, offset, timestampMs, 0, 0, key, payload⟩ error
        delays = .ok message ∧
      message.request = .ok request

variable {group error delays nowMs}

omit [Checksum] in
theorem nextAttempt_first {original : MessageContext} (h : original.attempt = 0) :
    ∃ attempt availableAtMs,
      nextAttempt (.ok nowMs) original delays = .ok (attempt, availableAtMs) := by
  unfold nextAttempt
  split
  · rw [if_neg (by rw [h]; decide)]
    exact ⟨_, _, rfl⟩
  · exact ⟨_, _, rfl⟩

omit [Checksum] in
/-- The key that a failure is published with is that of the record or the producer id. -/
theorem validateProduce_failure {topic id : String} {key envelope : Bytes}
    (hkey : key.length ≤ MAX_KEY_SIZE) (henvelope : envelope.length ≤ MAX_MESSAGE_SIZE)
    (hid : Protocol.validateIdentifier id = .ok ()) (hidLength : (utf8 id).length ≤ 25) :
    validateProduce topic (if key = [] then utf8 id else key) envelope (some ⟨id, 0⟩) = .ok () ↔
      validateTopic topic = .ok () := by
  have hrouting : (if key = [] then utf8 id else key).length ≤ MAX_KEY_SIZE := by
    split
    · exact Nat.le_trans hidLength (by decide)
    · exact hkey
  simp only [validateProduce, Protocol.checkAll_cons_eq_ok, Protocol.validateSize_eq_ok, hrouting,
    henvelope, hid, Protocol.checkAll_nil_eq_ok, and_true]

omit [Checksum] in
theorem request_iff {message : FailureMessage} : (∃ request, message.request = .ok request) ↔
    validateProduce message.topic message.routingKey message.envelope (some message.producer) =
      .ok () := by
  constructor
  · rintro ⟨request, h⟩
    unfold FailureMessage.request ProduceRequest.new at h
    split at h
    · cases h
    · assumption
  · intro h
    exact ⟨_, ProduceRequest.new_valid h _⟩

/-- A first failure can be published exactly when its envelope has the size of a message and the name
of its topic that of a topic. -/
theorem publishable_iff {original : MessageContext} (hfirst : original.attempt = 0)
    (htopic : validateTopic original.originalTopic = .ok ())
    (hkey : original.key.length ≤ MAX_KEY_SIZE) :
    (∃ message request, failureMessage (.ok nowMs) group original error delays = .ok message ∧
        message.request = .ok request) ↔
      ENVELOPE_HEADER_SIZE + (utf8 original.originalTopic).length + (errorBytes error).length +
        original.key.length + original.payload.length ≤ MAX_MESSAGE_SIZE ∧
      (utf8 original.originalTopic).length + (utf8 (destinationSuffix delays)).length ≤
        MAX_TOPIC_NAME := by
  obtain ⟨attempt, availableAtMs, hnext⟩ := @nextAttempt_first delays nowMs original hfirst
  obtain ⟨rest, hdot⟩ := destinationSuffix_dot delays
  have hdestination : destination original.originalTopic delays original.attempt.toNat =
      original.originalTopic ++ destinationSuffix delays := by
    rw [hfirst]
    exact destination_first _ _
  obtain ⟨hid, _, hidLength, _⟩ := retryProducerId_valid group original attempt
    (destination original.originalTopic delays original.attempt.toNat)
  have hsize := envelopeBytes_length original attempt availableAtMs error
  constructor
  · rintro ⟨message, request, hmessage, hrequest⟩
    have hvalid := request_iff.1 ⟨request, hrequest⟩
    unfold failureMessage at hmessage
    rw [hnext] at hmessage
    simp only at hmessage
    split at hmessage
    · cases hmessage
    · rename_i envelope henvelope
      obtain ⟨⟨_, hfits⟩, rfl⟩ := encodeEnvelope_eq_ok.1 henvelope
      cases hmessage
      have hname := (validateProduce_failure hkey (hsize ▸ hfits) hid hidLength).1 hvalid
      rw [hdestination] at hname
      exact ⟨hfits, (validateTopic_append htopic hdot).1 hname⟩
  · rintro ⟨hfits, hname⟩
    have hshort : (utf8 original.originalTopic).length < 2 ^ 16 := by
      have hmax : MAX_TOPIC_NAME = 249 := rfl
      omega
    have henvelope := encodeEnvelope_eq_ok.2 ⟨⟨hshort, hfits⟩,
      (rfl : envelopeBytes original attempt availableAtMs error = _)⟩
    have hmessage := @failureMessage_eq _ _ group _ _ _ _ _ _ hnext henvelope
    have hvalid := (validateProduce_failure hkey (hsize ▸ hfits) hid hidLength).2
      (hdestination ▸ (validateTopic_append htopic hdot).2 hname)
    obtain ⟨request, hrequest⟩ := (@request_iff ⟨_, _, _, _⟩).2 hvalid
    exact ⟨_, request, hmessage, hrequest⟩

/-- **A published record is handled** exactly when its payload does not start with the bytes of an
envelope, the envelope of a failure has the size of a message, and the name of its retry topic that
of a topic. -/
theorem handled_iff {topic : String} {key payload : Bytes} (h : Published topic key payload)
    (group error : String) (delays : List UInt64) (nowMs : UInt64) (partition : UInt32)
    (offset timestampMs : UInt64) :
    Handled group error delays nowMs topic partition offset timestampMs key payload ↔
      MAGIC.isPrefixOf payload = false ∧
      ENVELOPE_HEADER_SIZE + (utf8 topic).length + (errorBytes error).length + key.length +
        payload.length ≤ MAX_MESSAGE_SIZE ∧
      (utf8 topic).length + (utf8 (destinationSuffix delays)).length ≤ MAX_TOPIC_NAME := by
  obtain ⟨htopic, hkey, _⟩ := h.limits
  rw [Handled, context_eq_iff]
  exact and_congr_right fun _ => publishable_iff rfl htopic hkey

end Handling

/-- A text with a key. -/
theorem handled_iff_text :
    letI := Checksum.crc32
    Handled "workers" "failed" [1500] 7 "payments" 0 41 5 [107] [104, 105] := by
  let _ := Checksum.crc32
  have hvalid : validateProduce "payments" [107] [104, 105] none = .ok () := by decide +kernel
  have hpublished : Published "payments" [107] [104, 105] :=
    .produce ⟨_, _, _, .leader, none, none, hvalid⟩
  exact (handled_iff hpublished _ _ _ _ _ _ _).2
    ⟨by decide, by decide +kernel, by decide +kernel⟩

/-- A client may publish the bytes of `MAGIC`; no consumer gets past them. -/
theorem magic_stops_consumer :
    Published "payments" [] MAGIC ∧
    ∀ group error delays nowMs partition offset timestampMs,
      context "payments" partition ⟨offset, timestampMs, none, MAGIC⟩ =
          .error .invalidRetryEnvelope ∧
        letI := Checksum.crc32
        ¬ Handled group error delays nowMs "payments" partition offset timestampMs [] MAGIC := by
  have hvalid : validateProduce "payments" [] MAGIC none = .ok () := by decide +kernel
  refine ⟨.produce ⟨_, _, _, .leader, none, none, hvalid⟩, ?_⟩
  intro group error delays nowMs partition offset timestampMs
  refine ⟨rfl, fun h => ?_⟩
  have hcontext := context_eq_iff.1 h.1
  exact absurd hcontext (by decide)

end SevlaMq.Consumer
