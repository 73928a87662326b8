import SevlaMq.Protocol.Messages

/-!
# Failed messages and their envelopes

Model of `bin/sevlamq-cli/src/commands/retry.rs`.  A message whose handler fails is published to a
retry topic, or to the dead-letter topic of its original one, as the value of an envelope that names
where it came from.

* `context` — the message a consumer sees in a record; `encodeEnvelope`, `decodeEnvelope`.
* `failureMessage` — what `publish_failure` sends.
* `decodeEnvelope_encode` — the envelope of a context is decoded to it.
* `retry_chain` — any number of failures in a row: the original message stays the same, the attempts
  count up to the number of delays, and each failure is routed by the attempts before it.
-/

set_option autoImplicit false

namespace SevlaMq.Consumer

open SevlaMq.Storage (Checksum utf8 fromUtf8 fromUtf8_utf8)
open SevlaMq.Protocol (FetchedRecord ProducerIdentity MAX_MESSAGE_SIZE)

/-- `b"SVR1"`. -/
def MAGIC : Bytes := [0x53, 0x56, 0x52, 0x31]
def MAX_ERROR_BYTES : Nat := 4 * 1024
def ENVELOPE_HEADER_SIZE : Nat := 48

inductive CliError where
  | attemptOverflow
  | invalidSystemTime
  | retryEnvelopeTooLarge
  | invalidRetryEnvelope
  deriving DecidableEq, Repr

structure MessageContext where
  originalTopic : String
  originalPartition : UInt32
  originalOffset : UInt64
  originalTimestampMs : UInt64
  attempt : UInt32
  availableAtMs : UInt64
  key : Bytes
  payload : Bytes
  deriving DecidableEq, Repr

/-! ## Envelopes -/

/-- The error text may be cut inside of a character. -/
def errorBytes (error : String) : Bytes := (utf8 error).take MAX_ERROR_BYTES

/-- The bytes of an envelope; the fields before the topic take 48 bytes. -/
def envelopeBytes (context : MessageContext) (attempt : UInt32) (availableAtMs : UInt64)
    (error : String) : Bytes :=
  MAGIC ++ (toBE 4 attempt.toNat ++ (toBE 8 availableAtMs.toNat ++
    (toBE 4 context.originalPartition.toNat ++ (toBE 8 context.originalOffset.toNat ++
      (toBE 8 context.originalTimestampMs.toNat ++ (toBE 2 (utf8 context.originalTopic).length ++
        (toBE 2 (errorBytes error).length ++ (toBE 4 context.key.length ++
          (toBE 4 context.payload.length ++ (utf8 context.originalTopic ++
            (errorBytes error ++ (context.key ++ context.payload))))))))))))

/-- `encode_envelope`. -/
def encodeEnvelope (context : MessageContext) (attempt : UInt32) (availableAtMs : UInt64)
    (error : String) : Except CliError Bytes :=
  if (utf8 context.originalTopic).length ≥ 2 ^ 16 then .error .retryEnvelopeTooLarge
  else if (errorBytes error).length ≥ 2 ^ 16 then .error .retryEnvelopeTooLarge
  else if context.payload.length ≥ 2 ^ 32 then .error .retryEnvelopeTooLarge
  else if context.key.length ≥ 2 ^ 32 then .error .retryEnvelopeTooLarge
  else if (envelopeBytes context attempt availableAtMs error).length > MAX_MESSAGE_SIZE then
    .error .retryEnvelopeTooLarge
  else .ok (envelopeBytes context attempt availableAtMs error)

/-- `get_u16`, `get_u32` and `get_u64`; the callers have checked the length. -/
def getUInt (w : Nat) (encoded : Bytes) : Nat × Bytes := (ofBE (encoded.take w), encoded.drop w)

/-- `decode_envelope`.  The sum of the lengths does not overflow a `usize`. -/
def decodeEnvelope (record : FetchedRecord) : Except CliError MessageContext :=
  if record.value.length < ENVELOPE_HEADER_SIZE then .error .invalidRetryEnvelope
  else
    let encoded := record.value.drop MAGIC.length
    let (attempt, encoded) := getUInt 4 encoded
    let (availableAtMs, encoded) := getUInt 8 encoded
    let (originalPartition, encoded) := getUInt 4 encoded
    let (originalOffset, encoded) := getUInt 8 encoded
    let (originalTimestampMs, encoded) := getUInt 8 encoded
    let (topicLen, encoded) := getUInt 2 encoded
    let (errorLen, encoded) := getUInt 2 encoded
    let (keyLen, encoded) := getUInt 4 encoded
    let (payloadLen, encoded) := getUInt 4 encoded
    if encoded.length ≠ topicLen + errorLen + keyLen + payloadLen then .error .invalidRetryEnvelope
    else
      match fromUtf8 (encoded.take topicLen) with
      | none => .error .invalidRetryEnvelope
      | some originalTopic =>
        let encoded := (encoded.drop topicLen).drop errorLen
        .ok {
          originalTopic
          originalPartition := .ofNat originalPartition
          originalOffset := .ofNat originalOffset
          originalTimestampMs := .ofNat originalTimestampMs
          attempt := .ofNat attempt
          availableAtMs := .ofNat availableAtMs
          key := encoded.take keyLen
          payload := (encoded.drop keyLen).take payloadLen }

/-- `context`. -/
def context (consumedTopic : String) (partition : UInt32) (record : FetchedRecord) :
    Except CliError MessageContext :=
  if MAGIC.isPrefixOf record.value then decodeEnvelope record
  else
    .ok {
      originalTopic := consumedTopic
      originalPartition := partition
      originalOffset := record.offset
      originalTimestampMs := record.timestampMs
      attempt := 0
      availableAtMs := 0
      key := record.key.getD []
      payload := record.value }

/-! ## Publishing a failure -/

/-- `format_delay`. -/
def formatDelay (delayMs : UInt64) : String :=
  if delayMs.toNat % 1000 = 0 then toString (delayMs.toNat / 1000) ++ "s"
  else toString delayMs.toNat ++ "ms"

/-- `{:08x}`. -/
def hex8 (n : UInt32) : String :=
  String.ofList ((List.range 8).map fun i => (n.toNat / 16 ^ (7 - i) % 16).digitChar)

/-- What `retry_producer_id` hashes. -/
def failureBytes (group : String) (context : MessageContext) (attempt : UInt32)
    (destination : String) : Bytes :=
  utf8 group ++ (utf8 context.originalTopic ++ (toBE 4 context.originalPartition.toNat ++
    (toBE 8 context.originalOffset.toNat ++ (toBE 4 attempt.toNat ++ utf8 destination))))

/-- `retry_producer_id`. -/
def retryProducerId [Checksum] (group : String) (context : MessageContext) (attempt : UInt32)
    (destination : String) : String :=
  "retry-" ++ hex8 (Checksum.hash (failureBytes group context attempt destination)) ++ "-" ++
    toString attempt.toNat

/-- The topic of a failure after so many attempts. -/
def destination (originalTopic : String) (retryDelaysMs : List UInt64) (attempt : Nat) : String :=
  match retryDelaysMs[attempt]? with
  | some delay => originalTopic ++ ".retry." ++ formatDelay delay
  | none => originalTopic ++ ".DLQ"

/-- What `publish_failure` passes to the client; it asks for `AckMode::Durable`. -/
structure FailureMessage where
  topic : String
  routingKey : Bytes
  envelope : Bytes
  producer : ProducerIdentity
  deriving DecidableEq, Repr

/-- `attempt.checked_add(1)`, and the time from which on the message may be handled again. -/
def nextAttempt (nowMs : Except CliError UInt64) (context : MessageContext)
    (retryDelaysMs : List UInt64) : Except CliError (UInt32 × UInt64) :=
  match retryDelaysMs[context.attempt.toNat]? with
  | some delay =>
    if context.attempt.toNat + 1 = 2 ^ 32 then .error .attemptOverflow
    else
      match nowMs with
      | .error e => .error e
      | .ok now => .ok (context.attempt + 1, .ofNat (min (now.toNat + delay.toNat) (2 ^ 64 - 1)))
  | none =>
    match nowMs with
    | .error e => .error e
    | .ok now => .ok (context.attempt, now)

/-- `publish_failure`, up to the request; `nowMs` is the clock. -/
def failureMessage [Checksum] (nowMs : Except CliError UInt64) (group : String)
    (context : MessageContext) (error : String) (retryDelaysMs : List UInt64) :
    Except CliError FailureMessage :=
  match nextAttempt nowMs context retryDelaysMs with
  | .error e => .error e
  | .ok (attempt, availableAtMs) =>
    match encodeEnvelope context attempt availableAtMs error with
    | .error e => .error e
    | .ok envelope =>
      let topic := destination context.originalTopic retryDelaysMs context.attempt.toNat
      let id := retryProducerId group context attempt topic
      .ok ⟨topic, if context.key = [] then utf8 id else context.key, envelope, ⟨id, 0⟩⟩

/-! ## The round trip -/

theorem getUInt_toBE {w v : Nat} (h : v < 256 ^ w) (rest : Bytes) :
    getUInt w (toBE w v ++ rest) = (v, rest) := by
  have hlen : (toBE w v).length = w := toBE_length w v
  rw [getUInt, List.take_left' hlen, List.drop_left' hlen, ofBE_toBE h]

theorem envelopeBytes_length (context : MessageContext) (attempt : UInt32) (availableAtMs : UInt64)
    (error : String) : (envelopeBytes context attempt availableAtMs error).length =
      ENVELOPE_HEADER_SIZE + (utf8 context.originalTopic).length + (errorBytes error).length +
        context.key.length + context.payload.length := by
  simp only [envelopeBytes, List.length_append, toBE_length, MAGIC, List.length_cons,
    List.length_nil, ENVELOPE_HEADER_SIZE]
  omega

theorem errorBytes_length_le (error : String) : (errorBytes error).length ≤ MAX_ERROR_BYTES :=
  List.length_take_le _ _

/-- An envelope is made exactly when it is no larger than a message and the topic has a length of
two bytes. -/
theorem encodeEnvelope_eq_ok {context : MessageContext} {attempt : UInt32} {availableAtMs : UInt64}
    {error : String} {envelope : Bytes} :
    encodeEnvelope context attempt availableAtMs error = .ok envelope ↔
      ((utf8 context.originalTopic).length < 2 ^ 16 ∧
        ENVELOPE_HEADER_SIZE + (utf8 context.originalTopic).length + (errorBytes error).length +
          context.key.length + context.payload.length ≤ MAX_MESSAGE_SIZE) ∧
      envelope = envelopeBytes context attempt availableAtMs error := by
  have herror := errorBytes_length_le error
  have hlen := envelopeBytes_length context attempt availableAtMs error
  have hmaxError : MAX_ERROR_BYTES = 4096 := rfl
  have hheader : ENVELOPE_HEADER_SIZE = 48 := rfl
  have hmax : MAX_MESSAGE_SIZE = 1048576 := rfl
  unfold encodeEnvelope
  split
  · simp only [reduceCtorEq, false_iff, not_and]
    omega
  split
  · omega
  split
  · simp only [reduceCtorEq, false_iff, not_and]
    omega
  split
  · simp only [reduceCtorEq, false_iff, not_and]
    omega
  split
  · simp only [reduceCtorEq, false_iff, not_and]
    omega
  · simp only [Except.ok.injEq]
    constructor
    · rintro rfl
      exact ⟨⟨by omega, by omega⟩, rfl⟩
    · rintro ⟨_, rfl⟩
      rfl

theorem magic_isPrefixOf (rest : Bytes) : MAGIC.isPrefixOf (MAGIC ++ rest) = true := by
  rw [List.isPrefixOf_iff_prefix]
  exact List.prefix_append _ _

/-- **An envelope is decoded to the context it was made of**, with its new attempt and time. -/
theorem decodeEnvelope_encode {original : MessageContext} {attempt : UInt32}
    {availableAtMs : UInt64} {error : String} {envelope : Bytes}
    (h : encodeEnvelope original attempt availableAtMs error = .ok envelope)
    (consumedTopic : String) (partition : UInt32) {record : FetchedRecord}
    (hrecord : record.value = envelope) :
    context consumedTopic partition record = .ok { original with attempt, availableAtMs } := by
  obtain ⟨⟨htopic, hsize⟩, rfl⟩ := encodeEnvelope_eq_ok.1 h
  have herror := errorBytes_length_le error
  have hlen := envelopeBytes_length original attempt availableAtMs error
  have hmaxError : MAX_ERROR_BYTES = 4096 := rfl
  have hheaderSize : ENVELOPE_HEADER_SIZE = 48 := rfl
  have hmax : MAX_MESSAGE_SIZE = 1048576 := rfl
  have hmagic : MAGIC.isPrefixOf record.value = true := by
    rw [hrecord]
    exact magic_isPrefixOf _
  have hheader : ¬ record.value.length < ENVELOPE_HEADER_SIZE := by
    rw [hrecord, hlen]
    omega
  rw [context, if_pos hmagic, decodeEnvelope, if_neg hheader, hrecord, envelopeBytes,
    List.drop_left]
  -- every field is read back as it was written
  have hkeyLen : original.key.length < 256 ^ 4 := by omega
  have hpayloadLen : original.payload.length < 256 ^ 4 := by omega
  have htopicLen : (utf8 original.originalTopic).length < 256 ^ 2 := by omega
  have herrorLen : (errorBytes error).length < 256 ^ 2 := by omega
  simp only [getUInt_toBE (show attempt.toNat < 256 ^ 4 from attempt.toNat_lt),
    getUInt_toBE (show availableAtMs.toNat < 256 ^ 8 from availableAtMs.toNat_lt),
    getUInt_toBE (show original.originalPartition.toNat < 256 ^ 4 from UInt32.toNat_lt _),
    getUInt_toBE (show original.originalOffset.toNat < 256 ^ 8 from UInt64.toNat_lt _),
    getUInt_toBE (show original.originalTimestampMs.toNat < 256 ^ 8 from UInt64.toNat_lt _),
    getUInt_toBE htopicLen, getUInt_toBE herrorLen, getUInt_toBE hkeyLen,
    getUInt_toBE hpayloadLen]
  rw [if_neg (by simp only [List.length_append]; omega)]
  simp only [List.take_left, List.drop_left, fromUtf8_utf8, List.take_length, UInt32.ofNat_toNat,
    UInt64.ofNat_toNat]

/-! ## A chain of failures -/

/-- A failure of the handler, and the record in which the envelope comes back. -/
structure Failure where
  error : String
  nowMs : UInt64
  partition : UInt32
  offset : UInt64
  timestampMs : UInt64
  key : Option Bytes

/-- The context in which the message is handled again. -/
def Failure.redelivered (f : Failure) (message : FailureMessage) : Except CliError MessageContext :=
  context message.topic f.partition ⟨f.offset, f.timestampMs, f.key, message.envelope⟩

section Chain

variable [Checksum] (group : String) (retryDelaysMs : List UInt64)

/-- The topics that the failures are published to, one after the other, and the context after the
last. -/
def failAll : List Failure → MessageContext → Except CliError (List String × MessageContext)
  | [], context => .ok ([], context)
  | f :: failures, context =>
    match failureMessage (.ok f.nowMs) group context f.error retryDelaysMs with
    | .error e => .error e
    | .ok message =>
      match f.redelivered message with
      | .error e => .error e
      | .ok context =>
        match failAll failures context with
        | .error e => .error e
        | .ok (topics, context) => .ok (message.topic :: topics, context)

/-- For every failure of the chain there is an envelope. -/
def Encodable : List Failure → MessageContext → Prop
  | [], _ => True
  | f :: failures, context =>
    (∃ attempt availableAtMs envelope,
      encodeEnvelope context attempt availableAtMs f.error = .ok envelope) ∧
      ∀ message next, failureMessage (.ok f.nowMs) group context f.error retryDelaysMs = .ok message →
        f.redelivered message = .ok next → Encodable failures next

variable {group retryDelaysMs}

/-- The message the context is about. -/
def MessageContext.SameMessage (context original : MessageContext) : Prop :=
  context.originalTopic = original.originalTopic ∧
    context.originalPartition = original.originalPartition ∧
    context.originalOffset = original.originalOffset ∧
    context.originalTimestampMs = original.originalTimestampMs ∧
    context.key = original.key ∧ context.payload = original.payload

omit [Checksum] in
/-- The attempts count up to the number of delays, and do not overflow before. -/
theorem nextAttempt_spec (nowMs : UInt64) (context : MessageContext)
    (hdelays : retryDelaysMs.length < 2 ^ 32) :
    ∃ attempt availableAtMs,
      nextAttempt (.ok nowMs) context retryDelaysMs = .ok (attempt, availableAtMs) ∧
      attempt.toNat = if context.attempt.toNat < retryDelaysMs.length then
        context.attempt.toNat + 1 else context.attempt.toNat := by
  unfold nextAttempt
  split
  · rename_i delay hdelay
    have hlt := (List.getElem?_eq_some_iff.1 hdelay).1
    rw [if_neg (by omega)]
    refine ⟨_, _, rfl, ?_⟩
    rw [if_pos hlt, UInt32.toNat_add, UInt32.toNat_one]
    exact Nat.mod_eq_of_lt (by omega)
  · rename_i hnone
    have hge := List.getElem?_eq_none_iff.1 hnone
    refine ⟨_, _, rfl, ?_⟩
    rw [if_neg (Nat.not_lt.2 hge)]

/-- What is published once there is an envelope. -/
theorem failureMessage_eq (group : String) {nowMs : Except CliError UInt64}
    {context : MessageContext} {error : String} {attempt : UInt32} {availableAtMs : UInt64}
    {envelope : Bytes}
    (hnext : nextAttempt nowMs context retryDelaysMs = .ok (attempt, availableAtMs))
    (hencode : encodeEnvelope context attempt availableAtMs error = .ok envelope) :
    failureMessage nowMs group context error retryDelaysMs =
      let topic := destination context.originalTopic retryDelaysMs context.attempt.toNat
      let id := retryProducerId group context attempt topic
      .ok ⟨topic, if context.key = [] then utf8 id else context.key, envelope, ⟨id, 0⟩⟩ := by
  rw [failureMessage, hnext]
  simp only [hencode]

omit [Checksum] in
/-- Attempt and time take the same space whatever they are. -/
theorem encodeEnvelope_any {context : MessageContext} {attempt : UInt32} {availableAtMs : UInt64}
    {error : String} {envelope : Bytes}
    (h : encodeEnvelope context attempt availableAtMs error = .ok envelope) (attempt' : UInt32)
    (availableAtMs' : UInt64) :
    encodeEnvelope context attempt' availableAtMs' error =
      .ok (envelopeBytes context attempt' availableAtMs' error) :=
  encodeEnvelope_eq_ok.2 ⟨(encodeEnvelope_eq_ok.1 h).1, rfl⟩

/-- **One failure**: the envelope comes back with the same message and the next attempt. -/
theorem failure_redelivered {f : Failure} {original : MessageContext} {attempt : UInt32}
    {availableAtMs : UInt64} {envelope : Bytes} (hdelays : retryDelaysMs.length < 2 ^ 32)
    (h : encodeEnvelope original attempt availableAtMs f.error = .ok envelope) :
    ∃ message next, failureMessage (.ok f.nowMs) group original f.error retryDelaysMs = .ok message ∧
      message.topic = destination original.originalTopic retryDelaysMs original.attempt.toNat ∧
      f.redelivered message = .ok next ∧ next.SameMessage original ∧
      next.attempt.toNat = if original.attempt.toNat < retryDelaysMs.length then
        original.attempt.toNat + 1 else original.attempt.toNat := by
  obtain ⟨attempt', availableAtMs', hnext, hcount⟩ := nextAttempt_spec f.nowMs original hdelays
  have hencode := encodeEnvelope_any h attempt' availableAtMs'
  exact ⟨_, _, failureMessage_eq group hnext hencode, rfl, decodeEnvelope_encode hencode _ _ rfl,
    ⟨rfl, rfl, rfl, rfl, rfl, rfl⟩, hcount⟩

omit [Checksum] in
theorem destination_dlq {originalTopic : String} {attempt : Nat}
    (h : retryDelaysMs.length ≤ attempt) :
    destination originalTopic retryDelaysMs attempt = originalTopic ++ ".DLQ" := by
  rw [destination, List.getElem?_eq_none h]

/-- A chain that starts with any attempt up to the number of delays. -/
theorem failAll_spec (hdelays : retryDelaysMs.length < 2 ^ 32) {failures : List Failure}
    {original : MessageContext} (hattempt : original.attempt.toNat ≤ retryDelaysMs.length)
    (h : Encodable group retryDelaysMs failures original) :
    ∃ last, failAll group retryDelaysMs failures original =
        .ok ((List.range failures.length).map fun i =>
          destination original.originalTopic retryDelaysMs (original.attempt.toNat + i), last) ∧
      last.SameMessage original ∧
      last.attempt.toNat = min (original.attempt.toNat + failures.length) retryDelaysMs.length := by
  induction failures generalizing original with
  | nil =>
    exact ⟨original, rfl, ⟨rfl, rfl, rfl, rfl, rfl, rfl⟩, (Nat.min_eq_left hattempt).symm⟩
  | cons f failures ih =>
    obtain ⟨⟨attempt, availableAtMs, envelope, hencode⟩, hrest⟩ := h
    obtain ⟨message, next, hmessage, htopic, hnext, hsame, hcount⟩ :=
      @failure_redelivered _ group _ f _ _ _ _ hdelays hencode
    have hle : next.attempt.toNat ≤ retryDelaysMs.length := by
      rw [hcount]
      split <;> omega
    obtain ⟨last, hall, hlast, hlastCount⟩ := ih hle (hrest message next hmessage hnext)
    refine ⟨last, ?_, ?_, ?_⟩
    · have htopics : (List.range failures.length).map (fun i =>
            destination next.originalTopic retryDelaysMs (next.attempt.toNat + i)) =
          (List.range failures.length).map (fun i =>
            destination original.originalTopic retryDelaysMs
              (original.attempt.toNat + (i + 1))) := by
        refine List.map_congr_left fun i _ => ?_
        rw [hsame.1, hcount]
        split
        · rw [Nat.add_assoc, Nat.add_comm 1]
        · -- all delays are used up
          rw [destination_dlq (by omega), destination_dlq (by omega)]
      simp only [failAll, hmessage, hnext, hall, List.length_cons, List.range_succ_eq_map,
        List.map_cons, List.map_map, Nat.add_zero, htopic]
      rw [htopics]
      rfl
    · obtain ⟨h₁, h₂, h₃, h₄, h₅, h₆⟩ := hlast
      obtain ⟨k₁, k₂, k₃, k₄, k₅, k₆⟩ := hsame
      exact ⟨h₁.trans k₁, h₂.trans k₂, h₃.trans k₃, h₄.trans k₄, h₅.trans k₅, h₆.trans k₆⟩
    · rw [hlastCount, hcount, List.length_cons]
      split <;> omega

/-- **The retry chain keeps the original message**, over any failures whose envelopes can be made: the
attempt is their number, up to the number of delays, and the `i`-th one goes to the retry topic of
the `i`-th delay, or to the dead-letter topic when there is none. -/
theorem retry_chain (hdelays : retryDelaysMs.length < 2 ^ 32) {original : MessageContext}
    (hfirst : original.attempt = 0) {failures : List Failure}
    (h : Encodable group retryDelaysMs failures original) :
    ∃ last, failAll group retryDelaysMs failures original =
        .ok ((List.range failures.length).map fun i =>
          if hi : i < retryDelaysMs.length then
            original.originalTopic ++ ".retry." ++ formatDelay (retryDelaysMs.get ⟨i, hi⟩)
          else original.originalTopic ++ ".DLQ", last) ∧
      last.originalTopic = original.originalTopic ∧
      last.originalPartition = original.originalPartition ∧
      last.originalOffset = original.originalOffset ∧
      last.originalTimestampMs = original.originalTimestampMs ∧
      last.key = original.key ∧ last.payload = original.payload ∧
      last.attempt.toNat = min failures.length retryDelaysMs.length := by
  have hzero : original.attempt.toNat = 0 := by rw [hfirst]; rfl
  obtain ⟨last, hall, hsame, hcount⟩ := failAll_spec hdelays (by omega) h
  obtain ⟨h₁, h₂, h₃, h₄, h₅, h₆⟩ := hsame
  refine ⟨last, ?_, h₁, h₂, h₃, h₄, h₅, h₆, by rw [hcount, hzero, Nat.zero_add]⟩
  rw [hall]
  congr 2
  refine List.map_congr_left fun i _ => ?_
  rw [hzero, Nat.zero_add]
  split
  · rename_i hi
    rw [destination, List.getElem?_eq_getElem hi]
    rfl
  · rename_i hi
    exact destination_dlq (Nat.not_lt.1 hi)

/-- The envelopes of a chain can be made as far as the original message leaves room for them. -/
theorem encodable_of_sizes (hdelays : retryDelaysMs.length < 2 ^ 32) {failures : List Failure}
    {original : MessageContext} (htopic : (utf8 original.originalTopic).length < 2 ^ 16)
    (hsize : ∀ f ∈ failures, ENVELOPE_HEADER_SIZE + (utf8 original.originalTopic).length +
      (errorBytes f.error).length + original.key.length + original.payload.length ≤
        MAX_MESSAGE_SIZE) : Encodable group retryDelaysMs failures original := by
  induction failures generalizing original with
  | nil => trivial
  | cons f failures ih =>
    obtain ⟨hfirst, hmore⟩ := List.forall_mem_cons.1 hsize
    have hencode := (@encodeEnvelope_eq_ok original 0 0 f.error _).2 ⟨⟨htopic, hfirst⟩, rfl⟩
    refine ⟨⟨0, 0, _, hencode⟩, fun message next hmessage hnext => ?_⟩
    obtain ⟨message', next', hmessage', _, hnext', hsame, _⟩ :=
      @failure_redelivered _ group _ f _ _ _ _ hdelays hencode
    rw [hmessage] at hmessage'
    cases hmessage'
    rw [hnext] at hnext'
    cases hnext'
    obtain ⟨h₁, _, _, _, h₅, h₆⟩ := hsame
    refine ih (by rwa [h₁]) fun g hg => ?_
    rw [h₁, h₅, h₆]
    exact hmore g hg

end Chain

/-- A message with a key. -/
def firstContext : MessageContext :=
  ⟨"payments", 2, 41, 1234, 0, 0, utf8 "customer", utf8 "hello"⟩

/-- Three failures of the handler. -/
def threeFailures : List Failure :=
  [⟨"one", 10, 0, 7, 5, none⟩, ⟨"two", 2000, 1, 8, 6, none⟩, ⟨"three", 3000, 0, 9, 7, none⟩]

/-- There is one delay. -/
theorem retry_chain_three :
    letI := Checksum.crc32
    ∃ last, failAll "workers" [1500] threeFailures firstContext =
        .ok (["payments.retry.1500ms", "payments.DLQ", "payments.DLQ"], last) ∧
      last.originalOffset = 41 ∧ last.payload = utf8 "hello" ∧ last.attempt.toNat = 1 := by
  let _ := Checksum.crc32
  have hencodable : Encodable "workers" [1500] threeFailures firstContext :=
    encodable_of_sizes (by decide) (by decide) (by decide +kernel)
  obtain ⟨last, hall, _, _, hoffset, _, _, hpayload, hattempt⟩ :=
    retry_chain (by decide) rfl hencodable
  exact ⟨last, hall, hoffset, hpayload, hattempt⟩

end SevlaMq.Consumer
