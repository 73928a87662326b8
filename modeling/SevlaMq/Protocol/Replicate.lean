import SevlaMq.Protocol.Frame

/-!
# The replication messages

Model of `ReplicateRecord`, `ReplicateAck` and their encoders and decoders of
`crates/protocol/src/lib.rs`.

* `decode_encodeReplicateRecord` — a record that was encoded is decoded as it was, except that an
  empty key arrives as no key.
* `decode_encodeReplicateAck` — an acknowledgement arrives as it was sent.
-/

set_option autoImplicit false

namespace SevlaMq.Protocol

open SevlaMq.Storage (utf8)

structure ReplicateRecord where
  topic : String
  partition : UInt32
  offset : UInt64
  timestampMs : UInt64
  key : Option Bytes
  value : Bytes
  durable : Bool
  leaderId : UInt32
  leaderEpoch : UInt64
  deriving DecidableEq, Repr

def REPLICATE_RECORD : Nat := 0x50

/-- `(!key.is_empty()).then_some(key)`. -/
def nonEmpty (key : Bytes) : Option Bytes := if key = [] then none else some key

/-- The bytes of the key, none for an absent one. -/
def ReplicateRecord.keyBytes (r : ReplicateRecord) : Bytes := r.key.getD []

def encodeReplicateRecord (r : ReplicateRecord) : Encoder :=
  inOrder
    [require (validateTopic r.topic),
      require (validateSize r.keyBytes.length MAX_KEY_SIZE .keyTooLarge),
      require (validateSize r.value.length MAX_MESSAGE_SIZE .messageTooLarge),
      framed
        [put (toBE 1 REPLICATE_RECORD), encodeString r.topic, put (toBE 4 r.partition.toNat),
          put (toBE 8 r.offset.toNat), put (toBE 8 r.timestampMs.toNat),
          put (toBE 1 r.durable.toNat), put (toBE 4 r.leaderId.toNat),
          put (toBE 8 r.leaderEpoch.toNat), putLen 2 r.keyBytes.length .keyTooLarge,
          put r.keyBytes, putLen 4 r.value.length .messageTooLarge, put r.value]]

def readReplicateRecord : Parser ReplicateRecord := do
  let opcode ← getInt 1
  ensure (if opcode ≠ REPLICATE_RECORD then .error .invalidFrame else .ok ())
  let topic ← decodeString
  ensureRemaining (4 + 8 + 8 + 1 + 4 + 8 + 2)
  let partition ← getInt 4
  let offset ← getInt 8
  let timestampMs ← getInt 8
  let durable ← getInt 1
  ensure (if durable > 1 then .error .invalidFrame else .ok ())
  let leaderId ← getInt 4
  let leaderEpoch ← getInt 8
  let keyLen ← readLen 2
  let key ← readBytes keyLen
  let valueLen ← readLen 4
  ensure (validateSize valueLen MAX_MESSAGE_SIZE .messageTooLarge)
  let value ← readBytes valueLen
  ensureEmpty
  pure ⟨topic, .ofNat partition, .ofNat offset, .ofNat timestampMs, nonEmpty key, value,
    durable = 1, .ofNat leaderId, .ofNat leaderEpoch⟩

def decodeReplicateRecord : Decoder ReplicateRecord UInt8 ProtocolError :=
  decodeFrame readReplicateRecord

/-! ## Round trip -/

/-- The record as it arrives. -/
def ReplicateRecord.received (r : ReplicateRecord) : ReplicateRecord :=
  { r with key := nonEmpty r.keyBytes }

/-- The fields of the frame, in their order. -/
def ReplicateRecord.fields (r : ReplicateRecord) : List Bytes :=
  [toBE 1 REPLICATE_RECORD, stringBytes r.topic, toBE 4 r.partition.toNat, toBE 8 r.offset.toNat,
    toBE 8 r.timestampMs.toNat, toBE 1 r.durable.toNat, toBE 4 r.leaderId.toNat,
    toBE 8 r.leaderEpoch.toNat, toBE 2 r.keyBytes.length, r.keyBytes, toBE 4 r.value.length, r.value]

theorem encodeReplicateRecord_ok {r : ReplicateRecord} {buffer buffer' : Bytes}
    (h : encodeReplicateRecord r buffer = (.ok (), buffer')) :
    (utf8 r.topic).length ≤ MAX_TOPIC_NAME ∧ r.keyBytes.length ≤ MAX_KEY_SIZE ∧
    r.value.length ≤ MAX_MESSAGE_SIZE ∧ buffer' = buffer ++ frameBytes r.fields.flatten := by
  simp only [encodeReplicateRecord, framed, inOrder_cons_eq_ok, inOrder_nil_eq_ok, require_eq_ok,
    validateSize_eq_ok] at h
  obtain ⟨_, ⟨htopic, rfl⟩, _, ⟨hkey, rfl⟩, _, ⟨hvalue, rfl⟩, _, hframe, rfl⟩ := h
  refine ⟨validateTopic_length htopic, hkey, hvalue, ?_⟩
  simp at hframe
  simpa [ReplicateRecord.fields] using hframe.2.2

/-- The parser reads back the fields. -/
theorem readReplicateRecord_fields {r : ReplicateRecord}
    (htopic : (utf8 r.topic).length ≤ MAX_TOPIC_NAME) (hkey : r.keyBytes.length ≤ MAX_KEY_SIZE)
    (hvalue : r.value.length ≤ MAX_MESSAGE_SIZE) :
    readReplicateRecord r.fields.flatten = .ok (r.received, []) := by
  have htopic' : (utf8 r.topic).length < 65536 := Nat.lt_of_le_of_lt htopic (by decide)
  have hkey' : r.keyBytes.length < 65536 := Nat.lt_of_le_of_lt hkey (by decide)
  have hvalue' : r.value.length < 4294967296 := Nat.lt_of_le_of_lt hvalue (by decide)
  have hdurable : ¬ 2 ≤ r.durable.toNat := Nat.not_le.2 (Bool.toNat_lt _)
  have hopcode : REPLICATE_RECORD < 256 ^ 1 := by decide
  unfold readReplicateRecord ReplicateRecord.fields
  simp only [List.flatten_cons, List.flatten_nil]
  rw [getInt_bind hopcode]
  simp +arith [*, ReplicateRecord.received, -List.append_nil]

theorem ReplicateRecord.length_fields_le {r : ReplicateRecord}
    (htopic : (utf8 r.topic).length ≤ MAX_TOPIC_NAME) (hkey : r.keyBytes.length ≤ MAX_KEY_SIZE)
    (hvalue : r.value.length ≤ MAX_MESSAGE_SIZE) : r.fields.flatten.length ≤ MAX_FRAME_SIZE := by
  simp only [ReplicateRecord.fields, stringBytes, List.flatten_cons, List.flatten_nil,
    List.length_append, toBE_length, List.length_nil]
  simp only [MAX_TOPIC_NAME, MAX_KEY_SIZE, MAX_MESSAGE_SIZE, MAX_FRAME_SIZE] at *
  omega

/-- **What was encoded is decoded as it was sent**, an empty key as no key. -/
theorem decode_encodeReplicateRecord {r : ReplicateRecord} {buffer : Bytes}
    (h : encodeReplicateRecord r [] = (.ok (), buffer)) (rest : Bytes) :
    decodeReplicateRecord (buffer ++ rest) = .ok (some (r.received, rest)) := by
  obtain ⟨htopic, hkey, hvalue, hbuffer⟩ := encodeReplicateRecord_ok h
  have hparse := readReplicateRecord_fields htopic hkey hvalue
  have hne : r.fields.flatten ≠ [] := by
    simp [ReplicateRecord.fields, toBE]
  rw [hbuffer, List.nil_append]
  exact decodeFrame_append hne (ReplicateRecord.length_fields_le htopic hkey hvalue) hparse rest

/-- A record within the limits can be encoded. -/
theorem encodeReplicateRecord_within {r : ReplicateRecord} (htopic : validateTopic r.topic = .ok ())
    (hkey : r.keyBytes.length ≤ MAX_KEY_SIZE) (hvalue : r.value.length ≤ MAX_MESSAGE_SIZE) :
    encodeReplicateRecord r [] = (.ok (), frameBytes r.fields.flatten) := by
  have htopic' : (utf8 r.topic).length < 65536 :=
    Nat.lt_of_le_of_lt (validateTopic_length htopic) (by decide)
  have hkey' : r.keyBytes.length < 65536 := Nat.lt_of_le_of_lt hkey (by decide)
  have hvalue' : r.value.length < 4294967296 := Nat.lt_of_le_of_lt hvalue (by decide)
  have hlen : r.fields.flatten.length < 2 ^ 32 := Nat.lt_of_le_of_lt
    (ReplicateRecord.length_fields_le (validateTopic_length htopic) hkey hvalue) (by decide)
  simp only [encodeReplicateRecord, inOrder_cons_eq_ok, inOrder_nil_eq_ok, require_eq_ok,
    validateSize_eq_ok]
  refine ⟨_, ⟨htopic, rfl⟩, _, ⟨hkey, rfl⟩, _, ⟨hvalue, rfl⟩, _, ?_, rfl⟩
  refine (@framed_eq_ok _ True r.fields.flatten (fun buffer buffer' => ?_) _ _).2
    ⟨⟨trivial, hlen⟩, (List.nil_append _).symm⟩
  simp [ReplicateRecord.fields, htopic', hkey', hvalue']

/-! ## Acknowledgements -/

structure ReplicateAck where
  partition : UInt32
  nextOffset : UInt64
  deriving DecidableEq, Repr

def REPLICATE_ACK : Nat := 0x51

def encodeReplicateAck (ack : ReplicateAck) : Encoder :=
  framed [put (toBE 1 REPLICATE_ACK), put (toBE 4 ack.partition.toNat),
    put (toBE 8 ack.nextOffset.toNat)]

def readReplicateAck : Parser ReplicateAck := fun frame =>
  if frame.length ≠ 1 + 4 + 8 then .error .invalidFrame else
  (do
    let opcode ← getInt 1
    ensure (if opcode ≠ REPLICATE_ACK then .error .invalidFrame else .ok ())
    let partition ← getInt 4
    let nextOffset ← getInt 8
    pure ⟨.ofNat partition, .ofNat nextOffset⟩ : Parser ReplicateAck) frame

def decodeReplicateAck : Decoder ReplicateAck UInt8 ProtocolError := decodeFrame readReplicateAck

/-- **An acknowledgement arrives as it was sent.** -/
theorem decode_encodeReplicateAck (ack : ReplicateAck) :
    ∃ buffer, encodeReplicateAck ack [] = (.ok (), buffer) ∧
      ∀ rest, decodeReplicateAck (buffer ++ rest) = .ok (some (ack, rest)) := by
  let body := toBE 1 REPLICATE_ACK ++ (toBE 4 ack.partition.toNat ++ toBE 8 ack.nextOffset.toNat)
  have hlen : body.length = 13 := by simp [body]
  refine ⟨frameBytes body, ?_, fun rest => ?_⟩
  · refine (@framed_eq_ok _ True body (fun buffer buffer' => ?_) _ _).2
      ⟨⟨trivial, by rw [hlen]; decide⟩, (List.nil_append _).symm⟩
    simp [body]
  · refine @decodeFrame_append _ _ body [] ack (fun hnil => ?_) (by rw [hlen]; decide) ?_ rest
    · rw [hnil] at hlen
      cases hlen
    · have hopcode : REPLICATE_ACK < 256 ^ 1 := by decide
      rw [readReplicateAck, if_neg (by rw [hlen]; decide), getInt_bind hopcode,
        ← List.append_nil (toBE 8 ack.nextOffset.toNat)]
      simp [-List.append_nil]

end SevlaMq.Protocol
