import SevlaMq.Protocol.Requests

/-!
# Round trip of the requests

* `Arrives` — what was written after a buffer is a frame that is read as the request.
* `Arrives.strings` — for the requests that begin with strings; each has a lemma of its own.
* `encodeProduce_eq_ok`, `encodeFetch_eq_ok`, `encodeProduceBatch_eq_ok` — what is written for the
  requests that are built by a constructor; the limits come from its checks.
* `request_round_trip` — what was encoded is decoded as it was, whatever stands before and after it,
  and what a constructor has accepted can be encoded.
-/

set_option autoImplicit false

namespace SevlaMq.Protocol

open SevlaMq.Storage (utf8 fromUtf8_utf8)

/-- What was written after `buffer` is a frame that is read as the request. -/
def Arrives (zstd : Zstd) (r : Request) (buffer buffer' : Bytes) : Prop :=
  ∃ body, buffer' = buffer ++ frameBytes body ∧ body ≠ [] ∧ body.length ≤ MAX_FRAME_SIZE ∧
    readRequest zstd body = .ok (r, [])

/-! ## Requests that begin with strings -/

theorem encodeStringRequest_ok {opcode : Nat} {values : List String} {buffer buffer' : Bytes}
    (h : encodeStringRequest opcode values buffer = (.ok (), buffer')) :
    (∀ v ∈ values, (utf8 v).length < 65536) ∧
      buffer' = buffer ++ frameBytes (toBE 1 opcode ++ values.flatMap stringBytes) := by
  simp [encodeStringRequest, framed, encodeStrings_eq_ok] at h
  exact ⟨h.1, h.2.2⟩

theorem encodeStringsAnd_ok {opcode : Nat} {values : List String} {fields : List Encoder}
    {buffer buffer' : Bytes} (rest : Bytes)
    (hfields : ∀ b b', inOrder fields b = (.ok (), b') → b' = b ++ rest)
    (h : encodeStringsAnd opcode values fields buffer = (.ok (), buffer')) :
    (∀ v ∈ values, (utf8 v).length < 65536) ∧
      buffer' = buffer ++ frameBytes (toBE 1 opcode ++ (values.flatMap stringBytes ++ rest)) := by
  simp only [encodeStringsAnd, inOrder_cons_eq_ok, inOrder_nil_eq_ok] at h
  obtain ⟨_, hstrings, _, hmore, _, hlen, rfl⟩ := h
  obtain ⟨hvalues, rfl⟩ := encodeStringRequest_ok hstrings
  obtain rfl := hfields _ _ hmore
  rw [frameBytes, List.append_assoc, List.append_assoc, setFrameLen_eq_ok, List.append_assoc] at hlen
  exact ⟨hvalues, hlen.2⟩

theorem length_strings_le {values : List String} (h : ∀ v ∈ values, (utf8 v).length < 65536) :
    (values.flatMap stringBytes).length ≤ values.length * 65538 := by
  induction values with
  | nil => simp
  | cons v values ih =>
    rw [List.forall_mem_cons] at h
    have ih' := ih h.2
    simp only [List.flatMap_cons, stringBytes, List.length_append, toBE_length, List.length_cons]
    omega

section Strings

variable {zstd : Zstd} {buffer buffer' : Bytes}

/-- Three strings and a few numbers are well within the limit of a frame. -/
theorem Arrives.strings {r : Request} {opcode : Nat} {values : List String} {rest : Bytes}
    (hvalues : ∀ v ∈ values, (utf8 v).length < 65536) (hcount : values.length ≤ 3)
    (hrest : rest.length ≤ 28)
    (hread : readRequest zstd (toBE 1 opcode ++ (values.flatMap stringBytes ++ rest)) =
      .ok (r, [])) :
    Arrives zstd r buffer
      (buffer ++ frameBytes (toBE 1 opcode ++ (values.flatMap stringBytes ++ rest))) := by
  refine ⟨_, rfl, by simp [toBE], ?_, hread⟩
  have hlen := length_strings_le hvalues
  simp only [List.length_append, toBE_length, MAX_FRAME_SIZE]
  omega

theorem joinGroup_arrives {r : GroupMemberRequest}
    (h : encodeGroupMember JOIN_GROUP r buffer = (.ok (), buffer')) :
    Arrives zstd (.joinGroup r) buffer buffer' := by
  obtain ⟨hvalues, rfl⟩ := encodeStringRequest_ok h
  rw [← List.append_nil (List.flatMap _ _)]
  refine .strings hvalues (by simp) (by simp) ?_
  simp only [List.forall_mem_cons] at hvalues
  rw [readRequest, getInt_bind (by decide)]
  refine Parser.map_apply _ ?_
  simp [decodeGroupMember, hvalues, -List.append_nil]

theorem decodeGroupGeneration_append {r : GroupGenerationRequest}
    (hvalues : ∀ v ∈ [r.group, r.topic, r.member], (utf8 v).length < 65536) :
    decodeGroupGeneration ([r.group, r.topic, r.member].flatMap stringBytes ++
      [toBE 8 r.generation.toNat].flatten) = .ok (r, []) := by
  simp only [List.forall_mem_cons] at hvalues
  simp [decodeGroupGeneration, hvalues, -List.append_nil]

theorem heartbeat_arrives {r : GroupGenerationRequest}
    (h : encodeGroupGeneration HEARTBEAT r buffer = (.ok (), buffer')) :
    Arrives zstd (.heartbeat r) buffer buffer' := by
  obtain ⟨hvalues, rfl⟩ := encodeStringsAnd_ok [toBE 8 r.generation.toNat].flatten (by simp) h
  refine .strings hvalues (by simp) (by simp) ?_
  rw [readRequest, getInt_bind (by decide)]
  exact Parser.map_apply _ (decodeGroupGeneration_append hvalues)

theorem leaveGroup_arrives {r : GroupGenerationRequest}
    (h : encodeGroupGeneration LEAVE_GROUP r buffer = (.ok (), buffer')) :
    Arrives zstd (.leaveGroup r) buffer buffer' := by
  obtain ⟨hvalues, rfl⟩ := encodeStringsAnd_ok [toBE 8 r.generation.toNat].flatten (by simp) h
  refine .strings hvalues (by simp) (by simp) ?_
  rw [readRequest, getInt_bind (by decide)]
  exact Parser.map_apply _ (decodeGroupGeneration_append hvalues)

theorem commitOffset_arrives {r : CommitOffsetRequest}
    (h : encodeCommitOffset r buffer = (.ok (), buffer')) :
    Arrives zstd (.commitOffset r) buffer buffer' := by
  obtain ⟨hvalues, rfl⟩ := encodeStringsAnd_ok [toBE 8 r.generation.toNat,
    toBE 4 r.partition.toNat, toBE 8 r.offset.toNat].flatten (by simp) h
  refine .strings hvalues (by simp) (by simp) ?_
  simp only [List.forall_mem_cons] at hvalues
  rw [readRequest, getInt_bind (by decide)]
  refine Parser.map_apply _ ?_
  simp [decodeCommitOffset, hvalues, -List.append_nil]

theorem fetchCommittedOffset_arrives {r : FetchCommittedOffsetRequest}
    (h : encodeFetchCommitted r buffer = (.ok (), buffer')) :
    Arrives zstd (.fetchCommittedOffset r) buffer buffer' := by
  obtain ⟨hvalues, rfl⟩ := encodeStringsAnd_ok [toBE 4 r.partition.toNat].flatten (by simp) h
  refine .strings hvalues (by simp) (by simp) ?_
  simp only [List.forall_mem_cons] at hvalues
  rw [readRequest, getInt_bind (by decide)]
  refine Parser.map_apply _ ?_
  simp [decodeFetchCommitted, hvalues, -List.append_nil]

theorem groupFetch_arrives {r : GroupFetchRequest}
    (h : encodeGroupFetch r buffer = (.ok (), buffer')) :
    Arrives zstd (.groupFetch r) buffer buffer' := by
  simp only [encodeGroupFetch, inOrder_cons_eq_ok, inOrder_nil_eq_ok, require_eq_ok] at h
  obtain ⟨_, ⟨hvalid, rfl⟩, _, h, rfl⟩ := h
  obtain ⟨hvalues, rfl⟩ := encodeStringsAnd_ok [toBE 8 r.generation.toNat,
    toBE 4 r.partition.toNat, toBE 8 r.offset.toNat, toBE 4 r.maxBytes.toNat,
    toBE 4 r.maxWaitMs.toNat].flatten (by simp) h
  refine .strings hvalues (by simp) (by simp) ?_
  simp only [List.forall_mem_cons] at hvalues
  rw [readRequest, getInt_bind (by decide)]
  refine Parser.map_apply _ ?_
  simp [decodeGroupFetch, hvalues, hvalid, -List.append_nil]

theorem createTopic_arrives {r : CreateTopicRequest}
    (h : encodeCreateTopic r buffer = (.ok (), buffer')) :
    Arrives zstd (.createTopic r) buffer buffer' := by
  simp only [encodeCreateTopic, inOrder_cons_eq_ok, inOrder_nil_eq_ok, require_eq_ok,
    ite_error_eq_ok] at h
  obtain ⟨_, ⟨htopic, rfl⟩, _, ⟨hpartitions, rfl⟩, _, h, rfl⟩ := h
  obtain ⟨hvalues, rfl⟩ := encodeStringsAnd_ok [toBE 4 r.partitions.toNat].flatten (by simp) h
  have hzero : r.partitions.toNat ≠ 0 := fun h => hpartitions (UInt32.toNat_inj.1 h)
  refine .strings hvalues (by simp) (by simp) ?_
  simp only [List.forall_mem_cons] at hvalues
  rw [readRequest, getInt_bind (by decide)]
  refine Parser.map_apply _ ?_
  simp [decodeCreateTopic, hvalues, htopic, hzero, -List.append_nil]

theorem describeTopic_arrives {topic : String} (htopic : validateTopic topic = .ok ())
    (h : encodeStringRequest DESCRIBE_TOPIC [topic] buffer = (.ok (), buffer')) :
    Arrives zstd (.describeTopic topic) buffer buffer' := by
  obtain ⟨hvalues, rfl⟩ := encodeStringRequest_ok h
  rw [← List.append_nil (List.flatMap _ _)]
  refine .strings hvalues (by simp) (by simp) ?_
  simp only [List.forall_mem_cons] at hvalues
  rw [readRequest, getInt_bind (by decide)]
  refine Parser.map_apply _ ?_
  simp [decodeDescribeTopic, hvalues, htopic, -List.append_nil]

theorem partitionStatus_arrives {r : PartitionStatusRequest}
    (h : encodeStringsAnd PARTITION_STATUS [r.topic] [put (toBE 4 r.partition.toNat)] buffer =
      (.ok (), buffer')) :
    Arrives zstd (.partitionStatus r) buffer buffer' := by
  obtain ⟨hvalues, rfl⟩ := encodeStringsAnd_ok [toBE 4 r.partition.toNat].flatten (by simp) h
  refine .strings hvalues (by simp) (by simp) ?_
  simp only [List.forall_mem_cons] at hvalues
  rw [readRequest, getInt_bind (by decide)]
  refine Parser.map_apply _ ?_
  simp [decodePartitionStatus, hvalues, -List.append_nil]

theorem promoteLeader_arrives {r : PromoteLeaderRequest}
    (h : encodeLeadershipRequest PROMOTE_LEADER r.topic r.partition r.leaderId 0 0 buffer =
      (.ok (), buffer')) :
    Arrives zstd (.promoteLeader r) buffer buffer' := by
  simp [encodeLeadershipRequest, framed, PROMOTE_LEADER, APPLY_LEADERSHIP] at h
  obtain ⟨_, hlen, _, rfl⟩ := h
  have hvalues : ∀ v ∈ [r.topic], (utf8 v).length < 65536 := by simpa using hlen
  have hframe := @Arrives.strings zstd buffer (.promoteLeader r) PROMOTE_LEADER [r.topic]
    [toBE 4 r.partition.toNat, toBE 4 r.leaderId.toNat].flatten hvalues (by simp) (by simp) (by
      rw [readRequest, getInt_bind (by decide)]
      refine Parser.map_apply _ ?_
      simp [decodePromoteLeader, hlen, -List.append_nil])
  simpa [PROMOTE_LEADER] using hframe

theorem applyLeadership_arrives {r : ApplyLeadershipRequest}
    (h : encodeLeadershipRequest APPLY_LEADERSHIP r.topic r.leadership.partition
      r.leadership.leaderId r.leadership.leaderEpoch r.leadership.highWatermark buffer =
      (.ok (), buffer')) :
    Arrives zstd (.applyLeadership r) buffer buffer' := by
  simp [encodeLeadershipRequest, framed] at h
  obtain ⟨_, hlen, _, rfl⟩ := h
  have hvalues : ∀ v ∈ [r.topic], (utf8 v).length < 65536 := by simpa using hlen
  have hframe := @Arrives.strings zstd buffer (.applyLeadership r) APPLY_LEADERSHIP [r.topic]
    [toBE 4 r.leadership.partition.toNat, toBE 4 r.leadership.leaderId.toNat,
      toBE 8 r.leadership.leaderEpoch.toNat, toBE 8 r.leadership.highWatermark.toNat].flatten
    hvalues (by simp) (by simp) (by
      rw [readRequest, getInt_bind (by decide)]
      refine Parser.map_apply _ ?_
      simp [decodeApplyLeadership, hlen, -List.append_nil])
  simpa using hframe

end Strings

/-! ## Requests that are built by a constructor -/

theorem validateTopic_ne_nil {topic : String} (h : validateTopic topic = .ok ()) :
    utf8 topic ≠ [] := by
  unfold validateTopic at h
  split at h
  · cases h
  · rw [ite_error_eq_ok] at h
    exact fun hnil => h (Or.inl hnil)

theorem validateIdentifier_length {id : String} (h : validateIdentifier id = .ok ()) :
    (utf8 id).length ≤ MAX_TOPIC_NAME ∧ (utf8 id).length ≠ 0 := by
  simp only [validateIdentifier, ite_error_eq_ok, not_or, not_lt] at h
  refine ⟨h.2.1, fun hzero => h.1 ?_⟩
  have hnil : utf8 id = [] := List.length_eq_zero_iff.1 hzero
  have hread := fromUtf8_utf8 id
  have hempty := fromUtf8_utf8 ""
  rw [hnil] at hread
  have hsame : some "" = some id := hempty.symm.trans hread
  cases hsame
  rfl

/-- The bytes of an optional partition. -/
def partitionBytes (partition : Option UInt32) : Bytes :=
  toBE 1 partition.isSome.toNat ++ toBE 4 (partition.getD 0).toNat

/-- The bytes of an optional producer. -/
def producerBytes : Option ProducerIdentity → Bytes
  | some producer => stringBytes producer.id ++ toBE 8 producer.sequence.toNat
  | none => toBE 2 0 ++ toBE 8 0

section Constructed

variable {β : Type}

@[simp] theorem putPartition_eq_ok {partition : Option UInt32} {buffer buffer' : Bytes} :
    putPartition partition buffer = (.ok (), buffer') ↔
      buffer' = buffer ++ partitionBytes partition := by
  simp [putPartition, partitionBytes]

theorem readPartition_bind (partition : Option UInt32) (f : Option UInt32 → Parser β)
    (rest : Bytes) :
    (readPartition >>= f) (partitionBytes partition ++ rest) = f partition rest := by
  refine Parser.bind_ok ?_ f
  cases partition with
  | none => simp +arith [readPartition, partitionBytes, getInt_bind]
  | some partition => simp +arith [readPartition, partitionBytes, getInt_bind]

theorem readTopic_bind {topic : String} (h : (utf8 topic).length ≤ MAX_TOPIC_NAME)
    (f : String → Parser β) (rest : Bytes) :
    (readTopic >>= f) (stringBytes topic ++ rest) = f topic rest := by
  have hlen : (utf8 topic).length < 65536 := Nat.lt_of_le_of_lt h (by decide)
  refine Parser.bind_ok ?_ f
  simp [readTopic, stringBytes, hlen, h]

theorem readProducer_bind {producer : Option ProducerIdentity}
    (h : ∀ p, producer = some p → validateIdentifier p.id = .ok ())
    (f : Option ProducerIdentity → Parser β) (rest : Bytes) :
    (readProducer >>= f) (producerBytes producer ++ rest) = f producer rest := by
  refine Parser.bind_ok ?_ f
  cases producer with
  | none => simp +arith [readProducer, producerBytes, getInt_map]
  | some producer =>
    obtain ⟨hle, hne⟩ := validateIdentifier_length (h producer rfl)
    have hlen : (utf8 producer.id).length < 65536 := Nat.lt_of_le_of_lt hle (by decide)
    simp +arith [readProducer, producerBytes, stringBytes, hlen, hne]

/-- What the constructor has checked. -/
theorem ProduceRequest.limits (r : ProduceRequest) :
    validateTopic r.topic = .ok () ∧ r.key.length ≤ MAX_KEY_SIZE ∧
      r.payload.length ≤ MAX_MESSAGE_SIZE ∧
      ∀ p, r.producer = some p → validateIdentifier p.id = .ok () := by
  have hvalid := r.valid
  simp only [validateProduce, checkAll_cons_eq_ok, validateSize_eq_ok, checkAll_nil_eq_ok,
    and_true] at hvalid
  refine ⟨hvalid.1, hvalid.2.1, hvalid.2.2.1, fun p hp => ?_⟩
  have hproducer := hvalid.2.2.2
  rw [hp] at hproducer
  exact hproducer

/-- The fields of a produce request after its opcode. -/
def ProduceRequest.fields (r : ProduceRequest) : List Bytes :=
  [stringBytes r.topic, toBE 2 r.key.length, r.key, toBE 4 r.payload.length, r.payload,
    toBE 1 r.ackMode.code, producerBytes r.producer, partitionBytes r.partition]

/-- The length that is written ahead is that of the frame. -/
theorem ProduceRequest.length_fields (r : ProduceRequest) :
    1 + 2 + (utf8 r.topic).length + 2 + r.key.length + 4 + r.payload.length + 1 + 2 +
      producerLen r.producer + 8 + 5 = (toBE 1 PRODUCE ++ r.fields.flatten).length := by
  cases hp : r.producer with
  | none =>
    simp [fields, hp, producerLen, producerBytes, partitionBytes, stringBytes]
    omega
  | some producer =>
    simp [fields, hp, producerLen, producerBytes, partitionBytes, stringBytes]
    omega

theorem ProduceRequest.length_le (r : ProduceRequest) :
    (toBE 1 PRODUCE ++ r.fields.flatten).length ≤ MAX_FRAME_SIZE := by
  obtain ⟨htopic, hkey, hpayload, hproducer⟩ := r.limits
  have htopic' := validateTopic_length htopic
  have hid : producerLen r.producer ≤ MAX_TOPIC_NAME := by
    cases hp : r.producer with
    | none => exact Nat.zero_le _
    | some producer => exact (validateIdentifier_length (hproducer producer hp)).1
  rw [← r.length_fields]
  simp only [MAX_TOPIC_NAME, MAX_KEY_SIZE, MAX_MESSAGE_SIZE, MAX_FRAME_SIZE] at *
  omega

/-- A produce request can always be encoded. -/
theorem encodeProduce_eq_ok {r : ProduceRequest} {buffer buffer' : Bytes} :
    encodeProduce r buffer = (.ok (), buffer') ↔
      buffer' = buffer ++ frameBytes (toBE 1 PRODUCE ++ r.fields.flatten) := by
  obtain ⟨htopic, hkey, hpayload, hproducer⟩ := r.limits
  have htopic' : (utf8 r.topic).length < 65536 :=
    Nat.lt_of_le_of_lt (validateTopic_length htopic) (by decide)
  have hkey' : r.key.length < 65536 := Nat.lt_of_le_of_lt hkey (by decide)
  have hpayload' : r.payload.length < 4294967296 := Nat.lt_of_le_of_lt hpayload (by decide)
  have hlen : (toBE 1 PRODUCE ++ r.fields.flatten).length < 4294967296 :=
    Nat.lt_of_le_of_lt r.length_le (by decide)
  simp only [encodeProduce, r.length_fields, frameBytes]
  generalize (toBE 1 PRODUCE ++ r.fields.flatten).length = n at hlen ⊢
  cases hp : r.producer with
  | none =>
    simp [hlen, htopic', hkey', hpayload', ProduceRequest.fields, hp, producerLen, producerBytes,
      stringBytes]
  | some producer =>
    have hid : (utf8 producer.id).length < 65536 :=
      Nat.lt_of_le_of_lt (validateIdentifier_length (hproducer producer hp)).1 (by decide)
    simp [hlen, htopic', hkey', hpayload', hid, ProduceRequest.fields, hp, producerLen,
      producerBytes, stringBytes]

theorem decodeProduce_fields (r : ProduceRequest) :
    decodeProduce r.fields.flatten = .ok (r, []) := by
  obtain ⟨htopic, hkey, hpayload, hproducer⟩ := r.limits
  have hkey' : r.key.length < 65536 := Nat.lt_of_le_of_lt hkey (by decide)
  have hpayload' : r.payload.length < 4294967296 := Nat.lt_of_le_of_lt hpayload (by decide)
  have hcode : r.ackMode.code < 256 ^ 1 := by cases r.ackMode <;> decide
  have hnew := ProduceRequest.new_valid r.valid r.ackMode
  simp +arith [decodeProduce, ProduceRequest.fields, readTopic_bind (validateTopic_length htopic),
    validateTopic_ne_nil htopic, hkey, hkey', hpayload, hpayload', getInt_bind hcode,
    readProducer_bind hproducer, readPartition_bind, hnew, -List.append_nil]
  cases r with
  | mk topic key payload ackMode producer partition valid =>
    cases partition with
    | none => rfl
    | some partition => rfl

theorem FetchRequest.length_topic (r : FetchRequest) : (utf8 r.topic).length ≤ MAX_TOPIC_NAME := by
  have hvalid := r.valid
  simp only [validateFetch, checkAll_cons_eq_ok] at hvalid
  exact validateTopic_length hvalid.1

/-- The fields of a fetch request after its opcode. -/
def FetchRequest.fields (r : FetchRequest) : List Bytes :=
  [stringBytes r.topic, toBE 4 r.partition.toNat, toBE 8 r.offset.toNat, toBE 4 r.maxBytes.toNat,
    toBE 4 r.maxWaitMs.toNat]

theorem FetchRequest.length_fields (r : FetchRequest) :
    1 + 2 + (utf8 r.topic).length + 4 + 8 + 4 + 4 =
      (toBE 1 FETCH ++ r.fields.flatten).length := by
  simp [fields, stringBytes]
  omega

theorem FetchRequest.length_le (r : FetchRequest) :
    (toBE 1 FETCH ++ r.fields.flatten).length ≤ MAX_FRAME_SIZE := by
  have htopic := r.length_topic
  rw [← r.length_fields]
  simp only [MAX_TOPIC_NAME, MAX_FRAME_SIZE] at *
  omega

/-- A fetch request can always be encoded. -/
theorem encodeFetch_eq_ok {r : FetchRequest} {buffer buffer' : Bytes} :
    encodeFetch r buffer = (.ok (), buffer') ↔
      buffer' = buffer ++ frameBytes (toBE 1 FETCH ++ r.fields.flatten) := by
  have htopic : (utf8 r.topic).length < 65536 := Nat.lt_of_le_of_lt r.length_topic (by decide)
  have hlen : (toBE 1 FETCH ++ r.fields.flatten).length < 4294967296 :=
    Nat.lt_of_le_of_lt r.length_le (by decide)
  simp only [encodeFetch, r.length_fields, frameBytes]
  generalize (toBE 1 FETCH ++ r.fields.flatten).length = n at hlen ⊢
  simp [hlen, htopic, FetchRequest.fields, stringBytes]

theorem decodeFetch_fields (r : FetchRequest) : decodeFetch r.fields.flatten = .ok (r, []) := by
  have hnew := FetchRequest.new_valid r.valid r.partition r.offset
  simp +arith [decodeFetch, FetchRequest.fields, readTopic_bind r.length_topic, hnew,
    -List.append_nil]

end Constructed

/-! ## Batches -/

/-- The bytes of a record of a batch. -/
def BatchRecord.bytes (record : BatchRecord) : Bytes :=
  toBE 2 record.key.length ++ (record.key ++ (toBE 4 record.payload.length ++ record.payload))

/-- The bytes of a batch that is not compressed. -/
def batchBytes (records : List BatchRecord) : Bytes :=
  toBE 4 records.length ++ records.flatMap BatchRecord.bytes

def BatchRecord.Fits (record : BatchRecord) : Prop :=
  record.key.length ≤ MAX_KEY_SIZE ∧ record.payload.length ≤ MAX_MESSAGE_SIZE

theorem encodedSize_ok {records : List BatchRecord} {start size : Nat}
    (h : encodedSize start records = .ok size) :
    (∀ record ∈ records, record.Fits) ∧
      size = start + (records.flatMap BatchRecord.bytes).length := by
  induction records generalizing start with
  | nil =>
    cases h
    simp
  | cons record records ih =>
    rw [encodedSize] at h
    split at h
    · cases h
    · rename_i hcheck
      simp only [checkAll_cons_eq_ok, validateSize_eq_ok] at hcheck
      obtain ⟨hall, hsize⟩ := ih h
      refine ⟨List.forall_mem_cons.2 ⟨⟨hcheck.1, hcheck.2.1⟩, hall⟩, ?_⟩
      rw [hsize, List.flatMap_cons, List.length_append]
      simp only [BatchRecord.bytes, List.length_append, toBE_length]
      omega

/-- What the constructor has checked. -/
theorem ProduceBatchRequest.limits (r : ProduceBatchRequest) :
    validateTopic r.topic = .ok () ∧ r.records ≠ [] ∧ r.records.length ≤ MAX_BATCH_MESSAGES ∧
      (∀ record ∈ r.records, record.Fits) ∧
      (batchBytes r.records).length ≤ MAX_UNCOMPRESSED_BATCH_SIZE := by
  have hvalid := r.valid
  simp only [validateBatch, checkAll_cons_eq_ok, ite_error_eq_ok, not_or, not_lt] at hvalid
  obtain ⟨htopic, ⟨hne, hcount⟩, hsize, _⟩ := hvalid
  split at hsize
  · cases hsize
  · rename_i size hencoded
    obtain ⟨hall, rfl⟩ := encodedSize_ok hencoded
    refine ⟨htopic, hne, hcount, hall, ?_⟩
    rw [validateSize_eq_ok] at hsize
    simpa [batchBytes] using hsize

theorem encodeBatchRecords_eq_ok {r : ProduceBatchRequest} {buffer buffer' : Bytes} :
    encodeBatchRecords r.records buffer = (.ok (), buffer') ↔
      buffer' = buffer ++ batchBytes r.records := by
  obtain ⟨_, _, hcount, hall, _⟩ := r.limits
  have hcount' : r.records.length < 4294967296 := Nat.lt_of_le_of_lt hcount (by decide)
  have hrecord : ∀ record b b', encodeBatchRecord record b = (.ok (), b') ↔
      (record.key.length < 65536 ∧ record.payload.length < 4294967296) ∧
        b' = b ++ record.bytes := by
    intro record b b'
    simp [encodeBatchRecord, BatchRecord.bytes, and_assoc]
  have hfits : ∀ record ∈ r.records, record.key.length < 65536 ∧
      record.payload.length < 4294967296 := by
    intro record hmem
    obtain ⟨hkey, hpayload⟩ := hall record hmem
    exact ⟨Nat.lt_of_le_of_lt hkey (by decide), Nat.lt_of_le_of_lt hpayload (by decide)⟩
  have hrecords := fun b b' => @inOrder_map_eq_ok _ _ _ _ hrecord r.records b b'
  simp only [encodeBatchRecords, inOrder_cons_eq_ok, inOrder_nil_eq_ok, putLen_eq_ok, hrecords]
  simp [hcount', batchBytes]
  exact fun _ => hfits

theorem decodeBatchRecords_bytes (r : ProduceBatchRequest) :
    decodeBatchRecords (batchBytes r.records) = .ok (r.records, []) := by
  obtain ⟨_, hne, hcount, hall, _⟩ := r.limits
  have hcount' : r.records.length < 4294967296 := Nat.lt_of_le_of_lt hcount (by decide)
  have hzero : ¬ (r.records.length = 0 ∨ r.records.length > MAX_BATCH_MESSAGES) := by
    rw [List.length_eq_zero_iff]
    simp [hne, hcount]
  have hread : ∀ record ∈ r.records, ∀ rest,
      decodeBatchRecord (record.bytes ++ rest) = .ok (record, rest) := by
    intro record hmem rest
    obtain ⟨hkey, hpayload⟩ := hall record hmem
    have hkey' : record.key.length < 65536 := Nat.lt_of_le_of_lt hkey (by decide)
    have hpayload' : record.payload.length < 4294967296 := Nat.lt_of_le_of_lt hpayload (by decide)
    simp [decodeBatchRecord, BatchRecord.bytes, hkey, hkey', hpayload, hpayload']
  rw [decodeBatchRecords, batchBytes, readLen_bind hcount', ensure_bind (by simpa using hzero),
    ← List.append_nil (List.flatMap _ _), readMany_bind hread]
  rfl

/-- Decompression inverts compression. -/
def Zstd.Inverts (zstd : Zstd) : Prop :=
  ∀ records encoded, zstd.compress records = some encoded →
    records.length ≤ MAX_UNCOMPRESSED_BATCH_SIZE →
    zstd.decompress encoded MAX_UNCOMPRESSED_BATCH_SIZE = some records

/-- A batch can be compressed and grows by less than half a mebibyte. -/
def Zstd.Bounded (zstd : Zstd) : Prop :=
  ∀ records, records.length ≤ MAX_UNCOMPRESSED_BATCH_SIZE →
    ∃ encoded, zstd.compress records = some encoded ∧ encoded.length < records.length + 512 * 1024

/-- The fields of a batch after its opcode, with its records compressed to `encoded`. -/
def ProduceBatchRequest.fields (r : ProduceBatchRequest) (encoded : Bytes) : List Bytes :=
  [stringBytes r.topic, toBE 1 r.ackMode.code, toBE 1 r.compression.code,
    toBE 4 (batchBytes r.records).length, toBE 4 encoded.length, encoded,
    partitionBytes r.partition]

section Batches

variable {zstd : Zstd}

/-- When a batch can be encoded. -/
theorem encodeProduceBatch_eq_ok {r : ProduceBatchRequest} {buffer buffer' : Bytes} :
    encodeProduceBatch zstd r buffer = (.ok (), buffer') ↔
      ∃ encoded, compressBatch zstd r.compression (batchBytes r.records) = .ok encoded ∧
        (toBE 1 PRODUCE_BATCH ++ (r.fields encoded).flatten).length ≤ MAX_FRAME_SIZE ∧
        buffer' = buffer ++ frameBytes (toBE 1 PRODUCE_BATCH ++ (r.fields encoded).flatten) := by
  obtain ⟨htopic, _, _, _, hsize⟩ := r.limits
  have hrecords : encodeBatchRecords r.records [] = (.ok (), batchBytes r.records) :=
    encodeBatchRecords_eq_ok.2 rfl
  unfold encodeProduceBatch
  rw [hrecords]
  cases hcompress : compressBatch zstd r.compression (batchBytes r.records) with
  | error e => simp [hcompress]
  | ok encoded =>
    have htopic' : (utf8 r.topic).length < 65536 :=
      Nat.lt_of_le_of_lt (validateTopic_length htopic) (by decide)
    have hsize' : (batchBytes r.records).length < 4294967296 :=
      Nat.lt_of_le_of_lt hsize (by decide)
    have hfields : ∀ b b', inOrder [put (toBE 1 PRODUCE_BATCH),
        putLen 2 (utf8 r.topic).length .topicTooLarge, put (utf8 r.topic),
        put (toBE 1 r.ackMode.code), put (toBE 1 r.compression.code),
        putLen 4 (batchBytes r.records).length .batchTooLarge,
        putLen 4 encoded.length .frameTooLarge, put encoded, putPartition r.partition] b =
          (.ok (), b') ↔ encoded.length < 4294967296 ∧
            b' = b ++ (toBE 1 PRODUCE_BATCH ++ (r.fields encoded).flatten) := by
      intro b b'
      simp [htopic', hsize', ProduceBatchRequest.fields, stringBytes]
    have hin : encoded.length ≤ (toBE 1 PRODUCE_BATCH ++ (r.fields encoded).flatten).length := by
      simp only [ProduceBatchRequest.fields, List.flatten_cons, List.length_append]
      omega
    simp only [hcompress, Except.ok.injEq, exists_eq_left']
    generalize toBE 1 PRODUCE_BATCH ++ (r.fields encoded).flatten = body at hfields hin ⊢
    have hlen : (buffer ++ frameBytes body).length - buffer.length - FRAME_HEADER_SIZE =
        body.length := by
      simp only [frameBytes, List.length_append, toBE_length, FRAME_HEADER_SIZE]
      omega
    simp only [inOrder_cons_eq_ok, framed_eq_ok hfields, inOrder_nil_eq_ok]
    constructor
    · rintro ⟨_, ⟨_, rfl⟩, _, hcheck, rfl⟩
      rw [Prod.mk.injEq, hlen, validateSize_eq_ok] at hcheck
      exact ⟨hcheck.1, hcheck.2.symm⟩
    · rintro ⟨hmax, rfl⟩
      have hmax' : body.length < 4294967296 := Nat.lt_of_le_of_lt hmax (by decide)
      refine ⟨_, ⟨⟨Nat.lt_of_le_of_lt hin hmax', hmax'⟩, rfl⟩, _, ?_, rfl⟩
      rw [Prod.mk.injEq, hlen, validateSize_eq_ok]
      exact ⟨hmax, rfl⟩

theorem decompressBatch_compressed (hinverts : zstd.Inverts) {compression : Compression}
    {records encoded : Bytes} (hsize : records.length ≤ MAX_UNCOMPRESSED_BATCH_SIZE)
    (h : compressBatch zstd compression records = .ok encoded) :
    decompressBatch zstd compression encoded = .ok records := by
  cases compression with
  | none =>
    cases h
    rfl
  | zstd =>
    simp only [compressBatch] at h
    split at h
    · cases h
    · rename_i hcompress
      cases h
      simp only [decompressBatch, hinverts _ _ hcompress hsize]

theorem decodeProduceBatch_fields (hinverts : zstd.Inverts) (r : ProduceBatchRequest)
    {encoded : Bytes}
    (hcompress : compressBatch zstd r.compression (batchBytes r.records) = .ok encoded)
    (hlen : encoded.length < 4294967296) :
    decodeProduceBatch zstd (r.fields encoded).flatten = .ok (r, []) := by
  obtain ⟨htopic, _, _, _, hsize⟩ := r.limits
  have hsize' : (batchBytes r.records).length < 4294967296 :=
    Nat.lt_of_le_of_lt hsize (by decide)
  have hcode : r.ackMode.code < 256 ^ 1 := by cases r.ackMode <;> decide
  have hcode' : r.compression.code < 256 ^ 1 := by cases r.compression <;> decide
  have hnew := ProduceBatchRequest.new_valid r.valid r.ackMode r.compression
  simp +arith [decodeProduceBatch, ProduceBatchRequest.fields,
    readTopic_bind (validateTopic_length htopic), getInt_bind hcode, getInt_bind hcode', hlen,
    hsize, hsize', readPartition_bind, decompressBatch_compressed hinverts hsize hcompress,
    decodeBatchRecords_bytes, hnew, -List.append_nil]
  cases r with
  | mk topic records ackMode compression partition valid =>
    cases partition with
    | none => rfl
    | some partition => rfl

/-- A batch that a constructor has accepted is within the limit of a frame. -/
theorem ProduceBatchRequest.length_le (hbounded : zstd.Bounded) (r : ProduceBatchRequest) :
    ∃ encoded, compressBatch zstd r.compression (batchBytes r.records) = .ok encoded ∧
      (toBE 1 PRODUCE_BATCH ++ (r.fields encoded).flatten).length ≤ MAX_FRAME_SIZE := by
  obtain ⟨htopic, _, _, _, hsize⟩ := r.limits
  have htopic' := validateTopic_length htopic
  have hencoded : ∃ encoded,
      compressBatch zstd r.compression (batchBytes r.records) = .ok encoded ∧
      encoded.length < (batchBytes r.records).length + 512 * 1024 := by
    cases r.compression with
    | none => exact ⟨_, rfl, by omega⟩
    | zstd =>
      obtain ⟨encoded, hcompress, hlen⟩ := hbounded _ hsize
      refine ⟨encoded, ?_, hlen⟩
      simp only [compressBatch, hcompress]
  obtain ⟨encoded, hcompress, hlen⟩ := hencoded
  refine ⟨encoded, hcompress, ?_⟩
  simp only [fields, stringBytes, partitionBytes, List.flatten_cons, List.flatten_nil,
    List.length_append, toBE_length, List.length_nil, MAX_FRAME_SIZE, MAX_TOPIC_NAME,
    MAX_UNCOMPRESSED_BATCH_SIZE] at *
  omega

end Batches

/-! ## All requests -/

theorem encodeRequest_arrives {zstd : Zstd} (hinverts : zstd.Inverts) {r : Request}
    {buffer buffer' : Bytes} (h : encodeRequest zstd r buffer = (.ok (), buffer')) :
    Arrives zstd r buffer buffer' := by
  cases r with
  | produce r =>
    refine ⟨_, encodeProduce_eq_ok.1 h, by simp [toBE], r.length_le, ?_⟩
    rw [readRequest, getInt_bind (by decide)]
    exact Parser.map_apply _ (decodeProduce_fields r)
  | produceBatch r =>
    obtain ⟨encoded, hcompress, hmax, rfl⟩ := encodeProduceBatch_eq_ok.1 h
    have hlen : encoded.length < 4294967296 := by
      have hin : encoded.length ≤ (toBE 1 PRODUCE_BATCH ++ (r.fields encoded).flatten).length := by
        simp only [ProduceBatchRequest.fields, List.flatten_cons, List.length_append]
        omega
      exact Nat.lt_of_le_of_lt (Nat.le_trans hin hmax) (by decide)
    refine ⟨_, rfl, by simp [toBE], hmax, ?_⟩
    rw [readRequest, getInt_bind (by decide)]
    exact Parser.map_apply _ (decodeProduceBatch_fields hinverts r hcompress hlen)
  | fetch r =>
    refine ⟨_, encodeFetch_eq_ok.1 h, by simp [toBE], r.length_le, ?_⟩
    rw [readRequest, getInt_bind (by decide)]
    exact Parser.map_apply _ (decodeFetch_fields r)
  | joinGroup r => exact joinGroup_arrives h
  | heartbeat r => exact heartbeat_arrives h
  | leaveGroup r => exact leaveGroup_arrives h
  | commitOffset r => exact commitOffset_arrives h
  | fetchCommittedOffset r => exact fetchCommittedOffset_arrives h
  | groupFetch r => exact groupFetch_arrives h
  | createTopic r => exact createTopic_arrives h
  | describeTopic topic =>
    simp only [encodeRequest, inOrder_cons_eq_ok, inOrder_nil_eq_ok, require_eq_ok] at h
    obtain ⟨_, ⟨htopic, rfl⟩, _, h, rfl⟩ := h
    exact describeTopic_arrives htopic h
  | promoteLeader r => exact promoteLeader_arrives h
  | applyLeadership r => exact applyLeadership_arrives h
  | partitionStatus r =>
    simp only [encodeRequest, inOrder_cons_eq_ok, inOrder_nil_eq_ok, require_eq_ok] at h
    obtain ⟨_, ⟨_, rfl⟩, _, h, rfl⟩ := h
    exact partitionStatus_arrives h
  | listTopics =>
    refine ⟨toBE 1 LIST_TOPICS, ?_, by simp [toBE], by decide, by rfl⟩
    simpa [encodeRequest, frameBytes] using h
  | clusterMetadata =>
    refine ⟨toBE 1 CLUSTER_METADATA, ?_, by simp [toBE], by decide, by rfl⟩
    simpa [encodeRequest, frameBytes] using h

/-- **What was encoded is decoded as it was sent**, and what a constructor has accepted can be
encoded. -/
theorem request_round_trip {zstd : Zstd} (hinverts : zstd.Inverts) (hbounded : zstd.Bounded) :
    (∀ r buffer buffer', encodeRequest zstd r buffer = (.ok (), buffer') →
      ∃ appended, buffer' = buffer ++ appended ∧
        ∀ rest, decodeRequest zstd (appended ++ rest) = .ok (some (r, rest))) ∧
    (∀ topic key payload ackMode producer r,
      ProduceRequest.new topic key payload ackMode producer = .ok r → ∀ buffer,
        (∃ buffer', encodeRequest zstd (.produce r) buffer = (.ok (), buffer')) ∧
        ∀ partition, ∃ buffer', encodeRequest zstd (.produce (r.withPartition partition)) buffer =
          (.ok (), buffer')) ∧
    (∀ topic records ackMode compression r,
      ProduceBatchRequest.new topic records ackMode compression = .ok r → ∀ buffer,
        (∃ buffer', encodeRequest zstd (.produceBatch r) buffer = (.ok (), buffer')) ∧
        ∀ partition, ∃ buffer', encodeRequest zstd (.produceBatch (r.withPartition partition))
          buffer = (.ok (), buffer')) ∧
    (∀ topic partition offset maxBytes maxWaitMs r,
      FetchRequest.new topic partition offset maxBytes maxWaitMs = .ok r → ∀ buffer,
        ∃ buffer', encodeRequest zstd (.fetch r) buffer = (.ok (), buffer')) := by
  have hbatch : ∀ (r : ProduceBatchRequest) buffer,
      ∃ buffer', encodeRequest zstd (.produceBatch r) buffer = (.ok (), buffer') := by
    intro r buffer
    obtain ⟨encoded, hcompress, hmax⟩ := r.length_le hbounded
    exact ⟨_, encodeProduceBatch_eq_ok.2 ⟨encoded, hcompress, hmax, rfl⟩⟩
  refine ⟨?_, ?_, ?_, ?_⟩
  · intro r buffer buffer' h
    obtain ⟨body, rfl, hne, hmax, hread⟩ := encodeRequest_arrives hinverts h
    exact ⟨_, rfl, decodeFrame_append hne hmax hread⟩
  · intro _ _ _ _ _ r _ buffer
    exact ⟨⟨_, encodeProduce_eq_ok.2 rfl⟩, fun partition => ⟨_, encodeProduce_eq_ok.2 rfl⟩⟩
  · intro _ _ _ _ r _ buffer
    exact ⟨hbatch r buffer, fun partition => hbatch (r.withPartition partition) buffer⟩
  · intro _ _ _ _ _ r _ buffer
    exact ⟨_, encodeFetch_eq_ok.2 rfl⟩

/-- A frame with one raw block, as `zstd` writes it for a few bytes that do not get shorter. -/
def rawZstd : Zstd where
  compress := fun records =>
    some ([0x28, 0xb5, 0x2f, 0xfd, 0x20, .ofNat records.length, .ofNat (8 * records.length + 1), 0, 0]
      ++ records)
  decompress := fun encoded limit =>
    if (encoded.drop 9).length ≤ limit then some (encoded.drop 9) else none

theorem request_round_trip_batch :
    ∃ r buffer appended,
      ProduceBatchRequest.new "payments" [⟨[107], [118]⟩] .durable .zstd = .ok r ∧
      encodeRequest rawZstd (.produceBatch (r.withPartition 2)) [1, 2, 3] = (.ok (), buffer) ∧
      buffer = [1, 2, 3] ++ appended ∧
      decodeRequest rawZstd (appended ++ [4, 5]) =
        .ok (some (.produceBatch (r.withPartition 2), [4, 5])) := by
  have hinverts : rawZstd.Inverts := by
    intro records encoded hcompress hsize
    cases hcompress
    simp [rawZstd, hsize]
  have hbounded : rawZstd.Bounded := by
    intro records _
    refine ⟨_, rfl, ?_⟩
    simp
  have hvalid : validateBatch "payments" [⟨[107], [118]⟩] = .ok () := by decide +kernel
  have hnew := ProduceBatchRequest.new_valid hvalid .durable .zstd
  obtain ⟨hround, _, hbatch, _⟩ := request_round_trip hinverts hbounded
  obtain ⟨buffer, hencode⟩ := (hbatch _ _ _ _ _ hnew [1, 2, 3]).2 2
  obtain ⟨appended, happended, hdecode⟩ := hround _ _ _ hencode
  exact ⟨_, buffer, appended, hnew, hencode, happended, hdecode [4, 5]⟩

end SevlaMq.Protocol
