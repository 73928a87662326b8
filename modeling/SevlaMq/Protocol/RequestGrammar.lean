import SevlaMq.Protocol.Grammar
import SevlaMq.Protocol.RequestRoundTrip

/-!
# The grammar of the requests

* `Request.Fields` — what may stand behind the opcode of a request; `Request.Says` — the bodies of
  the frames that say it.  A number that the decoder does not read can be anything: the sequence of
  a producer that is not there and the number of a partition that is not there.
* one lemma per decoder: it succeeds exactly on the fields of what it returns.
* `request_decoded_iff` — `decode_request` returns a request exactly when the buffer begins with a
  frame that says it.
-/

set_option autoImplicit false

namespace SevlaMq.Protocol

open SevlaMq.Storage (utf8)

/-! ## The grammar -/

/-- Strings and then numbers. -/
def Written (values : List String) (numbers : List Bytes) (s : Bytes) : Prop :=
  (∀ v ∈ values, (utf8 v).length < 65536) ∧ s = values.flatMap stringBytes ++ numbers.flatten

def PartitionSpelled : Option UInt32 → Bytes → Prop
  | some partition, s => s = toBE 1 1 ++ toBE 4 partition.toNat
  | none, s => ∃ unread : UInt32, s = toBE 1 0 ++ toBE 4 unread.toNat

def ProducerSpelled : Option ProducerIdentity → Bytes → Prop
  | some producer, s => (utf8 producer.id).length < 65536 ∧ utf8 producer.id ≠ [] ∧
      s = stringBytes producer.id ++ toBE 8 producer.sequence.toNat
  | none, s => ∃ unread : UInt64, s = toBE 2 0 ++ toBE 8 unread.toNat

def ProduceRequest.Spelled (r : ProduceRequest) (s : Bytes) : Prop :=
  ∃ producer partition, ProducerSpelled r.producer producer ∧
    PartitionSpelled r.partition partition ∧
    s = [stringBytes r.topic, toBE 2 r.key.length, r.key, toBE 4 r.payload.length, r.payload,
      toBE 1 r.ackMode.code, producer, partition].flatten

/-- The records can be compressed in any way that `zstd` reads back. -/
def ProduceBatchRequest.Spelled (zstd : Zstd) (r : ProduceBatchRequest) (s : Bytes) : Prop :=
  ∃ encoded partition, decompressBatch zstd r.compression encoded = .ok (batchBytes r.records) ∧
    encoded.length < 4294967296 ∧ PartitionSpelled r.partition partition ∧
    s = [stringBytes r.topic, toBE 1 r.ackMode.code, toBE 1 r.compression.code,
      toBE 4 (batchBytes r.records).length, toBE 4 encoded.length, encoded, partition].flatten

def GroupMemberRequest.Spelled (r : GroupMemberRequest) (s : Bytes) : Prop :=
  Written [r.group, r.topic, r.member] [] s

def GroupGenerationRequest.Spelled (r : GroupGenerationRequest) (s : Bytes) : Prop :=
  Written [r.group, r.topic, r.member] [toBE 8 r.generation.toNat] s

def CommitOffsetRequest.Spelled (r : CommitOffsetRequest) (s : Bytes) : Prop :=
  Written [r.group, r.topic, r.member]
    [toBE 8 r.generation.toNat, toBE 4 r.partition.toNat, toBE 8 r.offset.toNat] s

def FetchCommittedOffsetRequest.Spelled (r : FetchCommittedOffsetRequest) (s : Bytes) : Prop :=
  Written [r.group, r.topic] [toBE 4 r.partition.toNat] s

def GroupFetchRequest.Spelled (r : GroupFetchRequest) (s : Bytes) : Prop :=
  validateFetch r.topic r.maxBytes r.maxWaitMs = .ok () ∧
    Written [r.group, r.topic, r.member]
      [toBE 8 r.generation.toNat, toBE 4 r.partition.toNat, toBE 8 r.offset.toNat,
        toBE 4 r.maxBytes.toNat, toBE 4 r.maxWaitMs.toNat] s

def CreateTopicRequest.Spelled (r : CreateTopicRequest) (s : Bytes) : Prop :=
  validateTopic r.topic = .ok () ∧ r.partitions ≠ 0 ∧
    Written [r.topic] [toBE 4 r.partitions.toNat] s

/-- The encoder also checks the topic, here and in the next two. -/
def PromoteLeaderRequest.Spelled (r : PromoteLeaderRequest) (s : Bytes) : Prop :=
  Written [r.topic] [toBE 4 r.partition.toNat, toBE 4 r.leaderId.toNat] s

def ApplyLeadershipRequest.Spelled (r : ApplyLeadershipRequest) (s : Bytes) : Prop :=
  Written [r.topic]
    [toBE 4 r.leadership.partition.toNat, toBE 4 r.leadership.leaderId.toNat,
      toBE 8 r.leadership.leaderEpoch.toNat, toBE 8 r.leadership.highWatermark.toNat] s

def PartitionStatusRequest.Spelled (r : PartitionStatusRequest) (s : Bytes) : Prop :=
  Written [r.topic] [toBE 4 r.partition.toNat] s

def Request.code : Request → Nat
  | .produce _ => PRODUCE
  | .produceBatch _ => PRODUCE_BATCH
  | .fetch _ => FETCH
  | .joinGroup _ => JOIN_GROUP
  | .heartbeat _ => HEARTBEAT
  | .leaveGroup _ => LEAVE_GROUP
  | .commitOffset _ => COMMIT_OFFSET
  | .fetchCommittedOffset _ => FETCH_COMMITTED_OFFSET
  | .groupFetch _ => GROUP_FETCH
  | .createTopic _ => CREATE_TOPIC
  | .listTopics => LIST_TOPICS
  | .describeTopic _ => DESCRIBE_TOPIC
  | .clusterMetadata => CLUSTER_METADATA
  | .promoteLeader _ => PROMOTE_LEADER
  | .applyLeadership _ => APPLY_LEADERSHIP
  | .partitionStatus _ => PARTITION_STATUS

theorem Request.code_lt (r : Request) : r.code < 256 ^ 1 := by
  cases r <;> rw [Request.code] <;> decide

/-- What may stand behind the opcode. -/
def Request.Fields (zstd : Zstd) : Request → Bytes → Prop
  | .produce r, s => r.Spelled s
  | .produceBatch r, s => r.Spelled zstd s
  | .fetch r, s => s = r.fields.flatten
  | .joinGroup r, s => r.Spelled s
  | .heartbeat r, s => r.Spelled s
  | .leaveGroup r, s => r.Spelled s
  | .commitOffset r, s => r.Spelled s
  | .fetchCommittedOffset r, s => r.Spelled s
  | .groupFetch r, s => r.Spelled s
  | .createTopic r, s => r.Spelled s
  | .listTopics, s => s = []
  | .describeTopic topic, s => validateTopic topic = .ok () ∧ Written [topic] [] s
  | .clusterMetadata, s => s = []
  | .promoteLeader r, s => r.Spelled s
  | .applyLeadership r, s => r.Spelled s
  | .partitionStatus r, s => r.Spelled s

/-- The body of a frame says the request. -/
def Request.Says (zstd : Zstd) (r : Request) (body : Bytes) : Prop :=
  ∃ fields, r.Fields zstd fields ∧ body = toBE 1 r.code ++ fields

/-! ## Requests of strings and numbers -/

theorem decodeGroupMember_covers : Covers decodeGroupMember GroupMemberRequest.Spelled := by
  intro frame r left
  constructor
  · intro h
    simp only [decodeGroupMember, decodeString_bind_eq_ok, ensureEmpty_bind_eq_ok, pure_eq_ok] at h
    obtain ⟨group, _, hgroup, rfl, topic, _, htopic, rfl, member, _, hmember, rfl, rfl, ⟨⟩⟩ := h
    exact ⟨⟨by simp [hgroup, htopic, hmember], by simp⟩, rfl⟩
  · rintro ⟨⟨hvalues, rfl⟩, rfl⟩
    simp only [List.forall_mem_cons] at hvalues
    simp [decodeGroupMember, hvalues, -List.append_nil]

theorem decodeGroupGeneration_covers :
    Covers decodeGroupGeneration GroupGenerationRequest.Spelled := by
  intro frame r left
  constructor
  · intro h
    simp only [decodeGroupGeneration, decodeString_bind_eq_ok, ensureRemaining_bind_eq_ok,
      getInt_u64_bind_eq_ok, ensureEmpty_bind_eq_ok, pure_eq_ok] at h
    obtain ⟨group, _, hgroup, rfl, topic, _, htopic, rfl, member, _, hmember, rfl, _, generation, _,
      rfl, rfl, ⟨⟩⟩ := h
    exact ⟨⟨by simp [hgroup, htopic, hmember], by simp⟩, rfl⟩
  · rintro ⟨⟨hvalues, rfl⟩, rfl⟩
    exact decodeGroupGeneration_append hvalues

theorem decodeCommitOffset_covers : Covers decodeCommitOffset CommitOffsetRequest.Spelled := by
  intro frame r left
  constructor
  · intro h
    simp only [decodeCommitOffset, decodeString_bind_eq_ok, ensureRemaining_bind_eq_ok,
      getInt_u32_bind_eq_ok, getInt_u64_bind_eq_ok, ensureEmpty_bind_eq_ok, pure_eq_ok] at h
    obtain ⟨group, _, hgroup, rfl, topic, _, htopic, rfl, member, _, hmember, rfl, _, generation, _,
      rfl, partition, _, rfl, offset, _, rfl, rfl, ⟨⟩⟩ := h
    exact ⟨⟨by simp [hgroup, htopic, hmember], by simp⟩, rfl⟩
  · rintro ⟨⟨hvalues, rfl⟩, rfl⟩
    simp only [List.forall_mem_cons] at hvalues
    simp [decodeCommitOffset, hvalues, -List.append_nil]

theorem decodeFetchCommitted_covers :
    Covers decodeFetchCommitted FetchCommittedOffsetRequest.Spelled := by
  intro frame r left
  constructor
  · intro h
    simp only [decodeFetchCommitted, decodeString_bind_eq_ok, ensureRemaining_bind_eq_ok,
      getInt_u32_bind_eq_ok, ensureEmpty_bind_eq_ok, pure_eq_ok] at h
    obtain ⟨group, _, hgroup, rfl, topic, _, htopic, rfl, _, partition, _, rfl, rfl, ⟨⟩⟩ := h
    exact ⟨⟨by simp [hgroup, htopic], by simp⟩, rfl⟩
  · rintro ⟨⟨hvalues, rfl⟩, rfl⟩
    simp only [List.forall_mem_cons] at hvalues
    simp [decodeFetchCommitted, hvalues, -List.append_nil]

theorem decodeGroupFetch_covers : Covers decodeGroupFetch GroupFetchRequest.Spelled := by
  intro frame r left
  constructor
  · intro h
    simp only [decodeGroupFetch, decodeString_bind_eq_ok, ensureRemaining_bind_eq_ok,
      getInt_u32_bind_eq_ok, getInt_u64_bind_eq_ok, ensureEmpty_bind_eq_ok, ensure_bind_eq_ok,
      pure_eq_ok] at h
    obtain ⟨group, _, hgroup, rfl, topic, _, htopic, rfl, member, _, hmember, rfl, _, generation, _,
      rfl, partition, _, rfl, offset, _, rfl, maxBytes, _, rfl, maxWaitMs, _, rfl, rfl, hvalid,
      ⟨⟩⟩ := h
    exact ⟨⟨hvalid, by simp [hgroup, htopic, hmember], by simp⟩, rfl⟩
  · rintro ⟨⟨hvalid, hvalues, rfl⟩, rfl⟩
    simp only [List.forall_mem_cons] at hvalues
    simp [decodeGroupFetch, hvalues, hvalid, -List.append_nil]

theorem decodeCreateTopic_covers : Covers decodeCreateTopic CreateTopicRequest.Spelled := by
  intro frame r left
  constructor
  · intro h
    simp only [decodeCreateTopic, decodeString_bind_eq_ok, ensureRemaining_bind_eq_ok,
      getInt_u32_bind_eq_ok, ensureEmpty_bind_eq_ok, ensure_bind_eq_ok, ite_error_eq_ok,
      pure_eq_ok] at h
    obtain ⟨topic, _, htopic, rfl, _, partitions, _, rfl, rfl, hvalid, hzero, ⟨⟩⟩ := h
    refine ⟨⟨hvalid, fun hnone => hzero ?_, by simp [htopic], by simp⟩, rfl⟩
    simpa using congrArg UInt32.toNat hnone
  · rintro ⟨⟨hvalid, hpartitions, hvalues, rfl⟩, rfl⟩
    have hzero : r.partitions.toNat ≠ 0 := fun h => hpartitions (UInt32.toNat_inj.1 h)
    simp only [List.forall_mem_cons] at hvalues
    simp [decodeCreateTopic, hvalues, hvalid, hzero, -List.append_nil]

theorem decodeDescribeTopic_covers : Covers decodeDescribeTopic fun topic s =>
    validateTopic topic = .ok () ∧ Written [topic] [] s := by
  intro frame topic left
  constructor
  · intro h
    simp only [decodeDescribeTopic, decodeString_bind_eq_ok, ensureEmpty_bind_eq_ok,
      ensure_bind_eq_ok, pure_eq_ok] at h
    obtain ⟨topic, _, htopic, rfl, rfl, hvalid, ⟨⟩⟩ := h
    exact ⟨⟨hvalid, by simp [htopic], by simp⟩, rfl⟩
  · rintro ⟨⟨hvalid, hvalues, rfl⟩, rfl⟩
    simp only [List.forall_mem_cons] at hvalues
    simp [decodeDescribeTopic, hvalues, hvalid, -List.append_nil]

theorem decodePromoteLeader_covers : Covers decodePromoteLeader PromoteLeaderRequest.Spelled := by
  intro frame r left
  constructor
  · intro h
    simp only [decodePromoteLeader, decodeString_bind_eq_ok, ensureRemaining_bind_eq_ok,
      getInt_u32_bind_eq_ok, ensureEmpty_bind_eq_ok, pure_eq_ok] at h
    obtain ⟨topic, _, htopic, rfl, _, partition, _, rfl, leaderId, _, rfl, rfl, ⟨⟩⟩ := h
    exact ⟨⟨by simp [htopic], by simp⟩, rfl⟩
  · rintro ⟨⟨hvalues, rfl⟩, rfl⟩
    simp only [List.forall_mem_cons] at hvalues
    simp [decodePromoteLeader, hvalues, -List.append_nil]

theorem decodeApplyLeadership_covers :
    Covers decodeApplyLeadership ApplyLeadershipRequest.Spelled := by
  intro frame r left
  constructor
  · intro h
    simp only [decodeApplyLeadership, decodeString_bind_eq_ok, ensureRemaining_bind_eq_ok,
      getInt_u32_bind_eq_ok, getInt_u64_bind_eq_ok, ensureEmpty_bind_eq_ok, pure_eq_ok] at h
    obtain ⟨topic, _, htopic, rfl, _, partition, _, rfl, leaderId, _, rfl, leaderEpoch, _, rfl,
      highWatermark, _, rfl, rfl, ⟨⟩⟩ := h
    exact ⟨⟨by simp [htopic], by simp⟩, rfl⟩
  · rintro ⟨⟨hvalues, rfl⟩, rfl⟩
    simp only [List.forall_mem_cons] at hvalues
    simp [decodeApplyLeadership, hvalues, -List.append_nil]

theorem decodePartitionStatus_covers :
    Covers decodePartitionStatus PartitionStatusRequest.Spelled := by
  intro frame r left
  constructor
  · intro h
    simp only [decodePartitionStatus, decodeString_bind_eq_ok, ensureRemaining_bind_eq_ok,
      getInt_u32_bind_eq_ok, ensureEmpty_bind_eq_ok, pure_eq_ok] at h
    obtain ⟨topic, _, htopic, rfl, _, partition, _, rfl, rfl, ⟨⟩⟩ := h
    exact ⟨⟨by simp [htopic], by simp⟩, rfl⟩
  · rintro ⟨⟨hvalues, rfl⟩, rfl⟩
    simp only [List.forall_mem_cons] at hvalues
    simp [decodePartitionStatus, hvalues, -List.append_nil]

/-! ## Requests that are built by a constructor -/

theorem readTopic_recognizes : Recognizes readTopic fun topic s =>
    (utf8 topic).length ≤ MAX_TOPIC_NAME ∧ s = stringBytes topic := by
  intro frame topic left
  constructor
  · intro h
    simp only [readTopic, readLen_bind_eq_ok, ensure_bind_eq_ok, validateSize_eq_ok,
      readBytes_bind_eq_ok, attempt_eq_ok, decodeUtf8_eq_ok] at h
    obtain ⟨len, _, _, rfl, hlen, bs, _, rfl, rfl, rfl, rfl⟩ := h
    exact ⟨_, ⟨hlen, rfl⟩, by simp [stringBytes]⟩
  · rintro ⟨_, ⟨hlen, rfl⟩, rfl⟩
    have hread := readTopic_bind hlen pure left
    rwa [bind_pure] at hread

theorem readPartition_recognizes : Recognizes readPartition PartitionSpelled := by
  intro frame partition left
  constructor
  · intro h
    simp only [readPartition, ensureRemaining_bind_eq_ok, @getInt_bind_eq_ok _ _ _ 1,
      getInt_u32_bind_eq_ok, ensure_bind_eq_ok, ite_error_eq_ok, not_lt, pure_eq_ok] at h
    obtain ⟨_, n, _, _, rfl, number, _, rfl, hle, h⟩ := h
    rcases Nat.le_one_iff_eq_zero_or_eq_one.1 hle with rfl | rfl
    · rw [if_neg Nat.zero_ne_one] at h
      cases h
      exact ⟨_, ⟨number, rfl⟩, by simp⟩
    · rw [if_pos rfl, UInt32.ofNat_toNat] at h
      cases h
      exact ⟨_, rfl, by simp⟩
  · rintro ⟨s, hs, rfl⟩
    cases partition with
    | none =>
      obtain ⟨unread, rfl⟩ := hs
      simp +arith [readPartition, getInt_bind]
    | some partition =>
      obtain rfl := hs
      simp +arith [readPartition, getInt_bind]

theorem readProducer_recognizes : Recognizes readProducer ProducerSpelled := by
  intro frame producer left
  constructor
  · intro h
    rw [readProducer, readLen_bind_eq_ok] at h
    obtain ⟨len, hlen, _, rfl, h⟩ := h
    split at h
    · rename_i hzero
      subst hzero
      simp only [ensureRemaining_bind_eq_ok, getInt_u64_bind_eq_ok, pure_eq_ok] at h
      obtain ⟨_, sequence, _, rfl, ⟨⟩⟩ := h
      exact ⟨_, ⟨sequence, rfl⟩, by simp⟩
    · rename_i hzero
      simp only [readBytes_bind_eq_ok, attempt_bind_eq_ok, decodeUtf8_eq_ok,
        ensureRemaining_bind_eq_ok, getInt_u64_bind_eq_ok, pure_eq_ok] at h
      obtain ⟨_, _, rfl, rfl, id, rfl, _, sequence, _, rfl, ⟨⟩⟩ := h
      exact ⟨_, ⟨hlen, fun hnil => hzero (by rw [hnil, List.length_nil]), rfl⟩,
        by simp [stringBytes]⟩
  · rintro ⟨s, hs, rfl⟩
    cases producer with
    | none =>
      obtain ⟨unread, rfl⟩ := hs
      simp +arith [readProducer]
    | some producer =>
      obtain ⟨hlen, hne, rfl⟩ := hs
      simp +arith [readProducer, stringBytes, hlen, hne]

theorem AckMode.code_of_fromCode {code : Nat} {mode : AckMode} (h : fromCode code = .ok mode) :
    code = mode.code := by
  unfold fromCode at h
  split at h
  · cases h
    rfl
  · cases h
    rfl
  · cases h

theorem Compression.code_of_fromCode {code : Nat} {compression : Compression}
    (h : fromCode code = .ok compression) : code = compression.code := by
  unfold fromCode at h
  split at h
  · cases h
    rfl
  · cases h
    rfl
  · cases h

theorem ProduceRequest.of_new {topic : String} {key payload : Bytes} {ackMode : AckMode}
    {producer : Option ProducerIdentity} {r : ProduceRequest}
    (h : ProduceRequest.new topic key payload ackMode producer = .ok r) :
    ∃ valid, r = ⟨topic, key, payload, ackMode, producer, none, valid⟩ := by
  unfold ProduceRequest.new at h
  split at h
  · cases h
  · cases h
    exact ⟨_, rfl⟩

theorem ProduceBatchRequest.of_new {topic : String} {records : List BatchRecord}
    {ackMode : AckMode} {compression : Compression} {r : ProduceBatchRequest}
    (h : ProduceBatchRequest.new topic records ackMode compression = .ok r) :
    ∃ valid, r = ⟨topic, records, ackMode, compression, none, valid⟩ := by
  unfold ProduceBatchRequest.new at h
  split at h
  · cases h
  · cases h
    exact ⟨_, rfl⟩

theorem FetchRequest.of_new {topic : String} {partition : UInt32} {offset : UInt64}
    {maxBytes maxWaitMs : UInt32} {r : FetchRequest}
    (h : FetchRequest.new topic partition offset maxBytes maxWaitMs = .ok r) :
    ∃ valid, r = ⟨topic, partition, offset, maxBytes, maxWaitMs, valid⟩ := by
  unfold FetchRequest.new at h
  split at h
  · cases h
  · cases h
    exact ⟨_, rfl⟩

theorem decodeFetch_covers : Covers decodeFetch fun r s => s = r.fields.flatten := by
  intro frame r left
  constructor
  · intro h
    simp only [decodeFetch, readTopic_recognizes.bind_eq_ok, ensureRemaining_bind_eq_ok,
      getInt_u32_bind_eq_ok, getInt_u64_bind_eq_ok, ensureEmpty_bind_eq_ok, attempt_eq_ok,
      UInt32.ofNat_toNat, UInt64.ofNat_toNat] at h
    obtain ⟨topic, _, _, ⟨_, rfl⟩, rfl, _, partition, _, rfl, offset, _, rfl, maxBytes, _, rfl,
      maxWaitMs, _, rfl, rfl, hnew, rfl⟩ := h
    obtain ⟨valid, rfl⟩ := FetchRequest.of_new hnew
    exact ⟨by simp [FetchRequest.fields], rfl⟩
  · rintro ⟨rfl, rfl⟩
    exact decodeFetch_fields r

theorem decodeProduce_covers : Covers decodeProduce ProduceRequest.Spelled := by
  intro frame r left
  constructor
  · intro h
    simp only [decodeProduce, readTopic_recognizes.bind_eq_ok, ensure_bind_eq_ok, ite_error_eq_ok,
      validateSize_eq_ok, readLen_bind_eq_ok, readBytes_bind_eq_ok, ensureRemaining_bind_eq_ok,
      getInt_bind_eq_ok, attempt_bind_eq_ok, readProducer_recognizes.bind_eq_ok,
      readPartition_recognizes.bind_eq_ok, ensureEmpty_bind_eq_ok, pure_eq_ok] at h
    obtain ⟨topic, _, _, ⟨_, rfl⟩, rfl, _, keyLen, _, _, rfl, _, key, _, rfl, rfl, payloadLen, _, _,
      rfl, _, payload, _, rfl, rfl, _, code, _, _, rfl, ackMode, hmode, producer, s, _, hproducer,
      rfl, partition, s', _, hpartition, rfl, rfl, request, hnew, h⟩ := h
    obtain ⟨valid, rfl⟩ := ProduceRequest.of_new hnew
    obtain rfl := AckMode.code_of_fromCode hmode
    obtain ⟨rfl, rfl⟩ : r = ⟨topic, key, payload, ackMode, producer, partition, valid⟩ ∧
        left = [] := by
      cases partition with
      | none =>
        cases h
        exact ⟨rfl, rfl⟩
      | some partition =>
        cases h
        exact ⟨rfl, rfl⟩
    exact ⟨⟨s, s', hproducer, hpartition, by simp⟩, rfl⟩
  · rintro ⟨⟨s, s', hproducer, hpartition, rfl⟩, rfl⟩
    obtain ⟨htopic, hkey, hpayload, _⟩ := r.limits
    have hkey' : r.key.length < 65536 := Nat.lt_of_le_of_lt hkey (by decide)
    have hpayload' : r.payload.length < 4294967296 := Nat.lt_of_le_of_lt hpayload (by decide)
    have hcode : r.ackMode.code < 256 ^ 1 := by cases r.ackMode <;> decide
    have hnew := ProduceRequest.new_valid r.valid r.ackMode
    simp +arith [decodeProduce, readTopic_bind (validateTopic_length htopic),
      validateTopic_ne_nil htopic, hkey, hkey', hpayload, hpayload', getInt_bind hcode,
      readProducer_recognizes.bind_append hproducer,
      readPartition_recognizes.bind_append hpartition, hnew, -List.append_nil]
    cases r with
    | mk topic key payload ackMode producer partition valid =>
      cases partition with
      | none => rfl
      | some partition => rfl

/-! ## Batches -/

theorem decodeBatchRecord_recognizes : Recognizes decodeBatchRecord fun record s =>
    record.Fits ∧ s = record.bytes := by
  intro frame record left
  constructor
  · intro h
    simp only [decodeBatchRecord, readLen_bind_eq_ok, ensure_bind_eq_ok, validateSize_eq_ok,
      readBytes_bind_eq_ok, pure_eq_ok] at h
    obtain ⟨_, _, _, rfl, hkey, key, _, rfl, rfl, _, _, _, rfl, hpayload, payload, _, rfl, rfl,
      ⟨⟩⟩ := h
    exact ⟨_, ⟨⟨hkey, hpayload⟩, rfl⟩, by simp [BatchRecord.bytes]⟩
  · rintro ⟨_, ⟨⟨hkey, hpayload⟩, rfl⟩, rfl⟩
    have hkey' : record.key.length < 65536 := Nat.lt_of_le_of_lt hkey (by decide)
    have hpayload' : record.payload.length < 4294967296 := Nat.lt_of_le_of_lt hpayload (by decide)
    simp [decodeBatchRecord, BatchRecord.bytes, hkey, hkey', hpayload, hpayload']

/-- The bytes of a batch are those of its records. -/
theorem decodeBatchRecords_ok {decoded left : Bytes} {records : List BatchRecord}
    (h : decodeBatchRecords decoded = .ok (records, left)) : decoded = batchBytes records := by
  simp only [decodeBatchRecords, readLen_bind_eq_ok, ensure_bind_eq_ok,
    readMany_bind_eq_ok decodeBatchRecord_recognizes, ensureEmpty_bind_eq_ok, pure_eq_ok] at h
  obtain ⟨_, _, _, rfl, _, records, _, rfl, _, rfl, rfl, ⟨⟩⟩ := h
  simp [batchBytes]

theorem decodeProduceBatch_covers (zstd : Zstd) :
    Covers (decodeProduceBatch zstd) (ProduceBatchRequest.Spelled zstd) := by
  intro frame r left
  constructor
  · intro h
    simp only [decodeProduceBatch, readTopic_recognizes.bind_eq_ok, ensureRemaining_bind_eq_ok,
      getInt_bind_eq_ok, attempt_bind_eq_ok, readLen_bind_eq_ok, ensure_bind_eq_ok,
      ite_error_eq_ok, readBytes_bind_eq_ok, readPartition_recognizes.bind_eq_ok,
      ensureEmpty_bind_eq_ok, pure_eq_ok] at h
    obtain ⟨topic, _, _, ⟨_, rfl⟩, rfl, _, code, _, _, rfl, ackMode, hmode, code', _, _, rfl,
      compression, hcompression, n, _, _, rfl, _, encodedLen, hencoded, _, rfl, encoded, _, rfl,
      rfl, partition, s, _, hpartition, rfl, rfl, decoded, hdecoded, hsize, ⟨records, _⟩, hrecords,
      request, hnew, h⟩ := h
    obtain ⟨valid, rfl⟩ := ProduceBatchRequest.of_new hnew
    obtain rfl := AckMode.code_of_fromCode hmode
    obtain rfl := Compression.code_of_fromCode hcompression
    obtain rfl := decodeBatchRecords_ok hrecords
    obtain rfl := not_not.1 hsize
    obtain ⟨rfl, rfl⟩ : r = ⟨topic, records, ackMode, compression, partition, valid⟩ ∧
        left = [] := by
      cases partition with
      | none =>
        cases h
        exact ⟨rfl, rfl⟩
      | some partition =>
        cases h
        exact ⟨rfl, rfl⟩
    exact ⟨⟨encoded, s, hdecoded, hencoded, hpartition, by simp⟩, rfl⟩
  · rintro ⟨⟨encoded, s, hdecoded, hencoded, hpartition, rfl⟩, rfl⟩
    obtain ⟨htopic, _, _, _, hsize⟩ := r.limits
    have hsize' : (batchBytes r.records).length < 4294967296 :=
      Nat.lt_of_le_of_lt hsize (by decide)
    have hcode : r.ackMode.code < 256 ^ 1 := by cases r.ackMode <;> decide
    have hcode' : r.compression.code < 256 ^ 1 := by cases r.compression <;> decide
    have hnew := ProduceBatchRequest.new_valid r.valid r.ackMode r.compression
    simp +arith [decodeProduceBatch, readTopic_bind (validateTopic_length htopic),
      getInt_bind hcode, getInt_bind hcode', hencoded, hsize, hsize',
      readPartition_recognizes.bind_append hpartition, hdecoded, decodeBatchRecords_bytes, hnew,
      -List.append_nil]
    cases r with
    | mk topic records ackMode compression partition valid =>
      cases partition with
      | none => rfl
      | some partition => rfl

/-! ## All requests -/

/-- **The decoder of a body succeeds exactly on what says a request.** -/
theorem readRequest_covers (zstd : Zstd) : Covers (readRequest zstd) (Request.Says zstd) := by
  intro body r left
  constructor
  · intro h
    rw [readRequest, getInt_bind_eq_ok] at h
    obtain ⟨opcode, _, fields, rfl, h⟩ := h
    -- one case for each arm of the match, the last one fails
    split at h
    · obtain ⟨⟨a, hs, rfl⟩, hleft⟩ := (decodeProduce_covers.map _ _ _ _).1 h
      exact ⟨⟨fields, hs, rfl⟩, hleft⟩
    · obtain ⟨⟨a, hs, rfl⟩, hleft⟩ := ((decodeProduceBatch_covers zstd).map _ _ _ _).1 h
      exact ⟨⟨fields, hs, rfl⟩, hleft⟩
    · obtain ⟨⟨a, hs, rfl⟩, hleft⟩ := (decodeFetch_covers.map _ _ _ _).1 h
      exact ⟨⟨fields, hs, rfl⟩, hleft⟩
    · obtain ⟨⟨a, hs, rfl⟩, hleft⟩ := (decodeGroupMember_covers.map _ _ _ _).1 h
      exact ⟨⟨fields, hs, rfl⟩, hleft⟩
    · obtain ⟨⟨a, hs, rfl⟩, hleft⟩ := (decodeGroupGeneration_covers.map _ _ _ _).1 h
      exact ⟨⟨fields, hs, rfl⟩, hleft⟩
    · obtain ⟨⟨a, hs, rfl⟩, hleft⟩ := (decodeGroupGeneration_covers.map _ _ _ _).1 h
      exact ⟨⟨fields, hs, rfl⟩, hleft⟩
    · obtain ⟨⟨a, hs, rfl⟩, hleft⟩ := (decodeCommitOffset_covers.map _ _ _ _).1 h
      exact ⟨⟨fields, hs, rfl⟩, hleft⟩
    · obtain ⟨⟨a, hs, rfl⟩, hleft⟩ := (decodeFetchCommitted_covers.map _ _ _ _).1 h
      exact ⟨⟨fields, hs, rfl⟩, hleft⟩
    · obtain ⟨⟨a, hs, rfl⟩, hleft⟩ := (decodeGroupFetch_covers.map _ _ _ _).1 h
      exact ⟨⟨fields, hs, rfl⟩, hleft⟩
    · obtain ⟨⟨a, hs, rfl⟩, hleft⟩ := (decodeCreateTopic_covers.map _ _ _ _).1 h
      exact ⟨⟨fields, hs, rfl⟩, hleft⟩
    · obtain ⟨⟨rfl, hs⟩, hleft⟩ := (alone_covers _ _ _ _ _).1 h
      exact ⟨⟨fields, hs, rfl⟩, hleft⟩
    · obtain ⟨⟨a, hs, rfl⟩, hleft⟩ := (decodeDescribeTopic_covers.map _ _ _ _).1 h
      exact ⟨⟨fields, hs, rfl⟩, hleft⟩
    · obtain ⟨⟨rfl, hs⟩, hleft⟩ := (alone_covers _ _ _ _ _).1 h
      exact ⟨⟨fields, hs, rfl⟩, hleft⟩
    · obtain ⟨⟨a, hs, rfl⟩, hleft⟩ := (decodePromoteLeader_covers.map _ _ _ _).1 h
      exact ⟨⟨fields, hs, rfl⟩, hleft⟩
    · obtain ⟨⟨a, hs, rfl⟩, hleft⟩ := (decodeApplyLeadership_covers.map _ _ _ _).1 h
      exact ⟨⟨fields, hs, rfl⟩, hleft⟩
    · obtain ⟨⟨a, hs, rfl⟩, hleft⟩ := (decodePartitionStatus_covers.map _ _ _ _).1 h
      exact ⟨⟨fields, hs, rfl⟩, hleft⟩
    · cases h
  · rintro ⟨⟨fields, hs, rfl⟩, rfl⟩
    rw [readRequest, getInt_bind r.code_lt]
    cases r with
    | produce r =>
      exact Parser.map_apply _ ((decodeProduce_covers _ _ _).2 ⟨hs, rfl⟩)
    | produceBatch r =>
      exact Parser.map_apply _ ((decodeProduceBatch_covers zstd _ _ _).2 ⟨hs, rfl⟩)
    | fetch r =>
      exact Parser.map_apply _ ((decodeFetch_covers _ _ _).2 ⟨hs, rfl⟩)
    | joinGroup r =>
      exact Parser.map_apply _ ((decodeGroupMember_covers _ _ _).2 ⟨hs, rfl⟩)
    | heartbeat r =>
      exact Parser.map_apply _ ((decodeGroupGeneration_covers _ _ _).2 ⟨hs, rfl⟩)
    | leaveGroup r =>
      exact Parser.map_apply _ ((decodeGroupGeneration_covers _ _ _).2 ⟨hs, rfl⟩)
    | commitOffset r =>
      exact Parser.map_apply _ ((decodeCommitOffset_covers _ _ _).2 ⟨hs, rfl⟩)
    | fetchCommittedOffset r =>
      exact Parser.map_apply _ ((decodeFetchCommitted_covers _ _ _).2 ⟨hs, rfl⟩)
    | groupFetch r =>
      exact Parser.map_apply _ ((decodeGroupFetch_covers _ _ _).2 ⟨hs, rfl⟩)
    | createTopic r =>
      exact Parser.map_apply _ ((decodeCreateTopic_covers _ _ _).2 ⟨hs, rfl⟩)
    | listTopics =>
      exact (alone_covers _ _ _ _ _).2 ⟨⟨rfl, hs⟩, rfl⟩
    | describeTopic topic =>
      exact Parser.map_apply _ ((decodeDescribeTopic_covers _ _ _).2 ⟨hs, rfl⟩)
    | clusterMetadata =>
      exact (alone_covers _ _ _ _ _).2 ⟨⟨rfl, hs⟩, rfl⟩
    | promoteLeader r =>
      exact Parser.map_apply _ ((decodePromoteLeader_covers _ _ _).2 ⟨hs, rfl⟩)
    | applyLeadership r =>
      exact Parser.map_apply _ ((decodeApplyLeadership_covers _ _ _).2 ⟨hs, rfl⟩)
    | partitionStatus r =>
      exact Parser.map_apply _ ((decodePartitionStatus_covers _ _ _).2 ⟨hs, rfl⟩)

/-- **A request is decoded exactly when the buffer begins with a frame that says it**, whatever
follows the frame. -/
theorem request_decoded_iff (zstd : Zstd) (buffer : Bytes) (r : Request) (rest : Bytes) :
    decodeRequest zstd buffer = .ok (some (r, rest)) ↔
      ∃ body, r.Says zstd body ∧ body.length ≤ MAX_FRAME_SIZE ∧
        buffer = frameBytes body ++ rest := by
  rw [decodeRequest, decodeFrame_eq_some (readRequest_covers zstd)]
  refine exists_congr fun body => and_congr_right fun hsays => and_iff_right ?_
  obtain ⟨fields, _, rfl⟩ := hsays
  simp [toBE]

end SevlaMq.Protocol
