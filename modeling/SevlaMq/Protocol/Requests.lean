import SevlaMq.Protocol.Messages

/-!
# The request codec

Model of `encode_request` and `decode_request` of `crates/protocol/src/lib.rs` with the encoder and
the decoder of each request.  `zstd` is a parameter.
-/

set_option autoImplicit false

namespace SevlaMq.Protocol

open SevlaMq.Storage (utf8)

/-- `zstd::bulk::compress` at level 3 and `zstd::bulk::decompress`. -/
structure Zstd where
  compress : Bytes → Option Bytes
  decompress : Bytes → Nat → Option Bytes

/-! ## Encoders -/

/-- An optional partition: whether there is one, and its number or zero. -/
def putPartition (partition : Option UInt32) : Encoder :=
  inOrder [put (toBE 1 partition.isSome.toNat), put (toBE 4 (partition.getD 0).toNat)]

/-- The length of the id of a producer. -/
def producerLen : Option ProducerIdentity → Nat
  | some producer => (utf8 producer.id).length
  | none => 0

def encodeProduce (r : ProduceRequest) : Encoder :=
  let frameLen := 1 + 2 + (utf8 r.topic).length + 2 + r.key.length + 4 + r.payload.length + 1 + 2 +
    producerLen r.producer + 8 + 5
  inOrder
    [putLen 4 frameLen .frameTooLarge, put (toBE 1 PRODUCE),
      putLen 2 (utf8 r.topic).length .topicTooLarge, put (utf8 r.topic),
      putLen 2 r.key.length .keyTooLarge, put r.key,
      putLen 4 r.payload.length .messageTooLarge, put r.payload,
      put (toBE 1 r.ackMode.code), putLen 2 (producerLen r.producer) .invalidProducerId,
      match r.producer with
      | some producer => inOrder [put (utf8 producer.id), put (toBE 8 producer.sequence.toNat)]
      | none => put (toBE 8 0),
      putPartition r.partition]

def encodeBatchRecord (record : BatchRecord) : Encoder :=
  inOrder
    [putLen 2 record.key.length .keyTooLarge, put record.key,
      putLen 4 record.payload.length .messageTooLarge, put record.payload]

def encodeBatchRecords (records : List BatchRecord) : Encoder :=
  inOrder [putLen 4 records.length .invalidBatchCount, inOrder (records.map encodeBatchRecord)]

def compressBatch (zstd : Zstd) (compression : Compression) (records : Bytes) :
    Except ProtocolError Bytes :=
  match compression with
  | .none => .ok records
  | .zstd =>
    match zstd.compress records with
    | none => .error .invalidCompressedBatch
    | some encoded => .ok encoded

def encodeProduceBatch (zstd : Zstd) (r : ProduceBatchRequest) : Encoder := fun buffer =>
  match encodeBatchRecords r.records [] with
  | (.error e, _) => (.error e, buffer)
  | (.ok (), records) =>
    match compressBatch zstd r.compression records with
    | .error e => (.error e, buffer)
    | .ok encoded =>
      inOrder
        [framed
          [put (toBE 1 PRODUCE_BATCH), putLen 2 (utf8 r.topic).length .topicTooLarge,
            put (utf8 r.topic), put (toBE 1 r.ackMode.code), put (toBE 1 r.compression.code),
            putLen 4 records.length .batchTooLarge, putLen 4 encoded.length .frameTooLarge,
            put encoded, putPartition r.partition],
          fun written => (validateSize (written.length - buffer.length - FRAME_HEADER_SIZE)
            MAX_FRAME_SIZE .frameTooLarge, written)] buffer

def encodeFetch (r : FetchRequest) : Encoder :=
  inOrder
    [putLen 4 (1 + 2 + (utf8 r.topic).length + 4 + 8 + 4 + 4) .frameTooLarge, put (toBE 1 FETCH),
      putLen 2 (utf8 r.topic).length .topicTooLarge, put (utf8 r.topic),
      put (toBE 4 r.partition.toNat), put (toBE 8 r.offset.toNat), put (toBE 4 r.maxBytes.toNat),
      put (toBE 4 r.maxWaitMs.toNat)]

def encodeStringRequest (opcode : Nat) (values : List String) : Encoder :=
  framed (put (toBE 1 opcode) :: values.map encodeString)

/-- `encode_string_request`, more fields and the length again. -/
def encodeStringsAnd (opcode : Nat) (values : List String) (fields : List Encoder) : Encoder :=
  fun buffer =>
    inOrder [encodeStringRequest opcode values, inOrder fields, setFrameLen buffer.length] buffer

def encodeGroupMember (opcode : Nat) (r : GroupMemberRequest) : Encoder :=
  encodeStringRequest opcode [r.group, r.topic, r.member]

def encodeGroupGeneration (opcode : Nat) (r : GroupGenerationRequest) : Encoder :=
  encodeStringsAnd opcode [r.group, r.topic, r.member] [put (toBE 8 r.generation.toNat)]

def encodeCommitOffset (r : CommitOffsetRequest) : Encoder :=
  encodeStringsAnd COMMIT_OFFSET [r.group, r.topic, r.member]
    [put (toBE 8 r.generation.toNat), put (toBE 4 r.partition.toNat), put (toBE 8 r.offset.toNat)]

def encodeFetchCommitted (r : FetchCommittedOffsetRequest) : Encoder :=
  encodeStringsAnd FETCH_COMMITTED_OFFSET [r.group, r.topic] [put (toBE 4 r.partition.toNat)]

def encodeGroupFetch (r : GroupFetchRequest) : Encoder :=
  inOrder
    [require (validateFetch r.topic r.maxBytes r.maxWaitMs),
      encodeStringsAnd GROUP_FETCH [r.group, r.topic, r.member]
        [put (toBE 8 r.generation.toNat), put (toBE 4 r.partition.toNat),
          put (toBE 8 r.offset.toNat), put (toBE 4 r.maxBytes.toNat),
          put (toBE 4 r.maxWaitMs.toNat)]]

def encodeCreateTopic (r : CreateTopicRequest) : Encoder :=
  inOrder
    [require (validateTopic r.topic),
      require (if r.partitions = 0 then .error .invalidPartitionCount else .ok ()),
      encodeStringsAnd CREATE_TOPIC [r.topic] [put (toBE 4 r.partitions.toNat)]]

def encodeLeadershipRequest (opcode : Nat) (topic : String) (partition leaderId : UInt32)
    (leaderEpoch highWatermark : UInt64) : Encoder :=
  inOrder
    [require (validateTopic topic),
      framed
        [put (toBE 1 opcode), encodeString topic, put (toBE 4 partition.toNat),
          put (toBE 4 leaderId.toNat),
          if opcode = APPLY_LEADERSHIP then
            inOrder [put (toBE 8 leaderEpoch.toNat), put (toBE 8 highWatermark.toNat)]
          else inOrder []]]

def encodeRequest (zstd : Zstd) : Request → Encoder
  | .produce r => encodeProduce r
  | .produceBatch r => encodeProduceBatch zstd r
  | .fetch r => encodeFetch r
  | .joinGroup r => encodeGroupMember JOIN_GROUP r
  | .heartbeat r => encodeGroupGeneration HEARTBEAT r
  | .leaveGroup r => encodeGroupGeneration LEAVE_GROUP r
  | .commitOffset r => encodeCommitOffset r
  | .fetchCommittedOffset r => encodeFetchCommitted r
  | .groupFetch r => encodeGroupFetch r
  | .createTopic r => encodeCreateTopic r
  | .listTopics => inOrder [put (toBE 4 1), put (toBE 1 LIST_TOPICS)]
  | .describeTopic topic =>
    inOrder [require (validateTopic topic), encodeStringRequest DESCRIBE_TOPIC [topic]]
  | .clusterMetadata => inOrder [put (toBE 4 1), put (toBE 1 CLUSTER_METADATA)]
  | .promoteLeader r => encodeLeadershipRequest PROMOTE_LEADER r.topic r.partition r.leaderId 0 0
  | .applyLeadership r =>
    encodeLeadershipRequest APPLY_LEADERSHIP r.topic r.leadership.partition r.leadership.leaderId
      r.leadership.leaderEpoch r.leadership.highWatermark
  | .partitionStatus r =>
    inOrder
      [require (validateTopic r.topic),
        encodeStringsAnd PARTITION_STATUS [r.topic] [put (toBE 4 r.partition.toNat)]]

/-! ## Decoders -/

/-- A topic as `decode_produce`, `decode_produce_batch` and `decode_fetch` read it. -/
def readTopic : Parser String := do
  let len ← readLen 2
  ensure (validateSize len MAX_TOPIC_NAME .topicTooLarge)
  let topic ← readBytes len
  attempt (decodeUtf8 topic .invalidTopic)

/-- The optional partition at the end of a produce request. -/
def readPartition : Parser (Option UInt32) := do
  ensureRemaining 5
  let hasPartition ← getInt 1
  let partition ← getInt 4
  ensure (if hasPartition > 1 then .error .invalidFrame else .ok ())
  pure (if hasPartition = 1 then some (.ofNat partition) else none)

def readProducer : Parser (Option ProducerIdentity) := do
  let len ← readLen 2
  if len = 0 then do
    ensureRemaining 8
    let _ ← getInt 8
    pure none
  else do
    let id ← readBytes len
    let id ← attempt (decodeUtf8 id .invalidProducerId)
    ensureRemaining 8
    let sequence ← getInt 8
    pure (some ⟨id, .ofNat sequence⟩)

def decodeProduce : Parser ProduceRequest := do
  let topic ← readTopic
  ensure (if utf8 topic = [] then .error .invalidTopic else .ok ())
  let keyLen ← readLen 2
  ensure (validateSize keyLen MAX_KEY_SIZE .keyTooLarge)
  let key ← readBytes keyLen
  let payloadLen ← readLen 4
  ensure (validateSize payloadLen MAX_MESSAGE_SIZE .messageTooLarge)
  let payload ← readBytes payloadLen
  ensureRemaining 1
  let code ← getInt 1
  let ackMode ← attempt (AckMode.fromCode code)
  let producer ← readProducer
  let partition ← readPartition
  ensureEmpty
  let request ← attempt (ProduceRequest.new topic key payload ackMode producer)
  pure (match partition with
    | some partition => request.withPartition partition
    | none => request)

def decodeBatchRecord : Parser BatchRecord := do
  let keyLen ← readLen 2
  ensure (validateSize keyLen MAX_KEY_SIZE .keyTooLarge)
  let key ← readBytes keyLen
  let payloadLen ← readLen 4
  ensure (validateSize payloadLen MAX_MESSAGE_SIZE .messageTooLarge)
  let payload ← readBytes payloadLen
  pure ⟨key, payload⟩

def decodeBatchRecords : Parser (List BatchRecord) := do
  let count ← readLen 4
  ensure (if count = 0 ∨ count > MAX_BATCH_MESSAGES then .error .invalidBatchCount else .ok ())
  let records ← readMany decodeBatchRecord count
  ensureEmpty
  pure records

def decompressBatch (zstd : Zstd) (compression : Compression) (encoded : Bytes) :
    Except ProtocolError Bytes :=
  match compression with
  | .none => .ok encoded
  | .zstd =>
    match zstd.decompress encoded MAX_UNCOMPRESSED_BATCH_SIZE with
    | none => .error .invalidCompressedBatch
    | some decoded => .ok decoded

def decodeProduceBatch (zstd : Zstd) : Parser ProduceBatchRequest := do
  let topic ← readTopic
  ensureRemaining (1 + 1 + 4 + 4)
  let code ← getInt 1
  let ackMode ← attempt (AckMode.fromCode code)
  let code ← getInt 1
  let compression ← attempt (Compression.fromCode code)
  let uncompressedLen ← readLen 4
  ensure (if uncompressedLen > MAX_UNCOMPRESSED_BATCH_SIZE then .error .batchTooLarge else .ok ())
  let encodedLen ← readLen 4
  let encoded ← readBytes encodedLen
  let partition ← readPartition
  ensureEmpty
  let decoded ← attempt (decompressBatch zstd compression encoded)
  ensure (if decoded.length ≠ uncompressedLen then .error .invalidCompressedBatch else .ok ())
  let (records, _) ← attempt (decodeBatchRecords decoded)
  let request ← attempt (ProduceBatchRequest.new topic records ackMode compression)
  pure (match partition with
    | some partition => request.withPartition partition
    | none => request)

def decodeFetch : Parser FetchRequest := do
  let topic ← readTopic
  ensureRemaining (4 + 8 + 4 * 2)
  let partition ← getInt 4
  let offset ← getInt 8
  let maxBytes ← getInt 4
  let maxWaitMs ← getInt 4
  ensureEmpty
  attempt (FetchRequest.new topic (.ofNat partition) (.ofNat offset) (.ofNat maxBytes)
    (.ofNat maxWaitMs))

def decodeGroupMember : Parser GroupMemberRequest := do
  let group ← decodeString
  let topic ← decodeString
  let member ← decodeString
  ensureEmpty
  pure ⟨group, topic, member⟩

def decodeGroupGeneration : Parser GroupGenerationRequest := do
  let group ← decodeString
  let topic ← decodeString
  let member ← decodeString
  ensureRemaining 8
  let generation ← getInt 8
  ensureEmpty
  pure ⟨group, topic, member, .ofNat generation⟩

def decodeCommitOffset : Parser CommitOffsetRequest := do
  let group ← decodeString
  let topic ← decodeString
  let member ← decodeString
  ensureRemaining 20
  let generation ← getInt 8
  let partition ← getInt 4
  let offset ← getInt 8
  ensureEmpty
  pure ⟨group, topic, member, .ofNat generation, .ofNat partition, .ofNat offset⟩

def decodeFetchCommitted : Parser FetchCommittedOffsetRequest := do
  let group ← decodeString
  let topic ← decodeString
  ensureRemaining 4
  let partition ← getInt 4
  ensureEmpty
  pure ⟨group, topic, .ofNat partition⟩

def decodeGroupFetch : Parser GroupFetchRequest := do
  let group ← decodeString
  let topic ← decodeString
  let member ← decodeString
  ensureRemaining 28
  let generation ← getInt 8
  let partition ← getInt 4
  let offset ← getInt 8
  let maxBytes ← getInt 4
  let maxWaitMs ← getInt 4
  ensureEmpty
  ensure (validateFetch topic (.ofNat maxBytes) (.ofNat maxWaitMs))
  pure ⟨group, topic, member, .ofNat generation, .ofNat partition, .ofNat offset, .ofNat maxBytes,
    .ofNat maxWaitMs⟩

def decodeCreateTopic : Parser CreateTopicRequest := do
  let topic ← decodeString
  ensureRemaining 4
  let partitions ← getInt 4
  ensureEmpty
  ensure (validateTopic topic)
  ensure (if partitions = 0 then .error .invalidPartitionCount else .ok ())
  pure ⟨topic, .ofNat partitions⟩

def decodeDescribeTopic : Parser String := do
  let topic ← decodeString
  ensureEmpty
  ensure (validateTopic topic)
  pure topic

def decodePromoteLeader : Parser PromoteLeaderRequest := do
  let topic ← decodeString
  ensureRemaining 8
  let partition ← getInt 4
  let leaderId ← getInt 4
  ensureEmpty
  pure ⟨topic, .ofNat partition, .ofNat leaderId⟩

def decodeApplyLeadership : Parser ApplyLeadershipRequest := do
  let topic ← decodeString
  ensureRemaining 24
  let partition ← getInt 4
  let leaderId ← getInt 4
  let leaderEpoch ← getInt 8
  let highWatermark ← getInt 8
  ensureEmpty
  pure ⟨topic, .ofNat partition, .ofNat leaderId, .ofNat leaderEpoch, .ofNat highWatermark⟩

def decodePartitionStatus : Parser PartitionStatusRequest := do
  let topic ← decodeString
  ensureRemaining 4
  let partition ← getInt 4
  ensureEmpty
  pure ⟨topic, .ofNat partition⟩

/-- An opcode that stands alone; with more bytes after it, it is unknown. -/
def alone {α : Type} (opcode : Nat) (a : α) : Parser α := fun frame =>
  if frame = [] then .ok (a, frame) else .error (.unknownOpcode opcode)

/-- The match of `decode_request`. -/
def readRequest (zstd : Zstd) : Parser Request := do
  let opcode ← getInt 1
  match opcode with
  | PRODUCE => .produce <$> decodeProduce
  | PRODUCE_BATCH => .produceBatch <$> decodeProduceBatch zstd
  | FETCH => .fetch <$> decodeFetch
  | JOIN_GROUP => .joinGroup <$> decodeGroupMember
  | HEARTBEAT => .heartbeat <$> decodeGroupGeneration
  | LEAVE_GROUP => .leaveGroup <$> decodeGroupGeneration
  | COMMIT_OFFSET => .commitOffset <$> decodeCommitOffset
  | FETCH_COMMITTED_OFFSET => .fetchCommittedOffset <$> decodeFetchCommitted
  | GROUP_FETCH => .groupFetch <$> decodeGroupFetch
  | CREATE_TOPIC => .createTopic <$> decodeCreateTopic
  | LIST_TOPICS => alone LIST_TOPICS .listTopics
  | DESCRIBE_TOPIC => .describeTopic <$> decodeDescribeTopic
  | CLUSTER_METADATA => alone CLUSTER_METADATA .clusterMetadata
  | PROMOTE_LEADER => .promoteLeader <$> decodePromoteLeader
  | APPLY_LEADERSHIP => .applyLeadership <$> decodeApplyLeadership
  | PARTITION_STATUS => .partitionStatus <$> decodePartitionStatus
  | opcode => throw (.unknownOpcode opcode)

def decodeRequest (zstd : Zstd) : Decoder Request UInt8 ProtocolError :=
  decodeFrame (readRequest zstd)

end SevlaMq.Protocol
