import SevlaMq.Protocol.Requests

/-!
# The response codec

Model of `encode_response` and `decode_response` of `crates/protocol/src/lib.rs` with the encoder and
the decoder of each response.
-/

set_option autoImplicit false

namespace SevlaMq.Protocol

open SevlaMq.Storage (utf8)

/-! ## Encoders -/

def encodeProduceAck (ack : ProduceAck) : Encoder :=
  inOrder [put (toBE 4 ack.partition.toNat), put (toBE 8 ack.offset.toNat)]

/-- The length of an optional key, `-1` for none. -/
def putKeyLen : Option Bytes → Encoder
  | some key => inOrder
    [require (if 2 ^ 31 ≤ key.length then .error .keyTooLarge else .ok ()),
      put (toBE 4 (ofI32 key.length))]
  | none => put (toBE 4 (ofI32 (-1)))

def encodeFetchedRecord (record : FetchedRecord) : Encoder :=
  inOrder
    [put (toBE 8 record.offset.toNat), put (toBE 8 record.timestampMs.toNat), putKeyLen record.key,
      putLen 4 record.value.length .messageTooLarge, put (record.key.getD []), put record.value]

/-- The only encoder of a response that takes back what it has written and checks the limit. -/
def encodeFetchResponse (response : FetchResponse) : Encoder := fun buffer =>
  match inOrder [put (toBE 4 0), put (toBE 1 FETCH_RESPONSE),
      putLen 4 response.records.length .frameTooLarge,
      inOrder (response.records.map encodeFetchedRecord)] buffer with
  | (.error e, written) => (.error e, written)
  | (.ok (), written) =>
    if written.length - buffer.length - FRAME_HEADER_SIZE > MAX_FRAME_SIZE then
      (.error .frameTooLarge, written.take buffer.length)
    else setFrameLen buffer.length written

/-- The length is computed in 32 bits and wraps around. -/
def encodeJoinGroupResponse (response : JoinGroupResponse) : Encoder :=
  inOrder
    [require (if 2 ^ 32 ≤ response.partitions.length then .error .frameTooLarge else .ok ()),
      put (toBE 4 ((1 + 8 + 4 + response.partitions.length * 4) % 2 ^ 32)),
      put (toBE 1 JOIN_GROUP_RESPONSE), put (toBE 8 response.generation.toNat),
      putLen 4 response.partitions.length .frameTooLarge,
      inOrder (response.partitions.map fun partition => put (toBE 4 partition.toNat))]

def encodeTopicMetadata (topic : TopicMetadata) : Encoder :=
  inOrder
    [require (if topic.partitions = 0 ∨
          (topic.leaders ≠ [] ∧ topic.leaders.length ≠ topic.partitions.toNat) ∨
          topic.leaderEpochs.length ≠ topic.leaders.length ∨
          topic.highWatermarks.length ≠ topic.leaders.length then
        .error .invalidPartitionCount else .ok ()),
      encodeString topic.topic, put (toBE 4 topic.partitions.toNat),
      putLen 4 topic.leaders.length .frameTooLarge,
      inOrder (topic.leaders.map fun leader => put (toBE 4 leader.toNat)),
      inOrder (topic.leaderEpochs.map fun epoch => put (toBE 8 epoch.toNat)),
      inOrder (topic.highWatermarks.map fun highWatermark => put (toBE 8 highWatermark.toNat))]

def encodeTopicsResponse (topics : List TopicMetadata) : Encoder :=
  framed
    [put (toBE 1 TOPICS_RESPONSE), putLen 4 topics.length .frameTooLarge,
      inOrder (topics.map encodeTopicMetadata)]

def encodeClusterNode (node : ClusterNode) : Encoder :=
  inOrder
    [put (toBE 4 node.id.toNat), encodeString node.host, put (toBE 2 node.port.toNat),
      put (toBE 2 node.adminPort.toNat), put (toBE 2 node.replicationPort.toNat)]

def encodeClusterMetadata (metadata : ClusterMetadata) : Encoder :=
  inOrder
    [require (if metadata.nodes = [] ∨ metadata.nodes.length > MAX_CLUSTER_NODES then
        .error .invalidClusterMetadata else .ok ()),
      framed
        [put (toBE 1 CLUSTER_METADATA_RESPONSE), put (toBE 4 metadata.respondingBrokerId.toNat),
          putLen 4 metadata.nodes.length .frameTooLarge,
          inOrder (metadata.nodes.map encodeClusterNode)]]

def encodeStringResponse (opcode : Nat) (value : String) : Encoder :=
  framed [put (toBE 1 opcode), encodeString value]

def encodeResponse : Response → Encoder
  | .produceAck ack =>
    inOrder [put (toBE 4 (1 + 4 + 8)), put (toBE 1 PRODUCE_ACK), encodeProduceAck ack]
  | .produceBatchAck acks =>
    framed
      [put (toBE 1 PRODUCE_BATCH_ACK), putLen 4 acks.length .invalidBatchCount,
        inOrder (acks.map encodeProduceAck)]
  | .fetch response => encodeFetchResponse response
  | .joinGroup response => encodeJoinGroupResponse response
  | .groupAck => inOrder [put (toBE 4 1), put (toBE 1 GROUP_ACK)]
  | .committedOffset offset =>
    inOrder
      [put (toBE 4 (1 + 1 + 8)), put (toBE 1 COMMITTED_OFFSET_RESPONSE),
        put (toBE 1 offset.isSome.toNat), put (toBE 8 (offset.getD 0).toNat)]
  | .topics topics => encodeTopicsResponse topics
  | .clusterMetadata metadata => encodeClusterMetadata metadata
  | .leadershipChanged leadership =>
    inOrder
      [put (toBE 4 (1 + 4 + 4 + 8 + 8)), put (toBE 1 LEADERSHIP_CHANGED),
        put (toBE 4 leadership.partition.toNat), put (toBE 4 leadership.leaderId.toNat),
        put (toBE 8 leadership.leaderEpoch.toNat), put (toBE 8 leadership.highWatermark.toNat)]
  | .partitionStatus nextOffset =>
    inOrder
      [put (toBE 4 (1 + 8)), put (toBE 1 PARTITION_STATUS_RESPONSE), put (toBE 8 nextOffset.toNat)]
  | .error message => encodeStringResponse ERROR_RESPONSE message

/-! ## Decoders -/

/-- A match arm with a guard on the number of bytes that are left. -/
def exactly {α : Type} (opcode n : Nat) (p : Parser α) : Parser α := fun frame =>
  if frame.length = n then p frame else .error (.unknownOpcode opcode)

def getU32 : Parser UInt32 := .ofNat <$> getInt 4

def getU64 : Parser UInt64 := .ofNat <$> getInt 8

def readProduceAck : Parser ProduceAck := do
  let partition ← getInt 4
  let offset ← getInt 8
  pure ⟨.ofNat partition, .ofNat offset⟩

def decodeProduceAck : Parser ProduceAck := fun frame =>
  if frame.length ≠ 4 + 8 then .error .invalidFrame else readProduceAck frame

def decodeProduceBatchAck : Parser (List ProduceAck) := do
  ensureRemaining 4
  let count ← getInt 4
  ensure (if count = 0 ∨ count > MAX_BATCH_MESSAGES then .error .invalidBatchCount else .ok ())
  ensureRemaining (count * (4 + 8))
  let acks ← readMany readProduceAck count
  ensureEmpty
  pure acks

def readKey (keyLen : Int) : Parser (Option Bytes) :=
  if keyLen = -1 then pure none
  else if 0 ≤ keyLen then some <$> readBytes keyLen.toNat
  else throw .invalidFrame

def decodeFetchedRecord : Parser FetchedRecord := do
  ensureRemaining (8 * 2 + 4 + 4)
  let offset ← getInt 8
  let timestampMs ← getInt 8
  let keyLen ← getInt 4
  let valueLen ← getInt 4
  let key ← readKey (toI32 keyLen)
  let value ← readBytes valueLen
  pure ⟨.ofNat offset, .ofNat timestampMs, key, value⟩

def decodeFetchResponse : Parser FetchResponse := do
  ensureRemaining 4
  let count ← getInt 4
  let records ← readMany decodeFetchedRecord count
  ensureEmpty
  pure ⟨records⟩

def decodeJoinGroupResponse : Parser JoinGroupResponse := do
  ensureRemaining 12
  let generation ← getInt 8
  let count ← getInt 4
  ensureRemaining (count * 4)
  let partitions ← readMany getU32 count
  ensureEmpty
  pure ⟨.ofNat generation, partitions⟩

def decodeCommittedOffset : Parser (Option UInt64) := do
  ensureRemaining 9
  let found ← getInt 1
  let offset ← getInt 8
  ensureEmpty
  ensure (if found > 1 then .error .invalidFrame else .ok ())
  pure (if found = 1 then some (.ofNat offset) else none)

def decodeTopicMetadata : Parser TopicMetadata := do
  let topic ← decodeString
  ensureRemaining 8
  let partitions ← getInt 4
  let count ← readLen 4
  ensure (if partitions = 0 ∨ (count ≠ 0 ∧ count ≠ partitions) then .error .invalidPartitionCount
    else .ok ())
  ensureRemaining (count * 4)
  let leaders ← readMany getU32 count
  ensureRemaining (count * 8)
  let leaderEpochs ← readMany getU64 count
  ensureRemaining (count * 8)
  let highWatermarks ← readMany getU64 count
  pure ⟨topic, .ofNat partitions, leaders, leaderEpochs, highWatermarks⟩

def decodeTopicsResponse : Parser (List TopicMetadata) := do
  ensureRemaining 4
  let count ← readLen 4
  let topics ← readMany decodeTopicMetadata count
  ensureEmpty
  pure topics

def decodeClusterNode : Parser ClusterNode := do
  ensureRemaining 4
  let id ← getInt 4
  let host ← decodeString
  ensureRemaining 6
  let port ← getInt 2
  let adminPort ← getInt 2
  let replicationPort ← getInt 2
  pure ⟨.ofNat id, host, .ofNat port, .ofNat adminPort, .ofNat replicationPort⟩

def decodeClusterMetadata : Parser ClusterMetadata := do
  ensureRemaining 8
  let respondingBrokerId ← getInt 4
  let count ← readLen 4
  ensure (if count = 0 ∨ count > MAX_CLUSTER_NODES then .error .invalidClusterMetadata else .ok ())
  let nodes ← readMany decodeClusterNode count
  ensureEmpty
  pure ⟨.ofNat respondingBrokerId, nodes⟩

def decodeLeadershipChanged : Parser PartitionLeadership := do
  let partition ← getInt 4
  let leaderId ← getInt 4
  let leaderEpoch ← getInt 8
  let highWatermark ← getInt 8
  pure ⟨.ofNat partition, .ofNat leaderId, .ofNat leaderEpoch, .ofNat highWatermark⟩

def decodeError : Parser String := do
  let message ← decodeString
  ensureEmpty
  pure message

/-- `decode_response_frame`. -/
def decodeResponseFrame (opcode : Nat) : Parser Response :=
  match opcode with
  | PRODUCE_ACK => .produceAck <$> decodeProduceAck
  | PRODUCE_BATCH_ACK => .produceBatchAck <$> decodeProduceBatchAck
  | FETCH_RESPONSE => .fetch <$> decodeFetchResponse
  | JOIN_GROUP_RESPONSE => .joinGroup <$> decodeJoinGroupResponse
  | GROUP_ACK => alone GROUP_ACK .groupAck
  | COMMITTED_OFFSET_RESPONSE => .committedOffset <$> decodeCommittedOffset
  | TOPICS_RESPONSE => .topics <$> decodeTopicsResponse
  | CLUSTER_METADATA_RESPONSE => .clusterMetadata <$> decodeClusterMetadata
  | LEADERSHIP_CHANGED =>
    exactly LEADERSHIP_CHANGED 24 (.leadershipChanged <$> decodeLeadershipChanged)
  | PARTITION_STATUS_RESPONSE =>
    exactly PARTITION_STATUS_RESPONSE 8 (.partitionStatus <$> getU64)
  | ERROR_RESPONSE => .error <$> decodeError
  | opcode => throw (.unknownOpcode opcode)

def readResponse : Parser Response := do
  let opcode ← getInt 1
  decodeResponseFrame opcode

/-- `take_response_frame` is `take_frame` again. -/
def decodeResponse : Decoder Response UInt8 ProtocolError := decodeFrame readResponse

end SevlaMq.Protocol
