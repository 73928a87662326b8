import SevlaMq.Protocol.Frame

/-!
# Requests and responses

Model of the message types of `crates/protocol/src/lib.rs`.  The requests with private fields are
built by their constructors only: `ProduceRequest`, `ProduceBatchRequest` and `FetchRequest` carry
the checks of theirs as a field.
-/

set_option autoImplicit false

namespace SevlaMq.Protocol

open SevlaMq.Storage (utf8)

def MAX_BATCH_MESSAGES : Nat := 1000
def MAX_UNCOMPRESSED_BATCH_SIZE : Nat := 3 * 1024 * 1024
def MAX_FETCH_BYTES : Nat := 3 * 1024 * 1024
def MAX_FETCH_WAIT_MS : Nat := 30000
def MAX_CLUSTER_NODES : Nat := 1024

/-! ## Opcodes -/

@[match_pattern] def PRODUCE : Nat := 0x01
@[match_pattern] def PRODUCE_ACK : Nat := 0x02
@[match_pattern] def PRODUCE_BATCH : Nat := 0x03
@[match_pattern] def PRODUCE_BATCH_ACK : Nat := 0x04
@[match_pattern] def FETCH : Nat := 0x10
@[match_pattern] def FETCH_RESPONSE : Nat := 0x11
@[match_pattern] def JOIN_GROUP : Nat := 0x20
@[match_pattern] def JOIN_GROUP_RESPONSE : Nat := 0x21
@[match_pattern] def HEARTBEAT : Nat := 0x22
@[match_pattern] def LEAVE_GROUP : Nat := 0x23
@[match_pattern] def COMMIT_OFFSET : Nat := 0x24
@[match_pattern] def FETCH_COMMITTED_OFFSET : Nat := 0x25
@[match_pattern] def GROUP_ACK : Nat := 0x26
@[match_pattern] def COMMITTED_OFFSET_RESPONSE : Nat := 0x27
@[match_pattern] def GROUP_FETCH : Nat := 0x28
@[match_pattern] def CREATE_TOPIC : Nat := 0x30
@[match_pattern] def LIST_TOPICS : Nat := 0x31
@[match_pattern] def DESCRIBE_TOPIC : Nat := 0x32
@[match_pattern] def TOPICS_RESPONSE : Nat := 0x33
@[match_pattern] def CLUSTER_METADATA : Nat := 0x40
@[match_pattern] def CLUSTER_METADATA_RESPONSE : Nat := 0x41
@[match_pattern] def PROMOTE_LEADER : Nat := 0x42
@[match_pattern] def APPLY_LEADERSHIP : Nat := 0x43
@[match_pattern] def LEADERSHIP_CHANGED : Nat := 0x44
@[match_pattern] def PARTITION_STATUS : Nat := 0x45
@[match_pattern] def PARTITION_STATUS_RESPONSE : Nat := 0x46
@[match_pattern] def ERROR_RESPONSE : Nat := 0x7f

/-! ## Checks -/

/-- Checks with `?`, one after the other. -/
def checkAll : List (Except ProtocolError Unit) → Except ProtocolError Unit
  | [] => .ok ()
  | .error e :: _ => .error e
  | .ok () :: checks => checkAll checks

@[simp] theorem checkAll_nil_eq_ok : checkAll [] = .ok () := rfl

@[simp] theorem checkAll_cons_eq_ok {check : Except ProtocolError Unit}
    {checks : List (Except ProtocolError Unit)} :
    checkAll (check :: checks) = .ok () ↔ check = .ok () ∧ checkAll checks = .ok () := by
  cases check with
  | error e => simp [checkAll]
  | ok _ => simp [checkAll]

def validateIdentifier (value : String) : Except ProtocolError Unit :=
  if value.isEmpty ∨ (utf8 value).length > MAX_TOPIC_NAME ∨
      value.toList.any (fun c => !(c.isAlphanum || c = '.' || c = '_' || c = '-')) then
    .error .invalidProducerId
  else .ok ()

/-! ## Requests -/

inductive AckMode where
  | leader
  | durable
  deriving DecidableEq, Repr

def AckMode.code : AckMode → Nat
  | .leader => 1
  | .durable => 2

def AckMode.fromCode : Nat → Except ProtocolError AckMode
  | 1 => .ok .leader
  | 2 => .ok .durable
  | code => .error (.invalidAckMode code)

inductive Compression where
  | none
  | zstd
  deriving DecidableEq, Repr

def Compression.code : Compression → Nat
  | .none => 0
  | .zstd => 1

def Compression.fromCode : Nat → Except ProtocolError Compression
  | 0 => .ok .none
  | 1 => .ok .zstd
  | code => .error (.invalidCompression code)

structure ProducerIdentity where
  id : String
  sequence : UInt64
  deriving DecidableEq, Repr

/-- The checks of `ProduceRequest::new`. -/
def validateProduce (topic : String) (key payload : Bytes) (producer : Option ProducerIdentity) :
    Except ProtocolError Unit :=
  checkAll
    [validateTopic topic,
      validateSize key.length MAX_KEY_SIZE .keyTooLarge,
      validateSize payload.length MAX_MESSAGE_SIZE .messageTooLarge,
      match producer with
      | some producer => validateIdentifier producer.id
      | none => .ok ()]

structure ProduceRequest where
  topic : String
  key : Bytes
  payload : Bytes
  ackMode : AckMode
  producer : Option ProducerIdentity
  partition : Option UInt32
  valid : validateProduce topic key payload producer = .ok ()

def ProduceRequest.new (topic : String) (key payload : Bytes) (ackMode : AckMode)
    (producer : Option ProducerIdentity) : Except ProtocolError ProduceRequest :=
  match h : validateProduce topic key payload producer with
  | .error e => .error e
  | .ok () => .ok ⟨topic, key, payload, ackMode, producer, none, h⟩

def ProduceRequest.withPartition (r : ProduceRequest) (partition : UInt32) : ProduceRequest :=
  { r with partition := some partition }

structure BatchRecord where
  key : Bytes
  payload : Bytes
  deriving DecidableEq, Repr

/-- The loop of `ProduceBatchRequest::new`. -/
def encodedSize : Nat → List BatchRecord → Except ProtocolError Nat
  | size, [] => .ok size
  | size, record :: records =>
    match checkAll
      [validateSize record.key.length MAX_KEY_SIZE .keyTooLarge,
        validateSize record.payload.length MAX_MESSAGE_SIZE .messageTooLarge,
        if 2 ^ 64 ≤ size + (2 + record.key.length + 4 + record.payload.length) then
          .error .batchTooLarge
        else .ok ()] with
    | .error e => .error e
    | .ok () => encodedSize (size + (2 + record.key.length + 4 + record.payload.length)) records

/-- The checks of `ProduceBatchRequest::new`. -/
def validateBatch (topic : String) (records : List BatchRecord) : Except ProtocolError Unit :=
  checkAll
    [validateTopic topic,
      if records = [] ∨ records.length > MAX_BATCH_MESSAGES then .error .invalidBatchCount
      else .ok (),
      match encodedSize 4 records with
      | .error e => .error e
      | .ok size => validateSize size MAX_UNCOMPRESSED_BATCH_SIZE .batchTooLarge]

structure ProduceBatchRequest where
  topic : String
  records : List BatchRecord
  ackMode : AckMode
  compression : Compression
  partition : Option UInt32
  valid : validateBatch topic records = .ok ()

def ProduceBatchRequest.new (topic : String) (records : List BatchRecord) (ackMode : AckMode)
    (compression : Compression) : Except ProtocolError ProduceBatchRequest :=
  match h : validateBatch topic records with
  | .error e => .error e
  | .ok () => .ok ⟨topic, records, ackMode, compression, none, h⟩

def ProduceBatchRequest.withPartition (r : ProduceBatchRequest) (partition : UInt32) :
    ProduceBatchRequest :=
  { r with partition := some partition }

/-- The checks of `FetchRequest::new`. -/
def validateFetch (topic : String) (maxBytes maxWaitMs : UInt32) : Except ProtocolError Unit :=
  checkAll
    [validateTopic topic,
      if maxBytes = 0 ∨ maxBytes.toNat > MAX_FETCH_BYTES then .error .fetchTooLarge else .ok (),
      if maxWaitMs.toNat > MAX_FETCH_WAIT_MS then .error .fetchWaitTooLong else .ok ()]

structure FetchRequest where
  topic : String
  partition : UInt32
  offset : UInt64
  maxBytes : UInt32
  maxWaitMs : UInt32
  valid : validateFetch topic maxBytes maxWaitMs = .ok ()

def FetchRequest.new (topic : String) (partition : UInt32) (offset : UInt64)
    (maxBytes maxWaitMs : UInt32) : Except ProtocolError FetchRequest :=
  match h : validateFetch topic maxBytes maxWaitMs with
  | .error e => .error e
  | .ok () => .ok ⟨topic, partition, offset, maxBytes, maxWaitMs, h⟩

structure GroupMemberRequest where
  group : String
  topic : String
  member : String
  deriving DecidableEq, Repr

structure GroupGenerationRequest where
  group : String
  topic : String
  member : String
  generation : UInt64
  deriving DecidableEq, Repr

structure CommitOffsetRequest where
  group : String
  topic : String
  member : String
  generation : UInt64
  partition : UInt32
  offset : UInt64
  deriving DecidableEq, Repr

structure FetchCommittedOffsetRequest where
  group : String
  topic : String
  partition : UInt32
  deriving DecidableEq, Repr

structure GroupFetchRequest where
  group : String
  topic : String
  member : String
  generation : UInt64
  partition : UInt32
  offset : UInt64
  maxBytes : UInt32
  maxWaitMs : UInt32
  deriving DecidableEq, Repr

structure CreateTopicRequest where
  topic : String
  partitions : UInt32
  deriving DecidableEq, Repr

structure PartitionLeadership where
  partition : UInt32
  leaderId : UInt32
  leaderEpoch : UInt64
  highWatermark : UInt64
  deriving DecidableEq, Repr

structure PromoteLeaderRequest where
  topic : String
  partition : UInt32
  leaderId : UInt32
  deriving DecidableEq, Repr

structure ApplyLeadershipRequest where
  topic : String
  leadership : PartitionLeadership
  deriving DecidableEq, Repr

structure PartitionStatusRequest where
  topic : String
  partition : UInt32
  deriving DecidableEq, Repr

inductive Request where
  | produce (request : ProduceRequest)
  | produceBatch (request : ProduceBatchRequest)
  | fetch (request : FetchRequest)
  | joinGroup (request : GroupMemberRequest)
  | heartbeat (request : GroupGenerationRequest)
  | leaveGroup (request : GroupGenerationRequest)
  | commitOffset (request : CommitOffsetRequest)
  | fetchCommittedOffset (request : FetchCommittedOffsetRequest)
  | groupFetch (request : GroupFetchRequest)
  | createTopic (request : CreateTopicRequest)
  | listTopics
  | describeTopic (topic : String)
  | clusterMetadata
  | promoteLeader (request : PromoteLeaderRequest)
  | applyLeadership (request : ApplyLeadershipRequest)
  | partitionStatus (request : PartitionStatusRequest)

/-! ## Responses -/

structure ProduceAck where
  partition : UInt32
  offset : UInt64
  deriving DecidableEq, Repr

structure FetchedRecord where
  offset : UInt64
  timestampMs : UInt64
  key : Option Bytes
  value : Bytes
  deriving DecidableEq, Repr

structure FetchResponse where
  records : List FetchedRecord
  deriving DecidableEq, Repr

structure JoinGroupResponse where
  generation : UInt64
  partitions : List UInt32
  deriving DecidableEq, Repr

structure TopicMetadata where
  topic : String
  partitions : UInt32
  leaders : List UInt32
  leaderEpochs : List UInt64
  highWatermarks : List UInt64
  deriving DecidableEq, Repr

structure ClusterNode where
  id : UInt32
  host : String
  port : UInt16
  adminPort : UInt16
  replicationPort : UInt16
  deriving DecidableEq, Repr

structure ClusterMetadata where
  respondingBrokerId : UInt32
  nodes : List ClusterNode
  deriving DecidableEq, Repr

inductive Response where
  | produceAck (ack : ProduceAck)
  | produceBatchAck (acks : List ProduceAck)
  | fetch (response : FetchResponse)
  | joinGroup (response : JoinGroupResponse)
  | groupAck
  | committedOffset (offset : Option UInt64)
  | topics (topics : List TopicMetadata)
  | clusterMetadata (metadata : ClusterMetadata)
  | leadershipChanged (leadership : PartitionLeadership)
  | partitionStatus (nextOffset : UInt64)
  | error (message : String)
  deriving DecidableEq, Repr

/-! ## What the constructors check -/

@[simp] theorem AckMode.fromCode_code (mode : AckMode) : fromCode mode.code = .ok mode := by
  cases mode <;> rfl

@[simp] theorem Compression.fromCode_code (compression : Compression) :
    fromCode compression.code = .ok compression := by
  cases compression <;> rfl

theorem ProduceRequest.new_valid {topic : String} {key payload : Bytes}
    {producer : Option ProducerIdentity} (h : validateProduce topic key payload producer = .ok ())
    (ackMode : AckMode) :
    ProduceRequest.new topic key payload ackMode producer =
      .ok ⟨topic, key, payload, ackMode, producer, none, h⟩ := by
  unfold ProduceRequest.new
  split
  · rename_i herr
    rw [h] at herr
    cases herr
  · rfl

theorem ProduceBatchRequest.new_valid {topic : String} {records : List BatchRecord}
    (h : validateBatch topic records = .ok ()) (ackMode : AckMode) (compression : Compression) :
    ProduceBatchRequest.new topic records ackMode compression =
      .ok ⟨topic, records, ackMode, compression, none, h⟩ := by
  unfold ProduceBatchRequest.new
  split
  · rename_i herr
    rw [h] at herr
    cases herr
  · rfl

theorem FetchRequest.new_valid {topic : String} {maxBytes maxWaitMs : UInt32}
    (h : validateFetch topic maxBytes maxWaitMs = .ok ()) (partition : UInt32) (offset : UInt64) :
    FetchRequest.new topic partition offset maxBytes maxWaitMs =
      .ok ⟨topic, partition, offset, maxBytes, maxWaitMs, h⟩ := by
  unfold FetchRequest.new
  split
  · rename_i herr
    rw [h] at herr
    cases herr
  · rfl

end SevlaMq.Protocol
