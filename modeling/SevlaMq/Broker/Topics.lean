import SevlaMq.Cluster.Model
import SevlaMq.Group.Coordinator

/-!
# The topics of one broker

Model of the requests that create or look up topics: `recover_storage`, `create_topic`,
`ensure_topic`, `append_record`, `append_batch_records`, `read_records` of the storage worker,
`LeadershipRegistry::{ensure_topic, migrate_high_watermark}`, `process_produce`, `produce_batch`,
`Fetch`, `CreateTopic`, `ListTopics`, `sync_controller_metadata` and the topic loop of `run`, in
`crates/broker/src/lib.rs` and `crates/broker/src/leadership.rs`.

A broker keeps what it knows about topics in three places: the storage worker has the partition
counts and the open logs, the leadership registry an entry for each partition, and the group
coordinator a partition count of its own.

* `Worker` — the storage worker; `Node` — the three registries and the spawned replications.
* `Files` and `Env` — what the file system, the clock and the followers answer during a request.
* `Node.step` — one request.
-/

set_option autoImplicit false

namespace SevlaMq.Broker

open SevlaMq.Storage SevlaMq.Cluster

/-! ## Settings -/

/-- The configuration of one broker; the checks of `Config::cluster_nodes` and
`start_storage_worker` are fields. -/
structure Settings where
  nodes : List BrokerId
  replicationFactor : Nat
  minInSyncReplicas : Nat
  sorted : nodes.Pairwise (· < ·)
  replication_le : replicationFactor ≤ nodes.length
  min_pos : 0 < minInSyncReplicas
  min_le : minInSyncReplicas ≤ replicationFactor
  self : BrokerId
  self_mem : self ∈ nodes
  autoCreateTopics : Bool
  defaultPartitionCount : Nat
  default_pos : 0 < defaultPartitionCount

/-- The cluster as the replication code of one partition sees it. -/
def Settings.cluster (cfg : Settings) (partition : Nat) : ClusterConfig :=
  ⟨cfg.nodes, partition, cfg.replicationFactor, cfg.minInSyncReplicas, cfg.sorted,
    cfg.replication_le, cfg.min_pos, cfg.min_le⟩

/-- What the file operations of a request return. -/
structure Files where
  openLog : String → Nat → Except StorageError RecordLog
  persistTopicMetadata : String → Except StorageError Unit
  syncData : String → Nat → Except StorageError Unit

/-- `HashMap<(String, u32), PartitionLeadership>`. -/
abbrev Entries := String → Nat → Option PartitionLeadership

/-- What a request finds outside of the broker's own state. -/
structure Env where
  files : Files
  -- whether `leadership.meta` can be written with these entries
  persists : Entries → Bool
  timestampMs : UInt64
  -- the followers that acknowledge a record
  acks : Nat → Nat → Nat
  group : Group.Env

inductive RequestError where
  | storage (e : StorageError)
  | missingPartition (partition : Nat)
  | leadership (e : LeadershipError)
  -- `LeadershipError::Io`
  | leadershipIo
  | partitionRequired
  | notPartitionLeader (partition : Nat) (leaderId : BrokerId) (leaderEpoch : Nat)
  | notEnoughInSyncReplicas (required available : Nat)
  | missingAppendedRecord
  | storageUnavailable
  deriving DecidableEq, Repr

structure ProduceAck where
  partition : Nat
  offset : Nat
  deriving DecidableEq, Repr

/-! ## The storage worker -/

structure Worker where
  topics : String → Option Nat
  logs : String → Nat → Option RecordLog
  roundRobin : String → Nat

namespace Worker

def insertLog (w : Worker) (topic : String) (partition : Nat) (log : RecordLog) : Worker :=
  { w with logs := fun t p => if t = topic ∧ p = partition then some log else w.logs t p }

def insertTopic (w : Worker) (topic : String) (partitions : Nat) : Worker :=
  { w with topics := fun t => if t = topic then some partitions else w.topics t }

/-- The loop of `create_topic`. -/
def openPartitions (files : Files) (topic : String) :
    List Nat → Worker → Except StorageError Unit × Worker
  | [], w => (.ok (), w)
  | partition :: rest, w =>
    match w.logs topic partition with
    | some _ => openPartitions files topic rest w
    | none =>
      match files.openLog topic partition with
      | .error e => (.error e, w)
      | .ok log => openPartitions files topic rest (w.insertLog topic partition log)

/-- `create_topic`. -/
def createTopic (files : Files) (w : Worker) (topic : String) (partitions : Nat) :
    Except StorageError Nat × Worker :=
  if partitions = 0 then (.error .invalidTopic, w)
  else if (w.topics topic).isSome then (.error .topicAlreadyExists, w)
  else
    match openPartitions files topic (List.range partitions) w with
    | (.error e, w) => (.error e, w)
    | (.ok (), w) =>
      match files.persistTopicMetadata topic with
      | .error e => (.error e, w)
      | .ok () => (.ok partitions, w.insertTopic topic partitions)

/-- `ensure_topic`. -/
def ensureTopic (cfg : Settings) (files : Files) (w : Worker) (topic : String) :
    Except StorageError Nat × Worker :=
  match w.topics topic with
  | some partitions => (.ok partitions, w)
  | none =>
    if cfg.autoCreateTopics = false then (.error .unknownTopic, w)
    else createTopic files w topic cfg.defaultPartitionCount

/-- `select_partition`. -/
def selectPartition [Checksum] (partitionCount : Nat) (w : Worker) (topic : String)
    (key : Option Bytes) : Nat × Worker :=
  match key with
  | some key => ((Checksum.hash key).toNat % partitionCount, w)
  | none =>
    (w.roundRobin topic, { w with
      roundRobin := fun t =>
        if t = topic then (w.roundRobin topic + 1) % partitionCount else w.roundRobin t })

/-- The key a record is routed by. -/
def routingKey (input : ProduceInput) : Option Bytes :=
  if input.key = [] then input.producer.map fun p => utf8 p.id else some input.key

/-- The partition a record goes to. -/
def choosePartition [Checksum] (partitionCount : Nat) (w : Worker) (topic : String)
    (partition : Option Nat) (input : ProduceInput) : Except StorageError Nat × Worker :=
  match partition with
  | some partition =>
    if partition ≥ partitionCount then (.error (.unknownPartition partition), w) else (.ok partition, w)
  | none =>
    let (partition, w) := selectPartition partitionCount w topic (routingKey input)
    (.ok partition, w)

/-- `append_record`. -/
def appendRecord [Checksum] (cfg : Settings) (env : Env) (w : Worker) (topic : String)
    (partition : Option Nat) (input : ProduceInput) (ackMode : AckMode) :
    Except StorageError ProduceAck × Worker :=
  match ensureTopic cfg env.files w topic with
  | (.error e, w) => (.error e, w)
  | (.ok partitionCount, w) =>
    match choosePartition partitionCount w topic partition input with
    | (.error e, w) => (.error e, w)
    | (.ok partition, w) =>
      match w.logs topic partition with
      | none => (.error .invalidTopic, w)
      | some log =>
        match log.append (input.record env.timestampMs) with
        | .error e => (.error e, w)
        | .ok (offset, log) =>
          let w := w.insertLog topic partition log
          if ackMode = .durable then
            match env.files.syncData topic partition with
            | .error e => (.error e, w)
            | .ok () => (.ok ⟨partition, offset⟩, w)
          else (.ok ⟨partition, offset⟩, w)

/-- The loop of `append_batch_records`. -/
def appendAll [Checksum] (cfg : Settings) (env : Env) (topic : String) (partition : Option Nat) :
    List ProduceInput → Worker → Except StorageError (List ProduceAck) × Worker
  | [], w => (.ok [], w)
  | input :: inputs, w =>
    match appendRecord cfg env w topic partition input .leader with
    | (.error e, w) => (.error e, w)
    | (.ok ack, w) =>
      match appendAll cfg env topic partition inputs w with
      | (.error e, w) => (.error e, w)
      | (.ok acks, w) => (.ok (ack :: acks), w)

/-- The partitions of a durable batch are synced one after the other. -/
def syncAll (files : Files) (topic : String) : List Nat → Except StorageError Unit
  | [] => .ok ()
  | partition :: rest =>
    match files.syncData topic partition with
    | .error e => .error e
    | .ok () => syncAll files topic rest

/-- `append_batch_records`. -/
def appendBatchRecords [Checksum] (cfg : Settings) (env : Env) (w : Worker) (topic : String)
    (partition : Option Nat) (inputs : List ProduceInput) (ackMode : AckMode) :
    Except StorageError (List ProduceAck) × Worker :=
  match appendAll cfg env topic partition inputs w with
  | (.error e, w) => (.error e, w)
  | (.ok acks, w) =>
    if ackMode = .durable then
      match syncAll env.files topic ((acks.map (·.partition)).mergeSort (· ≤ ·)).dedup with
      | .error e => (.error e, w)
      | .ok () => (.ok acks, w)
    else (.ok acks, w)

/-- The log a read looks at; it is opened when the worker does not have it. -/
def partitionLog (files : Files) (w : Worker) (topic : String) (partition partitionCount : Nat) :
    Except StorageError RecordLog × Worker :=
  match w.logs topic partition with
  | some log => (.ok log, w)
  | none =>
    if partition ≥ partitionCount then (.error (.unknownPartition partition), w)
    else
      match files.openLog topic partition with
      | .error e => (.error e, w)
      | .ok log => (.ok log, w.insertLog topic partition log)

/-- `read_records`. -/
def readRecords (cfg : Settings) (files : Files) (w : Worker) (topic : String)
    (partition offset maxBytes : Nat) : Except StorageError (List FetchedRecord) × Worker :=
  match ensureTopic cfg files w topic with
  | (.error e, w) => (.error e, w)
  | (.ok partitionCount, w) =>
    match partitionLog files w topic partition partitionCount with
    | (.error e, w) => (.error e, w)
    | (.ok log, w) =>
      match log.read offset maxBytes with
      | .error e => (.error e, w)
      | .ok records => (.ok (records.map fun s => fetched s.toRecord s.offset), w)

/-- `StorageHandle::record_at`. -/
def recordAt (cfg : Settings) (files : Files) (w : Worker) (topic : String) (partition offset : Nat) :
    Except RequestError FetchedRecord × Worker :=
  match readRecords cfg files w topic partition offset (16 * 1024 * 1024) with
  | (.error e, w) => (.error (.storage e), w)
  | (.ok records, w) =>
    match records.find? (·.offset = offset) with
    | none => (.error .missingAppendedRecord, w)
    | some record => (.ok record, w)

end Worker

/-! ## The leadership registry -/

namespace Entries

def insert (entries : Entries) (topic : String) (partition : Nat) (l : PartitionLeadership) :
    Entries :=
  fun t p => if t = topic ∧ p = partition then some l else entries t p

/-- `persist_entries`; the entries have been changed before. -/
def persist (persists : Entries → Bool) (entries : Entries) : Except RequestError Unit × Entries :=
  if persists entries then (.ok (), entries) else (.error .leadershipIo, entries)

/-- The loop of `LeadershipRegistry::ensure_topic`. -/
def insertVacant (cfg : Settings) (entries : Entries) (topic : String) (partitions : Nat) :
    Entries :=
  fun t p =>
    if t = topic ∧ p < partitions then
      some ((entries t p).getD (initialLeadership (cfg.cluster p)))
    else entries t p

/-- `LeadershipRegistry::ensure_topic`. -/
def ensureTopic (cfg : Settings) (persists : Entries → Bool) (entries : Entries) (topic : String)
    (partitions : Nat) : Except RequestError Unit × Entries :=
  if (List.range partitions).all fun p => (entries topic p).isSome then (.ok (), entries)
  else (entries.insertVacant cfg topic partitions).persist persists

/-- `LeadershipRegistry::apply`. -/
def apply (cfg : Settings) (persists : Entries → Bool) (entries : Entries) (topic : String)
    (l : PartitionLeadership) : Except RequestError Unit × Entries :=
  match applyEntry (cfg.cluster l.partition) (entries topic l.partition) l with
  | .error e => (.error (.leadership e), entries)
  | .ok e =>
    if entries topic l.partition = some e then (.ok (), entries)
    else (entries.insert topic l.partition e).persist persists

/-- `LeadershipRegistry::migrate_high_watermark` with the log end of one partition. -/
def migrate (persists : Entries → Bool) (entries : Entries) (topic : String)
    (partition logEnd : Nat) : Except RequestError Unit × Entries :=
  match entries topic partition with
  | none => (.error (.missingPartition partition), entries)
  | some l =>
    if l.highWatermark ≠ 2 ^ 64 - 1 then (.ok (), entries)
    else (entries.insert topic partition { l with highWatermark := logEnd }).persist persists

section Calls

variable {cfg : Settings} {persists : Entries → Bool} {entries : Entries} {topic : String}

@[simp] theorem persist_entries : (entries.persist persists).2 = entries := by
  unfold persist
  split <;> rfl

theorem persist_ok_iff : (entries.persist persists).1 = .ok () ↔ persists entries = true := by
  unfold persist
  split
  · rename_i h
    exact iff_of_true rfl h
  · rename_i h
    exact iff_of_false (fun herr => by cases herr) h

theorem insert_same {partition : Nat} {l : PartitionLeadership}
    (h : entries topic partition = some l) : entries.insert topic partition l = entries := by
  funext t p
  unfold insert
  split
  · rename_i heq
    rw [heq.1, heq.2, h]
  · rfl

@[simp] theorem insert_own {partition : Nat} {l : PartitionLeadership} :
    entries.insert topic partition l topic partition = some l := if_pos ⟨rfl, rfl⟩

theorem insert_other {partition : Nat} {l : PartitionLeadership} {t : String} {p : Nat}
    (h : ¬ (t = topic ∧ p = partition)) :
    entries.insert topic partition l t p = entries t p := if_neg h

/-- The entries are inserted whether the file is written or not. -/
theorem ensureTopic_entries (partitions : Nat) :
    (entries.ensureTopic cfg persists topic partitions).2 =
      entries.insertVacant cfg topic partitions := by
  unfold ensureTopic
  split
  · rename_i hall
    rw [List.all_eq_true] at hall
    funext t p
    unfold insertVacant
    split
    · rename_i hp
      obtain ⟨l, hl⟩ := Option.isSome_iff_exists.1 (hall p (List.mem_range.2 hp.2))
      rw [hp.1, hl, Option.getD_some]
      exact hl
    · rfl
  · exact persist_entries

theorem apply_error {l : PartitionLeadership} {e : LeadershipError}
    (h : applyEntry (cfg.cluster l.partition) (entries topic l.partition) l = .error e) :
    entries.apply cfg persists topic l = (.error (.leadership e), entries) := by
  unfold apply
  rw [h]

/-- An accepted entry replaces the old one whether the file is written or not. -/
theorem apply_entries {l e : PartitionLeadership}
    (h : applyEntry (cfg.cluster l.partition) (entries topic l.partition) l = .ok e) :
    (entries.apply cfg persists topic l).2 = entries.insert topic l.partition e := by
  unfold apply
  rw [h]
  dsimp only
  split
  · rename_i hsame
    exact (insert_same hsame).symm
  · exact persist_entries

/-- A refused leadership changes nothing; another one becomes the entry. -/
theorem apply_cases (cfg : Settings) (persists : Entries → Bool) (entries : Entries)
    (topic : String) (l : PartitionLeadership) :
    (entries.apply cfg persists topic l).2 = entries ∨
      applyEntry (cfg.cluster l.partition) (entries topic l.partition) l = .ok l ∧
        (entries.apply cfg persists topic l).2 = entries.insert topic l.partition l := by
  cases h : applyEntry (cfg.cluster l.partition) (entries topic l.partition) l with
  | error e => exact Or.inl (by rw [apply_error h])
  | ok e =>
    obtain ⟨rfl, _, _⟩ := applyEntry_ok h
    exact Or.inr ⟨rfl, apply_entries h⟩

theorem apply_ok {l e : PartitionLeadership}
    (h : applyEntry (cfg.cluster l.partition) (entries topic l.partition) l = .ok e)
    (hp : persists (entries.insert topic l.partition e) = true) :
    entries.apply cfg persists topic l = (.ok (), entries.insert topic l.partition e) := by
  unfold apply
  rw [h]
  dsimp only
  split
  · rename_i hsame
    rw [insert_same hsame]
  · exact if_pos hp

end Calls

end Entries

/-- `cluster_leadership_error`. -/
def leadershipError (cfg : Settings) (entries : Entries) (topic : String) (partition : Option Nat) :
    Except RequestError Unit :=
  if cfg.nodes.length = 1 then .ok () else
  match partition with
  | none => .error .partitionRequired
  | some partition =>
    match entries topic partition with
    | none => .error (.missingPartition partition)
    | some l =>
      if l.leaderId ≠ cfg.self then .error (.notPartitionLeader partition l.leaderId l.leaderEpoch)
      else .ok ()

/-! ## Requests -/

/-- A replication that was spawned for a request in leader mode. -/
structure Spawned where
  topic : String
  records : List ProduceAck

/-- One broker: storage worker, leadership registry, group coordinator, spawned replications. -/
structure Node where
  worker : Worker
  entries : Entries
  groups : Group.Coordinator
  spawned : List Spawned

structure TopicMetadata where
  topic : String
  partitions : Nat
  leaders : List BrokerId
  leaderEpochs : List Nat
  highWatermarks : List Nat

structure ProduceTo where
  topic : String
  partition : Option Nat
  input : ProduceInput
  ackMode : AckMode

namespace Node

/-- `Replicator::commit`; the broadcast that follows does not touch this broker. -/
def commit (cfg : Settings) (env : Env) (s : Node) (topic : String)
    (partition highWatermark : Nat) : Except RequestError Unit × Node :=
  match s.entries topic partition with
  | none => (.error (.missingPartition partition), s)
  | some l =>
    if highWatermark ≤ l.highWatermark then (.ok (), s)
    else
      let (result, entries) := s.entries.apply cfg env.persists topic { l with highWatermark }
      (result, { s with entries })

/-- `Replicator::replicate`; `env.acks` says how many followers acknowledge. -/
def replicate (cfg : Settings) (env : Env) (s : Node) (topic : String) (partition offset : Nat)
    (ackMode : AckMode) : Except RequestError Unit × Node :=
  let followers := (cfg.cluster partition).replicaFollowers cfg.self
  let acknowledgements := 1 + min (env.acks partition offset) followers.length
  if cfg.minInSyncReplicas ≤ acknowledgements then s.commit cfg env topic partition (offset + 1)
  else if ackMode = .durable then
    (.error (.notEnoughInSyncReplicas cfg.minInSyncReplicas acknowledgements), s)
  else (.ok (), s)

/-- `replicate_records`. -/
def replicateRecords (cfg : Settings) (env : Env) (topic : String) (ackMode : AckMode) :
    List ProduceAck → Node → Except RequestError Unit × Node
  | [], s => (.ok (), s)
  | record :: records, s =>
    match s.replicate cfg env topic record.partition record.offset ackMode with
    | (.error e, s) => (.error e, s)
    | (.ok (), s) => replicateRecords cfg env topic ackMode records s

/-- `dispatch_replication`. -/
def dispatchReplication (cfg : Settings) (env : Env) (s : Node) (topic : String)
    (records : List ProduceAck) (ackMode : AckMode) : Except RequestError Unit × Node :=
  if ackMode = .leader then (.ok (), { s with spawned := s.spawned ++ [⟨topic, records⟩] })
  else replicateRecords cfg env topic ackMode records s

/-- The records of a batch are read back one after the other. -/
def readBack (cfg : Settings) (files : Files) (topic : String) :
    List ProduceAck → Node → Except RequestError Unit × Node
  | [], s => (.ok (), s)
  | ack :: acks, s =>
    match s.worker.recordAt cfg files topic ack.partition ack.offset with
    | (.error e, worker) => (.error e, { s with worker })
    | (.ok _, worker) => readBack cfg files topic acks { s with worker }

/-- `process_produce`. -/
def produce [Checksum] (cfg : Settings) (env : Env) (s : Node) (r : ProduceTo) :
    Except RequestError ProduceAck × Node :=
  match leadershipError cfg s.entries r.topic r.partition with
  | .error e => (.error e, s)
  | .ok () =>
    match s.worker.appendRecord cfg env r.topic r.partition r.input r.ackMode with
    | (.error e, worker) => (.error (.storage e), { s with worker })
    | (.ok ack, worker) =>
      match readBack cfg env.files r.topic [ack] { s with worker } with
      | (.error e, s) => (.error e, s)
      | (.ok (), s) =>
        match s.dispatchReplication cfg env r.topic [ack] r.ackMode with
        | (.error e, s) => (.error e, s)
        | (.ok (), s) => (.ok ack, s)

/-- `ProduceBatch`. -/
def produceBatch [Checksum] (cfg : Settings) (env : Env) (s : Node) (topic : String)
    (partition : Option Nat) (inputs : List ProduceInput) (ackMode : AckMode) :
    Except RequestError (List ProduceAck) × Node :=
  match leadershipError cfg s.entries topic partition with
  | .error e => (.error e, s)
  | .ok () =>
    match s.worker.appendBatchRecords cfg env topic partition inputs ackMode with
    | (.error e, worker) => (.error (.storage e), { s with worker })
    | (.ok acks, worker) =>
      match readBack cfg env.files topic acks { s with worker } with
      | (.error e, s) => (.error e, s)
      | (.ok (), s) =>
        match s.dispatchReplication cfg env topic acks ackMode with
        | (.error e, s) => (.error e, s)
        | (.ok (), s) => (.ok acks, s)

/-- `Fetch`. -/
def fetch (cfg : Settings) (env : Env) (s : Node) (topic : String) (partition offset maxBytes : Nat) :
    Except RequestError (List FetchedRecord) × Node :=
  match leadershipError cfg s.entries topic (some partition) with
  | .error e => (.error e, s)
  | .ok () =>
    match s.worker.readRecords cfg env.files topic partition offset maxBytes with
    | (.error e, worker) => (.error (.storage e), { s with worker })
    | (.ok records, worker) =>
      match s.entries topic partition with
      | none => (.error (.missingPartition partition), { s with worker })
      | some l => (.ok (records.filter (·.offset < l.highWatermark)), { s with worker })

/-- `CreateTopic`. -/
def createTopic (cfg : Settings) (env : Env) (s : Node) (topic : String) (partitions : Nat) :
    Except RequestError Nat × Node :=
  match s.worker.createTopic env.files topic partitions with
  | (.error e, worker) => (.error (.storage e), { s with worker })
  | (.ok partitions, worker) =>
    match s.groups.setTopicPartitions env.group topic partitions with
    | (.error _, groups) => (.error .storageUnavailable, { s with worker, groups })
    | (.ok (), groups) =>
      match s.entries.ensureTopic cfg env.persists topic partitions with
      | (.error e, entries) => (.error e, { s with worker, groups, entries })
      | (.ok (), entries) => (.ok partitions, { s with worker, groups, entries })

/-- `ListTopics`, with the topics in the order in which the storage worker lists them:
`with_leaders` ensures the entries of one after the other. -/
def listTopics (cfg : Settings) (env : Env) :
    List String → Node → Except RequestError Unit × Node
  | [], s => (.ok (), s)
  | topic :: rest, s =>
    match s.entries.ensureTopic cfg env.persists topic ((s.worker.topics topic).getD 0) with
    | (.error e, entries) => (.error e, { s with entries })
    | (.ok (), entries) => listTopics cfg env rest { s with entries }

/-- The partitions of one topic in `sync_controller_metadata`. -/
def syncPartitions (cfg : Settings) (env : Env) (topic : String) :
    Nat → List ((BrokerId × Nat) × Nat) → Node → Except RequestError Unit × Node
  | _, [], s => (.ok (), s)
  | partition, ((leaderId, leaderEpoch), highWatermark) :: rest, s =>
    match s.entries topic partition with
    | none => (.error (.missingPartition partition), s)
    | some current =>
      if current.leaderEpoch < leaderEpoch ∨
          (leaderEpoch = current.leaderEpoch ∧ current.highWatermark < highWatermark) then
        match s.entries.apply cfg env.persists topic
            ⟨partition, leaderId, leaderEpoch, highWatermark⟩ with
        | (.error e, entries) => (.error e, { s with entries })
        | (.ok (), entries) => syncPartitions cfg env topic (partition + 1) rest { s with entries }
      else syncPartitions cfg env topic (partition + 1) rest s

/-- `describe_topic`, and `create_topic` when the worker does not know the topic. -/
def syncTopic (files : Files) (s : Node) (m : TopicMetadata) : Except RequestError Unit × Node :=
  if (s.worker.topics m.topic).isSome then (.ok (), s)
  else
    match s.worker.createTopic files m.topic m.partitions with
    | (.error e, worker) => (.error (.storage e), { s with worker })
    | (.ok _, worker) => (.ok (), { s with worker })

/-- The loop of `sync_controller_metadata` over the topics the controller lists. -/
def syncTopics (cfg : Settings) (env : Env) :
    List TopicMetadata → Node → Except RequestError Unit × Node
  | [], s => (.ok (), s)
  | m :: rest, s =>
    match s.syncTopic env.files m with
    | (.error e, s) => (.error e, s)
    | (.ok (), s) =>
      match s.entries.ensureTopic cfg env.persists m.topic m.partitions with
      | (.error e, entries) => (.error e, { s with entries })
      | (.ok (), entries) =>
        match syncPartitions cfg env m.topic 0
            ((m.leaders.zip m.leaderEpochs).zip m.highWatermarks) { s with entries } with
        | (.error e, s) => (.error e, s)
        | (.ok (), s) => syncTopics cfg env rest s

/-- `sync_controller_metadata`; the controller has nothing to do. -/
def sync (cfg : Settings) (env : Env) (s : Node) (topics : List TopicMetadata) :
    Except RequestError Unit × Node :=
  if cfg.nodes.headD 0 = cfg.self then (.ok (), s) else syncTopics cfg env topics s

/-- The spawned replication `index` runs. -/
def background (cfg : Settings) (env : Env) (s : Node) (index : Nat) : Node :=
  match s.spawned[index]? with
  | none => s
  | some task =>
    (replicateRecords cfg env task.topic .leader task.records
      { s with spawned := s.spawned.eraseIdx index }).2

end Node

/-! ## Startup -/

/-- `recover_storage`: the partitions found on disk with their recovered logs. -/
def recoverStorage : List (String × Nat × RecordLog) → Worker
  | [] => ⟨fun _ => none, fun _ _ => none, fun _ => 0⟩
  | (topic, partition, log) :: rest =>
    let w := (recoverStorage rest).insertLog topic partition log
    w.insertTopic topic (max ((w.topics topic).getD 0) (partition + 1))

namespace Node

/-- `migrate_topic_high_watermarks`; it fails on a partition without a log. -/
def migrateAll (persists : Entries → Bool) (topic : String) : List Nat → Node → Option Node
  | [], s => some s
  | partition :: rest, s =>
    match s.worker.logs topic partition with
    | none => none
    | some log =>
      match s.entries.migrate persists topic partition log.length with
      | (.error _, _) => none
      | (.ok (), entries) => migrateAll persists topic rest { s with entries }

/-- The loop of `run` over the recovered topics. -/
def startTopics (cfg : Settings) (env : Group.Env) (persists : Entries → Bool) :
    List String → Node → Option Node
  | [], s => some s
  | topic :: rest, s =>
    let partitions := (s.worker.topics topic).getD 0
    match s.entries.ensureTopic cfg persists topic partitions with
    | (.error _, _) => none
    | (.ok (), entries) =>
      match migrateAll persists topic (List.range partitions) { s with entries } with
      | none => none
      | some s =>
        match s.groups.setTopicPartitions env topic partitions with
        | (.error _, _) => none
        | (.ok (), groups) => startTopics cfg env persists rest { s with groups }

end Node

/-- `parse_entries` on the lines of `leadership.meta`. -/
def parseEntries (lines : List (String × PartitionLeadership)) : Entries :=
  lines.foldl (fun entries line => entries.insert line.1 line.2.partition line.2) fun _ _ => none

/-- The startup of a broker on the partitions found on disk, the lines of `leadership.meta` and the
coordinator it opened.  `initial_controller_sync` consists of `sync` requests. -/
def startup (cfg : Settings) (env : Group.Env) (persists : Entries → Bool)
    (found : List (String × Nat × RecordLog)) (lines : List (String × PartitionLeadership))
    (groups : Group.Coordinator) : Option Node :=
  Node.startTopics cfg env persists ((found.map (·.1)).dedup.mergeSort (· ≤ ·))
    ⟨recoverStorage found, parseEntries lines, groups, []⟩

/-! ## Steps -/

inductive Call where
  | createTopic (topic : String) (partitions : Nat)
  | produce (r : ProduceTo)
  | produceBatch (topic : String) (partition : Option Nat) (inputs : List ProduceInput)
      (ackMode : AckMode)
  | fetch (topic : String) (partition offset maxBytes : Nat)
  | listTopics (topics : List String)
  | sync (topics : List TopicMetadata)
  | background (index : Nat)

/-- One request of a broker. -/
def Node.step [Checksum] (cfg : Settings) (s : Node) : Env × Call → Node
  | (env, .createTopic topic partitions) => (s.createTopic cfg env topic partitions).2
  | (env, .produce r) => (s.produce cfg env r).2
  | (env, .produceBatch topic partition inputs ackMode) =>
    (s.produceBatch cfg env topic partition inputs ackMode).2
  | (env, .fetch topic partition offset maxBytes) => (s.fetch cfg env topic partition offset maxBytes).2
  | (env, .listTopics topics) => (Node.listTopics cfg env topics s).2
  | (env, .sync topics) => (s.sync cfg env topics).2
  | (env, .background index) => s.background cfg env index

end SevlaMq.Broker
