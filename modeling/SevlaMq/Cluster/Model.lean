import SevlaMq.Cluster.Leadership
import SevlaMq.Lib.Run
import SevlaMq.Storage.RecordLog

/-!
# The broker cluster, one partition, at await granularity

Model of the replication and leadership code of `crates/broker/src/lib.rs` for one partition:
`process_produce` / `produce_batch`, `dispatch_replication`, `Replicator::{replicate, commit,
replicate_to_follower}`, `handle_replication_connection`, `process_topic_request`
(`ApplyLeadership`), `promote_leader`, `verify_promotion_candidate`, `sync_controller_metadata`,
`recover_follower_partition` and `Fetch`.

* Every broker is its registry entry and its log; both survive a restart.
* A request that is being handled is a `Task`.  Its constructors are the points at which the
  source awaits (a storage command, a message, a round trip) or takes the registry lock; one
  `taskStep` runs the code up to the next such point.  Any task may be stepped at any time, so
  all interleavings are runs.
* `net` only grows.  A message is delivered by choosing it; a message that is never chosen is
  lost, one chosen twice is duplicated, and the order of choice is arbitrary.
* `Choice.fail` is a failed or timed-out round trip.
* `Job.origin`, the entries in `Replication.acked`, the sender and epoch recorded in messages, `cut` and
  `State.elected` are history: no step reads them to decide what to do.
-/

set_option autoImplicit false

namespace SevlaMq.Cluster

open SevlaMq.Storage

/-! ## Data on the wire -/

structure FetchedRecord where
  offset : Nat
  timestampMs : UInt64
  key : Option Bytes
  value : Bytes
  deriving DecidableEq, Repr

/-- The fetched form of a stored record; the producer identity is not part of it. -/
def fetched (r : Record) (offset : Nat) : FetchedRecord := ⟨offset, r.timestampMs, r.key, r.value⟩

/-- The record a replica stores for a fetched or replicated record. -/
def FetchedRecord.toRecord (f : FetchedRecord) : Record := Record.new f.key f.value f.timestampMs

inductive AckMode where
  | leader
  | durable
  deriving DecidableEq, Repr

/-- One record of a produce request; a batch has several and no producer. -/
structure ProduceInput where
  key : Bytes
  payload : Bytes
  producer : Option ProducerIdentity
  deriving DecidableEq, Repr

structure ProduceRequest where
  inputs : List ProduceInput
  ackMode : AckMode
  deriving DecidableEq, Repr

/-- The record `append_record` builds at time `timestampMs`. -/
def ProduceInput.record (i : ProduceInput) (timestampMs : UInt64) : Record :=
  ⟨if i.key = [] then none else some i.key, i.payload, timestampMs, i.producer⟩

/-- A request for one record without key and producer. -/
def oneRecord (value : UInt8) (ackMode : AckMode) : ProduceRequest :=
  ⟨[⟨[], [value], none⟩], ackMode⟩

structure ReplicateRecord where
  record : FetchedRecord
  durable : Bool
  leaderId : BrokerId
  leaderEpoch : Nat
  deriving DecidableEq, Repr

/-- `replication_record`. -/
def replicationRecord (record : FetchedRecord) (ackMode : AckMode) (l : PartitionLeadership) :
    ReplicateRecord :=
  ⟨record, ackMode = .durable, l.leaderId, l.leaderEpoch⟩

inductive Message where
  | applyLeadership (dst : BrokerId) (l : PartitionLeadership)
  | replicate (conn : Nat) (sender dst : BrokerId) (m : ReplicateRecord)
  | replicateAck (conn : Nat) (nextOffset : Nat)
  | fetch (conn : Nat) (dst : BrokerId) (offset maxBytes : Nat)
  | fetched (conn : Nat) (epoch : Nat) (records : List FetchedRecord)
  deriving DecidableEq, Repr

/-- An acknowledgement given to a producer. -/
structure Answer where
  broker : BrokerId
  ackMode : AckMode
  record : FetchedRecord
  deriving DecidableEq, Repr

/-! ## Tasks -/

/-- A record to replicate and the epoch of the broker's entry when it was read back. -/
structure Job where
  record : FetchedRecord
  origin : Nat
  deriving DecidableEq, Repr

/-- A follower that was counted: the offset it acknowledged, the entry it was contacted under, and
the broker's entry when its acknowledgement was counted. -/
structure Acknowledgement where
  follower : BrokerId
  next : Nat
  contacted : PartitionLeadership
  counted : Option PartitionLeadership
  deriving DecidableEq, Repr

/-- The local state of `replicate_records` and of the `Replicator::replicate` it is in. -/
structure Replication where
  ackMode : AckMode
  finished : List FetchedRecord
  current : Job
  rest : List Job
  followers : List BrokerId
  acked : List Acknowledgement
  deriving DecidableEq, Repr

/-- The counter starts at one, for the leader itself. -/
def Replication.acknowledgements (r : Replication) : Nat := 1 + r.acked.length

inductive Task where
  | done
  -- process_produce, produce_batch
  | append (request : ProduceRequest)
  | readBack (ackMode : AckMode) (offsets : List Nat) (jobs : List Job)
  -- Replicator::replicate, replicate_to_follower, commit
  | contact (r : Replication)
  | awaitAck (r : Replication) (l : PartitionLeadership) (conn : Nat) (first : Bool)
  | catchUp (r : Replication) (l : PartitionLeadership) (next : Nat)
  | commitApply (r : Replication) (l : PartitionLeadership)
  -- handle_replication_connection
  | replicaTail (conn : Nat) (m : ReplicateRecord) (cur : PartitionLeadership)
  | replicaTruncate (conn : Nat) (m : ReplicateRecord) (cur : PartitionLeadership)
  | replicaAdopt (conn : Nat) (m : ReplicateRecord) (cur : PartitionLeadership) (cut : Bool)
  | replicaExpected (conn : Nat) (m : ReplicateRecord)
  | replicaStore (conn : Nat) (m : ReplicateRecord)
  -- process_topic_request (ApplyLeadership)
  | leadershipTail (l cur : PartitionLeadership)
  | leadershipTruncate (l cur : PartitionLeadership)
  | leadershipApply (l cur : PartitionLeadership) (cut : Bool)
  -- promote_leader, verify_promotion_candidate
  | promoteQuery (candidate : BrokerId) (cur : PartitionLeadership) (remaining : List BrokerId)
      (offsets : List (BrokerId × Nat))
  | promoteTail (l cur : PartitionLeadership)
  | promoteTruncate (l cur : PartitionLeadership)
  | promoteApply (l cur : PartitionLeadership) (cut : Bool)
  -- sync_controller_metadata
  | syncCompare (l : PartitionLeadership)
  | syncApply (l : PartitionLeadership)
  -- start_follower_recovery, recover_follower_partition
  | recoverStart (offset : Nat)
  | recoverFetch (offset : Nat)
  | recoverAwait (conn : Nat)
  | recoverStore (epoch : Nat) (records : List FetchedRecord)
  -- process_request (Fetch)
  | fetchRead (conn : Nat) (offset maxBytes : Nat)
  | fetchFilter (conn : Nat) (epoch : Nat) (records : List FetchedRecord)
  deriving DecidableEq, Repr

structure Broker where
  entry : Option PartitionLeadership
  log : RecordLog

/-- The high watermark a broker knows. -/
def Broker.highWatermark (x : Broker) : Nat := (x.entry.map (·.highWatermark)).getD 0

theorem Broker.highWatermark_eq {x : Broker} {l : PartitionLeadership} (h : x.entry = some l) :
    x.highWatermark = l.highWatermark := by
  rw [Broker.highWatermark, h]; rfl

structure State where
  broker : BrokerId → Broker
  tasks : List (BrokerId × Task)
  net : List Message
  answers : List Answer
  elected : List PartitionLeadership
  nextConn : Nat

/-- How a pending await of a task ends. -/
inductive Choice where
  | go
  | fail
  | stamp (timestamps : List UInt64)
  | receive (index : Nat)
  deriving DecidableEq, Repr

/-- What one task step does to its broker, its own continuation and the outside. -/
structure Effect where
  broker : Broker
  task : Task
  sent : List Message := []
  answered : List Answer := []
  elected : List PartitionLeadership := []

/-! ## Pieces of the handlers -/

/-- The epoch of an entry, `0` while there is none. -/
def epochOf (e : Option PartitionLeadership) : Nat := (e.map (·.leaderEpoch)).getD 0

@[simp] theorem epochOf_none : epochOf none = 0 := rfl

@[simp] theorem epochOf_some (l : PartitionLeadership) : epochOf (some l) = l.leaderEpoch := rfl

/-- `append_record` for every input, as one storage command. -/
def appendInputs : RecordLog → List (ProduceInput × UInt64) →
    Except StorageError (List Nat) × RecordLog
  | log, [] => (.ok [], log)
  | log, (i, ts) :: rest =>
    match log.append (i.record ts) with
    | .error e => (.error e, log)
    | .ok (offset, log') =>
      match appendInputs log' rest with
      | (.error e, log'') => (.error e, log'')
      | (.ok offsets, log'') => (.ok (offset :: offsets), log'')

/-- The `ApplyLeadership` copies sent to every other node. -/
def broadcast (cfg : ClusterConfig) (self : BrokerId) (l : PartitionLeadership) : List Message :=
  (cfg.nodes.filter (· ≠ self)).map (Message.applyLeadership · l)

/-- The replication state for a record, before the first follower is contacted. -/
def startReplication (cfg : ClusterConfig) (self : BrokerId) (ackMode : AckMode)
    (finished : List FetchedRecord) (job : Job) (rest : List Job) : Replication :=
  ⟨ackMode, finished, job, rest, cfg.replicaFollowers self, []⟩

/-- Give up on the follower at hand. -/
def Replication.drop (r : Replication) : Replication := { r with followers := r.followers.tail }

/-- Count the follower at hand, contacted under `l`. -/
def Replication.ack (r : Replication) (next : Nat) (l : PartitionLeadership)
    (entry : Option PartitionLeadership) : Replication :=
  { r with
    followers := r.followers.tail
    acked := r.acked ++ [⟨r.followers.headD 0, next, l, entry⟩] }

/-- `replicate` returned `Ok` for the current record: next record, or answer and end. -/
def finishRecord (cfg : ClusterConfig) (self : BrokerId) (r : Replication) :
    Task × List Answer :=
  match r.rest with
  | job :: rest =>
    (.contact (startReplication cfg self r.ackMode (r.finished ++ [r.current.record]) job rest), [])
  | [] =>
    (.done, if r.ackMode = .durable then
      (r.finished ++ [r.current.record]).map (Answer.mk self .durable) else [])

/-- The records `StorageHandle::read` returns. -/
def readRecords (log : RecordLog) (offset maxBytes : Nat) : Option (List FetchedRecord) :=
  match log.read offset maxBytes with
  | .error _ => none
  | .ok records => some (records.map fun s => fetched s.toRecord s.offset)

/-- The verdict of `verify_promotion_candidate` on the offsets collected. -/
def promotable (cfg : ClusterConfig) (candidate : BrokerId) (cur : PartitionLeadership)
    (offsets : List (BrokerId × Nat)) : Bool :=
  match offsets.find? (·.1 == candidate) with
  | none => false
  | some (_, offset) => cfg.minInSyncReplicas ≤ offsets.length && cur.highWatermark ≤ offset

/-- The leadership `promote_leader` wants to install over `cur`. -/
def promoted (candidate : BrokerId) (cur : PartitionLeadership) : PartitionLeadership :=
  { cur with leaderId := candidate, leaderEpoch := cur.leaderEpoch + 1 }

/-- The leadership a higher-epoch replication request installs. -/
def adopted (cfg : ClusterConfig) (m : ReplicateRecord) (cur : PartitionLeadership) :
    PartitionLeadership :=
  ⟨cfg.partition, m.leaderId, m.leaderEpoch, cur.highWatermark⟩

/-- What a task passes to `LeadershipRegistry::apply` in its next step. -/
def Task.update (cfg : ClusterConfig) : Task → Option PartitionLeadership
  | .commitApply _ l => some l
  | .replicaAdopt _ m cur _ => some (adopted cfg m cur)
  | .leadershipApply l _ _ => some l
  | .promoteApply l _ _ => some l
  | .syncApply l => some l
  | _ => none

/-- The epoch of the entry a request found, once it has removed records from the log. -/
def Task.cutFrom : Task → Option Nat
  | .replicaAdopt _ _ cur cut => if cut then some cur.leaderEpoch else none
  | .leadershipApply _ cur cut => if cut then some cur.leaderEpoch else none
  | .promoteApply _ cur cut => if cut then some cur.leaderEpoch else none
  | _ => none

/-- The request has removed records from the log. -/
def Task.cut (t : Task) : Bool := t.cutFrom.isSome

/-! ## One step of a task -/

/-- The task `t` of broker `b` runs to its next await point. -/
def taskStep (cfg : ClusterConfig) (s : State) (b : BrokerId) (t : Task) (c : Choice) :
    Option Effect :=
  let self := s.broker b
  match t, c with
  | .append request, .stamp timestamps =>
    if timestamps.length ≠ request.inputs.length then none else
    match appendInputs self.log (request.inputs.zip timestamps) with
    | (.ok offsets, log) => some ⟨{ self with log }, .readBack request.ackMode offsets [], [], [], []⟩
    | (.error _, log) => some ⟨{ self with log }, .done, [], [], []⟩
  | .readBack ackMode (offset :: offsets) jobs, .go =>
    match self.log[offset]? with
    | some r =>
      some ⟨self, .readBack ackMode offsets (jobs ++ [⟨fetched r offset, epochOf self.entry⟩]),
        [], [], []⟩
    | none => some ⟨self, .done, [], [], []⟩
  | .readBack ackMode [] jobs, .go =>
    match jobs with
    | [] => some ⟨self, .done, [], [], []⟩
    | job :: rest =>
      some ⟨self, .contact (startReplication cfg b ackMode [] job rest), [],
        if ackMode = .leader then jobs.map (Answer.mk b .leader ·.record) else [], []⟩
  | .contact r, .go =>
    match r.followers with
    | follower :: _ =>
      match self.entry with
      | none => some ⟨self, .contact r.drop, [], [], []⟩
      | some l =>
        some ⟨self, .awaitAck r l s.nextConn true,
          [.replicate s.nextConn b follower (replicationRecord r.current.record r.ackMode l)], [], []⟩
    | [] =>
      if cfg.minInSyncReplicas ≤ r.acknowledgements then
        match self.entry with
        | none => some ⟨self, .done, [], [], []⟩
        | some l =>
          if r.current.record.offset + 1 ≤ l.highWatermark then
            some ⟨self, (finishRecord cfg b r).1, [], (finishRecord cfg b r).2, []⟩
          else
            some ⟨self, .commitApply r { l with highWatermark := r.current.record.offset + 1 },
              [], [], []⟩
      else if r.ackMode = .durable then some ⟨self, .done, [], [], []⟩
      else some ⟨self, (finishRecord cfg b r).1, [], (finishRecord cfg b r).2, []⟩
  | .contact r, .fail =>
    match r.followers with
    | _ :: _ => some ⟨self, .contact r.drop, [], [], []⟩
    | [] => none
  | .awaitAck r l conn first, .receive index =>
    match s.net[index]? with
    | some (.replicateAck conn' next) =>
      if conn' ≠ conn then none
      else if first ∧ r.current.record.offset + 1 < next then
        some ⟨self, .contact r.drop, [], [], []⟩
      else if next ≤ r.current.record.offset then some ⟨self, .catchUp r l next, [], [], []⟩
      else some ⟨self, .contact (r.ack next l self.entry), [], [], []⟩
    | _ => none
  | .awaitAck r _ _ _, .fail => some ⟨self, .contact r.drop, [], [], []⟩
  | .catchUp r l next, .go =>
    match self.log[next]? with
    | some missing =>
      some ⟨self, .awaitAck r l s.nextConn false,
        [.replicate s.nextConn b (r.followers.headD 0)
          (replicationRecord (fetched missing next) r.ackMode l)], [], []⟩
    | none => some ⟨self, .contact r.drop, [], [], []⟩
  | .catchUp r _ _, .fail => some ⟨self, .contact r.drop, [], [], []⟩
  | .commitApply r l, .go =>
    match applyEntry cfg self.entry l with
    | .error _ => some ⟨self, .done, [], [], []⟩
    | .ok e =>
      some ⟨{ self with entry := some e }, (finishRecord cfg b r).1, broadcast cfg b l,
        (finishRecord cfg b r).2, []⟩
  | .replicaTail conn m cur, .go =>
    if m.record.offset < self.log.length then some ⟨self, .replicaTruncate conn m cur, [], [], []⟩
    else some ⟨self, .replicaAdopt conn m cur false, [], [], []⟩
  | .replicaTruncate conn m cur, .go =>
    match self.log.truncateTo m.record.offset with
    | .error _ => some ⟨self, .done, [], [], []⟩
    | .ok log =>
      some ⟨{ self with log }, .replicaAdopt conn m cur (m.record.offset < self.log.length),
        [], [], []⟩
  | .replicaAdopt conn m cur _, .go =>
    match applyEntry cfg self.entry (adopted cfg m cur) with
    | .error _ => some ⟨self, .done, [], [], []⟩
    | .ok e => some ⟨{ self with entry := some e }, .replicaExpected conn m, [], [], []⟩
  | .replicaExpected conn m, .go =>
    if self.log.length < m.record.offset then
      some ⟨self, .done, [.replicateAck conn self.log.length], [], []⟩
    else some ⟨self, .replicaStore conn m, [], [], []⟩
  | .replicaStore conn m, .go =>
    match self.log.appendReplica m.record.offset m.record.toRecord with
    | .error _ => some ⟨self, .done, [], [], []⟩
    | .ok (_, log) => some ⟨{ self with log }, .done, [.replicateAck conn log.length], [], []⟩
  | .leadershipTail l cur, .go =>
    if l.highWatermark < self.log.length then some ⟨self, .leadershipTruncate l cur, [], [], []⟩
    else some ⟨self, .leadershipApply l cur false, [], [], []⟩
  | .leadershipTruncate l cur, .go =>
    match self.log.truncateTo l.highWatermark with
    | .error _ => some ⟨self, .done, [], [], []⟩
    | .ok log =>
      some ⟨{ self with log }, .leadershipApply l cur (l.highWatermark < self.log.length), [], [], []⟩
  | .leadershipApply l _ _, .go =>
    match applyEntry cfg self.entry l with
    | .error _ => some ⟨self, .done, [], [], []⟩
    | .ok e => some ⟨{ self with entry := some e }, .done, [], [], []⟩
  | .promoteQuery candidate cur (node :: remaining) offsets, .go =>
    some ⟨self, .promoteQuery candidate cur remaining
      (offsets ++ [(node, (s.broker node).log.length)]), [], [], []⟩
  | .promoteQuery candidate cur (_ :: remaining) offsets, .fail =>
    some ⟨self, .promoteQuery candidate cur remaining offsets, [], [], []⟩
  | .promoteQuery candidate cur [] offsets, .go =>
    if promotable cfg candidate cur offsets = false then some ⟨self, .done, [], [], []⟩
    else if 2 ^ 64 ≤ cur.leaderEpoch + 1 then some ⟨self, .done, [], [], []⟩
    else if candidate = b then
      some ⟨self, .promoteTail (promoted candidate cur) cur, [], [], []⟩
    else some ⟨self, .promoteApply (promoted candidate cur) cur false, [], [], []⟩
  | .promoteTail l cur, .go =>
    if l.highWatermark < self.log.length then some ⟨self, .promoteTruncate l cur, [], [], []⟩
    else some ⟨self, .promoteApply l cur false, [], [], []⟩
  | .promoteTruncate l cur, .go =>
    match self.log.truncateTo l.highWatermark with
    | .error _ => some ⟨self, .done, [], [], []⟩
    | .ok log =>
      some ⟨{ self with log }, .promoteApply l cur (l.highWatermark < self.log.length), [], [], []⟩
  | .promoteApply l _ _, .go =>
    match applyEntry cfg self.entry l with
    | .error _ => some ⟨self, .done, [], [], []⟩
    | .ok e =>
      some ⟨{ self with entry := some e }, .done, broadcast cfg b l, [],
        if epochOf self.entry < l.leaderEpoch then [l] else []⟩
  | .syncCompare l, .go =>
    let cur := self.entry.getD (initialLeadership cfg)
    if cur.leaderEpoch < l.leaderEpoch ∨
        (l.leaderEpoch = cur.leaderEpoch ∧ cur.highWatermark < l.highWatermark) then
      some ⟨{ self with entry := some cur }, .syncApply l, [], [], []⟩
    else some ⟨{ self with entry := some cur }, .done, [], [], []⟩
  | .syncApply l, .go =>
    match applyEntry cfg self.entry l with
    | .error _ => some ⟨self, .done, [], [], []⟩
    | .ok e => some ⟨{ self with entry := some e }, .done, [], [], []⟩
  | .recoverStart offset, .go =>
    match self.entry with
    | none => some ⟨self, .done, [], [], []⟩
    | some l =>
      if l.leaderId = b ∨ cfg.isPartitionReplica b = false then some ⟨self, .done, [], [], []⟩
      else some ⟨self, .recoverFetch offset, [], [], []⟩
  | .recoverFetch offset, .go =>
    -- `Client::fetch` asks the controller for the leader and sends the request there
    match (s.broker cfg.controller).entry with
    | none => some ⟨self, .done, [], [], []⟩
    | some l =>
      some ⟨self, .recoverAwait s.nextConn,
        [.fetch s.nextConn l.leaderId offset (3 * 1024 * 1024)], [], []⟩
  | .recoverAwait conn, .receive index =>
    match s.net[index]? with
    | some (.fetched conn' epoch records) =>
      if conn' ≠ conn then none
      else if records = [] then some ⟨self, .done, [], [], []⟩
      else some ⟨self, .recoverStore epoch records, [], [], []⟩
    | _ => none
  | .recoverAwait _, .fail => some ⟨self, .done, [], [], []⟩
  | .recoverStore epoch (record :: records), .go =>
    match self.entry, self.log.appendReplica record.offset record.toRecord with
    | some _, .ok (_, log) =>
      some ⟨{ self with log },
        if records = [] then .recoverFetch log.length else .recoverStore epoch records, [], [], []⟩
    | _, _ => some ⟨self, .done, [], [], []⟩
  | .fetchRead conn offset maxBytes, .go =>
    match readRecords self.log offset maxBytes with
    | none => some ⟨self, .done, [], [], []⟩
    | some records => some ⟨self, .fetchFilter conn (epochOf self.entry) records, [], [], []⟩
  | .fetchFilter conn epoch records, .go =>
    match self.entry with
    | none => some ⟨self, .done, [], [], []⟩
    | some l =>
      some ⟨self, .done, [.fetched conn epoch (records.filter (·.offset < l.highWatermark))], [], []⟩
  | _, _ => none

/-! ## The cluster -/

/-- The task a delivered message starts at its destination, after the registry check. -/
def receive (cfg : ClusterConfig) (s : State) : Message → Option (BrokerId × Task)
  | .applyLeadership dst l =>
    match (s.broker dst).entry with
    | none => none
    | some cur =>
      if cur.leaderEpoch < l.leaderEpoch then some (dst, .leadershipTail l cur)
      else some (dst, .leadershipApply l cur false)
  | .replicate conn _ dst m =>
    match (s.broker dst).entry with
    | none => none
    | some cur =>
      if m.leaderEpoch < cur.leaderEpoch ∨
          (m.leaderEpoch = cur.leaderEpoch ∧ m.leaderId ≠ cur.leaderId) then none
      else if cur.leaderEpoch < m.leaderEpoch then some (dst, .replicaTail conn m cur)
      else some (dst, .replicaExpected conn m)
  | .fetch conn dst offset maxBytes =>
    if cfg.nodes.length = 1 ∨ (s.broker dst).entry.map (·.leaderId) = some dst then
      some (dst, .fetchRead conn offset maxBytes)
    else none
  | .replicateAck _ _ => none
  | .fetched _ _ _ => none

inductive Action where
  | createTopic (b : BrokerId)
  | produce (b : BrokerId) (request : ProduceRequest)
  | promote (candidate : BrokerId)
  | sync (b : BrokerId)
  | recover (b : BrokerId)
  | fetch (b : BrokerId) (offset maxBytes : Nat)
  | deliver (index : Nat)
  | task (index : Nat) (c : Choice)
  | restart (b : BrokerId)
  deriving DecidableEq, Repr

def State.spawn (s : State) (b : BrokerId) (t : Task) : State :=
  { s with tasks := s.tasks ++ [(b, t)] }

def State.setBroker (s : State) (b : BrokerId) (x : Broker) : State :=
  { s with broker := fun i => if i = b then x else s.broker i }

/-- Install the effect of a step of task `index`, owned by `b`. -/
def State.install (s : State) (b : BrokerId) (index : Nat) (e : Effect) : State :=
  { broker := fun i => if i = b then e.broker else s.broker i
    tasks := s.tasks.set index (b, e.task)
    net := s.net ++ e.sent
    answers := s.answers ++ e.answered
    elected := s.elected ++ e.elected
    nextConn := s.nextConn + 1 }

/-- A stopped broker forgets its tasks; registry entry and log are on disk. -/
def State.restart (s : State) (b : BrokerId) : State :=
  { s with tasks := s.tasks.map fun p => if p.1 = b then (b, .done) else p }

/-- One step of the cluster. -/
def step (cfg : ClusterConfig) (s : State) : Action → Option State
  | .createTopic b =>
    if b ∈ cfg.nodes then
      some (s.setBroker b { s.broker b with
        entry := some ((s.broker b).entry.getD (initialLeadership cfg)) })
    else none
  | .produce b request =>
    -- `cluster_leadership_error`
    if b ∈ cfg.nodes ∧
        (cfg.nodes.length = 1 ∨ (s.broker b).entry.map (·.leaderId) = some b) then
      some (s.spawn b (.append request))
    else none
  | .promote candidate =>
    match (s.broker cfg.controller).entry with
    | none => none
    | some cur =>
      if cfg.isPartitionReplica candidate then
        some (s.spawn cfg.controller
          (.promoteQuery candidate cur (cfg.nodes.filter cfg.isPartitionReplica) []))
      else none
  | .sync b =>
    match (s.broker cfg.controller).entry with
    | none => none
    | some l =>
      if b ∈ cfg.nodes ∧ b ≠ cfg.controller then some (s.spawn b (.syncCompare l)) else none
  | .recover b =>
    if b ∈ cfg.nodes then some (s.spawn b (.recoverStart (s.broker b).log.length)) else none
  | .fetch b offset maxBytes =>
    if b ∈ cfg.nodes then
      some { s with
        net := s.net ++ [.fetch s.nextConn b offset maxBytes]
        nextConn := s.nextConn + 1 }
    else none
  | .deliver index =>
    match s.net[index]? with
    | none => none
    | some m =>
      match receive cfg s m with
      | none => none
      | some (b, t) => some (s.spawn b t)
  | .task index c =>
    match s.tasks[index]? with
    | none => none
    | some (b, t) =>
      match taskStep cfg s b t c with
      | none => none
      | some e => some (s.install b index e)
  | .restart b => some (s.restart b)

/-- Nothing has happened yet: no topic, empty logs. -/
def State.init : State :=
  { broker := fun _ => ⟨none, []⟩
    tasks := [], net := [], answers := [], elected := [], nextConn := 0 }

end SevlaMq.Cluster
