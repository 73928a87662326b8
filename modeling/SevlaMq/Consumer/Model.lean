import SevlaMq.Group.OffsetFiles
import SevlaMq.Lib.Run
import SevlaMq.Storage.RecordLog

/-!
# Consumers of a group

Model of `sevlamq consume` (`bin/sevlamq-cli/src/commands/consume.rs`) beside the broker it talks to:
`execute`, `consume_generation`, `process_record` and `load_offsets` on one side, the group
coordinator, `group_fetch` and the logs of the topic on the other.

* `Process` — where a consumer is between two of its steps.  The consumers of a group are told apart
  by their member ids; an id has at most one process, which may crash at any point and be started
  again.
* `System.act` — a step of a consumer: a request with its answer, or something it does on its own.
  Every error of the source that is not an answer of the broker ends the process, which is a
  `crash` here.
* `System.step` — such a step, or one of the broker: records arrive, the high watermark is raised,
  sessions expire, a topic changes its partitions, the broker is started again.
* `invoked` and `completed` — the records whose handler was started, and those whose handler
  succeeded or whose failure was published.
-/

set_option autoImplicit false

namespace SevlaMq.Consumer

open SevlaMq.Storage (Record StoredRecord RecordLog)
open SevlaMq.Group

inductive DeliveryMode where
  | atMostOnce
  | atLeastOnce
  deriving DecidableEq, Repr

/-- The options of the consumers of a group; the limit of a fetch may differ from member to
member. -/
structure Options where
  group : String
  topic : String
  maxBytes : String → Nat

/-- What a consumer knows of the generation it has joined. -/
structure Session where
  generation : Nat
  partitions : List Nat
  offsets : Nat → Option Nat

def Session.insert (session : Session) (partition offset : Nat) : Session :=
  { session with offsets := fun p => if p = partition then some offset else session.offsets p }

/-- `offsets.get(partition).copied().unwrap_or_default()`. -/
def Session.offset (session : Session) (partition : Nat) : Nat :=
  (session.offsets partition).getD 0

/-- How far `process_record` has come: in `committed` the commit before the handler was accepted, in
`completed` the commit after the handler comes next. -/
inductive Stage where
  | start
  | committed
  | running
  | failed
  | completed
  deriving DecidableEq, Repr

/-- Where `consume_generation` is; `rest` are the partitions that are still to come. -/
inductive Phase where
  | loading (partition : Nat) (rest : List Nat)
  | idle
  | polling (partition : Nat) (rest : List Nat)
  | fetching (partition : Nat) (rest : List Nat) (highWatermark : Nat)
  | processing (partition : Nat) (rest : List Nat) (record : StoredRecord)
      (records : List StoredRecord) (stage : Stage)
  | leaving

inductive Process where
  | down
  | joining
  | consuming (session : Session) (phase : Phase)

/-! ## What comes next -/

/-- The loop of `load_offsets`. -/
def loadNext : List Nat → Phase
  | [] => .idle
  | partition :: rest => .loading partition rest

/-- The loop over the partitions; at its end the outer loop starts again. -/
def pollNext : List Nat → Phase
  | [] => .idle
  | partition :: rest => .polling partition rest

/-- The loop over the records of a response, with the check of the next offset. -/
def processNext (session : Session) (partition : Nat) (rest : List Nat) :
    List StoredRecord → Process
  | [] => .consuming session (pollNext rest)
  | record :: records =>
    if record.offset + 1 ≤ GENERATION_MAX then
      .consuming session (.processing partition rest record records .start)
    else .down

/-- Where `process_record` commits. -/
def DeliveryMode.commitsAt : DeliveryMode → Stage
  | .atMostOnce => .start
  | .atLeastOnce => .completed

/-- Where `process_record` runs the handler. -/
def DeliveryMode.invokesAt : DeliveryMode → Stage
  | .atMostOnce => .committed
  | .atLeastOnce => .start

/-- After the commit. -/
def committedNext (delivery : DeliveryMode) (session : Session) (partition : Nat)
    (rest : List Nat) (record : StoredRecord) (records : List StoredRecord) : Process :=
  match delivery with
  | .atMostOnce => .consuming session (.processing partition rest record records .committed)
  | .atLeastOnce =>
    processNext (session.insert partition (record.offset + 1)) partition rest records

/-- After the handler. -/
def completedNext (delivery : DeliveryMode) (session : Session) (partition : Nat)
    (rest : List Nat) (record : StoredRecord) (records : List StoredRecord) : Process :=
  match delivery with
  | .atMostOnce =>
    processNext (session.insert partition (record.offset + 1)) partition rest records
  | .atLeastOnce => .consuming session (.processing partition rest record records .completed)

/-- Whether an error response, or the end of the heartbeat, makes the consumer join again. -/
def Phase.rejoins (delivery : DeliveryMode) : Phase → Bool
  | .idle | .polling _ _ | .fetching _ _ _ => true
  | .processing _ _ _ _ stage => stage = delivery.commitsAt
  | .loading _ _ | .leaving => false

/-! ## Steps -/

structure System where
  coordinator : Coordinator
  logs : Nat → RecordLog
  highWatermark : Nat → Nat
  consumers : String → Process
  -- partition and offset of each record a handler was started for
  invoked : List (Nat × Nat)
  -- partition and record
  completed : List (Nat × StoredRecord)

inductive Action where
  | start
  | crash
  | join (env : Env)
  | load (env : Env)
  | rejoin
  | poll
  -- the high watermark is read before the request is authorized
  | fetch (env : Env) (highWatermark : Nat)
  | read
  | commit (env : Env)
  | invoke
  | succeed
  | fail
  | publish
  | heartbeat (env : Env)
  | shutdown
  | leave (env : Env)

inductive Event where
  | consumer (member : String) (action : Action)
  | produce (partition : Nat) (record : Record)
  | advance (partition highWatermark : Nat)
  | expireSessions (env : Env)
  | setTopicPartitions (env : Env) (topic : String) (partitions : Nat)
  -- `lost` are the records at the end of each log that did not reach the disk
  | restart (partitionCount sessionTimeout : Nat) (lost : Nat → Nat)

namespace System

/-- The coordinator after a call, and the process of the consumer that made it. -/
def become (s : System) (member : String) (c : Coordinator) (process : Process) : System :=
  { s with
    coordinator := c
    consumers := fun m => if m = member then process else s.consumers m }

/-- The identity a consumer sends. -/
def identity (options : Options) (member : String) (session : Session) : GroupIdentity :=
  ⟨options.group, options.topic, member, session.generation⟩

/-- A step of `process_record`. -/
def process (delivery : DeliveryMode) (options : Options) (s : System) (member : String)
    (session : Session) (partition : Nat) (rest : List Nat) (record : StoredRecord)
    (records : List StoredRecord) (stage : Stage) : Action → Option System
  | .commit env =>
    if stage = delivery.commitsAt then
      match s.coordinator.commit env (identity options member session) partition
        (record.offset + 1) with
      | (.error _, c) => some (s.become member c .joining)
      | (.ok (), c) => some (s.become member c
          (committedNext delivery session partition rest record records))
    else none
  | .invoke =>
    if stage = delivery.invokesAt then
      some { s.become member s.coordinator
          (.consuming session (.processing partition rest record records .running)) with
        invoked := s.invoked ++ [(partition, record.offset)] }
    else none
  | .fail =>
    if stage = .running then
      some (s.become member s.coordinator
        (.consuming session (.processing partition rest record records .failed)))
    else none
  | .succeed =>
    if stage = .running then
      some { s.become member s.coordinator
          (completedNext delivery session partition rest record records) with
        completed := s.completed ++ [(partition, record)] }
    else none
  | .publish =>
    if stage = .failed then
      some { s.become member s.coordinator
          (completedNext delivery session partition rest record records) with
        completed := s.completed ++ [(partition, record)] }
    else none
  | _ => none

/-- A step of a consumer that has joined. -/
def consume (delivery : DeliveryMode) (options : Options) (s : System) (member : String)
    (session : Session) : Phase → Action → Option System
  | .loading partition rest, .load env =>
    match s.coordinator.committedOffset env options.group options.topic partition with
    | .error _ => some (s.become member s.coordinator .down)
    | .ok offset => some (s.become member s.coordinator
        (.consuming (session.insert partition (offset.getD 0)) (loadNext rest)))
  | .idle, .poll =>
    some (s.become member s.coordinator (.consuming session (pollNext session.partitions)))
  | .polling partition rest, .fetch env highWatermark =>
    if highWatermark ≤ s.highWatermark partition then
      match s.coordinator.authorizeFetch env (identity options member session) partition with
      | (.error _, c) => some (s.become member c .joining)
      | (.ok (), c) => some (s.become member c
          (.consuming session (.fetching partition rest highWatermark)))
    else none
  | .fetching partition rest highWatermark, .read =>
    match (s.logs partition).read (session.offset partition) (options.maxBytes member) with
    | .error _ => some (s.become member s.coordinator .joining)
    | .ok records => some (s.become member s.coordinator
        (processNext session partition rest (records.filter (·.offset < highWatermark))))
  | .polling _ _, .shutdown => some (s.become member s.coordinator (.consuming session .leaving))
  | .fetching _ _ _, .shutdown => some (s.become member s.coordinator (.consuming session .leaving))
  | .leaving, .leave env =>
    some (s.become member (s.coordinator.leave env (identity options member session)).2 .down)
  | .processing partition rest record records stage, action =>
    s.process delivery options member session partition rest record records stage action
  | _, _ => none

/-- A step of a consumer. -/
def act (delivery : DeliveryMode) (options : Options) (s : System) (member : String) :
    Process → Action → Option System
  | _, .crash => some (s.become member s.coordinator .down)
  | .down, .start => some (s.become member s.coordinator .joining)
  | .joining, .join env =>
    match s.coordinator.join env options.group options.topic member with
    | (.error _, c) => some (s.become member c .down)
    | (.ok (generation, partitions), c) => some (s.become member c
        (.consuming ⟨generation, partitions, fun _ => none⟩ (loadNext partitions)))
  | .consuming session phase, .heartbeat env =>
    some (s.become member (s.coordinator.heartbeat env (identity options member session)).2
      (.consuming session phase))
  | .consuming _ phase, .rejoin =>
    if phase.rejoins delivery then some (s.become member s.coordinator .joining) else none
  | .consuming session phase, action => s.consume delivery options member session phase action
  | _, _ => none

def step (delivery : DeliveryMode) (options : Options) (dataDir : Path) (s : System) :
    Event → Option System
  | .consumer member action => s.act delivery options member (s.consumers member) action
  | .produce partition record =>
    match (s.logs partition).append record with
    | .error _ => some s
    | .ok (_, log) =>
      some { s with logs := fun p => if p = partition then log else s.logs p }
  | .advance partition highWatermark =>
    some { s with highWatermark := fun p =>
      if p = partition then max (s.highWatermark p) highWatermark else s.highWatermark p }
  | .expireSessions env => some { s with coordinator := (s.coordinator.expireSessions env).2 }
  | .setTopicPartitions env topic partitions =>
    some { s with coordinator := (s.coordinator.setTopicPartitions env topic partitions).2 }
  | .restart partitionCount sessionTimeout lost =>
    match Coordinator.openDir s.coordinator.disk dataDir partitionCount sessionTimeout with
    | .error _ => none
    | .ok c => some { s with
        coordinator := c
        logs := fun p => (s.logs p).take ((s.logs p).length - lost p) }

end System

/-- The broker was opened on a disk with the committed offsets `last` of the group, and no consumer
has been started. -/
structure Initial (options : Options) (dataDir : Path) (last : Nat → Option Nat) (s : System) :
    Prop where
  opened : ∃ disk partitionCount sessionTimeout,
    Holds disk (dataDir ++ ["__consumer_offsets"]) options.group options.topic last ∧
    Coordinator.openDir disk dataDir partitionCount sessionTimeout = .ok s.coordinator
  down : ∀ m, s.consumers m = .down
  invoked : s.invoked = []
  completed : s.completed = []

end SevlaMq.Consumer
