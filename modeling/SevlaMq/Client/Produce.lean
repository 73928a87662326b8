import SevlaMq.Broker.Growth
import SevlaMq.Protocol.Messages

/-!
# Records with keys

Model of `Client::produce` and `Client::produce_batch` in `crates/client/src/lib.rs`.  A client of a
single broker leaves the choice of the partition to it; a client of a cluster chooses the partition
itself, by what it was told about the topic, and asks the leader of the partition.

* `View` — what a client was told.
* `produceRequest`, `batchRequest` — the request and the broker it is sent to.
* `Event` — a call of a client, any other request of a broker, or a replicated record.
* `keyed_order` — the records of a topic are in the partition of their key, where their
  acknowledgements say, in the order in which a broker accepted them.
-/

set_option autoImplicit false

namespace SevlaMq.Client

open SevlaMq.Storage (Checksum Record RecordLog utf8)
open SevlaMq.Cluster (BrokerId ProduceInput)
open SevlaMq.Protocol (AckMode ProducerIdentity ProduceRequest ProduceBatchRequest ClusterMetadata
  ClusterNode TopicMetadata BatchRecord)
open SevlaMq.Broker (Node Settings Env ProduceTo ProduceAck Worker Routed Accepts)

inductive ClientError where
  | protocol (e : Protocol.ProtocolError)
  | invalidBrokerAddress
  | invalidPartition
  | unknownLeader (id : UInt32)
  | batchSpansPartitions
  deriving DecidableEq, Repr

/-! ## Requests of a client -/

/-- What a client was told: the broker it is connected to, the members of the cluster, the topic, and
who listens at the address of a member. -/
structure View where
  connected : BrokerId
  cluster : ClusterMetadata
  topic : TopicMetadata
  listens : ClusterNode → Option BrokerId

/-- `topic_leader_address`. -/
def View.topicLeaderAddress (v : View) (partition : UInt32) : Except ClientError BrokerId :=
  match v.topic.leaders[partition.toNat]? with
  | none => .error .invalidPartition
  | some leaderId =>
    match v.cluster.nodes.find? (·.id = leaderId) with
    | none => .error (.unknownLeader leaderId)
    | some node =>
      match v.listens node with
      | none => .error .invalidBrokerAddress
      | some broker => .ok broker

section Requests

variable [Checksum]

/-- `crc32fast::hash(key) % topic.partitions`; the remainder of zero partitions is a panic. -/
def partitionOf (v : View) (key : Bytes) : UInt32 := Checksum.hash key % v.topic.partitions

/-- `Client::produce`. -/
def produceRequest (v : View) (topic : String) (key payload : Bytes) (ackMode : AckMode)
    (producer : Option ProducerIdentity) : Except ClientError (BrokerId × ProduceRequest) :=
  match ProduceRequest.new topic key payload ackMode producer with
  | .error e => .error (.protocol e)
  | .ok request =>
    if v.cluster.nodes.length = 1 then .ok (v.connected, request)
    else
      let routingKey := if key = [] then producer.map fun identity => utf8 identity.id else some key
      let partition := (routingKey.map (partitionOf v)).getD 0
      match v.topicLeaderAddress partition with
      | .error e => .error e
      | .ok address => .ok (address, request.withPartition partition)

/-- `Client::produce_batch`. -/
def batchRequest (v : View) (request : ProduceBatchRequest) :
    Except ClientError (BrokerId × ProduceBatchRequest) :=
  if v.cluster.nodes.length = 1 then .ok (v.connected, request)
  else
    let first := request.records.head?.filter fun record => record.key ≠ []
    let partition := (first.map fun record => partitionOf v record.key).getD 0
    if request.records.any fun record => record.key ≠ [] ∧ partitionOf v record.key ≠ partition then
      .error .batchSpansPartitions
    else
      match v.topicLeaderAddress partition with
      | .error e => .error e
      | .ok address => .ok (address, request.withPartition partition)

end Requests

/-! ## What the broker makes of them -/

def ackMode : AckMode → Cluster.AckMode
  | .leader => .leader
  | .durable => .durable

def producerInput (key payload : Bytes) (producer : Option ProducerIdentity) : ProduceInput :=
  ⟨key, payload, producer.map fun identity => ⟨identity.id, identity.sequence⟩⟩

/-- What `process_produce` reads of a request. -/
def produceTo (r : ProduceRequest) : ProduceTo :=
  ⟨r.topic, r.partition.map UInt32.toNat, producerInput r.key r.payload r.producer, ackMode r.ackMode⟩

/-- The records of a batch carry no producer identity. -/
def batchInputs (r : ProduceBatchRequest) : List ProduceInput :=
  r.records.map fun record => producerInput record.key record.payload none

/-! ## Events -/

/-- The brokers by id. -/
abbrev Brokers := BrokerId → Node

/-- An acknowledged record: the broker that acknowledges it and the record as it is stored. -/
structure Acked where
  broker : BrokerId
  topic : String
  record : Record
  ack : ProduceAck

def accepted (broker : BrokerId) (topic : String) (acks : List (Record × ProduceAck)) : List Acked :=
  acks.map fun x => ⟨broker, topic, x.1, x.2⟩

inductive Event where
  | produce (view : View) (env : Env) (topic : String) (key payload : Bytes) (ackMode : AckMode)
      (producer : Option ProducerIdentity)
  | produceBatch (view : View) (env : Env) (request : ProduceBatchRequest)
  /-- Any request of another client or broker. -/
  | other (broker : BrokerId) (env : Env) (call : Broker.Call)
  /-- A record that comes from the leader of its partition. -/
  | replicated (broker : BrokerId) (env : Env) (topic : String) (partition offset : Nat)
      (record : Record) (durable : Bool)

section Events

variable [Checksum] (cfg : BrokerId → Settings)

/-- The acknowledgements that a client receives, and the brokers afterwards. -/
def Event.step (s : Brokers) : Event → List Acked × Brokers
  | .produce view env topic key payload ackMode producer =>
    match produceRequest view topic key payload ackMode producer with
    | .error _ => ([], s)
    | .ok (broker, request) =>
      match (s broker).produce (cfg broker) env (produceTo request) with
      | (.error _, node) => ([], Function.update s broker node)
      | (.ok ack, node) =>
        (accepted broker topic [((producerInput key payload producer).record env.timestampMs, ack)],
          Function.update s broker node)
  | .produceBatch view env request =>
    match batchRequest view request with
    | .error _ => ([], s)
    | .ok (broker, sent) =>
      match (s broker).produceBatch (cfg broker) env sent.topic (sent.partition.map UInt32.toNat)
          (batchInputs sent) (ackMode sent.ackMode) with
      | (.error _, node) => ([], Function.update s broker node)
      | (.ok acks, node) =>
        (accepted broker request.topic
            (((batchInputs request).map (·.record env.timestampMs)).zip acks),
          Function.update s broker node)
  | .other broker env call =>
    ([], Function.update s broker ((s broker).step (cfg broker) (env, call)))
  | .replicated broker env topic partition offset record durable =>
    let result := (s broker).worker.appendReplica env.files topic partition offset record durable
    ([], Function.update s broker { s broker with worker := result.2 })

/-- The acknowledgements of a run, in the order in which they are given. -/
def runEvents : List Event → Brokers → List Acked × Brokers
  | [], s => ([], s)
  | event :: events, s =>
    let (acked, s) := Event.step cfg s event
    let (rest, s) := runEvents events s
    (acked ++ rest, s)

end Events

/-- A client of a single broker leaves the choice to it; a client of a cluster chooses between the
partitions of the topic. -/
def Event.Chooses (topic : String) (n : Nat) : Event → Prop
  | .produce view _ t _ _ _ _ =>
    t = topic → view.cluster.nodes.length ≠ 1 → view.topic.partitions.toNat = n
  | .produceBatch view _ request =>
    request.topic = topic → (view.cluster.nodes.length = 1 → request.partition = none) ∧
      (view.cluster.nodes.length ≠ 1 → view.topic.partitions.toNat = n)
  | .other _ _ _ => True
  | .replicated _ _ _ _ _ _ _ => True

/-- A client sends records to the topic. -/
def Event.SendsTo (topic : String) : Event → Prop
  | .produce _ _ t _ _ _ _ => t = topic
  | .produceBatch _ _ request => request.topic = topic
  | .other _ _ _ => False
  | .replicated _ _ _ _ _ _ _ => False

/-- The records of a call, in the order of the request. -/
def Event.records : Event → List Record
  | .produce _ env _ key payload _ producer =>
    [(producerInput key payload producer).record env.timestampMs]
  | .produceBatch _ env request => (batchInputs request).map (·.record env.timestampMs)
  | .other _ _ _ => []
  | .replicated _ _ _ _ _ _ _ => []

/-! ## The partition a client chooses -/

section Chosen

variable [Checksum] {v : View}

/-- The client routes a record as the broker does. -/
theorem produceRequest_ok {topic : String} {key payload : Bytes} {ackMode : AckMode}
    {producer : Option ProducerIdentity} {broker : BrokerId} {request : ProduceRequest}
    (h : produceRequest v topic key payload ackMode producer = .ok (broker, request)) :
    (produceTo request).topic = topic ∧
      (produceTo request).input = producerInput key payload producer ∧
      ∀ p, (produceTo request).partition = some p → v.cluster.nodes.length ≠ 1 ∧
        ∀ k, Worker.routingKey (producerInput key payload producer) = some k →
          p = (Checksum.hash k).toNat % v.topic.partitions.toNat := by
  unfold produceRequest at h
  split at h
  · cases h
  rename_i request' hnew
  have hfields : request'.topic = topic ∧ request'.key = key ∧ request'.payload = payload ∧
      request'.producer = producer ∧ request'.partition = none := by
    unfold ProduceRequest.new at hnew
    split at hnew
    · cases hnew
    · cases hnew
      exact ⟨rfl, rfl, rfl, rfl, rfl⟩
  obtain ⟨htopic, hkey, hpayload, hproducer, hpartition⟩ := hfields
  split at h
  · cases h
    simp only [produceTo, htopic, hkey, hpayload, hproducer, hpartition, Option.map_none]
    exact ⟨trivial, trivial, fun p hp => by cases hp⟩
  rename_i hcluster
  simp only at h
  split at h
  · cases h
  · cases h
    simp only [produceTo, ProduceRequest.withPartition, htopic, hkey, hpayload, hproducer,
      Option.map_some]
    refine ⟨trivial, trivial, fun p hp => ⟨hcluster, fun k hk => ?_⟩⟩
    cases hp
    have hrouting : (if key = [] then producer.map fun identity => utf8 identity.id else some key) =
        some k := by
      rw [← hk, Worker.routingKey, producerInput, Option.map_map]
      rfl
    rw [hrouting, Option.map_some, Option.getD_some, partitionOf, UInt32.toNat_mod]

/-- A batch that is sent to a partition has no key of another one. -/
theorem batchRequest_ok {request sent : ProduceBatchRequest} {broker : BrokerId}
    (h : batchRequest v request = .ok (broker, sent)) :
    sent.topic = request.topic ∧ batchInputs sent = batchInputs request ∧
      (v.cluster.nodes.length = 1 ∧ sent.partition = request.partition ∨
        v.cluster.nodes.length ≠ 1 ∧ ∃ p, sent.partition = some p ∧
          ∀ input ∈ batchInputs request, ∀ k, Worker.routingKey input = some k →
            p.toNat = (Checksum.hash k).toNat % v.topic.partitions.toNat) := by
  unfold batchRequest at h
  split at h
  · rename_i hsingle
    cases h
    exact ⟨rfl, rfl, Or.inl ⟨hsingle, rfl⟩⟩
  rename_i hcluster
  simp only at h
  split at h
  · cases h
  rename_i hspan
  split at h
  · cases h
  · cases h
    refine ⟨rfl, rfl, Or.inr ⟨hcluster, _, rfl, fun input hinput k hk => ?_⟩⟩
    obtain ⟨record, hrecord, rfl⟩ := List.mem_map.1 hinput
    unfold Worker.routingKey producerInput at hk
    simp only [Option.map_none] at hk
    split at hk
    · cases hk
    · rename_i hkey
      cases hk
      simp only [Bool.not_eq_true, List.any_eq_false, decide_eq_true_eq, not_and, not_not] at hspan
      rw [← hspan record hrecord hkey, partitionOf, UInt32.toNat_mod]

end Chosen

/-! ## One event -/

/-- The open logs by broker, topic and partition. -/
def family (s : Brokers) : Logs.Family (BrokerId × String × Nat) Record :=
  fun k => (s k.1).worker.family k.2

/-- The acknowledgements of unidentified records of the topic, as entries of the logs. -/
def entries (topic : String) (acked : List Acked) :
    List (Logs.Entry (BrokerId × String × Nat) Record) :=
  (acked.filter fun a => a.topic = topic ∧ a.record.producer.isNone).map fun a =>
    ⟨(a.broker, topic, a.ack.partition), a.ack.offset, a.record⟩

theorem entries_accepted (broker : BrokerId) (topic : String) (acks : List (Record × ProduceAck)) :
    entries topic (accepted broker topic acks) =
      (Broker.unidentified topic acks).map (Logs.Entry.lift broker) := by
  induction acks with
  | nil => rfl
  | cons x acks ih =>
    unfold entries accepted Broker.unidentified at ih ⊢
    rw [List.map_cons, List.filter_cons, List.filter_cons]
    by_cases hproducer : x.1.producer.isNone = true
    · simp only [hproducer, and_self, decide_true, if_true, List.map_cons, ih]
      rfl
    · simp only [hproducer, and_false, decide_false, Bool.false_eq_true, if_false, ih]

theorem entries_accepted_other {broker : BrokerId} {topic t : String}
    {acks : List (Record × ProduceAck)} (h : t ≠ topic) :
    entries topic (accepted broker t acks) = [] := by
  rw [entries, List.filter_eq_nil_iff.2, List.map_nil]
  intro a ha
  obtain ⟨x, _, rfl⟩ := List.mem_map.1 ha
  simp [h]

section Step

variable [Checksum] {cfg : BrokerId → Settings} {s s' : Brokers} {topic : String} {n : Nat}

/-- What one event does to a topic of `n` partitions. -/
structure Serves (topic : String) (n : Nat) (s s' : Brokers) (acked : List Acked) : Prop where
  topics : ∀ b, (s' b).worker.topics topic = some n
  added : Logs.Added (family s) (family s') (entries topic acked)
  routed : ∀ a ∈ acked, a.topic = topic → Routed n a.ack.partition a.record

/-- What a call for the topic stores and acknowledges: all records of the request or none are
acknowledged, one after the other, and what is stored is where its key belongs. -/
structure Placed (topic : String) (n : Nat) (s s' : Brokers) (records : List Record)
    (acked : List Acked) : Prop where
  acks : acked = [] ∨ acked.map (·.record) = records
  stored : ∀ b p log, (s b).worker.logs topic p = some log →
    ∃ new, (s' b).worker.logs topic p = some (log ++ new) ∧ new.Sublist records ∧
      ∀ r ∈ new, Routed n p r

theorem Serves.refl (ht : ∀ b, (s b).worker.topics topic = some n) : Serves topic n s s [] where
  topics := ht
  added := .of_extends (.refl _)
  routed := fun _ ha => absurd ha List.not_mem_nil

theorem Serves.append {s₁ : Brokers} {acked acked' : List Acked} (h : Serves topic n s s₁ acked)
    (h' : Serves topic n s₁ s' acked') : Serves topic n s s' (acked ++ acked') where
  topics := h'.topics
  added := by
    have hboth := h.added.append h'.added
    unfold entries at hboth ⊢
    rwa [List.filter_append, List.map_append]
  routed := fun a ha => (List.mem_append.1 ha).elim (h.routed a) (h'.routed a)

omit [Checksum] in
theorem topics_update {b : BrokerId} {node : Node}
    (ht : ∀ b, (s b).worker.topics topic = some n) (hnode : node.worker.topics topic = some n)
    (x : BrokerId) : (Function.update s b node x).worker.topics topic = some n := by
  by_cases hx : x = b
  · rw [hx, Function.update_self]
    exact hnode
  · rw [Function.update_of_ne hx]
    exact ht x

/-- One broker has accepted records of the topic. -/
theorem Serves.of_accepts {b : BrokerId} {node : Node} {rs : List Record}
    {acks : List (Record × ProduceAck)} (ht : ∀ b, (s b).worker.topics topic = some n)
    (h : Accepts topic n (s b).worker node.worker rs acks) :
    Serves topic n s (Function.update s b node) (accepted b topic acks) where
  topics := topics_update ht (h.topics topic n (ht b))
  added := by
    rw [entries_accepted]
    refine h.added.lift (fun k => rfl) (fun k => ?_) fun j hj k => ?_
    · simp only [family, Function.update_self]
    · simp only [family, Function.update_of_ne hj]
  routed := by
    intro a ha _
    obtain ⟨x, hx, rfl⟩ := List.mem_map.1 ha
    exact h.routed x hx

/-- One broker has done something else. -/
theorem Serves.of_grows {b : BrokerId} {node : Node} {t : String} {acks : List (Record × ProduceAck)}
    (ht : ∀ b, (s b).worker.topics topic = some n) (h : (s b).worker.Grows node.worker)
    (hother : t ≠ topic) : Serves topic n s (Function.update s b node) (accepted b t acks) where
  topics := topics_update ht (h.topics topic n (ht b))
  added := by
    rw [entries_accepted_other hother]
    refine .of_extends (h.logs.lift (fun k => rfl) (fun k => ?_) fun j hj k => ?_)
    · simp only [family, Function.update_self]
    · simp only [family, Function.update_of_ne hj]
  routed := by
    intro a ha hta
    obtain ⟨x, _, rfl⟩ := List.mem_map.1 ha
    exact absurd hta hother

theorem Placed.of_accepts {b : BrokerId} {node : Node} {rs : List Record}
    {acks : List (Record × ProduceAck)} (h : Accepts topic n (s b).worker node.worker rs acks)
    (hacks : acks = [] ∨ acks.map (·.1) = rs) :
    Placed topic n s (Function.update s b node) rs (accepted b topic acks) where
  acks := by
    rcases hacks with rfl | hacks
    · exact Or.inl rfl
    · refine Or.inr ?_
      rw [accepted, List.map_map]
      exact hacks
  stored := by
    intro x p log hlog
    by_cases hx : x = b
    · rw [hx] at hlog
      rw [hx, Function.update_self]
      exact h.stored p log hlog
    · rw [Function.update_of_ne hx]
      exact ⟨[], by rw [hlog, List.append_nil], List.nil_sublist _,
        fun _ hr => absurd hr List.not_mem_nil⟩

theorem Placed.refl (rs : List Record) : Placed topic n s s rs [] where
  acks := Or.inl rfl
  stored := fun b p log hlog => ⟨[], by rw [hlog, List.append_nil], List.nil_sublist _,
    fun _ hr => absurd hr List.not_mem_nil⟩

/-- A call of a client for the topic reaches one broker, or none. -/
theorem step_sends {e : Event} (ht : ∀ b, (s b).worker.topics topic = some n)
    (hsends : e.SendsTo topic) (hchooses : e.Chooses topic n) :
    e.step cfg s = ([], s) ∨
      ∃ b node acks, e.step cfg s = (accepted b topic acks, Function.update s b node) ∧
        Accepts topic n (s b).worker node.worker e.records acks ∧
        (acks = [] ∨ acks.map (·.1) = e.records) := by
  cases e with
  | produce view env t key payload ackMode producer =>
    obtain rfl : t = topic := hsends
    simp only [Event.step]
    split
    · exact Or.inl rfl
    rename_i b request hrequest
    obtain ⟨htopic, hinput, hpartition⟩ := produceRequest_ok hrequest
    have hrouted : ∀ p, (produceTo request).partition = some p →
        Routed n p ((produceTo request).input.record env.timestampMs) := by
      intro p hp
      obtain ⟨hcluster, hkeys⟩ := hpartition p hp
      rw [hinput]
      rw [hchooses rfl hcluster] at hkeys
      exact Broker.routed_record _ hkeys
    rcases hproduce : (s b).produce (cfg b) env (produceTo request) with ⟨res, node⟩
    obtain ⟨acks, haccepts, hacks⟩ := Node.produce_accepts (by rw [htopic]; exact ht b) hrouted hproduce
    rw [htopic, hinput] at haccepts
    refine Or.inr ⟨b, node, ?_⟩
    cases res with
    | error err => exact ⟨[], rfl, haccepts.forget, Or.inl rfl⟩
    | ok ack =>
      obtain rfl := hacks ack rfl
      rw [hinput] at haccepts
      exact ⟨_, rfl, haccepts, Or.inr rfl⟩
  | produceBatch view env request =>
    obtain rfl : request.topic = topic := hsends
    simp only [Event.step]
    split
    · exact Or.inl rfl
    rename_i b sent hrequest
    obtain ⟨htopic, hinputs, hpartition⟩ := batchRequest_ok hrequest
    obtain ⟨hsingle, hcluster⟩ := hchooses rfl
    have hrouted : ∀ p, sent.partition.map UInt32.toNat = some p → ∀ input ∈ batchInputs sent,
        Routed n p (input.record env.timestampMs) := by
      intro p hp input hinput
      rw [hinputs] at hinput
      rcases hpartition with ⟨hone, hsame⟩ | ⟨hmany, q, hq, hkeys⟩
      · rw [hsame, hsingle hone] at hp
        cases hp
      · rw [hq] at hp
        cases hp
        rw [hcluster hmany] at hkeys
        exact Broker.routed_record _ (hkeys input hinput)
    rcases hproduce : (s b).produceBatch (cfg b) env sent.topic (sent.partition.map UInt32.toNat)
      (batchInputs sent) (ackMode sent.ackMode) with ⟨res, node⟩
    obtain ⟨acks, haccepts, hacks⟩ := Node.produceBatch_accepts (by rw [htopic]; exact ht b) hrouted
      hproduce
    rw [htopic, hinputs] at haccepts
    rw [hinputs] at hacks
    refine Or.inr ⟨b, node, ?_⟩
    cases res with
    | error err => exact ⟨[], rfl, haccepts.forget, Or.inl rfl⟩
    | ok all =>
      obtain ⟨hlen, rfl⟩ := hacks all rfl
      refine ⟨_, rfl, haccepts, Or.inr ?_⟩
      rw [List.map_fst_zip]
      · rfl
      · rw [List.length_map, hlen]
  | other b env call => exact hsends.elim
  | replicated b env t p offset record durable => exact hsends.elim

/-- Any other event leaves topics and records where they are. -/
theorem step_other {e : Event} (hsends : ¬ e.SendsTo topic) :
    e.step cfg s = ([], s) ∨
      ∃ b node t acks, t ≠ topic ∧ e.step cfg s = (accepted b t acks, Function.update s b node) ∧
        (s b).worker.Grows node.worker := by
  obtain ⟨t', ht'⟩ : ∃ t : String, t ≠ topic := by
    by_cases h : topic = ""
    · exact ⟨"-", by rw [h]; decide⟩
    · exact ⟨"", fun heq => h heq.symm⟩
  cases e with
  | produce view env t key payload ackMode producer =>
    simp only [Event.step]
    split
    · exact Or.inl rfl
    rename_i b request hrequest
    have hgrows := @Node.step_grows (cfg b) _ (s b) env (.produce (produceTo request))
    rcases hproduce : (s b).produce (cfg b) env (produceTo request) with ⟨res, node⟩
    simp only [Node.step, hproduce] at hgrows
    refine Or.inr ⟨b, node, t, ?_⟩
    cases res with
    | error err => exact ⟨[], hsends, rfl, hgrows⟩
    | ok ack => exact ⟨_, hsends, rfl, hgrows⟩
  | produceBatch view env request =>
    simp only [Event.step]
    split
    · exact Or.inl rfl
    rename_i b sent hrequest
    have hgrows := @Node.step_grows (cfg b) _ (s b) env (.produceBatch sent.topic
      (sent.partition.map UInt32.toNat) (batchInputs sent) (ackMode sent.ackMode))
    rcases hproduce : (s b).produceBatch (cfg b) env sent.topic (sent.partition.map UInt32.toNat)
      (batchInputs sent) (ackMode sent.ackMode) with ⟨res, node⟩
    simp only [Node.step, hproduce] at hgrows
    refine Or.inr ⟨b, node, request.topic, ?_⟩
    cases res with
    | error err => exact ⟨[], hsends, rfl, hgrows⟩
    | ok acks => exact ⟨_, hsends, rfl, hgrows⟩
  | other b env call =>
    exact Or.inr ⟨b, _, t', [], ht', rfl, Node.step_grows (s b) env call⟩
  | replicated b env t p offset record durable =>
    exact Or.inr ⟨b, _, t', [], ht', rfl, Worker.appendReplica_grows rfl⟩

/-- **One event.** -/
theorem step_serves {e : Event} (ht : ∀ b, (s b).worker.topics topic = some n)
    (hchooses : e.Chooses topic n) : Serves topic n s (e.step cfg s).2 (e.step cfg s).1 := by
  by_cases hsends : e.SendsTo topic
  · rcases step_sends ht hsends hchooses with hstep | ⟨b, node, acks, hstep, haccepts, _⟩
    · rw [hstep]
      exact .refl ht
    · rw [hstep]
      exact .of_accepts ht haccepts
  · rcases @step_other _ cfg s _ _ hsends with hstep | ⟨b, node, t, acks, hne, hstep, hgrows⟩
    · rw [hstep]
      exact .refl ht
    · rw [hstep]
      exact .of_grows ht hgrows hne

/-- **A whole run.** -/
theorem runEvents_serves {events : List Event} (ht : ∀ b, (s b).worker.topics topic = some n)
    (hchooses : ∀ e ∈ events, e.Chooses topic n) :
    Serves topic n s (runEvents cfg events s).2 (runEvents cfg events s).1 := by
  induction events generalizing s with
  | nil => exact .refl ht
  | cons e events ih =>
    obtain ⟨hfirst, hrest⟩ := List.forall_mem_cons.1 hchooses
    have hstep := @step_serves _ cfg s topic n e ht hfirst
    exact hstep.append (ih hstep.topics hrest)

end Step

/-- **Records with a key stay in one partition, in the order of acceptance.**  In every run on a topic
of `n` partitions: an acknowledged record is acknowledged from the partition of its key, or of its
producer id, and without a producer id it is found where the acknowledgement says; two such records
with one key have offsets in the order in which a broker accepted them.  A call for the topic is
acknowledged for all of its records, in their order, or not at all, and what it stores in a partition
belongs there. -/
theorem keyed_order [Checksum] {cfg : BrokerId → Settings} {s : Brokers} {topic : String} {n : Nat}
    (ht : ∀ b, (s b).worker.topics topic = some n) {events : List Event}
    (hchooses : ∀ e ∈ events, e.Chooses topic n) {acked : List Acked} {s' : Brokers}
    (h : runEvents cfg events s = (acked, s')) :
    (∀ a ∈ acked, a.topic = topic → Routed n a.ack.partition a.record ∧
      (a.record.producer = none → ∃ log, (s' a.broker).worker.logs topic a.ack.partition = some log ∧
        log[a.ack.offset]? = some a.record)) ∧
    acked.Pairwise (fun a a' => a.topic = topic → a'.topic = topic → a.broker = a'.broker →
      a.record.producer = none → a'.record.producer = none →
      (∃ k, a.record.key = some k ∧ a'.record.key = some k) → a.ack.offset < a'.ack.offset) ∧
    ∀ before e after, events = before ++ e :: after → e.SendsTo topic →
      let s₁ := (runEvents cfg before s).2
      Placed topic n s₁ (e.step cfg s₁).2 e.records (e.step cfg s₁).1 := by
  have hserves := @runEvents_serves _ cfg s topic n events ht hchooses
  rw [h] at hserves
  obtain ⟨_, hadded, hrouted⟩ := hserves
  have hentry : ∀ a ∈ acked, a.topic = topic → a.record.producer = none →
      (⟨(a.broker, topic, a.ack.partition), a.ack.offset, a.record⟩ :
        Logs.Entry (BrokerId × String × Nat) Record) ∈ entries topic acked := by
    intro a ha hta hproducer
    refine List.mem_map.2 ⟨a, List.mem_filter.2 ⟨ha, ?_⟩, rfl⟩
    simp [hta, hproducer]
  refine ⟨fun a ha hta => ⟨hrouted a ha hta, fun hproducer => ?_⟩, ?_, ?_⟩
  · exact hadded.found _ (hentry a ha hta hproducer)
  · have hordered := List.pairwise_filter.1 (List.pairwise_map.1 hadded.ordered)
    refine List.Pairwise.imp_of_mem ?_ hordered
    intro a a' ha ha' hlt hta hta' hbroker hproducer hproducer' hkey
    obtain ⟨k, hk, hk'⟩ := hkey
    have hpartition := (hrouted a ha hta).key k hk
    have hpartition' := (hrouted a' ha' hta').key k hk'
    apply hlt
    · simp [hta, hproducer]
    · simp [hta', hproducer']
    · rw [hbroker, hpartition, hpartition']
  · rintro before e after rfl hsends
    have hbefore := @runEvents_serves _ cfg s topic n before ht
      fun x hx => hchooses x (List.mem_append_left _ hx)
    have he := hchooses e (List.mem_append_right _ List.mem_cons_self)
    dsimp only
    rcases @step_sends _ cfg _ _ _ _ hbefore.topics hsends he with hstep | ⟨b, node, acks, hstep, haccepts, hacks⟩
    · rw [hstep]
      exact .refl _
    · rw [hstep]
      exact .of_accepts haccepts hacks

/-- A broker on its own, with a topic of two partitions. -/
def orderBrokers : Brokers := fun _ =>
  ((Broker.emptyNode 1).createTopic Broker.singleBroker Env.fresh "orders" 2).2

/-- What a client of it was told. -/
def orderView : View where
  connected := 1
  cluster := ⟨1, [⟨1, "127.0.0.1", 7000, 7001, 7002⟩]⟩
  topic := ⟨"orders", 2, [1, 1], [1, 1], [0, 0]⟩
  listens := fun _ => some 1

theorem orderBatch_valid :
    Protocol.validateBatch "orders" [⟨[107], [2]⟩, ⟨[108], [3]⟩] = .ok () := by decide +kernel

/-- A record, and a batch in which another record has the same key. -/
def orderEvents : List Event :=
  [.produce orderView Env.fresh "orders" [107] [1] .leader none,
    .produceBatch orderView Env.fresh ⟨"orders", _, .leader, .none, none, orderBatch_valid⟩]

/-- Three brokers, of which the first two lead a partition of the topic each. -/
def orderCluster (b : BrokerId) : Settings :=
  if b = 2 then Broker.secondBroker
  else { Broker.secondBroker with self := 1, self_mem := List.mem_cons_self }

def clusterBrokers : Brokers := fun b =>
  ((Broker.emptyNode 1).createTopic (orderCluster b) Env.fresh "orders" 2).2

/-- What a client of them was told. -/
def clusterView : View where
  connected := 3
  cluster := ⟨3, [⟨1, "10.0.0.1", 7000, 7001, 7002⟩, ⟨2, "10.0.0.2", 7000, 7001, 7002⟩,
    ⟨3, "10.0.0.3", 7000, 7001, 7002⟩]⟩
  topic := ⟨"orders", 2, [1, 2], [0, 0], [0, 0]⟩
  listens := fun node => some node.id.toNat

theorem clusterBatch_valid :
    Protocol.validateBatch "orders" [⟨[107], [2]⟩, ⟨[107], [3]⟩] = .ok () := by decide +kernel

/-- The client chooses the partitions: a record, a batch with its key, and a record of the other
partition. -/
def clusterEvents : List Event :=
  [.produce clusterView Env.fresh "orders" [107] [1] .leader none,
    .produceBatch clusterView Env.fresh ⟨"orders", _, .leader, .none, none, clusterBatch_valid⟩,
    .produce clusterView Env.fresh "orders" [108] [4] .leader none]

/-- A single broker chooses the partition, and in a cluster the client does. -/
theorem keyed_order_orders :
    letI := Checksum.crc32
    let acked := (runEvents (fun _ => Broker.singleBroker) orderEvents orderBrokers).1
    let acked' := (runEvents orderCluster clusterEvents clusterBrokers).1
    acked.map (fun a => (a.record.value, a.ack.partition, a.ack.offset)) =
        [([1], 1, 0), ([2], 1, 1), ([3], 0, 0)] ∧
      acked'.map (fun a => (a.broker, a.record.value, a.ack.partition, a.ack.offset)) =
        [(2, [1], 1, 0), (2, [2], 1, 1), (2, [3], 1, 2), (1, [4], 0, 0)] ∧
      (∀ a ∈ acked', a.topic = "orders" → Routed 2 a.ack.partition a.record) ∧
      acked.Pairwise fun a a' => a.topic = "orders" → a'.topic = "orders" → a.broker = a'.broker →
        a.record.producer = none → a'.record.producer = none →
        (∃ k, a.record.key = some k ∧ a'.record.key = some k) → a.ack.offset < a'.ack.offset := by
  let _ := Checksum.crc32
  refine ⟨by decide +kernel, by decide +kernel, ?_, ?_⟩
  · have ht : ∀ b, (clusterBrokers b).worker.topics "orders" = some 2 := by
      intro b
      unfold clusterBrokers orderCluster
      split
      · decide +kernel
      · decide +kernel
    intro a ha htopic
    refine ((keyed_order ht (fun e he => ?_) rfl).1 a ha htopic).1
    simp only [clusterEvents, List.mem_cons, List.not_mem_nil, or_false] at he
    rcases he with rfl | rfl | rfl
    · exact fun _ _ => rfl
    · exact fun _ => ⟨fun hone => absurd hone (by decide), fun _ => rfl⟩
    · exact fun _ _ => rfl
  · have hcreated : (orderBrokers 1).worker.topics "orders" = some 2 := by decide +kernel
    have ht : ∀ b, (orderBrokers b).worker.topics "orders" = some 2 := fun _ => hcreated
    refine (keyed_order ht (fun e he => ?_) rfl).2.1
    rcases List.mem_cons.1 he with rfl | he
    · exact fun _ hmany => absurd rfl hmany
    · rw [List.mem_singleton.1 he]
      exact fun _ => ⟨fun _ => rfl, fun hmany => absurd rfl hmany⟩

end SevlaMq.Client
