import SevlaMq.Broker.Registries
import SevlaMq.Lib.Logs

/-!
# What requests add to the logs of a broker

* `Worker.appendReplica` — a record that comes from the leader of its partition.
* `Grows` — no request of a broker removes a topic or a record; `step_grows`.
* `Routed` — the partition of a record with a key, or with a producer id and no key.
* `Accepts` — what a produce request adds to the logs of a known topic, and what its
  acknowledgements say about it; `produce_accepts`, `produceBatch_accepts`.
-/

set_option autoImplicit false

namespace SevlaMq.Broker

open SevlaMq.Storage SevlaMq.Cluster

/-- `append_replica`. -/
def Worker.appendReplica (files : Files) (w : Worker) (topic : String) (partition offset : Nat)
    (record : Record) (durable : Bool) : Except StorageError Nat × Worker :=
  match w.topics topic with
  | none => (.error .unknownTopic, w)
  | some partitionCount =>
    if partition ≥ partitionCount then (.error (.unknownPartition partition), w)
    else
      match w.logs topic partition with
      | none => (.error .invalidTopic, w)
      | some log =>
        match log.appendReplica offset record with
        | .error e => (.error e, w)
        | .ok (_, log) =>
          let w := w.insertLog topic partition log
          if durable then
            match files.syncData topic partition with
            | .error e => (.error e, w)
            | .ok () => (.ok log.length, w)
          else (.ok log.length, w)

/-! ## Topics and logs stay -/

namespace Worker

/-- The open logs by topic and partition. -/
def family (w : Worker) : Logs.Family (String × Nat) Record := fun k => w.logs k.1 k.2

/-- Topics may be added and logs opened. -/
structure Retains (w w' : Worker) : Prop where
  topics : ∀ t n, w.topics t = some n → w'.topics t = some n
  logs : ∀ t p log, w.logs t p = some log → w'.logs t p = some log

/-- Also records may be added. -/
structure Grows (w w' : Worker) : Prop where
  topics : ∀ t n, w.topics t = some n → w'.topics t = some n
  logs : Logs.Extends w.family w'.family

variable {cfg : Settings} {env : Env} {files : Files} {w w' w₁ : Worker} {t : String} {n : Nat}

theorem Retains.refl (w : Worker) : Retains w w := ⟨fun _ _ h => h, fun _ _ _ h => h⟩

theorem Retains.trans (h : w.Retains w₁) (h' : w₁.Retains w') : w.Retains w' :=
  ⟨fun t n ht => h'.topics t n (h.topics t n ht),
    fun t p log hlog => h'.logs t p log (h.logs t p log hlog)⟩

theorem Retains.grows (h : w.Retains w') : w.Grows w' :=
  ⟨h.topics, fun k log hlog => ⟨[], by
    rw [List.append_nil]
    exact h.logs k.1 k.2 log hlog⟩⟩

theorem Grows.refl (w : Worker) : Grows w w := (Retains.refl w).grows

theorem Grows.trans (h : w.Grows w₁) (h' : w₁.Grows w') : w.Grows w' :=
  ⟨fun t n ht => h'.topics t n (h.topics t n ht), h.logs.trans h'.logs⟩

theorem retains_insertLog {p : Nat} {log : RecordLog} (h : w.logs t p = none) :
    w.Retains (w.insertLog t p log) where
  topics := fun _ _ ht => ht
  logs := by
    intro x q log' hlog
    have hother : ¬ (x = t ∧ q = p) := by
      rintro ⟨rfl, rfl⟩
      rw [h] at hlog
      cases hlog
    simp only [insertLog]
    rw [if_neg hother, hlog]

theorem retains_insertTopic (h : w.topics t = none) : w.Retains (w.insertTopic t n) where
  topics := by
    intro x m ht
    have hother : x ≠ t := by
      rintro rfl
      rw [h] at ht
      cases ht
    simp only [insertTopic]
    rw [if_neg hother, ht]
  logs := fun _ _ _ hlog => hlog

theorem openPartitions_retains : ∀ {ps : List Nat} {w w' : Worker} {res : Except StorageError Unit},
    openPartitions files t ps w = (res, w') → w.Retains w'
  | [], w, w', res, h => by
    cases h
    exact .refl w
  | p :: ps, w, w', res, h => by
    rw [openPartitions] at h
    split at h
    · exact openPartitions_retains h
    · rename_i hnone
      split at h
      · cases h
        exact .refl w
      · exact (retains_insertLog hnone).trans (openPartitions_retains h)

theorem openPartitions_topics : ∀ {ps : List Nat} {w w' : Worker} {res : Except StorageError Unit},
    openPartitions files t ps w = (res, w') → w'.topics = w.topics
  | [], w, w', res, h => by
    cases h
    rfl
  | p :: ps, w, w', res, h => by
    rw [openPartitions] at h
    split at h
    · exact openPartitions_topics h
    · split at h
      · cases h
        rfl
      · have hrest := openPartitions_topics h
        exact hrest

theorem createTopic_retains {res : Except StorageError Nat}
    (h : createTopic files w t n = (res, w')) : w.Retains w' := by
  unfold createTopic at h
  split at h
  · cases h
    exact .refl w
  split at h
  · cases h
    exact .refl w
  rename_i hfresh
  split at h
  · rename_i hopen
    cases h
    exact openPartitions_retains hopen
  rename_i hopen
  split at h
  · cases h
    exact openPartitions_retains hopen
  · cases h
    refine (openPartitions_retains hopen).trans (retains_insertTopic ?_)
    rw [openPartitions_topics hopen]
    simpa using hfresh

theorem ensureTopic_retains {res : Except StorageError Nat}
    (h : ensureTopic cfg files w t = (res, w')) : w.Retains w' := by
  unfold ensureTopic at h
  split at h
  · cases h
    exact .refl w
  · split at h
    · cases h
      exact .refl w
    · exact createTopic_retains h

theorem partitionLog_retains {p : Nat} {res : Except StorageError RecordLog}
    (h : partitionLog files w t p n = (res, w')) : w.Retains w' := by
  unfold partitionLog at h
  split at h
  · cases h
    exact .refl w
  rename_i hnone
  split at h
  · cases h
    exact .refl w
  split at h
  · cases h
    exact .refl w
  · cases h
    exact retains_insertLog hnone

theorem readRecords_retains {p offset maxBytes : Nat}
    {res : Except StorageError (List FetchedRecord)}
    (h : readRecords cfg files w t p offset maxBytes = (res, w')) : w.Retains w' := by
  unfold readRecords at h
  split at h
  · rename_i hensure
    cases h
    exact ensureTopic_retains hensure
  rename_i hensure
  split at h
  · rename_i hlog
    cases h
    exact (ensureTopic_retains hensure).trans (partitionLog_retains hlog)
  rename_i hlog
  have hretains := (ensureTopic_retains hensure).trans (partitionLog_retains hlog)
  split at h
  · cases h
    exact hretains
  · cases h
    exact hretains

theorem recordAt_retains {p offset : Nat} {res : Except RequestError FetchedRecord}
    (h : recordAt cfg files w t p offset = (res, w')) : w.Retains w' := by
  unfold recordAt at h
  split at h
  · rename_i hread
    cases h
    exact readRecords_retains hread
  · rename_i hread
    split at h
    · cases h
      exact readRecords_retains hread
    · cases h
      exact readRecords_retains hread

/-- A log that is replaced by a longer one. -/
theorem grows_insertLog {p : Nat} {log new : RecordLog} (h : w.logs t p = some log) :
    w.Grows (w.insertLog t p (log ++ new)) where
  topics := fun _ _ ht => ht
  logs := by
    intro k log' hlog'
    simp only [family, insertLog] at hlog' ⊢
    split
    · rename_i hk
      rw [hk.1, hk.2, h] at hlog'
      cases hlog'
      exact ⟨new, rfl⟩
    · exact ⟨[], by rw [List.append_nil, hlog']⟩

theorem appendReplica_grows {p offset : Nat} {record : Record} {durable : Bool}
    {res : Except StorageError Nat}
    (h : appendReplica files w t p offset record durable = (res, w')) : w.Grows w' := by
  unfold appendReplica at h
  split at h
  · cases h
    exact .refl w
  split at h
  · cases h
    exact .refl w
  split at h
  · cases h
    exact .refl w
  rename_i log hlog
  split at h
  · cases h
    exact .refl w
  rename_i log' happend
  have hlog' : ∃ new, log' = log ++ new := by
    unfold RecordLog.appendReplica at happend
    split at happend
    · split at happend
      · cases happend
        exact ⟨[], (List.append_nil _).symm⟩
      · cases happend
    · split at happend
      · cases happend
      · rcases RecordLog.append_cases happend with rfl | ⟨_, rfl⟩
        · exact ⟨[], (List.append_nil _).symm⟩
        · exact ⟨_, rfl⟩
  obtain ⟨new, rfl⟩ := hlog'
  have hgrows := @grows_insertLog w t p log new hlog
  simp only at h
  split at h
  · split at h
    · cases h
      exact hgrows
    · cases h
      exact hgrows
  · cases h
    exact hgrows

/-! ## One record -/

section Append

variable [Checksum]

theorem appendRecord_grows {partition : Option Nat} {input : ProduceInput} {ackMode : AckMode}
    {res : Except StorageError ProduceAck}
    (h : appendRecord cfg env w t partition input ackMode = (res, w')) : w.Grows w' := by
  obtain ⟨_, w₁, hensure, htopics, hcases⟩ := appendRecord_cases h
  refine (ensureTopic_retains hensure).grows.trans ?_
  rcases hcases with ⟨hlogs, _⟩ | ⟨_, p, log, offset, log', _, _, hlog, happend, hlogs, _⟩
  · refine ⟨fun x m hx => by rw [htopics, hx], ?_⟩
    unfold family
    rw [hlogs]
    exact .refl _
  · have hgrown : ∃ new, log' = log ++ new := by
      rcases RecordLog.append_cases happend with rfl | ⟨_, rfl⟩
      · exact ⟨[], (List.append_nil _).symm⟩
      · exact ⟨_, rfl⟩
    obtain ⟨new, rfl⟩ := hgrown
    refine ⟨fun x m hx => by rw [htopics, hx], ?_⟩
    have hgrows := (@grows_insertLog _ _ _ _ new hlog).logs
    unfold family at hgrows ⊢
    rw [hlogs]
    exact hgrows

theorem appendAll_grows {partition : Option Nat} : ∀ {inputs : List ProduceInput} {w w' : Worker}
    {res : Except StorageError (List ProduceAck)},
    appendAll cfg env t partition inputs w = (res, w') → w.Grows w'
  | [], w, w', res, h => by
    cases h
    exact .refl w
  | input :: inputs, w, w', res, h => by
    rw [appendAll] at h
    split at h
    · rename_i hfirst
      cases h
      exact appendRecord_grows hfirst
    · rename_i hfirst
      split at h
      · rename_i hrest
        cases h
        exact (appendRecord_grows hfirst).trans (appendAll_grows hrest)
      · rename_i hrest
        cases h
        exact (appendRecord_grows hfirst).trans (appendAll_grows hrest)

/-- A batch is appended before it is synced. -/
theorem appendBatchRecords_cases {partition : Option Nat} {inputs : List ProduceInput}
    {ackMode : AckMode} {res : Except StorageError (List ProduceAck)}
    (h : appendBatchRecords cfg env w t partition inputs ackMode = (res, w')) :
    ∃ res', appendAll cfg env t partition inputs w = (res', w') ∧
      ∀ acks, res = .ok acks → res' = .ok acks := by
  unfold appendBatchRecords at h
  split at h
  · rename_i hall
    cases h
    exact ⟨_, hall, fun acks hacks => hacks⟩
  · rename_i hall
    split at h
    · split at h
      · cases h
        exact ⟨_, hall, fun acks hacks => by cases hacks⟩
      · cases h
        exact ⟨_, hall, fun acks hacks => hacks⟩
    · cases h
      exact ⟨_, hall, fun acks hacks => hacks⟩

end Append

end Worker

/-! ## Requests -/

namespace Node

variable {cfg : Settings} {env : Env} {files : Files} {s s' : Node} {t : String}

theorem readBack_retains : ∀ {acks : List ProduceAck} {s s' : Node} {res : Except RequestError Unit},
    readBack cfg files t acks s = (res, s') → s.worker.Retains s'.worker
  | [], s, s', res, h => by
    cases h
    exact .refl _
  | ack :: acks, s, s', res, h => by
    rw [readBack] at h
    split at h
    · rename_i hread
      cases h
      exact Worker.recordAt_retains hread
    · rename_i hread
      exact (Worker.recordAt_retains hread).trans (readBack_retains h)

theorem commit_worker {p hw : Nat} {res : Except RequestError Unit}
    (h : s.commit cfg env t p hw = (res, s')) : s'.worker = s.worker := by
  unfold commit at h
  split at h
  · cases h
    rfl
  split at h
  · cases h
    rfl
  · cases h
    rfl

theorem replicateRecords_worker {ackMode : AckMode} : ∀ {records : List ProduceAck} {s s' : Node}
    {res : Except RequestError Unit},
    replicateRecords cfg env t ackMode records s = (res, s') → s'.worker = s.worker
  | [], s, s', res, h => by
    cases h
    rfl
  | record :: records, s, s', res, h => by
    have hone : ∀ {res' : Except RequestError Unit} {s₁ : Node},
        s.replicate cfg env t record.partition record.offset ackMode = (res', s₁) →
          s₁.worker = s.worker := by
      intro res' s₁ hreplicate
      unfold replicate at hreplicate
      simp only at hreplicate
      split at hreplicate
      · exact commit_worker hreplicate
      · split at hreplicate
        · cases hreplicate
          rfl
        · cases hreplicate
          rfl
    rw [replicateRecords] at h
    split at h
    · rename_i hfirst
      cases h
      exact hone hfirst
    · rename_i hfirst
      rw [replicateRecords_worker h, hone hfirst]

theorem dispatchReplication_worker {records : List ProduceAck} {ackMode : AckMode}
    {res : Except RequestError Unit}
    (h : s.dispatchReplication cfg env t records ackMode = (res, s')) : s'.worker = s.worker := by
  unfold dispatchReplication at h
  split at h
  · cases h
    rfl
  · exact replicateRecords_worker h

/-- What `process_produce` does with the storage. -/
theorem produce_cases [Checksum] {r : ProduceTo} {res : Except RequestError ProduceAck}
    (h : s.produce cfg env r = (res, s')) :
    (s' = s ∧ ∃ e, res = .error e) ∨
      ∃ res₁ w₁, s.worker.appendRecord cfg env r.topic r.partition r.input r.ackMode = (res₁, w₁) ∧
        w₁.Retains s'.worker ∧ ∀ ack, res = .ok ack → res₁ = .ok ack := by
  unfold produce at h
  split at h
  · cases h
    exact Or.inl ⟨rfl, _, rfl⟩
  split at h
  · rename_i happend
    cases h
    exact Or.inr ⟨_, _, happend, .refl _, fun ack hack => by cases hack⟩
  rename_i happend
  refine Or.inr ⟨_, _, happend, ?_⟩
  split at h
  · rename_i hread
    cases h
    exact ⟨readBack_retains hread, fun ack hack => by cases hack⟩
  rename_i hread
  have hretains := readBack_retains hread
  split at h
  · rename_i hdispatch
    cases h
    rw [dispatchReplication_worker hdispatch]
    exact ⟨hretains, fun ack hack => by cases hack⟩
  · rename_i hdispatch
    cases h
    rw [dispatchReplication_worker hdispatch]
    exact ⟨hretains, fun ack hack => by cases hack; rfl⟩

/-- The same for a batch. -/
theorem produceBatch_cases [Checksum] {partition : Option Nat} {inputs : List ProduceInput}
    {ackMode : AckMode} {res : Except RequestError (List ProduceAck)}
    (h : s.produceBatch cfg env t partition inputs ackMode = (res, s')) :
    (s' = s ∧ ∃ e, res = .error e) ∨
      ∃ res₁ w₁, Worker.appendAll cfg env t partition inputs s.worker = (res₁, w₁) ∧
        w₁.Retains s'.worker ∧ ∀ acks, res = .ok acks → res₁ = .ok acks := by
  unfold produceBatch at h
  split at h
  · cases h
    exact Or.inl ⟨rfl, _, rfl⟩
  split at h
  · rename_i happend
    obtain ⟨res₁, hall, _⟩ := Worker.appendBatchRecords_cases happend
    cases h
    exact Or.inr ⟨_, _, hall, .refl _, fun ack hack => by cases hack⟩
  rename_i happend
  obtain ⟨res₁, hall, hok⟩ := Worker.appendBatchRecords_cases happend
  refine Or.inr ⟨_, _, hall, ?_⟩
  split at h
  · rename_i hread
    cases h
    exact ⟨readBack_retains hread, fun ack hack => by cases hack⟩
  rename_i hread
  have hretains := readBack_retains hread
  split at h
  · rename_i hdispatch
    cases h
    rw [dispatchReplication_worker hdispatch]
    exact ⟨hretains, fun ack hack => by cases hack⟩
  · rename_i hdispatch
    cases h
    rw [dispatchReplication_worker hdispatch]
    refine ⟨hretains, fun ack hack => ?_⟩
    cases hack
    exact hok _ rfl

theorem syncTopic_retains {m : TopicMetadata} {res : Except RequestError Unit}
    (h : s.syncTopic files m = (res, s')) : s.worker.Retains s'.worker := by
  unfold syncTopic at h
  split at h
  · cases h
    exact .refl _
  · split at h
    · rename_i hcreate
      cases h
      exact Worker.createTopic_retains hcreate
    · rename_i hcreate
      cases h
      exact Worker.createTopic_retains hcreate

theorem syncPartitions_worker : ∀ {infos : List ((BrokerId × Nat) × Nat)} {p : Nat} {s s' : Node}
    {res : Except RequestError Unit},
    syncPartitions cfg env t p infos s = (res, s') → s'.worker = s.worker
  | [], _, s, s', res, h => by
    cases h
    rfl
  | ((_, _), _) :: infos, p, s, s', res, h => by
    rw [syncPartitions] at h
    split at h
    · cases h
      rfl
    · split at h
      · split at h
        · cases h
          rfl
        · have hrest := syncPartitions_worker h
          exact hrest
      · exact syncPartitions_worker h

theorem syncTopics_retains : ∀ {topics : List TopicMetadata} {s s' : Node}
    {res : Except RequestError Unit},
    syncTopics cfg env topics s = (res, s') → s.worker.Retains s'.worker
  | [], s, s', res, h => by
    cases h
    exact .refl _
  | m :: topics, s, s', res, h => by
    rw [syncTopics] at h
    split at h
    · rename_i htopic
      cases h
      exact syncTopic_retains htopic
    · rename_i s₁ htopic
      have hretains := syncTopic_retains htopic
      split at h
      · cases h
        exact hretains
      split at h
      · rename_i hpartitions
        cases h
        have hworker := syncPartitions_worker hpartitions
        rw [hworker]
        exact hretains
      · rename_i hpartitions
        have hworker := syncPartitions_worker hpartitions
        have hrest := syncTopics_retains h
        rw [hworker] at hrest
        exact hretains.trans hrest

theorem listTopics_worker : ∀ {topics : List String} {s : Node},
    (listTopics cfg env topics s).2.worker = s.worker
  | [], _ => rfl
  | t :: topics, s => by
    rw [listTopics]
    split
    · rfl
    · rw [listTopics_worker]

/-- **No request removes a topic or a record.** -/
theorem step_grows [Checksum] (s : Node) (env : Env) (call : Call) :
    s.worker.Grows (s.step cfg (env, call)).worker := by
  cases call with
  | createTopic topic partitions =>
    simp only [step, createTopic]
    split
    · rename_i hcreate
      exact (Worker.createTopic_retains hcreate).grows
    · rename_i hcreate
      split
      · exact (Worker.createTopic_retains hcreate).grows
      · split
        · exact (Worker.createTopic_retains hcreate).grows
        · exact (Worker.createTopic_retains hcreate).grows
  | produce r =>
    rcases hproduce : s.produce cfg env r with ⟨res, s'⟩
    simp only [step, hproduce]
    rcases produce_cases hproduce with ⟨rfl, _⟩ | ⟨_, _, happend, hretains, _⟩
    · exact .refl _
    · exact (Worker.appendRecord_grows happend).trans hretains.grows
  | produceBatch topic partition inputs ackMode =>
    rcases hproduce : s.produceBatch cfg env topic partition inputs ackMode with ⟨res, s'⟩
    simp only [step, hproduce]
    rcases produceBatch_cases hproduce with ⟨rfl, _⟩ | ⟨_, _, happend, hretains, _⟩
    · exact .refl _
    · exact (Worker.appendAll_grows happend).trans hretains.grows
  | fetch topic partition offset maxBytes =>
    simp only [step, fetch]
    split
    · exact .refl _
    split
    · rename_i hread
      exact (Worker.readRecords_retains hread).grows
    · rename_i hread
      split
      · exact (Worker.readRecords_retains hread).grows
      · exact (Worker.readRecords_retains hread).grows
  | listTopics topics =>
    simp only [step, listTopics_worker]
    exact .refl _
  | sync topics =>
    simp only [step, sync]
    split
    · exact .refl _
    · rcases hsync : syncTopics cfg env topics s with ⟨res, s'⟩
      exact (syncTopics_retains hsync).grows
  | background index =>
    simp only [step, background]
    split
    · exact .refl _
    · rename_i task _
      rcases hrun : replicateRecords cfg env task.topic .leader task.records
        { s with spawned := s.spawned.eraseIdx index } with ⟨res, s'⟩
      have hworker := replicateRecords_worker hrun
      rw [hworker]
      exact .refl _

end Node

/-! ## What a produce request adds -/

section Accepts

variable [Checksum]

/-- The partition of a record with a key, or with a producer id and no key. -/
structure Routed (n p : Nat) (r : Record) : Prop where
  key : ∀ k, r.key = some k → p = (Checksum.hash k).toNat % n
  producer : ∀ i, r.key = none → r.producer = some i → p = (Checksum.hash (utf8 i.id)).toNat % n

theorem routed_record {n p : Nat} {input : ProduceInput} (timestampMs : UInt64)
    (h : ∀ k, Worker.routingKey input = some k → p = (Checksum.hash k).toNat % n) :
    Routed n p (input.record timestampMs) := by
  unfold Worker.routingKey at h
  unfold ProduceInput.record
  by_cases hkey : input.key = []
  · rw [if_pos hkey] at h
    refine ⟨fun k hk => ?_, fun i _ hi => ?_⟩
    · simp only [if_pos hkey, reduceCtorEq] at hk
    · simp only at hi
      exact h _ (by rw [hi]; rfl)
  · rw [if_neg hkey] at h
    refine ⟨fun k hk => ?_, fun i hnone _ => ?_⟩
    · simp only [if_neg hkey] at hk
      exact h k hk
    · simp only [if_neg hkey, reduceCtorEq] at hnone

omit [Checksum] in
/-- The acknowledgements of records without producer identity, as entries of the logs of a topic. -/
def unidentified (t : String) (acked : List (Record × ProduceAck)) :
    List (Logs.Entry (String × Nat) Record) :=
  (acked.filter fun x => x.1.producer.isNone).map fun x => ⟨(t, x.2.partition), x.2.offset, x.1⟩

/-- A request with the records `rs` for a topic of `n` partitions has led from `w` to `w'`; `acked` are
the records that are acknowledged.  What is stored of a partition keeps the order of the request. -/
structure Accepts (t : String) (n : Nat) (w w' : Worker) (rs : List Record)
    (acked : List (Record × ProduceAck)) : Prop where
  topics : ∀ x m, w.topics x = some m → w'.topics x = some m
  added : Logs.Added w.family w'.family (unidentified t acked)
  stored : ∀ p log, w.logs t p = some log → ∃ new, w'.logs t p = some (log ++ new) ∧
    new.Sublist rs ∧ ∀ r ∈ new, Routed n p r
  routed : ∀ x ∈ acked, Routed n x.2.partition x.1

namespace Accepts

variable {t : String} {n : Nat} {w w₁ w' : Worker} {rs rs' : List Record}
  {acked acked' : List (Record × ProduceAck)}

theorem of_retains (h : w.Retains w') : Accepts t n w w' rs [] where
  topics := h.topics
  added := .of_extends h.grows.logs
  stored := fun p log hlog => ⟨[], by rw [List.append_nil, h.logs t p log hlog], List.nil_sublist _,
    fun _ hr => absurd hr List.not_mem_nil⟩
  routed := fun _ hx => absurd hx List.not_mem_nil

theorem append (h : Accepts t n w w₁ rs acked) (h' : Accepts t n w₁ w' rs' acked') :
    Accepts t n w w' (rs ++ rs') (acked ++ acked') where
  topics := fun x m hx => h'.topics x m (h.topics x m hx)
  added := by
    have hboth := h.added.append h'.added
    unfold unidentified at hboth ⊢
    rwa [List.filter_append, List.map_append]
  stored := by
    intro p log hlog
    obtain ⟨new, hnew, hsub, hrouted⟩ := h.stored p log hlog
    obtain ⟨new', hnew', hsub', hrouted'⟩ := h'.stored p _ hnew
    refine ⟨new ++ new', by rw [hnew', List.append_assoc], hsub.append hsub', fun r hr => ?_⟩
    rcases List.mem_append.1 hr with hr | hr
    · exact hrouted r hr
    · exact hrouted' r hr
  routed := fun x hx => (List.mem_append.1 hx).elim (h.routed x) (h'.routed x)

theorem then_retains (h : Accepts t n w w₁ rs acked) (h' : w₁.Retains w') :
    Accepts t n w w' rs acked := by
  have hboth := h.append (of_retains h' : Accepts t n w₁ w' [] [])
  rwa [List.append_nil, List.append_nil] at hboth

/-- Records may be stored whose acknowledgements are not sent. -/
theorem forget (h : Accepts t n w w' rs acked) : Accepts t n w w' rs [] where
  topics := h.topics
  added := .of_extends h.added.grows
  stored := h.stored
  routed := fun _ hx => absurd hx List.not_mem_nil

theorem more (h : Accepts t n w w' rs acked) (rs' : List Record) :
    Accepts t n w w' (rs ++ rs') acked where
  topics := h.topics
  added := h.added
  stored := by
    intro p log hlog
    obtain ⟨new, hnew, hsub, hrouted⟩ := h.stored p log hlog
    exact ⟨new, hnew, hsub.trans (List.sublist_append_left rs rs'), hrouted⟩
  routed := h.routed

end Accepts

namespace Worker

variable {cfg : Settings} {env : Env} {w w' : Worker} {t : String} {n : Nat}
  {partition : Option Nat}

/-- **One record** of a topic with `n` partitions. -/
theorem appendRecord_accepts {input : ProduceInput} {ackMode : AckMode}
    {res : Except StorageError ProduceAck} (ht : w.topics t = some n)
    (hpartition : ∀ p, partition = some p → Routed n p (input.record env.timestampMs))
    (h : appendRecord cfg env w t partition input ackMode = (res, w')) :
    ∃ acked, Accepts t n w w' [input.record env.timestampMs] acked ∧
      ∀ ack, res = .ok ack → acked = [(input.record env.timestampMs, ack)] := by
  obtain ⟨known, w₁, hensure, htopics, hcases⟩ := appendRecord_cases h
  rw [ensureTopic_known ht] at hensure
  cases hensure
  rcases hcases with ⟨hlogs, e, he⟩ | ⟨count, p, log, offset, log', hcount, hp, hlog, happend, hlogs, hack⟩
  · refine ⟨[], .of_retains ⟨fun x m hx => by rw [htopics, hx], fun x q log hx => by rw [hlogs, hx]⟩, ?_⟩
    intro ack hok
    rw [he] at hok
    cases hok
  cases hcount
  generalize hr : input.record env.timestampMs = r at happend hpartition
  have hrouted : Routed n p r := by
    rcases hp with hp | ⟨_, hp⟩
    · exact hpartition p hp
    · exact hr ▸ routed_record _ hp
  have hself : w'.logs t p = some log' := by rw [hlogs, insertLog_self]
  have hother : ∀ x q, (x, q) ≠ (t, p) → w'.logs x q = w.logs x q := by
    intro x q hne
    rw [hlogs]
    simp only [insertLog]
    exact if_neg fun heq => hne (Prod.ext heq.1 heq.2)
  refine ⟨[(r, ⟨p, offset⟩)], ⟨fun x m hx => by rw [htopics, hx], ?_, ?_, ?_⟩, ?_⟩
  · cases hproducer : r.producer with
    | none =>
      obtain ⟨rfl, rfl⟩ := RecordLog.append_new hproducer happend
      simp only [unidentified, List.filter_cons, hproducer, Option.isNone_none, if_true,
        List.filter_nil, List.map_cons, List.map_nil]
      exact .single hlog hself fun x hx => hother x.1 x.2 hx
    | some i =>
      simp only [unidentified, List.filter_cons, hproducer, Option.isNone_some, Bool.false_eq_true,
        if_false, List.filter_nil, List.map_nil]
      exact .of_extends (appendRecord_grows h).logs
  · intro q log₁ hlog₁
    by_cases hq : q = p
    · rw [hq, hlog] at hlog₁
      cases hlog₁
      rcases RecordLog.append_cases happend with rfl | ⟨_, rfl⟩
      · exact ⟨[], by rw [hq, hself, List.append_nil], List.nil_sublist _,
          fun _ hr => absurd hr List.not_mem_nil⟩
      · refine ⟨[r], by rw [hq, hself], List.Sublist.refl _, fun x hx => ?_⟩
        rw [List.mem_singleton.1 hx, hq]
        exact hrouted
    · refine ⟨[], ?_, List.nil_sublist _, fun _ hr => absurd hr List.not_mem_nil⟩
      rw [hother t q fun heq => hq (Prod.ext_iff.1 heq).2, hlog₁, List.append_nil]
  · intro x hx
    rw [List.mem_singleton.1 hx]
    exact hrouted
  · intro ack hok
    rw [hack ack hok]

/-- **The records of a batch**, up to the first one that fails. -/
theorem appendAll_accepts : ∀ {inputs : List ProduceInput} {w w' : Worker}
    {res : Except StorageError (List ProduceAck)}, w.topics t = some n →
    (∀ p, partition = some p → ∀ input ∈ inputs, Routed n p (input.record env.timestampMs)) →
    appendAll cfg env t partition inputs w = (res, w') →
    ∃ acked, Accepts t n w w' (inputs.map (·.record env.timestampMs)) acked ∧
      ∀ acks, res = .ok acks → acks.length = inputs.length ∧
        acked = (inputs.map (·.record env.timestampMs)).zip acks
  | [], w, w', res, ht, _, h => by
    cases h
    refine ⟨[], .of_retains (.refl w), fun acks hacks => ?_⟩
    cases hacks
    exact ⟨rfl, rfl⟩
  | input :: inputs, w, w', res, ht, hpartition, h => by
    rw [appendAll] at h
    have hfirstPartition := fun p hp => hpartition p hp input List.mem_cons_self
    have hrestPartition := fun p hp input' hmem =>
      hpartition p hp input' (List.mem_cons_of_mem input hmem)
    split at h
    · rename_i hfirst
      cases h
      obtain ⟨acked, haccepts, _⟩ := appendRecord_accepts ht hfirstPartition hfirst
      exact ⟨acked, haccepts.more _, fun acks hacks => by cases hacks⟩
    · rename_i ack w₁ hfirst
      obtain ⟨acked, haccepts, hacked⟩ := appendRecord_accepts ht hfirstPartition hfirst
      have ht₁ := haccepts.topics t n ht
      split at h
      · rename_i hrest
        cases h
        obtain ⟨acked', haccepts', _⟩ := appendAll_accepts ht₁ hrestPartition hrest
        exact ⟨acked ++ acked', haccepts.append haccepts', fun acks hacks => by cases hacks⟩
      · rename_i acks w₂ hrest
        cases h
        obtain ⟨acked', haccepts', hacked'⟩ := appendAll_accepts ht₁ hrestPartition hrest
        refine ⟨acked ++ acked', haccepts.append haccepts', fun all hall => ?_⟩
        cases hall
        obtain ⟨hlen, hzip⟩ := hacked' acks rfl
        rw [hacked ack rfl, hzip]
        exact ⟨by rw [List.length_cons, List.length_cons, hlen], rfl⟩

end Worker

namespace Node

variable {cfg : Settings} {env : Env} {s s' : Node} {n : Nat}

theorem produce_accepts {r : ProduceTo} {res : Except RequestError ProduceAck}
    (ht : s.worker.topics r.topic = some n)
    (hpartition : ∀ p, r.partition = some p → Routed n p (r.input.record env.timestampMs))
    (h : s.produce cfg env r = (res, s')) :
    ∃ acked, Accepts r.topic n s.worker s'.worker [r.input.record env.timestampMs] acked ∧
      ∀ ack, res = .ok ack → acked = [(r.input.record env.timestampMs, ack)] := by
  rcases produce_cases h with ⟨rfl, e, he⟩ | ⟨res₁, w₁, happend, hretains, hok⟩
  · refine ⟨[], .of_retains (.refl _), fun ack hack => ?_⟩
    rw [he] at hack
    cases hack
  · obtain ⟨acked, haccepts, hacked⟩ := Worker.appendRecord_accepts ht hpartition happend
    exact ⟨acked, haccepts.then_retains hretains, fun ack hack => hacked ack (hok ack hack)⟩

theorem produceBatch_accepts {t : String} {partition : Option Nat} {inputs : List ProduceInput}
    {ackMode : AckMode} {res : Except RequestError (List ProduceAck)}
    (ht : s.worker.topics t = some n)
    (hpartition : ∀ p, partition = some p →
      ∀ input ∈ inputs, Routed n p (input.record env.timestampMs))
    (h : s.produceBatch cfg env t partition inputs ackMode = (res, s')) :
    ∃ acked, Accepts t n s.worker s'.worker (inputs.map (·.record env.timestampMs)) acked ∧
      ∀ acks, res = .ok acks → acks.length = inputs.length ∧
        acked = (inputs.map (·.record env.timestampMs)).zip acks := by
  rcases produceBatch_cases h with ⟨rfl, e, he⟩ | ⟨res₁, w₁, happend, hretains, hok⟩
  · refine ⟨[], .of_retains (.refl _), fun acks hacks => ?_⟩
    rw [he] at hacks
    cases hacks
  · obtain ⟨acked, haccepts, hacked⟩ := Worker.appendAll_accepts ht hpartition happend
    exact ⟨acked, haccepts.then_retains hretains, fun acks hacks => hacked acks (hok acks hacks)⟩

end Node

end Accepts

end SevlaMq.Broker
