import SevlaMq.Client.Produce
import SevlaMq.Consumer.RetryProducer
import SevlaMq.Protocol.RequestRoundTrip
import SevlaMq.Storage.Producers

/-!
# Failures as idempotent producers

A failure is published with a producer id of its own and sequence 0, so that a consumer that
publishes it again stores nothing.  The id holds a checksum of 32 bits; what the checksum does not tell
apart, the log of the retry topic does not either.

* `publish` — a failure message on its way through the client into a log.
* `publish_cases` — it is stored exactly when the table of the log does not know its id.
* `both_stored_iff` — two failures are both stored, and each of them once, exactly when their checksums
  differ and their ids are new to the log.
-/

set_option autoImplicit false

namespace SevlaMq.Consumer

open SevlaMq.Storage (Checksum Record RecordLog utf8 validateProducerId checkRecord)
open SevlaMq.Protocol (MAX_MESSAGE_SIZE MAX_KEY_SIZE)
open SevlaMq.Client (View produceRequest produceTo producerInput)
open SevlaMq.Broker (Settings Env Worker)

/-! ## What is published -/

section Publish

variable [Checksum]

/-- The attempt that a failure is published with. -/
def attemptAfter (context : MessageContext) (delays : List UInt64) : UInt32 :=
  if context.attempt.toNat < delays.length then context.attempt + 1 else context.attempt

/-- The topic of a failure. -/
def failureTopic (context : MessageContext) (delays : List UInt64) : String :=
  destination context.originalTopic delays context.attempt.toNat

/-- The checksum in the producer id of a failure. -/
def failureChecksum (group : String) (context : MessageContext) (delays : List UInt64) : UInt32 :=
  Checksum.hash (failureBytes group context (attemptAfter context delays)
    (failureTopic context delays))

def failureId (group : String) (context : MessageContext) (delays : List UInt64) : String :=
  retryProducerId group context (attemptAfter context delays) (failureTopic context delays)

/-- The key that the partition of a failure is chosen by. -/
def failureKey (group : String) (context : MessageContext) (delays : List UInt64) : Bytes :=
  if context.key = [] then utf8 (failureId group context delays) else context.key

variable {group error : String} {context : MessageContext} {delays : List UInt64} {nowMs : UInt64}
  {message : FailureMessage}

theorem failureMessage_ok
    (h : failureMessage (.ok nowMs) group context error delays = .ok message) :
    message.topic = failureTopic context delays ∧
      message.producer = ⟨failureId group context delays, 0⟩ ∧
      message.routingKey = failureKey group context delays ∧
      ∃ availableAtMs, encodeEnvelope context (attemptAfter context delays) availableAtMs error =
        .ok message.envelope := by
  have hattempt : ∀ attempt availableAtMs,
      nextAttempt (.ok nowMs) context delays = .ok (attempt, availableAtMs) →
        attempt = attemptAfter context delays := by
    intro attempt availableAtMs hnext
    unfold nextAttempt at hnext
    unfold attemptAfter
    split at hnext
    · rename_i hdelay
      rw [if_pos (List.getElem?_eq_some_iff.1 hdelay).1]
      split at hnext
      · cases hnext
      · cases hnext
        rfl
    · rename_i hnone
      rw [if_neg (Nat.not_lt.2 (List.getElem?_eq_none_iff.1 hnone))]
      cases hnext
      rfl
  unfold failureMessage at h
  split at h
  · cases h
  rename_i attempt availableAtMs hnext
  obtain rfl := hattempt attempt availableAtMs hnext
  split at h
  · cases h
  rename_i envelope hencode
  cases h
  exact ⟨rfl, rfl, rfl, availableAtMs, hencode⟩

omit [Checksum] in
/-- The envelope tells the message that has failed. -/
theorem encodeEnvelope_inj {context' : MessageContext} {attempt attempt' : UInt32}
    {availableAtMs availableAtMs' : UInt64} {error' : String} {envelope : Bytes}
    (h : encodeEnvelope context attempt availableAtMs error = .ok envelope)
    (h' : encodeEnvelope context' attempt' availableAtMs' error' = .ok envelope) :
    context.originalPartition = context'.originalPartition ∧
      context.originalOffset = context'.originalOffset := by
  have hdecode := @decodeEnvelope_encode _ _ _ _ _ h "" 0 ⟨0, 0, none, envelope⟩ rfl
  rw [decodeEnvelope_encode h' "" 0 rfl] at hdecode
  simp only [Except.ok.injEq, MessageContext.mk.injEq] at hdecode
  exact ⟨hdecode.2.1.symm, hdecode.2.2.1.symm⟩

/-- The request for a failure message, in the storage of the broker it is sent to; `none` if no
request can be made. -/
def publish (cfg : Settings) (v : View) (env : Env) (w : Worker) (message : FailureMessage) :
    Option Worker :=
  match produceRequest v message.topic message.routingKey message.envelope .durable
      (some message.producer) with
  | .error _ => none
  | .ok (_, request) =>
    let r := produceTo request
    some (w.appendRecord cfg env r.topic r.partition r.input r.ackMode).2

/-- The topic has `n` partitions, and all of them are open. -/
structure Open (w : Worker) (topic : String) (n : Nat) : Prop where
  count : w.topics topic = some n
  pos : 0 < n
  logs : ∀ p < n, ∃ log, w.logs topic p = some log

/-- A client of a cluster has been told the number of partitions. -/
def Counted (v : View) (n : Nat) : Prop :=
  v.cluster.nodes.length ≠ 1 → v.topic.partitions.toNat = n

end Publish

/-! ## The producer table -/

/-- The first record of a producer is stored. -/
theorem append_unknown {log : RecordLog} {r : Record} {id : String}
    (hid : validateProducerId id = .ok ()) (hproducer : r.producer = some ⟨id, 0⟩)
    (hcheck : checkRecord r = .ok ()) (h : log.producerState id = none) :
    log.append r = .ok (log.length, log ++ [r]) := by
  have hadmitted : Storage.admission log.producerState r = .ok none := by
    simp only [Storage.admission, hproducer, hid, h]
    rfl
  rw [RecordLog.append, hadmitted]
  simp only [hcheck]

/-- Later ones with sequence 0 are not. -/
theorem append_known {log log' : RecordLog} {r : Record} {id : String} {offset : Nat}
    (hproducer : r.producer = some ⟨id, 0⟩) (h : log.producerState id ≠ none)
    (happend : log.append r = .ok (offset, log')) : log' = log := by
  unfold RecordLog.append at happend
  split at happend
  · cases happend
  · cases happend
    rfl
  · rename_i hadmitted
    -- an accepted record would be the next one after the last
    have hnext := Storage.admission_sequence hadmitted hproducer
    unfold Storage.expectedSequence at hnext
    split at hnext
    · exact absurd hnext (Nat.succ_ne_zero _).symm
    · rename_i hnone
      exact absurd hnone h

/-- A record of another producer leaves the table as it is for this one. -/
theorem producerState_other {log : RecordLog} {r : Record} {id id' : String} {sequence : UInt64}
    (hproducer : r.producer = some ⟨id', sequence⟩) (hne : id ≠ id') :
    (log ++ [r] : RecordLog).producerState id = log.producerState id := by
  rw [RecordLog.producerState, Storage.ProducerTable.storeAll_append]
  simp only [Storage.ProducerTable.storeAll, Storage.ProducerTable.store, hproducer,
    Storage.ProducerTable.insert]
  rw [if_neg hne]
  rfl

theorem producerState_self {log : RecordLog} {r : Record} {id : String} {sequence : UInt64}
    (hproducer : r.producer = some ⟨id, sequence⟩) :
    (log ++ [r] : RecordLog).producerState id ≠ none := by
  rw [RecordLog.producerState, Storage.ProducerTable.storeAll_append]
  simp only [Storage.ProducerTable.storeAll, Storage.ProducerTable.store, hproducer,
    Storage.ProducerTable.insert]
  simp

/-! ## One publication -/

section Publication

variable [Checksum] {cfg : Settings} {v : View} {env : Env} {w w' : Worker} {n : Nat}
  {group error : String} {context : MessageContext} {delays : List UInt64} {nowMs : UInt64}
  {message : FailureMessage}

/-- The partition that a failure goes to. -/
def failurePartition (group : String) (context : MessageContext) (delays : List UInt64) (n : Nat) :
    Nat :=
  (Checksum.hash (failureKey group context delays)).toNat % n

/-- The record of a failure, as it is stored. -/
structure IsRecordOf (message : FailureMessage) (r : Record) : Prop where
  value : r.value = message.envelope
  producer : r.producer = some ⟨message.producer.id, message.producer.sequence⟩

/-- The producer table of the partition of a failure knows its id. -/
def Known (w : Worker) (group : String) (context : MessageContext) (delays : List UInt64) (n : Nat) :
    Prop :=
  ∃ log, w.logs (failureTopic context delays) (failurePartition group context delays n) = some log ∧
    log.producerState (failureId group context delays) ≠ none

theorem failureKey_ne_nil (group : String) (context : MessageContext) (delays : List UInt64) :
    failureKey group context delays ≠ [] := by
  unfold failureKey
  split
  · exact (retryProducerId_valid _ _ _ _).2.2.2
  · assumption

omit [Checksum] in
/-- A log that is written back as it was. -/
theorem insertLog_same {topic : String} {p : Nat} {log : RecordLog} (h : w.logs topic p = some log) :
    (w.insertLog topic p log).logs = w.logs := by
  funext t q
  simp only [Worker.insertLog]
  split
  · rename_i heq
    rw [heq.1, heq.2, h]
  · rfl

/-- The record of a failure is within the limits of the storage. -/
theorem checkRecord_failure {request : Protocol.ProduceRequest} {timestampMs : UInt64}
    (hproducer : message.producer = ⟨failureId group context delays, 0⟩)
    (hinput : (produceTo request).input =
      producerInput message.routingKey message.envelope (some message.producer)) :
    checkRecord ((producerInput message.routingKey message.envelope
      (some message.producer)).record timestampMs) = .ok () := by
  obtain ⟨_, hid, hidLength, _⟩ := retryProducerId_valid group context
    (attemptAfter context delays) (failureTopic context delays)
  obtain ⟨_, hkeyLength, hvalueLength, _⟩ := request.limits
  have hkey : request.key = message.routingKey := congrArg Cluster.ProduceInput.key hinput
  have hvalue : request.payload = message.envelope := congrArg Cluster.ProduceInput.payload hinput
  rw [hkey] at hkeyLength
  rw [hvalue] at hvalueLength
  have hmaxKey : MAX_KEY_SIZE = 65535 := rfl
  have hmaxMessage : MAX_MESSAGE_SIZE = 1048576 := rfl
  have hmaxRecord : Storage.MAX_RECORD_SIZE = 16777216 := rfl
  have hfixed : Storage.CRC_SIZE + Storage.BODY_FIXED_SIZE = 41 := rfl
  have hstored : Storage.keyLen ((producerInput message.routingKey message.envelope
      (some message.producer)).record timestampMs) ≤ message.routingKey.length := by
    unfold Storage.keyLen Cluster.ProduceInput.record producerInput
    simp only
    split
    · exact Nat.zero_le _
    · exact Nat.le_refl _
  have hidStored : Storage.producerLen ((producerInput message.routingKey message.envelope
      (some message.producer)).record timestampMs) ≤ 25 := by
    simp only [Storage.producerLen, Cluster.ProduceInput.record, producerInput, hproducer]
    exact hidLength
  unfold checkRecord
  rw [if_neg]
  · simp only [Storage.validateProducer, Cluster.ProduceInput.record, producerInput, hproducer,
      Option.map_some]
    exact hid
  · simp only [Cluster.ProduceInput.record, producerInput] at hstored hidStored ⊢
    omega

/-- **One publication** stores the failure at the end of its partition unless the log knows its id. -/
theorem publish_cases (hmessage : failureMessage (.ok nowMs) group context error delays = .ok message)
    (hopen : Open w (failureTopic context delays) n) (hv : Counted v n)
    (h : publish cfg v env w message = some w') :
    w'.topics = w.topics ∧ ∃ log r,
      w.logs (failureTopic context delays) (failurePartition group context delays n) = some log ∧
      IsRecordOf message r ∧
      (log.producerState (failureId group context delays) = none ∧
          w'.logs = (w.insertLog (failureTopic context delays)
            (failurePartition group context delays n) (log ++ [r])).logs ∨
        log.producerState (failureId group context delays) ≠ none ∧ w'.logs = w.logs) := by
  obtain ⟨htopic, hproducer, hkey, _⟩ := failureMessage_ok hmessage
  unfold publish at h
  split at h
  · cases h
  rename_i b request hrequest
  obtain ⟨hto, hinput, hpartition⟩ := Client.produceRequest_ok hrequest
  have hcheck := @checkRecord_failure _ group context delays message request env.timestampMs hproducer
    hinput
  simp only [Option.some.injEq] at h
  rw [hto, hinput, htopic] at h
  generalize hin : producerInput message.routingKey message.envelope (some message.producer) = input
    at h hpartition hcheck
  have hrouting : Worker.routingKey input = some (failureKey group context delays) := by
    rw [← hin, Worker.routingKey, producerInput, if_neg, hkey]
    rw [hkey]
    exact failureKey_ne_nil _ _ _
  have hrecord : IsRecordOf message (input.record env.timestampMs) := by
    rw [← hin]
    exact ⟨rfl, rfl⟩
  have hproducer' : (input.record env.timestampMs).producer =
      some ⟨failureId group context delays, 0⟩ := by
    rw [hrecord.producer, hproducer]
  obtain ⟨log, hlog⟩ := hopen.logs (failurePartition group context delays n)
    (Nat.mod_lt _ hopen.pos)
  have hchoose : Worker.choosePartition n w (failureTopic context delays)
      (produceTo request).partition input =
        (.ok (failurePartition group context delays n), w) := by
    unfold Worker.choosePartition
    split
    · rename_i q hq
      obtain ⟨hmany, hkeys⟩ := hpartition q hq
      have hchosen := hkeys _ hrouting
      rw [hv hmany] at hchosen
      rw [hchosen, if_neg (Nat.not_le.2 (Nat.mod_lt _ hopen.pos))]
      rfl
    · rw [hrouting]
      rfl
  unfold Worker.appendRecord at h
  rw [Worker.ensureTopic_known hopen.count] at h
  simp only [hchoose, hlog] at h
  by_cases hknown : log.producerState (failureId group context delays) = none
  · obtain ⟨_, hid, _⟩ := retryProducerId_valid group context (attemptAfter context delays)
      (failureTopic context delays)
    rw [append_unknown hid hproducer' hcheck hknown] at h
    simp only at h
    refine ⟨?_, log, _, hlog, hrecord, Or.inl ⟨hknown, ?_⟩⟩
    · rw [← h]
      split
      · split <;> rfl
      · rfl
    · rw [← h]
      split
      · split <;> rfl
      · rfl
  · suffices hsame : w'.topics = w.topics ∧ w'.logs = w.logs from
      ⟨hsame.1, log, _, hlog, hrecord, Or.inr ⟨hknown, hsame.2⟩⟩
    rw [← h]
    split
    · exact ⟨rfl, rfl⟩
    · rename_i happend
      obtain rfl := append_known hproducer' hknown happend
      split
      · split <;> exact ⟨rfl, insertLog_same hlog⟩
      · exact ⟨rfl, insertLog_same hlog⟩

theorem publish_known (hmessage : failureMessage (.ok nowMs) group context error delays = .ok message)
    (hopen : Open w (failureTopic context delays) n) (hv : Counted v n)
    (h : publish cfg v env w message = some w') (hknown : Known w group context delays n) :
    w'.logs = w.logs := by
  obtain ⟨log', hlog', hid⟩ := hknown
  obtain ⟨_, log, r, hlog, _, hcases⟩ := publish_cases hmessage hopen hv h
  rw [hlog] at hlog'
  cases hlog'
  rcases hcases with ⟨hnone, _⟩ | ⟨_, hsame⟩
  · exact absurd hnone hid
  · exact hsame

theorem publish_new (hmessage : failureMessage (.ok nowMs) group context error delays = .ok message)
    (hopen : Open w (failureTopic context delays) n) (hv : Counted v n)
    (h : publish cfg v env w message = some w') (hnew : ¬ Known w group context delays n) :
    ∃ log r, w.logs (failureTopic context delays) (failurePartition group context delays n) =
        some log ∧ IsRecordOf message r ∧
      w'.logs = (w.insertLog (failureTopic context delays)
        (failurePartition group context delays n) (log ++ [r])).logs := by
  obtain ⟨_, log, r, hlog, hrecord, hcases⟩ := publish_cases hmessage hopen hv h
  rcases hcases with ⟨_, hstored⟩ | ⟨hid, _⟩
  · exact ⟨log, r, hlog, hrecord, hstored⟩
  · exact absurd ⟨log, hlog, hid⟩ hnew

/-- The envelope of a failure is in its topic. -/
def Stored (w : Worker) (message : FailureMessage) : Prop :=
  ∃ p log r, w.logs message.topic p = some log ∧ r ∈ log ∧ r.value = message.envelope

/-- What is stored stays stored, and only the published failure may be added. -/
theorem stored_publish {other : FailureMessage}
    (hmessage : failureMessage (.ok nowMs) group context error delays = .ok message)
    (hopen : Open w (failureTopic context delays) n) (hv : Counted v n)
    (h : publish cfg v env w message = some w') :
    (Stored w other → Stored w' other) ∧
      (Stored w' other → Stored w other ∨ other.envelope = message.envelope) := by
  by_cases hknown : Known w group context delays n
  · have hsame := publish_known hmessage hopen hv h hknown
    unfold Stored
    rw [hsame]
    exact ⟨id, Or.inl⟩
  obtain ⟨log, r, hlog, hrecord, hlogs⟩ := publish_new hmessage hopen hv h hknown
  unfold Stored
  rw [hlogs]
  constructor
  · rintro ⟨p, log', r', hlog', hmem, hvalue⟩
    by_cases hp : other.topic = failureTopic context delays ∧
        p = failurePartition group context delays n
    · rw [hp.1, hp.2, hlog] at hlog'
      cases hlog'
      refine ⟨p, _, r', ?_, List.mem_append_left [r] hmem, hvalue⟩
      rw [hp.1, hp.2]
      exact Worker.insertLog_self _ _
    · refine ⟨p, log', r', ?_, hmem, hvalue⟩
      simp only [Worker.insertLog]
      rw [if_neg hp, hlog']
  · rintro ⟨p, log', r', hlog', hmem, hvalue⟩
    simp only [Worker.insertLog] at hlog'
    split at hlog'
    · rename_i hp
      cases hlog'
      rcases List.mem_append.1 hmem with hmem | hmem
      · exact Or.inl ⟨p, log, r', by rw [hp.1, hp.2, hlog], hmem, hvalue⟩
      · rw [List.mem_singleton.1 hmem, hrecord.value] at hvalue
        exact Or.inr hvalue.symm
    · exact Or.inl ⟨p, log', r', hlog', hmem, hvalue⟩

theorem stored_new (hmessage : failureMessage (.ok nowMs) group context error delays = .ok message)
    (hopen : Open w (failureTopic context delays) n) (hv : Counted v n)
    (h : publish cfg v env w message = some w') (hnew : ¬ Known w group context delays n) :
    Stored w' message ∧ Known w' group context delays n := by
  obtain ⟨htopic, hproducer, _⟩ := failureMessage_ok hmessage
  obtain ⟨log, r, _, hrecord, hlogs⟩ := publish_new hmessage hopen hv h hnew
  have hself : w'.logs (failureTopic context delays) (failurePartition group context delays n) =
      some (log ++ [r]) := by
    rw [hlogs]
    exact Worker.insertLog_self _ _
  have hid : r.producer = some ⟨failureId group context delays, 0⟩ := by
    rw [hrecord.producer, hproducer]
  exact ⟨⟨_, _, r, htopic ▸ hself, List.mem_append_right _ List.mem_cons_self, hrecord.value⟩,
    ⟨_, hself, producerState_self hid⟩⟩

/-- The topic stays open. -/
theorem Open.publish (hmessage : failureMessage (.ok nowMs) group context error delays = .ok message)
    (hopen : Open w (failureTopic context delays) n) (hv : Counted v n)
    (h : publish cfg v env w message = some w') : Open w' (failureTopic context delays) n := by
  obtain ⟨htopics, log, r, _, _, hcases⟩ := publish_cases hmessage hopen hv h
  refine ⟨by rw [htopics, hopen.count], hopen.pos, fun p hp => ?_⟩
  obtain ⟨log', hlog'⟩ := hopen.logs p hp
  rcases hcases with ⟨_, hlogs⟩ | ⟨_, hlogs⟩
  · rw [hlogs]
    simp only [Worker.insertLog]
    split
    · exact ⟨_, rfl⟩
    · exact ⟨_, hlog'⟩
  · exact ⟨log', by rw [hlogs, hlog']⟩

/-- A publication makes no other id known to the partition of another failure of the topic. -/
theorem known_publish {other : MessageContext}
    (hmessage : failureMessage (.ok nowMs) group context error delays = .ok message)
    (hopen : Open w (failureTopic context delays) n) (hv : Counted v n)
    (h : publish cfg v env w message = some w')
    (hne : failureId group other delays ≠ failureId group context delays) :
    Known w' group other delays n ↔ Known w group other delays n := by
  obtain ⟨_, hproducer, _⟩ := failureMessage_ok hmessage
  by_cases hknown : Known w group context delays n
  · unfold Known
    rw [publish_known hmessage hopen hv h hknown]
  obtain ⟨log, r, hlog, hrecord, hlogs⟩ := publish_new hmessage hopen hv h hknown
  have hid : r.producer = some ⟨failureId group context delays, 0⟩ := by
    rw [hrecord.producer, hproducer]
  unfold Known
  rw [hlogs]
  simp only [Worker.insertLog]
  split
  · rename_i hsame
    rw [hsame.1, hsame.2, hlog]
    simp only [Option.some.injEq, exists_eq_left', producerState_other hid hne]
  · exact Iff.rfl

/-- **Two failures of one topic are both stored**, and each of them once, exactly when their checksums
differ and neither id is known to the log already.  The condition does not depend on their order. -/
theorem both_stored_iff {context₁ context₂ : MessageContext} {error₁ error₂ error' : String}
    {nowMs₁ nowMs₂ nowMs' : UInt64} {message₁ message₂ message' : FailureMessage}
    {v₁ v₂ v' : View} {env₁ env₂ env' : Env} {w₁ w₂ : Worker}
    (h₁ : failureMessage (.ok nowMs₁) group context₁ error₁ delays = .ok message₁)
    (h₂ : failureMessage (.ok nowMs₂) group context₂ error₂ delays = .ok message₂)
    (htopic : context₁.originalTopic = context₂.originalTopic)
    (hattempt : context₁.attempt = context₂.attempt) (hkey : context₁.key = context₂.key)
    (hdiffer : context₁.originalPartition ≠ context₂.originalPartition ∨
      context₁.originalOffset ≠ context₂.originalOffset)
    (hopen : Open w (failureTopic context₁ delays) n) (hnew₁ : ¬ Stored w message₁)
    (hnew₂ : ¬ Stored w message₂) (hv₁ : Counted v₁ n) (hv₂ : Counted v₂ n)
    (hpublish₁ : publish cfg v₁ env₁ w message₁ = some w₁)
    (hpublish₂ : publish cfg v₂ env₂ w₁ message₂ = some w₂)
    -- the first failure is published again
    (h' : failureMessage (.ok nowMs') group context₁ error' delays = .ok message')
    (hv' : Counted v' n) (hagain : publish cfg v' env' w₁ message' = some w') :
    (Stored w₂ message₁ ∧ Stored w₂ message₂ ∧ Stored w₁ message₁ ∧ w'.logs = w₁.logs) ↔
      failureChecksum group context₁ delays ≠ failureChecksum group context₂ delays ∧
        ¬ Known w group context₁ delays n ∧ ¬ Known w group context₂ delays n := by
  have hsameTopic : failureTopic context₂ delays = failureTopic context₁ delays := by
    rw [failureTopic, failureTopic, htopic, hattempt]
  have hsameAttempt : attemptAfter context₂ delays = attemptAfter context₁ delays := by
    rw [attemptAfter, attemptAfter, hattempt]
  have hids : failureId group context₂ delays = failureId group context₁ delays ↔
      failureChecksum group context₁ delays = failureChecksum group context₂ delays := by
    unfold failureId failureChecksum
    rw [hsameAttempt, hsameTopic, retryProducerId_inj, eq_comm]
  have hopen₁ := hopen.publish h₁ hv₁ hpublish₁
  have hopen₂ := hsameTopic ▸ hopen₁
  have henvelopes : message₂.envelope ≠ message₁.envelope := by
    intro heq
    obtain ⟨_, _, _, _, hencode₁⟩ := failureMessage_ok h₁
    obtain ⟨_, _, _, _, hencode₂⟩ := failureMessage_ok h₂
    rw [heq] at hencode₂
    obtain ⟨hpartition, hoffset⟩ := encodeEnvelope_inj hencode₁ hencode₂
    rcases hdiffer with hdiffer | hdiffer
    · exact hdiffer hpartition
    · exact hdiffer hoffset
  constructor
  · rintro ⟨_, hstored₂, hstored₁, _⟩
    have hunknown₁ : ¬ Known w group context₁ delays n := by
      intro hknown
      apply hnew₁
      unfold Stored at hstored₁ ⊢
      rwa [publish_known h₁ hopen hv₁ hpublish₁ hknown] at hstored₁
    -- the second one finds its id unknown, or it would not be there
    have hunknown₂ : ¬ Known w₁ group context₂ delays n := by
      intro hknown
      have hbefore : Stored w₁ message₂ := by
        unfold Stored at hstored₂ ⊢
        rwa [publish_known h₂ hopen₂ hv₂ hpublish₂ hknown] at hstored₂
      rcases (stored_publish h₁ hopen hv₁ hpublish₁).2 hbefore with hold | hsame
      · exact hnew₂ hold
      · exact henvelopes hsame
    have hchecksums : failureChecksum group context₁ delays ≠
        failureChecksum group context₂ delays := by
      intro hsame
      have hid := hids.2 hsame
      apply hunknown₂
      have hknown := (stored_new h₁ hopen hv₁ hpublish₁ hunknown₁).2
      unfold Known failurePartition failureKey at hknown ⊢
      rwa [hid, hsameTopic, ← hkey]
    refine ⟨hchecksums, hunknown₁, fun hknown => hunknown₂ ?_⟩
    exact (known_publish h₁ hopen hv₁ hpublish₁ fun hid => hchecksums (hids.1 hid)).2 hknown
  · rintro ⟨hchecksums, hunknown₁, hunknown₂⟩
    obtain ⟨hstored₁, hknown₁⟩ := stored_new h₁ hopen hv₁ hpublish₁ hunknown₁
    have hstill : ¬ Known w₁ group context₂ delays n := fun hknown => hunknown₂
      ((known_publish h₁ hopen hv₁ hpublish₁ fun hid => hchecksums (hids.1 hid)).1 hknown)
    exact ⟨(stored_publish h₂ hopen₂ hv₂ hpublish₂).1 hstored₁,
      (stored_new h₂ hopen₂ hv₂ hpublish₂ hstill).1, hstored₁,
      publish_known h' hopen₁ hv' hagain hknown₁⟩

end Publication

/-! ## A collision -/

/-- A message of the topic `payments` that has failed for the first time. -/
def paymentContext (partition : UInt32) (offset : UInt64) : MessageContext :=
  ⟨"payments", partition, offset, 1234, 0, 0, utf8 "customer", utf8 "hello"⟩

/-- Its failure, with a delay of one second. -/
def paymentFailure [Checksum] (partition : UInt32) (offset : UInt64) : FailureMessage :=
  ⟨"payments.retry.1s", utf8 "customer",
    envelopeBytes (paymentContext partition offset) 1 1010 "failed",
    ⟨failureId "workers" (paymentContext partition offset) [1000], 0⟩⟩

/-- The retry topic with one partition, before anything has failed. -/
def retryTopic : Worker where
  topics := fun t => if t = "payments.retry.1s" then some 1 else none
  logs := fun t p => if t = "payments.retry.1s" ∧ p = 0 then some [] else none
  roundRobin := fun _ => 0

theorem retryTopic_logs {t : String} {p : Nat} {log : RecordLog} (h : retryTopic.logs t p = some log) :
    log = [] := by
  simp only [retryTopic] at h
  split at h
  · cases h
    rfl
  · cases h

theorem retryTopic_open : Open retryTopic "payments.retry.1s" 1 where
  count := by decide
  pos := by decide
  logs := by
    intro p hp
    obtain rfl : p = 0 := by omega
    exact ⟨[], by decide⟩

theorem not_stored_retryTopic (message : FailureMessage) : ¬ Stored retryTopic message := by
  rintro ⟨p, log, r, hlog, hmem, _⟩
  rw [retryTopic_logs hlog] at hmem
  exact absurd hmem List.not_mem_nil

theorem not_known_retryTopic [Checksum] (group : String) (context : MessageContext)
    (delays : List UInt64) (n : Nat) : ¬ Known retryTopic group context delays n := by
  rintro ⟨log, hlog, hid⟩
  rw [retryTopic_logs hlog] at hid
  exact hid rfl

theorem counted_orderView (n : Nat) : Counted Client.orderView n := fun hmany => absurd rfl hmany

/-- Two messages of one partition. -/
theorem both_stored_payments :
    letI := Checksum.crc32
    ∃ w₁ w₂, publish Broker.singleBroker Client.orderView Env.fresh retryTopic
        (paymentFailure 0 0) = some w₁ ∧
      publish Broker.singleBroker Client.orderView Env.fresh w₁ (paymentFailure 0 1) = some w₂ ∧
      Stored w₂ (paymentFailure 0 0) ∧ Stored w₂ (paymentFailure 0 1) := by
  let _ := Checksum.crc32
  have hfirst : (publish Broker.singleBroker Client.orderView Env.fresh retryTopic
      (paymentFailure 0 0)).isSome = true := by decide +kernel
  obtain ⟨w₁, hw₁⟩ := Option.isSome_iff_exists.1 hfirst
  have hsecond : ((publish Broker.singleBroker Client.orderView Env.fresh retryTopic
      (paymentFailure 0 0)).bind fun w =>
        publish Broker.singleBroker Client.orderView Env.fresh w (paymentFailure 0 1)).isSome = true := by
    decide +kernel
  rw [hw₁, Option.bind_some] at hsecond
  obtain ⟨w₂, hw₂⟩ := Option.isSome_iff_exists.1 hsecond
  have hagain : ((publish Broker.singleBroker Client.orderView Env.fresh retryTopic
      (paymentFailure 0 0)).bind fun w =>
        publish Broker.singleBroker Client.orderView Env.fresh w (paymentFailure 0 0)).isSome = true := by
    decide +kernel
  rw [hw₁, Option.bind_some] at hagain
  obtain ⟨w', hw'⟩ := Option.isSome_iff_exists.1 hagain
  have hmessage₁ : failureMessage (.ok 10) "workers" (paymentContext 0 0) "failed" [1000] =
      .ok (paymentFailure 0 0) := by decide +kernel
  have hmessage₂ : failureMessage (.ok 10) "workers" (paymentContext 0 1) "failed" [1000] =
      .ok (paymentFailure 0 1) := by decide +kernel
  have hchecksums : failureChecksum "workers" (paymentContext 0 0) [1000] ≠
      failureChecksum "workers" (paymentContext 0 1) [1000] := by decide +kernel
  obtain ⟨hstored₁, hstored₂, _⟩ := (both_stored_iff hmessage₁ hmessage₂ rfl rfl rfl
    (Or.inr (by decide)) retryTopic_open (not_stored_retryTopic _) (not_stored_retryTopic _)
    (counted_orderView 1) (counted_orderView 1) hw₁ hw₂ hmessage₁ (counted_orderView 1) hw').2
    ⟨hchecksums, not_known_retryTopic _ _ _ _, not_known_retryTopic _ _ _ _⟩
  exact ⟨w₁, w₂, hw₁, hw₂, hstored₁, hstored₂⟩

/-- **Two failures with one checksum**: the second of them is acknowledged and lost. -/
theorem checksum_collision_loses_failure :
    letI := Checksum.crc32
    failureMessage (.ok 10) "workers" (paymentContext 0 0) "failed" [1000] =
        .ok (paymentFailure 0 0) ∧
      failureMessage (.ok 10) "workers" (paymentContext 12 32370885) "failed" [1000] =
        .ok (paymentFailure 12 32370885) ∧
      ∃ w₁ w₂, publish Broker.singleBroker Client.orderView Env.fresh retryTopic
          (paymentFailure 0 0) = some w₁ ∧
        publish Broker.singleBroker Client.orderView Env.fresh w₁ (paymentFailure 12 32370885) =
          some w₂ ∧
        w₂.logs "payments.retry.1s" 0 = w₁.logs "payments.retry.1s" 0 ∧
        ¬ Stored w₂ (paymentFailure 12 32370885) := by
  let _ := Checksum.crc32
  have hmessage₁ : failureMessage (.ok 10) "workers" (paymentContext 0 0) "failed" [1000] =
      .ok (paymentFailure 0 0) := by decide +kernel
  have hmessage₂ : failureMessage (.ok 10) "workers" (paymentContext 12 32370885) "failed" [1000] =
      .ok (paymentFailure 12 32370885) := by decide +kernel
  refine ⟨hmessage₁, hmessage₂, ?_⟩
  have hsecond : ((publish Broker.singleBroker Client.orderView Env.fresh retryTopic
      (paymentFailure 0 0)).bind fun w => publish Broker.singleBroker Client.orderView Env.fresh w
        (paymentFailure 12 32370885)).isSome = true := by decide +kernel
  obtain ⟨w₂, hw₂⟩ := Option.isSome_iff_exists.1 hsecond
  obtain ⟨w₁, hw₁, hw₂⟩ := Option.bind_eq_some_iff.1 hw₂
  have hids : failureId "workers" (paymentContext 12 32370885) [1000] =
      failureId "workers" (paymentContext 0 0) [1000] := by decide +kernel
  have hknown := (stored_new hmessage₁ retryTopic_open (counted_orderView 1) hw₁
    (not_known_retryTopic _ _ _ _)).2
  have hopen₁ := Open.publish hmessage₁ retryTopic_open (counted_orderView 1) hw₁
  have hsame := publish_known hmessage₂ hopen₁ (counted_orderView 1) hw₂ (by
    unfold Known failurePartition failureKey at hknown ⊢
    rw [hids]
    exact hknown)
  refine ⟨w₁, w₂, hw₁, hw₂, by rw [hsame], fun hstored => ?_⟩
  unfold Stored at hstored
  rw [hsame] at hstored
  rcases (stored_publish hmessage₁ retryTopic_open (counted_orderView 1) hw₁).2 hstored with hold | heq
  · exact not_stored_retryTopic _ hold
  · exact absurd heq (by decide +kernel)

end SevlaMq.Consumer
