import SevlaMq.Cluster.Model

/-!
# What a step can do

`TaskStep cfg s b t c e` lists, once, everything `taskStep` can do: one constructor per branch of
the source, with the guards of the branch.  Branches that give up without touching anything
(an error answer, a closed connection) are the single constructor `stop`.  Every invariant is
proved by cases over this relation, never by unfolding `taskStep` again.

`taskStep_cases` — every task step is in the relation.  `Move` does the same for the actions of
the cluster: each is an `Effect` at one broker, and `step_move` says how the state after the step
is put together from it.  `Sound` is an invariant made of a predicate on brokers, one on tasks
and one on messages; `Sound.moved` reduces its preservation to the acting broker.
-/

set_option autoImplicit false

namespace SevlaMq.Cluster

open SevlaMq.Storage

variable {cfg : ClusterConfig}

/-- The branches of `taskStep`. -/
inductive TaskStep (cfg : ClusterConfig) (s : State) (b : BrokerId) :
    Task → Choice → Effect → Prop
  | stop (t : Task) (c : Choice)
      (hr : ∀ l, t.update cfg = some l → ∃ err, applyEntry cfg (s.broker b).entry l = .error err) :
      TaskStep cfg s b t c ⟨s.broker b, .done, [], [], []⟩
  | append {request : ProduceRequest} {ts : List UInt64} {res : Except StorageError (List Nat)}
      {log : RecordLog}
      (happ : appendInputs (s.broker b).log (request.inputs.zip ts) = (res, log)) :
      TaskStep cfg s b (.append request) (.stamp ts) ⟨{ s.broker b with log },
        match res with
        | .ok offsets => .readBack request.ackMode offsets []
        | .error _ => .done, [], [], []⟩
  | readBack {ackMode : AckMode} {offset : Nat} {offsets : List Nat} {jobs : List Job} {r : Record}
      (hr : (s.broker b).log[offset]? = some r) :
      TaskStep cfg s b (.readBack ackMode (offset :: offsets) jobs) .go ⟨s.broker b,
        .readBack ackMode offsets (jobs ++ [⟨fetched r offset, epochOf (s.broker b).entry⟩]),
        [], [], []⟩
  | dispatch {ackMode : AckMode} {job : Job} {rest : List Job} :
      TaskStep cfg s b (.readBack ackMode [] (job :: rest)) .go ⟨s.broker b,
        .contact (startReplication cfg b ackMode [] job rest), [],
        if ackMode = .leader then (job :: rest).map (Answer.mk b .leader ·.record) else [], []⟩
  | skip {t : Task} {c : Choice} {r : Replication}
      (ht : t = .contact r ∨ (∃ l conn first, t = .awaitAck r l conn first) ∨
        ∃ l next, t = .catchUp r l next) :
      TaskStep cfg s b t c ⟨s.broker b, .contact r.drop, [], [], []⟩
  | contact {r : Replication} {follower : BrokerId} {followers : List BrokerId}
      {l : PartitionLeadership} (hf : r.followers = follower :: followers)
      (he : (s.broker b).entry = some l) :
      TaskStep cfg s b (.contact r) .go ⟨s.broker b, .awaitAck r l s.nextConn true,
        [.replicate s.nextConn b follower (replicationRecord r.current.record r.ackMode l)], [], []⟩
  | committed {r : Replication} {l : PartitionLeadership} (hf : r.followers = [])
      (hmin : cfg.minInSyncReplicas ≤ r.acknowledgements) (he : (s.broker b).entry = some l)
      (hw : r.current.record.offset + 1 ≤ l.highWatermark) :
      TaskStep cfg s b (.contact r) .go
        ⟨s.broker b, (finishRecord cfg b r).1, [], (finishRecord cfg b r).2, []⟩
  | commitRead {r : Replication} {l : PartitionLeadership} (hf : r.followers = [])
      (hmin : cfg.minInSyncReplicas ≤ r.acknowledgements) (he : (s.broker b).entry = some l)
      (hw : l.highWatermark < r.current.record.offset + 1) :
      TaskStep cfg s b (.contact r) .go ⟨s.broker b,
        .commitApply r { l with highWatermark := r.current.record.offset + 1 }, [], [], []⟩
  | uncommitted {r : Replication} (hf : r.followers = []) (hm : r.ackMode = .leader) :
      TaskStep cfg s b (.contact r) .go
        ⟨s.broker b, (finishRecord cfg b r).1, [], (finishRecord cfg b r).2, []⟩
  | behind {r : Replication} {l : PartitionLeadership} {conn index next : Nat} {first : Bool}
      (hn : s.net[index]? = some (.replicateAck conn next)) (hb : next ≤ r.current.record.offset) :
      TaskStep cfg s b (.awaitAck r l conn first) (.receive index) ⟨s.broker b, .catchUp r l next, [], [], []⟩
  | acked {r : Replication} {l : PartitionLeadership} {conn index next : Nat} {first : Bool}
      (hn : s.net[index]? = some (.replicateAck conn next)) (hb : r.current.record.offset < next) :
      TaskStep cfg s b (.awaitAck r l conn first) (.receive index)
        ⟨s.broker b, .contact (r.ack next l (s.broker b).entry), [], [], []⟩
  | catchUp {r : Replication} {l : PartitionLeadership} {next : Nat} {missing : Record}
      (hr : (s.broker b).log[next]? = some missing) :
      TaskStep cfg s b (.catchUp r l next) .go ⟨s.broker b, .awaitAck r l s.nextConn false,
        [.replicate s.nextConn b (r.followers.headD 0)
          (replicationRecord (fetched missing next) r.ackMode l)], [], []⟩
  | commit {r : Replication} {l : PartitionLeadership}
      (ha : applyEntry cfg (s.broker b).entry l = .ok l) :
      TaskStep cfg s b (.commitApply r l) .go ⟨{ s.broker b with entry := some l },
        (finishRecord cfg b r).1, broadcast cfg b l, (finishRecord cfg b r).2, []⟩
  | replicaLonger {conn : Nat} {m : ReplicateRecord} {cur : PartitionLeadership}
      (hl : m.record.offset < (s.broker b).log.length) :
      TaskStep cfg s b (.replicaTail conn m cur) .go
        ⟨s.broker b, .replicaTruncate conn m cur, [], [], []⟩
  | replicaShorter {conn : Nat} {m : ReplicateRecord} {cur : PartitionLeadership}
      (hl : (s.broker b).log.length ≤ m.record.offset) :
      TaskStep cfg s b (.replicaTail conn m cur) .go
        ⟨s.broker b, .replicaAdopt conn m cur false, [], [], []⟩
  | replicaTruncate {conn : Nat} {m : ReplicateRecord} {cur : PartitionLeadership}
      (hl : m.record.offset ≤ (s.broker b).log.length) :
      TaskStep cfg s b (.replicaTruncate conn m cur) .go
        ⟨{ s.broker b with log := (s.broker b).log.take m.record.offset },
          .replicaAdopt conn m cur (m.record.offset < (s.broker b).log.length), [], [], []⟩
  | replicaAdopt {conn : Nat} {m : ReplicateRecord} {cur : PartitionLeadership} {cut : Bool}
      (ha : applyEntry cfg (s.broker b).entry (adopted cfg m cur) = .ok (adopted cfg m cur)) :
      TaskStep cfg s b (.replicaAdopt conn m cur cut) .go
        ⟨{ s.broker b with entry := some (adopted cfg m cur) }, .replicaExpected conn m, [], [], []⟩
  | replicaGap {conn : Nat} {m : ReplicateRecord} (hl : (s.broker b).log.length < m.record.offset) :
      TaskStep cfg s b (.replicaExpected conn m) .go
        ⟨s.broker b, .done, [.replicateAck conn (s.broker b).log.length], [], []⟩
  | replicaReady {conn : Nat} {m : ReplicateRecord}
      (hl : m.record.offset ≤ (s.broker b).log.length) :
      TaskStep cfg s b (.replicaExpected conn m) .go ⟨s.broker b, .replicaStore conn m, [], [], []⟩
  | replicaStore {conn : Nat} {m : ReplicateRecord} {offset : Nat} {log : RecordLog}
      (hs : (s.broker b).log.appendReplica m.record.offset m.record.toRecord = .ok (offset, log)) :
      TaskStep cfg s b (.replicaStore conn m) .go
        ⟨{ s.broker b with log }, .done, [.replicateAck conn log.length], [], []⟩
  | leadershipLonger {l cur : PartitionLeadership}
      (hl : l.highWatermark < (s.broker b).log.length) :
      TaskStep cfg s b (.leadershipTail l cur) .go ⟨s.broker b, .leadershipTruncate l cur, [], [], []⟩
  | leadershipShorter {l cur : PartitionLeadership}
      (hl : (s.broker b).log.length ≤ l.highWatermark) :
      TaskStep cfg s b (.leadershipTail l cur) .go ⟨s.broker b, .leadershipApply l cur false, [], [], []⟩
  | leadershipTruncate {l cur : PartitionLeadership}
      (hl : l.highWatermark ≤ (s.broker b).log.length) :
      TaskStep cfg s b (.leadershipTruncate l cur) .go
        ⟨{ s.broker b with log := (s.broker b).log.take l.highWatermark },
          .leadershipApply l cur (l.highWatermark < (s.broker b).log.length), [], [], []⟩
  | leadershipApply {l cur : PartitionLeadership} {cut : Bool}
      (ha : applyEntry cfg (s.broker b).entry l = .ok l) :
      TaskStep cfg s b (.leadershipApply l cur cut) .go
        ⟨{ s.broker b with entry := some l }, .done, [], [], []⟩
  | promoteAsk {candidate node : BrokerId} {cur : PartitionLeadership} {remaining : List BrokerId}
      {offsets : List (BrokerId × Nat)} :
      TaskStep cfg s b (.promoteQuery candidate cur (node :: remaining) offsets) .go ⟨s.broker b,
        .promoteQuery candidate cur remaining (offsets ++ [(node, (s.broker node).log.length)]),
        [], [], []⟩
  | promoteMiss {candidate node : BrokerId} {cur : PartitionLeadership} {remaining : List BrokerId}
      {offsets : List (BrokerId × Nat)} :
      TaskStep cfg s b (.promoteQuery candidate cur (node :: remaining) offsets) .fail
        ⟨s.broker b, .promoteQuery candidate cur remaining offsets, [], [], []⟩
  | promoteSelf {cur : PartitionLeadership} {offsets : List (BrokerId × Nat)}
      (hp : promotable cfg b cur offsets = true) :
      TaskStep cfg s b (.promoteQuery b cur [] offsets) .go
        ⟨s.broker b, .promoteTail (promoted b cur) cur, [], [], []⟩
  | promoteOther {candidate : BrokerId} {cur : PartitionLeadership}
      {offsets : List (BrokerId × Nat)} (hp : promotable cfg candidate cur offsets = true)
      (hne : candidate ≠ b) :
      TaskStep cfg s b (.promoteQuery candidate cur [] offsets) .go
        ⟨s.broker b, .promoteApply (promoted candidate cur) cur false, [], [], []⟩
  | promoteLonger {l cur : PartitionLeadership} (hl : l.highWatermark < (s.broker b).log.length) :
      TaskStep cfg s b (.promoteTail l cur) .go ⟨s.broker b, .promoteTruncate l cur, [], [], []⟩
  | promoteShorter {l cur : PartitionLeadership} (hl : (s.broker b).log.length ≤ l.highWatermark) :
      TaskStep cfg s b (.promoteTail l cur) .go ⟨s.broker b, .promoteApply l cur false, [], [], []⟩
  | promoteTruncate {l cur : PartitionLeadership} (hl : l.highWatermark ≤ (s.broker b).log.length) :
      TaskStep cfg s b (.promoteTruncate l cur) .go
        ⟨{ s.broker b with log := (s.broker b).log.take l.highWatermark },
          .promoteApply l cur (l.highWatermark < (s.broker b).log.length), [], [], []⟩
  | promoteApply {l cur : PartitionLeadership} {cut : Bool}
      (ha : applyEntry cfg (s.broker b).entry l = .ok l) :
      TaskStep cfg s b (.promoteApply l cur cut) .go ⟨{ s.broker b with entry := some l }, .done,
        broadcast cfg b l, [], if epochOf (s.broker b).entry < l.leaderEpoch then [l] else []⟩
  | syncNewer {l : PartitionLeadership} :
      TaskStep cfg s b (.syncCompare l) .go
        ⟨{ s.broker b with entry := some ((s.broker b).entry.getD (initialLeadership cfg)) },
          .syncApply l, [], [], []⟩
  | syncOlder {l : PartitionLeadership} :
      TaskStep cfg s b (.syncCompare l) .go
        ⟨{ s.broker b with entry := some ((s.broker b).entry.getD (initialLeadership cfg)) },
          .done, [], [], []⟩
  | syncApply {l : PartitionLeadership} (ha : applyEntry cfg (s.broker b).entry l = .ok l) :
      TaskStep cfg s b (.syncApply l) .go ⟨{ s.broker b with entry := some l }, .done, [], [], []⟩
  | recoverStart {offset : Nat} :
      TaskStep cfg s b (.recoverStart offset) .go ⟨s.broker b, .recoverFetch offset, [], [], []⟩
  | recoverFetch {offset : Nat} {l : PartitionLeadership}
      (he : (s.broker cfg.controller).entry = some l) :
      TaskStep cfg s b (.recoverFetch offset) .go ⟨s.broker b, .recoverAwait s.nextConn,
        [.fetch s.nextConn l.leaderId offset (3 * 1024 * 1024)], [], []⟩
  | recoverAwait {conn index epoch : Nat} {records : List FetchedRecord}
      (hn : s.net[index]? = some (.fetched conn epoch records)) :
      TaskStep cfg s b (.recoverAwait conn) (.receive index) ⟨s.broker b, .recoverStore epoch records, [], [], []⟩
  | recoverStore {epoch offset : Nat} {record : FetchedRecord} {records : List FetchedRecord}
      {log : RecordLog} {l : PartitionLeadership} (he : (s.broker b).entry = some l)
      (hs : (s.broker b).log.appendReplica record.offset record.toRecord = .ok (offset, log)) :
      TaskStep cfg s b (.recoverStore epoch (record :: records)) .go ⟨{ s.broker b with log },
        if records = [] then .recoverFetch log.length else .recoverStore epoch records, [], [], []⟩
  | fetchRead {conn offset maxBytes : Nat} {records : List FetchedRecord}
      (hr : readRecords (s.broker b).log offset maxBytes = some records) :
      TaskStep cfg s b (.fetchRead conn offset maxBytes) .go
        ⟨s.broker b, .fetchFilter conn (epochOf (s.broker b).entry) records, [], [], []⟩
  | fetchFilter {conn epoch : Nat} {records : List FetchedRecord} {l : PartitionLeadership}
      (he : (s.broker b).entry = some l) :
      TaskStep cfg s b (.fetchFilter conn epoch records) .go ⟨s.broker b, .done,
        [.fetched conn epoch (records.filter (·.offset < l.highWatermark))], [], []⟩

/-- A task that does not update the registry next may give up. -/
theorem TaskStep.giveUp {s : State} {b : BrokerId} {t : Task} {c : Choice}
    (h : t.update cfg = none) : TaskStep cfg s b t c ⟨s.broker b, .done, [], [], []⟩ :=
  .stop t c fun l hl => by rw [h] at hl; cases hl

/-- A refused registry update ends the task. -/
theorem TaskStep.refused {s : State} {b : BrokerId} {t : Task} {c : Choice}
    {l : PartitionLeadership} {err : LeadershipError} (h : t.update cfg = some l)
    (ha : applyEntry cfg (s.broker b).entry l = .error err) :
    TaskStep cfg s b t c ⟨s.broker b, .done, [], [], []⟩ :=
  .stop t c fun l' hl => by rw [h] at hl; cases hl; exact ⟨err, ha⟩

/-- **Every task step is one of the listed branches.** -/
theorem taskStep_cases {s : State} {b : BrokerId} {t : Task} {c : Choice} {e : Effect}
    (h : taskStep cfg s b t c = some e) : TaskStep cfg s b t c e := by
  unfold taskStep at h
  simp only at h
  split at h
  case h_1 request ts =>
    split at h
    · cases h
    split at h
    · rename_i offsets log happ
      cases h; exact .append happ
    · rename_i err log happ
      cases h; exact .append happ
  case h_2 =>
    split at h
    · rename_i r hr
      cases h; exact .readBack hr
    · cases h; exact .giveUp rfl
  case h_3 =>
    split at h
    · cases h; exact .giveUp rfl
    · cases h; exact .dispatch
  case h_4 r =>
    split at h
    · rename_i follower followers hf
      split at h
      · cases h; exact .skip (Or.inl rfl)
      · rename_i l he
        cases h; exact .contact hf he
    · rename_i hf
      split at h
      · rename_i hmin
        split at h
        · cases h; exact .giveUp rfl
        · rename_i l he
          split at h
          · rename_i hw
            cases h; exact .committed hf hmin he hw
          · rename_i hw
            cases h; exact .commitRead hf hmin he (by omega)
      · split at h
        · cases h; exact .giveUp rfl
        · rename_i hm
          cases h
          refine .uncommitted hf ?_
          cases hmode : r.ackMode with
          | leader => rfl
          | durable => exact absurd hmode hm
  case h_5 =>
    split at h
    · cases h; exact .skip (Or.inl rfl)
    · cases h
  case h_6 =>
    split at h
    · rename_i conn' next hn
      split at h
      · cases h
      rename_i hconn
      obtain rfl := not_not.1 hconn
      split at h
      · cases h; exact .skip (Or.inr (Or.inl ⟨_, _, _, rfl⟩))
      split at h
      · rename_i hb
        cases h; exact .behind hn hb
      · rename_i hb
        cases h; exact .acked hn (by omega)
    · cases h
  case h_7 => cases h; exact .skip (Or.inr (Or.inl ⟨_, _, _, rfl⟩))
  case h_8 =>
    split at h
    · rename_i missing hr
      cases h; exact .catchUp hr
    · cases h; exact .skip (Or.inr (Or.inr ⟨_, _, rfl⟩))
  case h_9 => cases h; exact .skip (Or.inr (Or.inr ⟨_, _, rfl⟩))
  case h_10 =>
    split at h
    · rename_i ha
      cases h; exact .refused rfl ha
    · rename_i ha
      cases h
      obtain ⟨rfl, _⟩ := applyEntry_ok ha
      exact .commit ha
  case h_11 =>
    split at h
    · rename_i hl
      cases h; exact .replicaLonger hl
    · rename_i hl
      cases h; exact .replicaShorter (by omega)
  case h_12 =>
    split at h
    · cases h; exact .giveUp rfl
    · rename_i hl
      cases h
      obtain ⟨hle, rfl⟩ := RecordLog.truncateTo_ok hl
      exact .replicaTruncate hle
  case h_13 =>
    split at h
    · rename_i ha
      cases h; exact .refused rfl ha
    · rename_i ha
      cases h
      obtain ⟨rfl, _⟩ := applyEntry_ok ha
      exact .replicaAdopt ha
  case h_14 =>
    split at h
    · rename_i hl
      cases h; exact .replicaGap hl
    · rename_i hl
      cases h; exact .replicaReady (by omega)
  case h_15 =>
    split at h
    · cases h; exact .giveUp rfl
    · rename_i hs
      cases h; exact .replicaStore hs
  case h_16 =>
    split at h
    · rename_i hl
      cases h; exact .leadershipLonger hl
    · rename_i hl
      cases h; exact .leadershipShorter (by omega)
  case h_17 =>
    split at h
    · cases h; exact .giveUp rfl
    · rename_i hl
      cases h
      obtain ⟨hle, rfl⟩ := RecordLog.truncateTo_ok hl
      exact .leadershipTruncate hle
  case h_18 =>
    split at h
    · rename_i ha
      cases h; exact .refused rfl ha
    · rename_i ha
      cases h
      obtain ⟨rfl, _⟩ := applyEntry_ok ha
      exact .leadershipApply ha
  case h_19 => cases h; exact .promoteAsk
  case h_20 => cases h; exact .promoteMiss
  case h_21 =>
    split at h
    · cases h; exact .giveUp rfl
    rename_i hp
    split at h
    · cases h; exact .giveUp rfl
    split at h
    · rename_i hc
      cases h; subst hc
      exact .promoteSelf (by simpa using hp)
    · rename_i hc
      cases h
      exact .promoteOther (by simpa using hp) hc
  case h_22 =>
    split at h
    · rename_i hl
      cases h; exact .promoteLonger hl
    · rename_i hl
      cases h; exact .promoteShorter (by omega)
  case h_23 =>
    split at h
    · cases h; exact .giveUp rfl
    · rename_i hl
      cases h
      obtain ⟨hle, rfl⟩ := RecordLog.truncateTo_ok hl
      exact .promoteTruncate hle
  case h_24 =>
    split at h
    · rename_i ha
      cases h; exact .refused rfl ha
    · rename_i ha
      cases h
      obtain ⟨rfl, _⟩ := applyEntry_ok ha
      exact .promoteApply ha
  case h_25 =>
    split at h
    · cases h; exact .syncNewer
    · cases h; exact .syncOlder
  case h_26 =>
    split at h
    · rename_i ha
      cases h; exact .refused rfl ha
    · rename_i ha
      cases h
      obtain ⟨rfl, _⟩ := applyEntry_ok ha
      exact .syncApply ha
  case h_27 =>
    split at h
    · cases h; exact .giveUp rfl
    · split at h
      · cases h; exact .giveUp rfl
      · cases h; exact .recoverStart
  case h_28 =>
    split at h
    · cases h; exact .giveUp rfl
    · rename_i l he
      cases h; exact .recoverFetch he
  case h_29 =>
    split at h
    · rename_i conn' epoch records hn
      split at h
      · cases h
      rename_i hconn
      obtain rfl := not_not.1 hconn
      split at h
      · cases h; exact .giveUp rfl
      · cases h; exact .recoverAwait hn
    · cases h
  case h_30 => cases h; exact .giveUp rfl
  case h_31 =>
    split at h
    · rename_i he hs
      cases h; exact .recoverStore he hs
    · cases h; exact .giveUp rfl
  case h_32 =>
    split at h
    · cases h; exact .giveUp rfl
    · rename_i hr
      cases h; exact .fetchRead hr
  case h_33 =>
    split at h
    · cases h; exact .giveUp rfl
    · rename_i he
      cases h; exact .fetchFilter he
  case h_34 => cases h

/-! ## Actions -/

/-- The actions of the cluster, each as an effect at one broker. -/
inductive Move (cfg : ClusterConfig) (s : State) : Action → BrokerId → Effect → Prop
  | createTopic {b : BrokerId} (hb : b ∈ cfg.nodes) :
      Move cfg s (.createTopic b) b ⟨{ s.broker b with
        entry := some ((s.broker b).entry.getD (initialLeadership cfg)) }, .done, [], [], []⟩
  | produce {b : BrokerId} {request : ProduceRequest} (hb : b ∈ cfg.nodes)
      (hl : cfg.nodes.length = 1 ∨ (s.broker b).entry.map (·.leaderId) = some b) :
      Move cfg s (.produce b request) b ⟨s.broker b, .append request, [], [], []⟩
  | promote {candidate : BrokerId} {cur : PartitionLeadership}
      (he : (s.broker cfg.controller).entry = some cur) (hc : candidate ∈ cfg.replicaSet) :
      Move cfg s (.promote candidate) cfg.controller ⟨s.broker cfg.controller,
        .promoteQuery candidate cur (cfg.nodes.filter cfg.isPartitionReplica) [], [], [], []⟩
  | sync {b : BrokerId} {l : PartitionLeadership}
      (he : (s.broker cfg.controller).entry = some l) (hb : b ∈ cfg.nodes)
      (hne : b ≠ cfg.controller) :
      Move cfg s (.sync b) b ⟨s.broker b, .syncCompare l, [], [], []⟩
  | recover {b : BrokerId} (hb : b ∈ cfg.nodes) :
      Move cfg s (.recover b) b ⟨s.broker b, .recoverStart (s.broker b).log.length, [], [], []⟩
  | fetch {b : BrokerId} {offset maxBytes : Nat} (hb : b ∈ cfg.nodes) :
      Move cfg s (.fetch b offset maxBytes) b
        ⟨s.broker b, .done, [.fetch s.nextConn b offset maxBytes], [], []⟩
  | leadershipNewer {index : Nat} {dst : BrokerId} {l cur : PartitionLeadership}
      (hn : s.net[index]? = some (.applyLeadership dst l)) (he : (s.broker dst).entry = some cur)
      (hlt : cur.leaderEpoch < l.leaderEpoch) :
      Move cfg s (.deliver index) dst ⟨s.broker dst, .leadershipTail l cur, [], [], []⟩
  | leadershipOlder {index : Nat} {dst : BrokerId} {l cur : PartitionLeadership}
      (hn : s.net[index]? = some (.applyLeadership dst l)) (he : (s.broker dst).entry = some cur)
      (hle : l.leaderEpoch ≤ cur.leaderEpoch) :
      Move cfg s (.deliver index) dst ⟨s.broker dst, .leadershipApply l cur false, [], [], []⟩
  | replicateNewer {index conn : Nat} {sender dst : BrokerId} {m : ReplicateRecord}
      {cur : PartitionLeadership} (hn : s.net[index]? = some (.replicate conn sender dst m))
      (he : (s.broker dst).entry = some cur) (hlt : cur.leaderEpoch < m.leaderEpoch) :
      Move cfg s (.deliver index) dst ⟨s.broker dst, .replicaTail conn m cur, [], [], []⟩
  | replicateSame {index conn : Nat} {sender dst : BrokerId} {m : ReplicateRecord}
      {cur : PartitionLeadership} (hn : s.net[index]? = some (.replicate conn sender dst m))
      (he : (s.broker dst).entry = some cur) (heq : m.leaderEpoch = cur.leaderEpoch)
      (hid : m.leaderId = cur.leaderId) :
      Move cfg s (.deliver index) dst ⟨s.broker dst, .replicaExpected conn m, [], [], []⟩
  | serve {index conn offset maxBytes : Nat} {dst : BrokerId}
      (hn : s.net[index]? = some (.fetch conn dst offset maxBytes)) :
      Move cfg s (.deliver index) dst ⟨s.broker dst, .fetchRead conn offset maxBytes, [], [], []⟩
  | task {index : Nat} {c : Choice} {b : BrokerId} {t : Task} {e : Effect}
      (ht : s.tasks[index]? = some (b, t)) (hs : TaskStep cfg s b t c e) :
      Move cfg s (.task index c) b e
  | restart {b : BrokerId} : Move cfg s (.restart b) b ⟨s.broker b, .done, [], [], []⟩

/-- The tasks an action does not step. -/
def others (s : State) : Action → List (BrokerId × Task)
  | .task index _ => s.tasks.eraseIdx index
  | _ => s.tasks

theorem others_subset {s : State} {a : Action} : others s a ⊆ s.tasks := by
  cases a with
  | task index c => exact List.eraseIdx_subset
  | _ => exact List.Subset.refl _

/-- `s'` is `s` after the action `a`, with effect `e` at broker `b`. -/
structure Moved (s : State) (a : Action) (b : BrokerId) (e : Effect) (s' : State) : Prop where
  self : s'.broker b = e.broker
  other : ∀ i, i ≠ b → s'.broker i = s.broker i
  tasks : ∀ p ∈ s'.tasks, p ∈ others s a ∨ p = (b, e.task)
  kept : ∀ p ∈ others s a, p ∈ s'.tasks ∨ a = .restart p.1
  continued : ∀ index c, a = .task index c → (b, e.task) ∈ s'.tasks
  net : s'.net = s.net ++ e.sent
  answers : s'.answers = s.answers ++ e.answered
  elected : s'.elected = s.elected ++ e.elected
  nextConn_le : s.nextConn ≤ s'.nextConn
  nextConn_sent : e.sent ≠ [] → s.nextConn < s'.nextConn

theorem moved_spawn (s : State) {a : Action} (b : BrokerId) (t : Task) (ha : others s a = s.tasks) :
    Moved s a b ⟨s.broker b, t, [], [], []⟩ (s.spawn b t) where
  continued := fun _ _ _ => List.mem_append_right _ (List.mem_singleton.2 rfl)
  self := rfl
  other := fun _ _ => rfl
  tasks := fun p hp => by
    rw [ha]
    rcases List.mem_append.1 hp with hp | hp
    · exact Or.inl hp
    · exact Or.inr (List.mem_singleton.1 hp)
  kept := fun p hp => Or.inl (List.mem_append_left _ (ha ▸ hp))
  net := (List.append_nil _).symm
  answers := (List.append_nil _).symm
  elected := (List.append_nil _).symm
  nextConn_le := Nat.le_refl _
  nextConn_sent := fun h => absurd rfl h

theorem moved_setBroker (s : State) (b : BrokerId) (x : Broker) :
    Moved s (.createTopic b) b ⟨x, .done, [], [], []⟩ (s.setBroker b x) where
  self := if_pos rfl
  other := fun _ hi => if_neg hi
  tasks := fun _ hp => Or.inl hp
  kept := fun _ hp => Or.inl hp
  continued := fun _ _ h => by cases h
  net := (List.append_nil _).symm
  answers := (List.append_nil _).symm
  elected := (List.append_nil _).symm
  nextConn_le := Nat.le_refl _
  nextConn_sent := fun h => absurd rfl h

theorem moved_install {s : State} {b : BrokerId} {index : Nat} {t : Task}
    (ht : s.tasks[index]? = some (b, t)) (c : Choice) (e : Effect) :
    Moved s (.task index c) b e (s.install b index e) where
  continued := fun _ _ _ =>
    List.mem_set (List.getElem?_eq_some_iff.1 ht).1 (b, e.task)
  self := if_pos rfl
  other := fun _ hi => if_neg hi
  tasks := fun p hp => by
    obtain ⟨i, hi⟩ := List.mem_iff_getElem?.1 hp
    by_cases hidx : i = index
    · subst hidx
      simp only [State.install, List.getElem?_set_self'] at hi
      cases ht : s.tasks[i]? with
      | none => rw [ht] at hi; cases hi
      | some q => rw [ht] at hi; cases hi; exact Or.inr rfl
    · simp only [State.install, List.getElem?_set_ne (Ne.symm hidx)] at hi
      exact Or.inl (List.mem_eraseIdx_iff_getElem?.2 ⟨i, hidx, hi⟩)
  kept := fun p hp => by
    obtain ⟨i, hidx, hi⟩ := List.mem_eraseIdx_iff_getElem?.1 hp
    refine Or.inl (List.mem_iff_getElem?.2 ⟨i, ?_⟩)
    simp only [State.install, List.getElem?_set_ne (Ne.symm hidx), hi]
  net := rfl
  answers := rfl
  elected := rfl
  nextConn_le := Nat.le_succ _
  nextConn_sent := fun _ => Nat.lt_succ_self _

theorem moved_restart (s : State) (b : BrokerId) :
    Moved s (.restart b) b ⟨s.broker b, .done, [], [], []⟩ (s.restart b) where
  self := rfl
  other := fun _ _ => rfl
  tasks := fun p hp => by
    obtain ⟨q, hq, rfl⟩ := List.mem_map.1 hp
    split
    · exact Or.inr rfl
    · exact Or.inl hq
  kept := fun p hp => by
    by_cases hb : p.1 = b
    · exact Or.inr (by rw [hb])
    · exact Or.inl (List.mem_map.2 ⟨p, hp, if_neg hb⟩)
  continued := fun _ _ h => by cases h
  net := (List.append_nil _).symm
  answers := (List.append_nil _).symm
  elected := (List.append_nil _).symm
  nextConn_le := Nat.le_refl _
  nextConn_sent := fun h => absurd rfl h

theorem moved_fetch (s : State) (b : BrokerId) (offset maxBytes : Nat) :
    Moved s (.fetch b offset maxBytes) b
      ⟨s.broker b, .done, [.fetch s.nextConn b offset maxBytes], [], []⟩
      { s with
        net := s.net ++ [.fetch s.nextConn b offset maxBytes]
        nextConn := s.nextConn + 1 } where
  self := rfl
  other := fun _ _ => rfl
  tasks := fun _ hp => Or.inl hp
  kept := fun _ hp => Or.inl hp
  continued := fun _ _ h => by cases h
  net := rfl
  answers := (List.append_nil _).symm
  elected := (List.append_nil _).symm
  nextConn_le := Nat.le_succ _
  nextConn_sent := fun _ => Nat.lt_succ_self _

/-- A delivered message starts one of the handlers, with the registry check of its branch. -/
theorem receive_move {s : State} {index : Nat} {m : Message} {b : BrokerId} {t : Task}
    (hn : s.net[index]? = some m) (h : receive cfg s m = some (b, t)) :
    Move cfg s (.deliver index) b ⟨s.broker b, t, [], [], []⟩ := by
  unfold receive at h
  split at h
  · split at h
    · cases h
    · rename_i he
      split at h
      · rename_i hlt
        cases h; exact .leadershipNewer hn he hlt
      · rename_i hlt
        cases h; exact .leadershipOlder hn he (Nat.le_of_not_lt hlt)
  · split at h
    · cases h
    · rename_i _ _ _ m _ cur he
      split at h
      · cases h
      · rename_i hst
        obtain ⟨h1, h2⟩ := not_or.1 hst
        split at h
        · rename_i hlt
          cases h; exact .replicateNewer hn he hlt
        · rename_i hlt
          have heq : m.leaderEpoch = cur.leaderEpoch := by omega
          cases h; exact .replicateSame hn he heq (not_not.1 (not_and.1 h2 heq))
  · split at h
    · cases h; exact .serve hn
    · cases h
  · cases h
  · cases h

/-- **Every cluster step is the effect of one of the listed moves.** -/
theorem step_move {s s' : State} {a : Action} (h : step cfg s a = some s') :
    ∃ b e, Move cfg s a b e ∧ Moved s a b e s' := by
  cases a with
  | createTopic b =>
    simp only [step] at h
    split at h
    · rename_i hb
      cases h; exact ⟨b, _, .createTopic hb, moved_setBroker s b _⟩
    · cases h
  | produce b request =>
    simp only [step] at h
    split at h
    · rename_i hb
      cases h; exact ⟨b, _, .produce hb.1 hb.2, moved_spawn s b _ rfl⟩
    · cases h
  | promote candidate =>
    simp only [step] at h
    split at h
    · cases h
    · rename_i cur he
      split at h
      · rename_i hc
        cases h; exact ⟨_, _, .promote he (by simpa [ClusterConfig.isPartitionReplica] using hc),
          moved_spawn s _ _ rfl⟩
      · cases h
  | sync b =>
    simp only [step] at h
    split at h
    · cases h
    · rename_i l he
      split at h
      · rename_i hb
        cases h; exact ⟨b, _, .sync he hb.1 hb.2, moved_spawn s b _ rfl⟩
      · cases h
  | recover b =>
    simp only [step] at h
    split at h
    · rename_i hb
      cases h; exact ⟨b, _, .recover hb, moved_spawn s b _ rfl⟩
    · cases h
  | fetch b offset maxBytes =>
    simp only [step] at h
    split at h
    · rename_i hb
      cases h; exact ⟨b, _, .fetch hb, moved_fetch s b offset maxBytes⟩
    · cases h
  | deliver index =>
    simp only [step] at h
    split at h
    · cases h
    · rename_i m hn
      split at h
      · cases h
      · rename_i b t hr
        cases h; exact ⟨b, _, receive_move hn hr, moved_spawn s b t rfl⟩
  | task index c =>
    simp only [step] at h
    split at h
    · cases h
    · rename_i b t ht
      split at h
      · cases h
      · rename_i e he
        cases h; exact ⟨b, e, .task ht (taskStep_cases he), moved_install ht c e⟩
  | restart b =>
    cases h; exact ⟨b, _, .restart, moved_restart s b⟩

/-- The task an action steps, unless its await fails. -/
def stepped (s : State) : Action → Option (BrokerId × Task)
  | .task _ .fail => none
  | .task index _ => s.tasks[index]?
  | _ => none

/-- A task is stepped by the action or left alone. -/
theorem mem_tasks_cases {s : State} {p : BrokerId × Task} (a : Action) (h : p ∈ s.tasks) :
    p ∈ others s a ∨ ∃ index c, a = .task index c ∧ s.tasks[index]? = some p := by
  cases a with
  | task index c =>
    obtain ⟨i, hi⟩ := List.mem_iff_getElem?.1 h
    by_cases hidx : i = index
    · subst hidx; exact Or.inr ⟨i, c, rfl, hi⟩
    · exact Or.inl (List.mem_eraseIdx_iff_getElem?.2 ⟨i, hidx, hi⟩)
  | _ => exact Or.inl h

theorem stepped_go {s : State} {index : Nat} {p : BrokerId × Task}
    (h : s.tasks[index]? = some p) : stepped s (.task index .go) = some p := h

/-! ## Entries only grow -/

/-- A later entry of the same broker: newer, or the same epoch and leader with a high watermark
at least as high. -/
def EntryGrows (x y : Option PartitionLeadership) : Prop :=
  ∀ l, x = some l → ∃ l', y = some l' ∧ (l.leaderEpoch < l'.leaderEpoch ∨
    (l.leaderEpoch = l'.leaderEpoch ∧ l.leaderId = l'.leaderId ∧
      l.highWatermark ≤ l'.highWatermark))

theorem EntryGrows.refl (x : Option PartitionLeadership) : EntryGrows x x :=
  fun l hl => ⟨l, hl, Or.inr ⟨rfl, rfl, Nat.le_refl _⟩⟩

theorem EntryGrows.trans {x y z : Option PartitionLeadership} (h : EntryGrows x y)
    (h' : EntryGrows y z) : EntryGrows x z := by
  intro l hl
  obtain ⟨l₁, hl₁, hcase⟩ := h l hl
  obtain ⟨l₂, hl₂, hcase'⟩ := h' l₁ hl₁
  refine ⟨l₂, hl₂, ?_⟩
  obtain hlt | ⟨he, hid, hw⟩ := hcase
  · exact Or.inl (by omega)
  · obtain hlt' | ⟨he', hid', hw'⟩ := hcase'
    · exact Or.inl (by omega)
    · exact Or.inr ⟨he.trans he', hid.trans hid', Nat.le_trans hw hw'⟩

theorem EntryGrows.getD (x : Option PartitionLeadership) (l : PartitionLeadership) :
    EntryGrows x (some (x.getD l)) := fun c hc => by
  subst hc; exact EntryGrows.refl _ c rfl

theorem EntryGrows.apply {x : Option PartitionLeadership} {l : PartitionLeadership}
    (h : applyEntry cfg x l = .ok l) : EntryGrows x (some l) :=
  fun c hc => ⟨l, rfl, (applyEntry_ok h).2.2 c hc⟩

theorem EntryGrows.epochOf_le {x y : Option PartitionLeadership} (h : EntryGrows x y) :
    epochOf x ≤ epochOf y := by
  cases x with
  | none => exact Nat.zero_le _
  | some l =>
    obtain ⟨l', rfl, hl⟩ := h l rfl
    rw [epochOf_some, epochOf_some]
    omega

/-- An entry never goes away. -/
theorem EntryGrows.none {x y : Option PartitionLeadership} (h : EntryGrows x y) (hy : y = none) :
    x = none := by
  cases x with
  | none => rfl
  | some l =>
    obtain ⟨_, hl, _⟩ := h l rfl
    rw [hy] at hl
    cases hl

theorem Move.entryGrows {s : State} {a : Action} {b : BrokerId} {e : Effect}
    (hm : Move cfg s a b e) : EntryGrows (s.broker b).entry e.broker.entry := by
  cases hm with
  | createTopic => exact .getD _ _
  | task ht hs =>
    cases hs with
    | commit ha => exact .apply ha
    | replicaAdopt ha => exact .apply ha
    | leadershipApply ha => exact .apply ha
    | promoteApply ha => exact .apply ha
    | syncApply ha => exact .apply ha
    | syncNewer => exact .getD _ _
    | syncOlder => exact .getD _ _
    | _ => exact .refl _
  | _ => exact .refl _

/-- The tasks of the brokers that do not act go on. -/
theorem Move.keeps_other {s s' : State} {a : Action} {b : BrokerId} {e : Effect}
    (hm : Move cfg s a b e) (hmv : Moved s a b e s') {i : BrokerId} {t : Task} (hi : i ≠ b)
    (ht : (i, t) ∈ s.tasks) : (i, t) ∈ s'.tasks := by
  obtain hin | ⟨index, c, rfl, hidx⟩ := mem_tasks_cases a ht
  · obtain hin | rfl := hmv.kept _ hin
    · exact hin
    · cases hm; exact absurd rfl hi
  · cases hm with
    | task ht' =>
      rw [hidx] at ht'
      cases ht'; exact absurd rfl hi

theorem Moved.entryGrows {s s' : State} {b : BrokerId} {e : Effect} {a : Action} (h : Moved s a b e s')
    (hg : EntryGrows (s.broker b).entry e.broker.entry) (i : BrokerId) :
    EntryGrows (s.broker i).entry (s'.broker i).entry := by
  by_cases hi : i = b
  · subst hi; rw [h.self]; exact hg
  · rw [h.other i hi]; exact .refl _

/-! ## Invariants made of local predicates -/

/-- A predicate on every broker, every task and every message. -/
structure Sound (B : BrokerId → Broker → Prop) (T : BrokerId → Task → Prop) (M : Message → Prop)
    (s : State) : Prop where
  brokers : ∀ i, B i (s.broker i)
  tasks : ∀ p ∈ s.tasks, T p.1 p.2
  net : ∀ m ∈ s.net, M m

theorem Sound.message {B : BrokerId → Broker → Prop} {T : BrokerId → Task → Prop}
    {M : Message → Prop} {s : State} (h : Sound B T M s) {index : Nat} {m : Message}
    (hn : s.net[index]? = some m) : M m := h.net m (List.mem_of_getElem? hn)

theorem Sound.task {B : BrokerId → Broker → Prop} {T : BrokerId → Task → Prop}
    {M : Message → Prop} {s : State} (h : Sound B T M s) {index : Nat} {b : BrokerId} {t : Task}
    (ht : s.tasks[index]? = some (b, t)) : T b t := h.tasks (b, t) (List.mem_of_getElem? ht)

/-- **Preservation at the acting broker.**  The predicates may change from `B, T, M` to
`B', T', M'` if what held before still holds in the new sense. -/
theorem Sound.moved {B B' : BrokerId → Broker → Prop} {T T' : BrokerId → Task → Prop}
    {M M' : Message → Prop} {s s' : State} {a : Action} {b : BrokerId} {e : Effect}
    (h : Sound B T M s) (hm : Moved s a b e s') (hB : ∀ i, i ≠ b → B i (s.broker i) → B' i (s.broker i))
    (hT : ∀ i t, (i, t) ∈ others s a → T i t → T' i t) (hM : ∀ m, M m → M' m)
    (hb : B' b e.broker) (ht : T' b e.task) (hs : ∀ m ∈ e.sent, M' m) : Sound B' T' M' s' where
  brokers := fun i => by
    by_cases hi : i = b
    · subst hi; rw [hm.self]; exact hb
    · rw [hm.other i hi]; exact hB i hi (h.brokers i)
  tasks := fun p hp => by
    rcases hm.tasks p hp with hp | rfl
    · exact hT _ _ hp (h.tasks p (others_subset hp))
    · exact ht
  net := fun m hmem => by
    rw [hm.net] at hmem
    rcases List.mem_append.1 hmem with hmem | hmem
    · exact hM m (h.net m hmem)
    · exact hs m hmem

end SevlaMq.Cluster
