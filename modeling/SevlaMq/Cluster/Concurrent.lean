import SevlaMq.Cluster.Completion

/-!
# Concurrent durable produces

Each request pushes its own record to the followers, while the other requests push theirs.
`replicate_to_follower` takes a first acknowledgement beyond the record for a corrupt answer, and
`commit` applies a watermark it has computed from an entry read before.  Both refuse requests on a
healthy partition when the records of other requests get ahead.

* `fails` — the step ends a durable request without acknowledging its records.
* `followerAheadRun`, `staleCommitRun` — two requests on a healthy partition, one of them refused.
* `InOrder` — the follower has no record beyond the one it is offered first, and a commit does not
  lower the watermark.
* `concurrent_durable_in_order` — in every run in order each durable request that ends is
  acknowledged, and no request is stuck.
-/

set_option autoImplicit false

namespace SevlaMq.Cluster

open SevlaMq.Storage

variable {cfg : ClusterConfig} {leader : BrokerId} {epoch : Nat}

/-! ## Refused requests -/

def Replication.records (r : Replication) : List FetchedRecord :=
  r.finished ++ r.current.record :: r.rest.map (·.record)

/-- The records a durable request has to acknowledge, once they are in the leader's log. -/
def Task.durable : Task → Option (List FetchedRecord)
  | .readBack .durable _ jobs => some (jobs.map (·.record))
  | .contact r => if r.ackMode = .durable then some r.records else none
  | .awaitAck r _ _ _ => if r.ackMode = .durable then some r.records else none
  | .catchUp r _ _ => if r.ackMode = .durable then some r.records else none
  | .commitApply r _ => if r.ackMode = .durable then some r.records else none
  | _ => none

/-- The effect ends the request without a `ProduceAck` for its records. -/
def Effect.refuses (e : Effect) (records : List FetchedRecord) : Bool :=
  e.task = .done && (records = [] || e.answered.map (·.record) ≠ records)

/-- The step ends a durable request without acknowledging it. -/
def fails (cfg : ClusterConfig) (s : State) : Action → Bool
  | .task index c =>
    s.tasks[index]?.any fun p =>
      p.2.durable.any fun records => (taskStep cfg s p.1 p.2 c).any fun e => e.refuses records
  | _ => false

theorem healthy_epochStart (h : leader ∈ cfg.replicaSet) :
    Healthy cfg leader epoch (State.epochStart cfg leader epoch) where
  replica := h
  entries := fun b hb => OneEpoch.start.node_entry hb
  inEpoch := fun b l hl => OneEpoch.start.entry_inEpoch hl
  logs := fun _ => List.prefix_rfl
  checked := fun r hr => by cases hr
  tasks := rfl
  net := rfl
  answers := rfl

/-- Two requests are appended; the second is replicated first and brings both followers to the end
of the log.  The first request then finds them ahead of its record. -/
def followerAheadRun : List Action :=
  [.produce 2 (oneRecord 7 .durable), .produce 2 (oneRecord 8 .durable),
    .task 0 (.stamp [5]), .task 1 (.stamp [6]), .task 1 .go, .task 1 .go,
    -- the second request and broker 3
    .task 1 .go, .deliver 0, .task 2 .go, .task 1 (.receive 1), .task 1 .go,
    .deliver 2, .task 3 .go, .task 3 .go, .task 1 (.receive 3), .task 1 .go,
    .deliver 4, .task 4 .go, .task 4 .go, .task 1 (.receive 5),
    -- the second request and broker 1
    .task 1 .go, .deliver 6, .task 5 .go, .task 1 (.receive 7), .task 1 .go,
    .deliver 8, .task 6 .go, .task 6 .go, .task 1 (.receive 9), .task 1 .go,
    .deliver 10, .task 7 .go, .task 7 .go, .task 1 (.receive 11),
    -- the first request
    .task 0 .go, .task 0 .go, .task 0 .go, .deliver 12, .task 8 .go, .task 8 .go,
    .task 0 (.receive 13), .task 0 .go, .deliver 14, .task 9 .go, .task 9 .go,
    .task 0 (.receive 15), .task 0 .go]

/-- **A durable request is refused on a healthy partition** because its followers are ahead. -/
theorem durable_refused_when_overtaken :
    Healthy threeNodes 2 4 (State.epochStart threeNodes 2 4) ∧ (∀ a ∈ followerAheadRun, Calm a) ∧
    (run (step threeNodes) (State.epochStart threeNodes 2 4) followerAheadRun).isSome ∧
    ¬ Along (step threeNodes) (fun s a => fails threeNodes s a = false)
      (State.epochStart threeNodes 2 4) followerAheadRun :=
  ⟨healthy_epochStart (by decide), by decide, by decide +kernel, by decide +kernel⟩

/-- Both requests are replicated in order; the second commits between the two halves of the first
one's commit. -/
def staleCommitRun : List Action :=
  [.produce 2 (oneRecord 7 .durable), .produce 2 (oneRecord 8 .durable),
    .task 0 (.stamp [5]), .task 1 (.stamp [6]), .task 0 .go, .task 0 .go, .task 1 .go, .task 1 .go,
    -- the first request up to its commit
    .task 0 .go, .deliver 0, .task 2 .go, .task 2 .go, .task 0 (.receive 1),
    .task 0 .go, .deliver 2, .task 3 .go, .task 3 .go, .task 0 (.receive 3), .task 0 .go,
    -- the second request
    .task 1 .go, .deliver 4, .task 4 .go, .task 4 .go, .task 1 (.receive 5),
    .task 1 .go, .deliver 6, .task 5 .go, .task 5 .go, .task 1 (.receive 7), .task 1 .go,
    .task 1 .go,
    .task 0 .go]

theorem durable_refused_by_stale_commit : (∀ a ∈ staleCommitRun, Calm a) ∧
    (run (step threeNodes) (State.epochStart threeNodes 2 4) staleCommitRun).isSome ∧
    ¬ Along (step threeNodes) (fun s a => fails threeNodes s a = false)
      (State.epochStart threeNodes 2 4) staleCommitRun :=
  ⟨by decide, by decide +kernel, by decide +kernel⟩

/-! ## The condition on a step -/

/-- A durable request waits on `conn` for the first acknowledgement of its record. -/
def Task.awaitsFirst (conn : Nat) : Task → Bool
  | .awaitAck r _ conn' first => r.ackMode = .durable && first && conn' = conn
  | _ => false

/-- A follower stores a record a durable request has sent first only as its last record, and a
durable request does not lower the watermark. -/
def Task.inOrder (cfg : ClusterConfig) (s : State) (b : BrokerId) : Task → Bool
  | .replicaStore conn m => cfg.minInSyncReplicas ≤ 1 || !(s.tasks.any (·.2.awaitsFirst conn)) ||
      (s.broker b).log.length ≤ m.record.offset + 1
  | .commitApply r l => r.ackMode = .leader || (s.broker b).highWatermark ≤ l.highWatermark
  | _ => true

def InOrder (cfg : ClusterConfig) (s : State) (a : Action) : Prop :=
  ∀ p ∈ stepped s a, p.2.inOrder cfg s p.1

instance (s : State) (a : Action) : Decidable (InOrder cfg s a) :=
  inferInstanceAs (Decidable (∀ p ∈ stepped s a, p.2.inOrder cfg s p.1))

/-! ## The invariant -/

/-- Where acknowledgements of followers are needed, no follower was given up. -/
def Replication.Full (cfg : ClusterConfig) (leader : BrokerId) (r : Replication) : Prop :=
  r.ackMode = .durable → 1 < cfg.minInSyncReplicas →
    r.acked.map (·.follower) ++ r.followers = cfg.replicaFollowers leader

/-- What keeps a durable request from being refused. -/
def Task.Ordered (cfg : ClusterConfig) (leader : BrokerId) (s : State) : Task → Prop
  | .append request => request.inputs ≠ []
  | .readBack _ offsets jobs => offsets ≠ [] ∨ jobs ≠ []
  | .contact r => r.Full cfg leader
  | .awaitAck r _ conn first => r.Full cfg leader ∧
      (r.ackMode = .durable → 1 < cfg.minInSyncReplicas → first = true → ∀ next,
        Message.replicateAck conn next ∈ s.net → next ≤ r.current.record.offset + 1)
  | .catchUp r _ _ => r.Full cfg leader
  | _ => True

/-- **The invariant of runs in order.** -/
structure Ordered (cfg : ClusterConfig) (leader : BrokerId) (epoch : Nat) (s : State) : Prop where
  serving : Serving cfg leader epoch s
  tasks : ∀ p ∈ s.tasks, p.2.Ordered cfg leader s

theorem Healthy.ordered {s : State} (h : Healthy cfg leader epoch s) :
    Ordered cfg leader epoch s where
  serving := h.serving
  tasks := fun p hp => by
    rw [h.tasks] at hp
    cases hp

/-- The step of a durable request goes on in order, and ends only with the acknowledgement. -/
structure GoesOn (cfg : ClusterConfig) (leader : BrokerId) (s : State) (t : Task) (e : Effect) :
    Prop where
  ordered : ∀ s' : State, s'.net = s.net ++ e.sent → e.task.Ordered cfg leader s'
  answered : ∀ records ∈ t.durable, e.refuses records = false

namespace Ordered

variable {s s' : State} {t : Task} {e : Effect} {r : Replication} {l : PartitionLeadership}

theorem finish_ordered (r : Replication) :
    (finishRecord cfg leader r).1.Ordered cfg leader s := by
  unfold finishRecord
  split
  · exact fun _ _ => rfl
  · trivial

/-- A finished record is followed by the next one, or the whole request is acknowledged. -/
theorem finish_answered (x : Broker) (sent : List Message) (hd : r.ackMode = .durable) :
    Effect.refuses ⟨x, (finishRecord cfg leader r).1, sent, (finishRecord cfg leader r).2, []⟩
      r.records = false := by
  unfold Effect.refuses finishRecord Replication.records
  cases r.rest with
  | nil => simp [hd, Function.comp_def]
  | cons job rest => simp

theorem durable_records {records : List FetchedRecord}
    (h : records ∈ if r.ackMode = .durable then some r.records else none) :
    r.ackMode = .durable ∧ records = r.records := by
  split at h
  · rename_i hd
    cases h
    exact ⟨hd, rfl⟩
  · cases h

theorem finish_goesOn (x : Broker) (sent : List Message)
    (ht : t.durable = if r.ackMode = .durable then some r.records else none) :
    GoesOn cfg leader s t
      ⟨x, (finishRecord cfg leader r).1, sent, (finishRecord cfg leader r).2, []⟩ := by
  refine ⟨fun s' _ => finish_ordered r, fun records hrecords => ?_⟩
  rw [ht] at hrecords
  obtain ⟨hd, rfl⟩ := durable_records hrecords
  exact finish_answered x sent hd

/-- A step that does not end the request. -/
theorem goesOn {x : Broker} {t' : Task} {sent : List Message} {answered : List Answer}
    (ho : ∀ s' : State, s'.net = s.net ++ sent → t'.Ordered cfg leader s') (hne : t' ≠ .done) :
    GoesOn cfg leader s t ⟨x, t', sent, answered, []⟩ := by
  refine ⟨ho, fun records _ => ?_⟩
  simp [Effect.refuses, hne]

theorem append_step {request : ProduceRequest} {c : Choice} (hn : request.inputs ≠ [])
    (hs : taskStep cfg s leader (.append request) c = some e) :
    GoesOn cfg leader s (.append request) e := by
  refine ⟨?_, fun _ h => by cases h⟩
  intro s' _
  cases c with
  | stamp timestamps =>
    simp only [taskStep] at hs
    split at hs
    · cases hs
    · rename_i hlen
      split at hs
      · rename_i offsets log happ
        cases hs
        have hoffsets := (appendInputs_offsets happ).1
        rw [List.length_zip, not_not.1 hlen, Nat.min_self] at hoffsets
        have hpos := List.length_pos_iff.2 hn
        exact Or.inl (List.length_pos_iff.1 (hoffsets ▸ hpos))
      · cases hs
        trivial
  | _ => cases hs

theorem readBack_step (h : Ordered cfg leader epoch s) {ackMode : AckMode} {offsets : List Nat}
    {jobs : List Job} {c : Choice} (hmem : (leader, .readBack ackMode offsets jobs) ∈ s.tasks)
    (hs : taskStep cfg s leader (.readBack ackMode offsets jobs) c = some e) :
    GoesOn cfg leader s (.readBack ackMode offsets jobs) e := by
  cases c with
  | go =>
    cases offsets with
    | cons offset offsets =>
      have hlt : offset < (s.broker leader).log.length :=
        h.serving.tasks _ hmem offset List.mem_cons_self
      simp only [taskStep, List.getElem?_eq_getElem hlt] at hs
      cases hs
      exact goesOn (fun s' _ => Or.inr (by simp)) (by simp)
    | nil =>
      obtain hno | hjobs := h.tasks _ hmem
      · exact absurd rfl hno
      · obtain ⟨job, rest, rfl⟩ := List.exists_cons_of_ne_nil hjobs
        cases hs
        exact goesOn (fun s' _ _ _ => rfl) (by simp)
  | _ => cases offsets <;> cases hs

/-- A replication that counted every follower has enough acknowledgements. -/
theorem enough (hleader : leader ∈ cfg.replicaSet) (hf : r.followers = [])
    (hfull : r.Full cfg leader) (hd : r.ackMode = .durable) :
    cfg.minInSyncReplicas ≤ r.acknowledgements := by
  unfold Replication.acknowledgements
  by_cases hmin : 1 < cfg.minInSyncReplicas
  · have hall := hfull hd hmin
    rw [hf, List.append_nil] at hall
    have hlen : r.acked.length = (cfg.replicaFollowers leader).length := by
      rw [← hall, List.length_map]
    have hsize := cfg.replicaFollowers_length hleader
    have := cfg.min_le
    omega
  · omega

theorem contact_step (h : Ordered cfg leader epoch s) {c : Choice} (hc : c ≠ .fail)
    (hmem : (leader, .contact r) ∈ s.tasks) (hs : taskStep cfg s leader (.contact r) c = some e) :
    GoesOn cfg leader s (.contact r) e := by
  have hfull : r.Full cfg leader := h.tasks _ hmem
  obtain ⟨l, hl⟩ := h.serving.oneEpoch.node_entry (cfg.replicaSet_subset h.serving.replica)
  cases c with
  | go =>
    cases hf : r.followers with
    | cons f fs =>
      simp only [taskStep, hf, hl] at hs
      cases hs
      refine goesOn (fun s' hnet => ⟨hfull, fun _ _ _ next hack => ?_⟩) (by simp)
      rw [hnet] at hack
      -- nothing has been answered on a connection that is opened now
      rcases List.mem_append.1 hack with hold | hnew
      · obtain ⟨dst, ⟨sender, m, hmsg⟩, _⟩ := h.serving.oneEpoch.sound.net _ hold
        exact absurd (h.serving.oneEpoch.sound.net _ hmsg).2 (Nat.lt_irrefl _)
      · cases List.mem_singleton.1 hnew
    | nil =>
      simp only [taskStep, hf, hl] at hs
      split at hs
      · split at hs
        · cases hs
          exact finish_goesOn _ _ rfl
        · cases hs
          exact goesOn (fun _ _ => trivial) (by simp)
      · rename_i hmin
        have hd : r.ackMode ≠ .durable := fun hd =>
          hmin (enough h.serving.replica hf hfull hd)
        rw [if_neg hd] at hs
        cases hs
        exact finish_goesOn _ _ rfl
  | fail => exact absurd rfl hc
  | _ => cases hs

theorem awaitAck_step (h : Ordered cfg leader epoch s) {c : Choice} (hc : c ≠ .fail) {conn : Nat}
    {first : Bool} (hmem : (leader, .awaitAck r l conn first) ∈ s.tasks)
    (hs : taskStep cfg s leader (.awaitAck r l conn first) c = some e) :
    GoesOn cfg leader s (.awaitAck r l conn first) e := by
  obtain ⟨hfull, hbound⟩ := h.tasks _ hmem
  have hfollowers := (h.serving.oneEpoch.sound.tasks _ hmem).2.2.2.1
  cases c with
  | receive index =>
    simp only [taskStep] at hs
    split at hs
    · rename_i conn' next hn
      split at hs
      · cases hs
      · rename_i hconn
        obtain rfl := not_not.1 hconn
        split at hs
        · rename_i hahead
          cases hs
          refine goesOn (fun s' _ hd hmin => ?_) (by simp)
          have := hbound hd hmin hahead.1 next (List.mem_of_getElem? hn)
          omega
        · split at hs
          · cases hs
            exact goesOn (fun s' _ => hfull) (by simp)
          · cases hs
            refine goesOn (fun s' _ hd hmin => ?_) (by simp)
            obtain ⟨f, fs, hfs⟩ := List.exists_cons_of_ne_nil hfollowers
            rw [← hfull hd hmin]
            simp [Replication.ack, hfs]
    · cases hs
  | fail => exact absurd rfl hc
  | _ => cases hs

theorem catchUp_step (h : Ordered cfg leader epoch s) {c : Choice} (hc : c ≠ .fail) {next : Nat}
    (hmem : (leader, .catchUp r l next) ∈ s.tasks)
    (hs : taskStep cfg s leader (.catchUp r l next) c = some e) :
    GoesOn cfg leader s (.catchUp r l next) e := by
  have hfull : r.Full cfg leader := h.tasks _ hmem
  cases c with
  | go =>
    have hle : next ≤ r.current.record.offset := h.serving.tasks _ hmem
    have hheld := ((h.serving.oneEpoch.sound.tasks _ hmem).2.1.jobs _ List.mem_cons_self).lt
    rw [contents_length] at hheld
    simp only [taskStep, List.getElem?_eq_getElem (Nat.lt_of_le_of_lt hle hheld)] at hs
    cases hs
    exact goesOn (fun s' _ => ⟨hfull, fun _ _ hno => by cases hno⟩) (by simp)
  | fail => exact absurd rfl hc
  | _ => cases hs

theorem commitApply_step (h : Ordered cfg leader epoch s) {c : Choice}
    (hmem : (leader, .commitApply r l) ∈ s.tasks)
    (hq : (Task.commitApply r l).inOrder cfg s leader)
    (hs : taskStep cfg s leader (.commitApply r l) c = some e) :
    GoesOn cfg leader s (.commitApply r l) e := by
  obtain ⟨_, _, hl, _⟩ := h.serving.oneEpoch.sound.tasks _ hmem
  obtain ⟨cur, hcur⟩ := h.serving.oneEpoch.node_entry (cfg.replicaSet_subset h.serving.replica)
  have hin := h.serving.oneEpoch.entry_inEpoch hcur
  have hnode : l.leaderId ∈ cfg.nodes := hl.leaderId ▸ cfg.replicaSet_subset h.serving.replica
  cases c with
  | go =>
    simp only [taskStep] at hs
    split at hs
    · rename_i err herr
      cases hs
      refine ⟨fun s' _ => trivial, fun records hrecords => ?_⟩
      obtain ⟨hd, rfl⟩ := durable_records hrecords
      simp only [Task.inOrder, hd, Broker.highWatermark_eq hcur, Bool.or_eq_true, decide_eq_true_eq,
        reduceCtorEq, false_or] at hq
      rw [hcur, applyEntry_raised hnode (hl.leaderEpoch.trans hin.leaderEpoch.symm)
        (hl.leaderId.trans hin.leaderId.symm) hq] at herr
      cases herr
    · cases hs
      exact finish_goesOn _ _ rfl
  | _ => cases hs

/-- **Every step of a produce request in order** keeps the order and refuses nothing. -/
theorem produce_step (h : Ordered cfg leader epoch s) {index : Nat} {c : Choice} {b : BrokerId}
    (hc : c ≠ .fail) (ht : s.tasks[index]? = some (b, t)) (hq : t.inOrder cfg s b) (hp : t.produces)
    (hs : taskStep cfg s b t c = some e) : GoesOn cfg leader s t e := by
  have hmem := List.mem_of_getElem? ht
  have hin := h.serving.oneEpoch.sound.tasks _ hmem
  cases t with
  | append =>
    obtain rfl : b = leader := hin
    exact append_step (h.tasks _ hmem) hs
  | readBack =>
    obtain ⟨rfl, _⟩ := hin
    exact h.readBack_step hmem hs
  | contact =>
    obtain ⟨rfl, _⟩ := hin
    exact h.contact_step hc hmem hs
  | awaitAck =>
    obtain ⟨rfl, _⟩ := hin
    exact h.awaitAck_step hc hmem hs
  | catchUp =>
    obtain ⟨rfl, _⟩ := hin
    exact h.catchUp_step hc hmem hs
  | commitApply =>
    obtain ⟨rfl, _⟩ := hin
    exact h.commitApply_step hmem hq hs
  | _ => cases hp

/-- The other tasks do not become produce requests. -/
theorem other_step {c : Choice} {b : BrokerId} (hs : TaskStep cfg s b t c e)
    (hp : t.produces = false) : e.task.Ordered cfg leader s' := by
  cases hs with
  | skip ht => rcases ht with rfl | ⟨l, conn, first, rfl⟩ | ⟨l, next, rfl⟩ <;> cases hp
  | recoverStore => split <;> trivial
  | append | readBack | dispatch | contact | committed | commitRead | uncommitted => cases hp
  | behind | acked | catchUp | commit => cases hp
  | _ => trivial

/-- What is answered to a durable request that waits for its first acknowledgement. -/
theorem sent_bounded (h : Ordered cfg leader epoch s) {a : Action} {b : BrokerId}
    (hm : Move cfg s a b e) (hq : InOrder cfg s a) {conn : Nat}
    (hmem : (leader, .awaitAck r l conn true) ∈ s.tasks) (hd : r.ackMode = .durable)
    (hmin : 1 < cfg.minInSyncReplicas) {next : Nat}
    (hack : Message.replicateAck conn next ∈ e.sent) : next ≤ r.current.record.offset + 1 := by
  obtain ⟨m₀, _, hrecord, huniq⟩ := h.serving.tasks _ hmem
  cases hm with
  | fetch => cases List.mem_singleton.1 hack
  | task ht hs =>
    have hserving := h.serving.tasks _ (List.mem_of_getElem? ht)
    cases hs with
    | contact | catchUp | recoverFetch | fetchFilter => cases List.mem_singleton.1 hack
    | commit | promoteApply =>
      obtain ⟨_, _, hx⟩ := List.mem_map.1 hack
      cases hx
    | replicaGap hl =>
      cases List.mem_singleton.1 hack
      obtain ⟨sender, hmsg⟩ := hserving
      rw [huniq _ _ _ hmsg, hrecord rfl] at hl
      omega
    | @replicaStore conn' m offset log hst =>
      cases List.mem_singleton.1 hack
      obtain ⟨sender, hmsg⟩ := hserving
      have horder : (Task.replicaStore conn m).inOrder cfg s b := hq _ (stepped_go ht)
      have hawaits : s.tasks.any (·.2.awaitsFirst conn) = true :=
        List.any_eq_true.2 ⟨_, hmem, by simp [Task.awaitsFirst, hd]⟩
      have hlen : (s.broker b).log.length ≤ m.record.offset + 1 := by
        simp only [Task.inOrder, hawaits, Bool.not_true, Bool.or_false, Bool.or_eq_true,
          decide_eq_true_eq] at horder
        omega
      rw [huniq _ _ _ hmsg, hrecord rfl] at hlen hst
      rcases appendReplica_contents hst with rfl | ⟨hend, rfl⟩
      · exact hlen
      · rw [List.length_append, ← hend]
        exact Nat.le_refl _
    | _ => cases hack
  | _ => cases hack

/-- A task that does not step keeps what it knows. -/
theorem task_later (h : Ordered cfg leader epoch s) {a : Action} {b b' : BrokerId}
    (hm : Move cfg s a b e) (hq : InOrder cfg s a) (hnet : s'.net = s.net ++ e.sent)
    (hmem : (b', t) ∈ s.tasks) : t.Ordered cfg leader s' := by
  have ht := h.tasks _ hmem
  cases t with
  | awaitAck r l conn first =>
    obtain ⟨rfl, _⟩ := h.serving.oneEpoch.sound.tasks _ hmem
    obtain ⟨hfull, hbound⟩ := ht
    refine ⟨hfull, fun hd hmin hfirst next hack => ?_⟩
    subst hfirst
    rw [hnet] at hack
    rcases List.mem_append.1 hack with hold | hnew
    · exact hbound hd hmin rfl next hold
    · exact h.sent_bounded hm hq hmem hd hmin hnew
  | _ => exact ht

theorem stepped_of {index : Nat} {c : Choice} {p : BrokerId × Task} (hc : c ≠ .fail)
    (ht : s.tasks[index]? = some p) : stepped s (.task index c) = some p := by
  cases c with
  | fail => exact absurd rfl hc
  | _ => exact ht

theorem produces_of {records : List FetchedRecord} (h : t.durable = some records) : t.produces := by
  cases t with
  | readBack => rfl
  | contact => rfl
  | awaitAck => rfl
  | catchUp => rfl
  | commitApply => rfl
  | _ => cases h

theorem task_moved (h : Ordered cfg leader epoch s) {index : Nat} {c : Choice} {b : BrokerId}
    (hc : c ≠ .fail) (ht : s.tasks[index]? = some (b, t)) (hq : InOrder cfg s (.task index c))
    (hs : taskStep cfg s b t c = some e) (hnet : s'.net = s.net ++ e.sent) :
    e.task.Ordered cfg leader s' := by
  cases hp : t.produces with
  | false => exact other_step (taskStep_cases hs) hp
  | true => exact (h.produce_step hc ht (hq _ (stepped_of hc ht)) hp hs).ordered s' hnet

/-- The task an action starts or steps is in order. -/
theorem moved {a : Action} (h : Ordered cfg leader epoch s) (hcalm : Calm a) (hq : InOrder cfg s a)
    (hs : Cluster.step cfg s a = some s') :
    ∃ b e, Move cfg s a b e ∧ Moved s a b e s' ∧ e.task.Ordered cfg leader s' := by
  cases a with
  | task index c =>
    obtain ⟨b, t, e, ht, he, rfl⟩ := step_task_cases hs
    have hc : c ≠ .fail := of_decide_eq_true hcalm
    exact ⟨b, e, .task ht (taskStep_cases he), moved_install ht c e, h.task_moved hc ht hq he rfl⟩
  | produce b request =>
    obtain ⟨b, e, hm, hmv⟩ := step_move hs
    refine ⟨b, e, hm, hmv, ?_⟩
    cases hm
    have hne : request.inputs ≠ [] := of_decide_eq_true hcalm
    exact hne
  | _ =>
    obtain ⟨b, e, hm, hmv⟩ := step_move hs
    refine ⟨b, e, hm, hmv, ?_⟩
    cases hm <;> trivial

theorem step {a : Action} (h : Ordered cfg leader epoch s) (hcalm : Calm a) (hq : InOrder cfg s a)
    (hs : Cluster.step cfg s a = some s') : Ordered cfg leader epoch s' := by
  refine ⟨h.serving.step hcalm hs, fun p hp => ?_⟩
  obtain ⟨b, e, hm, hmv, hnew⟩ := h.moved hcalm hq hs
  rcases hmv.tasks p hp with hother | rfl
  · exact h.task_later hm hq hmv.net (others_subset hother)
  · exact hnew

/-- No step in order refuses a durable request. -/
theorem not_fails {a : Action} (h : Ordered cfg leader epoch s) (hcalm : Calm a)
    (hq : InOrder cfg s a) : fails cfg s a = false := by
  cases a with
  | task index c =>
    have hc : c ≠ .fail := of_decide_eq_true hcalm
    cases hf : fails cfg s (.task index c) with
    | false => rfl
    | true =>
      simp only [fails, Option.any_eq_true] at hf
      obtain ⟨⟨b, t⟩, ht, records, hrecords, e, he, hrefuses⟩ := hf
      have hgoes := h.produce_step hc ht (hq _ (stepped_of hc ht)) (produces_of hrecords) he
      rw [hgoes.answered records hrecords] at hrefuses
      cases hrefuses
  | _ => rfl

end Ordered

/-- **Concurrent durable produces, as far as they come in order.**  On a healthy partition, in every
calm run: a produce request to the leader is accepted; every request can be brought to its end from
every state; and if the run is in order, no durable request in it is refused. -/
theorem concurrent_durable_in_order (cfg : ClusterConfig) {leader : BrokerId} {epoch : Nat}
    {s₀ s : State} {acts : List Action} (h : Healthy cfg leader epoch s₀)
    (hcalm : ∀ a ∈ acts, Calm a) (hr : run (step cfg) s₀ acts = some s) :
    (Along (step cfg) (InOrder cfg) s₀ acts →
      Along (step cfg) (fun s a => fails cfg s a = false) s₀ acts) ∧
    (∀ request, ∃ s', step cfg s (.produce leader request) = some s') ∧
    ∃ more s', (∀ a ∈ more, Action.exchange a) ∧ run (step cfg) s more = some s' ∧
      ∀ p ∈ s'.tasks, p.2.produces = false := by
  have hserving := h.serving.of_run hcalm hr
  refine ⟨fun hq => ?_, fun request => ?_, Serving.completes _ hserving (Nat.le_refl _)⟩
  · refine Along.of_invariant (P := Ordered cfg leader epoch)
      (fun _ _ _ hp hq hs => hp.step hq.1 hq.2 hs) (fun _ _ hp hq => hp.not_fails hq.1 hq.2) h.ordered
      ((Along.of_mem hcalm).and hq)
  · have hnode := cfg.replicaSet_subset hserving.replica
    obtain ⟨l, hl⟩ := hserving.oneEpoch.node_entry hnode
    have hleads : (s.broker leader).entry.map (·.leaderId) = some leader := by
      rw [hl, Option.map_some, (hserving.oneEpoch.entry_inEpoch hl).leaderId]
    exact ⟨_, if_pos ⟨hnode, Or.inr hleads⟩⟩

/-- Two requests at once, their records sent to each follower in the order of the log. -/
def concurrentRun : List Action :=
  [.produce 2 (oneRecord 7 .durable), .produce 2 (oneRecord 8 .durable),
    .task 0 (.stamp [5]), .task 1 (.stamp [6]), .task 0 .go, .task 0 .go, .task 1 .go, .task 1 .go,
    .task 0 .go, .task 1 .go, .deliver 0, .task 2 .go, .task 2 .go, .deliver 1, .task 3 .go, .task 3 .go,
    .task 0 (.receive 2), .task 1 (.receive 3),
    .task 0 .go, .task 1 .go, .deliver 4, .task 4 .go, .task 4 .go, .deliver 5, .task 5 .go, .task 5 .go,
    .task 0 (.receive 6), .task 1 (.receive 7), .task 0 .go, .task 0 .go, .task 1 .go, .task 1 .go]

theorem concurrent_durable_in_order_two : ∃ s,
    run (step threeNodes) (State.epochStart threeNodes 2 4) concurrentRun = some s ∧
    s.answers = [⟨2, .durable, ⟨0, 5, none, [7]⟩⟩, ⟨2, .durable, ⟨1, 6, none, [8]⟩⟩] ∧
    Along (step threeNodes) (InOrder threeNodes) (State.epochStart threeNodes 2 4) concurrentRun ∧
    Along (step threeNodes) (fun s a => fails threeNodes s a = false)
      (State.epochStart threeNodes 2 4) concurrentRun := by
  have horder : Along (step threeNodes) (InOrder threeNodes) (State.epochStart threeNodes 2 4)
      concurrentRun := by decide +kernel
  refine ⟨_, rfl, rfl, horder, ?_⟩
  exact (@concurrent_durable_in_order threeNodes 2 4 _ _ concurrentRun
    (healthy_epochStart (by decide)) (by decide) rfl).1 horder

end SevlaMq.Cluster
