import SevlaMq.Cluster.Completion

/-!
# An idempotent retry in the cluster

A producer repeats its last request.  Storage finds the sequence number and returns the offset of
the stored record; `replicate` then pushes that record again, to followers that may hold any number
of records after it.

* `Retriable` — a healthy partition whose followers hold the leader's whole log, and a producer
  with a stored record.
* `retry_refused` — a record after the retried one makes the retry fail.
* `Retrying` — the invariant of the runs of a retry of a committed record: no broker changes, and
  each follower answers with the end of the log.
* `retry_acknowledged_iff` — which retries are answered with the original offset.
-/

set_option autoImplicit false

namespace SevlaMq.Cluster

open SevlaMq.Storage

variable {cfg : ClusterConfig} {leader : BrokerId} {epoch : Nat}

/-- The partition is healthy, every follower holds the whole log, and the last record of producer
`id` has `sequence` and is stored at `o`. -/
structure Retriable (cfg : ClusterConfig) (leader : BrokerId) (epoch : Nat) (s : State) (id : String)
    (sequence : UInt64) (o : Nat) : Prop where
  healthy : Healthy cfg leader epoch s
  whole : ∀ b ∈ cfg.replicaFollowers leader,
    contents (s.broker b).log = contents (s.broker leader).log
  last : (s.broker leader).log.producerState id = some (sequence, o)

/-- A durable produce of one record by producer `id`. -/
def producerRequest (key payload : Bytes) (id : String) (sequence : UInt64) : ProduceRequest :=
  ⟨[⟨key, payload, some ⟨id, sequence⟩⟩], .durable⟩

/-- No produce request is being handled. -/
def State.ended (s : State) : Bool := s.tasks.all fun p => !p.2.produces

/-- The retry was answered with offset `o`, and no log and no high watermark has changed. -/
def Acknowledged (leader : BrokerId) (o : Nat) (s₀ s : State) : Prop :=
  s.answers.map (fun a => (a.broker, a.ackMode, a.record.offset)) = [(leader, .durable, o)] ∧
  ∀ b, (s.broker b).log = (s₀.broker b).log ∧ (s.broker b).highWatermark = (s₀.broker b).highWatermark

/-! ## A retry that is refused -/

/-- Broker 2 leads with `log`; both followers hold `copy`, and everything is committed. -/
def copiedState (log copy : RecordLog) : State :=
  { State.init with
    broker := fun b =>
      if b = 2 then ⟨some ⟨1, 2, 4, log.length⟩, log⟩
      else if b = 1 ∨ b = 3 then ⟨some ⟨1, 2, 4, log.length⟩, copy⟩
      else ⟨none, []⟩ }

theorem copiedState_healthy {log copy : RecordLog} (hcopy : contents copy = contents log)
    (hchecked : ∀ r ∈ log, checkRecord r = .ok ()) : Healthy threeNodes 2 4 (copiedState log copy) where
  replica := by decide
  entries := by
    intro b hb
    have hcase : b = 1 ∨ b = 2 ∨ b = 3 := by simpa [threeNodes] using hb
    rcases hcase with rfl | rfl | rfl <;> exact ⟨_, rfl⟩
  inEpoch := by
    intro b l hl
    have hentry : l = ⟨1, 2, 4, log.length⟩ := by
      simp only [copiedState] at hl
      split at hl
      · cases hl; rfl
      · split at hl
        · cases hl; rfl
        · cases hl
    subst hentry
    have hlen : copy.length = log.length := by
      rw [← contents_length copy, hcopy, contents_length]
    have hset : threeNodes.replicaSet = [2, 3, 1] := by decide
    refine ⟨rfl, rfl, Nat.le_refl _, ?_⟩
    rw [hset]
    simp [copiedState, hlen, threeNodes]
  logs := by
    intro b
    simp only [copiedState, if_true]
    split
    · exact List.prefix_rfl
    · split
      · exact ⟨[], by rw [List.append_nil, hcopy]⟩
      · exact List.nil_prefix
  checked := hchecked
  tasks := rfl
  net := rfl
  answers := rfl

/-- Producer `p` has stored its record 0, and another record has been stored and replicated since. -/
def overtakenState : State :=
  copiedState [⟨none, [7], 5, some ⟨"p", 0⟩⟩, ⟨none, [8], 6, none⟩]
    [⟨none, [7], 5, none⟩, ⟨none, [8], 6, none⟩]

theorem overtakenState_retriable : Retriable threeNodes 2 4 overtakenState "p" 0 0 where
  healthy := copiedState_healthy rfl (by decide)
  whole := by decide
  last := by decide

/-- The steps of the retry: both followers are asked to store the record again. -/
def repeatedRequest : List Action :=
  [.task 0 (.stamp [9]), .task 0 .go, .task 0 .go,
    .task 0 .go, .deliver 0, .task 1 .go, .task 1 .go, .task 0 (.receive 1),
    .task 0 .go, .deliver 2, .task 2 .go, .task 2 .go, .task 0 (.receive 3), .task 0 .go]

theorem retry_refused : Retriable threeNodes 2 4 overtakenState "p" 0 0 ∧
    (∀ a ∈ repeatedRequest, a.exchange) ∧
    ∃ s, run (step threeNodes) overtakenState
      (.produce 2 (producerRequest [] [7] "p" 0) :: repeatedRequest) = some s ∧ s.ended ∧
      ¬ Acknowledged 2 0 overtakenState s := by
  refine ⟨overtakenState_retriable, by decide, _, rfl, by decide +kernel, fun h => ?_⟩
  cases h.1

/-! ## The runs of a retry -/

/-- Enough followers will be counted for the record at `o`: none is needed, or none is ahead. -/
def Suffices (cfg : ClusterConfig) (leader : BrokerId) (s₀ : State) (o : Nat) : Prop :=
  cfg.minInSyncReplicas ≤ 1 ∨ o + 1 = (s₀.broker leader).log.length

instance (s₀ : State) (o : Nat) : Decidable (Suffices cfg leader s₀ o) :=
  inferInstanceAs (Decidable (_ ∨ _))

/-- The replication of the retried record `f`.  A follower is counted exactly if `f` is the last
record. -/
structure Replication.Retries (cfg : ClusterConfig) (leader : BrokerId) (s₀ : State)
    (f : FetchedRecord) (r : Replication) : Prop where
  ackMode : r.ackMode = .durable
  finished : r.finished = []
  current : r.current.record = f
  rest : r.rest = []
  followers : ∀ b ∈ r.followers, b ∈ cfg.replicaFollowers leader
  counted : f.offset + 1 = (s₀.broker leader).log.length →
    r.acked.length + r.followers.length = (cfg.replicaFollowers leader).length
  ahead : f.offset + 1 ≠ (s₀.broker leader).log.length → r.acked = []

/-- The task of the retry, and what has been answered so far. -/
def Task.Retries (cfg : ClusterConfig) (leader : BrokerId) (s₀ : State) (f : FetchedRecord)
    (request : ProduceRequest) (answers : List Answer) : Task → Prop
  | .append request' => request' = request ∧ answers = []
  | .readBack ackMode offsets jobs => ackMode = .durable ∧ answers = [] ∧
      ((offsets = [f.offset] ∧ jobs = []) ∨ (offsets = [] ∧ ∃ j : Job, jobs = [j] ∧ j.record = f))
  | .contact r => r.Retries cfg leader s₀ f ∧ answers = []
  | .awaitAck r _ _ first => r.Retries cfg leader s₀ f ∧ answers = [] ∧ r.followers ≠ [] ∧ first = true
  | .done => answers = if Suffices cfg leader s₀ f.offset then [⟨leader, .durable, f⟩] else []
  | _ => False

/-- The tasks at the followers. -/
def Task.Handles (cfg : ClusterConfig) (leader : BrokerId) (f : FetchedRecord) (b : BrokerId) :
    Task → Prop
  | .done => True
  | .replicaExpected _ m => b ∈ cfg.replicaFollowers leader ∧ m.record = f
  | .replicaStore _ m => b ∈ cfg.replicaFollowers leader ∧ m.record = f
  | _ => False

def Message.Retries (cfg : ClusterConfig) (leader : BrokerId) (s₀ : State) (f : FetchedRecord) :
    Message → Prop
  | .replicate _ _ dst m => dst ∈ cfg.replicaFollowers leader ∧ m.record = f
  | .replicateAck _ next => next = (s₀.broker leader).log.length
  | _ => False

/-- **The invariant of a retry.** -/
structure Retrying (cfg : ClusterConfig) (leader : BrokerId) (epoch : Nat) (s₀ : State)
    (f : FetchedRecord) (request : ProduceRequest) (s : State) : Prop where
  serving : Serving cfg leader epoch s
  brokers : ∀ b, s.broker b = s₀.broker b
  tasks : ∃ t rest, s.tasks = (leader, t) :: rest ∧
    t.Retries cfg leader s₀ f request s.answers ∧ ∀ p ∈ rest, p.2.Handles cfg leader f p.1
  net : ∀ m ∈ s.net, m.Retries cfg leader s₀ f

/-- What the steps of a retry need to know about the state it starts in. -/
structure Committed (cfg : ClusterConfig) (leader : BrokerId) (s₀ : State) (f : FetchedRecord)
    (request : ProduceRequest) : Prop where
  replica : leader ∈ cfg.replicaSet
  stored : ∃ x, (s₀.broker leader).log[f.offset]? = some x ∧ fetched x f.offset = f
  duplicate : ∀ ts, ts.length = request.inputs.length →
    appendInputs (s₀.broker leader).log (request.inputs.zip ts) = (.ok [f.offset], (s₀.broker leader).log)
  durable : request.ackMode = .durable
  whole : ∀ b ∈ cfg.replicaFollowers leader,
    contents (s₀.broker b).log = contents (s₀.broker leader).log
  below : f.offset < (s₀.broker leader).highWatermark

namespace Retrying

variable {s₀ s s' : State} {f : FetchedRecord} {request : ProduceRequest} {t : Task} {e : Effect}

theorem follower_length (h₀ : Committed cfg leader s₀ f request) {b : BrokerId}
    (hb : b ∈ cfg.replicaFollowers leader) :
    (s₀.broker b).log.length = (s₀.broker leader).log.length := by
  have := congrArg List.length (h₀.whole b hb)
  rwa [contents_length, contents_length] at this

theorem offset_lt (h₀ : Committed cfg leader s₀ f request) :
    f.offset < (s₀.broker leader).log.length := by
  obtain ⟨x, hx, _⟩ := h₀.stored
  exact (List.getElem?_eq_some_iff.1 hx).1

/-- What a step of the retry's own task does. -/
structure Own (cfg : ClusterConfig) (leader : BrokerId) (s₀ : State) (f : FetchedRecord)
    (request : ProduceRequest) (s : State) (e : Effect) : Prop where
  broker : e.broker = s.broker leader
  sent : ∀ m ∈ e.sent, m.Retries cfg leader s₀ f
  task : e.task.Retries cfg leader s₀ f request (s.answers ++ e.answered)

theorem append_step (h : Retrying cfg leader epoch s₀ f request s)
    (h₀ : Committed cfg leader s₀ f request) {c : Choice} (ha : s.answers = [])
    (hs : taskStep cfg s leader (.append request) c = some e) :
    Own cfg leader s₀ f request s e := by
  cases c with
  | stamp ts =>
    simp only [taskStep] at hs
    split at hs
    · cases hs
    · rename_i hlen
      rw [h.brokers, h₀.duplicate ts (not_not.1 hlen)] at hs
      cases hs
      refine ⟨(h.brokers leader).symm, List.forall_mem_nil _, h₀.durable, ?_, Or.inl ⟨rfl, rfl⟩⟩
      rw [ha]
      rfl
  | _ => cases hs

theorem readBack_step (h : Retrying cfg leader epoch s₀ f request s)
    (h₀ : Committed cfg leader s₀ f request) {c : Choice} {offsets : List Nat} {jobs : List Job}
    (ha : s.answers = []) (hjobs : (offsets = [f.offset] ∧ jobs = []) ∨
      (offsets = [] ∧ ∃ j : Job, jobs = [j] ∧ j.record = f))
    (hs : taskStep cfg s leader (.readBack .durable offsets jobs) c = some e) :
    Own cfg leader s₀ f request s e := by
  obtain ⟨x, hx, hf⟩ := h₀.stored
  obtain ⟨rfl, rfl⟩ | ⟨rfl, j, rfl, hj⟩ := hjobs
  · cases c with
    | go =>
      simp only [taskStep, h.brokers, hx] at hs
      cases hs
      refine ⟨(h.brokers leader).symm, List.forall_mem_nil _, rfl, ?_, Or.inr ⟨rfl, _, rfl, hf⟩⟩
      rw [ha]
      rfl
    | _ => cases hs
  · cases c with
    | go =>
      cases hs
      refine ⟨rfl, List.forall_mem_nil _, ⟨rfl, rfl, hj, rfl, fun b hb => hb, ?_, fun _ => rfl⟩, ?_⟩
      · intro _
        simp [startReplication]
      · rw [ha]
        rfl
    | _ => cases hs

/-- When every follower was contacted, the acknowledgements suffice as foreseen. -/
theorem enough_iff (h₀ : Committed cfg leader s₀ f request) {r : Replication}
    (hr : r.Retries cfg leader s₀ f) (hf : r.followers = []) :
    cfg.minInSyncReplicas ≤ r.acknowledgements ↔ Suffices cfg leader s₀ f.offset := by
  unfold Suffices Replication.acknowledgements
  by_cases hlast : f.offset + 1 = (s₀.broker leader).log.length
  · have hcounted := hr.counted hlast
    have hsize := cfg.replicaFollowers_length h₀.replica
    have hmin := cfg.min_le
    rw [hf, List.length_nil] at hcounted
    constructor
    · exact fun _ => Or.inr hlast
    · intro _
      omega
  · rw [hr.ahead hlast, List.length_nil]
    constructor
    · exact fun h => Or.inl h
    · exact fun h => h.resolve_right hlast

theorem contact_step (h : Retrying cfg leader epoch s₀ f request s)
    (h₀ : Committed cfg leader s₀ f request) {c : Choice} {r : Replication} (hc : c ≠ .fail)
    (ha : s.answers = []) (hr : r.Retries cfg leader s₀ f)
    (hs : taskStep cfg s leader (.contact r) c = some e) : Own cfg leader s₀ f request s e := by
  obtain ⟨l, hl⟩ := h.serving.oneEpoch.node_entry (cfg.replicaSet_subset h₀.replica)
  cases c with
  | go =>
    cases hf : r.followers with
    | cons b bs =>
      simp only [taskStep, hf, hl] at hs
      cases hs
      refine ⟨rfl, fun m hm => ?_, hr, ?_, ?_, rfl⟩
      · cases List.mem_singleton.1 hm
        exact ⟨hr.followers b (by rw [hf]; exact List.mem_cons_self), hr.current⟩
      · rw [ha]
        rfl
      · rw [hf]
        exact List.cons_ne_nil b bs
    | nil =>
      have hbelow : r.current.record.offset + 1 ≤ l.highWatermark := by
        have := h₀.below
        rw [← h.brokers leader, Broker.highWatermark_eq hl] at this
        rw [hr.current]
        exact this
      have hsuffices := enough_iff h₀ hr hf
      simp only [taskStep, hf, hl, hbelow, if_true, hr.ackMode] at hs
      split at hs
      · rename_i hmin
        cases hs
        refine ⟨rfl, List.forall_mem_nil _, ?_⟩
        simp [finishRecord, hr.rest, hr.ackMode, hr.finished, hr.current, Task.Retries, ha,
          hsuffices.1 hmin]
      · rename_i hmin
        cases hs
        refine ⟨rfl, List.forall_mem_nil _, ?_⟩
        simp [Task.Retries, ha, mt hsuffices.2 hmin]
  | fail => exact absurd rfl hc
  | _ => cases hs

theorem awaitAck_step (h : Retrying cfg leader epoch s₀ f request s)
    (h₀ : Committed cfg leader s₀ f request) {c : Choice} {r : Replication}
    {l : PartitionLeadership} {conn : Nat} (hc : c ≠ .fail) (ha : s.answers = [])
    (hr : r.Retries cfg leader s₀ f) (hf : r.followers ≠ [])
    (hs : taskStep cfg s leader (.awaitAck r l conn true) c = some e) :
    Own cfg leader s₀ f request s e := by
  obtain ⟨b, bs, hbs⟩ := List.exists_cons_of_ne_nil hf
  have hlt := offset_lt h₀
  have hrest : ∀ x ∈ r.followers.tail, x ∈ cfg.replicaFollowers leader :=
    fun x hx => hr.followers x (List.mem_of_mem_tail hx)
  cases c with
  | receive index =>
    simp only [taskStep] at hs
    split at hs
    · rename_i conn' next hn
      -- every follower answers with the end of the log
      have hnext : next = (s₀.broker leader).log.length := h.net _ (List.mem_of_getElem? hn)
      rw [hr.current] at hs
      split at hs
      · cases hs
      · split at hs
        · rename_i hahead
          cases hs
          refine ⟨rfl, List.forall_mem_nil _, ⟨hr.ackMode, hr.finished, hr.current, hr.rest, hrest,
            fun hlast => ?_, hr.ahead⟩, ?_⟩
          · omega
          · rw [ha]
            rfl
        · rename_i hnot
          have hlast : f.offset + 1 = (s₀.broker leader).log.length := by
            have : ¬ f.offset + 1 < next := fun hgt => hnot ⟨trivial, hgt⟩
            omega
          rw [if_neg (by omega)] at hs
          cases hs
          refine ⟨rfl, List.forall_mem_nil _, ⟨hr.ackMode, hr.finished, hr.current, hr.rest, hrest,
            fun _ => ?_, fun hne => absurd hlast hne⟩, ?_⟩
          · have hcounted := hr.counted hlast
            rw [hbs, List.length_cons] at hcounted
            simp only [Replication.ack, hbs, List.length_append, List.length_singleton, List.tail_cons]
            omega
          · rw [ha]
            rfl
    · cases hs
  | fail => exact absurd rfl hc
  | _ => cases hs

/-- **Every step of the retry's own task.** -/
theorem own_step (h : Retrying cfg leader epoch s₀ f request s)
    (h₀ : Committed cfg leader s₀ f request) {c : Choice} (hc : c ≠ .fail)
    (ht : t.Retries cfg leader s₀ f request s.answers) (hs : taskStep cfg s leader t c = some e) :
    Own cfg leader s₀ f request s e := by
  cases t with
  | append request' =>
    obtain ⟨rfl, ha⟩ := ht
    exact h.append_step h₀ ha hs
  | readBack ackMode offsets jobs =>
    obtain ⟨rfl, ha, hjobs⟩ := ht
    exact h.readBack_step h₀ ha hjobs hs
  | contact r =>
    obtain ⟨hr, ha⟩ := ht
    exact h.contact_step h₀ hc ha hr hs
  | awaitAck r l conn first =>
    obtain ⟨hr, ha, hf, rfl⟩ := ht
    exact h.awaitAck_step h₀ hc ha hr hf hs
  | done => cases hs
  | _ => exact ht.elim

/-- What a step at a follower does. -/
structure Handled (cfg : ClusterConfig) (leader : BrokerId) (s₀ : State) (f : FetchedRecord)
    (s : State) (b : BrokerId) (e : Effect) : Prop where
  broker : e.broker = s.broker b
  sent : ∀ m ∈ e.sent, m.Retries cfg leader s₀ f
  answered : e.answered = []
  task : e.task.Handles cfg leader f b

/-- **Every step at a follower** leaves its log alone. -/
theorem handle_step (h : Retrying cfg leader epoch s₀ f request s)
    (h₀ : Committed cfg leader s₀ f request) {c : Choice} {b : BrokerId}
    (ht : t.Handles cfg leader f b) (hs : TaskStep cfg s b t c e) :
    Handled cfg leader s₀ f s b e := by
  cases hs with
  | stop => exact ⟨rfl, List.forall_mem_nil _, rfl, trivial⟩
  | skip hr => rcases hr with rfl | ⟨_, _, _, rfl⟩ | ⟨_, _, rfl⟩ <;> exact ht.elim
  | @replicaGap conn m hl =>
    obtain ⟨hb, rfl⟩ := ht
    have hlt := offset_lt h₀
    rw [h.brokers, follower_length h₀ hb] at hl
    omega
  | replicaReady => exact ⟨rfl, List.forall_mem_nil _, rfl, ht⟩
  | @replicaStore conn m offset log hst =>
    obtain ⟨hb, hrecord⟩ := ht
    obtain ⟨x, hx, hfetched⟩ := h₀.stored
    have hin : InLog (contents (s.broker b).log) m.record := by
      rw [h.brokers, h₀.whole b hb, hrecord]
      have := inLog_fetched hx
      rwa [hfetched] at this
    obtain rfl := Serving.stored_unchanged hst hin
    refine ⟨rfl, fun msg hmsg => ?_, rfl, trivial⟩
    cases List.mem_singleton.1 hmsg
    show (s.broker b).log.length = _
    rw [h.brokers, follower_length h₀ hb]
  | _ => exact ht.elim

/-- A message that is delivered starts the handling of the record. -/
theorem delivered_step (h : Retrying cfg leader epoch s₀ f request s) {index : Nat}
    (hs : Cluster.step cfg s (.deliver index) = some s') :
    ∃ b t, s' = s.spawn b t ∧ t.Handles cfg leader f b := by
  simp only [Cluster.step] at hs
  split at hs
  · cases hs
  rename_i m hn
  split at hs
  · cases hs
  rename_i b t hreceive
  cases hs
  refine ⟨b, t, rfl, ?_⟩
  have hin := h.serving.oneEpoch.sound.message hn
  have hmsg := h.net _ (List.mem_of_getElem? hn)
  cases receive_move hn hreceive with
  | leadershipNewer hn' => rw [hn] at hn'; cases hn'; exact hmsg.elim
  | leadershipOlder hn' => rw [hn] at hn'; cases hn'; exact hmsg.elim
  | serve hn' => rw [hn] at hn'; cases hn'; exact hmsg.elim
  | replicateNewer hn' he hlt =>
    rw [hn] at hn'
    cases hn'
    have hentry := (h.serving.oneEpoch.entry_inEpoch he).leaderEpoch
    have hepoch := hin.1.leaderEpoch
    omega
  | replicateSame hn' =>
    rw [hn] at hn'
    cases hn'
    exact hmsg

theorem step (h : Retrying cfg leader epoch s₀ f request s)
    (h₀ : Committed cfg leader s₀ f request) {a : Action} (ha : a.exchange)
    (hs : Cluster.step cfg s a = some s') : Retrying cfg leader epoch s₀ f request s' := by
  have hserving := h.serving.step (calm_of_exchange ha) hs
  obtain ⟨t, rest, htasks, ht, hrest⟩ := h.tasks
  cases a with
  | deliver index =>
    obtain ⟨b, t', rfl, ht'⟩ := h.delivered_step hs
    refine ⟨hserving, h.brokers, ⟨t, rest ++ [(b, t')], ?_, ht, fun p hp => ?_⟩, h.net⟩
    · simp [State.spawn, htasks]
    · rcases List.mem_append.1 hp with hp | hp
      · exact hrest p hp
      · cases List.mem_singleton.1 hp
        exact ht'
  | task index c =>
    have hc : c ≠ .fail := of_decide_eq_true ha
    obtain ⟨b, t', e, hget, he, rfl⟩ := step_task_cases hs
    rw [htasks] at hget
    cases index with
    | zero =>
      cases hget
      have hown := h.own_step h₀ hc ht he
      refine ⟨hserving, fun i => ?_, ⟨e.task, rest, ?_, hown.task, hrest⟩, fun m hm => ?_⟩
      · rw [install_broker hown.broker]
        exact h.brokers i
      · simp [State.install, htasks]
      · rcases List.mem_append.1 hm with hm | hm
        · exact h.net m hm
        · exact hown.sent m hm
    | succ k =>
      have hhandled := h.handle_step h₀ (hrest _ (List.mem_of_getElem? hget)) (taskStep_cases he)
      refine ⟨hserving, fun i => ?_, ⟨t, rest.set k (b, e.task), ?_, ?_, fun p hp => ?_⟩,
        fun m hm => ?_⟩
      · rw [install_broker hhandled.broker]
        exact h.brokers i
      · simp [State.install, htasks]
      · simp only [State.install, hhandled.answered, List.append_nil]
        exact ht
      · rcases List.mem_or_eq_of_mem_set hp with hp | rfl
        · exact hrest p hp
        · exact hhandled.task
      · rcases List.mem_append.1 hm with hm | hm
        · exact h.net m hm
        · exact hhandled.sent m hm
  | _ => cases ha

/-- A retry that has ended was acknowledged, or refused, as foreseen. -/
theorem ended_answers (h : Retrying cfg leader epoch s₀ f request s) (hend : s.ended) :
    s.answers = if Suffices cfg leader s₀ f.offset then [⟨leader, .durable, f⟩] else [] := by
  obtain ⟨t, rest, htasks, ht, _⟩ := h.tasks
  have hno : t.produces = false := by
    have := List.all_eq_true.1 hend (leader, t) (by rw [htasks]; exact List.mem_cons_self)
    simpa using this
  cases t with
  | done => exact ht
  | append | readBack | contact | awaitAck => cases hno
  | _ => exact ht.elim

end Retrying

/-! ## The start of a retry -/

namespace Retriable

variable {s₀ s : State} {id : String} {sequence : UInt64} {o : Nat}

/-- The stored record passed the check of its producer id. -/
theorem admitted (h : Retriable cfg leader epoch s₀ id sequence o) {r : Record}
    (hr : r.producer = some ⟨id, sequence⟩) :
    admission (s₀.broker leader).log.producerState r = .ok (some o) := by
  obtain ⟨x, hx, hp⟩ := RecordLog.producerState_some h.last
  have hvalid := (checkRecord_ok (h.healthy.checked x (List.mem_of_getElem? hx))).2
  simp only [validateProducer, hp] at hvalid
  simp only [admission, hr, hvalid, h.last, if_true]

theorem duplicate (h : Retriable cfg leader epoch s₀ id sequence o) (key payload : Bytes)
    (ts : List UInt64) (hlen : ts.length = (producerRequest key payload id sequence).inputs.length) :
    appendInputs (s₀.broker leader).log ((producerRequest key payload id sequence).inputs.zip ts) =
      (.ok [o], (s₀.broker leader).log) := by
  obtain ⟨t, rfl⟩ := List.length_eq_one_iff.1 hlen
  have hadmitted : admission (s₀.broker leader).log.producerState
      (ProduceInput.record ⟨key, payload, some ⟨id, sequence⟩⟩ t) = .ok (some o) := h.admitted rfl
  simp [producerRequest, appendInputs, RecordLog.append, hadmitted]

theorem committed (h : Retriable cfg leader epoch s₀ id sequence o) (key payload : Bytes)
    (hbelow : o < (s₀.broker leader).highWatermark) :
    ∃ f : FetchedRecord, f.offset = o ∧
      Committed cfg leader s₀ f (producerRequest key payload id sequence) := by
  obtain ⟨x, hx, _⟩ := RecordLog.producerState_some h.last
  exact ⟨fetched x o, rfl, h.healthy.replica, ⟨x, hx, rfl⟩, h.duplicate key payload, rfl, h.whole,
    hbelow⟩

/-- The request is accepted. -/
theorem accepted (h : Retriable cfg leader epoch s₀ id sequence o) (request : ProduceRequest) :
    step cfg s₀ (.produce leader request) = some (s₀.spawn leader (.append request)) := by
  have hnode := cfg.replicaSet_subset h.healthy.replica
  obtain ⟨l, hl⟩ := h.healthy.entries leader hnode
  have hleads : (s₀.broker leader).entry.map (·.leaderId) = some leader := by
    rw [hl, Option.map_some, (h.healthy.inEpoch leader l hl).leaderId]
  exact if_pos ⟨hnode, Or.inr hleads⟩

theorem started (h : Retriable cfg leader epoch s₀ id sequence o) (f : FetchedRecord)
    (request : ProduceRequest) (hn : request.inputs ≠ []) :
    Retrying cfg leader epoch s₀ f request (s₀.spawn leader (.append request)) := by
  refine ⟨?_, fun _ => rfl, ⟨.append request, [], ?_, ⟨rfl, h.healthy.answers⟩, List.forall_mem_nil _⟩,
    fun m hm => ?_⟩
  · have hcalm : Calm (.produce leader request) := decide_eq_true hn
    exact h.healthy.serving.step hcalm (h.accepted request)
  · simp [State.spawn, h.healthy.tasks]
  · rw [State.spawn, h.healthy.net] at hm
    cases hm

/-- A retry of a committed record. -/
theorem answered (h : Retriable cfg leader epoch s₀ id sequence o) {key payload : Bytes}
    {acts : List Action} (hacts : ∀ a ∈ acts, a.exchange)
    (hr : run (step cfg) (s₀.spawn leader (.append (producerRequest key payload id sequence))) acts =
      some s) (hend : s.ended) (hbelow : o < (s₀.broker leader).highWatermark) :
    Acknowledged leader o s₀ s ↔ Suffices cfg leader s₀ o := by
  obtain ⟨f, rfl, h₀⟩ := h.committed key payload hbelow
  have hretrying := run_invariant (fun _ _ _ hp hq hs => hp.step h₀ hq hs)
    (h.started f _ (List.cons_ne_nil _ _)) (Along.of_mem hacts) hr
  have hanswers := hretrying.ended_answers hend
  unfold Acknowledged
  rw [hanswers]
  constructor
  · intro hack
    by_contra hno
    rw [if_neg hno] at hack
    cases hack.1
  · intro hsuffices
    rw [if_pos hsuffices]
    exact ⟨rfl, fun b => by rw [hretrying.brokers b]; exact ⟨rfl, rfl⟩⟩

/-- A retry that is acknowledged is below the watermark. -/
theorem below (h : Retriable cfg leader epoch s₀ id sequence o) {key payload : Bytes}
    {acts : List Action} (hacts : ∀ a ∈ acts, a.exchange)
    (hr : run (step cfg) (s₀.spawn leader (.append (producerRequest key payload id sequence))) acts =
      some s) (hack : Acknowledged leader o s₀ s) : o < (s₀.broker leader).highWatermark := by
  have hserving := (h.started ⟨o, 0, none, []⟩ _ (List.cons_ne_nil _ _)).serving.of_run
    (fun a ha => calm_of_exchange (hacts a ha)) hr
  obtain ⟨hanswers, hkept⟩ := hack
  obtain ⟨answer, hanswer, heq⟩ := List.mem_map.1 (hanswers ▸ List.mem_singleton.2 rfl)
  simp only [Prod.mk.injEq] at heq
  obtain ⟨_, hmode, hoffset⟩ := heq
  rw [← (hkept leader).2, ← hoffset]
  exact hserving.oneEpoch.answers answer hanswer hmode

end Retriable

/-- **Which retries return the original acknowledgement.**  A durable produce repeats the last
sequence number of a producer, whose record is stored at `o`, on a healthy partition whose followers
hold the leader's whole log.  The request can be brought to its end; and whenever it has ended, it
was answered with `o` and left every log and high watermark as it was exactly if the record is
already committed and either no follower has to acknowledge or no record is stored after it. -/
theorem retry_acknowledged_iff (cfg : ClusterConfig) {leader : BrokerId} {epoch : Nat} {s₀ : State}
    {id : String} {sequence : UInt64} {o : Nat} (h : Retriable cfg leader epoch s₀ id sequence o)
    (key payload : Bytes) :
    (∃ acts s, (∀ a ∈ acts, Action.exchange a) ∧ run (step cfg) s₀
      (.produce leader (producerRequest key payload id sequence) :: acts) = some s ∧ s.ended) ∧
    ∀ acts s, (∀ a ∈ acts, Action.exchange a) → run (step cfg) s₀
      (.produce leader (producerRequest key payload id sequence) :: acts) = some s → s.ended →
        (Acknowledged leader o s₀ s ↔
          (cfg.minInSyncReplicas ≤ 1 ∨ o + 1 = (s₀.broker leader).log.length) ∧
            o < (s₀.broker leader).highWatermark) := by
  simp only [run, h.accepted]
  constructor
  · have hserving := (h.started ⟨o, 0, none, []⟩ (producerRequest key payload id sequence)
      (List.cons_ne_nil _ _)).serving
    obtain ⟨acts, s, hacts, hr, hend⟩ := Serving.completes _ hserving (Nat.le_refl _)
    refine ⟨acts, s, hacts, hr, List.all_eq_true.2 fun p hp => ?_⟩
    rw [hend p hp]
    rfl
  · intro acts s hacts hr hend
    constructor
    · intro hack
      have hbelow := h.below hacts hr hack
      exact ⟨(h.answered hacts hr hend hbelow).1 hack, hbelow⟩
    · rintro ⟨hsuffices, hbelow⟩
      exact (h.answered hacts hr hend hbelow).2 hsuffices

/-- The record of producer `p` is the last one. -/
def latestState : State :=
  copiedState [⟨none, [7], 5, some ⟨"p", 0⟩⟩] [⟨none, [7], 5, none⟩]

theorem latestState_retriable : Retriable threeNodes 2 4 latestState "p" 0 0 where
  healthy := copiedState_healthy rfl (by decide)
  whole := by decide
  last := by decide

theorem retry_acknowledged_iff_latest : ∃ s, run (step threeNodes) latestState
    (.produce 2 (producerRequest [] [9] "p" 0) :: repeatedRequest) = some s ∧ s.ended ∧
    Acknowledged 2 0 latestState s := by
  refine ⟨_, rfl, by decide +kernel, ?_⟩
  exact ((retry_acknowledged_iff threeNodes latestState_retriable [] [9]).2 repeatedRequest _ (by decide)
    rfl (by decide +kernel)).2 (by decide)

end SevlaMq.Cluster
