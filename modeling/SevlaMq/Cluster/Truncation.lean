import SevlaMq.Cluster.Retry

/-!
# The three places that cut a log

A request with a higher epoch cuts the local log: `ApplyLeadership` at the watermark of the message,
`ReplicateRecord` at the offset of the record, `promote_leader` at the watermark of the controller.
Only the last of these is compared with what the broker itself knows to be committed.

* `Runs` — a task of a broker, run to its end while nothing else happens.
* `Request`, `Handled` — the requests that may cut, and their handling from start to end.
* `retry_cuts_committed` — a reachable state in which a repeated produce request makes the leader
  push an old record to a follower that has not heard of the epoch yet.
* `committed_kept_iff` — which requests leave the committed records alone.
-/

set_option autoImplicit false

namespace SevlaMq.Cluster

open SevlaMq.Storage

variable {cfg : ClusterConfig} {b : BrokerId} {s s' : State}

/-! ## Handling a request -/

/-- The task of broker `b` is run to its end while nothing else happens. -/
inductive Runs (cfg : ClusterConfig) (b : BrokerId) : State → Task → State → Prop
  | done {s : State} : Runs cfg b s .done s
  | step {s s' : State} {t : Task} {c : Choice} {e : Effect} (h : taskStep cfg s b t c = some e)
      (rest : Runs cfg b (s.setBroker b e.broker) e.task s') : Runs cfg b s t s'

/-- A request that may cut the log of the broker that handles it. -/
inductive Request where
  | applyLeadership (l : PartitionLeadership)
  | replicate (conn : Nat) (sender : BrokerId) (m : ReplicateRecord)
  -- the controller makes itself the leader
  | promoteSelf
  deriving DecidableEq, Repr

/-- The task a request starts at broker `b`. -/
def Request.task (cfg : ClusterConfig) (s : State) (b : BrokerId) : Request → Option (BrokerId × Task)
  | .applyLeadership l => receive cfg s (.applyLeadership b l)
  | .replicate conn sender m => receive cfg s (.replicate conn sender b m)
  | .promoteSelf =>
    match (s.broker b).entry with
    | none => none
    | some cur =>
      if cfg.isPartitionReplica b then
        some (b, .promoteQuery b cur (cfg.nodes.filter cfg.isPartitionReplica) [])
      else none

/-- The request is handled from start to end. -/
def Handled (cfg : ClusterConfig) (s : State) (b : BrokerId) (r : Request) (s' : State) : Prop :=
  ∃ t, r.task cfg s b = some (b, t) ∧ Runs cfg b s t s'

/-- A request with a higher epoch than the entry `cur`, about a node of the cluster; only the
controller promotes. -/
def Request.Newer (cfg : ClusterConfig) (b : BrokerId) (cur : PartitionLeadership) : Request → Prop
  | .applyLeadership l => cur.leaderEpoch < l.leaderEpoch ∧ l.leaderId ∈ cfg.nodes
  | .replicate _ _ m => cur.leaderEpoch < m.leaderEpoch ∧ m.leaderId ∈ cfg.nodes
  | .promoteSelf => b = cfg.controller ∧ b ∈ cfg.replicaSet

/-- The records below the watermark of the entry are the same. -/
def KeepsCommitted (cur : PartitionLeadership) (log log' : RecordLog) : Prop :=
  ∀ i < cur.highWatermark, log'[i]? = log[i]?

/-- What a request must say so that it cuts nothing below the watermark of the entry: the message
is not behind the watermark, or the record is the last committed one itself. -/
def Request.Spares (cur : PartitionLeadership) (log : RecordLog) : Request → Prop
  | .applyLeadership l => cur.highWatermark ≤ l.highWatermark
  | .replicate _ _ m => cur.highWatermark ≤ m.record.offset ∨
      (cur.highWatermark = m.record.offset + 1 ∧ log[m.record.offset]? = some m.record.toRecord)
  | .promoteSelf => True

/-! ## What the handlers leave of the log -/

theorem setBroker_broker (s : State) (b : BrokerId) (x : Broker) : (s.setBroker b x).broker b = x :=
  if_pos rfl

/-- The log that `ApplyLeadership` and `promote_leader` leave. -/
def cutAt (hw : Nat) (log : RecordLog) : RecordLog := if hw < log.length then log.take hw else log

/-- The log that `handle_replication_connection` leaves for a record of a newer epoch. -/
def replacedAt (f : FetchedRecord) (log : RecordLog) : RecordLog :=
  if (cutAt f.offset log).length < f.offset then cutAt f.offset log
  else
    match (cutAt f.offset log).appendReplica f.offset f.toRecord with
    | .ok (_, log') => log'
    | .error _ => cutAt f.offset log

theorem truncateTo_below {log : RecordLog} {n : Nat} (h : n < log.length) :
    log.truncateTo n = .ok (log.take n) := if_neg (by omega)

/-- The task can be run to its end, and the log is then `log`. -/
def EndsWith (cfg : ClusterConfig) (b : BrokerId) (s : State) (t : Task) (log : RecordLog) : Prop :=
  (∃ s', Runs cfg b s t s') ∧ ∀ s', Runs cfg b s t s' → (s'.broker b).log = log

theorem endsWith_done (cfg : ClusterConfig) (b : BrokerId) (s : State) :
    EndsWith cfg b s .done (s.broker b).log := by
  refine ⟨⟨s, .done⟩, fun s' h => ?_⟩
  cases h with
  | done => rfl
  | @step _ _ _ c _ hs _ => cases c <;> cases hs

/-- The tasks of the handlers that wait for nothing but the storage worker and the registry. -/
def Task.straight : Task → Bool
  | .replicaTail _ _ _ | .replicaTruncate _ _ _ | .replicaAdopt _ _ _ _ => true
  | .replicaExpected _ _ | .replicaStore _ _ => true
  | .leadershipTail _ _ | .leadershipTruncate _ _ | .leadershipApply _ _ _ => true
  | .promoteTail _ _ | .promoteTruncate _ _ | .promoteApply _ _ _ => true
  | _ => false

theorem taskStep_straight {t : Task} {c : Choice} (ht : t.straight = true) (hc : c ≠ .go) :
    taskStep cfg s b t c = none := by
  cases c with
  | go => exact absurd rfl hc
  | _ => cases t <;> first | rfl | cases ht

/-- A task that can go on in one way only. -/
theorem EndsWith.go {t : Task} {e : Effect} {log : RecordLog} (ht : t.straight = true)
    (he : taskStep cfg s b t .go = some e)
    (h : EndsWith cfg b (s.setBroker b e.broker) e.task log) : EndsWith cfg b s t log := by
  obtain ⟨⟨s', hruns⟩, hall⟩ := h
  refine ⟨⟨s', .step he hruns⟩, fun s' hs' => ?_⟩
  cases hs' with
  | done => cases ht
  | @step _ _ _ c e' hs hrest =>
    by_cases hc : c = .go
    · subst hc
      rw [he] at hs
      cases hs
      exact hall s' hrest
    · rw [taskStep_straight ht hc] at hs
      cases hs

/-- A task that ends with its next step. -/
theorem EndsWith.last {t : Task} {e : Effect} (ht : t.straight = true)
    (he : taskStep cfg s b t .go = some e) (hend : e.task = .done) :
    EndsWith cfg b s t e.broker.log := by
  have hrest := endsWith_done cfg b (s.setBroker b e.broker)
  rw [setBroker_broker, ← hend] at hrest
  exact hrest.go ht he

section Handlers

variable {l cur : PartitionLeadership} {cut : Bool} {conn : Nat} {m : ReplicateRecord} {x : Broker}

theorem endsWith_leadershipApply (hx : s.broker b = x) :
    EndsWith cfg b s (.leadershipApply l cur cut) x.log := by
  subst hx
  cases happ : applyEntry cfg (s.broker b).entry l with
  | error e =>
    exact EndsWith.last (e := ⟨s.broker b, .done, [], [], []⟩) rfl (by simp only [taskStep, happ]) rfl
  | ok e =>
    exact EndsWith.last (e := ⟨{ s.broker b with entry := some e }, .done, [], [], []⟩) rfl
      (by simp only [taskStep, happ]) rfl

/-- **`ApplyLeadership`** with a newer epoch cuts the log at the watermark of the message. -/
theorem endsWith_leadershipTail (hx : s.broker b = x) :
    EndsWith cfg b s (.leadershipTail l cur) (cutAt l.highWatermark x.log) := by
  by_cases hlt : l.highWatermark < x.log.length
  · rw [cutAt, if_pos hlt]
    refine EndsWith.go (e := ⟨x, .leadershipTruncate l cur, [], [], []⟩) rfl
      (by simp only [taskStep, hx, if_pos hlt]) ?_
    refine EndsWith.go (e := ⟨{ x with log := x.log.take l.highWatermark },
      .leadershipApply l cur (l.highWatermark < x.log.length), [], [], []⟩) rfl
      (by simp only [taskStep, setBroker_broker, truncateTo_below hlt]) ?_
    exact endsWith_leadershipApply (setBroker_broker _ _ _)
  · rw [cutAt, if_neg hlt]
    refine EndsWith.go (e := ⟨x, .leadershipApply l cur false, [], [], []⟩) rfl
      (by simp only [taskStep, hx, if_neg hlt]) ?_
    exact endsWith_leadershipApply (setBroker_broker _ _ _)

theorem endsWith_replicaExpected (hx : s.broker b = x) :
    EndsWith cfg b s (.replicaExpected conn m)
      (if x.log.length < m.record.offset then x.log
      else
        match x.log.appendReplica m.record.offset m.record.toRecord with
        | .ok (_, log') => log'
        | .error _ => x.log) := by
  by_cases hgap : x.log.length < m.record.offset
  · rw [if_pos hgap]
    exact EndsWith.last (e := ⟨x, .done, [.replicateAck conn x.log.length], [], []⟩) rfl
      (by simp only [taskStep, hx, if_pos hgap]) rfl
  · rw [if_neg hgap]
    refine EndsWith.go (e := ⟨x, .replicaStore conn m, [], [], []⟩) rfl
      (by simp only [taskStep, hx, if_neg hgap]) ?_
    cases hstore : x.log.appendReplica m.record.offset m.record.toRecord with
    | error e =>
      exact EndsWith.last (e := ⟨x, .done, [], [], []⟩) rfl
        (by simp only [taskStep, setBroker_broker, hstore]) rfl
    | ok p =>
      obtain ⟨offset, log'⟩ := p
      exact EndsWith.last
        (e := ⟨{ x with log := log' }, .done, [.replicateAck conn log'.length], [], []⟩) rfl
        (by simp only [taskStep, setBroker_broker, hstore]) rfl

theorem endsWith_replicaAdopt (hx : s.broker b = x) (hcur : x.entry = some cur)
    (hnewer : cur.leaderEpoch < m.leaderEpoch) (hleader : m.leaderId ∈ cfg.nodes) :
    EndsWith cfg b s (.replicaAdopt conn m cur cut)
      (if x.log.length < m.record.offset then x.log
      else
        match x.log.appendReplica m.record.offset m.record.toRecord with
        | .ok (_, log') => log'
        | .error _ => x.log) := by
  have happ : applyEntry cfg (some cur) (adopted cfg m cur) = .ok (adopted cfg m cur) :=
    applyEntry_newer hleader hnewer
  refine EndsWith.go (e := ⟨{ x with entry := some (adopted cfg m cur) }, .replicaExpected conn m,
    [], [], []⟩) rfl (by simp only [taskStep, hx, hcur, happ]) ?_
  exact endsWith_replicaExpected (x := { x with entry := some (adopted cfg m cur) })
    (setBroker_broker _ _ _)

/-- **`ReplicateRecord`** with a newer epoch cuts the log at the offset of the record. -/
theorem endsWith_replicaTail (hx : s.broker b = x) (hcur : x.entry = some cur)
    (hnewer : cur.leaderEpoch < m.leaderEpoch) (hleader : m.leaderId ∈ cfg.nodes) :
    EndsWith cfg b s (.replicaTail conn m cur) (replacedAt m.record x.log) := by
  unfold replacedAt cutAt
  by_cases hlt : m.record.offset < x.log.length
  · rw [if_pos hlt]
    refine EndsWith.go (e := ⟨x, .replicaTruncate conn m cur, [], [], []⟩) rfl
      (by simp only [taskStep, hx, if_pos hlt]) ?_
    refine EndsWith.go (e := ⟨{ x with log := x.log.take m.record.offset },
      .replicaAdopt conn m cur (m.record.offset < x.log.length), [], [], []⟩) rfl
      (by simp only [taskStep, setBroker_broker, truncateTo_below hlt]) ?_
    exact endsWith_replicaAdopt (setBroker_broker _ _ _) hcur hnewer hleader
  · rw [if_neg hlt]
    refine EndsWith.go (e := ⟨x, .replicaAdopt conn m cur false, [], [], []⟩) rfl
      (by simp only [taskStep, hx, if_neg hlt]) ?_
    exact endsWith_replicaAdopt (setBroker_broker _ _ _) hcur hnewer hleader

theorem endsWith_promoteApply (hx : s.broker b = x) :
    EndsWith cfg b s (.promoteApply l cur cut) x.log := by
  subst hx
  cases happ : applyEntry cfg (s.broker b).entry l with
  | error e =>
    exact EndsWith.last (e := ⟨s.broker b, .done, [], [], []⟩) rfl (by simp only [taskStep, happ]) rfl
  | ok e =>
    exact EndsWith.last (e := ⟨{ s.broker b with entry := some e }, .done, broadcast cfg b l, [],
      if epochOf (s.broker b).entry < l.leaderEpoch then [l] else []⟩) rfl
      (by simp only [taskStep, happ]) rfl

theorem endsWith_promoteTail (hx : s.broker b = x) :
    EndsWith cfg b s (.promoteTail l cur) (cutAt l.highWatermark x.log) := by
  by_cases hlt : l.highWatermark < x.log.length
  · rw [cutAt, if_pos hlt]
    refine EndsWith.go (e := ⟨x, .promoteTruncate l cur, [], [], []⟩) rfl
      (by simp only [taskStep, hx, if_pos hlt]) ?_
    refine EndsWith.go (e := ⟨{ x with log := x.log.take l.highWatermark },
      .promoteApply l cur (l.highWatermark < x.log.length), [], [], []⟩) rfl
      (by simp only [taskStep, setBroker_broker, truncateTo_below hlt]) ?_
    exact endsWith_promoteApply (setBroker_broker _ _ _)
  · rw [cutAt, if_neg hlt]
    refine EndsWith.go (e := ⟨x, .promoteApply l cur false, [], [], []⟩) rfl
      (by simp only [taskStep, hx, if_neg hlt]) ?_
    exact endsWith_promoteApply (setBroker_broker _ _ _)

/-- **`promote_leader`** leaves the log alone or cuts it at the watermark of its own entry, whatever
the other replicas answer. -/
theorem runs_promoteQuery {remaining : List BrokerId} {offsets : List (BrokerId × Nat)}
    (hx : s.broker b = x) :
    (∃ s', Runs cfg b s (.promoteQuery b cur remaining offsets) s') ∧
    ∀ s', Runs cfg b s (.promoteQuery b cur remaining offsets) s' →
      (s'.broker b).log = x.log ∨ (s'.broker b).log = cutAt cur.highWatermark x.log := by
  induction remaining generalizing s offsets with
  | cons node remaining ih =>
    have hset : (s.setBroker b (s.broker b)).broker b = x := by rw [setBroker_broker, hx]
    refine ⟨?_, fun s' h => ?_⟩
    · obtain ⟨s', hs'⟩ := (@ih (s.setBroker b (s.broker b))
        (offsets ++ [(node, (s.broker node).log.length)]) hset).1
      exact ⟨s', .step (c := .go) rfl hs'⟩
    · cases h with
      | @step _ _ _ c e hs hrest =>
        cases c with
        | go =>
          cases hs
          exact (ih hset).2 s' hrest
        | fail =>
          cases hs
          exact (ih hset).2 s' hrest
        | _ => cases hs
  | nil =>
    have hdone := endsWith_done cfg b (s.setBroker b x)
    have htail := @endsWith_promoteTail cfg b (s.setBroker b x) (promoted b cur) cur x
      (setBroker_broker _ _ _)
    rw [setBroker_broker] at hdone
    have hcode : ∃ e : Effect, taskStep cfg s b (.promoteQuery b cur [] offsets) .go = some e ∧
        e.broker = x ∧ (e.task = .done ∨ e.task = .promoteTail (promoted b cur) cur) := by
      simp only [taskStep, if_true, hx]
      split
      · exact ⟨_, rfl, rfl, Or.inl rfl⟩
      · split
        · exact ⟨_, rfl, rfl, Or.inl rfl⟩
        · exact ⟨_, rfl, rfl, Or.inr rfl⟩
    obtain ⟨e, he, hbroker, htask⟩ := hcode
    have hends : (∃ s', Runs cfg b (s.setBroker b e.broker) e.task s') ∧
        ∀ s', Runs cfg b (s.setBroker b e.broker) e.task s' →
          (s'.broker b).log = x.log ∨ (s'.broker b).log = cutAt cur.highWatermark x.log := by
      rw [hbroker]
      rcases htask with htask | htask
      · rw [htask]
        exact ⟨hdone.1, fun s' h => Or.inl (hdone.2 s' h)⟩
      · rw [htask]
        exact ⟨htail.1, fun s' h => Or.inr (htail.2 s' h)⟩
    refine ⟨?_, fun s' h => ?_⟩
    · obtain ⟨s', hs'⟩ := hends.1
      exact ⟨s', .step he hs'⟩
    · cases h with
      | @step _ _ _ c e' hs hrest =>
        cases c with
        | go =>
          rw [he] at hs
          cases hs
          exact hends.2 s' hrest
        | _ => cases hs

end Handlers

/-! ## Committed records -/

section Committed

variable {cur : PartitionLeadership} {log : RecordLog}

/-- A cut at the watermark or behind it. -/
theorem keepsCommitted_cutAt {n : Nat} (h : cur.highWatermark ≤ n) :
    KeepsCommitted cur log (cutAt n log) := by
  intro i hi
  unfold cutAt
  split
  · exact List.getElem?_take_of_lt (by omega)
  · rfl

/-- A cut below the watermark takes a committed record away. -/
theorem not_keepsCommitted {n : Nat} {log' : RecordLog} (hend : cur.highWatermark ≤ log.length)
    (hn : n < cur.highWatermark) (hlen : log'.length ≤ n) : ¬ KeepsCommitted cur log log' := by
  intro h
  have hi := h n hn
  rw [List.getElem?_eq_none hlen] at hi
  exact absurd hi.symm (by simp; omega)

/-- What is left of a log in which a record was replaced: the records before it and, perhaps, the
new one. -/
theorem replacedAt_cases (f : FetchedRecord) (log : RecordLog) :
    (log.length < f.offset ∧ replacedAt f log = log) ∨
    (f.offset ≤ log.length ∧ (replacedAt f log = log.take f.offset ++ [f.toRecord] ∨
      (replacedAt f log = log.take f.offset ∧ checkRecord f.toRecord ≠ .ok ()))) := by
  rcases Nat.lt_or_ge log.length f.offset with hlt | hle
  · refine Or.inl ⟨hlt, ?_⟩
    have hcut : cutAt f.offset log = log := if_neg (by omega)
    rw [replacedAt, hcut, if_pos hlt]
  · refine Or.inr ⟨hle, ?_⟩
    have hcut : cutAt f.offset log = log.take f.offset := by
      unfold cutAt
      split
      · rfl
      · rw [List.take_of_length_le (by omega)]
    have hlen : (log.take f.offset).length = f.offset := List.length_take_of_le hle
    have hnone : (log.take f.offset)[f.offset]? = none := List.getElem?_eq_none (by omega)
    have hadmit : admission (RecordLog.producerState (log.take f.offset)) f.toRecord = .ok none := rfl
    rw [replacedAt, hcut, if_neg (by omega), RecordLog.appendReplica, hnone]
    simp only [hlen, ne_eq, not_true, if_false, RecordLog.append, hadmit]
    cases hcheck : checkRecord f.toRecord with
    | error e => exact Or.inr ⟨rfl, fun h => by cases h⟩
    | ok u => exact Or.inl rfl

theorem replaced_keeps_iff {f : FetchedRecord} (hend : cur.highWatermark ≤ log.length)
    (hchecked : ∀ r ∈ log, checkRecord r = .ok ()) :
    KeepsCommitted cur log (replacedAt f log) ↔ cur.highWatermark ≤ f.offset ∨
      (cur.highWatermark = f.offset + 1 ∧ log[f.offset]? = some f.toRecord) := by
  rcases replacedAt_cases f log with ⟨hlt, hsame⟩ | ⟨hle, hor⟩
  · rw [hsame]
    exact ⟨fun _ => Or.inl (by omega), fun _ i _ => rfl⟩
  have hlen : (log.take f.offset).length = f.offset := List.length_take_of_le hle
  have hbefore : ∀ i < f.offset, (replacedAt f log)[i]? = log[i]? := by
    intro i hi
    have htake : (log.take f.offset)[i]? = log[i]? := List.getElem?_take_of_lt hi
    rcases hor with heq | ⟨heq, _⟩
    · rw [heq, List.getElem?_append_left (by omega), htake]
    · rw [heq, htake]
  have hat : (replacedAt f log)[f.offset]? = some f.toRecord ∨
      ((replacedAt f log)[f.offset]? = none ∧ checkRecord f.toRecord ≠ .ok ()) := by
    rcases hor with heq | ⟨heq, hcheck⟩
    · left
      rw [heq, List.getElem?_append_right (by omega), hlen, Nat.sub_self]
      rfl
    · right
      exact ⟨by rw [heq]; exact List.getElem?_eq_none (by omega), hcheck⟩
  have hshort : (replacedAt f log).length ≤ f.offset + 1 := by
    rcases hor with heq | ⟨heq, _⟩
    · rw [heq, List.length_append, hlen]
      exact Nat.le_refl _
    · rw [heq, hlen]
      exact Nat.le_succ _
  constructor
  · intro hkeeps
    rcases Nat.lt_or_ge f.offset cur.highWatermark with hbelow | habove
    · right
      have hhw : cur.highWatermark = f.offset + 1 := by
        by_contra hne
        exact not_keepsCommitted hend (show f.offset + 1 < cur.highWatermark by omega) hshort hkeeps
      refine ⟨hhw, ?_⟩
      have hsame := hkeeps f.offset hbelow
      rcases hat with hnew | ⟨hgone, _⟩
      · rw [← hsame, hnew]
      · rw [hgone] at hsame
        exact absurd hsame.symm (by simp; omega)
    · exact Or.inl habove
  · rintro (habove | ⟨hhw, hrecord⟩)
    · intro i hi
      exact hbefore i (by omega)
    · intro i hi
      rcases Nat.lt_or_ge i f.offset with hlt | hge
      · exact hbefore i hlt
      · obtain rfl : i = f.offset := by omega
        have hcheck : checkRecord f.toRecord = .ok () :=
          hchecked _ (List.mem_of_getElem? hrecord)
        rcases hat with hnew | ⟨_, hno⟩
        · rw [hnew, hrecord]
        · exact absurd hcheck hno

/-- **Committed records and truncation.**  A request of a newer epoch is handled to its end, and the
records below the watermark of the broker's entry are then as before exactly when the request does
not cut behind it. -/
theorem committed_kept_iff (cfg : ClusterConfig) {s : State} {b : BrokerId}
    {cur : PartitionLeadership} {request : Request} (hentry : (s.broker b).entry = some cur)
    (hend : cur.highWatermark ≤ (s.broker b).log.length)
    (hchecked : ∀ r ∈ (s.broker b).log, checkRecord r = .ok ())
    (hnewer : request.Newer cfg b cur) :
    (∃ s', Handled cfg s b request s') ∧
    ((∀ s', Handled cfg s b request s' →
        KeepsCommitted cur (s.broker b).log (s'.broker b).log) ↔
      request.Spares cur (s.broker b).log) := by
  have hdetermined : ∀ {t : Task} {log : RecordLog}, request.task cfg s b = some (b, t) →
      EndsWith cfg b s t log → (∃ s', Handled cfg s b request s') ∧
        ((∀ s', Handled cfg s b request s' →
          KeepsCommitted cur (s.broker b).log (s'.broker b).log) ↔
        KeepsCommitted cur (s.broker b).log log) := by
    intro t log htask hends
    obtain ⟨⟨s', hruns⟩, hall⟩ := hends
    refine ⟨⟨s', t, htask, hruns⟩, fun hkeeps => ?_, fun hkeeps s' hhandled => ?_⟩
    · rw [← hall s' hruns]
      exact hkeeps s' ⟨t, htask, hruns⟩
    · obtain ⟨t', htask', hruns'⟩ := hhandled
      rw [htask] at htask'
      cases htask'
      rw [hall s' hruns']
      exact hkeeps
  cases request with
  | applyLeadership l =>
    obtain ⟨hepoch, _⟩ := hnewer
    have htask : Request.task cfg s b (.applyLeadership l) = some (b, .leadershipTail l cur) := by
      simp only [Request.task, receive, hentry, if_pos hepoch]
    obtain ⟨hex, hiff⟩ := hdetermined htask (endsWith_leadershipTail rfl)
    refine ⟨hex, hiff.trans ⟨fun hkeeps => ?_, fun hle => keepsCommitted_cutAt hle⟩⟩
    by_contra hlt
    have hbelow : l.highWatermark < cur.highWatermark := Nat.not_le.1 hlt
    refine not_keepsCommitted hend hbelow ?_ hkeeps
    rw [cutAt, if_pos (by omega)]
    exact List.length_take_le _ _
  | replicate conn sender m =>
    obtain ⟨hepoch, hleader⟩ := hnewer
    have htask : Request.task cfg s b (.replicate conn sender m) = some (b, .replicaTail conn m cur) := by
      simp only [Request.task, receive, hentry]
      rw [if_neg (by omega), if_pos hepoch]
    obtain ⟨hex, hiff⟩ := hdetermined htask (endsWith_replicaTail rfl hentry hepoch hleader)
    exact ⟨hex, hiff.trans (replaced_keeps_iff hend hchecked)⟩
  | promoteSelf =>
    obtain ⟨_, hreplica⟩ := hnewer
    have hmem : cfg.isPartitionReplica b = true := by
      simpa [ClusterConfig.isPartitionReplica] using hreplica
    have htask : Request.task cfg s b .promoteSelf =
        some (b, .promoteQuery b cur (cfg.nodes.filter cfg.isPartitionReplica) []) := by
      simp only [Request.task, hentry, hmem, if_true]
    obtain ⟨⟨s', hruns⟩, hall⟩ := @runs_promoteQuery cfg b s cur (s.broker b)
      (cfg.nodes.filter cfg.isPartitionReplica) [] rfl
    refine ⟨⟨s', _, htask, hruns⟩, fun _ => trivial, fun _ s' hhandled => ?_⟩
    obtain ⟨t', htask', hruns'⟩ := hhandled
    rw [htask] at htask'
    cases htask'
    rcases hall s' hruns' with hsame | hcut
    · rw [hsame]
      exact fun i _ => rfl
    · rw [hcut]
      exact keepsCommitted_cutAt (Nat.le_refl _)

end Committed

/-- Two records are committed, broker 2 is made leader again, in epoch 1, and the producer of the
first record repeats its request.  Broker 3 has not heard of epoch 1. -/
def repeatedInNewEpoch : List Action :=
  [.createTopic 1, .createTopic 2, .createTopic 3,
    -- the first record, on both followers and committed
    .produce 2 (producerRequest [] [7] "p" 0), .task 0 (.stamp [1]), .task 0 .go, .task 0 .go,
    .task 0 .go, .deliver 0, .task 1 .go, .task 1 .go, .task 0 (.receive 1),
    .task 0 .go, .deliver 2, .task 2 .go, .task 2 .go, .task 0 (.receive 3), .task 0 .go, .task 0 .go,
    -- the second record
    .produce 2 (oneRecord 8 .durable), .task 3 (.stamp [2]), .task 3 .go, .task 3 .go,
    .task 3 .go, .deliver 6, .task 4 .go, .task 4 .go, .task 3 (.receive 7),
    .task 3 .go, .deliver 8, .task 5 .go, .task 5 .go, .task 3 (.receive 9), .task 3 .go, .task 3 .go,
    .deliver 10, .task 6 .go, .deliver 11, .task 7 .go,
    -- epoch 1 reaches broker 2
    .promote 2, .task 8 .go, .task 8 .go, .task 8 .go, .task 8 .go, .task 8 .go,
    .deliver 12, .task 9 .go, .task 9 .go,
    -- the repeated request
    .produce 2 (producerRequest [] [7] "p" 0), .task 10 (.stamp [3]), .task 10 .go, .task 10 .go,
    .task 10 .go]

/-- The record that is pushed to broker 3. -/
def oldRecord : ReplicateRecord := ⟨⟨0, 1, none, [7]⟩, true, 2, 1⟩

/-- The leader pushes record 0 again; broker 3 removes record 1, which it knows to be committed. -/
theorem retry_cuts_committed :
    ∃ s s' cur, run (step threeNodes) State.init repeatedInNewEpoch = some s ∧
      .replicate 38 2 3 oldRecord ∈ s.net ∧ (s.broker 3).entry = some cur ∧
      cur.highWatermark ≤ (s.broker 3).log.length ∧
      Handled threeNodes s 3 (.replicate 38 2 oldRecord) s' ∧
      ¬ KeepsCommitted cur (s.broker 3).log (s'.broker 3).log := by
  have hrun : (run (step threeNodes) State.init repeatedInNewEpoch).any (fun s =>
      .replicate 38 2 3 oldRecord ∈ s.net ∧ (s.broker 3).entry = some ⟨1, 2, 0, 2⟩ ∧
      (s.broker 3).log.length = 2) := by decide +kernel
  obtain ⟨s, hr, hs⟩ := (Option.any_eq_true _ _).1 hrun
  simp only [Bool.decide_and, Bool.and_eq_true, decide_eq_true_eq] at hs
  obtain ⟨hmem, hentry, hlen⟩ := hs
  have htask : Request.task threeNodes s 3 (.replicate 38 2 oldRecord) =
      some (3, .replicaTail 38 oldRecord ⟨1, 2, 0, 2⟩) := by
    simp only [Request.task, receive, hentry]
    rfl
  obtain ⟨⟨s', hruns⟩, hall⟩ := @endsWith_replicaTail threeNodes 3 s ⟨1, 2, 0, 2⟩ 38 oldRecord
    (s.broker 3) rfl hentry (by decide) (by decide)
  refine ⟨s, s', ⟨1, 2, 0, 2⟩, hr, hmem, hentry, by rw [hlen], ⟨_, htask, hruns⟩, ?_⟩
  have hshort : (s'.broker 3).log.length ≤ 1 := by
    rw [hall s' hruns]
    rcases replacedAt_cases oldRecord.record (s.broker 3).log with ⟨hlt, _⟩ | ⟨_, heq | ⟨heq, _⟩⟩
    · exact absurd hlt (Nat.not_lt_zero _)
    · rw [heq]
      simp [oldRecord]
    · rw [heq]
      simp [oldRecord]
  exact not_keepsCommitted (Nat.le_of_eq hlen.symm) (by decide) hshort

/-- Broker 3 has the record at its watermark, and the next leader pushes the one after it. -/
theorem committed_kept_iff_next :
    ∃ s', Handled threeNodes (copiedState [Record.new none [7] 1] [Record.new none [7] 1]) 3
        (.replicate 0 1 ⟨⟨1, 2, none, [8]⟩, true, 1, 5⟩) s' ∧
      KeepsCommitted ⟨1, 2, 4, 1⟩ [Record.new none [7] 1] (s'.broker 3).log := by
  obtain ⟨⟨s', hhandled⟩, hiff⟩ := @committed_kept_iff threeNodes
    (copiedState [Record.new none [7] 1] [Record.new none [7] 1]) 3 ⟨1, 2, 4, 1⟩
    (.replicate 0 1 ⟨⟨1, 2, none, [8]⟩, true, 1, 5⟩) rfl (by decide) (by decide)
    ⟨by decide, by decide⟩
  exact ⟨s', hhandled, hiff.2 (Or.inl (by decide)) s' hhandled⟩

end SevlaMq.Cluster
