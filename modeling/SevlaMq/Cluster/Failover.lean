import SevlaMq.Cluster.Watermark

/-!
# Durable acknowledgements and failover

A durable produce is answered once enough replicas hold the record and the leader has raised its
own watermark; the other brokers learn of the watermark by a broadcast that may be lost.  A
promotion cuts the log at the watermark of the controller.

* `Survives` — the broker the controller names as leader holds every record acknowledged to a
  durable produce.
* `acknowledged_record_lost` — a run on which the broadcast of a commit is lost, and the
  controller promotes itself and has cut its log at a watermark below the record.
* `KeepsDurable` — the condition on a step, on top of `KeepsWatermark`: a durable record is
  committed in the controller's epoch; a candidate is measured in the controller's epoch; a
  promotion applies a watermark that covers what the present leader has committed; and no request
  cuts a log under another entry than the one it was checked against.
* `durable_records_survive` — `Survives` on every run within the condition.
-/

set_option autoImplicit false

namespace SevlaMq.Cluster

open SevlaMq.Storage SevlaMq.Lineage

variable {cfg : ClusterConfig}

/-- Every record acknowledged to a durable produce is in the log of the broker that the
controller's registry names as leader, at its offset. -/
def Survives (cfg : ClusterConfig) (s : State) : Prop :=
  ∀ x ∈ s.answers, x.ackMode = .durable → ∀ c, (s.broker cfg.controller).entry = some c →
    InLog (contents (s.broker c.leaderId).log) x.record

/-! ## A lost record -/

/-- The record is on brokers 2 and 3 and acknowledged; the controller has not heard of it. -/
def lostBroadcastRun : List Action :=
  [.createTopic 1, .createTopic 2, .createTopic 3, .produce 2 (oneRecord 7 .durable),
    .task 0 (.stamp [5]), .task 0 .go, .task 0 .go, .task 0 .go, .deliver 0, .task 1 .go,
    .task 1 .go, .task 0 (.receive 1), .task 0 .fail, .task 0 .go, .task 0 .go, .promote 1,
    .task 2 .go, .task 2 .fail, .task 2 .go, .task 2 .go, .task 2 .go, .task 2 .go]

theorem acknowledged_record_lost : ∃ s,
    run (step threeNodes) State.init lostBroadcastRun = some s ∧ ¬ Survives threeNodes s := by
  refine ⟨_, rfl, fun h => ?_⟩
  have := h ⟨2, .durable, ⟨0, 5, none, [7]⟩⟩ (by decide +kernel) rfl ⟨1, 1, 1, 0⟩ rfl
  exact absurd this (by unfold InLog; decide +kernel)

/-! ## The condition on a step -/

/-- The watermark `h` covers what the leader of the controller's epoch has committed. -/
def coversLeader (cfg : ClusterConfig) (s : State) (h : Nat) : Bool :=
  (s.broker cfg.controller).entry.all fun c =>
    (s.broker c.leaderId).entry.all fun l =>
      l.leaderEpoch ≠ c.leaderEpoch || l.highWatermark ≤ h

/-- What a task needs for the durable records to survive its step. -/
def Task.survivable (cfg : ClusterConfig) (s : State) (b : BrokerId) : Task → Bool
  | .contact r =>
    !(r.ackMode = .durable ∧ r.followers = [] ∧ cfg.minInSyncReplicas ≤ r.acknowledgements ∧
        r.current.record.offset + 1 ≤ (s.broker b).highWatermark) ||
      epochOf (s.broker cfg.controller).entry = r.current.origin
  | .commitApply r l =>
    r.ackMode = .leader || epochOf (s.broker cfg.controller).entry = l.leaderEpoch
  | .replicaTruncate _ _ cur => epochOf (s.broker b).entry = cur.leaderEpoch
  | .leadershipTruncate _ cur => epochOf (s.broker b).entry = cur.leaderEpoch
  | .promoteTruncate _ cur => (s.broker b).entry = some cur
  | .promoteQuery candidate _ (node :: _) _ =>
    node ≠ candidate || (s.broker candidate).entry.any
      (·.leaderEpoch = epochOf (s.broker cfg.controller).entry)
  | .promoteApply _ cur _ => coversLeader cfg s cur.highWatermark
  | _ => true

def Survivable (cfg : ClusterConfig) (s : State) (a : Action) : Prop :=
  ∀ p ∈ stepped s a, p.2.survivable cfg s p.1

def KeepsDurable (cfg : ClusterConfig) (s : State) (a : Action) : Prop :=
  KeepsWatermark cfg s a ∧ Survivable cfg s a

instance (s : State) (a : Action) : Decidable (Survivable cfg s a) :=
  inferInstanceAs (Decidable (∀ p ∈ stepped s a, p.2.survivable cfg s p.1))

instance (s : State) (a : Action) : Decidable (KeepsDurable cfg s a) :=
  inferInstanceAs (Decidable (KeepsWatermark cfg s a ∧ Survivable cfg s a))

/-! ## The newest epoch -/

/-- The leadership the newest epoch started with. -/
def newestEpoch (cfg : ClusterConfig) (s : State) : PartitionLeadership :=
  (epochs cfg s).getLast (List.cons_ne_nil _ _)

theorem newestEpoch_get (s : State) : (epochs cfg s)[s.elected.length]? = some (newestEpoch cfg s) := by
  have h := List.getLast?_eq_some_getLast (show epochs cfg s ≠ [] from List.cons_ne_nil _ _)
  rw [List.getLast?_eq_getElem?] at h
  exact h

theorem newestEpoch_same {s s' : State} (h : epochs cfg s' = epochs cfg s) :
    newestEpoch cfg s' = newestEpoch cfg s := by
  unfold newestEpoch
  simp only [h]

theorem newestEpoch_elected {s s' : State} {l : PartitionLeadership}
    (h : epochs cfg s' = epochs cfg s ++ [l]) : newestEpoch cfg s' = l := by
  unfold newestEpoch
  simp only [h, List.getLast_append_singleton]

namespace Elections

variable {s : State}

theorem newest_epoch (h : Elections cfg s) : (newestEpoch cfg s).leaderEpoch = s.elected.length :=
  (h.numbered _ _ (newestEpoch_get s)).1

theorem newest_named (h : Elections cfg s) : (newestEpoch cfg s).Named (epochs cfg s) := by
  refine ⟨newestEpoch cfg s, ?_, rfl⟩
  rw [h.newest_epoch]
  exact newestEpoch_get s

theorem start_newest (h : Elections cfg s) :
    startAt (epochs cfg s) (newestEpoch cfg s).leaderEpoch = (newestEpoch cfg s).highWatermark := by
  rw [h.newest_epoch]
  exact startAt_of (newestEpoch_get s)

/-- The controller is at the newest epoch. -/
theorem controller_epoch (h : Elections cfg s) :
    epochOf (s.broker cfg.controller).entry = (newestEpoch cfg s).leaderEpoch := by
  rw [h.newest_epoch]
  exact h.newest

theorem le_newest (h : Elections cfg s) {ep : Nat} {id : BrokerId}
    (hn : Names (epochs cfg s) ep id) : ep ≤ (newestEpoch cfg s).leaderEpoch := by
  have h1 := hn.lt
  have h2 : (epochs cfg s).length = s.elected.length + 1 := rfl
  rw [h.newest_epoch]
  omega

/-- Whoever is at the newest epoch knows its leader. -/
theorem leader_newest (h : Elections cfg s) {b : BrokerId} {l : PartitionLeadership}
    (he : (s.broker b).entry = some l) (hep : l.leaderEpoch = (newestEpoch cfg s).leaderEpoch) :
    l.leaderId = (newestEpoch cfg s).leaderId := by
  have h1 := h.named_entry he
  unfold PartitionLeadership.Named at h1
  rw [hep] at h1
  exact h1.unique h.newest_named

end Elections

/-! ## The invariant -/

/-- The leader of the newest epoch has taken it up. -/
def TakenUp (cfg : ClusterConfig) (s : State) : Prop :=
  ∃ l, (s.broker (newestEpoch cfg s).leaderId).entry = some l ∧
    l.leaderEpoch = (newestEpoch cfg s).leaderEpoch

/-- A leader that has not taken up its epoch is in the one before and holds all it starts with. -/
def Successor (cfg : ClusterConfig) (s : State) : Prop :=
  ¬ TakenUp cfg s → (newestEpoch cfg s).leaderEpoch ≠ 0 →
    ∃ c, (s.broker (newestEpoch cfg s).leaderId).entry = some c ∧
      c.leaderEpoch + 1 = (newestEpoch cfg s).leaderEpoch ∧
      (newestEpoch cfg s).highWatermark ≤ (s.broker (newestEpoch cfg s).leaderId).log.length

/-- The replication a task is in. -/
def Task.replication : Task → Option Replication
  | .contact r => some r
  | .awaitAck r _ _ _ => some r
  | .catchUp r _ _ => some r
  | .commitApply r _ => some r
  | _ => none

/-- The record has been acknowledged to a durable produce, or will be when the remaining records
of the request are committed. -/
def Protected (s : State) (f : FetchedRecord) : Prop :=
  (∃ x ∈ s.answers, x.ackMode = .durable ∧ x.record = f) ∨
  ∃ p ∈ s.tasks, ∃ r, p.2.replication = some r ∧ r.ackMode = .durable ∧ f ∈ r.finished

/-- The record is in the log of the newest epoch, below what its leader starts with or has
committed. -/
structure Kept (cfg : ClusterConfig) (own : Owned) (s : State) (f : FetchedRecord) : Prop where
  inLog : InLog (epochLog own (epochs cfg s) (newestEpoch cfg s).leaderEpoch) f
  start : ¬ TakenUp cfg s → f.offset < (newestEpoch cfg s).highWatermark
  committed : ∀ l, (s.broker (newestEpoch cfg s).leaderId).entry = some l →
    l.leaderEpoch = (newestEpoch cfg s).leaderEpoch → f.offset < l.highWatermark

/-- The candidate of a promotion from the newest epoch is in that epoch and holds what the
promotion starts the next one with. -/
def Ready (cfg : ClusterConfig) (s : State) (candidate : BrokerId) (cur : PartitionLeadership) :
    Prop :=
  cur.leaderEpoch = (newestEpoch cfg s).leaderEpoch →
    ∃ c, (s.broker candidate).entry = some c ∧ c.leaderEpoch = (newestEpoch cfg s).leaderEpoch ∧
      cur.highWatermark ≤ (s.broker candidate).log.length

def Task.Ready (cfg : ClusterConfig) (s : State) : Task → Prop
  | .promoteQuery candidate cur _ offsets => ∀ p, offsets.find? (·.1 == candidate) = some p →
      cur.highWatermark ≤ p.2 → Cluster.Ready cfg s candidate cur
  | .promoteTail l cur => Cluster.Ready cfg s l.leaderId cur
  | .promoteTruncate l cur => Cluster.Ready cfg s l.leaderId cur
  | .promoteApply l cur _ => Cluster.Ready cfg s l.leaderId cur
  | _ => True

/-- **The failover invariant.** -/
structure Survivors (cfg : ClusterConfig) (own : Owned) (s : State) : Prop where
  watermarks : Watermarks cfg own s
  ready : ∀ p ∈ s.tasks, p.2.Ready cfg s
  successor : Successor cfg s
  kept : ∀ f, Protected s f → Kept cfg own s f

theorem Survivors.init (cfg : ClusterConfig) : Survivors cfg (fun _ => none) State.init where
  watermarks := Watermarks.init cfg
  ready := fun p h => by cases h
  successor := fun _ h => absurd rfl h
  kept := fun f h => by
    obtain ⟨x, hx, _⟩ | ⟨p, hp, _⟩ := h
    · cases hx
    · cases hp

/-! ## What a step can cut, found and commit -/

/-- A step that shortens a log is the truncation of a request. -/
inductive Shortens (s : State) (a : Action) (b : BrokerId) (e : Effect) : Prop
  | no (h : (s.broker b).log.length ≤ e.broker.log.length)
  | replica {conn : Nat} {m : ReplicateRecord} {cur : PartitionLeadership}
      (ht : stepped s a = some (b, .replicaTruncate conn m cur))
      (hmem : (b, Task.replicaTruncate conn m cur) ∈ s.tasks)
  | leadership {l cur : PartitionLeadership}
      (ht : stepped s a = some (b, .leadershipTruncate l cur))
      (hmem : (b, Task.leadershipTruncate l cur) ∈ s.tasks)
      (hlen : e.broker.log.length = l.highWatermark)
  | promote {l cur : PartitionLeadership} (ht : stepped s a = some (b, .promoteTruncate l cur))
      (hmem : (b, Task.promoteTruncate l cur) ∈ s.tasks)
      (hlen : e.broker.log.length = l.highWatermark)

theorem Move.shortens {s : State} {a : Action} {b : BrokerId} {e : Effect}
    (hm : Move cfg s a b e) : Shortens s a b e := by
  cases hm with
  | task ht hs =>
    cases hs with
    | append happ => exact .no (appendInputs_isPrefix happ).length_le
    | replicaStore hst => exact .no (appendReplica_grows hst).length_le
    | recoverStore he hst => exact .no (appendReplica_grows hst).length_le
    | replicaTruncate => exact .replica (stepped_go ht) (List.mem_of_getElem? ht)
    | leadershipTruncate hl =>
      exact .leadership (stepped_go ht) (List.mem_of_getElem? ht) (List.length_take_of_le hl)
    | promoteTruncate hl =>
      exact .promote (stepped_go ht) (List.mem_of_getElem? ht) (List.length_take_of_le hl)
    | _ => exact .no (Nat.le_refl _)
  | _ => exact .no (Nat.le_refl _)

/-- The promotion `promoteApply l cur cut` founds an epoch in this step. -/
structure Founds (s : State) (a : Action) (b : BrokerId) (e : Effect)
    (l cur : PartitionLeadership) : Prop where
  stepped : ∃ cut, Cluster.stepped s a = some (b, .promoteApply l cur cut) ∧
    (b, Task.promoteApply l cur cut) ∈ s.tasks
  broker : e.broker = { s.broker b with entry := some l }
  elected : e.elected = [l]
  task : e.task = .done
  answered : e.answered = []

/-- A step founds an epoch or leaves the epochs alone. -/
theorem Move.founds {s : State} {a : Action} {b : BrokerId} {e : Effect}
    (hm : Move cfg s a b e) : e.elected = [] ∨ ∃ l cur, Founds s a b e l cur := by
  cases hm with
  | task ht hs =>
    cases hs with
    | @promoteApply l cur cut ha =>
      by_cases hlt : epochOf (s.broker b).entry < l.leaderEpoch
      · exact Or.inr ⟨l, cur, ⟨cut, stepped_go ht, List.mem_of_getElem? ht⟩, rfl, if_pos hlt, rfl,
          rfl⟩
      · exact Or.inl (if_neg hlt)
    | _ => exact Or.inl rfl
  | _ => exact Or.inl rfl

/-- The step commits the record `f` of a durable produce. -/
inductive Commits (cfg : ClusterConfig) (s : State) (a : Action) (b : BrokerId) (e : Effect)
    (f : FetchedRecord) : Prop
  | found {r : Replication} {l : PartitionLeadership} (hd : r.ackMode = .durable)
      (hf : r.current.record = f) (ht : stepped s a = some (b, .contact r))
      (hmem : (b, Task.contact r) ∈ s.tasks) (hfol : r.followers = [])
      (hmin : cfg.minInSyncReplicas ≤ r.acknowledgements) (he : (s.broker b).entry = some l)
      (hw : r.current.record.offset + 1 ≤ l.highWatermark) (hb : e.broker = s.broker b)
  | raised {r : Replication} {l : PartitionLeadership} (hd : r.ackMode = .durable)
      (hf : r.current.record = f) (ht : stepped s a = some (b, .commitApply r l))
      (hmem : (b, Task.commitApply r l) ∈ s.tasks) (he : e.broker.entry = some l)

theorem finish_finished {b : BrokerId} {r r' : Replication} {f : FetchedRecord}
    (h : (finishRecord cfg b r).1.replication = some r') (hd : r'.ackMode = .durable)
    (hf : f ∈ r'.finished) : r.ackMode = .durable ∧ (f ∈ r.finished ∨ r.current.record = f) := by
  unfold finishRecord at h
  split at h
  · cases h
    refine ⟨hd, ?_⟩
    rcases List.mem_append.1 hf with hf | hf
    · exact Or.inl hf
    · exact Or.inr (List.mem_singleton.1 hf).symm
  · cases h

theorem finish_answered {b : BrokerId} {r : Replication} {x : Answer}
    (h : x ∈ (finishRecord cfg b r).2) :
    r.ackMode = .durable ∧ (x.record ∈ r.finished ∨ r.current.record = x.record) := by
  unfold finishRecord at h
  split at h
  · cases h
  · split at h
    · rename_i hd
      obtain ⟨f, hf, rfl⟩ := List.mem_map.1 h
      refine ⟨hd, ?_⟩
      rcases List.mem_append.1 hf with hf | hf
      · exact Or.inl hf
      · exact Or.inr (List.mem_singleton.1 hf).symm
    · cases h

/-- Records of a replication task that are finished or answered in this step were finished
before, or are committed by it. -/
theorem Move.protects {s : State} {a : Action} {b : BrokerId} {e : Effect} {f : FetchedRecord}
    (hm : Move cfg s a b e)
    (h : (∃ x ∈ e.answered, x.ackMode = .durable ∧ x.record = f) ∨
      ∃ r, e.task.replication = some r ∧ r.ackMode = .durable ∧ f ∈ r.finished) :
    Protected s f ∨ Commits cfg s a b e f := by
  cases hm with
  | task ht hs =>
    have hmem := List.mem_of_getElem? ht
    -- the continuation is in the replication the task was in
    have hold : ∀ {t : Task} {r : Replication}, (b, t) ∈ s.tasks → t.replication = some r →
        r.ackMode = .durable → f ∈ r.finished → Protected s f :=
      fun hp hr hd hf => Or.inr ⟨_, hp, _, hr, hd, hf⟩
    -- the record at hand is finished
    have hfinish : ∀ {t : Task} {r : Replication}, (b, t) ∈ s.tasks → t.replication = some r →
        ((∃ x ∈ (finishRecord cfg b r).2, x.ackMode = .durable ∧ x.record = f) ∨
          ∃ r', (finishRecord cfg b r).1.replication = some r' ∧ r'.ackMode = .durable ∧
            f ∈ r'.finished) →
        Protected s f ∨ (r.ackMode = .durable ∧ r.current.record = f) := fun hp hr hor => by
      obtain ⟨x, hx, _, rfl⟩ | ⟨r', hr', hd, hf⟩ := hor
      · obtain ⟨hd, hcase⟩ := finish_answered hx
        exact hcase.imp (hold hp hr hd) fun hcur => ⟨hd, hcur⟩
      · obtain ⟨hd', hcase⟩ := finish_finished hr' hd hf
        exact hcase.imp (hold hp hr hd') fun hcur => ⟨hd', hcur⟩
    cases hs with
    | dispatch =>
      obtain ⟨x, hx, hd, _⟩ | ⟨r, hr, _, hf⟩ := h
      · simp only at hx
        split at hx
        · obtain ⟨_, _, rfl⟩ := List.mem_map.1 hx
          cases hd
        · cases hx
      · cases hr; cases hf
    | skip hsk =>
      obtain ⟨x, hx, _⟩ | ⟨r, hr, hd, hf⟩ := h
      · cases hx
      · cases hr
        obtain rfl | ⟨_, _, _, rfl⟩ | ⟨_, _, rfl⟩ := hsk <;> exact Or.inl (hold hmem rfl hd hf)
    | contact | commitRead | behind | acked | catchUp =>
      obtain ⟨x, hx, _⟩ | ⟨r, hr, hd, hf⟩ := h
      · cases hx
      · cases hr
        exact Or.inl (hold hmem rfl hd hf)
    | committed hfol hmin he hw =>
      exact (hfinish hmem rfl h).imp_right fun ⟨hd, hcur⟩ =>
        .found hd hcur (stepped_go ht) hmem hfol hmin he hw rfl
    | uncommitted hfol hmode =>
      obtain hp | ⟨hd, _⟩ := hfinish hmem rfl h
      · exact Or.inl hp
      · rw [hmode] at hd; cases hd
    | commit ha =>
      exact (hfinish hmem rfl h).imp_right fun ⟨hd, hcur⟩ =>
        .raised hd hcur (stepped_go ht) hmem rfl
    | append =>
      obtain ⟨x, hx, _⟩ | ⟨r, hr, _⟩ := h
      · cases hx
      · revert hr; split <;> exact fun hr => by cases hr
    | recoverStore =>
      obtain ⟨x, hx, _⟩ | ⟨r, hr, _⟩ := h
      · cases hx
      · revert hr; split <;> exact fun hr => by cases hr
    | _ =>
      obtain ⟨x, hx, _⟩ | ⟨r, hr, _⟩ := h
      · cases hx
      · cases hr
  | _ =>
    obtain ⟨x, hx, _⟩ | ⟨r, hr, _⟩ := h
    · cases hx
    · cases hr

theorem protected_moved {s s' : State} {a : Action} {b : BrokerId} {e : Effect}
    {f : FetchedRecord} (hm : Move cfg s a b e) (hmv : Moved s a b e s') (h : Protected s' f) :
    Protected s f ∨ Commits cfg s a b e f := by
  obtain ⟨x, hx, hd, hf⟩ | ⟨p, hp, r, hr, hd, hf⟩ := h
  · rw [hmv.answers] at hx
    rcases List.mem_append.1 hx with hx | hx
    · exact Or.inl (Or.inl ⟨x, hx, hd, hf⟩)
    · exact hm.protects (Or.inl ⟨x, hx, hd, hf⟩)
  · rcases hmv.tasks p hp with hold | rfl
    · exact Or.inl (Or.inr ⟨p, others_subset hold, r, hr, hd, hf⟩)
    · exact hm.protects (Or.inr ⟨r, hr, hd, hf⟩)

namespace Survivors

variable {own own' : Owned} {s s' : State} {a : Action} {b : BrokerId} {e : Effect}

theorem elections (h : Survivors cfg own s) : Elections cfg s := h.watermarks.matching.elections

theorem survivable_of (hq : KeepsDurable cfg s a) {t : Task} (ht : stepped s a = some (b, t)) :
    t.survivable cfg s b = true := hq.2 _ ht

theorem epochs_same (hmv : Moved s a b e s') (hel : e.elected = []) :
    epochs cfg s' = epochs cfg s := by rw [epochs_moved hmv, hel, List.append_nil]

/-- A broker at the newest epoch stays there while no epoch is founded. -/
theorem stays (h : Survivors cfg own s) (hm : Move cfg s a b e) (hmv : Moved s a b e s')
    (hel : e.elected = []) {i : BrokerId} {c : PartitionLeadership}
    (hc : (s.broker i).entry = some c) (hep : c.leaderEpoch = (newestEpoch cfg s).leaderEpoch) :
    ∃ c', (s'.broker i).entry = some c' ∧ c'.leaderEpoch = (newestEpoch cfg s).leaderEpoch ∧
      c.highWatermark ≤ c'.highWatermark := by
  obtain ⟨c', hc', hcase⟩ := hmv.entryGrows hm.entryGrows i c hc
  have h1 := (h.elections.moved hm hmv).le_newest ((h.elections.moved hm hmv).named_entry hc')
  rw [newestEpoch_same (epochs_same hmv hel)] at h1
  exact ⟨c', hc', by omega, by omega⟩

theorem promoting (h : Survivors cfg own s) {l cur : PartitionLeadership} {cut : Bool}
    (hmem : (b, Task.promoteApply l cur cut) ∈ s.tasks) :
    b = cfg.controller ∧ l.leaderEpoch = cur.leaderEpoch + 1 ∧
      l.highWatermark = cur.highWatermark ∧ Capped own (epochs cfg s) cur := by
  have h1 := h.elections.sound.tasks _ hmem
  have h2 := h.watermarks.sound.tasks _ hmem
  exact ⟨h1.1.controller, h1.2, h2.2, h2.1.capped⟩

/-- A candidate that is ready stays ready. -/
theorem ready_keep (h : Survivors cfg own s) (hq : KeepsDurable cfg s a) (hm : Move cfg s a b e)
    (hmv : Moved s a b e s') {candidate : BrokerId} {cur : PartitionLeadership}
    (hr : Ready cfg s candidate cur)
    (hearlier : EntryGrows (some cur) (s.broker cfg.controller).entry) :
    Ready cfg s' candidate cur := by
  intro hep
  have hctl := h.elections.controller_epoch
  obtain hel | ⟨l, cur', hf⟩ := hm.founds
  · rw [newestEpoch_same (epochs_same hmv hel)] at hep ⊢
    obtain ⟨c, hc, hce, hlen⟩ := hr hep
    obtain ⟨c', hc', hce', _⟩ := h.stays hm hmv hel hc hce
    refine ⟨c', hc', hce', ?_⟩
    by_cases hi : candidate = b
    · subst hi
      rw [hmv.self]
      cases hm.shortens with
      | no hle => exact Nat.le_trans hlen hle
      | replica ht hmem =>
        have h1 := survivable_of hq ht
        have h2 := (h.watermarks.matching.sound.tasks _ hmem).2
        have h3 := h.elections.le_newest (h.elections.sound.tasks _ hmem)
        simp only [Task.survivable, hc, epochOf_some, decide_eq_true_eq] at h1
        omega
      | leadership ht hmem =>
        have h1 := survivable_of hq ht
        have h2 := h.watermarks.matching.sound.tasks _ hmem
        have h3 := h.elections.le_newest (h.elections.sound.tasks _ hmem)
        simp only [Task.survivable, hc, epochOf_some, decide_eq_true_eq] at h1
        simp only [Task.Matches] at h2
        omega
      | promote ht hmem hlog =>
        have h1 := survivable_of hq ht
        have h2 := (h.watermarks.sound.tasks _ hmem).2
        have h3 := (h.elections.sound.tasks _ hmem).1.controller
        simp only [Task.survivable, hc, decide_eq_true_eq, Option.some.injEq] at h1
        subst h1
        simp only at h3
        rw [← h3, hc] at hearlier
        obtain ⟨c₁, hc₁, hcase⟩ := hearlier cur rfl
        cases hc₁
        omega
    · rw [hmv.other _ hi]
      exact hlen
  · have h1 := (h.elections.moved hm hmv).newest_epoch
    have h2 := h.elections.newest_epoch
    have h3 := hearlier.epochOf_le
    rw [hmv.elected, hf.elected, List.length_append, List.length_singleton] at h1
    rw [epochOf_some] at h3
    omega

/-- The candidate of a promotion is ready. -/
theorem task_ready (h : Survivors cfg own s) (hq : KeepsDurable cfg s a) (hm : Move cfg s a b e) :
    e.task.Ready cfg s := by
  cases hm with
  | promote => exact fun p hp => by cases hp
  | task ht hs =>
    have hr := h.ready _ (List.mem_of_getElem? ht)
    cases hs with
    | append => split <;> trivial
    | committed => unfold finishRecord; split <;> trivial
    | uncommitted => unfold finishRecord; split <;> trivial
    | commit => unfold finishRecord; split <;> trivial
    | recoverStore => split <;> trivial
    | @promoteAsk candidate node cur remaining offsets =>
      intro p hp hle
      rw [List.find?_append] at hp
      cases hfind : offsets.find? (·.1 == candidate) with
      | some p' =>
        rw [hfind] at hp
        cases hp
        exact hr p hfind hle
      | none =>
        rw [hfind, Option.none_or, List.find?_singleton] at hp
        split at hp
        · rename_i hnode
          cases hp
          have hsurv := survivable_of hq (stepped_go ht)
          obtain rfl : node = candidate := by simpa using hnode
          simp only [Task.survivable, ne_eq, not_true, decide_false, Bool.false_or,
            Option.any_eq_true, decide_eq_true_eq] at hsurv
          obtain ⟨c, hc, hce⟩ := hsurv
          exact fun _ => ⟨c, hc, hce.trans h.elections.controller_epoch, hle⟩
        · cases hp
    | promoteMiss => exact hr
    | promoteSelf hp =>
      unfold promotable at hp
      split at hp
      · cases hp
      · rename_i hfind
        simp only [Bool.and_eq_true, decide_eq_true_eq] at hp
        exact hr _ hfind hp.2
    | promoteOther hp =>
      unfold promotable at hp
      split at hp
      · cases hp
      · rename_i hfind
        simp only [Bool.and_eq_true, decide_eq_true_eq] at hp
        exact hr _ hfind hp.2
    | promoteLonger | promoteShorter | promoteTruncate => exact hr
    | _ => trivial
  | _ => trivial

/-- Readiness is kept by every task. -/
theorem readiness_keep (h : Survivors cfg own s) (hq : KeepsDurable cfg s a)
    (hm : Move cfg s a b e) (hmv : Moved s a b e s') {i : BrokerId} {t : Task}
    (hnamed : t.Named cfg (epochs cfg s) i)
    (hcap : t.Capped cfg own (epochs cfg s) i (s.broker i)) (hr : t.Ready cfg s) :
    t.Ready cfg s' := by
  cases t with
  | promoteQuery candidate cur remaining offsets =>
    have hi := hnamed.controller
    subst hi
    exact fun p hp hle => h.ready_keep hq hm hmv (hr p hp hle) hcap.earlier
  | promoteTail | promoteTruncate | promoteApply =>
    have hi := hnamed.1.controller
    subst hi
    exact h.ready_keep hq hm hmv hr hcap.1.earlier
  | _ => trivial

theorem ready_moved (h : Survivors cfg own s) (hq : KeepsDurable cfg s a) (hm : Move cfg s a b e)
    (hmv : Moved s a b e s') : ∀ p ∈ s'.tasks, p.2.Ready cfg s' := by
  intro p hp
  rcases hmv.tasks p hp with hold | rfl
  · have hmem := others_subset hold
    exact h.readiness_keep hq hm hmv (h.elections.sound.tasks p hmem)
      (h.watermarks.sound.tasks p hmem) (h.ready p hmem)
  · exact h.readiness_keep hq hm hmv (h.elections.task_named hm) (h.watermarks.task_capped hq.1 hm)
      (h.task_ready hq hm)

/-! ## The leader of the newest epoch -/

theorem takenUp_keep (h : Survivors cfg own s) (hm : Move cfg s a b e) (hmv : Moved s a b e s')
    (hel : e.elected = []) (ht : TakenUp cfg s) : TakenUp cfg s' := by
  obtain ⟨l, hl, hep⟩ := ht
  obtain ⟨l', hl', hep', _⟩ := h.stays hm hmv hel hl hep
  unfold TakenUp
  rw [newestEpoch_same (epochs_same hmv hel)]
  exact ⟨l', hl', hep'⟩

/-- A promotion that founds an epoch starts from the newest one. -/
theorem founds_current (h : Survivors cfg own s) (hq : KeepsDurable cfg s a)
    {l cur : PartitionLeadership} (hf : Founds s a b e l cur) :
    cur.leaderEpoch = (newestEpoch cfg s).leaderEpoch := by
  obtain ⟨cut, hst, hmem⟩ := hf.stepped
  have h1 := Watermarks.gathers_of hq.1 hst
  simp only [Task.gathers, decide_eq_true_eq] at h1
  rw [(h.promoting hmem).1, h.elections.controller_epoch] at h1
  exact h1.symm

theorem successor_moved (h : Survivors cfg own s) (hq : KeepsDurable cfg s a)
    (hm : Move cfg s a b e) (hmv : Moved s a b e s') : Successor cfg s' := by
  intro hnt hne
  obtain hel | ⟨l, cur, hf⟩ := hm.founds
  · have hsame : newestEpoch cfg s' = newestEpoch cfg s := newestEpoch_same (epochs_same hmv hel)
    have hel' := h.elections.moved hm hmv
    rw [hsame] at hne ⊢
    obtain ⟨c, hc, hce, hlen⟩ := h.successor (fun ht => hnt (h.takenUp_keep hm hmv hel ht)) hne
    obtain ⟨c', hc', hcase⟩ := hmv.entryGrows hm.entryGrows _ c hc
    have hle := hel'.le_newest (hel'.named_entry hc')
    have hne' : c'.leaderEpoch ≠ (newestEpoch cfg s).leaderEpoch := fun heq =>
      hnt (by unfold TakenUp; rw [hsame]; exact ⟨c', hc', heq⟩)
    rw [hsame] at hle
    refine ⟨c', hc', by omega, ?_⟩
    by_cases hi : (newestEpoch cfg s).leaderId = b
    · rw [hi] at hc hlen ⊢
      rw [hmv.self]
      cases hm.shortens with
      | no hlog => exact Nat.le_trans hlen hlog
      | replica ht hmem =>
        have h1 := survivable_of hq ht
        have h2 := (h.watermarks.matching.sound.tasks _ hmem).2
        have hnamed := h.elections.sound.tasks _ hmem
        have h3 := h.elections.le_newest hnamed
        simp only [Task.survivable, hc, epochOf_some, decide_eq_true_eq] at h1
        -- the request carries the newest epoch, and this broker leads it
        rename_i conn m cur
        have hep : m.leaderEpoch = (newestEpoch cfg s).leaderEpoch := by omega
        have hnamed' : Names (epochs cfg s) (newestEpoch cfg s).leaderEpoch m.leaderId :=
          hep ▸ hnamed
        have hid : m.leaderId = b := (hnamed'.unique h.elections.newest_named).trans hi
        exact absurd hid (h.watermarks.sound.tasks _ hmem).1
      | leadership ht hmem hlog =>
        have h1 := survivable_of hq ht
        have h2 := h.watermarks.matching.sound.tasks _ hmem
        have h3 := h.elections.le_newest (h.elections.sound.tasks _ hmem)
        have hfloor := (h.watermarks.sound.tasks _ hmem).1.floor
        simp only [Task.survivable, hc, epochOf_some, decide_eq_true_eq] at h1
        simp only [Task.Matches] at h2
        rename_i l cur
        have hep : l.leaderEpoch = (newestEpoch cfg s).leaderEpoch := by omega
        rw [hep, h.elections.start_newest] at hfloor
        rw [hlog]
        exact hfloor
      | promote ht hmem hlog =>
        have h1 := survivable_of hq ht
        have h3 := (h.elections.sound.tasks _ hmem).1.controller
        have h4 := h.elections.controller_epoch
        simp only at h3
        rw [← h3, hc, epochOf_some] at h4
        omega
    · rw [hmv.other _ hi]
      exact hlen
  · obtain ⟨cut, hst, hmem⟩ := hf.stepped
    have hcur := h.founds_current hq hf
    obtain ⟨hctl, hep, hw, _⟩ := h.promoting hmem
    have hes : epochs cfg s' = epochs cfg s ++ [l] := by rw [epochs_moved hmv, hf.elected]
    have hnew := newestEpoch_elected hes
    obtain ⟨c, hc, hce, hlen⟩ := h.ready _ hmem hcur
    by_cases hi : l.leaderId = b
    · refine absurd ?_ hnt
      refine ⟨l, ?_, by rw [hnew]⟩
      rw [hnew, hi, hmv.self, hf.broker]
    · rw [hnew, hmv.other _ hi]
      exact ⟨c, hc, by omega, by omega⟩

/-! ## Records that are acknowledged -/

/-- A record that is kept stays kept while no epoch is founded. -/
theorem kept_within (h : Survivors cfg own s) (hm : Move cfg s a b e) (hmv : Moved s a b e s')
    (hel : e.elected = []) (h' : Watermarks cfg own' s')
    (hg : Grown own (epochs cfg s) own' (epochs cfg s')) {f : FetchedRecord}
    (hk : Kept cfg own s f) : Kept cfg own' s' f := by
  have hsame : newestEpoch cfg s' = newestEpoch cfg s := newestEpoch_same (epochs_same hmv hel)
  refine ⟨?_, fun hnt => ?_, fun l hl hep => ?_⟩
  · rw [hsame]; exact hk.inLog.mono (hg _)
  · rw [hsame]; exact hk.start fun ht => hnt (h.takenUp_keep hm hmv hel ht)
  · by_cases ht : TakenUp cfg s
    · obtain ⟨l₀, hl₀, hep₀⟩ := ht
      obtain ⟨l', hl', _, hle⟩ := h.stays hm hmv hel hl₀ hep₀
      rw [hsame, hl'] at hl
      cases hl
      exact Nat.lt_of_lt_of_le (hk.committed l₀ hl₀ hep₀) hle
    · have hid := h'.matching.elections.leader_newest hl hep
      have hfloor := (h'.sound.brokers _ l hl (Or.inl hid)).floor
      rw [hep, h'.matching.elections.start_newest, hsame] at hfloor
      exact Nat.lt_of_lt_of_le (hk.start ht) hfloor

/-- A record that is kept is below the watermark the next epoch is founded with. -/
theorem kept_below (h : Survivors cfg own s) (hq : KeepsDurable cfg s a)
    {l cur : PartitionLeadership} (hf : Founds s a b e l cur) {f : FetchedRecord}
    (hk : Kept cfg own s f) : f.offset < l.highWatermark := by
  obtain ⟨cut, hst, hmem⟩ := hf.stepped
  have hcur := h.founds_current hq hf
  obtain ⟨hctl, _, hw, hcap⟩ := h.promoting hmem
  rw [hw]
  by_cases ht : TakenUp cfg s
  · obtain ⟨l₀, hl₀, hep₀⟩ := ht
    have hsurv := survivable_of hq hst
    obtain ⟨c, hc, _⟩ := (h.watermarks.sound.tasks _ hmem).1.earlier cur rfl
    simp only at hc
    rw [hctl] at hc
    have hce : c.leaderEpoch = (newestEpoch cfg s).leaderEpoch := by
      have := h.elections.controller_epoch
      rwa [hc, epochOf_some] at this
    have hcid := h.elections.leader_newest hc hce
    simp only [Task.survivable, coversLeader, hc, hcid, hl₀, Option.all_some, hep₀, hce, ne_eq,
      not_true, decide_false, Bool.false_or, decide_eq_true_eq] at hsurv
    exact Nat.lt_of_lt_of_le (hk.committed l₀ hl₀ hep₀) hsurv
  · have hfloor := hcap.floor
    rw [hcur, h.elections.start_newest] at hfloor
    exact Nat.lt_of_lt_of_le (hk.start ht) hfloor

/-- A record that is kept goes over to the epoch that is founded. -/
theorem kept_founded (h : Survivors cfg own s) (hq : KeepsDurable cfg s a)
    (hmv : Moved s a b e s') {l cur : PartitionLeadership} (hf : Founds s a b e l cur)
    (h' : Watermarks cfg own' s') (hg : Grown own (epochs cfg s) own' (epochs cfg s'))
    {f : FetchedRecord} (hk : Kept cfg own s f) : Kept cfg own' s' f := by
  have hbelow := h.kept_below hq hf hk
  have hcur := h.founds_current hq hf
  obtain ⟨cut, hst, hmem⟩ := hf.stepped
  have hep := (h.promoting hmem).2.1
  have hes : epochs cfg s' = epochs cfg s ++ [l] := by rw [epochs_moved hmv, hf.elected]
  have hnew : newestEpoch cfg s' = l := newestEpoch_elected hes
  have hstart : startAt (epochs cfg s') l.leaderEpoch = l.highWatermark := by
    have := h'.matching.elections.start_newest
    rwa [hnew] at this
  refine ⟨?_, fun _ => by rw [hnew]; exact hbelow, fun l' hl' hep' => ?_⟩
  · have hold : InLog (epochLog own' (epochs cfg s') cur.leaderEpoch) f := by
      rw [hcur]; exact hk.inLog.mono (hg _)
    rw [hnew, hep]
    unfold InLog epochLog at hold ⊢
    rw [h'.matching.linked.getElem?_succ (by rw [← hep, hstart]; exact hbelow)]
    exact hold
  · have hid := h'.matching.elections.leader_newest hl' hep'
    have hfloor := (h'.sound.brokers _ l' hl' (Or.inl hid)).floor
    rw [hep', hnew, hstart] at hfloor
    exact Nat.lt_of_lt_of_le hbelow hfloor

/-- The record a step commits is kept. -/
theorem kept_committed (h : Survivors cfg own s) (hq : KeepsDurable cfg s a)
    (hm : Move cfg s a b e) (hmv : Moved s a b e s') (h' : Watermarks cfg own' s')
    (hg : Grown own (epochs cfg s) own' (epochs cfg s')) {f : FetchedRecord}
    (hc : Commits cfg s a b e f) : Kept cfg own' s' f := by
  have hel : e.elected = [] := by
    obtain hel | ⟨l, cur, hf⟩ := hm.founds
    · exact hel
    · obtain ⟨cut, hst, _⟩ := hf.stepped
      cases hc with
      | found _ _ ht => rw [hst] at ht; cases ht
      | raised _ _ ht => rw [hst] at ht; cases ht
  have hsame : newestEpoch cfg s' = newestEpoch cfg s := newestEpoch_same (epochs_same hmv hel)
  -- it is enough that the leader of the newest epoch ends with an entry that covers the record
  have key : ∀ {l : PartitionLeadership} {origin : Nat}, e.broker.entry = some l → l.leaderId = b →
      l.leaderEpoch = origin → origin = (newestEpoch cfg s).leaderEpoch →
      f.offset < l.highWatermark → InLog (epochLog own (epochs cfg s) origin) f →
      Kept cfg own' s' f := fun {l origin} hl hid hep hnew hlt hin => by
    have hl' : (s'.broker b).entry = some l := by rw [hmv.self]; exact hl
    have hb : (newestEpoch cfg s').leaderId = b := by
      rw [← h'.matching.elections.leader_newest hl' (by rw [hsame]; omega), hid]
    refine ⟨?_, fun hnt => ?_, fun l₁ hl₁ _ => ?_⟩
    · rw [hsame, ← hnew]; exact hin.mono (hg _)
    · exact absurd ⟨l, by rw [hb]; exact hl', by rw [hsame]; omega⟩ hnt
    · rw [hb, hl'] at hl₁
      cases hl₁; exact hlt
  cases hc with
  | @found r l hd hf ht hmem hfol hmin he hw hb =>
    obtain ⟨hid, hep⟩ := Watermarks.contact_entry hq.1 ht he (Or.inr hmin)
    have hsurv := survivable_of hq ht
    simp only [Task.survivable, Broker.highWatermark_eq he, hd, hfol, hmin, hw, and_self,
      decide_true, Bool.not_true, Bool.false_or, decide_eq_true_eq,
      h.elections.controller_epoch] at hsurv
    have hin := h.watermarks.matching.sound.tasks _ hmem _ List.mem_cons_self
    subst hf
    exact key (hb ▸ he) hid hep hsurv.symm hw hin
  | @raised r l hd hf ht hmem he =>
    have hgath := (h.watermarks.sound.tasks _ hmem).1
    have hsurv := survivable_of hq ht
    simp only [Task.survivable, hd, reduceCtorEq, decide_false, Bool.false_or, decide_eq_true_eq,
      h.elections.controller_epoch] at hsurv
    have hin := h.watermarks.matching.sound.tasks _ hmem _ List.mem_cons_self
    subst hf
    refine key he hgath.leader hgath.origin.symm (hgath.origin.trans hsurv.symm) ?_ hin
    rw [hgath.raises]
    exact Nat.lt_succ_self _

theorem moved (h : Survivors cfg own s) (hq : KeepsDurable cfg s a) (hm : Move cfg s a b e)
    (hmv : Moved s a b e s') : ∃ own', Survivors cfg own' s' := by
  obtain ⟨own', h', hg⟩ := h.watermarks.moved hq.1 hm hmv
  refine ⟨own', h', h.ready_moved hq hm hmv, h.successor_moved hq hm hmv, fun f hf => ?_⟩
  obtain hp | hc := protected_moved hm hmv hf
  · obtain hel | ⟨l, cur, hfd⟩ := hm.founds
    · exact h.kept_within hm hmv hel h' hg (h.kept f hp)
    · exact h.kept_founded hq hmv hfd h' hg (h.kept f hp)
  · exact h.kept_committed hq hm hmv h' hg hc

theorem of_run {acts : List Action} (hq : Along (step cfg) (KeepsDurable cfg) State.init acts)
    (hr : run (step cfg) State.init acts = some s) : ∃ own, Survivors cfg own s := by
  refine @run_invariant _ _ _ _ (fun s => ∃ own, Survivors cfg own s) (fun s a s' hp hq hs => ?_)
    _ _ _ ⟨_, Survivors.init cfg⟩ hq hr
  obtain ⟨own, h⟩ := hp
  obtain ⟨b, e, hm, hmv⟩ := step_move hs
  exact h.moved hq hm hmv

/-- A kept record is in the log of the leader of the newest epoch. -/
theorem kept_inLog (h : Survivors cfg own s) {c : PartitionLeadership}
    (hc : (s.broker cfg.controller).entry = some c) {f : FetchedRecord} (hk : Kept cfg own s f) :
    InLog (contents (s.broker (newestEpoch cfg s).leaderId).log) f := by
  -- the leader's log is a prefix of a log that has the record, and reaches beyond it
  have key : ∀ {cs : List Content}, contents (s.broker (newestEpoch cfg s).leaderId).log <+: cs →
      f.offset < (s.broker (newestEpoch cfg s).leaderId).log.length → InLog cs f →
      InLog (contents (s.broker (newestEpoch cfg s).leaderId).log) f := fun hp hlt hin => by
    rw [← contents_length] at hlt
    obtain ⟨rest, rfl⟩ := hp
    unfold InLog at hin ⊢
    rwa [List.getElem?_append_left hlt] at hin
  by_cases ht : TakenUp cfg s
  · obtain ⟨l, hl, hep⟩ := ht
    have hid := h.elections.leader_newest hl hep
    have hce := h.elections.controller_epoch
    rw [hc, epochOf_some] at hce
    have hwithin := h.watermarks.leaderWithin _ l c hl hid hc (hep.trans hce.symm)
    have hp := ((h.watermarks.matching.sound.brokers _).2 l hl).1
    rw [hep] at hp
    exact key hp (Nat.lt_of_lt_of_le (hk.committed l hl hep) hwithin) hk.inLog
  · have hstart := hk.start ht
    by_cases hz : (newestEpoch cfg s).leaderEpoch = 0
    · have := h.elections.start_newest
      rw [hz] at this
      have h0 : (newestEpoch cfg s).highWatermark = 0 := this.symm
      omega
    · obtain ⟨c, hc, hce, hlen⟩ := h.successor ht hz
      have hp := ((h.watermarks.matching.sound.brokers _).2 c hc).1
      have hin := hk.inLog
      rw [← hce] at hin
      unfold InLog epochLog at hin
      rw [h.watermarks.matching.linked.getElem?_succ
        (by rw [hce, h.elections.start_newest]; exact hstart)] at hin
      exact key hp (Nat.lt_of_lt_of_le hstart hlen) hin

end Survivors

/-- **Durable acknowledgements survive failover.**  On every run whose steps keep the durable
records, the broker the controller names as leader holds every record that was acknowledged to a
durable produce. -/
theorem durable_records_survive (cfg : ClusterConfig) {acts : List Action} {s : State}
    (hq : Along (step cfg) (KeepsDurable cfg) State.init acts)
    (hr : run (step cfg) State.init acts = some s) : Survives cfg s := by
  obtain ⟨own, h⟩ := Survivors.of_run hq hr
  intro x hx hd c hc
  have hk := h.kept x.record (Or.inl ⟨x, hx, hd, rfl⟩)
  have hce := h.elections.controller_epoch
  rw [hc, epochOf_some] at hce
  rw [h.elections.leader_newest hc hce]
  exact h.kept_inLog hc hk

/-- The record of `lostBroadcastRun` once more; this time the controller receives it and hears of
the commit before it promotes itself. -/
def heardBroadcastRun : List Action :=
  [.createTopic 1, .createTopic 2, .createTopic 3, .produce 2 (oneRecord 7 .durable),
    .task 0 (.stamp [5]), .task 0 .go, .task 0 .go, .task 0 .go, .deliver 0, .task 1 .go,
    .task 1 .go, .task 0 (.receive 1), .task 0 .go, .deliver 2, .task 2 .go, .task 2 .go,
    .task 0 (.receive 3), .task 0 .go, .task 0 .go, .deliver 4, .task 3 .go, .promote 1,
    .task 4 .go, .task 4 .fail, .task 4 .go, .task 4 .go, .task 4 .go, .task 4 .go]

theorem durable_records_survive_heard : ∃ s,
    run (step threeNodes) State.init heardBroadcastRun = some s ∧
    (s.broker threeNodes.controller).entry = some ⟨1, 1, 1, 1⟩ ∧
    InLog (contents (s.broker 1).log) ⟨0, 5, none, [7]⟩ := by
  refine ⟨_, rfl, rfl, ?_⟩
  exact @durable_records_survive threeNodes heardBroadcastRun _ (by decide +kernel) rfl
    ⟨2, .durable, ⟨0, 5, none, [7]⟩⟩ (by decide +kernel) rfl ⟨1, 1, 1, 1⟩ rfl

end SevlaMq.Cluster
