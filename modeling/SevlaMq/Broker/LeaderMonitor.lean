import SevlaMq.Broker.Topics
import SevlaMq.Storage.PartitionLog

/-!
# The leader monitor

The controller probes the leader of every partition once a cycle and promotes another replica when
its counter of failed probes reaches three.  The counter belongs to the partition; the leader may
change without the monitor.

* `Settings.promoteLeader` — `promote_leader` on the registry of the controller.
* `Monitor` — the registry, the counters and a trace of what happened; `Monitor.monitorPartition`,
  `Monitor.monitorPartitionLeaders` — one cycle.
* `Justified` — every promotion in a trace comes after three failed probes of the leader.
* `promotions_justified` — no leader changes while failed probes of it are counted, then all
  promotions are justified; `replaced_after_one_probe` — a run where one does.
-/

set_option autoImplicit false

namespace SevlaMq.Broker

open SevlaMq.Storage SevlaMq.Cluster

def U8_MAX : Nat := 2 ^ 8 - 1

/-! ## Promotion -/

inductive PromotionError where
  | storageUnavailable
  | invalidClusterMetadata
  | registry (e : RequestError)
  | promotionCandidateUnavailable
  | unsafePromotion (candidate highest available : Nat)
  | leaderEpochOverflow
  deriving DecidableEq, Repr

inductive PromoteResponse where
  | leadershipChanged (l : PartitionLeadership)
  | notController (controller : BrokerId)
  | notPartitionReplica
  deriving DecidableEq, Repr

/-- What one cycle of the monitor gets from the storage worker, the other brokers and the file of
the registry. -/
structure CycleEnv where
  topics : Except PromotionError (List (String × Nat))
  -- the keys of a map are listed
  distinct : ∀ listed, topics = .ok listed → (listed.map (·.1)).Nodup
  -- whether the leader answers the probe in time
  responding : String → Nat → Bool
  -- the log ends that the nodes report while a candidate is selected, and while it is verified
  selecting : String → Nat → BrokerId → Option Nat
  verifying : String → Nat → BrokerId → Option Nat
  localOffset : String → Nat → Option Nat
  truncates : String → Nat → Bool
  -- whether the registry's file can be written with a promotion, and with the entries of a topic
  persists : String → Nat → Bool
  ensures : String → Bool

namespace Settings

/-- The log ends that the replicas among `nodes` report. -/
def replicaOffsets (cfg : Settings) (partition : Nat) (reported : BrokerId → Option Nat)
    (nodes : List BrokerId) : List (BrokerId × Nat) :=
  (nodes.filter fun id => (cfg.cluster partition).isPartitionReplica id).filterMap fun id =>
    (reported id).map fun offset => (id, offset)

/-- `max_by_key` with the key `(offset, Reverse(id))`. -/
def laterCandidate (x y : BrokerId × Nat) : BrokerId × Nat :=
  if y.2 < x.2 ∨ (y.2 = x.2 ∧ x.1 < y.1) then x else y

/-- `choose_automatic_candidate`. -/
def chooseAutomaticCandidate (offsets : List (BrokerId × Nat))
    (minInSyncReplicas highWatermark : Nat) : Option BrokerId :=
  if offsets.length < minInSyncReplicas then none
  else
    match offsets.filter (highWatermark ≤ ·.2) with
    | [] => none
    | x :: rest => some (rest.foldl laterCandidate x).1

/-- `select_automatic_candidate`. -/
def selectAutomaticCandidate (cfg : Settings) (env : CycleEnv) (topic : String)
    (current : PartitionLeadership) : Option BrokerId :=
  chooseAutomaticCandidate
    (cfg.replicaOffsets current.partition (env.selecting topic current.partition)
      (cfg.nodes.filter (· ≠ current.leaderId)))
    cfg.minInSyncReplicas current.highWatermark

/-- `verify_promotion_candidate`. -/
def verifyPromotionCandidate (cfg : Settings) (env : CycleEnv) (topic : String) (partition : Nat)
    (candidate : BrokerId) (committedHighWatermark : Nat) : Except PromotionError Unit :=
  let offsets := cfg.replicaOffsets partition (env.verifying topic partition) cfg.nodes
  match offsets.find? (·.1 = candidate) with
  | none => .error .promotionCandidateUnavailable
  | some (_, offset) =>
    if offsets.length < cfg.minInSyncReplicas ∨ offset < committedHighWatermark then
      .error (.unsafePromotion offset ((offsets.map (·.2)).foldl max 0) offsets.length)
    else .ok ()

/-- The controller cuts its own log before it takes over. -/
def cutOwnLog (cfg : Settings) (env : CycleEnv) (topic : String) (partition : Nat)
    (candidate : BrokerId) (highWatermark : Nat) : Except PromotionError Unit :=
  if candidate ≠ cfg.self then .ok ()
  else
    match env.localOffset topic partition with
    | none => .error .storageUnavailable
    | some offset =>
      if highWatermark < offset ∧ env.truncates topic partition = false then
        .error .storageUnavailable
      else .ok ()

/-- `promote_leader`.  The entry is replaced before the file of the registry is written. -/
def promoteLeader (cfg : Settings) (env : CycleEnv) (entries : Entries) (topic : String)
    (partition : Nat) (candidate : BrokerId) : Except PromotionError PromoteResponse × Entries :=
  if (cfg.cluster partition).controller ≠ cfg.self then
    (.ok (.notController (cfg.cluster partition).controller), entries)
  else
    match entries topic partition with
    | none => (.error (.registry (.missingPartition partition)), entries)
    | some current =>
      if (cfg.cluster partition).isPartitionReplica candidate = false then
        (.ok .notPartitionReplica, entries)
      else
        match cfg.verifyPromotionCandidate env topic partition candidate current.highWatermark with
        | .error e => (.error e, entries)
        | .ok () =>
          if current.leaderEpoch = U64_MAX then (.error .leaderEpochOverflow, entries)
          else
            match cfg.cutOwnLog env topic partition candidate current.highWatermark with
            | .error e => (.error e, entries)
            | .ok () =>
              let leadership : PartitionLeadership :=
                ⟨partition, candidate, current.leaderEpoch + 1, current.highWatermark⟩
              match entries.apply cfg (fun _ => env.persists topic partition) topic leadership with
              | (.error e, entries) => (.error (.registry e), entries)
              | (.ok (), entries) => (.ok (.leadershipChanged leadership), entries)

end Settings

/-! ## The monitor -/

inductive MonitorEvent where
  | probe (topic : String) (partition : Nat) (leader : BrokerId) (responding : Bool)
  | change (topic : String) (partition : Nat)
  -- `promote_leader` is called for a partition with this leader
  | promote (topic : String) (partition : Nat) (leader : Option BrokerId)
  deriving DecidableEq, Repr

/-- The registry of the controller, the counters of failed probes, and what happened so far. -/
structure Monitor where
  entries : Entries
  failures : String → Nat → Option Nat
  trace : List MonitorEvent

namespace Monitor

/-- The counters are empty when the monitor starts. -/
def start (entries : Entries) : Monitor := ⟨entries, fun _ _ => none, []⟩

def leader (s : Monitor) (topic : String) (partition : Nat) : Option BrokerId :=
  (s.entries topic partition).map (·.leaderId)

def record (s : Monitor) (event : MonitorEvent) : Monitor := { s with trace := s.trace ++ [event] }

def setFailures (s : Monitor) (topic : String) (partition : Nat) (attempts : Option Nat) : Monitor :=
  { s with failures := fun t p => if t = topic ∧ p = partition then attempts else s.failures t p }

/-- The registry after a step, in which only the entry of this partition may be another one. -/
def install (s : Monitor) (topic : String) (partition : Nat) (entries : Entries) : Monitor :=
  if (entries topic partition).map (·.leaderId) = s.leader topic partition then { s with entries }
  else { s with entries }.record (.change topic partition)

/-- The loop body of `monitor_partition_leaders`. -/
def monitorPartition (cfg : Settings) (env : CycleEnv) (topic : String)
    (current : PartitionLeadership) (s : Monitor) : Except PromotionError Unit × Monitor :=
  let partition := current.partition
  if current.leaderId = cfg.self then (.ok (), s.setFailures topic partition none)
  else if cfg.nodes.contains current.leaderId = false then (.error .invalidClusterMetadata, s)
  else
    let responding := env.responding topic partition
    let s := s.record (.probe topic partition current.leaderId responding)
    if responding then (.ok (), s.setFailures topic partition none)
    else
      let attempts := min ((s.failures topic partition).getD 0 + 1) U8_MAX
      let s := s.setFailures topic partition (some attempts)
      if attempts < 3 then (.ok (), s)
      else
        match cfg.selectAutomaticCandidate env topic current with
        | none => (.ok (), s)
        | some candidate =>
          let s := s.record (.promote topic partition (s.leader topic partition))
          match cfg.promoteLeader env s.entries topic partition candidate with
          | (.error e, entries) => (.error e, s.install topic partition entries)
          | (.ok (.leadershipChanged _), entries) =>
            (.ok (), (s.install topic partition entries).setFailures topic partition none)
          | (.ok _, entries) => (.ok (), s.install topic partition entries)

/-- The partitions of one topic. -/
def monitorPartitions (cfg : Settings) (env : CycleEnv) (topic : String) :
    List PartitionLeadership → Monitor → Except PromotionError Unit × Monitor
  | [], s => (.ok (), s)
  | current :: rest, s =>
    match s.monitorPartition cfg env topic current with
    | (.error e, s) => (.error e, s)
    | (.ok (), s) => monitorPartitions cfg env topic rest s

/-- `LeadershipRegistry::topic` ensures the entries and returns them. -/
def monitorTopics (cfg : Settings) (env : CycleEnv) :
    List (String × Nat) → Monitor → Except PromotionError Unit × Monitor
  | [], s => (.ok (), s)
  | (topic, partitions) :: rest, s =>
    match s.entries.ensureTopic cfg (fun _ => env.ensures topic) topic partitions with
    | (.error e, entries) => (.error (.registry e), { s with entries })
    | (.ok (), entries) =>
      match monitorPartitions cfg env topic
          ((List.range partitions).filterMap (entries topic)) { s with entries } with
      | (.error e, s) => (.error e, s)
      | (.ok (), s) => monitorTopics cfg env rest s

/-- `monitor_partition_leaders`. -/
def monitorPartitionLeaders (cfg : Settings) (env : CycleEnv) (s : Monitor) :
    Except PromotionError Unit × Monitor :=
  match env.topics with
  | .error e => (.error e, s)
  | .ok topics => monitorTopics cfg env topics s

inductive Action where
  | cycle (env : CycleEnv)
  -- a leadership that did not come from the monitor
  | apply (topic : String) (l : PartitionLeadership)
  | ensureTopic (topic : String) (partitions : Nat)

/-- A cycle, whose error is only logged, or another use of the registry.  A leadership may be
refused; the entries are the same whether their file is written or not. -/
def step (cfg : Settings) (s : Monitor) : Action → Option Monitor
  | .cycle env => some (s.monitorPartitionLeaders cfg env).2
  | .apply topic l =>
    some (s.install topic l.partition (s.entries.apply cfg (fun _ => true) topic l).2)
  | .ensureTopic topic partitions =>
    some { s with entries := s.entries.insertVacant cfg topic partitions }

end Monitor

/-! ## Justified promotions -/

/-- A probe of the partition or a change of its leader. -/
def MonitorEvent.about (topic : String) (partition : Nat) : MonitorEvent → Bool
  | .probe t p _ _ => t = topic ∧ p = partition
  | .change t p => t = topic ∧ p = partition
  | .promote _ _ _ => false

/-- Whenever `promote_leader` was called, the leader had failed the last three probes of the
partition, and it had not changed among them. -/
def Justified (trace : List MonitorEvent) : Prop :=
  ∀ past rest topic partition leader, trace = past ++ .promote topic partition leader :: rest →
    ∃ id, leader = some id ∧
      List.replicate 3 (.probe topic partition id false) <:+
        past.filter (MonitorEvent.about topic partition)

theorem justified_nil : Justified [] := by
  intro past rest topic partition leader h
  exact absurd h.symm (List.append_ne_nil_of_right_ne_nil _ (List.cons_ne_nil _ _))

/-- Anything but a promotion can follow. -/
theorem Justified.concat {trace : List MonitorEvent} (h : Justified trace) {event : MonitorEvent}
    (hevent : ∀ topic partition leader, event = .promote topic partition leader →
      ∃ id, leader = some id ∧ List.replicate 3 (.probe topic partition id false) <:+
        trace.filter (MonitorEvent.about topic partition)) :
    Justified (trace ++ [event]) := by
  intro past rest topic partition leader hsplit
  rcases List.eq_nil_or_concat rest with rfl | ⟨rest, last, rfl⟩
  · obtain ⟨rfl, hlast⟩ := List.append_inj' hsplit rfl
    exact hevent topic partition leader (List.singleton_inj.1 hlast)
  · have heq : trace ++ [event] = past ++ .promote topic partition leader :: rest ++ [last] := by
      rw [hsplit, List.append_assoc, List.cons_append, List.concat_eq_append]
    exact h past rest topic partition leader (List.append_inj' heq rfl).1

/-! ## What a step does -/

/-- An entry stands under its own partition. -/
def Entries.Keyed (entries : Entries) : Prop :=
  ∀ t p l, entries t p = some l → l.partition = p

section Registry

variable {cfg : Settings} {entries : Entries} {topic : String}

theorem Entries.Keyed.insert (h : entries.Keyed) (topic : String) (l : PartitionLeadership) :
    (entries.insert topic l.partition l).Keyed := by
  intro t p l' hl'
  unfold Entries.insert at hl'
  split at hl'
  · rename_i heq
    cases hl'
    exact heq.2.symm
  · exact h t p l' hl'

theorem Entries.Keyed.insertVacant (h : entries.Keyed) (cfg : Settings) (topic : String) (n : Nat) :
    (entries.insertVacant cfg topic n).Keyed ∧
      ∀ t p l, entries t p = some l → (entries.insertVacant cfg topic n) t p = some l := by
  constructor
  · intro t p l hl
    unfold Entries.insertVacant at hl
    split at hl
    · cases hl
      cases he : entries t p with
      | none => rfl
      | some l => exact h t p l he
    · exact h t p l hl
  · intro t p l hl
    unfold Entries.insertVacant
    split
    · rw [hl]
      rfl
    · exact hl

/-- The leadership after the promotion of `candidate`. -/
def promoted (l : PartitionLeadership) (candidate : BrokerId) : PartitionLeadership :=
  ⟨l.partition, candidate, l.leaderEpoch + 1, l.highWatermark⟩

/-- The checks of `promote_leader` that come before the registry is changed. -/
structure Settings.Promotable (cfg : Settings) (env : CycleEnv) (topic : String)
    (l : PartitionLeadership) (candidate : BrokerId) : Prop where
  verified : cfg.verifyPromotionCandidate env topic l.partition candidate l.highWatermark = .ok ()
  epoch : l.leaderEpoch ≠ U64_MAX
  cut : cfg.cutOwnLog env topic l.partition candidate l.highWatermark = .ok ()

/-- The registry takes the promotion, and tells whether its file is written. -/
theorem Entries.apply_promoted {persists : Entries → Bool} {l : PartitionLeadership}
    (hl : entries topic l.partition = some l) (candidate : BrokerId) :
    (∃ e, entries.apply cfg persists topic (promoted l candidate) = (.error e, entries)) ∨
      entries.apply cfg persists topic (promoted l candidate) =
        (entries.insert topic l.partition (promoted l candidate)).persist persists := by
  cases h : applyEntry (cfg.cluster l.partition) (entries topic l.partition)
      (promoted l candidate) with
  | error e => exact Or.inl ⟨_, Entries.apply_error h⟩
  | ok e =>
    obtain ⟨rfl, _, _⟩ := applyEntry_ok h
    have hnew : entries topic l.partition ≠ some (promoted l candidate) := by
      rw [hl]
      intro heq
      exact Nat.ne_of_lt (Nat.lt_succ_self l.leaderEpoch)
        (congrArg (·.leaderEpoch) (Option.some.inj heq))
    refine Or.inr ?_
    unfold Entries.apply
    rw [show applyEntry (cfg.cluster (promoted l candidate).partition)
      (entries topic (promoted l candidate).partition) (promoted l candidate) = _ from h]
    exact if_neg hnew

/-- **What `promote_leader` can do**: end with the registry as it is, or replace the entry; an error
then says that the file was not written. -/
theorem Settings.promoteLeader_cases (env : CycleEnv) (h : entries.Keyed) (partition : Nat)
    (candidate : BrokerId) :
    (∃ e, cfg.promoteLeader env entries topic partition candidate = (.error e, entries)) ∨
      (∃ id, (cfg.cluster partition).controller ≠ cfg.self ∧
        cfg.promoteLeader env entries topic partition candidate =
          (.ok (.notController id), entries)) ∨
      ((cfg.cluster partition).isPartitionReplica candidate = false ∧
        cfg.promoteLeader env entries topic partition candidate =
          (.ok .notPartitionReplica, entries)) ∨
      ∃ l, entries topic partition = some l ∧ cfg.Promotable env topic l candidate ∧
        (cfg.promoteLeader env entries topic partition candidate).2 =
          entries.insert topic partition (promoted l candidate) ∧
        ((cfg.promoteLeader env entries topic partition candidate).1 =
            .ok (.leadershipChanged (promoted l candidate)) ∨
          env.persists topic partition = false ∧
            ∃ e, (cfg.promoteLeader env entries topic partition candidate).1 = .error e) := by
  unfold Settings.promoteLeader
  split
  · rename_i hcontroller
    exact Or.inr (Or.inl ⟨_, hcontroller, rfl⟩)
  split
  · exact Or.inl ⟨_, rfl⟩
  rename_i l hl
  obtain rfl := h topic partition l hl
  split
  · rename_i hreplica
    exact Or.inr (Or.inr (Or.inl ⟨hreplica, rfl⟩))
  split
  · exact Or.inl ⟨_, rfl⟩
  rename_i hverified
  split
  · exact Or.inl ⟨_, rfl⟩
  rename_i hepoch
  split
  · exact Or.inl ⟨_, rfl⟩
  rename_i hcut
  have happly := @Entries.apply_promoted cfg entries topic
    (fun _ => env.persists topic l.partition) l hl candidate
  unfold promoted at happly ⊢
  dsimp only
  rcases happly with ⟨e, he⟩ | hpersist
  · exact Or.inl ⟨_, by rw [he]⟩
  · refine Or.inr (Or.inr (Or.inr ⟨l, hl, ⟨hverified, hepoch, hcut⟩, ?_⟩))
    rw [hpersist]
    unfold Entries.persist
    cases hp : env.persists topic l.partition with
    | true => exact ⟨rfl, Or.inl rfl⟩
    | false => exact ⟨rfl, Or.inr ⟨rfl, _, rfl⟩⟩

/-- `promote_leader` replaces no other entry. -/
theorem Settings.promoteLeader_spec (env : CycleEnv) (h : entries.Keyed) (partition : Nat)
    (candidate : BrokerId) :
    (cfg.promoteLeader env entries topic partition candidate).2.Keyed ∧
      ∀ t p, ¬ (t = topic ∧ p = partition) →
        (cfg.promoteLeader env entries topic partition candidate).2 t p = entries t p := by
  rcases Settings.promoteLeader_cases env h partition candidate with
    ⟨e, heq⟩ | ⟨id, _, heq⟩ | ⟨_, heq⟩ | ⟨l, hl, _, heq, _⟩
  · rw [heq]
    exact ⟨h, fun _ _ _ => rfl⟩
  · rw [heq]
    exact ⟨h, fun _ _ _ => rfl⟩
  · rw [heq]
    exact ⟨h, fun _ _ _ => rfl⟩
  · obtain rfl := h topic partition l hl
    rw [heq]
    exact ⟨h.insert topic (promoted l candidate), fun t p hne => Entries.insert_other hne⟩

end Registry

/-! ## The counters -/

namespace Monitor

variable {cfg : Settings} {s s' : Monitor} {topic : String} {partition : Nat}

/-- The last `attempts` probes of the partition failed, with its present leader.  The controller
does not probe itself. -/
def CountedAt (cfg : Settings) (s : Monitor) (topic : String) (partition attempts : Nat) : Prop :=
  s.leader topic partition = some cfg.self ∨
    ∃ id, s.leader topic partition = some id ∧
      List.replicate attempts (.probe topic partition id false) <:+
        s.trace.filter (MonitorEvent.about topic partition)

structure Counted (cfg : Settings) (s : Monitor) : Prop where
  keyed : s.entries.Keyed
  counted : ∀ t p attempts, s.failures t p = some attempts → s.CountedAt cfg t p attempts
  justified : Justified s.trace

/-- Nothing else has changed. -/
def Elsewhere (topic : String) (partition : Nat) (s s' : Monitor) : Prop :=
  ∀ t p, ¬ (t = topic ∧ p = partition) → s'.failures t p = s.failures t p ∧
    s'.entries t p = s.entries t p ∧
    s'.trace.filter (MonitorEvent.about t p) = s.trace.filter (MonitorEvent.about t p)

theorem Elsewhere.trans {s₁ s₂ s₃ : Monitor} (h : Elsewhere topic partition s₁ s₂)
    (h' : Elsewhere topic partition s₂ s₃) : Elsewhere topic partition s₁ s₃ := by
  intro t p hne
  obtain ⟨hfailures, hentries, htrace⟩ := h t p hne
  obtain ⟨hfailures', hentries', htrace'⟩ := h' t p hne
  exact ⟨hfailures'.trans hfailures, hentries'.trans hentries, htrace'.trans htrace⟩

theorem elsewhere_setFailures (s : Monitor) (topic : String) (partition : Nat)
    (attempts : Option Nat) :
    Elsewhere topic partition s (s.setFailures topic partition attempts) :=
  fun _ _ hne => ⟨if_neg hne, rfl, rfl⟩

theorem filter_about_concat {trace : List MonitorEvent} {event : MonitorEvent} {t : String} {p : Nat}
    (h : event.about t p = false) :
    (trace ++ [event]).filter (MonitorEvent.about t p) = trace.filter (MonitorEvent.about t p) := by
  rw [List.filter_append, List.filter_cons_of_neg (by rw [h]; exact Bool.false_ne_true),
    List.filter_nil, List.append_nil]

theorem elsewhere_probe (s : Monitor) (topic : String) (partition : Nat) (id : BrokerId)
    (responding : Bool) :
    Elsewhere topic partition s (s.record (.probe topic partition id responding)) :=
  fun _ _ hne => ⟨rfl, rfl, filter_about_concat (decide_eq_false fun heq =>
    hne ⟨heq.1.symm, heq.2.symm⟩)⟩

theorem elsewhere_promote (s : Monitor) (topic : String) (partition : Nat) (id : Option BrokerId) :
    Elsewhere topic partition s (s.record (.promote topic partition id)) :=
  fun _ _ _ => ⟨rfl, rfl, filter_about_concat rfl⟩

theorem elsewhere_install (s : Monitor) {entries : Entries}
    (h : ∀ t p, ¬ (t = topic ∧ p = partition) → entries t p = s.entries t p) :
    Elsewhere topic partition s (s.install topic partition entries) := by
  intro t p hne
  unfold install
  split
  · exact ⟨rfl, h t p hne, rfl⟩
  · exact ⟨rfl, h t p hne, filter_about_concat (decide_eq_false fun heq =>
      hne ⟨heq.1.symm, heq.2.symm⟩)⟩

@[simp] theorem install_entries (s : Monitor) (entries : Entries) :
    (s.install topic partition entries).entries = entries := by
  unfold install
  split <;> rfl

@[simp] theorem install_failures (s : Monitor) (entries : Entries) :
    (s.install topic partition entries).failures = s.failures := by
  unfold install
  split <;> rfl

theorem install_same (s : Monitor) : s.install topic partition s.entries = s := if_pos rfl

theorem justified_install (h : Justified s.trace) (entries : Entries) :
    Justified (s.install topic partition entries).trace := by
  unfold Monitor.install
  split
  · exact h
  · exact h.concat fun _ _ _ hevent => by cases hevent

/-- **The frame rule** for a step about one partition. -/
theorem Counted.update (h : Counted cfg s) (helse : Elsewhere topic partition s s')
    (hkeyed : s'.entries.Keyed) (hjustified : Justified s'.trace)
    (hown : ∀ attempts, s'.failures topic partition = some attempts →
      s'.CountedAt cfg topic partition attempts) : Counted cfg s' := by
  refine ⟨hkeyed, fun t p attempts hattempts => ?_, hjustified⟩
  by_cases heq : t = topic ∧ p = partition
  · obtain ⟨rfl, rfl⟩ := heq
    exact hown attempts hattempts
  · obtain ⟨hfailures, hentries, htrace⟩ := helse t p heq
    rw [hfailures] at hattempts
    have hat := h.counted t p attempts hattempts
    unfold CountedAt leader at hat ⊢
    rwa [hentries, htrace]

/-- One more failed probe of the leader. -/
theorem CountedAt.failed {id : BrokerId} {attempts : Nat}
    (h : ∀ n, s.failures topic partition = some n → s.CountedAt cfg topic partition n)
    (hleader : s.leader topic partition = some id) (hother : id ≠ cfg.self)
    (hattempts : attempts ≤ (s.failures topic partition).getD 0 + 1) :
    List.replicate attempts (.probe topic partition id false) <:+
      (s.record (.probe topic partition id false)).trace.filter
        (MonitorEvent.about topic partition) := by
  have hold : List.replicate ((s.failures topic partition).getD 0)
      (.probe topic partition id false) <:+
        s.trace.filter (MonitorEvent.about topic partition) := by
    cases hn : s.failures topic partition with
    | none => exact List.nil_suffix
    | some n =>
      rcases h n hn with hself | ⟨id', hid', hsuffix⟩
      · rw [hleader] at hself
        exact absurd (Option.some.inj hself) hother
      · rw [hleader] at hid'
        cases hid'
        exact hsuffix
  have hnew : (s.record (.probe topic partition id false)).trace.filter
      (MonitorEvent.about topic partition) =
        s.trace.filter (MonitorEvent.about topic partition) ++ [.probe topic partition id false] := by
    rw [record, List.filter_append]
    congr 1
    exact List.filter_cons_of_pos (decide_eq_true ⟨rfl, rfl⟩)
  have hmore : List.replicate attempts (MonitorEvent.probe topic partition id false) <:+
      List.replicate ((s.failures topic partition).getD 0) (.probe topic partition id false) ++
        [.probe topic partition id false] := by
    refine ⟨List.replicate ((s.failures topic partition).getD 0 + 1 - attempts)
      (.probe topic partition id false), ?_⟩
    rw [List.replicate_append_replicate, ← List.replicate_succ', Nat.sub_add_cancel hattempts]
  rw [hnew]
  exact hmore.trans (List.suffix_append_self_iff.2 hold)

/-! ## A cycle -/

variable {env : CycleEnv} {current : PartitionLeadership}

theorem Elsewhere.refl (s : Monitor) : Elsewhere topic partition s s :=
  fun _ _ _ => ⟨rfl, rfl, rfl⟩

theorem setFailures_own (s : Monitor) (attempts : Option Nat) :
    (s.setFailures topic partition attempts).failures topic partition = attempts :=
  if_pos ⟨rfl, rfl⟩

/-- Without a counter nothing is claimed of the partition. -/
theorem Counted.cleared (h : Counted cfg s) (helse : Elsewhere topic partition s s')
    (hkeyed : s'.entries.Keyed) (hjustified : Justified s'.trace) :
    Counted cfg (s'.setFailures topic partition none) := by
  refine h.update (helse.trans (elsewhere_setFailures _ _ _ _)) hkeyed hjustified ?_
  intro attempts hattempts
  rw [setFailures_own] at hattempts
  cases hattempts

/-- A probe that fails. -/
theorem Counted.failed (h : Counted cfg s)
    (hcurrent : s.entries topic current.partition = some current)
    (hother : current.leaderId ≠ cfg.self) {attempts : Nat}
    (hattempts : attempts ≤ (s.failures topic current.partition).getD 0 + 1) :
    let s' := (s.record (.probe topic current.partition current.leaderId false)).setFailures topic
      current.partition (some attempts)
    Counted cfg s' ∧ Elsewhere topic current.partition s s' ∧
      List.replicate attempts (.probe topic current.partition current.leaderId false) <:+
        s'.trace.filter (MonitorEvent.about topic current.partition) := by
  have hleader : s.leader topic current.partition = some current.leaderId := by
    rw [leader, hcurrent, Option.map_some]
  have hsuffix := CountedAt.failed (h.counted topic current.partition) hleader hother hattempts
  have helse := (elsewhere_probe s topic current.partition current.leaderId false).trans
    (elsewhere_setFailures _ topic current.partition (some attempts))
  refine ⟨h.update helse h.keyed ?_ ?_, helse, hsuffix⟩
  · exact h.justified.concat fun _ _ _ hevent => by cases hevent
  · intro n hn
    rw [setFailures_own] at hn
    cases hn
    exact Or.inr ⟨current.leaderId, hleader, hsuffix⟩

/-- The promotion that follows. -/
theorem Counted.promote (h : Counted cfg s) {id : BrokerId}
    (hleader : s.leader topic partition = some id)
    (hfailed : List.replicate 3 (.probe topic partition id false) <:+
      s.trace.filter (MonitorEvent.about topic partition)) :
    Counted cfg (s.record (.promote topic partition (s.leader topic partition))) := by
  refine ⟨h.keyed, fun t p attempts hattempts => ?_, ?_⟩
  · have hat := h.counted t p attempts hattempts
    unfold CountedAt at hat ⊢
    rw [record, filter_about_concat rfl]
    exact hat
  · refine h.justified.concat fun t p l hevent => ?_
    cases hevent
    exact ⟨id, hleader, hfailed⟩

/-- The cycle changes the registry for this partition: the third probe of the leader fails, and the
promotion of another broker than the controller passes the checks. -/
def Promotes (cfg : Settings) (env : CycleEnv) (s : Monitor) (topic : String) (partition : Nat) :
    Prop :=
  ∃ current candidate, s.entries topic partition = some current ∧ current.leaderId ≠ cfg.self ∧
    env.responding topic partition = false ∧ 2 ≤ (s.failures topic partition).getD 0 ∧
    cfg.selectAutomaticCandidate env topic current = some candidate ∧ candidate ≠ cfg.self ∧
    cfg.Promotable env topic current candidate

/-- The file is written when the registry is changed for this partition. -/
def Writes (cfg : Settings) (env : CycleEnv) (s : Monitor) (topic : String) (partition : Nat) :
    Prop :=
  s.Promotes cfg env topic partition → env.persists topic partition = true

theorem Writes.congr (h : s.Writes cfg env topic partition)
    (hfailures : s'.failures topic partition = s.failures topic partition)
    (hentries : s'.entries topic partition = s.entries topic partition) :
    s'.Writes cfg env topic partition := by
  unfold Writes Promotes at h ⊢
  rwa [hfailures, hentries]

/-- What `promote_leader` returned is entered in the registry; unless it changed the leadership the
counter stays. -/
theorem Counted.install (h : Counted cfg s)
    (hcurrent : s.entries topic current.partition = some current) {candidate : BrokerId}
    (hwritten : candidate ≠ cfg.self → cfg.Promotable env topic current candidate →
      env.persists topic current.partition = true)
    {result : Except PromotionError PromoteResponse} {entries : Entries}
    (hr : cfg.promoteLeader env s.entries topic current.partition candidate = (result, entries)) :
    Elsewhere topic current.partition s (s.install topic current.partition entries) ∧
      Counted cfg ((s.install topic current.partition entries).setFailures topic
        current.partition none) ∧
      ((∀ l, result ≠ .ok (.leadershipChanged l)) →
        Counted cfg (s.install topic current.partition entries)) := by
  obtain ⟨hkeyed, hothers⟩ := @Settings.promoteLeader_spec cfg _ topic env h.keyed
    current.partition candidate
  have hcases := @Settings.promoteLeader_cases cfg _ topic env h.keyed current.partition candidate
  rw [hr] at hkeyed hothers hcases
  have hinstall := elsewhere_install s hothers
  have hjustified : Justified (s.install topic current.partition entries).trace :=
    justified_install h.justified entries
  have hkeyed' : (s.install topic current.partition entries).entries.Keyed := by
    rwa [install_entries]
  refine ⟨hinstall, h.cleared hinstall hkeyed' hjustified, fun hno => ?_⟩
  rcases hcases with ⟨e, heq⟩ | ⟨id, _, heq⟩ | ⟨_, heq⟩ | ⟨l, hl, hpromotable, hnew, hresult⟩
  · cases heq
    rwa [install_same]
  · cases heq
    rwa [install_same]
  · cases heq
    rwa [install_same]
  · rw [hcurrent] at hl
    cases hl
    rcases hresult with hchanged | ⟨hunwritten, -⟩
    · exact absurd hchanged (hno _)
    · -- the counter stays, and only a promotion of the controller itself is not written
      have hself : candidate = cfg.self := by
        by_contra hother
        rw [hwritten hother hpromotable] at hunwritten
        cases hunwritten
      refine h.update hinstall hkeyed' hjustified fun _ _ => Or.inl ?_
      dsimp only at hnew
      rw [leader, install_entries, hnew, Entries.insert_own, Option.map_some, ← hself]
      rfl

/-- **One partition of a cycle.** -/
theorem Counted.monitorPartition (h : Counted cfg s)
    (hcurrent : s.entries topic current.partition = some current)
    (hwrites : s.Writes cfg env topic current.partition) :
    Counted cfg (s.monitorPartition cfg env topic current).2 ∧
      Elsewhere topic current.partition s (s.monitorPartition cfg env topic current).2 := by
  unfold Monitor.monitorPartition
  simp only
  split
  · exact ⟨h.cleared (Elsewhere.refl s) h.keyed h.justified, elsewhere_setFailures _ _ _ _⟩
  rename_i hother
  split
  · exact ⟨h, Elsewhere.refl s⟩
  cases hsilent : env.responding topic current.partition with
  | true =>
    rw [if_pos rfl]
    have helse := elsewhere_probe s topic current.partition current.leaderId true
    exact ⟨h.cleared helse h.keyed (h.justified.concat fun _ _ _ hevent => by cases hevent),
      helse.trans (elsewhere_setFailures _ _ _ _)⟩
  | false =>
    rw [if_neg Bool.false_ne_true]
    have hattempts : min ((s.failures topic current.partition).getD 0 + 1) U8_MAX ≤
        (s.failures topic current.partition).getD 0 + 1 := Nat.min_le_left _ _
    simp only [show (s.record (.probe topic current.partition current.leaderId false)).failures =
      s.failures from rfl]
    generalize min ((s.failures topic current.partition).getD 0 + 1) U8_MAX = attempts at *
    obtain ⟨hcounted, helse, hsuffix⟩ := h.failed hcurrent hother hattempts
    generalize hs₂ : (s.record (.probe topic current.partition current.leaderId false)).setFailures
      topic current.partition (some attempts) = s₂ at *
    have hleader : s₂.leader topic current.partition = some current.leaderId := by
      rw [← hs₂]
      show (s.entries topic current.partition).map (·.leaderId) = _
      rw [hcurrent, Option.map_some]
    split
    · exact ⟨hcounted, helse⟩
    rename_i hthree
    split
    · exact ⟨hcounted, helse⟩
    rename_i candidate hselected
    have hfailed : List.replicate 3 (.probe topic current.partition current.leaderId false) <:+
        s₂.trace.filter (MonitorEvent.about topic current.partition) := by
      refine List.IsSuffix.trans ⟨List.replicate (attempts - 3)
        (.probe topic current.partition current.leaderId false), ?_⟩ hsuffix
      rw [List.replicate_append_replicate]
      congr 1
      omega
    have hpromote := hcounted.promote hleader hfailed
    have helse₃ := helse.trans (elsewhere_promote s₂ topic current.partition
      (s₂.leader topic current.partition))
    have hentries₃ : (s₂.record (.promote topic current.partition
        (s₂.leader topic current.partition))).entries = s.entries := by
      rw [← hs₂]
      rfl
    generalize s₂.record (.promote topic current.partition
      (s₂.leader topic current.partition)) = s₃ at *
    have hwritten : candidate ≠ cfg.self → cfg.Promotable env topic current candidate →
        env.persists topic current.partition = true := fun hcandidate hpromotable =>
      hwrites ⟨current, candidate, hcurrent, hother, hsilent, by omega, hselected, hcandidate,
        hpromotable⟩
    split
    · rename_i hr
      obtain ⟨hinstall, _, hkept⟩ := hpromote.install (hentries₃ ▸ hcurrent) hwritten hr
      exact ⟨hkept (fun _ herror => by cases herror), helse₃.trans hinstall⟩
    · rename_i hr
      obtain ⟨hinstall, hcleared, _⟩ := hpromote.install (hentries₃ ▸ hcurrent) hwritten hr
      exact ⟨hcleared, helse₃.trans (hinstall.trans (elsewhere_setFailures _ _ _ _))⟩
    · rename_i hno hr
      obtain ⟨hinstall, _, hkept⟩ := hpromote.install (hentries₃ ▸ hcurrent) hwritten hr
      exact ⟨hkept (fun l heq => hno l (Except.ok.inj heq)), helse₃.trans hinstall⟩

/-- The pass over one topic changes nothing of the others. -/
theorem Counted.monitorPartitions {currents : List PartitionLeadership}
    (hdistinct : currents.Pairwise fun x y => x.partition ≠ y.partition) (h : Counted cfg s)
    (hcurrents : ∀ x ∈ currents, s.entries topic x.partition = some x)
    (hwrites : ∀ x ∈ currents, s.Writes cfg env topic x.partition) :
    Counted cfg (s.monitorPartitions cfg env topic currents).2 ∧
      ∀ t p, t ≠ topic →
        (s.monitorPartitions cfg env topic currents).2.failures t p = s.failures t p ∧
        (s.monitorPartitions cfg env topic currents).2.entries t p = s.entries t p := by
  induction currents generalizing s with
  | nil => exact ⟨h, fun _ _ _ => ⟨rfl, rfl⟩⟩
  | cons current rest ih =>
    obtain ⟨hfirst, hrest⟩ := List.pairwise_cons.1 hdistinct
    obtain ⟨hcurrent, hmore⟩ := List.forall_mem_cons.1 hcurrents
    obtain ⟨hwrite, hlater⟩ := List.forall_mem_cons.1 hwrites
    obtain ⟨hnext, helse⟩ := h.monitorPartition hcurrent hwrite
    rw [Monitor.monitorPartitions]
    split
    · rename_i heq
      rw [heq] at hnext helse
      refine ⟨hnext, fun t p ht => ?_⟩
      obtain ⟨hfailures, hentries, _⟩ := helse t p fun hsame => ht hsame.1
      exact ⟨hfailures, hentries⟩
    · rename_i heq
      rw [heq] at hnext helse
      have hsame : ∀ x ∈ rest, ¬ (topic = topic ∧ x.partition = current.partition) :=
        fun x hx hsame => hfirst x hx hsame.2.symm
      obtain ⟨hdone, hothers⟩ := ih hrest hnext
        (fun x hx => by
          rw [(helse topic x.partition (hsame x hx)).2.1]
          exact hmore x hx)
        (fun x hx => (hlater x hx).congr (helse topic x.partition (hsame x hx)).1
          (helse topic x.partition (hsame x hx)).2.1)
      refine ⟨hdone, fun t p ht => ?_⟩
      obtain ⟨hfailures, hentries, _⟩ := helse t p fun hsame => ht hsame.1
      obtain ⟨hfailures', hentries'⟩ := hothers t p ht
      exact ⟨hfailures'.trans hfailures, hentries'.trans hentries⟩

/-- Ensuring a topic changes no leader. -/
theorem Counted.insertVacant (h : Counted cfg s) (topic : String) (partitions : Nat) :
    Counted cfg { s with entries := s.entries.insertVacant cfg topic partitions } := by
  obtain ⟨hkeyed, hkept⟩ := h.keyed.insertVacant cfg topic partitions
  refine ⟨hkeyed, fun t p attempts hattempts => ?_, h.justified⟩
  have hleader : ∀ id, s.leader t p = some id →
      Monitor.leader { s with entries := s.entries.insertVacant cfg topic partitions } t p =
        some id := by
    intro id hid
    obtain ⟨l, hl, rfl⟩ := Option.map_eq_some_iff.1 hid
    show (s.entries.insertVacant cfg topic partitions t p).map (·.leaderId) = _
    rw [hkept t p l hl, Option.map_some]
  rcases h.counted t p attempts hattempts with hself | ⟨id, hid, hsuffix⟩
  · exact Or.inl (hleader _ hself)
  · exact Or.inr ⟨id, hleader id hid, hsuffix⟩

/-- No failed probe of a partition is counted that had no entry. -/
theorem Counted.writes_insertVacant (h : Counted cfg s) (hwrites : s.Writes cfg env topic partition)
    (t : String) (n : Nat) :
    Writes cfg env { s with entries := s.entries.insertVacant cfg t n } topic partition := by
  intro hpromotes
  obtain ⟨current, candidate, hcurrent, hother, hsilent, htwo, hrest⟩ := hpromotes
  refine hwrites ⟨current, candidate, ?_, hother, hsilent, htwo, hrest⟩
  cases hentry : s.entries topic partition with
  | some l =>
    rw [← hcurrent]
    exact ((h.keyed.insertVacant cfg t n).2 topic partition l hentry).symm
  | none =>
    have hcounted : ∃ id, s.leader topic partition = some id := by
      cases hfailures : s.failures topic partition with
      | none =>
        rw [show Monitor.failures { s with entries := s.entries.insertVacant cfg t n } topic
          partition = none from hfailures] at htwo
        exact absurd htwo (by decide)
      | some attempts =>
        rcases h.counted topic partition attempts hfailures with hself | ⟨id, hid, _⟩
        · exact ⟨_, hself⟩
        · exact ⟨id, hid⟩
    obtain ⟨id, hid⟩ := hcounted
    rw [leader, hentry] at hid
    cases hid

theorem Counted.monitorTopics {topics : List (String × Nat)} (h : Counted cfg s)
    (hdistinct : (topics.map (·.1)).Nodup)
    (hwrites : ∀ x ∈ topics, ∀ p, s.Writes cfg env x.1 p) :
    Counted cfg (s.monitorTopics cfg env topics).2 := by
  induction topics generalizing s with
  | nil => exact h
  | cons x rest ih =>
    obtain ⟨topic, partitions⟩ := x
    obtain ⟨hfirst, hrest⟩ := List.nodup_cons.1 hdistinct
    obtain ⟨hwrite, hlater⟩ := List.forall_mem_cons.1 hwrites
    have hensured := h.insertVacant topic partitions
    have hnow := fun p => h.writes_insertVacant (hwrite p) topic partitions
    have hthen := fun x hx p => h.writes_insertVacant (hlater x hx p) topic partitions
    have hentries := @Entries.ensureTopic_entries cfg (fun _ => env.ensures topic) s.entries topic
      partitions
    generalize s.entries.insertVacant cfg topic partitions = ensured at *
    have hpairwise : ((List.range partitions).filterMap (ensured topic)).Pairwise
        fun x y => x.partition ≠ y.partition := by
      rw [List.pairwise_filterMap]
      refine List.nodup_range.imp_of_mem fun _ _ hne x hx y hy => ?_
      rwa [hensured.keyed _ _ _ hx, hensured.keyed _ _ _ hy]
    obtain ⟨hdone, hothers⟩ := hensured.monitorPartitions hpairwise
      (fun x hx => by
        obtain ⟨p, _, hp⟩ := List.mem_filterMap.1 hx
        rwa [hensured.keyed _ _ _ hp])
      (fun x _ => hnow x.partition)
    rw [Monitor.monitorTopics]
    split <;> rename_i entries heq <;> rw [heq] at hentries <;> obtain rfl : entries = ensured :=
      hentries
    · exact hensured
    split
    · rename_i heq
      rwa [heq] at hdone
    · rename_i heq
      rw [heq] at hdone hothers
      refine ih hdone hrest fun x hx p => ?_
      have hne : x.1 ≠ topic := fun hsame => hfirst (List.mem_map.2 ⟨x, hx, hsame⟩)
      exact (hthen x hx p).congr (hothers x.1 p hne).1 (hothers x.1 p hne).2

/-! ## Runs -/

/-- The registry accepts the leadership, and it is not the entry already. -/
def Replaces (cfg : Settings) (s : Monitor) (topic : String) (l : PartitionLeadership) : Prop :=
  applyEntry (cfg.cluster l.partition) (s.entries topic l.partition) l = .ok l ∧
    s.entries topic l.partition ≠ some l

theorem apply_replaces (s : Monitor) (persists : Entries → Bool) (topic : String)
    (l : PartitionLeadership) :
    (s.entries.apply cfg persists topic l).2 = s.entries ∨ s.Replaces cfg topic l ∧
      (s.entries.apply cfg persists topic l).2 = s.entries.insert topic l.partition l := by
  rcases Entries.apply_cases cfg persists s.entries topic l with hsame | ⟨hok, hnew⟩
  · exact Or.inl hsame
  · by_cases hentry : s.entries topic l.partition = some l
    · exact Or.inl (hnew.trans (Entries.insert_same hentry))
    · exact Or.inr ⟨⟨hok, hentry⟩, hnew⟩

/-- While failed probes of a partition are counted, its leader stays the same, unless the controller
takes over itself, and the registry's file is written when the monitor promotes. -/
def KeepsLeaders (cfg : Settings) (s : Monitor) : Action → Prop
  | .cycle env => ∀ t p, s.Writes cfg env t p
  | .apply topic l => s.Replaces cfg topic l →
    s.failures topic l.partition = none ∨ s.leader topic l.partition = some l.leaderId ∨
      l.leaderId = cfg.self
  | .ensureTopic _ _ => True

/-- An accepted leadership. -/
theorem Counted.replaced (h : Counted cfg s) {l : PartitionLeadership}
    (hl : s.failures topic l.partition = none ∨ s.leader topic l.partition = some l.leaderId ∨
      l.leaderId = cfg.self) :
    Counted cfg (s.install topic l.partition (s.entries.insert topic l.partition l)) := by
  refine h.update (elsewhere_install s fun t p hne => Entries.insert_other hne)
    (by rw [install_entries]; exact h.keyed.insert topic l)
    (justified_install h.justified _) fun attempts hattempts => ?_
  rw [install_failures] at hattempts
  have hleader : Monitor.leader (s.install topic l.partition
      (s.entries.insert topic l.partition l)) topic l.partition = some l.leaderId := by
    rw [leader, install_entries, Entries.insert_own, Option.map_some]
  rcases hl with hnone | hsame | hself
  · rw [hnone] at hattempts
    cases hattempts
  · have hinstall : s.install topic l.partition (s.entries.insert topic l.partition l) =
        { s with entries := s.entries.insert topic l.partition l } :=
      if_pos (by rw [Entries.insert_own, hsame, Option.map_some])
    rcases h.counted topic l.partition attempts hattempts with hself | ⟨id, hid, hsuffix⟩
    · rw [hsame] at hself
      exact Or.inl (hleader.trans hself)
    · rw [hsame] at hid
      refine Or.inr ⟨id, hleader.trans hid, ?_⟩
      rw [hinstall]
      exact hsuffix
  · exact Or.inl (hleader.trans (congrArg some hself))

theorem Counted.step {a : Action} (h : Counted cfg s) (ha : KeepsLeaders cfg s a)
    (hs : s.step cfg a = some s') : Counted cfg s' := by
  cases a with
  | cycle env =>
    cases hs
    unfold Monitor.monitorPartitionLeaders
    split
    · exact h
    · rename_i topics htopics
      exact h.monitorTopics (env.distinct topics htopics) fun x _ p => ha x.1 p
  | apply topic l =>
    cases hs
    rcases apply_replaces s (fun _ => true) topic l with hsame | ⟨hreplaces, hnew⟩
    · rw [hsame, install_same]
      exact h
    · rw [hnew]
      exact h.replaced (ha hreplaces)
  | ensureTopic topic partitions =>
    cases hs
    exact h.insertVacant topic partitions

/-- **Every promotion by the monitor is justified** in a run in which no leader changes while failed
probes of it are counted. -/
theorem promotions_justified {entries : Entries} (hkeyed : entries.Keyed) {acts : List Action}
    (hkeeps : Along (Monitor.step cfg) (KeepsLeaders cfg) (start entries) acts)
    (hr : run (Monitor.step cfg) (start entries) acts = some s) : Justified s.trace := by
  have hstart : Counted cfg (start entries) :=
    ⟨hkeyed, fun _ _ _ hnone => absurd hnone.symm (Option.some_ne_none _), justified_nil⟩
  exact (run_invariant (fun _ _ _ h ha hs => Counted.step h ha hs) hstart hkeeps hr).justified

/-! ## Two runs -/

theorem one_mem_brokers : (1 : BrokerId) ∈ [1, 2, 3] := List.mem_cons_self

/-- The controller of three brokers. -/
def controllerOfThree : Settings where
  nodes := [1, 2, 3]
  replicationFactor := 3
  minInSyncReplicas := 2
  sorted := Cluster.threeNodes.sorted
  replication_le := Cluster.threeNodes.replication_le
  min_pos := Cluster.threeNodes.min_pos
  min_le := Cluster.threeNodes.min_le
  self := 1
  self_mem := one_mem_brokers
  autoCreateTopics := true
  defaultPartitionCount := 1
  default_pos := Nat.one_pos

/-- Broker 1 leads partition 0 of the topic, broker 2 leads partition 1. -/
def ordersEntries : Entries :=
  Entries.insertVacant controllerOfThree (fun _ _ => none) "orders" 2

theorem ordersEntries_keyed : ordersEntries.Keyed :=
  (Entries.Keyed.insertVacant (fun _ _ _ hnone => absurd hnone.symm (Option.some_ne_none _))
    controllerOfThree "orders" 2).1

/-- No leader answers the probe; every log is empty. -/
def unanswered : CycleEnv where
  topics := .ok [("orders", 2)]
  distinct := fun _ hlisted => by
    cases hlisted
    exact List.nodup_singleton _
  responding := fun _ _ => false
  selecting := fun _ _ _ => some 0
  verifying := fun _ _ _ => some 0
  localOffset := fun _ _ => some 0
  truncates := fun _ _ => true
  persists := fun _ _ => true
  ensures := fun _ => true

/-- **A leader is replaced after one failed probe**: broker 2 fails two, broker 3 is promoted by
hand and fails one. -/
theorem replaced_after_one_probe :
    ∃ s, run (Monitor.step controllerOfThree) (start ordersEntries)
        [.cycle unanswered, .cycle unanswered, .apply "orders" ⟨1, 3, 1, 0⟩, .cycle unanswered] =
          some s ∧
      s.trace = [.probe "orders" 1 2 false, .probe "orders" 1 2 false, .change "orders" 1,
        .probe "orders" 1 3 false, .promote "orders" 1 (some 3), .change "orders" 1] ∧
      ¬ Justified s.trace := by
  refine ⟨_, rfl, by decide +kernel, fun h => ?_⟩
  obtain ⟨id, hid, hsuffix⟩ := h [.probe "orders" 1 2 false, .probe "orders" 1 2 false,
    .change "orders" 1, .probe "orders" 1 3 false] [.change "orders" 1] "orders" 1 (some 3)
    (by decide +kernel)
  cases hid
  exact absurd hsuffix (by decide)

/-- Broker 2 fails three probes and is replaced. -/
theorem promotions_justified_three :
    ∃ s, run (Monitor.step controllerOfThree) (start ordersEntries)
        [.cycle unanswered, .cycle unanswered, .cycle unanswered] = some s ∧
      .promote "orders" 1 (some 2) ∈ s.trace ∧ s.leader "orders" 1 = some 1 ∧
      Justified s.trace := by
  have hkeeps : Along (Monitor.step controllerOfThree) (KeepsLeaders controllerOfThree)
      (start ordersEntries) [.cycle unanswered, .cycle unanswered, .cycle unanswered] :=
    ⟨fun _ _ _ => rfl, fun _ _ => ⟨fun _ _ _ => rfl, fun _ _ =>
      ⟨fun _ _ _ => rfl, fun _ _ => trivial⟩⟩⟩
  exact ⟨_, rfl, by decide +kernel, by decide +kernel,
    promotions_justified ordersEntries_keyed hkeeps rfl⟩

end Monitor

end SevlaMq.Broker
