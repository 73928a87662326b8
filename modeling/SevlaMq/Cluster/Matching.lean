import SevlaMq.Cluster.Epochs
import SevlaMq.Cluster.Contents
import SevlaMq.Lib.Lineage

/-!
# Log matching across leadership changes

Each epoch has a log: it starts with the records the previous epoch had below the watermark the
epoch was elected with, and grows by what its leader appends.  Brokers of the same epoch hold
prefixes of that log as long as nobody takes up an epoch with records beyond the watermark it
started with, and nobody writes a record of one epoch while its entry has another.  The code
checks neither: `sync_controller_metadata` applies a newer epoch and leaves the log as it is, and
the epoch is compared once, at the start of a handler.

* `unsynced_tail_diverges` — a run after which two brokers of one epoch disagree below their
  watermarks.
* `KeepsLineage` — the condition on a step: it finds the entry it acts for (`Current`), it takes
  up a newer epoch with a log within its start (`RaisesCut`), and it does not come between a
  truncation and the registry update that belongs to it (`Undisturbed`).
* `Matching` — the invariant: the logs of the epochs form a lineage, and logs, tasks and messages
  lie in it.
* `logs_match` — log matching on every run within the condition.
-/

set_option autoImplicit false

namespace SevlaMq.Cluster

open SevlaMq.Storage SevlaMq.Lineage

variable {cfg : ClusterConfig}

/-! ## Two brokers of one epoch that disagree -/

/-- The logs of `b` and `b'` agree below the watermark `h` as far as both have the record. -/
def AgreeBelow (s : State) (b b' : BrokerId) (h : Nat) : Prop :=
  ∀ o, o < h → o < (s.broker b).log.length → o < (s.broker b').log.length →
    (contents (s.broker b).log)[o]? = (contents (s.broker b').log)[o]?

/-- Broker 2 keeps a record nobody else has, learns of epoch 1 from the controller, and then of
the watermark that the new leader's record at the same offset has reached. -/
def unsyncedRun : List Action :=
  [.createTopic 1, .createTopic 2, .createTopic 3, .produce 2 (oneRecord 7 .leader),
    .task 0 (.stamp [5]), .task 0 .go, .task 0 .go, .task 0 .fail, .task 0 .fail, .task 0 .go,
    .promote 1, .task 1 .go, .task 1 .go, .task 1 .go, .task 1 .go, .task 1 .go, .task 1 .go,
    .sync 2, .task 2 .go, .task 2 .go, .produce 1 (oneRecord 8 .durable), .task 3 (.stamp [6]),
    .task 3 .go, .task 3 .go, .task 3 .fail, .task 3 .go, .deliver 2, .task 4 .go, .task 4 .go,
    .task 4 .go, .task 4 .go, .task 3 (.receive 3), .task 3 .go, .task 3 .go, .deliver 4,
    .task 5 .go]

theorem unsynced_tail_diverges : ∃ s, run (step threeNodes) State.init unsyncedRun = some s ∧
    (s.broker 1).entry = some ⟨1, 1, 1, 1⟩ ∧ (s.broker 2).entry = some ⟨1, 1, 1, 1⟩ ∧
    1 ∈ threeNodes.replicaSet ∧ 2 ∈ threeNodes.replicaSet ∧ ¬ AgreeBelow s 1 2 1 := by
  refine ⟨_, rfl, rfl, rfl, by decide, by decide, fun h => ?_⟩
  exact absurd (h 0 (by decide) (by decide +kernel) (by decide +kernel)) (by decide +kernel)

/-! ## The condition on a step -/

def Broker.leads (b : BrokerId) (x : Broker) : Bool := x.entry.any (·.leaderId = b)

/-- The task finds the entry it acts for: a produce appends on the leader or on the only node; a
record is sent in the epoch it was read in; a leader's log is cut under the entry the request was
checked against; a log is extended by a record of the entry's epoch. -/
def Task.current (cfg : ClusterConfig) (b : BrokerId) (x : Broker) : Task → Bool
  | .append _ => cfg.nodes = [b] || x.leads b
  | .contact r => r.followers.isEmpty || epochOf x.entry = r.current.origin
  | .catchUp _ l _ => epochOf x.entry = l.leaderEpoch
  | .replicaTruncate _ _ cur => !x.leads b || epochOf x.entry = cur.leaderEpoch
  | .leadershipTruncate _ cur => !x.leads b || epochOf x.entry = cur.leaderEpoch
  | .promoteTruncate _ cur => !x.leads b || epochOf x.entry = cur.leaderEpoch
  | .replicaStore _ m =>
    m.record.offset < x.log.length || x.entry.any (·.leaderEpoch = m.leaderEpoch)
  | .recoverStore epoch (f :: _) => f.offset < x.log.length || x.entry.any (·.leaderEpoch = epoch)
  | _ => true

def Current (cfg : ClusterConfig) (s : State) (a : Action) : Prop :=
  ∀ p ∈ stepped s a, p.2.current cfg p.1 (s.broker p.1)

/-- The leadership a promotion founds an epoch with. -/
def Task.founds : Task → List PartitionLeadership
  | .promoteApply l _ _ => [l]
  | _ => []

/-- A broker that takes up a newer epoch has a log within the watermarks the epochs it passes
started with; the leader of the epoch has a log that ends there. -/
def RaisesCut (cfg : ClusterConfig) (s : State) (a : Action) : Prop :=
  ∀ p ∈ stepped s a, ∀ l ∈ p.2.update cfg, epochOf (s.broker p.1).entry < l.leaderEpoch →
    ∀ l' ∈ epochs cfg s ++ p.2.founds, epochOf (s.broker p.1).entry < l'.leaderEpoch →
      l'.leaderEpoch ≤ l.leaderEpoch →
        (s.broker p.1).log.length ≤ l'.highWatermark ∧
          (l.leaderId = p.1 → l'.leaderEpoch = l.leaderEpoch →
            (s.broker p.1).log.length = l'.highWatermark)

/-- The broker whose log a step needs whole: it is about to append, or leads and restarts. -/
def needsWhole (s : State) : Action → Option BrokerId
  | .restart b => if (s.broker b).leads b then some b else none
  | .task index (.stamp _) => (s.tasks[index]?).map (·.1)
  | _ => none

/-- A leader does not append or restart between the truncation of its log by a request and the
registry update of that request. -/
def Undisturbed (s : State) (a : Action) : Prop :=
  ∀ b ∈ needsWhole s a, ∀ q ∈ s.tasks, q.1 = b → q.2.cut = false

def KeepsLineage (cfg : ClusterConfig) (s : State) (a : Action) : Prop :=
  Current cfg s a ∧ RaisesCut cfg s a ∧ Undisturbed s a

instance (s : State) (a : Action) : Decidable (Current cfg s a) :=
  inferInstanceAs (Decidable (∀ p ∈ stepped s a, p.2.current cfg p.1 (s.broker p.1)))

instance (s : State) (a : Action) : Decidable (RaisesCut cfg s a) :=
  inferInstanceAs (Decidable (∀ p ∈ stepped s a, ∀ l ∈ p.2.update cfg,
    epochOf (s.broker p.1).entry < l.leaderEpoch →
      ∀ l' ∈ epochs cfg s ++ p.2.founds, epochOf (s.broker p.1).entry < l'.leaderEpoch →
        l'.leaderEpoch ≤ l.leaderEpoch →
          (s.broker p.1).log.length ≤ l'.highWatermark ∧
            (l.leaderId = p.1 → l'.leaderEpoch = l.leaderEpoch →
              (s.broker p.1).log.length = l'.highWatermark)))

instance (s : State) (a : Action) : Decidable (Undisturbed s a) :=
  inferInstanceAs (Decidable (∀ b ∈ needsWhole s a, ∀ q ∈ s.tasks, q.1 = b → q.2.cut = false))

instance (s : State) (a : Action) : Decidable (KeepsLineage cfg s a) :=
  inferInstanceAs (Decidable (Current cfg s a ∧ RaisesCut cfg s a ∧ Undisturbed s a))

/-! ## The invariant -/

/-- The watermark epoch `e` started with. -/
def startAt (es : List PartitionLeadership) (e : Nat) : Nat :=
  ((es[e]?).map (·.highWatermark)).getD 0

/-- `own e = some xs`: the leader of epoch `e` has taken the epoch up and written `xs`. -/
abbrev Owned := Nat → Option (List Content)

/-- The log of epoch `e`. -/
def epochLog (own : Owned) (es : List PartitionLeadership) (e : Nat) : List Content :=
  line own (startAt es) e

/-- A broker holds a prefix of the log of its epoch; the leader holds all of it, unless a request
that is about to end the epoch here has cut the log.  Without an entry only the only node has
records, those of epoch 0. -/
def Broker.Matches (cfg : ClusterConfig) (own : Owned) (es : List PartitionLeadership)
    (tasks : List (BrokerId × Task)) (b : BrokerId) (x : Broker) : Prop :=
  (x.entry = none →
    if cfg.nodes = [b] then contents x.log = epochLog own es 0 else x.log = []) ∧
  ∀ l, x.entry = some l → contents x.log <+: epochLog own es l.leaderEpoch ∧
    (l.leaderId = b → own l.leaderEpoch ≠ none ∧
      (contents x.log = epochLog own es l.leaderEpoch ∨
        ∃ t, (b, t) ∈ tasks ∧ t.cutFrom = some l.leaderEpoch))

/-- Records are in the log of the epoch they were read in; a request that cuts the log is ahead
of the entry it was checked against. -/
def Task.Matches (own : Owned) (es : List PartitionLeadership) : Task → Prop
  | .readBack _ _ jobs => ∀ j ∈ jobs, InLog (epochLog own es j.origin) j.record
  | .contact r => ∀ j ∈ r.current :: r.rest, InLog (epochLog own es j.origin) j.record
  | .awaitAck r _ _ _ => ∀ j ∈ r.current :: r.rest, InLog (epochLog own es j.origin) j.record
  | .catchUp r _ _ => ∀ j ∈ r.current :: r.rest, InLog (epochLog own es j.origin) j.record
  | .commitApply r _ => ∀ j ∈ r.current :: r.rest, InLog (epochLog own es j.origin) j.record
  | .replicaTail _ m cur =>
    InLog (epochLog own es m.leaderEpoch) m.record ∧ cur.leaderEpoch < m.leaderEpoch
  | .replicaTruncate _ m cur =>
    InLog (epochLog own es m.leaderEpoch) m.record ∧ cur.leaderEpoch < m.leaderEpoch
  | .replicaAdopt _ m cur _ =>
    InLog (epochLog own es m.leaderEpoch) m.record ∧ cur.leaderEpoch < m.leaderEpoch
  | .replicaExpected _ m => InLog (epochLog own es m.leaderEpoch) m.record
  | .replicaStore _ m => InLog (epochLog own es m.leaderEpoch) m.record
  | .leadershipTail l cur => cur.leaderEpoch < l.leaderEpoch
  | .leadershipTruncate l cur => cur.leaderEpoch < l.leaderEpoch
  | .leadershipApply l cur cut => cut = true → cur.leaderEpoch < l.leaderEpoch
  | .recoverStore epoch records => ∀ f ∈ records, InLog (epochLog own es epoch) f
  | .fetchFilter _ epoch records => ∀ f ∈ records, InLog (epochLog own es epoch) f
  | _ => True

def Message.Matches (own : Owned) (es : List PartitionLeadership) : Message → Prop
  | .replicate _ _ _ m => InLog (epochLog own es m.leaderEpoch) m.record
  | .fetched _ epoch records => ∀ f ∈ records, InLog (epochLog own es epoch) f
  | _ => True

/-- The request was checked against an entry of its broker and may still cut the log. -/
def Task.checked : Task → Bool
  | .replicaTail .. | .replicaTruncate .. | .leadershipTail .. | .leadershipTruncate .. => true
  | .promoteQuery .. | .promoteTail .. | .promoteTruncate .. => true
  | _ => false

/-- **The matching invariant.** -/
structure Matching (cfg : ClusterConfig) (own : Owned) (s : State) : Prop where
  elections : Elections cfg s
  linked : Linked own (startAt (epochs cfg s))
  /-- An epoch is written only after its leader has reached it; the only node may write epoch 0
  without an entry. -/
  taken : ∀ e xs, own e = some xs → ∃ l, (epochs cfg s)[e]? = some l ∧
    e ≤ epochOf (s.broker l.leaderId).entry ∧
    ((s.broker l.leaderId).entry = none → cfg.nodes = [l.leaderId])
  checked : ∀ q ∈ s.tasks, q.2.checked = true → (s.broker q.1).entry ≠ none
  sound : Sound (Broker.Matches cfg own (epochs cfg s) s.tasks)
    (fun _ t => t.Matches own (epochs cfg s)) (Message.Matches own (epochs cfg s)) s

theorem Matching.init (cfg : ClusterConfig) : Matching cfg (fun _ => none) State.init where
  elections := Elections.init cfg
  linked := linked_none _
  taken := fun e xs h => by cases h
  checked := fun q h => by cases h
  sound := by
    refine ⟨fun b => ⟨fun _ => ?_, fun l h => ?_⟩, fun p h => ?_, fun m h => ?_⟩
    · split <;> rfl
    · cases h
    · cases h
    · cases h

/-! ## Logs of epochs only grow -/

/-- No epoch loses a record. -/
def Grown (own : Owned) (es : List PartitionLeadership) (own' : Owned)
    (es' : List PartitionLeadership) : Prop :=
  ∀ e, epochLog own es e <+: epochLog own' es' e

section Grown

variable {own own' : Owned} {es es' : List PartitionLeadership}

theorem Grown.refl (own : Owned) (es : List PartitionLeadership) : Grown own es own es :=
  fun _ => List.prefix_rfl

theorem Grown.message (h : Grown own es own' es') {m : Message} (hm : m.Matches own es) :
    m.Matches own' es' := by
  cases m with
  | replicate => exact InLog.mono hm (h _)
  | fetched => exact fun f hf => InLog.mono (hm f hf) (h _)
  | _ => trivial

theorem Grown.jobs (h : Grown own es own' es') {jobs : List Job}
    (hj : ∀ j ∈ jobs, InLog (epochLog own es j.origin) j.record) :
    ∀ j ∈ jobs, InLog (epochLog own' es' j.origin) j.record :=
  fun j hmem => InLog.mono (hj j hmem) (h _)

theorem Grown.task (h : Grown own es own' es') {t : Task} (ht : t.Matches own es) :
    t.Matches own' es' := by
  cases t with
  | readBack | contact | awaitAck | catchUp | commitApply => exact h.jobs ht
  | replicaTail | replicaTruncate | replicaAdopt => exact ⟨InLog.mono ht.1 (h _), ht.2⟩
  | replicaExpected | replicaStore => exact InLog.mono ht (h _)
  | leadershipTail | leadershipTruncate | leadershipApply => exact ht
  | recoverStore | fetchFilter => exact fun f hf => InLog.mono (ht f hf) (h _)
  | _ => trivial

end Grown

/-! ## Taking up an epoch -/

section TakeUp

variable {own : Owned} {es : List PartitionLeadership}

theorem startAt_of {e : Nat} {l : PartitionLeadership} (h : es[e]? = some l) :
    startAt es e = l.highWatermark := by rw [startAt, h]; rfl

/-- A log that respects the starts of the epochs it passes is a prefix of the new epoch's log. -/
theorem takeUp_isPrefix {xs : List Content} {l : PartitionLeadership} {old : Nat}
    (hlinked : Linked own (startAt es))
    (hnum : ∀ (i : Nat) (l : PartitionLeadership), es[i]? = some l → l.leaderEpoch = i)
    (hlt : l.leaderEpoch < es.length) (hp : xs <+: epochLog own es old)
    (hle : old ≤ l.leaderEpoch)
    (hcut : ∀ l' ∈ es, old < l'.leaderEpoch → l'.leaderEpoch ≤ l.leaderEpoch →
      xs.length ≤ l'.highWatermark) : xs <+: epochLog own es l.leaderEpoch := by
  refine hlinked.transfer hp hle fun k h1 h2 => ?_
  have hk : k < es.length := by omega
  have hget := List.getElem?_eq_getElem hk
  have hep := hnum k _ hget
  rw [startAt_of hget]
  exact hcut _ (List.getElem_mem hk) (by omega) (by omega)

/-- A leader that takes up its epoch with a log that ends at the start has all of its log. -/
theorem takeUp_leader {xs : List Content} {l : PartitionLeadership}
    {old : Option PartitionLeadership}
    (hnum : ∀ (i : Nat) (l : PartitionLeadership), es[i]? = some l → l.leaderEpoch = i)
    (hlt : l.leaderEpoch < es.length) (hsome : ∀ c, old = some c → c.leaderEpoch < l.leaderEpoch)
    (hp : xs <+: epochLog own es l.leaderEpoch) (hfree : own l.leaderEpoch = none)
    (hend : ∀ l' ∈ es, epochOf old < l'.leaderEpoch → l'.leaderEpoch = l.leaderEpoch →
      xs.length = l'.highWatermark) :
    xs = epochLog own es l.leaderEpoch ∧
      ∀ k, l.leaderEpoch = k + 1 → startAt es l.leaderEpoch ≤ xs.length := by
  cases hep : l.leaderEpoch with
  | zero =>
    rw [hep] at hfree hp
    rw [epochLog, line_zero_of_none hfree] at hp ⊢
    exact ⟨List.prefix_nil.1 hp, fun k hk => by cases hk⟩
  | succ k =>
    rw [hep] at hfree hsome hp hlt hend
    have hget := List.getElem?_eq_getElem hlt
    have hold : epochOf old < k + 1 := by
      cases old with
      | none => exact Nat.succ_pos k
      | some c => exact hsome c rfl
    have hl' := hnum _ _ hget
    have hlen := hend _ (List.getElem_mem hlt) (by omega) hl'
    rw [← startAt_of hget] at hlen
    refine ⟨hp.eq_of_length_le ?_, fun _ _ => Nat.le_of_eq hlen.symm⟩
    rw [epochLog, line_succ_of_none hfree, List.length_take]
    omega

/-- A new epoch starts as the cut of the newest one and changes none of the others. -/
theorem elect_grown {l : PartitionLeadership} (hpos : 0 < es.length)
    (hfree : ∀ e, es.length ≤ e → own e = none) (hlinked : Linked own (startAt es)) :
    Linked own (startAt (es ++ [l])) ∧ Grown own es own (es ++ [l]) ∧
      ∀ e, e < es.length → epochLog own (es ++ [l]) e = epochLog own es e := by
  have hstart : ∀ k, k < es.length → startAt es k = startAt (es ++ [l]) k := fun k hk => by
    rw [startAt, startAt, List.getElem?_append_left hk]
  have hsame : ∀ e, e < es.length → epochLog own (es ++ [l]) e = epochLog own es e :=
    fun e he => line_congr fun k hk => ⟨rfl, (hstart k (by omega)).symm⟩
  refine ⟨fun e xs hxs => ?_, fun e => ?_, hsame⟩
  · have he : e + 1 < es.length := by
      rcases Nat.lt_or_ge (e + 1) es.length with hlt | hge
      · exact hlt
      · rw [hfree _ hge] at hxs; cases hxs
    rw [← hstart (e + 1) he]
    have := hsame e (by omega)
    unfold epochLog at this
    rw [this]
    exact hlinked e xs hxs
  · rcases Nat.lt_or_ge e es.length with hlt | hge
    · rw [hsame e hlt]
    · obtain ⟨k, rfl⟩ : ∃ k, e = k + 1 := ⟨e - 1, by omega⟩
      have hz : startAt es (k + 1) = 0 := by
        rw [startAt, List.getElem?_eq_none hge]; rfl
      rw [epochLog, line_succ_of_none (hfree _ hge), hz, List.take_zero]
      exact List.nil_prefix

end TakeUp

namespace Matching

variable {own : Owned} {s s' : State} {a : Action} {b : BrokerId} {e : Effect}

/-! ## Tasks and messages of a step -/

theorem current_of (hq : KeepsLineage cfg s a) {t : Task} (ht : stepped s a = some (b, t)) :
    t.current cfg b (s.broker b) = true := hq.1 _ ht

/-- A broker's log is a prefix of the log of the epoch of its entry. -/
theorem log_isPrefix (h : Matching cfg own s) (b : BrokerId) :
    contents (s.broker b).log <+:
      epochLog own (epochs cfg s) (epochOf (s.broker b).entry) := by
  obtain ⟨hnone, hsome⟩ := h.sound.brokers b
  cases he : (s.broker b).entry with
  | none =>
    have hlog := hnone he
    split at hlog
    · rw [hlog, epochOf_none]
    · rw [hlog]; exact List.nil_prefix
  | some l => exact (hsome l he).1

/-- A record of a broker's log is in the log of the epoch of its entry. -/
theorem log_inLog (h : Matching cfg own s) {r : Record} {offset : Nat}
    (hr : (s.broker b).log[offset]? = some r) :
    InLog (epochLog own (epochs cfg s) (epochOf (s.broker b).entry)) (fetched r offset) :=
  (inLog_fetched hr).mono (h.log_isPrefix b)

theorem read_inLog (h : Matching cfg own s) {offset maxBytes : Nat} {records : List FetchedRecord}
    (hr : readRecords (s.broker b).log offset maxBytes = some records) :
    ∀ f ∈ records, InLog (epochLog own (epochs cfg s) (epochOf (s.broker b).entry)) f :=
  fun f hf => (readRecords_inLog hr f hf).mono (h.log_isPrefix b)

theorem finish_matches {es : List PartitionLeadership} {r : Replication}
    (h : ∀ j ∈ r.current :: r.rest, InLog (epochLog own es j.origin) j.record) :
    (finishRecord cfg b r).1.Matches own es := by
  unfold finishRecord
  split
  · rename_i job rest hr
    exact fun j hj => h j (List.mem_cons_of_mem _ (hr ▸ hj))
  · trivial

theorem task_matches (h : Matching cfg own s) (hm : Move cfg s a b e) :
    e.task.Matches own (epochs cfg s) := by
  cases hm with
  | leadershipNewer hn he hlt => exact hlt
  | leadershipOlder => exact fun hc => by cases hc
  | replicateNewer hn he hlt => exact ⟨h.sound.message hn, hlt⟩
  | replicateSame hn => exact h.sound.message hn
  | task ht hs =>
    have hn := h.sound.task ht
    cases hs with
    | append => split <;> first | exact fun j hj => by cases hj | trivial
    | readBack hr =>
      intro j hj
      rcases List.mem_append.1 hj with hj | hj
      · exact hn j hj
      · cases List.mem_singleton.1 hj
        exact h.log_inLog hr
    | dispatch => exact hn
    | skip hsk => obtain rfl | ⟨_, _, _, rfl⟩ | ⟨_, _, rfl⟩ := hsk <;> exact hn
    | contact | commitRead | behind | acked | catchUp => exact hn
    | committed | uncommitted | commit => exact finish_matches hn
    | replicaLonger | replicaShorter | replicaTruncate | replicaReady => exact hn
    | replicaAdopt => exact hn.1
    | leadershipLonger => exact hn
    | leadershipShorter => exact fun hc => by cases hc
    | leadershipTruncate => exact fun _ => hn
    | recoverAwait hnet => exact h.sound.message hnet
    | recoverStore =>
      split
      · trivial
      · exact fun f hf => hn f (List.mem_cons_of_mem _ hf)
    | fetchRead hr => exact h.read_inLog hr
    | _ => trivial
  | _ => trivial

theorem sent_matches (h : Matching cfg own s) (hq : KeepsLineage cfg s a)
    (hm : Move cfg s a b e) : ∀ m ∈ e.sent, m.Matches own (epochs cfg s) := by
  intro m hmem
  cases hm with
  | fetch => cases List.mem_singleton.1 hmem; trivial
  | task ht hs =>
    have hn := h.sound.task ht
    cases hs with
    | contact hf he =>
      cases List.mem_singleton.1 hmem
      have hcur := current_of hq (stepped_go ht)
      simp only [Task.current, hf, he, epochOf_some, List.isEmpty_cons, Bool.false_or,
        decide_eq_true_eq] at hcur
      have hin := hn _ List.mem_cons_self
      rw [← hcur] at hin
      exact hin
    | catchUp hr =>
      cases List.mem_singleton.1 hmem
      have hcur := current_of hq (stepped_go ht)
      simp only [Task.current, decide_eq_true_eq] at hcur
      have hin := h.log_inLog hr
      rw [hcur] at hin
      exact hin
    | commit | promoteApply =>
      obtain ⟨_, _, rfl⟩ := List.mem_map.1 hmem
      trivial
    | fetchFilter =>
      cases List.mem_singleton.1 hmem
      exact fun f hf => hn f (List.mem_of_mem_filter hf)
    | replicaGap | replicaStore | recoverFetch => cases List.mem_singleton.1 hmem; trivial
    | _ => cases hmem
  | _ => cases hmem

/-! ## The entry a request has cut the log for -/

/-- The registry update of a request that has cut the log of its entry's epoch is accepted. -/
theorem cut_accepted (h : Matching cfg own s) {t : Task} {c : Choice} {l : PartitionLeadership}
    (ht : (b, t) ∈ s.tasks) (hs : TaskStep cfg s b t c e) (he : (s.broker b).entry = some l)
    (hcut : t.cutFrom = some l.leaderEpoch) :
    ∃ l', e.broker.entry = some l' ∧ l.leaderEpoch < l'.leaderEpoch := by
  have hmatch := h.sound.tasks _ ht
  have hnamed := h.elections.sound.tasks _ ht
  -- the update is newer than the entry and names a node, so `apply` takes it
  obtain ⟨l', hup, hlt, hid⟩ : ∃ l', t.update cfg = some l' ∧ l.leaderEpoch < l'.leaderEpoch ∧
      l'.leaderId ∈ cfg.nodes := by
    cases t with
    | replicaAdopt conn m cur cut =>
      simp only [Task.cutFrom, Option.ite_none_right_eq_some, Option.some.injEq] at hcut
      exact ⟨_, rfl, hcut.2 ▸ hmatch.2, h.elections.names_mem hnamed⟩
    | leadershipApply l₁ cur cut =>
      simp only [Task.cutFrom, Option.ite_none_right_eq_some, Option.some.injEq] at hcut
      exact ⟨_, rfl, hcut.2 ▸ hmatch hcut.1, h.elections.names_mem hnamed⟩
    | promoteApply l₁ cur cut =>
      simp only [Task.cutFrom, Option.ite_none_right_eq_some, Option.some.injEq] at hcut
      have h1 := hnamed.2
      exact ⟨_, rfl, by omega, hnamed.1.candidate⟩
    | _ => cases hcut
  have hok : applyEntry cfg (s.broker b).entry l' = .ok l' := by
    rw [he]; exact applyEntry_newer hid hlt
  cases hs with
  | stop _ _ hr =>
    obtain ⟨err, herr⟩ := hr l' hup
    rw [hok] at herr
    cases herr
  | skip hsk => obtain rfl | ⟨_, _, _, rfl⟩ | ⟨_, _, rfl⟩ := hsk <;> cases hup
  | commit => cases hcut
  | syncApply => cases hcut
  | replicaAdopt => cases hup; exact ⟨_, rfl, hlt⟩
  | leadershipApply => cases hup; exact ⟨_, rfl, hlt⟩
  | promoteApply => cases hup; exact ⟨_, rfl, hlt⟩
  | _ => cases hup

/-- While the epoch of a leader's entry stays, so does a request that has cut its log. -/
theorem cut_kept (h : Matching cfg own s) (hq : KeepsLineage cfg s a) (hm : Move cfg s a b e)
    (hmv : Moved s a b e s') {l l' : PartitionLeadership} (he : (s.broker b).entry = some l)
    (hl : l.leaderId = b) (he' : e.broker.entry = some l') (hep : l'.leaderEpoch = l.leaderEpoch)
    {t : Task} (ht : (b, t) ∈ s.tasks) (hcut : t.cutFrom = some l.leaderEpoch) :
    (b, t) ∈ s'.tasks := by
  obtain hin | ⟨index, c, rfl, hidx⟩ := mem_tasks_cases a ht
  · obtain hin | rfl := hmv.kept _ hin
    · exact hin
    · have hlead : (s.broker b).leads b = true := by simp [Broker.leads, he, hl]
      have := hq.2.2 b (by simp [needsWhole, hlead]) (b, t) ht rfl
      simp [Task.cut, hcut] at this
  · cases hm with
    | task ht' hs =>
      rw [hidx] at ht'
      cases ht'
      obtain ⟨l'', hl'', hlt⟩ := h.cut_accepted ht hs he hcut
      rw [he'] at hl''
      cases hl''
      omega

/-! ## The log and the entry of the acting broker -/

/-- The leader of an epoch, from its entry. -/
theorem leader_names (h : Matching cfg own s) {l : PartitionLeadership}
    (he : (s.broker b).entry = some l) (hl : l.leaderId = b) :
    Names (epochs cfg s) l.leaderEpoch b := hl ▸ h.elections.named_entry he

/-- A request that may cut the log has found an entry, and entries stay. -/
theorem checked_moved (h : Matching cfg own s) (hm : Move cfg s a b e) (hmv : Moved s a b e s') :
    ∀ q ∈ s'.tasks, q.2.checked = true → (s'.broker q.1).entry ≠ none := by
  have hstays : ∀ i, (s.broker i).entry ≠ none → (s'.broker i).entry ≠ none :=
    fun i hi hn => hi ((hmv.entryGrows hm.entryGrows i).none hn)
  intro q hq hc
  obtain hq | rfl := hmv.tasks q hq
  · exact hstays q.1 (h.checked q (others_subset hq) hc)
  refine hstays b ?_
  have hsome : ∀ {cur : PartitionLeadership}, (s.broker b).entry = some cur →
      (s.broker b).entry ≠ none := fun he hn => by rw [he] at hn; cases hn
  cases hm with
  | promote he | leadershipNewer _ he | replicateNewer _ he => exact hsome he
  | task ht hs =>
    have hold := h.checked _ (List.mem_of_getElem? ht)
    cases hs with
    | replicaLonger | leadershipLonger | promoteLonger => exact hold rfl
    | promoteAsk | promoteMiss | promoteSelf => exact hold rfl
    | append => split at hc <;> cases hc
    | recoverStore => split at hc <;> cases hc
    | committed | uncommitted | commit =>
      unfold finishRecord at hc
      split at hc <;> cases hc
    | _ => cases hc
  | _ => cases hc

/-- The invariant after a step, from what the acting broker looks like and how the epochs grew. -/
theorem conclude (h : Matching cfg own s) (hq : KeepsLineage cfg s a) (hm : Move cfg s a b e)
    (hmv : Moved s a b e s') {own' : Owned} (hlinked : Linked own' (startAt (epochs cfg s')))
    (hgrown : Grown own (epochs cfg s) own' (epochs cfg s'))
    (htaken : ∀ ep xs, own' ep = some xs → ∃ l, (epochs cfg s')[ep]? = some l ∧
      ep ≤ epochOf (s'.broker l.leaderId).entry ∧
      ((s'.broker l.leaderId).entry = none → cfg.nodes = [l.leaderId]))
    (hown : ∀ i ep, i ≠ b → Names (epochs cfg s) ep i → own' ep = own ep)
    (hb : e.broker.Matches cfg own' (epochs cfg s') s'.tasks b) :
    ∃ own', Matching cfg own' s' ∧ Grown own (epochs cfg s) own' (epochs cfg s') := by
  have hel := h.elections.moved hm hmv
  refine ⟨own', ⟨hel, hlinked, htaken, h.checked_moved hm hmv, ?_⟩, hgrown⟩
  refine h.sound.moved hmv (fun i hi hx => ⟨fun hn => ?_, fun l hl => ?_⟩)
    (fun _ _ _ ht => hgrown.task ht) (fun _ hx => hgrown.message hx) hb
    (hgrown.task (h.task_matches hm))
    (fun m hmem => hgrown.message (h.sent_matches hq hm m hmem))
  · have hlog := hx.1 hn
    split at hlog
    · rename_i hsole
      rw [if_pos hsole, hlog, epochLog, epochLog, line, line,
        hown i 0 hi (Elections.names_sole hsole s)]
    · rename_i hsole
      rw [if_neg hsole]
      exact hlog
  obtain ⟨hp, hlead⟩ := hx.2 l hl
  refine ⟨hp.trans (hgrown _), fun hid => ?_⟩
  have hsame := hown i l.leaderEpoch hi (h.leader_names hl hid)
  obtain ⟨hne, hcase⟩ := hlead hid
  refine ⟨hsame ▸ hne, ?_⟩
  rcases hcase with heq | ⟨t, ht, hcut⟩
  · -- a generation taken over by another leader has not changed
    obtain ⟨xs, hxs⟩ := Option.ne_none_iff_exists'.1 hne
    left
    rw [heq, epochLog, epochLog, line_of_some hxs, line_of_some (hsame.trans hxs)]
  · exact Or.inr ⟨t, hm.keeps_other hmv hi ht, hcut⟩

/-- `taken` is kept when the entries grow and nothing new is taken over. -/
theorem taken_moved (h : Matching cfg own s) (hm : Move cfg s a b e) (hmv : Moved s a b e s') :
    ∀ ep xs, own ep = some xs → ∃ l, (epochs cfg s')[ep]? = some l ∧
      ep ≤ epochOf (s'.broker l.leaderId).entry ∧
      ((s'.broker l.leaderId).entry = none → cfg.nodes = [l.leaderId]) := by
  intro ep xs hxs
  obtain ⟨l, hl, hle, hsole⟩ := h.taken ep xs hxs
  have hgrows := hmv.entryGrows hm.entryGrows l.leaderId
  exact ⟨l, epochs_kept hmv hl, Nat.le_trans hle hgrows.epochOf_le,
    fun hn => hsole (hgrows.none hn)⟩

/-- The invariant after the acting broker has written the log `xs` of an epoch it leads. -/
theorem write_moved (h : Matching cfg own s) (hq : KeepsLineage cfg s a) (hm : Move cfg s a b e)
    (hmv : Moved s a b e s') {epoch : Nat} {xs : List Content}
    (hnames : Names (epochs cfg s') epoch b)
    (hlinked : Linked (Function.update own epoch (some xs)) (startAt (epochs cfg s')))
    (hgrown : Grown own (epochs cfg s) (Function.update own epoch (some xs)) (epochs cfg s'))
    (hle : epoch ≤ epochOf e.broker.entry) (hsole : e.broker.entry = none → cfg.nodes = [b])
    (hb : e.broker.Matches cfg (Function.update own epoch (some xs)) (epochs cfg s') s'.tasks b) :
    ∃ own', Matching cfg own' s' ∧ Grown own (epochs cfg s) own' (epochs cfg s') := by
  refine h.conclude hq hm hmv hlinked hgrown (fun ep ys hys => ?_) (fun i ep hi hn => ?_) hb
  · by_cases hep : ep = epoch
    · obtain ⟨l, hl, hid⟩ := hnames
      rw [hep]
      refine ⟨l, hl, ?_, ?_⟩
      · rw [hid, hmv.self]; exact hle
      · rw [hid, hmv.self]; exact hsole
    · rw [Function.update_of_ne hep] at hys
      exact h.taken_moved hm hmv ep ys hys
  · by_cases hep : ep = epoch
    · -- another broker does not lead the epoch
      have hn' : Names (epochs cfg s') ep i := by rw [epochs_moved hmv]; exact hn.append _
      rw [hep] at hn'
      exact absurd (hn'.unique hnames) hi
    · exact Function.update_of_ne hep _ _

/-- A step that leaves entry and epochs alone and keeps or extends the log within the log of
the epoch. -/
theorem within_moved (h : Matching cfg own s) (hq : KeepsLineage cfg s a) (hm : Move cfg s a b e)
    (hmv : Moved s a b e s') (he : e.broker.entry = (s.broker b).entry) (hel : e.elected = [])
    (hlog : (s.broker b).log <+: e.broker.log)
    (hnone : (s.broker b).entry = none → e.broker.log = (s.broker b).log)
    (hp : ∀ l, (s.broker b).entry = some l →
      contents e.broker.log <+: epochLog own (epochs cfg s) l.leaderEpoch) :
    ∃ own', Matching cfg own' s' ∧ Grown own (epochs cfg s) own' (epochs cfg s') := by
  have hes : epochs cfg s' = epochs cfg s := by rw [epochs_moved hmv, hel, List.append_nil]
  refine h.conclude hq hm hmv (hes ▸ h.linked) (hes ▸ Grown.refl _ _) (h.taken_moved hm hmv)
    (fun _ _ _ _ => rfl) ?_
  rw [hes]
  refine ⟨fun hn => ?_, fun l hl => ?_⟩
  · rw [he] at hn
    rw [hnone hn]
    exact (h.sound.brokers b).1 hn
  rw [he] at hl
  refine ⟨hp l hl, fun hid => ?_⟩
  obtain ⟨hne, hcase⟩ := ((h.sound.brokers b).2 l hl).2 hid
  refine ⟨hne, hcase.imp (fun heq => ?_) fun ⟨t, ht, hcut⟩ =>
    ⟨t, h.cut_kept hq hm hmv hl hid (he ▸ hl) rfl ht hcut, hcut⟩⟩
  refine (hp l hl).eq_of_length_le ?_
  rw [← heq]
  exact (contents_isPrefix hlog).length_le

/-- A step that changes neither log nor entry. -/
theorem idle_moved (h : Matching cfg own s) (hq : KeepsLineage cfg s a) (hm : Move cfg s a b e)
    (hmv : Moved s a b e s') (hb : e.broker = s.broker b) (hel : e.elected = []) :
    ∃ own', Matching cfg own' s' ∧ Grown own (epochs cfg s) own' (epochs cfg s') := by
  refine h.within_moved hq hm hmv (by rw [hb]) hel (by rw [hb]) (fun _ => by rw [hb]) ?_
  intro l hl
  rw [hb]
  exact ((h.sound.brokers b).2 l hl).1

/-- A replica store of a record of the log of the entry's epoch. -/
theorem store_moved (h : Matching cfg own s) (hq : KeepsLineage cfg s a) (hm : Move cfg s a b e)
    (hmv : Moved s a b e s') (he : e.broker.entry = (s.broker b).entry) (hel : e.elected = [])
    {f : FetchedRecord} {offset epoch : Nat}
    (hst : (s.broker b).log.appendReplica f.offset f.toRecord = .ok (offset, e.broker.log))
    (hin : InLog (epochLog own (epochs cfg s) epoch) f)
    (hcur : f.offset < (s.broker b).log.length ∨
      ∃ l, (s.broker b).entry = some l ∧ l.leaderEpoch = epoch) :
    ∃ own', Matching cfg own' s' ∧ Grown own (epochs cfg s) own' (epochs cfg s') := by
  have hkeep : f.offset < (s.broker b).log.length → e.broker.log = (s.broker b).log := fun hlt => by
    obtain heq | ⟨ho, _⟩ := appendReplica_contents hst
    · exact heq
    · omega
  refine h.within_moved hq hm hmv he hel (appendReplica_grows hst) (fun hn => ?_) fun l hl => ?_
  · obtain hlt | ⟨l, hl, _⟩ := hcur
    · exact hkeep hlt
    · rw [hn] at hl; cases hl
  · have hp := ((h.sound.brokers b).2 l hl).1
    obtain hlt | ⟨l', hl', hep⟩ := hcur
    · rw [hkeep hlt]; exact hp
    · rw [hl] at hl'
      cases hl'
      subst hep
      exact appendReplica_within hst hp hin

/-- A truncation: a leader's log is cut only for the epoch of its entry. -/
theorem truncate_moved (h : Matching cfg own s) (hq : KeepsLineage cfg s a)
    (hm : Move cfg s a b e) (hmv : Moved s a b e s') {index n : Nat} {c : Choice}
    {cur : PartitionLeadership} (ha : a = .task index c)
    (he : e.broker = { s.broker b with log := (s.broker b).log.take n }) (hel : e.elected = [])
    (hcut : e.task.cutFrom = if n < (s.broker b).log.length then some cur.leaderEpoch else none)
    (hent : (s.broker b).entry ≠ none)
    (hcur : (!(s.broker b).leads b || epochOf (s.broker b).entry = cur.leaderEpoch) = true) :
    ∃ own', Matching cfg own' s' ∧ Grown own (epochs cfg s) own' (epochs cfg s') := by
  rcases Nat.lt_or_ge n (s.broker b).log.length with hlt | hge
  · have hes : epochs cfg s' = epochs cfg s := by rw [epochs_moved hmv, hel, List.append_nil]
    refine h.conclude hq hm hmv (hes ▸ h.linked) (hes ▸ Grown.refl _ _) (h.taken_moved hm hmv)
      (fun _ _ _ _ => rfl) ?_
    rw [hes, he]
    refine ⟨fun hn => absurd hn hent, fun l hl => ?_⟩
    obtain ⟨hp, hlead⟩ := (h.sound.brokers b).2 l hl
    rw [contents_take]
    refine ⟨(List.take_prefix _ _).trans hp, fun hid => ⟨(hlead hid).1, Or.inr ?_⟩⟩
    refine ⟨e.task, hmv.continued index c ha, ?_⟩
    have hl' : (s.broker b).entry = some l := hl
    simp only [Broker.leads, hl', Option.any_some, hid, decide_true, Bool.not_true,
      Bool.false_or, epochOf_some, decide_eq_true_eq] at hcur
    rw [hcut, if_pos hlt, hcur]
  · rw [List.take_of_length_le hge] at he
    exact h.idle_moved hq hm hmv he hel

/-- A broker that may append leads the epoch of its entry and has all of its log. -/
theorem append_whole (h : Matching cfg own s)
    (hcur : cfg.nodes = [b] ∨ ∃ l, (s.broker b).entry = some l ∧ l.leaderId = b)
    (hwhole : ∀ q ∈ s.tasks, q.1 = b → q.2.cut = false) :
    Names (epochs cfg s) (epochOf (s.broker b).entry) b ∧
      contents (s.broker b).log =
        epochLog own (epochs cfg s) (epochOf (s.broker b).entry) ∧
      (own (epochOf (s.broker b).entry) ≠ none ∨ epochOf (s.broker b).entry = 0) ∧
      ((s.broker b).entry = none → cfg.nodes = [b]) := by
  cases he : (s.broker b).entry with
  | none =>
    have hsole : cfg.nodes = [b] := by
      refine hcur.resolve_right ?_
      rintro ⟨l, hl, _⟩
      rw [he] at hl
      cases hl
    have hlog := (h.sound.brokers b).1 he
    rw [if_pos hsole] at hlog
    exact ⟨Elections.names_sole hsole s, hlog, Or.inr rfl, fun _ => hsole⟩
  | some l =>
    have hid : l.leaderId = b := by
      obtain hsole | ⟨l', hl', hid⟩ := hcur
      · have hmem := h.elections.names_mem (h.elections.named_entry he)
        rw [hsole] at hmem
        exact List.mem_singleton.1 hmem
      · rw [he] at hl'; cases hl'; exact hid
    obtain ⟨_, hlead⟩ := (h.sound.brokers b).2 l he
    obtain ⟨hne, hcase⟩ := hlead hid
    refine ⟨h.leader_names he hid, ?_, Or.inl hne, fun hn => by cases hn⟩
    obtain heq | ⟨t, ht, hcut⟩ := hcase
    · exact heq
    · have := hwhole _ ht rfl
      simp [Task.cut, hcut] at this

/-- The leader, or the only node, appends to the log of its epoch. -/
theorem append_moved (h : Matching cfg own s) (hq : KeepsLineage cfg s a) (hm : Move cfg s a b e)
    (hmv : Moved s a b e s') (he : e.broker.entry = (s.broker b).entry) (hel : e.elected = [])
    (hlog : (s.broker b).log <+: e.broker.log)
    (hcur : cfg.nodes = [b] ∨ ∃ l, (s.broker b).entry = some l ∧ l.leaderId = b)
    (hwhole : ∀ q ∈ s.tasks, q.1 = b → q.2.cut = false) :
    ∃ own', Matching cfg own' s' ∧ Grown own (epochs cfg s) own' (epochs cfg s') := by
  have hes : epochs cfg s' = epochs cfg s := by rw [epochs_moved hmv, hel, List.append_nil]
  obtain ⟨hnames, heq, hwritten, hsole⟩ := h.append_whole hcur hwhole
  have hgrow := contents_isPrefix hlog
  rw [heq] at hgrow
  obtain ⟨hlinked, hgrown⟩ := h.linked.write hwritten hgrow
  have hnew : epochLog (Function.update own (epochOf (s.broker b).entry)
      (some (contents e.broker.log))) (epochs cfg s) (epochOf (s.broker b).entry) =
      contents e.broker.log := line_of_some (Function.update_self _ _ _)
  refine h.write_moved hq hm hmv (hes ▸ hnames) (hes ▸ hlinked) (hes ▸ hgrown)
    (Nat.le_of_eq (by rw [he])) (he ▸ hsole) ?_
  rw [hes]
  refine ⟨fun hn => ?_, fun l hl => ?_⟩
  · rw [he] at hn
    rw [hn, epochOf_none] at hnew ⊢
    rw [if_pos (hsole hn), hnew]
  · rw [he] at hl
    rw [hl, epochOf_some] at hnew ⊢
    refine ⟨by rw [hnew], fun _ => ⟨?_, Or.inl hnew.symm⟩⟩
    rw [Function.update_self]
    exact Option.some_ne_none _

/-- A registry update within the epoch. -/
theorem update_moved (h : Matching cfg own s) (hq : KeepsLineage cfg s a) (hm : Move cfg s a b e)
    (hmv : Moved s a b e s') (hlog : e.broker.log = (s.broker b).log) (hel : e.elected = [])
    {c l : PartitionLeadership} (hc : (s.broker b).entry = some c) (hl : e.broker.entry = some l)
    (hep : l.leaderEpoch = c.leaderEpoch) (hid : l.leaderId = c.leaderId) :
    ∃ own', Matching cfg own' s' ∧ Grown own (epochs cfg s) own' (epochs cfg s') := by
  have hes : epochs cfg s' = epochs cfg s := by rw [epochs_moved hmv, hel, List.append_nil]
  refine h.conclude hq hm hmv (hes ▸ h.linked) (hes ▸ Grown.refl _ _) (h.taken_moved hm hmv)
    (fun _ _ _ _ => rfl) ?_
  obtain ⟨hp, hlead⟩ := (h.sound.brokers b).2 c hc
  rw [hes]
  refine ⟨fun hn => ?_, fun l' hl' => ?_⟩
  · rw [hl] at hn; cases hn
  · rw [hl] at hl'
    cases hl'
    rw [hlog, hep]
    refine ⟨hp, fun hb => ?_⟩
    have hcb : c.leaderId = b := hid.symm.trans hb
    obtain ⟨hne, hcase⟩ := hlead hcb
    exact ⟨hne, hcase.imp_right fun ⟨t, ht, hcut⟩ =>
      ⟨t, h.cut_kept hq hm hmv hc hcb hl hep ht hcut, hcut⟩⟩

/-- The broker's own epoch `ep` is written before the broker has an entry for it: it is epoch 0,
written by the only node. -/
theorem written_early (h : Matching cfg own s) {es : List PartitionLeadership} {ep : Nat}
    {xs : List Content} (ho : own ep = some xs)
    (hraise : ∀ c, (s.broker b).entry = some c → c.leaderEpoch < ep)
    (hleader : ∀ l, (epochs cfg s)[ep]? = some l → l.leaderId = b) :
    ep = 0 ∧ contents (s.broker b).log = epochLog own es 0 := by
  obtain ⟨l, hl, hle, hsole⟩ := h.taken ep xs ho
  rw [hleader l hl] at hle hsole
  cases he : (s.broker b).entry with
  | none =>
    rw [he, epochOf_none] at hle
    have hlog := (h.sound.brokers b).1 he
    rw [if_pos (hsole he)] at hlog
    exact ⟨Nat.le_zero.1 hle, hlog⟩
  | some c =>
    have hlt := hraise c he
    rw [he, epochOf_some] at hle
    omega

/-- The broker takes up the epoch of `l`; with `es' = epochs cfg s'` the epochs after the step. -/
theorem raise_moved (h : Matching cfg own s) (hq : KeepsLineage cfg s a) (hm : Move cfg s a b e)
    (hmv : Moved s a b e s') (hlog : e.broker.log = (s.broker b).log)
    (hlinked : Linked own (startAt (epochs cfg s')))
    (hgrown : Grown own (epochs cfg s) own (epochs cfg s')) {l : PartitionLeadership}
    (hl : e.broker.entry = some l)
    (hraise : ∀ c, (s.broker b).entry = some c → c.leaderEpoch < l.leaderEpoch)
    (hcut : ∀ l' ∈ epochs cfg s', epochOf (s.broker b).entry < l'.leaderEpoch →
      l'.leaderEpoch ≤ l.leaderEpoch → (s.broker b).log.length ≤ l'.highWatermark)
    (hend : l.leaderId = b → ∀ l' ∈ epochs cfg s', epochOf (s.broker b).entry < l'.leaderEpoch →
      l'.leaderEpoch = l.leaderEpoch → (s.broker b).log.length = l'.highWatermark) :
    ∃ own', Matching cfg own' s' ∧ Grown own (epochs cfg s) own' (epochs cfg s') := by
  have hel' := h.elections.moved hm hmv
  have hnum : ∀ (i : Nat) (l : PartitionLeadership), (epochs cfg s')[i]? = some l →
      l.leaderEpoch = i := fun i l hi => (hel'.numbered i l hi).1
  have hent : (s'.broker b).entry = some l := by rw [hmv.self]; exact hl
  have hnames : Names (epochs cfg s') l.leaderEpoch l.leaderId := hel'.named_entry hent
  have hle : epochOf (s.broker b).entry ≤ l.leaderEpoch := by
    cases he : (s.broker b).entry with
    | none => exact Nat.zero_le _
    | some c => exact Nat.le_of_lt (hraise c he)
  have hp : contents (s.broker b).log <+: epochLog own (epochs cfg s') l.leaderEpoch :=
    takeUp_isPrefix hlinked hnum hnames.lt ((h.log_isPrefix b).trans (hgrown _)) hle
      (by rw [contents_length]; exact hcut)
  by_cases hid : l.leaderId = b
  · -- the leader itself: the epoch becomes its own
    obtain ⟨heq, hstart⟩ : contents (s.broker b).log = epochLog own (epochs cfg s') l.leaderEpoch ∧
        ∀ k, l.leaderEpoch = k + 1 →
          startAt (epochs cfg s') l.leaderEpoch ≤ (contents (s.broker b).log).length := by
      cases ho : own l.leaderEpoch with
      | none =>
        exact takeUp_leader hnum hnames.lt hraise hp ho (by rw [contents_length]; exact hend hid)
      | some xs =>
        obtain ⟨hzero, hlog⟩ := h.written_early ho hraise
          (fun l₁ hl₁ => (Names.unique ⟨l₁, epochs_kept hmv hl₁, rfl⟩ hnames).trans hid)
        rw [hzero]
        exact ⟨hlog, fun k hk => by cases hk⟩
    have hline : ∀ k, epochLog (Function.update own l.leaderEpoch
        (some (epochLog own (epochs cfg s') l.leaderEpoch))) (epochs cfg s') k =
        epochLog own (epochs cfg s') k := fun k => Linked.line_found k
    have hfound : Linked (Function.update own l.leaderEpoch
        (some (epochLog own (epochs cfg s') l.leaderEpoch))) (startAt (epochs cfg s')) :=
      hlinked.found fun k hk => by rw [heq] at hstart; exact hstart k hk
    refine h.write_moved hq hm hmv (hid ▸ hnames) hfound
      (fun k => (hgrown k).trans (hline k ▸ List.prefix_rfl)) (Nat.le_of_eq (by rw [hl]; rfl))
      (fun hn => ?_) ⟨fun hn => ?_, fun l' hl' => ?_⟩
    · rw [hl] at hn; cases hn
    · rw [hl] at hn; cases hn
    · rw [hl] at hl'
      cases hl'
      rw [hline, hlog]
      refine ⟨hp, fun _ => ⟨?_, Or.inl heq⟩⟩
      rw [Function.update_self]
      exact Option.some_ne_none _
  · refine h.conclude hq hm hmv hlinked hgrown (h.taken_moved hm hmv) (fun _ _ _ _ => rfl)
      ⟨fun hn => ?_, fun l' hl' => ?_⟩
    · rw [hl] at hn; cases hn
    · rw [hl] at hl'
      cases hl'
      rw [hlog]
      exact ⟨hp, fun hb => absurd hb hid⟩

/-- An update that is not an election: a newer epoch is taken up, or the entry's own is kept. -/
theorem spread_moved (h : Matching cfg own s) (hq : KeepsLineage cfg s a) (hm : Move cfg s a b e)
    (hmv : Moved s a b e s') (hlog : e.broker.log = (s.broker b).log) (hel : e.elected = [])
    {t : Task} {l : PartitionLeadership} (ht : stepped s a = some (b, t))
    (hup : t.update cfg = some l) (ha : applyEntry cfg (s.broker b).entry l = .ok l)
    (hl : e.broker.entry = some l) :
    ∃ own', Matching cfg own' s' ∧ Grown own (epochs cfg s) own' (epochs cfg s') := by
  have hes : epochs cfg s' = epochs cfg s := by rw [epochs_moved hmv, hel, List.append_nil]
  have hmem : ∀ l', l' ∈ epochs cfg s' → l' ∈ epochs cfg s ++ t.founds :=
    fun l' hl' => List.mem_append_left _ (hes ▸ hl')
  obtain ⟨_, _, hcurrent⟩ := applyEntry_ok ha
  have hraise : (∀ c, (s.broker b).entry = some c → c.leaderEpoch < l.leaderEpoch) →
      ∃ own', Matching cfg own' s' ∧ Grown own (epochs cfg s) own' (epochs cfg s') := fun hlt => by
    have hcut := hq.2.1 (b, t) ht l hup
    refine h.raise_moved hq hm hmv hlog (hes ▸ h.linked) (hes ▸ Grown.refl _ _) hl hlt
      (fun l' hl' h1 h2 => ?_) (fun hid l' hl' h1 h2 => ?_)
    · exact (hcut (Nat.lt_of_lt_of_le h1 h2) l' (hmem l' hl') h1 h2).1
    · exact (hcut (h2 ▸ h1) l' (hmem l' hl') h1 (Nat.le_of_eq h2)).2 hid h2
  cases he : (s.broker b).entry with
  | none => exact hraise fun c hc => by rw [he] at hc; cases hc
  | some c =>
    obtain hlt | ⟨hep, hid, _⟩ := hcurrent c he
    · exact hraise fun c' hc => by rw [he] at hc; cases hc; exact hlt
    · exact h.update_moved hq hm hmv hlog hel he hl hep.symm hid.symm

/-- `ensure_topic` puts a broker without entry, hence without records, into epoch 0. -/
theorem ensure_moved (h : Matching cfg own s) (hq : KeepsLineage cfg s a) (hm : Move cfg s a b e)
    (hmv : Moved s a b e s') (hlog : e.broker.log = (s.broker b).log) (hel : e.elected = [])
    (hl : e.broker.entry = some ((s.broker b).entry.getD (initialLeadership cfg))) :
    ∃ own', Matching cfg own' s' ∧ Grown own (epochs cfg s) own' (epochs cfg s') := by
  have hes : epochs cfg s' = epochs cfg s := by rw [epochs_moved hmv, hel, List.append_nil]
  cases he : (s.broker b).entry with
  | none =>
    rw [he] at hl
    refine h.raise_moved hq hm hmv hlog (hes ▸ h.linked) (hes ▸ Grown.refl _ _) hl
      (fun c hc => ?_) (fun l' _ h1 h2 => ?_) (fun _ l' _ h1 h2 => ?_)
    · rw [he] at hc; cases hc
    · rw [he, epochOf_none] at h1
      exact absurd (Nat.lt_of_lt_of_le h1 h2) (Nat.lt_irrefl _)
    · rw [he, epochOf_none] at h1
      exact absurd (Nat.lt_of_lt_of_eq h1 h2) (Nat.lt_irrefl _)
  | some c =>
    rw [he] at hl
    exact h.update_moved hq hm hmv hlog hel he hl rfl rfl

/-- No epoch beyond the newest one is written. -/
theorem free_beyond (h : Matching cfg own s) {ep : Nat} (hge : (epochs cfg s).length ≤ ep) :
    own ep = none := by
  cases ho : own ep with
  | none => rfl
  | some xs =>
    obtain ⟨l, hl, _⟩ := h.taken ep xs ho
    have := (List.getElem?_eq_some_iff.1 hl).1
    omega

/-- The registry update of a promotion: it founds the next epoch and the controller takes it up,
or it finds the epoch founded. -/
theorem elect_moved (h : Matching cfg own s) (hq : KeepsLineage cfg s a) (hm : Move cfg s a b e)
    (hmv : Moved s a b e s') (hlog : e.broker.log = (s.broker b).log)
    {l cur : PartitionLeadership} {cut : Bool} (ht : stepped s a = some (b, .promoteApply l cur cut))
    (ha : applyEntry cfg (s.broker b).entry l = .ok l) (hl : e.broker.entry = some l)
    (hel : e.elected = if epochOf (s.broker b).entry < l.leaderEpoch then [l] else []) :
    ∃ own', Matching cfg own' s' ∧ Grown own (epochs cfg s) own' (epochs cfg s') := by
  split at hel
  · rename_i hlt
    have hes : epochs cfg s' = epochs cfg s ++ [l] := by rw [epochs_moved hmv, hel]
    have hpos : 0 < (epochs cfg s).length := Nat.succ_pos _
    obtain ⟨hlinked, hgrown, _⟩ := elect_grown hpos (fun _ hge => h.free_beyond hge) h.linked
    have hcut := hq.2.1 _ ht l rfl hlt
    refine h.raise_moved hq hm hmv hlog (hes ▸ hlinked) (hes ▸ hgrown) hl (fun c hc => ?_)
      (fun l' hl' h1 h2 => ?_) (fun hid l' hl' h1 h2 => ?_)
    · rw [hc, epochOf_some] at hlt; exact hlt
    · exact (hcut l' (hes ▸ hl') h1 h2).1
    · exact (hcut l' (hes ▸ hl') h1 (Nat.le_of_eq h2)).2 hid h2
  · exact h.spread_moved hq hm hmv hlog hel ht rfl ha hl

/-- **Every step within the condition keeps the lineage.** -/
theorem moved (h : Matching cfg own s) (hq : KeepsLineage cfg s a) (hm : Move cfg s a b e)
    (hmv : Moved s a b e s') :
    ∃ own', Matching cfg own' s' ∧ Grown own (epochs cfg s) own' (epochs cfg s') := by
  have hm' := hm
  cases hm with
  | createTopic => exact h.ensure_moved hq hm' hmv rfl rfl rfl
  | task ht hs =>
    cases hs with
    | append happ =>
      have hcur := current_of hq (show stepped s _ = some _ from ht)
      refine h.append_moved hq hm' hmv rfl rfl (appendInputs_isPrefix happ) ?_ ?_
      · simpa [Task.current, Broker.leads, Option.any_eq_true] using hcur
      exact hq.2.2 b (by simp [needsWhole, ht])
    | commit ha => exact h.spread_moved hq hm' hmv rfl rfl (stepped_go ht) rfl ha rfl
    | replicaAdopt ha => exact h.spread_moved hq hm' hmv rfl rfl (stepped_go ht) rfl ha rfl
    | leadershipApply ha => exact h.spread_moved hq hm' hmv rfl rfl (stepped_go ht) rfl ha rfl
    | syncApply ha => exact h.spread_moved hq hm' hmv rfl rfl (stepped_go ht) rfl ha rfl
    | promoteApply ha => exact h.elect_moved hq hm' hmv rfl (stepped_go ht) ha rfl rfl
    | syncNewer => exact h.ensure_moved hq hm' hmv rfl rfl rfl
    | syncOlder => exact h.ensure_moved hq hm' hmv rfl rfl rfl
    | replicaTruncate =>
      refine h.truncate_moved hq hm' hmv rfl rfl rfl ?_
        (h.checked _ (List.mem_of_getElem? ht) rfl) (current_of hq (stepped_go ht))
      simp [Task.cutFrom]
    | leadershipTruncate =>
      refine h.truncate_moved hq hm' hmv rfl rfl rfl ?_
        (h.checked _ (List.mem_of_getElem? ht) rfl) (current_of hq (stepped_go ht))
      simp [Task.cutFrom]
    | promoteTruncate =>
      refine h.truncate_moved hq hm' hmv rfl rfl rfl ?_
        (h.checked _ (List.mem_of_getElem? ht) rfl) (current_of hq (stepped_go ht))
      simp [Task.cutFrom]
    | replicaStore hst =>
      have hcur := current_of hq (stepped_go ht)
      refine h.store_moved hq hm' hmv rfl rfl hst (h.sound.task ht) ?_
      simpa [Task.current, Option.any_eq_true] using hcur
    | recoverStore he hst =>
      have hcur := current_of hq (stepped_go ht)
      refine h.store_moved hq hm' hmv rfl rfl hst (h.sound.task ht _ List.mem_cons_self) ?_
      simpa [Task.current, Option.any_eq_true] using hcur
    | _ => exact h.idle_moved hq hm' hmv rfl rfl
  | _ => exact h.idle_moved hq hm' hmv rfl rfl

theorem of_run {acts : List Action} (hq : Along (step cfg) (KeepsLineage cfg) State.init acts)
    (hr : run (step cfg) State.init acts = some s) : ∃ own, Matching cfg own s := by
  refine @run_invariant _ _ _ _ (fun s => ∃ own, Matching cfg own s) (fun s a s' hp hq hs => ?_)
    _ _ _ ⟨_, Matching.init cfg⟩ hq hr
  obtain ⟨own, h⟩ := hp
  obtain ⟨b, e, hm, hmv⟩ := step_move hs
  obtain ⟨own', h', _⟩ := h.moved hq hm hmv
  exact ⟨own', h'⟩

/-- Prefixes of one log agree wherever both have a record. -/
theorem agree {l l' : PartitionLeadership} {b' : BrokerId} (h : Matching cfg own s)
    (hl : (s.broker b).entry = some l) (hl' : (s.broker b').entry = some l')
    (hep : l.leaderEpoch = l'.leaderEpoch) (n : Nat) : AgreeBelow s b b' n := by
  intro o _ ho ho'
  have h1 := ((h.sound.brokers b).2 l hl).1
  have h2 := ((h.sound.brokers b').2 l' hl').1
  rw [← hep] at h2
  rw [← contents_length] at ho ho'
  rw [List.getElem?_eq_getElem ho, List.getElem?_eq_getElem ho', h1.getElem ho, h2.getElem ho']

end Matching

/-- **Log matching.**  On every run whose steps keep the lineage, any two brokers whose entries
carry the same epoch hold the same records as far as both have them, hence below any common
watermark `h`. -/
theorem logs_match (cfg : ClusterConfig) {acts : List Action} {s : State}
    (hq : Along (step cfg) (KeepsLineage cfg) State.init acts)
    (hr : run (step cfg) State.init acts = some s) {b b' : BrokerId} {l l' : PartitionLeadership}
    (hl : (s.broker b).entry = some l) (hl' : (s.broker b').entry = some l')
    (hep : l.leaderEpoch = l'.leaderEpoch) (h : Nat) : AgreeBelow s b b' h := by
  obtain ⟨own, hm⟩ := Matching.of_run hq hr
  exact hm.agree hl hl' hep h

/-- Without the record that stays behind, the same change of leader keeps the lineage: broker 2
learns of epoch 1 from the controller with an empty log and receives the new leader's record. -/
def syncedRun : List Action :=
  [.createTopic 1, .createTopic 2, .createTopic 3, .promote 1, .task 0 .go, .task 0 .go,
    .task 0 .go, .task 0 .go, .task 0 .go, .task 0 .go, .sync 2, .task 1 .go, .task 1 .go,
    .produce 1 (oneRecord 8 .durable), .task 2 (.stamp [6]), .task 2 .go, .task 2 .go, .task 2 .go,
    .deliver 2, .task 3 .go, .task 3 .go, .task 2 (.receive 3), .task 2 .fail, .task 2 .go,
    .task 2 .go]

theorem logs_match_synced : ∃ s, run (step threeNodes) State.init syncedRun = some s ∧
    (contents (s.broker 2).log)[0]? = some (6, none, [8]) ∧ AgreeBelow s 1 2 1 := by
  refine ⟨_, rfl, rfl, ?_⟩
  exact @logs_match threeNodes syncedRun _ (by decide +kernel) rfl 1 2 ⟨1, 1, 1, 1⟩ ⟨1, 1, 1, 0⟩
    rfl rfl rfl 1

end SevlaMq.Cluster
