import SevlaMq.Cluster.Matching

/-!
# Who raises the high watermark

`Replicator::replicate` counts acknowledgements over several round trips; `Replicator::commit`
then reads whatever entry is current, sets its watermark and broadcasts it.

* `Gathered` — the acknowledgements behind a commit were asked for and counted while the broker's
  entry named it leader of the epoch whose watermark is raised.
* `LeaderWithin` — the leader of the controller's epoch has its watermark within its log.
* `deposed_commit` — a run on which a deposed leader raises the watermark of the next epoch.
* `watermark_raised_by_its_epoch` — both properties hold on every run on which, besides
  `KeepsLineage`, contacts and commits find the entry of the read-back (`Gathers`), a promotion
  finds the entry it has read (`Gathers`), and a leader's entry is not updated between a
  truncation and the registry update that belongs to it (`UpdatesAlone`).
-/

set_option autoImplicit false

namespace SevlaMq.Cluster

open SevlaMq.Storage SevlaMq.Lineage

variable {cfg : ClusterConfig}

/-- The commit of `l` by `b` rests on enough acknowledgements for its last record, all asked for
and counted while the entry of `b` named it leader of the epoch of `l`. -/
structure Gathered (cfg : ClusterConfig) (b : BrokerId) (r : Replication)
    (l : PartitionLeadership) : Prop where
  leader : l.leaderId = b
  origin : r.current.origin = l.leaderEpoch
  raises : l.highWatermark = r.current.record.offset + 1
  enough : cfg.minInSyncReplicas ≤ r.acknowledgements
  acked : ∀ x ∈ r.acked, r.current.record.offset < x.next ∧
    x.contacted.leaderId = b ∧ x.contacted.leaderEpoch = l.leaderEpoch ∧
    ∃ c, x.counted = some c ∧ c.leaderId = b ∧ c.leaderEpoch = l.leaderEpoch

/-- The broker that leads the controller's epoch has its watermark within its log. -/
def LeaderWithin (cfg : ClusterConfig) (s : State) : Prop :=
  ∀ b l c, (s.broker b).entry = some l → l.leaderId = b →
    (s.broker cfg.controller).entry = some c → l.leaderEpoch = c.leaderEpoch →
    l.highWatermark ≤ (s.broker b).log.length

/-! ## A commit of the next epoch -/

/-- Broker 2 counts its acknowledgements in epoch 0, is deposed, and commits to epoch 1. -/
def deposedCommitRun : List Action :=
  [.createTopic 1, .createTopic 2, .createTopic 3, .produce 2 (oneRecord 7 .durable),
    .task 0 (.stamp [5]), .task 0 .go, .task 0 .go, .task 0 .go, .deliver 0, .task 1 .go,
    .task 1 .go, .task 0 (.receive 1), .task 0 .fail, .promote 1, .task 2 .go, .task 2 .go,
    .task 2 .go, .task 2 .go, .task 2 .go, .task 2 .go, .deliver 2, .task 3 .go, .task 3 .go,
    .task 3 .go, .task 0 .go, .task 0 .go, .deliver 4, .task 4 .go]

theorem deposed_commit :
    (∃ s r l, run (step threeNodes) State.init (deposedCommitRun.take 25) = some s ∧
      s.tasks[0]? = some (2, .commitApply r l) ∧ ¬ Gathered threeNodes 2 r l) ∧
    ∃ s, run (step threeNodes) State.init deposedCommitRun = some s ∧
      ¬ LeaderWithin threeNodes s := by
  refine ⟨⟨_, _, _, rfl, rfl, fun h => ?_⟩, ⟨_, rfl, fun h => ?_⟩⟩
  · exact absurd h.leader (by decide)
  · exact absurd (h 1 ⟨1, 1, 1, 1⟩ ⟨1, 1, 1, 1⟩ rfl rfl rfl rfl) (by decide +kernel)

/-! ## The condition on a step -/

/-- Contacts and commits are made under the entry of the read-back; a promotion cuts a leader's
log and applies its leadership under the entry it has read. -/
def Task.gathers (cfg : ClusterConfig) (b : BrokerId) (x : Broker) : Task → Bool
  | .contact r => (r.followers.isEmpty && r.acknowledgements < cfg.minInSyncReplicas) ||
      x.entry.all fun l => l.leaderId = b ∧ l.leaderEpoch = r.current.origin
  | .promoteTruncate _ cur => !x.leads b || x.entry = some cur
  | .promoteApply _ cur _ => epochOf x.entry = cur.leaderEpoch
  | _ => true

def Gathers (cfg : ClusterConfig) (s : State) (a : Action) : Prop :=
  ∀ p ∈ stepped s a, p.2.gathers cfg p.1 (s.broker p.1)

/-- The entry of a leader is not updated while another of its requests has cut the log. -/
def UpdatesAlone (cfg : ClusterConfig) (s : State) (a : Action) : Prop :=
  ∀ p ∈ stepped s a, p.2.update cfg ≠ none → (s.broker p.1).leads p.1 →
    ∀ q ∈ others s a, q.1 = p.1 → q.2.cut = false

def KeepsWatermark (cfg : ClusterConfig) (s : State) (a : Action) : Prop :=
  KeepsLineage cfg s a ∧ Gathers cfg s a ∧ UpdatesAlone cfg s a

instance (s : State) (a : Action) : Decidable (Gathers cfg s a) :=
  inferInstanceAs (Decidable (∀ p ∈ stepped s a, p.2.gathers cfg p.1 (s.broker p.1)))

instance (s : State) (a : Action) : Decidable (UpdatesAlone cfg s a) :=
  inferInstanceAs (Decidable (∀ p ∈ stepped s a, p.2.update cfg ≠ none →
    (s.broker p.1).leads p.1 → ∀ q ∈ others s a, q.1 = p.1 → q.2.cut = false))

instance (s : State) (a : Action) : Decidable (KeepsWatermark cfg s a) :=
  inferInstanceAs (Decidable (KeepsLineage cfg s a ∧ Gathers cfg s a ∧ UpdatesAlone cfg s a))

/-! ## The invariant -/

/-- The watermark lies between the start of the epoch and the end of its log. -/
structure Capped (own : Owned) (es : List PartitionLeadership) (l : PartitionLeadership) :
    Prop where
  founded : l.leaderEpoch < es.length
  floor : startAt es l.leaderEpoch ≤ l.highWatermark
  within : l.highWatermark ≤ (epochLog own es l.leaderEpoch).length

/-- An acknowledgement was asked for under the entry of the read-back and counted under an entry
not older; `x` is the broker's present state. -/
structure Counted (es : List PartitionLeadership) (b : BrokerId) (x : Broker) (origin offset : Nat)
    (ack : Acknowledgement) : Prop where
  next : offset < ack.next
  leader : ack.contacted.leaderId = b
  epoch : ack.contacted.leaderEpoch = origin
  counted : ∃ c, ack.counted = some c ∧ c.Named es ∧ origin ≤ c.leaderEpoch ∧
    c.leaderEpoch ≤ epochOf x.entry

/-- The broker's entry is at epoch `n` or later. -/
def Broker.Reached (x : Broker) (n : Nat) : Prop := ∃ c, x.entry = some c ∧ n ≤ c.leaderEpoch

/-- The acknowledgements of a replication, and the followers still to come. -/
def Counting (cfg : ClusterConfig) (es : List PartitionLeadership) (b : BrokerId) (x : Broker)
    (r : Replication) : Prop :=
  r.followers <:+ cfg.replicaFollowers b ∧
    ∀ ack ∈ r.acked, Counted es b x r.current.origin r.current.record.offset ack

/-- The entry a contact was made under. -/
structure Contacted (b : BrokerId) (x : Broker) (r : Replication) (l : PartitionLeadership) :
    Prop where
  leader : l.leaderId = b
  epoch : l.leaderEpoch = r.current.origin
  nonempty : r.followers ≠ []
  reached : x.Reached l.leaderEpoch

/-- A promotion started from an entry the controller has had. -/
structure Started (own : Owned) (es : List PartitionLeadership) (x : Broker)
    (cur : PartitionLeadership) : Prop where
  capped : Capped own es cur
  earlier : EntryGrows (some cur) x.entry

/-- Watermarks that come from the controller or a leader are within the log of their epoch. -/
def Task.Capped (cfg : ClusterConfig) (own : Owned) (es : List PartitionLeadership) (b : BrokerId)
    (x : Broker) : Task → Prop
  | .contact r => Counting cfg es b x r
  | .awaitAck r l _ _ => Counting cfg es b x r ∧ Contacted b x r l
  | .catchUp r l _ => Counting cfg es b x r ∧ Contacted b x r l
  | .commitApply r l => Gathered cfg b r l ∧ Cluster.Capped own es l
  | .replicaTail _ m _ => m.leaderId ≠ b ∧ b ≠ cfg.controller
  | .replicaTruncate _ m _ => m.leaderId ≠ b ∧ b ≠ cfg.controller
  | .replicaAdopt _ m _ _ => m.leaderId ≠ b ∧ b ≠ cfg.controller
  | .leadershipTail l _ => Cluster.Capped own es l ∧ b ≠ cfg.controller
  | .leadershipTruncate l _ => Cluster.Capped own es l ∧ b ≠ cfg.controller
  | .leadershipApply l _ _ => Cluster.Capped own es l
  | .promoteQuery _ cur _ _ => Started own es x cur
  | .promoteTail l cur => Started own es x cur ∧ l.highWatermark = cur.highWatermark
  | .promoteTruncate l cur => Started own es x cur ∧ l.highWatermark = cur.highWatermark
  | .promoteApply l cur _ => Started own es x cur ∧ l.highWatermark = cur.highWatermark
  | .syncCompare l => Cluster.Capped own es l
  | .syncApply l => Cluster.Capped own es l
  | _ => True

def Message.Capped (own : Owned) (es : List PartitionLeadership) : Message → Prop
  | .applyLeadership _ l => Cluster.Capped own es l
  | .replicate _ _ dst m => m.leaderId ≠ dst
  | _ => True

/-- The entries of leaders and of the controller. -/
def Broker.Capped (cfg : ClusterConfig) (own : Owned) (es : List PartitionLeadership)
    (b : BrokerId) (x : Broker) : Prop :=
  ∀ l, x.entry = some l → (l.leaderId = b ∨ b = cfg.controller) → Cluster.Capped own es l

/-- Where a promotion has cut the log of a leader, the entry's watermark is within what is left. -/
def CutsWithin (s : State) : Prop :=
  ∀ b l cur, (b, Task.promoteApply l cur true) ∈ s.tasks → ∀ c, (s.broker b).entry = some c →
    c.leaderId = b → c.leaderEpoch = cur.leaderEpoch →
    c.highWatermark ≤ (s.broker b).log.length

/-- **The watermark invariant.** -/
structure Watermarks (cfg : ClusterConfig) (own : Owned) (s : State) : Prop where
  matching : Matching cfg own s
  sound : Sound (Broker.Capped cfg own (epochs cfg s))
    (fun b t => t.Capped cfg own (epochs cfg s) b (s.broker b))
    (Message.Capped own (epochs cfg s)) s
  cuts : CutsWithin s

theorem Watermarks.init (cfg : ClusterConfig) : Watermarks cfg (fun _ => none) State.init where
  matching := Matching.init cfg
  sound := by
    refine ⟨fun b l h => ?_, fun p h => ?_, fun m h => ?_⟩
    · cases h
    · cases h
    · cases h
  cuts := fun b l cur h => by cases h

/-! ## What later states keep -/

section Later

variable {own own' : Owned} {es : List PartitionLeadership} {b : BrokerId} {x y : Broker}

theorem startAt_append {ep : Nat} (h : ep < es.length) (es₁ : List PartitionLeadership) :
    startAt (es ++ es₁) ep = startAt es ep := by
  rw [startAt, startAt, List.getElem?_append_left h]

theorem Capped.mono {l : PartitionLeadership} (h : Capped own es l)
    {es₁ : List PartitionLeadership} (hg : Grown own es own' (es ++ es₁)) :
    Capped own' (es ++ es₁) l where
  founded := by rw [List.length_append]; exact Nat.lt_add_right _ h.founded
  floor := by rw [startAt_append h.founded]; exact h.floor
  within := Nat.le_trans h.within (hg _).length_le

theorem Broker.Reached.mono {n : Nat} (h : x.Reached n) (hxy : EntryGrows x.entry y.entry) :
    y.Reached n := by
  obtain ⟨c, hc, hle⟩ := h
  obtain ⟨c', hc', hcase⟩ := hxy c hc
  exact ⟨c', hc', by omega⟩

theorem Counting.mono {r : Replication} (h : Counting cfg es b x r) (es' : List PartitionLeadership)
    (hxy : EntryGrows x.entry y.entry) : Counting cfg (es ++ es') b y r := by
  refine ⟨h.1, fun ack hack => ?_⟩
  obtain ⟨hn, hl, he, c, hc, hnamed, h1, h2⟩ := h.2 ack hack
  exact ⟨hn, hl, he, c, hc, Names.append hnamed es', h1, Nat.le_trans h2 hxy.epochOf_le⟩

theorem Contacted.mono {r : Replication} {l : PartitionLeadership} (h : Contacted b x r l)
    (hxy : EntryGrows x.entry y.entry) : Contacted b y r l :=
  ⟨h.leader, h.epoch, h.nonempty, h.reached.mono hxy⟩

theorem Started.mono {cur : PartitionLeadership} (h : Started own es x cur)
    {es₁ : List PartitionLeadership} (hg : Grown own es own' (es ++ es₁))
    (hxy : EntryGrows x.entry y.entry) : Started own' (es ++ es₁) y cur :=
  ⟨h.capped.mono hg, h.earlier.trans hxy⟩

theorem Message.Capped.mono {m : Message} (h : m.Capped own es) {es₁ : List PartitionLeadership}
    (hg : Grown own es own' (es ++ es₁)) : m.Capped own' (es ++ es₁) := by
  cases m with
  | applyLeadership => exact Cluster.Capped.mono h hg
  | replicate => exact h
  | _ => trivial

theorem Task.Capped.mono {t : Task} (h : t.Capped cfg own es b x) {es₁ : List PartitionLeadership}
    (hg : Grown own es own' (es ++ es₁)) (hxy : EntryGrows x.entry y.entry) :
    t.Capped cfg own' (es ++ es₁) b y := by
  cases t with
  | contact => exact Counting.mono h es₁ hxy
  | awaitAck => exact ⟨h.1.mono es₁ hxy, h.2.mono hxy⟩
  | catchUp => exact ⟨h.1.mono es₁ hxy, h.2.mono hxy⟩
  | commitApply => exact ⟨h.1, h.2.mono hg⟩
  | replicaTail | replicaTruncate | replicaAdopt => exact h
  | leadershipTail | leadershipTruncate => exact ⟨h.1.mono hg, h.2⟩
  | leadershipApply | syncCompare | syncApply => exact Cluster.Capped.mono h hg
  | promoteQuery => exact Started.mono h hg hxy
  | promoteTail | promoteTruncate | promoteApply => exact ⟨h.1.mono hg hxy, h.2⟩
  | _ => trivial

end Later

namespace Watermarks

variable {own own' : Owned} {s s' : State} {a : Action} {b : BrokerId} {e : Effect}

theorem gathers_of (hq : KeepsWatermark cfg s a) {t : Task} (ht : stepped s a = some (b, t)) :
    t.gathers cfg b (s.broker b) = true := hq.2.1 _ ht

/-- A contact, or a commit, finds the broker leading the epoch of the read-back. -/
theorem contact_entry (hq : KeepsWatermark cfg s a) {r : Replication} {l : PartitionLeadership}
    (ht : stepped s a = some (b, .contact r)) (he : (s.broker b).entry = some l)
    (hr : r.followers ≠ [] ∨ cfg.minInSyncReplicas ≤ r.acknowledgements) :
    l.leaderId = b ∧ l.leaderEpoch = r.current.origin := by
  have hg := gathers_of hq ht
  simp only [Task.gathers, he, Option.all_some, Bool.or_eq_true, Bool.and_eq_true,
    List.isEmpty_iff, decide_eq_true_eq] at hg
  obtain ⟨hf, hlt⟩ | hg := hg
  · obtain hf' | hle := hr
    · exact absurd hf hf'
    · omega
  · exact hg

/-- Requests of a newer epoch do not reach the controller. -/
theorem newer_ne_controller (h : Watermarks cfg own s) {cur : PartitionLeadership} {ep : Nat}
    {id : BrokerId} (hn : Names (epochs cfg s) ep id) (he : (s.broker b).entry = some cur)
    (hlt : cur.leaderEpoch < ep) : b ≠ cfg.controller := by
  rintro rfl
  have h1 := hn.lt
  have h2 := h.matching.elections.newest
  rw [he, epochOf_some] at h2
  have h3 : (epochs cfg s).length = s.elected.length + 1 := rfl
  omega

/-- The acknowledgements counted up to a commit were counted in the epoch of the commit. -/
theorem gathered (h : Watermarks cfg own s) {r : Replication} {l : PartitionLeadership}
    (he : (s.broker b).entry = some l) (hid : l.leaderId = b)
    (hep : l.leaderEpoch = r.current.origin)
    (hmin : cfg.minInSyncReplicas ≤ r.acknowledgements)
    (hc : Counting cfg (epochs cfg s) b (s.broker b) r) :
    Gathered cfg b r { l with highWatermark := r.current.record.offset + 1 } where
  leader := hid
  origin := hep.symm
  raises := rfl
  enough := hmin
  acked := fun ack hack => by
    obtain ⟨hn, hl, ho, c, hc, hnamed, h1, h2⟩ := hc.2 ack hack
    rw [he, epochOf_some] at h2
    have hce : c.leaderEpoch = l.leaderEpoch := by omega
    refine ⟨hn, hl, ho.trans hep.symm, c, hc, ?_, hce⟩
    have hl' := h.matching.elections.named_entry he
    unfold PartitionLeadership.Named at hnamed hl'
    rw [hce] at hnamed
    exact (hnamed.unique hl').trans hid

theorem finish_capped {x : Broker} {es : List PartitionLeadership} (r : Replication) :
    (finishRecord cfg b r).1.Capped cfg own es b x := by
  unfold finishRecord
  split
  · exact ⟨List.suffix_refl _, fun ack hack => by cases hack⟩
  · trivial

theorem task_capped (h : Watermarks cfg own s) (hq : KeepsWatermark cfg s a)
    (hm : Move cfg s a b e) : e.task.Capped cfg own (epochs cfg s) b (s.broker b) := by
  have hel := h.matching.elections
  cases hm with
  | promote he =>
    exact ⟨h.sound.brokers _ _ he (Or.inr rfl), he ▸ EntryGrows.refl _⟩
  | sync he => exact h.sound.brokers _ _ he (Or.inr rfl)
  | leadershipNewer hn he hlt =>
    exact ⟨h.sound.message hn, h.newer_ne_controller (hel.sound.message hn) he hlt⟩
  | leadershipOlder hn => exact h.sound.message hn
  | replicateNewer hn he hlt =>
    exact ⟨h.sound.message hn, h.newer_ne_controller (hel.sound.message hn) he hlt⟩
  | task ht hs =>
    have hn := h.sound.task ht
    cases hs with
    | append => split <;> trivial
    | dispatch => exact ⟨List.suffix_refl _, fun ack hack => by cases hack⟩
    | skip hsk =>
      obtain rfl | ⟨_, _, _, rfl⟩ | ⟨_, _, rfl⟩ := hsk
      · exact ⟨(List.tail_suffix _).trans hn.1, hn.2⟩
      · exact ⟨(List.tail_suffix _).trans hn.1.1, hn.1.2⟩
      · exact ⟨(List.tail_suffix _).trans hn.1.1, hn.1.2⟩
    | contact hf he =>
      have hne := List.ne_nil_of_mem (hf ▸ List.mem_cons_self)
      obtain ⟨hid, hep⟩ := contact_entry hq (stepped_go ht) he (Or.inl hne)
      exact ⟨hn, hid, hep, hne, _, he, Nat.le_refl _⟩
    | committed | uncommitted | commit => exact finish_capped _
    | commitRead hf hmin he hw =>
      obtain ⟨hid, hep⟩ := contact_entry hq (stepped_go ht) he (Or.inr hmin)
      have hin := InLog.lt (h.matching.sound.task ht _ List.mem_cons_self)
      rw [← hep] at hin
      have hcap := h.sound.brokers b _ he (Or.inl hid)
      exact ⟨h.gathered he hid hep hmin hn, hcap.founded,
        Nat.le_trans hcap.floor (Nat.le_of_lt hw), hin⟩
    | behind => exact hn
    | acked hnet hlt =>
      obtain ⟨⟨hsuf, hacked⟩, hcon⟩ := hn
      refine ⟨(List.tail_suffix _).trans hsuf, fun ack hack => ?_⟩
      rcases List.mem_append.1 hack with hack | hack
      · exact hacked ack hack
      · cases List.mem_singleton.1 hack
        obtain ⟨c, hc, hle⟩ := hcon.reached
        refine ⟨hlt, hcon.leader, hcon.epoch, c, hc, hel.named_entry hc, ?_, ?_⟩
        · exact hcon.epoch ▸ hle
        · rw [hc, epochOf_some]
    | catchUp => exact hn
    | replicaLonger | replicaShorter | replicaTruncate => exact hn
    | leadershipLonger => exact hn
    | leadershipShorter | leadershipTruncate => exact hn.1
    | promoteAsk | promoteMiss => exact hn
    | promoteSelf | promoteOther => exact ⟨hn, rfl⟩
    | promoteLonger | promoteShorter | promoteTruncate => exact hn
    | syncNewer => exact hn
    | recoverStore => split <;> trivial
    | _ => trivial
  | _ => trivial

/-- The leadership a promotion founds an epoch with is within the log of the new epoch. -/
theorem promoted_capped (hm' : Matching cfg own' s') {l cur : PartitionLeadership}
    (hes : epochs cfg s' = epochs cfg s ++ [l])
    (hg : Grown own (epochs cfg s) own' (epochs cfg s'))
    (hcur : Capped own (epochs cfg s) cur) (hw : l.highWatermark = cur.highWatermark)
    (hep : l.leaderEpoch = cur.leaderEpoch + 1) : Capped own' (epochs cfg s') l := by
  have hget : (epochs cfg s')[(epochs cfg s).length]? = some l := by
    rw [hes, List.getElem?_append_right (Nat.le_refl _), Nat.sub_self]; rfl
  have hidx := (hm'.elections.numbered _ l hget).1
  have hstart : startAt (epochs cfg s') l.leaderEpoch = l.highWatermark := by
    rw [hidx, startAt_of hget]
  have htake := congrArg List.length (hm'.linked.take_eq cur.leaderEpoch)
  have hlen : cur.highWatermark ≤ (epochLog own' (epochs cfg s') cur.leaderEpoch).length :=
    Nat.le_trans hcur.within (hg _).length_le
  refine ⟨?_, Nat.le_of_eq hstart, ?_⟩
  · rw [hidx, hes, List.length_append]; exact Nat.lt_succ_self _
  · rw [List.length_take, List.length_take, ← hep, hstart, hw] at htake
    unfold epochLog at *
    rw [hw]
    omega

/-- The apply of a promotion that finds the epoch it has read founds the next one. -/
theorem promote_founds (h : Watermarks cfg own s) (hq : KeepsWatermark cfg s a)
    (hmv : Moved s a b e s') {l cur : PartitionLeadership} {cut : Bool}
    (ht : stepped s a = some (b, .promoteApply l cur cut))
    (hmem : (b, Task.promoteApply l cur cut) ∈ s.tasks)
    (hel : e.elected = if epochOf (s.broker b).entry < l.leaderEpoch then [l] else []) :
    epochs cfg s' = epochs cfg s ++ [l] := by
  have hg := gathers_of hq ht
  simp only [Task.gathers, decide_eq_true_eq] at hg
  have hep := (h.matching.elections.sound.tasks _ hmem).2
  rw [epochs_moved hmv, hel, if_pos (by omega)]

theorem sent_capped (h : Watermarks cfg own s) (hq : KeepsWatermark cfg s a)
    (hm : Move cfg s a b e) (hmv : Moved s a b e s') (hm' : Matching cfg own' s')
    (hg : Grown own (epochs cfg s) own' (epochs cfg s ++ e.elected)) :
    ∀ m ∈ e.sent, m.Capped own' (epochs cfg s') := by
  intro m hmem
  cases hm with
  | fetch => cases List.mem_singleton.1 hmem; trivial
  | task ht hs =>
    have hn := h.sound.task ht
    cases hs with
    | contact hf he =>
      cases List.mem_singleton.1 hmem
      have hfol := hn.1.subset (hf ▸ List.mem_cons_self)
      have hne := List.ne_nil_of_mem (hf ▸ List.mem_cons_self)
      have hid := (contact_entry hq (stepped_go ht) he (Or.inl hne)).1
      exact fun heq => (cfg.mem_replicaFollowers.1 hfol).2 (heq.symm.trans hid)
    | @catchUp r _ _ _ hr =>
      cases List.mem_singleton.1 hmem
      obtain ⟨⟨hsuf, _⟩, hcon⟩ := hn
      obtain ⟨f, fs, hfs⟩ := List.exists_cons_of_ne_nil hcon.nonempty
      have hfol : r.followers.headD 0 ∈ cfg.replicaFollowers b :=
        hsuf.subset (by rw [hfs]; exact List.mem_cons_self)
      exact fun heq => (cfg.mem_replicaFollowers.1 hfol).2 (heq.symm.trans hcon.leader)
    | commit =>
      obtain ⟨_, _, rfl⟩ := List.mem_map.1 hmem
      rw [epochs_moved hmv]
      exact hn.2.mono hg
    | promoteApply ha =>
      obtain ⟨_, _, rfl⟩ := List.mem_map.1 hmem
      have hes := h.promote_founds hq hmv (stepped_go ht) (List.mem_of_getElem? ht) rfl
      have hg₁ : Grown own (epochs cfg s) own' (epochs cfg s') := by
        rw [epochs_moved hmv]; exact hg
      exact promoted_capped hm' hes hg₁ hn.1.capped hn.2 (h.matching.elections.sound.task ht).2
    | replicaGap | replicaStore | recoverFetch | fetchFilter =>
      cases List.mem_singleton.1 hmem; trivial
    | _ => cases hmem
  | _ => cases hmem

theorem broker_capped (h : Watermarks cfg own s) (hq : KeepsWatermark cfg s a)
    (hm : Move cfg s a b e) (hmv : Moved s a b e s') (hm' : Matching cfg own' s')
    (hg : Grown own (epochs cfg s) own' (epochs cfg s ++ e.elected)) :
    e.broker.Capped cfg own' (epochs cfg s') b := by
  have hkeep : ∀ l, (s.broker b).entry = some l → (l.leaderId = b ∨ b = cfg.controller) →
      Capped own' (epochs cfg s') l := fun l hl hc => by
    rw [epochs_moved hmv]; exact (h.sound.brokers b l hl hc).mono hg
  have hensure : ∀ l, some ((s.broker b).entry.getD (initialLeadership cfg)) = some l →
      (l.leaderId = b ∨ b = cfg.controller) → Capped own' (epochs cfg s') l := fun l hl hc => by
    cases he : (s.broker b).entry with
    | none =>
      rw [he] at hl
      cases hl
      exact ⟨Nat.succ_pos _, Nat.le_refl _, Nat.zero_le _⟩
    | some c => rw [he] at hl; cases hl; exact hkeep c he hc
  cases hm with
  | createTopic => exact hensure
  | task ht hs =>
    have hn := h.sound.task ht
    cases hs with
    | commit =>
      intro l hl _
      cases hl
      rw [epochs_moved hmv]
      exact hn.2.mono hg
    | replicaAdopt =>
      intro l hl hc
      cases hl
      exact absurd hc (not_or.2 hn)
    | leadershipApply =>
      intro l hl _
      cases hl
      rw [epochs_moved hmv]
      exact Cluster.Capped.mono hn hg
    | syncApply =>
      intro l hl _
      cases hl
      rw [epochs_moved hmv]
      exact Cluster.Capped.mono hn hg
    | promoteApply =>
      intro l hl _
      cases hl
      have hes := h.promote_founds hq hmv (stepped_go ht) (List.mem_of_getElem? ht) rfl
      have hg₁ : Grown own (epochs cfg s) own' (epochs cfg s') := by
        rw [epochs_moved hmv]; exact hg
      exact promoted_capped hm' hes hg₁ hn.1.capped hn.2 (h.matching.elections.sound.task ht).2
    | syncNewer => exact hensure
    | syncOlder => exact hensure
    | _ => exact hkeep
  | _ => exact hkeep

/-! ## Logs a promotion has cut -/

/-- A step that leaves the entry and does not shorten the log. -/
theorem cuts_of_grow (h : Watermarks cfg own s) {l cur : PartitionLeadership}
    (ht : (b, Task.promoteApply l cur true) ∈ s.tasks)
    (he : e.broker.entry = (s.broker b).entry) (hlog : (s.broker b).log.length ≤ e.broker.log.length) :
    ∀ c, e.broker.entry = some c → c.leaderId = b → c.leaderEpoch = cur.leaderEpoch →
      c.highWatermark ≤ e.broker.log.length := by
  intro c hc hid hep
  exact Nat.le_trans (h.cuts b l cur ht c (he ▸ hc) hid hep) hlog

/-- A registry update of another task, on a broker that does not lead or moves on. -/
theorem cuts_of_update (h : Watermarks cfg own s) (hq : KeepsWatermark cfg s a)
    {l cur c' : PartitionLeadership} {t : Task}
    (ht : (b, Task.promoteApply l cur true) ∈ others s a) (hst : stepped s a = some (b, t))
    (hup : t.update cfg = some c') (ha : applyEntry cfg (s.broker b).entry c' = .ok c')
    (hid : c'.leaderId = b) (hep : c'.leaderEpoch = cur.leaderEpoch) : False := by
  obtain ⟨⟨_, hearlier⟩, _⟩ := h.sound.tasks _ (others_subset ht)
  obtain ⟨c, hc, hle⟩ := hearlier cur rfl
  obtain ⟨_, _, hcur⟩ := applyEntry_ok ha
  obtain hlt | ⟨_, hid', _⟩ := hcur c hc
  · omega
  · have hlead : (s.broker b).leads b = true := by simp [Broker.leads, hc, hid', hid]
    have := hq.2.2 _ hst (by rw [hup]; exact Option.some_ne_none _) hlead _ ht rfl
    simp [Task.cut, Task.cutFrom] at this

theorem cuts_others (h : Watermarks cfg own s) (hq : KeepsWatermark cfg s a)
    (hm : Move cfg s a b e) {l cur : PartitionLeadership}
    (ht : (b, Task.promoteApply l cur true) ∈ others s a) :
    ∀ c, e.broker.entry = some c → c.leaderId = b → c.leaderEpoch = cur.leaderEpoch →
      c.highWatermark ≤ e.broker.log.length := by
  have hmem := others_subset ht
  have hsame := h.cuts b l cur hmem
  have hctl : b = cfg.controller := (h.matching.elections.sound.tasks _ hmem).1.controller
  have hensure : ∀ c, some ((s.broker b).entry.getD (initialLeadership cfg)) = some c →
      c.leaderId = b → c.leaderEpoch = cur.leaderEpoch →
      c.highWatermark ≤ (s.broker b).log.length := fun c hc => by
    obtain ⟨⟨_, hearlier⟩, _⟩ := h.sound.tasks _ hmem
    obtain ⟨c₀, hc₀, _⟩ := hearlier cur rfl
    rw [hc₀] at hc
    cases hc
    exact hsame c₀ hc₀
  cases hm with
  | createTopic => exact hensure
  | task hidx hs =>
    have hn := h.sound.task hidx
    cases hs with
    | append happ => exact h.cuts_of_grow hmem rfl (appendInputs_isPrefix happ).length_le
    | replicaStore hst => exact h.cuts_of_grow hmem rfl (appendReplica_grows hst).length_le
    | recoverStore he hst => exact h.cuts_of_grow hmem rfl (appendReplica_grows hst).length_le
    | replicaTruncate => exact absurd hctl hn.2
    | leadershipTruncate => exact absurd hctl hn.2
    | promoteTruncate hle =>
      intro c hc hid hep
      have hg := gathers_of hq (stepped_go hidx)
      simp only [Task.gathers, Broker.leads, show (s.broker b).entry = some c from hc,
        Option.any_some, hid, decide_true, Bool.not_true, Bool.false_or, decide_eq_true_eq,
        Option.some.injEq] at hg
      subst hg
      rw [List.length_take, ← hn.2]
      omega
    | commit ha =>
      intro c hc hid hep
      cases hc
      exact (h.cuts_of_update hq ht (stepped_go hidx) rfl ha hid hep).elim
    | replicaAdopt ha =>
      intro c hc hid hep
      cases hc
      exact (h.cuts_of_update hq ht (stepped_go hidx) rfl ha hid hep).elim
    | leadershipApply ha =>
      intro c hc hid hep
      cases hc
      exact (h.cuts_of_update hq ht (stepped_go hidx) rfl ha hid hep).elim
    | promoteApply ha =>
      intro c hc hid hep
      cases hc
      exact (h.cuts_of_update hq ht (stepped_go hidx) rfl ha hid hep).elim
    | syncApply ha =>
      intro c hc hid hep
      cases hc
      exact (h.cuts_of_update hq ht (stepped_go hidx) rfl ha hid hep).elim
    | syncNewer => exact hensure
    | syncOlder => exact hensure
    | _ => exact hsame
  | _ => exact hsame

theorem cuts_moved (h : Watermarks cfg own s) (hq : KeepsWatermark cfg s a)
    (hm : Move cfg s a b e) (hmv : Moved s a b e s') : CutsWithin s' := by
  intro i l cur ht
  rcases hmv.tasks _ ht with hold | heq
  · by_cases hi : i = b
    · subst hi
      rw [hmv.self]
      exact h.cuts_others hq hm hold
    · rw [hmv.other i hi]
      exact h.cuts i l cur (others_subset hold)
  · obtain ⟨rfl, htask⟩ := Prod.mk.inj heq
    rw [hmv.self]
    cases hm with
    | task hidx hs =>
      have hn := h.sound.task hidx
      cases hs with
      | append => revert htask; split <;> exact fun htask => by cases htask
      | committed => revert htask; unfold finishRecord; split <;> exact fun htask => by cases htask
      | uncommitted => revert htask; unfold finishRecord; split <;> exact fun htask => by cases htask
      | commit => revert htask; unfold finishRecord; split <;> exact fun htask => by cases htask
      | recoverStore => revert htask; split <;> exact fun htask => by cases htask
      | promoteTruncate hle =>
        intro c hc hid hep
        obtain ⟨rfl, rfl, _⟩ := Task.promoteApply.inj htask
        have hg := gathers_of hq (stepped_go hidx)
        simp only [Task.gathers, Broker.leads, show (s.broker i).entry = some c from hc,
          Option.any_some, hid, decide_true, Bool.not_true, Bool.false_or, decide_eq_true_eq,
          Option.some.injEq] at hg
        subst hg
        rw [List.length_take, ← hn.2]
        omega
      | _ => cases htask
    | _ => cases htask

theorem moved (h : Watermarks cfg own s) (hq : KeepsWatermark cfg s a) (hm : Move cfg s a b e)
    (hmv : Moved s a b e s') :
    ∃ own', Watermarks cfg own' s' ∧ Grown own (epochs cfg s) own' (epochs cfg s') := by
  obtain ⟨own', hm', hg⟩ := h.matching.moved hq.1 hm hmv
  have hes : epochs cfg s' = epochs cfg s ++ e.elected := epochs_moved hmv
  have hg' : Grown own (epochs cfg s) own' (epochs cfg s ++ e.elected) := hes ▸ hg
  have hb := h.broker_capped hq hm hmv hm' hg'
  have hsent := h.sent_capped hq hm hmv hm' hg'
  refine ⟨own', ⟨hm', ?_, h.cuts_moved hq hm hmv⟩, hg⟩
  rw [hes] at hb hsent ⊢
  exact h.sound.moved hmv (fun i _ hx l hl hc => (hx l hl hc).mono hg')
    (fun i t _ ht => ht.mono hg' (hmv.entryGrows hm.entryGrows i)) (fun m hx => hx.mono hg') hb
    ((h.task_capped hq hm).mono hg' (hmv.entryGrows hm.entryGrows b)) hsent

theorem of_run {acts : List Action} (hq : Along (step cfg) (KeepsWatermark cfg) State.init acts)
    (hr : run (step cfg) State.init acts = some s) : ∃ own, Watermarks cfg own s := by
  refine @run_invariant _ _ _ _ (fun s => ∃ own, Watermarks cfg own s) (fun s a s' hp hq hs => ?_)
    _ _ _ ⟨_, Watermarks.init cfg⟩ hq hr
  obtain ⟨own, h⟩ := hp
  obtain ⟨b, e, hm, hmv⟩ := step_move hs
  obtain ⟨own', h', _⟩ := h.moved hq hm hmv
  exact ⟨own', h'⟩

/-- Only a promotion can have cut the log of the newest epoch's leader. -/
theorem newest_cut (h : Watermarks cfg own s) {l c : PartitionLeadership} {t : Task}
    (hc : (s.broker cfg.controller).entry = some c) (hep : l.leaderEpoch = c.leaderEpoch)
    (ht : (b, t) ∈ s.tasks) (hcut : t.cutFrom = some l.leaderEpoch) :
    ∃ l' cur, t = .promoteApply l' cur true ∧ l.leaderEpoch = cur.leaderEpoch := by
  have hmatch := h.matching.sound.tasks _ ht
  have hnamed := h.matching.elections.sound.tasks _ ht
  have hnewest : ∀ {ep : Nat} {id : BrokerId}, Names (epochs cfg s) ep id →
      ep ≤ c.leaderEpoch := fun hn => by
    have h1 := hn.lt
    have h2 := h.matching.elections.newest
    rw [hc, epochOf_some] at h2
    have h3 : (epochs cfg s).length = s.elected.length + 1 := rfl
    omega
  cases t with
  | replicaAdopt conn m cur cut =>
    simp only [Task.cutFrom, Option.ite_none_right_eq_some, Option.some.injEq] at hcut
    have h1 := hnewest hnamed
    have h2 := hmatch.2
    omega
  | leadershipApply l₁ cur cut =>
    simp only [Task.cutFrom, Option.ite_none_right_eq_some, Option.some.injEq] at hcut
    have h1 := hnewest hnamed
    have h2 := hmatch hcut.1
    omega
  | promoteApply l₁ cur cut =>
    simp only [Task.cutFrom, Option.ite_none_right_eq_some, Option.some.injEq] at hcut
    obtain ⟨rfl, hcur⟩ := hcut
    exact ⟨l₁, cur, rfl, hcur.symm⟩
  | _ => cases hcut

theorem leaderWithin (h : Watermarks cfg own s) : LeaderWithin cfg s := by
  intro b l c hl hid hc hep
  have hcap := (h.sound.brokers b l hl (Or.inl hid)).within
  obtain ⟨_, heq | ⟨t, ht, hcut⟩⟩ := ((h.matching.sound.brokers b).2 l hl).2 hid
  · rw [← heq, contents_length] at hcap
    exact hcap
  · obtain ⟨l', cur, rfl, hcur⟩ := h.newest_cut hc hep ht hcut
    exact h.cuts b l' cur ht l hl hid hcur

end Watermarks

/-- **The high watermark is advanced only by the epoch that gathered the acknowledgements.**  On
every run whose steps keep the watermark, every commit rests on acknowledgements gathered in the
epoch it raises, and the leader of the controller's epoch has its watermark within its log. -/
theorem watermark_raised_by_its_epoch (cfg : ClusterConfig) {acts : List Action} {s : State}
    (hq : Along (step cfg) (KeepsWatermark cfg) State.init acts)
    (hr : run (step cfg) State.init acts = some s) :
    (∀ b r l, (b, Task.commitApply r l) ∈ s.tasks → Gathered cfg b r l) ∧ LeaderWithin cfg s := by
  obtain ⟨own, h⟩ := Watermarks.of_run hq hr
  exact ⟨fun b r l ht => (h.sound.tasks _ ht).1, h.leaderWithin⟩

theorem watermark_raised_by_its_epoch_synced : ∃ s,
    run (step threeNodes) State.init (syncedRun.take 24) = some s ∧
    (∃ r l, s.tasks[2]? = some (1, .commitApply r l) ∧ l.leaderEpoch = 1 ∧ Gathered threeNodes 1 r l) ∧
    LeaderWithin threeNodes s := by
  refine ⟨_, rfl, ?_⟩
  have h := @watermark_raised_by_its_epoch threeNodes (syncedRun.take 24) _ (by decide +kernel) rfl
  refine ⟨⟨_, _, rfl, rfl, h.1 1 _ _ ?_⟩, h.2⟩
  decide +kernel

end SevlaMq.Cluster
