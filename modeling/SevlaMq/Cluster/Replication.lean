import SevlaMq.Cluster.Contents

/-!
# Replication inside one epoch

The leader of an epoch serves any number of produce requests; each has a replication task of its
own that pushes records to the followers, fills gaps in the catch-up loop, and raises the high
watermark, while the followers also pull.  Messages and acknowledgements may be lost, duplicated
and delayed.

* `State.epochStart` — every node has the entry of the epoch, with watermark 0 and an empty log.
* `Backed` — a watermark is within the leader's log and within the logs of enough replicas.
* `OneEpoch` — the invariant: every log is a prefix of the leader's, every record in flight lies
  in the leader's log, every acknowledgement in flight is bounded by the log of the follower that
  was contacted on its connection, and every watermark in flight is backed.
* `single_epoch_replication` — replication safety on every run without promotions.
-/

set_option autoImplicit false

namespace SevlaMq.Cluster

open SevlaMq.Storage

variable {cfg : ClusterConfig} {leader : BrokerId} {epoch : Nat}

/-- All nodes are in `epoch` under `leader`; nothing has been produced. -/
def State.epochStart (cfg : ClusterConfig) (leader : BrokerId) (epoch : Nat) : State :=
  { State.init with
    broker := fun i =>
      ⟨if i ∈ cfg.nodes then some ⟨cfg.partition, leader, epoch, 0⟩ else none, []⟩ }

/-- The watermark `h` is at most the leader's log end, and `min_in_sync_replicas` brokers of the
replica set hold at least `h` records. -/
def Backed (cfg : ClusterConfig) (leader : BrokerId) (s : State) (h : Nat) : Prop :=
  h ≤ (s.broker leader).log.length ∧
    cfg.minInSyncReplicas ≤
      (cfg.replicaSet.filter fun b => h ≤ (s.broker b).log.length).length

/-! ## The invariant -/

/-- The leadership is the one of the epoch, and its watermark is backed. -/
structure InEpoch (cfg : ClusterConfig) (leader : BrokerId) (epoch : Nat) (s : State)
    (l : PartitionLeadership) : Prop where
  leaderId : l.leaderId = leader
  leaderEpoch : l.leaderEpoch = epoch
  backed : Backed cfg leader s l.highWatermark

/-- The record is in the leader's log. -/
def Sourced (leader : BrokerId) (s : State) (f : FetchedRecord) : Prop :=
  InLog (contents (s.broker leader).log) f

/-- A replication request of the epoch. -/
structure Genuine (leader : BrokerId) (epoch : Nat) (s : State) (m : ReplicateRecord) : Prop where
  leaderId : m.leaderId = leader
  leaderEpoch : m.leaderEpoch = epoch
  sourced : Sourced leader s m.record

/-- The state of a replication: its records are the leader's, its durable records so far are
committed, and the followers it counted hold the current record. -/
structure Progress (cfg : ClusterConfig) (leader : BrokerId) (s : State) (r : Replication) :
    Prop where
  jobs : ∀ j ∈ r.current :: r.rest, Sourced leader s j.record
  finished : r.ackMode = .durable → ∀ f ∈ r.finished,
    f.offset < (s.broker leader).highWatermark
  placed : (r.acked.map (·.follower) ++ r.followers).Sublist (cfg.replicaFollowers leader)
  acked : ∀ a ∈ r.acked, r.current.record.offset < (s.broker a.follower).log.length

/-- The connection `conn` was opened to `dst` only. -/
def Dedicated (s : State) (conn : Nat) (dst : BrokerId) : Prop :=
  conn < s.nextConn ∧
    ∀ sender dst' m, Message.replicate conn sender dst' m ∈ s.net → dst' = dst

/-- Some replication request came in on `conn` at `dst`. -/
def Arrived (s : State) (conn : Nat) (dst : BrokerId) : Prop :=
  ∃ sender m, Message.replicate conn sender dst m ∈ s.net

/-- Brokers: a log within the leader's, and the entry of the epoch on every node. -/
def Broker.InEpoch (cfg : ClusterConfig) (leader : BrokerId) (epoch : Nat) (s : State)
    (b : BrokerId) (x : Broker) : Prop :=
  contents x.log <+: contents (s.broker leader).log ∧
    (b ∈ cfg.nodes → x.entry ≠ none) ∧
    ∀ l, x.entry = some l → Cluster.InEpoch cfg leader epoch s l

def Message.InEpoch (cfg : ClusterConfig) (leader : BrokerId) (epoch : Nat) (s : State) :
    Message → Prop
  | .applyLeadership _ l => Cluster.InEpoch cfg leader epoch s l
  | .replicate conn _ _ m => Genuine leader epoch s m ∧ conn < s.nextConn
  | .replicateAck conn next => ∃ dst, Arrived s conn dst ∧ next ≤ (s.broker dst).log.length
  | .fetch _ _ _ _ => True
  | .fetched _ _ records => ∀ f ∈ records, Sourced leader s f

/-- Tasks: nothing in the epoch truncates, adopts or promotes. -/
def Task.InEpoch (cfg : ClusterConfig) (leader : BrokerId) (epoch : Nat) (s : State)
    (b : BrokerId) : Task → Prop
  | .done => True
  | .append _ => b = leader
  | .readBack _ _ jobs => b = leader ∧ ∀ j ∈ jobs, Sourced leader s j.record
  | .contact r => b = leader ∧ Progress cfg leader s r
  | .awaitAck r l conn _ => b = leader ∧ Progress cfg leader s r ∧
      Cluster.InEpoch cfg leader epoch s l ∧ r.followers ≠ [] ∧
      Dedicated s conn (r.followers.headD 0)
  | .catchUp r l _ => b = leader ∧ Progress cfg leader s r ∧
      Cluster.InEpoch cfg leader epoch s l ∧ r.followers ≠ []
  | .commitApply r l => b = leader ∧ Progress cfg leader s r ∧
      Cluster.InEpoch cfg leader epoch s l ∧ l.highWatermark = r.current.record.offset + 1
  | .replicaExpected conn m => Genuine leader epoch s m ∧ Arrived s conn b
  | .replicaStore conn m => Genuine leader epoch s m ∧ Arrived s conn b
  | .leadershipApply l _ _ => Cluster.InEpoch cfg leader epoch s l
  | .syncCompare l => b ∈ cfg.nodes ∧ Cluster.InEpoch cfg leader epoch s l
  | .syncApply l => Cluster.InEpoch cfg leader epoch s l
  | .recoverStart _ => True
  | .recoverFetch _ => True
  | .recoverAwait _ => True
  | .recoverStore _ records => ∀ f ∈ records, Sourced leader s f
  | .fetchRead _ _ _ => True
  | .fetchFilter _ _ records => ∀ f ∈ records, Sourced leader s f
  | _ => False

/-- An answer to a durable produce is below the leader's watermark. -/
def Answer.Committed (leader : BrokerId) (s : State) (a : Answer) : Prop :=
  a.ackMode = .durable → a.record.offset < (s.broker leader).highWatermark

/-- **The single-epoch invariant.** -/
structure OneEpoch (cfg : ClusterConfig) (leader : BrokerId) (epoch : Nat) (s : State) : Prop where
  sound : Sound (Broker.InEpoch cfg leader epoch s) (Task.InEpoch cfg leader epoch s)
    (Message.InEpoch cfg leader epoch s) s
  answers : ∀ a ∈ s.answers, a.Committed leader s

/-! ## What only grows -/

/-- `s'` is a later state of the same epoch. -/
structure Later (leader : BrokerId) (s s' : State) : Prop where
  logs : ∀ i, contents (s.broker i).log <+: contents (s'.broker i).log
  watermark : (s.broker leader).highWatermark ≤ (s'.broker leader).highWatermark
  conns : s.nextConn ≤ s'.nextConn
  net : ∀ m ∈ s.net, m ∈ s'.net
  fresh : ∀ conn sender dst m, Message.replicate conn sender dst m ∈ s'.net →
    Message.replicate conn sender dst m ∈ s.net ∨ s.nextConn ≤ conn

namespace Later

variable {s s' : State}

theorem length (h : Later leader s s') (i : BrokerId) :
    (s.broker i).log.length ≤ (s'.broker i).log.length := by
  have := (h.logs i).length_le
  rwa [contents_length, contents_length] at this

theorem backed (h : Later leader s s') {n : Nat} (hb : Backed cfg leader s n) :
    Backed cfg leader s' n := by
  refine ⟨hb.1.trans (h.length leader), hb.2.trans (List.Sublist.length_le ?_)⟩
  refine List.monotone_filter_right _ fun b hn => ?_
  simp only [decide_eq_true_eq] at hn ⊢
  exact hn.trans (h.length b)

theorem inEpoch (h : Later leader s s') {l : PartitionLeadership}
    (hl : InEpoch cfg leader epoch s l) : InEpoch cfg leader epoch s' l :=
  ⟨hl.leaderId, hl.leaderEpoch, h.backed hl.backed⟩

theorem sourced (h : Later leader s s') {f : FetchedRecord} (hf : Sourced leader s f) :
    Sourced leader s' f := InLog.mono hf (h.logs leader)

theorem genuine (h : Later leader s s') {m : ReplicateRecord} (hm : Genuine leader epoch s m) :
    Genuine leader epoch s' m := ⟨hm.leaderId, hm.leaderEpoch, h.sourced hm.sourced⟩

theorem progress (h : Later leader s s') {r : Replication} (hr : Progress cfg leader s r) :
    Progress cfg leader s' r where
  jobs := fun j hj => h.sourced (hr.jobs j hj)
  finished := fun hd f hf => Nat.lt_of_lt_of_le (hr.finished hd f hf) h.watermark
  placed := hr.placed
  acked := fun a ha => Nat.lt_of_lt_of_le (hr.acked a ha) (h.length _)

theorem dedicated (h : Later leader s s') {conn : Nat} {dst : BrokerId}
    (hd : Dedicated s conn dst) : Dedicated s' conn dst := by
  refine ⟨Nat.lt_of_lt_of_le hd.1 h.conns, fun sender dst' m hm => ?_⟩
  obtain hm | hge := h.fresh conn sender dst' m hm
  · exact hd.2 sender dst' m hm
  · have := hd.1
    omega

theorem arrived (h : Later leader s s') {conn : Nat} {dst : BrokerId} (ha : Arrived s conn dst) :
    Arrived s' conn dst := by
  obtain ⟨sender, m, hm⟩ := ha
  exact ⟨sender, m, h.net _ hm⟩

theorem message (h : Later leader s s') {m : Message} (hm : m.InEpoch cfg leader epoch s) :
    m.InEpoch cfg leader epoch s' := by
  cases m with
  | applyLeadership => exact h.inEpoch hm
  | replicate => exact ⟨h.genuine hm.1, Nat.lt_of_lt_of_le hm.2 h.conns⟩
  | replicateAck =>
    obtain ⟨dst, ha, hle⟩ := hm
    exact ⟨dst, h.arrived ha, hle.trans (h.length dst)⟩
  | fetch => trivial
  | fetched => exact fun f hf => h.sourced (hm f hf)

theorem task (h : Later leader s s') {b : BrokerId} {t : Task}
    (ht : t.InEpoch cfg leader epoch s b) : t.InEpoch cfg leader epoch s' b := by
  cases t with
  | append => exact ht
  | readBack => exact ⟨ht.1, fun j hj => h.sourced (ht.2 j hj)⟩
  | contact => exact ⟨ht.1, h.progress ht.2⟩
  | awaitAck =>
    obtain ⟨hb, hp, hl, hf, hd⟩ := ht
    exact ⟨hb, h.progress hp, h.inEpoch hl, hf, h.dedicated hd⟩
  | catchUp =>
    obtain ⟨hb, hp, hl, hf⟩ := ht
    exact ⟨hb, h.progress hp, h.inEpoch hl, hf⟩
  | commitApply =>
    obtain ⟨hb, hp, hl, hw⟩ := ht
    exact ⟨hb, h.progress hp, h.inEpoch hl, hw⟩
  | replicaExpected => exact ⟨h.genuine ht.1, h.arrived ht.2⟩
  | replicaStore => exact ⟨h.genuine ht.1, h.arrived ht.2⟩
  | leadershipApply => exact h.inEpoch ht
  | syncCompare => exact ⟨ht.1, h.inEpoch ht.2⟩
  | syncApply => exact h.inEpoch ht
  | recoverStore => exact fun f hf => h.sourced (ht f hf)
  | fetchFilter => exact fun f hf => h.sourced (ht f hf)
  | done | recoverStart | recoverFetch | recoverAwait | fetchRead => trivial
  | replicaTail | replicaTruncate | replicaAdopt | leadershipTail | leadershipTruncate => exact ht
  | promoteQuery | promoteTail | promoteTruncate | promoteApply => exact ht

theorem broker (h : Later leader s s') {b : BrokerId} {x : Broker}
    (hx : x.InEpoch cfg leader epoch s b) : x.InEpoch cfg leader epoch s' b :=
  ⟨hx.1.trans (h.logs leader), hx.2.1, fun l hl => h.inEpoch (hx.2.2 l hl)⟩

end Later

/-! ## Steps -/

namespace OneEpoch

variable {s s' : State} {a : Action} {b : BrokerId} {e : Effect}

theorem entry_inEpoch (h : OneEpoch cfg leader epoch s) {l : PartitionLeadership}
    (he : (s.broker b).entry = some l) : InEpoch cfg leader epoch s l :=
  (h.sound.brokers b).2.2 l he

theorem node_entry (h : OneEpoch cfg leader epoch s) (hb : b ∈ cfg.nodes) :
    ∃ l, (s.broker b).entry = some l :=
  Option.ne_none_iff_exists'.1 ((h.sound.brokers b).2.1 hb)

/-- On a node `ensure_topic` finds the entry. -/
theorem ensured (h : OneEpoch cfg leader epoch s) (hb : b ∈ cfg.nodes) :
    some ((s.broker b).entry.getD (initialLeadership cfg)) = (s.broker b).entry := by
  obtain ⟨l, hl⟩ := h.node_entry hb
  rw [hl]; rfl

/-- The entry a move leaves is unchanged or a leadership of the epoch. -/
theorem entry_move (h : OneEpoch cfg leader epoch s) (hm : Move cfg s a b e) :
    e.broker.entry = (s.broker b).entry ∨
      ∃ l, e.broker.entry = some l ∧ InEpoch cfg leader epoch s l := by
  cases hm with
  | createTopic hb => exact Or.inl (h.ensured hb)
  | task ht hs =>
    have hn := h.sound.task ht
    cases hs with
    | commit => exact Or.inr ⟨_, rfl, hn.2.2.1⟩
    | replicaAdopt => exact hn.elim
    | leadershipApply => exact Or.inr ⟨_, rfl, hn⟩
    | promoteApply => exact hn.elim
    | syncApply => exact Or.inr ⟨_, rfl, hn⟩
    | syncNewer => exact Or.inl (h.ensured hn.1)
    | syncOlder => exact Or.inl (h.ensured hn.1)
    | _ => exact Or.inl rfl
  | _ => exact Or.inl rfl

/-- No log shrinks, and only the leader's goes beyond the leader's. -/
theorem log_move (h : OneEpoch cfg leader epoch s) (hm : Move cfg s a b e) :
    (s.broker b).log <+: e.broker.log ∧
      (b = leader ∨ contents e.broker.log <+: contents (s.broker leader).log) := by
  have hsame : (s.broker b).log <+: (s.broker b).log ∧
      (b = leader ∨ contents (s.broker b).log <+: contents (s.broker leader).log) :=
    ⟨List.prefix_rfl, Or.inr (h.sound.brokers b).1⟩
  cases hm with
  | task ht hs =>
    have hn := h.sound.task ht
    cases hs with
    | append happ => exact ⟨appendInputs_isPrefix happ, Or.inl hn⟩
    | replicaTruncate => exact hn.elim
    | leadershipTruncate => exact hn.elim
    | promoteTruncate => exact hn.elim
    | replicaStore hst =>
      exact ⟨appendReplica_grows hst,
        Or.inr (appendReplica_within hst (h.sound.brokers b).1 hn.1.sourced)⟩
    | recoverStore he hst =>
      exact ⟨appendReplica_grows hst,
        Or.inr (appendReplica_within hst (h.sound.brokers b).1 (hn _ List.mem_cons_self))⟩
    | _ => exact hsame
  | _ => exact hsame

/-- Replication requests go out on a connection of their own. -/
theorem sent_fresh (hm : Move cfg s a b e) {conn : Nat} {sender dst : BrokerId}
    {m : ReplicateRecord} (hs : Message.replicate conn sender dst m ∈ e.sent) :
    conn = s.nextConn := by
  cases hm with
  | fetch => cases List.mem_singleton.1 hs
  | task ht hstep =>
    cases hstep with
    | contact => cases List.mem_singleton.1 hs; rfl
    | catchUp => cases List.mem_singleton.1 hs; rfl
    | commit | promoteApply =>
      obtain ⟨_, _, hx⟩ := List.mem_map.1 hs
      cases hx
    | replicaGap | replicaStore | recoverFetch | fetchFilter => cases List.mem_singleton.1 hs
    | _ => cases hs
  | _ => cases hs

theorem later (h : OneEpoch cfg leader epoch s) (hm : Move cfg s a b e)
    (hmv : Moved s a b e s') : Later leader s s' where
  logs := fun i => by
    by_cases hi : i = b
    · subst hi; rw [hmv.self]; exact contents_isPrefix (h.log_move hm).1
    · exact ⟨[], by rw [hmv.other i hi, List.append_nil]⟩
  watermark := by
    by_cases hi : leader = b
    · subst hi
      rw [hmv.self]
      cases hl : (s.broker leader).entry with
      | none => rw [Broker.highWatermark, hl]; exact Nat.zero_le _
      | some l =>
        obtain ⟨l', hl', hcase⟩ := hm.entryGrows l hl
        have hle : l.highWatermark ≤ l'.highWatermark := by
          have h1 := (h.entry_inEpoch hl).leaderEpoch
          obtain hk | ⟨l'', hk, hin⟩ := h.entry_move hm
          · rw [hk, hl] at hl'
            cases hl'; exact Nat.le_refl _
          · rw [hk] at hl'
            cases hl'
            have h2 := hin.leaderEpoch
            omega
        rw [Broker.highWatermark_eq hl, Broker.highWatermark_eq hl']
        exact hle
    · rw [hmv.other _ hi]
  conns := hmv.nextConn_le
  net := fun m hmem => by rw [hmv.net]; exact List.mem_append_left _ hmem
  fresh := fun conn sender dst m hmem => by
    rw [hmv.net] at hmem
    rcases List.mem_append.1 hmem with hmem | hmem
    · exact Or.inl hmem
    · exact Or.inr (Nat.le_of_eq (sent_fresh hm hmem).symm)

theorem broker_move (h : OneEpoch cfg leader epoch s) (hm : Move cfg s a b e)
    (hmv : Moved s a b e s') : e.broker.InEpoch cfg leader epoch s' b := by
  have hlat := h.later hm hmv
  refine ⟨?_, ?_, ?_⟩
  · by_cases hb : b = leader
    · exact ⟨[], by rw [← hb, hmv.self, List.append_nil]⟩
    · obtain hbl | hp := (h.log_move hm).2
      · exact absurd hbl hb
      · exact hp.trans (hlat.logs leader)
  · intro hb
    obtain ⟨l, hl⟩ := h.node_entry hb
    obtain ⟨l', hl', _⟩ := hm.entryGrows l hl
    rw [hl']; exact Option.some_ne_none _
  · intro l hl
    obtain hk | ⟨l', hk, hin⟩ := h.entry_move hm
    · exact hlat.inEpoch (h.entry_inEpoch (hk ▸ hl))
    · rw [hk] at hl
      cases hl; exact hlat.inEpoch hin

/-- The watermark a replication commits is backed by the leader and the counted followers. -/
theorem commit_backed (hleader : leader ∈ cfg.replicaSet) {r : Replication}
    (hp : Progress cfg leader s r) (hmin : cfg.minInSyncReplicas ≤ r.acknowledgements) :
    Backed cfg leader s (r.current.record.offset + 1) := by
  have hown : r.current.record.offset < (s.broker leader).log.length := by
    have := InLog.lt (hp.jobs _ List.mem_cons_self)
    rwa [contents_length] at this
  refine ⟨hown, hmin.trans ?_⟩
  have hsub := (List.sublist_append_left _ _).trans hp.placed
  have hnodup : (leader :: r.acked.map (·.follower)).Nodup := by
    refine List.nodup_cons.2 ⟨fun hmem => ?_, hsub.nodup (cfg.replicaSet_nodup.filter _)⟩
    exact (cfg.mem_replicaFollowers.1 (hsub.subset hmem)).2 rfl
  have hsubset : (leader :: r.acked.map (·.follower)) ⊆
      cfg.replicaSet.filter fun b => r.current.record.offset + 1 ≤ (s.broker b).log.length := by
    intro b hb
    rw [List.mem_filter, decide_eq_true_eq]
    rcases List.mem_cons.1 hb with rfl | hb
    · exact ⟨hleader, hown⟩
    · obtain ⟨ack, hack, rfl⟩ := List.mem_map.1 hb
      exact ⟨(cfg.mem_replicaFollowers.1 (hsub.subset hb)).1, hp.acked ack hack⟩
  have hlen := hnodup.length_le_of_subset hsubset
  rw [List.length_cons, List.length_map] at hlen
  unfold Replication.acknowledgements
  omega

/-- The continuation after a finished record. -/
theorem finish_task {r : Replication} (hp : Progress cfg leader s r)
    (hw : r.ackMode = .durable → r.current.record.offset < (s.broker leader).highWatermark) :
    (finishRecord cfg leader r).1.InEpoch cfg leader epoch s leader := by
  unfold finishRecord
  split
  · rename_i job rest hr
    refine ⟨rfl, fun j hj => hp.jobs j (List.mem_cons_of_mem _ (hr ▸ hj)), ?_, ?_, ?_⟩
    · intro hd f hf
      rcases List.mem_append.1 hf with hf | hf
      · exact hp.finished hd f hf
      · cases List.mem_singleton.1 hf; exact hw hd
    · exact List.Sublist.refl _
    · exact fun ack hack => by cases hack
  · trivial

/-- The answers after a finished record. -/
theorem finish_answers {r : Replication} (hp : Progress cfg leader s r)
    (hw : r.ackMode = .durable → r.current.record.offset < (s.broker leader).highWatermark) :
    ∀ x ∈ (finishRecord cfg leader r).2, x.Committed leader s := by
  intro x hx _
  unfold finishRecord at hx
  split at hx
  · cases hx
  · split at hx
    · rename_i hd
      obtain ⟨f, hf, rfl⟩ := List.mem_map.1 hx
      rcases List.mem_append.1 hf with hf | hf
      · exact hp.finished hd f hf
      · cases List.mem_singleton.1 hf; exact hw hd
    · cases hx

theorem Progress.drop {r : Replication} (h : Progress cfg leader s r) :
    Progress cfg leader s r.drop where
  jobs := h.jobs
  finished := h.finished
  placed := ((List.tail_sublist _).append_left _).trans h.placed
  acked := h.acked

/-- The follower at hand has acknowledged the current record. -/
theorem Progress.ack {r : Replication} (h : Progress cfg leader s r) (hf : r.followers ≠ [])
    (hlen : r.current.record.offset < (s.broker (r.followers.headD 0)).log.length)
    (next : Nat) (l : PartitionLeadership) (entry : Option PartitionLeadership) :
    Progress cfg leader s (r.ack next l entry) where
  jobs := h.jobs
  finished := h.finished
  placed := by
    obtain ⟨f, fs, hfs⟩ := List.exists_cons_of_ne_nil hf
    have := h.placed
    simpa [Replication.ack, hfs] using this
  acked := fun x hx => by
    rcases List.mem_append.1 hx with hx | hx
    · exact h.acked x hx
    · cases List.mem_singleton.1 hx; exact hlen

/-- The follower on a dedicated connection is as long as an acknowledgement on it says. -/
theorem acked_length (h : OneEpoch cfg leader epoch s) {index conn next : Nat} {dst : BrokerId}
    (hn : s.net[index]? = some (.replicateAck conn next)) (hd : Dedicated s conn dst) :
    next ≤ (s.broker dst).log.length := by
  obtain ⟨dst', ⟨sender, m, hmem⟩, hle⟩ := h.sound.message hn
  rw [hd.2 sender dst' m hmem] at hle
  exact hle

/-- A connection opened by this step is dedicated to the broker it was opened to. -/
theorem sent_dedicated (h : OneEpoch cfg leader epoch s) (hmv : Moved s a b e s')
    {sender dst : BrokerId} {m : ReplicateRecord}
    (hs : e.sent = [.replicate s.nextConn sender dst m]) : Dedicated s' s.nextConn dst := by
  refine ⟨hmv.nextConn_sent (by rw [hs]; exact List.cons_ne_nil _ _), ?_⟩
  intro sender' dst' m' hmem
  rw [hmv.net, hs] at hmem
  rcases List.mem_append.1 hmem with hmem | hmem
  · exact absurd (h.sound.net _ hmem).2 (Nat.lt_irrefl _)
  · cases List.mem_singleton.1 hmem; rfl

theorem task_move (h : OneEpoch cfg leader epoch s) (hleader : leader ∈ cfg.replicaSet)
    (hnp : ∀ candidate, a ≠ .promote candidate) (hm : Move cfg s a b e)
    (hmv : Moved s a b e s') : e.task.InEpoch cfg leader epoch s' b := by
  have hlat := h.later hm hmv
  cases hm with
  | createTopic | recover | fetch | serve | restart => trivial
  | produce hb hl =>
    rcases hl with hone | hid
    · obtain ⟨n, hn⟩ := List.length_eq_one_iff.1 hone
      have hln := cfg.replicaSet_subset hleader
      rw [hn] at hb hln
      exact (List.mem_singleton.1 hb).trans (List.mem_singleton.1 hln).symm
    · obtain ⟨l, hl, hlb⟩ := Option.map_eq_some_iff.1 hid
      exact hlb.symm.trans (h.entry_inEpoch hl).leaderId
  | promote => exact absurd rfl (hnp _)
  | sync he hb => exact ⟨hb, hlat.inEpoch (h.entry_inEpoch he)⟩
  | leadershipNewer hn he hlt =>
    have h1 := (h.sound.message hn).leaderEpoch
    have h2 := (h.entry_inEpoch he).leaderEpoch
    omega
  | leadershipOlder hn => exact hlat.inEpoch (h.sound.message hn)
  | replicateNewer hn he hlt =>
    have h1 := (h.sound.message hn).1.leaderEpoch
    have h2 := (h.entry_inEpoch he).leaderEpoch
    omega
  | replicateSame hn =>
    exact ⟨hlat.genuine (h.sound.message hn).1,
      hlat.arrived ⟨_, _, List.mem_of_getElem? hn⟩⟩
  | task ht hs =>
    have hn := h.sound.task ht
    cases hs with
    | stop => trivial
    | append => split <;> first | exact ⟨hn, fun j hj => by cases hj⟩ | trivial
    | readBack hr =>
      refine ⟨hn.1, fun j hj => ?_⟩
      rcases List.mem_append.1 hj with hj | hj
      · exact hlat.sourced (hn.2 j hj)
      · cases List.mem_singleton.1 hj
        obtain ⟨rfl, _⟩ := hn
        exact hlat.sourced (inLog_fetched hr)
    | dispatch =>
      obtain ⟨rfl, hjobs⟩ := hn
      refine ⟨rfl, hlat.progress ⟨hjobs, fun _ f hf => ?_, List.Sublist.refl _, fun x hx => ?_⟩⟩
      · cases hf
      · cases hx
    | skip hsk =>
      obtain rfl | ⟨_, _, _, rfl⟩ | ⟨_, _, rfl⟩ := hsk
      · exact ⟨hn.1, hlat.progress (Progress.drop hn.2)⟩
      · exact ⟨hn.1, hlat.progress (Progress.drop hn.2.1)⟩
      · exact ⟨hn.1, hlat.progress (Progress.drop hn.2.1)⟩
    | contact hf he =>
      refine ⟨hn.1, hlat.progress hn.2, hlat.inEpoch (h.entry_inEpoch he), ?_, ?_⟩
      · rw [hf]; exact List.cons_ne_nil _ _
      · rw [hf]; exact h.sent_dedicated hmv rfl
    | committed hf hmin he hw =>
      obtain ⟨rfl, hp⟩ := hn
      refine finish_task (hlat.progress hp) fun _ => ?_
      have := hlat.watermark
      rw [Broker.highWatermark_eq he] at this
      omega
    | commitRead hf hmin he hw =>
      obtain ⟨rfl, hp⟩ := hn
      have hin := h.entry_inEpoch he
      exact ⟨rfl, hlat.progress hp,
        ⟨hin.leaderId, hin.leaderEpoch, hlat.backed (commit_backed hleader hp hmin)⟩, rfl⟩
    | uncommitted hf hmode =>
      obtain ⟨rfl, hp⟩ := hn
      refine finish_task (hlat.progress hp) fun hd => ?_
      rw [hmode] at hd
      cases hd
    | behind =>
      obtain ⟨hb, hp, hl, hf, _⟩ := hn
      exact ⟨hb, hlat.progress hp, hlat.inEpoch hl, hf⟩
    | acked hnet hlt =>
      obtain ⟨hb, hp, hl, hf, hd⟩ := hn
      have hlen := h.acked_length hnet hd
      exact ⟨hb, hlat.progress (Progress.ack hp hf (Nat.lt_of_lt_of_le hlt hlen) _ _ _)⟩
    | catchUp hr =>
      obtain ⟨hb, hp, hl, hf⟩ := hn
      exact ⟨hb, hlat.progress hp, hlat.inEpoch hl, hf, h.sent_dedicated hmv rfl⟩
    | commit =>
      obtain ⟨rfl, hp, hl, hw⟩ := hn
      refine finish_task (hlat.progress hp) fun _ => ?_
      rw [hmv.self, Broker.highWatermark_eq rfl, hw]
      exact Nat.lt_succ_self _
    | replicaGap | replicaStore | leadershipApply | syncOlder | syncApply => trivial
    | recoverStart | recoverFetch | fetchFilter => trivial
    | replicaReady => exact ⟨hlat.genuine hn.1, hlat.arrived hn.2⟩
    | syncNewer => exact hlat.inEpoch hn.2
    | recoverAwait hnet =>
      have hrec := h.sound.message hnet
      exact fun f hf => hlat.sourced (hrec f hf)
    | recoverStore =>
      split
      · trivial
      · exact fun f hf => hlat.sourced (hn f (List.mem_cons_of_mem _ hf))
    | fetchRead hr =>
      intro f hf
      have hin := (readRecords_inLog hr f hf).mono (h.sound.brokers b).1
      exact hlat.sourced hin
    | _ => exact hn.elim

theorem sent_move (h : OneEpoch cfg leader epoch s) (hm : Move cfg s a b e)
    (hmv : Moved s a b e s') : ∀ m ∈ e.sent, m.InEpoch cfg leader epoch s' := by
  have hlat := h.later hm hmv
  intro m hmem
  have hconn : s.nextConn < s'.nextConn := hmv.nextConn_sent (List.ne_nil_of_mem hmem)
  cases hm with
  | fetch => cases List.mem_singleton.1 hmem; trivial
  | task ht hs =>
    have hn := h.sound.task ht
    cases hs with
    | contact hf he =>
      cases List.mem_singleton.1 hmem
      have hin := h.entry_inEpoch he
      refine ⟨⟨hin.leaderId, hin.leaderEpoch, ?_⟩, hconn⟩
      exact hlat.sourced (hn.2.jobs _ List.mem_cons_self)
    | catchUp hr =>
      cases List.mem_singleton.1 hmem
      obtain ⟨rfl, hp, hl, hf⟩ := hn
      exact ⟨⟨hl.leaderId, hl.leaderEpoch, hlat.sourced (inLog_fetched hr)⟩, hconn⟩
    | commit =>
      obtain ⟨_, _, rfl⟩ := List.mem_map.1 hmem
      exact hlat.inEpoch hn.2.2.1
    | promoteApply => exact hn.elim
    | replicaGap =>
      cases List.mem_singleton.1 hmem
      exact ⟨b, hlat.arrived hn.2, hlat.length b⟩
    | replicaStore =>
      cases List.mem_singleton.1 hmem
      refine ⟨b, hlat.arrived hn.2, ?_⟩
      rw [hmv.self]
    | recoverFetch => cases List.mem_singleton.1 hmem; trivial
    | fetchFilter =>
      cases List.mem_singleton.1 hmem
      exact fun f hf => hlat.sourced (hn f (List.mem_of_mem_filter hf))
    | _ => cases hmem
  | _ => cases hmem

theorem answers_move (h : OneEpoch cfg leader epoch s) (hm : Move cfg s a b e)
    (hmv : Moved s a b e s') : ∀ x ∈ e.answered, x.Committed leader s' := by
  have hlat := h.later hm hmv
  intro x hx
  cases hm with
  | task ht hs =>
    have hn := h.sound.task ht
    cases hs with
    | dispatch =>
      intro hd
      simp only at hx
      split at hx
      · obtain ⟨_, _, rfl⟩ := List.mem_map.1 hx
        cases hd
      · cases hx
    | committed hf hmin he hw =>
      obtain ⟨rfl, hp⟩ := hn
      refine finish_answers (hlat.progress hp) (fun _ => ?_) x hx
      have := hlat.watermark
      rw [Broker.highWatermark_eq he] at this
      omega
    | uncommitted hf hmode =>
      obtain ⟨rfl, hp⟩ := hn
      refine finish_answers (hlat.progress hp) (fun hd => ?_) x hx
      rw [hmode] at hd
      cases hd
    | commit =>
      obtain ⟨rfl, hp, hl, hw⟩ := hn
      refine finish_answers (hlat.progress hp) (fun _ => ?_) x hx
      rw [hmv.self, Broker.highWatermark_eq rfl, hw]
      exact Nat.lt_succ_self _
    | _ => cases hx
  | _ => cases hx

theorem step (h : OneEpoch cfg leader epoch s) (hleader : leader ∈ cfg.replicaSet)
    (hnp : ∀ candidate, a ≠ .promote candidate) (hs : Cluster.step cfg s a = some s') :
    OneEpoch cfg leader epoch s' := by
  obtain ⟨b, e, hm, hmv⟩ := step_move hs
  have hlat := h.later hm hmv
  refine ⟨h.sound.moved hmv (fun _ _ hx => hlat.broker hx) (fun _ _ _ ht => hlat.task ht)
    (fun _ hx => hlat.message hx) (h.broker_move hm hmv) (h.task_move hleader hnp hm hmv)
    (h.sent_move hm hmv), fun x hx => ?_⟩
  rw [hmv.answers] at hx
  rcases List.mem_append.1 hx with hx | hx
  · exact fun hd => Nat.lt_of_lt_of_le (h.answers x hx hd) hlat.watermark
  · exact h.answers_move hm hmv x hx

theorem start : OneEpoch cfg leader epoch (State.epochStart cfg leader epoch) where
  sound := by
    refine ⟨fun b => ⟨List.prefix_rfl, fun hb => ?_, fun l hl => ?_⟩, fun p hp => ?_,
      fun m hm => ?_⟩
    · simp [State.epochStart, hb]
    · simp only [State.epochStart] at hl
      split at hl
      · cases hl
        refine ⟨rfl, rfl, Nat.zero_le _, ?_⟩
        simpa [cfg.replicaSet_length] using cfg.min_le
      · cases hl
    · cases hp
    · cases hm
  answers := fun x hx => by cases hx

end OneEpoch

/-- **Replication safety inside one epoch.**  From empty logs and watermark 0 under a fixed leader
and epoch, on every run without promotions: every log is a prefix of the leader's; the leader's
watermark is at most its log end and `min_in_sync_replicas` brokers of the replica set hold that
many records; and every offset acknowledged to a durable produce is below it. -/
theorem single_epoch_replication (cfg : ClusterConfig) {leader : BrokerId} {epoch : Nat}
    {acts : List Action} {s : State} (hleader : leader ∈ cfg.replicaSet)
    (hnp : ∀ candidate, Action.promote candidate ∉ acts)
    (hr : run (step cfg) (State.epochStart cfg leader epoch) acts = some s) :
    (∀ b, contents (s.broker b).log <+: contents (s.broker leader).log) ∧
    ∃ l, (s.broker leader).entry = some l ∧ l.leaderId = leader ∧ l.leaderEpoch = epoch ∧
      l.highWatermark ≤ (s.broker leader).log.length ∧
      cfg.minInSyncReplicas ≤ (cfg.replicaSet.filter fun b =>
        l.highWatermark ≤ (s.broker b).log.length).length ∧
      ∀ x ∈ s.answers, x.ackMode = .durable → x.record.offset < l.highWatermark := by
  have hq : Along (step cfg) (fun _ a => ∀ candidate, a ≠ .promote candidate)
      (State.epochStart cfg leader epoch) acts :=
    Along.of_mem fun a ha candidate heq => hnp candidate (heq ▸ ha)
  have h : OneEpoch cfg leader epoch s :=
    run_invariant (fun _ _ _ hp hq hs => hp.step hleader hq hs) OneEpoch.start hq hr
  obtain ⟨l, hl⟩ := h.node_entry (cfg.replicaSet_subset hleader)
  have hin := h.entry_inEpoch hl
  refine ⟨fun b => (h.sound.brokers b).1, l, hl, hin.leaderId, hin.leaderEpoch, hin.backed.1,
    hin.backed.2, fun x hx hd => ?_⟩
  rw [← Broker.highWatermark_eq hl]
  exact h.answers x hx hd

/-- A durable produce that reaches broker 3 and not broker 1. -/
def durableRun : List Action :=
  [.produce 2 (oneRecord 7 .durable), .task 0 (.stamp [5]), .task 0 .go, .task 0 .go, .task 0 .go,
    .deliver 0, .task 1 .go, .task 1 .go, .task 0 (.receive 1), .task 0 .fail, .task 0 .go,
    .task 0 .go]

theorem single_epoch_replication_durable : ∃ s,
    run (step threeNodes) (State.epochStart threeNodes 2 4) durableRun = some s ∧
    s.answers = [⟨2, .durable, ⟨0, 5, none, [7]⟩⟩] ∧
    (∀ b, contents (s.broker b).log <+: contents (s.broker 2).log) ∧
    ∃ l, (s.broker 2).entry = some l ∧ l.highWatermark ≤ (s.broker 2).log.length ∧
      ∀ x ∈ s.answers, x.ackMode = .durable → x.record.offset < l.highWatermark := by
  refine ⟨_, rfl, rfl, ?_⟩
  obtain ⟨hp, l, hl, _, _, hw, _, hans⟩ :=
    @single_epoch_replication threeNodes 2 4 durableRun _ (by decide) (by simp [durableRun]) rfl
  exact ⟨hp, l, hl, hw, hans⟩

end SevlaMq.Cluster
