import SevlaMq.Cluster.Step

/-!
# Epochs and their leaders

A leader epoch comes into being in one place, the accepted `apply` of `promote_leader` on the
controller; from there the pair (epoch, leader) spreads through registry entries,
`ApplyLeadership` and `ReplicateRecord` messages, controller syncs and the handlers in progress.

* `epochs` — the leadership every epoch started with: the deterministic one for epoch `0`, then
  the elections in order.  Epoch `e` is element `e` of the list.
* `Elections` — the invariant: the controller's entry is at the newest epoch, and every pair that
  is stored, in flight or held by a task is the one its epoch started with.
* `one_leader_per_epoch` — at most one leader per epoch across the cluster, on every run.
-/

set_option autoImplicit false

namespace SevlaMq.Cluster

open SevlaMq.Storage

variable {cfg : ClusterConfig}

/-! ## Epoch–leader pairs -/

/-- The leaderships the epochs `0, 1, …` started with. -/
def epochs (cfg : ClusterConfig) (s : State) : List PartitionLeadership :=
  initialLeadership cfg :: s.elected

/-- Epoch `epoch` started with leader `leader`. -/
def Names (es : List PartitionLeadership) (epoch : Nat) (leader : BrokerId) : Prop :=
  ∃ l, es[epoch]? = some l ∧ l.leaderId = leader

theorem Names.unique {es : List PartitionLeadership} {epoch : Nat} {leader leader' : BrokerId}
    (h : Names es epoch leader) (h' : Names es epoch leader') : leader = leader' := by
  obtain ⟨l, hl, rfl⟩ := h
  obtain ⟨l', hl', rfl⟩ := h'
  rw [hl] at hl'
  cases hl'; rfl

theorem Names.append {es : List PartitionLeadership} {epoch : Nat} {leader : BrokerId}
    (h : Names es epoch leader) (es' : List PartitionLeadership) :
    Names (es ++ es') epoch leader := by
  obtain ⟨l, hl, hid⟩ := h
  obtain ⟨hlt, _⟩ := List.getElem?_eq_some_iff.1 hl
  exact ⟨l, by rw [List.getElem?_append_left hlt]; exact hl, hid⟩

theorem Names.lt {es : List PartitionLeadership} {epoch : Nat} {leader : BrokerId}
    (h : Names es epoch leader) : epoch < es.length := by
  obtain ⟨l, hl, _⟩ := h
  exact (List.getElem?_eq_some_iff.1 hl).1

/-- The pair in a registry entry or a leadership message. -/
def PartitionLeadership.Named (es : List PartitionLeadership) (l : PartitionLeadership) : Prop :=
  Names es l.leaderEpoch l.leaderId

def ReplicateRecord.Named (es : List PartitionLeadership) (m : ReplicateRecord) : Prop :=
  Names es m.leaderEpoch m.leaderId

/-! ## The invariant -/

/-- A broker's entry carries a pair its epoch started with. -/
def Broker.Named (es : List PartitionLeadership) (x : Broker) : Prop :=
  ∀ l, x.entry = some l → l.Named es

def Message.Named (es : List PartitionLeadership) : Message → Prop
  | .applyLeadership _ l => l.Named es
  | .replicate _ _ _ m => m.Named es
  | _ => True

/-- A promotion in progress runs on the controller, for a cluster node, from an epoch that
exists. -/
structure Promoting (cfg : ClusterConfig) (es : List PartitionLeadership) (b candidate : BrokerId)
    (cur : PartitionLeadership) : Prop where
  controller : b = cfg.controller
  candidate : candidate ∈ cfg.nodes
  current : cur.leaderEpoch < es.length

/-- The pairs a task holds; a promotion creates its pair only in its last step. -/
def Task.Named (cfg : ClusterConfig) (es : List PartitionLeadership) (b : BrokerId) : Task → Prop
  | .awaitAck _ l _ _ => l.Named es
  | .catchUp _ l _ => l.Named es
  | .commitApply _ l => l.Named es
  | .replicaTail _ m _ => m.Named es
  | .replicaTruncate _ m _ => m.Named es
  | .replicaAdopt _ m _ _ => m.Named es
  | .replicaExpected _ m => m.Named es
  | .replicaStore _ m => m.Named es
  | .leadershipTail l _ => l.Named es
  | .leadershipTruncate l _ => l.Named es
  | .leadershipApply l _ _ => l.Named es
  | .promoteQuery candidate cur _ _ => Promoting cfg es b candidate cur
  | .promoteTail l cur => Promoting cfg es b l.leaderId cur ∧ l.leaderEpoch = cur.leaderEpoch + 1
  | .promoteTruncate l cur =>
    Promoting cfg es b l.leaderId cur ∧ l.leaderEpoch = cur.leaderEpoch + 1
  | .promoteApply l cur _ =>
    Promoting cfg es b l.leaderId cur ∧ l.leaderEpoch = cur.leaderEpoch + 1
  | .syncCompare l => l.Named es
  | .syncApply l => l.Named es
  | _ => True

theorem Promoting.append {es : List PartitionLeadership} {b candidate : BrokerId}
    {cur : PartitionLeadership} (h : Promoting cfg es b candidate cur)
    (es' : List PartitionLeadership) : Promoting cfg (es ++ es') b candidate cur :=
  ⟨h.controller, h.candidate, by rw [List.length_append]; have := h.current; omega⟩

theorem Broker.Named.append {es : List PartitionLeadership} {x : Broker} (h : x.Named es)
    (es' : List PartitionLeadership) : x.Named (es ++ es') := fun l hl => (h l hl).append es'

theorem Message.Named.append {es : List PartitionLeadership} {m : Message} (h : m.Named es)
    (es' : List PartitionLeadership) : m.Named (es ++ es') := by
  cases m with
  | applyLeadership => exact Names.append h es'
  | replicate => exact Names.append h es'
  | _ => trivial

theorem Task.Named.append {es : List PartitionLeadership} {b : BrokerId} {t : Task}
    (h : t.Named cfg es b) (es' : List PartitionLeadership) : t.Named cfg (es ++ es') b := by
  cases t with
  | promoteQuery => exact Promoting.append h es'
  | promoteTail => exact ⟨h.1.append es', h.2⟩
  | promoteTruncate => exact ⟨h.1.append es', h.2⟩
  | promoteApply => exact ⟨h.1.append es', h.2⟩
  | done | append | readBack | contact => trivial
  | recoverStart | recoverFetch | recoverAwait | recoverStore | fetchRead | fetchFilter => trivial
  | _ => exact Names.append h es'

/-- **The election invariant.** -/
structure Elections (cfg : ClusterConfig) (s : State) : Prop where
  /-- Epochs are numbered without gaps, and their leaders are nodes. -/
  numbered : ∀ (i : Nat) (l : PartitionLeadership), (epochs cfg s)[i]? = some l →
    l.leaderEpoch = i ∧ l.leaderId ∈ cfg.nodes
  /-- The controller is at the newest epoch. -/
  newest : epochOf (s.broker cfg.controller).entry = s.elected.length
  sound : Sound (fun _ x => x.Named (epochs cfg s)) (fun b t => t.Named cfg (epochs cfg s) b)
    (fun m => m.Named (epochs cfg s)) s

theorem Elections.init (cfg : ClusterConfig) : Elections cfg State.init where
  numbered := fun i l h => by
    cases i with
    | zero => cases h; exact ⟨rfl, cfg.deterministicLeader_mem⟩
    | succ i => cases h
  newest := rfl
  sound := by
    refine ⟨fun b l h => ?_, fun p h => ?_, fun m h => ?_⟩
    · cases h
    · cases h
    · cases h

namespace Elections

variable {s s' : State}

theorem named_initial (s : State) : (initialLeadership cfg).Named (epochs cfg s) :=
  ⟨initialLeadership cfg, rfl, rfl⟩

theorem named_entry (h : Elections cfg s) {b : BrokerId} {l : PartitionLeadership}
    (he : (s.broker b).entry = some l) : l.Named (epochs cfg s) := h.sound.brokers b l he

/-- The leaders of the epochs are nodes. -/
theorem names_mem (h : Elections cfg s) {epoch : Nat} {leader : BrokerId}
    (hn : Names (epochs cfg s) epoch leader) : leader ∈ cfg.nodes := by
  obtain ⟨l, hl, rfl⟩ := hn
  exact (h.numbered _ l hl).2

/-- The only node leads epoch `0`. -/
theorem names_sole {b : BrokerId} (hsole : cfg.nodes = [b]) (s : State) :
    Names (epochs cfg s) 0 b := by
  have hmem := cfg.deterministicLeader_mem
  rw [hsole] at hmem
  exact ⟨initialLeadership cfg, rfl, List.mem_singleton.1 hmem⟩

theorem named_getD (h : Elections cfg s) (b : BrokerId) :
    ((s.broker b).entry.getD (initialLeadership cfg)).Named (epochs cfg s) := by
  cases he : (s.broker b).entry with
  | none => exact named_initial s
  | some l => exact h.named_entry he

/-- No pair is newer than the controller's entry. -/
theorem named_le (h : Elections cfg s) {l : PartitionLeadership} (hl : l.Named (epochs cfg s)) :
    l.leaderEpoch ≤ epochOf (s.broker cfg.controller).entry := by
  have h1 := Names.lt hl
  rw [h.newest]
  simp only [epochs, List.length_cons] at h1
  omega

end Elections

/-! ## Registry updates -/

/-- An accepted update never lowers the epoch. -/
theorem epochOf_le_of_apply {current : Option PartitionLeadership} {l e : PartitionLeadership}
    (h : applyEntry cfg current l = .ok e) : epochOf current ≤ l.leaderEpoch := by
  obtain ⟨_, _, hcur⟩ := applyEntry_ok h
  cases current with
  | none => exact Nat.zero_le _
  | some c =>
    have := hcur c rfl
    rw [epochOf_some]
    omega

theorem epochOf_getD (current : Option PartitionLeadership) :
    epochOf (some (current.getD (initialLeadership cfg))) = epochOf current := by
  cases current <;> rfl

theorem epochs_moved {s s' : State} {a : Action} {b : BrokerId} {e : Effect} (h : Moved s a b e s') :
    epochs cfg s' = epochs cfg s ++ e.elected := by
  rw [epochs, h.elected]; rfl

/-- An epoch keeps the leadership it started with. -/
theorem epochs_kept {s s' : State} {a : Action} {b : BrokerId} {e : Effect} (h : Moved s a b e s')
    {epoch : Nat} {l : PartitionLeadership} (hl : (epochs cfg s)[epoch]? = some l) :
    (epochs cfg s')[epoch]? = some l := by
  rw [epochs_moved h, List.getElem?_append_left (List.getElem?_eq_some_iff.1 hl).1]
  exact hl

/-- What a move does to the entry of its broker. -/
inductive EntryChange (cfg : ClusterConfig) (s : State) (b : BrokerId) (e : Effect) : Prop
  | keep (hk : e.broker.entry = (s.broker b).entry) (hel : e.elected = [])
  | ensure (hk : e.broker.entry = some ((s.broker b).entry.getD (initialLeadership cfg)))
      (hel : e.elected = [])
  | spread {l : PartitionLeadership} (ha : applyEntry cfg (s.broker b).entry l = .ok l)
      (hn : l.Named (epochs cfg s)) (hk : e.broker.entry = some l) (hel : e.elected = [])
  | elect {l cur : PartitionLeadership} (ha : applyEntry cfg (s.broker b).entry l = .ok l)
      (hp : Promoting cfg (epochs cfg s) b l.leaderId cur)
      (hl : l.leaderEpoch = cur.leaderEpoch + 1) (hk : e.broker.entry = some l)
      (hel : e.elected = if epochOf (s.broker b).entry < l.leaderEpoch then [l] else [])

namespace Elections

variable {s s' : State} {a : Action} {b : BrokerId} {e : Effect}

/-- An entry changes by `ensure_topic`, by a pair already known, or by a promotion. -/
theorem entryChange (h : Elections cfg s) (hm : Move cfg s a b e) : EntryChange cfg s b e := by
  cases hm with
  | createTopic => exact .ensure rfl rfl
  | task ht hs =>
    have hn := h.sound.task ht
    cases hs with
    | commit ha => exact .spread ha hn rfl rfl
    | replicaAdopt ha => exact .spread ha hn rfl rfl
    | leadershipApply ha => exact .spread ha hn rfl rfl
    | syncApply ha => exact .spread ha hn rfl rfl
    | promoteApply ha => exact .elect ha hn.1 hn.2 rfl rfl
    | syncNewer => exact .ensure rfl rfl
    | syncOlder => exact .ensure rfl rfl
    | _ => exact .keep rfl rfl
  | _ => exact .keep rfl rfl

/-- A promotion's pair is known once it is applied: either it founds the next epoch, or the
epoch exists already with the same leader. -/
theorem elected_named (h : Elections cfg s) {l cur : PartitionLeadership}
    (ha : applyEntry cfg (s.broker b).entry l = .ok l)
    (hp : Promoting cfg (epochs cfg s) b l.leaderId cur)
    (hl : l.leaderEpoch = cur.leaderEpoch + 1) :
    l.Named (epochs cfg s ++
      if epochOf (s.broker b).entry < l.leaderEpoch then [l] else []) := by
  have hnew := h.newest
  have hcur := hp.current
  rw [← hp.controller] at hnew
  have hlen : (epochs cfg s).length = s.elected.length + 1 := rfl
  split
  · rename_i hlt
    refine ⟨l, ?_, rfl⟩
    have hidx : l.leaderEpoch = (epochs cfg s).length := by omega
    rw [hidx, List.getElem?_append_right (Nat.le_refl _), Nat.sub_self]
    rfl
  · rename_i hlt
    rw [List.append_nil]
    have hle := epochOf_le_of_apply ha
    obtain ⟨_, _, hcurrent⟩ := applyEntry_ok ha
    cases he : (s.broker b).entry with
    | none => rw [he, epochOf_none] at hlt; omega
    | some c =>
      have hc := h.named_entry he
      have hsame := hcurrent c he
      rw [he, epochOf_some] at hlt
      obtain hlt' | ⟨heq, hid, _⟩ := hsame
      · omega
      · unfold PartitionLeadership.Named at hc ⊢
        rw [← heq, ← hid]
        exact hc

/-- The continuation of a move holds known pairs only. -/
theorem task_named (h : Elections cfg s) (hm : Move cfg s a b e) :
    e.task.Named cfg (epochs cfg s) b := by
  cases hm with
  | promote he hc =>
    have hle := h.named_le (h.named_entry he)
    rw [h.newest] at hle
    exact ⟨rfl, cfg.replicaSet_subset hc, Nat.lt_succ_of_le hle⟩
  | sync he => exact h.named_entry he
  | leadershipNewer hn => exact h.sound.message hn
  | leadershipOlder hn => exact h.sound.message hn
  | replicateNewer hn => exact h.sound.message hn
  | replicateSame hn => exact h.sound.message hn
  | task ht hs =>
    have hn := h.sound.task ht
    cases hs with
    | append => split <;> trivial
    | contact hf he => exact h.named_entry he
    | committed => unfold finishRecord; split <;> trivial
    | uncommitted => unfold finishRecord; split <;> trivial
    | commit => unfold finishRecord; split <;> trivial
    | commitRead hf hmin he => exact (h.named_entry he : Names _ _ _)
    | recoverStore => split <;> trivial
    | promoteSelf => exact ⟨hn, rfl⟩
    | promoteOther => exact ⟨hn, rfl⟩
    | behind | catchUp | replicaLonger | replicaShorter | replicaTruncate | replicaAdopt => exact hn
    | replicaReady | leadershipLonger | leadershipShorter | leadershipTruncate => exact hn
    | promoteAsk | promoteMiss | promoteLonger | promoteShorter | promoteTruncate => exact hn
    | syncNewer => exact hn
    | _ => trivial
  | _ => trivial

/-- The messages a move sends carry pairs known after it. -/
theorem sent_named (h : Elections cfg s) (hm : Move cfg s a b e) :
    ∀ m ∈ e.sent, m.Named (epochs cfg s ++ e.elected) := by
  intro m hmem
  cases hm with
  | fetch => cases List.mem_singleton.1 hmem; trivial
  | task ht hs =>
    have hn := h.sound.task ht
    cases hs with
    | contact hf he =>
      cases List.mem_singleton.1 hmem
      exact Names.append (h.named_entry he) _
    | catchUp => cases List.mem_singleton.1 hmem; exact Names.append hn _
    | commit =>
      obtain ⟨_, _, rfl⟩ := List.mem_map.1 hmem
      exact Names.append hn _
    | promoteApply ha =>
      obtain ⟨_, _, rfl⟩ := List.mem_map.1 hmem
      exact h.elected_named ha hn.1 hn.2
    | replicaGap | replicaStore | recoverFetch | fetchFilter =>
      cases List.mem_singleton.1 hmem; trivial
    | _ => cases hmem
  | _ => cases hmem

/-- The entry a move leaves behind carries a pair known after it. -/
theorem broker_named (h : Elections cfg s) (hm : Move cfg s a b e) :
    e.broker.Named (epochs cfg s ++ e.elected) := by
  intro l hl
  cases h.entryChange hm with
  | keep hk => exact Names.append (h.named_entry (hk ▸ hl)) _
  | ensure hk =>
    rw [hk] at hl
    cases hl; exact Names.append (h.named_getD b) _
  | spread ha hn hk =>
    rw [hk] at hl
    cases hl; exact Names.append hn _
  | elect ha hp hle hk hel =>
    rw [hk] at hl
    cases hl; rw [hel]; exact h.elected_named ha hp hle

/-- The numbering continues with the elected leadership. -/
theorem numbered_moved (h : Elections cfg s) (hm : Move cfg s a b e) (i : Nat)
    (l : PartitionLeadership) (hi : (epochs cfg s ++ e.elected)[i]? = some l) :
    l.leaderEpoch = i ∧ l.leaderId ∈ cfg.nodes := by
  rcases Nat.lt_or_ge i (epochs cfg s).length with hlt | hge
  · rw [List.getElem?_append_left hlt] at hi
    exact h.numbered i l hi
  · have hnil : e.elected = [] → l.leaderEpoch = i ∧ l.leaderId ∈ cfg.nodes := fun hel => by
      rw [hel, List.append_nil, List.getElem?_eq_none hge] at hi
      cases hi
    cases h.entryChange hm with
    | keep _ hel => exact hnil hel
    | ensure _ hel => exact hnil hel
    | spread _ _ _ hel => exact hnil hel
    | elect ha hp hle hk hel =>
      split at hel
      · have hnew := h.newest
        have hcur := hp.current
        rw [← hp.controller] at hnew
        have hlen : (epochs cfg s).length = s.elected.length + 1 := rfl
        rw [hel, List.getElem?_append_right hge, List.getElem?_singleton] at hi
        split at hi
        · cases hi; exact ⟨by omega, hp.candidate⟩
        · cases hi
      · exact hnil hel

/-- The controller stays at the newest epoch. -/
theorem newest_moved (h : Elections cfg s) (hm : Move cfg s a b e) (hs : Moved s a b e s') :
    epochOf (s'.broker cfg.controller).entry = s'.elected.length := by
  have hnew := h.newest
  rw [hs.elected, List.length_append]
  by_cases hc : cfg.controller = b
  · rw [hc] at hnew ⊢
    rw [hs.self]
    cases h.entryChange hm with
    | keep hk hel => rw [hk, hel]; exact hnew
    | ensure hk hel => rw [hk, hel, epochOf_getD]; exact hnew
    | spread ha hn hk hel =>
      have h1 := h.named_le hn
      have h2 := epochOf_le_of_apply ha
      rw [hc] at h1
      rw [hk, hel]
      simp only [epochOf_some, List.length_nil] at h1 h2 hnew ⊢
      omega
    | elect ha hp hle hk hel =>
      have h2 := epochOf_le_of_apply ha
      have hcur := hp.current
      have hlen : (epochs cfg s).length = s.elected.length + 1 := rfl
      rw [hk, hel]
      split
      · rename_i hlt
        simp only [epochOf_some, List.length_singleton] at hnew h2 hlt ⊢
        omega
      · rename_i hlt
        simp only [epochOf_some, List.length_nil] at hnew h2 hlt ⊢
        omega
  · rw [hs.other _ hc, hnew]
    cases h.entryChange hm with
    | keep _ hel => rw [hel]; rfl
    | ensure _ hel => rw [hel]; rfl
    | spread _ _ _ hel => rw [hel]; rfl
    | elect _ hp => exact absurd hp.controller.symm hc

theorem moved (h : Elections cfg s) (hm : Move cfg s a b e) (hmv : Moved s a b e s') :
    Elections cfg s' := by
  have heq : epochs cfg s' = epochs cfg s ++ e.elected := epochs_moved hmv
  refine ⟨fun i l hi => h.numbered_moved hm i l (heq ▸ hi), h.newest_moved hm hmv, ?_⟩
  rw [heq]
  exact h.sound.moved hmv (fun _ _ hx => hx.append _) (fun _ _ _ ht => ht.append _)
    (fun _ hx => hx.append _) (h.broker_named hm) ((h.task_named hm).append _) (h.sent_named hm)

theorem step (h : Elections cfg s) (hs : Cluster.step cfg s a = some s') : Elections cfg s' := by
  obtain ⟨b, e, hm, hmv⟩ := step_move hs
  exact h.moved hm hmv

theorem of_run {acts : List Action} (h : Elections cfg s)
    (hr : run (Cluster.step cfg) s acts = some s') : Elections cfg s' :=
  run_invariant (fun _ _ _ hp _ hs => hp.step hs) h (Along.of_forall fun _ _ => trivial) hr

end Elections

/-! ## One leader per epoch -/

/-- A registry entry or a message in flight carries the pair. -/
inductive Carries (s : State) (epoch : Nat) (leader : BrokerId) : Prop
  | entry {b : BrokerId} {l : PartitionLeadership} (h : (s.broker b).entry = some l)
      (he : l.leaderEpoch = epoch) (hl : l.leaderId = leader)
  | applyLeadership {dst : BrokerId} {l : PartitionLeadership}
      (h : Message.applyLeadership dst l ∈ s.net) (he : l.leaderEpoch = epoch)
      (hl : l.leaderId = leader)
  | replicate {conn : Nat} {sender dst : BrokerId} {m : ReplicateRecord}
      (h : Message.replicate conn sender dst m ∈ s.net) (he : m.leaderEpoch = epoch)
      (hl : m.leaderId = leader)

theorem Elections.carries {s : State} (h : Elections cfg s) {epoch : Nat} {leader : BrokerId}
    (hc : Carries s epoch leader) : Names (epochs cfg s) epoch leader := by
  cases hc with
  | entry hb he hl => subst he hl; exact h.named_entry hb
  | applyLeadership hm he hl => subst he hl; exact h.sound.net _ hm
  | replicate hm he hl => subst he hl; exact h.sound.net _ hm

/-- **At most one leader per epoch.**  On every run of the cluster, two entries or messages with
the same epoch name the same leader, and it is a cluster node. -/
theorem one_leader_per_epoch (cfg : ClusterConfig) {acts : List Action} {s : State}
    (hr : run (step cfg) State.init acts = some s) {epoch : Nat} {leader leader' : BrokerId}
    (h : Carries s epoch leader) (h' : Carries s epoch leader') :
    leader = leader' ∧ leader ∈ cfg.nodes := by
  have hel := (Elections.init cfg).of_run hr
  have hn := hel.carries h
  refine ⟨hn.unique (hel.carries h'), ?_⟩
  obtain ⟨l, hl, rfl⟩ := hn
  exact (hel.numbered epoch l hl).2

/-- Two promotions of partition 1 run at the same time; the first to apply founds epoch 1. -/
def racingPromotions : List Action :=
  [.createTopic 1, .createTopic 2, .promote 3, .promote 2, .task 0 .go, .task 1 .go, .task 0 .go,
    .task 1 .go, .task 0 .go, .task 1 .go, .task 0 .go, .task 1 .go, .task 1 .go, .task 0 .go]

theorem one_leader_per_epoch_racing : ∃ s,
    run (step threeNodes) State.init racingPromotions = some s ∧ Carries s 1 2 ∧
    (2 : BrokerId) ∈ threeNodes.nodes := by
  refine ⟨_, rfl, @Carries.entry _ _ _ 1 ⟨1, 2, 1, 0⟩ rfl rfl rfl, ?_⟩
  refine (@one_leader_per_epoch threeNodes racingPromotions _ rfl 1 2 2 ?_ ?_).2
  · exact @Carries.entry _ _ _ 1 ⟨1, 2, 1, 0⟩ rfl rfl rfl
  · refine @Carries.applyLeadership _ _ _ 3 ⟨1, 2, 1, 0⟩ ?_ rfl rfl
    decide +kernel

end SevlaMq.Cluster
