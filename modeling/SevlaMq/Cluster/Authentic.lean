import SevlaMq.Cluster.Step

/-!
# Authenticity of replication messages

`process_produce` reads the stored record back when the produce is accepted;
`replicate_to_follower` reads leader id and epoch from the registry when it contacts a follower.
A registry update may fall between the two.

* `Authentic` — a `ReplicateRecord` names its sender as leader, and its record was in the
  sender's log at its offset at a moment when the sender's entry had its epoch.
* `deposed_leader_replicates` — a run with a message that is not authentic: the leader is deposed
  between the read-back and the contact.
* `replication_messages_authentic` — every message is authentic on every run on which each
  contact finds the entry the broker had when the record was read back.
-/

set_option autoImplicit false

namespace SevlaMq.Cluster

open SevlaMq.Storage

variable {cfg : ClusterConfig}

/-- The broker's entry has epoch `epoch` and its log holds `f`. -/
def Broker.Holds (x : Broker) (epoch : Nat) (f : FetchedRecord) : Prop :=
  ∃ l r, x.entry = some l ∧ l.leaderEpoch = epoch ∧ x.log[f.offset]? = some r ∧
    fetched r f.offset = f

/-- The message `m`, sent by `sender` during the run `acts`, is authentic. -/
def Authentic (cfg : ClusterConfig) (acts : List Action) (sender : BrokerId)
    (m : ReplicateRecord) : Prop :=
  m.leaderId = sender ∧
    Once (step cfg) State.init acts fun s => (s.broker sender).Holds m.leaderEpoch m.record

/-- A follower is contacted while the entry names the broker leader of the epoch in which the
record was read back; a missing record is sent while the entry has the epoch of the first
contact. -/
def Task.contactsCurrent (b : BrokerId) (x : Broker) : Task → Bool
  | .contact r => r.followers.isEmpty ||
      x.entry.any fun l => l.leaderId = b ∧ l.leaderEpoch = r.current.origin
  | .catchUp _ l _ => epochOf x.entry = l.leaderEpoch
  | _ => true

/-- The contacts of a step are made under the entry of the read-back. -/
def ContactsCurrent (s : State) (a : Action) : Prop :=
  ∀ p ∈ stepped s a, p.2.contactsCurrent p.1 (s.broker p.1)

instance (s : State) (a : Action) : Decidable (ContactsCurrent s a) :=
  inferInstanceAs (Decidable (∀ p ∈ stepped s a, p.2.contactsCurrent p.1 (s.broker p.1)))

theorem ContactsCurrent.contact {s : State} {index : Nat} {b : BrokerId} {r : Replication}
    {l : PartitionLeadership} (h : ContactsCurrent s (.task index .go))
    (ht : s.tasks[index]? = some (b, .contact r)) (hf : r.followers ≠ [])
    (he : (s.broker b).entry = some l) : l.leaderId = b ∧ l.leaderEpoch = r.current.origin := by
  have := h _ (stepped_go ht)
  simpa [Task.contactsCurrent, he, hf] using this

theorem ContactsCurrent.catchUp {s : State} {index next : Nat} {b : BrokerId} {r : Replication}
    {l : PartitionLeadership} (h : ContactsCurrent s (.task index .go))
    (ht : s.tasks[index]? = some (b, .catchUp r l next)) :
    epochOf (s.broker b).entry = l.leaderEpoch := by
  have := h _ (stepped_go ht)
  simpa [Task.contactsCurrent] using this

/-! ## A message that is not authentic -/

/-- Broker 2 reads its record back, is deposed by the promotion of broker 1, and then contacts
broker 3 under the entry of epoch 1. -/
def deposedRun : List Action :=
  [.createTopic 1, .createTopic 2, .createTopic 3, .produce 2 (oneRecord 7 .leader),
    .task 0 (.stamp [5]), .task 0 .go, .task 0 .go, .promote 1, .task 1 .go, .task 1 .go,
    .task 1 .go, .task 1 .go, .task 1 .go, .task 1 .go, .deliver 0, .task 2 .go, .task 2 .go,
    .task 2 .go, .task 0 .go]

theorem deposed_leader_replicates : ∃ s m, run (step threeNodes) State.init deposedRun = some s ∧
    Message.replicate 12 2 3 m ∈ s.net ∧ ¬ Authentic threeNodes deposedRun 2 m :=
  ⟨_, ⟨⟨0, 5, none, [7]⟩, false, 1, 1⟩, rfl, by decide +kernel, fun h => absurd h.1 (by decide)⟩

/-! ## The invariant -/

/-- The record of a job was held by `b` in the job's epoch; a single node has nobody to
replicate to and may be without an entry. -/
def Job.Held (cfg : ClusterConfig) (acts : List Action) (b : BrokerId) (j : Job) : Prop :=
  cfg.nodes.length = 1 ∨
    Once (step cfg) State.init acts fun s => (s.broker b).Holds j.origin j.record

/-- What the tasks of broker `b` rest on; `x` is the broker's present state. -/
def Task.Held (cfg : ClusterConfig) (acts : List Action) (b : BrokerId) (x : Broker) :
    Task → Prop
  | .append _ => b ∈ cfg.nodes ∧ (cfg.nodes.length = 1 ∨ x.entry ≠ none)
  | .readBack _ _ jobs => b ∈ cfg.nodes ∧ (cfg.nodes.length = 1 ∨ x.entry ≠ none) ∧
      ∀ j ∈ jobs, j.Held cfg acts b
  | .contact r => b ∈ cfg.nodes ∧ r.followers <:+ cfg.replicaFollowers b ∧
      ∀ j ∈ r.current :: r.rest, j.Held cfg acts b
  | .awaitAck r l _ _ => b ∈ cfg.nodes ∧ r.followers <:+ cfg.replicaFollowers b ∧
      (∀ j ∈ r.current :: r.rest, j.Held cfg acts b) ∧ l.leaderId = b ∧ x.entry ≠ none
  | .catchUp r l _ => b ∈ cfg.nodes ∧ r.followers <:+ cfg.replicaFollowers b ∧
      (∀ j ∈ r.current :: r.rest, j.Held cfg acts b) ∧ l.leaderId = b ∧ x.entry ≠ none
  | .commitApply r _ => b ∈ cfg.nodes ∧ ∀ j ∈ r.current :: r.rest, j.Held cfg acts b
  | _ => True

def Message.Held (cfg : ClusterConfig) (acts : List Action) : Message → Prop
  | .replicate _ sender _ m => Authentic cfg acts sender m
  | _ => True

theorem Job.Held.later {acts : List Action} {b : BrokerId} {j : Job} (h : j.Held cfg acts b)
    (a : Action) : j.Held cfg (acts ++ [a]) b := h.imp_right (·.later [a])

theorem Message.Held.later {acts : List Action} {m : Message} (h : m.Held cfg acts)
    (a : Action) : m.Held cfg (acts ++ [a]) := by
  cases m with
  | replicate => exact ⟨h.1, h.2.later [a]⟩
  | _ => trivial

theorem Task.Held.later {acts : List Action} {b : BrokerId} {x y : Broker} {t : Task}
    (h : t.Held cfg acts b x) (a : Action) (hxy : x.entry ≠ none → y.entry ≠ none) :
    t.Held cfg (acts ++ [a]) b y := by
  cases t with
  | append => exact ⟨h.1, h.2.imp_right hxy⟩
  | readBack => exact ⟨h.1, h.2.1.imp_right hxy, fun j hj => (h.2.2 j hj).later a⟩
  | contact => exact ⟨h.1, h.2.1, fun j hj => (h.2.2 j hj).later a⟩
  | awaitAck => exact ⟨h.1, h.2.1, fun j hj => (h.2.2.1 j hj).later a, h.2.2.2.1, hxy h.2.2.2.2⟩
  | catchUp => exact ⟨h.1, h.2.1, fun j hj => (h.2.2.1 j hj).later a, h.2.2.2.1, hxy h.2.2.2.2⟩
  | commitApply => exact ⟨h.1, fun j hj => (h.2 j hj).later a⟩
  | _ => trivial

theorem Move.entry_ne_none {s : State} {a : Action} {b : BrokerId} {e : Effect}
    (hm : Move cfg s a b e) (h : (s.broker b).entry ≠ none) : e.broker.entry ≠ none := by
  obtain ⟨l, hl⟩ := Option.ne_none_iff_exists'.1 h
  obtain ⟨l', hl', _⟩ := hm.entryGrows l hl
  rw [hl']
  exact Option.some_ne_none l'

/-- The invariant of a run: what tasks and messages rest on has been there. -/
structure Provenance (cfg : ClusterConfig) (acts : List Action) (s : State) : Prop where
  reached : run (step cfg) State.init acts = some s
  sound : Sound (fun _ _ => True) (fun i t => t.Held cfg acts i (s.broker i))
    (fun m => m.Held cfg acts) s

namespace Provenance

variable {acts : List Action} {s s' : State} {a : Action} {b : BrokerId} {e : Effect}

theorem init (cfg : ClusterConfig) : Provenance cfg [] State.init where
  reached := rfl
  sound := by
    refine ⟨fun _ => trivial, fun p h => ?_, fun m h => ?_⟩
    · cases h
    · cases h

/-- A finished record hands the remaining jobs on. -/
theorem finishRecord_held {r : Replication} {x : Broker} (hb : b ∈ cfg.nodes)
    (h : ∀ j ∈ r.current :: r.rest, j.Held cfg acts b) :
    (finishRecord cfg b r).1.Held cfg acts b x := by
  unfold finishRecord
  split
  · rename_i job rest hr
    refine ⟨hb, List.suffix_refl _, fun j hj => ?_⟩
    exact h j (List.mem_cons_of_mem _ (hr ▸ hj))
  · trivial

/-- The job of a record that is read back now. -/
theorem readBack_held (h : Provenance cfg acts s) {r : Record} {offset : Nat}
    (hx : cfg.nodes.length = 1 ∨ (s.broker b).entry ≠ none)
    (hr : (s.broker b).log[offset]? = some r) :
    Job.Held cfg acts b ⟨fetched r offset, epochOf (s.broker b).entry⟩ := by
  refine hx.imp_right fun hne => ?_
  obtain ⟨l, hl⟩ := Option.ne_none_iff_exists'.1 hne
  exact .now h.reached ⟨l, r, hl, by rw [hl, epochOf_some], hr, rfl⟩

theorem task_held (h : Provenance cfg acts s) (hq : ContactsCurrent s a)
    (hm : Move cfg s a b e) : e.task.Held cfg acts b e.broker := by
  cases hm with
  | produce hb hl =>
    refine ⟨hb, hl.imp_right fun hid hnone => ?_⟩
    rw [hnone] at hid
    cases hid
  | task ht hs =>
    have hn := h.sound.task ht
    cases hs with
    | append => split <;> first | exact ⟨hn.1, hn.2, fun j hj => by cases hj⟩ | trivial
    | readBack hr =>
      refine ⟨hn.1, hn.2.1, fun j hj => ?_⟩
      rcases List.mem_append.1 hj with hj | hj
      · exact hn.2.2 j hj
      · cases List.mem_singleton.1 hj
        exact h.readBack_held hn.2.1 hr
    | dispatch => exact ⟨hn.1, List.suffix_refl _, hn.2.2⟩
    | skip hsk =>
      obtain rfl | ⟨_, _, _, rfl⟩ | ⟨_, _, rfl⟩ := hsk
      · exact ⟨hn.1, (List.tail_suffix _).trans hn.2.1, hn.2.2⟩
      · exact ⟨hn.1, (List.tail_suffix _).trans hn.2.1, hn.2.2.1⟩
      · exact ⟨hn.1, (List.tail_suffix _).trans hn.2.1, hn.2.2.1⟩
    | contact hf he =>
      have hid := (hq.contact ht (by rw [hf]; exact List.cons_ne_nil _ _) he).1
      exact ⟨hn.1, hn.2.1, hn.2.2, hid, by rw [he]; exact Option.some_ne_none _⟩
    | committed => exact finishRecord_held hn.1 hn.2.2
    | uncommitted => exact finishRecord_held hn.1 hn.2.2
    | commit => exact finishRecord_held hn.1 hn.2
    | commitRead => exact ⟨hn.1, hn.2.2⟩
    | behind => exact hn
    | acked => exact ⟨hn.1, (List.tail_suffix _).trans hn.2.1, hn.2.2.1⟩
    | catchUp => exact hn
    | recoverStore => split <;> trivial
    | _ => trivial
  | _ => trivial

theorem sent_held (h : Provenance cfg acts s) (hq : ContactsCurrent s a)
    (hm : Move cfg s a b e) : ∀ m ∈ e.sent, m.Held cfg acts := by
  intro m hmem
  cases hm with
  | fetch => cases List.mem_singleton.1 hmem; trivial
  | task ht hs =>
    have hn := h.sound.task ht
    cases hs with
    | contact hf he =>
      cases List.mem_singleton.1 hmem
      obtain ⟨hid, hep⟩ := hq.contact ht (by rw [hf]; exact List.cons_ne_nil _ _) he
      have hfol := hn.2.1.subset (hf ▸ List.mem_cons_self)
      obtain hone | honce := hn.2.2 _ List.mem_cons_self
      · exact absurd hone (cfg.length_ne_one hn.1 hfol)
      · rw [← hep] at honce
        exact ⟨hid, honce⟩
    | catchUp hr =>
      cases List.mem_singleton.1 hmem
      obtain ⟨_, _, _, hid, hne⟩ := hn
      obtain ⟨l', hl'⟩ := Option.ne_none_iff_exists'.1 hne
      have hep := hq.catchUp ht
      rw [hl', epochOf_some] at hep
      exact ⟨hid, .now h.reached ⟨l', _, hl', hep, hr, rfl⟩⟩
    | commit | promoteApply =>
      obtain ⟨_, _, rfl⟩ := List.mem_map.1 hmem
      trivial
    | replicaGap | replicaStore | recoverFetch | fetchFilter =>
      cases List.mem_singleton.1 hmem; trivial
    | _ => cases hmem
  | _ => cases hmem

theorem step (h : Provenance cfg acts s) (hq : ContactsCurrent s a)
    (hs : Cluster.step cfg s a = some s') : Provenance cfg (acts ++ [a]) s' := by
  obtain ⟨b, e, hm, hmv⟩ := step_move hs
  refine ⟨run_snoc h.reached hs, ?_⟩
  refine h.sound.moved hmv (fun _ _ _ => trivial) (fun i t _ ht => ht.later a fun hne => ?_)
    (fun m hx => hx.later a) trivial ?_ fun m hx => (h.sent_held hq hm m hx).later a
  · by_cases hi : i = b
    · subst hi; rw [hmv.self]; exact hm.entry_ne_none hne
    · rw [hmv.other i hi]; exact hne
  · rw [hmv.self]
    exact (h.task_held hq hm).later a id

end Provenance

/-- **Replication messages are authentic** on every run whose contacts are made under the entry
of the read-back. -/
theorem replication_messages_authentic (cfg : ClusterConfig) {acts : List Action} {s : State}
    (hq : Along (step cfg) ContactsCurrent State.init acts)
    (hr : run (step cfg) State.init acts = some s) {conn : Nat} {sender dst : BrokerId}
    {m : ReplicateRecord} (hm : Message.replicate conn sender dst m ∈ s.net) :
    Authentic cfg acts sender m := by
  have h := run_history (fun _ _ _ _ hp hq hs => Provenance.step hp hq hs)
    (Provenance.init cfg) hq hr
  exact h.sound.net _ hm

theorem replication_messages_authentic_contact : ∃ s m,
    run (step threeNodes) State.init (deposedRun.take 7 ++ [.task 0 .go]) = some s ∧
    Message.replicate 3 2 3 m ∈ s.net ∧
    Authentic threeNodes (deposedRun.take 7 ++ [.task 0 .go]) 2 m := by
  refine ⟨_, ⟨⟨0, 5, none, [7]⟩, false, 2, 0⟩, rfl, ?_, ?_⟩
  · decide +kernel
  · refine @replication_messages_authentic threeNodes _ _ ?_ rfl 3 2 3 _ ?_
    · decide +kernel
    · decide +kernel

end SevlaMq.Cluster
