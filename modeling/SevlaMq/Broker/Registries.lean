import Mathlib.Data.List.Dedup
import SevlaMq.Broker.Topics
import SevlaMq.Cluster.Contents
import SevlaMq.Group.Assignment

/-!
# The registries of one broker

A topic comes into being on four paths: at startup, by `CreateTopic`, by the auto-creation inside
an append or a read, and by `sync_controller_metadata`.  Only the first two tell all three
registries about it: an auto-created topic has no leadership entries, and the group coordinator is
not told the partition count of a topic that was taken over from the controller.

* `Agree` — the registries agree on every topic of the storage worker.
* `auto_created_topic_has_no_leadership`, `synced_topic_is_miscounted` — two ways to disagree.
* `KeepsRegistries` — the condition on a request; `Agreeing` — the invariant.
* `registries_agree` — the registries agree in every state of a run within the condition, and on a
  single broker every durable produce that is stored is acknowledged and visible.
-/

set_option autoImplicit false

namespace SevlaMq.Broker

open SevlaMq.Storage SevlaMq.Cluster

/-! ## Agreement -/

/-- For every topic of the storage worker: the open logs are those of its partitions, each of them
has a leadership entry, and the group coordinator knows their number. -/
structure Agree (w : Worker) (entries : Entries) (groups : Group.Coordinator) : Prop where
  logs : ∀ t n, w.topics t = some n → ∀ p, (w.logs t p).isSome = true ↔ p < n
  entries : ∀ t n, w.topics t = some n → ∀ p < n, (entries t p).isSome = true
  groups : ∀ t n, w.topics t = some n → groups.partitionCount t = n

def Node.Agree (s : Node) : Prop := Broker.Agree s.worker s.entries s.groups

/-! ## What a storage command does to the topics -/

section Worker

variable {cfg : Settings} {files : Files} {w w' : Worker} {t : String} {n : Nat}

/-- No topic was added, and the open logs of the topics are the same. -/
structure Worker.Kept (w w' : Worker) : Prop where
  topics : w'.topics = w.topics
  logs : ∀ t n, w.topics t = some n → ∀ p, (w'.logs t p).isSome = (w.logs t p).isSome

/-- The topic `t` was added with `n` partitions. -/
structure Worker.Added (w w' : Worker) (t : String) (n : Nat) : Prop where
  fresh : w.topics t = none
  topics : ∀ x, w'.topics x = if x = t then some n else w.topics x
  others : ∀ x, x ≠ t → ∀ p, (w'.logs x p).isSome = (w.logs x p).isSome
  own : ∀ p, (w'.logs t p).isSome = true ↔ (w.logs t p).isSome = true ∨ p < n

namespace Worker

theorem Kept.refl (w : Worker) : Kept w w := ⟨rfl, fun _ _ _ _ => rfl⟩

theorem insertLog_self (p : Nat) (log : RecordLog) : (w.insertLog t p log).logs t p = some log :=
  if_pos ⟨rfl, rfl⟩

theorem insertLog_other {x : String} (p : Nat) (log : RecordLog) (hx : x ≠ t) (q : Nat) :
    (w.insertLog t p log).logs x q = w.logs x q :=
  if_neg fun h => hx h.1

/-- A log that is replaced. -/
theorem insertLog_kept {p : Nat} {log : RecordLog} (h : w.logs t p = some log) (log' : RecordLog) :
    Kept w (w.insertLog t p log') := by
  refine ⟨rfl, fun x m _ q => ?_⟩
  simp only [insertLog]
  split
  · rename_i heq
    rw [heq.1, heq.2, h]
    rfl
  · rfl

/-- What opening the partitions of a topic leaves. -/
theorem openPartitions_spec : ∀ {ps : List Nat} {w w' : Worker} {res : Except StorageError Unit},
    openPartitions files t ps w = (res, w') → w'.topics = w.topics ∧
      (∀ x, x ≠ t → ∀ p, (w'.logs x p).isSome = (w.logs x p).isSome) ∧
      (res = .ok () → ∀ p, (w'.logs t p).isSome = true ↔ (w.logs t p).isSome = true ∨ p ∈ ps)
  | [], w, w', res, h => by
    cases h
    exact ⟨rfl, fun _ _ _ => rfl, fun _ p => by simp⟩
  | q :: ps, w, w', res, h => by
    unfold openPartitions at h
    split at h
    · rename_i log hlog
      obtain ⟨htopics, hothers, hown⟩ := openPartitions_spec h
      refine ⟨htopics, hothers, fun hok p => ?_⟩
      rw [hown hok p, List.mem_cons]
      constructor
      · rintro (h | h)
        · exact Or.inl h
        · exact Or.inr (Or.inr h)
      · rintro (h | rfl | h)
        · exact Or.inl h
        · exact Or.inl (by rw [hlog]; rfl)
        · exact Or.inr h
    · split at h
      · cases h
        exact ⟨rfl, fun _ _ _ => rfl, fun hok => by cases hok⟩
      · rename_i log hopen
        obtain ⟨htopics, hothers, hown⟩ := openPartitions_spec h
        refine ⟨htopics, fun x hx p => ?_, fun hok p => ?_⟩
        · rw [hothers x hx p, insertLog_other _ _ hx]
        · rw [hown hok p, List.mem_cons]
          by_cases hp : p = q
          · simp [insertLog, hp]
          · simp [insertLog, hp]

/-- **`create_topic`** adds the topic, or leaves the topics alone. -/
theorem createTopic_spec {res : Except StorageError Nat} (h : createTopic files w t n = (res, w')) :
    (∃ e, res = .error e ∧ Kept w w') ∨ (res = .ok n ∧ Added w w' t n) := by
  unfold createTopic at h
  split at h
  · cases h
    exact Or.inl ⟨_, rfl, Kept.refl w⟩
  split at h
  · cases h
    exact Or.inl ⟨_, rfl, Kept.refl w⟩
  rename_i hfresh
  have hnone : w.topics t = none := by simpa using hfresh
  -- the logs opened before a failure belong to a topic the worker does not know
  have hkept : ∀ {w₁ : Worker}, w₁.topics = w.topics →
      (∀ x, x ≠ t → ∀ p, (w₁.logs x p).isSome = (w.logs x p).isSome) → Kept w w₁ := by
    intro w₁ htopics hothers
    refine ⟨htopics, fun x m hx p => hothers x ?_ p⟩
    rintro rfl
    rw [hnone] at hx
    cases hx
  split at h
  · rename_i e w₁ hopen
    cases h
    obtain ⟨htopics, hothers, _⟩ := openPartitions_spec hopen
    exact Or.inl ⟨_, rfl, hkept htopics hothers⟩
  · rename_i w₁ hopen
    obtain ⟨htopics, hothers, hown⟩ := openPartitions_spec hopen
    split at h
    · cases h
      exact Or.inl ⟨_, rfl, hkept htopics hothers⟩
    · cases h
      refine Or.inr ⟨rfl, hnone, fun x => ?_, hothers, fun p => ?_⟩
      · simp only [insertTopic, htopics]
      · have := hown rfl p
        rwa [List.mem_range] at this

end Worker

/-! ## Agreement across storage commands -/

variable {entries entries' : Entries} {groups groups' : Group.Coordinator}

/-- A topic that is added with `n` partitions fits what the registries already have. -/
structure Expected (w : Worker) (entries : Entries) (groups : Group.Coordinator) (t : String)
    (n : Nat) : Prop where
  clear : ∀ p, (w.logs t p).isSome = true → p < n
  entries : ∀ p < n, (entries t p).isSome = true
  groups : groups.partitionCount t = n

namespace Agree

theorem kept (h : Agree w entries groups) (hk : w.Kept w') : Agree w' entries groups where
  logs := fun t n ht p => by
    rw [hk.topics] at ht
    rw [hk.logs t n ht p]
    exact h.logs t n ht p
  entries := fun t n ht => by
    rw [hk.topics] at ht
    exact h.entries t n ht
  groups := fun t n ht => by
    rw [hk.topics] at ht
    exact h.groups t n ht

theorem added (h : Agree w entries groups) (ha : w.Added w' t n) (he : Expected w entries groups t n) :
    Agree w' entries groups where
  logs := fun x m hx p => by
    rw [ha.topics] at hx
    split at hx
    · rename_i heq
      cases hx
      subst heq
      rw [ha.own p]
      exact ⟨fun hp => hp.elim (he.clear p) id, Or.inr⟩
    · rename_i hne
      rw [ha.others x hne p]
      exact h.logs x m hx p
  entries := fun x m hx => by
    rw [ha.topics] at hx
    split at hx
    · rename_i heq
      cases hx
      subst heq
      exact he.entries
    · exact h.entries x m hx
  groups := fun x m hx => by
    rw [ha.topics] at hx
    split at hx
    · rename_i heq
      cases hx
      subst heq
      exact he.groups
    · exact h.groups x m hx

/-- The leadership registry only gains entries. -/
theorem registered (h : Agree w entries groups)
    (he : ∀ t p, (entries t p).isSome = true → (entries' t p).isSome = true) :
    Agree w entries' groups :=
  ⟨h.logs, fun t n ht p hp => he t p (h.entries t n ht p hp), h.groups⟩

/-- The coordinator keeps the counts of the topics. -/
theorem regrouped (h : Agree w entries groups)
    (hg : ∀ t n, w.topics t = some n → groups'.partitionCount t = groups.partitionCount t) :
    Agree w entries groups' :=
  ⟨h.logs, h.entries, fun t n ht => (hg t n ht).trans (h.groups t n ht)⟩

end Agree

/-- A topic that a request would create by itself fits the registries. -/
def Ready (cfg : Settings) (w : Worker) (entries : Entries) (groups : Group.Coordinator)
    (t : String) : Prop :=
  w.topics t = none → cfg.autoCreateTopics = true →
    Expected w entries groups t cfg.defaultPartitionCount

theorem ready_of_known (h : w.topics t = some n) : Ready cfg w entries groups t := by
  intro hnone
  rw [h] at hnone
  cases hnone

namespace Worker

theorem ensureTopic_known (h : w.topics t = some n) : ensureTopic cfg files w t = (.ok n, w) := by
  unfold ensureTopic
  rw [h]

/-- **`ensure_topic`** keeps the registries in agreement when the topic is ready. -/
theorem ensureTopic_agree {res : Except StorageError Nat} (h : Agree w entries groups)
    (hr : Ready cfg w entries groups t) (hs : ensureTopic cfg files w t = (res, w')) :
    Agree w' entries groups ∧ ∀ n, res = .ok n → w'.topics t = some n := by
  unfold ensureTopic at hs
  split at hs
  · rename_i n hn
    cases hs
    refine ⟨h, fun m hm => ?_⟩
    cases hm
    exact hn
  · rename_i hnone
    split at hs
    · cases hs
      exact ⟨h, fun m hm => by cases hm⟩
    · rename_i hauto
      rcases createTopic_spec hs with ⟨e, rfl, hkept⟩ | ⟨rfl, hadded⟩
      · exact ⟨h.kept hkept, fun m hm => by cases hm⟩
      · refine ⟨h.added hadded (hr hnone (Bool.not_eq_false _ ▸ hauto)), fun m hm => ?_⟩
        cases hm
        rw [hadded.topics, if_pos rfl]

theorem choosePartition_spec [Checksum] {count : Nat} {partition : Option Nat} {input : ProduceInput}
    {res : Except StorageError Nat} (h : choosePartition count w t partition input = (res, w')) :
    w'.topics = w.topics ∧ w'.logs = w.logs := by
  unfold choosePartition at h
  split at h
  · split at h <;> cases h <;> exact ⟨rfl, rfl⟩
  · unfold selectPartition at h
    cases h
    split <;> exact ⟨rfl, rfl⟩

/-- The record of a request is stored at `ack`: the record itself, or for a repeated sequence
number the one that was stored with it. -/
def Stores (w : Worker) (t : String) (ack : ProduceAck) (r : Record) : Prop :=
  ∃ n log x, w.topics t = some n ∧ w.logs t ack.partition = some log ∧ log[ack.offset]? = some x ∧
    x.producer = r.producer ∧ (r.producer = none → x = r)

theorem append_stores {log log' : RecordLog} {r : Record} {offset : Nat}
    (h : log.append r = .ok (offset, log')) :
    ∃ x, log'[offset]? = some x ∧ x.producer = r.producer ∧ (r.producer = none → x = r) := by
  unfold RecordLog.append at h
  split at h
  · cases h
  · rename_i o hadmitted
    cases h
    unfold admission at hadmitted
    split at hadmitted
    · cases hadmitted
    · rename_i p hp
      split at hadmitted
      · cases hadmitted
      · split at hadmitted
        · rename_i sequence o' ht
          split at hadmitted
          · rename_i hsame
            cases hadmitted
            obtain ⟨x, hx, hproducer⟩ := RecordLog.producerState_some ht
            refine ⟨x, hx, ?_, fun hnone => by rw [hp] at hnone; cases hnone⟩
            rw [hproducer, hp, hsame]
          · split at hadmitted <;> cases hadmitted
        · split at hadmitted <;> cases hadmitted
  · split at h
    · cases h
    · cases h
      exact ⟨r, List.getElem?_concat_length, rfl, fun _ => rfl⟩

/-- What `append_record` does once the topic is there: it may fail before it has changed a log. -/
theorem appendRecord_cases [Checksum] {env : Env} {partition : Option Nat} {input : ProduceInput}
    {ackMode : AckMode} {res : Except StorageError ProduceAck}
    (h : appendRecord cfg env w t partition input ackMode = (res, w')) :
    ∃ known w₁, ensureTopic cfg env.files w t = (known, w₁) ∧ w'.topics = w₁.topics ∧
      ((w'.logs = w₁.logs ∧ ∃ e, res = .error e) ∨
        ∃ count p log offset log', known = .ok count ∧
          (partition = some p ∨
            partition = none ∧ ∀ k, routingKey input = some k → p = (Checksum.hash k).toNat % count) ∧
          w₁.logs t p = some log ∧ log.append (input.record env.timestampMs) = .ok (offset, log') ∧
          w'.logs = (w₁.insertLog t p log').logs ∧ ∀ ack, res = .ok ack → ack = ⟨p, offset⟩) := by
  unfold appendRecord at h
  split at h
  · rename_i e w₁ hensure
    cases h
    exact ⟨_, _, hensure, rfl, Or.inl ⟨rfl, e, rfl⟩⟩
  rename_i count w₁ hensure
  refine ⟨_, w₁, hensure, ?_⟩
  split at h
  · rename_i e w₂ hchoose
    cases h
    obtain ⟨htopics, hlogs⟩ := choosePartition_spec hchoose
    exact ⟨htopics, Or.inl ⟨hlogs, e, rfl⟩⟩
  rename_i p w₂ hchoose
  obtain ⟨htopics, hlogs⟩ := choosePartition_spec hchoose
  split at h
  · cases h
    exact ⟨htopics, Or.inl ⟨hlogs, _, rfl⟩⟩
  rename_i log hlog
  split at h
  · cases h
    exact ⟨htopics, Or.inl ⟨hlogs, _, rfl⟩⟩
  rename_i offset log' happend
  have hpartition : partition = some p ∨
      partition = none ∧ ∀ k, routingKey input = some k → p = (Checksum.hash k).toNat % count := by
    unfold choosePartition at hchoose
    split at hchoose
    · rename_i q
      split at hchoose
      · cases hchoose
      · cases hchoose
        exact Or.inl rfl
    · refine Or.inr ⟨rfl, fun k hk => ?_⟩
      rw [hk] at hchoose
      cases hchoose
      rfl
  have hinsert : (w₂.insertLog t p log').logs = (w₁.insertLog t p log').logs := by
    simp only [insertLog, hlogs]
  have hresult : w' = w₂.insertLog t p log' ∧ ∀ ack, res = .ok ack → ack = ⟨p, offset⟩ := by
    simp only at h
    split at h
    · split at h
      · cases h
        exact ⟨rfl, fun ack hack => by cases hack⟩
      · cases h
        exact ⟨rfl, fun ack hack => by cases hack; rfl⟩
    · cases h
      exact ⟨rfl, fun ack hack => by cases hack; rfl⟩
  obtain ⟨rfl, hack⟩ := hresult
  exact ⟨htopics, Or.inr ⟨count, p, log, offset, log', rfl, hpartition, hlogs ▸ hlog, happend, hinsert,
    hack⟩⟩

/-- **`append_record`** keeps the registries in agreement and stores the record. -/
theorem appendRecord_agree [Checksum] {env : Env} {partition : Option Nat} {input : ProduceInput}
    {ackMode : AckMode} {res : Except StorageError ProduceAck} (h : Agree w entries groups)
    (hr : Ready cfg w entries groups t)
    (hs : appendRecord cfg env w t partition input ackMode = (res, w')) :
    Agree w' entries groups ∧
      ∀ ack, res = .ok ack → w'.Stores t ack (input.record env.timestampMs) := by
  obtain ⟨known, w₁, hensure, htopics, hcases⟩ := appendRecord_cases hs
  obtain ⟨h₁, hknown⟩ := ensureTopic_agree h hr hensure
  rcases hcases with ⟨hlogs, e, rfl⟩ | ⟨count, p, log, offset, log', rfl, _, hlog, happend, hlogs, hack⟩
  · exact ⟨h₁.kept ⟨htopics, fun _ _ _ _ => by rw [hlogs]⟩, fun ack hack => by cases hack⟩
  · refine ⟨h₁.kept ⟨htopics, fun x n hx q => ?_⟩, fun ack hok => ?_⟩
    · rw [hlogs]
      exact (insertLog_kept hlog log').logs x n hx q
    · rw [hack ack hok]
      obtain ⟨x, hx, hproducer, hsame⟩ := append_stores happend
      exact ⟨count, log', x, htopics ▸ hknown count rfl, hlogs ▸ insertLog_self p log', hx, hproducer,
        hsame⟩

/-- The loop of a batch. -/
theorem appendAll_agree [Checksum] {env : Env} {partition : Option Nat} :
    ∀ {inputs : List ProduceInput} {w w' : Worker} {res : Except StorageError (List ProduceAck)},
      Agree w entries groups → Ready cfg w entries groups t →
        appendAll cfg env t partition inputs w = (res, w') → Agree w' entries groups ∧
          ∀ acks, res = .ok acks → Ready cfg w' entries groups t
  | [], w, w', res, h, hr, hs => by
    cases hs
    exact ⟨h, fun _ _ => hr⟩
  | input :: inputs, w, w', res, h, hr, hs => by
    unfold appendAll at hs
    split at hs
    · rename_i e w₁ hfirst
      cases hs
      exact ⟨(appendRecord_agree h hr hfirst).1, fun acks hacks => by cases hacks⟩
    · rename_i ack w₁ hfirst
      obtain ⟨h₁, hstored⟩ := appendRecord_agree h hr hfirst
      obtain ⟨n, _, _, hknown, _⟩ := hstored ack rfl
      split at hs
      · rename_i hrest
        cases hs
        exact ⟨(appendAll_agree h₁ (ready_of_known hknown) hrest).1, fun acks hacks => by cases hacks⟩
      · rename_i hrest
        cases hs
        obtain ⟨h₂, hready⟩ := appendAll_agree h₁ (ready_of_known hknown) hrest
        exact ⟨h₂, fun _ _ => hready _ rfl⟩

theorem appendBatchRecords_agree [Checksum] {env : Env} {partition : Option Nat}
    {inputs : List ProduceInput} {ackMode : AckMode} {res : Except StorageError (List ProduceAck)}
    (h : Agree w entries groups) (hr : Ready cfg w entries groups t)
    (hs : appendBatchRecords cfg env w t partition inputs ackMode = (res, w')) :
    Agree w' entries groups ∧ ∀ acks, res = .ok acks → Ready cfg w' entries groups t := by
  unfold appendBatchRecords at hs
  split at hs
  · rename_i hall
    cases hs
    exact ⟨(appendAll_agree h hr hall).1, fun acks hacks => by cases hacks⟩
  · rename_i hall
    obtain ⟨h₁, hready⟩ := appendAll_agree h hr hall
    split at hs
    · split at hs <;> cases hs <;> exact ⟨h₁, fun _ _ => hready _ rfl⟩
    · cases hs
      exact ⟨h₁, fun _ _ => hready _ rfl⟩

/-- A partition of a known topic is open. -/
theorem partitionLog_kept {p : Nat} {res : Except StorageError RecordLog} (h : Agree w entries groups)
    (ht : w.topics t = some n) (hs : partitionLog files w t p n = (res, w')) : w' = w := by
  unfold partitionLog at hs
  split at hs
  · cases hs
    rfl
  · rename_i hnone
    split at hs
    · cases hs
      rfl
    · rename_i hlt
      have := (h.logs t n ht p).2 (Nat.not_le.1 hlt)
      rw [hnone] at this
      cases this

/-- **`read_records`** keeps the registries in agreement when the topic is ready. -/
theorem readRecords_agree {p offset maxBytes : Nat}
    {res : Except StorageError (List FetchedRecord)} (h : Agree w entries groups)
    (hr : Ready cfg w entries groups t)
    (hs : readRecords cfg files w t p offset maxBytes = (res, w')) : Agree w' entries groups ∧
      ∀ records, res = .ok records → Ready cfg w' entries groups t := by
  unfold readRecords at hs
  split at hs
  · rename_i hensure
    cases hs
    exact ⟨(ensureTopic_agree h hr hensure).1, fun _ hok => by cases hok⟩
  rename_i count w₁ hensure
  obtain ⟨h₁, hknown⟩ := ensureTopic_agree h hr hensure
  have hready : Ready cfg w₁ entries groups t := ready_of_known (hknown count rfl)
  split at hs
  · rename_i hlog
    obtain rfl := partitionLog_kept h₁ (hknown count rfl) hlog
    cases hs
    exact ⟨h₁, fun _ _ => hready⟩
  · rename_i hlog
    obtain rfl := partitionLog_kept h₁ (hknown count rfl) hlog
    split at hs <;> cases hs <;> exact ⟨h₁, fun _ _ => hready⟩

theorem recordAt_agree {p offset : Nat} {res : Except RequestError FetchedRecord}
    (h : Agree w entries groups) (hr : Ready cfg w entries groups t)
    (hs : recordAt cfg files w t p offset = (res, w')) : Agree w' entries groups ∧
      ∀ record, res = .ok record → Ready cfg w' entries groups t := by
  unfold recordAt at hs
  split at hs
  · rename_i hread
    cases hs
    exact ⟨(readRecords_agree h hr hread).1, fun _ hok => by cases hok⟩
  · rename_i hread
    obtain ⟨h₁, hready⟩ := readRecords_agree h hr hread
    split at hs <;> cases hs <;> exact ⟨h₁, fun _ _ => hready _ rfl⟩

end Worker

end Worker

/-! ## The leadership registry -/

/-- Every entry is that of its partition and names a broker of the cluster. -/
def Entries.Named (cfg : Settings) (entries : Entries) : Prop :=
  ∀ t p l, entries t p = some l → l.leaderId ∈ cfg.nodes ∧ l.partition = p

section Registry

variable {cfg : Settings} {entries entries' : Entries} {t : String}

theorem Entries.insert_isSome {p : Nat} {l : PartitionLeadership} {x : String} {q : Nat}
    (h : (entries x q).isSome = true) : ((entries.insert t p l) x q).isSome = true := by
  unfold Entries.insert
  split
  · rfl
  · exact h

theorem Entries.Named.insert {p : Nat} {l : PartitionLeadership} (h : entries.Named cfg)
    (hl : l.leaderId ∈ cfg.nodes) (hp : l.partition = p) : (entries.insert t p l).Named cfg := by
  intro x q l' hl'
  unfold Entries.insert at hl'
  split at hl'
  · rename_i heq
    cases hl'
    exact ⟨hl, hp.trans heq.2.symm⟩
  · exact h x q l' hl'

/-- **`apply`** replaces one entry at most. -/
theorem Entries.apply_spec {persists : Entries → Bool} {l : PartitionLeadership}
    {res : Except RequestError Unit} (h : entries.Named cfg)
    (hs : entries.apply cfg persists t l = (res, entries')) : entries'.Named cfg ∧
      ∀ x q, (entries x q).isSome = true → (entries' x q).isSome = true := by
  cases he : applyEntry (cfg.cluster l.partition) (entries t l.partition) l with
  | error e =>
    rw [apply_error he] at hs
    cases hs
    exact ⟨h, fun _ _ hx => hx⟩
  | ok e =>
    have hentries := @apply_entries cfg persists entries t l e he
    rw [hs] at hentries
    obtain rfl : entries' = _ := hentries
    obtain ⟨rfl, hnode, _⟩ := applyEntry_ok he
    exact ⟨h.insert hnode rfl, fun _ _ hx => insert_isSome hx⟩

theorem Entries.insertVacant_isSome {n : Nat} {x : String} {q : Nat}
    (h : (entries x q).isSome = true) : ((entries.insertVacant cfg t n) x q).isSome = true := by
  unfold Entries.insertVacant
  split
  · rfl
  · exact h

theorem Entries.insertVacant_own {n p : Nat} (h : p < n) :
    ((entries.insertVacant cfg t n) t p).isSome = true := by
  unfold Entries.insertVacant
  rw [if_pos ⟨rfl, h⟩]
  rfl

theorem Entries.Named.insertVacant (h : entries.Named cfg) (n : Nat) :
    (entries.insertVacant cfg t n).Named cfg := by
  intro x q l hl
  unfold Entries.insertVacant at hl
  split at hl
  · cases hl
    cases he : entries x q with
    | none => exact ⟨(cfg.cluster q).deterministicLeader_mem, rfl⟩
    | some l => exact h x q l he
  · exact h x q l hl

/-- **`ensure_topic`** adds the entries of a topic, whether it can write them or not. -/
theorem Entries.ensureTopic_spec {persists : Entries → Bool} {n : Nat}
    {res : Except RequestError Unit} (h : entries.Named cfg)
    (hs : entries.ensureTopic cfg persists t n = (res, entries')) : entries'.Named cfg ∧
      (∀ x q, (entries x q).isSome = true → (entries' x q).isSome = true) ∧
      ∀ p < n, (entries' t p).isSome = true := by
  have hentries := @ensureTopic_entries cfg persists entries t n
  rw [hs] at hentries
  obtain rfl : entries' = _ := hentries
  exact ⟨h.insertVacant n, fun _ _ hx => insertVacant_isSome hx, fun _ hp => insertVacant_own hp⟩

theorem setTopicPartitions_partitionCount (c : Group.Coordinator) (env : Group.Env) (topic : String)
    (partitions : Nat) (x : String) :
    (c.setTopicPartitions env topic partitions).2.partitionCount x =
      if x = topic then partitions else c.partitionCount x := by
  rw [(c.setTopicPartitions_reloads env topic partitions).counts]
  unfold Group.Coordinator.partitionCount
  by_cases hx : x = topic <;> simp [hx]

end Registry

/-! ## The condition on a request -/

/-- The topic the worker is about to create for `CreateTopic` or for the controller's list leaves
no log behind. -/
def Worker.Clear (w : Worker) (t : String) (n : Nat) : Prop :=
  ∀ p, (w.logs t p).isSome = true → p < n

/-- A request reaches the storage worker with a topic that it knows, that it does not create, or
that fits the registries. -/
def Node.Admits (cfg : Settings) (s : Node) (topic : String) (partition : Option Nat) : Prop :=
  leadershipError cfg s.entries topic partition = .ok () →
    Ready cfg s.worker s.entries s.groups topic

/-- The condition on a request: nothing is created behind the back of the other registries, and a
durable produce on a single broker can write what it commits. -/
def KeepsRegistries (cfg : Settings) (s : Node) : Env × Call → Prop
  | (env, .createTopic topic partitions) => s.worker.topics topic = none →
      s.worker.Clear topic partitions ∧
        (s.groups.setTopicPartitions env.group topic partitions).1 = .ok ()
  | (env, .produce r) => s.Admits cfg r.topic r.partition ∧
      (cfg.nodes.length = 1 → r.ackMode = .durable → ∀ entries, env.persists entries = true)
  | (_, .produceBatch topic partition _ _) => s.Admits cfg topic partition
  | (_, .fetch topic partition _ _) => s.Admits cfg topic (some partition)
  | (_, .listTopics _) => True
  | (_, .sync topics) => ∀ m ∈ topics, s.worker.topics m.topic = none →
      s.worker.Clear m.topic m.partitions ∧ s.groups.partitionCount m.topic = m.partitions
  | (_, .background _) => True

/-! ## The invariant -/

/-- **The invariant**: the registries agree, and the entries are those of the cluster. -/
structure Agreeing (cfg : Settings) (s : Node) : Prop where
  agree : s.Agree
  named : s.entries.Named cfg

namespace Agreeing

variable {cfg : Settings} {env : Env} {s s' : Node} {t : String}

/-- Entries are added or replaced. -/
theorem registered {entries : Entries} (h : Agreeing cfg s) (hn : entries.Named cfg)
    (he : ∀ t p, (s.entries t p).isSome = true → (entries t p).isSome = true) :
    Agreeing cfg { s with entries } := ⟨h.agree.registered he, hn⟩

theorem commit {p hw : Nat} {res : Except RequestError Unit} (h : Agreeing cfg s)
    (hs : s.commit cfg env t p hw = (res, s')) :
    Agreeing cfg s' ∧ s'.worker = s.worker ∧ s'.groups = s.groups := by
  unfold Node.commit at hs
  split at hs
  · cases hs
    exact ⟨h, rfl, rfl⟩
  · split at hs
    · cases hs
      exact ⟨h, rfl, rfl⟩
    · cases hs
      obtain ⟨hn, he⟩ := Entries.apply_spec h.named (Prod.mk.eta.symm)
      exact ⟨h.registered hn he, rfl, rfl⟩

theorem replicate {p offset : Nat} {ackMode : AckMode} {res : Except RequestError Unit}
    (h : Agreeing cfg s) (hs : s.replicate cfg env t p offset ackMode = (res, s')) :
    Agreeing cfg s' := by
  unfold Node.replicate at hs
  simp only at hs
  split at hs
  · exact (h.commit hs).1
  · split at hs <;> cases hs <;> exact h

theorem replicateRecords {ackMode : AckMode} : ∀ {records : List ProduceAck} {s s' : Node}
    {res : Except RequestError Unit}, Agreeing cfg s →
      Node.replicateRecords cfg env t ackMode records s = (res, s') → Agreeing cfg s'
  | [], s, s', res, h, hs => by
    cases hs
    exact h
  | record :: records, s, s', res, h, hs => by
    unfold Node.replicateRecords at hs
    split at hs
    · rename_i hfirst
      cases hs
      exact h.replicate hfirst
    · rename_i hfirst
      exact replicateRecords (h.replicate hfirst) hs

theorem dispatchReplication {records : List ProduceAck} {ackMode : AckMode}
    {res : Except RequestError Unit} (h : Agreeing cfg s)
    (hs : s.dispatchReplication cfg env t records ackMode = (res, s')) : Agreeing cfg s' := by
  unfold Node.dispatchReplication at hs
  split at hs
  · cases hs
    exact ⟨h.agree, h.named⟩
  · exact h.replicateRecords hs

theorem readBack : ∀ {acks : List ProduceAck} {s s' : Node} {res : Except RequestError Unit},
    Agreeing cfg s → Ready cfg s.worker s.entries s.groups t →
      Node.readBack cfg env.files t acks s = (res, s') → Agreeing cfg s'
  | [], s, s', res, h, _, hs => by
    cases hs
    exact h
  | ack :: acks, s, s', res, h, hr, hs => by
    unfold Node.readBack at hs
    split at hs
    · rename_i hfirst
      cases hs
      exact ⟨(Worker.recordAt_agree h.agree hr hfirst).1, h.named⟩
    · rename_i hfirst
      obtain ⟨h₁, hready⟩ := Worker.recordAt_agree h.agree hr hfirst
      exact readBack (s := { s with worker := _ }) ⟨h₁, h.named⟩ (hready _ rfl) hs

theorem produce [Checksum] {r : ProduceTo} (h : Agreeing cfg s)
    (hq : s.Admits cfg r.topic r.partition) : Agreeing cfg (s.produce cfg env r).2 := by
  unfold Node.produce
  split
  · exact h
  rename_i hleads
  have hr := hq hleads
  split
  · rename_i happend
    exact ⟨(Worker.appendRecord_agree h.agree hr happend).1, h.named⟩
  · rename_i ack worker happend
    obtain ⟨h₁, hstores⟩ := Worker.appendRecord_agree h.agree hr happend
    obtain ⟨n, _, _, hknown, _⟩ := hstores ack rfl
    have hnode : Agreeing cfg { s with worker } := ⟨h₁, h.named⟩
    split
    · rename_i hread
      exact hnode.readBack (ready_of_known hknown) hread
    · rename_i hread
      have hread := hnode.readBack (ready_of_known hknown) hread
      split
      · rename_i hdispatch
        exact hread.dispatchReplication hdispatch
      · rename_i hdispatch
        exact hread.dispatchReplication hdispatch

theorem produceBatch [Checksum] {partition : Option Nat} {inputs : List ProduceInput}
    {ackMode : AckMode} (h : Agreeing cfg s) (hq : s.Admits cfg t partition) :
    Agreeing cfg (s.produceBatch cfg env t partition inputs ackMode).2 := by
  unfold Node.produceBatch
  split
  · exact h
  rename_i hleads
  have hr := hq hleads
  split
  · rename_i happend
    exact ⟨(Worker.appendBatchRecords_agree h.agree hr happend).1, h.named⟩
  · rename_i acks worker happend
    obtain ⟨h₁, hready⟩ := Worker.appendBatchRecords_agree h.agree hr happend
    have hnode : Agreeing cfg { s with worker } := ⟨h₁, h.named⟩
    split
    · rename_i hread
      exact hnode.readBack (hready _ rfl) hread
    · rename_i hread
      have hread := hnode.readBack (hready _ rfl) hread
      split
      · rename_i hdispatch
        exact hread.dispatchReplication hdispatch
      · rename_i hdispatch
        exact hread.dispatchReplication hdispatch

theorem fetch {p offset maxBytes : Nat} (h : Agreeing cfg s) (hq : s.Admits cfg t (some p)) :
    Agreeing cfg (s.fetch cfg env t p offset maxBytes).2 := by
  unfold Node.fetch
  split
  · exact h
  rename_i hleads
  have hr := hq hleads
  split
  · rename_i hread
    exact ⟨(Worker.readRecords_agree h.agree hr hread).1, h.named⟩
  · rename_i hread
    have h₁ := (Worker.readRecords_agree h.agree hr hread).1
    split <;> exact ⟨h₁, h.named⟩

/-- **`CreateTopic`** tells all three registries. -/
theorem createTopic {n : Nat} (h : Agreeing cfg s) (hq : s.worker.topics t = none →
      s.worker.Clear t n ∧ (s.groups.setTopicPartitions env.group t n).1 = .ok ()) :
    Agreeing cfg (s.createTopic cfg env t n).2 := by
  unfold Node.createTopic
  split
  · rename_i e worker hcreate
    rcases Worker.createTopic_spec hcreate with ⟨_, _, hkept⟩ | ⟨hok, _⟩
    · exact ⟨h.agree.kept hkept, h.named⟩
    · cases hok
  · rename_i partitions worker hcreate
    rcases Worker.createTopic_spec hcreate with ⟨_, herr, _⟩ | ⟨hok, hadded⟩
    · cases herr
    · cases hok
      obtain ⟨hclear, hset⟩ := hq hadded.fresh
      split
      · rename_i e groups hgroups
        rw [hgroups] at hset
        cases hset
      · rename_i groups hgroups
        have hcount : ∀ x, groups.partitionCount x = if x = t then n else s.groups.partitionCount x := by
          intro x
          have := setTopicPartitions_partitionCount s.groups env.group t n x
          rwa [hgroups] at this
        have hensured : ∀ {res : Except RequestError Unit} {entries : Entries},
            s.entries.ensureTopic cfg env.persists t n = (res, entries) →
              Agreeing cfg { s with worker, groups, entries } := by
          intro res entries hensure
          obtain ⟨hn, hgrow, hown⟩ := Entries.ensureTopic_spec h.named hensure
          have hgrouped : Agree s.worker entries groups := by
            refine (h.agree.registered hgrow).regrouped ?_
            intro x m hx
            rw [hcount, if_neg]
            rintro rfl
            rw [hadded.fresh] at hx
            cases hx
          refine ⟨hgrouped.added hadded ⟨hclear, hown, ?_⟩, hn⟩
          rw [hcount, if_pos rfl]
        split
        · rename_i hensure
          exact hensured hensure
        · rename_i hensure
          exact hensured hensure

theorem ensured {n : Nat} {res : Except RequestError Unit} {entries : Entries}
    (h : Agreeing cfg s) (hs : s.entries.ensureTopic cfg env.persists t n = (res, entries)) :
    Agreeing cfg { s with entries } := by
  obtain ⟨hn, hgrow, _⟩ := Entries.ensureTopic_spec h.named hs
  exact h.registered hn hgrow

theorem listTopics : ∀ {topics : List String} {s : Node}, Agreeing cfg s →
    Agreeing cfg (Node.listTopics cfg env topics s).2
  | [], s, h => h
  | t :: topics, s, h => by
    unfold Node.listTopics
    split
    · rename_i hensure
      exact h.ensured hensure
    · rename_i hensure
      exact listTopics (h.ensured hensure)

theorem syncPartitions : ∀ {infos : List ((BrokerId × Nat) × Nat)} {p : Nat} {s s' : Node}
    {res : Except RequestError Unit}, Agreeing cfg s →
      Node.syncPartitions cfg env t p infos s = (res, s') →
        Agreeing cfg s' ∧ s'.worker = s.worker ∧ s'.groups = s.groups
  | [], p, s, s', res, h, hs => by
    cases hs
    exact ⟨h, rfl, rfl⟩
  | ((leaderId, leaderEpoch), hw) :: infos, p, s, s', res, h, hs => by
    unfold Node.syncPartitions at hs
    split at hs
    · cases hs
      exact ⟨h, rfl, rfl⟩
    · split at hs
      · split at hs
        · rename_i happly
          cases hs
          obtain ⟨hn, he⟩ := Entries.apply_spec h.named happly
          exact ⟨h.registered hn he, rfl, rfl⟩
        · rename_i happly
          obtain ⟨hn, he⟩ := Entries.apply_spec h.named happly
          obtain ⟨h', hworker, hgroups⟩ := syncPartitions (h.registered hn he) hs
          exact ⟨h', hworker, hgroups⟩
      · exact syncPartitions h hs

/-- The condition on the topics the controller lists. -/
def Listed (s : Node) (topics : List TopicMetadata) : Prop :=
  ∀ m ∈ topics, s.worker.topics m.topic = none →
    s.worker.Clear m.topic m.partitions ∧ s.groups.partitionCount m.topic = m.partitions

/-- A topic that could not be taken over. -/
theorem syncTopic_error {files : Files} {m : TopicMetadata} {e : RequestError}
    (h : Agreeing cfg s) (hs : s.syncTopic files m = (.error e, s')) : Agreeing cfg s' := by
  unfold Node.syncTopic at hs
  split at hs
  · cases hs
  · split at hs
    · rename_i hcreate
      cases hs
      rcases Worker.createTopic_spec hcreate with ⟨_, _, hkept⟩ | ⟨hok, _⟩
      · exact ⟨h.agree.kept hkept, h.named⟩
      · cases hok
    · cases hs

/-- A topic of the controller that is known or was taken over, and its entries. -/
theorem syncTopic_ok {files : Files} {m : TopicMetadata} {rest : List TopicMetadata}
    (h : Agreeing cfg s) (hq : Listed s (m :: rest)) (hs : s.syncTopic files m = (.ok (), s'))
    {res : Except RequestError Unit} {entries : Entries}
    (hensure : s'.entries.ensureTopic cfg env.persists m.topic m.partitions = (res, entries)) :
    Agreeing cfg { s' with entries } ∧ Listed s' rest := by
  unfold Node.syncTopic at hs
  split at hs
  · cases hs
    exact ⟨h.ensured hensure, fun m' hm' => hq m' (List.mem_cons_of_mem _ hm')⟩
  · split at hs
    · cases hs
    · rename_i partitions worker hcreate
      cases hs
      obtain ⟨hn, hgrow, hown⟩ := Entries.ensureTopic_spec h.named hensure
      rcases Worker.createTopic_spec hcreate with ⟨_, herr, _⟩ | ⟨hok, hadded⟩
      · cases herr
      · obtain ⟨hclear, hcount⟩ := hq m List.mem_cons_self hadded.fresh
        refine ⟨⟨(h.agree.registered hgrow).added hadded ⟨hclear, hown, hcount⟩, hn⟩,
          fun m' hm' hnone => ?_⟩
        rw [show ({ s with worker } : Node).worker = worker from rfl, hadded.topics] at hnone
        split at hnone
        · cases hnone
        · rename_i hne
          obtain ⟨hclear', hcount'⟩ := hq m' (List.mem_cons_of_mem _ hm') hnone
          refine ⟨fun p hp => hclear' p ?_, hcount'⟩
          rwa [hadded.others _ hne p] at hp

theorem syncTopics : ∀ {topics : List TopicMetadata} {s s' : Node}
    {res : Except RequestError Unit}, Agreeing cfg s → Listed s topics →
      Node.syncTopics cfg env topics s = (res, s') → Agreeing cfg s'
  | [], s, s', res, h, _, hs => by
    cases hs
    exact h
  | m :: topics, s, s', res, h, hq, hs => by
    unfold Node.syncTopics at hs
    split at hs
    · rename_i htopic
      cases hs
      exact h.syncTopic_error htopic
    · rename_i s₁ htopic
      split at hs
      · rename_i hensure
        cases hs
        exact (h.syncTopic_ok hq htopic hensure).1
      · rename_i hensure
        obtain ⟨h₁, hrest⟩ := h.syncTopic_ok hq htopic hensure
        split at hs
        · rename_i hpartitions
          cases hs
          exact (h₁.syncPartitions hpartitions).1
        · rename_i s₂ hpartitions
          obtain ⟨h₂, hworker, hgroups⟩ := h₁.syncPartitions hpartitions
          refine syncTopics h₂ (fun m' hm' => ?_) hs
          rw [hworker, hgroups]
          exact hrest m' hm'

theorem sync {topics : List TopicMetadata} (h : Agreeing cfg s) (hq : Listed s topics) :
    Agreeing cfg (s.sync cfg env topics).2 := by
  unfold Node.sync
  split
  · exact h
  · exact h.syncTopics hq rfl

theorem background {index : Nat} (h : Agreeing cfg s) : Agreeing cfg (s.background cfg env index) := by
  unfold Node.background
  split
  · exact h
  · rename_i task _
    have hrest : Agreeing cfg { s with spawned := s.spawned.eraseIdx index } := ⟨h.agree, h.named⟩
    exact hrest.replicateRecords rfl

/-- **One request** within the condition keeps the registries in agreement. -/
theorem step [Checksum] {call : Env × Call} (h : Agreeing cfg s) (hq : KeepsRegistries cfg s call) :
    Agreeing cfg (s.step cfg call) := by
  obtain ⟨env, request⟩ := call
  cases request with
  | createTopic => exact h.createTopic hq
  | produce => exact h.produce hq.1
  | produceBatch => exact h.produceBatch hq
  | fetch => exact h.fetch hq
  | listTopics => exact h.listTopics
  | sync => exact h.sync hq
  | background => exact h.background

end Agreeing

/-! ## Startup -/

section Startup

variable {cfg : Settings} {env : Group.Env} {persists : Entries → Bool} {s s' : Node} {t : String}

/-- Every recovered log is that of a partition of a recovered topic. -/
theorem recoverStorage_logs : ∀ (found : List (String × Nat × RecordLog)) {t : String} {p : Nat},
    ((recoverStorage found).logs t p).isSome = true →
      ∃ n, (recoverStorage found).topics t = some n ∧ p < n
  | [], t, p, h => by cases h
  | (topic, partition, log) :: rest, t, p, h => by
    simp only [recoverStorage, Worker.insertTopic, Worker.insertLog] at h ⊢
    by_cases ht : t = topic
    · subst ht
      refine ⟨_, if_pos rfl, ?_⟩
      by_cases hp : p = partition
      · omega
      · rw [if_neg fun heq => hp heq.2] at h
        obtain ⟨n, hn, hlt⟩ := recoverStorage_logs rest h
        rw [hn, Option.getD_some]
        omega
    · rw [if_neg fun heq => ht heq.1] at h
      rw [if_neg ht]
      exact recoverStorage_logs rest h

theorem recoverStorage_topics : ∀ (found : List (String × Nat × RecordLog)) {t : String} {n : Nat},
    (recoverStorage found).topics t = some n → t ∈ found.map (·.1)
  | [], t, n, h => by cases h
  | (topic, partition, log) :: rest, t, n, h => by
    simp only [recoverStorage, Worker.insertTopic, Worker.insertLog] at h
    by_cases ht : t = topic
    · rw [ht]
      exact List.mem_cons_self
    · rw [if_neg ht] at h
      exact List.mem_cons_of_mem _ (recoverStorage_topics rest h)

/-- The lines of `leadership.meta` give entries of the cluster. -/
theorem parseEntries_named {lines : List (String × PartitionLeadership)}
    (h : ∀ line ∈ lines, line.2.leaderId ∈ cfg.nodes) : (parseEntries lines).Named cfg := by
  unfold parseEntries
  have hfold : ∀ (lines : List (String × PartitionLeadership)) (entries : Entries),
      (∀ line ∈ lines, line.2.leaderId ∈ cfg.nodes) → entries.Named cfg →
        (lines.foldl (fun entries line => entries.insert line.1 line.2.partition line.2)
          entries).Named cfg := by
    intro lines
    induction lines with
    | nil => exact fun _ _ he => he
    | cons line lines ih =>
      intro entries hl he
      exact ih _ (fun x hx => hl x (List.mem_cons_of_mem _ hx))
        (he.insert (hl line List.mem_cons_self) rfl)
  exact hfold lines _ h fun _ _ _ he => by cases he

theorem migrate_spec {persists : Entries → Bool} {entries entries' : Entries} {p logEnd : Nat}
    {res : Except RequestError Unit} (h : entries.Named cfg)
    (hs : entries.migrate persists t p logEnd = (res, entries')) : entries'.Named cfg ∧
      ∀ x q, (entries x q).isSome = true → (entries' x q).isSome = true := by
  unfold Entries.migrate at hs
  split at hs
  · cases hs
    exact ⟨h, fun _ _ he => he⟩
  rename_i l hl
  split at hs
  · cases hs
    exact ⟨h, fun _ _ he => he⟩
  · obtain rfl : entries' = _ := (congrArg Prod.snd hs).symm.trans Entries.persist_entries
    obtain ⟨hnode, hpartition⟩ := h t p l hl
    exact ⟨h.insert hnode hpartition, fun _ _ he => Entries.insert_isSome he⟩

/-- The migration of a topic finds the logs of all its partitions. -/
theorem migrateAll_spec : ∀ {ps : List Nat} {s s' : Node}, s.entries.Named cfg →
    Node.migrateAll persists t ps s = some s' → s'.worker = s.worker ∧ s'.groups = s.groups ∧
      s'.entries.Named cfg ∧ (∀ x q, (s.entries x q).isSome = true → (s'.entries x q).isSome = true) ∧
      ∀ p ∈ ps, (s.worker.logs t p).isSome = true
  | [], s, s', h, hs => by
    cases hs
    exact ⟨rfl, rfl, h, fun _ _ he => he, fun p hp => by cases hp⟩
  | q :: ps, s, s', h, hs => by
    unfold Node.migrateAll at hs
    split at hs
    · cases hs
    rename_i log hlog
    split at hs
    · cases hs
    · rename_i hmigrate
      obtain ⟨hn, he⟩ := migrate_spec h hmigrate
      obtain ⟨hworker, hgroups, hnamed, hgrow, hlogs⟩ := migrateAll_spec hn hs
      refine ⟨hworker, hgroups, hnamed, fun x p hx => hgrow x p (he x p hx), fun p hp => ?_⟩
      rcases List.mem_cons.1 hp with rfl | hp
      · rw [hlog]
        rfl
      · exact hlogs p hp

/-- What the loop over the recovered topics leaves. -/
structure Started (cfg : Settings) (s s' : Node) (topics : List String) : Prop where
  worker : s'.worker = s.worker
  named : s'.entries.Named cfg
  grow : ∀ x p, (s.entries x p).isSome = true → (s'.entries x p).isSome = true
  counts : ∀ x, s'.groups.partitionCount x = s.groups.partitionCount x ∨
    s'.groups.partitionCount x = (s.worker.topics x).getD 0
  started : ∀ t ∈ topics, s'.groups.partitionCount t = (s.worker.topics t).getD 0 ∧
    ∀ p < (s.worker.topics t).getD 0, (s.worker.logs t p).isSome = true ∧
      (s'.entries t p).isSome = true

theorem startTopics_spec : ∀ {topics : List String} {s s' : Node}, s.entries.Named cfg →
    Node.startTopics cfg env persists topics s = some s' → Started cfg s s' topics
  | [], s, s', h, hs => by
    cases hs
    exact ⟨rfl, h, fun _ _ he => he, fun _ => Or.inl rfl, fun t ht => by cases ht⟩
  | t :: topics, s, s', h, hs => by
    unfold Node.startTopics at hs
    simp only at hs
    split at hs
    · cases hs
    rename_i entries hensure
    obtain ⟨hnamed₀, hgrow₀, hown⟩ := Entries.ensureTopic_spec h hensure
    split at hs
    · cases hs
    rename_i s₁ hmigrate
    obtain ⟨hworker, hgroups, hnamed, hgrow, hlogs⟩ :=
      migrateAll_spec (s := { s with entries }) hnamed₀ hmigrate
    split at hs
    · cases hs
    rename_i groups hset
    have hcount : ∀ x, groups.partitionCount x =
        if x = t then (s.worker.topics t).getD 0 else s.groups.partitionCount x := by
      intro x
      have := setTopicPartitions_partitionCount s₁.groups env t ((s.worker.topics t).getD 0) x
      rw [hset, hgroups] at this
      exact this
    obtain ⟨hworker', hnamed', hgrow', hcounts', hstarted'⟩ :=
      startTopics_spec (s := { s₁ with groups }) hnamed hs
    simp only [hworker] at hworker' hcounts' hstarted'
    have hentries : ∀ x p, (entries x p).isSome = true → (s'.entries x p).isSome = true :=
      fun x p he => hgrow' x p (hgrow x p he)
    refine ⟨hworker', hnamed', fun x p he => hentries x p (hgrow₀ x p he),
      fun x => ?_, fun x hx => ?_⟩
    · rcases hcounts' x with hx | hx
      · rw [hx, hcount]
        split
        · rename_i heq
          exact Or.inr (by rw [heq])
        · exact Or.inl rfl
      · exact Or.inr hx
    · rcases List.mem_cons.1 hx with rfl | hx
      · refine ⟨?_, fun p hp => ⟨hlogs p (List.mem_range.2 hp), hentries x p (hown p hp)⟩⟩
        rcases hcounts' x with hx | hx
        · rw [hx, hcount, if_pos rfl]
        · exact hx
      · exact hstarted' x hx

/-- **A broker that has started** has its registries in agreement. -/
theorem startup_agreeing {found : List (String × Nat × RecordLog)}
    {lines : List (String × PartitionLeadership)} {groups : Group.Coordinator}
    (hn : ∀ line ∈ lines, line.2.leaderId ∈ cfg.nodes)
    (hs : startup cfg env persists found lines groups = some s) : Agreeing cfg s := by
  obtain ⟨hworker, hnamed, _, _, hstarted⟩ :=
    startTopics_spec (s := ⟨recoverStorage found, parseEntries lines, groups, []⟩)
      (parseEntries_named hn) hs
  have htopic : ∀ t n, s.worker.topics t = some n → s.groups.partitionCount t = n ∧
      ∀ p < n, (s.worker.logs t p).isSome = true ∧ (s.entries t p).isSome = true := by
    intro t n ht
    rw [hworker] at ht ⊢
    have hmem : t ∈ (found.map (·.1)).dedup.mergeSort (· ≤ ·) :=
      List.mem_mergeSort.2 (List.mem_dedup.2 (recoverStorage_topics found ht))
    have hcount : (recoverStorage found).topics t = some n := ht
    have := hstarted t hmem
    simp only [hcount, Option.getD_some] at this
    exact this
  refine ⟨⟨fun t n ht p => ⟨fun hp => ?_, fun hp => ((htopic t n ht).2 p hp).1⟩,
    fun t n ht p hp => ((htopic t n ht).2 p hp).2, fun t n ht => (htopic t n ht).1⟩, hnamed⟩
  rw [hworker] at hp ht
  obtain ⟨m, hm, hlt⟩ := recoverStorage_logs found hp
  rw [show (recoverStorage found).topics t = some n from ht] at hm
  cases hm
  exact hlt

end Startup

/-! ## A durable produce on a single broker -/

section Single

variable {cfg : Settings} {env : Env} {files : Files} {w : Worker} {s : Node} {t : String}
  {ack : ProduceAck} {r : Record}

/-- A read at the offset of a record starts with the record. -/
theorem read_stored {log : RecordLog} {x : Record} {offset maxBytes : Nat}
    (hx : log[offset]? = some x) (hm : maxBytes ≠ 0) :
    ∃ rest, log.read offset maxBytes = .ok (x.at offset :: rest) := by
  have hstored : (storedFrom 0 log)[offset]? = some (x.at offset) := by
    rw [storedFrom_getElem?, hx]
    simp
  obtain ⟨hlt, hget⟩ := List.getElem?_eq_some_iff.1 hstored
  unfold RecordLog.read
  rw [if_neg hm, List.drop_eq_getElem_cons hlt, hget]
  exact ⟨_, rfl⟩

/-- The record of `ack` is what a read returns first. -/
def Shows (ack : ProduceAck) (r : Record) (records : List FetchedRecord) : Prop :=
  ∃ x rest, records = fetched x ack.offset :: rest ∧ x.producer = r.producer ∧
    (r.producer = none → x = r)

theorem readRecords_stored (cfg : Settings) (files : Files) (h : w.Stores t ack r) {maxBytes : Nat}
    (hm : maxBytes ≠ 0) :
    ∃ records, w.readRecords cfg files t ack.partition ack.offset maxBytes = (.ok records, w) ∧
      Shows ack r records := by
  obtain ⟨n, log, x, hknown, hlog, hx, hproducer, hsame⟩ := h
  obtain ⟨rest, hread⟩ := read_stored hx hm
  unfold Worker.readRecords
  rw [Worker.ensureTopic_known hknown]
  simp only [Worker.partitionLog, hlog, hread]
  exact ⟨_, rfl, x, _, rfl, hproducer, hsame⟩

theorem recordAt_stored (cfg : Settings) (files : Files) (h : w.Stores t ack r) :
    ∃ record, w.recordAt cfg files t ack.partition ack.offset = (.ok record, w) := by
  obtain ⟨records, hread, x, rest, rfl, _⟩ := readRecords_stored cfg files h
    (show 16 * 1024 * 1024 ≠ 0 by decide)
  unfold Worker.recordAt
  rw [hread]
  simp only [fetched, List.find?_cons, decide_true]
  exact ⟨_, rfl⟩

/-- A single broker is enough. -/
theorem min_of_single (h : cfg.nodes.length = 1) : cfg.minInSyncReplicas ≤ 1 :=
  cfg.min_le.trans (cfg.replication_le.trans (Nat.le_of_eq h))

/-- A record of a partition with an entry is committed when the entries can be written. -/
theorem commit_entry (h : Agreeing cfg s) (hpersists : ∀ entries, env.persists entries = true)
    {p : Nat} {l : PartitionLeadership} (hl : s.entries t p = some l) (offset : Nat) :
    ∃ s', s.commit cfg env t p (offset + 1) = (.ok (), s') ∧
      s'.worker = s.worker ∧ ∃ l', s'.entries t p = some l' ∧ offset < l'.highWatermark := by
  unfold Node.commit
  rw [hl]
  obtain ⟨hnode, hpartition⟩ := h.named t p l hl
  by_cases hw : offset + 1 ≤ l.highWatermark
  · exact ⟨s, if_pos hw, rfl, l, hl, hw⟩
  · have hraised : applyEntry (cfg.cluster l.partition) (s.entries t l.partition)
        { l with highWatermark := offset + 1 } = .ok { l with highWatermark := offset + 1 } := by
      rw [hpartition, hl]
      exact applyEntry_raised hnode rfl rfl (Nat.le_of_lt (Nat.not_le.1 hw))
    have happly : s.entries.apply cfg env.persists t { l with highWatermark := offset + 1 } =
        (.ok (), s.entries.insert t l.partition { l with highWatermark := offset + 1 }) :=
      Entries.apply_ok hraised (hpersists _)
    simp only [if_neg hw, happly]
    exact ⟨_, rfl, rfl, { l with highWatermark := offset + 1 }, if_pos ⟨rfl, hpartition.symm⟩,
      Nat.lt_succ_self offset⟩

/-- **A durable produce that is stored** is acknowledged, and the next fetch shows it. -/
theorem Agreeing.durable_produce [Checksum] {q : ProduceTo} {w : Worker} (h : Agreeing cfg s)
    (hone : cfg.nodes.length = 1) (hd : q.ackMode = .durable)
    (hq : KeepsRegistries cfg s (env, .produce q))
    (happend : s.worker.appendRecord cfg env q.topic q.partition q.input q.ackMode = (.ok ack, w)) :
    (s.produce cfg env q).1 = .ok ack ∧ ∀ (env' : Env) (maxBytes : Nat), maxBytes ≠ 0 →
      ∃ records, ((s.produce cfg env q).2.fetch cfg env' q.topic ack.partition ack.offset maxBytes).1 =
        .ok records ∧ Shows ack (q.input.record env.timestampMs) records := by
  have hleads : ∀ (entries : Entries) partition,
      leadershipError cfg entries q.topic partition = .ok () := fun _ _ => if_pos hone
  obtain ⟨h₁, hstored⟩ := Worker.appendRecord_agree h.agree (hq.1 (hleads _ _)) happend
  have hstores := hstored ack rfl
  have hnode : Agreeing cfg { s with worker := w } := ⟨h₁, h.named⟩
  obtain ⟨record, hrecord⟩ := recordAt_stored cfg env.files hstores
  obtain ⟨n, log, x, hknown, hlog, hx, _⟩ := hstores
  have hlt : ack.partition < n := (h₁.logs _ n hknown _).1 (by rw [hlog]; rfl)
  obtain ⟨l, hl⟩ := Option.isSome_iff_exists.1 (h₁.entries _ n hknown _ hlt)
  obtain ⟨s', hcommit, hworker, l', hl', hbelow⟩ :=
    commit_entry hnode (hq.2 hone hd) hl ack.offset
  have hproduce : s.produce cfg env q = (.ok ack, s') := by
    have henough : cfg.minInSyncReplicas ≤ 1 + min (env.acks ack.partition ack.offset)
        ((cfg.cluster ack.partition).replicaFollowers cfg.self).length := by
      have := min_of_single hone
      omega
    rw [hd] at happend
    unfold Node.produce
    simp only [hleads, happend, Node.readBack, hrecord, Node.dispatchReplication, hd, reduceCtorEq,
      if_false, Node.replicateRecords, Node.replicate, henough, if_true, hcommit]
  rw [hproduce]
  refine ⟨rfl, fun env' maxBytes hm => ?_⟩
  obtain ⟨records, hread, y, rest, rfl, hproducer, hsame⟩ :=
    readRecords_stored cfg env'.files (hstored ack rfl) hm
  unfold Node.fetch
  simp only [hleads, hworker, hread, hl']
  refine ⟨_, rfl, y, rest.filter (·.offset < l'.highWatermark), ?_, hproducer, hsame⟩
  exact List.filter_cons_of_pos (decide_eq_true hbelow)

end Single

/-! ## The registries along a run -/

/-- **The registries of a broker agree.**  From startup on a data directory whose `leadership.meta`
names brokers of the cluster, along every sequence of requests within the condition: the registries
agree on every topic of the storage worker; and on a single broker a durable produce that storage
accepts is acknowledged, and the next fetch at its offset returns the record. -/
theorem registries_agree [Checksum] (cfg : Settings) {env : Group.Env} {persists : Entries → Bool}
    {found : List (String × Nat × RecordLog)} {lines : List (String × PartitionLeadership)}
    {groups : Group.Coordinator} {s₀ s : Node} {calls : List (Env × Call)}
    (hn : ∀ line ∈ lines, line.2.leaderId ∈ cfg.nodes)
    (hs : startup cfg env persists found lines groups = some s₀)
    (hq : Along (fun s call => some (s.step cfg call)) (KeepsRegistries cfg) s₀ calls)
    (hr : run (fun s call => some (s.step cfg call)) s₀ calls = some s) :
    s.Agree ∧ (cfg.nodes.length = 1 → ∀ (env : Env) (q : ProduceTo) (ack : ProduceAck) (w : Worker),
      q.ackMode = .durable → KeepsRegistries cfg s (env, .produce q) →
      s.worker.appendRecord cfg env q.topic q.partition q.input q.ackMode = (.ok ack, w) →
        (s.produce cfg env q).1 = .ok ack ∧ ∀ (env' : Env) (maxBytes : Nat), maxBytes ≠ 0 →
          ∃ records, ((s.produce cfg env q).2.fetch cfg env' q.topic ack.partition ack.offset
            maxBytes).1 = .ok records ∧ Shows ack (q.input.record env.timestampMs) records) := by
  have h : Agreeing cfg s := run_invariant
    (fun _ _ _ hp hq hs => by cases hs; exact hp.step hq) (startup_agreeing hn hs) hq hr
  exact ⟨h.agree, fun hone env q ack w hd hq happend => h.durable_produce hone hd hq happend⟩

/-! ## Two ways to disagree -/

/-- File operations that succeed; there is nothing on disk. -/
def Env.fresh : Env :=
  ⟨⟨fun _ _ => .ok [], fun _ => .ok (), fun _ _ => .ok ()⟩, fun _ => true, 5, fun _ _ => 0,
    ⟨0, fun _ _ => 0, [], fun _ => false, none⟩⟩

/-- A single broker with `auto_create_topics`, one partition by default. -/
def singleBroker : Settings where
  nodes := [1]
  replicationFactor := 1
  minInSyncReplicas := 1
  sorted := by decide
  replication_le := by decide
  min_pos := by decide
  min_le := by decide
  self := 1
  self_mem := by decide
  autoCreateTopics := true
  defaultPartitionCount := 1
  default_pos := by decide

/-- The coordinator of an empty data directory. -/
def emptyGroups (defaultPartitionCount : Nat) : Group.Coordinator :=
  ⟨[], defaultPartitionCount, fun _ => none, 10, fun _ => none, ⟨[], fun _ => none⟩⟩

def emptyNode (defaultPartitionCount : Nat) : Node :=
  ⟨recoverStorage [], parseEntries [], emptyGroups defaultPartitionCount, []⟩

theorem startup_empty (cfg : Settings) (env : Group.Env) (persists : Entries → Bool)
    (defaultPartitionCount : Nat) :
    startup cfg env persists [] [] (emptyGroups defaultPartitionCount) =
      some (emptyNode defaultPartitionCount) := by
  simp [startup, Node.startTopics, emptyNode]

/-- A durable produce to a topic that does not exist. -/
def orderPlaced : ProduceTo := ⟨"orders", none, ⟨[], [7], none⟩, .durable⟩

/-- **The first durable produce to an auto-created topic fails** although its record is stored: the
topic has no leadership entry. -/
theorem auto_created_topic_has_no_leadership :
    letI := Checksum.crc32
    startup singleBroker Env.fresh.group Env.fresh.persists [] [] (emptyGroups 1) = some (emptyNode 1) ∧
    ((emptyNode 1).worker.appendRecord singleBroker Env.fresh "orders" none ⟨[], [7], none⟩
      .durable).1 = .ok ⟨0, 0⟩ ∧
    ((emptyNode 1).produce singleBroker Env.fresh orderPlaced).1 = .error (.missingPartition 0) ∧
    ¬ ((emptyNode 1).step singleBroker (Env.fresh, .produce orderPlaced)).Agree := by
  let _ := Checksum.crc32
  refine ⟨startup_empty _ _ _ _, rfl, rfl, fun h => ?_⟩
  exact absurd (h.entries "orders" 1 rfl 0 (by decide)) (by decide +kernel)

/-- Broker 2 of three, one partition by default. -/
def secondBroker : Settings :=
  { singleBroker with
    nodes := [1, 2, 3]
    sorted := Cluster.threeNodes.sorted
    replication_le := by decide
    self := 2
    self_mem := by decide }

/-- **A topic taken over from the controller is miscounted** by the group coordinator. -/
theorem synced_topic_is_miscounted :
    letI := Checksum.crc32
    startup secondBroker Env.fresh.group Env.fresh.persists [] [] (emptyGroups 1) = some (emptyNode 1) ∧
    ¬ ((emptyNode 1).step secondBroker
      (Env.fresh, .sync [⟨"orders", 3, [1, 2, 3], [0, 0, 0], [0, 0, 0]⟩])).Agree := by
  let _ := Checksum.crc32
  refine ⟨startup_empty _ _ _ _, fun h => ?_⟩
  exact absurd (h.groups "orders" 3 rfl) (by decide +kernel)

/-- A topic is created and used. -/
def createdRun : List (Env × Call) :=
  [(Env.fresh, .createTopic "orders" 2), (Env.fresh, .produce orderPlaced)]

theorem registries_agree_created :
    letI := Checksum.crc32
    ∃ s, run (fun s call => some (s.step singleBroker call)) (emptyNode 1) createdRun = some s ∧
      s.Agree ∧ (s.produce singleBroker Env.fresh orderPlaced).1 = .ok ⟨1, 0⟩ ∧
      ∃ records, ((s.produce singleBroker Env.fresh orderPlaced).2.fetch singleBroker Env.fresh
        "orders" 1 0 1).1 = .ok records ∧ Shows ⟨1, 0⟩ ⟨none, [7], 5, none⟩ records := by
  let _ := Checksum.crc32
  have hq : Along (fun s call => some (Node.step singleBroker s call)) (KeepsRegistries singleBroker)
      (emptyNode 1) createdRun := by
    refine ⟨fun _ => ⟨(fun p hp => by cases hp), rfl⟩, fun s hs => ?_⟩
    cases hs
    refine ⟨⟨fun _ => ready_of_known (n := 2) rfl, fun _ _ _ => rfl⟩, fun s hs => ?_⟩
    trivial
  obtain ⟨hagree, hproduce⟩ := @registries_agree _ singleBroker Env.fresh.group Env.fresh.persists
    [] [] (emptyGroups 1) (emptyNode 1) _ createdRun (List.forall_mem_nil _)
    (startup_empty _ _ _ _) hq rfl
  obtain ⟨hack, hfetch⟩ := hproduce rfl Env.fresh orderPlaced ⟨1, 0⟩ _ rfl
    ⟨fun _ => ready_of_known (n := 2) rfl, fun _ _ _ => rfl⟩ rfl
  exact ⟨_, rfl, hagree, hack, hfetch Env.fresh 1 (by decide)⟩

end SevlaMq.Broker
