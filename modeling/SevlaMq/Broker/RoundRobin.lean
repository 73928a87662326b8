import SevlaMq.Broker.Growth
import SevlaMq.Lib.RoundRobin
import SevlaMq.Protocol.Messages

/-!
# Records that are dealt to the partitions of a topic

`select_partition` hashes a key and otherwise asks a counter that `run_storage_worker` keeps for the
topic.  The counter is shared by everything the worker does and moves on one branch only.

* `StorageCommand`, `Worker.perform` — the commands of `run_storage_worker`.
* `Write` — a record that was added to a log; `Write.inTurn` — it had no key, no producer and no
  partition of its own.
* `Observed.step` — a command whose log appends succeed, with the records it adds.
* `Fair` — the invariant; `round_robin_fair` — what each partition of a topic has received.
-/

set_option autoImplicit false

namespace SevlaMq.Broker

open SevlaMq.Storage SevlaMq.Cluster

/-! ## Commands -/

/-- `StorageCommand` without the reply channels. -/
inductive StorageCommand where
  | createTopic (topic : String) (partitions : Nat)
  | listTopics
  | append (topic : String) (partition : Option Nat) (input : ProduceInput) (ackMode : AckMode)
  | appendBatch (topic : String) (partition : Option Nat) (records : List Protocol.BatchRecord)
      (ackMode : AckMode)
  | read (topic : String) (partition offset maxBytes : Nat)
  | replicate (topic : String) (partition offset : Nat) (record : Record) (durable : Bool)
  | partitionOffset (topic : String) (partition : Nat)
  | truncate (topic : String) (partition offset : Nat)
  | snapshot
  | applyRetention

/-- What `append_batch_records` makes of a record: it has no producer. -/
def batchInput (record : Protocol.BatchRecord) : ProduceInput := ⟨record.key, record.payload, none⟩

namespace Worker

/-- `truncate_partition`. -/
def truncatePartition (w : Worker) (topic : String) (partition offset : Nat) :
    Except StorageError Unit × Worker :=
  match w.logs topic partition with
  | none => (.error (.unknownPartition partition), w)
  | some log =>
    match log.truncateTo offset with
    | .error e => (.error e, w)
    | .ok log => (.ok (), w.insertLog topic partition log)

/-- One pass of the loop of `run_storage_worker`.  A log here is the list of all records it was
given since it was last cut; what retention removes from its files (`PartitionLog.applyRetention`)
is not seen at this level. -/
def perform [Checksum] (cfg : Settings) (w : Worker) : Env × StorageCommand → Worker
  | (env, .createTopic topic partitions) => (createTopic env.files w topic partitions).2
  | (_, .listTopics) => w
  | (env, .append topic partition input ackMode) =>
    (appendRecord cfg env w topic partition input ackMode).2
  | (env, .appendBatch topic partition records ackMode) =>
    (appendBatchRecords cfg env w topic partition (records.map batchInput) ackMode).2
  | (env, .read topic partition offset maxBytes) =>
    (readRecords cfg env.files w topic partition offset maxBytes).2
  | (env, .replicate topic partition offset record durable) =>
    (appendReplica env.files w topic partition offset record durable).2
  | (_, .partitionOffset _ _) => w
  | (_, .truncate topic partition offset) => (w.truncatePartition topic partition offset).2
  | (_, .snapshot) => w
  | (_, .applyRetention) => w

end Worker

/-! ## The records that are added -/

/-- A record in the log of `partition`, and the partition its request named. -/
structure Write where
  topic : String
  requested : Option Nat
  input : ProduceInput
  partition : Nat
  deriving DecidableEq, Repr

/-- A record of the topic with no key, no producer and no partition of its own. -/
def Write.inTurn (x : Write) (topic : String) : Bool :=
  x.topic = topic && x.requested = none && x.input.key = [] && x.input.producer = none

/-- Where the records of the topic went that were given to a partition in turn. -/
def dealt (topic : String) (writes : List Write) : List Nat :=
  (writes.filter (·.inTurn topic)).map (·.partition)

namespace Worker

variable [Checksum]

/-- The partition an append chooses, if it gets that far, and the worker after the choice. -/
def chosen (cfg : Settings) (env : Env) (w : Worker) (topic : String) (partition : Option Nat)
    (input : ProduceInput) : Option (Nat × Worker) :=
  match ensureTopic cfg env.files w topic with
  | (.error _, _) => none
  | (.ok partitionCount, w) =>
    match choosePartition partitionCount w topic partition input with
    | (.error _, _) => none
    | (.ok partition, w) => some (partition, w)

omit [Checksum] in
/-- The partition has a log, and the log takes the record. -/
def accepts (env : Env) (w : Worker) (topic : String) (partition : Nat) (input : ProduceInput) :
    Bool :=
  match w.logs topic partition with
  | none => false
  | some log =>
    match log.append (input.record env.timestampMs) with
    | .error _ => false
    | .ok _ => true

/-- A record for which a partition is chosen is added to its log. -/
def recordSucceeds (cfg : Settings) (env : Env) (w : Worker) (topic : String)
    (partition : Option Nat) (input : ProduceInput) : Bool :=
  match chosen cfg env w topic partition input with
  | none => true
  | some (partition, w) => accepts env w topic partition input

def recordWrites (cfg : Settings) (env : Env) (w : Worker) (topic : String)
    (partition : Option Nat) (input : ProduceInput) : List Write :=
  match chosen cfg env w topic partition input with
  | none => []
  | some (p, w) => if accepts env w topic p input then [⟨topic, partition, input, p⟩] else []

def batchSucceeds (cfg : Settings) (env : Env) (topic : String) (partition : Option Nat) :
    List ProduceInput → Worker → Bool
  | [], _ => true
  | input :: inputs, w =>
    recordSucceeds cfg env w topic partition input &&
      match appendRecord cfg env w topic partition input .leader with
      | (.error _, _) => true
      | (.ok _, w) => batchSucceeds cfg env topic partition inputs w

def batchWrites (cfg : Settings) (env : Env) (topic : String) (partition : Option Nat) :
    List ProduceInput → Worker → List Write
  | [], _ => []
  | input :: inputs, w =>
    recordWrites cfg env w topic partition input ++
      match appendRecord cfg env w topic partition input .leader with
      | (.error _, _) => []
      | (.ok _, w) => batchWrites cfg env topic partition inputs w

/-- The log appends of a command succeed. -/
def succeeds (cfg : Settings) (w : Worker) : Env × StorageCommand → Bool
  | (env, .append topic partition input _) => recordSucceeds cfg env w topic partition input
  | (env, .appendBatch topic partition records _) =>
    batchSucceeds cfg env topic partition (records.map batchInput) w
  | _ => true

/-- The records a command adds on behalf of producers. -/
def writes (cfg : Settings) (w : Worker) : Env × StorageCommand → List Write
  | (env, .append topic partition input _) => recordWrites cfg env w topic partition input
  | (env, .appendBatch topic partition records _) =>
    batchWrites cfg env topic partition (records.map batchInput) w
  | _ => []

end Worker

/-- The storage worker and the records that were added so far. -/
structure Observed where
  worker : Worker
  writes : List Write

/-- The worker as it starts, on the partitions found on disk. -/
def Observed.startup (found : List (String × Nat × RecordLog)) : Observed :=
  ⟨recoverStorage found, []⟩

/-- One command whose log appends succeed. -/
def Observed.step [Checksum] (cfg : Settings) (s : Observed) (c : Env × StorageCommand) :
    Option Observed :=
  if s.worker.succeeds cfg c then some ⟨s.worker.perform cfg c, s.writes ++ s.worker.writes cfg c⟩
  else none

/-! ## What a command does to topics and counters -/

namespace Worker

variable {cfg : Settings} {env : Env} {files : Files} {w w' w₁ : Worker} {t : String} {n p : Nat}

/-- The counters stay, and topics with at least one partition may be added. -/
structure Turnless (w w' : Worker) : Prop where
  counters : w'.roundRobin = w.roundRobin
  topics : ∀ t n, w.topics t = some n → w'.topics t = some n
  added : ∀ t n, w.topics t = none → w'.topics t = some n → 0 < n

theorem Turnless.of_eq (hc : w'.roundRobin = w.roundRobin) (ht : w'.topics = w.topics) :
    Turnless w w' where
  counters := hc
  topics := fun t n h => by rw [ht, h]
  added := fun t n hnone h => by
    rw [ht, hnone] at h
    cases h

theorem Turnless.refl (w : Worker) : Turnless w w := .of_eq rfl rfl

theorem openPartitions_counters :
    ∀ {ps : List Nat} {w w' : Worker} {res : Except StorageError Unit},
    openPartitions files t ps w = (res, w') → w'.roundRobin = w.roundRobin
  | [], w, w', res, h => by
    cases h
    rfl
  | p :: ps, w, w', res, h => by
    rw [openPartitions] at h
    split at h
    · exact openPartitions_counters h
    · split at h
      · cases h
        rfl
      · have hrest := openPartitions_counters h
        exact hrest

theorem createTopic_turnless {res : Except StorageError Nat}
    (h : createTopic files w t n = (res, w')) : Turnless w w' := by
  unfold createTopic at h
  split at h
  · cases h
    exact .refl w
  rename_i hpos
  split at h
  · cases h
    exact .refl w
  rename_i hfresh
  split at h
  · rename_i hopen
    cases h
    exact .of_eq (openPartitions_counters hopen) (openPartitions_topics hopen)
  rename_i w₁ hopen
  have hcounters := openPartitions_counters hopen
  have htopics := openPartitions_topics hopen
  split at h
  · cases h
    exact .of_eq hcounters htopics
  · cases h
    have hnone : w.topics t = none := by simpa using hfresh
    refine ⟨hcounters, fun x m hx => ?_, fun x m hx hadded => ?_⟩
    · have hother : x ≠ t := by
        rintro rfl
        rw [hnone] at hx
        cases hx
      simp only [insertTopic, if_neg hother, htopics, hx]
    · simp only [insertTopic, htopics] at hadded
      split at hadded
      · cases hadded
        exact Nat.pos_of_ne_zero hpos
      · rw [hx] at hadded
        cases hadded

theorem ensureTopic_turnless {res : Except StorageError Nat}
    (h : ensureTopic cfg files w t = (res, w')) : Turnless w w' := by
  unfold ensureTopic at h
  split at h
  · cases h
    exact .refl w
  · split at h
    · cases h
      exact .refl w
    · exact createTopic_turnless h

/-- `ensure_topic` returns the partition count of the topic. -/
theorem ensureTopic_count (h : ensureTopic cfg files w t = (.ok n, w')) : w'.topics t = some n := by
  unfold ensureTopic at h
  split at h
  · rename_i hknown
    cases h
    exact hknown
  · split at h
    · cases h
    · rcases createTopic_spec h with ⟨e, he, _⟩ | ⟨hok, hadded⟩
      · cases he
      · cases hok
        rw [hadded.topics, if_pos rfl]

theorem partitionLog_turnless {res : Except StorageError RecordLog}
    (h : partitionLog files w t p n = (res, w')) : Turnless w w' := by
  unfold partitionLog at h
  split at h
  · cases h
    exact .refl w
  split at h
  · cases h
    exact .refl w
  split at h
  · cases h
    exact .refl w
  · cases h
    exact .of_eq rfl rfl

theorem Turnless.trans (h : Turnless w w₁) (h' : Turnless w₁ w') : Turnless w w' where
  counters := h'.counters.trans h.counters
  topics := fun t n ht => h'.topics t n (h.topics t n ht)
  added := by
    intro t n hnone hadded
    cases hmid : w₁.topics t with
    | none => exact h'.added t n hmid hadded
    | some m =>
      have hsame := h'.topics t m hmid
      rw [hadded] at hsame
      cases hsame
      exact h.added t n hnone hmid

theorem readRecords_turnless {offset maxBytes : Nat}
    {res : Except StorageError (List FetchedRecord)}
    (h : readRecords cfg files w t p offset maxBytes = (res, w')) : Turnless w w' := by
  unfold readRecords at h
  split at h
  · rename_i hensure
    cases h
    exact ensureTopic_turnless hensure
  rename_i hensure
  split at h
  · rename_i hlog
    cases h
    exact (ensureTopic_turnless hensure).trans (partitionLog_turnless hlog)
  rename_i hlog
  have hkept := (ensureTopic_turnless hensure).trans (partitionLog_turnless hlog)
  split at h
  · cases h
    exact hkept
  · cases h
    exact hkept

theorem appendReplica_turnless {offset : Nat} {record : Record} {durable : Bool} :
    Turnless w (appendReplica files w t p offset record durable).2 := by
  unfold appendReplica
  split
  · exact .refl w
  split
  · exact .refl w
  split
  · exact .refl w
  split
  · exact .refl w
  simp only
  split
  · split <;> exact .of_eq rfl rfl
  · exact .of_eq rfl rfl

theorem truncatePartition_turnless {offset : Nat} :
    Turnless w (w.truncatePartition t p offset).2 := by
  unfold truncatePartition
  split
  · exact .refl w
  split
  · exact .refl w
  · exact .of_eq rfl rfl

/-- An append changes topics and counters only up to the choice of the partition. -/
theorem appendRecord_chosen [Checksum] {partition : Option Nat} {input : ProduceInput}
    {ackMode : AckMode} {res : Except StorageError ProduceAck}
    (h : appendRecord cfg env w t partition input ackMode = (res, w')) :
    (chosen cfg env w t partition input = none ∧ Turnless w w') ∨
    ∃ p w₁, chosen cfg env w t partition input = some (p, w₁) ∧ Turnless w₁ w' := by
  unfold appendRecord at h
  split at h
  · rename_i hensure
    cases h
    exact Or.inl ⟨by simp only [chosen, hensure], ensureTopic_turnless hensure⟩
  rename_i count w₁ hensure
  split at h
  · rename_i hchoose
    cases h
    refine Or.inl ⟨by simp only [chosen, hensure, hchoose], ?_⟩
    refine (ensureTopic_turnless hensure).trans ?_
    unfold choosePartition at hchoose
    split at hchoose
    · split at hchoose
      · cases hchoose
        exact .refl _
      · cases hchoose
    · cases hchoose
  rename_i p w₂ hchoose
  refine Or.inr ⟨p, w₂, by simp only [chosen, hensure, hchoose], ?_⟩
  split at h
  · cases h
    exact .refl _
  split at h
  · cases h
    exact .refl _
  rename_i log' _
  have hw : w' = w₂.insertLog t p log' := by
    simp only at h
    split at h
    · split at h <;> cases h <;> rfl
    · cases h
      rfl
  rw [hw]
  exact .of_eq rfl rfl

/-- The counters are not kept on disk. -/
theorem recoverStorage_start : ∀ found : List (String × Nat × RecordLog),
    (recoverStorage found).roundRobin = (fun _ => 0) ∧
      ∀ t n, (recoverStorage found).topics t = some n → 0 < n
  | [] => by
    refine ⟨rfl, fun t n ht => ?_⟩
    cases ht
  | (topic, partition, log) :: rest => by
    obtain ⟨hcounters, hpos⟩ := recoverStorage_start rest
    refine ⟨hcounters, fun t n ht => ?_⟩
    simp only [recoverStorage, insertTopic, insertLog] at ht
    split at ht
    · cases ht
      omega
    · exact hpos t n ht

end Worker

/-! ## Fairness -/

/-- For every topic, the records without key, producer and partition went to the partitions in turn,
and the counter of the topic says whose turn it is. -/
structure Fair (w : Worker) (writes : List Write) : Prop where
  positive : ∀ t n, w.topics t = some n → 0 < n
  unknown : ∀ t, w.topics t = none → w.roundRobin t = 0
  written : ∀ x ∈ writes, ∃ n, w.topics x.topic = some n ∧ x.partition < n
  turns : ∀ t n, w.topics t = some n → Turns n (w.roundRobin t) (dealt t writes)

/-- Such a record has no routing key. -/
theorem inTurn_iff {x : Write} {t : String} :
    x.inTurn t = true ↔
      x.topic = t ∧ x.requested = none ∧ Worker.routingKey x.input = none := by
  have hkey : Worker.routingKey x.input = none ↔ x.input.key = [] ∧ x.input.producer = none := by
    unfold Worker.routingKey
    split
    · rename_i hempty
      simp [hempty]
    · rename_i hne
      simp [hne]
  rw [hkey]
  simp [Write.inTurn, and_assoc]

theorem dealt_append (t : String) (xs ys : List Write) :
    dealt t (xs ++ ys) = dealt t xs ++ dealt t ys := by
  simp [dealt]

theorem dealt_singleton {t : String} {x : Write} (h : x.inTurn t = true) :
    dealt t [x] = [x.partition] := by
  simp [dealt, h]

theorem dealt_other {t : String} {x : Write} (h : x.inTurn t = false) : dealt t [x] = [] := by
  simp [dealt, h]

namespace Fair

variable {cfg : Settings} {env : Env} {w w' : Worker} {writes : List Write} {t : String}

/-- Nothing has been dealt to the partitions of a topic that does not exist. -/
theorem dealt_unknown (h : Fair w writes) (ht : w.topics t = none) : dealt t writes = [] := by
  unfold dealt
  rw [List.map_eq_nil_iff, List.filter_eq_nil_iff]
  intro x hx hturn
  obtain ⟨n, hn, _⟩ := h.written x hx
  rw [(inTurn_iff.1 hturn).1, ht] at hn
  cases hn

theorem turnless (h : Fair w writes) (hk : w.Turnless w') : Fair w' writes where
  positive := by
    intro t n ht
    cases hw : w.topics t with
    | none => exact hk.added t n hw ht
    | some m =>
      have hsame := hk.topics t m hw
      rw [ht] at hsame
      cases hsame
      exact h.positive t n hw
  unknown := by
    intro t ht
    rw [hk.counters]
    refine h.unknown t ?_
    cases hw : w.topics t with
    | none => rfl
    | some m =>
      rw [hk.topics t m hw] at ht
      cases ht
  written := by
    intro x hx
    obtain ⟨n, hn, hlt⟩ := h.written x hx
    exact ⟨n, hk.topics _ n hn, hlt⟩
  turns := by
    intro t n ht
    rw [hk.counters]
    cases hw : w.topics t with
    | none =>
      rw [h.unknown t hw, h.dealt_unknown hw]
      exact .nil n
    | some m =>
      have hsame := hk.topics t m hw
      rw [ht] at hsame
      cases hsame
      exact h.turns t n hw

/-- A record that is not dealt. -/
theorem write (h : Fair w writes) {x : Write} {n : Nat} (hn : w.topics x.topic = some n)
    (hlt : x.partition < n) (hx : ∀ t, x.inTurn t = false) : Fair w (writes ++ [x]) where
  positive := h.positive
  unknown := h.unknown
  written := by
    intro y hy
    rcases List.mem_append.1 hy with hold | hnew
    · exact h.written y hold
    · rw [List.mem_singleton.1 hnew]
      exact ⟨n, hn, hlt⟩
  turns := by
    intro t m ht
    rw [dealt_append, dealt_other (hx t), List.append_nil]
    exact h.turns t m ht

/-- **One turn**: the counter of the topic gives the partition and moves on. -/
theorem turn (h : Fair w writes) {x : Write} {n : Nat} (hn : w.topics x.topic = some n)
    (hp : x.partition = w.roundRobin x.topic) (hx : x.inTurn x.topic = true)
    (hc : w'.roundRobin = fun t =>
      if t = x.topic then (w.roundRobin x.topic + 1) % n else w.roundRobin t)
    (ht : w'.topics = w.topics) : Fair w' (writes ++ [x]) where
  positive := by
    rw [ht]
    exact h.positive
  unknown := by
    intro t hnone
    rw [ht] at hnone
    have hother : t ≠ x.topic := by
      rintro rfl
      rw [hn] at hnone
      cases hnone
    rw [hc]
    simp only [if_neg hother]
    exact h.unknown t hnone
  written := by
    intro y hy
    rw [ht]
    rcases List.mem_append.1 hy with hold | hnew
    · exact h.written y hold
    · rw [List.mem_singleton.1 hnew]
      exact ⟨n, hn, hp ▸ (h.turns _ n hn).next_lt (h.positive _ n hn)⟩
  turns := by
    intro t m hm
    rw [ht] at hm
    rw [dealt_append, hc]
    by_cases heq : t = x.topic
    · subst heq
      rw [hn] at hm
      cases hm
      beta_reduce
      rw [if_pos rfl, dealt_singleton hx, hp]
      exact (h.turns _ n hn).take
    · have hother : x.inTurn t = false := by
        simp [Write.inTurn, Ne.symm heq]
      simp only [if_neg heq]
      rw [dealt_other hother, List.append_nil]
      exact h.turns t m hm

/-- One record. -/
theorem append [Checksum] (h : Fair w writes) {partition : Option Nat} {input : ProduceInput}
    {ackMode : AckMode} {res : Except StorageError ProduceAck}
    (hs : w.recordSucceeds cfg env t partition input = true)
    (ha : w.appendRecord cfg env t partition input ackMode = (res, w')) :
    Fair w' (writes ++ w.recordWrites cfg env t partition input) := by
  unfold Worker.recordSucceeds at hs
  unfold Worker.recordWrites
  rcases Worker.appendRecord_chosen ha with ⟨hnone, hkept⟩ | ⟨p, w₂, hchosen, hkept⟩
  · simp only [hnone]
    rw [List.append_nil]
    exact h.turnless hkept
  simp only [hchosen] at hs ⊢
  rw [if_pos hs]
  refine Fair.turnless ?_ hkept
  -- what the choice did to the counter
  unfold Worker.chosen at hchosen
  split at hchosen
  · cases hchosen
  rename_i count w₁ hensure
  have h₁ := h.turnless (Worker.ensureTopic_turnless hensure)
  have hcount := Worker.ensureTopic_count hensure
  have hpos := h₁.positive t count hcount
  split at hchosen
  · cases hchosen
  rename_i hchoose
  cases hchosen
  unfold Worker.choosePartition at hchoose
  split at hchoose
  · rename_i q
    split at hchoose
    · cases hchoose
    · rename_i hlt
      cases hchoose
      refine h₁.write hcount (Nat.not_le.1 hlt) fun t' => ?_
      simp [Write.inTurn]
  · unfold Worker.selectPartition at hchoose
    cases hkey : Worker.routingKey input with
    | some key =>
      simp only [hkey] at hchoose
      cases hchoose
      refine h₁.write hcount (Nat.mod_lt _ hpos) fun t' => ?_
      rw [Bool.eq_false_iff]
      intro hturn
      rw [(inTurn_iff.1 hturn).2.2] at hkey
      cases hkey
    | none =>
      simp only [hkey] at hchoose
      cases hchoose
      exact h₁.turn hcount rfl (inTurn_iff.2 ⟨rfl, rfl, hkey⟩) rfl rfl

/-- The records of a batch, up to the first that fails. -/
theorem appendAll [Checksum] {partition : Option Nat} :
    ∀ {inputs : List ProduceInput} {w w' : Worker} {writes : List Write}
      {res : Except StorageError (List ProduceAck)}, Fair w writes →
    Worker.batchSucceeds cfg env t partition inputs w = true →
    Worker.appendAll cfg env t partition inputs w = (res, w') →
    Fair w' (writes ++ Worker.batchWrites cfg env t partition inputs w)
  | [], w, w', writes, res, h, _, ha => by
    cases ha
    rw [Worker.batchWrites, List.append_nil]
    exact h
  | input :: inputs, w, w', writes, res, h, hs, ha => by
    rw [Worker.batchSucceeds, Bool.and_eq_true] at hs
    obtain ⟨hrecord, hrest⟩ := hs
    rw [Worker.appendAll] at ha
    rw [Worker.batchWrites]
    cases hfirst : Worker.appendRecord cfg env w t partition input .leader with
    | mk first w₁ =>
      have h₁ := h.append hrecord hfirst
      rw [hfirst] at ha hrest
      cases first with
      | error e =>
        cases ha
        simp only [List.append_nil]
        exact h₁
      | ok ack =>
        simp only at ha hrest ⊢
        cases hall : Worker.appendAll cfg env t partition inputs w₁ with
        | mk rest w₂ =>
          have h₂ := h₁.appendAll hrest hall
          rw [hall] at ha
          rw [← List.append_assoc]
          cases rest <;> cases ha <;> exact h₂

/-- **A command whose log appends succeed.** -/
theorem perform [Checksum] (h : Fair w writes) {c : Env × StorageCommand}
    (hs : w.succeeds cfg c = true) : Fair (w.perform cfg c) (writes ++ w.writes cfg c) := by
  obtain ⟨env, command⟩ := c
  have hquiet : ∀ {w' : Worker}, w.Turnless w' → Fair w' (writes ++ []) := by
    intro w' hk
    rw [List.append_nil]
    exact h.turnless hk
  cases command with
  | append topic partition input ackMode => exact h.append hs rfl
  | appendBatch topic partition records ackMode =>
    obtain ⟨res, hall, _⟩ := Worker.appendBatchRecords_cases
      (rfl :
        Worker.appendBatchRecords cfg env w topic partition (records.map batchInput) ackMode = _)
    exact h.appendAll hs hall
  | createTopic topic partitions => exact hquiet (Worker.createTopic_turnless rfl)
  | read topic partition offset maxBytes => exact hquiet (Worker.readRecords_turnless rfl)
  | replicate topic partition offset record durable => exact hquiet Worker.appendReplica_turnless
  | truncate topic partition offset => exact hquiet Worker.truncatePartition_turnless
  | listTopics => exact hquiet (.refl w)
  | partitionOffset topic partition => exact hquiet (.refl w)
  | snapshot => exact hquiet (.refl w)
  | applyRetention => exact hquiet (.refl w)

theorem startup (found : List (String × Nat × RecordLog)) : Fair (recoverStorage found) [] where
  positive := (Worker.recoverStorage_start found).2
  unknown := by
    intro t _
    rw [(Worker.recoverStorage_start found).1]
  written := fun x hx => absurd hx List.not_mem_nil
  turns := by
    intro t n _
    rw [(Worker.recoverStorage_start found).1]
    exact .nil n

end Fair

theorem fair_run [Checksum] {cfg : Settings} {found : List (String × Nat × RecordLog)}
    {commands : List (Env × StorageCommand)} {s : Observed}
    (h : run (Observed.step cfg) (.startup found) commands = some s) : Fair s.worker s.writes := by
  refine @run_invariant _ _ (Observed.step cfg) (fun _ _ => True)
    (fun s => Fair s.worker s.writes) ?_ commands (.startup found) s (Fair.startup found)
    (.of_forall fun _ _ => trivial) h
  intro s c s' hfair _ hstep
  unfold Observed.step at hstep
  split at hstep
  · rename_i hs
    cases hstep
    exact hfair.perform hs
  · cases hstep

/-- **Round robin is fair under any traffic.**  In every run of the storage worker from startup in
which log appends succeed, the records of a topic without key, producer and partition go to its
partitions `0, 1, …, n - 1, 0, …`, whatever else is appended in between: of `m` of them, partition
`i` receives `⌈(m - i) / n⌉`. -/
theorem round_robin_fair [Checksum] {cfg : Settings} {found : List (String × Nat × RecordLog)}
    {commands : List (Env × StorageCommand)} {s : Observed}
    (h : run (Observed.step cfg) (.startup found) commands = some s) {topic : String} {n : Nat}
    (hn : s.worker.topics topic = some n) :
    let received := dealt topic s.writes
    0 < n ∧ received = (List.range received.length).map (· % n) ∧
      (∀ i < n, received.count i = (received.length - i) ⌈/⌉ n) ∧
      ∀ x ∈ s.writes, x.topic = topic → x.partition < n := by
  have hfair := fair_run h
  have hturns := hfair.turns topic n hn
  refine ⟨hfair.positive topic n hn, hturns.inOrder, fun i hi => hturns.count hi, ?_⟩
  rintro x hx rfl
  obtain ⟨m, hm, hlt⟩ := hfair.written x hx
  rw [hn] at hm
  cases hm
  exact hlt

/-- A topic of three partitions, and records of every kind: in turn, with a key, with a producer,
with a partition of its own, in a batch, and of another topic. -/
def mixedTraffic : List (Env × StorageCommand) :=
  [(.fresh, .createTopic "payments" 3),
    (.fresh, .append "payments" none ⟨[], [1], none⟩ .leader),
    (.fresh, .append "payments" none ⟨[7], [2], none⟩ .durable),
    (.fresh, .append "orders" none ⟨[], [3], none⟩ .leader),
    (.fresh, .append "payments" (some 0) ⟨[], [4], none⟩ .leader),
    (.fresh, .append "payments" none ⟨[], [5], some ⟨"till", 0⟩⟩ .leader),
    (.fresh, .appendBatch "payments" none [⟨[], [6]⟩, ⟨[8], [7]⟩, ⟨[], [8]⟩] .leader),
    (.fresh, .applyRetention),
    (.fresh, .append "payments" none ⟨[], [9], none⟩ .durable)]

theorem round_robin_fair_mixed :
    letI := Checksum.crc32
    ∃ s, run (Observed.step singleBroker) (.startup []) mixedTraffic = some s ∧
      dealt "payments" s.writes = [0, 1, 2, 0] ∧
      ∀ i < 3, (dealt "payments" s.writes).count i = [2, 1, 1].getD i 0 := by
  let _ := Checksum.crc32
  have hrun : (run (Observed.step singleBroker) (.startup []) mixedTraffic).map
      (fun s => (s.worker.topics "payments", dealt "payments" s.writes)) =
        some (some 3, [0, 1, 2, 0]) := by
    decide +kernel
  obtain ⟨s, hs, hpair⟩ := Option.map_eq_some_iff.1 hrun
  obtain ⟨htopic, hdealt⟩ := Prod.mk.inj hpair
  obtain ⟨_, _, hcount, _⟩ := round_robin_fair hs htopic
  refine ⟨s, hs, hdealt, fun i hi => ?_⟩
  rw [hcount i hi, hdealt]
  match i, hi with
  | 0, _ => rfl
  | 1, _ => rfl
  | 2, _ => rfl

end SevlaMq.Broker
