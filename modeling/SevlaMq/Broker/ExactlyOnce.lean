import SevlaMq.Broker.StorageHandle
import SevlaMq.Storage.Producers

/-!
# Idempotent producers of a topic

A record with a producer and without key or partition goes to the partition its producer id hashes
to, so all records of the producer meet in one log, whose sequence check then holds for the topic.

* `Homed` — a log that holds the records of its own producers only, in the order of their sequences.
* `Exact` — the invariant of a topic; `Exact.perform` — one command of the worker.
* `producers_exactly_once` — however often and by however many tasks a record is sent, it is stored
  in one place, and that is the place every acknowledgement names.
-/

set_option autoImplicit false

namespace SevlaMq.Broker

open SevlaMq.Storage SevlaMq.Cluster

/-! ## One place in a log -/

/-- No two records of a log carry the same sequence of a producer. -/
theorem sequenced_unique {log : RecordLog} (h : Sequenced .empty 0 log) {o o' : Nat} {r r' : Record}
    {i : ProducerIdentity} (ho : log[o]? = some r) (ho' : log[o']? = some r')
    (hr : r.producer = some i) (hr' : r'.producer = some i) : o = o' := by
  have hmem : ∀ {o : Nat} {r : Record}, log[o]? = some r → r.producer = some i →
      (i.sequence, o) ∈ producedBy i.id (storedFrom 0 log) := by
    intro o r ho hr
    refine List.mem_filterMap.2 ⟨r.at o, List.mem_of_getElem? (i := o) ?_, ?_⟩
    · rw [storedFrom_getElem?, ho, Nat.zero_add]
      rfl
    · simp only [sequenceOf, Record.at, hr, if_true]
  have hnodup : ((producedBy i.id (storedFrom 0 log)).map fun x => x.1.toNat).Nodup := by
    rw [sequenced_producedBy h]
    exact List.nodup_range'
  have heq := List.inj_on_of_nodup_map hnodup (hmem ho hr) (hmem ho' hr') rfl
  exact congrArg Prod.snd heq

theorem sequenced_append_ok {log log' : RecordLog} {r : Record} {offset : Nat}
    (h : Sequenced .empty 0 log) (happend : log.append r = .ok (offset, log')) :
    Sequenced .empty 0 log' := by
  unfold RecordLog.append at happend
  split at happend
  · cases happend
  · cases happend
    exact h
  · rename_i hadmitted
    split at happend
    · cases happend
    · rename_i hchecked
      cases happend
      refine (sequenced_append _ _ _ _).2 ⟨h, ⟨?_, hchecked⟩, trivial⟩
      exact hadmitted

/-! ## Logs that are opened -/

namespace Worker

variable {cfg : Settings} {env : Env} {files : Files} {w w₁ w' : Worker} {t : String} {n p : Nat}

/-- Topics may be added and logs opened, which are those of the file system. -/
structure Opens (files : Files) (w w' : Worker) : Prop where
  retains : w.Retains w'
  opened : ∀ t p log, w'.logs t p = some log →
    w.logs t p = some log ∨ files.openLog t p = .ok log

theorem Opens.refl (files : Files) (w : Worker) : Opens files w w :=
  ⟨.refl w, fun _ _ _ h => Or.inl h⟩

theorem Opens.trans (h : Opens files w w₁) (h' : Opens files w₁ w') : Opens files w w' where
  retains := h.retains.trans h'.retains
  opened := by
    intro t p log hlog
    rcases h'.opened t p log hlog with hlog | hfile
    · exact h.opened t p log hlog
    · exact Or.inr hfile

theorem opens_insertLog {log : RecordLog} (hnone : w.logs t p = none)
    (hfile : files.openLog t p = .ok log) : Opens files w (w.insertLog t p log) where
  retains := retains_insertLog hnone
  opened := by
    intro x q log' hlog'
    simp only [insertLog] at hlog'
    split at hlog'
    · rename_i heq
      cases hlog'
      rw [heq.1, heq.2]
      exact Or.inr hfile
    · exact Or.inl hlog'

theorem openPartitions_opens : ∀ {ps : List Nat} {w w' : Worker} {res : Except StorageError Unit},
    openPartitions files t ps w = (res, w') → Opens files w w'
  | [], w, w', res, h => by
    cases h
    exact .refl files w
  | p :: ps, w, w', res, h => by
    rw [openPartitions] at h
    split at h
    · exact openPartitions_opens h
    · rename_i hnone
      split at h
      · cases h
        exact .refl files w
      · rename_i hfile
        exact (opens_insertLog hnone hfile).trans (openPartitions_opens h)

theorem createTopic_opens {res : Except StorageError Nat}
    (h : createTopic files w t n = (res, w')) : Opens files w w' := by
  refine ⟨createTopic_retains h, fun x p log hlog => ?_⟩
  unfold createTopic at h
  split at h
  · cases h
    exact Or.inl hlog
  split at h
  · cases h
    exact Or.inl hlog
  split at h
  · rename_i hopen
    cases h
    exact (openPartitions_opens hopen).opened x p log hlog
  rename_i hopen
  split at h
  · cases h
    exact (openPartitions_opens hopen).opened x p log hlog
  · cases h
    exact (openPartitions_opens hopen).opened x p log hlog

theorem ensureTopic_opens {res : Except StorageError Nat}
    (h : ensureTopic cfg files w t = (res, w')) : Opens files w w' := by
  unfold ensureTopic at h
  split at h
  · cases h
    exact .refl files w
  · split at h
    · cases h
      exact .refl files w
    · exact createTopic_opens h

theorem readRecords_opens {offset maxBytes : Nat} {res : Except StorageError (List FetchedRecord)}
    (h : readRecords cfg files w t p offset maxBytes = (res, w')) : Opens files w w' := by
  unfold readRecords at h
  split at h
  · rename_i hensure
    cases h
    exact ensureTopic_opens hensure
  rename_i hensure
  have hlog : ∀ {n : Nat} {res : Except StorageError RecordLog} {w₁ w' : Worker},
      partitionLog files w₁ t p n = (res, w') → Opens files w₁ w' := by
    intro n res w₁ w' h
    unfold partitionLog at h
    split at h
    · cases h
      exact .refl files w₁
    rename_i hnone
    split at h
    · cases h
      exact .refl files w₁
    split at h
    · cases h
      exact .refl files w₁
    · rename_i hfile
      cases h
      exact opens_insertLog hnone hfile
  split at h
  · rename_i hopen
    cases h
    exact (ensureTopic_opens hensure).trans (hlog hopen)
  rename_i hopen
  split at h
  · cases h
    exact (ensureTopic_opens hensure).trans (hlog hopen)
  · cases h
    exact (ensureTopic_opens hensure).trans (hlog hopen)

end Worker

/-! ## Producers at home -/

variable [Checksum]

/-- The records of producers in a log are those of producers that belong to its partition, in the
order of their sequences. -/
structure Homed (n p : Nat) (log : RecordLog) : Prop where
  sequenced : Sequenced .empty 0 log
  home : ∀ r ∈ log, ∀ i, r.producer = some i → p = (Checksum.hash (utf8 i.id)).toNat % n

theorem Homed.nil (n p : Nat) : Homed n p [] := ⟨trivial, fun _ hr => absurd hr List.not_mem_nil⟩

theorem Homed.append {n p : Nat} {log log' : RecordLog} {r : Record} {offset : Nat}
    (h : Homed n p log) (happend : log.append r = .ok (offset, log'))
    (hr : ∀ i, r.producer = some i → p = (Checksum.hash (utf8 i.id)).toNat % n) :
    Homed n p log' := by
  refine ⟨sequenced_append_ok h.sequenced happend, fun x hx => ?_⟩
  rcases RecordLog.append_cases happend with rfl | ⟨_, rfl⟩
  · exact h.home x hx
  · rcases List.mem_append.1 hx with hx | hx
    · exact h.home x hx
    · rw [List.mem_singleton.1 hx]
      exact hr

/-! ## The topic -/

/-- Producers of the topic send neither keys nor partitions; its records are not replicated from
elsewhere, truncated or removed by retention, and logs that are opened for it are new. -/
def Unkeyed (t : String) : Env × StorageCommand → Prop := fun c =>
  (∀ p log, c.1.files.openLog t p = .ok log → log = []) ∧
  match c.2 with
  | .append topic partition input _ =>
    topic = t → input.producer.isSome → partition = none ∧ input.key = []
  | .replicate topic _ _ _ _ => topic ≠ t
  | .truncate topic _ _ => topic ≠ t
  | .applyRetention => False
  | _ => True

/-- Every log of the topic holds the records of its own producers. -/
structure Exact (t : String) (w : Worker) : Prop where
  known : ∀ n, w.topics t = some n → ∀ p log, w.logs t p = some log → Homed n p log
  unknown : w.topics t = none → ∀ p log, w.logs t p = some log → log = []

namespace Exact

/-- A broker that starts on an empty directory. -/
theorem startup (t : String) : Exact t (recoverStorage []) := by
  refine ⟨fun n hn => ?_, fun _ p log hlog => ?_⟩
  · cases hn
  · cases hlog

variable {cfg : Settings} {env : Env} {files : Files} {w w₁ w' : Worker} {t : String}

theorem opens (h : Exact t w) (ho : w.Opens files w')
    (hnew : ∀ p log, files.openLog t p = .ok log → log = []) : Exact t w' where
  known := by
    intro n hn p log hlog
    rcases ho.opened t p log hlog with hold | hfile
    · cases ht : w.topics t with
      | none =>
        rw [h.unknown ht p log hold]
        exact .nil n p
      | some m =>
        have hsame := ho.retains.topics t m ht
        rw [hn] at hsame
        cases hsame
        exact h.known n ht p log hold
    · rw [hnew p log hfile]
      exact .nil n p
  unknown := by
    intro hnone p log hlog
    have hold : w.topics t = none := by
      by_contra hsome
      obtain ⟨m, hm⟩ := Option.ne_none_iff_exists'.1 hsome
      rw [ho.retains.topics t m hm] at hnone
      cases hnone
    rcases ho.opened t p log hlog with hlog | hfile
    · exact h.unknown hold p log hlog
    · exact hnew p log hfile

/-- Only another topic has changed. -/
theorem other (h : Exact t w) (htopics : w'.topics t = w.topics t) (hlogs : w'.logs t = w.logs t) :
    Exact t w' where
  known := by
    intro n hn p log hlog
    rw [htopics] at hn
    rw [hlogs] at hlog
    exact h.known n hn p log hlog
  unknown := by
    intro hnone p log hlog
    rw [htopics] at hnone
    rw [hlogs] at hlog
    exact h.unknown hnone p log hlog

/-- **One record.** -/
theorem append (h : Exact t w) {topic : String} {partition : Option Nat} {input : ProduceInput}
    {ackMode : AckMode} {res : Except StorageError ProduceAck}
    (hnew : ∀ p log, env.files.openLog t p = .ok log → log = [])
    (hinput : topic = t → input.producer.isSome → partition = none ∧ input.key = [])
    (happend : w.appendRecord cfg env topic partition input ackMode = (res, w')) : Exact t w' := by
  obtain ⟨known, w₁, hensure, htopics, hcases⟩ := Worker.appendRecord_cases happend
  have h₁ := h.opens (Worker.ensureTopic_opens hensure) hnew
  rcases hcases with ⟨hlogs, _⟩ | ⟨n, p, log, offset, log', hknown, hp, hlog, hadded, hlogs, _⟩
  · exact h₁.other (by rw [htopics]) (by rw [hlogs])
  by_cases htopic : topic = t
  · subst htopic
    rw [hknown] at hensure
    have hcount := Worker.ensureTopic_count hensure
    refine ⟨fun m hm q log₁ hlog₁ => ?_, fun hnone => ?_⟩
    · rw [htopics, hcount] at hm
      cases hm
      rw [hlogs] at hlog₁
      simp only [Worker.insertLog] at hlog₁
      split at hlog₁
      · rename_i heq
        cases hlog₁
        rw [heq.2]
        refine (h₁.known n hcount p log hlog).append hadded fun i hi => ?_
        have hi' : input.producer = some i := hi
        obtain ⟨hpartition, hkey⟩ := hinput rfl (by rw [hi']; rfl)
        rcases hp with hp | ⟨_, hp⟩
        · rw [hpartition] at hp
          cases hp
        · refine hp (utf8 i.id) ?_
          rw [Worker.routingKey, if_pos hkey, hi']
          rfl
      · exact h₁.known n hcount q log₁ hlog₁
    · rw [htopics, hcount] at hnone
      cases hnone
  · refine h₁.other (by rw [htopics]) ?_
    rw [hlogs]
    funext q
    exact if_neg fun heq => htopic heq.1.symm

/-- **The records of a batch** have no producer. -/
theorem appendAll {topic : String} {partition : Option Nat}
    (hnew : ∀ p log, env.files.openLog t p = .ok log → log = []) :
    ∀ {inputs : List ProduceInput} {w w' : Worker} {res : Except StorageError (List ProduceAck)},
    Exact t w → (∀ input ∈ inputs, input.producer = none) →
    Worker.appendAll cfg env topic partition inputs w = (res, w') → Exact t w'
  | [], w, w', res, h, _, happend => by
    cases happend
    exact h
  | input :: inputs, w, w', res, h, hnone, happend => by
    have hfirst : topic = t → input.producer.isSome → partition = none ∧ input.key = [] := by
      intro _ hsome
      rw [hnone input List.mem_cons_self] at hsome
      cases hsome
    have hrest := fun x hx => hnone x (List.mem_cons_of_mem input hx)
    rw [Worker.appendAll] at happend
    split at happend
    · rename_i hone
      cases happend
      exact h.append hnew hfirst hone
    rename_i hone
    have h₁ := h.append hnew hfirst hone
    split at happend
    · rename_i hall
      cases happend
      exact appendAll hnew h₁ hrest hall
    · rename_i hall
      cases happend
      exact appendAll hnew h₁ hrest hall

end Exact

/-! ## Commands -/

namespace Worker

variable {cfg : Settings} {env : Env} {files : Files} {w w' : Worker} {t : String}

omit [Checksum] in
theorem insertLog_apart {x : String} (p : Nat) (log : RecordLog) (hx : x ≠ t) :
    (w.insertLog x p log).logs t = w.logs t :=
  funext fun _ => if_neg fun heq => hx heq.1.symm

omit [Checksum] in
theorem appendReplica_apart {topic : String} {partition offset : Nat} {record : Record}
    {durable : Bool} (h : topic ≠ t) :
    let w' := (appendReplica files w topic partition offset record durable).2
    w'.topics = w.topics ∧ w'.logs t = w.logs t := by
  unfold appendReplica
  split
  · exact ⟨rfl, rfl⟩
  split
  · exact ⟨rfl, rfl⟩
  split
  · exact ⟨rfl, rfl⟩
  split
  · exact ⟨rfl, rfl⟩
  simp only
  split
  · split <;> exact ⟨rfl, insertLog_apart _ _ h⟩
  · exact ⟨rfl, insertLog_apart _ _ h⟩

omit [Checksum] in
theorem truncatePartition_apart {topic : String} {partition offset : Nat} (h : topic ≠ t) :
    (w.truncatePartition topic partition offset).2.topics = w.topics ∧
      (w.truncatePartition topic partition offset).2.logs t = w.logs t := by
  unfold truncatePartition
  split
  · exact ⟨rfl, rfl⟩
  split
  · exact ⟨rfl, rfl⟩
  · exact ⟨rfl, insertLog_apart _ _ h⟩

/-- The logs of the topic only get longer. -/
def Lengthens (t : String) (w w' : Worker) : Prop :=
  ∀ p log, w.logs t p = some log → ∃ new, w'.logs t p = some (log ++ new)

omit [Checksum] in
theorem Grows.lengthens (h : w.Grows w') : w.Lengthens t w' :=
  fun p log hlog => h.logs (t, p) log hlog

theorem perform_lengthens {c : Env × StorageCommand} (hc : Unkeyed t c) :
    w.Lengthens t (w.perform cfg c) := by
  obtain ⟨env, command⟩ := c
  obtain ⟨_, hc⟩ := hc
  cases command with
  | createTopic topic partitions => exact (createTopic_retains rfl).grows.lengthens
  | append topic partition input ackMode => exact (appendRecord_grows rfl).lengthens
  | appendBatch topic partition records ackMode =>
    obtain ⟨_, hall, _⟩ := appendBatchRecords_cases (rfl : appendBatchRecords cfg env w topic
      partition (records.map batchInput) ackMode = _)
    exact (appendAll_grows hall).lengthens
  | read topic partition offset maxBytes => exact (readRecords_retains rfl).grows.lengthens
  | replicate topic partition offset record durable => exact (appendReplica_grows rfl).lengthens
  | truncate topic partition offset =>
    intro p log hlog
    refine ⟨[], ?_⟩
    rw [List.append_nil, ← hlog]
    exact congrFun (truncatePartition_apart hc).2 p
  | listTopics => exact (Grows.refl w).lengthens
  | partitionOffset topic partition => exact (Grows.refl w).lengthens
  | snapshot => exact (Grows.refl w).lengthens
  | applyRetention => exact hc.elim

end Worker

/-- **One command.** -/
theorem Exact.perform {cfg : Settings} {w : Worker} {t : String} {c : Env × StorageCommand}
    (h : Exact t w) (hc : Unkeyed t c) : Exact t (w.perform cfg c) := by
  obtain ⟨env, command⟩ := c
  obtain ⟨hnew, hc⟩ := hc
  cases command with
  | createTopic topic partitions => exact h.opens (Worker.createTopic_opens rfl) hnew
  | append topic partition input ackMode => exact h.append hnew hc rfl
  | appendBatch topic partition records ackMode =>
    obtain ⟨_, hall, _⟩ := Worker.appendBatchRecords_cases (rfl : Worker.appendBatchRecords cfg env
      w topic partition (records.map batchInput) ackMode = _)
    refine h.appendAll hnew (fun input hinput => ?_) hall
    obtain ⟨record, _, rfl⟩ := List.mem_map.1 hinput
    rfl
  | read topic partition offset maxBytes => exact h.opens (Worker.readRecords_opens rfl) hnew
  | replicate topic partition offset record durable =>
    obtain ⟨htopics, hlogs⟩ := Worker.appendReplica_apart hc
    exact h.other (congrFun htopics t) hlogs
  | truncate topic partition offset =>
    obtain ⟨htopics, hlogs⟩ := Worker.truncatePartition_apart hc
    exact h.other (congrFun htopics t) hlogs
  | listTopics => exact h
  | partitionOffset topic partition => exact h
  | snapshot => exact h
  | applyRetention => exact hc.elim

/-! ## Acknowledgements -/

/-- A record of the producer is at the place. -/
def Worker.Holds (w : Worker) (t : String) (i : ProducerIdentity) (ack : ProduceAck) : Prop :=
  ∃ log r, w.logs t ack.partition = some log ∧ log[ack.offset]? = some r ∧ r.producer = some i

/-- The command was an append for the producer, and its reply names the place. -/
def Acknowledges (t : String) (x : Served (Env × StorageCommand) StorageReply)
    (i : ProducerIdentity) (ack : ProduceAck) : Prop :=
  ∃ env partition input ackMode, x.command = (env, .append t partition input ackMode) ∧
    input.producer = some i ∧ x.reply = .ack (.ok ack)

omit [Checksum] in
theorem Worker.Holds.lengthens {w w' : Worker} {t : String} {i : ProducerIdentity}
    {ack : ProduceAck} (h : w.Holds t i ack) (hl : w.Lengthens t w') : w'.Holds t i ack := by
  obtain ⟨log, r, hlog, hr, hi⟩ := h
  obtain ⟨new, hnew⟩ := hl ack.partition log hlog
  refine ⟨_, r, hnew, ?_, hi⟩
  rw [List.getElem?_append_left (List.getElem?_eq_some_iff.1 hr).1, hr]

theorem Worker.serve_holds {cfg : Settings} {w : Worker} {t : String} {id : Nat}
    {c : Env × StorageCommand} {i : ProducerIdentity} {ack : ProduceAck}
    (h : Acknowledges t ⟨id, c, (w.serve cfg c).1⟩ i ack) : (w.perform cfg c).Holds t i ack := by
  obtain ⟨env, partition, input, ackMode, rfl, hi, hreply⟩ := h
  rcases happend : w.appendRecord cfg env t partition input ackMode with ⟨res, w'⟩
  simp only [serve, happend] at hreply
  cases hreply
  simp only [perform, happend]
  obtain ⟨_, w₁, _, _, ⟨_, e, he⟩ | ⟨_, p, log, offset, log', _, _, _, hadded, hlogs, hack⟩⟩ :=
    appendRecord_cases happend
  · cases he
  cases hack ack rfl
  obtain ⟨r, hr, hproducer, _⟩ := append_stores hadded
  exact ⟨log', r, by rw [hlogs, insertLog_self], hr, hproducer.trans hi⟩

/-- **One command after the other.** -/
theorem Exact.replays {cfg : Settings} {w w' : Worker} {t : String}
    {served : List (Served (Env × StorageCommand) StorageReply)} (h : Exact t w)
    (hserved : Replays (Worker.serve cfg) w served w') (hc : ∀ x ∈ served, Unkeyed t x.command) :
    Exact t w' ∧ ∀ x ∈ served, ∀ i ack, Acknowledges t x i ack → w'.Holds t i ack := by
  induction hserved with
  | nil => exact ⟨h, fun x hx => absurd hx List.not_mem_nil⟩
  | @concat w' served _ id c ih =>
    obtain ⟨hexact, hholds⟩ := ih fun x hx => hc x (List.mem_append_left _ hx)
    have hlast := hc _ (List.mem_append_right _ (List.mem_singleton.2 rfl))
    rw [w'.serve_perform cfg c]
    refine ⟨hexact.perform hlast, fun x hx i ack hack => ?_⟩
    rcases List.mem_append.1 hx with hx | hx
    · exact (hholds x hx i ack hack).lengthens (Worker.perform_lengthens hlast)
    · rw [List.mem_singleton.1 hx] at hack
      exact Worker.serve_holds hack

/-- A topic holds a sequence of a producer in one place. -/
theorem Exact.unique {w : Worker} {t : String} (h : Exact t w) {i : ProducerIdentity}
    {ack place : ProduceAck} (hack : w.Holds t i ack) (hplace : w.Holds t i place) :
    place = ack := by
  obtain ⟨log, r, hlog, hr, hi⟩ := hack
  obtain ⟨log', r', hlog', hr', hi'⟩ := hplace
  cases ht : w.topics t with
  | none =>
    rw [h.unknown ht _ log hlog] at hr
    cases hr
  | some n =>
    have hhome := h.known n ht _ log hlog
    have hhome' := h.known n ht _ log' hlog'
    have hpartition : place.partition = ack.partition :=
      (hhome'.home r' (List.mem_of_getElem? hr') i hi').trans
        (hhome.home r (List.mem_of_getElem? hr) i hi).symm
    rw [hpartition, hlog] at hlog'
    cases hlog'
    have hoffset := sequenced_unique hhome.sequenced hr' hr hi' hi
    obtain ⟨p, o⟩ := place
    cases hpartition
    cases hoffset
    rfl

/-- **A record of a producer is stored once in its topic**, however often and by however many tasks
it is sent, and whether or not they wait for the reply: every acknowledgement of it names the only
place of the topic that holds it. -/
theorem producers_exactly_once {cfg : Settings} {capacity : Nat} {w : Worker} {s : StorageHandle}
    {acts : List (QueueAction (Env × StorageCommand))} {t : String} (hexact : Exact t w)
    (h : run (StorageHandle.step cfg capacity) (QueueServer.start w) acts = some s)
    (hc : ∀ id c, .call id c ∈ acts → Unkeyed t c) {x : Served (Env × StorageCommand) StorageReply}
    (hx : x ∈ s.served) {i : ProducerIdentity} {ack : ProduceAck} (hack : Acknowledges t x i ack) :
    s.object.Holds t i ack ∧ ∀ place, s.object.Holds t i place → place = ack := by
  have hserial := QueueServer.Serial.of_run h
  have hcalled := QueueServer.Called.of_run h
  obtain ⟨hend, hholds⟩ := hexact.replays hserial.replays fun x hx =>
    hc x.id x.command (hcalled.accepted (x.id, x.command)
      (List.mem_append_left _ (List.mem_map.2 ⟨x, hx, rfl⟩)))
  have hheld := hholds x hx i ack hack
  exact ⟨hheld, fun place hplace => hend.unique hheld hplace⟩

/-- The first record of a till. -/
def payment : Env × StorageCommand :=
  (.fresh, .append "payments" none ⟨[], [5], some ⟨"till", 0⟩⟩ .durable)

/-- The till gives up waiting and sends its record again. -/
def retriedRun : List (QueueAction (Env × StorageCommand)) :=
  [.call 0 (.fresh, .createTopic "payments" 3), .send 0, .perform,
    .call 1 payment, .send 1, .drop 1, .call 2 payment, .send 2, .perform, .perform, .receive 2]

/-- What an acknowledged append has stored, and where. -/
def storedAt (x : Served (Env × StorageCommand) StorageReply) :
    Option (String × Option ProducerIdentity × ProduceAck) :=
  match x.command.2, x.reply with
  | .append t _ input _, .ack (.ok ack) => some (t, input.producer, ack)
  | _, _ => none

omit [Checksum] in
theorem retriedRun_unkeyed (id : Nat) (c : Env × StorageCommand) (h : .call id c ∈ retriedRun) :
    Unkeyed "payments" c := by
  have hnew : ∀ p log, Env.fresh.files.openLog "payments" p = .ok log → log = [] := by
    intro p log hlog
    cases hlog
    rfl
  simp only [retriedRun, List.mem_cons, QueueAction.call.injEq, reduceCtorEq, List.not_mem_nil,
    or_false, false_or] at h
  rcases h with ⟨_, rfl⟩ | ⟨_, rfl⟩ | ⟨_, rfl⟩
  · exact ⟨hnew, trivial⟩
  · exact ⟨hnew, fun _ _ => ⟨rfl, rfl⟩⟩
  · exact ⟨hnew, fun _ _ => ⟨rfl, rfl⟩⟩

omit [Checksum] in
theorem producers_exactly_once_retried :
    letI := Checksum.crc32
    ∃ s, run (StorageHandle.step singleBroker 4) (QueueServer.start (recoverStorage []))
        retriedRun = some s ∧
      s.object.Holds "payments" ⟨"till", 0⟩ ⟨2, 0⟩ ∧
      ∀ place, s.object.Holds "payments" ⟨"till", 0⟩ place → place = ⟨2, 0⟩ := by
  let _ := Checksum.crc32
  have hrun : (run (StorageHandle.step singleBroker 4) (QueueServer.start (recoverStorage []))
      retriedRun).map (fun s => s.served.map storedAt) =
      some [none, some ("payments", some ⟨"till", 0⟩, ⟨2, 0⟩),
        some ("payments", some ⟨"till", 0⟩, ⟨2, 0⟩)] := by
    decide +kernel
  obtain ⟨s, hs, hserved⟩ := Option.map_eq_some_iff.1 hrun
  obtain ⟨x, hx, hmatch⟩ := List.mem_map.1 (hserved ▸ List.mem_cons_of_mem _ List.mem_cons_self)
  obtain ⟨id, ⟨env, command⟩, reply⟩ := x
  unfold storedAt at hmatch
  split at hmatch
  · rename_i t partition input ackMode ack hcommand hreply
    obtain ⟨rfl, hproducer, rfl⟩ : t = "payments" ∧ input.producer = some ⟨"till", 0⟩ ∧
        ack = ⟨2, 0⟩ := by simpa using hmatch
    cases hcommand
    cases hreply
    exact ⟨s, hs, producers_exactly_once (Exact.startup "payments") hs retriedRun_unkeyed hx
      ⟨env, partition, input, ackMode, rfl, hproducer, rfl⟩⟩
  · cases hmatch

omit [Checksum] in
/-- A retry with another key is stored a second time. -/
example :
    letI := Checksum.crc32
    let w := (recoverStorage []).perform singleBroker (.fresh, .createTopic "payments" 3)
    let (first, w) := w.appendRecord singleBroker .fresh "payments" none
      ⟨[1], [5], some ⟨"till", 0⟩⟩ .durable
    let (second, _) := w.appendRecord singleBroker .fresh "payments" none
      ⟨[3], [5], some ⟨"till", 0⟩⟩ .durable
    (first.toOption, second.toOption) = (some ⟨0, 0⟩, some ⟨1, 0⟩) := by
  decide +kernel

end SevlaMq.Broker
