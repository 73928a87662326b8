import SevlaMq.Broker.RoundRobin
import SevlaMq.Lib.QueueServer

/-!
# The storage handle

Every task of a broker reaches the partition logs through a `StorageHandle`: it sends a
`StorageCommand` through a bounded channel, gives up with `BrokerBusy` when there is no room in
time, and waits for the reply of `run_storage_worker`.

* `StorageReply`, `Worker.serve` — what the worker answers to a command.
* `StorageHandle.step` — tasks that call, wait, give up or are aborted, and the worker, in any
  order.
* `storage_calls_in_order` — the calls take effect one after the other, in an order that agrees with
  the order in time; a call that was refused has no effect.
* `acknowledged_appends_stored` — no acknowledged record is lost or stored over another one, however
  many tasks append.
-/

set_option autoImplicit false

namespace SevlaMq.Broker

open SevlaMq.Storage SevlaMq.Cluster

/-! ## Replies -/

/-- What goes through the reply channel of a command. -/
inductive StorageReply where
  | topic (result : Except StorageError Nat)
  | topics (topics : String → Option Nat)
  | ack (result : Except StorageError ProduceAck)
  | acks (result : Except StorageError (List ProduceAck))
  | records (result : Except StorageError (List FetchedRecord))
  | offset (result : Except StorageError Nat)
  | truncated (result : Except StorageError Unit)
  | snapshot (logs : String → Nat → Option RecordLog)
  | silent

/-- One pass of the loop of `run_storage_worker`, with the reply; retention as in
`Worker.perform`. -/
def Worker.serve [Checksum] (cfg : Settings) (w : Worker) (c : Env × StorageCommand) :
    StorageReply × Worker :=
  match c with
  | (env, .createTopic topic partitions) =>
    let (result, w) := createTopic env.files w topic partitions
    (.topic result, w)
  | (_, .listTopics) => (.topics w.topics, w)
  | (env, .append topic partition input ackMode) =>
    let (result, w) := appendRecord cfg env w topic partition input ackMode
    (.ack result, w)
  | (env, .appendBatch topic partition records ackMode) =>
    let (result, w) :=
      appendBatchRecords cfg env w topic partition (records.map batchInput) ackMode
    (.acks result, w)
  | (env, .read topic partition offset maxBytes) =>
    let (result, w) := readRecords cfg env.files w topic partition offset maxBytes
    (.records result, w)
  | (env, .replicate topic partition offset record durable) =>
    let (result, w) := appendReplica env.files w topic partition offset record durable
    (.offset result, w)
  | (_, .partitionOffset topic partition) =>
    (.offset (match w.logs topic partition with
      | none => .error (.unknownPartition partition)
      | some log => .ok log.length), w)
  | (_, .truncate topic partition offset) =>
    let (result, w) := w.truncatePartition topic partition offset
    (.truncated result, w)
  | (_, .snapshot) => (.snapshot w.logs, w)
  | (_, .applyRetention) => (.silent, w)

theorem Worker.serve_perform [Checksum] (cfg : Settings) (w : Worker) (c : Env × StorageCommand) :
    (w.serve cfg c).2 = w.perform cfg c := by
  obtain ⟨env, command⟩ := c
  cases command <;> rfl

/-! ## The handle -/

/-- The worker, its channel and the tasks that use it. -/
abbrev StorageHandle := QueueServer Worker (Env × StorageCommand) StorageReply

namespace StorageHandle

/-- `queue_depth`. -/
def queueDepth (s : StorageHandle) : Nat := s.queue.length

/-- One step of a task or of the worker; a call that gives up returns `BrokerBusy`. -/
abbrev step [Checksum] (cfg : Settings) (capacity : Nat) :
    StorageHandle → QueueAction (Env × StorageCommand) → Option StorageHandle :=
  QueueServer.step (Worker.serve cfg) capacity

/-- The commands that were performed, one after the other, have turned the worker `w` into the
present one, every reply is that of its own command in this sequence, and the channel is not
overfull. -/
structure InOrder [Checksum] (cfg : Settings) (capacity : Nat) (w : Worker) (s : StorageHandle) :
    Prop where
  depth : s.queueDepth ≤ capacity
  worker : s.object = (s.served.map (·.command)).foldl (Worker.perform cfg) w
  replies : ∀ before x rest, s.served = before ++ x :: rest →
    x.reply = (((before.map (·.command)).foldl (Worker.perform cfg) w).serve cfg x.command).1
  once : (s.accepted.map Prod.fst).Nodup
  returned : ∀ id c r, s.calls id = .returned c r → ⟨id, c, r⟩ ∈ s.served
  refused : ∀ id c, s.calls id = .refused c → ∀ x ∈ s.accepted, x.1 ≠ id

variable [Checksum] {cfg : Settings} {capacity : Nat} {w : Worker} {s s' : StorageHandle}
  {acts more : List (QueueAction (Env × StorageCommand))}

theorem InOrder.of_serial (h : QueueServer.Serial (Worker.serve cfg) capacity w s) :
    InOrder cfg capacity w s := by
  have hfold : (fun (w : Worker) (c : Env × StorageCommand) => (w.serve cfg c).2) =
      Worker.perform cfg := funext fun w => funext fun c => w.serve_perform cfg c
  refine ⟨h.bounded, ?_, ?_, h.once, fun id c r hc => h.answered id c r (Or.inr hc), ?_⟩
  · rw [h.replays.object_eq, hfold]
  · intro before x after hx
    rw [h.replays.reply_eq hx, hfold]
  · intro id c hc
    refine h.not_accepted id fun c' htaken => ?_
    rw [hc] at htaken
    exact htaken

/-- **Concurrent storage calls take effect one after the other**, whatever the order of the steps of
tasks and worker.  A call that was refused stays without effect, and what was performed of the calls
that have returned comes before everything that is performed of a call made later.  When the tasks
are gone, the worker still performs every command that was accepted. -/
theorem storage_calls_in_order (h : run (step cfg capacity) (QueueServer.start w) acts = some s)
    (hmore : run (step cfg capacity) s more = some s') :
    InOrder cfg capacity w s' ∧
    (∀ id c, s.calls id = .refused c → s'.calls id = .refused c) ∧
    (∃ rest, s'.served = s.served ++ rest ∧
      (∀ id c r, s.calls id = .returned c r → ⟨id, c, r⟩ ∈ s.served) ∧
      ∀ id, s.calls id = .idle → ∀ x ∈ s.served, x.id ≠ id) ∧
    ∃ last, run (step cfg capacity) s' (List.replicate s'.queueDepth .perform) = some last ∧
      last.queueDepth = 0 ∧
      last.object = (s'.accepted.map Prod.snd).foldl (Worker.perform cfg) w := by
  have hlater := QueueServer.Later.of_run hmore
  have hall : run (step cfg capacity) (QueueServer.start w) (acts ++ more) = some s' := by
    rw [run_append, h]
    exact hmore
  obtain ⟨last, hlast, hempty, hserved⟩ :=
    QueueServer.drained (Worker.serve cfg) capacity s'.queue s' rfl
  have hend : run (step cfg capacity) (QueueServer.start w)
      (acts ++ more ++ List.replicate s'.queueDepth .perform) = some last := by
    rw [run_append, hall]
    exact hlast
  refine ⟨.of_serial (.of_run hall), hlater.refused,
    (QueueServer.Serial.of_run h).served_before hlater, last, hlast,
    List.length_eq_zero_iff.2 hempty, ?_⟩
  rw [(InOrder.of_serial (.of_run hend)).worker, ← hserved, List.map_map]
  rfl

/-- A channel with room for one command: the second append is refused. -/
def refusedRun : List (QueueAction (Env × StorageCommand)) :=
  [.call 0 (.fresh, .append "payments" none ⟨[], [1], none⟩ .durable), .send 0,
    .call 1 (.fresh, .append "payments" none ⟨[], [2], none⟩ .durable), .giveUp 1,
    .perform, .receive 0]

/-- A third append returns, and the task of a batch is aborted before its batch is performed. -/
def abortedRun : List (QueueAction (Env × StorageCommand)) :=
  [.call 2 (.fresh, .append "payments" none ⟨[], [3], none⟩ .leader), .send 2, .perform, .receive 2,
    .call 3 (.fresh, .appendBatch "payments" none [⟨[], [4]⟩] .leader), .send 3, .drop 3]

omit [Checksum] in
theorem storage_calls_in_order_aborted :
    letI := Checksum.crc32
    ∃ s s', run (step singleBroker 1) (QueueServer.start (recoverStorage [])) refusedRun = some s ∧
      run (step singleBroker 1) s abortedRun = some s' ∧
      s'.served.map (·.id) = [0, 2] ∧ s'.queueDepth = 1 ∧
      s'.object =
        (s'.served.map (·.command)).foldl (Worker.perform singleBroker) (recoverStorage []) ∧
      ∃ last, run (step singleBroker 1) s' [.perform] = some last ∧
        (last.object.logs "payments" 0).map (·.map (·.value)) = some [[1], [3], [4]] := by
  let _ := Checksum.crc32
  obtain ⟨s, hs⟩ := Option.isSome_iff_exists.1 (show (run (step singleBroker 1)
    (QueueServer.start (recoverStorage [])) refusedRun).isSome by decide +kernel)
  have hmore : (run (step singleBroker 1) s abortedRun).map
      (fun s => (s.served.map (·.id), s.queueDepth)) = some ([0, 2], 1) := by
    have hall : ((run (step singleBroker 1) (QueueServer.start (recoverStorage [])) refusedRun).bind
        (run (step singleBroker 1) · abortedRun)).map
          (fun s => (s.served.map (·.id), s.queueDepth)) = some ([0, 2], 1) := by decide +kernel
    rwa [hs] at hall
  obtain ⟨s', hs', hpair⟩ := Option.map_eq_some_iff.1 hmore
  obtain ⟨hserved, hdepth⟩ := Prod.mk.inj hpair
  obtain ⟨horder, _, _, last, hlast, _, hobject⟩ := storage_calls_in_order hs hs'
  rw [hdepth] at hlast
  refine ⟨s, s', hs, hs', hserved, hdepth, horder.worker, last, hlast, ?_⟩
  have hend : (((run (step singleBroker 1) (QueueServer.start (recoverStorage [])) refusedRun).bind
      (run (step singleBroker 1) · abortedRun)).bind (run (step singleBroker 1) · [.perform])).map
        (fun s => (s.object.logs "payments" 0).map (·.map (·.value))) =
          some (some [[1], [3], [4]]) := by
    decide +kernel
  rw [hs, Option.bind_some, hs', Option.bind_some, show
    run (step singleBroker 1) s' [.perform] = some last from hlast] at hend
  exact Option.some.inj hend

/-! ## What producers are told -/

/-- Everything but `Truncate` and `ApplyRetention` leaves the records in their logs. -/
def KeepsRecords : Env × StorageCommand → Prop
  | (_, .truncate _ _ _) => False
  | (_, .applyRetention) => False
  | _ => True

instance : DecidablePred KeepsRecords := fun c =>
  match c with
  | (_, .truncate _ _ _) | (_, .applyRetention) => isFalse id
  | (_, .createTopic _ _) | (_, .listTopics) | (_, .append _ _ _ _) | (_, .appendBatch _ _ _ _)
  | (_, .read _ _ _ _) | (_, .replicate _ _ _ _ _) | (_, .partitionOffset _ _) | (_, .snapshot) =>
    isTrue trivial

/-- The records without producer identity that the reply of a command acknowledges, with their
places. -/
def acknowledged (x : Served (Env × StorageCommand) StorageReply) :
    List (Logs.Entry (String × Nat) Record) :=
  match x.command, x.reply with
  | (env, .append topic _ input _), .ack (.ok ack) =>
    unidentified topic [(input.record env.timestampMs, ack)]
  | (env, .appendBatch topic _ records _), .acks (.ok acks) =>
    unidentified topic ((records.map fun r => (batchInput r).record env.timestampMs).zip acks)
  | _, _ => []

end StorageHandle

namespace Worker

variable [Checksum] {cfg : Settings} {env : Env} {w w' : Worker} {t : String}
  {partition : Option Nat}

/-- **One record**: the acknowledged place is new and holds the record. -/
theorem appendRecord_added {input : ProduceInput} {ackMode : AckMode}
    {res : Except StorageError ProduceAck}
    (h : appendRecord cfg env w t partition input ackMode = (res, w')) :
    ∀ ack, res = .ok ack → Logs.Added w.family w'.family
      (unidentified t [(input.record env.timestampMs, ack)]) := by
  intro ack hok
  have hgrows := (appendRecord_grows h).logs
  obtain ⟨_, w₁, hensure, _, hcases⟩ := appendRecord_cases h
  rcases hcases with ⟨_, e, he⟩ | ⟨_, p, log, offset, log', _, _, hlog, happend, hlogs, hack⟩
  · rw [hok] at he
    cases he
  cases hack ack hok
  generalize input.record env.timestampMs = r at happend
  cases hproducer : r.producer with
  | some i =>
    simp only [unidentified, List.filter_cons, hproducer, Option.isNone_some, Bool.false_eq_true,
      if_false, List.filter_nil, List.map_nil]
    exact .of_extends hgrows
  | none =>
    obtain ⟨rfl, rfl⟩ := RecordLog.append_new hproducer happend
    simp only [unidentified, List.filter_cons, hproducer, Option.isNone_none, if_true,
      List.filter_nil, List.map_cons, List.map_nil]
    have hopened : Logs.Added w.family w₁.family [] :=
      .of_extends (ensureTopic_retains hensure).grows.logs
    have hfamily : w₁.family (t, p) = some log := hlog
    refine hopened.append (.single hfamily ?_ fun x hx => ?_)
    · simp only [family, hlogs, insertLog_self]
    · simp only [family, hlogs, insertLog]
      exact if_neg fun heq => hx (Prod.ext heq.1 heq.2)

/-- **The records of a batch** that goes through. -/
theorem appendAll_added : ∀ {inputs : List ProduceInput} {w w' : Worker} {acks : List ProduceAck},
    appendAll cfg env t partition inputs w = (.ok acks, w') →
      Logs.Added w.family w'.family
        (unidentified t ((inputs.map (·.record env.timestampMs)).zip acks))
  | [], w, w', acks, h => by
    cases h
    exact .of_extends (.refl _)
  | input :: inputs, w, w', acks, h => by
    rw [appendAll] at h
    split at h
    · cases h
    rename_i ack w₁ hfirst
    split at h
    · cases h
    rename_i acks' w₂ hrest
    cases h
    have hboth := (appendRecord_added hfirst ack rfl).append (appendAll_added hrest)
    unfold unidentified at hboth ⊢
    rwa [← List.map_append, ← List.filter_append] at hboth

/-- **One command.** -/
theorem serve_added {c : Env × StorageCommand} (hkeep : StorageHandle.KeepsRecords c) (id : Nat) :
    Logs.Added w.family (w.serve cfg c).2.family
      (StorageHandle.acknowledged ⟨id, c, (w.serve cfg c).1⟩) := by
  obtain ⟨env, command⟩ := c
  cases command with
  | createTopic topic partitions =>
    exact .of_extends (createTopic_retains rfl).grows.logs
  | append topic partition input ackMode =>
    rcases hres : appendRecord cfg env w topic partition input ackMode with ⟨_ | ack, w'⟩
    · simp only [serve, hres]
      exact .of_extends (appendRecord_grows hres).logs
    · simp only [serve, hres]
      exact appendRecord_added hres ack rfl
  | appendBatch topic partition records ackMode =>
    rcases hres : appendBatchRecords cfg env w topic partition (records.map batchInput) ackMode with
      ⟨_ | acks, w'⟩
    · obtain ⟨_, hall, _⟩ := appendBatchRecords_cases hres
      simp only [serve, hres]
      exact .of_extends (appendAll_grows hall).logs
    · obtain ⟨_, hall, hok⟩ := appendBatchRecords_cases hres
      rw [hok acks rfl] at hall
      have hadded := appendAll_added hall
      rw [List.map_map] at hadded
      simp only [serve, hres]
      exact hadded
  | read topic partition offset maxBytes =>
    exact .of_extends (readRecords_retains rfl).grows.logs
  | replicate topic partition offset record durable =>
    exact .of_extends (appendReplica_grows rfl).logs
  | truncate topic partition offset => exact hkeep.elim
  | listTopics => exact .of_extends (.refl _)
  | partitionOffset topic partition => exact .of_extends (.refl _)
  | snapshot => exact .of_extends (.refl _)
  | applyRetention => exact hkeep.elim

/-- **One command after the other.** -/
theorem replays_added {served : List (Served (Env × StorageCommand) StorageReply)}
    (h : Replays (Worker.serve cfg) w served w')
    (hkeep : ∀ x ∈ served, StorageHandle.KeepsRecords x.command) :
    Logs.Added w.family w'.family (served.flatMap StorageHandle.acknowledged) := by
  induction h with
  | nil => exact .of_extends (.refl _)
  | concat h id c ih =>
    rw [List.flatMap_append, List.flatMap_singleton]
    exact (ih fun x hx => hkeep x (List.mem_append_left _ hx)).append
      (serve_added (hkeep _ (List.mem_append_right _ (List.mem_singleton.2 rfl))) id)

end Worker

namespace StorageHandle

variable [Checksum] {cfg : Settings} {capacity : Nat} {w : Worker} {s s' : StorageHandle}
  {acts more : List (QueueAction (Env × StorageCommand))}

/-- **No acknowledged record is lost or stored over another one**, however many tasks append, as long
as no log is cut and no retention runs.  Each
is in the log at the place of its acknowledgement, which held nothing when the worker started; no
two acknowledgements name the same place, and a call made after another one has returned is given a
later place of the same partition. -/
theorem acknowledged_appends_stored
    (h : run (step cfg capacity) (QueueServer.start w) acts = some s)
    (hmore : run (step cfg capacity) s more = some s')
    (hkeep : ∀ x ∈ s'.accepted, KeepsRecords x.2) :
    Logs.Added w.family s'.object.family (s'.served.flatMap acknowledged) ∧
    (∀ id c r, s'.calls id = .returned c r → ⟨id, c, r⟩ ∈ s'.served) ∧
    ∀ id c r, s.calls id = .returned c r →
      ∀ id' c' r', s.calls id' = .idle → s'.calls id' = .returned c' r' →
        ∀ e ∈ acknowledged ⟨id, c, r⟩, ∀ e' ∈ acknowledged ⟨id', c', r'⟩,
          e.name = e'.name → e.position < e'.position := by
  have hlater := QueueServer.Later.of_run hmore
  have hs := QueueServer.Serial.of_run h
  have hs' : QueueServer.Serial (Worker.serve cfg) capacity w s' := by
    have hrun : run (QueueServer.step (Worker.serve cfg) capacity) (.start w) (acts ++ more) =
        some s' := by
      rw [run_append, h]
      exact hmore
    exact QueueServer.Serial.of_run hrun
  have hadded := Worker.replays_added hs'.replays fun x hx =>
    hkeep (x.id, x.command) (List.mem_append_left _ (List.mem_map.2 ⟨x, hx, rfl⟩))
  refine ⟨hadded, fun id c r hc => hs'.answered id c r (Or.inr hc), ?_⟩
  intro id c r hreturned id' c' r' hidle hreturned' e he e' he' hname
  obtain ⟨rest, hrest, hbefore, hfresh⟩ := hs.served_before hlater
  have hordered := hadded.ordered
  rw [hrest, List.flatMap_append] at hordered
  refine (List.pairwise_append.1 hordered).2.2
    e (List.mem_flatMap.2 ⟨_, hbefore _ _ _ hreturned, he⟩)
    e' (List.mem_flatMap.2 ⟨⟨id', c', r'⟩, ?_, he'⟩) hname
  -- the later call is not among those that were performed by then
  have hmem := hs'.answered id' c' r' (Or.inr hreturned')
  rw [hrest] at hmem
  rcases List.mem_append.1 hmem with hmem | hmem
  · exact absurd rfl (hfresh id' hidle _ hmem)
  · exact hmem

omit [Checksum] in
theorem acknowledged_appends_stored_aborted :
    letI := Checksum.crc32
    ∃ s s', run (step singleBroker 1) (QueueServer.start (recoverStorage [])) refusedRun = some s ∧
      run (step singleBroker 1) s abortedRun = some s' ∧
      Logs.Added (recoverStorage []).family s'.object.family (s'.served.flatMap acknowledged) ∧
      (s'.served.flatMap acknowledged).map (fun e => (e.name, e.position, e.record.value)) =
        [(("payments", 0), 0, [1]), (("payments", 0), 1, [3])] := by
  let _ := Checksum.crc32
  obtain ⟨s, hs⟩ := Option.isSome_iff_exists.1 (show (run (step singleBroker 1)
    (QueueServer.start (recoverStorage [])) refusedRun).isSome by decide +kernel)
  have hall : ((run (step singleBroker 1) (QueueServer.start (recoverStorage [])) refusedRun).bind
      (run (step singleBroker 1) · abortedRun)).map
        (fun s => (s.accepted.all fun x => decide (KeepsRecords x.2),
          (s.served.flatMap acknowledged).map (fun e => (e.name, e.position, e.record.value)))) =
      some (true, [(("payments", 0), 0, [1]), (("payments", 0), 1, [3])]) := by
    decide +kernel
  rw [hs, Option.bind_some] at hall
  obtain ⟨s', hs', hpair⟩ := Option.map_eq_some_iff.1 hall
  obtain ⟨hkeep, hentries⟩ := Prod.mk.inj hpair
  refine ⟨s, s', hs, hs', (acknowledged_appends_stored hs hs' fun x hx => ?_).1, hentries⟩
  exact of_decide_eq_true (List.all_eq_true.1 hkeep x hx)

end StorageHandle

end SevlaMq.Broker
