import SevlaMq.Consumer.Model
import SevlaMq.Group.Calls

/-!
# At-least-once consumption

* `Done` — every offset below a given one holds a record that was completed.
* `Covered` — that is so for every committed offset of the group and for every offset a consumer
  holds, and the records a consumer has fetched follow on its offset.
* `Covered.step` — one step keeps this, whoever owns the partition: a consumer commits no further
  than it has completed, so no fence is needed.
* `records_below_commit_completed` — in every run, the records below a committed offset have been
  completed.
-/

set_option autoImplicit false

namespace SevlaMq.Consumer

open SevlaMq.Storage (Record StoredRecord RecordLog storedFrom)
open SevlaMq.Group

namespace System

/-- Every offset below `offset` holds a record that was completed. -/
def Done (s : System) (p offset : Nat) : Prop :=
  ∀ q < offset, ∃ r, (s.logs p)[q]? = some r ∧ (p, r.at q) ∈ s.completed

/-- `records` stand in the log from `start` on. -/
def Stored (s : System) (p start : Nat) (records : List StoredRecord) : Prop :=
  ∀ i x, records[i]? = some x → ∃ r, (s.logs p)[start + i]? = some r ∧ x = r.at (start + i)

/-- The fetched records follow on the offset of the session, and the one at hand is completed when
it is about to be committed. -/
def PhaseDone (s : System) (session : Session) : Phase → Prop
  | .processing p _ record records stage =>
    s.Stored p (session.offset p) (record :: records) ∧ record.offset + 1 ≤ GENERATION_MAX ∧
      (stage = .completed → (p, record) ∈ s.completed)
  | _ => True

def ProcessDone (s : System) : Process → Prop
  | .consuming session phase =>
    (∀ p o, session.offsets p = some o → s.Done p o) ∧ s.PhaseDone session phase
  | _ => True

/-- Logs and completed records only grow. -/
structure Grows (s s' : System) : Prop where
  logs : ∀ {p q : Nat} {r : Record}, (s.logs p)[q]? = some r → (s'.logs p)[q]? = some r
  completed : s.completed ⊆ s'.completed

section Grows

variable {s s' : System} {p start : Nat}

theorem Done.grows (h : s.Done p start) (hg : s.Grows s') : s'.Done p start := by
  intro q hq
  obtain ⟨r, hr, hc⟩ := h q hq
  exact ⟨r, hg.logs hr, hg.completed hc⟩

theorem ProcessDone.grows {process : Process} (h : s.ProcessDone process) (hg : s.Grows s') :
    s'.ProcessDone process := by
  cases process with
  | down => trivial
  | joining => trivial
  | consuming session phase =>
    refine ⟨fun p o hp => (h.1 p o hp).grows hg, ?_⟩
    cases phase with
    | processing p rest record records stage =>
      obtain ⟨hstored, hfits, hdone⟩ := h.2
      refine ⟨fun i x hx => ?_, hfits, fun hstage => hg.completed (hdone hstage)⟩
      obtain ⟨r, hr, hat⟩ := hstored i x hx
      exact ⟨r, hg.logs hr, hat⟩
    | _ => trivial

end Grows

section Records

variable {s : System} {session : Session} {p : Nat} {record : StoredRecord}
  {records : List StoredRecord}

/-- The offset of a session, zero if it has none. -/
theorem done_offset (h : ∀ p o, session.offsets p = some o → s.Done p o) (p : Nat) :
    s.Done p (session.offset p) := by
  unfold Session.offset
  cases ho : session.offsets p with
  | none => exact fun q hq => absurd hq (Nat.not_lt_zero q)
  | some o => exact h p o ho

theorem Stored.offset_eq {start : Nat} (h : s.Stored p start (record :: records)) :
    record.offset = start := by
  obtain ⟨r, _, rfl⟩ := h 0 record rfl
  rfl

/-- One more record is completed. -/
theorem Done.succ {start : Nat} (h : s.Done p start) (hs : s.Stored p start (record :: records))
    (hc : (p, record) ∈ s.completed) : s.Done p (record.offset + 1) := by
  intro q hq
  rw [hs.offset_eq] at hq
  rcases Nat.lt_or_ge q start with hlt | hge
  · exact h q hlt
  · obtain rfl : q = start := by omega
    obtain ⟨r, hr, rfl⟩ := hs 0 record rfl
    exact ⟨r, hr, hc⟩

/-- The session after the record at hand. -/
theorem insert_done (h : ∀ p o, session.offsets p = some o → s.Done p o)
    (hdone : s.Done p (record.offset + 1)) :
    ∀ q o, (session.insert p (record.offset + 1)).offsets q = some o → s.Done q o := by
  intro q o hq
  simp only [Session.insert] at hq
  split at hq
  · rename_i heq
    cases hq
    rw [heq]
    exact hdone
  · exact h q o hq

theorem processNext_done {rest : List Nat} (h : ∀ p o, session.offsets p = some o → s.Done p o)
    (hs : s.Stored p (session.offset p) records) :
    s.ProcessDone (processNext session p rest records) := by
  cases records with
  | nil =>
    refine ⟨h, ?_⟩
    cases rest <;> trivial
  | cons record records =>
    rw [processNext]
    split
    · rename_i hfits
      exact ⟨h, hs, hfits, fun hno => by cases hno⟩
    · trivial

/-- After the record at hand come the others. -/
theorem insert_next {rest : List Nat} (h : ∀ p o, session.offsets p = some o → s.Done p o)
    (hs : s.Stored p (session.offset p) (record :: records)) (hc : (p, record) ∈ s.completed) :
    s.ProcessDone (processNext (session.insert p (record.offset + 1)) p rest records) := by
  have hoffset := hs.offset_eq
  refine processNext_done (insert_done h ((done_offset h p).succ hs hc)) fun i x hx => ?_
  have hnext : (session.insert p (record.offset + 1)).offset p = session.offset p + 1 := by
    simp [Session.insert, Session.offset, hoffset]
  rw [hnext, Nat.add_right_comm]
  exact hs (i + 1) x hx

end Records

end System

/-- Every committed offset and every offset a consumer holds is covered by completed records. -/
structure Covered (options : Options) (dataDir : Path) (s : System) : Prop where
  offsets : Meets (dataDir ++ ["__consumer_offsets"]) options.group options.topic s.Done s.coordinator
  consumers : ∀ m, s.ProcessDone (s.consumers m)

namespace Covered

variable {options : Options} {dataDir : Path} {s s' : System} {member : String} {session : Session} {action : Action}

/-- The broker takes a step. -/
theorem grown (h : Covered options dataDir s) (hg : s.Grows s') (hsame : s'.consumers = s.consumers)
    (hc : Meets (dataDir ++ ["__consumer_offsets"]) options.group options.topic s.Done s'.coordinator) : Covered options dataDir s' := by
  refine ⟨hc.mono fun p o hp => hp.grows hg, fun m => ?_⟩
  rw [hsame]
  exact (h.consumers m).grows hg

/-- A consumer takes a step. -/
theorem become (h : Covered options dataDir s) {c : Coordinator} {process : Process}
    (hc : Meets (dataDir ++ ["__consumer_offsets"]) options.group options.topic s.Done c) (hp : s.ProcessDone process) :
    Covered options dataDir (s.become member c process) := by
  have hgrows : s.Grows (s.become member c process) := ⟨id, List.Subset.refl _⟩
  refine ⟨hc.mono fun p o hp => hp.grows hgrows, fun m => ?_⟩
  simp only [System.become]
  split
  · exact hp.grows hgrows
  · exact (h.consumers m).grows hgrows

/-- A consumer has completed the record at hand. -/
theorem complete (h : Covered options dataDir s) {p : Nat} {rest : List Nat} {record : StoredRecord}
    {records : List StoredRecord} {stage : Stage}
    (hm : s.consumers member = .consuming session (.processing p rest record records stage)) :
    Covered options dataDir { s.become member s.coordinator
        (completedNext .atLeastOnce session p rest record records) with
      completed := s.completed ++ [(p, record)] } := by
  have hgrows : s.Grows { s.become member s.coordinator
      (completedNext .atLeastOnce session p rest record records) with
      completed := s.completed ++ [(p, record)] } := ⟨id, List.subset_append_left _ _⟩
  have hown := h.consumers member
  rw [hm] at hown
  refine ⟨h.offsets.mono fun p o hp => hp.grows hgrows, fun m => ?_⟩
  simp only [System.become]
  split
  · obtain ⟨hoffsets, hstored, hfits, _⟩ := System.ProcessDone.grows hown hgrows
    exact ⟨hoffsets, hstored, hfits, fun _ => List.mem_append_right _ (List.mem_singleton.2 rfl)⟩
  · exact (h.consumers m).grows hgrows

theorem process (h : Covered options dataDir s) {p : Nat} {rest : List Nat} {record : StoredRecord}
    {records : List StoredRecord} {stage : Stage}
    (hm : s.consumers member = .consuming session (.processing p rest record records stage))
    (hs : s.process .atLeastOnce options member session p rest record records stage action =
      some s') : Covered options dataDir s' := by
  have hown := h.consumers member
  rw [hm] at hown
  obtain ⟨hoffsets, hstored, hfits, hcompleted⟩ := hown
  unfold System.process at hs
  split at hs
  · -- the commit
    split at hs
    · rename_i hstage
      have hc := hcompleted hstage
      have hdone := (System.done_offset hoffsets p).succ hstored hc
      split at hs
      · rename_i hcommit
        cases hs
        exact h.become (h.offsets.commit rfl hfits hdone hcommit) trivial
      · rename_i hcommit
        cases hs
        exact h.become (h.offsets.commit rfl hfits hdone hcommit)
          (System.insert_next hoffsets hstored hc)
    · cases hs
  · -- the handler is started
    split at hs
    · cases hs
      have hnext : s.ProcessDone (.consuming session (.processing p rest record records .running)) :=
        ⟨hoffsets, hstored, hfits, fun hno => by cases hno⟩
      have hbecome := @become _ _ _ member h _ _ h.offsets hnext
      exact ⟨hbecome.offsets, hbecome.consumers⟩
    · cases hs
  · split at hs
    · cases hs
      exact h.become h.offsets ⟨hoffsets, hstored, hfits, fun hno => by cases hno⟩
    · cases hs
  · split at hs
    · cases hs
      exact h.complete hm
    · cases hs
  · split at hs
    · cases hs
      exact h.complete hm
    · cases hs
  · cases hs

theorem consume (h : Covered options dataDir s) {phase : Phase}
    (hm : s.consumers member = .consuming session phase)
    (hs : s.consume .atLeastOnce options member session phase action = some s') :
    Covered options dataDir s' := by
  have hown := h.consumers member
  rw [hm] at hown
  have hoffsets := hown.1
  unfold System.consume at hs
  split at hs
  · -- an offset is loaded
    rename_i p rest env
    split at hs
    · cases hs
      exact h.become h.offsets trivial
    · rename_i offset hread
      cases hs
      refine h.become h.offsets ⟨fun q o hq => ?_, ?_⟩
      · simp only [Session.insert] at hq
        split at hq
        · rename_i heq
          cases hq
          rw [heq]
          cases offset with
          | none => exact fun q hq => absurd hq (Nat.not_lt_zero q)
          | some o => exact h.offsets.committedOffset hread
        · exact hoffsets q o hq
      · cases rest <;> trivial
  · cases hs
    refine h.become h.offsets ⟨hoffsets, ?_⟩
    cases session.partitions <;> trivial
  · -- a fetch is authorized
    rename_i p rest env highWatermark
    have htouches := s.coordinator.authorizeFetch_touches env
      (System.identity options member session) p
    split at hs
    · split at hs
      · rename_i hauth
        cases hs
        rw [hauth] at htouches
        exact h.become (h.offsets.touches htouches) trivial
      · rename_i hauth
        cases hs
        rw [hauth] at htouches
        exact h.become (h.offsets.touches htouches) ⟨hoffsets, trivial⟩
    · cases hs
  · -- the records are read
    rename_i p rest highWatermark
    split at hs
    · cases hs
      exact h.become h.offsets trivial
    · rename_i records hread
      cases hs
      refine h.become h.offsets (System.processNext_done hoffsets fun i x hx => ?_)
      obtain ⟨k, hk⟩ := RecordLog.read_below hread highWatermark
      rw [hk, Storage.storedFrom_getElem?, Option.map_eq_some_iff] at hx
      obtain ⟨r, hr, rfl⟩ := hx
      rw [List.getElem?_take] at hr
      split at hr
      · rw [List.getElem?_drop] at hr
        exact ⟨r, hr, rfl⟩
      · cases hr
  · cases hs
    exact h.become h.offsets ⟨hoffsets, trivial⟩
  · cases hs
    exact h.become h.offsets ⟨hoffsets, trivial⟩
  · cases hs
    exact h.become (h.offsets.touches (s.coordinator.leave_touches _ _)) trivial
  · exact h.process hm hs
  · cases hs

theorem act (h : Covered options dataDir s)
    (hs : s.act .atLeastOnce options member (s.consumers member) action = some s') :
    Covered options dataDir s' := by
  have hown := h.consumers member
  generalize hm : s.consumers member = process at hs hown
  unfold System.act at hs
  split at hs
  · cases hs
    exact h.become h.offsets trivial
  · cases hs
    exact h.become h.offsets trivial
  · -- the consumer joins
    rename_i env
    have hjoin := h.offsets.loads (s.coordinator.join_loads env options.group options.topic member)
    split at hs
    · rename_i heq
      cases hs
      rw [heq] at hjoin
      exact h.become hjoin trivial
    · rename_i generation partitions c heq
      cases hs
      rw [heq] at hjoin
      refine h.become hjoin ⟨?_, ?_⟩
      · intro p o hno
        cases hno
      · cases partitions <;> trivial
  · cases hs
    exact h.become (h.offsets.touches (s.coordinator.heartbeat_touches _ _)) hown
  · split at hs
    · cases hs
      exact h.become h.offsets trivial
    · cases hs
  · exact h.consume hm hs
  · cases hs

end Covered

/-- No record is lost when the broker is started again. -/
def Event.Lossless : Event → Prop
  | .restart _ _ lost => ∀ p, lost p = 0
  | _ => True

/-- **One step** keeps every offset covered. -/
theorem Covered.step {options : Options} {dataDir : Path} {s s' : System} {e : Event}
    (h : Covered options dataDir s) (he : e.Lossless) (hs : s.step .atLeastOnce options dataDir e = some s') :
    Covered options dataDir s' := by
  unfold System.step at hs
  split at hs
  · exact h.act hs
  · -- a record arrives
    rename_i partition record
    split at hs
    · cases hs
      exact h
    · rename_i offset log happend
      cases hs
      refine h.grown ⟨fun {p q r} hr => ?_, List.Subset.refl _⟩ rfl h.offsets
      show (if p = partition then log else s.logs p)[q]? = some r
      split
      · rename_i heq
        subst heq
        rcases RecordLog.append_cases happend with rfl | ⟨_, rfl⟩
        · exact hr
        · rw [List.getElem?_append_left (List.getElem?_eq_some_iff.1 hr).1]
          exact hr
      · exact hr
  · cases hs
    exact h.grown ⟨id, List.Subset.refl _⟩ rfl h.offsets
  · cases hs
    exact h.grown ⟨id, List.Subset.refl _⟩ rfl
      (h.offsets.touches (s.coordinator.expireLoop_touches _ _))
  · cases hs
    exact h.grown ⟨id, List.Subset.refl _⟩ rfl (h.offsets.setTopicPartitions _ _ _)
  · rename_i partitionCount sessionTimeout lost
    split at hs
    · cases hs
    · rename_i c hopen
      cases hs
      obtain ⟨last, hholds, hlast⟩ := h.offsets.disk
      rw [h.offsets.dir] at hholds
      refine h.grown ⟨fun {p q r} hr => ?_, List.Subset.refl _⟩ rfl
        (Meets.openDir hholds hlast hopen)
      have hlost : lost p = 0 := he p
      show ((s.logs p).take ((s.logs p).length - lost p))[q]? = some r
      rw [hlost, Nat.sub_zero, List.take_length]
      exact hr

theorem Initial.covered {options : Options} {dataDir : Path} {s : System}
    (h : Initial options dataDir (fun _ => none) s) : Covered options dataDir s := by
  obtain ⟨disk, partitionCount, sessionTimeout, hholds, hopen⟩ := h.opened
  refine ⟨Meets.openDir hholds (fun p o hno => (by cases hno)) hopen, fun m => ?_⟩
  rw [h.down m]
  trivial

/-- **At-least-once consumption.**  In every run of the broker and any consumers, with crashes,
expiries, rebalances and members that do not know of them yet, all records below a committed offset
have been completed, be it read from disk or kept in memory. -/
theorem records_below_commit_completed {options : Options} {dataDir : Path} {s₀ s : System}
    (h₀ : Initial options dataDir (fun _ => none) s₀) {events : List Event}
    (hevents : ∀ e ∈ events, e.Lossless)
    (hrun : run (System.step .atLeastOnce options dataDir) s₀ events = some s) {p c : Nat}
    (hc : (∃ env, s.coordinator.committedOffset env options.group options.topic p =
        .ok (some c)) ∨
      (s.coordinator.group (options.group, options.topic)).committedOffsets p = some c)
    {offset : Nat} (hlt : offset < c) {record : Record}
    (hrecord : (s.logs p)[offset]? = some record) : (p, record.at offset) ∈ s.completed := by
  have hcovered : Covered options dataDir s := by
    refine run_invariant (Q := fun _ e => e.Lossless) ?_ h₀.covered (.of_mem hevents) hrun
    intro s e s' h he hs
    exact h.step he hs
  have hdone : s.Done p c := by
    rcases hc with ⟨env, hread⟩ | hmemory
    · exact hcovered.offsets.committedOffset hread
    · exact hcovered.offsets.memory p c hmemory
  obtain ⟨r, hr, hcompleted⟩ := hdone offset hlt
  rw [hrecord] at hr
  cases hr
  exact hcompleted

def workers : Options := ⟨"workers", "payments", fun _ => 1000⟩

def payment : Record := ⟨none, [7], 3, none⟩

/-- A broker before anything has happened. -/
def freshSystem (c : Coordinator) : System := ⟨c, fun _ => [], fun _ => 0, fun _ => .down, [], []⟩

theorem freshSystem_initial {options : Options} {dataDir : Path} {partitionCount sessionTimeout : Nat}
    {c : Coordinator}
    (hopen : Coordinator.openDir (.fresh dataDir) dataDir partitionCount sessionTimeout = .ok c) :
    Initial options dataDir (fun _ => none) (freshSystem c) := by
  refine ⟨⟨_, partitionCount, sessionTimeout, ?_, hopen⟩, fun _ => rfl, rfl, rfl⟩
  exact ⟨fun _ => rfl, fun _ hno => absurd rfl hno, fun _ _ hno => (by cases hno)⟩

/-- What a consumer does from its start to the records of its first response. -/
def firstFetch (member : String) (now : Nat) : List Event :=
  [.start, .join (envAt now), .load (envAt now), .poll, .fetch (envAt now) 1, .read].map
    (.consumer member)

/-- A worker completes a payment and crashes before the commit; another one does it again. -/
def crashingEvents : List Event :=
  [.produce 0 payment, .advance 0 1] ++ firstFetch "worker-a" 0 ++
  [.invoke, .succeed, .crash].map (.consumer "worker-a") ++ [.expireSessions (envAt 20)] ++
  firstFetch "worker-b" 21 ++
  [.invoke, .fail, .publish, .commit (envAt 22)].map (.consumer "worker-b")

theorem records_below_commit_completed_crashing :
    ∃ c s, Coordinator.openDir (.fresh ["data"]) ["data"] 1 10 = .ok c ∧
      run (System.step .atLeastOnce workers ["data"]) (freshSystem c) crashingEvents = some s ∧
      s.coordinator.committedOffset (envAt 23) "workers" "payments" 0 = .ok (some 1) ∧
      (s.logs 0)[0]? = some payment ∧ (0, payment.at 0) ∈ s.completed := by
  obtain ⟨c, hopen⟩ : ∃ c, Coordinator.openDir (.fresh ["data"]) ["data"] 1 10 = .ok c := ⟨_, rfl⟩
  have hrun : ((run (System.step .atLeastOnce workers ["data"]) (freshSystem c)
      crashingEvents).any fun s =>
      decide (s.coordinator.committedOffset (envAt 23) "workers" "payments" 0 = .ok (some 1)) &&
        decide ((s.logs 0)[0]? = some payment)) = true := by
    cases hopen
    decide +kernel
  obtain ⟨s, hs, hall⟩ := (Option.any_eq_true _ _).1 hrun
  rw [Bool.and_eq_true, decide_eq_true_eq, decide_eq_true_eq] at hall
  have hread : s.coordinator.committedOffset (envAt 23) "workers" "payments" 0 = .ok (some 1) :=
    hall.1
  have hevents : ∀ e ∈ crashingEvents, e.Lossless := by
    simp [crashingEvents, firstFetch, Event.Lossless]
  exact ⟨c, s, hopen, hs, hread, hall.2, records_below_commit_completed
    (freshSystem_initial hopen) hevents hs (Or.inl ⟨_, hread⟩) (Nat.lt_succ_self 0) hall.2⟩

end SevlaMq.Consumer
