import SevlaMq.Broker.Leader
import SevlaMq.Storage.Scan

/-!
# Fetches that wait for records

`Fetch` and `GroupFetch` read a log through `StorageHandle::read`, which waits until there is
something to read.  `Fetch` looks the high watermark up after that, `GroupFetch` before.

* `FetchTask` — where such a request stands; `FetchTask.step` — its next step, while the broker
  serves produces and replications.
* `ReadRequest.Reaches` — how far a request gets in a log; `CommittedMeanwhile` — a commit in flight
  covers a record that the last read gets to.
* `fetches_agree_iff` — both paths over one interleaving: they answer the same exactly when there was
  no such commit.
* `group_fetch_misses_record` — a record that was waited for, and that `GroupFetch` does not return.
-/

set_option autoImplicit false

namespace SevlaMq.Broker

open SevlaMq.Storage SevlaMq.Cluster

/-! ## The two requests -/

/-- The fields that `Fetch` and `GroupFetch` share, the partition apart. -/
structure ReadRequest where
  offset : Nat
  maxBytes : Nat
  maxWaitMs : Nat

/-- Where a request stands.  A `GroupFetch` carries the high watermark it has looked up; `notified`
says whether `new_records` was notified since the last read was prepared. -/
inductive FetchTask where
  | refused
  | authorize (highWatermark : Nat)
  | reading (highWatermark : Option Nat) (notified : Bool)
  | waiting (highWatermark : Option Nat) (notified : Bool)
  | filtering (highWatermark : Option Nat) (records : List StoredRecord)
  | done (result : Except StorageError (List StoredRecord))
  deriving DecidableEq

/-- One moment of an interleaving. -/
inductive Moment where
  -- the broker serves a produce or a replication
  | serve (e : Event)
  -- `notify_waiters` after an append to any partition
  | notify
  -- the coordinator authorises the `GroupFetch`
  | grant
  -- the storage worker reads the log for the request
  | read
  -- the request goes on after a notification, or after its deadline
  | wake
  | deadline
  -- the response is built
  | respond

namespace FetchTask

/-- `cluster_leadership_error`. -/
def admitted (cfg : LeaderConfig) (s : Leader) : Bool :=
  cfg.cluster.nodes.length = 1 ∨ s.entry.leaderId = cfg.self

def startFetch (cfg : LeaderConfig) (s : Leader) : FetchTask :=
  if admitted cfg s then .reading none false else .refused

/-- The high watermark is looked up right after the check. -/
def startGroupFetch (cfg : LeaderConfig) (s : Leader) : FetchTask :=
  if admitted cfg s then .authorize s.entry.highWatermark else .refused

def notify : FetchTask → FetchTask
  | .reading highWatermark _ => .reading highWatermark true
  | .waiting highWatermark _ => .waiting highWatermark true
  | t => t

/-- A `Fetch` needs no authorisation. -/
def grant : FetchTask → Option FetchTask
  | .authorize highWatermark => some (.reading (some highWatermark) false)
  | .reading none notified => some (.reading none notified)
  | _ => none

/-- `read_once`, and the decision to wait. -/
def read [Checksum] (request : ReadRequest) (s : Leader) : FetchTask → Option FetchTask
  | .reading highWatermark notified =>
    match s.log.read request.offset request.maxBytes with
    | .error e => some (.done (.error e))
    | .ok records =>
      if records ≠ [] ∨ request.maxWaitMs = 0 then some (.filtering highWatermark records)
      else some (.waiting highWatermark notified)
  | _ => none

def wake : FetchTask → Option FetchTask
  | .waiting highWatermark true => some (.reading highWatermark false)
  | _ => none

/-- `timeout_at` looks at the notification first. -/
def deadline : FetchTask → Option FetchTask
  | .waiting highWatermark false => some (.filtering highWatermark [])
  | _ => none

def respond (s : Leader) : FetchTask → Option FetchTask
  | .filtering highWatermark records =>
    some (.done (.ok (records.filter (·.offset < highWatermark.getD s.entry.highWatermark))))
  | _ => none

/-- The broker and one request.  A crash ends the request. -/
def step [Checksum] (cfg : LeaderConfig) (request : ReadRequest) :
    Leader × FetchTask → Moment → Option (Leader × FetchTask)
  | _, .serve (.crash _) => none
  | (s, t), .serve e => (s.step cfg e).map fun s' => (s', t)
  | (s, t), .notify => some (s, t.notify)
  | (s, t), .grant => t.grant.map fun t' => (s, t')
  | (s, t), .read => (t.read request s).map fun t' => (s, t')
  | (s, t), .wake => t.wake.map fun t' => (s, t')
  | (s, t), .deadline => t.deadline.map fun t' => (s, t')
  | (s, t), .respond => (t.respond s).map fun t' => (s, t')

end FetchTask

/-! ## What an interleaving shows -/

/-- The broker after a moment, and its log when the request read it last. -/
def observe [Checksum] (cfg : LeaderConfig) :
    Leader × Option PartitionLog → Moment → Leader × Option PartitionLog
  | (s, last), .serve e => ((s.step cfg e).getD s, last)
  | (s, _), .read => (s, some s.log)
  | (s, last), _ => (s, last)

/-- The request gets as far as `x` in a log: it is the first record from the offset on, or those from
the offset on up to it are within the budget. -/
def ReadRequest.Reaches [Checksum] (request : ReadRequest) (log : PartitionLog)
    (x : StoredRecord) : Prop :=
  ∃ stored, log.scan = .ok stored ∧ x ∈ stored ∧ request.offset ≤ x.offset ∧
    ((∀ y ∈ stored, request.offset ≤ y.offset → x.offset ≤ y.offset) ∨
      min (totalBytes (stored.filter fun y =>
        request.offset ≤ y.offset ∧ y.offset ≤ x.offset)) USIZE_MAX ≤ request.maxBytes)

/-- The commits of the interleaving cover a record that was not committed before, and that the
request gets to in the log it reads last. -/
def CommittedMeanwhile [Checksum] (cfg : LeaderConfig) (request : ReadRequest) (s : Leader)
    (moments : List Moment) : Prop :=
  ∃ s' log x, moments.foldl (observe cfg) (s, none) = (s', some log) ∧ request.Reaches log x ∧
    s.entry.highWatermark ≤ x.offset ∧ x.offset < s'.entry.highWatermark

/-- There are offsets for the records that are produced. -/
def FetchTask.Possible (p : Leader × FetchTask) : Moment → Prop
  | .serve e => p.1.Possible e
  | _ => True

/-! ## Both requests side by side -/

/-- A `Fetch` and a `GroupFetch` that looked up `highWatermark` stand at the same place; `last` is
the log they have read. -/
inductive Paired [Checksum] (request : ReadRequest) (highWatermark : Nat) :
    Option PartitionLog → FetchTask → FetchTask → Prop
  | refused {last : Option PartitionLog} : Paired request highWatermark last .refused .refused
  | authorize {last : Option PartitionLog} {n : Bool} :
      Paired request highWatermark last (.reading none n) (.authorize highWatermark)
  | reading {last : Option PartitionLog} {n n' : Bool} :
      Paired request highWatermark last (.reading none n) (.reading (some highWatermark) n')
  | waiting {log : PartitionLog} {n n' : Bool}
      (hread : log.read request.offset request.maxBytes = .ok []) :
      Paired request highWatermark (some log) (.waiting none n) (.waiting (some highWatermark) n')
  | filtering {log : PartitionLog} {records : List StoredRecord}
      (hread : log.read request.offset request.maxBytes = .ok records) :
      Paired request highWatermark (some log) (.filtering none records)
        (.filtering (some highWatermark) records)
  | done {last : Option PartitionLog} {a b : Except StorageError (List StoredRecord)} :
      Paired request highWatermark last (.done a) (.done b)

section Agreement

variable [Checksum] {cfg : LeaderConfig} {request : ReadRequest} {s s₁ s₂ : Leader}
  {highWatermark : Nat} {last : Option PartitionLog} {t u t' u' : FetchTask}

theorem Paired.notify (h : Paired request highWatermark last t u) :
    Paired request highWatermark last t.notify u.notify := by
  cases h with
  | refused => exact .refused
  | authorize => exact .authorize
  | reading => exact .reading
  | waiting hread => exact .waiting hread
  | filtering hread => exact .filtering hread
  | done => exact .done

theorem Paired.grant (h : Paired request highWatermark last t u) (ht : t.grant = some t')
    (hu : u.grant = some u') : Paired request highWatermark last t' u' := by
  cases h with
  | authorize =>
    cases ht
    cases hu
    exact .reading
  | refused => cases ht
  | reading => cases hu
  | waiting => cases ht
  | filtering => cases ht
  | done => cases ht

theorem Paired.read (h : Paired request highWatermark last t u) (ht : t.read request s = some t')
    (hu : u.read request s = some u') :
    Paired request highWatermark (some s.log) t' u' := by
  cases h with
  | reading =>
    simp only [FetchTask.read] at ht hu
    cases hread : s.log.read request.offset request.maxBytes with
    | error e =>
      rw [hread] at ht hu
      cases ht
      cases hu
      exact .done
    | ok records =>
      rw [hread] at ht hu
      simp only at ht hu
      split at ht
      · rename_i hready
        rw [if_pos hready] at hu
        cases ht
        cases hu
        exact .filtering hread
      · rename_i hempty
        rw [if_neg hempty] at hu
        cases ht
        cases hu
        obtain rfl : records = [] := by
          by_contra hne
          exact hempty (Or.inl hne)
        exact .waiting hread
  | refused => cases ht
  | authorize => cases hu
  | waiting => cases ht
  | filtering => cases ht
  | done => cases ht

theorem Paired.wake (h : Paired request highWatermark last t u) (ht : t.wake = some t')
    (hu : u.wake = some u') : Paired request highWatermark last t' u' := by
  cases h with
  | @waiting _ n n' =>
    cases n with
    | false => cases ht
    | true =>
      cases n' with
      | false => cases hu
      | true =>
        cases ht
        cases hu
        exact .reading
  | refused => cases ht
  | authorize => cases ht
  | reading => cases ht
  | filtering => cases ht
  | done => cases ht

theorem Paired.deadline (h : Paired request highWatermark last t u) (ht : t.deadline = some t')
    (hu : u.deadline = some u') : Paired request highWatermark last t' u' := by
  cases h with
  | @waiting _ n n' hread =>
    cases n with
    | true => cases ht
    | false =>
      cases n' with
      | true => cases hu
      | false =>
        cases ht
        cases hu
        exact .filtering hread
  | refused => cases ht
  | authorize => cases ht
  | reading => cases ht
  | filtering => cases ht
  | done => cases ht

theorem Paired.respond (h : Paired request highWatermark last t u) (ht : t.respond s = some t')
    (hu : u.respond s = some u') : Paired request highWatermark last t' u' ∧
      ∃ log records, last = some log ∧ log.read request.offset request.maxBytes = .ok records ∧
        t' = .done (.ok (records.filter (·.offset < s.entry.highWatermark))) ∧
        u' = .done (.ok (records.filter (·.offset < highWatermark))) := by
  cases h with
  | filtering hread =>
    cases ht
    cases hu
    exact ⟨.done, _, _, rfl, hread, rfl, rfl⟩
  | refused => cases ht
  | authorize => cases ht
  | reading => cases ht
  | waiting => cases ht
  | done => cases ht

theorem Paired.start (cfg : LeaderConfig) (request : ReadRequest) (s : Leader) :
    Paired request s.entry.highWatermark none (FetchTask.startFetch cfg s)
      (FetchTask.startGroupFetch cfg s) := by
  unfold FetchTask.startFetch FetchTask.startGroupFetch
  split
  · exact .authorize
  · exact .refused

omit [Checksum] in
theorem Leader.acknowledge_entry {res : Except StorageError (List Nat)} {log' : PartitionLog}
    (hs : s.acknowledge (res, log') = some s₁) : s₁.entry = s.entry := by
  obtain ⟨_, _, _, rfl⟩ := Leader.acknowledge_some hs
  rfl

omit [Checksum] in
theorem Leader.replicate_highWatermark (s : Leader) (offset acks : Nat) :
    s.entry.highWatermark ≤ (s.replicate cfg offset acks).entry.highWatermark := by
  unfold Leader.replicate
  split
  · split
    · exact Nat.le_refl _
    · rename_i entry hcommit
      unfold Leader.commit at hcommit
      split at hcommit
      · cases hcommit
        exact Nat.le_refl _
      · rename_i hlt
        obtain ⟨rfl, _⟩ := applyEntry_ok hcommit
        exact Nat.le_of_not_le hlt
  · exact Nat.le_refl _

/-- A served request does not lower the high watermark. -/
theorem Leader.step_highWatermark {e : Event} (hcrash : ∀ dir, e ≠ .crash dir)
    (hs : s.step cfg e = some s₁) : s.entry.highWatermark ≤ s₁.entry.highWatermark := by
  cases e with
  | produce record ackMode => exact Nat.le_of_eq (congrArg _ (Leader.acknowledge_entry hs).symm)
  | produceBatch records others ackMode =>
    exact Nat.le_of_eq (congrArg _ (Leader.acknowledge_entry hs).symm)
  | replicate offset acks =>
    simp only [Leader.step] at hs
    split at hs
    · cases hs
      exact Leader.replicate_highWatermark s offset acks
    · cases hs
  | crash dir => exact absurd rfl (hcrash dir)

theorem FetchTask.step_serve {e : Event}
    (h : FetchTask.step cfg request (s, t) (.serve e) = some (s₁, t')) :
    (∀ dir, e ≠ .crash dir) ∧ s.step cfg e = some s₁ ∧ t' = t := by
  have hserved : ∀ {x : Option Leader}, x.map (fun s' => (s', t)) = some (s₁, t') →
      x = some s₁ ∧ t' = t := by
    intro x hx
    obtain ⟨v, rfl, hv⟩ := Option.map_eq_some_iff.1 hx
    cases hv
    exact ⟨rfl, rfl⟩
  cases e with
  | crash dir => cases h
  | produce record ackMode => exact ⟨fun _ => Event.noConfusion, hserved h⟩
  | produceBatch records others ackMode => exact ⟨fun _ => Event.noConfusion, hserved h⟩
  | replicate offset acks => exact ⟨fun _ => Event.noConfusion, hserved h⟩

/-- **One moment** brings both requests to the same place again. -/
theorem Paired.step {m : Moment} (h : Paired request highWatermark last t u)
    (ht : FetchTask.step cfg request (s, t) m = some (s₁, t'))
    (hu : FetchTask.step cfg request (s, u) m = some (s₂, u')) :
    s₁ = s₂ ∧ (observe cfg (s, last) m).1 = s₁ ∧
      s.entry.highWatermark ≤ s₁.entry.highWatermark ∧
      Paired request highWatermark (observe cfg (s, last) m).2 t' u' := by
  -- where the broker does nothing
  have hstill : ∀ {x y : Option FetchTask}, x.map (fun v => (s, v)) = some (s₁, t') →
      y.map (fun v => (s, v)) = some (s₂, u') →
      x = some t' ∧ y = some u' ∧ s₁ = s ∧ s₂ = s := by
    intro x y hx hy
    obtain ⟨v, rfl, hv⟩ := Option.map_eq_some_iff.1 hx
    obtain ⟨w, rfl, hw⟩ := Option.map_eq_some_iff.1 hy
    cases hv
    cases hw
    exact ⟨rfl, rfl, rfl, rfl⟩
  cases m with
  | serve e =>
    obtain ⟨hcrash, hs₁, rfl⟩ := FetchTask.step_serve ht
    obtain ⟨_, hs₂, rfl⟩ := FetchTask.step_serve hu
    rw [hs₁] at hs₂
    cases hs₂
    refine ⟨rfl, ?_, Leader.step_highWatermark hcrash hs₁, h⟩
    rw [observe, hs₁, Option.getD_some]
  | notify =>
    cases ht
    cases hu
    exact ⟨rfl, rfl, Nat.le_refl _, h.notify⟩
  | grant =>
    obtain ⟨hx, hy, rfl, rfl⟩ := hstill ht hu
    exact ⟨rfl, rfl, Nat.le_refl _, h.grant hx hy⟩
  | read =>
    obtain ⟨hx, hy, rfl, rfl⟩ := hstill ht hu
    exact ⟨rfl, rfl, Nat.le_refl _, h.read hx hy⟩
  | wake =>
    obtain ⟨hx, hy, rfl, rfl⟩ := hstill ht hu
    exact ⟨rfl, rfl, Nat.le_refl _, h.wake hx hy⟩
  | deadline =>
    obtain ⟨hx, hy, rfl, rfl⟩ := hstill ht hu
    exact ⟨rfl, rfl, Nat.le_refl _, h.deadline hx hy⟩
  | respond =>
    obtain ⟨hx, hy, rfl, rfl⟩ := hstill ht hu
    exact ⟨rfl, rfl, Nat.le_refl _, (h.respond hx hy).1⟩

/-- **Any interleaving** does. -/
theorem Paired.of_run {moments : List Moment} (h : Paired request highWatermark last t u)
    (ht : run (FetchTask.step cfg request) (s, t) moments = some (s₁, t'))
    (hu : run (FetchTask.step cfg request) (s, u) moments = some (s₂, u')) :
    s₁ = s₂ ∧ (moments.foldl (observe cfg) (s, last)).1 = s₁ ∧
      s.entry.highWatermark ≤ s₁.entry.highWatermark ∧
      Paired request highWatermark (moments.foldl (observe cfg) (s, last)).2 t' u' := by
  induction moments generalizing s t u last with
  | nil =>
    cases ht
    cases hu
    exact ⟨rfl, rfl, Nat.le_refl _, h⟩
  | cons m moments ih =>
    simp only [run] at ht hu
    split at ht
    · cases ht
    · rename_i next hm
      split at hu
      · cases hu
      · rename_i next' hm'
        obtain ⟨s₃, t₃⟩ := next
        obtain ⟨s₄, u₃⟩ := next'
        obtain ⟨rfl, hobserve, hle, hpaired⟩ := h.step hm hm'
        obtain ⟨hsame, hlast, hle', hpaired'⟩ := ih hpaired ht hu
        rw [List.foldl_cons, show observe cfg (s, last) m =
          (s₃, (observe cfg (s, last) m).2) from Prod.ext hobserve rfl]
        exact ⟨hsame, hlast, Nat.le_trans hle hle', hpaired'⟩

omit [Checksum] in
/-- Two watermarks let through the same records when there is none between them. -/
theorem filter_below_iff {records : List StoredRecord} {lower upper : Nat} (hle : lower ≤ upper) :
    records.filter (·.offset < upper) = records.filter (·.offset < lower) ↔
      ¬ ∃ x ∈ records, lower ≤ x.offset ∧ x.offset < upper := by
  constructor
  · rintro heq ⟨x, hx, hlower, hupper⟩
    have hmem : x ∈ records.filter (·.offset < lower) := by
      rw [← heq]
      exact List.mem_filter.2 ⟨hx, decide_eq_true hupper⟩
    exact absurd (of_decide_eq_true (List.mem_filter.1 hmem).2) (Nat.not_lt.2 hlower)
  · intro hno
    refine List.filter_congr fun x hx => ?_
    rw [decide_eq_decide]
    refine ⟨fun hupper => Nat.lt_of_not_le fun hlower => hno ⟨x, hx, hlower, hupper⟩, fun hlt => ?_⟩
    exact Nat.lt_of_lt_of_le hlt hle

/-! ## Logs that can be scanned -/

theorem Leader.appendRecord_stored {log log' : PartitionLog} {record : Record} {ackMode : AckMode}
    {res : Except StorageError Nat} (h : Stored log) (hb : log.nextOffset < U64_MAX)
    (heq : Leader.appendRecord log record ackMode = (res, log')) (hio : res ≠ .error .io) :
    Stored log' ∧ log'.nextOffset ≤ log.nextOffset + 1 := by
  have happ : ∀ {r log₁}, log.append record = (r, log₁) → r ≠ .error .io →
      Stored log₁ ∧ log₁.nextOffset ≤ log.nextOffset + 1 := by
    intro r log₁ hr hne
    have hstored := h.append hb (by rw [hr]; exact hne)
    have hfew := h.append_few hb (by rw [hr]; exact hne)
    rw [hr] at hstored hfew
    exact ⟨hstored, hfew⟩
  unfold Leader.appendRecord at heq
  split at heq
  · rename_i hr
    cases heq
    exact happ hr hio
  · rename_i log₁ hr
    cases heq
    obtain ⟨hstored, hfew⟩ := happ hr fun herr => by cases herr
    obtain ⟨hsynced, hnext⟩ := hstored.syncData
    split
    · exact ⟨hsynced, by rw [hnext]; exact hfew⟩
    · exact ⟨hstored, hfew⟩

theorem Leader.appendAll_stored {records : List Record} {log log' : PartitionLog}
    {res : Except StorageError (List Nat)} (h : Stored log)
    (hb : log.nextOffset + records.length ≤ U64_MAX)
    (heq : Leader.appendAll records log = (res, log')) (hio : res ≠ .error .io) : Stored log' := by
  induction records generalizing log res with
  | nil =>
    cases heq
    exact h
  | cons record records ih =>
    rw [List.length_cons] at hb
    unfold Leader.appendAll at heq
    split at heq
    · rename_i e log₁ hr
      cases heq
      exact (Leader.appendRecord_stored h (by omega) hr fun herr => by
        cases herr
        exact hio rfl).1
    · rename_i offset log₁ hr
      obtain ⟨h₁, hfew⟩ := Leader.appendRecord_stored h (by omega) hr fun herr => by cases herr
      split at heq
      · rename_i e log₂ hrest
        cases heq
        exact ih h₁ (by omega) hrest hio
      · rename_i offsets log₂ hrest
        cases heq
        exact ih h₁ (by omega) hrest fun herr => by cases herr

/-- What is served leaves a log that can be scanned. -/
theorem Leader.step_stored {e : Event} (h : Stored s.log) (hpossible : s.Possible e)
    (hcrash : ∀ dir, e ≠ .crash dir) (hs : s.step cfg e = some s₁) : Stored s₁.log := by
  cases e with
  | produce record ackMode =>
    simp only [Leader.step] at hs
    generalize hr : Leader.appendRecord s.log record ackMode = r at hs
    obtain ⟨res, log⟩ := r
    obtain ⟨hio, _, _, rfl⟩ := Leader.acknowledge_some hs
    exact (Leader.appendRecord_stored h (Nat.lt_of_succ_lt hpossible) hr
      (Leader.mapList_error hio)).1
  | produceBatch records others ackMode =>
    simp only [Leader.step] at hs
    generalize hr : Leader.appendBatchRecords s.log records others ackMode = r at hs
    obtain ⟨res, log⟩ := r
    obtain ⟨hio, _, _, rfl⟩ := Leader.acknowledge_some hs
    have hb := Nat.le_of_lt hpossible
    unfold Leader.appendBatchRecords at hr
    split at hr
    · rename_i happ
      cases hr
      exact Leader.appendAll_stored h hb happ hio
    · rename_i happ
      have hall := Leader.appendAll_stored h hb happ fun herr => by cases herr
      split at hr
      · cases hr
        exact hall
      · cases hr
        dsimp only
        split
        · exact hall.syncData.1
        · exact hall
  | replicate offset acks =>
    simp only [Leader.step] at hs
    split at hs
    · cases hs
      unfold Leader.replicate
      split
      · split <;> exact h
      · exact h
    · cases hs
  | crash dir => exact absurd rfl (hcrash dir)

/-- The log that was read last can be scanned. -/
theorem observe_stored {moments : List Moment} (h : Stored s.log)
    (hlast : ∀ log, last = some log → Stored log)
    (hpossible : Along (FetchTask.step cfg request) FetchTask.Possible (s, t) moments)
    (hr : run (FetchTask.step cfg request) (s, t) moments = some (s₁, t')) {log : PartitionLog}
    (hlog : (moments.foldl (observe cfg) (s, last)).2 = some log) : Stored log := by
  induction moments generalizing s t last with
  | nil => exact hlast log hlog
  | cons m moments ih =>
    simp only [run] at hr
    split at hr
    · cases hr
    rename_i next hm
    obtain ⟨s₃, t₃⟩ := next
    have hrest := hpossible.2 _ hm
    have hstill : ∀ {x : Option FetchTask}, x.map (fun v => (s, v)) = some (s₃, t₃) → s₃ = s := by
      intro x hx
      obtain ⟨v, _, hv⟩ := Option.map_eq_some_iff.1 hx
      cases hv
      rfl
    cases m with
    | serve e =>
      obtain ⟨hcrash, hs₃, rfl⟩ := FetchTask.step_serve hm
      rw [List.foldl_cons, observe, hs₃, Option.getD_some] at hlog
      exact ih (Leader.step_stored h hpossible.1 hcrash hs₃) hlast hrest hr hlog
    | read =>
      obtain rfl := hstill hm
      refine ih h (fun log' heq => ?_) hrest hr hlog
      cases heq
      exact h
    | notify =>
      cases hm
      exact ih h hlast hrest hr hlog
    | grant =>
      obtain rfl := hstill hm
      exact ih h hlast hrest hr hlog
    | wake =>
      obtain rfl := hstill hm
      exact ih h hlast hrest hr hlog
    | deadline =>
      obtain rfl := hstill hm
      exact ih h hlast hrest hr hlog
    | respond =>
      obtain rfl := hstill hm
      exact ih h hlast hrest hr hlog

/-- **A read returns the records it gets to.** -/
theorem ReadRequest.reaches_iff {log : PartitionLog} (h : Stored log) {records : List StoredRecord}
    (hread : log.read request.offset request.maxBytes = .ok records) (x : StoredRecord) :
    x ∈ records ↔ request.Reaches log x := by
  obtain ⟨interval, removed, chunks, last, hrep⟩ := h
  have hmax : 0 < request.maxBytes := by
    refine Nat.pos_of_ne_zero fun hzero => ?_
    rw [hrep.read, if_pos hzero] at hread
    cases hread
  obtain ⟨records', hread', hlongest, _⟩ := @Rep.read_scan _ _ _ _ _ _ hrep request.offset _ hmax
  rw [hread] at hread'
  cases hread'
  have hscan := hrep.scan
  generalize hstored : storedFrom removed.length (chunks.flatten ++ last) = stored at *
  have hsorted : (fromOffset request.offset stored).Pairwise fun x y => x.offset < y.offset := by
    rw [← hstored]
    exact (storedFrom_increasing _ _).filter _
  have hmem : ∀ y, y ∈ fromOffset request.offset stored ↔
      y ∈ stored ∧ request.offset ≤ y.offset := fun y => by
    rw [fromOffset, List.mem_filter, decide_eq_true_iff]
  have hupto : (fromOffset request.offset stored).filter (·.offset ≤ x.offset) =
      stored.filter fun y => request.offset ≤ y.offset ∧ y.offset ≤ x.offset := by
    rw [fromOffset, List.filter_filter]
    exact List.filter_congr fun y _ => by rw [Bool.decide_and, Bool.and_comm]
  constructor
  · intro hx
    have hin := hlongest.isPrefix.subset hx
    obtain ⟨hx', hle⟩ := (hmem x).1 hin
    refine ⟨stored, hscan, hx', hle, ?_⟩
    rcases (hlongest.mem_iff hsorted hin).1 hx with hfirst | hmin
    · exact Or.inl fun y hy hoffset => hfirst y ((hmem y).2 ⟨hy, hoffset⟩)
    · exact Or.inr (hupto ▸ hmin)
  · rintro ⟨stored', hscan', hx, hle, hreach⟩
    rw [hscan] at hscan'
    cases hscan'
    refine (hlongest.mem_iff hsorted ((hmem x).2 ⟨hx, hle⟩)).2 ?_
    rw [hupto]
    exact hreach.imp_left fun hfirst y hy => hfirst y ((hmem y).1 hy).1 ((hmem y).1 hy).2

/-- **The two fetch paths over one interleaving**, up to the moment the response is built, for any
log that can be reached.  `Fetch` returns what was read below the high watermark of that moment;
`GroupFetch` returns the same exactly when no commit in between covered what the last read gets
to. -/
theorem fetches_agree_iff {topic : String} {maxSegmentBytes interval : Nat} {log₀ : PartitionLog}
    {acts : List Storage.Action}
    (h₀ : PartitionLog.openLog Dir.empty topic maxSegmentBytes interval = .ok log₀)
    (hfew : Along (PartitionLog.act topic) ActCountable log₀ acts)
    (hlog : run (PartitionLog.act topic) log₀ acts = some s.log)
    {moments : List Moment} {a b : Except StorageError (List StoredRecord)}
    (hpossible : Along (FetchTask.step cfg request) FetchTask.Possible
      (s, FetchTask.startFetch cfg s) moments)
    (hfetch : run (FetchTask.step cfg request) (s, FetchTask.startFetch cfg s)
      (moments ++ [.respond]) = some (s₁, .done a))
    (hgroup : run (FetchTask.step cfg request) (s, FetchTask.startGroupFetch cfg s)
      (moments ++ [.respond]) = some (s₂, .done b)) :
    s₂ = s₁ ∧
      (∃ log records, moments.foldl (observe cfg) (s, none) = (s₁, some log) ∧
        log.read request.offset request.maxBytes = .ok records ∧
        a = .ok (records.filter (·.offset < s₁.entry.highWatermark))) ∧
      (b = a ↔ ¬ CommittedMeanwhile cfg request s moments) := by
  have hnew : Stored log₀ := ⟨interval, [], [], [], openLog_empty h₀⟩
  have hstart : Stored s.log :=
    run_invariant (fun _ _ _ hp hq hs => Stored.act hp hq hs) hnew hfew hlog
  rw [run_append] at hfetch hgroup
  obtain ⟨⟨s₃, t⟩, ht, htlast⟩ := Option.bind_eq_some_iff.1 hfetch
  obtain ⟨⟨s₄, u⟩, hu, hulast⟩ := Option.bind_eq_some_iff.1 hgroup
  obtain ⟨rfl, hobserve, hle, hpaired⟩ := (Paired.start cfg request s).of_run ht hu
  simp only [run, FetchTask.step] at htlast hulast
  split at htlast
  · cases htlast
  rename_i hx
  split at hulast
  · cases hulast
  rename_i hy
  cases htlast
  cases hulast
  obtain ⟨v, hv, hpair⟩ := Option.map_eq_some_iff.1 hx
  obtain ⟨w, hw, hpair'⟩ := Option.map_eq_some_iff.1 hy
  cases hpair
  cases hpair'
  obtain ⟨_, log, records, hlast, hread, ha, hb⟩ := hpaired.respond hv hw
  cases ha
  cases hb
  have hfold : moments.foldl (observe cfg) (s, none) = (s₁, some log) :=
    Prod.ext hobserve hlast
  have hreaches := ReadRequest.reaches_iff
    (observe_stored hstart (fun _ hnone => by cases hnone) hpossible ht hlast) hread
  refine ⟨rfl, ⟨log, records, hfold, hread, rfl⟩, ?_⟩
  have hiff := @filter_below_iff records _ _ hle
  constructor
  · rintro heq ⟨s', log', x, hfold', hx, hbetween⟩
    rw [hfold] at hfold'
    cases hfold'
    exact hiff.1 (Except.ok.inj heq).symm ⟨x, (hreaches x).2 hx, hbetween⟩
  · intro hno
    refine congrArg Except.ok (hiff.2 ?_).symm
    rintro ⟨x, hx, hbetween⟩
    exact hno ⟨s₁, log, x, hfold, (hreaches x).1 hx, hbetween⟩

end Agreement

/-! ## Two interleavings -/

theorem two_mem_threeNodes : 2 ∈ threeNodes.nodes := by decide

def waitingConfig : LeaderConfig := ⟨threeNodes, 2, two_mem_threeNodes, "payments", 1024, 64⟩

/-- The leader of an empty partition of three replicas. -/
def emptyLeader : Leader := ⟨⟨0, 1024, 64, [.new 0], .empty⟩, ⟨1, 2, 0, 0⟩, []⟩

def firstRecord : Record := ⟨none, utf8 "paid", 1, none⟩

def untilFirst : ReadRequest := ⟨0, 1024, 1000⟩

/-- Nothing is there yet; then a record is produced, committed and read. -/
def waitedFor : List Moment :=
  [.grant, .read, .serve (.produce firstRecord .leader), .serve (.replicate 0 1), .notify, .wake,
    .read]

/-- **`GroupFetch` does not return the record it waited for**, and `Fetch` does. -/
theorem group_fetch_misses_record :
    letI := Checksum.crc32
    (run (FetchTask.step waitingConfig untilFirst)
      (emptyLeader, FetchTask.startFetch waitingConfig emptyLeader)
      (waitedFor ++ [.respond])).map Prod.snd = some (.done (.ok [firstRecord.at 0])) ∧
    (run (FetchTask.step waitingConfig untilFirst)
      (emptyLeader, FetchTask.startGroupFetch waitingConfig emptyLeader)
      (waitedFor ++ [.respond])).map Prod.snd = some (.done (.ok [])) := by
  let _ := Checksum.crc32
  exact ⟨by decide +kernel, by decide +kernel⟩

/-- The leader once a record is committed. -/
def committedLeader [Checksum] : Leader :=
  (run (Leader.step waitingConfig) emptyLeader
    [.produce firstRecord .leader, .replicate 0 1]).getD emptyLeader

/-- Another record is produced before the read and is not committed by then. -/
def alreadyThere : List Moment := [.serve (.produce firstRecord .leader), .grant, .read]

theorem fetches_agree_iff_committed :
    letI := Checksum.crc32
    ∃ s₁, run (FetchTask.step waitingConfig untilFirst)
        (committedLeader, FetchTask.startGroupFetch waitingConfig committedLeader)
        (alreadyThere ++ [.respond]) = some (s₁, .done (.ok [firstRecord.at 0])) ∧
      ¬ CommittedMeanwhile waitingConfig untilFirst committedLeader alreadyThere := by
  let _ := Checksum.crc32
  have hopen : PartitionLog.openLog Dir.empty "payments" 1024 64 =
      .ok ⟨0, 1024, 64, [.new 0], .empty⟩ := rfl
  have hfew : Along (PartitionLog.act "payments") ActCountable ⟨0, 1024, 64, [.new 0], .empty⟩
      [.perform (.append firstRecord)] := by decide +kernel
  have hlog : run (PartitionLog.act "payments") ⟨0, 1024, 64, [.new 0], .empty⟩
      [.perform (.append firstRecord)] = some committedLeader.log := rfl
  have hpossible : Along (FetchTask.step waitingConfig untilFirst) FetchTask.Possible
      (committedLeader, FetchTask.startFetch waitingConfig committedLeader) alreadyThere := by
    refine ⟨?_, fun _ _ => ⟨trivial, fun _ _ => ⟨trivial, fun _ _ => trivial⟩⟩⟩
    show committedLeader.log.nextOffset + 1 < U64_MAX
    decide +kernel
  have hfetch : (run (FetchTask.step waitingConfig untilFirst)
      (committedLeader, FetchTask.startFetch waitingConfig committedLeader)
      (alreadyThere ++ [.respond])).map Prod.snd = some (.done (.ok [firstRecord.at 0])) := by
    decide +kernel
  have hgroup : (run (FetchTask.step waitingConfig untilFirst)
      (committedLeader, FetchTask.startGroupFetch waitingConfig committedLeader)
      (alreadyThere ++ [.respond])).map Prod.snd = some (.done (.ok [firstRecord.at 0])) := by
    decide +kernel
  obtain ⟨⟨s₁, _⟩, hf, hdone⟩ := Option.map_eq_some_iff.1 hfetch
  obtain ⟨⟨s₂, _⟩, hg, hdone'⟩ := Option.map_eq_some_iff.1 hgroup
  cases hdone
  cases hdone'
  exact ⟨s₂, hg, (fetches_agree_iff hopen hfew hlog hpossible hf hg).2.2.1 rfl⟩

end SevlaMq.Broker
