import SevlaMq.Cluster.Model
import SevlaMq.Storage.Restart

/-!
# The log of a leader and its persisted high watermark

Model of `append_record`, `append_batch_records`, `Replicator::{replicate, commit}`, `Fetch` and the
startup of `crates/broker/src/lib.rs` and `crates/broker/src/leadership.rs`, for one partition that
this broker leads: the partitions have their logs and registry entries each for itself.

The log and `leadership.meta` are durable in different ways.  A record is synced when it is produced
with `AckMode::Durable`; an entry is on disk when `persist_entries` returns, so the entry of a
leader is also what a restart reads.  A crash inside of a request leaves what a crash after an
unsynced append may leave, or the entry before or after a commit.

* `Leader.step` — one produce, one replication or one crash with the restart that follows.
* `Outage` limits what a crash may take; `Flushes` asks that a commit finds its record synced.
* `Leader.Covered` — no crash makes the log shorter than the watermark.
* `watermark_within_log` — every state of a run within `Flushes` is covered, and each step that
  leaves `Flushes` leads to one that is not.
-/

set_option autoImplicit false

namespace SevlaMq.Broker

open SevlaMq.Storage SevlaMq.Cluster

structure LeaderConfig where
  cluster : ClusterConfig
  self : BrokerId
  self_mem : self ∈ cluster.nodes
  topic : String
  maxSegmentBytes : Nat
  indexIntervalBytes : Nat

/-- Log and registry entry of the partition, and the appended records that wait for their
replication. -/
structure Leader where
  log : PartitionLog
  entry : PartitionLeadership
  appended : List Nat

namespace Leader

/-! ## Requests -/

/-- `append_record` on the log of the partition. -/
def appendRecord [Checksum] (log : PartitionLog) (record : Record) (ackMode : AckMode) :
    Except StorageError Nat × PartitionLog :=
  match log.append record with
  | (.error e, log) => (.error e, log)
  | (.ok offset, log) => (.ok offset, if ackMode = .durable then log.syncData else log)

/-- The loop of `append_batch_records`. -/
def appendAll [Checksum] :
    List Record → PartitionLog → Except StorageError (List Nat) × PartitionLog
  | [], log => (.ok [], log)
  | record :: records, log =>
    match appendRecord log record .leader with
    | (.error e, log) => (.error e, log)
    | (.ok offset, log) =>
      match appendAll records log with
      | (.error e, log) => (.error e, log)
      | (.ok offsets, log) => (.ok (offset :: offsets), log)

/-- `append_batch_records`: the records of the batch that go to this partition.  `others` is what
the appends to the other partitions return. -/
def appendBatchRecords [Checksum] (log : PartitionLog) (records : List Record)
    (others : Except StorageError Unit) (ackMode : AckMode) :
    Except StorageError (List Nat) × PartitionLog :=
  match appendAll records log with
  | (.error e, log) => (.error e, log)
  | (.ok offsets, log) =>
    match others with
    | .error e => (.error e, log)
    | .ok () => (.ok offsets, if ackMode = .durable then log.syncData else log)

/-- The replications of a produce follow its append, in the request or in the background. -/
def acknowledge (s : Leader) : Except StorageError (List Nat) × PartitionLog → Option Leader
  | (.error .io, _) => none
  | (.error _, log) => some { s with log }
  | (.ok offsets, log) => some { s with log, appended := s.appended ++ offsets }

/-- `Replicator::commit`; no other leadership is applied to a partition while it is led here. -/
def commit (cfg : LeaderConfig) (l : PartitionLeadership) (highWatermark : Nat) :
    Except LeadershipError PartitionLeadership :=
  if highWatermark ≤ l.highWatermark then .ok l
  else applyEntry cfg.cluster (some l) { l with highWatermark }

/-- The leader and the followers that acknowledge. -/
def acknowledgements (cfg : LeaderConfig) (acks : Nat) : Nat :=
  1 + min acks (cfg.cluster.replicaFollowers cfg.self).length

/-- `Replicator::replicate` of the record `offset`. -/
def replicate (cfg : LeaderConfig) (s : Leader) (offset acks : Nat) : Leader :=
  if cfg.cluster.minInSyncReplicas ≤ acknowledgements cfg acks then
    match commit cfg s.entry (saturatingAdd offset 1) with
    | .error _ => s
    | .ok entry => { s with entry }
  else s

/-- `migrate_high_watermark` with the log end of the partition. -/
def migrateHighWatermark (l : PartitionLeadership) (logEnd : Nat) : PartitionLeadership :=
  if l.highWatermark ≠ U64_MAX then l else { l with highWatermark := logEnd }

/-- The startup of the broker on the directory a crash has left. -/
def restart [Checksum] (cfg : LeaderConfig) (s : Leader) (dir : Dir) : Option Leader :=
  match PartitionLog.openLog dir cfg.topic cfg.maxSegmentBytes cfg.indexIntervalBytes with
  | .error _ => none
  | .ok log => some ⟨log, migrateHighWatermark s.entry log.nextOffset, []⟩

/-- `Fetch`. -/
def fetch [Checksum] (s : Leader) (offset maxBytes : Nat) :
    Except StorageError (List StoredRecord) :=
  match s.log.read offset maxBytes with
  | .error e => .error e
  | .ok records => .ok (records.filter (·.offset < s.entry.highWatermark))

/-- The leader of a partition that was just created. -/
def new (cfg : LeaderConfig) (log : PartitionLog) (leaderEpoch : Nat) : Leader :=
  ⟨log, ⟨cfg.cluster.partition, cfg.self, leaderEpoch, 0⟩, []⟩

end Leader

/-! ## Steps -/

inductive Event where
  | produce (record : Record) (ackMode : AckMode)
  | produceBatch (records : List Record) (others : Except StorageError Unit) (ackMode : AckMode)
  | replicate (offset acks : Nat)
  | crash (dir : Dir)

namespace Event

/-- The produce asks for a synced record. -/
def durable : Event → Bool
  | .produce _ ackMode => ackMode = .durable
  | .produceBatch _ _ ackMode => ackMode = .durable
  | _ => true

/-- The broker stays up, and the event commits no record from `k` on. -/
def below (k : Nat) : Event → Bool
  | .replicate offset _ => offset < k
  | .crash _ => false
  | _ => true

end Event

namespace Leader

def step [Checksum] (cfg : LeaderConfig) (s : Leader) : Event → Option Leader
  | .produce record ackMode =>
    let (res, log) := appendRecord s.log record ackMode
    s.acknowledge (res.map fun offset => [offset], log)
  | .produceBatch records others ackMode =>
    s.acknowledge (appendBatchRecords s.log records others ackMode)
  | .replicate offset acks =>
    if offset ∈ s.appended then
      some { s.replicate cfg offset acks with appended := s.appended.erase offset }
    else none
  | .crash dir => s.restart cfg dir

/-- A crash leaves what an outage may leave, and there are offsets for the records produced. -/
def Possible (s : Leader) : Event → Prop
  | .produce _ _ => s.log.nextOffset + 1 < U64_MAX
  | .produceBatch records _ _ => s.log.nextOffset + records.length < U64_MAX
  | .replicate _ _ => True
  | .crash dir => Outage s.log.dir dir

/-- A commit that raises the watermark finds the records below it synced, those of the closed
segments apart. -/
def Flushes [Checksum] (cfg : LeaderConfig) (s : Leader) : Event → Prop
  | .replicate offset acks =>
    offset ∈ s.appended → cfg.cluster.minInSyncReplicas ≤ acknowledgements cfg acks →
      s.entry.highWatermark ≤ offset → s.log.flushed (offset + 1) = true
  | _ => True

/-- A possible event that commits synced records only. -/
def Within [Checksum] (cfg : LeaderConfig) (s : Leader) (e : Event) : Prop :=
  s.Possible e ∧ s.Flushes cfg e

/-- `Fetch` returns no record that is appended from now on before it is committed. -/
def HidesNew [Checksum] (cfg : LeaderConfig) (s : Leader) : Prop :=
  ∀ k acts s', s.log.nextOffset ≤ k → (∀ e ∈ acts, Event.below k e = true) →
    run (step cfg) s acts = some s' → ∀ offset maxBytes records,
      s'.fetch offset maxBytes = .ok records → ∀ r ∈ records, r.offset ≠ k

/-- Whatever a crash leaves, the watermark does not run ahead of the log after the restart. -/
def Covered [Checksum] (cfg : LeaderConfig) (s : Leader) : Prop :=
  ∀ dir s', Outage s.log.dir dir → s.restart cfg dir = some s' →
    s'.entry.highWatermark ≤ s'.log.nextOffset ∧ s'.HidesNew cfg

/-! ## Commits -/

theorem saturatingAdd_one {offset : Nat} (h : offset < U64_MAX) :
    saturatingAdd offset 1 = offset + 1 :=
  Nat.min_eq_left (Nat.succ_le_of_lt h)

theorem commit_raises {cfg : LeaderConfig} {l : PartitionLeadership}
    (hl : l.leaderId ∈ cfg.cluster.nodes) (highWatermark : Nat) :
    commit cfg l highWatermark = .ok { l with highWatermark := max l.highWatermark highWatermark } := by
  unfold commit
  split
  · rename_i hle
    rw [Nat.max_eq_left hle]
  · rename_i hlt
    have hle := Nat.le_of_not_le hlt
    rw [Nat.max_eq_right hle]
    exact applyEntry_raised hl rfl rfl hle

/-- The watermark after a replication. -/
def raised (cfg : LeaderConfig) (s : Leader) (offset acks : Nat) : Nat :=
  if cfg.cluster.minInSyncReplicas ≤ acknowledgements cfg acks then
    max s.entry.highWatermark (offset + 1)
  else s.entry.highWatermark

theorem replicate_eq {cfg : LeaderConfig} {s : Leader} {offset : Nat}
    (hl : s.entry.leaderId ∈ cfg.cluster.nodes) (ho : offset < U64_MAX) (acks : Nat) :
    s.replicate cfg offset acks =
      { s with entry := { s.entry with highWatermark := s.raised cfg offset acks } } := by
  unfold replicate raised
  split
  · rw [commit_raises hl, saturatingAdd_one ho]
  · rfl

theorem replicate_le {cfg : LeaderConfig} (s : Leader) (offset acks : Nat) :
    (s.replicate cfg offset acks).entry.highWatermark ≤ max s.entry.highWatermark (offset + 1) := by
  unfold replicate
  split
  · split
    · exact Nat.le_max_left _ _
    · rename_i entry hcommit
      unfold commit at hcommit
      split at hcommit
      · cases hcommit
        exact Nat.le_max_left _ _
      · obtain ⟨rfl, _⟩ := applyEntry_ok hcommit
        exact Nat.le_trans (Nat.min_le_left _ _) (Nat.le_max_right _ _)
  · exact Nat.le_max_left _ _

theorem acknowledge_some {s s' : Leader} {res : Except StorageError (List Nat)}
    {log' : PartitionLog} (h : s.acknowledge (res, log') = some s') :
    res ≠ .error .io ∧ ∃ os, (os = [] ∨ res = .ok os) ∧
      s' = { s with log := log', appended := s.appended ++ os } := by
  unfold acknowledge at h
  split at h
  · cases h
  · rename_i hne heq
    cases heq
    cases h
    refine ⟨fun herr => ?_, [], Or.inl rfl, by rw [List.append_nil]⟩
    cases herr
    exact hne rfl
  · rename_i heq
    cases heq
    cases h
    exact ⟨fun herr => (by cases herr), _, Or.inr rfl, rfl⟩

theorem mapList_error {r : Except StorageError Nat}
    (h : r.map (fun offset => [offset]) ≠ .error .io) : r ≠ .error .io := by
  rintro rfl
  exact h rfl

section Kept

variable [Checksum] {cfg : LeaderConfig} {s s' : Leader} {n : Nat}

/-! ## Appends -/

/-- What appends of `count` records make of a log whose first `n` records are synced. -/
structure Extends (interval n count : Nat) (log log' : PartitionLog)
    (res : Except StorageError (List Nat)) : Prop where
  synced : ∃ records, SyncedTo interval n log' records
  within : SyncedWithin log'
  grows : log.nextOffset ≤ log'.nextOffset
  few : log'.nextOffset ≤ log.nextOffset + count
  offsets : ∀ os, res = .ok os → ∀ o ∈ os, o < log'.nextOffset

variable {interval count : Nat} {log log' : PartitionLog} {res : Except StorageError (List Nat)}

/-- Every record is synced, as far as the active segment is concerned. -/
def AllSynced (interval : Nat) (log : PartitionLog) : Prop :=
  ∃ records, SyncedTo interval log.nextOffset log records

/-- Whether the log is synced depends on the acknowledgement mode. -/
theorem Extends.flush (h : Extends interval n count log log' res) (ackMode : AckMode) :
    Extends interval n count log (if ackMode = .durable then log'.syncData else log') res ∧
    (ackMode = .durable → AllSynced interval (if ackMode = .durable then log'.syncData else log')) := by
  obtain ⟨records, hsynced⟩ := h.synced
  cases ackMode with
  | leader => exact ⟨h, fun hd => by cases hd⟩
  | durable =>
    obtain ⟨hsync, hwithin, hnext⟩ := hsynced.syncData h.within
    have hle : n ≤ log'.nextOffset := by
      rw [hsynced.refines.nextOffset]
      exact hsynced.le
    rw [if_pos rfl]
    refine ⟨⟨⟨records, hsync.mono hle⟩, hwithin, ?_, ?_, ?_⟩, fun _ => ⟨records, ?_⟩⟩
    · rw [hnext]
      exact h.grows
    · rw [hnext]
      exact h.few
    · rw [hnext]
      exact h.offsets
    · rw [hnext]
      exact hsync

theorem Extends.error (h : Extends interval n count log log' res) (e : StorageError) :
    Extends interval n count log log' (.error e) :=
  ⟨h.synced, h.within, h.grows, h.few, fun _ hos => by cases hos⟩

theorem append_extends {records : RecordLog} {record : Record} {r : Except StorageError Nat}
    (h : SyncedTo interval n log records) (hwithin : SyncedWithin log)
    (hb : log.nextOffset < U64_MAX) (heq : log.append record = (r, log')) (hio : r ≠ .error .io) :
    Extends interval n 1 log log' (r.map fun offset => [offset]) := by
  obtain ⟨hsynced, hwithin', hgrows, hfew, hoffset⟩ := h.append hwithin hb (by rw [heq]; exact hio)
  rw [heq] at hsynced hwithin' hgrows hfew hoffset
  refine ⟨hsynced, hwithin', hgrows, hfew, fun os hos o ho => ?_⟩
  cases r with
  | error e => cases hos
  | ok offset =>
    cases hos
    rw [List.mem_singleton.1 ho]
    exact hoffset offset rfl

theorem appendRecord_extends {records : RecordLog} {record : Record} {ackMode : AckMode}
    {r : Except StorageError Nat} (h : SyncedTo interval n log records)
    (hwithin : SyncedWithin log) (hb : log.nextOffset < U64_MAX)
    (heq : appendRecord log record ackMode = (r, log')) (hio : r ≠ .error .io) :
    Extends interval n 1 log log' (r.map fun offset => [offset]) ∧
    (ackMode = .durable → ∀ offset, r = .ok offset → AllSynced interval log') := by
  unfold appendRecord at heq
  split at heq
  · rename_i happ
    cases heq
    exact ⟨append_extends h hwithin hb happ hio, fun _ _ hok => by cases hok⟩
  · rename_i happ
    cases heq
    have hext := append_extends h hwithin hb happ fun herr => by cases herr
    exact ⟨(hext.flush ackMode).1, fun hd _ _ => (hext.flush ackMode).2 hd⟩

theorem appendAll_extends {rs : List Record} {records : RecordLog}
    (h : SyncedTo interval n log records) (hwithin : SyncedWithin log)
    (hb : log.nextOffset + rs.length ≤ U64_MAX) (heq : appendAll rs log = (res, log'))
    (hio : res ≠ .error .io) : Extends interval n rs.length log log' res := by
  induction rs generalizing log records res with
  | nil =>
    cases heq
    refine ⟨⟨records, h⟩, hwithin, Nat.le_refl _, Nat.le_refl _, fun os hos => ?_⟩
    cases hos
    exact List.forall_mem_nil _
  | cons r rs ih =>
    rw [List.length_cons] at hb ⊢
    unfold appendAll at heq
    split at heq
    · rename_i e log₁ hr
      cases heq
      have hio' : (.error e : Except StorageError Nat) ≠ .error .io := by
        rintro ⟨⟩
        exact hio rfl
      obtain ⟨hsynced, hwithin₁, hgrows, hfew, _⟩ :=
        (appendRecord_extends h hwithin (by omega) hr hio').1
      exact ⟨hsynced, hwithin₁, hgrows, by omega, fun _ hos => by cases hos⟩
    · rename_i offset log₁ hr
      obtain ⟨⟨records₁, h₁⟩, hwithin₁, hgrows, hfew, hoffset⟩ :=
        (appendRecord_extends h hwithin (by omega) hr fun herr => by cases herr).1
      split at heq
      · rename_i e log₂ hrest
        cases heq
        obtain ⟨hsynced, hwithin₂, hgrows₂, hfew₂, _⟩ := ih h₁ hwithin₁ (by omega) hrest hio
        exact ⟨hsynced, hwithin₂, by omega, by omega, fun _ hos => by cases hos⟩
      · rename_i offsets log₂ hrest
        cases heq
        obtain ⟨hsynced, hwithin₂, hgrows₂, hfew₂, hoffsets⟩ :=
          ih h₁ hwithin₁ (by omega) hrest fun herr => by cases herr
        refine ⟨hsynced, hwithin₂, by omega, by omega, fun os hos => ?_⟩
        cases hos
        refine List.forall_mem_cons.2 ⟨?_, hoffsets _ rfl⟩
        exact Nat.lt_of_lt_of_le (hoffset _ rfl offset List.mem_cons_self) hgrows₂

theorem appendBatchRecords_extends {rs : List Record} {others : Except StorageError Unit}
    {ackMode : AckMode} {records : RecordLog} (h : SyncedTo interval n log records)
    (hwithin : SyncedWithin log) (hb : log.nextOffset + rs.length ≤ U64_MAX)
    (heq : appendBatchRecords log rs others ackMode = (res, log')) (hio : res ≠ .error .io) :
    Extends interval n rs.length log log' res ∧
    (ackMode = .durable → ∀ os, res = .ok os → AllSynced interval log') := by
  unfold appendBatchRecords at heq
  split at heq
  · rename_i happ
    cases heq
    exact ⟨appendAll_extends h hwithin hb happ hio, fun _ _ hok => by cases hok⟩
  · rename_i happ
    have hext := appendAll_extends h hwithin hb happ fun herr => by cases herr
    split at heq
    · rename_i e
      cases heq
      exact ⟨hext.error e, fun _ _ hok => by cases hok⟩
    · cases heq
      exact ⟨(hext.flush ackMode).1, fun hd _ _ => (hext.flush ackMode).2 hd⟩

/-! ## Steps -/

/-- The first `n` records are synced, and the watermark is not beyond them. -/
structure Kept (cfg : LeaderConfig) (n : Nat) (s : Leader) : Prop where
  synced : ∃ records, SyncedTo cfg.indexIntervalBytes n s.log records
  watermark : s.entry.highWatermark ≤ n
  within : SyncedWithin s.log
  room : s.log.nextOffset < U64_MAX
  appended : ∀ o ∈ s.appended, o < s.log.nextOffset
  leader : s.entry.leaderId ∈ cfg.cluster.nodes

theorem Kept.le_nextOffset (h : Kept cfg n s) : n ≤ s.log.nextOffset := by
  obtain ⟨records, hsynced⟩ := h.synced
  rw [hsynced.refines.nextOffset]
  exact hsynced.le

theorem Kept.acknowledge (h : Kept cfg n s)
    (hext : Extends cfg.indexIntervalBytes n count s.log log' res)
    (hroom : s.log.nextOffset + count < U64_MAX) (hs : s.acknowledge (res, log') = some s') :
    Kept cfg n s' ∧ s'.entry = s.entry ∧ s'.log = log' ∧
      ∀ o ∈ s'.appended, o ∈ s.appended ∨ ∃ os, res = .ok os := by
  obtain ⟨_, os, hos, rfl⟩ := acknowledge_some hs
  refine ⟨⟨hext.synced, h.watermark, hext.within, Nat.lt_of_le_of_lt hext.few hroom, fun o ho => ?_,
    h.leader⟩, rfl, rfl, fun o ho => ?_⟩
  · rcases List.mem_append.1 ho with ho | ho
    · exact Nat.lt_of_lt_of_le (h.appended o ho) hext.grows
    · rcases hos with rfl | hos
      · exact absurd ho List.not_mem_nil
      · exact hext.offsets os hos o ho
  · rcases List.mem_append.1 ho with ho | ho
    · exact Or.inl ho
    · rcases hos with rfl | hos
      · exact absurd ho List.not_mem_nil
      · exact Or.inr ⟨os, hos⟩

theorem Kept.restart {dir : Dir} (h : Kept cfg n s) (hout : Outage s.log.dir dir)
    (hs : s.restart cfg dir = some s') :
    Kept cfg n s' ∧ s'.entry = s.entry ∧ s'.appended = [] := by
  unfold Leader.restart at hs
  split at hs
  · cases hs
  · rename_i log' hopen
    cases hs
    obtain ⟨records, hsynced⟩ := h.synced
    obtain ⟨records', hpre, hsynced', hwithin⟩ := hsynced.restart hout hopen
    have hroom : log'.nextOffset < U64_MAX := by
      have := h.room
      rw [hsynced.refines.nextOffset] at this
      rw [hsynced'.refines.nextOffset]
      exact Nat.lt_of_le_of_lt hpre.length_le this
    -- the watermark is a known one
    have hentry : migrateHighWatermark s.entry log'.nextOffset = s.entry := by
      have h1 := h.watermark
      have h2 := h.le_nextOffset
      have h3 := h.room
      unfold migrateHighWatermark
      rw [if_pos (by omega)]
    rw [hentry]
    exact ⟨⟨⟨records', hsynced'⟩, h.watermark, hwithin, hroom, List.forall_mem_nil _, h.leader⟩, rfl,
      rfl⟩

theorem Kept.step_replicate {offset acks : Nat} (h : Kept cfg n s)
    (hs : s.step cfg (.replicate offset acks) = some s') :
    offset ∈ s.appended ∧ s' = { s with
      entry := { s.entry with highWatermark := s.raised cfg offset acks }
      appended := s.appended.erase offset } := by
  simp only [step] at hs
  split at hs
  · rename_i hmem
    cases hs
    have hlt := Nat.lt_trans (h.appended offset hmem) h.room
    refine ⟨hmem, ?_⟩
    rw [replicate_eq h.leader hlt]
  · cases hs

/-- A produce and a restart keep what is synced; a replication may raise the watermark. -/
theorem Kept.step_cases {e : Event} (h : Kept cfg n s) (hp : s.Possible e)
    (hs : s.step cfg e = some s') :
    (Kept cfg n s' ∧ s'.entry = s.entry ∧ ∀ o ∈ s'.appended, o ∈ s.appended ∨
      (e.durable = true → AllSynced cfg.indexIntervalBytes s'.log)) ∨
    ∃ offset acks, e = .replicate offset acks ∧ offset ∈ s.appended ∧
      s' = { s with
        entry := { s.entry with highWatermark := s.raised cfg offset acks }
        appended := s.appended.erase offset } := by
  obtain ⟨records, hsynced⟩ := h.synced
  cases e with
  | produce record ackMode =>
    left
    rcases hr : appendRecord s.log record ackMode with ⟨r, log'⟩
    simp only [step, hr] at hs
    obtain ⟨hio, _⟩ := acknowledge_some hs
    obtain ⟨hext, hall⟩ := appendRecord_extends hsynced h.within h.room hr (mapList_error hio)
    obtain ⟨hkept, hentry, hlog, happended⟩ := h.acknowledge hext hp hs
    refine ⟨hkept, hentry, fun o ho => (happended o ho).imp_right ?_⟩
    rintro ⟨os, hos⟩ hd
    rw [hlog]
    cases r with
    | error err => cases hos
    | ok offset => exact hall (of_decide_eq_true hd) offset rfl
  | produceBatch records others ackMode =>
    left
    rcases hr : appendBatchRecords s.log records others ackMode with ⟨res, log'⟩
    simp only [step, hr] at hs
    obtain ⟨hio, _⟩ := acknowledge_some hs
    have hroom : s.log.nextOffset + records.length < U64_MAX := hp
    obtain ⟨hext, hall⟩ := appendBatchRecords_extends hsynced h.within (Nat.le_of_lt hroom) hr hio
    obtain ⟨hkept, hentry, hlog, happended⟩ := h.acknowledge hext hroom hs
    refine ⟨hkept, hentry, fun o ho => (happended o ho).imp_right ?_⟩
    rintro ⟨os, hos⟩ hd
    rw [hlog]
    exact hall (of_decide_eq_true hd) os hos
  | replicate offset acks =>
    exact Or.inr ⟨offset, acks, rfl, h.step_replicate hs⟩
  | crash dir =>
    left
    obtain ⟨hkept, hentry, happended⟩ := h.restart hp hs
    refine ⟨hkept, hentry, fun o ho => ?_⟩
    rw [happended] at ho
    exact absurd ho List.not_mem_nil

/-! ## Runs -/

theorem new_kept {log₀ : PartitionLog} {leaderEpoch : Nat}
    (h₀ : PartitionLog.openLog Dir.empty cfg.topic cfg.maxSegmentBytes cfg.indexIntervalBytes =
      .ok log₀) : Kept cfg 0 (new cfg log₀ leaderEpoch) := by
  have hnew := openLog_new h₀
  refine ⟨⟨[], ⟨[], [], openLog_empty h₀, rfl⟩, Nat.le_refl _, fun _ _ => ?_⟩, Nat.le_refl _,
    fun s hs => ?_, ?_, List.forall_mem_nil _, cfg.self_mem⟩
  · rw [Nat.zero_sub, List.take_zero]
    exact Nat.zero_le _
  · simp only [new, hnew] at hs
    rw [List.mem_singleton.1 hs]
    exact ⟨Nat.le_refl _, Nat.le_refl _⟩
  · simp only [new, hnew]
    decide

/-- A step within the condition keeps the records below the watermark synced. -/
theorem Kept.step {e : Event} (h : Kept cfg s.entry.highWatermark s) (hq : s.Within cfg e)
    (hs : s.step cfg e = some s') : Kept cfg s'.entry.highWatermark s' := by
  obtain ⟨hkept, hentry, _⟩ | ⟨offset, acks, rfl, hmem, rfl⟩ := h.step_cases hq.1 hs
  · rw [hentry]
    exact hkept
  · have happended : ∀ o ∈ s.appended.erase offset, o < s.log.nextOffset :=
      fun o ho => h.appended o (List.mem_of_mem_erase ho)
    refine ⟨?_, Nat.le_refl _, h.within, h.room, happended, h.leader⟩
    obtain ⟨records, hsynced⟩ := h.synced
    simp only [raised]
    split
    · rename_i henough
      rcases Nat.lt_or_ge offset s.entry.highWatermark with hlt | hle
      · rw [Nat.max_eq_left hlt]
        exact ⟨records, hsynced⟩
      · rw [Nat.max_eq_right (Nat.le_succ_of_le hle)]
        exact ⟨records, hsynced.refines.syncedTo_flushed (h.appended offset hmem)
          (hq.2 hmem henough hle)⟩
    · exact ⟨records, hsynced⟩

/-- Without a commit from `k` on the watermark does not rise beyond `k`. -/
theorem step_below {k : Nat} {e : Event} (he : e.below k = true) (hw : s.entry.highWatermark ≤ k)
    (hs : s.step cfg e = some s') : s'.entry.highWatermark ≤ k := by
  cases e with
  | produce record ackMode =>
    simp only [Leader.step] at hs
    obtain ⟨_, _, _, rfl⟩ := acknowledge_some hs
    exact hw
  | produceBatch records others ackMode =>
    simp only [Leader.step] at hs
    obtain ⟨_, _, _, rfl⟩ := acknowledge_some hs
    exact hw
  | replicate offset acks =>
    simp only [Leader.step] at hs
    split at hs
    · cases hs
      have hlt : offset < k := of_decide_eq_true he
      exact Nat.le_trans (replicate_le s offset acks) (Nat.max_le.2 ⟨hw, hlt⟩)
    · cases hs
  | crash dir => cases he

theorem hidesNew (h : s.entry.highWatermark ≤ s.log.nextOffset) : s.HidesNew cfg := by
  intro k acts s' hk hbelow hr offset maxBytes records hfetch r hmem
  have hw : s'.entry.highWatermark ≤ k :=
    @run_invariant _ _ (step cfg) (fun _ e => e.below k = true)
      (fun s => s.entry.highWatermark ≤ k) (fun _ _ _ hp hq hs => step_below hq hp hs) _ _ _
      (Nat.le_trans h hk) (Along.of_mem hbelow) hr
  unfold fetch at hfetch
  split at hfetch
  · cases hfetch
  · cases hfetch
    have hlt : r.offset < s'.entry.highWatermark := of_decide_eq_true (List.mem_filter.1 hmem).2
    omega

theorem Kept.covered (h : Kept cfg n s) : s.Covered cfg := by
  intro dir s' hout hs
  obtain ⟨hkept, _, _⟩ := h.restart hout hs
  have hle := Nat.le_trans hkept.watermark hkept.le_nextOffset
  exact ⟨hle, hidesNew hle⟩

/-- Some crash leaves flushed records only, so the watermark of a covered leader is flushed. -/
theorem Covered.flushed {l : PartitionLeadership} {os : List Nat}
    (hcov : Covered cfg ⟨s.log, l, os⟩) (h : Kept cfg n s)
    (hset : Storage.Settings cfg.topic cfg.maxSegmentBytes cfg.indexIntervalBytes)
    (hl : l.highWatermark < U64_MAX) : s.log.flushed l.highWatermark = true := by
  obtain ⟨records, hsynced⟩ := h.synced
  obtain ⟨chunks, last, hrep, hhist⟩ := hsynced.refines
  obtain ⟨dir, log', hout, hopen, hle, hflushed⟩ := hrep.outage h.within hset
  have hrestart : restart cfg ⟨s.log, l, os⟩ dir = some ⟨log', l, []⟩ := by
    unfold restart
    rw [hopen]
    simp only [migrateHighWatermark, if_pos (Nat.ne_of_lt hl)]
  have hw := (hcov dir _ hout hrestart).1
  exact ((hsynced.refines.syncedTo_flushed hle hflushed).mono hw).flushed

/-- **The high watermark stays within the log across crashes** as long as every commit finds its
record synced, or in a closed segment; a commit that does not leads to a state in which a crash
puts the watermark ahead of the log. -/
theorem watermark_within_log {log₀ : PartitionLog} {leaderEpoch : Nat} {acts : List Event}
    (h₀ : PartitionLog.openLog Dir.empty cfg.topic cfg.maxSegmentBytes cfg.indexIntervalBytes =
      .ok log₀)
    (hq : Along (step cfg) (Within cfg) (new cfg log₀ leaderEpoch) acts)
    (hr : run (step cfg) (new cfg log₀ leaderEpoch) acts = some s) :
    s.entry.highWatermark ≤ s.log.nextOffset ∧ s.Covered cfg ∧
      ∀ e s', s.Possible e → s.step cfg e = some s' → (s'.Covered cfg ↔ s.Flushes cfg e) := by
  have hkept : Kept cfg s.entry.highWatermark s :=
    @run_invariant _ _ (step cfg) (Within cfg) (fun s => Kept cfg s.entry.highWatermark s)
      (fun _ _ _ hp hq hs => hp.step hq hs) _ _ _ (new_kept h₀) hq hr
  refine ⟨hkept.le_nextOffset, hkept.covered, fun e s' hp hs => ⟨fun hcov => ?_, fun hf => ?_⟩⟩
  · cases e with
    | replicate offset acks =>
      obtain ⟨hmem, rfl⟩ := hkept.step_replicate hs
      intro _ henough hle
      have hraised : s.raised cfg offset acks = offset + 1 := by
        rw [raised, if_pos henough, Nat.max_eq_right (Nat.le_succ_of_le hle)]
      have hlt : offset + 1 < U64_MAX :=
        Nat.lt_of_le_of_lt (hkept.appended offset hmem) hkept.room
      rw [← hraised] at hlt ⊢
      exact hcov.flushed hkept (openLog_settings h₀) hlt
    | _ => trivial
  · exact (hkept.step ⟨hp, hf⟩ hs).covered

/-- When every produce asks for a synced record, every commit finds one. -/
theorem durable_within {log₀ : PartitionLog} {leaderEpoch : Nat} {acts : List Event}
    (h₀ : PartitionLog.openLog Dir.empty cfg.topic cfg.maxSegmentBytes cfg.indexIntervalBytes =
      .ok log₀)
    (hq : Along (step cfg) (fun s e => s.Possible e ∧ e.durable = true)
      (new cfg log₀ leaderEpoch) acts) :
    Along (step cfg) (Within cfg) (new cfg log₀ leaderEpoch) acts := by
  -- the records that wait for their replication are among the synced ones
  refine @Along.of_invariant _ _ (step cfg) _ _
    (fun s => ∃ n, Kept cfg n s ∧ ∀ o ∈ s.appended, o < n) (fun s e s' hp hq hs => ?_)
    (fun s e hp hq => ?_) _ _ ⟨0, new_kept h₀, List.forall_mem_nil _⟩ hq
  · obtain ⟨n, hkept, hlt⟩ := hp
    obtain ⟨hkept', _, happended⟩ | ⟨offset, acks, rfl, hmem, rfl⟩ := hkept.step_cases hq.1 hs
    · by_cases hall : AllSynced cfg.indexIntervalBytes s'.log
      · exact ⟨_, ⟨hall, Nat.le_trans hkept'.watermark hkept'.le_nextOffset, hkept'.within,
          hkept'.room, hkept'.appended, hkept'.leader⟩, hkept'.appended⟩
      · refine ⟨n, hkept', fun o ho => ?_⟩
        rcases happended o ho with ho | hd
        · exact hlt o ho
        · exact absurd (hd hq.2) hall
    · have hle : s.raised cfg offset acks ≤ n := by
        unfold raised
        split
        · exact Nat.max_le.2 ⟨hkept.watermark, hlt offset hmem⟩
        · exact hkept.watermark
      exact ⟨n, ⟨hkept.synced, hle, hkept.within, hkept.room,
        fun o ho => hkept.appended o (List.mem_of_mem_erase ho), hkept.leader⟩,
        fun o ho => hlt o (List.mem_of_mem_erase ho)⟩
  · obtain ⟨n, hkept, hlt⟩ := hp
    refine ⟨hq.1, ?_⟩
    cases e with
    | replicate offset acks =>
      intro hmem _ _
      obtain ⟨records, hsynced⟩ := hkept.synced
      exact (hsynced.mono (hlt offset hmem)).flushed
    | _ => trivial

end Kept

/-! ## Lost records -/

/-- Broker 2 leads the partition of three brokers. -/
def leaderOfThree : LeaderConfig := ⟨threeNodes, 2, by decide, "payments", 1024, 64⟩

/-- A record that is not synced is replicated and committed. -/
def unsyncedRun : List Event :=
  [.produce ⟨none, utf8 "zero", 1, none⟩ .leader, .replicate 0 1]

/-- The leader comes back without the record that is committed, and stores another one in its
place. -/
def rewritten [Checksum] (s₁ : Leader) : Bool :=
  match s₁.log.segments with
  | [active] => decide (active.baseOffset = 0 ∧ active.file.synced = 0 ∧
      active.indexFile.synced ≤ active.indexFile.bytes.length) &&
      (s₁.restart leaderOfThree ⟨[(0, .empty)], s₁.log.dir.indexes⟩).any fun s₂ =>
        decide (s₂.log.nextOffset < s₂.entry.highWatermark) &&
        (s₂.step leaderOfThree (.produce ⟨none, utf8 "one", 1, none⟩ .leader)).any fun s₃ =>
          decide (s₃.appended = [0] ∧
            s₃.fetch 0 1024 = .ok [Record.at ⟨none, utf8 "one", 1, none⟩ 0])
  | _ => false

theorem uncommitted_record_fetched :
    letI := Checksum.crc32
    ∃ log₀ s₁ dir s₂ s₃,
      PartitionLog.openLog Dir.empty "payments" 1024 64 = .ok log₀ ∧
      Along (step leaderOfThree) Possible (new leaderOfThree log₀ 0) unsyncedRun ∧
      run (step leaderOfThree) (new leaderOfThree log₀ 0) unsyncedRun = some s₁ ∧
      Outage s₁.log.dir dir ∧ s₁.restart leaderOfThree dir = some s₂ ∧
      s₂.log.nextOffset < s₂.entry.highWatermark ∧
      s₂.step leaderOfThree (.produce ⟨none, utf8 "one", 1, none⟩ .leader) = some s₃ ∧
      s₃.appended = [0] ∧ s₃.fetch 0 1024 = .ok [Record.at ⟨none, utf8 "one", 1, none⟩ 0] ∧
      ¬ s₁.Covered leaderOfThree := by
  let _ := Checksum.crc32
  have hrun : (run (step leaderOfThree) (new leaderOfThree ⟨0, 1024, 64, [.new 0], .empty⟩ 0)
      unsyncedRun).any rewritten := by decide +kernel
  obtain ⟨s₁, hr, hs₁⟩ := (Option.any_eq_true _ _).1 hrun
  unfold rewritten at hs₁
  split at hs₁
  · rename_i active hs
    obtain ⟨hactive, hs₂⟩ := Bool.and_eq_true_iff.1 hs₁
    obtain ⟨hbase, hlost, hindex⟩ := of_decide_eq_true hactive
    obtain ⟨s₂, hrestart, hs₂⟩ := (Option.any_eq_true _ _).1 hs₂
    obtain ⟨hahead, hs₃⟩ := Bool.and_eq_true_iff.1 hs₂
    obtain ⟨s₃, hstep, hs₃⟩ := (Option.any_eq_true _ _).1 hs₃
    obtain ⟨happended, hfetch⟩ := of_decide_eq_true hs₃
    have hahead := of_decide_eq_true hahead
    have hout : Outage s₁.log.dir ⟨[(0, .empty)], s₁.log.dir.indexes⟩ := by
      refine .mk (List.Perm.refl _) (List.Perm.refl _) ?_ ?_
      · simp only [PartitionLog.dir, hs, List.map_cons, List.map_nil]
        exact .cons ⟨hbase.symm, List.nil_prefix, Nat.le_of_eq hlost, Nat.le_refl _⟩ .nil
      · simp only [PartitionLog.dir, hs, List.map_cons, List.map_nil]
        exact .cons ⟨rfl, .refl hindex⟩ .nil
    refine ⟨_, s₁, _, s₂, s₃, rfl, ?_, hr, hout, hrestart, hahead, hstep, happended, hfetch,
      fun hcov => ?_⟩
    · refine ⟨?_, fun _ _ => ⟨trivial, fun _ _ => trivial⟩⟩
      show 0 + 1 < U64_MAX
      decide
    · exact Nat.not_lt.2 (hcov _ _ hout hrestart).1 hahead
  · cases hs₁

/-- The first record is synced, the second one is not. -/
def syncedFirst : List Event :=
  [.produce ⟨none, utf8 "zero", 1, none⟩ .durable, .produce ⟨none, utf8 "one", 1, none⟩ .leader]

/-- The leader comes back with the synced record, which is committed. -/
def restarted [Checksum] (s₁ : Leader) : Bool :=
  match s₁.log.segments with
  | [active] => decide (active.baseOffset = 0 ∧ active.file.synced ≤ active.file.bytes.length ∧
      active.indexFile.synced ≤ active.indexFile.bytes.length ∧ s₁.log.flushed 1 = true) &&
      (s₁.step leaderOfThree (.replicate 0 1)).any fun s₂ =>
        decide (s₂.log.segments = s₁.log.segments) &&
        (s₂.restart leaderOfThree ⟨[(0, ⟨active.file.bytes.take active.file.synced,
          active.file.synced⟩)], s₁.log.dir.indexes⟩).any fun s₃ =>
          decide (s₃.log.nextOffset = 1 ∧ s₃.entry.highWatermark = 1)
  | _ => false

theorem watermark_within_log_synced :
    letI := Checksum.crc32
    ∃ log₀ dir s, PartitionLog.openLog Dir.empty "payments" 1024 64 = .ok log₀ ∧
      run (step leaderOfThree) (new leaderOfThree log₀ 0)
        (syncedFirst ++ [.replicate 0 1, .crash dir]) = some s ∧
      s.log.nextOffset = 1 ∧ s.entry.highWatermark = 1 ∧ s.Covered leaderOfThree := by
  let _ := Checksum.crc32
  have hrun : (run (step leaderOfThree) (new leaderOfThree ⟨0, 1024, 64, [.new 0], .empty⟩ 0)
      syncedFirst).any restarted := by decide +kernel
  have hroom : (step leaderOfThree (new leaderOfThree ⟨0, 1024, 64, [.new 0], .empty⟩ 0)
      (.produce ⟨none, utf8 "zero", 1, none⟩ .durable)).all
        (fun s => s.log.nextOffset + 1 < U64_MAX) := by decide +kernel
  obtain ⟨s₁, hr, hs₁⟩ := (Option.any_eq_true _ _).1 hrun
  unfold restarted at hs₁
  split at hs₁
  · rename_i active hs
    obtain ⟨hactive, hs₂⟩ := Bool.and_eq_true_iff.1 hs₁
    obtain ⟨hbase, hin, hindex, hflushed⟩ := of_decide_eq_true hactive
    obtain ⟨s₂, hstep, hs₂⟩ := (Option.any_eq_true _ _).1 hs₂
    obtain ⟨hsame, hs₃⟩ := Bool.and_eq_true_iff.1 hs₂
    obtain ⟨s₃, hrestart, hs₃⟩ := (Option.any_eq_true _ _).1 hs₃
    obtain ⟨hnext, hwatermark⟩ := of_decide_eq_true hs₃
    have hsame := of_decide_eq_true hsame
    have hout : Outage s₂.log.dir ⟨[(0, ⟨active.file.bytes.take active.file.synced,
        active.file.synced⟩)], s₁.log.dir.indexes⟩ := by
      refine .mk (List.Perm.refl _) (List.Perm.refl _) ?_ ?_
      · simp only [PartitionLog.dir, hsame, hs, List.map_cons, List.map_nil]
        refine .cons ⟨hbase.symm, List.take_prefix _ _, Nat.le_refl _, ?_⟩ .nil
        rw [List.length_take_of_le hin]
      · simp only [PartitionLog.dir, hsame, hs, List.map_cons, List.map_nil]
        exact .cons ⟨rfl, .refl hindex⟩ .nil
    have hrun' : run (step leaderOfThree) (new leaderOfThree ⟨0, 1024, 64, [.new 0], .empty⟩ 0)
        (syncedFirst ++ [.replicate 0 1, .crash ⟨[(0, ⟨active.file.bytes.take active.file.synced,
          active.file.synced⟩)], s₁.log.dir.indexes⟩]) = some s₃ := by
      rw [run_append, hr]
      simp only [Option.bind_some, run, hstep]
      rw [show s₂.step leaderOfThree (.crash _) = s₂.restart leaderOfThree _ from rfl, hrestart]
    refine ⟨_, _, s₃, rfl, hrun', hnext, hwatermark,
      (@watermark_within_log _ leaderOfThree _ _ 0 _ rfl ?_ hrun').2.1⟩
    refine (along_append hr).2 ⟨⟨⟨?_, trivial⟩, fun s hs' => ⟨⟨?_, trivial⟩, fun _ _ => trivial⟩⟩,
      ⟨trivial, fun _ _ _ => hflushed⟩, fun s hs' => ?_⟩
    · show 0 + 1 < U64_MAX
      decide
    · show s.log.nextOffset + 1 < U64_MAX
      rw [hs', Option.all_some] at hroom
      exact of_decide_eq_true hroom
    · rw [hstep] at hs'
      cases hs'
      exact ⟨⟨hout, trivial⟩, fun _ _ => trivial⟩
  · cases hs₁

end Leader

end SevlaMq.Broker
