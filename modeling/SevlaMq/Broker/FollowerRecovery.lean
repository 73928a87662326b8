import SevlaMq.Broker.CatchUp
import SevlaMq.Broker.Leader
import SevlaMq.Protocol.ResponseRoundTrip
import SevlaMq.Storage.Scan

/-!
# Recovery of a follower by pull

`recover_follower_partition` fetches from the end of the follower's log on and stores what comes,
until a fetch returns nothing.  The leader answers with the records it still has below its high
watermark; `append_replica` takes no record beyond the log end.

* `Leader.serve` — what a leader does between two recoveries: operations on its log, retention
  included, and replications that raise its watermark.  `Leads` — the invariant of such a leader.
* `fetchFromLeader` — one `Fetch` and its response, through the codec; `Leads.fetchFromLeader` — the
  response always fits into a frame.
* `recoverFollowerPartition` — the loop, with one unit of fuel for each fetch.
* `recovers_iff` — the follower is recovered if and only if its end is not below what the leader
  still has, or there is nothing below the watermark that it lacks.
-/

set_option autoImplicit false

namespace SevlaMq.Broker

open SevlaMq.Storage SevlaMq.Cluster
open SevlaMq.Protocol (encodeResponse decodeResponse MAX_FRAME_SIZE MAX_FETCH_BYTES MAX_KEY_SIZE
  MAX_MESSAGE_SIZE)

/-! ## The leader -/

inductive Serving where
  | operation (op : Operation)
  | replicate (offset acks : Nat)

/-- Requests without truncation, and retention. -/
def Serving.Allowed : Serving → Prop
  | .operation op => (Requested op ∧ op.truncates = false) ∨ op.retains = true
  | .replicate _ _ => True

/-- One operation on the log, or the end of the replication of a record that was appended. -/
def Leader.serve [Checksum] (cfg : LeaderConfig) (s : Leader) : Serving → Option Leader
  | .operation op => (s.log.step op).map fun log => { s with log }
  | .replicate offset acks =>
    if offset < s.log.nextOffset then some (s.replicate cfg offset acks) else none

/-- There is room for one more offset. -/
def ServingCountable (s : Leader) (_ : Serving) : Prop := s.log.nextOffset < U64_MAX

instance (s : Leader) (a : Serving) : Decidable (ServingCountable s a) :=
  inferInstanceAs (Decidable (s.log.nextOffset < U64_MAX))

/-- The records a leader was given; retention forgets none of them. -/
def Serving.records (records : RecordLog) : Serving → RecordLog
  | .operation op => RecordLog.step records op
  | .replicate _ _ => records

theorem step_length_le (records : RecordLog) {op : Operation} (h : op.truncates = false) :
    records.length ≤ (RecordLog.step records op).length := by
  have happended : ∀ r, records.length ≤ (RecordLog.step records (.append r)).length := by
    intro r
    rcases step_append records r with heq | heq
    · rw [heq]
    · rw [heq, List.length_append]
      exact Nat.le_add_right _ _
  cases op with
  | append r => exact happended r
  | appendReplica offset r =>
    simp only [RecordLog.step, RecordLog.appendReplica]
    split
    · rename_i o log happ
      split at happ
      · split at happ
        · cases happ
          exact Nat.le_refl _
        · cases happ
      · split at happ
        · cases happ
        · have hstep := happended r
          rw [RecordLog.step, happ] at hstep
          exact hstep
    · exact Nat.le_refl _
  | truncateTo offset => cases h
  | syncData => exact Nat.le_refl _
  | applyRetention maxBytes maxAge elapsed => exact Nat.le_refl _

section Pull

variable [Checksum]

/-- The log of a leader holds the last of the records it was given, and the watermark is within
it. -/
structure Leads (interval : Nat) (s : Leader) (records : RecordLog) : Prop where
  rep : ∃ removed chunks last, Rep interval s.log removed chunks last ∧
    history removed chunks last = records
  watermark : s.entry.highWatermark ≤ s.log.nextOffset
  sendable : ∀ r ∈ records, Sendable r

variable {interval interval' k : Nat} {s s' : Leader} {records : RecordLog}

theorem Leads.nextOffset (h : Leads interval s records) : s.log.nextOffset = records.length := by
  obtain ⟨removed, chunks, last, hrep, rfl⟩ := h.rep
  exact hrep.nextOffset

theorem Leads.step {cfg : LeaderConfig} {a : Serving} (h : Leads interval s records)
    (hallowed : a.Allowed) (hb : ServingCountable s a) (hs : s.serve cfg a = some s') :
    Leads interval s' (a.records records) := by
  obtain ⟨removed, chunks, last, hrep, hhist⟩ := h.rep
  cases a with
  | replicate offset acks =>
    simp only [Leader.serve] at hs
    split at hs
    · rename_i hlt
      cases hs
      have hlog : (s.replicate cfg offset acks).log = s.log := by
        unfold Leader.replicate
        split
        · split <;> rfl
        · rfl
      refine ⟨⟨removed, chunks, last, hlog ▸ hrep, hhist⟩, ?_, h.sendable⟩
      have hle := @Leader.replicate_le cfg s offset acks
      have hold := h.watermark
      rw [hlog]
      omega
    · cases hs
  | operation op =>
    obtain ⟨log, hlog, rfl⟩ := Option.map_eq_some_iff.1 hs
    have hnext := h.nextOffset
    rcases hallowed with ⟨hreq, htr⟩ | hret
    · obtain ⟨removed', chunks', last', hrep', hkeep⟩ :=
        hrep.step hb (fun ht => by rw [htr] at ht; cases ht) hlog
      obtain ⟨rfl, hhist'⟩ := hkeep hreq.retains
      rw [hhist] at hhist'
      refine ⟨⟨removed', chunks', last', hrep', hhist'⟩, ?_, fun r hr => ?_⟩
      · have hle := step_length_le records htr
        have hold := h.watermark
        have hnext' : log.nextOffset = _ := hrep'.nextOffset
        rw [hhist'] at hnext'
        show s.entry.highWatermark ≤ log.nextOffset
        omega
      · rcases mem_step hr with hmem | hnew
        · exact h.sendable r hmem
        · exact hreq.sendable hnew
    · cases op with
      | applyRetention maxBytes maxAge elapsed =>
        obtain ⟨_, rfl⟩ := PartitionLog.step_perform hlog
        obtain ⟨j, _, _, hrep'⟩ := hrep.applyRetention maxBytes maxAge elapsed
        refine ⟨⟨_, _, _, hrep', ?_⟩, h.watermark, h.sendable⟩
        rw [history_drop, hhist]
        rfl
      | append r => cases hret
      | appendReplica offset r => cases hret
      | truncateTo offset => cases hret
      | syncData => cases hret

theorem Leads.run {cfg : LeaderConfig} {acts : List Serving} (h : Leads interval s records)
    (hallowed : ∀ a ∈ acts, a.Allowed)
    (hfew : Along (Leader.serve cfg) ServingCountable s acts)
    (hr : SevlaMq.run (Leader.serve cfg) s acts = some s') :
    Leads interval s' (acts.foldl Serving.records records) := by
  have hq : Along (Leader.serve cfg) (fun s a => ServingCountable s a ∧ a.Allowed) s acts :=
    hfew.and (Along.of_mem hallowed)
  refine @run_history _ _ _ _ (fun past s => Leads interval s (past.foldl Serving.records records))
    (fun past s a s' hp hq hs => ?_) _ [] _ _ h hq hr
  rw [List.foldl_append, List.foldl_cons, List.foldl_nil]
  exact hp.step hq.2 hq.1 hs

/-! ## What the leader still has -/

theorem Leads.low_le (h : Leads interval s records) : s.log.lowWatermark ≤ records.length := by
  obtain ⟨removed, chunks, last, hrep, rfl⟩ := h.rep
  rw [hrep.lowWatermark, history, List.length_append]
  exact Nat.le_add_right _ _

/-- A read starts at the first record the leader still has. -/
theorem Leads.read (h : Leads interval s records) (offset : Nat) {maxBytes : Nat}
    (hmax : maxBytes ≠ 0) :
    s.log.read offset maxBytes = .ok (takeBudget maxBytes (storedFrom (max offset s.log.lowWatermark)
      (records.drop (max offset s.log.lowWatermark)))) := by
  obtain ⟨removed, chunks, last, hrep, rfl⟩ := h.rep
  have hdrop : (history removed chunks last).drop (max offset removed.length) =
      (chunks.flatten ++ last).drop (offset - removed.length) := by
    rw [history, List.drop_append, List.drop_eq_nil_of_le (Nat.le_max_right _ _), List.nil_append,
      show max offset removed.length - removed.length = offset - removed.length by omega]
  rw [hrep.read, if_neg hmax, hrep.lowWatermark, fromOffset_eq_drop, storedFrom_drop, hdrop,
    show removed.length + (offset - removed.length) = max offset removed.length by omega]

/-- The records that retention has left. -/
theorem Leads.logSizeBytes (h : Leads interval s records) :
    s.log.logSizeBytes = totalSize (records.drop s.log.lowWatermark) := by
  obtain ⟨removed, chunks, last, hrep, rfl⟩ := h.rep
  rw [hrep.logSizeBytes, hrep.lowWatermark, history, List.drop_left]

theorem Leads.recordAt (h : Leads interval s records) {offset : Nat} {f : FetchedRecord}
    (hf : Broker.recordAt s.log offset = some f) :
    s.log.lowWatermark ≤ offset ∧ ∃ r, records[offset]? = some r ∧ f = fetched r offset := by
  unfold Broker.recordAt at hf
  rw [h.read offset (by decide)] at hf
  have hmem := List.mem_of_find?_eq_some hf
  have hoffset := List.find?_some hf
  simp only [decide_eq_true_eq] at hoffset
  obtain ⟨x, hx, rfl⟩ := List.mem_map.1 hmem
  obtain ⟨i, hi⟩ := List.mem_iff_getElem?.1 ((takeBudget_isPrefix _ _).subset hx)
  rw [storedFrom_getElem?, List.getElem?_drop] at hi
  obtain ⟨r, hr, rfl⟩ := Option.map_eq_some_iff.1 hi
  have hio : max offset s.log.lowWatermark + i = offset := hoffset
  rw [hio] at hr
  refine ⟨by omega, r, hr, ?_⟩
  show fetched r (max offset s.log.lowWatermark + i) = _
  rw [hio]

/-! ## Fetching -/

/-- The record in a response. -/
def responseRecord (s : StoredRecord) : Protocol.FetchedRecord :=
  ⟨.ofNat s.offset, s.timestampMs, s.key, s.value⟩

/-- `Client::fetch`: `Fetch` on the leader and the way of its response to the client. -/
def fetchFromLeader (leader : Leader) (offset : Nat) :
    Except ClientError (List Protocol.FetchedRecord) :=
  match leader.fetch offset (3 * 1024 * 1024) with
  | .error e => .error (.server e)
  | .ok records =>
    match encodeResponse (.fetch ⟨records.map responseRecord⟩) [] with
    | (.error _, _) => .error .connectionClosed
    | (.ok (), buffer) =>
      match decodeResponse buffer with
      | .ok (some (.fetch response, _)) => .ok response.records
      | .ok (some _) => .error .unexpectedResponse
      | .ok none => .error .connectionClosed
      | .error e => .error (.protocol e)

/-- The record that `recover_follower_partition` makes of a fetched one. -/
def pulledRecord (cfg : LeaderConfig) (entry : PartitionLeadership)
    (record : Protocol.FetchedRecord) : Protocol.ReplicateRecord where
  topic := cfg.topic
  partition := .ofNat cfg.cluster.partition
  offset := record.offset
  timestampMs := record.timestampMs
  key := record.key
  value := record.value
  durable := true
  leaderId := .ofNat cfg.self
  leaderEpoch := .ofNat entry.leaderEpoch

/-- The loop over the records of a response. -/
def storePulled (cfg : LeaderConfig) (entry : PartitionLeadership) :
    List Protocol.FetchedRecord → Nat → PartitionLog → Except ConnectionError Nat × PartitionLog
  | [], offset, log => (.ok offset, log)
  | record :: records, _, log =>
    match appendReplica log (pulledRecord cfg entry record) with
    | (.error e, log) => (.error (.storage e), log)
    | (.ok offset, log) => storePulled cfg entry records offset log

/-- The loop of `recover_follower_partition`.  `none`: there was not enough fuel. -/
def pullMissing (cfg : LeaderConfig) (leader : Leader) (entry : PartitionLeadership) :
    Nat → Nat → PartitionLog → Option (Except ConnectionError Unit × PartitionLog)
  | 0, _, _ => none
  | fuel + 1, offset, log =>
    match fetchFromLeader leader offset with
    | .error e => some (.error (.client e), log)
    | .ok [] => some (.ok (), log)
    | .ok (record :: records) =>
      match storePulled cfg entry (record :: records) offset log with
      | (.error e, log) => some (.error e, log)
      | (.ok offset, log) => pullMissing cfg leader entry fuel offset log

/-- `recover_follower_partition`: the snapshot of the partition has the end of the log as its high
watermark. -/
def recoverFollowerPartition (cfg : LeaderConfig) (leader : Leader) (f : FollowerState)
    (fuel : Nat) : Option (Except ConnectionError Unit × PartitionLog) :=
  pullMissing cfg leader f.entry fuel f.log.nextOffset f.log

/-! ## One fetch -/

omit [Checksum] in
theorem size_responseRecord (r : Record) (offset : Nat) :
    (responseRecord (r.at offset)).size ≤ encodedSize r := by
  simp only [responseRecord, Protocol.FetchedRecord.size, encodedSize, LENGTH_SIZE, CRC_SIZE,
    BODY_FIXED_SIZE]
  cases hk : r.key with
  | none => simp [Record.at, keyLen, hk]; omega
  | some key => simp [Record.at, keyLen, hk]; omega

omit [Checksum] in
theorem totalBytes_mono {ss ss' : List StoredRecord} (h : ss <+: ss') :
    totalBytes ss ≤ totalBytes ss' := by
  obtain ⟨rest, rfl⟩ := h
  rw [totalBytes, totalBytes, List.map_append, List.sum_append]
  exact Nat.le_add_right _ _

omit [Checksum] in
/-- What a fetch returns fits into a frame. -/
theorem size_responseRecords {ss : List StoredRecord}
    (hwithin : ss.length ≤ 1 ∨ min (totalBytes ss) USIZE_MAX ≤ MAX_FETCH_BYTES)
    (hsend : ∀ x ∈ ss, Sendable x.toRecord) :
    5 + ((ss.map responseRecord).map Protocol.FetchedRecord.size).sum ≤ MAX_FRAME_SIZE := by
  have hall : ((ss.map responseRecord).map Protocol.FetchedRecord.size).sum ≤ totalBytes ss := by
    rw [List.map_map]
    exact List.sum_le_sum fun x _ => size_responseRecord x.toRecord x.offset
  rcases hwithin with hone | hmin
  · rcases ss with _ | ⟨x, _ | ⟨y, ss⟩⟩
    · exact Nat.le_of_ble_eq_true rfl
    · have hx := hsend x List.mem_cons_self
      have hkey : (x.key.getD []).length ≤ 65535 := hx.keySize
      have hvalue : x.value.length ≤ 1048576 := hx.valueSize
      simp only [List.map_cons, List.map_nil, List.sum_cons, List.sum_nil, responseRecord,
        Protocol.FetchedRecord.size, MAX_FRAME_SIZE]
      omega
    · simp at hone
  · simp only [USIZE_MAX, MAX_FETCH_BYTES, MAX_FRAME_SIZE] at hmin ⊢
    omega

/-- **One fetch**: the records from the first one on that the leader still has, none beyond its
watermark, and at least one if there is any. -/
theorem Leads.fetchFromLeader (h : Leads interval s records) (offset : Nat) :
    ∃ n, Broker.fetchFromLeader s offset = .ok ((storedFrom (max offset s.log.lowWatermark)
        ((records.drop (max offset s.log.lowWatermark)).take n)).map responseRecord) ∧
      n ≤ s.entry.highWatermark - max offset s.log.lowWatermark ∧
      (max offset s.log.lowWatermark < s.entry.highWatermark → 0 < n) := by
  have hwatermark := h.watermark
  rw [h.nextOffset] at hwatermark
  have hlow := h.low_le
  have hread : s.log.read offset (3 * 1024 * 1024) = _ := h.read offset (by decide)
  generalize max offset s.log.lowWatermark = first at hread ⊢
  have hlongest := takeBudget_longest (3 * 1024 * 1024) (storedFrom first (records.drop first))
  generalize takeBudget (3 * 1024 * 1024) (storedFrom first (records.drop first)) = budget
    at hread hlongest
  have hbudget := List.prefix_iff_eq_take.1 hlongest.isPrefix
  rw [storedFrom_take] at hbudget
  have hfetch : s.fetch offset (3 * 1024 * 1024) = .ok (storedFrom first
      ((records.drop first).take (min (s.entry.highWatermark - first) budget.length))) := by
    unfold Leader.fetch
    rw [hread, hbudget]
    simp only
    rw [storedFrom_below_iff, List.take_take, ← hbudget]
  refine ⟨min (s.entry.highWatermark - first) budget.length, ?_, Nat.min_le_left _ _, fun hlt => ?_⟩
  · have hinitial : storedFrom first
        ((records.drop first).take (min (s.entry.highWatermark - first) budget.length)) <+: budget := by
      rw [← List.take_take, ← storedFrom_take, ← hbudget]
      exact List.take_prefix _ _
    have hwithin := size_responseRecords (hlongest.within.imp
      (Nat.le_trans hinitial.length_le) (Nat.le_trans (min_le_min_right _ (totalBytes_mono hinitial))))
      fun x hx => h.sendable _ (List.mem_of_mem_drop (List.mem_of_mem_take (by
        rw [← storedFrom_toRecord first ((records.drop first).take _)]
        exact List.mem_map_of_mem hx)))
    obtain ⟨buffer, hencode, hdecode⟩ := Protocol.fetch_within hwithin
    unfold Broker.fetchFromLeader
    rw [hfetch]
    simp only
    rw [hencode]
    simp only
    rw [hdecode]
  · have hne : storedFrom first (records.drop first) ≠ [] := by
      rw [← List.length_pos_iff, storedFrom_length, List.length_drop]
      omega
    have hpos := List.length_pos_iff.2 (hlongest.first hne)
    omega

/-! ## Storing what was fetched -/

theorem Leads.checked (h : Leads interval s records) : ∀ r ∈ records, checkRecord r = .ok () := by
  obtain ⟨removed, chunks, last, hrep, rfl⟩ := h.rep
  exact hrep.sequenced.checked

theorem Leads.bound (h : Leads interval s records) : records.length ≤ U64_MAX := by
  rw [← h.nextOffset]
  obtain ⟨removed, chunks, last, hrep, _⟩ := h.rep
  exact hrep.bound

omit [Checksum] in
theorem pulledRecord_offset (cfg : LeaderConfig) (entry : PartitionLeadership) (r : Record)
    {offset : Nat} (hb : offset ≤ U64_MAX) :
    (pulledRecord cfg entry (responseRecord (r.at offset))).offset.toNat = offset := by
  refine UInt64.toNat_ofNat_of_lt' (show offset < 2 ^ 64 from ?_)
  simp only [U64_MAX] at hb
  omega

/-- What `append_replica` makes of a record that is to be durable. -/
theorem appendReplica_durable {log log' : PartitionLog} {request : Protocol.ReplicateRecord}
    {r : Record} {offset o : Nat} (hoffset : request.offset.toNat = offset)
    (hrecord : Record.new request.key request.value request.timestampMs = r)
    (hdurable : request.durable = true) (happ : log.appendReplica offset r = (.ok o, log')) :
    appendReplica log request = (.ok log'.syncData.nextOffset, log'.syncData) := by
  unfold appendReplica
  simp only [hoffset, hrecord, happ, hdurable, if_true]

/-- The next record is stored and synced. -/
theorem Follows.pulled {log : PartitionLog} {r : Record} (h : Follows interval k log records)
    (cfg : LeaderConfig) (entry : PartitionLeadership) (hr : records[k]? = some r)
    (hc : checkRecord r = .ok ()) (hb : k < U64_MAX) :
    ∃ log', appendReplica log (pulledRecord cfg entry (responseRecord (r.at k))) =
        (.ok (k + 1), log') ∧ Follows interval (k + 1) log' records := by
  obtain ⟨hok, hfollows⟩ := h.next hr hc hb
  have hsynced := hfollows.syncData
  refine ⟨_, ?_, hsynced⟩
  rw [appendReplica_durable (pulledRecord_offset cfg entry r (Nat.le_of_lt hb)) rfl rfl
    (Prod.ext hok rfl : log.appendReplica k (plain r) = (.ok k, _)), hsynced.nextOffset]

/-- A response that starts at the end of the follower's log is stored as a whole. -/
theorem Follows.storePulled (cfg : LeaderConfig) (entry : PartitionLeadership)
    (hchecked : ∀ r ∈ records, checkRecord r = .ok ()) (hbound : records.length ≤ U64_MAX) :
    ∀ (n k : Nat) (log : PartitionLog), Follows interval k log records →
      ∃ log', Broker.storePulled cfg entry
          ((storedFrom k ((records.drop k).take n)).map responseRecord) k log =
            (.ok (k + ((records.drop k).take n).length), log') ∧
        Follows interval (k + ((records.drop k).take n).length) log' records := by
  intro n
  induction n with
  | zero =>
    intro k log h
    rw [List.take_zero]
    exact ⟨log, rfl, h⟩
  | succ n ih =>
    intro k log h
    rcases Nat.lt_or_ge k records.length with hlt | hge
    · have hr := List.getElem?_eq_getElem hlt
      obtain ⟨log₁, happ, hfollows⟩ := h.pulled cfg entry hr (hchecked _ (List.mem_of_getElem? hr))
        (by omega)
      obtain ⟨log', hstore, hall⟩ := ih (k + 1) log₁ hfollows
      refine ⟨log', ?_, ?_⟩
      · rw [List.drop_eq_getElem_cons hlt, List.take_succ_cons, storedFrom, List.map_cons,
          Broker.storePulled, happ]
        simp only
        rw [hstore, List.length_cons, Nat.add_right_comm, Nat.add_assoc k]
      · rw [List.drop_eq_getElem_cons hlt, List.take_succ_cons, List.length_cons,
          ← Nat.add_assoc, Nat.add_right_comm]
        exact hall
    · rw [List.drop_eq_nil_of_le hge, List.take_nil]
      exact ⟨log, rfl, h⟩

/-- The loop: every fetch brings the follower further, until the watermark is reached. -/
theorem Follows.pullMissing (cfg : LeaderConfig) (entry : PartitionLeadership)
    (hl : Leads interval s records) : ∀ (fuel k : Nat) (log : PartitionLog),
      Follows interval' k log records → s.log.lowWatermark ≤ k →
      s.entry.highWatermark - k < fuel →
      ∃ k' log', Broker.pullMissing cfg s entry fuel k log = some (.ok (), log') ∧
        s.entry.highWatermark ≤ k' ∧ Follows interval' k' log' records := by
  intro fuel
  have hwatermark := hl.watermark
  rw [hl.nextOffset] at hwatermark
  induction fuel with
  | zero =>
    intro k log _ _ hfuel
    cases hfuel
  | succ fuel ih =>
    intro k log h hlow hfuel
    obtain ⟨n, hfetch, hn, hpos⟩ := hl.fetchFromLeader k
    rw [Nat.max_eq_left hlow] at hfetch hn hpos
    obtain ⟨log', hstore, hall⟩ := h.storePulled cfg entry hl.checked hl.bound n k log
    have hlen : ((records.drop k).take n).length = n := by
      rw [List.length_take, List.length_drop]
      omega
    rw [hlen] at hstore hall
    unfold Broker.pullMissing
    rw [hfetch]
    rcases Nat.eq_zero_or_pos n with rfl | hsome
    · exact ⟨k, log, rfl, by omega, h⟩
    · obtain ⟨x, rest, hcons⟩ := List.exists_cons_of_length_pos (l := (storedFrom k
        ((records.drop k).take n)).map responseRecord) (by
          rw [List.length_map, storedFrom_length, hlen]
          exact hsome)
      rw [hcons] at hstore ⊢
      simp only
      rw [hstore]
      simp only
      exact ih (k + n) log' hall (by omega) (by omega)

/-! ## Recovery -/

/-- The recovery returns `Ok`, with the follower at the leader's high watermark or beyond and with
the leader's record at every offset below it that the leader still has. -/
def Recovers (cfg : LeaderConfig) (leader : Leader) (f : FollowerState) : Prop :=
  ∃ fuel log', recoverFollowerPartition cfg leader f fuel = some (.ok (), log') ∧
    leader.entry.highWatermark ≤ log'.nextOffset ∧
    ∀ offset < leader.entry.highWatermark, ∀ record,
      Broker.recordAt leader.log offset = some record → Broker.recordAt log' offset = some record

/-- The follower holds the first records of the leader, apart from their producers. -/
def Copies (interval : Nat) (log : PartitionLog) (records : RecordLog) : Prop :=
  ∃ held, Refines interval log held ∧ held.map plain = (records.take log.nextOffset).map plain

theorem Copies.recordAt {log : PartitionLog} (h : Copies interval log records) {offset : Nat}
    {r : Record} (hr : records[offset]? = some r) (hlt : offset < log.nextOffset) :
    Broker.recordAt log offset = some (fetched r offset) := by
  obtain ⟨held, hrefines, hheld⟩ := h
  have hget := congrArg (fun rs => rs[offset]?) hheld
  simp only [List.getElem?_map, List.getElem?_take_of_lt hlt, hr, Option.map_some] at hget
  obtain ⟨x, hx, hplain⟩ := Option.map_eq_some_iff.1 hget
  have hfields := Record.mk.inj hplain
  rw [recordAt_found hrefines hx]
  simp only [fetched, hfields.1, hfields.2.1, hfields.2.2.1]

theorem Follows.copies {log : PartitionLog} (h : Follows interval k log records) :
    Copies interval log records := by
  obtain ⟨held, hrefines, hheld⟩ := h.refines
  refine ⟨held, hrefines, ?_⟩
  rw [h.nextOffset, hheld]

/-- A follower at the watermark that copies the leader is recovered. -/
theorem Leads.recovered {log : PartitionLog} (hl : Leads interval s records)
    (hcopies : Copies interval' log records) (hend : s.entry.highWatermark ≤ log.nextOffset) :
    ∀ offset < s.entry.highWatermark, ∀ record, Broker.recordAt s.log offset = some record →
      Broker.recordAt log offset = some record := by
  intro offset hlt record hrecord
  obtain ⟨_, r, hr, rfl⟩ := hl.recordAt hrecord
  exact hcopies.recordAt hr (Nat.lt_of_lt_of_le hlt hend)

theorem Leads.recovers {cfg : LeaderConfig} {f : FollowerState} (hl : Leads interval s records)
    (hcopies : Copies interval' f.log records) (hend : f.log.nextOffset ≤ records.length)
    (hroom : RoomFor f.log s.log.logSizeBytes)
    (h : s.log.lowWatermark ≤ f.log.nextOffset ∨ s.entry.highWatermark ≤ f.log.nextOffset) :
    Recovers cfg s f := by
  rcases h with hlow | hhigh
  · obtain ⟨held, hrefines, hheld⟩ := hcopies
    have hfollows : Follows interval' f.log.nextOffset f.log records := by
      refine ⟨⟨held, hrefines, hheld⟩, hend, hroom.mono ?_⟩
      rw [hl.logSizeBytes, ← Nat.add_sub_cancel' hlow, ← List.drop_drop]
      exact totalSize_drop_le _ _
    obtain ⟨k', log', hpull, hk', hall⟩ := Follows.pullMissing cfg f.entry hl
      (s.entry.highWatermark - f.log.nextOffset + 1) f.log.nextOffset f.log hfollows hlow
      (Nat.lt_succ_self _)
    have hnext := hall.nextOffset
    exact ⟨_, log', hpull, by omega, hl.recovered hall.copies (by omega)⟩
  · -- nothing below the watermark is fetched
    obtain ⟨n, hfetch, hn, _⟩ := hl.fetchFromLeader f.log.nextOffset
    obtain rfl : n = 0 := by omega
    refine ⟨1, f.log, ?_, hhigh, hl.recovered hcopies hhigh⟩
    rw [recoverFollowerPartition, pullMissing, hfetch]
    rfl

/-- A follower that ends below the records the leader still has is not recovered. -/
theorem Leads.not_recovers {cfg : LeaderConfig} {f : FollowerState} (hl : Leads interval s records)
    (hlow : f.log.nextOffset < s.log.lowWatermark)
    (hhigh : f.log.nextOffset < s.entry.highWatermark) : ¬ Recovers cfg s f := by
  rintro ⟨fuel, log', hpull, hend, _⟩
  obtain ⟨n, hfetch, _, _⟩ := hl.fetchFromLeader f.log.nextOffset
  rw [Nat.max_eq_right (Nat.le_of_lt hlow)] at hfetch
  cases fuel with
  | zero => cases hpull
  | succ fuel =>
    rw [recoverFollowerPartition, pullMissing, hfetch] at hpull
    cases hrecords : (records.drop s.log.lowWatermark).take n with
    | nil =>
      rw [hrecords] at hpull
      cases hpull
      omega
    | cons r rest =>
      -- the first record is beyond the end of the follower's log
      have hoffset := pulledRecord_offset cfg f.entry r (Nat.le_trans hl.low_le hl.bound)
      have hrefused : appendReplica f.log (pulledRecord cfg f.entry
          (responseRecord (r.at s.log.lowWatermark))) =
          (.error (.unexpectedOffset f.log.nextOffset s.log.lowWatermark), f.log) := by
        unfold appendReplica
        simp only [hoffset, PartitionLog.appendReplica]
        rw [if_neg (by omega), if_pos (by omega)]
      rw [hrecords, storedFrom, List.map_cons] at hpull
      simp only [storePulled, hrefused] at hpull
      cases hpull

/-- **When a lagging follower can be recovered.**  The leader's log and watermark are those of a run
of produces, replications and retention on a new partition; the follower's log holds a prefix of
what the leader was given, and has room for what the leader still has.  One run of
`recover_follower_partition` recovers it if and only if the follower's end is not below the first
record the leader still has, or not below its high watermark. -/
theorem recovers_iff {cfg : LeaderConfig} {leaderEpoch maxSegmentBytes' interval' : Nat}
    {log₀ follower₀ : PartitionLog} {leader : Leader} {f : FollowerState} {acts : List Serving}
    {ops' : List Operation} {held : List FetchedRecord}
    (h₀ : PartitionLog.openLog Dir.empty cfg.topic cfg.maxSegmentBytes cfg.indexIntervalBytes =
      .ok log₀)
    (hacts : ∀ a ∈ acts, a.Allowed)
    (hfew : Along (Leader.serve cfg) ServingCountable (Leader.new cfg log₀ leaderEpoch) acts)
    (hr : run (Leader.serve cfg) (Leader.new cfg log₀ leaderEpoch) acts = some leader)
    (h₀' : PartitionLog.openLog Dir.empty cfg.topic maxSegmentBytes' interval' = .ok follower₀)
    (hops' : ∀ op ∈ ops', op.retains = false)
    (hfew' : Along PartitionLog.step Countable follower₀ ops')
    (hr' : run PartitionLog.step follower₀ ops' = some f.log)
    (hfollower : fetchedAll f.log = .ok held)
    (hinitial : held <+: fetchedFrom 0 (acts.foldl Serving.records []))
    (hroom : RoomFor f.log leader.log.logSizeBytes) :
    Recovers cfg leader f ↔ leader.log.lowWatermark ≤ f.log.nextOffset ∨
      leader.entry.highWatermark ≤ f.log.nextOffset := by
  have hl : Leads cfg.indexIntervalBytes leader (acts.foldl Serving.records []) := by
    refine Leads.run ⟨⟨[], [], [], openLog_empty h₀, rfl⟩, Nat.zero_le _, ?_⟩ hacts hfew hr
    exact List.forall_mem_nil _
  have hf : Refines interval' f.log (ops'.foldl RecordLog.step []) :=
    Refines.of_run ⟨[], [], openLog_empty h₀', rfl⟩ hops' hfew' hr'
  rw [fetchedAll_eq hf] at hfollower
  cases hfollower
  have hplain := hinitial.map FetchedRecord.toRecord
  rw [fetchedFrom_toRecord, fetchedFrom_toRecord] at hplain
  have hlen := hplain.length_le
  rw [List.length_map, List.length_map, ← hf.nextOffset] at hlen
  have hcopies : Copies interval' f.log (acts.foldl Serving.records []) := by
    refine ⟨_, hf, ?_⟩
    rw [List.prefix_iff_eq_take.1 hplain, List.length_map, ← List.map_take, hf.nextOffset]
  constructor
  · intro hrecovers
    by_contra hno
    exact hl.not_recovers (by omega) (by omega) hrecovers
  · exact hl.recovers hcopies hlen hroom

end Pull

/-- A leader with small segments. -/
def smallSegments : LeaderConfig := { Leader.leaderOfThree with maxSegmentBytes := 60 }

/-- Three records in segments of their own are committed, then the first one is removed. -/
def expiredRun : List Serving :=
  leaderRun.map .operation ++
    [.replicate 2 1, .operation (.applyRetention (some 120) none fun _ => none)]

theorem expiredRun_allowed : ∀ a ∈ expiredRun, a.Allowed := by
  intro a ha
  rcases List.mem_append.1 ha with ha | ha
  · obtain ⟨op, hop, rfl⟩ := List.mem_map.1 ha
    refine Or.inl ⟨leaderRun_requested op hop, ?_⟩
    simp only [leaderRun, List.mem_cons, List.not_mem_nil, or_false] at hop
    rcases hop with rfl | rfl | rfl | rfl <;> rfl
  · simp only [List.mem_cons, List.not_mem_nil, or_false] at ha
    rcases ha with rfl | rfl
    · exact trivial
    · exact Or.inr rfl

/-- A new partition log with small segments. -/
def emptyLog : PartitionLog := ⟨0, 60, 64, [.new 0], .empty⟩

theorem expiredRun_few :
    letI := Checksum.crc32
    Along (Leader.serve smallSegments) ServingCountable (Leader.new smallSegments emptyLog 4)
      expiredRun := by
  decide +kernel

theorem expiredRun_leader :
    letI := Checksum.crc32
    ∃ leader, run (Leader.serve smallSegments) (Leader.new smallSegments emptyLog 4) expiredRun =
        some leader ∧ leader.log.lowWatermark = 1 ∧ leader.entry.highWatermark = 3 ∧
      leader.log.logSizeBytes ≤ 1000 := by
  let _ := Checksum.crc32
  have hrun : (run (Leader.serve smallSegments) (Leader.new smallSegments emptyLog 4)
      expiredRun).any (fun leader => decide (leader.log.lowWatermark = 1 ∧
        leader.entry.highWatermark = 3 ∧ leader.log.logSizeBytes ≤ 1000)) := by decide +kernel
  obtain ⟨leader, hr, hleader⟩ := (Option.any_eq_true _ _).1 hrun
  exact ⟨leader, hr, of_decide_eq_true hleader⟩

/-- The follower has the first record, the leader the other two. -/
theorem recovers_iff_next :
    letI := Checksum.crc32
    ∃ leader follower, run (Leader.serve smallSegments) (Leader.new smallSegments emptyLog 4)
        expiredRun = some leader ∧
      run PartitionLog.step emptyLog [.appendReplica 0 (Record.new none (utf8 "zero") 1)] =
        some follower ∧ follower.nextOffset = 1 ∧ leader.entry.highWatermark = 3 ∧
      Recovers smallSegments leader ⟨follower, ⟨1, 2, 4, 0⟩⟩ := by
  let _ := Checksum.crc32
  obtain ⟨leader, hr, hlow, hhigh, hsize⟩ := expiredRun_leader
  have hrun : (run PartitionLog.step emptyLog
      [.appendReplica 0 (Record.new none (utf8 "zero") 1)]).any (fun follower =>
        decide (follower.nextOffset = 1 ∧
          fetchedAll follower = .ok [⟨0, 1, none, utf8 "zero"⟩] ∧
          ∀ s ∈ follower.segments.getLast?, s.file.bytes.length ≤ 1000 ∧
            s.indexFile.bytes.length ≤ 1000)) := by decide +kernel
  obtain ⟨follower, hr', hfollower⟩ := (Option.any_eq_true _ _).1 hrun
  obtain ⟨hnext, hheld, hfiles⟩ := of_decide_eq_true hfollower
  have hroom : RoomFor follower leader.log.logSizeBytes := by
    intro s hs
    obtain ⟨hfile, hindex⟩ := hfiles s hs
    simp only [MAX_FILE_SIZE]
    omega
  refine ⟨leader, follower, hr, hr', hnext, hhigh, ?_⟩
  exact (@recovers_iff _ smallSegments 4 60 64 emptyLog emptyLog leader ⟨follower, ⟨1, 2, 4, 0⟩⟩
    expiredRun _ _ rfl expiredRun_allowed expiredRun_few hr rfl
    (fun op hop => by rw [List.mem_singleton.1 hop]; rfl) (by decide +kernel) hr' hheld
    (by decide +kernel) hroom).2 (Or.inl (by rw [hlow]; exact Nat.le_of_eq hnext.symm))

/-- A follower without records asks from offset 0 on, is sent the record at offset 1 and refuses
it. -/
theorem expired_records_not_recovered :
    letI := Checksum.crc32
    PartitionLog.openLog Dir.empty "payments" 60 64 = .ok emptyLog ∧
      (∀ a ∈ expiredRun, a.Allowed) ∧ fetchedAll emptyLog = .ok [] ∧
      ∃ leader, run (Leader.serve smallSegments) (Leader.new smallSegments emptyLog 4) expiredRun =
          some leader ∧ RoomFor emptyLog leader.log.logSizeBytes ∧
        ¬ Recovers smallSegments leader ⟨emptyLog, ⟨1, 2, 4, 0⟩⟩ := by
  let _ := Checksum.crc32
  obtain ⟨leader, hr, hlow, hhigh, hsize⟩ := expiredRun_leader
  have hroom : RoomFor emptyLog leader.log.logSizeBytes := by
    intro s hs
    obtain rfl : SegmentMetadata.new 0 = s := Option.some.inj hs
    simp only [SegmentMetadata.new, File.empty, List.length_nil, MAX_FILE_SIZE]
    omega
  have hnew : PartitionLog.openLog Dir.empty "payments" 60 64 = .ok emptyLog := rfl
  refine ⟨hnew, expiredRun_allowed, rfl, leader, hr, hroom, ?_⟩
  have hl : Leads 64 leader (expiredRun.foldl Serving.records []) :=
    Leads.run ⟨⟨[], [], [], openLog_empty hnew, rfl⟩, Nat.zero_le _,
      List.forall_mem_nil _⟩ expiredRun_allowed expiredRun_few hr
  refine hl.not_recovers ?_ ?_
  · rw [hlow]
    exact Nat.zero_lt_one
  · rw [hhigh]
    exact Nat.zero_lt_succ _

end SevlaMq.Broker
