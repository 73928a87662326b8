import SevlaMq.Broker.Replica
import SevlaMq.Protocol.RequestRoundTrip
import SevlaMq.Storage.Faults

/-!
# Catching up by push

`replicate_to_follower` sends the record at hand.  A follower that lacks records answers with the
offset it needs, and the leader sends from there on, one record at a time.

* `Requested` — the operations requests and other brokers have a log perform; `Sendable` — what is
  true of the records they leave.
* `handleReplication` — one record in `handle_replication_connection`.
* `replicateToFollower` — the loop, with one unit of fuel for each pass.
* `Follows` — the follower holds the first records of the leader; `Follows.exchange` — what one
  record sent to it does.
* `push_catches_up` — the loop ends, and the follower holds the leader's records up to the one at
  hand.
-/

set_option autoImplicit false

namespace SevlaMq.Broker

open SevlaMq.Storage SevlaMq.Cluster
open SevlaMq.Protocol (nonEmpty encodeReplicateRecord decodeReplicateRecord encodeReplicateAck
  decodeReplicateAck MAX_KEY_SIZE MAX_MESSAGE_SIZE)

/-! ## Records of a broker -/

/-- The record `append_record` makes of a request. -/
def requestedRecord (key value : Bytes) (producer : Option Protocol.ProducerIdentity)
    (timestampMs : UInt64) : Record :=
  ⟨nonEmpty key, value, timestampMs, producer.map fun p => ⟨p.id, p.sequence⟩⟩

/-- What the requests of clients and other brokers have a log do. -/
inductive Requested : Operation → Prop
  | produce (request : Protocol.ProduceRequest) (timestampMs : UInt64) :
      Requested (.append (requestedRecord request.key request.payload request.producer timestampMs))
  | batch {request : Protocol.ProduceBatchRequest} {record : Protocol.BatchRecord}
      (hmem : record ∈ request.records) (timestampMs : UInt64) :
      Requested (.append (requestedRecord record.key record.payload none timestampMs))
  | replicate {request : Protocol.ReplicateRecord} {buffer : Bytes}
      (hsent : encodeReplicateRecord request [] = (.ok (), buffer)) :
      Requested (.appendReplica request.offset.toNat
        (Record.new request.received.key request.value request.timestampMs))
  | truncate (offset : Nat) : Requested (.truncateTo offset)
  | sync : Requested .syncData

/-- The record reaches another broker as it is. -/
structure Sendable (r : Record) : Prop where
  key : r.key ≠ some []
  keySize : (r.key.getD []).length ≤ MAX_KEY_SIZE
  valueSize : r.value.length ≤ MAX_MESSAGE_SIZE

/-- The record without its producer. -/
def plain (r : Record) : Record := Record.new r.key r.value r.timestampMs

theorem Sendable.replicated_eq {r : Record} (h : Sendable r) : replicated r = plain r := by
  have hkey : nonEmpty (r.key.getD []) = r.key := by
    cases hk : r.key with
    | none => rfl
    | some key =>
      have hne : key ≠ [] := fun hnil => h.key (by rw [hk, hnil])
      exact if_neg hne
  rw [replicated, hkey, plain]

theorem sendable_nonEmpty {key value : Bytes} {timestampMs : UInt64}
    {producer : Option ProducerIdentity} (hkey : key.length ≤ MAX_KEY_SIZE)
    (hvalue : value.length ≤ MAX_MESSAGE_SIZE) :
    Sendable ⟨nonEmpty key, value, timestampMs, producer⟩ := by
  refine ⟨?_, ?_, hvalue⟩
  · unfold nonEmpty
    split
    · exact fun h => by cases h
    · rename_i hne
      exact fun h => hne (Option.some.inj h)
  · unfold nonEmpty
    split
    · exact Nat.zero_le _
    · exact hkey

/-- The record an operation brings. -/
def operationRecord : Operation → Option Record
  | .append r => some r
  | .appendReplica _ r => some r
  | _ => none

/-- Requests bring records that can be sent on. -/
theorem Requested.sendable {op : Operation} (h : Requested op) {r : Record}
    (hr : operationRecord op = some r) : Sendable r := by
  cases h with
  | produce request timestampMs =>
    cases hr
    exact sendable_nonEmpty request.limits.2.1 request.limits.2.2.1
  | @batch request record hmem timestampMs =>
    cases hr
    obtain ⟨hkey, hvalue⟩ := request.limits.2.2.2.1 record hmem
    exact sendable_nonEmpty hkey hvalue
  | @replicate request buffer hsent =>
    cases hr
    obtain ⟨_, hkey, hvalue, _⟩ := Protocol.encodeReplicateRecord_ok hsent
    exact sendable_nonEmpty hkey hvalue
  | truncate offset => cases hr
  | sync => cases hr

theorem Requested.retains {op : Operation} (h : Requested op) : op.retains = false := by
  cases h <;> rfl

/-- A step brings the record of its operation, if any. -/
theorem mem_step {records : RecordLog} {op : Operation} {r : Record}
    (h : r ∈ RecordLog.step records op) : r ∈ records ∨ operationRecord op = some r := by
  have happended : ∀ {x : Record}, r ∈ RecordLog.step records (.append x) → r ∈ records ∨ x = r := by
    intro x hx
    rcases step_append records x with heq | heq
    · rw [heq] at hx
      exact Or.inl hx
    · rw [heq] at hx
      rcases List.mem_append.1 hx with hx | hx
      · exact Or.inl hx
      · exact Or.inr (List.mem_singleton.1 hx).symm
  cases op with
  | append x => exact (happended h).imp_right (congrArg some)
  | appendReplica offset x =>
    simp only [RecordLog.step, RecordLog.appendReplica] at h
    split at h
    · rename_i o log happ
      split at happ
      · split at happ
        · cases happ
          exact Or.inl h
        · cases happ
      · split at happ
        · cases happ
        · refine (happended ?_).imp_right (congrArg some)
          rw [RecordLog.step, happ]
          exact h
    · exact Or.inl h
  | truncateTo offset =>
    simp only [RecordLog.step] at h
    split at h
    · rename_i log hcut
      obtain ⟨_, rfl⟩ := RecordLog.truncateTo_ok hcut
      exact Or.inl (List.mem_of_mem_take h)
    · exact Or.inl h
  | syncData => exact Or.inl h
  | applyRetention maxBytes maxAge elapsed => exact Or.inl h

theorem sendable_run {ops : List Operation} (h : ∀ op ∈ ops, Requested op) :
    ∀ {records : RecordLog}, (∀ r ∈ records, Sendable r) →
      ∀ r ∈ ops.foldl RecordLog.step records, Sendable r := by
  induction ops with
  | nil =>
    intro records hall
    exact hall
  | cons op ops ih =>
    intro records hall
    refine ih (fun x hx => h x (List.mem_cons_of_mem _ hx)) fun r hr => ?_
    rcases mem_step hr with hold | hnew
    · exact hall r hold
    · exact (h op List.mem_cons_self).sendable hnew

/-- Without its producer a record is smaller. -/
theorem encodedSize_plain (r : Record) : encodedSize (plain r) ≤ encodedSize r := by
  have hproducer : producerLen (plain r) = 0 := rfl
  simp only [encodedSize, hproducer]
  show _ + (_ + (_ + 0 + keyLen r + r.value.length)) ≤ _
  omega

theorem checkRecord_plain {r : Record} (h : checkRecord r = .ok ()) :
    checkRecord (plain r) = .ok () := by
  have hsize := (checkRecord_ok h).1
  have hle := encodedSize_plain r
  unfold encodedSize at hle
  unfold checkRecord
  rw [if_neg (by omega)]
  rfl

/-! ## What a log holds -/

/-- The records from offset `base` on, as they are fetched. -/
def fetchedFrom (base : Nat) (rs : List Record) : List FetchedRecord :=
  (storedFrom base rs).map fun s => fetched s.toRecord s.offset

theorem fetchedFrom_toRecord (base : Nat) (rs : List Record) :
    (fetchedFrom base rs).map FetchedRecord.toRecord = rs.map plain := by
  induction rs generalizing base with
  | nil => rfl
  | cons r rs ih =>
    simp only [fetchedFrom, storedFrom, List.map_cons] at ih ⊢
    rw [ih]
    rfl

/-- The producers are not fetched. -/
theorem fetchedFrom_plain (base : Nat) (rs : List Record) :
    fetchedFrom base rs = fetchedFrom base (rs.map plain) := by
  induction rs generalizing base with
  | nil => rfl
  | cons r rs ih =>
    simp only [fetchedFrom, storedFrom, List.map_cons] at ih ⊢
    rw [ih]
    rfl

theorem fetchedFrom_take (base k : Nat) (rs : List Record) :
    (fetchedFrom base rs).take k = fetchedFrom base (rs.take k) := by
  rw [fetchedFrom, ← List.map_take, storedFrom_take]
  rfl

theorem fetchedFrom_getElem? (base k : Nat) (rs : List Record) :
    (fetchedFrom base rs)[k]? = (rs[k]?).map (fetched · (base + k)) := by
  rw [fetchedFrom, List.getElem?_map, storedFrom_getElem?, Option.map_map]
  rfl

theorem fetchedFrom_offsets (base : Nat) (rs : List Record) :
    (fetchedFrom base rs).map (·.offset) = List.range' base rs.length := by
  rw [← storedFrom_offsets, fetchedFrom, List.map_map]
  rfl

theorem totalSize_drop_le (rs : List Record) (k : Nat) : totalSize (rs.drop k) ≤ totalSize rs := by
  conv_rhs => rw [← List.take_append_drop k rs, totalSize_append]
  exact Nat.le_add_left _ _

/-! ## Room on the disk of the follower -/

/-- The active files can grow by the given number of bytes. -/
def RoomFor (log : PartitionLog) (bytes : Nat) : Prop :=
  ∀ s ∈ log.segments.getLast?, s.file.bytes.length + bytes ≤ MAX_FILE_SIZE ∧
    s.indexFile.bytes.length + bytes ≤ MAX_FILE_SIZE

theorem RoomFor.mono {log : PartitionLog} {m n : Nat} (h : RoomFor log n) (hle : m ≤ n) :
    RoomFor log m := by
  intro s hs
  obtain ⟨hfile, hindex⟩ := h s hs
  omega

theorem RoomFor.syncData {log : PartitionLog} {n : Nat} (h : RoomFor log n) :
    RoomFor log.syncData n := by
  unfold PartitionLog.syncData
  split
  · exact h
  · rename_i active hactive
    intro s hs
    simp only [PartitionLog.setActive, List.getLast?_concat, Option.mem_some_iff] at hs
    subst hs
    exact h active hactive

/-- An index entry has 16 bytes. -/
theorem write_index_length {s w : SegmentMetadata} {interval offset : Nat} {encoded : Bytes}
    (h : s.write interval offset encoded = .ok w) :
    w.indexFile.bytes.length ≤ s.indexFile.bytes.length + 16 := by
  obtain ⟨_, _, hw⟩ := SegmentMetadata.write_announced h
  rw [hw]
  show (LogHandle.announced s interval offset none).indexFile.bytes.length ≤ _
  simp only [LogHandle.announced]
  split
  · simp only [File.write, List.length_append, List.length_take, encodeIndexEntry_length]
    omega
  · exact Nat.le_add_right _ _

theorem encodedSize_ge (r : Record) : 16 ≤ encodedSize r := by
  simp only [encodedSize, LENGTH_SIZE, CRC_SIZE, BODY_FIXED_SIZE]
  omega

/-! ## The follower -/

inductive ClientError where
  | protocol (e : Protocol.ProtocolError)
  | connectionClosed
  | unexpectedResponse
  | server (e : StorageError)
  deriving DecidableEq, Repr

inductive ConnectionError where
  | storage (e : StorageError)
  | protocol (e : Protocol.ProtocolError)
  | client (e : ClientError)
  | leadership (e : LeadershipError)
  | staleLeaderEpoch
  | invalidReplicationAck
  | replicationClosed
  | missingAppendedRecord
  deriving DecidableEq, Repr

/-- The log of a partition on a follower, and the entry of its registry for it. -/
structure FollowerState where
  log : PartitionLog
  entry : PartitionLeadership

section Push

variable [Checksum]

/-- A record of a newer epoch: what is beyond it is cut off, and the epoch is taken over. -/
def adoptEpoch (cfg : ClusterConfig) (f : FollowerState) (record : Protocol.ReplicateRecord) :
    Except ConnectionError Unit × FollowerState :=
  if f.entry.leaderEpoch < record.leaderEpoch.toNat then
    let (res, log) := if record.offset.toNat < f.log.nextOffset then
        f.log.truncateTo record.offset.toNat
      else (.ok (), f.log)
    match res with
    | .error e => (.error (.storage e), { f with log })
    | .ok () =>
      match applyEntry cfg (some f.entry) ⟨record.partition.toNat, record.leaderId.toNat,
          record.leaderEpoch.toNat, f.entry.highWatermark⟩ with
      | .error e => (.error (.leadership e), { f with log })
      | .ok entry => (.ok (), ⟨log, entry⟩)
  else (.ok (), f)

/-- The body of the loop of `handle_replication_connection`. -/
def handleReplication (cfg : ClusterConfig) (f : FollowerState)
    (record : Protocol.ReplicateRecord) : Except ConnectionError Nat × FollowerState :=
  if record.leaderEpoch.toNat < f.entry.leaderEpoch ∨
      (record.leaderEpoch.toNat = f.entry.leaderEpoch ∧
        record.leaderId.toNat ≠ f.entry.leaderId) then
    (.error .staleLeaderEpoch, f)
  else
    match adoptEpoch cfg f record with
    | (.error e, f) => (.error e, f)
    | (.ok (), f) =>
      match handleReplica f.log record with
      | (.error e, log) => (.error (.storage e), { f with log })
      | (.ok nextOffset, log) => (.ok nextOffset, { f with log })

/-! ## The leader -/

/-- `send_replica`: the record goes to the follower, its acknowledgement comes back.  A follower
that fails closes the connection. -/
def sendToFollower (cfg : ClusterConfig) (f : FollowerState) (request : Protocol.ReplicateRecord) :
    Except ConnectionError Nat × FollowerState :=
  match encodeReplicateRecord request [] with
  | (.error e, _) => (.error (.protocol e), f)
  | (.ok (), buffer) =>
    match decodeReplicateRecord buffer with
    | .error _ => (.error .replicationClosed, f)
    | .ok none => (.error .replicationClosed, f)
    | .ok (some (record, _)) =>
      match handleReplication cfg f record with
      | (.error _, f) => (.error .replicationClosed, f)
      | (.ok nextOffset, f) =>
        match decodeReplicateAck (encodeReplicateAck ⟨record.partition, .ofNat nextOffset⟩ []).2 with
        | .ok (some (ack, _)) =>
          if ack.partition ≠ request.partition then (.error .invalidReplicationAck, f)
          else (.ok ack.nextOffset.toNat, f)
        | .ok none => (.error .replicationClosed, f)
        | .error e => (.error (.protocol e), f)

/-- The loop of `replicate_to_follower`: records are sent from `nextOffset` on until the one at
`last` is acknowledged.  `none`: there was not enough fuel. -/
def sendMissing (cfg : ClusterConfig) (topic : String) (leader : PartitionLog) (ackMode : AckMode)
    (leadership : PartitionLeadership) (last : Nat) : Nat → Nat → FollowerState →
      Option (Except ConnectionError Unit × FollowerState)
  | 0, _, _ => none
  | fuel + 1, nextOffset, f =>
    if last < nextOffset then some (.ok (), f) else
    match recordAt leader nextOffset with
    | none => some (.error .missingAppendedRecord, f)
    | some missing =>
      match sendToFollower cfg f (replicationRecord topic missing ackMode leadership) with
      | (.error e, f) => some (.error e, f)
      | (.ok nextOffset, f) => sendMissing cfg topic leader ackMode leadership last fuel nextOffset f

/-- `replicate_to_follower`. -/
def replicateToFollower (cfg : ClusterConfig) (topic : String) (leader : PartitionLog)
    (ackMode : AckMode) (leadership : PartitionLeadership) (record : FetchedRecord) (fuel : Nat)
    (f : FollowerState) : Option (Except ConnectionError Unit × FollowerState) :=
  match sendToFollower cfg f (replicationRecord topic record ackMode leadership) with
  | (.error e, f) => some (.error e, f)
  | (.ok nextOffset, f) =>
    if min (record.offset + 1) U64_MAX < nextOffset then some (.error .invalidReplicationAck, f)
    else sendMissing cfg topic leader ackMode leadership record.offset fuel nextOffset f

/-- A record for which there is room is stored, and takes no more than its size. -/
theorem append_roomFor {interval n : Nat} {log : PartitionLog} {records : RecordLog} {r : Record}
    (h : Refines interval log records) (hp : r.producer = none) (hc : checkRecord r = .ok ())
    (hb : log.nextOffset < U64_MAX) (hroom : RoomFor log (encodedSize r + n)) :
    (log.append r).1 = .ok log.nextOffset ∧ Refines interval (log.append r).2 (records ++ [r]) ∧
      RoomFor (log.append r).2 n := by
  obtain ⟨chunks, last, hrep, rfl⟩ := h
  obtain ⟨closed, active, hs, _, hactive⟩ := hrep.segments.last
  obtain ⟨hfile, hindex⟩ := hroom active (PartitionLog.active_mem hs)
  have ha : admission log.producerState r = .ok none := by simp only [admission, hp]
  have hsize := encodedSize_ge r
  have hio : (log.append r).1 ≠ .error .io := by
    refine hrep.append_room ha hc fun s hmem _ => ?_
    rw [show (LogHandle.of log).log = log from rfl, hs, List.getLast?_concat,
      Option.mem_some_iff] at hmem
    subst hmem
    omega
  obtain ⟨hok, chunks', last', hhist, hrep'⟩ := hrep.append_stored ha hc hb hio
  refine ⟨hok, ⟨chunks', last', hrep', hhist⟩, ?_⟩
  obtain ⟨w, hw, happ⟩ := PartitionLog.append_stored ha hc hs hactive.len_eq hb hio
  have hgrown := (SegmentMetadata.write_ok hw).2.2.2
  have hgrownIndex := write_index_length hw
  intro s hmem
  rw [happ, List.getLast?_concat, Option.mem_some_iff] at hmem
  subst hmem
  rw [hgrown, List.length_append, recordBytes_length]
  -- the record goes to the active files or to new ones
  unfold PartitionLog.target at hgrownIndex ⊢
  split
  · rename_i hfull
    rw [if_pos hfull] at hgrownIndex
    simp only [SegmentMetadata.new, File.empty, List.length_nil] at hgrownIndex ⊢
    omega
  · rename_i hfull
    rw [if_neg hfull] at hgrownIndex
    simp only at hgrownIndex ⊢
    omega

/-! ## A follower that holds the first records -/

/-- The follower holds the first `k` records of the leader, apart from their producers, and has room
for the other ones. -/
structure Follows (interval k : Nat) (log : PartitionLog) (records : RecordLog) : Prop where
  refines : ∃ held, Refines interval log held ∧ held.map plain = (records.take k).map plain
  within : k ≤ records.length
  room : RoomFor log (totalSize (records.drop k))

variable {interval interval' k n : Nat} {log : PartitionLog} {records : RecordLog}

theorem Follows.nextOffset (h : Follows interval k log records) : log.nextOffset = k := by
  obtain ⟨held, hrefines, hheld⟩ := h.refines
  have hlen := congrArg List.length hheld
  rw [List.length_map, List.length_map, List.length_take_of_le h.within] at hlen
  rw [hrefines.nextOffset, hlen]

theorem Follows.syncData (h : Follows interval k log records) :
    Follows interval k log.syncData records := by
  obtain ⟨held, ⟨chunks, last, hrep, hhist⟩, hheld⟩ := h.refines
  exact ⟨⟨held, ⟨chunks, last, hrep.syncData, hhist⟩, hheld⟩, h.within, h.room.syncData⟩

/-- `append_replica` on a record the follower has. -/
theorem Follows.repeated (h : Follows interval k log records) {m : Nat} {r : Record}
    (hr : records[m]? = some r) (hm : m < k) : log.appendReplica m (plain r) = (.ok m, log) := by
  have hnext := h.nextOffset
  obtain ⟨held, ⟨chunks, last, hrep, rfl⟩, hheld⟩ := h.refines
  have hget := congrArg (fun rs => rs[m]?) hheld
  simp only [List.getElem?_map, List.getElem?_take_of_lt hm, hr, Option.map_some] at hget
  obtain ⟨existing, he, hsame⟩ := Option.map_eq_some_iff.1 hget
  obtain ⟨stored, hread, hfind⟩ := hrep.find_stored he
  have hfields := Record.mk.inj hsame
  rw [PartitionLog.appendReplica, if_pos (by omega), hread]
  simp only [hfind]
  rw [if_pos]
  exact ⟨hfields.2.2.1, hfields.1, hfields.2.1⟩

/-- `append_replica` on the next record. -/
theorem Follows.next (h : Follows interval k log records) {r : Record}
    (hr : records[k]? = some r) (hc : checkRecord r = .ok ()) (hb : k < U64_MAX) :
    (log.appendReplica k (plain r)).1 = .ok k ∧
      Follows interval (k + 1) (log.appendReplica k (plain r)).2 records := by
  have hnext := h.nextOffset
  have hroom := h.room
  obtain ⟨hlt, hget⟩ := List.getElem?_eq_some_iff.1 hr
  obtain ⟨held, hrefines, hheld⟩ := h.refines
  have hcode : log.appendReplica k (plain r) = log.append (plain r) := by
    rw [PartitionLog.appendReplica, if_neg (by omega), if_neg (fun hne => hne hnext.symm)]
  rw [List.drop_eq_getElem_cons hlt, hget, totalSize, List.map_cons, List.sum_cons] at hroom
  obtain ⟨hok, hrefines', hroom'⟩ := append_roomFor hrefines rfl (checkRecord_plain hc) (hnext ▸ hb)
    (hroom.mono (Nat.add_le_add_right (encodedSize_plain r) _))
  rw [hcode]
  refine ⟨hnext ▸ hok, ⟨_, hrefines', ?_⟩, hlt, hroom'⟩
  rw [List.map_append, hheld, List.take_add_one, hr, List.map_append]
  rfl

/-- What one record does to the follower: it is repeated, stored, or beyond the end of the log. -/
theorem Follows.handle (h : Follows interval k log records) {m : Nat} {r : Record}
    {request : Protocol.ReplicateRecord} (hr : records[m]? = some r) (hc : checkRecord r = .ok ())
    (hb : m < U64_MAX) (hoffset : request.offset.toNat = m)
    (hrecord : Record.new request.key request.value request.timestampMs = plain r) :
    ∃ k', (Broker.handleReplica log request).1 = .ok k' ∧
      Follows interval k' (Broker.handleReplica log request).2 records ∧
      k' = if m = k then k + 1 else k := by
  have hnext := h.nextOffset
  unfold Broker.handleReplica
  rw [hoffset, hnext]
  by_cases hgap : k < m
  · rw [if_pos hgap, if_neg (Nat.ne_of_gt hgap)]
    exact ⟨k, rfl, h, rfl⟩
  · rw [if_neg hgap]
    unfold Broker.appendReplica
    simp only [hoffset, hrecord]
    have hstored : ∃ log', log.appendReplica m (plain r) = (.ok m, log') ∧
        Follows interval (if m = k then k + 1 else k) log' records := by
      by_cases heq : m = k
      · subst heq
        obtain ⟨hok, hfollows⟩ := h.next hr hc hb
        exact ⟨_, Prod.ext hok rfl, by rw [if_pos rfl]; exact hfollows⟩
      · rw [if_neg heq]
        exact ⟨log, h.repeated hr (by omega), h⟩
    obtain ⟨log', happ, hfollows⟩ := hstored
    have hflushed : Follows interval (if m = k then k + 1 else k)
        (if request.durable then log'.syncData else log') records := by
      by_cases hdurable : request.durable = true
      · rw [if_pos hdurable]
        exact hfollows.syncData
      · rw [if_neg hdurable]
        exact hfollows
    simp only [happ]
    refine ⟨_, rfl, ?_, hflushed.nextOffset⟩
    rw [hflushed.nextOffset]
    exact hflushed

theorem Follows.bound (h : Follows interval k log records) : k ≤ U64_MAX := by
  have hnext := h.nextOffset
  obtain ⟨held, ⟨chunks, last, hrep, _⟩, _⟩ := h.refines
  have := hrep.bound
  omega

/-- Leader and follower agree on who leads. -/
structure SameLeader (leadership entry : PartitionLeadership) : Prop where
  epoch : entry.leaderEpoch = leadership.leaderEpoch
  leader : entry.leaderId = leadership.leaderId
  epochBound : leadership.leaderEpoch < 2 ^ 64
  leaderBound : leadership.leaderId < 2 ^ 32

/-- **One record sent to a follower**: it is acknowledged with the end of the log of the follower. -/
theorem Follows.exchange {cfg : ClusterConfig} {topic : String} {ackMode : AckMode}
    {leadership : PartitionLeadership} {f : FollowerState} {m : Nat} {r : Record}
    (h : Follows interval k f.log records) (hsame : SameLeader leadership f.entry)
    (htopic : Protocol.validateTopic topic = .ok ()) (hr : records[m]? = some r)
    (hc : checkRecord r = .ok ()) (hsend : Sendable r) (hb : m < U64_MAX) :
    ∃ f', sendToFollower cfg f (replicationRecord topic (fetched r m) ackMode leadership) =
        (.ok (if m = k then k + 1 else k), f') ∧ f'.entry = f.entry ∧
      Follows interval (if m = k then k + 1 else k) f'.log records := by
  let request := replicationRecord topic (fetched r m) ackMode leadership
  have henc := Protocol.encodeReplicateRecord_within (r := request) htopic hsend.keySize
    hsend.valueSize
  have hdec := Protocol.decode_encodeReplicateRecord henc []
  rw [List.append_nil] at hdec
  have hoffset : request.received.offset.toNat = m := by
    refine UInt64.toNat_ofNat_of_lt' (show m < 2 ^ 64 from ?_)
    simp only [U64_MAX] at hb
    omega
  have hrecord : Record.new request.received.key request.received.value
      request.received.timestampMs = plain r := hsend.replicated_eq
  obtain ⟨k', hres, hfollows, hk'⟩ := h.handle hr hc hb hoffset hrecord
  have hepoch : request.received.leaderEpoch.toNat = f.entry.leaderEpoch :=
    (UInt64.toNat_ofNat_of_lt' hsame.epochBound).trans hsame.epoch.symm
  have hleader : request.received.leaderId.toNat = f.entry.leaderId :=
    (UInt32.toNat_ofNat_of_lt' hsame.leaderBound).trans hsame.leader.symm
  have hhandle : handleReplication cfg f request.received =
      (.ok k', { f with log := (Broker.handleReplica f.log request.received).2 }) := by
    unfold handleReplication adoptEpoch
    rw [hepoch, hleader, if_neg (by omega), if_neg (Nat.lt_irrefl _)]
    simp only
    rw [show Broker.handleReplica f.log request.received =
      (.ok k', (Broker.handleReplica f.log request.received).2) from Prod.ext hres rfl]
  subst hk'
  obtain ⟨buffer, hack, hacked⟩ := Protocol.decode_encodeReplicateAck
    ⟨request.received.partition, .ofNat (if m = k then k + 1 else k)⟩
  have hdecoded := hacked []
  rw [List.append_nil] at hdecoded
  refine ⟨{ f with log := (Broker.handleReplica f.log request.received).2 }, ?_, rfl, hfollows⟩
  unfold sendToFollower
  rw [henc]
  simp only
  rw [hdec]
  simp only
  rw [hhandle]
  simp only
  rw [hack]
  simp only
  rw [hdecoded]
  simp only
  rw [if_neg (fun hne => hne rfl)]
  have hbound : (if m = k then k + 1 else k) < 2 ^ 64 := by
    have := hfollows.bound
    simp only [U64_MAX] at this
    omega
  rw [UInt64.toNat_ofNat_of_lt' hbound]

theorem recordAt_found (h : Refines interval log records) {m : Nat} {r : Record}
    (hr : records[m]? = some r) : recordAt log m = some (fetched r m) := by
  obtain ⟨chunks, last, hrep, rfl⟩ := h
  obtain ⟨stored, hread, hfind⟩ := hrep.find_stored hr
  unfold recordAt
  rw [show 16 * 1024 * 1024 = MAX_RECORD_SIZE from rfl, hread]
  simp only
  rw [List.find?_map, show ((fun x : FetchedRecord => decide (x.offset = m)) ∘
    fun s : StoredRecord => fetched s.toRecord s.offset) = fun s => decide (s.offset = m) from rfl,
    hfind]
  rfl

/-- The loop: every pass brings the follower one record further. -/
theorem Follows.sendMissing {cfg : ClusterConfig} {topic : String} {ackMode : AckMode}
    {leadership : PartitionLeadership} {leader : PartitionLog} (hl : Refines interval leader records)
    (hsend : ∀ r ∈ records, Sendable r) (htopic : Protocol.validateTopic topic = .ok ())
    (hn : n < records.length) : ∀ (fuel k : Nat) (f : FollowerState),
      Follows interval' k f.log records → SameLeader leadership f.entry → k ≤ n + 1 →
      n + 1 - k < fuel →
      ∃ f', Broker.sendMissing cfg topic leader ackMode leadership n fuel k f = some (.ok (), f') ∧
        f'.entry = f.entry ∧ Follows interval' (n + 1) f'.log records := by
  intro fuel
  have hbound : records.length ≤ U64_MAX := by
    rw [← hl.nextOffset]
    obtain ⟨chunks, last, hrep, _⟩ := hl
    exact hrep.bound
  have hchecked : ∀ r ∈ records, checkRecord r = .ok () := by
    obtain ⟨chunks, last, hrep, rfl⟩ := hl
    exact hrep.sequenced.checked
  induction fuel with
  | zero =>
    intro k f _ _ _ hfuel
    cases hfuel
  | succ fuel ih =>
    intro k f h hsame hk hfuel
    unfold Broker.sendMissing
    rcases Nat.lt_or_ge n k with hdone | hmore
    · rw [if_pos hdone]
      obtain rfl : k = n + 1 := by omega
      exact ⟨f, rfl, rfl, h⟩
    · have hr := List.getElem?_eq_getElem (show k < records.length by omega)
      have hmem := List.mem_of_getElem? hr
      obtain ⟨f', hex, hentry, hfollows⟩ := @Follows.exchange _ _ _ _ cfg topic ackMode leadership
        f k _ h hsame htopic hr (hchecked _ hmem) (hsend _ hmem) (by omega)
      rw [if_pos rfl] at hex hfollows
      rw [if_neg (Nat.not_lt.2 hmore), recordAt_found hl hr]
      simp only
      rw [hex]
      simp only
      obtain ⟨f'', hend, hentry', hall⟩ := ih (k + 1) f' hfollows (hentry ▸ hsame) (by omega)
        (by omega)
      exact ⟨f'', hend, hentry'.trans hentry, hall⟩

/-! ## What the logs hold -/

/-- All records of a log, as `read_records` returns them. -/
def fetchedAll (log : PartitionLog) : Except StorageError (List FetchedRecord) :=
  match log.read 0 USIZE_MAX with
  | .error e => .error e
  | .ok stored => .ok (stored.map fun s => fetched s.toRecord s.offset)

theorem fetchedAll_eq (h : Refines interval log records) :
    fetchedAll log = .ok (fetchedFrom 0 records) := by
  rw [fetchedAll, h.read_all]
  rfl

theorem Follows.fetchedAll_eq (h : Follows interval k log records) :
    fetchedAll log = .ok (fetchedFrom 0 (records.take k)) := by
  obtain ⟨held, hrefines, hheld⟩ := h.refines
  rw [Broker.fetchedAll_eq hrefines, fetchedFrom_plain, hheld, ← fetchedFrom_plain]

theorem logSizeBytes_eq (h : Refines interval log records) :
    log.logSizeBytes = totalSize records := by
  obtain ⟨chunks, last, hrep, rfl⟩ := h
  exact hrep.logSizeBytes

/-- A follower that holds the first of the leader's records follows it. -/
theorem follows_of_prefix {follower : PartitionLog} {held : RecordLog}
    (hl : Refines interval log records) (hf : Refines interval' follower held)
    (hinitial : fetchedFrom 0 held <+: (fetchedFrom 0 records).take k)
    (hk : k ≤ records.length) (hroom : RoomFor follower log.logSizeBytes) :
    ∃ j ≤ k, Follows interval' j follower records := by
  have hplain := hinitial.map FetchedRecord.toRecord
  rw [fetchedFrom_take, fetchedFrom_toRecord, fetchedFrom_toRecord] at hplain
  have hlen := hplain.length_le
  rw [List.length_map, List.length_map, List.length_take_of_le hk] at hlen
  refine ⟨held.length, hlen, ⟨held, hf, ?_⟩, Nat.le_trans hlen hk, hroom.mono ?_⟩
  · rw [List.prefix_iff_eq_take.1 hplain, List.length_map, ← List.map_take, List.take_take,
      Nat.min_eq_left hlen]
  · rw [logSizeBytes_eq hl]
    exact totalSize_drop_le records held.length

/-- **Push catch-up is correct and terminates.**  The leader's log is one that requests have made,
without retention; the follower's one holds a prefix of the records 0 to `n` of the leader, and has
room for the other ones.  `replicate_to_follower` for record `n` ends with `Ok` after at most `n + 2`
passes, and the follower's log then holds the records 0 to `n`. -/
theorem push_catches_up {cfg : ClusterConfig} {topic : String}
    {maxSegmentBytes maxSegmentBytes' interval interval' n : Nat}
    {leader₀ leader follower₀ follower : PartitionLog} {ops ops' : List Operation}
    {records held : List FetchedRecord} {leadership entry : PartitionLeadership}
    (h₀ : PartitionLog.openLog Dir.empty topic maxSegmentBytes interval = .ok leader₀)
    (hops : ∀ op ∈ ops, Requested op) (hfew : Along PartitionLog.step Countable leader₀ ops)
    (hr : run PartitionLog.step leader₀ ops = some leader)
    (h₀' : PartitionLog.openLog Dir.empty topic maxSegmentBytes' interval' = .ok follower₀)
    (hops' : ∀ op ∈ ops', op.retains = false)
    (hfew' : Along PartitionLog.step Countable follower₀ ops')
    (hr' : run PartitionLog.step follower₀ ops' = some follower)
    (hleader : fetchedAll leader = .ok records) (hn : n < leader.nextOffset)
    (hfollower : fetchedAll follower = .ok held) (hinitial : held <+: records.take (n + 1))
    (hroom : RoomFor follower leader.logSizeBytes) (hsame : SameLeader leadership entry)
    (htopic : Protocol.validateTopic topic = .ok ()) (ackMode : AckMode) :
    ∃ record, records[n]? = some record ∧ record.offset = n ∧ ∀ fuel, n + 2 ≤ fuel →
      ∃ log', replicateToFollower cfg topic leader ackMode leadership record fuel
          ⟨follower, entry⟩ = some (.ok (), ⟨log', entry⟩) ∧
        fetchedAll log' = .ok (records.take (n + 1)) ∧
        (records.take (n + 1)).map (·.offset) = List.range (n + 1) := by
  have hl : Refines interval leader (ops.foldl RecordLog.step []) :=
    Refines.of_run ⟨[], [], openLog_empty h₀, rfl⟩ (fun op hop => (hops op hop).retains) hfew hr
  have hf : Refines interval' follower (ops'.foldl RecordLog.step []) :=
    Refines.of_run ⟨[], [], openLog_empty h₀', rfl⟩ hops' hfew' hr'
  have hsend := @sendable_run _ hops [] fun r hr => absurd hr List.not_mem_nil
  generalize ops.foldl RecordLog.step [] = stored at hl hsend
  rw [fetchedAll_eq hl] at hleader
  rw [fetchedAll_eq hf] at hfollower
  cases hleader
  cases hfollower
  rw [hl.nextOffset] at hn
  obtain ⟨j, hj, hfollows⟩ := follows_of_prefix hl hf hinitial hn hroom
  obtain ⟨hchecked, hbound⟩ : (∀ r ∈ stored, checkRecord r = .ok ()) ∧ stored.length ≤ U64_MAX := by
    rw [← hl.nextOffset]
    obtain ⟨chunks, last, hrep, rfl⟩ := hl
    exact ⟨hrep.sequenced.checked, hrep.bound⟩
  have hget := List.getElem?_eq_getElem hn
  have hmem := List.mem_of_getElem? hget
  refine ⟨fetched (stored[n]) n, ?_, rfl, fun fuel hfuel => ?_⟩
  · rw [fetchedFrom_getElem?, hget, Nat.zero_add]
    rfl
  -- the first send finds out where the follower stands
  obtain ⟨f, hex, hentry, hfollows'⟩ := @Follows.exchange _ _ _ _ cfg topic ackMode leadership
    ⟨follower, entry⟩ n _ hfollows hsame htopic hget (hchecked _ hmem) (hsend _ hmem) (by omega)
  have hk : (if n = j then j + 1 else j) ≤ n + 1 := by
    split <;> omega
  generalize (if n = j then j + 1 else j) = j' at hex hfollows' hk
  have hack : ¬ min (n + 1) U64_MAX < j' := by
    have := hfollows'.bound
    omega
  obtain ⟨f', hend, hentry', hall⟩ := @Follows.sendMissing _ interval interval' n stored cfg topic
    ackMode leadership leader hl hsend htopic hn fuel j' f hfollows' (hentry ▸ hsame) hk (by omega)
  refine ⟨f'.log, ?_, ?_, ?_⟩
  · unfold replicateToFollower
    rw [hex]
    simp only
    rw [show (fetched stored[n] n).offset = n from rfl, if_neg hack, hend,
      ← show f'.entry = entry from hentry'.trans hentry]
  · rw [hall.fetchedAll_eq, fetchedFrom_take]
  · rw [fetchedFrom_take, fetchedFrom_offsets, List.length_take_of_le hn, List.range_eq_range']

end Push

/-- Three records, the second one of a producer. -/
def leaderRun : List Operation :=
  [.append (requestedRecord [] (utf8 "zero") none 1),
    .append (requestedRecord (utf8 "k") (utf8 "one") (some ⟨"p", 0⟩) 2), .syncData,
    .append (requestedRecord (utf8 "k") (utf8 "two") none 3)]

theorem leaderRun_requested : ∀ op ∈ leaderRun, Requested op := by
  intro op hop
  simp only [leaderRun, List.mem_cons, List.not_mem_nil, or_false] at hop
  rcases hop with rfl | rfl | rfl | rfl
  · exact .produce ⟨"payments", [], utf8 "zero", .leader, none, none, by decide +kernel⟩ 1
  · exact .produce ⟨"payments", utf8 "k", utf8 "one", .leader, some ⟨"p", 0⟩, none,
      by decide +kernel⟩ 2
  · exact .sync
  · exact .produce ⟨"payments", utf8 "k", utf8 "two", .leader, none, none, by decide +kernel⟩ 3

theorem push_catches_up_three :
    letI := Checksum.crc32
    ∃ leader₀ leader records record log', PartitionLog.openLog Dir.empty "payments" 60 64 =
        .ok leader₀ ∧
      run PartitionLog.step leader₀ leaderRun = some leader ∧ fetchedAll leader = .ok records ∧
      records.length = 3 ∧ records[2]? = some record ∧
      replicateToFollower threeNodes "payments" leader .durable ⟨0, 1, 4, 0⟩ record 4
        ⟨leader₀, ⟨0, 1, 4, 0⟩⟩ = some (.ok (), ⟨log', ⟨0, 1, 4, 0⟩⟩) ∧
      fetchedAll log' = .ok records := by
  let _ := Checksum.crc32
  have hrun : (run PartitionLog.step ⟨0, 60, 64, [.new 0], .empty⟩ leaderRun).any (fun leader =>
      decide (leader.nextOffset = 3 ∧ leader.logSizeBytes ≤ 1000) &&
        (fetchedAll leader).toOption.any (·.length = 3)) := by decide +kernel
  obtain ⟨leader, hr, hleader⟩ := (Option.any_eq_true _ _).1 hrun
  rw [Bool.and_eq_true_iff, decide_eq_true_eq] at hleader
  obtain ⟨⟨hnext, hsize⟩, hlen⟩ := hleader
  cases hall : fetchedAll leader with
  | error e =>
    rw [hall] at hlen
    cases hlen
  | ok records =>
    rw [hall] at hlen
    have hthree : records.length = 3 := of_decide_eq_true hlen
    have hfew : Along PartitionLog.step Countable ⟨0, 60, 64, [.new 0], .empty⟩ leaderRun := by
      decide +kernel
    have hroom : RoomFor ⟨0, 60, 64, [.new 0], .empty⟩ leader.logSizeBytes := by
      intro s hs
      obtain rfl : SegmentMetadata.new 0 = s := Option.some.inj hs
      simp only [SegmentMetadata.new, File.empty, List.length_nil, MAX_FILE_SIZE]
      omega
    obtain ⟨record, hrecord, _, hpush⟩ := @push_catches_up _ threeNodes "payments" 60 60 64 64 2 _
      leader _ _ leaderRun [] records [] ⟨0, 1, 4, 0⟩ ⟨0, 1, 4, 0⟩ rfl leaderRun_requested hfew hr rfl
      (fun op hop => absurd hop List.not_mem_nil) trivial rfl hall (by omega) (by decide +kernel)
      List.nil_prefix hroom ⟨rfl, rfl, by decide, by decide⟩ (by decide +kernel) .durable
    obtain ⟨log', hend, hheld, _⟩ := hpush 4 (by decide)
    refine ⟨_, leader, records, record, log', rfl, hr, hall, hthree, hrecord, hend, ?_⟩
    rw [hheld, List.take_of_length_le (by omega)]

end SevlaMq.Broker
