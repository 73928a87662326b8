import SevlaMq.Cluster.Model
import SevlaMq.Protocol.Replicate
import SevlaMq.Storage.Producers

/-!
# Producer deduplication on a replica

What a follower knows about producers once it holds the leader's records.  The path of a record is
followed from log to log: `record_at` on the leader, `replication_record`, the wire codec,
`handle_replication_connection` with `append_replica` on the follower.

* `Replicas.step` — the leader appends a record or sends one to the follower; any order, any number
  of repetitions.
* `Mirrors` — the follower holds the first of the leader's records, each without its producer.
* `deduplicates_iff` — a follower that holds all records treats a producer as the leader does if and
  only if the leader holds no record of that producer.
-/

set_option autoImplicit false

namespace SevlaMq.Broker

open SevlaMq.Storage SevlaMq.Cluster
open SevlaMq.Protocol (nonEmpty encodeReplicateRecord decodeReplicateRecord
  decode_encodeReplicateRecord)

/-! ## The path of a record -/

/-- `replication_record`. -/
def replicationRecord (topic : String) (record : FetchedRecord) (ackMode : AckMode)
    (leadership : PartitionLeadership) : Protocol.ReplicateRecord where
  topic := topic
  partition := .ofNat leadership.partition
  offset := .ofNat record.offset
  timestampMs := record.timestampMs
  key := record.key
  value := record.value
  durable := ackMode = .durable
  leaderId := .ofNat leadership.leaderId
  leaderEpoch := .ofNat leadership.leaderEpoch

/-- The bytes `send_replica` writes, as the follower decodes them. -/
def sendReplica (request : Protocol.ReplicateRecord) : Option Protocol.ReplicateRecord :=
  match encodeReplicateRecord request [] with
  | (.error _, _) => none
  | (.ok (), buffer) =>
    match decodeReplicateRecord buffer with
    | .ok (some (record, _)) => some record
    | _ => none

/-- The record as the follower stores it. -/
def replicated (r : Record) : Record := Record.new (nonEmpty (r.key.getD [])) r.value r.timestampMs

/-- The codec passes on everything a request has, an empty key as none. -/
theorem sendReplica_eq {request request' : Protocol.ReplicateRecord}
    (h : sendReplica request = some request') : request' = request.received := by
  unfold sendReplica at h
  split at h
  · cases h
  · rename_i buffer henc
    have hdec := decode_encodeReplicateRecord henc []
    rw [List.append_nil] at hdec
    rw [hdec] at h
    cases h
    rfl

theorem step_append (records : RecordLog) (r : Record) :
    RecordLog.step records (.append r) = records ∨
      RecordLog.step records (.append r) = records ++ [r] := by
  simp only [RecordLog.step]
  split
  · rename_i o log happ
    rcases RecordLog.append_cases happ with rfl | ⟨_, rfl⟩
    · exact Or.inl rfl
    · exact Or.inr rfl
  · exact Or.inl rfl

/-- Storing a record the follower has, or the next one. -/
theorem step_replicated {records : RecordLog} {n : Nat} {r : Record} {offset : Nat} (hr : records[offset]? = some r)
    (hn : n ≤ records.length) :
    ∃ n', n' ≤ records.length ∧
      RecordLog.step ((records.take n).map replicated) (.appendReplica offset (replicated r)) =
        (records.take n').map replicated := by
  have hlen : ((records.take n).map replicated).length = n := by
    rw [List.length_map, List.length_take, Nat.min_eq_left hn]
  simp only [RecordLog.step]
  split
  · rename_i o log happ
    rcases RecordLog.appendReplica_cases rfl happ with ⟨rfl, _⟩ | ⟨heq, rfl⟩
    · exact ⟨n, hn, rfl⟩
    · rw [hlen] at heq
      subst heq
      refine ⟨offset + 1, (List.getElem?_eq_some_iff.1 hr).1, ?_⟩
      rw [List.take_add_one, hr, List.map_append]
      rfl
  · exact ⟨n, hn, rfl⟩

theorem storedFrom_map (f : Record → Record) (base : Nat) (rs : List Record) :
    storedFrom base (rs.map f) = (storedFrom base rs).map fun x => (f x.toRecord).at x.offset := by
  induction rs generalizing base with
  | nil => rfl
  | cons r rs ih => simp [storedFrom, ih]

/-- A log whose records have no producers knows no producer. -/
theorem producerState_replicated (records : RecordLog) :
    RecordLog.producerState (records.map replicated) = ProducerTable.empty := by
  have h : ∀ (t : ProducerTable) (offset : Nat), t.storeAll offset (records.map replicated) = t := by
    induction records with
    | nil =>
      intro t offset
      rfl
    | cons r records ih =>
      intro t offset
      exact ih t (offset + 1)
  exact h .empty 0

theorem makeRoom_nextOffset {log log' : PartitionLog} {len : Nat}
    (h : log.makeRoom len = .ok log') : log'.nextOffset = log.nextOffset := by
  unfold PartitionLog.makeRoom at h
  split at h
  · cases h
  · split at h
    · rcases log.rotate_cases with ⟨_, herr⟩ | ⟨_, hok⟩
      · rw [herr] at h
        cases h
      · rw [hok] at h
        cases h
        rfl
    · cases h
      rfl

theorem store_nextOffset {log : PartitionLog} {r : Record} {encoded : Bytes} {o : Nat}
    (h : (log.store r encoded).1 = .ok o) :
    o = log.nextOffset ∧ log.nextOffset < U64_MAX ∧
      (log.store r encoded).2.nextOffset = log.nextOffset + 1 := by
  unfold PartitionLog.store at h ⊢
  split at h
  · cases h
  · rename_i active hactive
    split at h
    · cases h
    · rename_i written hwritten
      simp only at h
      split at h
      · cases h
      · rename_i hmax
        cases h
        rw [if_neg hmax]
        refine ⟨rfl, ?_, rfl⟩
        simp only [PartitionLog.setActive] at hmax
        omega

/-- The decision on a record looks at the entry of its producer only. -/
theorem admission_congr {t t' : ProducerTable} {r : Record} {p : ProducerIdentity}
    (hp : r.producer = some p) (ht : t p.id = t' p.id) : admission t r = admission t' r := by
  unfold admission
  simp only [hp, ht]

/-- A repetition is found in the table. -/
theorem admission_some {t : ProducerTable} {r : Record} {p : ProducerIdentity} {offset : Nat}
    (hp : r.producer = some p) (h : admission t r = .ok (some offset)) :
    t p.id = some (p.sequence, offset) := by
  unfold admission at h
  simp only [hp] at h
  split at h
  · cases h
  · split at h
    · rename_i sequence o ht
      split at h
      · rename_i heq
        cases h
        rw [ht, heq]
      · split at h <;> cases h
    · split at h <;> cases h

/-- A stored producer id is a valid one. -/
theorem producedBy_valid {records : RecordLog} {id : String}
    (hc : ∀ r ∈ records, checkRecord r = .ok ()) (h : producedBy id (storedFrom 0 records) ≠ []) :
    validateProducerId id = .ok () := by
  obtain ⟨x, hx⟩ := List.exists_mem_of_ne_nil _ h
  obtain ⟨y, hy, hseq⟩ := List.mem_filterMap.1 hx
  obtain ⟨i, hi⟩ := List.mem_iff_getElem?.1 hy
  rw [storedFrom_getElem?] at hi
  obtain ⟨r, hr, rfl⟩ := Option.map_eq_some_iff.1 hi
  obtain ⟨_, p, hp, rfl, _⟩ := store_self (t := .empty) hseq
  have hvalid := (checkRecord_ok (hc r (List.mem_of_getElem? hr))).2
  unfold validateProducer at hvalid
  rw [hp] at hvalid
  exact hvalid

section Path

variable [Checksum]

/-- `StorageHandle::record_at`: a read of 16 MiB, searched for the offset. -/
def recordAt (log : PartitionLog) (offset : Nat) : Option FetchedRecord :=
  match log.read offset (16 * 1024 * 1024) with
  | .error _ => none
  | .ok records => (records.map fun s => fetched s.toRecord s.offset).find? (·.offset = offset)

/-- `append_replica` on the log of the partition. -/
def appendReplica (log : PartitionLog) (replicated : Protocol.ReplicateRecord) :
    Except StorageError Nat × PartitionLog :=
  let record := Record.new replicated.key replicated.value replicated.timestampMs
  match log.appendReplica replicated.offset.toNat record with
  | (.error e, log) => (.error e, log)
  | (.ok _, log) =>
    let log := if replicated.durable then log.syncData else log
    (.ok log.nextOffset, log)

/-- The end of `handle_replication_connection`: a record beyond the log end is not stored. -/
def handleReplica (log : PartitionLog) (record : Protocol.ReplicateRecord) :
    Except StorageError Nat × PartitionLog :=
  if log.nextOffset < record.offset.toNat then (.ok log.nextOffset, log)
  else appendReplica log record

/-! ## Leader and follower -/

structure Replicas where
  leader : PartitionLog
  follower : PartitionLog

inductive Transfer where
  | append (record : Record)
  | replicate (offset : Nat) (ackMode : AckMode) (leadership : PartitionLeadership)

/-- One step of the pair, of a partition of `topic`.  A refused append and a record that does not
get through leave both logs alone; a failed file operation is no step. -/
def Replicas.step (topic : String) (s : Replicas) : Transfer → Option Replicas
  | .append record => (s.leader.step (.append record)).map fun leader => { s with leader }
  | .replicate offset ackMode leadership =>
    match recordAt s.leader offset with
    | none => some s
    | some record =>
      match sendReplica (replicationRecord topic record ackMode leadership) with
      | none => some s
      | some request =>
        match handleReplica s.follower request with
        | (.error .io, _) => none
        | (_, follower) => some { s with follower }

/-- The leader has room for one more offset. -/
def TransferCountable (s : Replicas) (_ : Transfer) : Prop := s.leader.nextOffset < U64_MAX

instance (s : Replicas) (t : Transfer) : Decidable (TransferCountable s t) :=
  inferInstanceAs (Decidable (s.leader.nextOffset < U64_MAX))

/-- An append of the producer on the follower ends as it does on the leader: a sequence the leader
takes for a repetition is answered with the same offset and stores nothing, and a sequence the
leader stores is stored. -/
structure Deduplicates (s : Replicas) (id : String) : Prop where
  repeated : ∀ r sequence offset, r.producer = some ⟨id, sequence⟩ →
    s.leader.append r = (.ok offset, s.leader) → s.follower.append r = (.ok offset, s.follower)
  next : ∀ r sequence, r.producer = some ⟨id, sequence⟩ →
    (s.leader.append r).1 = .ok s.leader.nextOffset → (s.follower.append r).1 ≠ .error .io →
    (s.follower.append r).1 = .ok s.follower.nextOffset

/-- The leader holds no record of the producer. -/
def Unknown (s : Replicas) (id : String) : Prop :=
  ∃ stored, s.leader.read 0 USIZE_MAX = .ok stored ∧ producedBy id stored = []

/-- The follower holds what the leader holds, record by record as it arrived. -/
def Copied (s : Replicas) : Prop :=
  ∃ stored, s.leader.read 0 USIZE_MAX = .ok stored ∧
    s.follower.read 0 USIZE_MAX = .ok (stored.map fun x => (replicated x.toRecord).at x.offset)

/-! ## What arrives -/

variable {interval interval' n : Nat} {s s' : Replicas} {records : RecordLog}

theorem recordAt_refines {log : PartitionLog} (h : Refines interval log records) {offset : Nat}
    {f : FetchedRecord} (hf : Broker.recordAt log offset = some f) :
    ∃ r, records[offset]? = some r ∧ f = fetched r offset := by
  unfold Broker.recordAt at hf
  rw [h.read, RecordLog.read, if_neg (by decide)] at hf
  have hmem := List.mem_of_find?_eq_some hf
  have hoffset := List.find?_some hf
  simp only [decide_eq_true_eq] at hoffset
  obtain ⟨x, hx, rfl⟩ := List.mem_map.1 hmem
  have hsub := (takeBudget_isPrefix _ _).subset hx
  obtain ⟨i, hi⟩ := List.mem_iff_getElem?.1 (List.mem_of_mem_drop hsub)
  rw [storedFrom_getElem?, Nat.zero_add] at hi
  obtain ⟨r, hr, rfl⟩ := Option.map_eq_some_iff.1 hi
  have hio : i = offset := hoffset
  subst hio
  exact ⟨r, hr, rfl⟩

/-! ## Runs -/

/-- The follower holds the first `n` of the leader's records. -/
structure Mirrors (interval interval' n : Nat) (s : Replicas) (records : RecordLog) : Prop where
  leader : Refines interval s.leader records
  follower : Refines interval' s.follower ((records.take n).map replicated)
  within : n ≤ records.length

theorem Mirrors.followerNext (h : Mirrors interval interval' n s records) :
    s.follower.nextOffset = n := by
  rw [h.follower.nextOffset, List.length_map, List.length_take, Nat.min_eq_left h.within]

theorem Mirrors.append (h : Mirrors interval interval' n s records) {r : Record}
    {leader : PartitionLog} (hb : s.leader.nextOffset < U64_MAX)
    (hs : s.leader.step (.append r) = some leader) :
    ∃ records', Mirrors interval interval' n { s with leader } records' := by
  obtain ⟨chunks, last, hrep, hhist⟩ := h.leader
  obtain ⟨removed', chunks', last', hrep', hkeep⟩ := hrep.step hb (fun hno => by cases hno) hs
  obtain ⟨rfl, hhist'⟩ := hkeep rfl
  rw [hhist] at hhist'
  refine ⟨_, ⟨chunks', last', hrep', hhist'⟩, ?_, ?_⟩
  · -- the records the follower holds stay where they are
    have htake : (RecordLog.step records (.append r)).take n = records.take n := by
      rcases step_append records r with heq | heq
      · rw [heq]
      · rw [heq]
        exact List.take_append_of_le_length h.within
    rw [htake]
    exact h.follower
  · rcases step_append records r with heq | heq
    · rw [heq]
      exact h.within
    · rw [heq, List.length_append]
      exact Nat.le_add_right_of_le h.within

theorem Mirrors.appendReplica (h : Mirrors interval interval' n s records)
    (hb : s.leader.nextOffset < U64_MAX) {r : Record} {request : Protocol.ReplicateRecord}
    (hr : records[request.offset.toNat]? = some r)
    (hrequest : Record.new request.key request.value request.timestampMs = replicated r)
    (hio : (Broker.appendReplica s.follower request).1 ≠ .error .io) :
    ∃ n', Mirrors interval interval' n'
      { s with follower := (Broker.appendReplica s.follower request).2 } records := by
  have hlt : s.follower.nextOffset < U64_MAX := by
    have hwithin := h.within
    rw [h.leader.nextOffset] at hb
    rw [h.followerNext]
    omega
  obtain ⟨chunks, last, hrep, hhist⟩ := h.follower
  obtain ⟨n', hn', hstep⟩ := step_replicated hr h.within
  have hcode := @Rep.appendReplica_step _ _ _ _ _ _ hrep request.offset.toNat (replicated r) hlt
  rw [hhist, hstep] at hcode
  simp only [Broker.appendReplica, hrequest] at hio ⊢
  rcases hx : s.follower.appendReplica request.offset.toNat (replicated r) with ⟨_ | _, log⟩
  · rename_i e
    rw [hx] at hcode
    simp only [hx] at hio ⊢
    obtain ⟨chunks', last', hhist', hrep'⟩ := hcode (fun he => hio (by cases he; rfl))
    exact ⟨n', h.leader, ⟨chunks', last', hrep', hhist'⟩, hn'⟩
  · rename_i o
    rw [hx] at hcode
    simp only [hx] at hio ⊢
    obtain ⟨chunks', last', hhist', hrep'⟩ := hcode (fun he => by cases he)
    refine ⟨n', h.leader, ?_, hn'⟩
    split
    · exact ⟨chunks', last', hrep'.syncData, hhist'⟩
    · exact ⟨chunks', last', hrep', hhist'⟩

theorem Mirrors.handleReplica (h : Mirrors interval interval' n s records)
    (hb : s.leader.nextOffset < U64_MAX) {r : Record} {request : Protocol.ReplicateRecord}
    (hr : records[request.offset.toNat]? = some r)
    (hrequest : Record.new request.key request.value request.timestampMs = replicated r)
    (hio : (Broker.handleReplica s.follower request).1 ≠ .error .io) :
    ∃ n', Mirrors interval interval' n'
      { s with follower := (Broker.handleReplica s.follower request).2 } records := by
  unfold Broker.handleReplica at hio ⊢
  split at hio
  · rename_i hbeyond
    rw [if_pos hbeyond]
    exact ⟨n, h⟩
  · rename_i hwithin
    rw [if_neg hwithin]
    exact h.appendReplica hb hr hrequest hio

theorem Mirrors.step {topic : String} {t : Transfer} (h : Mirrors interval interval' n s records)
    (hb : TransferCountable s t) (hs : s.step topic t = some s') :
    ∃ n' records', Mirrors interval interval' n' s' records' := by
  cases t with
  | append r =>
    obtain ⟨leader, hstep, rfl⟩ := Option.map_eq_some_iff.1 hs
    obtain ⟨records', h'⟩ := h.append hb hstep
    exact ⟨n, records', h'⟩
  | replicate offset ackMode leadership =>
    simp only [Replicas.step] at hs
    split at hs
    · cases hs
      exact ⟨n, records, h⟩
    · rename_i f hf
      obtain ⟨r, hr, rfl⟩ := recordAt_refines h.leader hf
      split at hs
      · cases hs
        exact ⟨n, records, h⟩
      · rename_i request hsend
        obtain rfl := sendReplica_eq hsend
        have hoffset : (replicationRecord topic (fetched r offset) ackMode
            leadership).received.offset.toNat = offset := by
          have hlt := (List.getElem?_eq_some_iff.1 hr).1
          have hnext := h.leader.nextOffset
          have hbound : offset < 2 ^ 64 := by
            simp only [TransferCountable, U64_MAX] at hb
            omega
          exact UInt64.toNat_ofNat_of_lt' hbound
        rcases hx : Broker.handleReplica s.follower (replicationRecord topic (fetched r offset) ackMode
            leadership).received with ⟨res, follower⟩
        have hstored := h.handleReplica hb (hoffset.symm ▸ hr) rfl
        rw [hx] at hs hstored
        split at hs
        · cases hs
        · rename_i hne heq
          cases heq
          cases hs
          obtain ⟨n', h'⟩ := hstored (fun he => hne he)
          exact ⟨n', records, h'⟩

theorem mirrors_run {topic : String} {maxSegmentBytes maxSegmentBytes' : Nat}
    {leader₀ follower₀ : PartitionLog} {ts : List Transfer}
    (h₀ : PartitionLog.openLog Dir.empty topic maxSegmentBytes interval = .ok leader₀)
    (h₀' : PartitionLog.openLog Dir.empty topic maxSegmentBytes' interval' = .ok follower₀)
    (hfew : Along (Replicas.step topic) TransferCountable ⟨leader₀, follower₀⟩ ts)
    (hr : run (Replicas.step topic) ⟨leader₀, follower₀⟩ ts = some s) :
    ∃ n records, Mirrors interval interval' n s records := by
  have hnew : ∃ n records, Mirrors interval interval' n ⟨leader₀, follower₀⟩ records :=
    ⟨0, [], ⟨[], [], openLog_empty h₀, rfl⟩, ⟨[], [], openLog_empty h₀', rfl⟩, Nat.le_refl 0⟩
  exact run_invariant (P := fun s => ∃ n records, Mirrors interval interval' n s records)
    (fun s t s' hp hq hs => by
      obtain ⟨n, records, h⟩ := hp
      exact h.step hq hs) hnew hfew hr

/-! ## Deduplication -/

/-- A record that is not a repetition is stored at the end of the log, if at all. -/
theorem append_end {log : PartitionLog} {r : Record} {o : Nat}
    (ha : admission log.producerState r = .ok none) (h : (log.append r).1 = .ok o) :
    checkRecord r = .ok () ∧ o = log.nextOffset ∧ log.nextOffset < U64_MAX ∧
      (log.append r).2.nextOffset = log.nextOffset + 1 := by
  simp only [PartitionLog.append, ha, encodeRecord] at h ⊢
  cases hc : checkRecord r with
  | error e =>
    simp only [hc] at h
    cases h
  | ok _ =>
    simp only [hc] at h ⊢
    split at h
    · cases h
    · rename_i log' hroom
      obtain ⟨ho, hlt, hmore⟩ := store_nextOffset h
      rw [makeRoom_nextOffset hroom] at ho hlt hmore
      exact ⟨trivial, ho, hlt, hmore⟩

/-- A log that stores nothing took the record for a repetition. -/
theorem append_same {log : PartitionLog} {r : Record} {o : Nat} (h : log.append r = (.ok o, log)) :
    admission log.producerState r = .ok (some o) := by
  cases ha : admission log.producerState r with
  | error e =>
    simp only [PartitionLog.append, ha] at h
    cases h
  | ok x =>
    cases x with
    | some offset =>
      simp only [PartitionLog.append, ha] at h
      cases h
      rfl
    | none =>
      have hmore := (append_end ha (congrArg Prod.fst h)).2.2.2
      rw [h] at hmore
      simp only at hmore
      omega

section Failover

variable {leader follower : PartitionLog} {id : String}

theorem table_refines (h : Refines interval leader records) (id : String) :
    leader.producerState id = (producedBy id (storedFrom 0 records)).getLast? := by
  rw [h.producerState]
  obtain ⟨chunks, last, hrep, rfl⟩ := h
  exact (producerState_spec hrep.sequenced id).2

theorem table_replicated (h : Refines interval follower (records.map replicated))
    (id : String) : follower.producerState id = none := by
  rw [h.producerState, producerState_replicated]
  rfl

/-- The last record of a producer would be answered with its offset, which the follower does not
know. -/
theorem unknown_of_deduplicates (h : Refines interval leader records)
    (hf : Refines interval' follower (records.map replicated))
    (hded : Deduplicates ⟨leader, follower⟩ id) : producedBy id (storedFrom 0 records) = [] := by
  by_contra hne
  have hid : validateProducerId id = .ok () := by
    obtain ⟨chunks, last, hrep, rfl⟩ := h
    exact producedBy_valid hrep.sequenced.checked hne
  have htable := table_refines h id
  rw [List.getLast?_eq_some_getLast hne] at htable
  let r : Record := ⟨none, [], 0, some ⟨id, ((producedBy id (storedFrom 0 records)).getLast hne).1⟩⟩
  have hleader : leader.append r =
      (.ok ((producedBy id (storedFrom 0 records)).getLast hne).2, leader) := by
    have ha : admission leader.producerState r =
        .ok (some ((producedBy id (storedFrom 0 records)).getLast hne).2) := by
      simp only [admission, r, hid, htable, if_pos]
    simp only [PartitionLog.append, ha]
  have hfollower := admission_some rfl (append_same (hded.repeated r _ _ rfl hleader))
  rw [table_replicated hf] at hfollower
  cases hfollower

theorem deduplicates_of_unknown (h : Refines interval leader records)
    (hf : Refines interval' follower (records.map replicated))
    (hnone : producedBy id (storedFrom 0 records) = []) : Deduplicates ⟨leader, follower⟩ id := by
  have htable := table_refines h id
  rw [hnone, List.getLast?_nil] at htable
  refine ⟨?_, ?_⟩
  · intro r sequence offset hp happ
    have hfound := admission_some hp (append_same happ)
    rw [htable] at hfound
    cases hfound
  · intro r sequence hp hok hio
    have hsame : admission follower.producerState r = admission leader.producerState r :=
      admission_congr hp (by rw [htable, table_replicated hf])
    have ha : admission leader.producerState r = .ok none := by
      cases ha : admission leader.producerState r with
      | error e =>
        simp only [PartitionLog.append, ha] at hok
        cases hok
      | ok x =>
        cases x with
        | none => rfl
        | some offset =>
          have hfound := admission_some hp ha
          rw [htable] at hfound
          cases hfound
    obtain ⟨hc, _, hroom, _⟩ := append_end ha hok
    have hnext : follower.nextOffset = leader.nextOffset := by
      rw [h.nextOffset, hf.nextOffset, List.length_map]
    obtain ⟨chunks, last, hrep, _⟩ := hf
    exact (hrep.append_stored (hsame.trans ha) hc (hnext ▸ hroom) hio).1

end Failover

/-- **Deduplication after a failover.**  A follower that received all records of the leader holds
each of them as it arrived; it treats a producer as the leader does if and only if the leader holds
no record of the producer. -/
theorem deduplicates_iff {topic : String} {maxSegmentBytes maxSegmentBytes' interval interval' : Nat}
    {leader₀ follower₀ : PartitionLog} {ts : List Transfer} {s : Replicas}
    (h₀ : PartitionLog.openLog Dir.empty topic maxSegmentBytes interval = .ok leader₀)
    (h₀' : PartitionLog.openLog Dir.empty topic maxSegmentBytes' interval' = .ok follower₀)
    (hfew : Along (Replicas.step topic) TransferCountable ⟨leader₀, follower₀⟩ ts)
    (hr : run (Replicas.step topic) ⟨leader₀, follower₀⟩ ts = some s)
    (hall : s.follower.nextOffset = s.leader.nextOffset) (id : String) :
    Copied s ∧ (Deduplicates s id ↔ Unknown s id) := by
  obtain ⟨n, records, h⟩ := mirrors_run h₀ h₀' hfew hr
  have hn : n = records.length := by
    rw [h.followerNext, h.leader.nextOffset] at hall
    exact hall
  subst hn
  have hfollower := h.follower
  rw [List.take_length] at hfollower
  refine ⟨⟨_, h.leader.read_all, ?_⟩, ?_, ?_⟩
  · rw [hfollower.read_all, storedFrom_map]
  · intro hded
    exact ⟨_, h.leader.read_all, unknown_of_deduplicates h.leader hfollower hded⟩
  · rintro ⟨stored, hread, hnone⟩
    rw [h.leader.read_all] at hread
    cases hread
    exact deduplicates_of_unknown h.leader hfollower hnone

end Path

/-- Two records reach the follower, the first of them sent by a producer. -/
def failoverRun : List Transfer :=
  [.append ⟨some (utf8 "k"), utf8 "paid", 1, some ⟨"p", 0⟩⟩, .replicate 0 .durable ⟨0, 1, 0, 0⟩,
    .append ⟨none, utf8 "other", 2, none⟩, .replicate 1 .durable ⟨0, 1, 0, 1⟩,
    .replicate 0 .leader ⟨0, 1, 0, 2⟩]

/-- The producer that repeats its record after the failover. -/
def failoverRetry : Record := ⟨some (utf8 "k"), utf8 "paid", 3, some ⟨"p", 0⟩⟩

theorem deduplicates_iff_failover :
    letI := Checksum.crc32
    ∃ leader₀ follower₀ s, PartitionLog.openLog Dir.empty "payments" 1024 64 = .ok leader₀ ∧
      PartitionLog.openLog Dir.empty "payments" 1024 64 = .ok follower₀ ∧
      run (Replicas.step "payments") ⟨leader₀, follower₀⟩ failoverRun = some s ∧
      s.follower.nextOffset = 2 ∧ Copied s ∧ Deduplicates s "q" := by
  let _ := Checksum.crc32
  have hrun : (run (Replicas.step "payments") ⟨⟨0, 1024, 64, [.new 0], .empty⟩,
      ⟨0, 1024, 64, [.new 0], .empty⟩⟩ failoverRun).any (fun s =>
        s.follower.nextOffset = 2 ∧ s.leader.nextOffset = 2 ∧
          (s.leader.read 0 USIZE_MAX).toOption.any (fun stored => producedBy "q" stored = [])) := by
    decide +kernel
  obtain ⟨s, hr, hs⟩ := (Option.any_eq_true _ _).1 hrun
  obtain ⟨hf, hl, hread⟩ := of_decide_eq_true hs
  obtain ⟨stored, hstored, hq⟩ := (Option.any_eq_true _ _).1 hread
  have hfew : Along (Replicas.step "payments") TransferCountable ⟨⟨0, 1024, 64, [.new 0], .empty⟩,
      ⟨0, 1024, 64, [.new 0], .empty⟩⟩ failoverRun := by decide +kernel
  obtain ⟨hcopied, hiff⟩ :=
    @deduplicates_iff _ "payments" 1024 1024 64 64 _ _ _ s rfl rfl hfew hr (hf.trans hl.symm) "q"
  refine ⟨_, _, s, rfl, rfl, hr, hf, hcopied, hiff.2 ⟨stored, ?_, of_decide_eq_true hq⟩⟩
  cases hx : s.leader.read 0 USIZE_MAX with
  | error e =>
    rw [hx] at hstored
    cases hstored
  | ok records =>
    rw [hx] at hstored
    cases hstored
    rfl

/-- The repeated record is stored a second time. -/
theorem failover_stores_twice :
    letI := Checksum.crc32
    ∃ leader₀ follower₀ s, PartitionLog.openLog Dir.empty "payments" 1024 64 = .ok leader₀ ∧
      PartitionLog.openLog Dir.empty "payments" 1024 64 = .ok follower₀ ∧
      run (Replicas.step "payments") ⟨leader₀, follower₀⟩ failoverRun = some s ∧
      s.follower.nextOffset = s.leader.nextOffset ∧
      s.leader.append failoverRetry = (.ok 0, s.leader) ∧
      (s.follower.append failoverRetry).1 = .ok 2 ∧ ¬ Deduplicates s "p" := by
  let _ := Checksum.crc32
  have hrun : (run (Replicas.step "payments") ⟨⟨0, 1024, 64, [.new 0], .empty⟩,
      ⟨0, 1024, 64, [.new 0], .empty⟩⟩ failoverRun).any (fun s =>
        s.follower.nextOffset = s.leader.nextOffset ∧
          admission s.leader.producerState failoverRetry = .ok (some 0) ∧
          (s.follower.append failoverRetry).1 = .ok 2) := by
    decide +kernel
  obtain ⟨s, hr, hs⟩ := (Option.any_eq_true _ _).1 hrun
  obtain ⟨hall, hadm, hagain⟩ := of_decide_eq_true hs
  have hleader : s.leader.append failoverRetry = (.ok 0, s.leader) := by
    simp only [PartitionLog.append, hadm]
  refine ⟨_, _, s, rfl, rfl, hr, hall, hleader, hagain, ?_⟩
  intro hded
  rw [hded.repeated failoverRetry 0 0 rfl hleader] at hagain
  cases hagain

end SevlaMq.Broker
