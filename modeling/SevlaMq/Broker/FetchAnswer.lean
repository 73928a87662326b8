import SevlaMq.Broker.FollowerRecovery
import SevlaMq.Storage.Pieces

/-!
# The answer to a fetch

`read` counts its budget in bytes of the log, and the first record is not counted.  The frame of the
answer is counted in bytes of the protocol, where a record is shorter.

* `WithinLimits` — the sizes that `Produce`, `ProduceBatch` and replication frames allow.
* `Entered` — the logs whose records came in that way, over restarts and crashes, and those of
  directories with such records in either version.
* `fetch_answer_fits` — what a fetch reads of them can be encoded.
-/

set_option autoImplicit false

namespace SevlaMq.Broker

open SevlaMq.Storage
open SevlaMq.Protocol (encodeResponse frameBytes FetchRequest FetchedRecord encodeFetchResponse_within
  MAX_FRAME_SIZE MAX_FETCH_BYTES MAX_KEY_SIZE MAX_MESSAGE_SIZE)

/-- The limits of a record that comes over the network. -/
structure WithinLimits (key : Option Bytes) (value : Bytes) : Prop where
  key : (key.getD []).length ≤ MAX_KEY_SIZE
  value : value.length ≤ MAX_MESSAGE_SIZE

section Entered

variable [Checksum] {topic : String} {log : PartitionLog}

/-- A log of `topic` whose records came in over the network. -/
inductive Entered (topic : String) : PartitionLog → Prop
  /-- The files of the directory may be of either version. -/
  | opened {dir : Dir} {log : PartitionLog} {maxSegmentBytes interval : Nat}
      (hdir : DirOf WithinLimits dir)
      (hopen : PartitionLog.openLog dir topic maxSegmentBytes interval = .ok log) : Entered topic log
  /-- An operation may fail, also in its file operations. -/
  | perform {log : PartitionLog} {op : Operation} (h : Entered topic log)
      (hop : Requested op ∨ op.retains) : Entered topic (op.perform log).2
  | restart {log log' : PartitionLog} {maxSegmentBytes interval : Nat} (h : Entered topic log)
      (hopen : PartitionLog.openLog log.dir topic maxSegmentBytes interval = .ok log') :
      Entered topic log'
  | crash {log log' : PartitionLog} {dir : Dir} {maxSegmentBytes interval : Nat}
      (h : Entered topic log) (houtage : Outage log.dir dir)
      (hopen : PartitionLog.openLog dir topic maxSegmentBytes interval = .ok log') :
      Entered topic log'

omit [Checksum] in
theorem Requested.withinLimits {op : Operation} (hop : Requested op ∨ op.retains) :
    ∀ r, op = .append r ∨ (∃ offset, op = .appendReplica offset r) → WithinLimits r.key r.value := by
  intro r hr
  rcases hop with hop | hop
  · have hsend : Sendable r := by
      rcases hr with rfl | ⟨offset, rfl⟩
      · exact hop.sendable rfl
      · exact hop.sendable rfl
    exact ⟨hsend.keySize, hsend.valueSize⟩
  · rcases hr with rfl | ⟨offset, rfl⟩
    · cases hop
    · cases hop

/-- Nothing larger is in its files. -/
theorem Entered.logOf (h : Entered topic log) : LogOf WithinLimits log := by
  induction h with
  | opened hdir hopen => exact hdir.openLog hopen
  | perform _ hop ih => exact ih.perform (Requested.withinLimits hop)
  | restart _ hopen ih => exact ih.dir.openLog hopen
  | crash _ houtage hopen ih => exact (ih.outage houtage).openLog hopen

omit [Checksum] in
/-- A request has a budget that leaves room for the header and for what is not counted. -/
theorem maxBytes_le (request : FetchRequest) : request.maxBytes.toNat ≤ MAX_FETCH_BYTES := by
  have hvalid := request.valid
  unfold Protocol.validateFetch at hvalid
  rw [Protocol.checkAll_cons_eq_ok, Protocol.checkAll_cons_eq_ok] at hvalid
  obtain ⟨_, hbytes, _⟩ := hvalid
  split at hbytes
  · cases hbytes
  · rename_i hbetween
    exact Nat.not_lt.1 fun hlt => hbetween (Or.inr hlt)

omit [Checksum] in
/-- Records within the budget fit into a frame, and so does one record alone. -/
theorem answer_within {records : List StoredRecord} {maxBytes : Nat}
    (hmax : maxBytes ≤ MAX_FETCH_BYTES) (hall : ∀ x ∈ records, WithinLimits x.key x.value)
    (hbudget : records.length ≤ 1 ∨ min (records.map answerSize).sum USIZE_MAX ≤ maxBytes) :
    5 + (records.map answerSize).sum ≤ MAX_FRAME_SIZE := by
  rcases hbudget with hone | hmin
  · rcases records with _ | ⟨x, _ | ⟨y, records⟩⟩
    · exact Nat.le_of_ble_eq_true rfl
    · have hx := hall x List.mem_cons_self
      have hkey : (x.key.getD []).length ≤ 65535 := hx.key
      have hvalue : x.value.length ≤ 1048576 := hx.value
      simp only [List.map_cons, List.map_nil, List.sum_cons, List.sum_nil, answerSize,
        MAX_FRAME_SIZE]
      omega
    · simp at hone
  · simp only [USIZE_MAX, MAX_FETCH_BYTES, MAX_FRAME_SIZE] at hmax hmin ⊢
    omega

/-- **Every answer to a fetch fits into a frame**, whatever is in the buffer before it. -/
theorem fetch_answer_fits (hlog : Entered topic log) (request : FetchRequest)
    (highWatermark : UInt64) (buffer : Bytes) {records : List StoredRecord}
    (hread : log.read request.offset.toNat request.maxBytes.toNat = .ok records) :
    ∃ body, body.length ≤ MAX_FRAME_SIZE ∧
      encodeResponse (.fetch ⟨(records.map responseRecord).filter (·.offset < highWatermark)⟩) buffer =
        (.ok (), buffer ++ frameBytes body) := by
  obtain ⟨hall, hbudget⟩ := hlog.logOf.read hread
  have hwithin := answer_within (maxBytes_le request) hall hbudget
  have hkept : (((records.map responseRecord).filter (·.offset < highWatermark)).map
      FetchedRecord.size).sum ≤ (records.map answerSize).sum := by
    have hsub := (List.filter_sublist (p := fun x : FetchedRecord => x.offset < highWatermark)
      (l := records.map responseRecord)).map FetchedRecord.size
    have hsum := hsub.sum_le_sum fun _ _ => Nat.zero_le _
    rwa [List.map_map] at hsum
  have hfits := Nat.le_trans (Nat.add_le_add_left hkept 5) hwithin
  refine ⟨_, ?_, encodeFetchResponse_within hfits buffer⟩
  rwa [Protocol.fetchBody_length]

end Entered

/-- Three records are produced, of which two are within the budget and one is committed. -/
theorem fetch_answer_fits_cut :
    letI := Checksum.crc32
    ∃ (log : PartitionLog) (request : FetchRequest) (records : List StoredRecord),
      log.nextOffset = 3 ∧ log.read request.offset.toNat request.maxBytes.toNat = .ok records ∧
      records.map (·.value) = [utf8 "one", utf8 "two"] ∧ ∃ body, body.length ≤ MAX_FRAME_SIZE ∧
        encodeResponse (.fetch ⟨(records.map responseRecord).filter (·.offset < 1)⟩) [] =
          (.ok (), frameBytes body) := by
  let _ := Checksum.crc32
  have hopen : PartitionLog.openLog Dir.empty "payments" 1024 64 =
      .ok ⟨0, 1024, 64, [.new 0], .empty⟩ := rfl
  have hlog₀ : Entered "payments" ⟨0, 1024, 64, [.new 0], .empty⟩ :=
    .opened (fun x hx => absurd hx List.not_mem_nil) hopen
  have hproduce : ∀ {log : PartitionLog} (value : String),
      Protocol.validateProduce "payments" (utf8 "k") (utf8 value) none = .ok () →
      Entered "payments" log → Entered "payments" ((Operation.append
        (requestedRecord (utf8 "k") (utf8 value) none 7)).perform log).2 :=
    fun value hvalid hlog =>
      hlog.perform (Or.inl (.produce ⟨"payments", utf8 "k", utf8 value, .leader, none, none, hvalid⟩ 7))
  have hlog := hproduce "three" rfl (hproduce "two" rfl (hproduce "one" rfl hlog₀))
  let request : FetchRequest := ⟨"payments", 0, 0, 140, 0, by rfl⟩
  have hread : PartitionLog.read ((Operation.append (requestedRecord (utf8 "k") (utf8 "three") none
      7)).perform ((Operation.append (requestedRecord (utf8 "k") (utf8 "two") none 7)).perform
        ((Operation.append (requestedRecord (utf8 "k") (utf8 "one") none 7)).perform
          ⟨0, 1024, 64, [.new 0], .empty⟩).2).2).2 0 140 =
      .ok [⟨0, 7, some (utf8 "k"), utf8 "one", none⟩, ⟨1, 7, some (utf8 "k"), utf8 "two", none⟩] := by
    decide +kernel
  exact ⟨_, request, _, by decide +kernel, hread, rfl, fetch_answer_fits hlog request 1 [] hread⟩

end SevlaMq.Broker
