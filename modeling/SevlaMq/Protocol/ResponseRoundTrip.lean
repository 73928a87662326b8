import Mathlib.Algebra.Order.BigOperators.Group.List
import SevlaMq.Protocol.RequestRoundTrip
import SevlaMq.Protocol.Responses

/-!
# Round trip of the responses

* `Response.Fits` — the response is within the limit of a frame, for the responses whose encoder does
  not check it.
* `Delivered` — what was written after a buffer has the length of the response, and within the limit
  it is read as the response; one lemma per response.
* `response_decoded_iff` — a response that was encoded can be decoded exactly when it fits.
* `large_assignment_rejected` — the assignment of a member that is encoded and not decoded.
-/

set_option autoImplicit false

namespace SevlaMq.Protocol

open SevlaMq.Storage (utf8)

/-! ## Sizes -/

/-- The length of a topic in a response. -/
def TopicMetadata.size (topic : TopicMetadata) : Nat :=
  2 + (utf8 topic.topic).length + 4 + 4 + 20 * topic.leaders.length

/-- The length of a node in a response. -/
def ClusterNode.size (node : ClusterNode) : Nat := 4 + 2 + (utf8 node.host).length + 6

/-- The response is within the limit of a frame; the encoders of the others see to that. -/
def Response.Fits : Response → Prop
  | .joinGroup response => 13 + 4 * response.partitions.length ≤ MAX_FRAME_SIZE
  | .topics ts => 5 + (ts.map TopicMetadata.size).sum ≤ MAX_FRAME_SIZE
  | .clusterMetadata metadata => 9 + (metadata.nodes.map ClusterNode.size).sum ≤ MAX_FRAME_SIZE
  | _ => True

/-- What was written after `buffer` is a header and a body that is within the limit if the response
fits, and that is then read as the response. -/
def Delivered (r : Response) (buffer buffer' : Bytes) : Prop :=
  ∃ header body, header.length = FRAME_HEADER_SIZE ∧ buffer' = buffer ++ (header ++ body) ∧
    (body.length ≤ MAX_FRAME_SIZE ↔ r.Fits) ∧
    (body.length ≤ MAX_FRAME_SIZE →
      header ++ body = frameBytes body ∧ body ≠ [] ∧ readResponse body = .ok (r, []))

theorem Delivered.frame {r : Response} {buffer body : Bytes} (hne : body ≠ [])
    (hfits : body.length ≤ MAX_FRAME_SIZE ↔ r.Fits)
    (hread : body.length ≤ MAX_FRAME_SIZE → readResponse body = .ok (r, [])) :
    Delivered r buffer (buffer ++ frameBytes body) :=
  ⟨toBE 4 body.length, body, toBE_length _ _, rfl, hfits, fun hmax => ⟨rfl, hne, hread hmax⟩⟩

/-- A frame that is always within the limit. -/
theorem Delivered.small {r : Response} {buffer body : Bytes} (hne : body ≠ [])
    (hmax : body.length ≤ MAX_FRAME_SIZE) (hfits : r.Fits)
    (hread : readResponse body = .ok (r, [])) : Delivered r buffer (buffer ++ frameBytes body) :=
  .frame hne (by simp [hmax, hfits]) fun _ => hread

/-! ## Lists of numbers -/

section Numbers

variable {β : Type}

theorem length_flatMap {α : Type} {bytes : α → Bytes} {n : Nat}
    (h : ∀ a, (bytes a).length = n) (as : List α) : (as.flatMap bytes).length = as.length * n := by
  induction as with
  | nil => simp
  | cons a as ih =>
    rw [List.flatMap_cons, List.length_append, h, ih, List.length_cons]
    ring

theorem inOrder_map_put_eq_ok {α : Type} (bytes : α → Bytes) (as : List α)
    {buffer buffer' : Bytes} :
    inOrder (as.map fun a => put (bytes a)) buffer = (.ok (), buffer') ↔
      buffer' = buffer ++ as.flatMap bytes := by
  rw [@inOrder_map_eq_ok α (fun a => put (bytes a)) (fun _ => True) bytes (by simp)]
  simp

theorem getU32_append (x : UInt32) (rest : Bytes) :
    getU32 (toBE 4 x.toNat ++ rest) = .ok (x, rest) := by
  simp [getU32]

theorem getU64_append (x : UInt64) (rest : Bytes) :
    getU64 (toBE 8 x.toNat ++ rest) = .ok (x, rest) := by
  simp [getU64]

theorem readMany_u32_bind (xs : List UInt32) (f : List UInt32 → Parser β) (rest : Bytes) :
    (readMany getU32 xs.length >>= f) ((xs.flatMap fun x => toBE 4 x.toNat) ++ rest) = f xs rest :=
  readMany_bind (fun x _ => getU32_append x) f rest

theorem readMany_u64_bind (xs : List UInt64) (f : List UInt64 → Parser β) (rest : Bytes) :
    (readMany getU64 xs.length >>= f) ((xs.flatMap fun x => toBE 8 x.toNat) ++ rest) = f xs rest :=
  readMany_bind (fun x _ => getU64_append x) f rest

end Numbers

/-! ## Responses of a fixed length -/

section Small

variable {buffer buffer' : Bytes}

theorem readProduceAck_append (ack : ProduceAck) (rest : Bytes) :
    readProduceAck (toBE 4 ack.partition.toNat ++ (toBE 8 ack.offset.toNat ++ rest)) =
      .ok (ack, rest) := by
  simp [readProduceAck]

theorem produceAck_delivered {ack : ProduceAck}
    (h : encodeResponse (.produceAck ack) buffer = (.ok (), buffer')) :
    Delivered (.produceAck ack) buffer buffer' := by
  have hbuffer : buffer' = buffer ++ frameBytes (toBE 1 PRODUCE_ACK ++
      [toBE 4 ack.partition.toNat, toBE 8 ack.offset.toNat].flatten) := by
    simpa [encodeResponse, encodeProduceAck, frameBytes] using h
  rw [hbuffer]
  refine .small (by simp [toBE]) (by simp [MAX_FRAME_SIZE]) trivial ?_
  rw [readResponse, getInt_bind (by decide)]
  refine Parser.map_apply _ ?_
  simp only [decodeProduceAck, List.flatten_cons, List.flatten_nil]
  rw [if_neg (by simp)]
  exact readProduceAck_append ack []

theorem groupAck_delivered (h : encodeResponse .groupAck buffer = (.ok (), buffer')) :
    Delivered .groupAck buffer buffer' := by
  have hbuffer : buffer' = buffer ++ frameBytes (toBE 1 GROUP_ACK) := by
    simpa [encodeResponse, frameBytes] using h
  rw [hbuffer]
  exact .small (by simp [toBE]) (by simp [MAX_FRAME_SIZE]) trivial rfl

theorem committedOffset_delivered {offset : Option UInt64}
    (h : encodeResponse (.committedOffset offset) buffer = (.ok (), buffer')) :
    Delivered (.committedOffset offset) buffer buffer' := by
  have hbuffer : buffer' = buffer ++ frameBytes (toBE 1 COMMITTED_OFFSET_RESPONSE ++
      [toBE 1 offset.isSome.toNat, toBE 8 (offset.getD 0).toNat].flatten) := by
    simpa [encodeResponse, frameBytes] using h
  rw [hbuffer]
  refine .small (by simp [toBE]) (by simp [MAX_FRAME_SIZE]) trivial ?_
  rw [readResponse, getInt_bind (by decide)]
  refine Parser.map_apply _ ?_
  cases offset with
  | none => simp [decodeCommittedOffset, getInt_bind, -List.append_nil]
  | some offset => simp [decodeCommittedOffset, getInt_bind, -List.append_nil]

theorem exactly_apply {α : Type} (opcode : Nat) {n : Nat} {frame : Bytes} (h : frame.length = n)
    (p : Parser α) : exactly opcode n p frame = p frame := by
  rw [exactly, if_pos h]

theorem leadershipChanged_delivered {leadership : PartitionLeadership}
    (h : encodeResponse (.leadershipChanged leadership) buffer = (.ok (), buffer')) :
    Delivered (.leadershipChanged leadership) buffer buffer' := by
  have hbuffer : buffer' = buffer ++ frameBytes (toBE 1 LEADERSHIP_CHANGED ++
      [toBE 4 leadership.partition.toNat, toBE 4 leadership.leaderId.toNat,
        toBE 8 leadership.leaderEpoch.toNat, toBE 8 leadership.highWatermark.toNat].flatten) := by
    simpa [encodeResponse, frameBytes] using h
  rw [hbuffer]
  refine .small (by simp [toBE]) (by simp [MAX_FRAME_SIZE]) trivial ?_
  rw [readResponse, getInt_bind (by decide)]
  refine (exactly_apply LEADERSHIP_CHANGED (by simp) _).trans (Parser.map_apply _ ?_)
  simp [decodeLeadershipChanged, -List.append_nil]

theorem partitionStatus_delivered {nextOffset : UInt64}
    (h : encodeResponse (.partitionStatus nextOffset) buffer = (.ok (), buffer')) :
    Delivered (.partitionStatus nextOffset) buffer buffer' := by
  have hbuffer : buffer' = buffer ++ frameBytes (toBE 1 PARTITION_STATUS_RESPONSE ++
      (toBE 8 nextOffset.toNat ++ [])) := by
    simpa [encodeResponse, frameBytes] using h
  rw [hbuffer]
  refine .small (by simp [toBE]) (by simp [MAX_FRAME_SIZE]) trivial ?_
  rw [readResponse, getInt_bind (by decide)]
  exact (exactly_apply PARTITION_STATUS_RESPONSE (by simp) _).trans
    (Parser.map_apply _ (getU64_append nextOffset []))

theorem error_delivered {message : String}
    (h : encodeResponse (.error message) buffer = (.ok (), buffer')) :
    Delivered (.error message) buffer buffer' := by
  simp [encodeResponse, encodeStringResponse, framed] at h
  obtain ⟨hlen, _, rfl⟩ := h
  refine .small (by simp [toBE]) ?_ trivial ?_
  · simp only [stringBytes, List.length_append, toBE_length, MAX_FRAME_SIZE]
    omega
  · rw [readResponse, getInt_bind (by decide), ← List.append_nil (stringBytes message)]
    refine Parser.map_apply _ ?_
    simp [decodeError, hlen, -List.append_nil]

end Small

/-! ## Acknowledgements and assignments -/

/-- The bytes of an acknowledgement. -/
def ProduceAck.bytes (ack : ProduceAck) : Bytes :=
  toBE 4 ack.partition.toNat ++ toBE 8 ack.offset.toNat

section Lists

variable {buffer buffer' : Bytes}

theorem encodeProduceAcks_eq_ok (acks : List ProduceAck) :
    inOrder (acks.map encodeProduceAck) buffer = (.ok (), buffer') ↔
      buffer' = buffer ++ acks.flatMap ProduceAck.bytes := by
  rw [@inOrder_map_eq_ok ProduceAck encodeProduceAck (fun _ => True) ProduceAck.bytes
    (by simp [encodeProduceAck, ProduceAck.bytes])]
  simp

theorem produceBatchAck_delivered {acks : List ProduceAck} (hne : acks ≠ [])
    (hcount : acks.length ≤ MAX_BATCH_MESSAGES)
    (h : encodeResponse (.produceBatchAck acks) buffer = (.ok (), buffer')) :
    Delivered (.produceBatchAck acks) buffer buffer' := by
  simp [encodeResponse, framed, encodeProduceAcks_eq_ok] at h
  obtain ⟨hlen, _, rfl⟩ := h
  have hbytes := @length_flatMap ProduceAck ProduceAck.bytes 12 (by simp [ProduceAck.bytes]) acks
  have hread : ∀ ack ∈ acks, ∀ rest, readProduceAck (ack.bytes ++ rest) = .ok (ack, rest) := by
    intro ack _ rest
    simp [readProduceAck, ProduceAck.bytes]
  refine .small (by simp [toBE]) ?_ trivial ?_
  · simp only [MAX_BATCH_MESSAGES] at hcount
    simp only [List.length_append, toBE_length, hbytes, MAX_FRAME_SIZE]
    omega
  · rw [readResponse, getInt_bind (by decide)]
    refine Parser.map_apply _ ?_
    rw [decodeProduceBatchAck, ensureRemaining_bind (by simp), getInt_bind hlen,
      ensure_bind (by simp [hne, hcount]), ensureRemaining_bind (by rw [hbytes]),
      ← List.append_nil (List.flatMap _ _), readMany_bind hread]
    rfl

/-- The bytes of an assignment. -/
def JoinGroupResponse.body (response : JoinGroupResponse) : Bytes :=
  toBE 1 JOIN_GROUP_RESPONSE ++ (toBE 8 response.generation.toNat ++
    (toBE 4 response.partitions.length ++ response.partitions.flatMap fun x => toBE 4 x.toNat))

theorem encodeJoinGroupResponse_eq_ok {response : JoinGroupResponse} :
    encodeJoinGroupResponse response buffer = (.ok (), buffer') ↔
      response.partitions.length < 4294967296 ∧
        buffer' = buffer ++ (toBE 4 ((13 + response.partitions.length * 4) % 2 ^ 32) ++
          response.body) := by
  have hpartitions := fun b b' => @inOrder_map_put_eq_ok UInt32 (fun x => toBE 4 x.toNat)
    response.partitions b b'
  simp [encodeJoinGroupResponse, hpartitions, JoinGroupResponse.body]

theorem joinGroup_delivered {response : JoinGroupResponse}
    (h : encodeResponse (.joinGroup response) buffer = (.ok (), buffer')) :
    Delivered (.joinGroup response) buffer buffer' := by
  obtain ⟨hlen, rfl⟩ := encodeJoinGroupResponse_eq_ok.1 h
  have hlen' : response.partitions.length < 256 ^ 4 := hlen
  have hbytes := @length_flatMap UInt32 (fun x => toBE 4 x.toNat) 4 (by simp) response.partitions
  have hbody : response.body.length = 13 + response.partitions.length * 4 := by
    simp only [JoinGroupResponse.body, List.length_append, toBE_length, hbytes]
    omega
  refine ⟨_, response.body, toBE_length 4 _, rfl, ?_, fun hmax => ⟨?_, ?_, ?_⟩⟩
  · rw [hbody, Nat.mul_comm]
    exact Iff.rfl
  · -- within the limit the length does not wrap around
    have hsmall : (13 + response.partitions.length * 4) % 2 ^ 32 = response.body.length := by
      rw [hbody] at hmax ⊢
      exact Nat.mod_eq_of_lt (Nat.lt_of_le_of_lt hmax (by decide))
    rw [hsmall, frameBytes]
  · simp [JoinGroupResponse.body, toBE]
  · rw [JoinGroupResponse.body, readResponse, getInt_bind (by decide)]
    refine Parser.map_apply _ ?_
    rw [decodeJoinGroupResponse, ensureRemaining_bind (by simp; omega), getInt_u64_bind,
      getInt_bind hlen', ensureRemaining_bind (by rw [hbytes]),
      ← List.append_nil (List.flatMap _ _), readMany_u32_bind]
    simp

end Lists

/-! ## Records -/

/-- The length of an optional key as it is written. -/
def keyLen : Option Bytes → Nat
  | some key => ofI32 key.length
  | none => ofI32 (-1)

/-- The bytes of a record. -/
def FetchedRecord.bytes (record : FetchedRecord) : Bytes :=
  toBE 8 record.offset.toNat ++ (toBE 8 record.timestampMs.toNat ++ (toBE 4 (keyLen record.key) ++
    (toBE 4 record.value.length ++ (record.key.getD [] ++ record.value))))

/-- The lengths of key and value can be written. -/
def FetchedRecord.Fits (record : FetchedRecord) : Prop :=
  (record.key.getD []).length < 2147483648 ∧ record.value.length < 4294967296

section Records

variable {buffer buffer' : Bytes}

theorem keyLen_lt (key : Option Bytes) : keyLen key < 256 ^ 4 := by
  cases key with
  | none => exact ofI32_lt _
  | some key => exact ofI32_lt _

theorem readKey_bind {β : Type} {key : Option Bytes} (h : (key.getD []).length < 2147483648)
    (f : Option Bytes → Parser β) (rest : Bytes) :
    (readKey (toI32 (keyLen key)) >>= f) (key.getD [] ++ rest) = f key rest := by
  refine Parser.bind_ok ?_ f
  cases key with
  | none =>
    rw [keyLen, toI32_ofI32_neg_one, readKey, if_pos rfl]
    rfl
  | some key =>
    rw [Option.getD_some] at h ⊢
    rw [keyLen, toI32_ofI32_nat h, readKey, if_neg (by omega), if_pos (by omega), Int.toNat_natCast]
    exact readBytes_map key some rest

theorem encodeFetchedRecord_eq_ok {record : FetchedRecord} :
    encodeFetchedRecord record buffer = (.ok (), buffer') ↔
      record.Fits ∧ buffer' = buffer ++ record.bytes := by
  cases hkey : record.key with
  | none => simp [encodeFetchedRecord, putKeyLen, FetchedRecord.Fits, FetchedRecord.bytes, keyLen,
      hkey]
  | some key => simp [encodeFetchedRecord, putKeyLen, FetchedRecord.Fits, FetchedRecord.bytes,
      keyLen, hkey, and_assoc]

theorem decodeFetchedRecord_append {record : FetchedRecord} (h : record.Fits) (rest : Bytes) :
    decodeFetchedRecord (record.bytes ++ rest) = .ok (record, rest) := by
  obtain ⟨hkey, hvalue⟩ := h
  have hvalue' : record.value.length < 256 ^ 4 := hvalue
  simp +arith [decodeFetchedRecord, FetchedRecord.bytes, getInt_bind (keyLen_lt record.key),
    getInt_bind hvalue', readKey_bind hkey]

theorem encodeFetchedRecords_eq_ok (records : List FetchedRecord) :
    inOrder (records.map encodeFetchedRecord) buffer = (.ok (), buffer') ↔
      (∀ record ∈ records, record.Fits) ∧
        buffer' = buffer ++ records.flatMap FetchedRecord.bytes :=
  @inOrder_map_eq_ok FetchedRecord encodeFetchedRecord FetchedRecord.Fits FetchedRecord.bytes
    (fun _ _ _ => encodeFetchedRecord_eq_ok) records buffer buffer'

theorem fetch_delivered {response : FetchResponse}
    (h : encodeResponse (.fetch response) buffer = (.ok (), buffer')) :
    Delivered (.fetch response) buffer buffer' := by
  simp only [encodeResponse, encodeFetchResponse] at h
  split at h
  · cases h
  · rename_i written hwritten
    simp [encodeFetchedRecords_eq_ok] at hwritten
    obtain ⟨hcount, hall, rfl⟩ := hwritten
    have hcount' : response.records.length < 256 ^ 4 := hcount
    split at h
    · cases h
    · rename_i hmax
      rw [setFrameLen_eq_ok] at h
      obtain ⟨_, rfl⟩ := h
      have hread : ∀ record ∈ response.records, ∀ rest,
          decodeFetchedRecord (record.bytes ++ rest) = .ok (record, rest) :=
        fun record hmem => decodeFetchedRecord_append (hall record hmem)
      refine .small (by simp [toBE]) ?_ trivial ?_
      · simp only [List.length_append, toBE_length, FRAME_HEADER_SIZE] at hmax ⊢
        omega
      · rw [readResponse, getInt_bind (by decide)]
        refine Parser.map_apply _ ?_
        rw [decodeFetchResponse, ensureRemaining_bind (by simp), getInt_bind hcount',
          ← List.append_nil (List.flatMap _ _), readMany_bind hread]
        rfl

/-- The length of a record in a response. -/
def FetchedRecord.size (record : FetchedRecord) : Nat :=
  24 + (record.key.getD []).length + record.value.length

theorem FetchedRecord.bytes_length (record : FetchedRecord) : record.bytes.length = record.size := by
  simp only [FetchedRecord.bytes, FetchedRecord.size, List.length_append, toBE_length]
  omega

theorem length_records (records : List FetchedRecord) :
    (records.flatMap FetchedRecord.bytes).length = (records.map FetchedRecord.size).sum := by
  induction records with
  | nil => rfl
  | cons record records ih =>
    rw [List.flatMap_cons, List.length_append, ih, record.bytes_length, List.map_cons, List.sum_cons]

/-- The body of a response with records. -/
def fetchBody (records : List FetchedRecord) : Bytes :=
  toBE 1 FETCH_RESPONSE ++ (toBE 4 records.length ++ records.flatMap FetchedRecord.bytes)

theorem fetchBody_length (records : List FetchedRecord) :
    (fetchBody records).length = 5 + (records.map FetchedRecord.size).sum := by
  simp only [fetchBody, List.length_append, toBE_length, length_records]
  omega

/-- Records within the limit of a frame are written, whatever the buffer holds. -/
theorem encodeFetchResponse_within {records : List FetchedRecord}
    (hmax : 5 + (records.map FetchedRecord.size).sum ≤ MAX_FRAME_SIZE) (buffer : Bytes) :
    encodeResponse (.fetch ⟨records⟩) buffer =
      (.ok (), buffer ++ frameBytes (fetchBody records)) := by
  have hsize : ∀ record ∈ records, record.size ≤ (records.map FetchedRecord.size).sum :=
    fun record hmem => List.single_le_sum (fun _ _ => Nat.zero_le _) _ (List.mem_map_of_mem hmem)
  have hcount : records.length ≤ (records.map FetchedRecord.size).sum := by
    have := List.length_le_sum_of_one_le (records.map FetchedRecord.size) fun n hn => by
      obtain ⟨record, _, rfl⟩ := List.mem_map.1 hn
      simp only [FetchedRecord.size]
      omega
    rwa [List.length_map] at this
  simp only [MAX_FRAME_SIZE] at hmax
  have hall : ∀ record ∈ records, record.Fits := by
    intro record hmem
    have := hsize record hmem
    simp only [FetchedRecord.size] at this
    exact ⟨by omega, by omega⟩
  have hbody := fetchBody_length records
  have hwritten : inOrder [put (toBE 4 0), put (toBE 1 FETCH_RESPONSE),
      putLen 4 records.length .frameTooLarge, inOrder (records.map encodeFetchedRecord)] buffer =
      (.ok (), buffer ++ (toBE 4 0 ++ fetchBody records)) := by
    simp [encodeFetchedRecords_eq_ok, fetchBody]
    exact ⟨by omega, hall⟩
  simp only [encodeResponse, encodeFetchResponse, hwritten]
  rw [if_neg]
  · exact setFrameLen_eq_ok.2 ⟨by omega, rfl⟩
  · simp only [List.length_append, toBE_length, hbody, FRAME_HEADER_SIZE, MAX_FRAME_SIZE]
    omega

/-- Records within the limit of a frame arrive. -/
theorem fetch_within {records : List FetchedRecord}
    (hmax : 5 + (records.map FetchedRecord.size).sum ≤ MAX_FRAME_SIZE) :
    ∃ buffer, encodeResponse (.fetch ⟨records⟩) [] = (.ok (), buffer) ∧
      decodeResponse buffer = .ok (some (.fetch ⟨records⟩, [])) := by
  have hencode := encodeFetchResponse_within hmax []
  refine ⟨_, hencode, ?_⟩
  obtain ⟨header, body, hheader, hframe, hfits, hread⟩ := fetch_delivered hencode
  obtain ⟨hbytes, hne, hparsed⟩ := hread (hfits.2 trivial)
  rw [hframe, List.nil_append, hbytes, ← List.append_nil (frameBytes body)]
  exact decodeFrame_append hne (hfits.2 trivial) hparsed []

end Records

/-! ## Topics and nodes -/

/-- The bytes of a topic. -/
def TopicMetadata.bytes (topic : TopicMetadata) : Bytes :=
  stringBytes topic.topic ++ (toBE 4 topic.partitions.toNat ++ (toBE 4 topic.leaders.length ++
    ((topic.leaders.flatMap fun x => toBE 4 x.toNat) ++
      ((topic.leaderEpochs.flatMap fun x => toBE 8 x.toNat) ++
        topic.highWatermarks.flatMap fun x => toBE 8 x.toNat))))

/-- What the encoder checks of a topic. -/
structure TopicMetadata.Valid (topic : TopicMetadata) : Prop where
  name : (utf8 topic.topic).length < 65536
  positive : topic.partitions.toNat ≠ 0
  leaders : topic.leaders.length ≠ 0 → topic.leaders.length = topic.partitions.toNat
  epochs : topic.leaderEpochs.length = topic.leaders.length
  watermarks : topic.highWatermarks.length = topic.leaders.length
  count : topic.leaders.length < 4294967296

/-- The bytes of a node. -/
def ClusterNode.bytes (node : ClusterNode) : Bytes :=
  toBE 4 node.id.toNat ++ (stringBytes node.host ++ (toBE 2 node.port.toNat ++
    (toBE 2 node.adminPort.toNat ++ toBE 2 node.replicationPort.toNat)))

section Metadata

variable {buffer buffer' : Bytes}

theorem encodeTopicMetadata_eq_ok {topic : TopicMetadata} :
    encodeTopicMetadata topic buffer = (.ok (), buffer') ↔
      topic.Valid ∧ buffer' = buffer ++ topic.bytes := by
  have hu32 := fun b b' => @inOrder_map_put_eq_ok UInt32 (fun x => toBE 4 x.toNat)
    topic.leaders b b'
  have hu64 := fun (xs : List UInt64) b b' =>
    @inOrder_map_put_eq_ok UInt64 (fun x => toBE 8 x.toNat) xs b b'
  have hzero : topic.partitions = 0 ↔ topic.partitions.toNat = 0 :=
    ⟨fun h => by rw [h]; rfl, fun h => UInt32.toNat_inj.1 h⟩
  simp only [encodeTopicMetadata, inOrder_cons_eq_ok, inOrder_nil_eq_ok, require_eq_ok,
    ite_error_eq_ok, encodeString_eq_ok, put_eq_ok, putLen_eq_ok, hu32, hu64, not_or, not_and,
    not_not, hzero, ne_eq, List.length_eq_zero_iff.symm]
  constructor
  · rintro ⟨_, ⟨⟨hpositive, hleaders, hepochs, hwatermarks⟩, rfl⟩, _, ⟨hname, rfl⟩, _, rfl, _,
      ⟨hcount, rfl⟩, _, rfl, _, rfl, _, rfl, rfl⟩
    exact ⟨⟨hname, hpositive, hleaders, hepochs, hwatermarks, hcount⟩, by
      simp [TopicMetadata.bytes]⟩
  · rintro ⟨h, rfl⟩
    refine ⟨_, ⟨⟨h.positive, h.leaders, h.epochs, h.watermarks⟩, rfl⟩, _, ⟨h.name, rfl⟩, _, rfl, _,
      ⟨h.count, rfl⟩, _, rfl, _, rfl, _, rfl, ?_⟩
    simp [TopicMetadata.bytes]

theorem length_topics {topics : List TopicMetadata} (h : ∀ topic ∈ topics, topic.Valid) :
    (topics.flatMap TopicMetadata.bytes).length = (topics.map TopicMetadata.size).sum := by
  have hu32 := @length_flatMap UInt32 (fun x => toBE 4 x.toNat) 4 (by simp)
  have hu64 := @length_flatMap UInt64 (fun x => toBE 8 x.toNat) 8 (by simp)
  rw [List.length_flatMap]
  refine congrArg List.sum (List.map_congr_left fun topic hmem => ?_)
  have hvalid := h topic hmem
  simp only [TopicMetadata.bytes, TopicMetadata.size, stringBytes, List.length_append, toBE_length,
    hu32, hu64, hvalid.epochs, hvalid.watermarks]
  omega

theorem decodeTopicMetadata_append {topic : TopicMetadata} (h : topic.Valid) (rest : Bytes) :
    decodeTopicMetadata (topic.bytes ++ rest) = .ok (topic, rest) := by
  have hu32 := @length_flatMap UInt32 (fun x => toBE 4 x.toNat) 4 (by simp) topic.leaders
  have hu64 := @length_flatMap UInt64 (fun x => toBE 8 x.toNat) 8 (by simp)
  have hname : (utf8 topic.topic).length < 256 ^ 2 := h.name
  have hcount : topic.leaders.length < 256 ^ 4 := h.count
  have hcheck : ¬ (topic.partitions.toNat = 0 ∨
      (topic.leaders.length ≠ 0 ∧ topic.leaders.length ≠ topic.partitions.toNat)) := by
    rintro (hzero | ⟨hsome, hne⟩)
    · exact h.positive hzero
    · exact hne (h.leaders hsome)
  have hepochs := @readMany_u64_bind TopicMetadata topic.leaderEpochs
  have hwatermarks := @readMany_u64_bind TopicMetadata topic.highWatermarks
  rw [h.epochs] at hepochs
  rw [h.watermarks] at hwatermarks
  simp only [decodeTopicMetadata, TopicMetadata.bytes, List.append_assoc]
  rw [decodeString_bind hname, ensureRemaining_bind (by simp; omega), getInt_u32_bind,
    readLen_bind hcount, ensure_bind (by simpa using hcheck),
    ensureRemaining_bind (by rw [List.length_append, hu32]; omega), readMany_u32_bind,
    ensureRemaining_bind (by rw [List.length_append, hu64, h.epochs]; omega), hepochs,
    ensureRemaining_bind (by rw [List.length_append, hu64, h.watermarks]; omega), hwatermarks]
  simp

theorem topics_delivered {topics : List TopicMetadata}
    (h : encodeResponse (.topics topics) buffer = (.ok (), buffer')) :
    Delivered (.topics topics) buffer buffer' := by
  have htopics := fun b b' => @inOrder_map_eq_ok TopicMetadata encodeTopicMetadata
    TopicMetadata.Valid TopicMetadata.bytes (fun _ _ _ => encodeTopicMetadata_eq_ok) topics b b'
  simp [encodeResponse, encodeTopicsResponse, framed, htopics] at h
  obtain ⟨⟨hcount, hall⟩, _, rfl⟩ := h
  have hcount' : topics.length < 256 ^ 4 := hcount
  refine .frame (by simp [toBE]) ?_ fun _ => ?_
  · simp only [List.length_append, toBE_length, length_topics hall]
    rw [← Nat.add_assoc]
    exact Iff.rfl
  · rw [readResponse, getInt_bind (by decide)]
    refine Parser.map_apply _ ?_
    rw [decodeTopicsResponse, ensureRemaining_bind (by simp), readLen_bind hcount',
      ← List.append_nil (List.flatMap _ _),
      readMany_bind fun topic hmem => decodeTopicMetadata_append (hall topic hmem)]
    rfl

theorem encodeClusterNode_eq_ok {node : ClusterNode} :
    encodeClusterNode node buffer = (.ok (), buffer') ↔
      (utf8 node.host).length < 65536 ∧ buffer' = buffer ++ node.bytes := by
  simp [encodeClusterNode, ClusterNode.bytes]

theorem decodeClusterNode_append {node : ClusterNode} (h : (utf8 node.host).length < 65536)
    (rest : Bytes) : decodeClusterNode (node.bytes ++ rest) = .ok (node, rest) := by
  simp +arith [decodeClusterNode, ClusterNode.bytes, h]

theorem clusterMetadata_delivered {metadata : ClusterMetadata}
    (h : encodeResponse (.clusterMetadata metadata) buffer = (.ok (), buffer')) :
    Delivered (.clusterMetadata metadata) buffer buffer' := by
  have hnodes := fun b b' => @inOrder_map_eq_ok ClusterNode encodeClusterNode
    (fun node => (utf8 node.host).length < 65536) ClusterNode.bytes
    (fun _ _ _ => encodeClusterNode_eq_ok) metadata.nodes b b'
  simp [encodeResponse, encodeClusterMetadata, framed, hnodes] at h
  obtain ⟨⟨hne, hmax⟩, ⟨hcount, hall⟩, _, rfl⟩ := h
  have hcount' : metadata.nodes.length < 256 ^ 4 := hcount
  have hlen : (metadata.nodes.flatMap ClusterNode.bytes).length =
      (metadata.nodes.map ClusterNode.size).sum := by
    rw [List.length_flatMap]
    refine congrArg List.sum (List.map_congr_left fun node _ => ?_)
    simp only [ClusterNode.bytes, ClusterNode.size, stringBytes, List.length_append, toBE_length]
    omega
  refine .frame (by simp [toBE]) ?_ fun _ => ?_
  · simp only [List.length_append, toBE_length, hlen]
    rw [← Nat.add_assoc, ← Nat.add_assoc]
    exact Iff.rfl
  · rw [readResponse, getInt_bind (by decide)]
    refine Parser.map_apply _ ?_
    rw [decodeClusterMetadata, ensureRemaining_bind (by simp; omega), getInt_u32_bind,
      readLen_bind hcount', ensure_bind (by simp [hne, hmax]), ← List.append_nil (List.flatMap _ _),
      readMany_bind fun node hmem => decodeClusterNode_append (hall node hmem)]
    simp

end Metadata

/-! ## All responses -/

theorem encodeResponse_delivered {r : Response}
    (hacks : ∀ acks, r = .produceBatchAck acks → acks ≠ [] ∧ acks.length ≤ MAX_BATCH_MESSAGES)
    {buffer buffer' : Bytes} (h : encodeResponse r buffer = (.ok (), buffer')) :
    Delivered r buffer buffer' := by
  cases r with
  | produceAck ack => exact produceAck_delivered h
  | produceBatchAck acks =>
    obtain ⟨hne, hcount⟩ := hacks acks rfl
    exact produceBatchAck_delivered hne hcount h
  | fetch response => exact fetch_delivered h
  | joinGroup response => exact joinGroup_delivered h
  | groupAck => exact groupAck_delivered h
  | committedOffset offset => exact committedOffset_delivered h
  | topics topics => exact topics_delivered h
  | clusterMetadata metadata => exact clusterMetadata_delivered h
  | leadershipChanged leadership => exact leadershipChanged_delivered h
  | partitionStatus nextOffset => exact partitionStatus_delivered h
  | error message => exact error_delivered h

/-- **A response that was encoded can be decoded exactly when it fits.** -/
theorem response_decoded_iff {r : Response}
    (hacks : ∀ acks, r = .produceBatchAck acks → acks ≠ [] ∧ acks.length ≤ MAX_BATCH_MESSAGES)
    {buffer buffer' : Bytes} (h : encodeResponse r buffer = (.ok (), buffer')) :
    (∃ frame, buffer' = buffer ++ frame ∧ frame.length ≤ FRAME_HEADER_SIZE + MAX_FRAME_SIZE ∧
      ∀ rest, decodeResponse (frame ++ rest) = .ok (some (r, rest))) ↔ r.Fits := by
  obtain ⟨header, body, hheader, rfl, hfits, hread⟩ := encodeResponse_delivered hacks h
  rw [← hfits]
  constructor
  · rintro ⟨frame, hframe, hlen, _⟩
    rw [← List.append_cancel_left hframe, List.length_append, hheader] at hlen
    omega
  · intro hmax
    obtain ⟨hframe, hne, hbody⟩ := hread hmax
    refine ⟨header ++ body, rfl, ?_, fun rest => ?_⟩
    · rw [List.length_append, hheader]
      omega
    · rw [hframe]
      exact decodeFrame_append hne hmax hbody rest

theorem response_decoded_iff_assignment :
    ∃ buffer, encodeResponse (.joinGroup ⟨7, [0, 2, 4]⟩) [1, 2] = (.ok (), buffer) ∧
      ∃ frame, buffer = [1, 2] ++ frame ∧ frame.length ≤ FRAME_HEADER_SIZE + MAX_FRAME_SIZE ∧
        ∀ rest, decodeResponse (frame ++ rest) = .ok (some (.joinGroup ⟨7, [0, 2, 4]⟩, rest)) := by
  have hencode := encodeJoinGroupResponse_eq_ok.2
    ⟨show (⟨7, [0, 2, 4]⟩ : JoinGroupResponse).partitions.length < 4294967296 by decide,
      show [1, 2] ++ _ = [1, 2] ++ _ from rfl⟩
  refine ⟨_, hencode, ?_⟩
  have hfits : 13 + 4 * [0, 2, 4].length ≤ MAX_FRAME_SIZE := by decide
  exact (@response_decoded_iff (.joinGroup ⟨7, [0, 2, 4]⟩) (fun _ hno => by cases hno) _ _
    hencode).2 hfits

/-- The assignment of a member with one partition more than fits into a frame. -/
def largeAssignment : JoinGroupResponse := ⟨1, List.replicate 1048573 0⟩

/-- It is encoded, and the frame is refused. -/
theorem large_assignment_rejected :
    ∃ buffer, encodeResponse (.joinGroup largeAssignment) [] = (.ok (), buffer) ∧
      decodeResponse buffer = .error .frameTooLarge := by
  have hcount : largeAssignment.partitions.length = 1048573 := List.length_replicate
  have hbound : largeAssignment.partitions.length < 4294967296 := by
    rw [hcount]
    decide
  refine ⟨_, encodeJoinGroupResponse_eq_ok.2 ⟨hbound, rfl⟩, ?_⟩
  rw [hcount, List.nil_append]
  exact decodeFrame_too_large readResponse (by decide) (by decide) _

end SevlaMq.Protocol
