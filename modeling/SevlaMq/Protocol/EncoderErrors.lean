import SevlaMq.Protocol.Connection
import SevlaMq.Protocol.ResponseRoundTrip

/-!
# What an encoder leaves behind an error

The encoders of `crates/protocol/src/lib.rs` append to the buffer they are given, and most of them
write a header before they look at the lengths of the fields.  `request` of
`crates/client/src/lib.rs` keeps its buffer across calls and empties it only after a write.

* `AtomicAt` — an error leaves the buffer as it was; one lemma per shape of encoder.
* `Request.Short`, `Response.Short` — the values whose encoder does not run into a length it cannot
  write after the header.
* `encoder_atomic_iff` — these are the values with which an encoder is atomic, and with which the
  calls that follow on one client write their own frames only.
* `long_group_spoils_connection` — a group id that is too long, and the request after it.
-/

set_option autoImplicit false

namespace SevlaMq.Protocol

open SevlaMq.Storage (utf8)

/-- After an error the buffer is as it was. -/
def AtomicAt (e : Encoder) (buffer : Bytes) : Prop :=
  ∀ error buffer', e buffer = (.error error, buffer') → buffer' = buffer

/-- The buffer never gets shorter. -/
def Grows (e : Encoder) : Prop := ∀ buffer, buffer.length ≤ (e buffer).2.length

/-! ## No encoder takes bytes away -/

theorem grows_put (bs : Bytes) : Grows (put bs) := by
  intro buffer
  simp [put]

theorem grows_require (check : Except ProtocolError Unit) : Grows (require check) := by
  intro buffer
  simp [require]

theorem grows_inOrder {es : List Encoder} (h : ∀ e ∈ es, Grows e) : Grows (inOrder es) := by
  induction es with
  | nil =>
    intro buffer
    simp [inOrder]
  | cons e es ih =>
    rw [List.forall_mem_cons] at h
    intro buffer
    have hfirst := h.1 buffer
    rw [inOrder]
    split
    · rename_i error middle he
      rwa [he] at hfirst
    · rename_i middle he
      rw [he] at hfirst
      exact Nat.le_trans hfirst (ih h.2 middle)

theorem grows_map {α : Type} {encode : α → Encoder} (h : ∀ a, Grows (encode a)) (as : List α) :
    Grows (inOrder (as.map encode)) := by
  apply grows_inOrder
  intro e he
  obtain ⟨a, _, rfl⟩ := List.mem_map.1 he
  exact h a

theorem grows_putLen (w len : Nat) (error : ProtocolError) : Grows (putLen w len error) := by
  apply grows_inOrder
  simp [grows_require, grows_put]

theorem grows_encodeString (value : String) : Grows (encodeString value) := by
  apply grows_inOrder
  simp [grows_putLen, grows_put]

theorem grows_setFrameLen (start : Nat) : Grows (setFrameLen start) := by
  intro buffer
  simp only [setFrameLen]
  split
  · exact Nat.le_refl _
  · simp only [List.length_append, List.length_take, toBE_length, List.length_drop,
      FRAME_HEADER_SIZE]
    omega

/-- Bytes that are written first are still there at the end. -/
theorem length_put_inOrder {bs : Bytes} {es : List Encoder} (h : ∀ e ∈ es, Grows e)
    (buffer : Bytes) : buffer.length + bs.length ≤ (inOrder (put bs :: es) buffer).2.length := by
  have hgrows := grows_inOrder h (buffer ++ bs)
  rw [List.length_append] at hgrows
  exact hgrows

theorem length_framed {fields : List Encoder} (h : ∀ e ∈ fields, Grows e) (buffer : Bytes) :
    buffer.length + FRAME_HEADER_SIZE ≤ (framed fields buffer).2.length := by
  have hlen := @length_put_inOrder (toBE 4 0) [inOrder fields, setFrameLen buffer.length]
    (by simp [grows_inOrder h, grows_setFrameLen]) buffer
  rwa [toBE_length] at hlen

/-! ## When an encoder is atomic -/

section Atomic

variable {buffer : Bytes}

theorem AtomicAt.of_ok {e : Encoder} {buffer' : Bytes} (h : e buffer = (.ok (), buffer')) :
    AtomicAt e buffer := by
  intro error left herror
  rw [h] at herror
  cases herror

/-- An encoder that has always written something is atomic where it succeeds. -/
theorem atomicAt_iff_ok {e : Encoder} (h : buffer.length < (e buffer).2.length) :
    AtomicAt e buffer ↔ ∃ buffer', e buffer = (.ok (), buffer') := by
  constructor
  · intro hatomic
    rcases hresult : e buffer with ⟨result, buffer'⟩
    cases result with
    | ok _ => exact ⟨buffer', rfl⟩
    | error error =>
      have hsame := hatomic error buffer' hresult
      rw [hresult, hsame] at h
      exact absurd h (Nat.lt_irrefl _)
  · rintro ⟨buffer', hok⟩
    exact .of_ok hok

/-- A check before anything is written. -/
theorem atomicAt_require_iff {check : Except ProtocolError Unit} {es : List Encoder} :
    AtomicAt (inOrder (require check :: es)) buffer ↔
      (check = .ok () → AtomicAt (inOrder es) buffer) := by
  cases check with
  | ok _ =>
    simp only [forall_const]
    exact Iff.rfl
  | error error =>
    simp only [reduceCtorEq, false_imp_iff, iff_true]
    intro error' buffer' h
    simp only [inOrder, require, Prod.mk.injEq] at h
    exact h.2.symm

theorem atomicAt_single {e : Encoder} : AtomicAt (inOrder [e]) buffer ↔ AtomicAt e buffer := by
  have hsame : ∀ error buffer', inOrder [e] buffer = (.error error, buffer') ↔
      e buffer = (.error error, buffer') := by
    intro error buffer'
    rw [inOrder]
    split
    · rename_i he
      rw [he]
    · rename_i he
      simp [he, inOrder]
  simp only [AtomicAt, hsame]

/-- A frame is atomic exactly when its fields can be written and its length can. -/
theorem atomicAt_framed_iff {fields : List Encoder} {Fits : Prop} {body : Bytes}
    (hgrows : ∀ e ∈ fields, Grows e)
    (h : ∀ buffer buffer', inOrder fields buffer = (.ok (), buffer') ↔
      Fits ∧ buffer' = buffer ++ body) :
    AtomicAt (framed fields) buffer ↔ Fits ∧ body.length < 2 ^ 32 := by
  have hwritten : buffer.length < (framed fields buffer).2.length :=
    Nat.lt_of_lt_of_le (Nat.lt_add_of_pos_right (by decide)) (length_framed hgrows buffer)
  rw [atomicAt_iff_ok hwritten]
  simp only [framed_eq_ok h, exists_and_left, exists_eq, and_true]

end Atomic

/-! ## Requests -/

section Requests

variable {buffer : Bytes}

/-- The lengths of strings take two bytes each. -/
def ShortStrings (values : List String) : Prop := ∀ v ∈ values, (utf8 v).length < 65536

theorem inOrder_strings_eq_ok (opcode : Nat) (values : List String) (buffer buffer' : Bytes) :
    inOrder (put (toBE 1 opcode) :: values.map encodeString) buffer = (.ok (), buffer') ↔
      ShortStrings values ∧ buffer' = buffer ++ (toBE 1 opcode ++ values.flatMap stringBytes) := by
  simp [encodeStrings_eq_ok, ShortStrings]

theorem grows_strings (opcode : Nat) (values : List String) :
    ∀ e ∈ put (toBE 1 opcode) :: values.map encodeString, Grows e := by
  intro e he
  rcases List.mem_cons.1 he with rfl | hstring
  · exact grows_put _
  · obtain ⟨v, _, rfl⟩ := List.mem_map.1 hstring
    exact grows_encodeString v

theorem length_strings_lt {opcode : Nat} {values : List String} (hcount : values.length ≤ 3)
    (h : ShortStrings values) :
    (toBE 1 opcode ++ values.flatMap stringBytes).length < 2 ^ 32 - 28 := by
  have hlen := length_strings_le h
  simp only [List.length_append, toBE_length]
  omega

theorem atomicAt_encodeStringRequest_iff {opcode : Nat} {values : List String}
    (hcount : values.length ≤ 3) :
    AtomicAt (encodeStringRequest opcode values) buffer ↔ ShortStrings values := by
  rw [encodeStringRequest, atomicAt_framed_iff (grows_strings opcode values)
    (inOrder_strings_eq_ok opcode values)]
  constructor
  · exact And.left
  · intro hshort
    exact ⟨hshort, Nat.lt_of_lt_of_le (length_strings_lt hcount hshort) (Nat.sub_le _ _)⟩

/-- Fields of a fixed length after the strings do not change that. -/
theorem atomicAt_encodeStringsAnd_iff {opcode : Nat} {values : List String} {fields : List Encoder}
    {rest : Bytes} (hcount : values.length ≤ 3) (hrest : rest.length ≤ 28)
    (hgrows : ∀ e ∈ fields, Grows e)
    (hfields : ∀ b b', inOrder fields b = (.ok (), b') ↔ b' = b ++ rest) :
    AtomicAt (encodeStringsAnd opcode values fields) buffer ↔ ShortStrings values := by
  have hwritten : buffer.length < (encodeStringsAnd opcode values fields buffer).2.length := by
    have hframe := length_framed (grows_strings opcode values) buffer
    rw [encodeStringsAnd, inOrder]
    split
    · rename_i error middle he
      rw [encodeStringRequest] at he
      rw [he] at hframe
      exact Nat.lt_of_lt_of_le (Nat.lt_add_of_pos_right (by decide)) hframe
    · rename_i middle he
      rw [encodeStringRequest] at he
      rw [he] at hframe
      have hmore : Grows (inOrder [inOrder fields, setFrameLen buffer.length]) := by
        apply grows_inOrder
        simp [grows_inOrder hgrows, grows_setFrameLen]
      exact Nat.lt_of_lt_of_le (Nat.lt_add_of_pos_right (by decide))
        (Nat.le_trans hframe (hmore middle))
  rw [atomicAt_iff_ok hwritten]
  constructor
  · rintro ⟨buffer', hok⟩
    exact (encodeStringsAnd_ok rest (fun b b' => (hfields b b').1) hok).1
  · intro hshort
    have hlen := @length_strings_lt opcode _ hcount hshort
    have hstrings : encodeStringRequest opcode values buffer =
        (.ok (), buffer ++ frameBytes (toBE 1 opcode ++ values.flatMap stringBytes)) :=
      (framed_eq_ok (inOrder_strings_eq_ok opcode values)).2 ⟨⟨hshort, by omega⟩, rfl⟩
    refine ⟨buffer ++ frameBytes ((toBE 1 opcode ++ values.flatMap stringBytes) ++ rest), ?_⟩
    simp only [encodeStringsAnd, inOrder_cons_eq_ok, inOrder_nil_eq_ok]
    refine ⟨_, hstrings, _, (hfields _ _).2 rfl, _, ?_, rfl⟩
    rw [frameBytes, List.append_assoc, List.append_assoc, setFrameLen_eq_ok]
    refine ⟨?_, rfl⟩
    rw [List.length_append]
    omega

/-- The strings that are written without a look at their lengths fit. -/
def Request.Short : Request → Prop
  | .joinGroup r => ShortStrings [r.group, r.topic, r.member]
  | .heartbeat r => ShortStrings [r.group, r.topic, r.member]
  | .leaveGroup r => ShortStrings [r.group, r.topic, r.member]
  | .commitOffset r => ShortStrings [r.group, r.topic, r.member]
  | .fetchCommittedOffset r => ShortStrings [r.group, r.topic]
  | .groupFetch r =>
    validateFetch r.topic r.maxBytes r.maxWaitMs = .ok () → ShortStrings [r.group, r.topic, r.member]
  | _ => True

/-- Compression makes a batch longer by less than half a mebibyte. -/
def Zstd.Compact (zstd : Zstd) : Prop :=
  ∀ records encoded, zstd.compress records = some encoded →
    records.length ≤ MAX_UNCOMPRESSED_BATCH_SIZE → encoded.length < records.length + 512 * 1024

theorem validateTopic_short {topic : String} (h : validateTopic topic = .ok ()) :
    ShortStrings [topic] := by
  intro v hv
  rw [List.mem_singleton.1 hv]
  exact Nat.lt_of_le_of_lt (validateTopic_length h) (by decide)

theorem encodeProduceBatch_atomicAt {zstd : Zstd} (hzstd : zstd.Compact)
    (r : ProduceBatchRequest) : AtomicAt (encodeProduceBatch zstd r) buffer := by
  obtain ⟨htopic, _, _, _, hsize⟩ := r.limits
  have hrecords : encodeBatchRecords r.records [] = (.ok (), batchBytes r.records) :=
    encodeBatchRecords_eq_ok.2 rfl
  cases hcompress : compressBatch zstd r.compression (batchBytes r.records) with
  | error e =>
    intro error buffer' h
    simp only [encodeProduceBatch, hrecords, hcompress, Prod.mk.injEq] at h
    exact h.2.symm
  | ok encoded =>
    have hencoded : encoded.length < (batchBytes r.records).length + 512 * 1024 := by
      cases hkind : r.compression with
      | none =>
        rw [hkind, compressBatch] at hcompress
        cases hcompress
        omega
      | zstd =>
        rw [hkind, compressBatch] at hcompress
        split at hcompress
        · cases hcompress
        · rename_i encoded' hsome
          cases hcompress
          exact hzstd _ _ hsome hsize
    have htopic' := validateTopic_length htopic
    refine .of_ok (encodeProduceBatch_eq_ok.2 ⟨encoded, hcompress, ?_, rfl⟩)
    simp only [ProduceBatchRequest.fields, List.flatten_cons, List.flatten_nil, List.length_append,
      toBE_length, List.length_nil, stringBytes, partitionBytes]
    simp only [MAX_TOPIC_NAME, MAX_UNCOMPRESSED_BATCH_SIZE, MAX_FRAME_SIZE] at *
    omega

theorem encodeLeadershipRequest_atomicAt (opcode : Nat) (topic : String)
    (partition leaderId : UInt32) (leaderEpoch highWatermark : UInt64) :
    AtomicAt (encodeLeadershipRequest opcode topic partition leaderId leaderEpoch highWatermark)
      buffer := by
  rw [encodeLeadershipRequest, atomicAt_require_iff, atomicAt_single]
  intro htopic
  have hname := validateTopic_length htopic
  have hshort : (utf8 topic).length < 65536 := Nat.lt_of_le_of_lt hname (by decide)
  let ending := if opcode = APPLY_LEADERSHIP then
    toBE 8 leaderEpoch.toNat ++ toBE 8 highWatermark.toNat else []
  have hending : ending.length ≤ 16 := by
    by_cases happly : opcode = APPLY_LEADERSHIP
    · simp [ending, happly]
    · simp [ending, happly]
  refine (@atomicAt_framed_iff _ _ True (toBE 1 opcode ++ (stringBytes topic ++
    (toBE 4 partition.toNat ++ (toBE 4 leaderId.toNat ++ ending)))) ?_ ?_).2 ⟨trivial, ?_⟩
  · by_cases happly : opcode = APPLY_LEADERSHIP
    · simp [happly, grows_put, grows_encodeString, grows_inOrder]
    · simp [happly, grows_put, grows_encodeString, grows_inOrder]
  · intro b b'
    by_cases happly : opcode = APPLY_LEADERSHIP
    · simp [happly, hshort, ending]
    · simp [happly, hshort, ending]
  · simp only [stringBytes, List.length_append, toBE_length, MAX_TOPIC_NAME] at hname ⊢
    omega

/-- The requests that are short are those whose encoder is atomic. -/
theorem encodeRequest_atomicAt_iff {zstd : Zstd} (hzstd : zstd.Compact) (r : Request) :
    AtomicAt (encodeRequest zstd r) buffer ↔ r.Short := by
  cases r with
  | produce r => exact iff_of_true (.of_ok (encodeProduce_eq_ok.2 rfl)) trivial
  | produceBatch r => exact iff_of_true (encodeProduceBatch_atomicAt hzstd r) trivial
  | fetch r => exact iff_of_true (.of_ok (encodeFetch_eq_ok.2 rfl)) trivial
  | joinGroup r => exact atomicAt_encodeStringRequest_iff (by simp)
  | heartbeat r =>
    exact @atomicAt_encodeStringsAnd_iff _ _ _ _ [toBE 8 r.generation.toNat].flatten (by simp)
      (by simp) (by simp [grows_put]) (by simp)
  | leaveGroup r =>
    exact @atomicAt_encodeStringsAnd_iff _ _ _ _ [toBE 8 r.generation.toNat].flatten (by simp)
      (by simp) (by simp [grows_put]) (by simp)
  | commitOffset r =>
    exact @atomicAt_encodeStringsAnd_iff _ _ _ _ [toBE 8 r.generation.toNat,
      toBE 4 r.partition.toNat, toBE 8 r.offset.toNat].flatten (by simp) (by simp)
      (by simp [grows_put]) (by simp)
  | fetchCommittedOffset r =>
    exact @atomicAt_encodeStringsAnd_iff _ _ _ _ [toBE 4 r.partition.toNat].flatten (by simp)
      (by simp) (by simp [grows_put]) (by simp)
  | groupFetch r =>
    show AtomicAt (encodeGroupFetch r) buffer ↔ _
    rw [encodeGroupFetch, atomicAt_require_iff, atomicAt_single]
    exact imp_congr_right fun _ => @atomicAt_encodeStringsAnd_iff _ _ _ _
      [toBE 8 r.generation.toNat, toBE 4 r.partition.toNat, toBE 8 r.offset.toNat,
        toBE 4 r.maxBytes.toNat, toBE 4 r.maxWaitMs.toNat].flatten (by simp) (by simp)
      (by simp [grows_put]) (by simp)
  | createTopic r =>
    show AtomicAt (encodeCreateTopic r) buffer ↔ True
    rw [encodeCreateTopic, atomicAt_require_iff, atomicAt_require_iff, atomicAt_single]
    simp only [iff_true]
    intro htopic _
    exact (@atomicAt_encodeStringsAnd_iff _ _ _ _ [toBE 4 r.partitions.toNat].flatten (by simp)
      (by simp) (by simp [grows_put]) (by simp)).2 (validateTopic_short htopic)
  | listTopics => exact iff_of_true (.of_ok rfl) trivial
  | describeTopic topic =>
    show AtomicAt (inOrder [require (validateTopic topic), encodeStringRequest DESCRIBE_TOPIC
      [topic]]) buffer ↔ True
    rw [atomicAt_require_iff, atomicAt_single]
    simp only [iff_true]
    intro htopic
    exact (atomicAt_encodeStringRequest_iff (by simp)).2 (validateTopic_short htopic)
  | clusterMetadata => exact iff_of_true (.of_ok rfl) trivial
  | promoteLeader r => exact iff_of_true (encodeLeadershipRequest_atomicAt _ _ _ _ _ _) trivial
  | applyLeadership r => exact iff_of_true (encodeLeadershipRequest_atomicAt _ _ _ _ _ _) trivial
  | partitionStatus r =>
    show AtomicAt (inOrder [require (validateTopic r.topic), encodeStringsAnd PARTITION_STATUS
      [r.topic] [put (toBE 4 r.partition.toNat)]]) buffer ↔ True
    rw [atomicAt_require_iff, atomicAt_single]
    simp only [iff_true]
    intro htopic
    exact (@atomicAt_encodeStringsAnd_iff _ _ _ _ [toBE 4 r.partition.toNat].flatten (by simp)
      (by simp) (by simp [grows_put]) (by simp)).2 (validateTopic_short htopic)

end Requests

/-! ## Responses -/

section Responses

variable {buffer : Bytes}

/-- What the encoder of a response does not look at before it writes: counts, texts and, where it
does not take the frame back, the length of the frame. -/
def Response.Short : Response → Prop
  | .produceBatchAck acks => 5 + 12 * acks.length < 2 ^ 32
  | .fetch response => response.records.length < 2 ^ 32 ∧ ∀ record ∈ response.records, record.Fits
  | .topics ts =>
    ts.length < 2 ^ 32 ∧ (∀ topic ∈ ts, topic.Valid) ∧
      5 + (ts.map TopicMetadata.size).sum < 2 ^ 32
  | .clusterMetadata metadata =>
    metadata.nodes ≠ [] → metadata.nodes.length ≤ MAX_CLUSTER_NODES →
      ShortStrings (metadata.nodes.map ClusterNode.host)
  | .error message => ShortStrings [message]
  | _ => True

theorem encodeProduceBatchAck_atomicAt_iff (acks : List ProduceAck) :
    AtomicAt (encodeResponse (.produceBatchAck acks)) buffer ↔ 5 + 12 * acks.length < 2 ^ 32 := by
  have hbytes := @length_flatMap ProduceAck ProduceAck.bytes 12 (by simp [ProduceAck.bytes]) acks
  have hgrows : ∀ ack, Grows (encodeProduceAck ack) := by
    intro ack
    apply grows_inOrder
    simp [grows_put]
  rw [encodeResponse, @atomicAt_framed_iff _ _ (acks.length < 2 ^ 32)
    (toBE 1 PRODUCE_BATCH_ACK ++ (toBE 4 acks.length ++ acks.flatMap ProduceAck.bytes))
    (by simp [grows_put, grows_putLen, grows_map hgrows]) (by simp [encodeProduceAcks_eq_ok])]
  simp only [List.length_append, toBE_length, hbytes]
  omega

theorem encodeFetchResponse_atomicAt_iff (response : FetchResponse) :
    AtomicAt (encodeFetchResponse response) buffer ↔
      response.records.length < 2 ^ 32 ∧ ∀ record ∈ response.records, record.Fits := by
  have hkey : ∀ key, Grows (putKeyLen key) := by
    intro key
    cases key with
    | none => exact grows_put _
    | some key => exact grows_inOrder (by simp [grows_put, grows_require])
  have hgrows : ∀ record, Grows (encodeFetchedRecord record) := by
    intro record
    exact grows_inOrder (by simp [grows_put, grows_putLen, hkey])
  have hwritten := @length_put_inOrder (toBE 4 0) [put (toBE 1 FETCH_RESPONSE),
    putLen 4 response.records.length .frameTooLarge,
    inOrder (response.records.map encodeFetchedRecord)]
    (by simp [grows_put, grows_putLen, grows_map hgrows]) buffer
  have hok : ∀ written, inOrder [put (toBE 4 0), put (toBE 1 FETCH_RESPONSE),
      putLen 4 response.records.length .frameTooLarge,
      inOrder (response.records.map encodeFetchedRecord)] buffer = (.ok (), written) ↔
      (response.records.length < 2 ^ 32 ∧ ∀ record ∈ response.records, record.Fits) ∧
        written = buffer ++ (toBE 4 0 ++ (toBE 1 FETCH_RESPONSE ++
          (toBE 4 response.records.length ++ response.records.flatMap FetchedRecord.bytes))) := by
    intro written
    simp [encodeFetchedRecords_eq_ok, and_assoc]
  constructor
  · intro hatomic
    cases hresult : inOrder [put (toBE 4 0), put (toBE 1 FETCH_RESPONSE),
      putLen 4 response.records.length .frameTooLarge,
      inOrder (response.records.map encodeFetchedRecord)] buffer with
    | mk result written =>
      cases result with
      | ok _ => exact ((hok written).1 hresult).1
      | error error =>
        have hsame := hatomic error written (by simp only [encodeFetchResponse, hresult])
        rw [hresult, hsame, toBE_length] at hwritten
        exact absurd hwritten (by simp)
  · intro hfits error buffer' h
    -- the fields are written, so the error is that of the frame, which is taken back
    simp only [encodeFetchResponse, (hok _).2 ⟨hfits, rfl⟩] at h
    split at h
    · simp only [Prod.mk.injEq, List.take_left] at h
      exact h.2.symm
    · rename_i hmax
      rw [← List.append_assoc] at hmax
      have hset := (@setFrameLen_eq_ok buffer (toBE 1 FETCH_RESPONSE ++
        (toBE 4 response.records.length ++ response.records.flatMap FetchedRecord.bytes)) _ 0).2
        ⟨by
          simp only [List.length_append, toBE_length, FRAME_HEADER_SIZE, MAX_FRAME_SIZE] at hmax ⊢
          omega, rfl⟩
      rw [hset] at h
      cases h

theorem encodeTopicsResponse_atomicAt_iff (topics : List TopicMetadata) :
    AtomicAt (encodeTopicsResponse topics) buffer ↔
      topics.length < 2 ^ 32 ∧ (∀ topic ∈ topics, topic.Valid) ∧
        5 + (topics.map TopicMetadata.size).sum < 2 ^ 32 := by
  have htopics := fun b b' => @inOrder_map_eq_ok TopicMetadata encodeTopicMetadata
    TopicMetadata.Valid TopicMetadata.bytes (fun _ _ _ => encodeTopicMetadata_eq_ok) topics b b'
  have hgrows : ∀ topic, Grows (encodeTopicMetadata topic) := by
    intro topic
    apply grows_inOrder
    simp [grows_put, grows_putLen, grows_require, grows_encodeString, grows_map]
  rw [encodeTopicsResponse, @atomicAt_framed_iff _ _
    (topics.length < 2 ^ 32 ∧ ∀ topic ∈ topics, topic.Valid)
    (toBE 1 TOPICS_RESPONSE ++ (toBE 4 topics.length ++ topics.flatMap TopicMetadata.bytes))
    (by simp [grows_put, grows_putLen, grows_map hgrows]) (by simp [htopics, and_assoc]), and_assoc]
  refine and_congr_right fun _ => and_congr_right fun hall => ?_
  simp only [List.length_append, toBE_length, length_topics hall]
  omega

theorem encodeClusterMetadata_atomicAt_iff (metadata : ClusterMetadata) :
    AtomicAt (encodeClusterMetadata metadata) buffer ↔
      (metadata.nodes ≠ [] → metadata.nodes.length ≤ MAX_CLUSTER_NODES →
        ShortStrings (metadata.nodes.map ClusterNode.host)) := by
  have hnodes := fun b b' => @inOrder_map_eq_ok ClusterNode encodeClusterNode
    (fun node => (utf8 node.host).length < 65536) ClusterNode.bytes
    (fun _ _ _ => encodeClusterNode_eq_ok) metadata.nodes b b'
  have hgrows : ∀ node, Grows (encodeClusterNode node) := by
    intro node
    exact grows_inOrder (by simp [grows_put, grows_encodeString])
  have hframed := @atomicAt_framed_iff buffer [put (toBE 1 CLUSTER_METADATA_RESPONSE),
    put (toBE 4 metadata.respondingBrokerId.toNat), putLen 4 metadata.nodes.length .frameTooLarge,
    inOrder (metadata.nodes.map encodeClusterNode)]
    (metadata.nodes.length < 2 ^ 32 ∧ ∀ node ∈ metadata.nodes, (utf8 node.host).length < 65536)
    (toBE 1 CLUSTER_METADATA_RESPONSE ++ (toBE 4 metadata.respondingBrokerId.toNat ++
      (toBE 4 metadata.nodes.length ++ metadata.nodes.flatMap ClusterNode.bytes)))
    (by simp [grows_put, grows_putLen, grows_map hgrows]) (by simp [hnodes, and_assoc])
  rw [encodeClusterMetadata, atomicAt_require_iff, atomicAt_single, hframed, ite_error_eq_ok,
    not_or, Nat.not_lt, and_imp]
  refine imp_congr_right fun hne => imp_congr_right fun hmax => ?_
  have hcount : metadata.nodes.length < 2 ^ 32 := Nat.lt_of_le_of_lt hmax (by decide)
  have hlen : (∀ node ∈ metadata.nodes, (utf8 node.host).length < 65536) →
      (metadata.nodes.flatMap ClusterNode.bytes).length ≤ metadata.nodes.length * 65547 := by
    intro hall
    rw [List.length_flatMap, ← List.length_map (fun node => node.bytes.length)]
    apply List.sum_le_card_nsmul
    intro n hn
    obtain ⟨node, hnode, rfl⟩ := List.mem_map.1 hn
    have hhost := hall node hnode
    simp only [ClusterNode.bytes, stringBytes, List.length_append, toBE_length]
    omega
  simp only [ShortStrings, List.forall_mem_map]
  constructor
  · rintro ⟨⟨_, hall⟩, _⟩
    exact hall
  · intro hall
    refine ⟨⟨hcount, hall⟩, ?_⟩
    have hbytes := hlen hall
    simp only [MAX_CLUSTER_NODES] at hmax
    simp only [List.length_append, toBE_length]
    omega

theorem encodeStringResponse_atomicAt_iff (opcode : Nat) (message : String) :
    AtomicAt (encodeStringResponse opcode message) buffer ↔ ShortStrings [message] := by
  have hsame : encodeStringResponse opcode message = encodeStringRequest opcode [message] := rfl
  rw [hsame]
  exact atomicAt_encodeStringRequest_iff (by simp)

/-- The responses that are short are those whose encoder is atomic. -/
theorem encodeResponse_atomicAt_iff (r : Response) :
    AtomicAt (encodeResponse r) buffer ↔ r.Short := by
  cases r with
  | produceAck ack => exact iff_of_true (.of_ok rfl) trivial
  | produceBatchAck acks => exact encodeProduceBatchAck_atomicAt_iff acks
  | fetch response => exact encodeFetchResponse_atomicAt_iff response
  | joinGroup response =>
    refine iff_of_true ?_ trivial
    show AtomicAt (encodeJoinGroupResponse response) buffer
    rcases Nat.lt_or_ge response.partitions.length (2 ^ 32) with hcount | hmany
    · exact .of_ok (encodeJoinGroupResponse_eq_ok.2 ⟨hcount, rfl⟩)
    · rw [encodeJoinGroupResponse, atomicAt_require_iff, if_pos hmany]
      intro hno
      cases hno
  | groupAck => exact iff_of_true (.of_ok rfl) trivial
  | committedOffset offset => exact iff_of_true (.of_ok rfl) trivial
  | topics topics => exact encodeTopicsResponse_atomicAt_iff topics
  | clusterMetadata metadata => exact encodeClusterMetadata_atomicAt_iff metadata
  | leadershipChanged leadership => exact iff_of_true (.of_ok rfl) trivial
  | partitionStatus nextOffset => exact iff_of_true (.of_ok rfl) trivial
  | error message => exact encodeStringResponse_atomicAt_iff ERROR_RESPONSE message

end Responses

/-! ## Replication -/

theorem encodeReplicateRecord_atomicAt (r : ReplicateRecord) (buffer : Bytes) :
    AtomicAt (encodeReplicateRecord r) buffer := by
  rw [encodeReplicateRecord]
  simp only [atomicAt_require_iff, atomicAt_single, validateSize_eq_ok]
  intro htopic hkey hvalue
  have hname := validateTopic_length htopic
  have hname' : (utf8 r.topic).length < 65536 := Nat.lt_of_le_of_lt hname (by decide)
  have hkey' : r.keyBytes.length < 65536 := Nat.lt_of_le_of_lt hkey (by decide)
  have hvalue' : r.value.length < 4294967296 := Nat.lt_of_le_of_lt hvalue (by decide)
  have hlen : r.fields.flatten.length < 2 ^ 32 := Nat.lt_of_le_of_lt
    (ReplicateRecord.length_fields_le hname hkey hvalue) (by decide)
  refine (@atomicAt_framed_iff _ _ True r.fields.flatten ?_ ?_).2 ⟨trivial, hlen⟩
  · simp [grows_put, grows_putLen, grows_encodeString]
  · simp [ReplicateRecord.fields, hname', hkey', hvalue']

theorem encodeReplicateAck_atomicAt (ack : ReplicateAck) (buffer : Bytes) :
    AtomicAt (encodeReplicateAck ack) buffer :=
  (@atomicAt_framed_iff _ _ True [toBE 1 REPLICATE_ACK, toBE 4 ack.partition.toNat,
    toBE 8 ack.nextOffset.toNat].flatten (by simp [grows_put]) (by simp)).2
    ⟨trivial, by simp⟩

/-! ## The buffer of a client -/

/-- `request` up to the write to the stream: what is written, and the buffer of the next call. -/
def clientRequest (zstd : Zstd) (writeBuffer : Bytes) (request : Request) :
    Except ProtocolError Bytes × Bytes :=
  match encodeRequest zstd request writeBuffer with
  | (.error e, left) => (.error e, left)
  | (.ok (), written) => (.ok written, [])

/-- What the calls of one client write. -/
def clientRequests (zstd : Zstd) : Bytes → List Request → List (Except ProtocolError Bytes)
  | _, [] => []
  | writeBuffer, r :: rs =>
    (clientRequest zstd writeBuffer r).1 :: clientRequests zstd (clientRequest zstd writeBuffer r).2 rs

section Client

variable {zstd : Zstd}

theorem clientRequest_left_iff {r : Request} :
    (clientRequest zstd [] r).2 = [] ↔ AtomicAt (encodeRequest zstd r) [] := by
  rw [clientRequest]
  split
  · rename_i error left hresult
    constructor
    · intro hleft error' buffer' h
      rw [hresult] at h
      cases h
      exact hleft
    · intro hatomic
      exact hatomic error left hresult
  · rename_i written hresult
    exact iff_of_true rfl (.of_ok hresult)

/-- A request that is short leaves nothing in the way of the next. -/
theorem next_framed_iff (hzstd : zstd.Compact) (r : Request) :
    (∀ next, (clientRequest zstd (clientRequest zstd [] r).2 next).1 =
      (clientRequest zstd [] next).1) ↔ r.Short := by
  rw [← encodeRequest_atomicAt_iff hzstd, ← clientRequest_left_iff]
  constructor
  · intro h
    have htopics := h .listTopics
    generalize (clientRequest zstd [] r).2 = left at htopics ⊢
    simpa [clientRequest, encodeRequest, inOrder, put] using htopics
  · intro h next
    rw [h]

/-- **Calls whose requests are short** write their own frames and nothing else. -/
theorem clientRequests_short (hzstd : zstd.Compact) {rs : List Request} (h : ∀ r ∈ rs, r.Short) :
    clientRequests zstd [] rs = rs.map fun r => (clientRequest zstd [] r).1 := by
  induction rs with
  | nil => rfl
  | cons r rs ih =>
    rw [List.forall_mem_cons] at h
    have hleft : (clientRequest zstd [] r).2 = [] :=
      clientRequest_left_iff.2 ((encodeRequest_atomicAt_iff hzstd r).2 h.1)
    rw [clientRequests, List.map_cons, hleft, ih h.2]

end Client

/-- **The values with which the encoders are atomic.** -/
theorem encoder_atomic_iff {zstd : Zstd} (hzstd : zstd.Compact) :
    (∀ r buffer, AtomicAt (encodeRequest zstd r) buffer ↔ r.Short) ∧
    (∀ r buffer, AtomicAt (encodeResponse r) buffer ↔ r.Short) ∧
    (∀ r buffer, AtomicAt (encodeReplicateRecord r) buffer) ∧
    (∀ ack buffer, AtomicAt (encodeReplicateAck ack) buffer) ∧
    (∀ r, (∀ next, (clientRequest zstd (clientRequest zstd [] r).2 next).1 =
      (clientRequest zstd [] next).1) ↔ r.Short) ∧
    ∀ rs : List Request, (∀ r ∈ rs, r.Short) →
      clientRequests zstd [] rs = rs.map fun r => (clientRequest zstd [] r).1 := by
  refine ⟨fun r buffer => ?_, fun r buffer => ?_, fun r buffer => ?_, fun ack buffer => ?_,
    fun r => ?_, fun rs h => ?_⟩
  · exact encodeRequest_atomicAt_iff hzstd r
  · exact encodeResponse_atomicAt_iff r
  · exact encodeReplicateRecord_atomicAt r buffer
  · exact encodeReplicateAck_atomicAt ack buffer
  · exact next_framed_iff hzstd r
  · exact clientRequests_short hzstd h

/-- A heartbeat that fits, and the answer to a topic without partitions. -/
theorem encoder_atomic_iff_heartbeat :
    AtomicAt (encodeRequest rawZstd (.heartbeat ⟨"billing", "orders", "m1", 3⟩)) [7] ∧
    ¬ AtomicAt (encodeResponse (.topics [⟨"orders", 0, [], [], []⟩])) [7] := by
  have hraw : rawZstd.Compact := by
    intro records encoded h _
    cases h
    simp
  obtain ⟨hrequest, hresponse, _⟩ := encoder_atomic_iff hraw
  refine ⟨(hrequest _ _).2 ?_, fun h => ?_⟩
  · intro v hv
    simp only [List.mem_cons, List.not_mem_nil, or_false] at hv
    rcases hv with rfl | rfl | rfl
    · decide
    · decide
    · decide
  · have hvalid := ((hresponse _ _).1 h).2.1 _ List.mem_cons_self
    exact hvalid.positive rfl

/-- A group whose id is one byte longer than its length can say. -/
def longGroup : GroupMemberRequest := ⟨String.ofList (List.replicate 65536 'a'), "orders", "m1"⟩

theorem length_utf8_replicate (n : Nat) :
    (utf8 (String.ofList (List.replicate n 'a'))).length = n := by
  rw [Storage.utf8_eq_flatMap, String.toList_ofList]
  induction n with
  | zero => rfl
  | succ n ih =>
    rw [List.replicate_succ, List.flatMap_cons, List.length_append, ih, Nat.add_comm]
    rfl

theorem length_longGroup : (utf8 longGroup.group).length = 65536 := length_utf8_replicate 65536

/-- A group id that is too long is refused behind the header. -/
theorem encodeGroupMember_long {r : GroupMemberRequest} (h : 65536 ≤ (utf8 r.group).length)
    (opcode : Nat) (buffer : Bytes) :
    encodeGroupMember opcode r buffer =
      (.error .invalidFrame, buffer ++ toBE 4 0 ++ toBE 1 opcode) := by
  have hlong : 256 ^ 2 ≤ (utf8 r.group).length := h
  simp only [encodeGroupMember, encodeStringRequest, framed, List.map_cons, inOrder, put,
    encodeString, putLen, require, if_pos hlong]

/-- **The id is refused after the header was written, and the next request is written behind it**: the
broker reads a frame of length zero. -/
theorem long_group_spoils_connection :
    encodeRequest rawZstd (.joinGroup longGroup) [] = (.error .invalidFrame, [0, 0, 0, 0, 0x20]) ∧
    clientRequests rawZstd [] [.joinGroup longGroup, .listTopics] =
      [.error .invalidFrame, .ok [0, 0, 0, 0, 0x20, 0, 0, 0, 1, 0x31]] ∧
    decodeRequest rawZstd [0, 0, 0, 0, 0x20, 0, 0, 0, 1, 0x31] = .error .invalidFrame ∧
    ¬ ∀ zstd r buffer, AtomicAt (encodeRequest zstd r) buffer := by
  have hencode : encodeRequest rawZstd (.joinGroup longGroup) [] =
      (.error .invalidFrame, [0, 0, 0, 0, 0x20]) :=
    encodeGroupMember_long (Nat.le_of_eq length_longGroup.symm) JOIN_GROUP []
  have hfirst : clientRequest rawZstd [] (.joinGroup longGroup) =
      (.error .invalidFrame, [0, 0, 0, 0, 0x20]) := by
    rw [clientRequest, hencode]
  have htake : takeFrame [0, 0, 0, 0, 0x20, 0, 0, 0, 1, 0x31] = .error .invalidFrame :=
    (@takeFrame_header [0, 0, 0, 0] rfl [0x20, 0, 0, 0, 1, 0x31]).trans (if_pos rfl)
  refine ⟨hencode, ?_, ?_, fun h => ?_⟩
  · rw [clientRequests, hfirst]
    rfl
  · rw [decodeRequest, decodeFrame, htake]
  · have hsame := h rawZstd (.joinGroup longGroup) [] _ _ hencode
    cases hsame

end SevlaMq.Protocol
