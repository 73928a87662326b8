import SevlaMq.Protocol.Grammar
import SevlaMq.Protocol.Replicate
import SevlaMq.Protocol.ResponseRoundTrip

/-!
# The grammar of the responses and of replication

* `Response.Fields`, `Response.Says` — the bodies of the frames that say a response; only the offset
  of an answer without an offset can be anything.
* `response_decoded_iff_says` — `decode_response` returns a response exactly when the buffer begins
  with a frame that says it.
* `replication_decoded_iff` — the same for the records and the acknowledgements of replication,
  which have one form each.
-/

set_option autoImplicit false

namespace SevlaMq.Protocol

open SevlaMq.Storage (utf8)

/-! ## The grammar -/

def CommittedOffsetSpelled : Option UInt64 → Bytes → Prop
  | some offset, s => s = toBE 1 1 ++ toBE 8 offset.toNat
  | none, s => ∃ unread : UInt64, s = toBE 1 0 ++ toBE 8 unread.toNat

def PartitionLeadership.bytes (leadership : PartitionLeadership) : Bytes :=
  [toBE 4 leadership.partition.toNat, toBE 4 leadership.leaderId.toNat,
    toBE 8 leadership.leaderEpoch.toNat, toBE 8 leadership.highWatermark.toNat].flatten

def Response.code : Response → Nat
  | .produceAck _ => PRODUCE_ACK
  | .produceBatchAck _ => PRODUCE_BATCH_ACK
  | .fetch _ => FETCH_RESPONSE
  | .joinGroup _ => JOIN_GROUP_RESPONSE
  | .groupAck => GROUP_ACK
  | .committedOffset _ => COMMITTED_OFFSET_RESPONSE
  | .topics _ => TOPICS_RESPONSE
  | .clusterMetadata _ => CLUSTER_METADATA_RESPONSE
  | .leadershipChanged _ => LEADERSHIP_CHANGED
  | .partitionStatus _ => PARTITION_STATUS_RESPONSE
  | .error _ => ERROR_RESPONSE

/-- A number of elements and then the elements. -/
def Listed {α : Type} (Fits : α → Prop) (bytes : α → Bytes) (as : List α) (s : Bytes) : Prop :=
  as.length < 4294967296 ∧ (∀ a ∈ as, Fits a) ∧ s = toBE 4 as.length ++ as.flatMap bytes

theorem Response.code_lt (r : Response) : r.code < 256 ^ 1 := by
  cases r <;> rw [Response.code] <;> decide

/-- What may stand behind the opcode. -/
def Response.Fields : Response → Bytes → Prop
  | .produceAck ack, s => s = ack.bytes
  | .produceBatchAck acks, s => acks ≠ [] ∧ acks.length ≤ MAX_BATCH_MESSAGES ∧
      Listed (fun _ => True) ProduceAck.bytes acks s
  | .fetch response, s => Listed FetchedRecord.Fits FetchedRecord.bytes response.records s
  | .joinGroup response, s => ∃ partitions,
      Listed (fun _ => True) (fun x : UInt32 => toBE 4 x.toNat) response.partitions partitions ∧
        s = toBE 8 response.generation.toNat ++ partitions
  | .groupAck, s => s = []
  | .committedOffset offset, s => CommittedOffsetSpelled offset s
  | .topics ts, s => Listed TopicMetadata.Valid TopicMetadata.bytes ts s
  | .clusterMetadata metadata, s => metadata.nodes ≠ [] ∧
      metadata.nodes.length ≤ MAX_CLUSTER_NODES ∧ ∃ nodes,
        Listed (fun node => (utf8 node.host).length < 65536) ClusterNode.bytes metadata.nodes
          nodes ∧
          s = toBE 4 metadata.respondingBrokerId.toNat ++ nodes
  | .leadershipChanged leadership, s => s = leadership.bytes
  | .partitionStatus nextOffset, s => s = toBE 8 nextOffset.toNat
  | .error message, s => (utf8 message).length < 65536 ∧ s = stringBytes message

/-- The body of a frame says the response. -/
def Response.Says (r : Response) (body : Bytes) : Prop :=
  ∃ fields, r.Fields fields ∧ body = toBE 1 r.code ++ fields

/-! ## Numbers and acknowledgements -/

section Fixed

variable {α β : Type} {bytes : α → Bytes} {n : Nat}

/-- A reader of `n` bytes, on `n` bytes. -/
theorem recognizes_length {q : Parser α} (h : Recognizes q fun a s => True ∧ s = bytes a)
    (hlen : ∀ a, (bytes a).length = n) {frame left : Bytes} {a : α} (hframe : frame.length = n) :
    q frame = .ok (a, left) ↔ frame = bytes a ∧ left = [] := by
  rw [h]
  constructor
  · rintro ⟨_, ⟨_, rfl⟩, rfl⟩
    rw [List.length_append, hlen] at hframe
    have hleft : left = [] := List.length_eq_zero_iff.1 (by omega)
    rw [hleft, List.append_nil]
    exact ⟨rfl, rfl⟩
  · rintro ⟨rfl, rfl⟩
    exact ⟨_, ⟨trivial, rfl⟩, (List.append_nil _).symm⟩

theorem exactly_covers {opcode : Nat} {q : Parser α} (f : α → β)
    (h : Recognizes q fun a s => True ∧ s = bytes a) (hlen : ∀ a, (bytes a).length = n) :
    Covers (exactly opcode n (f <$> q)) fun b s => ∃ a, s = bytes a ∧ b = f a := by
  intro frame b left
  rw [exactly]
  split
  · rename_i hframe
    rw [map_eq_ok_iff]
    constructor
    · rintro ⟨a, hq, hb⟩
      obtain ⟨hs, hleft⟩ := (recognizes_length h hlen hframe).1 hq
      exact ⟨⟨a, hs, hb⟩, hleft⟩
    · rintro ⟨⟨a, hs, hb⟩, hleft⟩
      exact ⟨a, (recognizes_length h hlen hframe).2 ⟨hs, hleft⟩, hb⟩
  · rename_i hframe
    constructor
    · intro h
      cases h
    · rintro ⟨⟨a, rfl, _⟩, _⟩
      exact absurd (hlen a) hframe

end Fixed

theorem getU32_recognizes : Recognizes getU32 fun x s => True ∧ s = toBE 4 x.toNat := by
  intro frame x left
  constructor
  · intro h
    obtain ⟨n, hn, rfl⟩ := (map_eq_ok_iff _ _ _ _).1 h
    obtain ⟨_, ⟨hlt, rfl⟩, rfl⟩ := (getInt_recognizes 4 _ _ _).1 hn
    exact ⟨_, ⟨trivial, rfl⟩, by rw [UInt32.toNat_ofNat_of_lt' hlt]⟩
  · rintro ⟨_, ⟨_, rfl⟩, rfl⟩
    exact getU32_append x left

theorem getU64_recognizes : Recognizes getU64 fun x s => True ∧ s = toBE 8 x.toNat := by
  intro frame x left
  constructor
  · intro h
    obtain ⟨n, hn, rfl⟩ := (map_eq_ok_iff _ _ _ _).1 h
    obtain ⟨_, ⟨hlt, rfl⟩, rfl⟩ := (getInt_recognizes 8 _ _ _).1 hn
    exact ⟨_, ⟨trivial, rfl⟩, by rw [UInt64.toNat_ofNat_of_lt' hlt]⟩
  · rintro ⟨_, ⟨_, rfl⟩, rfl⟩
    exact getU64_append x left

theorem readProduceAck_recognizes : Recognizes readProduceAck fun ack s =>
    True ∧ s = ack.bytes := by
  intro frame ack left
  constructor
  · intro h
    simp only [readProduceAck, getInt_u32_bind_eq_ok, getInt_u64_bind_eq_ok, pure_eq_ok] at h
    obtain ⟨partition, _, rfl, offset, _, rfl, ⟨⟩⟩ := h
    exact ⟨_, ⟨trivial, rfl⟩, by simp [ProduceAck.bytes]⟩
  · rintro ⟨_, ⟨_, rfl⟩, rfl⟩
    rw [ProduceAck.bytes, List.append_assoc]
    exact readProduceAck_append ack left

theorem decodeProduceAck_covers : Covers decodeProduceAck fun ack s => s = ack.bytes := by
  intro frame ack left
  have hlen : ∀ ack : ProduceAck, ack.bytes.length = 4 + 8 := fun ack => by
    simp [ProduceAck.bytes]
  rw [decodeProduceAck]
  split
  · rename_i hframe
    constructor
    · intro h
      cases h
    · rintro ⟨rfl, _⟩
      exact absurd (hlen ack) hframe
  · rename_i hframe
    exact recognizes_length readProduceAck_recognizes hlen (not_not.1 hframe)

theorem decodeProduceBatchAck_covers : Covers decodeProduceBatchAck fun acks s =>
    acks ≠ [] ∧ acks.length ≤ MAX_BATCH_MESSAGES ∧
      Listed (fun _ => True) ProduceAck.bytes acks s := by
  intro frame acks left
  constructor
  · intro h
    simp only [decodeProduceBatchAck, ensureRemaining_bind_eq_ok, getInt_bind_eq_ok,
      ensure_bind_eq_ok, ite_error_eq_ok, not_or, not_lt,
      readMany_bind_eq_ok readProduceAck_recognizes, ensureEmpty_bind_eq_ok, pure_eq_ok] at h
    obtain ⟨_, _, hlt, _, rfl, ⟨hzero, hmax⟩, _, acks, _, rfl, _, rfl, rfl, ⟨⟩⟩ := h
    exact ⟨⟨fun hnil => hzero (by rw [hnil, List.length_nil]), hmax, hlt, fun _ _ => trivial,
      by simp⟩, rfl⟩
  · rintro ⟨⟨hne, hmax, hlt, _, rfl⟩, rfl⟩
    have hzero : ¬ (acks.length = 0 ∨ acks.length > MAX_BATCH_MESSAGES) := by
      rw [List.length_eq_zero_iff]
      simp [hne, hmax]
    have hlt' : acks.length < 256 ^ 4 := hlt
    have hbytes := @length_flatMap ProduceAck ProduceAck.bytes (4 + 8)
      (fun ack => by simp [ProduceAck.bytes]) acks
    have hall : readMany readProduceAck acks.length (acks.flatMap ProduceAck.bytes ++ []) =
        .ok (acks, []) := (readMany_recognizes readProduceAck_recognizes _ _ _ _).2
      ⟨_, ⟨rfl, fun _ _ => trivial, rfl⟩, rfl⟩
    rw [decodeProduceBatchAck, ensureRemaining_bind (by simp), getInt_bind hlt',
      ensure_bind (by simpa using hzero), ensureRemaining_bind (by omega),
      ← List.append_nil (List.flatMap _ _), Parser.bind_ok hall]
    rfl

/-! ## Records -/

/-- The length of a key is that of the key, or `-1`. -/
theorem readKey_bind_ok {β : Type} {n : Nat} (hn : n < 256 ^ 4) {f : Option Bytes → Parser β}
    {frame : Bytes} {p : β × Bytes} (h : (readKey (toI32 n) >>= f) frame = .ok p) :
    ∃ key left, (key.getD []).length < 2147483648 ∧ n = keyLen key ∧
      frame = key.getD [] ++ left ∧ f key left = .ok p := by
  obtain ⟨key, left, hkey, hf⟩ := (bind_eq_ok_iff _ _ _ _).1 h
  unfold readKey at hkey
  split at hkey
  · rename_i hnone
    cases hkey
    have hneg : n = 4294967295 := by
      unfold toI32 at hnone
      split at hnone
      · omega
      · omega
    exact ⟨none, _, by decide, by rw [hneg]; decide, rfl, hf⟩
  · rename_i hsome
    split at hkey
    · rename_i hpos
      have hsmall : n < 2 ^ 31 := by
        unfold toI32 at hpos
        split at hpos
        · assumption
        · omega
      obtain ⟨bs, hbs, rfl⟩ := (map_eq_ok_iff _ _ _ _).1 hkey
      have hread := (@readBytes_bind_eq_ok _ frame (bs, left) _ pure).1
        (by rw [bind_pure]; exact hbs)
      obtain ⟨bs', left', hlen, rfl, hpure⟩ := hread
      cases hpure
      have htoNat : (toI32 n).toNat = n := by
        rw [toI32, if_pos hsmall, Int.toNat_natCast]
      rw [htoNat] at hlen
      refine ⟨some bs, left, ?_, ?_, rfl, hf⟩
      · rw [Option.getD_some, hlen]
        exact hsmall
      · rw [keyLen, hlen, ofI32]
        omega
    · cases hkey

theorem decodeFetchedRecord_recognizes : Recognizes decodeFetchedRecord fun record s =>
    record.Fits ∧ s = record.bytes := by
  intro frame record left
  constructor
  · intro h
    simp only [decodeFetchedRecord, ensureRemaining_bind_eq_ok, getInt_u64_bind_eq_ok,
      @getInt_bind_eq_ok _ _ _ 4] at h
    obtain ⟨_, offset, _, rfl, timestampMs, _, rfl, n, hn, _, rfl, m, hm, _, rfl, h⟩ := h
    obtain ⟨key, _, hkey, rfl, rfl, hvalue⟩ := readKey_bind_ok hn h
    simp only [readBytes_bind_eq_ok, pure_eq_ok] at hvalue
    obtain ⟨value, _, rfl, rfl, ⟨⟩⟩ := hvalue
    exact ⟨_, ⟨⟨hkey, hm⟩, rfl⟩, by simp [FetchedRecord.bytes]⟩
  · rintro ⟨_, ⟨hfits, rfl⟩, rfl⟩
    exact decodeFetchedRecord_append hfits left

theorem decodeFetchResponse_covers : Covers decodeFetchResponse fun response s =>
    Listed FetchedRecord.Fits FetchedRecord.bytes response.records s := by
  intro frame response left
  constructor
  · intro h
    simp only [decodeFetchResponse, ensureRemaining_bind_eq_ok, getInt_bind_eq_ok,
      readMany_bind_eq_ok decodeFetchedRecord_recognizes, ensureEmpty_bind_eq_ok, pure_eq_ok] at h
    obtain ⟨_, _, hlt, _, rfl, records, _, rfl, hall, rfl, rfl, ⟨⟩⟩ := h
    exact ⟨⟨hlt, hall, by simp⟩, rfl⟩
  · rintro ⟨⟨hlt, hall, rfl⟩, rfl⟩
    have hlt' : response.records.length < 256 ^ 4 := hlt
    rw [decodeFetchResponse, ensureRemaining_bind (by simp), getInt_bind hlt',
      ← List.append_nil (List.flatMap _ _),
      (readMany_recognizes decodeFetchedRecord_recognizes _).bind_append ⟨rfl, hall, rfl⟩]
    rfl

/-! ## Assignments, offsets and metadata -/

theorem decodeJoinGroupResponse_covers : Covers decodeJoinGroupResponse fun response s =>
    ∃ partitions,
      Listed (fun _ => True) (fun x : UInt32 => toBE 4 x.toNat) response.partitions partitions ∧
        s = toBE 8 response.generation.toNat ++ partitions := by
  intro frame response left
  constructor
  · intro h
    simp only [decodeJoinGroupResponse, ensureRemaining_bind_eq_ok, getInt_u64_bind_eq_ok,
      @getInt_bind_eq_ok _ _ _ 4, readMany_bind_eq_ok getU32_recognizes, ensureEmpty_bind_eq_ok,
      pure_eq_ok, UInt64.ofNat_toNat] at h
    obtain ⟨_, generation, _, rfl, _, hlt, _, rfl, _, partitions, _, rfl, _, rfl, rfl, ⟨⟩⟩ := h
    exact ⟨⟨_, ⟨hlt, fun _ _ => trivial, rfl⟩, by simp⟩, rfl⟩
  · rintro ⟨⟨_, ⟨hlt, _, rfl⟩, rfl⟩, rfl⟩
    have hlt' : response.partitions.length < 256 ^ 4 := hlt
    have hbytes := @length_flatMap UInt32 (fun x => toBE 4 x.toNat) 4 (by simp) response.partitions
    rw [decodeJoinGroupResponse, ensureRemaining_bind (by simp; omega), getInt_u64_bind,
      getInt_bind hlt', ensureRemaining_bind (by omega), ← List.append_nil (List.flatMap _ _),
      (readMany_recognizes getU32_recognizes _).bind_append ⟨rfl, fun _ _ => trivial, rfl⟩]
    simp

theorem decodeCommittedOffset_covers : Covers decodeCommittedOffset CommittedOffsetSpelled := by
  intro frame offset left
  constructor
  · intro h
    simp only [decodeCommittedOffset, ensureRemaining_bind_eq_ok, @getInt_bind_eq_ok _ _ _ 1,
      getInt_u64_bind_eq_ok, ensureEmpty_bind_eq_ok, ensure_bind_eq_ok, ite_error_eq_ok, not_lt,
      pure_eq_ok] at h
    obtain ⟨_, n, _, _, rfl, number, _, rfl, rfl, hle, h⟩ := h
    rcases Nat.le_one_iff_eq_zero_or_eq_one.1 hle with rfl | rfl
    · rw [if_neg Nat.zero_ne_one] at h
      cases h
      exact ⟨⟨number, by simp⟩, rfl⟩
    · rw [if_pos rfl, UInt64.ofNat_toNat] at h
      cases h
      exact ⟨by simp [CommittedOffsetSpelled], rfl⟩
  · rintro ⟨hs, rfl⟩
    cases offset with
    | none =>
      obtain ⟨unread, rfl⟩ := hs
      rw [← List.append_nil (toBE 8 _)]
      simp +arith [decodeCommittedOffset, getInt_bind, -List.append_nil]
    | some offset =>
      obtain rfl := hs
      rw [← List.append_nil (toBE 8 _)]
      simp +arith [decodeCommittedOffset, getInt_bind, -List.append_nil]

theorem decodeTopicMetadata_recognizes : Recognizes decodeTopicMetadata fun topic s =>
    topic.Valid ∧ s = topic.bytes := by
  intro frame topic left
  constructor
  · intro h
    simp only [decodeTopicMetadata, decodeString_bind_eq_ok, ensureRemaining_bind_eq_ok,
      getInt_u32_bind_eq_ok, readLen_bind_eq_ok, ensure_bind_eq_ok, ite_error_eq_ok,
      readMany_bind_eq_ok getU32_recognizes, readMany_bind_eq_ok getU64_recognizes, pure_eq_ok,
      UInt32.ofNat_toNat] at h
    obtain ⟨name, _, hname, rfl, _, partitions, _, rfl, _, hcount, _, rfl, hcheck, _, leaders, _,
      rfl, _, rfl, _, epochs, _, hepochs, _, rfl, _, watermarks, _, hwatermarks, _, rfl, ⟨⟩⟩ := h
    rw [not_or, not_and, not_not] at hcheck
    exact ⟨_, ⟨⟨hname, hcheck.1, hcheck.2, hepochs, hwatermarks, hcount⟩, rfl⟩,
      by simp [TopicMetadata.bytes]⟩
  · rintro ⟨_, ⟨hvalid, rfl⟩, rfl⟩
    exact decodeTopicMetadata_append hvalid left

theorem decodeTopicsResponse_covers : Covers decodeTopicsResponse
    (Listed TopicMetadata.Valid TopicMetadata.bytes) := by
  intro frame topics left
  constructor
  · intro h
    simp only [decodeTopicsResponse, ensureRemaining_bind_eq_ok, readLen_bind_eq_ok,
      readMany_bind_eq_ok decodeTopicMetadata_recognizes, ensureEmpty_bind_eq_ok, pure_eq_ok] at h
    obtain ⟨_, _, hlt, _, rfl, topics, _, rfl, hall, rfl, rfl, ⟨⟩⟩ := h
    exact ⟨⟨hlt, hall, by simp⟩, rfl⟩
  · rintro ⟨⟨hlt, hall, rfl⟩, rfl⟩
    have hlt' : topics.length < 256 ^ 4 := hlt
    rw [decodeTopicsResponse, ensureRemaining_bind (by simp), readLen_bind hlt',
      ← List.append_nil (List.flatMap _ _),
      (readMany_recognizes decodeTopicMetadata_recognizes _).bind_append ⟨rfl, hall, rfl⟩]
    rfl

theorem decodeClusterNode_recognizes : Recognizes decodeClusterNode fun node s =>
    (utf8 node.host).length < 65536 ∧ s = node.bytes := by
  intro frame node left
  constructor
  · intro h
    simp only [decodeClusterNode, ensureRemaining_bind_eq_ok, getInt_u32_bind_eq_ok,
      decodeString_bind_eq_ok, getInt_u16_bind_eq_ok, pure_eq_ok, UInt32.ofNat_toNat,
      UInt16.ofNat_toNat] at h
    obtain ⟨_, id, _, rfl, host, _, hhost, rfl, _, port, _, rfl, adminPort, _, rfl,
      replicationPort, _, rfl, ⟨⟩⟩ := h
    exact ⟨_, ⟨hhost, rfl⟩, by simp [ClusterNode.bytes]⟩
  · rintro ⟨_, ⟨hhost, rfl⟩, rfl⟩
    exact decodeClusterNode_append hhost left

theorem decodeClusterMetadata_covers : Covers decodeClusterMetadata fun metadata s =>
    metadata.nodes ≠ [] ∧ metadata.nodes.length ≤ MAX_CLUSTER_NODES ∧ ∃ nodes,
      Listed (fun node => (utf8 node.host).length < 65536) ClusterNode.bytes metadata.nodes nodes ∧
        s = toBE 4 metadata.respondingBrokerId.toNat ++ nodes := by
  intro frame metadata left
  constructor
  · intro h
    simp only [decodeClusterMetadata, ensureRemaining_bind_eq_ok, getInt_u32_bind_eq_ok,
      readLen_bind_eq_ok, ensure_bind_eq_ok, ite_error_eq_ok, not_or, not_lt,
      readMany_bind_eq_ok decodeClusterNode_recognizes, ensureEmpty_bind_eq_ok, pure_eq_ok,
      UInt32.ofNat_toNat] at h
    obtain ⟨_, id, _, rfl, _, hlt, _, rfl, ⟨hzero, hmax⟩, nodes, _, rfl, hall, rfl, rfl, ⟨⟩⟩ := h
    exact ⟨⟨fun hnil => hzero (by rw [show nodes = [] from hnil, List.length_nil]), hmax, _,
      ⟨hlt, hall, rfl⟩, by simp⟩, rfl⟩
  · rintro ⟨⟨hne, hmax, _, ⟨hlt, hall, rfl⟩, rfl⟩, rfl⟩
    have hlt' : metadata.nodes.length < 256 ^ 4 := hlt
    have hzero : ¬ (metadata.nodes.length = 0 ∨ metadata.nodes.length > MAX_CLUSTER_NODES) := by
      rw [List.length_eq_zero_iff]
      simp [hne, hmax]
    rw [decodeClusterMetadata, ensureRemaining_bind (by simp; omega), getInt_u32_bind,
      readLen_bind hlt', ensure_bind (by simpa using hzero), ← List.append_nil (List.flatMap _ _),
      (readMany_recognizes decodeClusterNode_recognizes _).bind_append ⟨rfl, hall, rfl⟩]
    simp

theorem decodeLeadershipChanged_recognizes : Recognizes decodeLeadershipChanged fun leadership s =>
    True ∧ s = leadership.bytes := by
  intro frame leadership left
  constructor
  · intro h
    simp only [decodeLeadershipChanged, getInt_u32_bind_eq_ok, getInt_u64_bind_eq_ok, pure_eq_ok,
      UInt32.ofNat_toNat, UInt64.ofNat_toNat] at h
    obtain ⟨partition, _, rfl, leaderId, _, rfl, leaderEpoch, _, rfl, highWatermark, _, rfl,
      ⟨⟩⟩ := h
    exact ⟨_, ⟨trivial, rfl⟩, by simp [PartitionLeadership.bytes]⟩
  · rintro ⟨_, ⟨_, rfl⟩, rfl⟩
    simp [decodeLeadershipChanged, PartitionLeadership.bytes]

theorem decodeError_covers : Covers decodeError fun message s =>
    (utf8 message).length < 65536 ∧ s = stringBytes message := by
  intro frame message left
  constructor
  · intro h
    simp only [decodeError, decodeString_bind_eq_ok, ensureEmpty_bind_eq_ok, pure_eq_ok] at h
    obtain ⟨message, _, hlen, rfl, rfl, ⟨⟩⟩ := h
    exact ⟨⟨hlen, by simp⟩, rfl⟩
  · rintro ⟨⟨hlen, rfl⟩, rfl⟩
    rw [decodeError, ← List.append_nil (stringBytes message), decodeString_bind hlen]
    rfl

/-! ## All responses -/

/-- **The decoder of a body succeeds exactly on what says a response.** -/
theorem readResponse_covers : Covers readResponse Response.Says := by
  have hleadership := @exactly_covers _ _ _ 24 LEADERSHIP_CHANGED _ Response.leadershipChanged
    decodeLeadershipChanged_recognizes fun l => by simp [PartitionLeadership.bytes]
  have hstatus := @exactly_covers _ _ _ 8 PARTITION_STATUS_RESPONSE _ Response.partitionStatus
    getU64_recognizes fun x => by simp
  intro body r left
  constructor
  · intro h
    rw [readResponse, getInt_bind_eq_ok] at h
    obtain ⟨opcode, _, fields, rfl, h⟩ := h
    unfold decodeResponseFrame at h
    -- one case for each arm of the match, the last one fails
    split at h
    · obtain ⟨⟨a, hs, rfl⟩, hleft⟩ := (decodeProduceAck_covers.map _ _ _ _).1 h
      exact ⟨⟨fields, hs, rfl⟩, hleft⟩
    · obtain ⟨⟨a, hs, rfl⟩, hleft⟩ := (decodeProduceBatchAck_covers.map _ _ _ _).1 h
      exact ⟨⟨fields, hs, rfl⟩, hleft⟩
    · obtain ⟨⟨a, hs, rfl⟩, hleft⟩ := (decodeFetchResponse_covers.map _ _ _ _).1 h
      exact ⟨⟨fields, hs, rfl⟩, hleft⟩
    · obtain ⟨⟨a, hs, rfl⟩, hleft⟩ := (decodeJoinGroupResponse_covers.map _ _ _ _).1 h
      exact ⟨⟨fields, hs, rfl⟩, hleft⟩
    · obtain ⟨⟨rfl, hs⟩, hleft⟩ := (alone_covers _ _ _ _ _).1 h
      exact ⟨⟨fields, hs, rfl⟩, hleft⟩
    · obtain ⟨⟨a, hs, rfl⟩, hleft⟩ := (decodeCommittedOffset_covers.map _ _ _ _).1 h
      exact ⟨⟨fields, hs, rfl⟩, hleft⟩
    · obtain ⟨⟨a, hs, rfl⟩, hleft⟩ := (decodeTopicsResponse_covers.map _ _ _ _).1 h
      exact ⟨⟨fields, hs, rfl⟩, hleft⟩
    · obtain ⟨⟨a, hs, rfl⟩, hleft⟩ := (decodeClusterMetadata_covers.map _ _ _ _).1 h
      exact ⟨⟨fields, hs, rfl⟩, hleft⟩
    · obtain ⟨⟨a, hs, rfl⟩, hleft⟩ := (hleadership _ _ _).1 h
      exact ⟨⟨fields, hs, rfl⟩, hleft⟩
    · obtain ⟨⟨a, hs, rfl⟩, hleft⟩ := (hstatus _ _ _).1 h
      exact ⟨⟨fields, hs, rfl⟩, hleft⟩
    · obtain ⟨⟨a, hs, rfl⟩, hleft⟩ := (decodeError_covers.map _ _ _ _).1 h
      exact ⟨⟨fields, hs, rfl⟩, hleft⟩
    · cases h
  · rintro ⟨⟨fields, hs, rfl⟩, rfl⟩
    rw [readResponse, getInt_bind r.code_lt]
    cases r with
    | produceAck ack =>
      exact Parser.map_apply _ ((decodeProduceAck_covers _ _ _).2 ⟨hs, rfl⟩)
    | produceBatchAck acks =>
      exact Parser.map_apply _ ((decodeProduceBatchAck_covers _ _ _).2 ⟨hs, rfl⟩)
    | fetch response =>
      exact Parser.map_apply _ ((decodeFetchResponse_covers _ _ _).2 ⟨hs, rfl⟩)
    | joinGroup response =>
      exact Parser.map_apply _ ((decodeJoinGroupResponse_covers _ _ _).2 ⟨hs, rfl⟩)
    | groupAck =>
      exact (alone_covers _ _ _ _ _).2 ⟨⟨rfl, hs⟩, rfl⟩
    | committedOffset offset =>
      exact Parser.map_apply _ ((decodeCommittedOffset_covers _ _ _).2 ⟨hs, rfl⟩)
    | topics ts =>
      exact Parser.map_apply _ ((decodeTopicsResponse_covers _ _ _).2 ⟨hs, rfl⟩)
    | clusterMetadata metadata =>
      exact Parser.map_apply _ ((decodeClusterMetadata_covers _ _ _).2 ⟨hs, rfl⟩)
    | leadershipChanged leadership =>
      exact (hleadership _ _ _).2 ⟨⟨leadership, hs, rfl⟩, rfl⟩
    | partitionStatus nextOffset =>
      exact (hstatus _ _ _).2 ⟨⟨nextOffset, hs, rfl⟩, rfl⟩
    | error message =>
      exact Parser.map_apply _ ((decodeError_covers _ _ _).2 ⟨hs, rfl⟩)

/-- **A response is decoded exactly when the buffer begins with a frame that says it**, whatever
follows the frame. -/
theorem response_decoded_iff_says (buffer : Bytes) (r : Response) (rest : Bytes) :
    decodeResponse buffer = .ok (some (r, rest)) ↔
      ∃ body, r.Says body ∧ body.length ≤ MAX_FRAME_SIZE ∧ buffer = frameBytes body ++ rest := by
  rw [decodeResponse, decodeFrame_eq_some readResponse_covers]
  refine exists_congr fun body => and_congr_right fun hsays => and_iff_right ?_
  obtain ⟨fields, _, rfl⟩ := hsays
  simp [toBE]

/-! ## Replication -/

/-- A record as it can arrive: the topic is not checked again, and an empty key is no key. -/
def ReplicateRecord.Says (r : ReplicateRecord) (body : Bytes) : Prop :=
  (utf8 r.topic).length < 65536 ∧ r.key ≠ some [] ∧ r.keyBytes.length ≤ MAX_KEY_SIZE ∧
    r.value.length ≤ MAX_MESSAGE_SIZE ∧ body = r.fields.flatten

def ReplicateAck.Says (ack : ReplicateAck) (body : Bytes) : Prop :=
  body = [toBE 1 REPLICATE_ACK, toBE 4 ack.partition.toNat, toBE 8 ack.nextOffset.toNat].flatten

theorem nonEmpty_getD (key : Bytes) : (nonEmpty key).getD [] = key := by
  unfold nonEmpty
  split
  · rename_i hnil
    rw [hnil, Option.getD_none]
  · rfl

theorem nonEmpty_of_ne {key : Option Bytes} (h : key ≠ some []) : nonEmpty (key.getD []) = key := by
  cases key with
  | none => rfl
  | some key => exact if_neg fun hnil => h (congrArg some hnil)

theorem readReplicateRecord_covers : Covers readReplicateRecord ReplicateRecord.Says := by
  intro frame r left
  constructor
  · intro h
    simp only [readReplicateRecord, @getInt_bind_eq_ok _ _ _ 1, getInt_u32_bind_eq_ok,
      getInt_u64_bind_eq_ok, ensure_bind_eq_ok, ite_error_eq_ok, not_not, not_lt,
      decodeString_bind_eq_ok, ensureRemaining_bind_eq_ok, readLen_bind_eq_ok, readBytes_bind_eq_ok,
      validateSize_eq_ok, ensureEmpty_bind_eq_ok, pure_eq_ok, UInt32.ofNat_toNat,
      UInt64.ofNat_toNat] at h
    obtain ⟨_, _, _, rfl, rfl, topic, _, htopic, rfl, _, partition, _, rfl, offset, _, rfl,
      timestampMs, _, rfl, durable, _, _, rfl, hdurable, leaderId, _, rfl, leaderEpoch, _, rfl,
      keyLen, hkey, _, rfl, key, _, rfl, rfl, _, _, _, rfl, hvalue, value, _, rfl, rfl, rfl,
      ⟨⟩⟩ := h
    have hbit : (decide (durable = 1)).toNat = durable := by
      rcases Nat.le_one_iff_eq_zero_or_eq_one.1 hdurable with rfl | rfl
      · rfl
      · rfl
    refine ⟨⟨htopic, fun hnil => ?_, ?_, hvalue, ?_⟩, rfl⟩
    · simp only [nonEmpty] at hnil
      split at hnil
      · cases hnil
      · rename_i hne
        exact hne (Option.some.inj hnil)
    · rw [ReplicateRecord.keyBytes, nonEmpty_getD]
      exact Nat.le_of_lt_succ hkey
    · simp [ReplicateRecord.fields, ReplicateRecord.keyBytes, nonEmpty_getD, hbit]
  · rintro ⟨⟨htopic, hkey, hlen, hvalue, rfl⟩, rfl⟩
    have hlen' : r.keyBytes.length < 65536 := Nat.lt_of_le_of_lt hlen (by decide)
    have hvalue' : r.value.length < 4294967296 := Nat.lt_of_le_of_lt hvalue (by decide)
    have hdurable : ¬ 2 ≤ r.durable.toNat := Nat.not_le.2 (Bool.toNat_lt _)
    have hopcode : REPLICATE_RECORD < 256 ^ 1 := by decide
    have hsame : nonEmpty r.keyBytes = r.key := nonEmpty_of_ne hkey
    unfold readReplicateRecord ReplicateRecord.fields
    simp only [List.flatten_cons, List.flatten_nil]
    rw [getInt_bind hopcode]
    simp +arith [*, -List.append_nil]

theorem readReplicateAck_covers : Covers readReplicateAck ReplicateAck.Says := by
  intro frame ack left
  rw [readReplicateAck]
  split
  · rename_i hframe
    constructor
    · intro h
      cases h
    · rintro ⟨rfl, _⟩
      exact absurd (by simp) hframe
  · rename_i hframe
    rw [not_not] at hframe
    constructor
    · intro h
      simp only [@getInt_bind_eq_ok _ _ _ 1, getInt_u32_bind_eq_ok, getInt_u64_bind_eq_ok,
        ensure_bind_eq_ok, ite_error_eq_ok, not_not, pure_eq_ok, UInt32.ofNat_toNat,
        UInt64.ofNat_toNat] at h
      obtain ⟨_, _, _, rfl, rfl, partition, _, rfl, nextOffset, left, rfl, ⟨⟩⟩ := h
      simp only [List.length_append, toBE_length] at hframe
      have hleft : left = [] := List.length_eq_zero_iff.1 (by omega)
      exact ⟨by simp [ReplicateAck.Says, hleft], hleft⟩
    · rintro ⟨rfl, rfl⟩
      have hopcode : REPLICATE_ACK < 256 ^ 1 := by decide
      simp only [List.flatten_cons, List.flatten_nil]
      rw [getInt_bind hopcode]
      simp [-List.append_nil]

/-- **A record or an acknowledgement of replication is decoded exactly when the buffer begins with a
frame that says it.** -/
theorem replication_decoded_iff (buffer rest : Bytes) :
    (∀ r, decodeReplicateRecord buffer = .ok (some (r, rest)) ↔
      ∃ body, r.Says body ∧ body.length ≤ MAX_FRAME_SIZE ∧ buffer = frameBytes body ++ rest) ∧
    ∀ ack, decodeReplicateAck buffer = .ok (some (ack, rest)) ↔
      ∃ body, ReplicateAck.Says ack body ∧ body.length ≤ MAX_FRAME_SIZE ∧
        buffer = frameBytes body ++ rest := by
  constructor
  · intro r
    rw [decodeReplicateRecord, decodeFrame_eq_some readReplicateRecord_covers]
    refine exists_congr fun body => and_congr_right fun hsays => and_iff_right ?_
    obtain ⟨_, _, _, _, rfl⟩ := hsays
    simp [ReplicateRecord.fields, toBE]
  · intro ack
    rw [decodeReplicateAck, decodeFrame_eq_some readReplicateAck_covers]
    refine exists_congr fun body => and_congr_right fun hsays => and_iff_right ?_
    obtain rfl := hsays
    simp [toBE]

end SevlaMq.Protocol
