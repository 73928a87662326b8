import SevlaMq.Lib.Reads
import SevlaMq.Protocol.Replicate
import SevlaMq.Protocol.Responses

/-!
# The decoders stay within their input

`get_*`, `advance`, `split_to` and indexing of a buffer panic past its end; here they fail with
`outOfBounds`, which no check of `crates/protocol/src/lib.rs` returns.

* `advance`, `splitTo`, `index` — the reads of the source that are guarded where they stand;
  `readBytes_eq` and `takeFrameFrom` are written with them.
* `decodeFrom` — decoding the front of a buffer, with the buffer as it is left in every case;
  `decodeFrame_eq_taken` says that the decoders return what it returns.
* one lemma per decoder: it drains its frame, whatever the frame.
* `decoders_within_bounds` — no decoder reads past its input, an incomplete frame is left in place,
  and a complete one is taken to its last byte.
-/

set_option autoImplicit false

namespace SevlaMq.Protocol

/-! ## Reads of a buffer -/

/-- `advance`. -/
def advance (n : Nat) : Parser Unit := fun buffer =>
  if buffer.length < n then .error .outOfBounds else .ok ((), buffer.drop n)

/-- `split_to`. -/
def splitTo (n : Nat) : Parser Bytes := fun buffer =>
  if buffer.length < n then .error .outOfBounds else .ok (buffer.take n, buffer.drop n)

/-- `buffer[..n]`. -/
def index (n : Nat) : Parser Bytes := fun buffer =>
  if buffer.length < n then .error .outOfBounds else .ok (buffer.take n, buffer)

/-- `read_bytes` is `ensure_remaining` and `split_to`. -/
theorem readBytes_eq (len : Nat) :
    readBytes len = (ensureRemaining len >>= fun _ => splitTo len) := by
  funext frame
  rcases Nat.lt_or_ge frame.length len with hshort | hlen
  · have hfail : ensureRemaining len frame = .error .invalidFrame := if_pos hshort
    show _ = (StateT.bind (ensureRemaining len) fun _ => splitTo len) frame
    rw [readBytes, if_pos hshort]
    unfold StateT.bind
    rw [hfail]
    rfl
  · rw [ensureRemaining_bind hlen, readBytes, splitTo, if_neg (Nat.not_lt.2 hlen),
      if_neg (Nat.not_lt.2 hlen)]

/-- `take_frame` with the buffer as it is left. -/
def takeFrameFrom (buffer : Bytes) : Except ProtocolError (Option Bytes) × Bytes :=
  if buffer.length < FRAME_HEADER_SIZE then (.ok none, buffer)
  else
    match index FRAME_HEADER_SIZE buffer with
    | .error e => (.error e, buffer)
    | .ok (header, _) =>
      let frameLen := ofBE header
      if frameLen = 0 then (.error .invalidFrame, buffer)
      else if frameLen > MAX_FRAME_SIZE then (.error .frameTooLarge, buffer)
      else if buffer.length < FRAME_HEADER_SIZE + frameLen then (.ok none, buffer)
      else
        match advance FRAME_HEADER_SIZE buffer with
        | .error e => (.error e, buffer)
        | .ok ((), buffer) =>
          match splitTo frameLen buffer with
          | .error e => (.error e, buffer)
          | .ok (frame, buffer) => (.ok (some frame), buffer)

/-- Decoding the first frame of a buffer, with the buffer as it is left. -/
def decodeFrom {α : Type} (p : Parser α) (buffer : Bytes) :
    Except ProtocolError (Option α) × Bytes :=
  match takeFrameFrom buffer with
  | (.error e, buffer) => (.error e, buffer)
  | (.ok none, buffer) => (.ok none, buffer)
  | (.ok (some frame), buffer) =>
    match p frame with
    | .error e => (.error e, buffer)
    | .ok (a, _) => (.ok (some a), buffer)

/-- The reads of `take_frame` are within the buffer. -/
theorem takeFrameFrom_cases (buffer : Bytes) :
    (takeFrameFrom buffer = (.ok none, buffer) ∧ takeFrame buffer = .ok none) ∨
    (∃ e, e ≠ .outOfBounds ∧ takeFrameFrom buffer = (.error e, buffer) ∧
      takeFrame buffer = .error e) ∨
    ∃ len, len = ofBE (buffer.take FRAME_HEADER_SIZE) ∧ 1 ≤ len ∧ len ≤ MAX_FRAME_SIZE ∧
      FRAME_HEADER_SIZE + len ≤ buffer.length ∧
      takeFrameFrom buffer = (.ok (some ((buffer.drop FRAME_HEADER_SIZE).take len)),
        buffer.drop (FRAME_HEADER_SIZE + len)) ∧
      takeFrame buffer = .ok (some ((buffer.drop FRAME_HEADER_SIZE).take len,
        (buffer.drop FRAME_HEADER_SIZE).drop len)) := by
  unfold takeFrameFrom takeFrame
  by_cases hheader : buffer.length < FRAME_HEADER_SIZE
  · left
    simp only [if_pos hheader, and_self]
  simp only [if_neg hheader, index]
  by_cases hzero : ofBE (buffer.take FRAME_HEADER_SIZE) = 0
  · right; left
    exact ⟨.invalidFrame, by simp, by rw [if_pos hzero], by rw [if_pos hzero]⟩
  simp only [if_neg hzero]
  by_cases hlarge : ofBE (buffer.take FRAME_HEADER_SIZE) > MAX_FRAME_SIZE
  · right; left
    exact ⟨.frameTooLarge, by simp, by rw [if_pos hlarge], by rw [if_pos hlarge]⟩
  simp only [if_neg hlarge]
  by_cases hshort : buffer.length < FRAME_HEADER_SIZE + ofBE (buffer.take FRAME_HEADER_SIZE)
  · left
    simp only [if_pos hshort, and_self]
  · right; right
    have hrest : ¬ (buffer.drop FRAME_HEADER_SIZE).length <
        ofBE (buffer.take FRAME_HEADER_SIZE) := by
      rw [List.length_drop]
      omega
    refine ⟨_, rfl, Nat.one_le_iff_ne_zero.2 hzero, Nat.not_lt.1 hlarge, Nat.not_lt.1 hshort, ?_, ?_⟩
    · simp only [if_neg hshort, advance, if_neg hheader, splitTo, if_neg hrest, List.drop_drop]
    · simp only [if_neg hshort]

/-- The value and the rest of the buffer, if there is a value. -/
def taken {α : Type} :
    Except ProtocolError (Option α) × Bytes → Except ProtocolError (Option (α × Bytes))
  | (.error e, _) => .error e
  | (.ok none, _) => .ok none
  | (.ok (some a), left) => .ok (some (a, left))

theorem decodeFrame_eq_taken {α : Type} (p : Parser α) (buffer : Bytes) :
    decodeFrame p buffer = taken (decodeFrom p buffer) := by
  unfold decodeFrame decodeFrom
  obtain ⟨hfrom, htake⟩ | ⟨e, _, hfrom, htake⟩ | ⟨len, _, _, _, _, hfrom, htake⟩ :=
    takeFrameFrom_cases buffer
  · simp only [hfrom, htake, taken]
  · simp only [hfrom, htake, taken]
  · simp only [hfrom, htake]
    cases p ((buffer.drop FRAME_HEADER_SIZE).take len) with
    | error e => rfl
    | ok pair => simp only [List.drop_drop, taken]

/-- A decoder that stays within its input and takes the frames it accepts to the last byte. -/
structure WithinBounds {α : Type} (p : Parser α) : Prop where
  in_bounds : ∀ buffer, (decodeFrom p buffer).1 ≠ .error .outOfBounds
  incomplete : ∀ buffer left, decodeFrom p buffer = (.ok none, left) → left = buffer
  complete : ∀ buffer a left, decodeFrom p buffer = (.ok (some a), left) →
    ∃ len, len = ofBE (buffer.take FRAME_HEADER_SIZE) ∧ 1 ≤ len ∧ len ≤ MAX_FRAME_SIZE ∧
      FRAME_HEADER_SIZE + len ≤ buffer.length ∧ left = buffer.drop (FRAME_HEADER_SIZE + len) ∧
      p ((buffer.drop FRAME_HEADER_SIZE).take len) = .ok (a, [])

/-- A parser that drains every frame with a byte in it. -/
theorem WithinBounds.of_reads {α : Type} {p : Parser α}
    (h : ∀ n, 1 ≤ n → Reads .outOfBounds p (fun _ m => m = 0) n) : WithinBounds p where
  in_bounds := by
    intro buffer
    obtain ⟨hfrom, _⟩ | ⟨e, hgood, hfrom, _⟩ | ⟨len, _, hpos, _, hbuffer, hfrom, _⟩ :=
      takeFrameFrom_cases buffer
    · simp [decodeFrom, hfrom]
    · simpa [decodeFrom, hfrom] using hgood
    · have hlen : ((buffer.drop FRAME_HEADER_SIZE).take len).length = len := by
        rw [List.length_take, List.length_drop]
        omega
      have hgood := (h len hpos _ hlen).1
      simp only [decodeFrom, hfrom]
      cases hp : p ((buffer.drop FRAME_HEADER_SIZE).take len) with
      | error e => simpa [hp] using hgood
      | ok pair => simp
  incomplete := by
    intro buffer left hnone
    obtain ⟨hfrom, _⟩ | ⟨e, _, hfrom, _⟩ | ⟨len, _, _, _, _, hfrom, _⟩ := takeFrameFrom_cases buffer
    · simp only [decodeFrom, hfrom, Prod.mk.injEq] at hnone
      exact hnone.2.symm
    · simp [decodeFrom, hfrom] at hnone
    · simp only [decodeFrom, hfrom] at hnone
      split at hnone
      · cases hnone
      · cases hnone
  complete := by
    intro buffer a left hsome
    obtain ⟨hfrom, _⟩ | ⟨e, _, hfrom, _⟩ | ⟨len, hprefix, hpos, hmax, hbuffer, hfrom, _⟩ :=
      takeFrameFrom_cases buffer
    · simp [decodeFrom, hfrom] at hsome
    · simp [decodeFrom, hfrom] at hsome
    · have hlen : ((buffer.drop FRAME_HEADER_SIZE).take len).length = len := by
        rw [List.length_take, List.length_drop]
        omega
      simp only [decodeFrom, hfrom] at hsome
      split at hsome
      · cases hsome
      · rename_i a' rest hp
        cases hsome
        have hdrained : rest.length = 0 := (h len hpos _ hlen).2 a rest hp
        rw [List.length_eq_zero_iff] at hdrained
        subst hdrained
        exact ⟨len, hprefix, hpos, hmax, hbuffer, rfl, hp⟩

/-! ## Rules of the parsers -/

section Rules

variable {α β : Type} {Q : α → Nat → Prop} {n : Nat}

theorem reads_getInt {w : Nat} (h : w ≤ n) :
    Reads .outOfBounds (getInt w) (fun _ m => m + w = n) n := by
  intro frame hlen
  have hread : getInt w frame = .ok (ofBE (frame.take w), frame.drop w) := by
    simp only [getInt, getBE, if_neg (Nat.not_lt.2 (hlen ▸ h))]
  rw [hread]
  refine ⟨by simp, fun x left hok => ?_⟩
  cases hok
  rw [List.length_drop]
  omega

theorem reads_ensureRemaining {required : Nat} :
    Reads .outOfBounds (ensureRemaining required) (fun _ m => m = n ∧ required ≤ n) n := by
  intro frame hlen
  rw [ensureRemaining]
  split
  · exact ⟨by simp, by simp⟩
  · refine ⟨by simp, fun x left hok => ?_⟩
    cases hok
    exact ⟨hlen, by omega⟩

theorem reads_ensureEmpty : Reads .outOfBounds ensureEmpty (fun _ m => m = 0) n := by
  intro frame hlen
  rw [ensureEmpty]
  split
  · exact ⟨by simp, by simp⟩
  · rename_i hnil
    refine ⟨by simp, fun x left hok => ?_⟩
    cases hok
    rw [not_not.1 hnil, List.length_nil]

/-- A check that does not report a read past the end. -/
theorem reads_ensure {check : Except ProtocolError Unit} (h : check ≠ .error .outOfBounds) :
    Reads .outOfBounds (ensure check) (fun _ m => m = n) n := by
  intro frame hlen
  cases check with
  | error e => exact ⟨fun hno => h (by rw [Except.error.inj hno]), fun x left hok => by cases hok⟩
  | ok _ =>
    refine ⟨by simp [ensure], fun x left hok => ?_⟩
    cases hok
    exact hlen

theorem reads_attempt {value : Except ProtocolError α} (h : value ≠ .error .outOfBounds) :
    Reads .outOfBounds (attempt value) (fun _ m => m = n) n := by
  intro frame hlen
  cases value with
  | error e => exact ⟨fun hno => h (by rw [Except.error.inj hno]), fun x left hok => by cases hok⟩
  | ok _ =>
    refine ⟨by simp [attempt], fun x left hok => ?_⟩
    cases hok
    exact hlen

theorem reads_throw {e : ProtocolError} (h : e ≠ .outOfBounds) :
    Reads .outOfBounds (throw e : Parser α) Q n := by
  intro frame hlen
  exact ⟨fun hno => h (Except.error.inj hno), fun x left hok => by cases hok⟩

/-- A length is read only where it is there. -/
theorem reads_readLen {w : Nat} : Reads .outOfBounds (readLen w) (fun _ m => m + w = n) n := by
  refine reads_ensureRemaining.bind fun _ m hm => ?_
  obtain ⟨rfl, hw⟩ := hm
  exact reads_getInt hw

/-- So are bytes. -/
theorem reads_readBytes {len : Nat} :
    Reads .outOfBounds (readBytes len) (fun _ m => m + len = n) n := by
  rw [readBytes_eq]
  refine reads_ensureRemaining.bind fun _ m hm => ?_
  obtain ⟨rfl, hlen⟩ := hm
  intro frame hframe
  rw [splitTo, if_neg (by omega)]
  refine ⟨by simp, fun bs left hok => ?_⟩
  cases hok
  rw [List.length_drop]
  omega

/-- The same parser again and again, where each takes `w` bytes. -/
theorem reads_readMany {p : Parser β} {w : Nat}
    (h : ∀ n, w ≤ n → Reads .outOfBounds p (fun _ m => m + w = n) n) (k : Nat) (hn : k * w ≤ n) :
    Reads .outOfBounds (readMany p k) (fun _ m => m + k * w = n) n := by
  induction k generalizing n with
  | zero => exact .pure (by omega)
  | succ k ih =>
    rw [Nat.succ_mul] at hn ⊢
    refine (h n (by omega)).bind fun a m hm => ?_
    refine (ih (by omega)).bind fun as m' hm' => ?_
    exact .pure (by omega)

/-- The same parser again and again, where each looks after itself. -/
theorem reads_readMany_any {p : Parser β}
    (h : ∀ n, Reads .outOfBounds p (fun _ _ => True) n) (k : Nat) :
    Reads .outOfBounds (readMany p k) (fun _ _ => True) n := by
  induction k generalizing n with
  | zero => exact .pure trivial
  | succ k ih =>
    refine (h n).bind fun a m _ => ?_
    refine ih.bind fun as m' _ => ?_
    exact .pure trivial

/-- Checks behind the last read. -/
theorem drains_ensureEmpty_bind {f : Unit → Parser α}
    (h : Reads .outOfBounds (f ()) (fun _ m => m = 0) 0) :
    Reads .outOfBounds (ensureEmpty >>= f) (fun _ m => m = 0) n := by
  refine reads_ensureEmpty.bind fun _ m hm => ?_
  subst hm
  exact h

end Rules

/-! ## The errors of the checks -/

@[simp] theorem ite_error_eq_error {p : Prop} [Decidable p] {error error' : ProtocolError} :
    ((if p then .error error else .ok () : Except ProtocolError Unit) = .error error') ↔
      p ∧ error = error' := by
  split
  · simp_all
  · simp_all

@[simp] theorem validateSize_eq_error {actual maximum : Nat} {error error' : ProtocolError} :
    validateSize actual maximum error = .error error' ↔ maximum < actual ∧ error = error' := by
  rw [validateSize, ite_error_eq_error]

theorem error_in_bounds {α β : Type} {result : Except ProtocolError α} {e : ProtocolError}
    (h : result = .error e) (hgood : result ≠ .error .outOfBounds) :
    (.error e : Except ProtocolError β) ≠ .error .outOfBounds := by
  intro hno
  rw [h, Except.error.inj hno] at hgood
  exact hgood rfl

theorem ite_error_in_bounds {p : Prop} [Decidable p] {error : ProtocolError}
    (h : error ≠ .outOfBounds) :
    (if p then .error error else .ok () : Except ProtocolError Unit) ≠ .error .outOfBounds := by
  rw [ne_eq, ite_error_eq_error]
  exact fun hno => h hno.2

theorem validateTopic_in_bounds (topic : String) :
    validateTopic topic ≠ .error .outOfBounds := by
  unfold validateTopic
  split
  · rename_i e h
    rw [validateSize_eq_error] at h
    simp [← h.2]
  · simp

theorem validateIdentifier_in_bounds (value : String) :
    validateIdentifier value ≠ .error .outOfBounds := by
  simp [validateIdentifier]

theorem checkAll_in_bounds {checks : List (Except ProtocolError Unit)}
    (h : ∀ check ∈ checks, check ≠ .error .outOfBounds) : checkAll checks ≠ .error .outOfBounds := by
  induction checks with
  | nil => simp
  | cons check checks ih =>
    rw [List.forall_mem_cons] at h
    cases check with
    | error e => exact h.1
    | ok _ => exact ih h.2

theorem validateFetch_in_bounds (topic : String) (maxBytes maxWaitMs : UInt32) :
    validateFetch topic maxBytes maxWaitMs ≠ .error .outOfBounds := by
  apply checkAll_in_bounds
  simp [validateTopic_in_bounds]

theorem encodedSize_in_bounds (records : List BatchRecord) (size : Nat) :
    encodedSize size records ≠ .error .outOfBounds := by
  induction records generalizing size with
  | nil => simp [encodedSize]
  | cons record records ih =>
    rw [encodedSize]
    split
    · rename_i e h
      refine error_in_bounds h (checkAll_in_bounds ?_)
      simp
    · exact ih _

theorem validateBatch_in_bounds (topic : String) (records : List BatchRecord) :
    validateBatch topic records ≠ .error .outOfBounds := by
  apply checkAll_in_bounds
  simp only [List.forall_mem_cons, List.not_mem_nil, false_imp_iff, implies_true, and_true]
  refine ⟨validateTopic_in_bounds topic, by simp, ?_⟩
  split
  · rename_i e h
    exact error_in_bounds h (encodedSize_in_bounds records 4)
  · simp

theorem validateProduce_in_bounds (topic : String) (key payload : Bytes)
    (producer : Option ProducerIdentity) :
    validateProduce topic key payload producer ≠ .error .outOfBounds := by
  apply checkAll_in_bounds
  simp only [List.forall_mem_cons, List.not_mem_nil, false_imp_iff, implies_true, and_true]
  refine ⟨validateTopic_in_bounds topic, by simp, by simp, ?_⟩
  cases producer with
  | none => simp
  | some producer => exact validateIdentifier_in_bounds producer.id

theorem ProduceRequest.new_in_bounds (topic : String) (key payload : Bytes) (ackMode : AckMode)
    (producer : Option ProducerIdentity) :
    ProduceRequest.new topic key payload ackMode producer ≠ .error .outOfBounds := by
  unfold ProduceRequest.new
  split
  · rename_i e h
    exact error_in_bounds h (validateProduce_in_bounds topic key payload producer)
  · simp

theorem ProduceBatchRequest.new_in_bounds (topic : String) (records : List BatchRecord)
    (ackMode : AckMode) (compression : Compression) :
    ProduceBatchRequest.new topic records ackMode compression ≠ .error .outOfBounds := by
  unfold ProduceBatchRequest.new
  split
  · rename_i e h
    exact error_in_bounds h (validateBatch_in_bounds topic records)
  · simp

theorem FetchRequest.new_in_bounds (topic : String) (partition : UInt32) (offset : UInt64)
    (maxBytes maxWaitMs : UInt32) :
    FetchRequest.new topic partition offset maxBytes maxWaitMs ≠ .error .outOfBounds := by
  unfold FetchRequest.new
  split
  · rename_i e h
    exact error_in_bounds h (validateFetch_in_bounds topic maxBytes maxWaitMs)
  · simp

theorem AckMode.fromCode_in_bounds (code : Nat) : AckMode.fromCode code ≠ .error .outOfBounds := by
  unfold AckMode.fromCode
  split <;> simp

theorem Compression.fromCode_in_bounds (code : Nat) :
    Compression.fromCode code ≠ .error .outOfBounds := by
  unfold Compression.fromCode
  split <;> simp

theorem decodeUtf8_in_bounds (bytes : Bytes) {error : ProtocolError} (h : error ≠ .outOfBounds) :
    decodeUtf8 bytes error ≠ .error .outOfBounds := by
  unfold decodeUtf8
  split
  · simp
  · simpa using h

theorem decompressBatch_in_bounds (zstd : Zstd) (compression : Compression) (encoded : Bytes) :
    decompressBatch zstd compression encoded ≠ .error .outOfBounds := by
  cases compression with
  | none => simp [decompressBatch]
  | zstd =>
    rw [decompressBatch]
    split <;> simp

/-! ## Requests -/

section Requests

variable {n : Nat}

theorem reads_decodeString : Reads .outOfBounds decodeString (fun _ _ => True) n := by
  refine reads_readLen.bind fun len m _ => ?_
  refine reads_readBytes.bind fun bytes m' _ => ?_
  split
  · exact .pure trivial
  · exact reads_throw (by simp)

theorem reads_readTopic : Reads .outOfBounds readTopic (fun _ _ => True) n := by
  refine reads_readLen.bind fun len m _ => ?_
  refine (reads_ensure (by simp)).bind fun _ m _ => ?_
  refine reads_readBytes.bind fun topic m _ => ?_
  exact (reads_attempt (decodeUtf8_in_bounds _ (by simp))).mono fun _ _ _ => trivial

theorem reads_readPartition : Reads .outOfBounds readPartition (fun _ _ => True) n := by
  refine reads_ensureRemaining.bind fun _ m hm => ?_
  refine (reads_getInt (by omega)).bind fun hasPartition m' hm' => ?_
  refine (reads_getInt (by omega)).bind fun partition m _ => ?_
  refine (reads_ensure (by simp)).bind fun _ m _ => ?_
  exact .pure trivial

theorem reads_readProducer : Reads .outOfBounds readProducer (fun _ _ => True) n := by
  refine reads_readLen.bind fun len m _ => ?_
  split
  · refine reads_ensureRemaining.bind fun _ m hm => ?_
    refine (reads_getInt (by omega)).bind fun sequence m _ => ?_
    exact .pure trivial
  · refine reads_readBytes.bind fun id m _ => ?_
    refine (reads_attempt (decodeUtf8_in_bounds _ (by simp))).bind fun id m _ => ?_
    refine reads_ensureRemaining.bind fun _ m hm => ?_
    refine (reads_getInt (by omega)).bind fun sequence m _ => ?_
    exact .pure trivial

theorem decodeProduce_drains : Drains .outOfBounds decodeProduce := by
  intro n
  refine reads_readTopic.bind fun topic m _ => ?_
  refine (reads_ensure (by simp)).bind fun _ m _ => ?_
  refine reads_readLen.bind fun keyLen m _ => ?_
  refine (reads_ensure (by simp)).bind fun _ m _ => ?_
  refine reads_readBytes.bind fun key m _ => ?_
  refine reads_readLen.bind fun payloadLen m _ => ?_
  refine (reads_ensure (by simp)).bind fun _ m _ => ?_
  refine reads_readBytes.bind fun payload m _ => ?_
  refine reads_ensureRemaining.bind fun _ m hm => ?_
  refine (reads_getInt (by omega)).bind fun code m _ => ?_
  refine (reads_attempt (AckMode.fromCode_in_bounds _)).bind fun ackMode m _ => ?_
  refine reads_readProducer.bind fun producer m _ => ?_
  refine reads_readPartition.bind fun partition m _ => ?_
  refine drains_ensureEmpty_bind ?_
  refine (reads_attempt (ProduceRequest.new_in_bounds _ _ _ _ _)).bind fun request m hm => ?_
  exact .pure hm

theorem reads_decodeBatchRecord : Reads .outOfBounds decodeBatchRecord (fun _ _ => True) n := by
  refine reads_readLen.bind fun keyLen m _ => ?_
  refine (reads_ensure (by simp)).bind fun _ m _ => ?_
  refine reads_readBytes.bind fun key m _ => ?_
  refine reads_readLen.bind fun payloadLen m _ => ?_
  refine (reads_ensure (by simp)).bind fun _ m _ => ?_
  refine reads_readBytes.bind fun payload m _ => ?_
  exact .pure trivial

/-- The records of a batch are drained too, though what is left of them is dropped. -/
theorem decodeBatchRecords_drains : Drains .outOfBounds decodeBatchRecords := by
  intro n
  refine reads_readLen.bind fun count m _ => ?_
  refine (reads_ensure (by simp)).bind fun _ m _ => ?_
  refine (reads_readMany_any (fun n => reads_decodeBatchRecord) _).bind fun records m _ => ?_
  exact drains_ensureEmpty_bind (.pure rfl)

theorem decodeProduceBatch_drains (zstd : Zstd) :
    Drains .outOfBounds (decodeProduceBatch zstd) := by
  intro n
  refine reads_readTopic.bind fun topic m _ => ?_
  refine reads_ensureRemaining.bind fun _ m hm => ?_
  refine (reads_getInt (by omega)).bind fun code m' hm' => ?_
  refine (reads_attempt (AckMode.fromCode_in_bounds _)).bind fun ackMode m hm => ?_
  refine (reads_getInt (by omega)).bind fun code m _ => ?_
  refine (reads_attempt (Compression.fromCode_in_bounds _)).bind fun compression m _ => ?_
  refine reads_readLen.bind fun uncompressedLen m _ => ?_
  refine (reads_ensure (by simp)).bind fun _ m _ => ?_
  refine reads_readLen.bind fun encodedLen m _ => ?_
  refine reads_readBytes.bind fun encoded m _ => ?_
  refine reads_readPartition.bind fun partition m _ => ?_
  refine drains_ensureEmpty_bind ?_
  refine (reads_attempt (decompressBatch_in_bounds _ _ _)).bind fun decoded m hm => ?_
  refine (reads_ensure (ite_error_in_bounds (by simp))).bind fun _ m' hm' => ?_
  refine (reads_attempt (decodeBatchRecords_drains _ _ rfl).1).bind fun records m hm => ?_
  refine (reads_attempt (ProduceBatchRequest.new_in_bounds _ _ _ _)).bind fun request m' hm' => ?_
  exact .pure (by omega)

theorem decodeFetch_drains : Drains .outOfBounds decodeFetch := by
  intro n
  refine reads_readTopic.bind fun topic m _ => ?_
  refine reads_ensureRemaining.bind fun _ m hm => ?_
  refine (reads_getInt (by omega)).bind fun partition m₁ h₁ => ?_
  refine (reads_getInt (by omega)).bind fun offset m₂ h₂ => ?_
  refine (reads_getInt (by omega)).bind fun maxBytes m₃ h₃ => ?_
  refine (reads_getInt (by omega)).bind fun maxWaitMs m₄ _ => ?_
  exact drains_ensureEmpty_bind (reads_attempt (FetchRequest.new_in_bounds _ _ _ _ _))

theorem decodeGroupMember_drains : Drains .outOfBounds decodeGroupMember := by
  intro n
  refine reads_decodeString.bind fun group m _ => ?_
  refine reads_decodeString.bind fun topic m _ => ?_
  refine reads_decodeString.bind fun member m _ => ?_
  exact drains_ensureEmpty_bind (.pure rfl)

theorem decodeGroupGeneration_drains : Drains .outOfBounds decodeGroupGeneration := by
  intro n
  refine reads_decodeString.bind fun group m _ => ?_
  refine reads_decodeString.bind fun topic m _ => ?_
  refine reads_decodeString.bind fun member m _ => ?_
  refine reads_ensureRemaining.bind fun _ m hm => ?_
  refine (reads_getInt (by omega)).bind fun generation m₁ _ => ?_
  exact drains_ensureEmpty_bind (.pure rfl)

theorem decodeCommitOffset_drains : Drains .outOfBounds decodeCommitOffset := by
  intro n
  refine reads_decodeString.bind fun group m _ => ?_
  refine reads_decodeString.bind fun topic m _ => ?_
  refine reads_decodeString.bind fun member m _ => ?_
  refine reads_ensureRemaining.bind fun _ m hm => ?_
  refine (reads_getInt (by omega)).bind fun generation m₁ h₁ => ?_
  refine (reads_getInt (by omega)).bind fun partition m₂ h₂ => ?_
  refine (reads_getInt (by omega)).bind fun offset m₃ _ => ?_
  exact drains_ensureEmpty_bind (.pure rfl)

theorem decodeFetchCommitted_drains : Drains .outOfBounds decodeFetchCommitted := by
  intro n
  refine reads_decodeString.bind fun group m _ => ?_
  refine reads_decodeString.bind fun topic m _ => ?_
  refine reads_ensureRemaining.bind fun _ m hm => ?_
  refine (reads_getInt (by omega)).bind fun partition m₁ _ => ?_
  exact drains_ensureEmpty_bind (.pure rfl)

theorem decodeGroupFetch_drains : Drains .outOfBounds decodeGroupFetch := by
  intro n
  refine reads_decodeString.bind fun group m _ => ?_
  refine reads_decodeString.bind fun topic m _ => ?_
  refine reads_decodeString.bind fun member m _ => ?_
  refine reads_ensureRemaining.bind fun _ m hm => ?_
  refine (reads_getInt (by omega)).bind fun generation m₁ h₁ => ?_
  refine (reads_getInt (by omega)).bind fun partition m₂ h₂ => ?_
  refine (reads_getInt (by omega)).bind fun offset m₃ h₃ => ?_
  refine (reads_getInt (by omega)).bind fun maxBytes m₄ h₄ => ?_
  refine (reads_getInt (by omega)).bind fun maxWaitMs m₅ _ => ?_
  refine drains_ensureEmpty_bind ?_
  exact (reads_ensure (validateFetch_in_bounds _ _ _)).bind fun _ m hm => .pure hm

theorem decodeCreateTopic_drains : Drains .outOfBounds decodeCreateTopic := by
  intro n
  refine reads_decodeString.bind fun topic m _ => ?_
  refine reads_ensureRemaining.bind fun _ m hm => ?_
  refine (reads_getInt (by omega)).bind fun partitions m₁ _ => ?_
  refine drains_ensureEmpty_bind ?_
  refine (reads_ensure (validateTopic_in_bounds _)).bind fun _ m hm => ?_
  exact (reads_ensure (by simp)).bind fun _ m' hm' => .pure (hm'.trans hm)

theorem decodeDescribeTopic_drains : Drains .outOfBounds decodeDescribeTopic := by
  intro n
  refine reads_decodeString.bind fun topic m _ => ?_
  refine drains_ensureEmpty_bind ?_
  exact (reads_ensure (validateTopic_in_bounds _)).bind fun _ m hm => .pure hm

theorem decodePromoteLeader_drains : Drains .outOfBounds decodePromoteLeader := by
  intro n
  refine reads_decodeString.bind fun topic m _ => ?_
  refine reads_ensureRemaining.bind fun _ m hm => ?_
  refine (reads_getInt (by omega)).bind fun partition m₁ h₁ => ?_
  refine (reads_getInt (by omega)).bind fun leaderId m₂ _ => ?_
  exact drains_ensureEmpty_bind (.pure rfl)

theorem decodeApplyLeadership_drains : Drains .outOfBounds decodeApplyLeadership := by
  intro n
  refine reads_decodeString.bind fun topic m _ => ?_
  refine reads_ensureRemaining.bind fun _ m hm => ?_
  refine (reads_getInt (by omega)).bind fun partition m₁ h₁ => ?_
  refine (reads_getInt (by omega)).bind fun leaderId m₂ h₂ => ?_
  refine (reads_getInt (by omega)).bind fun leaderEpoch m₃ h₃ => ?_
  refine (reads_getInt (by omega)).bind fun highWatermark m₄ _ => ?_
  exact drains_ensureEmpty_bind (.pure rfl)

theorem decodePartitionStatus_drains : Drains .outOfBounds decodePartitionStatus := by
  intro n
  refine reads_decodeString.bind fun topic m _ => ?_
  refine reads_ensureRemaining.bind fun _ m hm => ?_
  refine (reads_getInt (by omega)).bind fun partition m₁ _ => ?_
  exact drains_ensureEmpty_bind (.pure rfl)

/-- The guard of an opcode that stands alone. -/
theorem alone_drains {α : Type} (opcode : Nat) (a : α) : Drains .outOfBounds (alone opcode a) := by
  intro n frame hlen
  rw [alone]
  split
  · rename_i hnil
    refine ⟨by simp, fun a' left hok => ?_⟩
    cases hok
    rw [hnil, List.length_nil]
  · exact ⟨by simp, by simp⟩

theorem reads_readRequest (zstd : Zstd) (hn : 1 ≤ n) :
    Reads .outOfBounds (readRequest zstd) (fun _ m => m = 0) n := by
  refine (reads_getInt hn).bind fun opcode m _ => ?_
  split
  · exact decodeProduce_drains.map _ m
  · exact (decodeProduceBatch_drains zstd).map _ m
  · exact decodeFetch_drains.map _ m
  · exact decodeGroupMember_drains.map _ m
  · exact decodeGroupGeneration_drains.map _ m
  · exact decodeGroupGeneration_drains.map _ m
  · exact decodeCommitOffset_drains.map _ m
  · exact decodeFetchCommitted_drains.map _ m
  · exact decodeGroupFetch_drains.map _ m
  · exact decodeCreateTopic_drains.map _ m
  · exact alone_drains _ _ m
  · exact decodeDescribeTopic_drains.map _ m
  · exact alone_drains _ _ m
  · exact decodePromoteLeader_drains.map _ m
  · exact decodeApplyLeadership_drains.map _ m
  · exact decodePartitionStatus_drains.map _ m
  · exact reads_throw (by simp)

end Requests

/-! ## Responses -/

section Responses

variable {n : Nat}

theorem reads_getU32 (h : 4 ≤ n) : Reads .outOfBounds getU32 (fun _ m => m + 4 = n) n :=
  (reads_getInt h).map

theorem reads_getU64 (h : 8 ≤ n) : Reads .outOfBounds getU64 (fun _ m => m + 8 = n) n :=
  (reads_getInt h).map

theorem reads_readProduceAck (h : 12 ≤ n) :
    Reads .outOfBounds readProduceAck (fun _ m => m + 12 = n) n := by
  refine (reads_getInt (by omega)).bind fun partition m₁ h₁ => ?_
  refine (reads_getInt (by omega)).bind fun offset m₂ h₂ => ?_
  exact .pure (by omega)

theorem decodeProduceAck_drains : Drains .outOfBounds decodeProduceAck := by
  intro n frame hlen
  rw [decodeProduceAck]
  split
  · exact ⟨by simp, by simp⟩
  · rename_i heq
    rw [not_not] at heq
    have hread : Reads .outOfBounds readProduceAck (fun _ m => m = 0) n :=
      (reads_readProduceAck (by omega)).mono fun _ m hm => by omega
    exact hread frame hlen

theorem decodeProduceBatchAck_drains : Drains .outOfBounds decodeProduceBatchAck := by
  intro n
  refine reads_ensureRemaining.bind fun _ m hm => ?_
  refine (reads_getInt (by omega)).bind fun count m₁ _ => ?_
  refine (reads_ensure (by simp)).bind fun _ m₂ _ => ?_
  refine reads_ensureRemaining.bind fun _ m₃ h₃ => ?_
  refine (reads_readMany (fun n => reads_readProduceAck) count (by omega)).bind fun acks m₄ _ => ?_
  exact drains_ensureEmpty_bind (.pure rfl)

theorem reads_readKey (keyLen : Int) : Reads .outOfBounds (readKey keyLen) (fun _ _ => True) n := by
  unfold readKey
  split
  · exact .pure trivial
  · split
    · exact (reads_readBytes.mono fun _ _ _ => trivial).map
    · exact reads_throw (by simp)

theorem reads_decodeFetchedRecord :
    Reads .outOfBounds decodeFetchedRecord (fun _ _ => True) n := by
  refine reads_ensureRemaining.bind fun _ m hm => ?_
  refine (reads_getInt (by omega)).bind fun offset m₁ h₁ => ?_
  refine (reads_getInt (by omega)).bind fun timestampMs m₂ h₂ => ?_
  refine (reads_getInt (by omega)).bind fun keyLen m₃ h₃ => ?_
  refine (reads_getInt (by omega)).bind fun valueLen m₄ _ => ?_
  refine (reads_readKey _).bind fun key m₅ _ => ?_
  refine reads_readBytes.bind fun value m₆ _ => ?_
  exact .pure trivial

theorem decodeFetchResponse_drains : Drains .outOfBounds decodeFetchResponse := by
  intro n
  refine reads_ensureRemaining.bind fun _ m hm => ?_
  refine (reads_getInt (by omega)).bind fun count m₁ _ => ?_
  refine (reads_readMany_any (fun n => reads_decodeFetchedRecord) count).bind fun records m₂ _ => ?_
  exact drains_ensureEmpty_bind (.pure rfl)

theorem decodeJoinGroupResponse_drains : Drains .outOfBounds decodeJoinGroupResponse := by
  intro n
  refine reads_ensureRemaining.bind fun _ m hm => ?_
  refine (reads_getInt (by omega)).bind fun generation m₁ h₁ => ?_
  refine (reads_getInt (by omega)).bind fun count m₂ _ => ?_
  refine reads_ensureRemaining.bind fun _ m₃ h₃ => ?_
  refine (reads_readMany (fun n => reads_getU32) count (by omega)).bind fun partitions m₄ _ => ?_
  exact drains_ensureEmpty_bind (.pure rfl)

theorem decodeCommittedOffset_drains : Drains .outOfBounds decodeCommittedOffset := by
  intro n
  refine reads_ensureRemaining.bind fun _ m hm => ?_
  refine (reads_getInt (by omega)).bind fun found m₁ h₁ => ?_
  refine (reads_getInt (by omega)).bind fun offset m₂ _ => ?_
  refine drains_ensureEmpty_bind ?_
  exact (reads_ensure (by simp)).bind fun _ m hm => .pure hm

theorem reads_decodeTopicMetadata :
    Reads .outOfBounds decodeTopicMetadata (fun _ _ => True) n := by
  refine reads_decodeString.bind fun topic m _ => ?_
  refine reads_ensureRemaining.bind fun _ m₁ h₁ => ?_
  refine (reads_getInt (by omega)).bind fun partitions m₂ _ => ?_
  refine reads_readLen.bind fun count m₃ _ => ?_
  refine (reads_ensure (by simp)).bind fun _ m₄ _ => ?_
  refine reads_ensureRemaining.bind fun _ m₅ h₅ => ?_
  refine (reads_readMany (fun n => reads_getU32) count (by omega)).bind fun leaders m₆ _ => ?_
  refine reads_ensureRemaining.bind fun _ m₇ h₇ => ?_
  refine (reads_readMany (fun n => reads_getU64) count (by omega)).bind fun epochs m₈ _ => ?_
  refine reads_ensureRemaining.bind fun _ m₉ h₉ => ?_
  refine (reads_readMany (fun n => reads_getU64) count (by omega)).bind fun marks _ _ => ?_
  exact .pure trivial

theorem decodeTopicsResponse_drains : Drains .outOfBounds decodeTopicsResponse := by
  intro n
  refine reads_ensureRemaining.bind fun _ m hm => ?_
  refine reads_readLen.bind fun count m₁ _ => ?_
  refine (reads_readMany_any (fun n => reads_decodeTopicMetadata) count).bind fun topics m₂ _ => ?_
  exact drains_ensureEmpty_bind (.pure rfl)

theorem reads_decodeClusterNode : Reads .outOfBounds decodeClusterNode (fun _ _ => True) n := by
  refine reads_ensureRemaining.bind fun _ m hm => ?_
  refine (reads_getInt (by omega)).bind fun id m₁ _ => ?_
  refine reads_decodeString.bind fun host m₂ _ => ?_
  refine reads_ensureRemaining.bind fun _ m₃ h₃ => ?_
  refine (reads_getInt (by omega)).bind fun port m₄ h₄ => ?_
  refine (reads_getInt (by omega)).bind fun adminPort m₅ h₅ => ?_
  refine (reads_getInt (by omega)).bind fun replicationPort m₆ _ => ?_
  exact .pure trivial

theorem decodeClusterMetadata_drains : Drains .outOfBounds decodeClusterMetadata := by
  intro n
  refine reads_ensureRemaining.bind fun _ m hm => ?_
  refine (reads_getInt (by omega)).bind fun respondingBrokerId m₁ _ => ?_
  refine reads_readLen.bind fun count m₂ _ => ?_
  refine (reads_ensure (by simp)).bind fun _ m₃ _ => ?_
  refine (reads_readMany_any (fun n => reads_decodeClusterNode) count).bind fun nodes m₄ _ => ?_
  exact drains_ensureEmpty_bind (.pure rfl)

/-- The guard on the number of bytes left, for a parser that takes as many. -/
theorem exactly_drains {α : Type} {opcode k : Nat} {p : Parser α}
    (h : Reads .outOfBounds p (fun _ m => m = 0) k) : Drains .outOfBounds (exactly opcode k p) := by
  intro n frame hlen
  rw [exactly]
  split
  · rename_i heq
    exact h frame heq
  · exact ⟨by simp, by simp⟩

theorem reads_decodeLeadershipChanged :
    Reads .outOfBounds decodeLeadershipChanged (fun _ m => m = 0) 24 := by
  refine (reads_getInt (by omega)).bind fun partition m₁ h₁ => ?_
  refine (reads_getInt (by omega)).bind fun leaderId m₂ h₂ => ?_
  refine (reads_getInt (by omega)).bind fun leaderEpoch m₃ h₃ => ?_
  refine (reads_getInt (by omega)).bind fun highWatermark m₄ h₄ => ?_
  exact .pure (by omega)

theorem decodeError_drains : Drains .outOfBounds decodeError := by
  intro n
  refine reads_decodeString.bind fun message m _ => ?_
  exact drains_ensureEmpty_bind (.pure rfl)

theorem reads_readResponse (hn : 1 ≤ n) :
    Reads .outOfBounds readResponse (fun _ m => m = 0) n := by
  refine (reads_getInt hn).bind fun opcode m _ => ?_
  unfold decodeResponseFrame
  split
  · exact decodeProduceAck_drains.map _ m
  · exact decodeProduceBatchAck_drains.map _ m
  · exact decodeFetchResponse_drains.map _ m
  · exact decodeJoinGroupResponse_drains.map _ m
  · exact alone_drains _ _ m
  · exact decodeCommittedOffset_drains.map _ m
  · exact decodeTopicsResponse_drains.map _ m
  · exact decodeClusterMetadata_drains.map _ m
  · exact exactly_drains reads_decodeLeadershipChanged.map m
  · refine exactly_drains ?_ m
    refine ((reads_getU64 (Nat.le_refl 8)).mono fun _ m hm => ?_).map
    omega
  · exact decodeError_drains.map _ m
  · exact reads_throw (by simp)

end Responses

/-! ## Replication -/

section Replication

variable {n : Nat}

theorem reads_readReplicateRecord (hn : 1 ≤ n) :
    Reads .outOfBounds readReplicateRecord (fun _ m => m = 0) n := by
  refine (reads_getInt hn).bind fun opcode m _ => ?_
  refine (reads_ensure (ite_error_in_bounds (by simp))).bind fun _ m _ => ?_
  refine reads_decodeString.bind fun topic m _ => ?_
  refine reads_ensureRemaining.bind fun _ m hm => ?_
  refine (reads_getInt (by omega)).bind fun partition m₁ h₁ => ?_
  refine (reads_getInt (by omega)).bind fun offset m₂ h₂ => ?_
  refine (reads_getInt (by omega)).bind fun timestampMs m₃ h₃ => ?_
  refine (reads_getInt (by omega)).bind fun durable m₄ h₄ => ?_
  refine (reads_ensure (by simp)).bind fun _ m₅ h₅ => ?_
  refine (reads_getInt (by omega)).bind fun leaderId m₆ h₆ => ?_
  refine (reads_getInt (by omega)).bind fun leaderEpoch m₇ _ => ?_
  refine reads_readLen.bind fun keyLen m₈ _ => ?_
  refine reads_readBytes.bind fun key m₉ _ => ?_
  refine reads_readLen.bind fun valueLen m _ => ?_
  refine (reads_ensure (by simp)).bind fun _ m _ => ?_
  refine reads_readBytes.bind fun value m _ => ?_
  exact drains_ensureEmpty_bind (.pure rfl)

theorem readReplicateAck_drains : Drains .outOfBounds readReplicateAck := by
  intro n frame hlen
  rw [readReplicateAck]
  split
  · exact ⟨by simp, by simp⟩
  · rename_i heq
    rw [not_not] at heq
    refine Reads.bind (Q := fun _ m => m = 0) (@reads_getInt n 1 (by omega))
      (fun opcode m₁ h₁ => ?_) frame hlen
    refine (reads_ensure (ite_error_in_bounds (by simp))).bind fun _ m₂ h₂ => ?_
    refine (reads_getInt (by omega)).bind fun partition m₃ h₃ => ?_
    refine (reads_getInt (by omega)).bind fun nextOffset m₄ h₄ => ?_
    exact .pure (by omega)

end Replication

/-- **The wire decoders never read past their input**, and what they accept they take whole. -/
theorem decoders_within_bounds (zstd : Zstd) :
    WithinBounds (readRequest zstd) ∧ WithinBounds readResponse ∧
    WithinBounds readReplicateRecord ∧ WithinBounds readReplicateAck ∧
    ∀ buffer,
      decodeRequest zstd buffer = taken (decodeFrom (readRequest zstd) buffer) ∧
      decodeResponse buffer = taken (decodeFrom readResponse buffer) ∧
      decodeReplicateRecord buffer = taken (decodeFrom readReplicateRecord buffer) ∧
      decodeReplicateAck buffer = taken (decodeFrom readReplicateAck buffer) := by
  refine ⟨?_, ?_, ?_, ?_, fun buffer => ⟨?_, ?_, ?_, ?_⟩⟩
  · exact .of_reads fun n => reads_readRequest zstd
  · exact .of_reads fun n => reads_readResponse
  · exact .of_reads fun n => reads_readReplicateRecord
  · exact .of_reads fun n _ => readReplicateAck_drains n
  · exact decodeFrame_eq_taken _ buffer
  · exact decodeFrame_eq_taken _ buffer
  · exact decodeFrame_eq_taken _ buffer
  · exact decodeFrame_eq_taken _ buffer

end SevlaMq.Protocol
