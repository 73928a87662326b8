import SevlaMq.Lib.Loop
import SevlaMq.Storage.Pieces

/-!
# Decoding stays within the file and ends

`get_*`, `advance`, `split_to` and indexing of a buffer panic past its end; here they fail with
`outOfBounds`, which no check of `crates/storage/src/lib.rs` returns.

* `decodeRecordFrom` — `decode_record` with the buffer as it is left in every case;
  `decodeRecordFrom_cases` says what it can do, and that `decodeRecord` returns what it returns.
* `recoverPass`, `readPass` — one pass of the loops of `recover_segment` and `PartitionLog::read`;
  `recoverSegment_eq_loop` and `readBuffer_eq_loop` say that the loops need no fuel.
* `decoding_is_safe` — no read past the end, loops that leave, and what recovery reports.
-/

set_option autoImplicit false

namespace SevlaMq.Storage

/-! ## Reads of a buffer -/

/-- `advance`. -/
def advance (n : Nat) (buffer : Bytes) : Except StorageError Bytes :=
  if buffer.length < n then .error .outOfBounds else .ok (buffer.drop n)

/-- `split_to`. -/
def splitTo (n : Nat) (buffer : Bytes) : Except StorageError (Bytes × Bytes) :=
  if buffer.length < n then .error .outOfBounds else .ok (buffer.take n, buffer.drop n)

/-- `buffer[..n]`. -/
def index (n : Nat) (buffer : Bytes) : Except StorageError Bytes :=
  if buffer.length < n then .error .outOfBounds else .ok (buffer.take n)

/-- `read_bytes` is a check and `split_to`. -/
theorem readBytes_eq (buffer : Bytes) (len : Nat) :
    readBytes buffer len =
      if buffer.length < len then .error .invalidRecord else splitTo len buffer := by
  unfold readBytes getBytes splitTo
  split <;> rename_i h
  · split at h
    · cases h
    · rename_i hlen
      cases h
      rw [if_neg hlen, if_neg hlen]
  · split at h
    · rename_i hlen
      rw [if_pos hlen]
    · cases h

/-- `decode_record` with the buffer as it is left. -/
def decodeRecordFrom [Checksum] (buffer : Bytes) :
    Except StorageError (Option StoredRecord) × Bytes :=
  if buffer.length < LENGTH_SIZE then (.ok none, buffer)
  else
    match index LENGTH_SIZE buffer with
    | .error e => (.error e, buffer)
    | .ok header =>
      let recordLen := ofBE header
      if recordLen < MIN_RECORD_SIZE then (.error .invalidRecord, buffer)
      else if recordLen > MAX_RECORD_SIZE then (.error .recordTooLarge, buffer)
      else if buffer.length < LENGTH_SIZE + recordLen then (.ok none, buffer)
      else
        match advance LENGTH_SIZE buffer with
        | .error e => (.error e, buffer)
        | .ok buffer =>
          match splitTo recordLen buffer with
          | .error e => (.error e, buffer)
          | .ok (encoded, buffer) =>
            match decodeBody encoded with
            | .error e => (.error e, buffer)
            | .ok record => (.ok (some record), buffer)

/-! ## Every read of a record has its bytes -/

theorem bind_ne_error {α β ε : Type} {x : Except ε α} {f : α → Except ε β} {bad : ε}
    (hx : x ≠ .error bad) (hf : ∀ a, x = .ok a → f a ≠ .error bad) : (x >>= f) ≠ .error bad := by
  cases x with
  | error e => exact fun h => hx (by cases h; rfl)
  | ok a => exact hf a rfl

theorem getOrPanic_getBE_within {w : Nat} {buffer : Bytes} (h : w ≤ buffer.length) :
    getOrPanic (getBE w buffer) ≠ .error .outOfBounds := by
  rw [getBE, if_neg (Nat.not_lt.2 h), getOrPanic]
  exact fun h => by cases h

theorem readBytes_error {buffer : Bytes} {len : Nat} {e : StorageError}
    (h : readBytes buffer len = .error e) : e ≠ .outOfBounds := by
  rw [readBytes_eq] at h
  split at h
  · cases h
    exact fun h => by cases h
  · rename_i hlen
    rw [splitTo, if_neg hlen] at h
    cases h

/-- The producer's fields are checked before they are read. -/
theorem decodeProducerHeader_within (version : Nat) (encoded : Bytes) :
    decodeProducerHeader version encoded ≠ .error .outOfBounds := by
  unfold decodeProducerHeader
  split
  · split
    · exact fun h => by cases h
    · rename_i hlen
      refine bind_ne_error (getOrPanic_getBE_within (by omega)) fun len hread => ?_
      have hleft := getOrPanic_getBE_ok hread
      refine bind_ne_error (getOrPanic_getBE_within (by omega)) fun sequence _ => ?_
      simp only
      split
      · exact fun h => by cases h
      · split
        · exact fun h => by cases h
        · exact fun h => by cases h
  · exact fun h => by cases h

theorem decodeFields_none_within (keyLen valueLen : Nat) (encoded : Bytes) :
    decodeFields none keyLen valueLen encoded ≠ .error .outOfBounds := by
  have hvalue : ∀ (id : Option ProducerIdentity) (key : Option Bytes) (encoded : Bytes),
      (readBytes encoded valueLen >>= fun read => if read.2 ≠ [] then .error .invalidRecord
        else .ok (id, key, read.1)) ≠ .error StorageError.outOfBounds := by
    intro id key encoded
    refine bind_ne_error (fun h => readBytes_error h rfl) fun read _ => ?_
    split <;> exact fun h => by cases h
  unfold decodeFields
  simp only [bind, Except.bind] at hvalue ⊢
  split
  · exact hvalue none none encoded
  · split
    · split
      · rename_i hread
        exact fun h => readBytes_error hread (Except.error.inj h)
      · exact hvalue none _ _
    · exact fun h => by cases h

/-- Producer id, key and value are read with `read_bytes`. -/
theorem decodeFields_within (producer : Option (Nat × UInt64)) (keyLen valueLen : Nat)
    (encoded : Bytes) : decodeFields producer keyLen valueLen encoded ≠ .error .outOfBounds := by
  cases producer with
  | none => exact decodeFields_none_within keyLen valueLen encoded
  | some header =>
    rw [decodeFields_producer]
    refine bind_ne_error (fun h => readBytes_error h rfl) fun read _ => ?_
    split
    · cases hfields : decodeFields none keyLen valueLen read.2 with
      | error e =>
        have hwithin := decodeFields_none_within keyLen valueLen read.2
        exact fun h => hwithin (by rw [hfields, Except.error.inj h])
      | ok fields => exact fun h => by cases h
    · exact fun h => by cases h

section Decoding

variable [Checksum]

/-- **A record of the smallest size has all that is read unchecked**: the checksum, the version, the
offset and the timestamp, and in version 1 also the two lengths. -/
theorem decodeBody_within {encoded : Bytes} (h : MIN_RECORD_SIZE ≤ encoded.length) :
    decodeBody encoded ≠ .error .outOfBounds := by
  rw [show MIN_RECORD_SIZE = 29 from rfl] at h
  unfold decodeBody
  refine bind_ne_error (getOrPanic_getBE_within (by omega)) fun crc hcrc => ?_
  have h₁ := getOrPanic_getBE_ok hcrc
  simp only
  split
  · exact fun h => by cases h
  refine bind_ne_error (getOrPanic_getBE_within (by omega)) fun version hversion => ?_
  have h₂ := getOrPanic_getBE_ok hversion
  split
  · exact fun h => by cases h
  refine bind_ne_error (getOrPanic_getBE_within (by omega)) fun offset hoffset => ?_
  have h₃ := getOrPanic_getBE_ok hoffset
  refine bind_ne_error (getOrPanic_getBE_within (by omega)) fun timestampMs _ => ?_
  refine bind_ne_error (decodeProducerHeader_within _ _) fun producer _ => ?_
  split
  · exact fun h => by cases h
  rename_i hlen
  refine bind_ne_error (getOrPanic_getBE_within (by omega)) fun keyLen hkeyLen => ?_
  have h₄ := getOrPanic_getBE_ok hkeyLen
  refine bind_ne_error (getOrPanic_getBE_within (by omega)) fun valueLen _ => ?_
  exact bind_ne_error (decodeFields_within _ _ _ _) fun fields _ => fun h => by cases h

/-- **What `decode_record` can do**: report an incomplete record and leave the buffer, fail, or take
the record that its length prefix announces. -/
theorem decodeRecordFrom_cases (buffer : Bytes) :
    (decodeRecordFrom buffer = (.ok none, buffer) ∧ decodeRecord buffer = .ok none) ∨
    (∃ e left, e ≠ .outOfBounds ∧ decodeRecordFrom buffer = (.error e, left) ∧
      decodeRecord buffer = .error e) ∨
    ∃ s size, size = LENGTH_SIZE + ofBE (buffer.take LENGTH_SIZE) ∧ 33 ≤ size ∧
      size ≤ buffer.length ∧ decodeRecordFrom buffer = (.ok (some s), buffer.drop size) ∧
      decodeRecord buffer = .ok (some (s, buffer.drop size)) := by
  unfold decodeRecordFrom decodeRecord
  by_cases hheader : buffer.length < LENGTH_SIZE
  · left
    simp only [if_pos hheader, and_self]
  simp only [if_neg hheader, index]
  generalize hlen : ofBE (buffer.take LENGTH_SIZE) = recordLen
  by_cases hmin : recordLen < MIN_RECORD_SIZE
  · right; left
    exact ⟨.invalidRecord, buffer, by simp, by rw [if_pos hmin], by rw [if_pos hmin]⟩
  simp only [if_neg hmin]
  by_cases hmax : recordLen > MAX_RECORD_SIZE
  · right; left
    exact ⟨.recordTooLarge, buffer, by simp, by rw [if_pos hmax], by rw [if_pos hmax]⟩
  simp only [if_neg hmax]
  by_cases hshort : buffer.length < LENGTH_SIZE + recordLen
  · left
    simp only [if_pos hshort, and_self]
  right
  have hrest : ¬ (buffer.drop LENGTH_SIZE).length < recordLen := by
    rw [List.length_drop]
    omega
  simp only [if_neg hshort, advance, if_neg hheader, splitTo, getBytes, if_neg hrest, getOrPanic,
    bind, Except.bind, List.drop_drop]
  have hencoded : MIN_RECORD_SIZE ≤ ((buffer.drop LENGTH_SIZE).take recordLen).length := by
    rw [List.length_take]
    omega
  have hwithin := decodeBody_within hencoded
  cases hbody : decodeBody ((buffer.drop LENGTH_SIZE).take recordLen) with
  | error e =>
    left
    exact ⟨e, _, fun h => hwithin (by rw [hbody, h]), rfl, rfl⟩
  | ok s =>
    right
    refine ⟨s, LENGTH_SIZE + recordLen, rfl, ?_, Nat.not_lt.1 hshort, rfl, rfl⟩
    simp only [MIN_RECORD_SIZE, CRC_SIZE, V1_BODY_FIXED_SIZE, LENGTH_SIZE] at hmin ⊢
    omega

/-- One pass of the loop of `recover_segment`. -/
def recoverPass (contents : Bytes) (interval : Nat) : Recovered × Bytes →
    Pass (Recovered × Bytes) (Except StorageError (Recovered × Nat))
  | (r, buffer) =>
    let position := contents.length - buffer.length
    match decodeRecordFrom buffer with
    | (.error e, _) => .exit (.error e)
    | (.ok (some record), buffer) =>
      match recoverRecord interval r position record with
      | .error e => .exit (.error e)
      | .ok r => .next (r, buffer)
    | (.ok none, buffer) => .exit (.ok (r, contents.length - buffer.length))

/-- One pass of the loop over the records of a segment in `read`; the flag says that the budget is
used up. -/
def readPass (offset maxBytes : Nat) : List StoredRecord × Nat × Bytes →
    Pass (List StoredRecord × Nat × Bytes) (Except StorageError (Bool × List StoredRecord × Nat))
  | (records, bytesRead, buffer) =>
    if buffer = [] then .exit (.ok (false, records, bytesRead))
    else
      let before := buffer.length
      match decodeRecordFrom buffer with
      | (.error e, _) => .exit (.error e)
      | (.ok none, _) => .exit (.error .invalidRecord)
      | (.ok (some record), buffer) =>
        let encodedSize := before - buffer.length
        if record.offset < offset then .next (records, bytesRead, buffer)
        else if records ≠ [] ∧ maxBytes < saturatingAdd bytesRead encodedSize then
          .exit (.ok (true, records, bytesRead))
        else .next (records ++ [record], saturatingAdd bytesRead encodedSize, buffer)

/-- A pass of recovery that goes on has taken a record from the buffer. -/
theorem recoverPass_next {contents : Bytes} {interval : Nat} {s s' : Recovered × Bytes}
    (h : recoverPass contents interval s = .next s') :
    ∃ record, decodeRecord s.2 = .ok (some (record, s'.2)) ∧ s'.2.length + 33 ≤ s.2.length ∧
      recoverRecord interval s.1 (contents.length - s.2.length) record = .ok s'.1 := by
  unfold recoverPass at h
  rcases decodeRecordFrom_cases s.2 with
    ⟨hfrom, _⟩ | ⟨e, left, _, hfrom, _⟩ | ⟨record, size, _, hmin, hsize, hfrom, hdec⟩
  · simp only [hfrom] at h
    cases h
  · simp only [hfrom] at h
    cases h
  · simp only [hfrom] at h
    split at h
    · cases h
    · rename_i r hrecord
      cases h
      refine ⟨record, hdec, ?_, hrecord⟩
      simp only [List.length_drop]
      omega

/-- It leaves with an error, or where no whole record is left. -/
theorem recoverPass_exit {contents : Bytes} {interval : Nat} {s : Recovered × Bytes}
    {res : Except StorageError (Recovered × Nat)}
    (h : recoverPass contents interval s = .exit res) {r : Recovered} {validLen : Nat}
    (hok : res = .ok (r, validLen)) :
    r = s.1 ∧ validLen = contents.length - s.2.length ∧ decodeRecord s.2 = .ok none := by
  unfold recoverPass at h
  rcases decodeRecordFrom_cases s.2 with
    ⟨hfrom, hdec⟩ | ⟨e, left, _, hfrom, _⟩ | ⟨record, size, _, _, _, hfrom, _⟩
  · simp only [hfrom] at h
    cases h
    cases hok
    exact ⟨rfl, rfl, hdec⟩
  · simp only [hfrom] at h
    cases h
    cases hok
  · simp only [hfrom] at h
    split at h
    · cases h
      cases hok
    · cases h

/-- A pass of a read that goes on has taken a record from the buffer. -/
theorem readPass_next {offset maxBytes : Nat} {s s' : List StoredRecord × Nat × Bytes}
    (h : readPass offset maxBytes s = .next s') : s'.2.2.length + 33 ≤ s.2.2.length := by
  obtain ⟨records, bytesRead, buffer⟩ := s
  simp only [readPass] at h
  split at h
  · cases h
  rcases decodeRecordFrom_cases buffer with
    ⟨hfrom, _⟩ | ⟨e, left, _, hfrom, _⟩ | ⟨record, size, _, hmin, hsize, hfrom, _⟩
  · simp only [hfrom] at h
    cases h
  · simp only [hfrom] at h
    cases h
  · simp only [hfrom] at h
    have hless : (buffer.drop size).length + 33 ≤ buffer.length := by
      rw [List.length_drop]
      omega
    split at h
    · cases h
      exact hless
    · split at h
      · cases h
      · cases h
        exact hless

/-! ## The loops of the model -/

/-- What the loop of recovery returns, from the loop over frames. -/
def recovered (total : Nat) (res : Except StorageError (Recovered × Bytes)) :
    Except StorageError (Recovered × Nat) :=
  res.map fun p => (p.1, total - p.2.length)

/-- As many frames as passes are enough. -/
theorem foldFrames_of_loop {contents : Bytes} {interval : Nat}
    {res : Except StorageError (Recovered × Nat)} :
    ∀ {n fuel : Nat} {r : Recovered} {buffer : Bytes},
      loop (recoverPass contents interval) n (r, buffer) = some res → n ≤ fuel →
      recovered contents.length
        (foldFrames decodeRecord (recoverRecord interval) contents.length fuel r buffer) = res
  | 0, _, _, _, h, _ => by cases h
  | n + 1, 0, _, _, _, hle => absurd hle (Nat.not_succ_le_zero n)
  | n + 1, fuel + 1, r, buffer, h, hle => by
    rw [loop] at h
    rw [foldFrames]
    rcases decodeRecordFrom_cases buffer with
      ⟨hfrom, hdec⟩ | ⟨e, left, _, hfrom, hdec⟩ | ⟨record, size, _, _, _, hfrom, hdec⟩
    · simp only [recoverPass, hfrom] at h
      cases h
      rw [hdec]
      rfl
    · simp only [recoverPass, hfrom] at h
      cases h
      rw [hdec]
      rfl
    · simp only [recoverPass, hfrom] at h
      rw [hdec]
      simp only
      cases hrecord : recoverRecord interval r (contents.length - buffer.length) record with
      | error e =>
        simp only [hrecord] at h
        cases h
        rfl
      | ok r' =>
        simp only [hrecord] at h
        exact foldFrames_of_loop h (Nat.le_of_succ_le_succ hle)

/-- **The loop of `recover_segment` leaves**, within one pass for every 33 bytes, with what
`recoverSegment` returns. -/
theorem recoverSegment_eq_loop (contents : Bytes) (nextOffset interval : Nat) (t : ProducerTable) :
    loop (recoverPass contents interval) (contents.length / 33 + 1)
      (⟨nextOffset, [], t⟩, contents) = some (recoverSegment contents nextOffset interval t) := by
  have hless : ∀ s s', recoverPass contents interval s = .next s' →
      s'.2.length + 33 ≤ s.2.length := by
    intro s s' hpass
    obtain ⟨_, _, hlen, _⟩ := recoverPass_next hpass
    exact hlen
  obtain ⟨res, hres⟩ := @loop_exits _ _ _ (fun s => s.2.length) 33 (by decide) hless
    (⟨nextOffset, [], t⟩, contents)
  have hfuel : contents.length / 33 + 1 ≤ contents.length + 1 :=
    Nat.succ_le_succ (Nat.div_le_self _ _)
  rw [hres, ← foldFrames_of_loop hres hfuel, recoverSegment, recovered]
  split
  · rename_i hfold
    rw [hfold]
    rfl
  · rename_i hfold
    rw [hfold]
    rfl

/-- As many units of fuel as passes are enough. -/
theorem readBuffer_of_loop {offset maxBytes : Nat}
    {res : Except StorageError (Bool × List StoredRecord × Nat)} :
    ∀ {n fuel : Nat} {records : List StoredRecord} {bytesRead : Nat} {buffer : Bytes},
      loop (readPass offset maxBytes) n (records, bytesRead, buffer) = some res → n ≤ fuel →
      PartitionLog.readBuffer offset maxBytes fuel records bytesRead buffer = res
  | 0, _, _, _, _, h, _ => by cases h
  | n + 1, 0, _, _, _, _, hle => absurd hle (Nat.not_succ_le_zero n)
  | n + 1, fuel + 1, records, bytesRead, buffer, h, hle => by
    have hle' := Nat.le_of_succ_le_succ hle
    rw [loop] at h
    rw [PartitionLog.readBuffer]
    simp only [readPass] at h
    by_cases hnil : buffer = []
    · rw [if_pos hnil] at h ⊢
      cases h
      rfl
    rw [if_neg hnil] at h ⊢
    rcases decodeRecordFrom_cases buffer with
      ⟨hfrom, hdec⟩ | ⟨e, left, _, hfrom, hdec⟩ | ⟨record, size, _, _, _, hfrom, hdec⟩
    · simp only [hfrom] at h
      cases h
      rw [hdec]
    · simp only [hfrom] at h
      cases h
      rw [hdec]
    · simp only [hfrom] at h
      simp only [hdec]
      by_cases hbefore : record.offset < offset
      · rw [if_pos hbefore] at h ⊢
        exact readBuffer_of_loop h hle'
      · rw [if_neg hbefore] at h ⊢
        by_cases hfull : records ≠ [] ∧
            maxBytes < saturatingAdd bytesRead (buffer.length - (buffer.drop size).length)
        · rw [if_pos hfull] at h ⊢
          cases h
          rfl
        · rw [if_neg hfull] at h ⊢
          exact readBuffer_of_loop h hle'

/-- **The loop of `read` over a segment leaves**, wherever in a file it starts and whatever it has
collected before. -/
theorem readBuffer_eq_loop (offset maxBytes : Nat) (records : List StoredRecord) (bytesRead : Nat)
    (buffer : Bytes) :
    loop (readPass offset maxBytes) (buffer.length / 33 + 1) (records, bytesRead, buffer) =
      some (PartitionLog.readBuffer offset maxBytes (buffer.length + 1) records bytesRead
        buffer) := by
  obtain ⟨res, hres⟩ := @loop_exits _ _ _ (fun s => s.2.2.length) 33 (by decide)
    (fun s s' => @readPass_next _ offset maxBytes s s') (records, bytesRead, buffer)
  have hfuel : buffer.length / 33 + 1 ≤ buffer.length + 1 :=
    Nat.succ_le_succ (Nat.div_le_self _ _)
  rw [hres, readBuffer_of_loop hres hfuel]

/-! ## What recovery reports -/

/-- The records that recovery has accepted so far, and what follows them in the file. -/
def Accepting (contents : Bytes) (interval : Nat) (start : Recovered) (s : Recovered × Bytes) :
    Prop :=
  ∃ pieces : List Piece, (∀ x ∈ pieces, Whole x.1 x.2) ∧ contents = concatFrames pieces ++ s.2 ∧
    foldSteps (recoverRecord interval) 0 start pieces = .ok s.1

theorem Accepting.next {contents : Bytes} {interval : Nat} {start : Recovered}
    {s s' : Recovered × Bytes} (h : Accepting contents interval start s)
    (hpass : recoverPass contents interval s = .next s') :
    Accepting contents interval start s' := by
  obtain ⟨pieces, hwhole, hcontents, hsteps⟩ := h
  obtain ⟨record, hdec, _, hrecord⟩ := recoverPass_next hpass
  obtain ⟨bs, hbuffer, hbs, _⟩ := decodeRecord_whole hdec
  refine ⟨pieces ++ [(record, bs)], ?_, ?_, ?_⟩
  · intro x hx
    rcases List.mem_append.1 hx with hold | hnew
    · exact hwhole x hold
    · rw [List.mem_singleton.1 hnew]
      exact hbs
  · rw [hcontents, hbuffer, concatFrames_append, concatFrames_cons, concatFrames_nil,
      List.append_nil, List.append_assoc]
  · have hposition : contents.length - s.2.length = (concatFrames pieces).length := by
      rw [hcontents, List.length_append, Nat.add_sub_cancel]
    rw [foldSteps_append, hsteps]
    simp only [foldSteps, Nat.zero_add]
    rw [← hposition, hrecord]

/-- What recovery reports: the records it has accepted, one after the other, up to where no whole
record follows; the valid length is theirs, and each index entry is the beginning of one. -/
def Reported (contents : Bytes) (nextOffset interval : Nat) (t : ProducerTable)
    (res : Except StorageError (Recovered × Nat)) : Prop :=
  ∀ r validLen, res = .ok (r, validLen) →
    ∃ (pieces : List Piece) (rest : Bytes), (∀ x ∈ pieces, Whole x.1 x.2) ∧
      contents = concatFrames pieces ++ rest ∧ decodeRecord rest = .ok none ∧
      foldSteps (recoverRecord interval) 0 ⟨nextOffset, [], t⟩ pieces = .ok r ∧
      validLen = (pieces.map (·.2.length)).sum ∧
      ∀ e ∈ r.index, ∃ first x second, pieces = first ++ x :: second ∧
        e.offset = x.1.offset ∧ e.position = (first.map (·.2.length)).sum ∧
        e.position + x.2.length ≤ validLen

omit [Checksum] in
theorem concatFrames_length (pieces : List Piece) :
    (concatFrames pieces).length = (pieces.map (·.2.length)).sum := by
  rw [concatFrames, List.length_flatMap]

theorem Accepting.reported {contents : Bytes} {nextOffset interval : Nat} {t : ProducerTable}
    {s : Recovered × Bytes} {res : Except StorageError (Recovered × Nat)}
    (h : Accepting contents interval ⟨nextOffset, [], t⟩ s)
    (hpass : recoverPass contents interval s = .exit res) :
    Reported contents nextOffset interval t res := by
  intro r validLen hok
  obtain ⟨pieces, hwhole, hcontents, hsteps⟩ := h
  obtain ⟨rfl, rfl, hrest⟩ := recoverPass_exit hpass hok
  have hvalid : contents.length - s.2.length = (pieces.map (·.2.length)).sum := by
    rw [hcontents, List.length_append, Nat.add_sub_cancel, concatFrames_length]
  refine ⟨pieces, s.2, hwhole, hcontents, hrest, hsteps, hvalid, fun e he => ?_⟩
  rcases recoverRecord_boundaries hsteps e he with
    hold | ⟨first, x, second, rfl, hoffset, hposition⟩
  · exact absurd hold List.not_mem_nil
  · rw [Nat.zero_add, concatFrames_length] at hposition
    refine ⟨first, x, second, rfl, hoffset, hposition, ?_⟩
    rw [hvalid, hposition, List.map_append, List.sum_append, List.map_cons, List.sum_cons]
    omega

/-- **What `recover_segment` reports.** -/
theorem recoverSegment_reported (contents : Bytes) (nextOffset interval : Nat) (t : ProducerTable) :
    Reported contents nextOffset interval t (recoverSegment contents nextOffset interval t) := by
  refine loop_invariant (fun s s' hI hpass => Accepting.next hI hpass)
    (fun s res hI hpass => Accepting.reported hI hpass) ?_
    (recoverSegment_eq_loop contents nextOffset interval t)
  exact ⟨[], fun x hx => absurd hx List.not_mem_nil, rfl, rfl⟩

/-- **Record decoding is safe on arbitrary file contents.**  For every byte string and every
checksum: `decode_record` does not read past the end, leaves an incomplete record in place and takes
a whole one to its last byte, at least 33 bytes; the loops of `recover_segment` and `read` leave
after at most one pass for every 33 bytes and one more; and what `recover_segment` reports are the
whole records at the front of the file. -/
theorem decoding_is_safe :
    (∀ buffer : Bytes,
      (decodeRecordFrom buffer).1 ≠ .error .outOfBounds ∧
      ((decodeRecordFrom buffer).1 = .ok none → (decodeRecordFrom buffer).2 = buffer) ∧
      ∀ s, (decodeRecordFrom buffer).1 = .ok (some s) →
        ∃ size, size = LENGTH_SIZE + ofBE (buffer.take LENGTH_SIZE) ∧ 33 ≤ size ∧
          size ≤ buffer.length ∧ (decodeRecordFrom buffer).2 = buffer.drop size) ∧
    (∀ (contents : Bytes) (nextOffset interval : Nat) (t : ProducerTable),
      loop (recoverPass contents interval) (contents.length / 33 + 1)
          (⟨nextOffset, [], t⟩, contents) =
        some (recoverSegment contents nextOffset interval t)) ∧
    (∀ (offset maxBytes : Nat) (records : List StoredRecord) (bytesRead : Nat) (buffer : Bytes),
      loop (readPass offset maxBytes) (buffer.length / 33 + 1) (records, bytesRead, buffer) =
        some (PartitionLog.readBuffer offset maxBytes (buffer.length + 1) records bytesRead
          buffer)) ∧
    ∀ (contents : Bytes) (nextOffset interval : Nat) (t : ProducerTable),
      Reported contents nextOffset interval t (recoverSegment contents nextOffset interval t) := by
  refine ⟨fun buffer => ?_, recoverSegment_eq_loop, readBuffer_eq_loop, recoverSegment_reported⟩
  rcases decodeRecordFrom_cases buffer with
    ⟨hfrom, _⟩ | ⟨e, left, he, hfrom, _⟩ | ⟨s, size, hprefix, hmin, hsize, hfrom, _⟩
  · rw [hfrom]
    exact ⟨by simp, fun _ => rfl, fun s hs => by cases hs⟩
  · rw [hfrom]
    exact ⟨fun h => he (Except.error.inj h), fun h => (by cases h), fun s hs => by cases hs⟩
  · rw [hfrom]
    exact ⟨by simp, fun h => (by cases h), fun _ _ => ⟨size, hprefix, hmin, hsize, rfl⟩⟩

end Decoding

/-- A record of version 1 with the value `7`, and the first bytes of another one. -/
def tornFile : Bytes :=
  let body :=
    toBE 1 RECORD_VERSION_V1 ++ toBE 8 0 ++ toBE 8 5 ++ toBE 4 (ofI32 (-1)) ++ toBE 4 1 ++ [7]
  toBE 4 30 ++ toBE 4 (crc32 body).toNat ++ body ++ [0, 0, 0, 30, 1]

theorem decoding_is_safe_torn :
    letI := Checksum.crc32
    ∃ r, recoverSegment tornFile 0 64 .empty = .ok (r, 34) ∧ r.index = [⟨0, 0⟩] ∧
      ∃ pieces : List Piece, (pieces.map (·.2.length)).sum = 34 ∧ ∃ x ∈ pieces, x.1.offset = 0 := by
  let _ := Checksum.crc32
  have hrun : (recoverSegment tornFile 0 64 .empty).map (fun p => (p.1.index, p.2)) =
      .ok ([⟨0, 0⟩], 34) := by
    decide +kernel
  cases hrecover : recoverSegment tornFile 0 64 .empty with
  | error e =>
    rw [hrecover] at hrun
    cases hrun
  | ok p =>
    rw [hrecover] at hrun
    obtain ⟨hindex, hlen⟩ := Prod.mk.inj (Except.ok.inj hrun)
    obtain ⟨_, _, _, hreported⟩ := decoding_is_safe
    obtain ⟨pieces, _, _, _, _, _, hvalid, hentries⟩ :=
      hreported tornFile 0 64 .empty p.1 p.2 hrecover
    refine ⟨p.1, by rw [← hlen], hindex, pieces, by rw [← hvalid, hlen], ?_⟩
    obtain ⟨first, x, second, rfl, hoffset, _⟩ := hentries ⟨0, 0⟩ (by rw [hindex]; exact
      List.mem_cons_self)
    exact ⟨x, by simp, hoffset.symm⟩

end SevlaMq.Storage
