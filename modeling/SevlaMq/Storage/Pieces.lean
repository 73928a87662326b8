import SevlaMq.Lib.Stream
import SevlaMq.Storage.Restart

/-!
# The records in the files of a log, whatever their version

`encode_record` writes version 2; `decode_record` reads version 1 as well, so a log may hold both.
What is said here does not depend on the version, on the offsets or on where the records came from.

* `Whole s bs` — the bytes decode as the record, whatever follows them.
* `decodeRecord_length` — a decoded record takes at least its key, its value and 33 bytes.
* `LogOf P log` — the files of the log are whole records whose key and value meet `P`, and its index
  entries stand at their beginnings.
* `LogOf.read` — a read returns such records, and more than one only within its budget.
* `LogOf.perform`, `DirOf.openLog`, `LogOf.outage` — neither an operation nor opening a directory nor
  a crash brings other records.
-/

set_option autoImplicit false

namespace SevlaMq.Storage

/-! ## Decoded bytes -/

theorem bind_eq_ok {α β ε : Type} {x : Except ε α} {f : α → Except ε β} {b : β}
    (h : (x >>= f) = .ok b) : ∃ a, x = .ok a ∧ f a = .ok b := by
  cases x with
  | error e => cases h
  | ok a => exact ⟨a, rfl, h⟩

theorem getOrPanic_getBE_ok {w x : Nat} {buffer rest : Bytes}
    (h : getOrPanic (getBE w buffer) = .ok (x, rest)) : buffer.length = w + rest.length := by
  unfold getOrPanic getBE at h
  split at h
  · rename_i pair hpair
    split at hpair
    · cases hpair
    · rename_i hlen
      cases hpair
      cases h
      rw [List.length_drop]
      omega
  · cases h

theorem readBytes_ok {buffer : Bytes} {read : Bytes × Bytes} {len : Nat}
    (h : readBytes buffer len = .ok read) : buffer.length = read.1.length + read.2.length := by
  unfold readBytes getBytes at h
  split at h
  · rename_i pair hpair
    split at hpair
    · cases hpair
    · cases hpair
      cases h
      rw [List.length_take, List.length_drop]
      omega
  · cases h

/-- The producer's fields take no byte back. -/
theorem decodeProducerHeader_length {version : Nat} {encoded rest : Bytes}
    {producer : Option (Nat × UInt64)}
    (h : decodeProducerHeader version encoded = .ok (producer, rest)) :
    rest.length ≤ encoded.length := by
  unfold decodeProducerHeader at h
  split at h
  · split at h
    · cases h
    · obtain ⟨⟨len, encoded₁⟩, hlen, h⟩ := bind_eq_ok h
      obtain ⟨⟨sequence, encoded₂⟩, hsequence, h⟩ := bind_eq_ok h
      have h₁ := getOrPanic_getBE_ok hlen
      have h₂ := getOrPanic_getBE_ok hsequence
      simp only at h
      split at h
      · cases h
        omega
      · split at h
        · cases h
          omega
        · cases h
  · cases h
    exact Nat.le_refl _

theorem decodeFields_none_length {keyLen valueLen : Nat} {encoded : Bytes}
    {id : Option ProducerIdentity} {key : Option Bytes} {value : Bytes}
    (h : decodeFields none keyLen valueLen encoded = .ok (id, key, value)) :
    (key.getD []).length + value.length ≤ encoded.length := by
  simp only [decodeFields, bind, Except.bind] at h
  split at h
  · split at h
    · cases h
    · rename_i read hvalue
      split at h
      · cases h
      · cases h
        simp [readBytes_ok hvalue]
  · split at h
    · split at h
      · cases h
      · rename_i read hkey
        split at h
        · cases h
        · rename_i read' hvalue
          split at h
          · cases h
          · cases h
            have hk := readBytes_ok hkey
            have hv := readBytes_ok hvalue
            simp only [Option.getD_some]
            omega
    · cases h

/-- With a producer, its id comes first; what follows is read as without one. -/
theorem decodeFields_producer (len keyLen valueLen : Nat) (sequence : UInt64) (encoded : Bytes) :
    decodeFields (some (len, sequence)) keyLen valueLen encoded =
      readBytes encoded len >>= fun read =>
        match fromUtf8 read.1 with
        | some id => (decodeFields none keyLen valueLen read.2).map fun fields =>
          (some ⟨id, sequence⟩, fields.2.1, fields.2.2)
        | none => .error .invalidProducerId := by
  simp only [decodeFields, bind, Except.bind]
  cases readBytes encoded len with
  | error e => rfl
  | ok read =>
    simp only
    cases fromUtf8 read.1 with
    | none => rfl
    | some id =>
      simp only
      by_cases hnone : toI32 keyLen = -1
      · rw [if_pos hnone, if_pos hnone]
        cases readBytes read.2 valueLen with
        | error e => rfl
        | ok value => simp only; split <;> rfl
      · rw [if_neg hnone, if_neg hnone]
        by_cases hkey : 0 ≤ toI32 keyLen
        · rw [if_pos hkey, if_pos hkey]
          cases readBytes read.2 (toI32 keyLen).toNat with
          | error e => rfl
          | ok key =>
            simp only
            cases readBytes key.2 valueLen with
            | error e => rfl
            | ok value => simp only; split <;> rfl
        · rw [if_neg hkey, if_neg hkey]
          rfl

theorem decodeFields_some {len keyLen valueLen : Nat} {sequence : UInt64} {encoded : Bytes}
    {id : Option ProducerIdentity} {key : Option Bytes} {value : Bytes}
    (h : decodeFields (some (len, sequence)) keyLen valueLen encoded = .ok (id, key, value)) :
    ∃ read, readBytes encoded len = .ok read ∧
      ∃ id', decodeFields none keyLen valueLen read.2 = .ok (id', key, value) := by
  rw [decodeFields_producer] at h
  obtain ⟨read, hread, h⟩ := bind_eq_ok h
  refine ⟨read, hread, ?_⟩
  split at h
  · cases hfields : decodeFields none keyLen valueLen read.2 with
    | error e =>
      rw [hfields] at h
      cases h
    | ok fields =>
      rw [hfields] at h
      cases h
      exact ⟨fields.1, rfl⟩
  · cases h
/-- Key and value are among the bytes. -/
theorem decodeFields_length {producer : Option (Nat × UInt64)} {keyLen valueLen : Nat}
    {encoded : Bytes} {id : Option ProducerIdentity} {key : Option Bytes} {value : Bytes}
    (h : decodeFields producer keyLen valueLen encoded = .ok (id, key, value)) :
    (key.getD []).length + value.length ≤ encoded.length := by
  cases producer with
  | none => exact decodeFields_none_length h
  | some header =>
    obtain ⟨read, hread, _, hfields⟩ := decodeFields_some h
    have hbytes := readBytes_ok hread
    have hlen := decodeFields_none_length hfields
    omega

section Decoding

variable [Checksum]

theorem decodeBody_length {encoded : Bytes} {s : StoredRecord} (h : decodeBody encoded = .ok s) :
    29 + (s.key.getD []).length + s.value.length ≤ encoded.length := by
  unfold decodeBody at h
  obtain ⟨⟨crc, encoded₁⟩, hcrc, h⟩ := bind_eq_ok h
  simp only at h
  split at h
  · cases h
  obtain ⟨⟨version, encoded₂⟩, hversion, h⟩ := bind_eq_ok h
  simp only at h
  split at h
  · cases h
  obtain ⟨⟨offset, encoded₃⟩, hoffset, h⟩ := bind_eq_ok h
  obtain ⟨⟨timestampMs, encoded₄⟩, htimestamp, h⟩ := bind_eq_ok h
  obtain ⟨⟨producer, encoded₅⟩, hproducer, h⟩ := bind_eq_ok h
  simp only at h
  split at h
  · cases h
  obtain ⟨⟨keyLen, encoded₆⟩, hkeyLen, h⟩ := bind_eq_ok h
  obtain ⟨⟨valueLen, encoded₇⟩, hvalueLen, h⟩ := bind_eq_ok h
  obtain ⟨⟨id, key, value⟩, hfields, h⟩ := bind_eq_ok h
  cases h
  have h₁ := getOrPanic_getBE_ok hcrc
  have h₂ := getOrPanic_getBE_ok hversion
  have h₃ := getOrPanic_getBE_ok hoffset
  have h₄ := getOrPanic_getBE_ok htimestamp
  have h₅ := decodeProducerHeader_length hproducer
  have h₆ := getOrPanic_getBE_ok hkeyLen
  have h₇ := getOrPanic_getBE_ok hvalueLen
  have h₈ := decodeFields_length hfields
  simp only at h₁ h₂ h₃ h₄ h₅ h₆ h₇ h₈ ⊢
  omega

/-- The bytes decode as the record, whatever follows them. -/
def Whole (s : StoredRecord) (bs : Bytes) : Prop :=
  ∀ rest, decodeRecord (bs ++ rest) = .ok (some (s, rest))

/-- What was decoded are the first bytes of the buffer. -/
theorem decodeRecord_whole {buffer rest : Bytes} {s : StoredRecord}
    (h : decodeRecord buffer = .ok (some (s, rest))) :
    ∃ bs, buffer = bs ++ rest ∧ Whole s bs ∧
      33 + (s.key.getD []).length + s.value.length ≤ bs.length := by
  unfold decodeRecord at h
  split at h
  · cases h
  rename_i hheader
  simp only at h
  split at h
  · cases h
  rename_i hmin
  split at h
  · cases h
  rename_i hmax
  split at h
  · cases h
  rename_i hlen
  obtain ⟨⟨encoded, rest'⟩, hencoded, h⟩ := bind_eq_ok h
  obtain ⟨s', hbody, h⟩ := bind_eq_ok h
  obtain ⟨rfl, rfl⟩ : s' = s ∧ rest' = rest := by simpa using h
  generalize hrecordLen : ofBE (buffer.take LENGTH_SIZE) = recordLen at *
  have hdrop : ¬ (buffer.drop LENGTH_SIZE).length < recordLen := by
    rw [List.length_drop]
    omega
  have hpair : encoded = (buffer.drop LENGTH_SIZE).take recordLen ∧
      rest' = (buffer.drop LENGTH_SIZE).drop recordLen := by
    simp only [getOrPanic, getBytes, if_neg hdrop, Except.ok.injEq, Prod.mk.injEq] at hencoded
    exact ⟨hencoded.1.symm, hencoded.2.symm⟩
  have hencodedLen : encoded.length = recordLen := by
    rw [hpair.1, List.length_take]
    omega
  have hbuffer : buffer = (buffer.take LENGTH_SIZE ++ encoded) ++ rest' := by
    rw [hpair.1, hpair.2, List.append_assoc, List.take_append_drop, List.take_append_drop]
  have hprefix : (buffer.take LENGTH_SIZE).length = LENGTH_SIZE := by
    rw [List.length_take]
    omega
  refine ⟨buffer.take LENGTH_SIZE ++ encoded, hbuffer, fun more => ?_, ?_⟩
  · have htake : (buffer.take LENGTH_SIZE ++ encoded ++ more).take LENGTH_SIZE =
        buffer.take LENGTH_SIZE := by
      rw [List.append_assoc]
      exact List.take_left' hprefix
    have hrest : (buffer.take LENGTH_SIZE ++ encoded ++ more).drop LENGTH_SIZE = encoded ++ more := by
      rw [List.append_assoc]
      exact List.drop_left' hprefix
    have hbytes := getBytes_append encoded more
    rw [hencodedLen] at hbytes
    have htotal : (buffer.take LENGTH_SIZE ++ encoded ++ more).length =
        LENGTH_SIZE + recordLen + more.length := by
      rw [List.length_append, List.length_append, hprefix, hencodedLen]
    unfold decodeRecord
    simp only [htake, hrest, htotal, hrecordLen, hbytes]
    rw [if_neg (by omega), if_neg hmin, if_neg hmax, if_neg (by omega)]
    simp only [getOrPanic, bind, Except.bind, hbody]
  · have hbodyLen : 29 + (s'.key.getD []).length + s'.value.length ≤ encoded.length :=
      decodeBody_length hbody
    rw [List.length_append, hprefix, show LENGTH_SIZE = 4 from rfl]
    omega

theorem Whole.length {s : StoredRecord} {bs : Bytes} (h : Whole s bs) :
    33 + (s.key.getD []).length + s.value.length ≤ bs.length := by
  obtain ⟨bs', hbuffer, _, hlen⟩ := decodeRecord_whole (h [])
  rw [List.append_nil, List.append_nil] at hbuffer
  rwa [hbuffer]

end Decoding

/-! ## Segments of whole records -/

/-- A record with the bytes it was decoded from. -/
abbrev Piece := StoredRecord × Bytes

section Logs

variable [Checksum] (P : Option Bytes → Bytes → Prop)

/-- Whole records whose key and value meet `P`. -/
def Pieces (pieces : List Piece) : Prop :=
  ∀ x ∈ pieces, Whole x.1 x.2 ∧ P x.1.key x.1.value

/-- `position` is the beginning of one of the pieces, or the end of the last. -/
def Boundary (pieces : List Piece) (position : Nat) : Prop :=
  ∃ first second, pieces = first ++ second ∧ position = (concatFrames first).length

/-- The file of the segment is whole records, and its index points to beginnings of them. -/
structure SegmentOf (s : SegmentMetadata) (pieces : List Piece) : Prop where
  whole : Pieces P pieces
  bytes : s.file.bytes = concatFrames pieces
  len : s.len = s.file.bytes.length
  index : ∀ e ∈ s.index, Boundary pieces e.position

/-- So are all files of the log. -/
structure LogOf (log : PartitionLog) : Prop where
  segments : ∀ s ∈ log.segments, ∃ pieces, SegmentOf P s pieces
  bound : log.nextOffset ≤ U64_MAX

variable {P} {log log' : PartitionLog} {s : SegmentMetadata} {pieces : List Piece}

omit [Checksum] in
theorem Boundary.append {more : List Piece} {position : Nat} (h : Boundary pieces position) :
    Boundary (pieces ++ more) position := by
  obtain ⟨first, second, rfl, hposition⟩ := h
  exact ⟨first, second ++ more, by rw [List.append_assoc], hposition⟩

omit [Checksum] in
theorem Boundary.end (pieces : List Piece) : Boundary pieces (concatFrames pieces).length :=
  ⟨pieces, [], (List.append_nil _).symm, rfl⟩

theorem SegmentOf.new (baseOffset : Nat) : SegmentOf P (.new baseOffset) [] :=
  ⟨fun _ hx => absurd hx List.not_mem_nil, rfl, rfl, fun _ he => absurd he List.not_mem_nil⟩

/-- A read starts at the beginning of a record. -/
theorem SegmentOf.seek (h : SegmentOf P s pieces) (offset : Nat) :
    Boundary pieces (s.seek offset) := by
  unfold SegmentMetadata.seek
  cases hlast : (s.index.takeWhile (·.offset ≤ offset)).getLast? with
  | none => exact ⟨[], pieces, rfl, rfl⟩
  | some e =>
    have hmem := List.mem_of_getLast? hlast
    exact h.index e (List.takeWhile_subset _ hmem)

/-! ## Reading -/

/-- The size of a record in an answer. -/
def answerSize (s : StoredRecord) : Nat := 24 + (s.key.getD []).length + s.value.length

/-- What the loops of `read` keep: the records come from the files, and more than one only within
the budget. -/
structure Collected (P : Option Bytes → Bytes → Prop) (maxBytes : Nat) (records : List StoredRecord)
    (bytesRead : Nat) : Prop where
  all : ∀ x ∈ records, P x.key x.value
  counted : min (records.map answerSize).sum USIZE_MAX ≤ bytesRead
  within : records.length ≤ 1 ∨ bytesRead ≤ maxBytes

omit [Checksum] in
theorem Collected.nil (maxBytes : Nat) : Collected P maxBytes [] 0 :=
  ⟨fun _ hx => absurd hx List.not_mem_nil, Nat.zero_le _, Or.inl (Nat.zero_le _)⟩

theorem Collected.readBuffer {offset maxBytes fuel bytesRead : Nat} {records : List StoredRecord}
    (h : Collected P maxBytes records bytesRead) (hpieces : Pieces P pieces)
    {full : Bool} {records' : List StoredRecord} {bytesRead' : Nat}
    (hr : PartitionLog.readBuffer offset maxBytes fuel records bytesRead (concatFrames pieces) =
      .ok (full, records', bytesRead')) : Collected P maxBytes records' bytesRead' := by
  induction fuel generalizing records bytesRead pieces with
  | zero => cases hr
  | succ fuel ih =>
    cases pieces with
    | nil =>
      rw [concatFrames_nil, PartitionLog.readBuffer, if_pos rfl] at hr
      cases hr
      exact h
    | cons x pieces =>
      obtain ⟨hx, hrest⟩ := List.forall_mem_cons.1 hpieces
      have hlen := hx.1.length
      have hne : x.2 ++ concatFrames pieces ≠ [] := by
        intro hnil
        rw [(List.append_eq_nil_iff.1 hnil).1] at hlen
        simp at hlen
      have hsize : (x.2 ++ concatFrames pieces).length - (concatFrames pieces).length =
          x.2.length := by
        rw [List.length_append, Nat.add_sub_cancel]
      rw [concatFrames_cons, PartitionLog.readBuffer, if_neg hne, hx.1] at hr
      simp only [hsize] at hr
      split at hr
      · exact ih h hrest hr
      · split at hr
        · cases hr
          exact h
        · rename_i hbudget
          refine ih ?_ hrest hr
          refine ⟨?_, ?_, ?_⟩
          · intro y hy
            rcases List.mem_append.1 hy with hold | hnew
            · exact h.all y hold
            · rw [List.mem_singleton.1 hnew]
              exact hx.2
          · have hcounted := h.counted
            rw [List.map_append, List.sum_append, List.map_singleton, List.sum_singleton]
            simp only [answerSize, saturatingAdd]
            omega
          · rcases Nat.eq_zero_or_pos records.length with hzero | hpos
            · left
              rw [List.length_append, hzero]
              exact Nat.le_refl _
            · right
              rw [not_and] at hbudget
              exact Nat.not_lt.1 (hbudget (List.length_pos_iff.1 hpos))

theorem Collected.readSegments {offset maxBytes bytesRead : Nat} {records : List StoredRecord}
    (h : Collected P maxBytes records bytesRead) {ss : List SegmentMetadata}
    (hss : ∀ s ∈ ss, ∃ pieces, SegmentOf P s pieces) {records' : List StoredRecord}
    (hr : PartitionLog.readSegments offset maxBytes records bytesRead ss = .ok records') :
    ∃ bytesRead', Collected P maxBytes records' bytesRead' := by
  induction ss generalizing records bytesRead with
  | nil =>
    rw [PartitionLog.readSegments] at hr
    cases hr
    exact ⟨bytesRead, h⟩
  | cons s ss ih =>
    obtain ⟨⟨pieces, hs⟩, hrest⟩ := List.forall_mem_cons.1 hss
    rw [PartitionLog.readSegments] at hr
    split at hr
    · exact ih h hrest hr
    · obtain ⟨first, second, hsplit, hseek⟩ := hs.seek offset
      have hbuffer : s.file.bytes.drop (s.seek offset) = concatFrames second := by
        rw [hs.bytes, hsplit, concatFrames_append, hseek, List.drop_left]
      have hsecond : Pieces P second :=
        fun x hx => hs.whole x (by rw [hsplit]; exact List.mem_append_right _ hx)
      simp only [hbuffer] at hr
      split at hr
      · cases hr
      · rename_i records₁ bytesRead₁ hread
        cases hr
        exact ⟨_, h.readBuffer hsecond hread⟩
      · rename_i records₁ bytesRead₁ hread
        exact ih (h.readBuffer hsecond hread) hrest hr

/-- **What a read returns**: records of the log, more than one only within the budget. -/
theorem LogOf.read (h : LogOf P log) {offset maxBytes : Nat} {records : List StoredRecord}
    (hr : log.read offset maxBytes = .ok records) :
    (∀ x ∈ records, P x.key x.value) ∧
      (records.length ≤ 1 ∨ min (records.map answerSize).sum USIZE_MAX ≤ maxBytes) := by
  unfold PartitionLog.read at hr
  split at hr
  · cases hr
  · obtain ⟨bytesRead, hcollected⟩ := (Collected.nil maxBytes).readSegments h.segments hr
    exact ⟨hcollected.all, hcollected.within.imp_right (Nat.le_trans hcollected.counted)⟩

/-! ## Appending -/

/-- A record that meets `P` goes to the end of the segment. -/
theorem SegmentOf.write (h : SegmentOf P s pieces) {interval offset : Nat} {encoded : Bytes}
    {x : StoredRecord} {written : SegmentMetadata} (hx : Whole x encoded) (hP : P x.key x.value)
    (hw : s.write interval offset encoded = .ok written) :
    SegmentOf P written (pieces ++ [(x, encoded)]) := by
  unfold SegmentMetadata.write at hw
  split at hw
  · cases hw
  split at hw
  · cases hw
  rename_i indexFile _ file hfile
  split at hw
  · cases hw
  cases hw
  have hbytes : file.bytes = s.file.bytes ++ encoded := by
    unfold File.writeAll at hfile
    split at hfile
    · cases hfile
    · cases hfile
      rfl
  refine ⟨?_, ?_, ?_, ?_⟩
  · intro y hy
    rcases List.mem_append.1 hy with hold | hnew
    · exact h.whole y hold
    · rw [List.mem_singleton.1 hnew]
      exact ⟨hx, hP⟩
  · simp only [hbytes, h.bytes, concatFrames_append, concatFrames_cons, concatFrames_nil,
      List.append_nil]
  · simp only [hbytes, h.len, List.length_append]
  · intro e he
    simp only [indexRecord] at he
    split at he
    · rcases List.mem_append.1 he with hold | hnew
      · exact (h.index e hold).append
      · rw [List.mem_singleton.1 hnew, h.len, h.bytes]
        exact (Boundary.end pieces).append
    · exact (h.index e he).append

theorem LogOf.setActive (h : LogOf P log) (hs : SegmentOf P s pieces) :
    LogOf P (log.setActive s) := by
  refine ⟨fun x hx => ?_, h.bound⟩
  rcases List.mem_append.1 hx with hold | hnew
  · exact h.segments x (List.dropLast_subset _ hold)
  · rw [List.mem_singleton.1 hnew]
    exact ⟨pieces, hs⟩

theorem LogOf.store (h : LogOf P log) {r : Record} {encoded : Bytes}
    (hx : Whole (r.at log.nextOffset) encoded) (hP : P r.key r.value) :
    LogOf P (log.store r encoded).2 := by
  unfold PartitionLog.store
  split
  · exact h
  · rename_i active hactive
    split
    · exact h
    · rename_i written hwritten
      obtain ⟨pieces, hs⟩ := h.segments active (List.mem_of_getLast? hactive)
      have hnew := h.setActive (hs.write hx hP hwritten)
      simp only
      split
      · exact hnew
      · rename_i hbound
        exact ⟨hnew.segments, Nat.not_lt.1 hbound⟩

theorem LogOf.makeRoom (h : LogOf P log) {len : Nat} (hr : log.makeRoom len = .ok log') :
    LogOf P log' ∧ log'.nextOffset = log.nextOffset := by
  unfold PartitionLog.makeRoom at hr
  split at hr
  · cases hr
  split at hr
  · unfold PartitionLog.rotate at hr
    split at hr
    · cases hr
    · rename_i s hs
      cases hr
      unfold createSegment at hs
      split at hs
      · cases hs
      · cases hs
        refine ⟨⟨fun x hx => ?_, h.bound⟩, rfl⟩
        rcases List.mem_append.1 hx with hold | hnew
        · exact h.segments x hold
        · rw [List.mem_singleton.1 hnew]
          exact ⟨[], .new _⟩
  · cases hr
    exact ⟨h, rfl⟩

theorem LogOf.append (h : LogOf P log) {r : Record} (hP : P r.key r.value) :
    LogOf P (log.append r).2 := by
  unfold PartitionLog.append
  split
  · exact h
  · exact h
  · split
    · exact h
    · rename_i encoded hencode
      have hoffset : log.nextOffset < 2 ^ 64 := Nat.lt_of_le_of_lt h.bound (by decide)
      have hx : Whole (r.at log.nextOffset) encoded :=
        (encodeRecord_isFrame hoffset hencode).complete
      split
      · exact h
      · rename_i log₁ hroom
        obtain ⟨h₁, hnext⟩ := h.makeRoom hroom
        rw [← hnext] at hx
        exact h₁.store hx hP

theorem LogOf.appendReplica (h : LogOf P log) {offset : Nat} {r : Record} (hP : P r.key r.value) :
    LogOf P (log.appendReplica offset r).2 := by
  unfold PartitionLog.appendReplica
  split
  · split
    · exact h
    · split
      · exact h
      · split
        · exact h
        · exact h
  · split
    · exact h
    · exact h.append hP

theorem LogOf.syncData (h : LogOf P log) : LogOf P log.syncData := by
  unfold PartitionLog.syncData
  split
  · exact h
  · rename_i s hs
    obtain ⟨pieces, hpieces⟩ := h.segments s (List.mem_of_getLast? hs)
    exact h.setActive ⟨hpieces.whole, hpieces.bytes, hpieces.len, hpieces.index⟩

theorem LogOf.appendAll (h : LogOf P log) {rs : List Record} (hrs : ∀ r ∈ rs, P r.key r.value) :
    LogOf P (log.appendAll rs).2 := by
  induction rs generalizing log with
  | nil => exact h
  | cons r rs ih =>
    obtain ⟨hr, hrest⟩ := List.forall_mem_cons.1 hrs
    have hstep := h.append hr
    rw [PartitionLog.appendAll]
    split
    · rename_i happ
      rwa [happ] at hstep
    · rename_i happ
      rw [happ] at hstep
      exact ih hstep hrest

/-- Truncation appends again what it has read. -/
theorem LogOf.truncateTo (h : LogOf P log) (offset : Nat) : LogOf P (log.truncateTo offset).2 := by
  unfold PartitionLog.truncateTo
  split
  · exact h
  split
  · exact h
  split
  · exact h
  · rename_i records hread
    have hall := (h.read hread).1
    have hcleared : LogOf P log.cleared := by
      refine ⟨fun x hx => ?_, Nat.zero_le _⟩
      rw [List.mem_singleton.1 hx]
      exact ⟨[], .new 0⟩
    have hretained : ∀ r ∈ (records.filter (·.offset < offset)).map StoredRecord.toRecord,
        P r.key r.value := by
      intro r hr
      obtain ⟨x, hx, rfl⟩ := List.mem_map.1 hr
      exact hall x (List.mem_of_mem_filter hx)
    have hreplay := hcleared.appendAll hretained
    simp only [PartitionLog.replay]
    split
    · rename_i hrest
      rwa [hrest] at hreplay
    · rename_i hrest
      rw [hrest] at hreplay
      exact hreplay.syncData

theorem LogOf.applyRetention (h : LogOf P log) (maxBytes maxAge : Option Nat)
    (elapsed : Nat → Option Nat) : LogOf P (log.applyRetention maxBytes maxAge elapsed).2 := by
  obtain ⟨k, hk, _⟩ :=
    PartitionLog.retain_drop maxBytes maxAge elapsed log.logSizeBytes log.segments
  simp only [PartitionLog.applyRetention, hk]
  exact ⟨fun x hx => h.segments x (List.mem_of_mem_drop hx), h.bound⟩

theorem LogOf.perform (h : LogOf P log) {op : Operation}
    (hop : ∀ r, op = .append r ∨ (∃ offset, op = .appendReplica offset r) → P r.key r.value) :
    LogOf P (op.perform log).2 := by
  cases op with
  | append r => exact h.append (hop r (Or.inl rfl))
  | appendReplica offset r => exact h.appendReplica (hop r (Or.inr ⟨offset, rfl⟩))
  | truncateTo offset => exact h.truncateTo offset
  | syncData => exact h.syncData
  | applyRetention maxBytes maxAge elapsed => exact h.applyRetention maxBytes maxAge elapsed

/-! ## Opening -/

/-- Every record that can be decoded from a file of the directory, from its beginning on, meets
`P`. -/
def DirOf (P : Option Bytes → Bytes → Prop) (dir : Dir) : Prop :=
  ∀ x ∈ dir.logs, ∀ s ∈ (drain decodeRecord x.2.bytes).1, P s.key s.value

omit [Checksum] in
theorem concatFrames_length_le {pieces : List Piece} (h : ∀ x ∈ pieces, x.2 ≠ []) :
    pieces.length ≤ (concatFrames pieces).length := by
  induction pieces with
  | nil => exact Nat.le_refl _
  | cons x pieces ih =>
    obtain ⟨hx, hrest⟩ := List.forall_mem_cons.1 h
    have hpos := List.length_pos_iff.2 hx
    have hle := ih hrest
    rw [concatFrames_cons, List.length_append, List.length_cons]
    omega

theorem Whole.ne_nil {x : StoredRecord} {bs : Bytes} (h : Whole x bs) : bs ≠ [] := by
  intro hnil
  have hlen := h.length
  rw [hnil, List.length_nil] at hlen
  omega

/-- Whole records are decoded, whatever follows them. -/
theorem drainLoop_pieces (hpieces : ∀ x ∈ pieces, Whole x.1 x.2) (rest : Bytes) :
    ∀ fuel, pieces.length ≤ fuel →
      ∀ x ∈ pieces, x.1 ∈ (drainLoop decodeRecord fuel (concatFrames pieces ++ rest)).1 := by
  induction pieces with
  | nil => exact fun _ _ x hx => absurd hx List.not_mem_nil
  | cons y pieces ih =>
    intro fuel hfuel x hx
    obtain ⟨hy, hrest⟩ := List.forall_mem_cons.1 hpieces
    obtain ⟨n, rfl⟩ : ∃ n, fuel = n + 1 := ⟨fuel - 1, by simp at hfuel; omega⟩
    rw [concatFrames_cons, List.append_assoc, drainLoop, hy]
    simp only [Decoded.cons]
    rcases List.mem_cons.1 hx with rfl | hx
    · exact List.mem_cons_self
    · exact List.mem_cons_of_mem _ (ih hrest n (by simpa using hfuel) x hx)

theorem mem_drain_pieces (hpieces : ∀ x ∈ pieces, Whole x.1 x.2) (rest : Bytes) :
    ∀ x ∈ pieces, x.1 ∈ (drain decodeRecord (concatFrames pieces ++ rest)).1 := by
  refine drainLoop_pieces hpieces rest _ ?_
  have hle := concatFrames_length_le fun x hx => (hpieces x hx).ne_nil
  rw [List.length_append]
  omega

/-- Nothing else is decoded where nothing follows them, also when the end is missing. -/
theorem drainLoop_subset (hpieces : ∀ x ∈ pieces, Whole x.1 x.2) {bytes : Bytes}
    (hinit : bytes <+: concatFrames pieces) (fuel : Nat) :
    ∀ s ∈ (drainLoop decodeRecord fuel bytes).1, ∃ x ∈ pieces, x.1 = s := by
  induction fuel generalizing pieces bytes with
  | zero => exact fun s hs => absurd hs List.not_mem_nil
  | succ fuel ih =>
    intro s hs
    rw [drainLoop] at hs
    split at hs
    · cases hs
    · cases hs
    · rename_i s₁ left hdec
      obtain ⟨bs, rfl, hwhole, hlen⟩ := decodeRecord_whole hdec
      obtain ⟨missing, hmissing⟩ := hinit
      cases pieces with
      | nil =>
        rw [concatFrames_nil, List.append_assoc] at hmissing
        exact absurd (List.append_eq_nil_iff.1 hmissing).1 hwhole.ne_nil
      | cons y pieces =>
        obtain ⟨hy, hrest⟩ := List.forall_mem_cons.1 hpieces
        -- both ways to read the first record agree
        have hfirst := hwhole (left ++ missing)
        rw [← List.append_assoc, hmissing, concatFrames_cons, hy] at hfirst
        simp only [Except.ok.injEq, Option.some.injEq, Prod.mk.injEq] at hfirst
        obtain ⟨rfl, hleft⟩ := hfirst
        simp only [Decoded.cons] at hs
        rcases List.mem_cons.1 hs with rfl | hs
        · exact ⟨y, List.mem_cons_self, rfl⟩
        · obtain ⟨x, hx, hsx⟩ := ih hrest ⟨missing, hleft.symm⟩ s hs
          exact ⟨x, List.mem_cons_of_mem _ hx, hsx⟩

/-- The recovery loop goes over whole records. -/
theorem foldFrames_pieces {σ : Type} {f : σ → Nat → StoredRecord → Except StorageError σ}
    {total fuel : Nat} {r r' : σ} {buffer rest : Bytes} (hlen : buffer.length ≤ total)
    (h : foldFrames decodeRecord f total fuel r buffer = .ok (r', rest)) :
    ∃ pieces : List Piece, (∀ x ∈ pieces, Whole x.1 x.2) ∧ buffer = concatFrames pieces ++ rest ∧
      foldSteps f (total - buffer.length) r pieces = .ok r' := by
  induction fuel generalizing r buffer with
  | zero =>
    cases h
    exact ⟨[], fun x hx => absurd hx List.not_mem_nil, rfl, rfl⟩
  | succ fuel ih =>
    rw [foldFrames] at h
    split at h
    · cases h
    · cases h
      exact ⟨[], fun x hx => absurd hx List.not_mem_nil, rfl, rfl⟩
    · rename_i s left hdec
      split at h
      · cases h
      · rename_i r₁ hstep
        obtain ⟨bs, rfl, hwhole, _⟩ := decodeRecord_whole hdec
        rw [List.length_append] at hlen
        obtain ⟨pieces, hall, rfl, hfold⟩ := ih (by omega) h
        refine ⟨(s, bs) :: pieces, List.forall_mem_cons.2 ⟨hwhole, hall⟩, ?_, ?_⟩
        · rw [concatFrames_cons, List.append_assoc]
        · rw [foldSteps]
          simp only [hstep]
          have hposition : total - (bs ++ (concatFrames pieces ++ rest)).length + bs.length =
              total - (concatFrames pieces ++ rest).length := by
            rw [List.length_append]
            omega
          rw [hposition]
          exact hfold

omit [Checksum] in
/-- What recovery does with one record. -/
theorem recoverRecord_ok {interval position : Nat} {r r' : Recovered} {x : StoredRecord}
    (h : recoverRecord interval r position x = .ok r') :
    r'.nextOffset ≤ U64_MAX ∧ r'.index = indexRecord interval r.index x.offset position := by
  unfold recoverRecord at h
  split at h
  · cases h
  split at h
  · cases h
  split at h
  · cases h
  rename_i hmax
  cases h
  exact ⟨Nat.not_lt.1 hmax, rfl⟩

omit [Checksum] in
/-- Recovery stops before the offsets overflow. -/
theorem recoverRecord_bound {interval position : Nat} {r r' : Recovered}
    (h : foldSteps (recoverRecord interval) position r pieces = .ok r')
    (hbound : r.nextOffset ≤ U64_MAX) : r'.nextOffset ≤ U64_MAX := by
  induction pieces generalizing position r with
  | nil =>
    cases h
    exact hbound
  | cons x pieces ih =>
    rw [foldSteps] at h
    split at h
    · cases h
    · rename_i r₁ hstep
      exact ih h (recoverRecord_ok hstep).1

omit [Checksum] in
/-- The index that recovery builds points to beginnings of records. -/
theorem recoverRecord_boundaries {interval position : Nat} {r r' : Recovered}
    (h : foldSteps (recoverRecord interval) position r pieces = .ok r') :
    ∀ e ∈ r'.index, e ∈ r.index ∨
      ∃ first x second, pieces = first ++ x :: second ∧ e.offset = x.1.offset ∧
        e.position = position + (concatFrames first).length := by
  induction pieces generalizing position r with
  | nil =>
    cases h
    exact fun e he => Or.inl he
  | cons x pieces ih =>
    rw [foldSteps] at h
    split at h
    · cases h
    · rename_i r₁ hstep
      intro e he
      rcases ih h e he with hold | ⟨first, y, second, rfl, hoffset, hposition⟩
      · rw [(recoverRecord_ok hstep).2, indexRecord] at hold
        split at hold
        · rcases List.mem_append.1 hold with hold | hnew
          · exact Or.inl hold
          · right
            rw [List.mem_singleton.1 hnew]
            exact ⟨[], x, pieces, rfl, rfl, rfl⟩
        · exact Or.inl hold
      · right
        refine ⟨x :: first, y, second, rfl, hoffset, ?_⟩
        rw [hposition, concatFrames_cons, List.length_append, Nat.add_assoc]

/-- A recovered segment. -/
theorem SegmentOf.recovered {interval nextOffset validLen : Nat} {t : ProducerTable} {r : Recovered}
    (hs : ∀ x ∈ (drain decodeRecord s.file.bytes).1, P x.key x.value)
    (hlen : s.len = s.file.bytes.length) (hbound : nextOffset ≤ U64_MAX)
    (h : recoverSegment s.file.bytes nextOffset interval t = .ok (r, validLen)) :
    r.nextOffset ≤ U64_MAX ∧ ∃ pieces, SegmentOf P (s.recovered validLen r.index) pieces := by
  unfold recoverSegment at h
  split at h
  · cases h
  rename_i r₁ rest hfold
  cases h
  obtain ⟨pieces, hall, hbytes, hsteps⟩ := foldFrames_pieces (Nat.le_refl _) hfold
  rw [Nat.sub_self] at hsteps
  have hindex := recoverRecord_boundaries hsteps
  have hvalid : s.file.bytes.length - rest.length = (concatFrames pieces).length := by
    rw [hbytes, List.length_append, Nat.add_sub_cancel]
  have hfile : (s.recovered (s.file.bytes.length - rest.length) r.index).file.bytes =
      concatFrames pieces := by
    simp only [SegmentMetadata.recovered, rewriteIndex, hvalid, hlen]
    split
    · simp only [File.setLen]
      rw [hbytes]
      exact List.take_left
    · rename_i hnot
      have hnil : rest = [] := by
        rw [hbytes, List.length_append] at hnot
        exact List.length_eq_zero_iff.1 (by omega)
      rw [hbytes, hnil, List.append_nil]
  refine ⟨recoverRecord_bound hsteps hbound, pieces, ?_, hfile, ?_, ?_⟩
  · intro x hx
    refine ⟨hall x hx, hs x.1 ?_⟩
    rw [hbytes]
    exact mem_drain_pieces hall rest x hx
  · rw [hfile]
    simp only [SegmentMetadata.recovered, rewriteIndex, hvalid, hlen]
    split
    · rfl
    · rw [hbytes, List.length_append] at *
      omega
  · intro e he
    rcases hindex e he with hold | ⟨first, x, second, hsplit, _, hposition⟩
    · exact absurd hold List.not_mem_nil
    · exact ⟨first, x :: second, hsplit, by rw [hposition, Nat.zero_add]⟩

theorem recoverSegments_pieces {interval nextOffset nextOffset' : Nat} {t t' : ProducerTable}
    {ss ss' : List SegmentMetadata}
    (hss : ∀ s ∈ ss, s.len = s.file.bytes.length ∧
      ∀ x ∈ (drain decodeRecord s.file.bytes).1, P x.key x.value)
    (hbound : nextOffset ≤ U64_MAX)
    (h : recoverSegments interval nextOffset t ss = .ok (nextOffset', t', ss')) :
    nextOffset' ≤ U64_MAX ∧ ∀ s ∈ ss', ∃ pieces, SegmentOf P s pieces := by
  induction ss generalizing nextOffset t ss' with
  | nil =>
    cases h
    exact ⟨hbound, fun s hs => absurd hs List.not_mem_nil⟩
  | cons s ss ih =>
    obtain ⟨⟨hlen, hs⟩, hrest⟩ := List.forall_mem_cons.1 hss
    rw [recoverSegments] at h
    split at h
    · cases h
    split at h
    · cases h
    rename_i r validLen hrecover
    split at h
    · cases h
    split at h
    · cases h
    rename_i hmore
    cases h
    obtain ⟨hbound₁, hrecovered⟩ := SegmentOf.recovered hs hlen hbound hrecover
    obtain ⟨hbound', hall⟩ := ih hrest hbound₁ hmore
    exact ⟨hbound', List.forall_mem_cons.2 ⟨hrecovered, hall⟩⟩

/-- **Opening a directory**, whatever wrote it. -/
theorem DirOf.openLog {dir : Dir} (h : DirOf P dir) {topic : String} {maxSegmentBytes interval : Nat}
    (hopen : PartitionLog.openLog dir topic maxSegmentBytes interval = .ok log) : LogOf P log := by
  unfold PartitionLog.openLog at hopen
  split at hopen
  · cases hopen
  split at hopen
  · cases hopen
  split at hopen
  · cases hopen
  split at hopen
  · cases hopen
  rename_i segments hinit
  split at hopen
  · cases hopen
  rename_i nextOffset t segments' hrecover
  cases hopen
  have hall : ∀ s ∈ segments, s.len = s.file.bytes.length ∧
      ∀ x ∈ (drain decodeRecord s.file.bytes).1, P x.key x.value := by
    unfold initialSegments at hinit
    split at hinit
    · split at hinit
      · cases hinit
      · cases hinit
        intro s hs
        rw [List.mem_singleton.1 hs]
        exact ⟨rfl, fun x hx => absurd hx List.not_mem_nil⟩
    · cases hinit
      intro s hs
      obtain ⟨y, hy, rfl⟩ := List.mem_map.1 hs
      exact ⟨rfl, h y ((List.perm_insertionSort _ _).subset hy)⟩
  obtain ⟨hbound, hsegments⟩ := recoverSegments_pieces hall (Nat.zero_le _) hrecover
  exact ⟨hsegments, hbound⟩

omit [Checksum] in
theorem forall₂_right_mem {α β : Type} {R : α → β → Prop} {as : List α} {bs : List β}
    (h : List.Forall₂ R as bs) {b : β} (hb : b ∈ bs) : ∃ a ∈ as, R a b := by
  induction h with
  | nil => exact absurd hb List.not_mem_nil
  | cons hhead _ ih =>
    rcases List.mem_cons.1 hb with rfl | hb
    · exact ⟨_, List.mem_cons_self, hhead⟩
    · obtain ⟨a, ha, hab⟩ := ih hb
      exact ⟨a, List.mem_cons_of_mem _ ha, hab⟩

/-- A directory that holds beginnings of the files of a log. -/
theorem LogOf.beginnings (h : LogOf P log) {dir : Dir}
    (hdir : ∀ y ∈ dir.logs, ∃ x ∈ log.dir.logs, y.2.bytes <+: x.2.bytes) : DirOf P dir := by
  intro y hy s hs
  obtain ⟨x, hx, hinit⟩ := hdir y hy
  obtain ⟨segment, hsegment, rfl⟩ := List.mem_map.1 hx
  obtain ⟨pieces, hpieces⟩ := h.segments segment hsegment
  simp only [hpieces.bytes] at hinit
  obtain ⟨z, hz, rfl⟩ := drainLoop_subset (fun x hx => (hpieces.whole x hx).1) hinit _ s hs
  exact (hpieces.whole z hz).2

/-- Its own directory does. -/
theorem LogOf.dir (h : LogOf P log) : DirOf P log.dir :=
  h.beginnings fun y hy => ⟨y, hy, List.prefix_rfl⟩

/-- So does what a crash leaves of it. -/
theorem LogOf.outage (h : LogOf P log) {dir : Dir} (houtage : Outage log.dir dir) :
    DirOf P dir := by
  obtain ⟨hlogs, _, hkeep, _⟩ := houtage
  refine h.beginnings fun y hy => ?_
  obtain ⟨x, hx, hxy⟩ := forall₂_right_mem hkeep (hlogs.subset hy)
  exact ⟨x, hx, hxy.2.bytes⟩

end Logs

end SevlaMq.Storage
