import SevlaMq.Lib.Bytes
import SevlaMq.Lib.Framing

/-!
# The stored record format

Model of `encode_record`, `decode_record`, `read_bytes`, `validate_topic` and
`validate_producer_id` of `crates/storage/src/lib.rs`.

A stored record is `len:u32 crc:u32 body`, and the current body is

`version:u8 offset:u64 timestamp:u64 producer_len:i32 sequence:u64 key_len:i32 value_len:u32
producer key value`

with length `-1` for an absent producer or key.  Version 1 bodies have no producer fields.
`crc32fast::hash` is the parameter `Checksum.hash`; nothing is assumed about it.  `Checksum.crc32`
is the instance for concrete inputs.

Principal results: `encodeRecord_isFrame` — an encoding decodes to its record whatever follows
it, and every proper prefix of it is reported as incomplete; `encodeRecord_length`.
-/

set_option autoImplicit false

namespace SevlaMq.Storage

/-- `crc32fast::hash`, an external function. -/
class Checksum where
  hash : Bytes → UInt32

/-- One byte of the reflected CRC-32 with polynomial `0xEDB88320`. -/
def crc32Byte (crc : UInt32) (byte : UInt8) : UInt32 :=
  (List.range 8).foldl (fun c _ => if c &&& 1 = 1 then (c >>> 1) ^^^ 0xEDB88320 else c >>> 1)
    (crc ^^^ byte.toUInt32)

/-- CRC-32 as `crc32fast` documents it. -/
def crc32 (bytes : Bytes) : UInt32 := bytes.foldl crc32Byte 0xFFFFFFFF ^^^ 0xFFFFFFFF

/-- The checksum of the deployed program; the results hold for any other as well. -/
abbrev Checksum.crc32 : Checksum := ⟨Storage.crc32⟩

/-- `StorageError`.  `outOfBounds` is not a value of the source's enum: it stands for a buffer
read past the end, which panics there. -/
inductive StorageError where
  | io
  | invalidRecord
  | recordTooLarge
  | checksumMismatch
  | unsupportedVersion (version : Nat)
  | invalidTopic
  | topicAlreadyExists
  | unknownTopic
  | invalidProducerId
  | unexpectedProducerSequence (producerId : String) (expected actual : UInt64)
  | offsetOverflow
  | unexpectedOffset (expected actual : Nat)
  | replicaDiverged (offset : Nat)
  | invalidSegmentLimit
  | invalidIndexInterval
  | missingActiveSegment
  | invalidPartitionName
  | unexpectedSegmentBase (expected actual : Nat)
  | incompleteClosedSegment (base : Nat)
  | invalidReadLimit
  | unknownPartition (partition : Nat)
  | outOfBounds
  deriving DecidableEq, Repr

structure ProducerIdentity where
  id : String
  sequence : UInt64
  deriving DecidableEq, Repr

structure Record where
  key : Option Bytes
  value : Bytes
  timestampMs : UInt64
  producer : Option ProducerIdentity
  deriving DecidableEq, Repr

/-- `Record::new`. -/
def Record.new (key : Option Bytes) (value : Bytes) (timestampMs : UInt64) : Record :=
  ⟨key, value, timestampMs, none⟩

structure StoredRecord where
  offset : Nat
  timestampMs : UInt64
  key : Option Bytes
  value : Bytes
  producer : Option ProducerIdentity
  deriving DecidableEq, Repr

/-- The stored form of `r` at `offset`. -/
def Record.at (r : Record) (offset : Nat) : StoredRecord :=
  ⟨offset, r.timestampMs, r.key, r.value, r.producer⟩

/-- The record `truncate_to` rebuilds from a stored one. -/
def StoredRecord.toRecord (s : StoredRecord) : Record :=
  ⟨s.key, s.value, s.timestampMs, s.producer⟩

@[simp] theorem Record.toRecord_at (r : Record) (offset : Nat) : (r.at offset).toRecord = r := rfl

@[simp] theorem Record.at_offset (r : Record) (offset : Nat) : (r.at offset).offset = offset := rfl

/-! ## Constants -/

def MAX_RECORD_SIZE : Nat := 16 * 1024 * 1024
def RECORD_VERSION_V1 : Nat := 1
def RECORD_VERSION : Nat := 2
def LENGTH_SIZE : Nat := 4
def CRC_SIZE : Nat := 4
def BODY_FIXED_SIZE : Nat := 1 + 8 * 3 + 4 * 2 + 4
def V1_BODY_FIXED_SIZE : Nat := 1 + 8 * 2 + 4 + 4
def MIN_RECORD_SIZE : Nat := CRC_SIZE + V1_BODY_FIXED_SIZE

/-! ## Name validation -/

/-- `byte.is_ascii_alphanumeric() || matches!(byte, b'.' | b'_' | b'-')`. -/
def isNameByte (b : UInt8) : Bool :=
  (48 ≤ b && b ≤ 57) || (65 ≤ b && b ≤ 90) || (97 ≤ b && b ≤ 122) || b == 46 || b == 95 || b == 45

/-- The UTF-8 bytes of a string (`str::as_bytes`). -/
def utf8 (s : String) : Bytes := s.toUTF8.data.toList

/-- `String::from_utf8`. -/
def fromUtf8 (bs : Bytes) : Option String := String.fromUTF8? ⟨bs.toArray⟩

theorem fromUtf8_utf8 (s : String) : fromUtf8 (utf8 s) = some s := by
  have hba : (⟨(utf8 s).toArray⟩ : ByteArray) = s.toUTF8 := by simp [utf8]
  rw [fromUtf8, hba]
  simp only [String.fromUTF8?, String.toUTF8_eq_toByteArray, dif_pos s.isValidUTF8]
  rfl

def validateTopic (topic : String) : Except StorageError Unit :=
  if utf8 topic = [] ∨ utf8 "__" <+: utf8 topic ∨ (utf8 topic).all isNameByte = false then
    .error .invalidTopic
  else .ok ()

theorem utf8_eq_flatMap (s : String) : utf8 s = s.toList.flatMap String.utf8EncodeChar := by
  rw [utf8, String.toUTF8_eq_toByteArray, ← String.utf8Encode_toList, List.utf8Encode]
  simp

/-- An accepted name has no other ASCII characters. -/
theorem not_mem_of_validateTopic {topic : String} {c : Char} (h : validateTopic topic = .ok ())
    (hsize : c.utf8Size = 1) (hc : isNameByte c.val.toUInt8 = false) : c ∉ topic.toList := by
  intro hmem
  have hbyte : c.val.toUInt8 ∈ utf8 topic := by
    rw [utf8_eq_flatMap, List.mem_flatMap]
    refine ⟨c, hmem, ?_⟩
    rw [String.utf8EncodeChar_eq_singleton hsize]
    exact List.mem_singleton_self _
  unfold validateTopic at h
  split at h
  · cases h
  · rename_i hno
    have hall : (utf8 topic).all isNameByte = true := by
      simpa using (not_or.1 (not_or.1 hno).2).2
    have hname := List.all_eq_true.1 hall _ hbyte
    rw [hc] at hname
    cases hname

def validateProducerId (id : String) : Except StorageError Unit :=
  if utf8 id = [] ∨ 249 < (utf8 id).length ∨ (utf8 id).all isNameByte = false then
    .error .invalidProducerId
  else .ok ()

/-! ## Encoding -/

def keyLen (r : Record) : Nat := (r.key.map List.length).getD 0
def producerLen (r : Record) : Nat := (r.producer.map fun p => (utf8 p.id).length).getD 0

/-- The byte length of an encoded record, length prefix included. -/
def encodedSize (r : Record) : Nat :=
  LENGTH_SIZE + (CRC_SIZE + (BODY_FIXED_SIZE + producerLen r + keyLen r + r.value.length))

/-- `producer_len:i32 sequence:u64`, with length `-1` and sequence `0` for no producer. -/
def producerHeader : Option ProducerIdentity → Bytes
  | some p => toBE 4 (ofI32 (utf8 p.id).length) ++ toBE 8 p.sequence.toNat
  | none => toBE 4 (ofI32 (-1)) ++ toBE 8 0

/-- The `key_len` field, `-1` for no key. -/
def keyField : Option Bytes → Nat
  | some key => ofI32 key.length
  | none => ofI32 (-1)

/-- The body of a record in the current version. -/
def encodeBody (r : Record) (offset : Nat) : Bytes :=
  toBE 1 RECORD_VERSION ++ (toBE 8 offset ++ (toBE 8 r.timestampMs.toNat ++
    (producerHeader r.producer ++ (toBE 4 (keyField r.key) ++ (toBE 4 r.value.length ++
      ((r.producer.map fun p => utf8 p.id).getD [] ++ (r.key.getD [] ++ r.value)))))))

/-- The producer id is validated again while the body is written. -/
def validateProducer (r : Record) : Except StorageError Unit :=
  match r.producer with
  | some p => validateProducerId p.id
  | none => .ok ()

/-- The checks of `encode_record`.  The `i32`/`u32` conversions of the lengths cannot fail
after the size check, which bounds all of them by `MAX_RECORD_SIZE`. -/
def checkRecord (r : Record) : Except StorageError Unit :=
  if CRC_SIZE + (BODY_FIXED_SIZE + producerLen r + keyLen r + r.value.length) > MAX_RECORD_SIZE then
    .error .recordTooLarge
  else validateProducer r

/-- The bytes of a record within the limits: length, checksum, body. -/
def recordBytes [Checksum] (r : Record) (offset : Nat) : Bytes :=
  let recordLen := CRC_SIZE + (BODY_FIXED_SIZE + producerLen r + keyLen r + r.value.length)
  let body := encodeBody r offset
  toBE 4 recordLen ++ (toBE 4 (Checksum.hash body).toNat ++ body)

/-- `encode_record`. -/
def encodeRecord [Checksum] (r : Record) (offset : Nat) : Except StorageError Bytes :=
  match checkRecord r with
  | .error e => .error e
  | .ok () => .ok (recordBytes r offset)

/-! ## Decoding -/

/-- A cursor read that panics past the end of the buffer. -/
def getOrPanic {α : Type} (x : Option α) : Except StorageError α :=
  match x with
  | some a => .ok a
  | none => .error .outOfBounds

/-- `read_bytes`. -/
def readBytes (buffer : Bytes) (len : Nat) : Except StorageError (Bytes × Bytes) :=
  match getBytes len buffer with
  | some p => .ok p
  | none => .error .invalidRecord

/-- The producer fields of a version 2 body: `(length, sequence)` if there is a producer. -/
def decodeProducerHeader (version : Nat) (encoded : Bytes) :
    Except StorageError (Option (Nat × UInt64) × Bytes) :=
  if version = RECORD_VERSION then
    if encoded.length < 4 + 8 then .error .invalidRecord else do
    let (producerLen, encoded) ← getOrPanic (getBE 4 encoded)
    let (sequence, encoded) ← getOrPanic (getBE 8 encoded)
    if toI32 producerLen = -1 then .ok (none, encoded)
    else if 0 ≤ toI32 producerLen then
      .ok (some ((toI32 producerLen).toNat, UInt64.ofNat sequence), encoded)
    else .error .invalidRecord
  else .ok (none, encoded)

/-- The variable part of a body: producer id, key and value, with nothing left over. -/
def decodeFields (producer : Option (Nat × UInt64)) (keyLen valueLen : Nat) (encoded : Bytes) :
    Except StorageError (Option ProducerIdentity × Option Bytes × Bytes) := do
  let (producer, encoded) ← match producer with
    | some (len, sequence) => do
      let (id, encoded) ← readBytes encoded len
      match fromUtf8 id with
      | some id => Except.ok (some (ProducerIdentity.mk id sequence), encoded)
      | none => Except.error StorageError.invalidProducerId
    | none => Except.ok (none, encoded)
  let (key, encoded) ←
    if toI32 keyLen = -1 then Except.ok (none, encoded)
    else if 0 ≤ toI32 keyLen then do
      let (key, encoded) ← readBytes encoded (toI32 keyLen).toNat
      Except.ok (some key, encoded)
    else Except.error StorageError.invalidRecord
  let (value, encoded) ← readBytes encoded valueLen
  if encoded ≠ [] then .error .invalidRecord
  else .ok (producer, key, value)

/-- The part of `decode_record` after the record has been split off the buffer. -/
def decodeBody [Checksum] (encoded : Bytes) : Except StorageError StoredRecord := do
  let (expectedCrc, encoded) ← getOrPanic (getBE 4 encoded)
  if (Checksum.hash encoded).toNat ≠ expectedCrc then .error .checksumMismatch else do
  let (version, encoded) ← getOrPanic (getBE 1 encoded)
  if version ≠ RECORD_VERSION_V1 ∧ version ≠ RECORD_VERSION then
    .error (.unsupportedVersion version) else do
  let (offset, encoded) ← getOrPanic (getBE 8 encoded)
  let (timestampMs, encoded) ← getOrPanic (getBE 8 encoded)
  let (producer, encoded) ← decodeProducerHeader version encoded
  if encoded.length < 4 + 4 then .error .invalidRecord else do
  let (keyLen, encoded) ← getOrPanic (getBE 4 encoded)
  let (valueLen, encoded) ← getOrPanic (getBE 4 encoded)
  let (producer, key, value) ← decodeFields producer keyLen valueLen encoded
  .ok ⟨offset, UInt64.ofNat timestampMs, key, value, producer⟩

/-- `decode_record`. -/
def decodeRecord [Checksum] (buffer : Bytes) : Except StorageError (Option (StoredRecord × Bytes)) :=
  if buffer.length < LENGTH_SIZE then .ok none else
  let recordLen := ofBE (buffer.take LENGTH_SIZE)
  if recordLen < MIN_RECORD_SIZE then .error .invalidRecord else
  if recordLen > MAX_RECORD_SIZE then .error .recordTooLarge else
  if buffer.length < LENGTH_SIZE + recordLen then .ok none else do
  let (encoded, rest) ← getOrPanic (getBytes recordLen (buffer.drop LENGTH_SIZE))
  let record ← decodeBody encoded
  .ok (some (record, rest))

/-! ## Round trip -/

theorem encodeBody_length (r : Record) (offset : Nat) :
    (encodeBody r offset).length = BODY_FIXED_SIZE + producerLen r + keyLen r + r.value.length := by
  unfold encodeBody producerLen keyLen BODY_FIXED_SIZE producerHeader
  cases r.producer <;> cases r.key <;> simp <;> omega

theorem getOrPanic_getBE {w v : Nat} (h : v < 256 ^ w) (rest : Bytes) :
    getOrPanic (getBE w (toBE w v ++ rest)) = .ok (v, rest) := by
  rw [getBE_append h]; rfl

theorem readBytes_append (bs rest : Bytes) : readBytes (bs ++ rest) bs.length = .ok (bs, rest) := by
  rw [readBytes, getBytes_append]

theorem decodeProducerHeader_encode (p : Option ProducerIdentity) (rest : Bytes)
    (hp : ∀ q, p = some q → (utf8 q.id).length < 2 ^ 31) :
    decodeProducerHeader RECORD_VERSION (producerHeader p ++ rest) =
      .ok (p.map fun q => ((utf8 q.id).length, q.sequence), rest) := by
  unfold producerHeader
  cases p with
  | none =>
    unfold decodeProducerHeader
    rw [if_pos rfl, if_neg (by simp; omega)]
    simp only [List.append_assoc]
    rw [getOrPanic_getBE (ofI32_lt _)]
    simp only [bind, Except.bind]
    rw [getOrPanic_getBE (by norm_num)]
    simp only [toI32_ofI32_neg_one, if_true, Option.map_none]
  | some q =>
    have hseq : q.sequence.toNat < 256 ^ 8 := by
      have := q.sequence.toNat_lt; norm_num at *; omega
    have hI := toI32_ofI32_nat (hp q rfl)
    unfold decodeProducerHeader
    rw [if_pos rfl, if_neg (by simp; omega)]
    simp only [List.append_assoc]
    rw [getOrPanic_getBE (ofI32_lt _)]
    simp only [bind, Except.bind]
    rw [getOrPanic_getBE hseq]
    simp only [hI]
    rw [if_neg (by omega), if_pos (by omega)]
    simp

theorem decodeFields_encode (r : Record) (hk : ∀ k, r.key = some k → k.length < 2 ^ 31) :
    decodeFields (r.producer.map fun q => ((utf8 q.id).length, q.sequence)) (keyField r.key)
      r.value.length ((r.producer.map fun p => utf8 p.id).getD [] ++ (r.key.getD [] ++ r.value)) =
      .ok (r.producer, r.key, r.value) := by
  have hv : readBytes r.value r.value.length = .ok (r.value, []) := by
    simpa using readBytes_append r.value []
  have hkey : ∀ k, r.key = some k → toI32 (ofI32 k.length) = k.length :=
    fun k h => toI32_ofI32_nat (hk k h)
  unfold decodeFields keyField
  cases hp : r.producer <;> cases hke : r.key
  · simp [bind, Except.bind, toI32_ofI32_neg_one, hv]
  · rename_i k
    simp [bind, Except.bind, hkey k hke, readBytes_append, hv]
  · simp [bind, Except.bind, toI32_ofI32_neg_one, readBytes_append, hv, fromUtf8_utf8]
  · rename_i k
    simp [bind, Except.bind, hkey k hke, readBytes_append, hv, fromUtf8_utf8]

theorem checkRecord_ok {r : Record} (h : checkRecord r = .ok ()) :
    CRC_SIZE + (BODY_FIXED_SIZE + producerLen r + keyLen r + r.value.length) ≤ MAX_RECORD_SIZE ∧
    validateProducer r = .ok () := by
  unfold checkRecord at h
  split at h
  · cases h
  · exact ⟨by omega, h⟩

section RoundTrip

variable [Checksum]

/-- What a successful encoding says about the record and the bytes. -/
theorem encodeRecord_ok {r : Record} {offset : Nat} {bs : Bytes}
    (h : encodeRecord r offset = .ok bs) :
    checkRecord r = .ok () ∧
    bs = toBE 4 (CRC_SIZE + (BODY_FIXED_SIZE + producerLen r + keyLen r + r.value.length)) ++
      (toBE 4 (Checksum.hash (encodeBody r offset)).toNat ++ encodeBody r offset) := by
  unfold encodeRecord at h
  split at h
  · cases h
  · rename_i hc
    cases h
    exact ⟨hc, rfl⟩

theorem encodeRecord_length {r : Record} {offset : Nat} {bs : Bytes}
    (h : encodeRecord r offset = .ok bs) : bs.length = encodedSize r := by
  obtain ⟨_, rfl⟩ := encodeRecord_ok h
  simp [encodeBody_length, encodedSize, LENGTH_SIZE, CRC_SIZE]

/-- Decoding the checksum and body of an encoded record. -/
theorem decodeBody_encode {r : Record} {offset : Nat} (ho : offset < 2 ^ 64)
    (hsz : BODY_FIXED_SIZE + producerLen r + keyLen r + r.value.length ≤ MAX_RECORD_SIZE) :
    decodeBody (toBE 4 (Checksum.hash (encodeBody r offset)).toNat ++ encodeBody r offset) =
      .ok (r.at offset) := by
  have hcrc : (Checksum.hash (encodeBody r offset)).toNat < 256 ^ 4 := by
    have := (Checksum.hash (encodeBody r offset)).toNat_lt; norm_num at *; omega
  have hts : r.timestampMs.toNat < 256 ^ 8 := by
    have := r.timestampMs.toNat_lt; norm_num at *; omega
  have ho' : offset < 256 ^ 8 := by norm_num at *; omega
  have hp : ∀ q, r.producer = some q → (utf8 q.id).length < 2 ^ 31 := by
    intro q hq
    simp only [producerLen, hq, MAX_RECORD_SIZE, Option.map_some, Option.getD_some] at hsz
    omega
  have hk : ∀ k, r.key = some k → k.length < 2 ^ 31 := by
    intro k hq
    simp only [keyLen, hq, MAX_RECORD_SIZE, Option.map_some, Option.getD_some] at hsz
    omega
  have hv : r.value.length < 256 ^ 4 := by
    simp only [MAX_RECORD_SIZE] at hsz; norm_num; omega
  unfold decodeBody
  rw [getOrPanic_getBE hcrc]
  simp only [bind, Except.bind]
  rw [if_neg (by simp)]
  -- the body, field by field
  have hbody : encodeBody r offset = toBE 1 RECORD_VERSION ++ (toBE 8 offset ++
      (toBE 8 r.timestampMs.toNat ++ _)) := rfl
  rw [hbody, getOrPanic_getBE (by decide)]
  simp only
  rw [if_neg (by decide), getOrPanic_getBE ho']
  simp only
  rw [getOrPanic_getBE hts]
  simp only
  rw [decodeProducerHeader_encode r.producer _ hp]
  simp only
  have hkey : keyField r.key < 256 ^ 4 := by cases r.key <;> exact ofI32_lt _
  rw [if_neg (by simp only [List.length_append, toBE_length]; omega), getOrPanic_getBE hkey]
  simp only
  rw [getOrPanic_getBE hv]
  simp only
  rw [decodeFields_encode r hk]
  simp [Record.at]

/-- **An encoded record is a self-delimiting frame of its stored form.** -/
theorem encodeRecord_isFrame {r : Record} {offset : Nat} {bs : Bytes} (ho : offset < 2 ^ 64)
    (h : encodeRecord r offset = .ok bs) : IsFrame decodeRecord (r.at offset) bs := by
  obtain ⟨hc, hbs⟩ := encodeRecord_ok h
  have hsz := (checkRecord_ok hc).1
  have hlen := encodeRecord_length h
  generalize hL : CRC_SIZE + (BODY_FIXED_SIZE + producerLen r + keyLen r + r.value.length) = len
    at hsz hbs
  have hlen' : bs.length = LENGTH_SIZE + len := by rw [hlen, encodedSize, hL]
  have hmin : MIN_RECORD_SIZE ≤ len := by
    simp only [MIN_RECORD_SIZE, V1_BODY_FIXED_SIZE, CRC_SIZE, BODY_FIXED_SIZE] at *; omega
  have hmax : len < 256 ^ 4 := by simp only [MAX_RECORD_SIZE] at hsz; norm_num; omega
  have hbody : (toBE 4 (Checksum.hash (encodeBody r offset)).toNat ++ encodeBody r offset).length =
      len := by
    rw [hbs] at hlen'; simpa [LENGTH_SIZE] using hlen'
  -- the length prefix, read from any buffer that starts with it
  have hpre : ∀ buf : Bytes, buf <+: bs → LENGTH_SIZE ≤ buf.length →
      ofBE (buf.take LENGTH_SIZE) = len := by
    intro buf hb hl
    have htake : buf.take LENGTH_SIZE = bs.take LENGTH_SIZE := by
      obtain ⟨u, rfl⟩ := hb
      rw [List.take_append_of_le_length hl]
    rw [htake, hbs, show LENGTH_SIZE = 4 from rfl, List.take_left' (toBE_length 4 len),
      ofBE_toBE hmax]
  refine ⟨fun rest => ?_, fun t ht hne => ?_, ?_⟩
  · have htake : (bs ++ rest).take LENGTH_SIZE = bs.take LENGTH_SIZE :=
      List.take_append_of_le_length (by omega)
    have hdrop : (bs ++ rest).drop LENGTH_SIZE =
        (toBE 4 (Checksum.hash (encodeBody r offset)).toNat ++ encodeBody r offset) ++ rest := by
      rw [hbs, List.append_assoc, show LENGTH_SIZE = 4 from rfl, List.drop_left' (toBE_length 4 len)]
    unfold decodeRecord
    rw [if_neg (by simp; omega), htake, hpre bs List.prefix_rfl (by omega)]
    simp only
    rw [if_neg (by omega), if_neg (by omega), if_neg (by simp; omega), hdrop, ← hbody,
      getBytes_append]
    simp only [getOrPanic, bind, Except.bind]
    rw [decodeBody_encode ho (by simp only [CRC_SIZE] at hL; omega)]
  · have htl : t.length < bs.length := by
      rcases Nat.lt_or_ge t.length bs.length with h | h
      · exact h
      · exact absurd (ht.eq_of_length_le h) hne
    unfold decodeRecord
    by_cases h4 : t.length < LENGTH_SIZE
    · rw [if_pos h4]
    · rw [if_neg h4, hpre t ht (by omega)]
      simp only
      rw [if_neg (by omega), if_neg (by omega), if_pos (by omega)]
  · intro hnil
    rw [hnil, List.length_nil, LENGTH_SIZE] at hlen'
    omega

end RoundTrip

end SevlaMq.Storage
