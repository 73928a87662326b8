import SevlaMq.Storage.Record

/-!
# Frames of the wire protocol

Model of the helpers of `crates/protocol/src/lib.rs` that every message goes through: `take_frame`,
`set_frame_len`, `encode_string`, `decode_string`, `read_bytes`, the length reads and the size
checks.

* An `Encoder` appends to a buffer; after an error the buffer keeps what was already written.  For
  each helper an `_eq_ok` lemma says when it succeeds and what it appends; `framed_eq_ok` does so for
  a whole frame.
* A `Parser` reads a frame from the front; for each helper a `_bind` lemma says what it reads.
* `decodeFrame_append` — a frame within the limits is decoded whatever follows it.
-/

set_option autoImplicit false

namespace SevlaMq.Protocol

open SevlaMq.Storage (utf8 fromUtf8 fromUtf8_utf8)

/-- `outOfBounds` is not a value of the source's enum: it stands for a buffer read past the end,
which panics there. -/
inductive ProtocolError where
  | invalidFrame
  | frameTooLarge
  | unknownOpcode (opcode : Nat)
  | invalidTopic
  | topicTooLarge
  | keyTooLarge
  | messageTooLarge
  | fetchTooLarge
  | fetchWaitTooLong
  | invalidAckMode (code : Nat)
  | invalidProducerId
  | invalidBatchCount
  | batchTooLarge
  | invalidCompression (code : Nat)
  | invalidCompressedBatch
  | invalidPartitionCount
  | invalidClusterMetadata
  | outOfBounds
  deriving DecidableEq, Repr

def MAX_TOPIC_NAME : Nat := 249
def MAX_KEY_SIZE : Nat := 65535
def MAX_MESSAGE_SIZE : Nat := 1024 * 1024
def MAX_FRAME_SIZE : Nat := 4 * 1024 * 1024
def FRAME_HEADER_SIZE : Nat := 4

def validateSize (actual maximum : Nat) (error : ProtocolError) : Except ProtocolError Unit :=
  if actual > maximum then .error error else .ok ()

def validateTopic (topic : String) : Except ProtocolError Unit :=
  match validateSize (utf8 topic).length MAX_TOPIC_NAME .topicTooLarge with
  | .error e => .error e
  | .ok () =>
    if utf8 topic = [] ∨ utf8 "__" <+: utf8 topic then .error .invalidTopic else .ok ()

@[simp] theorem ite_error_eq_ok {p : Prop} [Decidable p] {error : ProtocolError} :
    ((if p then .error error else .ok () : Except ProtocolError Unit) = .ok ()) ↔ ¬ p := by
  split
  · simp_all
  · simp_all

@[simp] theorem validateSize_eq_ok {actual maximum : Nat} {error : ProtocolError} :
    validateSize actual maximum error = .ok () ↔ actual ≤ maximum := by
  rw [validateSize, ite_error_eq_ok, Nat.not_lt]

theorem validateTopic_length {topic : String} (h : validateTopic topic = .ok ()) :
    (utf8 topic).length ≤ MAX_TOPIC_NAME := by
  unfold validateTopic at h
  split at h
  · cases h
  · rename_i hs
    exact validateSize_eq_ok.1 hs

/-! ## Encoders -/

/-- What writing to the buffer returns, and the buffer afterwards. -/
abbrev Encoder := Bytes → Except ProtocolError Unit × Bytes

/-- `put_*` and `extend_from_slice`. -/
def put (bs : Bytes) : Encoder := fun buffer => (.ok (), buffer ++ bs)

/-- A check with `?`. -/
def require (check : Except ProtocolError Unit) : Encoder := fun buffer => (check, buffer)

/-- Statements one after the other, up to the first error. -/
def inOrder : List Encoder → Encoder
  | [], buffer => (.ok (), buffer)
  | e :: es, buffer =>
    match e buffer with
    | (.error error, buffer) => (.error error, buffer)
    | (.ok (), buffer) => inOrder es buffer

/-- A length of `w` bytes, converted with `try_from`. -/
def putLen (w len : Nat) (error : ProtocolError) : Encoder :=
  inOrder [require (if 256 ^ w ≤ len then .error error else .ok ()), put (toBE w len)]

def encodeString (value : String) : Encoder :=
  inOrder [putLen 2 (utf8 value).length .invalidFrame, put (utf8 value)]

/-- `set_frame_len`: write the length over the four bytes at `start`. -/
def setFrameLen (start : Nat) : Encoder := fun buffer =>
  let len := buffer.length - start - FRAME_HEADER_SIZE
  if 2 ^ 32 ≤ len then (.error .frameTooLarge, buffer)
  else (.ok (), buffer.take start ++ toBE 4 len ++ buffer.drop (start + FRAME_HEADER_SIZE))

/-- A frame: room for the length, the fields, the length. -/
def framed (fields : List Encoder) : Encoder := fun buffer =>
  inOrder [put (toBE 4 0), inOrder fields, setFrameLen buffer.length] buffer

@[simp] theorem put_eq_ok {bs buffer buffer' : Bytes} :
    put bs buffer = (.ok (), buffer') ↔ buffer' = buffer ++ bs := by
  simp [put, eq_comm]

@[simp] theorem require_eq_ok {check : Except ProtocolError Unit} {buffer buffer' : Bytes} :
    require check buffer = (.ok (), buffer') ↔ check = .ok () ∧ buffer' = buffer := by
  simp [require, eq_comm]

@[simp] theorem inOrder_nil_eq_ok {buffer buffer' : Bytes} :
    inOrder [] buffer = (.ok (), buffer') ↔ buffer' = buffer := by
  simp [inOrder, eq_comm]

@[simp] theorem inOrder_cons_eq_ok {e : Encoder} {es : List Encoder} {buffer buffer' : Bytes} :
    inOrder (e :: es) buffer = (.ok (), buffer') ↔
      ∃ middle, e buffer = (.ok (), middle) ∧ inOrder es middle = (.ok (), buffer') := by
  rw [inOrder]
  constructor
  · intro h
    split at h
    · cases h
    · rename_i middle he
      exact ⟨middle, he, h⟩
  · rintro ⟨middle, he, h⟩
    rw [he]
    exact h

@[simp] theorem putLen_eq_ok {w len : Nat} {error : ProtocolError} {buffer buffer' : Bytes} :
    putLen w len error buffer = (.ok (), buffer') ↔
      len < 256 ^ w ∧ buffer' = buffer ++ toBE w len := by
  simp [putLen]

/-- The bytes of a string: its length and its UTF-8 form. -/
def stringBytes (value : String) : Bytes := toBE 2 (utf8 value).length ++ utf8 value

@[simp] theorem encodeString_eq_ok {value : String} {buffer buffer' : Bytes} :
    encodeString value buffer = (.ok (), buffer') ↔
      (utf8 value).length < 256 ^ 2 ∧ buffer' = buffer ++ stringBytes value := by
  simp [encodeString, stringBytes]

/-- Encoders of the elements of a list, one after the other. -/
theorem inOrder_map_eq_ok {α : Type} {encode : α → Encoder} {Fits : α → Prop} {bytes : α → Bytes}
    (h : ∀ a buffer buffer', encode a buffer = (.ok (), buffer') ↔
      Fits a ∧ buffer' = buffer ++ bytes a) (as : List α) {buffer buffer' : Bytes} :
    inOrder (as.map encode) buffer = (.ok (), buffer') ↔
      (∀ a ∈ as, Fits a) ∧ buffer' = buffer ++ as.flatMap bytes := by
  induction as generalizing buffer with
  | nil => simp
  | cons a as ih =>
    rw [List.map_cons, inOrder_cons_eq_ok]
    constructor
    · rintro ⟨middle, ha, has⟩
      obtain ⟨hfits, rfl⟩ := (h a _ _).1 ha
      obtain ⟨hall, rfl⟩ := ih.1 has
      exact ⟨by simpa using ⟨hfits, hall⟩, by simp⟩
    · rintro ⟨hall, rfl⟩
      refine ⟨buffer ++ bytes a, (h a _ _).2 ⟨hall a List.mem_cons_self, rfl⟩, ih.2 ⟨?_, by simp⟩⟩
      exact fun x hx => hall x (List.mem_cons_of_mem _ hx)

theorem encodeStrings_eq_ok (values : List String) {buffer buffer' : Bytes} :
    inOrder (values.map encodeString) buffer = (.ok (), buffer') ↔
      (∀ v ∈ values, (utf8 v).length < 256 ^ 2) ∧ buffer' = buffer ++ values.flatMap stringBytes :=
  @inOrder_map_eq_ok String encodeString (fun v => (utf8 v).length < 256 ^ 2) stringBytes
    (fun _ _ _ => encodeString_eq_ok) values buffer buffer'

/-- The bytes of a frame. -/
def frameBytes (body : Bytes) : Bytes := toBE 4 body.length ++ body

/-- The length is written over whatever stood there. -/
@[simp] theorem setFrameLen_eq_ok {buffer body buffer' : Bytes} {len : Nat} :
    setFrameLen buffer.length (buffer ++ (toBE 4 len ++ body)) = (.ok (), buffer') ↔
      body.length < 2 ^ 32 ∧ buffer' = buffer ++ frameBytes body := by
  have hlen : (buffer ++ (toBE 4 len ++ body)).length - buffer.length - FRAME_HEADER_SIZE =
      body.length := by
    simp only [List.length_append, toBE_length, FRAME_HEADER_SIZE]
    omega
  have hdrop : (buffer ++ (toBE 4 len ++ body)).drop (buffer.length + FRAME_HEADER_SIZE) = body := by
    rw [← List.append_assoc]
    apply List.drop_left'
    simp [FRAME_HEADER_SIZE]
  simp only [setFrameLen, hlen, hdrop, List.take_left]
  split
  · simp
    omega
  · simp only [frameBytes, Prod.mk.injEq, true_and, eq_comm, List.append_assoc]
    constructor
    · intro h
      exact ⟨by omega, h⟩
    · exact And.right

/-- **A frame** is its length and the bytes of its fields. -/
theorem framed_eq_ok {fields : List Encoder} {Fits : Prop} {body : Bytes}
    (h : ∀ buffer buffer', inOrder fields buffer = (.ok (), buffer') ↔
      Fits ∧ buffer' = buffer ++ body) {buffer buffer' : Bytes} :
    framed fields buffer = (.ok (), buffer') ↔
      (Fits ∧ body.length < 2 ^ 32) ∧ buffer' = buffer ++ frameBytes body := by
  simp only [framed, inOrder_cons_eq_ok, put_eq_ok, h, inOrder_nil_eq_ok]
  constructor
  · rintro ⟨_, rfl, _, ⟨hfits, rfl⟩, _, hset, rfl⟩
    rw [List.append_assoc, setFrameLen_eq_ok] at hset
    exact ⟨⟨hfits, hset.1⟩, hset.2⟩
  · rintro ⟨⟨hfits, hlen⟩, rfl⟩
    refine ⟨_, rfl, _, ⟨hfits, rfl⟩, _, ?_, rfl⟩
    rw [List.append_assoc, setFrameLen_eq_ok]
    exact ⟨hlen, rfl⟩

/-! ## Parsers -/

/-- Reading a frame from the front. -/
abbrev Parser (α : Type) := StateT Bytes (Except ProtocolError) α

theorem Parser.bind_ok {α β : Type} {p : Parser α} {frame rest : Bytes} {a : α}
    (h : p frame = .ok (a, rest)) (f : α → Parser β) : (p >>= f) frame = f a rest := by
  show (StateT.bind p f) frame = _
  unfold StateT.bind
  rw [h]
  rfl

/-- `get_u8`, `get_u16` and so on, which panic past the end of the frame. -/
def getInt (w : Nat) : Parser Nat := fun frame =>
  match getBE w frame with
  | some x => .ok x
  | none => .error .outOfBounds

def ensureRemaining (required : Nat) : Parser Unit := fun frame =>
  if frame.length < required then .error .invalidFrame else .ok ((), frame)

def ensureEmpty : Parser Unit := fun frame =>
  if frame ≠ [] then .error .invalidFrame else .ok ((), frame)

/-- A check with `?`. -/
def ensure (check : Except ProtocolError Unit) : Parser Unit := fun frame =>
  match check with
  | .error e => .error e
  | .ok () => .ok ((), frame)

/-- A value that may be missing, with `?`. -/
def attempt {α : Type} (value : Except ProtocolError α) : Parser α := fun frame =>
  match value with
  | .error e => .error e
  | .ok a => .ok (a, frame)

/-- `String::from_utf8`. -/
def decodeUtf8 (bytes : Bytes) (error : ProtocolError) : Except ProtocolError String :=
  match fromUtf8 bytes with
  | some value => .ok value
  | none => .error error

/-- `read_u16_len` and `read_u32_len`. -/
def readLen (w : Nat) : Parser Nat := do
  ensureRemaining w
  getInt w

def readBytes (len : Nat) : Parser Bytes := fun frame =>
  if frame.length < len then .error .invalidFrame else .ok (frame.take len, frame.drop len)

def decodeString : Parser String := do
  let len ← readLen 2
  let bytes ← readBytes len
  match fromUtf8 bytes with
  | some value => pure value
  | none => throw .invalidFrame

/-- The same parser `n` times. -/
def readMany {α : Type} (p : Parser α) : Nat → Parser (List α)
  | 0 => pure []
  | n + 1 => do
    let a ← p
    let as ← readMany p n
    pure (a :: as)

section Reads

variable {α β : Type}

@[simp] theorem Parser.pure_apply (a : α) (frame : Bytes) :
    (pure a : Parser α) frame = .ok (a, frame) := rfl

@[simp] theorem Parser.map_apply {p : Parser α} {frame rest : Bytes} {a : α} (f : α → β)
    (h : p frame = .ok (a, rest)) : (f <$> p) frame = .ok (f a, rest) := by
  show (StateT.map f p) frame = _
  unfold StateT.map
  rw [h]
  rfl

theorem getInt_append {w v : Nat} (h : v < 256 ^ w) (rest : Bytes) :
    getInt w (toBE w v ++ rest) = .ok (v, rest) := by
  simp only [getInt, getBE_append h]

theorem getInt_bind {w v : Nat} (h : v < 256 ^ w) (f : Nat → Parser β) (rest : Bytes) :
    (getInt w >>= f) (toBE w v ++ rest) = f v rest :=
  Parser.bind_ok (getInt_append h rest) f

theorem getInt_map {w v : Nat} (h : v < 256 ^ w) (f : Nat → β) (rest : Bytes) :
    (f <$> getInt w) (toBE w v ++ rest) = .ok (f v, rest) :=
  Parser.map_apply f (getInt_append h rest)

@[simp] theorem getInt_u16_bind (x : UInt16) (f : Nat → Parser β) (rest : Bytes) :
    (getInt 2 >>= f) (toBE 2 x.toNat ++ rest) = f x.toNat rest :=
  getInt_bind x.toNat_lt f rest

@[simp] theorem getInt_u32_bind (x : UInt32) (f : Nat → Parser β) (rest : Bytes) :
    (getInt 4 >>= f) (toBE 4 x.toNat ++ rest) = f x.toNat rest :=
  getInt_bind x.toNat_lt f rest

@[simp] theorem getInt_u64_bind (x : UInt64) (f : Nat → Parser β) (rest : Bytes) :
    (getInt 8 >>= f) (toBE 8 x.toNat ++ rest) = f x.toNat rest :=
  getInt_bind x.toNat_lt f rest

@[simp] theorem getInt_u16_map (x : UInt16) (f : Nat → β) (rest : Bytes) :
    (f <$> getInt 2) (toBE 2 x.toNat ++ rest) = .ok (f x.toNat, rest) :=
  getInt_map x.toNat_lt f rest

@[simp] theorem getInt_u32_map (x : UInt32) (f : Nat → β) (rest : Bytes) :
    (f <$> getInt 4) (toBE 4 x.toNat ++ rest) = .ok (f x.toNat, rest) :=
  getInt_map x.toNat_lt f rest

@[simp] theorem getInt_u64_map (x : UInt64) (f : Nat → β) (rest : Bytes) :
    (f <$> getInt 8) (toBE 8 x.toNat ++ rest) = .ok (f x.toNat, rest) :=
  getInt_map x.toNat_lt f rest

@[simp] theorem getInt_bool_bind (b : Bool) (f : Nat → Parser β) (rest : Bytes) :
    (getInt 1 >>= f) (toBE 1 b.toNat ++ rest) = f b.toNat rest :=
  getInt_bind (Nat.lt_of_lt_of_le (Bool.toNat_lt b) (by decide)) f rest

@[simp] theorem ensureRemaining_bind {n : Nat} {frame : Bytes} (h : n ≤ frame.length)
    (f : Unit → Parser β) : (ensureRemaining n >>= f) frame = f () frame := by
  refine Parser.bind_ok ?_ f
  rw [ensureRemaining, if_neg (Nat.not_lt.2 h)]

@[simp] theorem ensureEmpty_bind (f : Unit → Parser β) : (ensureEmpty >>= f) [] = f () [] :=
  Parser.bind_ok rfl f

@[simp] theorem ensureEmpty_map (f : Unit → β) : (f <$> ensureEmpty) [] = .ok (f (), []) := rfl

@[simp] theorem ensure_bind {check : Except ProtocolError Unit} (h : check = .ok ())
    (f : Unit → Parser β) (frame : Bytes) : (ensure check >>= f) frame = f () frame := by
  subst h
  exact Parser.bind_ok rfl f

@[simp] theorem attempt_ok (a : α) (frame : Bytes) :
    attempt (.ok a) frame = .ok (a, frame) := rfl

@[simp] theorem attempt_bind (a : α) (f : α → Parser β) (frame : Bytes) :
    (attempt (.ok a) >>= f) frame = f a frame :=
  Parser.bind_ok rfl f

@[simp] theorem ensure_map {check : Except ProtocolError Unit} (h : check = .ok ())
    (f : Unit → β) (frame : Bytes) : (f <$> ensure check) frame = .ok (f (), frame) := by
  subst h
  rfl

@[simp] theorem decodeUtf8_utf8 (value : String) (error : ProtocolError) :
    decodeUtf8 (utf8 value) error = .ok value := by
  rw [decodeUtf8, fromUtf8_utf8]

@[simp] theorem readLen_bind {w v : Nat} (h : v < 256 ^ w) (f : Nat → Parser β) (rest : Bytes) :
    (readLen w >>= f) (toBE w v ++ rest) = f v rest := by
  refine Parser.bind_ok ?_ f
  have hlen : w ≤ (toBE w v ++ rest).length := by simp
  rw [readLen, ensureRemaining_bind hlen]
  exact getInt_append h rest

theorem readBytes_append (bs rest : Bytes) : readBytes bs.length (bs ++ rest) = .ok (bs, rest) := by
  have hlen : ¬ (bs ++ rest).length < bs.length := by simp
  rw [readBytes, if_neg hlen, List.take_left, List.drop_left]

@[simp] theorem readBytes_bind (bs : Bytes) (f : Bytes → Parser β) (rest : Bytes) :
    (readBytes bs.length >>= f) (bs ++ rest) = f bs rest :=
  Parser.bind_ok (readBytes_append bs rest) f

@[simp] theorem readBytes_map (bs : Bytes) (f : Bytes → β) (rest : Bytes) :
    (f <$> readBytes bs.length) (bs ++ rest) = .ok (f bs, rest) :=
  Parser.map_apply f (readBytes_append bs rest)

@[simp] theorem decodeString_bind {value : String} (h : (utf8 value).length < 256 ^ 2)
    (f : String → Parser β) (rest : Bytes) :
    (decodeString >>= f) (stringBytes value ++ rest) = f value rest := by
  refine Parser.bind_ok ?_ f
  rw [decodeString, stringBytes, List.append_assoc, readLen_bind h, readBytes_bind, fromUtf8_utf8]
  rfl

theorem readMany_bind {p : Parser α} {bytes : α → Bytes} {as : List α}
    (h : ∀ a ∈ as, ∀ rest, p (bytes a ++ rest) = .ok (a, rest)) (f : List α → Parser β)
    (rest : Bytes) : (readMany p as.length >>= f) (as.flatMap bytes ++ rest) = f as rest := by
  have hread : readMany p as.length (as.flatMap bytes ++ rest) = .ok (as, rest) := by
    induction as with
    | nil => rfl
    | cons a as ih =>
      have ih' := ih fun x hx => h x (List.mem_cons_of_mem _ hx)
      rw [List.length_cons, readMany, List.flatMap_cons, List.append_assoc,
        Parser.bind_ok (h a List.mem_cons_self _), Parser.bind_ok ih']
      rfl
  exact Parser.bind_ok hread f

end Reads

/-! ## Taking a frame off a stream -/

/-- `take_frame`: the frame and the rest of the buffer. -/
def takeFrame : Decoder Bytes UInt8 ProtocolError := fun buffer =>
  if buffer.length < FRAME_HEADER_SIZE then .ok none
  else
    let frameLen := ofBE (buffer.take FRAME_HEADER_SIZE)
    if frameLen = 0 then .error .invalidFrame
    else if frameLen > MAX_FRAME_SIZE then .error .frameTooLarge
    else if buffer.length < FRAME_HEADER_SIZE + frameLen then .ok none
    else .ok (some ((buffer.drop FRAME_HEADER_SIZE).take frameLen,
      (buffer.drop FRAME_HEADER_SIZE).drop frameLen))

/-- Decode the first frame of a buffer with a parser for its contents. -/
def decodeFrame {α : Type} (p : Parser α) : Decoder α UInt8 ProtocolError := fun buffer =>
  match takeFrame buffer with
  | .error e => .error e
  | .ok none => .ok none
  | .ok (some (frame, rest)) =>
    match p frame with
    | .error e => .error e
    | .ok (a, _) => .ok (some (a, rest))

theorem takeFrame_append {body : Bytes} (hpos : body ≠ []) (hmax : body.length ≤ MAX_FRAME_SIZE)
    (rest : Bytes) : takeFrame (frameBytes body ++ rest) = .ok (some (body, rest)) := by
  have hlt : body.length < 256 ^ 4 := by
    have : MAX_FRAME_SIZE < 256 ^ 4 := by decide
    omega
  have htake : (frameBytes body ++ rest).take FRAME_HEADER_SIZE = toBE 4 body.length := by
    rw [frameBytes, List.append_assoc]
    exact List.take_left' (toBE_length 4 _)
  have hdrop : (frameBytes body ++ rest).drop FRAME_HEADER_SIZE = body ++ rest := by
    rw [frameBytes, List.append_assoc]
    exact List.drop_left' (toBE_length 4 _)
  have hlen : (frameBytes body ++ rest).length = FRAME_HEADER_SIZE + body.length + rest.length := by
    simp only [frameBytes, List.length_append, toBE_length, FRAME_HEADER_SIZE]
  have hzero : body.length ≠ 0 := fun h => hpos (List.length_eq_zero_iff.1 h)
  simp only [takeFrame, htake, hdrop, hlen, ofBE_toBE hlt]
  rw [if_neg (by omega), if_neg hzero, if_neg (by omega), if_neg (by omega), List.take_left,
    List.drop_left]

/-- A length beyond the limit is refused at once. -/
theorem decodeFrame_too_large {α : Type} (p : Parser α) {len : Nat} (hmax : MAX_FRAME_SIZE < len)
    (hlt : len < 256 ^ 4) (rest : Bytes) :
    decodeFrame p (toBE 4 len ++ rest) = .error .frameTooLarge := by
  have htake : (toBE 4 len ++ rest).take FRAME_HEADER_SIZE = toBE 4 len :=
    List.take_left' (toBE_length 4 _)
  have hlen : ¬ (toBE 4 len ++ rest).length < FRAME_HEADER_SIZE := by simp [FRAME_HEADER_SIZE]
  simp only [decodeFrame, takeFrame, htake, ofBE_toBE hlt]
  rw [if_neg hlen, if_neg (by omega), if_pos hmax]

/-- A frame that is within the limits is decoded whatever follows it. -/
theorem decodeFrame_append {α : Type} {p : Parser α} {body left : Bytes} {a : α}
    (hpos : body ≠ []) (hmax : body.length ≤ MAX_FRAME_SIZE) (hp : p body = .ok (a, left))
    (rest : Bytes) : decodeFrame p (frameBytes body ++ rest) = .ok (some (a, rest)) := by
  simp only [decodeFrame, takeFrame_append hpos hmax, hp]

end SevlaMq.Protocol
