import SevlaMq.Lib.Grammar
import SevlaMq.Protocol.Requests

/-!
# What the helpers read

For each helper of `crates/protocol/src/lib.rs` that reads a frame: when it succeeds, and what it
has then taken off the front.  The `_bind` lemmas say that a helper reads what was written; the
`_bind_eq_ok` lemmas below say that it reads nothing else.

* `readMany_recognizes` — the same parser again and again reads lists.
* `decodeFrame_eq_some` — when a buffer begins with a message: a frame within the limits whose body
  is a sentence.
-/

set_option autoImplicit false

namespace SevlaMq.Protocol

open SevlaMq.Storage (utf8 fromUtf8 fromUtf8_utf8)

/-! ## Numbers -/

theorem getInt_recognizes (w : Nat) :
    Recognizes (getInt w) fun n s => n < 256 ^ w ∧ s = toBE w n := by
  intro frame n left
  constructor
  · intro h
    simp only [getInt] at h
    split at h
    · rename_i hread
      cases h
      obtain ⟨hn, rfl⟩ := getBE_eq_some.1 hread
      exact ⟨_, ⟨hn, rfl⟩, rfl⟩
    · cases h
  · rintro ⟨_, ⟨hn, rfl⟩, rfl⟩
    exact getInt_append hn left

section Reads

variable {α β : Type} {frame : Bytes} {p : β × Bytes}

theorem getInt_bind_eq_ok {w : Nat} {f : Nat → Parser β} :
    (getInt w >>= f) frame = .ok p ↔
      ∃ n < 256 ^ w, ∃ left, frame = toBE w n ++ left ∧ f n left = .ok p := by
  rw [(getInt_recognizes w).bind_eq_ok]
  constructor
  · rintro ⟨n, _, left, ⟨hn, rfl⟩, rfl, h⟩
    exact ⟨n, hn, left, rfl, h⟩
  · rintro ⟨n, hn, left, rfl, h⟩
    exact ⟨n, _, left, ⟨hn, rfl⟩, rfl, h⟩

theorem getInt_u16_bind_eq_ok {f : Nat → Parser β} :
    (getInt 2 >>= f) frame = .ok p ↔
      ∃ (x : UInt16) (left : Bytes), frame = toBE 2 x.toNat ++ left ∧ f x.toNat left = .ok p := by
  rw [getInt_bind_eq_ok]
  constructor
  · rintro ⟨n, hn, left, rfl, h⟩
    refine ⟨.ofNat n, left, ?_, ?_⟩
    · rw [UInt16.toNat_ofNat_of_lt' hn]
    · rwa [UInt16.toNat_ofNat_of_lt' hn]
  · rintro ⟨x, left, rfl, h⟩
    exact ⟨_, x.toNat_lt, left, rfl, h⟩

theorem getInt_u32_bind_eq_ok {f : Nat → Parser β} :
    (getInt 4 >>= f) frame = .ok p ↔
      ∃ (x : UInt32) (left : Bytes), frame = toBE 4 x.toNat ++ left ∧ f x.toNat left = .ok p := by
  rw [getInt_bind_eq_ok]
  constructor
  · rintro ⟨n, hn, left, rfl, h⟩
    refine ⟨.ofNat n, left, ?_, ?_⟩
    · rw [UInt32.toNat_ofNat_of_lt' hn]
    · rwa [UInt32.toNat_ofNat_of_lt' hn]
  · rintro ⟨x, left, rfl, h⟩
    exact ⟨_, x.toNat_lt, left, rfl, h⟩

theorem getInt_u64_bind_eq_ok {f : Nat → Parser β} :
    (getInt 8 >>= f) frame = .ok p ↔
      ∃ (x : UInt64) (left : Bytes), frame = toBE 8 x.toNat ++ left ∧ f x.toNat left = .ok p := by
  rw [getInt_bind_eq_ok]
  constructor
  · rintro ⟨n, hn, left, rfl, h⟩
    refine ⟨.ofNat n, left, ?_, ?_⟩
    · rw [UInt64.toNat_ofNat_of_lt' hn]
    · rwa [UInt64.toNat_ofNat_of_lt' hn]
  · rintro ⟨x, left, rfl, h⟩
    exact ⟨_, x.toNat_lt, left, rfl, h⟩

/-! ## Checks -/

theorem pure_eq_ok {a : β} : (pure a : Parser β) frame = .ok p ↔ p = (a, frame) := by
  rw [Parser.pure_apply, Except.ok.injEq, eq_comm]

theorem ensureRemaining_bind_eq_ok {n : Nat} {f : Unit → Parser β} :
    (ensureRemaining n >>= f) frame = .ok p ↔ n ≤ frame.length ∧ f () frame = .ok p := by
  rw [bind_eq_ok_iff, ensureRemaining]
  split
  · rename_i hshort
    constructor
    · rintro ⟨_, _, h, _⟩
      cases h
    · rintro ⟨hlen, _⟩
      omega
  · rename_i hlen
    constructor
    · rintro ⟨_, _, h, hf⟩
      cases h
      exact ⟨Nat.not_lt.1 hlen, hf⟩
    · rintro ⟨_, hf⟩
      exact ⟨_, _, rfl, hf⟩

theorem ensureEmpty_bind_eq_ok {f : Unit → Parser β} :
    (ensureEmpty >>= f) frame = .ok p ↔ frame = [] ∧ f () [] = .ok p := by
  rw [bind_eq_ok_iff, ensureEmpty]
  split
  · rename_i hne
    constructor
    · rintro ⟨_, _, h, _⟩
      cases h
    · rintro ⟨hnil, _⟩
      exact absurd hnil hne
  · rename_i hnil
    rw [not_not] at hnil
    subst hnil
    constructor
    · rintro ⟨_, _, h, hf⟩
      cases h
      exact ⟨rfl, hf⟩
    · rintro ⟨_, hf⟩
      exact ⟨_, _, rfl, hf⟩

theorem ensure_bind_eq_ok {check : Except ProtocolError Unit} {f : Unit → Parser β} :
    (ensure check >>= f) frame = .ok p ↔ check = .ok () ∧ f () frame = .ok p := by
  cases check with
  | error e =>
    constructor
    · intro h
      cases h
    · rintro ⟨h, _⟩
      cases h
  | ok _ => exact ⟨fun h => ⟨rfl, h⟩, And.right⟩

theorem attempt_eq_ok {value : Except ProtocolError β} :
    attempt value frame = .ok p ↔ value = .ok p.1 ∧ frame = p.2 := by
  cases value with
  | error e =>
    constructor
    · intro h
      cases h
    · rintro ⟨h, _⟩
      cases h
  | ok b =>
    constructor
    · intro h
      cases h
      exact ⟨rfl, rfl⟩
    · rintro ⟨h, rfl⟩
      cases h
      rfl

theorem attempt_bind_eq_ok {value : Except ProtocolError α} {f : α → Parser β} :
    (attempt value >>= f) frame = .ok p ↔ ∃ a, value = .ok a ∧ f a frame = .ok p := by
  rw [bind_eq_ok_iff]
  constructor
  · rintro ⟨a, left, h, hf⟩
    obtain ⟨hvalue, rfl⟩ := attempt_eq_ok.1 h
    exact ⟨a, hvalue, hf⟩
  · rintro ⟨a, rfl, hf⟩
    exact ⟨a, frame, rfl, hf⟩

/-! ## Strings -/

theorem fromUtf8_eq_some {bs : Bytes} {value : String} :
    fromUtf8 bs = some value ↔ bs = utf8 value := by
  constructor
  · intro h
    simp only [fromUtf8, String.fromUTF8?] at h
    split at h
    · cases h
      rfl
    · cases h
  · rintro rfl
    exact fromUtf8_utf8 value

theorem decodeUtf8_eq_ok {bs : Bytes} {error : ProtocolError} {value : String} :
    decodeUtf8 bs error = .ok value ↔ bs = utf8 value := by
  rw [← fromUtf8_eq_some, decodeUtf8]
  split
  · rename_i v h
    rw [h, Except.ok.injEq, Option.some.injEq]
  · rename_i h
    simp [h]

theorem readLen_bind_eq_ok {w : Nat} {f : Nat → Parser β} :
    (readLen w >>= f) frame = .ok p ↔
      ∃ n < 256 ^ w, ∃ left, frame = toBE w n ++ left ∧ f n left = .ok p := by
  rw [readLen, bind_assoc, ensureRemaining_bind_eq_ok, getInt_bind_eq_ok, and_iff_right_iff_imp]
  rintro ⟨n, _, left, rfl, _⟩
  simp

theorem readBytes_bind_eq_ok {len : Nat} {f : Bytes → Parser β} :
    (readBytes len >>= f) frame = .ok p ↔
      ∃ bs left, bs.length = len ∧ frame = bs ++ left ∧ f bs left = .ok p := by
  rw [bind_eq_ok_iff]
  constructor
  · rintro ⟨bs, left, h, hf⟩
    rw [readBytes] at h
    split at h
    · cases h
    · rename_i hlen
      cases h
      exact ⟨_, _, List.length_take_of_le (Nat.not_lt.1 hlen), (List.take_append_drop _ _).symm, hf⟩
  · rintro ⟨bs, left, rfl, rfl, hf⟩
    exact ⟨bs, left, readBytes_append bs left, hf⟩

theorem decodeString_bind_eq_ok {f : String → Parser β} :
    (decodeString >>= f) frame = .ok p ↔
      ∃ value left, (utf8 value).length < 65536 ∧ frame = stringBytes value ++ left ∧
        f value left = .ok p := by
  constructor
  · intro h
    rw [decodeString, bind_assoc, readLen_bind_eq_ok] at h
    obtain ⟨n, hn, left, rfl, h⟩ := h
    rw [bind_assoc, readBytes_bind_eq_ok] at h
    obtain ⟨bs, left, rfl, rfl, h⟩ := h
    split at h
    · rename_i value hvalue
      obtain rfl := fromUtf8_eq_some.1 hvalue
      exact ⟨value, left, hn, by rw [stringBytes, List.append_assoc], h⟩
    · cases h
  · rintro ⟨value, left, hlen, rfl, h⟩
    rwa [decodeString_bind hlen]

/-! ## Lists -/

/-- The same parser again and again reads the elements of a list one after the other. -/
theorem readMany_recognizes {q : Parser α} {Fits : α → Prop} {bytes : α → Bytes}
    (h : Recognizes q fun a s => Fits a ∧ s = bytes a) (n : Nat) :
    Recognizes (readMany q n) fun as s =>
      as.length = n ∧ (∀ a ∈ as, Fits a) ∧ s = as.flatMap bytes := by
  induction n with
  | zero =>
    intro frame as left
    rw [readMany, pure_eq_ok]
    constructor
    · rintro ⟨⟩
      exact ⟨[], ⟨rfl, fun _ hx => absurd hx List.not_mem_nil, rfl⟩, rfl⟩
    · rintro ⟨_, ⟨hlen, _, rfl⟩, rfl⟩
      rw [List.length_eq_zero_iff] at hlen
      subst hlen
      rfl
  | succ n ih =>
    intro frame as left
    rw [readMany, h.bind_eq_ok]
    simp only [ih.bind_eq_ok, pure_eq_ok]
    constructor
    · rintro ⟨a, _, _, ⟨ha, rfl⟩, rfl, as', _, _, ⟨hlen, has, rfl⟩, rfl, ⟨⟩⟩
      refine ⟨_, ⟨by rw [List.length_cons, hlen], List.forall_mem_cons.2 ⟨ha, has⟩, rfl⟩, ?_⟩
      rw [List.flatMap_cons, List.append_assoc]
    · rintro ⟨_, ⟨hlen, has, rfl⟩, rfl⟩
      cases as with
      | nil => cases hlen
      | cons a as' =>
        rw [List.forall_mem_cons] at has
        rw [List.length_cons, Nat.add_right_cancel_iff] at hlen
        rw [List.flatMap_cons, List.append_assoc]
        exact ⟨a, _, _, ⟨has.1, rfl⟩, rfl, as', _, _, ⟨hlen, has.2, rfl⟩, rfl, rfl⟩

theorem readMany_bind_eq_ok {q : Parser α} {Fits : α → Prop} {bytes : α → Bytes}
    (h : Recognizes q fun a s => Fits a ∧ s = bytes a) {n : Nat} {f : List α → Parser β} :
    (readMany q n >>= f) frame = .ok p ↔
      ∃ as left, as.length = n ∧ (∀ a ∈ as, Fits a) ∧ frame = as.flatMap bytes ++ left ∧
        f as left = .ok p := by
  rw [(readMany_recognizes h n).bind_eq_ok]
  constructor
  · rintro ⟨as, _, left, ⟨hlen, has, rfl⟩, rfl, hf⟩
    exact ⟨as, left, hlen, has, rfl, hf⟩
  · rintro ⟨as, left, hlen, has, rfl, hf⟩
    exact ⟨as, _, left, ⟨hlen, has, rfl⟩, rfl, hf⟩

end Reads

/-- An opcode with no fields. -/
theorem alone_covers {α : Type} (opcode : Nat) (a : α) :
    Covers (alone opcode a) fun b s => b = a ∧ s = [] := by
  intro frame b left
  rw [alone]
  split
  · rename_i hnil
    subst hnil
    simp only [Except.ok.injEq, Prod.mk.injEq, and_true]
    exact and_congr eq_comm eq_comm
  · rename_i hne
    exact ⟨fun h => (by cases h), fun h => absurd h.1.2 hne⟩

/-! ## Frames -/

/-- When a buffer begins with a frame. -/
theorem takeFrame_eq_some {buffer body rest : Bytes} :
    takeFrame buffer = .ok (some (body, rest)) ↔
      body ≠ [] ∧ body.length ≤ MAX_FRAME_SIZE ∧ buffer = frameBytes body ++ rest := by
  constructor
  · intro h
    simp only [takeFrame] at h
    split at h
    · cases h
    rename_i hheader
    split at h
    · cases h
    rename_i hzero
    split at h
    · cases h
    rename_i hmax
    split at h
    · cases h
    rename_i hlen
    have htake : (buffer.take FRAME_HEADER_SIZE).length = 4 :=
      List.length_take_of_le (Nat.not_lt.1 hheader)
    have hbody : ((buffer.drop FRAME_HEADER_SIZE).take
        (ofBE (buffer.take FRAME_HEADER_SIZE))).length = ofBE (buffer.take FRAME_HEADER_SIZE) := by
      rw [List.length_take, List.length_drop]
      omega
    have hprefix := toBE_ofBE (buffer.take FRAME_HEADER_SIZE)
    rw [htake] at hprefix
    simp only [Except.ok.injEq, Option.some.injEq, Prod.mk.injEq] at h
    obtain ⟨rfl, rfl⟩ := h
    refine ⟨fun hnil => hzero ?_, by rw [hbody]; omega, ?_⟩
    · rw [← hbody, hnil, List.length_nil]
    · rw [frameBytes, hbody, hprefix, List.append_assoc, List.take_append_drop,
        List.take_append_drop]
  · rintro ⟨hne, hmax, rfl⟩
    exact takeFrame_append hne hmax rest

/-- **When a buffer begins with a message**: with a frame within the limits whose body is a sentence
that says the message. -/
theorem decodeFrame_eq_some {α : Type} {q : Parser α} {G : α → Bytes → Prop} (h : Covers q G)
    {buffer rest : Bytes} {a : α} :
    decodeFrame q buffer = .ok (some (a, rest)) ↔
      ∃ body, G a body ∧ body ≠ [] ∧ body.length ≤ MAX_FRAME_SIZE ∧
        buffer = frameBytes body ++ rest := by
  constructor
  · intro hdecode
    simp only [decodeFrame] at hdecode
    split at hdecode
    · cases hdecode
    · cases hdecode
    rename_i body rest' htake
    split at hdecode
    · cases hdecode
    rename_i left hq
    cases hdecode
    obtain ⟨hne, hmax, rfl⟩ := takeFrame_eq_some.1 htake
    exact ⟨body, ((h _ _ _).1 hq).1, hne, hmax, rfl⟩
  · rintro ⟨body, hbody, hne, hmax, rfl⟩
    exact decodeFrame_append hne hmax ((h _ _ _).2 ⟨hbody, rfl⟩) rest

end SevlaMq.Protocol
