import SevlaMq.Consumer.RetryEnvelope

/-!
# The producer ids of failures

`retry_producer_id` writes a checksum and an attempt number.  The client, the protocol and the storage
accept such an id, and it tells as much about the failure as the checksum does.

* `retryProducerId_valid` — the id passes the checks of `ProduceRequest::new` and of the log.
* `retryProducerId_inj` — two ids of one attempt are the same when the checksums are.
-/

set_option autoImplicit false

namespace SevlaMq.Consumer

open SevlaMq.Storage (Checksum utf8 utf8_eq_flatMap isNameByte validateProducerId)
open SevlaMq.Protocol (MAX_TOPIC_NAME validateIdentifier)

/-! ## Names -/

/-- A character of names, for the protocol and for the storage: it is a single byte. -/
def IsNameChar (c : Char) : Prop :=
  c.utf8Size = 1 ∧ isNameByte c.val.toUInt8 = true ∧
    (c.isAlphanum || c = '.' || c = '_' || c = '-') = true

instance (c : Char) : Decidable (IsNameChar c) := inferInstanceAs (Decidable (_ ∧ _ ∧ _))

theorem digitChar_isNameChar : ∀ d < 16, IsNameChar (Nat.digitChar d) := by decide

theorem retry_isNameChar : ∀ c ∈ "retry-".toList, IsNameChar c := by
  rw [show "retry-".toList = ['r', 'e', 't', 'r', 'y', '-'] from rfl]
  intro c hc
  simp only [List.mem_cons, List.not_mem_nil, or_false] at hc
  rcases hc with rfl | rfl | rfl | rfl | rfl | rfl <;> decide

theorem toDigits_isNameChar (n : Nat) : ∀ c ∈ Nat.toDigits 10 n, IsNameChar c := by
  induction n using Nat.strongRecOn with
  | ind n ih =>
    rw [Nat.toDigits_eq_if (by decide)]
    split
    · intro c hc
      rw [List.mem_singleton.1 hc]
      exact digitChar_isNameChar n (by omega)
    · intro c hc
      rcases List.mem_append.1 hc with hc | hc
      · exact ih (n / 10) (by omega) c hc
      · rw [List.mem_singleton.1 hc]
        exact digitChar_isNameChar (n % 10) (by omega)

theorem utf8_append (a b : String) : utf8 (a ++ b) = utf8 a ++ utf8 b := by
  simp only [utf8_eq_flatMap, String.toList_append, List.flatMap_append]

theorem utf8_of_nameChars {s : String} (h : ∀ c ∈ s.toList, IsNameChar c) :
    (utf8 s).length = s.toList.length ∧ (utf8 s).all isNameByte = true := by
  rw [utf8_eq_flatMap]
  generalize s.toList = cs at h
  induction cs with
  | nil => exact ⟨rfl, rfl⟩
  | cons c cs ih =>
    obtain ⟨⟨hsize, hbyte, _⟩, hrest⟩ := List.forall_mem_cons.1 h
    obtain ⟨hlen, hall⟩ := ih hrest
    rw [List.flatMap_cons, String.utf8EncodeChar_eq_singleton hsize]
    constructor
    · simp [hlen]
    · simp only [List.singleton_append, List.all_cons, hbyte, hall, Bool.and_self]

/-- What is made of such characters is an identifier. -/
theorem validateIdentifier_of_nameChars {s : String} (h : ∀ c ∈ s.toList, IsNameChar c)
    (hne : s.toList ≠ []) (hlen : s.toList.length ≤ MAX_TOPIC_NAME) :
    validateIdentifier s = .ok () ∧ validateProducerId s = .ok () := by
  obtain ⟨hsize, hall⟩ := utf8_of_nameChars h
  constructor
  · unfold validateIdentifier
    rw [if_neg]
    simp only [not_or, Nat.not_lt, Bool.not_eq_true, List.any_eq_false, hsize]
    refine ⟨by simpa using hne, hlen, fun c hc => ?_⟩
    rw [(h c hc).2.2]
    rfl
  · unfold validateProducerId
    have hlen' : s.toList.length ≤ 249 := hlen
    rw [if_neg]
    simp only [not_or, hsize, hall, Nat.not_lt]
    refine ⟨fun hnil => hne ?_, hlen', by decide⟩
    rw [hnil] at hsize
    exact List.length_eq_zero_iff.1 hsize.symm

/-! ## Eight digits -/

/-- The digits of `{:08x}`. -/
def hexDigits (n : UInt32) : List Char :=
  (List.range 8).map fun i => (n.toNat / 16 ^ (7 - i) % 16).digitChar

theorem hex8_toList (n : UInt32) : (hex8 n).toList = hexDigits n := String.toList_ofList

theorem hexDigits_length (n : UInt32) : (hexDigits n).length = 8 := by
  simp [hexDigits]

theorem hexDigits_isNameChar (n : UInt32) : ∀ c ∈ hexDigits n, IsNameChar c := by
  intro c hc
  obtain ⟨i, _, rfl⟩ := List.mem_map.1 hc
  exact digitChar_isNameChar _ (Nat.mod_lt _ (by decide))

theorem digitChar_inj : ∀ a < 16, ∀ b < 16, Nat.digitChar a = Nat.digitChar b → a = b := by decide

theorem hexDigits_inj {a b : UInt32} (h : hexDigits a = hexDigits b) : a = b := by
  have hdigit : ∀ i < 8, a.toNat / 16 ^ (7 - i) % 16 = b.toNat / 16 ^ (7 - i) % 16 := by
    intro i hi
    have hchar := List.map_inj_left.1 h i (List.mem_range.2 hi)
    exact digitChar_inj _ (Nat.mod_lt _ (by decide)) _ (Nat.mod_lt _ (by decide)) hchar
  have h₀ := hdigit 0 (by decide)
  have h₁ := hdigit 1 (by decide)
  have h₂ := hdigit 2 (by decide)
  have h₃ := hdigit 3 (by decide)
  have h₄ := hdigit 4 (by decide)
  have h₅ := hdigit 5 (by decide)
  have h₆ := hdigit 6 (by decide)
  have h₇ := hdigit 7 (by decide)
  have ha := a.toNat_lt
  have hb := b.toNat_lt
  apply UInt32.toNat_inj.1
  omega

/-! ## Producer ids -/

section ProducerIds

variable [Checksum]

theorem retryProducerId_toList (group : String) (context : MessageContext) (attempt : UInt32)
    (destination : String) : (retryProducerId group context attempt destination).toList =
      "retry-".toList ++ (hexDigits (Checksum.hash (failureBytes group context attempt destination)) ++
        ('-' :: Nat.toDigits 10 attempt.toNat)) := by
  simp only [retryProducerId, String.toList_append, hex8_toList]
  simp

/-- The id of a failure passes every check there is on producer ids. -/
theorem retryProducerId_valid (group : String) (context : MessageContext) (attempt : UInt32)
    (destination : String) :
    validateIdentifier (retryProducerId group context attempt destination) = .ok () ∧
      validateProducerId (retryProducerId group context attempt destination) = .ok () ∧
      (utf8 (retryProducerId group context attempt destination)).length ≤ 25 ∧
      utf8 (retryProducerId group context attempt destination) ≠ [] := by
  have hlist := retryProducerId_toList group context attempt destination
  have hdigits : (Nat.toDigits 10 attempt.toNat).length ≤ 10 :=
    (Nat.length_toDigits_le_iff (by decide) (by decide)).2
      (Nat.lt_of_lt_of_le attempt.toNat_lt (by decide))
  have hlen : (retryProducerId group context attempt destination).toList.length ≤ 25 := by
    simp only [hlist, List.length_append, hexDigits_length, List.length_cons]
    have hword : "retry-".toList.length = 6 := by decide
    omega
  have hchars : ∀ c ∈ (retryProducerId group context attempt destination).toList,
      IsNameChar c := by
    rw [hlist]
    intro c hc
    rcases List.mem_append.1 hc with hword | hc
    · exact retry_isNameChar c hword
    rcases List.mem_append.1 hc with hhash | hc
    · exact hexDigits_isNameChar _ c hhash
    rcases List.mem_cons.1 hc with rfl | hattempt
    · decide
    · exact toDigits_isNameChar _ c hattempt
  have hne : (retryProducerId group context attempt destination).toList ≠ [] := by
    rw [hlist]
    exact List.append_ne_nil_of_left_ne_nil (by decide) _
  have hmax : MAX_TOPIC_NAME = 249 := rfl
  obtain ⟨hprotocol, hstorage⟩ := validateIdentifier_of_nameChars hchars hne (by omega)
  have hsize := (utf8_of_nameChars hchars).1
  refine ⟨hprotocol, hstorage, by omega, fun hnil => hne ?_⟩
  rw [hnil] at hsize
  exact List.length_eq_zero_iff.1 hsize.symm

/-- Two ids of one attempt are the same as far as the checksums are. -/
theorem retryProducerId_inj {group group' destination destination' : String}
    {context context' : MessageContext} {attempt : UInt32} :
    retryProducerId group context attempt destination =
        retryProducerId group' context' attempt destination' ↔
      Checksum.hash (failureBytes group context attempt destination) =
        Checksum.hash (failureBytes group' context' attempt destination') := by
  constructor
  · intro h
    have hlist := congrArg String.toList h
    rw [retryProducerId_toList, retryProducerId_toList] at hlist
    have hhex := List.append_cancel_left hlist
    exact hexDigits_inj (List.append_inj_left hhex (by rw [hexDigits_length, hexDigits_length]))
  · intro h
    rw [retryProducerId, retryProducerId, h]

end ProducerIds

end SevlaMq.Consumer
