import SevlaMq.Storage.Record

/-!
# The partition log as a list of records

What a partition log is for, without files: record `i` of the list is the record at offset `i`.
The cluster model is written over this layer; `SevlaMq.Storage.Refinement` shows that the
segmented, file-backed `PartitionLog` behaves like it.

* `ProducerTable`, `admission` — the producer-sequence table and the decision taken on it before
  an append (duplicate, accept, reject).
* `RecordLog.append`, `appendReplica`, `truncateTo`, `read`, `recordAt`.
-/

set_option autoImplicit false

namespace SevlaMq.Storage

/-! ## Producer sequences -/

/-- `HashMap<String, (u64, u64)>`: last stored sequence and its offset, by producer id. -/
abbrev ProducerTable := String → Option (UInt64 × Nat)

/-- `u64::saturating_add(1)`. -/
def saturatingSucc (s : UInt64) : UInt64 := if s.toNat + 1 < 2 ^ 64 then s + 1 else s

def ProducerTable.empty : ProducerTable := fun _ => none

def ProducerTable.insert (t : ProducerTable) (id : String) (v : UInt64 × Nat) : ProducerTable :=
  fun x => if x = id then some v else t x

/-- The table after the record `r` was stored at `offset`. -/
def ProducerTable.store (t : ProducerTable) (r : Record) (offset : Nat) : ProducerTable :=
  match r.producer with
  | some p => t.insert p.id (p.sequence, offset)
  | none => t

/-- The table after storing `rs` from `offset` on. -/
def ProducerTable.storeAll : ProducerTable → Nat → List Record → ProducerTable
  | t, _, [] => t
  | t, offset, r :: rs => (t.store r offset).storeAll (offset + 1) rs

theorem ProducerTable.storeAll_append (t : ProducerTable) (offset : Nat) (rs rs' : List Record) :
    t.storeAll offset (rs ++ rs') = (t.storeAll offset rs).storeAll (offset + rs.length) rs' := by
  induction rs generalizing t offset with
  | nil => simp [storeAll]
  | cons r rs ih => simp [storeAll, ih, Nat.add_assoc, Nat.add_comm 1]

/-- An entry was there before or names a stored record of the producer. -/
theorem ProducerTable.storeAll_some {t : ProducerTable} {offset o : Nat} {rs : List Record}
    {id : String} {sequence : UInt64} (h : t.storeAll offset rs id = some (sequence, o)) :
    t id = some (sequence, o) ∨
      ∃ i r, o = offset + i ∧ rs[i]? = some r ∧ r.producer = some ⟨id, sequence⟩ := by
  induction rs generalizing t offset with
  | nil => exact Or.inl h
  | cons r rs ih =>
    rcases ih h with hstore | ⟨i, x, ho, hx, hp⟩
    · cases hp : r.producer with
      | none =>
        simp only [ProducerTable.store, hp] at hstore
        exact Or.inl hstore
      | some p =>
        simp only [ProducerTable.store, hp, ProducerTable.insert] at hstore
        split at hstore
        · rename_i hid
          cases hstore
          exact Or.inr ⟨0, r, rfl, rfl, by rw [hp, hid]⟩
        · exact Or.inl hstore
    · exact Or.inr ⟨i + 1, x, by omega, hx, hp⟩

/-- The sequence decision at the head of `PartitionLog::append`: `some offset` for a repeated
sequence, `none` to go on with the append. -/
def admission (t : ProducerTable) (r : Record) : Except StorageError (Option Nat) :=
  match r.producer with
  | none => .ok none
  | some p =>
    match validateProducerId p.id with
    | .error e => .error e
    | .ok () =>
      match t p.id with
      | some (sequence, offset) =>
        if sequence = p.sequence then .ok (some offset)
        else if p.sequence ≠ saturatingSucc sequence then
          .error (.unexpectedProducerSequence p.id (saturatingSucc sequence) p.sequence)
        else .ok none
      | none =>
        if p.sequence ≠ 0 then .error (.unexpectedProducerSequence p.id 0 p.sequence) else .ok none

/-- The records `rs` are accepted one after the other, from offset `offset` on, by a log with the
producer table `t`. -/
def Sequenced : ProducerTable → Nat → List Record → Prop
  | _, _, [] => True
  | t, offset, r :: rs =>
    (admission t r = .ok none ∧ checkRecord r = .ok ()) ∧ Sequenced (t.store r offset) (offset + 1) rs

theorem sequenced_append (t : ProducerTable) (offset : Nat) (rs rs' : List Record) :
    Sequenced t offset (rs ++ rs') ↔
      Sequenced t offset rs ∧ Sequenced (t.storeAll offset rs) (offset + rs.length) rs' := by
  induction rs generalizing t offset with
  | nil => simp [Sequenced, ProducerTable.storeAll]
  | cons r rs ih =>
    simp only [List.cons_append, Sequenced, ProducerTable.storeAll, List.length_cons, ih, and_assoc]
    rw [Nat.add_assoc, Nat.add_comm 1]

theorem Sequenced.checked {t : ProducerTable} {offset : Nat} {rs : List Record}
    (h : Sequenced t offset rs) : ∀ r ∈ rs, checkRecord r = .ok () := by
  induction rs generalizing t offset with
  | nil => exact fun r hr => absurd hr List.not_mem_nil
  | cons r rs ih =>
    intro x hx
    rcases List.mem_cons.1 hx with rfl | hx
    · exact h.1.2
    · exact ih h.2 x hx

/-! ## Byte budget of a read -/

/-- `usize::MAX` on the 64-bit targets the broker is built for. -/
def USIZE_MAX : Nat := 2 ^ 64 - 1

def saturatingAdd (a b : Nat) : Nat := min (a + b) USIZE_MAX

/-- The records that still fit after `used` bytes. -/
def takeWithin (maxBytes : Nat) : Nat → List StoredRecord → List StoredRecord
  | _, [] => []
  | used, s :: ss =>
    if saturatingAdd used (encodedSize s.toRecord) > maxBytes then []
    else s :: takeWithin maxBytes (saturatingAdd used (encodedSize s.toRecord)) ss

/-- The first record is always returned, the following ones as far as the budget goes. -/
def takeBudget (maxBytes : Nat) : List StoredRecord → List StoredRecord
  | [] => []
  | s :: ss => s :: takeWithin maxBytes (saturatingAdd 0 (encodedSize s.toRecord)) ss

theorem takeWithin_isPrefix (maxBytes : Nat) : ∀ (used : Nat) (ss : List StoredRecord),
    takeWithin maxBytes used ss <+: ss
  | _, [] => List.prefix_rfl
  | used, s :: ss => by
    unfold takeWithin
    split
    · exact List.nil_prefix
    · exact (List.prefix_cons_inj s).2 (takeWithin_isPrefix maxBytes _ ss)

theorem takeBudget_isPrefix (maxBytes : Nat) (ss : List StoredRecord) :
    takeBudget maxBytes ss <+: ss := by
  cases ss with
  | nil => exact List.prefix_rfl
  | cons s ss => exact (List.prefix_cons_inj s).2 (takeWithin_isPrefix maxBytes _ ss)

/-- The largest budget is never used up. -/
theorem takeBudget_all (ss : List StoredRecord) : takeBudget USIZE_MAX ss = ss := by
  have within : ∀ (used : Nat) (ss : List StoredRecord), takeWithin USIZE_MAX used ss = ss := by
    intro used ss
    induction ss generalizing used with
    | nil => rfl
    | cons s ss ih =>
      have hle : ¬ saturatingAdd used (encodedSize s.toRecord) > USIZE_MAX :=
        Nat.not_lt.2 (Nat.min_le_right _ _)
      rw [takeWithin, if_neg hle, ih]
  cases ss with
  | nil => rfl
  | cons s ss => rw [takeBudget, within]

/-! ## Operations -/

abbrev RecordLog := List Record

/-- The stored records of `rs` when the first of them has offset `base`. -/
def storedFrom : Nat → List Record → List StoredRecord
  | _, [] => []
  | base, r :: rs => r.at base :: storedFrom (base + 1) rs

namespace RecordLog

def producerState (log : RecordLog) : ProducerTable := ProducerTable.empty.storeAll 0 log

/-- The producer table of a log names the records of the producers. -/
theorem producerState_some {log : RecordLog} {id : String} {sequence : UInt64} {o : Nat}
    (h : log.producerState id = some (sequence, o)) :
    ∃ r, log[o]? = some r ∧ r.producer = some ⟨id, sequence⟩ := by
  rcases ProducerTable.storeAll_some h with hnone | ⟨i, r, ho, hr, hp⟩
  · cases hnone
  · obtain rfl : o = i := by omega
    exact ⟨r, hr, hp⟩

/-- `PartitionLog::append`. -/
def append (log : RecordLog) (r : Record) : Except StorageError (Nat × RecordLog) :=
  match admission log.producerState r with
  | .error e => .error e
  | .ok (some offset) => .ok (offset, log)
  | .ok none =>
    match checkRecord r with
    | .error e => .error e
    | .ok () => .ok (log.length, log ++ [r])

/-- `PartitionLog::append_replica`: idempotent below the log end, an append at it. -/
def appendReplica (log : RecordLog) (offset : Nat) (r : Record) :
    Except StorageError (Nat × RecordLog) :=
  match log[offset]? with
  | some existing =>
    if existing.timestampMs = r.timestampMs ∧ existing.key = r.key ∧ existing.value = r.value then
      .ok (offset, log)
    else .error (.replicaDiverged offset)
  | none => if offset ≠ log.length then .error (.unexpectedOffset log.length offset) else log.append r

/-- `PartitionLog::truncate_to`. -/
def truncateTo (log : RecordLog) (offset : Nat) : Except StorageError RecordLog :=
  if offset > log.length then .error (.unexpectedOffset log.length offset) else .ok (log.take offset)

/-- `PartitionLog::read`. -/
def read (log : RecordLog) (offset maxBytes : Nat) : Except StorageError (List StoredRecord) :=
  if maxBytes = 0 then .error .invalidReadLimit
  else .ok (takeBudget maxBytes ((storedFrom 0 log).drop offset))

/-- An append leaves the log alone or extends it by the record. -/
theorem append_cases {log log' : RecordLog} {r : Record} {offset : Nat}
    (h : log.append r = .ok (offset, log')) :
    log' = log ∨ (offset = log.length ∧ log' = log ++ [r]) := by
  unfold append at h
  split at h
  · cases h
  · cases h; exact Or.inl rfl
  · split at h
    · cases h
    · cases h; exact Or.inr ⟨rfl, rfl⟩

/-- The offset an append returns lies in the log. -/
theorem append_offset_lt {log log' : RecordLog} {r : Record} {offset : Nat}
    (h : log.append r = .ok (offset, log')) : offset < log'.length := by
  unfold append at h
  split at h
  · cases h
  · rename_i o ha
    cases h
    unfold admission at ha
    split at ha
    · cases ha
    · split at ha
      · cases ha
      · split at ha
        · rename_i sequence o' ht
          split at ha
          · cases ha
            obtain ⟨x, hx, _⟩ := producerState_some ht
            exact (List.getElem?_eq_some_iff.1 hx).1
          · split at ha <;> cases ha
        · split at ha <;> cases ha
  · split at h
    · cases h
    · cases h
      simp

/-- A record without producer identity is never taken for a duplicate. -/
theorem append_new {log log' : RecordLog} {r : Record} {offset : Nat} (hp : r.producer = none)
    (h : log.append r = .ok (offset, log')) : offset = log.length ∧ log' = log ++ [r] := by
  unfold append at h
  simp only [admission, hp] at h
  split at h
  · cases h
  · cases h; exact ⟨rfl, rfl⟩

/-- A replicated record is already there or is appended at the log end. -/
theorem appendReplica_cases {log log' : RecordLog} {r : Record} {offset o : Nat}
    (hp : r.producer = none) (h : log.appendReplica offset r = .ok (o, log')) :
    (log' = log ∧ ∃ existing, log[offset]? = some existing ∧
      existing.timestampMs = r.timestampMs ∧ existing.key = r.key ∧ existing.value = r.value) ∨
    (offset = log.length ∧ log' = log ++ [r]) := by
  unfold appendReplica at h
  split at h
  · rename_i existing he
    split at h
    · rename_i heq
      cases h; exact Or.inl ⟨rfl, existing, he, heq⟩
    · cases h
  · split at h
    · cases h
    · rename_i heq
      exact Or.inr ⟨by omega, (append_new hp h).2⟩

theorem truncateTo_ok {log log' : RecordLog} {offset : Nat} (h : log.truncateTo offset = .ok log') :
    offset ≤ log.length ∧ log' = log.take offset := by
  unfold truncateTo at h
  split at h
  · cases h
  · cases h; exact ⟨by omega, rfl⟩

end RecordLog

theorem storedFrom_length (base : Nat) (rs : List Record) : (storedFrom base rs).length = rs.length := by
  induction rs generalizing base with
  | nil => rfl
  | cons r rs ih => simp [storedFrom, ih]

theorem storedFrom_append (base : Nat) (rs rs' : List Record) :
    storedFrom base (rs ++ rs') = storedFrom base rs ++ storedFrom (base + rs.length) rs' := by
  induction rs generalizing base with
  | nil => simp [storedFrom]
  | cons r rs ih => simp [storedFrom, ih, Nat.add_assoc, Nat.add_comm 1]

theorem storedFrom_getElem? (base : Nat) (rs : List Record) (i : Nat) :
    (storedFrom base rs)[i]? = (rs[i]?).map (·.at (base + i)) := by
  induction rs generalizing base i with
  | nil => simp [storedFrom]
  | cons r rs ih =>
    cases i with
    | zero => simp [storedFrom]
    | succ i => simp [storedFrom, ih, Nat.add_assoc, Nat.add_comm 1]

theorem storedFrom_toRecord (base : Nat) (rs : List Record) :
    (storedFrom base rs).map StoredRecord.toRecord = rs := by
  induction rs generalizing base with
  | nil => rfl
  | cons r rs ih => simp [storedFrom, ih]

theorem storedFrom_ge {base : Nat} {rs : List Record} {s : StoredRecord}
    (h : s ∈ storedFrom base rs) : base ≤ s.offset := by
  induction rs generalizing base with
  | nil => exact absurd h List.not_mem_nil
  | cons r rs ih =>
    rcases List.mem_cons.1 h with rfl | h
    · exact Nat.le_refl _
    · exact Nat.le_of_succ_le (ih h)

theorem storedFrom_increasing (base : Nat) (rs : List Record) :
    (storedFrom base rs).Pairwise (·.offset < ·.offset) := by
  induction rs generalizing base with
  | nil => exact .nil
  | cons r rs ih =>
    refine List.pairwise_cons.2 ⟨fun s hs => ?_, ih (base + 1)⟩
    exact storedFrom_ge hs

theorem storedFrom_below (base k : Nat) (rs : List Record) :
    (storedFrom base rs).filter (fun s => s.offset < base + k) = storedFrom base (rs.take k) := by
  induction rs generalizing base k with
  | nil => simp [storedFrom]
  | cons r rs ih =>
    cases k with
    | zero =>
      rw [List.take_zero, storedFrom, List.filter_eq_nil_iff]
      intro s hs
      have := storedFrom_ge hs
      simp only [decide_eq_true_eq]
      omega
    | succ k =>
      have hk : base + (k + 1) = base + 1 + k := by omega
      have hpos : (r.at base).offset < base + 1 + k := by rw [Record.at_offset]; omega
      rw [List.take_succ_cons, storedFrom, storedFrom, hk, List.filter_cons,
        if_pos (decide_eq_true hpos), ih]

theorem storedFrom_below_iff (base n : Nat) (rs : List Record) :
    (storedFrom base rs).filter (fun s => s.offset < n) = storedFrom base (rs.take (n - base)) := by
  rcases Nat.le_total base n with hle | hle
  · rw [← storedFrom_below, Nat.add_sub_cancel' hle]
  · rw [Nat.sub_eq_zero_of_le hle, List.take_zero, storedFrom, List.filter_eq_nil_iff]
    intro s hs
    have := storedFrom_ge hs
    simp only [decide_eq_true_eq]
    omega

theorem storedFrom_drop (base k : Nat) (rs : List Record) :
    (storedFrom base rs).drop k = storedFrom (base + k) (rs.drop k) := by
  induction rs generalizing base k with
  | nil => simp [storedFrom]
  | cons r rs ih =>
    cases k with
    | zero => rfl
    | succ k =>
      rw [storedFrom, List.drop_succ_cons, List.drop_succ_cons, ih, Nat.add_assoc, Nat.add_comm 1]

theorem storedFrom_take (base k : Nat) (rs : List Record) :
    (storedFrom base rs).take k = storedFrom base (rs.take k) := by
  induction rs generalizing base k with
  | nil => simp [storedFrom]
  | cons r rs ih =>
    cases k with
    | zero => rfl
    | succ k => rw [storedFrom, List.take_succ_cons, List.take_succ_cons, ih, storedFrom]

/-- What a read leaves below a watermark are records of the log, one after the other from the
requested offset on. -/
theorem RecordLog.read_below {log : RecordLog} {offset maxBytes : Nat} {records : List StoredRecord}
    (h : log.read offset maxBytes = .ok records) (n : Nat) :
    ∃ k, records.filter (·.offset < n) = storedFrom offset ((log.drop offset).take k) := by
  unfold RecordLog.read at h
  split at h
  · cases h
  · cases h
    have hprefix := takeBudget_isPrefix maxBytes ((storedFrom 0 log).drop offset)
    rw [List.prefix_iff_eq_take, storedFrom_drop, Nat.zero_add, storedFrom_take] at hprefix
    rw [storedFrom_drop, Nat.zero_add, hprefix, storedFrom_below_iff, List.take_take]
    exact ⟨_, rfl⟩

end SevlaMq.Storage
