import SevlaMq.Storage.Retention

/-!
# Idempotent producers

The table of producer sequences is kept by `append`, rebuilt through `append` by `truncate_to` and
rebuilt by the recovery of `open`.

* `producedBy` — sequences and offsets of the records of one producer.
* `storeAll_producedBy` — the table holds the last of them; `sequenced_producedBy` — the sequences
  are consecutive.
* `Idempotent` — what a further append of a producer does, for each sequence it may carry.
* `producers_idempotent` — it does that after any run of appends, truncations and reopenings.
-/

set_option autoImplicit false

namespace SevlaMq.Storage

/-! ## The records of one producer -/

/-- Sequence and offset of a record of the producer. -/
def sequenceOf (id : String) (s : StoredRecord) : Option (UInt64 × Nat) :=
  match s.producer with
  | some p => if p.id = id then some (p.sequence, s.offset) else none
  | none => none

def producedBy (id : String) (stored : List StoredRecord) : List (UInt64 × Nat) :=
  stored.filterMap (sequenceOf id)

/-- The sequence the table expects next. -/
def expectedSequence (t : ProducerTable) (id : String) : Nat :=
  match t id with
  | some (sequence, _) => sequence.toNat + 1
  | none => 0

theorem saturatingSucc_toNat {s : UInt64} (h : s.toNat + 1 < 2 ^ 64) :
    (saturatingSucc s).toNat = s.toNat + 1 := by
  unfold saturatingSucc
  rw [if_pos h, UInt64.toNat_add]
  simp only [UInt64.toNat_one]
  exact Nat.mod_eq_of_lt h

/-- An accepted record carries the expected sequence. -/
theorem admission_sequence {t : ProducerTable} {r : Record} {p : ProducerIdentity}
    (h : admission t r = .ok none) (hp : r.producer = some p) :
    p.sequence.toNat = expectedSequence t p.id := by
  unfold admission at h
  simp only [hp] at h
  split at h
  · cases h
  · split at h
    · rename_i sequence offset ht
      split at h
      · cases h
      · rename_i hrepeated
        split at h
        · cases h
        · rename_i hnext
          have hsucc : p.sequence = saturatingSucc sequence := not_not.1 hnext
          have hlt : sequence.toNat + 1 < 2 ^ 64 := by
            by_contra hlast
            -- at the last sequence the next one is the repeated one
            rw [hsucc, saturatingSucc, if_neg hlast] at hrepeated
            exact hrepeated rfl
          rw [hsucc, saturatingSucc_toNat hlt, expectedSequence, ht]
    · rename_i ht
      split at h
      · cases h
      · rename_i hzero
        rw [not_not.1 hzero, expectedSequence, ht]
        rfl

theorem store_other {t : ProducerTable} {r : Record} {offset : Nat} {id : String}
    (h : sequenceOf id (r.at offset) = none) : t.store r offset id = t id := by
  unfold sequenceOf at h
  unfold ProducerTable.store
  simp only [Record.at] at h
  split at h
  · rename_i p hp
    split at h
    · cases h
    · rename_i hne
      rw [hp]
      simp only [ProducerTable.insert]
      rw [if_neg (Ne.symm hne)]
  · rename_i hp
    rw [hp]

theorem store_self {t : ProducerTable} {r : Record} {offset : Nat} {id : String}
    {x : UInt64 × Nat} (h : sequenceOf id (r.at offset) = some x) :
    t.store r offset id = some x ∧ ∃ p, r.producer = some p ∧ p.id = id ∧ x.1 = p.sequence := by
  unfold sequenceOf at h
  unfold ProducerTable.store
  simp only [Record.at] at h
  split at h
  · rename_i p hp
    split at h
    · rename_i heq
      cases h
      rw [hp]
      refine ⟨?_, p, rfl, heq, rfl⟩
      simp [ProducerTable.insert, heq]
    · cases h
  · cases h

/-- The table holds the last record of each producer. -/
theorem storeAll_producedBy (t : ProducerTable) (offset : Nat) (rs : List Record) (id : String) :
    t.storeAll offset rs id = ((producedBy id (storedFrom offset rs)).getLast?).or (t id) := by
  induction rs generalizing t offset with
  | nil => rfl
  | cons r rs ih =>
    rw [ProducerTable.storeAll, ih, storedFrom]
    unfold producedBy
    cases hseq : sequenceOf id (r.at offset) with
    | none => rw [List.filterMap_cons_none hseq, store_other hseq]
    | some x =>
      rw [List.filterMap_cons_some hseq, (store_self hseq).1, List.getLast?_cons]
      cases (List.filterMap (sequenceOf id) (storedFrom (offset + 1) rs)).getLast? <;> rfl

/-- **The sequences of a producer are consecutive.** -/
theorem sequenced_producedBy {t : ProducerTable} {offset : Nat} {rs : List Record}
    (h : Sequenced t offset rs) (id : String) :
    (producedBy id (storedFrom offset rs)).map (fun x => x.1.toNat) =
      List.range' (expectedSequence t id) (producedBy id (storedFrom offset rs)).length := by
  induction rs generalizing t offset with
  | nil => rfl
  | cons r rs ih =>
    have hrest := ih h.2
    rw [storedFrom]
    unfold producedBy at hrest ⊢
    cases hseq : sequenceOf id (r.at offset) with
    | none =>
      rw [List.filterMap_cons_none hseq, hrest]
      simp only [expectedSequence, store_other hseq]
    | some x =>
      obtain ⟨hstore, p, hp, rfl, hx⟩ := store_self (t := t) hseq
      rw [List.filterMap_cons_some hseq, List.map_cons, hrest, List.length_cons, List.range'_succ]
      have hfirst := admission_sequence h.1.1 hp
      have hnext : expectedSequence (t.store r offset) p.id = expectedSequence t p.id + 1 := by
        rw [← hfirst, ← hx]
        simp only [expectedSequence, hstore]
      rw [hnext, hx, hfirst]

/-- The table of a list of records that was accepted. -/
theorem producerState_spec {records : RecordLog} (h : Sequenced .empty 0 records) (id : String) :
    expectedSequence records.producerState id = (producedBy id (storedFrom 0 records)).length ∧
    records.producerState id = (producedBy id (storedFrom 0 records)).getLast? := by
  have htable := storeAll_producedBy .empty 0 records id
  have hseqs := sequenced_producedBy h id
  rw [show ProducerTable.empty id = none from rfl, Option.or_none] at htable
  refine ⟨?_, htable⟩
  rw [show expectedSequence .empty id = 0 from rfl] at hseqs
  unfold expectedSequence RecordLog.producerState
  rw [htable]
  cases hlast : (producedBy id (storedFrom 0 records)).getLast? with
  | none =>
    rw [List.getLast?_eq_none_iff.1 hlast]
    rfl
  | some x =>
    -- the last of the sequences `0, 1, …` is one less than their number
    obtain ⟨front, hfront⟩ := List.getLast?_eq_some_iff.1 hlast
    have hmap := congrArg List.getLast? hseqs
    rw [hfront] at hmap ⊢
    simp only [List.map_append, List.map_cons, List.map_nil, List.getLast?_concat,
      List.length_append, List.length_singleton] at hmap
    rw [List.range'_1_concat] at hmap
    simp only [List.getLast?_concat, Option.some.injEq] at hmap
    simp only [List.length_append, List.length_singleton]
    omega

/-- The decision on a record of a producer, for each sequence it may carry. -/
theorem admission_spec {t : ProducerTable} {r : Record} {id : String} {sequence : UInt64}
    (hp : r.producer = some ⟨id, sequence⟩) (hid : validateProducerId id = .ok ())
    (hlt : expectedSequence t id < 2 ^ 64) :
    (sequence.toNat = expectedSequence t id → admission t r = .ok none) ∧
    (sequence.toNat + 1 = expectedSequence t id →
      ∃ offset, t id = some (sequence, offset) ∧ admission t r = .ok (some offset)) ∧
    (sequence.toNat ≠ expectedSequence t id → sequence.toNat + 1 ≠ expectedSequence t id →
      admission t r = .error (.unexpectedProducerSequence id
        (UInt64.ofNat (expectedSequence t id)) sequence)) := by
  unfold admission expectedSequence at *
  simp only [hp, hid]
  cases ht : t id with
  | none =>
    simp only [ht] at hlt ⊢
    refine ⟨?_, ?_, ?_⟩
    · intro hzero
      rw [if_neg]
      exact not_not.2 (UInt64.toNat_inj.1 hzero)
    · intro hno
      omega
    · intro hne _
      rw [if_pos]
      · rfl
      · intro hzero
        rw [hzero] at hne
        exact hne rfl
  | some x =>
    obtain ⟨s, offset⟩ := x
    simp only [ht] at hlt ⊢
    have hsucc : saturatingSucc s = UInt64.ofNat (s.toNat + 1) := by
      apply UInt64.toNat_inj.1
      rw [saturatingSucc_toNat hlt, UInt64.toNat_ofNat_of_lt' hlt]
    refine ⟨?_, ?_, ?_⟩
    · intro hnext
      have hne : s ≠ sequence := by
        rintro rfl
        omega
      have heq : sequence = saturatingSucc s := by
        apply UInt64.toNat_inj.1
        rw [hnext, saturatingSucc_toNat hlt]
      rw [if_neg hne, if_neg (not_not.2 heq)]
    · intro hrepeated
      have heq : s = sequence := UInt64.toNat_inj.1 (by omega)
      subst heq
      exact ⟨offset, rfl, if_pos rfl⟩
    · intro hnext hrepeated
      have hne : s ≠ sequence := by
        rintro rfl
        exact hrepeated rfl
      have hne' : sequence ≠ saturatingSucc s := by
        intro heq
        rw [heq, saturatingSucc_toNat hlt] at hnext
        exact hnext rfl
      rw [if_neg hne, if_pos hne', hsucc]

/-! ## Appending to a log -/

theorem storedFrom_offsets (base : Nat) (rs : List Record) :
    (storedFrom base rs).map (·.offset) = List.range' base rs.length := by
  induction rs generalizing base with
  | nil => rfl
  | cons r rs ih => simp [storedFrom, ih, List.range'_succ]

section Idempotence

variable [Checksum]

/-- What an append of a record with sequence `sequence` does when the producer has stored the
sequences below `n`: the next sequence is appended, the last one is answered with the offset it
has, and every other one is refused. -/
structure Outcome (log : PartitionLog) (stored : List StoredRecord) (id : String) (n : Nat)
    (r : Record) (sequence : UInt64) : Prop where
  next : sequence.toNat = n → log.nextOffset < U64_MAX → (log.append r).1 ≠ .error .io →
    (log.append r).1 = .ok log.nextOffset ∧
    (log.append r).2.read 0 USIZE_MAX = .ok (stored ++ [r.at log.nextOffset])
  repeated : sequence.toNat + 1 = n → ∃ offset, (sequence, offset) ∈ producedBy id stored ∧
    log.append r = (.ok offset, log)
  other : sequence.toNat ≠ n → sequence.toNat + 1 ≠ n →
    log.append r = (.error (.unexpectedProducerSequence id (UInt64.ofNat n) sequence), log)

/-- The records of every producer carry the sequences from 0 on, in the order of the offsets, and
appends are idempotent. -/
def Idempotent (log : PartitionLog) : Prop :=
  ∃ stored, log.read 0 USIZE_MAX = .ok stored ∧
    stored.map (·.offset) = List.range log.nextOffset ∧
    ∀ id, validateProducerId id = .ok () → ∃ n,
      (producedBy id stored).map (fun x => x.1.toNat) = List.range n ∧
      ∀ r sequence, r.producer = some ⟨id, sequence⟩ → checkRecord r = .ok () →
        Outcome log stored id n r sequence

variable {interval : Nat} {log log' : PartitionLog} {records : RecordLog}

theorem Refines.read_all (h : Refines interval log records) :
    log.read 0 USIZE_MAX = .ok (storedFrom 0 records) := by
  rw [h.read, RecordLog.read, if_neg (by decide), takeBudget_all, List.drop_zero]

/-- **A log without retention is idempotent.** -/
theorem Refines.idempotent (h : Refines interval log records) : Idempotent log := by
  have hread := h.read_all
  have hnext := h.nextOffset
  have htable := h.producerState
  obtain ⟨chunks, last, hrep, rfl⟩ := h
  refine ⟨_, hread, ?_, ?_⟩
  · rw [storedFrom_offsets, hnext, List.range_eq_range']
  · intro id hid
    obtain ⟨hexpected, hlast⟩ := producerState_spec hrep.sequenced id
    have hseqs := sequenced_producedBy hrep.sequenced id
    refine ⟨_, by rw [hseqs, List.range_eq_range']; rfl, ?_⟩
    intro r sequence hp hc
    have hlt : expectedSequence log.producerState id < 2 ^ 64 := by
      have hle : (producedBy id (storedFrom 0 (history [] chunks last))).length ≤
          (storedFrom 0 (history [] chunks last)).length := List.length_filterMap_le _ _
      have hbound := hrep.bound
      rw [storedFrom_length, ← hnext] at hle
      rw [htable, hexpected]
      simp only [U64_MAX] at hbound
      omega
    obtain ⟨hok, hdup, hrej⟩ := admission_spec hp hid hlt
    rw [htable, hexpected] at hok hdup hrej
    rw [← htable] at hok hdup hrej
    refine ⟨?_, ?_, ?_⟩
    · intro heq hfits hio
      obtain ⟨hres, chunks', last', hhist, hrep'⟩ := hrep.append_stored (hok heq) hc hfits hio
      refine ⟨hres, ?_⟩
      have hrefines : Refines interval (log.append r).2 (history [] chunks last ++ [r]) :=
        ⟨chunks', last', hrep', hhist⟩
      rw [hrefines.read_all, storedFrom_append, Nat.zero_add, ← hnext]
      rfl
    · intro heq
      obtain ⟨offset, hentry, hadm⟩ := hdup heq
      refine ⟨offset, ?_, ?_⟩
      · rw [htable, hlast] at hentry
        exact List.mem_of_getLast? hentry
      · simp only [PartitionLog.append, hadm]
    · intro hne hne'
      simp only [PartitionLog.append, hrej hne hne']

/-! ## Runs with reopening -/

/-- An operation, or dropping the log and opening its directory again. -/
inductive Action where
  | perform (op : Operation)
  | reopen (maxSegmentBytes interval : Nat)

def Action.retains : Action → Bool
  | .perform op => op.retains
  | .reopen _ _ => false

/-- One action on the log of a partition of `topic`. -/
def PartitionLog.act (topic : String) (log : PartitionLog) : Action → Option PartitionLog
  | .perform op => log.step op
  | .reopen maxSegmentBytes interval =>
    (PartitionLog.openLog log.dir topic maxSegmentBytes interval).toOption

/-- There is room for one more offset. -/
def ActCountable (log : PartitionLog) : Action → Prop
  | .perform _ => log.nextOffset < U64_MAX
  | .reopen _ _ => True

instance (log : PartitionLog) (a : Action) : Decidable (ActCountable log a) :=
  match a with
  | .perform _ => inferInstanceAs (Decidable (log.nextOffset < U64_MAX))
  | .reopen _ _ => isTrue trivial

/-- The directory of a log without retention can be opened, with any settings. -/
theorem Refines.reopen {topic : String} {maxSegmentBytes interval' : Nat}
    (h : Refines interval log records) (hset : Settings topic maxSegmentBytes interval') :
    ∃ log', PartitionLog.openLog log.dir topic maxSegmentBytes interval' = .ok log' ∧
      Refines interval' log' records := by
  obtain ⟨chunks, last, hrep, hhist⟩ := h
  have hbound := hrep.bound
  rw [hrep.nextOffset] at hbound
  obtain ⟨log', hopen, hrep'⟩ :=
    openLog_laid hset hrep.laid rfl hrep.closed (List.Perm.refl _) hrep.sequenced hbound
  exact ⟨log', hopen, chunks, last, hrep', hhist⟩

theorem Refines.act {topic : String} {a : Action} (h : Refines interval log records)
    (hret : a.retains = false) (hb : ActCountable log a)
    (hs : log.act topic a = some log') :
    ∃ interval' records', Refines interval' log' records' := by
  cases a with
  | perform op =>
    obtain ⟨chunks, last, hrep, _⟩ := h
    obtain ⟨removed', chunks', last', hrep', hkeep⟩ := hrep.step hb (fun _ => rfl) hs
    obtain ⟨rfl, _⟩ := hkeep hret
    exact ⟨interval, _, chunks', last', hrep', rfl⟩
  | reopen maxSegmentBytes interval' =>
    simp only [PartitionLog.act] at hs
    cases hopen : PartitionLog.openLog log.dir topic maxSegmentBytes interval' with
    | error e =>
      rw [hopen] at hs
      cases hs
    | ok log₁ =>
      rw [hopen] at hs
      cases hs
      obtain ⟨log₂, hopen₂, href⟩ := h.reopen (openLog_settings hopen)
      rw [hopen] at hopen₂
      cases hopen₂
      exact ⟨interval', records, href⟩

/-- **Idempotent producers.**  After any run of appends, truncations, syncs and reopenings without
retention, appends are idempotent, and the directory can be opened again. -/
theorem producers_idempotent {topic : String} {maxSegmentBytes interval : Nat}
    {log₀ log : PartitionLog} {acts : List Action}
    (h₀ : PartitionLog.openLog Dir.empty topic maxSegmentBytes interval = .ok log₀)
    (hacts : ∀ a ∈ acts, a.retains = false)
    (hfew : Along (PartitionLog.act topic) ActCountable log₀ acts)
    (hr : run (PartitionLog.act topic) log₀ acts = some log) :
    Idempotent log ∧ ∃ log', PartitionLog.openLog log.dir topic maxSegmentBytes interval =
      .ok log' := by
  have hnew : ∃ interval records, Refines interval log₀ records :=
    ⟨interval, [], [], [], openLog_empty h₀, rfl⟩
  have hkeep : Along (PartitionLog.act topic) (fun _ a => a.retains = false) log₀ acts :=
    Along.of_mem hacts
  obtain ⟨interval', records, href⟩ := run_invariant
    (P := fun log => ∃ interval records, Refines interval log records)
    (fun log a log' hp hq hs => by
      obtain ⟨i, recs, href⟩ := hp
      exact href.act hq.2 hq.1 hs) hnew (hfew.and hkeep) hr
  obtain ⟨log', hopen, _⟩ := href.reopen (openLog_settings h₀)
  exact ⟨href.idempotent, log', hopen⟩

end Idempotence

/-- Two records of a producer, of which the second one is cut off, and a reopening with smaller
segments; the producer then repeats its first record. -/
def reopeningRun : List Action :=
  [.perform (.append ⟨none, utf8 "zero", 1, some ⟨"p", 0⟩⟩),
    .perform (.append ⟨none, utf8 "other", 1, none⟩),
    .perform (.append ⟨none, utf8 "one", 1, some ⟨"p", 1⟩⟩), .perform (.truncateTo 2),
    .reopen 60 64, .perform (.append ⟨none, utf8 "zero", 2, some ⟨"p", 0⟩⟩)]

theorem producers_idempotent_reopening :
    letI := Checksum.crc32
    ∃ log₀ log, PartitionLog.openLog Dir.empty "payments" 1024 64 = .ok log₀ ∧
      run (PartitionLog.act "payments") log₀ reopeningRun = some log ∧ log.nextOffset = 2 ∧
      Idempotent log := by
  let _ := Checksum.crc32
  have hrun : (run (PartitionLog.act "payments") ⟨0, 1024, 64, [.new 0], .empty⟩
      reopeningRun).any (fun log => log.nextOffset = 2) := by decide +kernel
  obtain ⟨log, hr, hnext⟩ := (Option.any_eq_true _ _).1 hrun
  have hfew : Along (PartitionLog.act "payments") ActCountable ⟨0, 1024, 64, [.new 0], .empty⟩
      reopeningRun := by decide +kernel
  exact ⟨_, log, rfl, hr, of_decide_eq_true hnext,
    (@producers_idempotent _ "payments" 1024 64 _ _ _ rfl (by decide) hfew hr).1⟩

end SevlaMq.Storage
