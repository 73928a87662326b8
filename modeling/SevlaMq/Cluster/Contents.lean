import SevlaMq.Cluster.Step

/-!
# What two logs are compared by

A replica stores timestamp, key and value of a record and drops the producer identity, so logs
of different brokers are compared by their contents.

* `contents` — the (timestamp, key, value) list of a log; `InLog` — a record on the wire is the
  record at its offset.
* What each storage command of the handlers does to the contents: `appendInputs_contents`,
  `appendReplica_contents`, `readRecords_inLog`.
-/

set_option autoImplicit false

namespace SevlaMq.Cluster

open SevlaMq.Storage

abbrev Content := UInt64 × Option Bytes × Bytes

def content (r : Record) : Content := (r.timestampMs, r.key, r.value)

def FetchedRecord.content (f : FetchedRecord) : Content := (f.timestampMs, f.key, f.value)

def contents (log : RecordLog) : List Content := log.map Cluster.content

@[simp] theorem contents_length (log : RecordLog) : (contents log).length = log.length :=
  List.length_map _

@[simp] theorem contents_append (log log' : RecordLog) :
    contents (log ++ log') = contents log ++ contents log' := List.map_append

theorem contents_take (log : RecordLog) (n : Nat) : contents (log.take n) = (contents log).take n :=
  List.map_take

@[simp] theorem contents_toRecord (f : FetchedRecord) : contents [f.toRecord] = [f.content] := rfl

theorem contents_isPrefix {log log' : RecordLog} (h : log <+: log') : contents log <+: contents log' :=
  h.map _

/-- The record `f` is what `cs` holds at its offset. -/
def InLog (cs : List Content) (f : FetchedRecord) : Prop := cs[f.offset]? = some f.content

theorem InLog.mono {cs cs' : List Content} {f : FetchedRecord} (h : InLog cs f) (hp : cs <+: cs') :
    InLog cs' f := by
  obtain ⟨rest, rfl⟩ := hp
  obtain ⟨hlt, _⟩ := List.getElem?_eq_some_iff.1 h
  unfold InLog
  rw [List.getElem?_append_left hlt]
  exact h

theorem InLog.lt {cs : List Content} {f : FetchedRecord} (h : InLog cs f) : f.offset < cs.length :=
  (List.getElem?_eq_some_iff.1 h).1

theorem inLog_fetched {log : RecordLog} {r : Record} {offset : Nat} (h : log[offset]? = some r) :
    InLog (contents log) (fetched r offset) := by
  unfold InLog contents fetched
  rw [List.getElem?_map, h]
  rfl

/-- A prefix of `cs` that is extended by the record `cs` has there stays a prefix. -/
theorem InLog.extends {cs cs' : List Content} {f : FetchedRecord} (h : InLog cs' f)
    (hp : cs <+: cs') (ho : f.offset = cs.length) : cs ++ [f.content] <+: cs' := by
  obtain ⟨rest, rfl⟩ := hp
  unfold InLog at h
  rw [ho, List.getElem?_append_right (Nat.le_refl _), Nat.sub_self] at h
  cases rest with
  | nil => cases h
  | cons c rest =>
    cases h
    exact ⟨rest, by simp⟩

/-! ## Storage commands -/

/-- `append_record` only adds records at the end, also when a later input is rejected. -/
theorem appendInputs_isPrefix : ∀ {inputs : List (ProduceInput × UInt64)} {log log' : RecordLog}
    {res : Except StorageError (List Nat)}, appendInputs log inputs = (res, log') → log <+: log'
  | [], log, log', res, h => by cases h; exact List.prefix_rfl
  | (i, ts) :: rest, log, log', res, h => by
    unfold appendInputs at h
    split at h
    · cases h; exact List.prefix_rfl
    · rename_i offset log₁ ha
      have h1 : log <+: log₁ := by
        obtain rfl | ⟨_, rfl⟩ := RecordLog.append_cases ha
        · exact List.prefix_rfl
        · exact List.prefix_append _ _
      split at h
      · rename_i hrest
        cases h; exact h1.trans (appendInputs_isPrefix hrest)
      · rename_i hrest
        cases h; exact h1.trans (appendInputs_isPrefix hrest)

/-- A stored replica record was there, or is added at the end. -/
theorem appendReplica_contents {log log' : RecordLog} {f : FetchedRecord} {offset : Nat}
    (h : log.appendReplica f.offset f.toRecord = .ok (offset, log')) :
    log' = log ∨ (f.offset = log.length ∧ log' = log ++ [f.toRecord]) := by
  obtain ⟨rfl, _⟩ | h := RecordLog.appendReplica_cases rfl h
  · exact Or.inl rfl
  · exact Or.inr h

/-- After a successful store the log reaches beyond the record. -/
theorem appendReplica_lt {log log' : RecordLog} {f : FetchedRecord} {offset : Nat}
    (h : log.appendReplica f.offset f.toRecord = .ok (offset, log')) : f.offset < log'.length := by
  obtain ⟨rfl, _, he, _⟩ | ⟨ho, rfl⟩ := RecordLog.appendReplica_cases rfl h
  · exact (List.getElem?_eq_some_iff.1 he).1
  · rw [List.length_append, ho]; exact Nat.lt_succ_self _

/-- Storing a record of `cs` on a prefix of `cs` leaves a prefix of `cs`. -/
theorem appendReplica_within {log log' : RecordLog} {f : FetchedRecord} {offset : Nat}
    {cs : List Content} (h : log.appendReplica f.offset f.toRecord = .ok (offset, log'))
    (hp : contents log <+: cs) (hf : InLog cs f) : contents log' <+: cs := by
  obtain rfl | ⟨ho, rfl⟩ := appendReplica_contents h
  · exact hp
  · rw [contents_append, contents_toRecord]
    exact hf.extends hp (by rw [contents_length]; exact ho)

theorem appendReplica_grows {log log' : RecordLog} {f : FetchedRecord} {offset : Nat}
    (h : log.appendReplica f.offset f.toRecord = .ok (offset, log')) : log <+: log' := by
  obtain rfl | ⟨_, rfl⟩ := appendReplica_contents h
  · exact List.prefix_rfl
  · exact List.prefix_append _ _

/-- What a read returns lies in the log. -/
theorem readRecords_inLog {log : RecordLog} {offset maxBytes : Nat} {records : List FetchedRecord}
    (h : readRecords log offset maxBytes = some records) :
    ∀ f ∈ records, InLog (contents log) f := by
  intro f hf
  unfold readRecords at h
  split at h
  · cases h
  · rename_i stored hs
    cases h
    obtain ⟨st, hst, rfl⟩ := List.mem_map.1 hf
    unfold RecordLog.read at hs
    split at hs
    · cases hs
    · cases hs
      have hmem := List.mem_of_mem_drop ((takeBudget_isPrefix _ _).subset hst)
      obtain ⟨i, hi⟩ := List.mem_iff_getElem?.1 hmem
      rw [storedFrom_getElem?] at hi
      obtain ⟨r, hr, rfl⟩ := Option.map_eq_some_iff.1 hi
      have := inLog_fetched hr
      simpa [fetched, Record.at, StoredRecord.toRecord] using this

end SevlaMq.Cluster
