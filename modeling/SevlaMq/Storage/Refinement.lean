import SevlaMq.Storage.Layout

/-!
# The segmented log behaves like a list of records

* `Rep` — the representation invariant: the log once held the records `removed`, and holds the
  chunks `chunks` in its closed segments and `last` in the active one.
* `Rep.append`, `Rep.appendReplica`, `Rep.truncateTo`, `Rep.read` — the operations return what
  those of `RecordLog` return for the history of the log, and keep the representation.
* `Rep.applyRetention` — retention moves chunks from the front of the log to `removed`.
* `Refines`, `Refines.of_run` — without retention, a run of the log is a run of a list of records.
-/

set_option autoImplicit false

namespace SevlaMq.Storage

/-! ## Files and segments -/

theorem File.writeAll_ok {f f' : File} {data : Bytes} (h : f.writeAll data = .ok f') :
    f.bytes.length + data.length ≤ MAX_FILE_SIZE ∧ f' = { f with bytes := f.bytes ++ data } := by
  unfold File.writeAll at h
  split at h
  · cases h
  · cases h; exact ⟨by omega, rfl⟩

theorem File.writeAll_error {f : File} {data : Bytes} {e : StorageError}
    (h : f.writeAll data = .error e) : e = .io := by
  unfold File.writeAll at h
  split at h
  · cases h; rfl
  · cases h

namespace SegmentMetadata

theorem write_ok {s w : SegmentMetadata} {interval offset : Nat} {encoded : Bytes}
    (h : s.write interval offset encoded = .ok w) :
    w.baseOffset = s.baseOffset ∧ w.len = s.len + encoded.length ∧
      w.index = indexRecord interval s.index offset s.len ∧
      w.file = { s.file with bytes := s.file.bytes ++ encoded } := by
  unfold write at h
  split at h
  · cases h
  · split at h
    · cases h
    · rename_i file hf
      split at h
      · cases h
      · cases h
        exact ⟨rfl, rfl, rfl, (File.writeAll_ok hf).2⟩

/-- A write extends both files and syncs neither. -/
theorem write_files {s w : SegmentMetadata} {interval offset : Nat} {encoded : Bytes}
    (h : s.write interval offset encoded = .ok w) :
    w.file.synced = s.file.synced ∧ s.file.bytes <+: w.file.bytes ∧
      w.indexFile.synced = s.indexFile.synced ∧ s.indexFile.bytes <+: w.indexFile.bytes := by
  have hfile := (write_ok h).2.2.2
  rw [hfile]
  refine ⟨rfl, List.prefix_append _ _, ?_⟩
  unfold write at h
  split at h
  · cases h
  · rename_i indexFile hi
    have hindex : w.indexFile = indexFile := by
      split at h
      · cases h
      · split at h <;> cases h
        rfl
    rw [hindex]
    unfold writeIndex at hi
    split at hi
    · rw [(File.writeAll_ok hi).2]
      exact ⟨rfl, List.prefix_append _ _⟩
    · cases hi
      exact ⟨rfl, List.prefix_rfl⟩

/-- Only a failed write keeps a record out of a segment whose length is that of its file. -/
theorem write_error {s : SegmentMetadata} {interval offset : Nat} {encoded : Bytes}
    {e : StorageError} (hlen : s.len = s.file.bytes.length)
    (h : s.write interval offset encoded = .error e) : e = .io := by
  unfold write at h
  split at h
  · rename_i hi
    cases h
    unfold writeIndex at hi
    split at hi
    · exact File.writeAll_error hi
    · cases hi
  · split at h
    · rename_i hf
      cases h
      exact File.writeAll_error hf
    · rename_i file hf
      split at h
      · rename_i hover
        have hfit := (File.writeAll_ok hf).1
        simp only [U64_MAX, MAX_FILE_SIZE] at hover hfit
        omega
      · cases h

end SegmentMetadata

namespace PartitionLog

/-- Where a record of `n` bytes goes: the closed segments and the segment it is written to. -/
def target (log : PartitionLog) (closed : List SegmentMetadata) (active : SegmentMetadata)
    (n : Nat) : List SegmentMetadata × SegmentMetadata :=
  if log.full active n then (closed ++ [active], .new log.nextOffset) else (closed, active)

theorem store_ok {log : PartitionLog} {r : Record} {encoded : Bytes}
    {closed : List SegmentMetadata} {active : SegmentMetadata}
    (hs : log.segments = closed ++ [active]) (hlen : active.len = active.file.bytes.length)
    (hb : log.nextOffset < U64_MAX) (hio : (log.store r encoded).1 ≠ .error .io) :
    ∃ w, active.write log.indexIntervalBytes log.nextOffset encoded = .ok w ∧
      log.store r encoded = (.ok log.nextOffset, { log with
        nextOffset := log.nextOffset + 1
        segments := closed ++ [w]
        producerState := log.producerState.store r log.nextOffset }) := by
  have hlast : log.segments.getLast? = some active := by rw [hs, List.getLast?_concat]
  have hover : ¬ U64_MAX < log.nextOffset + 1 := by omega
  unfold store at hio ⊢
  simp only [hlast] at hio ⊢
  cases hw : active.write log.indexIntervalBytes log.nextOffset encoded with
  | error e =>
    rw [hw, SegmentMetadata.write_error hlen hw] at hio
    exact absurd rfl hio
  | ok w =>
    refine ⟨w, rfl, ?_⟩
    simp only [setActive, hs, List.dropLast_concat]
    rw [if_neg hover]

theorem rotate_cases (log : PartitionLog) :
    (log.segments.any (·.baseOffset = log.nextOffset) ∧ log.rotate = .error .io) ∨
    (log.segments.any (·.baseOffset = log.nextOffset) = false ∧
      log.rotate = .ok { log with segments := log.segments ++ [.new log.nextOffset] }) := by
  unfold rotate createSegment
  cases log.segments.any (·.baseOffset = log.nextOffset) with
  | true => exact Or.inl ⟨rfl, rfl⟩
  | false => exact Or.inr ⟨rfl, rfl⟩

/-- Making room changes the segments only. -/
theorem makeRoom_ok {log log' : PartitionLog} {n : Nat} (h : log.makeRoom n = .ok log') :
    ∃ segments, log' = { log with segments } := by
  unfold makeRoom at h
  split at h
  · cases h
  · split at h
    · obtain ⟨_, hrot⟩ | ⟨_, hrot⟩ := log.rotate_cases
      · rw [hrot] at h
        cases h
      · rw [hrot] at h
        cases h
        exact ⟨_, rfl⟩
    · cases h
      exact ⟨log.segments, rfl⟩

theorem store_frame (log : PartitionLog) (r : Record) (encoded : Bytes) :
    (log.store r encoded).2.cleared = log.cleared ∧
      (log.store r encoded).2.nextOffset ≤ log.nextOffset + 1 := by
  unfold store
  split
  · exact ⟨rfl, Nat.le_succ _⟩
  · split
    · exact ⟨rfl, Nat.le_succ _⟩
    · dsimp only
      split
      · exact ⟨rfl, Nat.le_succ _⟩
      · exact ⟨rfl, Nat.le_refl _⟩

/-- An append keeps the settings of the log and stores at most one record. -/
theorem append_frame [Checksum] (log : PartitionLog) (r : Record) :
    (log.append r).2.cleared = log.cleared ∧ (log.append r).2.nextOffset ≤ log.nextOffset + 1 := by
  unfold append
  split
  · exact ⟨rfl, Nat.le_succ _⟩
  · exact ⟨rfl, Nat.le_succ _⟩
  · split
    · exact ⟨rfl, Nat.le_succ _⟩
    · split
      · exact ⟨rfl, Nat.le_succ _⟩
      · rename_i log' hroom
        obtain ⟨segments, rfl⟩ := makeRoom_ok hroom
        exact store_frame _ _ _

theorem syncData_eq {log : PartitionLog} {closed : List SegmentMetadata} {active : SegmentMetadata}
    (hs : log.segments = closed ++ [active]) :
    log.syncData = { log with segments := closed ++ [{ active with
      file := active.file.syncData, indexFile := active.indexFile.syncData }] } := by
  have hlast : log.segments.getLast? = some active := by rw [hs, List.getLast?_concat]
  rw [syncData, hlast]
  simp only [setActive, hs, List.dropLast_concat]

/-- Retention drops segments from the front and keeps the last one. -/
theorem retain_drop (maxBytes maxAge : Option Nat) (elapsed : Nat → Option Nat) (total : Nat)
    (segments : List SegmentMetadata) :
    ∃ k, retain maxBytes maxAge elapsed total segments = (k, segments.drop k) ∧
      (segments ≠ [] → k < segments.length) := by
  induction segments generalizing total with
  | nil => exact ⟨0, rfl, fun h => absurd rfl h⟩
  | cons s rest ih =>
    cases rest with
    | nil => exact ⟨0, rfl, fun _ => Nat.one_pos⟩
    | cons next rest =>
      rw [retain]
      split
      · obtain ⟨k, hk, hlt⟩ := ih (total - s.len)
        rw [hk]
        exact ⟨k + 1, rfl, fun _ => Nat.succ_lt_succ (hlt (List.cons_ne_nil _ _))⟩
      · exact ⟨0, rfl, fun _ => Nat.succ_pos _⟩

end PartitionLog

theorem mapUnit_error {res : Except StorageError Nat}
    (h : res.map (fun _ => ()) ≠ .error .io) : res ≠ .error .io := by
  rintro rfl
  exact h rfl

/-! ## The representation invariant -/

variable [Checksum]

/-- All records a log was given, those that retention has removed included. -/
def history (removed : List Record) (chunks : List (List Record)) (last : List Record) :
    RecordLog :=
  removed ++ (chunks.flatten ++ last)

structure Rep (interval : Nat) (log : PartitionLog) (removed : List Record)
    (chunks : List (List Record)) (last : List Record) : Prop where
  indexInterval : log.indexIntervalBytes = interval
  segments : Covers interval removed.length (chunks ++ [last]) log.segments
  closed : ∀ rs ∈ chunks, rs ≠ []
  nextOffset : log.nextOffset = (history removed chunks last).length
  sequenced : Sequenced .empty 0 (history removed chunks last)
  producerState : log.producerState = (history removed chunks last).producerState
  bound : log.nextOffset ≤ U64_MAX

namespace Rep

variable {interval : Nat} {log : PartitionLog} {removed : List Record}
  {chunks : List (List Record)} {last : List Record}

theorem checked (h : Rep interval log removed chunks last) :
    ∀ r ∈ chunks.flatten ++ last, checkRecord r = .ok () :=
  fun r hr => h.sequenced.checked r (List.mem_append_right _ hr)

theorem nextOffset_eq (h : Rep interval log removed chunks last) :
    log.nextOffset = removed.length + (chunks.flatten ++ last).length := by
  rw [h.nextOffset, history, List.length_append]

/-- **A read is a scan of the records held.** -/
theorem read (h : Rep interval log removed chunks last) (offset maxBytes : Nat) :
    log.read offset maxBytes = if maxBytes = 0 then .error .invalidReadLimit else
      .ok (takeBudget maxBytes (fromOffset offset
        (storedFrom removed.length (chunks.flatten ++ last)))) := by
  have hflat : (chunks ++ [last]).flatten = chunks.flatten ++ last := by simp
  have hread := @readSegments_covers _ offset maxBytes _ _ _ _ h.segments
    (by rw [hflat]; exact h.checked) (by rw [hflat, ← h.nextOffset_eq]; exact h.bound) [] 0
  rw [PartitionLog.read, hread, hflat, collect_budget]

end Rep

/-! ## Appending -/

theorem Holds.len_eq {interval base : Nat} {rs : List Record} {s : SegmentMetadata}
    (h : Holds interval base rs s) : s.len = s.file.bytes.length := by
  rw [h.bytes, segmentBytes_length, h.len]

theorem Holds.extend {interval base : Nat} {rs : List Record} {r : Record} {s w : SegmentMetadata}
    (h : Holds interval base rs s) (hbase : w.baseOffset = s.baseOffset)
    (hbytes : w.file.bytes = s.file.bytes ++ recordBytes r (base + rs.length))
    (hlen : w.len = s.len + encodedSize r)
    (hindex : w.index = indexRecord interval s.index (base + rs.length) s.len) :
    Holds interval base (rs ++ [r]) w := by
  refine ⟨hbase.trans h.baseOffset, ?_, ?_, ?_⟩
  · rw [hbytes, segmentBytes_append, ← h.bytes]
    simp [segmentBytes_cons]
  · rw [hlen, h.len]
    simp [totalSize]
  · rw [hindex, h.index, h.len, sparseIndex, sparseIndex, indexAll_concat, Nat.zero_add]

theorem Holds.write {interval base : Nat} {rs : List Record} {r : Record} {s w : SegmentMetadata}
    (h : Holds interval base rs s)
    (hw : s.write interval (base + rs.length) (recordBytes r (base + rs.length)) = .ok w) :
    Holds interval base (rs ++ [r]) w := by
  obtain ⟨hbase, hlen, hindex, hfile⟩ := SegmentMetadata.write_ok hw
  refine h.extend hbase ?_ ?_ hindex
  · rw [hfile]
  · rw [hlen, recordBytes_length]

namespace PartitionLog

/-- A record that is accepted is written to its target, unless a file operation fails. -/
theorem append_stored {log : PartitionLog} {r : Record} {closed : List SegmentMetadata}
    {active : SegmentMetadata} (ha : admission log.producerState r = .ok none)
    (hc : checkRecord r = .ok ()) (hs : log.segments = closed ++ [active])
    (hlen : active.len = active.file.bytes.length) (hb : log.nextOffset < U64_MAX)
    (hio : (log.append r).1 ≠ .error .io) :
    ∃ w, (log.target closed active (encodedSize r)).2.write log.indexIntervalBytes log.nextOffset
        (recordBytes r log.nextOffset) = .ok w ∧
      log.append r = (.ok log.nextOffset, { log with
        nextOffset := log.nextOffset + 1
        segments := (log.target closed active (encodedSize r)).1 ++ [w]
        producerState := log.producerState.store r log.nextOffset }) := by
  have hlast : log.segments.getLast? = some active := by rw [hs, List.getLast?_concat]
  unfold append at hio ⊢
  simp only [ha, encodeRecord_checked hc, makeRoom, hlast, recordBytes_length] at hio ⊢
  unfold target
  cases hfull : log.full active (encodedSize r) with
  | false =>
    simp only [hfull] at hio ⊢
    exact store_ok hs hlen hb hio
  | true =>
    simp only [hfull, if_true] at hio ⊢
    obtain ⟨_, hrot⟩ | ⟨_, hrot⟩ := log.rotate_cases
    · rw [hrot] at hio
      exact absurd rfl hio
    · rw [hrot] at hio ⊢
      rw [hs] at hio ⊢
      exact @store_ok { log with segments := closed ++ [active] ++ [.new log.nextOffset] } r _
        (closed ++ [active]) (.new log.nextOffset) rfl rfl hb hio

theorem appendAll_ok {log : PartitionLog} {r : Record} {offset : Nat}
    (h : (log.append r).1 = .ok offset) (rs : List Record) :
    log.appendAll (r :: rs) = (log.append r).2.appendAll rs := by
  rw [appendAll]
  split
  · rename_i heq
    rw [heq] at h
    cases h
  · rename_i heq
    rw [heq]

theorem appendAll_error {log : PartitionLog} {r : Record} {e : StorageError}
    (h : (log.append r).1 = .error e) (rs : List Record) :
    (log.appendAll (r :: rs)).1 = .error e := by
  rw [appendAll]
  split
  · rename_i heq
    rw [heq] at h
    cases h; rfl
  · rename_i heq
    rw [heq] at h
    cases h

theorem replay_ok {log : PartitionLog} {rs : List Record} (h : (log.appendAll rs).1 = .ok ()) :
    log.replay rs = (.ok (), (log.appendAll rs).2.syncData) := by
  rw [replay]
  split
  · rename_i heq
    rw [heq] at h
    cases h
  · rename_i heq
    rw [heq]

theorem replay_error {log : PartitionLog} {rs : List Record} {e : StorageError}
    (h : (log.appendAll rs).1 = .error e) : (log.replay rs).1 = .error e := by
  rw [replay]
  split
  · rename_i heq
    rw [heq] at h
    exact h
  · rename_i heq
    rw [heq] at h
    cases h

end PartitionLog

namespace Rep

variable {interval : Nat} {log : PartitionLog} {removed : List Record}
  {chunks : List (List Record)} {last : List Record}

theorem admission_eq (h : Rep interval log removed chunks last) (r : Record) :
    admission log.producerState r = admission (history removed chunks last).producerState r := by
  rw [h.producerState]

/-- The record goes to the last chunk or starts a new one. -/
theorem append_stored (h : Rep interval log removed chunks last) {r : Record}
    (ha : admission log.producerState r = .ok none) (hc : checkRecord r = .ok ())
    (hb : log.nextOffset < U64_MAX) (hio : (log.append r).1 ≠ .error .io) :
    (log.append r).1 = .ok log.nextOffset ∧ ∃ chunks' last',
      history removed chunks' last' = history removed chunks last ++ [r] ∧
      Rep interval (log.append r).2 removed chunks' last' := by
  obtain ⟨closed, active, hs, hclosed, hactive⟩ := h.segments.last
  obtain ⟨w, hw, happ⟩ := PartitionLog.append_stored ha hc hs hactive.len_eq hb hio
  have hnext := h.nextOffset_eq
  rw [List.length_append, ← Nat.add_assoc] at hnext
  rw [h.indexInterval] at hw
  -- what does not depend on the chunks
  have hrep : ∀ {chunks' : List (List Record)} {last' : List Record},
      history removed chunks' last' = history removed chunks last ++ [r] →
      (∀ rs ∈ chunks', rs ≠ []) →
      Covers interval removed.length (chunks' ++ [last'])
        ((log.target closed active (encodedSize r)).1 ++ [w]) →
      Rep interval (log.append r).2 removed chunks' last' := by
    intro chunks' last' hhist hne hcov
    rw [happ]
    refine ⟨h.indexInterval, hcov, hne, ?_, ?_, ?_, hb⟩
    · rw [hhist, List.length_append, ← h.nextOffset]; rfl
    · rw [hhist, sequenced_append]
      refine ⟨h.sequenced, ⟨?_, hc⟩, trivial⟩
      rw [h.admission_eq] at ha
      exact ha
    · rw [hhist, RecordLog.producerState, ProducerTable.storeAll_append, Nat.zero_add,
        ← h.nextOffset]
      change log.producerState.store r log.nextOffset = _
      rw [h.producerState]
      rfl
  refine ⟨by rw [happ], ?_⟩
  unfold PartitionLog.target at hw hrep
  cases hfull : log.full active (encodedSize r) with
  | false =>
    simp only [hfull, Bool.false_eq_true, if_false] at hw hrep
    rw [hnext] at hw
    exact ⟨chunks, last ++ [r], by simp [history], hrep (by simp [history]) h.closed
      (hclosed.concat (hactive.write hw))⟩
  | true =>
    simp only [hfull, if_true] at hw hrep
    have hlast : last ≠ [] := by
      rintro rfl
      simp [PartitionLog.full, hactive.len, totalSize] at hfull
    have hflat : removed.length + (chunks ++ [last]).flatten.length = log.nextOffset := by
      rw [hnext]; simp [Nat.add_assoc]
    have hnew := (Holds.new interval log.nextOffset).write (r := r) (w := w) (by simpa using hw)
    refine ⟨chunks ++ [last], [r], by simp [history], hrep (by simp [history]) ?_ ?_⟩
    · intro rs hrs
      rcases List.mem_append.1 hrs with hrs | hrs
      · exact h.closed rs hrs
      · rw [List.mem_singleton.1 hrs]; exact hlast
    · refine (hclosed.concat hactive).concat ?_
      rw [hflat]
      exact hnew

/-- An append is refused, repeats a record, or extends the history, as for a list of records. -/
theorem append (h : Rep interval log removed chunks last) {r : Record}
    (hb : log.nextOffset < U64_MAX) (hio : (log.append r).1 ≠ .error .io) :
    match (history removed chunks last).append r with
    | .error e => log.append r = (.error e, log)
    | .ok (offset, records) => (log.append r).1 = .ok offset ∧ ∃ chunks' last',
        history removed chunks' last' = records ∧
        Rep interval (log.append r).2 removed chunks' last' := by
  unfold RecordLog.append
  rw [← h.admission_eq]
  cases ha : admission log.producerState r with
  | error e => simp [PartitionLog.append, ha]
  | ok o =>
    cases o with
    | some offset =>
      refine ⟨by simp [PartitionLog.append, ha], chunks, last, rfl, ?_⟩
      simp only [PartitionLog.append, ha]
      exact h
    | none =>
      cases hc : checkRecord r with
      | error e => simp [PartitionLog.append, ha, encodeRecord, hc]
      | ok u =>
        obtain ⟨hres, hrep⟩ := h.append_stored ha hc hb hio
        refine ⟨?_, hrep⟩
        rw [hres, h.nextOffset]

theorem syncData (h : Rep interval log removed chunks last) :
    Rep interval log.syncData removed chunks last := by
  obtain ⟨closed, active, hs, hclosed, hactive⟩ := h.segments.last
  rw [PartitionLog.syncData_eq hs]
  exact ⟨h.indexInterval, hclosed.concat ⟨hactive.baseOffset, hactive.bytes, hactive.len,
    hactive.index⟩, h.closed, h.nextOffset, h.sequenced, h.producerState, h.bound⟩

/-- Replaying accepted records extends the history by them. -/
theorem appendAll (h : Rep interval log removed chunks last) {rs : List Record}
    (hseq : Sequenced .empty 0 (history removed chunks last ++ rs))
    (hb : log.nextOffset + rs.length ≤ U64_MAX) (hio : (log.appendAll rs).1 ≠ .error .io) :
    (log.appendAll rs).1 = .ok () ∧ ∃ chunks' last',
      history removed chunks' last' = history removed chunks last ++ rs ∧
      Rep interval (log.appendAll rs).2 removed chunks' last' := by
  induction rs generalizing log chunks last with
  | nil => exact ⟨rfl, chunks, last, by simp, h⟩
  | cons r rs ih =>
    have hr := ((sequenced_append _ _ _ _).1 hseq).2
    rw [List.length_cons] at hb
    have ha : admission log.producerState r = .ok none := by rw [h.producerState]; exact hr.1.1
    have hior : (log.append r).1 ≠ .error .io := fun he => hio (PartitionLog.appendAll_error he rs)
    obtain ⟨hres, chunks', last', hhist, hrep⟩ :=
      h.append_stored ha hr.1.2 (by omega) hior
    rw [PartitionLog.appendAll_ok hres] at hio ⊢
    have hnext : (log.append r).2.nextOffset = log.nextOffset + 1 := by
      rw [hrep.nextOffset, hhist, List.length_append, ← h.nextOffset]; rfl
    have hassoc : history removed chunks last ++ r :: rs = history removed chunks' last' ++ rs := by
      rw [hhist]; simp
    rw [hassoc] at hseq ⊢
    exact ih hrep hseq (by omega) hio

theorem cleared (hi : log.indexIntervalBytes = interval) : Rep interval log.cleared [] [] [] where
  indexInterval := hi
  segments := .cons (Holds.new interval 0) .nil
  closed := fun _ hrs => absurd hrs List.not_mem_nil
  nextOffset := rfl
  sequenced := trivial
  producerState := rfl
  bound := Nat.zero_le _

/-- The records that are replayed are the first of the history. -/
theorem truncateTo_replay (h : Rep interval log [] chunks last) {offset : Nat}
    (hlt : offset < log.nextOffset) :
    log.truncateTo offset = log.cleared.replay ((history [] chunks last).take offset) := by
  have hread := h.read 0 USIZE_MAX
  rw [if_neg (by decide), takeBudget_all, fromOffset_eq_drop, Nat.zero_sub, List.drop_zero,
    List.length_nil] at hread
  have hbelow := storedFrom_below 0 offset (chunks.flatten ++ last)
  rw [Nat.zero_add] at hbelow
  rw [PartitionLog.truncateTo, if_neg (by omega), if_neg (by omega), hread]
  simp only
  rw [hbelow, storedFrom_toRecord]
  rfl

/-- A log without retention is cut to its first records. -/
theorem truncateTo (h : Rep interval log [] chunks last) {offset : Nat}
    (hio : (log.truncateTo offset).1 ≠ .error .io) :
    match (history [] chunks last).truncateTo offset with
    | .error e => log.truncateTo offset = (.error e, log)
    | .ok records => (log.truncateTo offset).1 = .ok () ∧ ∃ chunks' last',
        history [] chunks' last' = records ∧
        Rep interval (log.truncateTo offset).2 [] chunks' last' := by
  unfold RecordLog.truncateTo
  rw [← h.nextOffset]
  by_cases hgt : offset > log.nextOffset
  · rw [if_pos hgt]
    rw [PartitionLog.truncateTo, if_pos hgt]
  rw [if_neg hgt]
  by_cases heq : offset = log.nextOffset
  · refine ⟨?_, chunks, last, ?_, ?_⟩
    · rw [PartitionLog.truncateTo, if_neg hgt, if_pos heq]
    · rw [List.take_of_length_le (by rw [← h.nextOffset, heq])]
    · rw [PartitionLog.truncateTo, if_neg hgt, if_pos heq]
      exact h
  have hcut := h.truncateTo_replay (Nat.lt_of_le_of_ne (Nat.not_lt.1 hgt) heq)
  rw [hcut] at hio ⊢
  have hseq : Sequenced .empty 0 ((history [] chunks last).take offset) := by
    have := h.sequenced
    rw [← List.take_append_drop offset (history [] chunks last), sequenced_append] at this
    exact this.1
  have hlen : ((history [] chunks last).take offset).length ≤ U64_MAX :=
    Nat.le_trans (List.length_take_le _ _) (Nat.le_trans (Nat.not_lt.1 hgt) h.bound)
  obtain ⟨hres, chunks', last', hhist, hrep⟩ := (cleared h.indexInterval).appendAll hseq
    (by simpa [PartitionLog.cleared] using hlen)
    fun he => hio (PartitionLog.replay_error he)
  rw [PartitionLog.replay_ok hres]
  exact ⟨rfl, chunks', last', hhist, hrep.syncData⟩

/-- A record below the end of a log without retention is compared with the one stored there. -/
theorem find_stored (h : Rep interval log [] chunks last) {offset : Nat} {existing : Record}
    (he : (history [] chunks last)[offset]? = some existing) :
    ∃ records, log.read offset MAX_RECORD_SIZE = .ok records ∧
      records.find? (·.offset = offset) = some (existing.at offset) := by
  have hget : (storedFrom 0 (chunks.flatten ++ last))[offset]? = some (existing.at offset) := by
    rw [storedFrom_getElem?, Nat.zero_add]
    exact congrArg (Option.map (·.at offset)) he
  obtain ⟨hlt, hval⟩ := List.getElem?_eq_some_iff.1 hget
  refine ⟨_, by rw [h.read, if_neg (by decide)], ?_⟩
  rw [fromOffset_eq_drop, List.length_nil, Nat.sub_zero, List.drop_eq_getElem_cons hlt, hval,
    takeBudget]
  exact List.find?_cons_of_pos (by simp)

/-- A replicated record is compared with the stored one or appended, as for a list of records. -/
theorem appendReplica (h : Rep interval log [] chunks last) {offset : Nat} {r : Record}
    (hb : log.nextOffset < U64_MAX) (hio : (log.appendReplica offset r).1 ≠ .error .io) :
    match (history [] chunks last).appendReplica offset r with
    | .error e => log.appendReplica offset r = (.error e, log)
    | .ok (o, records) => (log.appendReplica offset r).1 = .ok o ∧ ∃ chunks' last',
        history [] chunks' last' = records ∧
        Rep interval (log.appendReplica offset r).2 [] chunks' last' := by
  rw [RecordLog.appendReplica]
  cases he : (history [] chunks last)[offset]? with
  | some existing =>
    have hlt : offset < log.nextOffset := by
      rw [h.nextOffset]
      exact (List.getElem?_eq_some_iff.1 he).1
    obtain ⟨records, hread, hfind⟩ := h.find_stored he
    have hcode : log.appendReplica offset r = if existing.timestampMs = r.timestampMs ∧
        existing.key = r.key ∧ existing.value = r.value then (.ok offset, log)
        else (.error (.replicaDiverged offset), log) := by
      rw [PartitionLog.appendReplica, if_pos hlt, hread]
      simp only [hfind]
      rfl
    rw [hcode]
    by_cases hsame : existing.timestampMs = r.timestampMs ∧ existing.key = r.key ∧
        existing.value = r.value
    · simp only [if_pos hsame]
      exact ⟨trivial, chunks, last, rfl, h⟩
    · simp only [if_neg hsame]
  | none =>
    have hge : ¬ offset < log.nextOffset := by
      rw [h.nextOffset]
      exact Nat.not_lt.2 (List.getElem?_eq_none_iff.1 he)
    rw [PartitionLog.appendReplica, if_neg hge] at hio ⊢
    simp only [← h.nextOffset]
    by_cases hne : offset ≠ log.nextOffset
    · simp only [if_pos hne]
    · simp only [if_neg hne] at hio ⊢
      exact h.append hb hio

end Rep

/-! ## Retention -/

theorem Covers.drop {interval base : Nat} {chunks : List (List Record)}
    {ss : List SegmentMetadata} (h : Covers interval base chunks ss) (k : Nat) :
    Covers interval (base + (chunks.take k).flatten.length) (chunks.drop k) (ss.drop k) := by
  induction h generalizing k with
  | nil => simpa using Covers.nil
  | cons head tail ih =>
    cases k with
    | zero => exact .cons head tail
    | succ k => simpa [Nat.add_assoc] using ih k

theorem Covers.length_eq {interval base : Nat} {chunks : List (List Record)}
    {ss : List SegmentMetadata} (h : Covers interval base chunks ss) : ss.length = chunks.length := by
  induction h with
  | nil => rfl
  | cons _ _ ih => simp [ih]

omit [Checksum] in
/-- Records that are gone belong to the history. -/
theorem history_drop (removed : List Record) (chunks : List (List Record)) (last : List Record)
    (k : Nat) : history (removed ++ (chunks.take k).flatten) (chunks.drop k) last =
      history removed chunks last := by
  conv_rhs => rw [history, ← List.take_append_drop k chunks, List.flatten_append]
  simp [history]

/-- The log without the files of its first segments. -/
theorem Rep.dropSegments {interval : Nat} {log : PartitionLog} {removed : List Record}
    {chunks : List (List Record)} {last : List Record} (h : Rep interval log removed chunks last)
    {k : Nat} (hle : k ≤ chunks.length) :
    Rep interval { log with segments := log.segments.drop k } (removed ++ (chunks.take k).flatten)
      (chunks.drop k) last := by
  have hcov := h.segments.drop k
  rw [List.take_append_of_le_length hle, List.drop_append_of_le_length hle,
    ← List.length_append] at hcov
  have hhist := history_drop removed chunks last k
  refine ⟨h.indexInterval, hcov, fun rs hrs => h.closed rs (List.mem_of_mem_drop hrs), ?_, ?_, ?_,
    h.bound⟩
  · rw [hhist]; exact h.nextOffset
  · rw [hhist]; exact h.sequenced
  · rw [hhist]; exact h.producerState

/-- Retention moves chunks to the records that are gone. -/
theorem Rep.applyRetention {interval : Nat} {log : PartitionLog} {removed : List Record}
    {chunks : List (List Record)} {last : List Record} (h : Rep interval log removed chunks last)
    (maxBytes maxAge : Option Nat) (elapsed : Nat → Option Nat) :
    ∃ k, k ≤ chunks.length ∧ (log.applyRetention maxBytes maxAge elapsed).1 = k ∧
      Rep interval (log.applyRetention maxBytes maxAge elapsed).2
        (removed ++ (chunks.take k).flatten) (chunks.drop k) last := by
  obtain ⟨k, hk, hlt⟩ :=
    PartitionLog.retain_drop maxBytes maxAge elapsed log.logSizeBytes log.segments
  have hlen := h.segments.length_eq
  rw [List.length_append, List.length_singleton] at hlen
  have hle : k ≤ chunks.length := by
    have := hlt (List.ne_nil_of_length_pos (by omega))
    omega
  refine ⟨k, hle, by rw [PartitionLog.applyRetention, hk], ?_⟩
  rw [PartitionLog.applyRetention, hk]
  exact h.dropSegments hle

/-! ## Steps and runs -/

/-- The list of records after an operation. -/
def RecordLog.step (log : RecordLog) : Operation → RecordLog
  | .append r =>
    match log.append r with
    | .ok (_, log') => log'
    | .error _ => log
  | .appendReplica offset r =>
    match log.appendReplica offset r with
    | .ok (_, log') => log'
    | .error _ => log
  | .truncateTo offset =>
    match log.truncateTo offset with
    | .ok log' => log'
    | .error _ => log
  | .syncData => log
  | .applyRetention _ _ _ => log

namespace PartitionLog

/-- Away from the log end a replicated record changes nothing. -/
theorem appendReplica_of_ne {log : PartitionLog} {offset : Nat} {r : Record}
    (hne : offset ≠ log.nextOffset) : (log.appendReplica offset r).2 = log := by
  unfold appendReplica
  split
  · split
    · rfl
    · split
      · rfl
      · split <;> rfl
  · rfl

theorem step_perform {log log' : PartitionLog} {op : Operation} (h : log.step op = some log') :
    (op.perform log).1 ≠ .error .io ∧ (op.perform log).2 = log' := by
  unfold step at h
  split at h
  · cases h
  · rename_i res log₁ hne heq
    cases h
    rw [heq]
    exact ⟨hne, rfl⟩

end PartitionLog

namespace Rep

variable {interval : Nat} {log log' : PartitionLog} {removed : List Record}
  {chunks : List (List Record)} {last : List Record}

/-- An append does to the history what it does to a list of records. -/
theorem append_step (h : Rep interval log removed chunks last) {r : Record}
    (hb : log.nextOffset < U64_MAX) (hio : (log.append r).1 ≠ .error .io) :
    ∃ chunks' last', history removed chunks' last' =
        RecordLog.step (history removed chunks last) (.append r) ∧
      Rep interval (log.append r).2 removed chunks' last' := by
  have happ := h.append hb hio
  unfold RecordLog.step
  split at happ
  · rename_i hres
    simp only [hres, happ]
    exact ⟨chunks, last, rfl, h⟩
  · rename_i hres
    simp only [hres]
    exact happ.2

theorem appendReplica_step (h : Rep interval log removed chunks last) {offset : Nat} {r : Record}
    (hb : log.nextOffset < U64_MAX) (hio : (log.appendReplica offset r).1 ≠ .error .io) :
    ∃ chunks' last', history removed chunks' last' =
        RecordLog.step (history removed chunks last) (.appendReplica offset r) ∧
      Rep interval (log.appendReplica offset r).2 removed chunks' last' := by
  by_cases heq : offset = log.nextOffset
  · subst heq
    have hcode : log.appendReplica log.nextOffset r = log.append r := by
      rw [PartitionLog.appendReplica, if_neg (Nat.lt_irrefl _), if_neg (fun hne => hne rfl)]
    have hnone : (history removed chunks last)[log.nextOffset]? = none :=
      List.getElem?_eq_none_iff.2 (by rw [← h.nextOffset])
    have hlist : RecordLog.step (history removed chunks last) (.appendReplica log.nextOffset r) =
        RecordLog.step (history removed chunks last) (.append r) := by
      simp only [RecordLog.step, RecordLog.appendReplica, hnone, ← h.nextOffset, ne_eq, not_true,
        if_false]
    rw [hcode] at hio ⊢
    rw [hlist]
    exact h.append_step hb hio
  · refine ⟨chunks, last, ?_, ?_⟩
    · simp only [RecordLog.step, RecordLog.appendReplica, ← h.nextOffset, ne_eq, heq,
        not_false_eq_true, if_true]
      split
      · rename_i hres
        split at hres
        · split at hres <;> cases hres
          rfl
        · cases hres
      · rfl
    · rw [PartitionLog.appendReplica_of_ne heq]
      exact h

/-- **A step keeps the representation** and, without retention, does to the history what it does
to a list of records. -/
theorem step (h : Rep interval log removed chunks last) {op : Operation}
    (hb : log.nextOffset < U64_MAX) (htr : op.truncates = true → removed = [])
    (hs : log.step op = some log') :
    ∃ removed' chunks' last', Rep interval log' removed' chunks' last' ∧
      (op.retains = false → removed' = removed ∧
        history removed chunks' last' = RecordLog.step (history removed chunks last) op) := by
  obtain ⟨hio, rfl⟩ := PartitionLog.step_perform hs
  cases op with
  | append r =>
    obtain ⟨chunks', last', hhist, hrep⟩ := h.append_step hb (mapUnit_error hio)
    exact ⟨removed, chunks', last', hrep, fun _ => ⟨rfl, hhist⟩⟩
  | appendReplica offset r =>
    obtain ⟨chunks', last', hhist, hrep⟩ := h.appendReplica_step hb (mapUnit_error hio)
    exact ⟨removed, chunks', last', hrep, fun _ => ⟨rfl, hhist⟩⟩
  | truncateTo offset =>
    obtain rfl := htr rfl
    have hcut := h.truncateTo hio
    simp only [RecordLog.step]
    split at hcut
    · rename_i hres
      refine ⟨[], chunks, last, ?_, fun _ => ⟨rfl, by rw [hres]⟩⟩
      rw [show (Operation.truncateTo offset).perform log = log.truncateTo offset from rfl, hcut]
      exact h
    · rename_i hres
      obtain ⟨_, chunks', last', hhist, hrep⟩ := hcut
      exact ⟨[], chunks', last', hrep, fun _ => ⟨rfl, by rw [hres, hhist]⟩⟩
  | syncData => exact ⟨removed, chunks, last, h.syncData, fun _ => ⟨rfl, rfl⟩⟩
  | applyRetention maxBytes maxAge elapsed =>
    obtain ⟨k, _, _, hrep⟩ := h.applyRetention maxBytes maxAge elapsed
    exact ⟨_, _, _, hrep, fun hr => by cases hr⟩

end Rep

/-! ## Refinement -/

/-- Without retention, the log is the list of its records. -/
def Refines (interval : Nat) (log : PartitionLog) (records : RecordLog) : Prop :=
  ∃ chunks last, Rep interval log [] chunks last ∧ history [] chunks last = records

/-- There is room for one more offset. -/
def Countable (log : PartitionLog) (_ : Operation) : Prop := log.nextOffset < U64_MAX

instance (log : PartitionLog) (op : Operation) : Decidable (Countable log op) :=
  inferInstanceAs (Decidable (log.nextOffset < U64_MAX))

namespace Refines

variable {interval : Nat} {log : PartitionLog} {records : RecordLog}

theorem nextOffset (h : Refines interval log records) : log.nextOffset = records.length := by
  obtain ⟨chunks, last, hrep, rfl⟩ := h
  exact hrep.nextOffset

theorem producerState (h : Refines interval log records) :
    log.producerState = records.producerState := by
  obtain ⟨chunks, last, hrep, rfl⟩ := h
  exact hrep.producerState

theorem read (h : Refines interval log records) (offset maxBytes : Nat) :
    log.read offset maxBytes = records.read offset maxBytes := by
  obtain ⟨chunks, last, hrep, rfl⟩ := h
  rw [hrep.read, RecordLog.read, fromOffset_eq_drop]
  rfl

/-- **Whole runs refine runs on lists of records.** -/
theorem of_run {ops : List Operation} {log' : PartitionLog} (h : Refines interval log records)
    (hops : ∀ op ∈ ops, op.retains = false) (hfew : Along PartitionLog.step Countable log ops)
    (hr : run PartitionLog.step log ops = some log') :
    Refines interval log' (ops.foldl RecordLog.step records) := by
  have hq : Along PartitionLog.step (fun log op => Countable log op ∧ op.retains = false) log ops :=
    hfew.and (Along.of_mem hops)
  refine @run_history _ _ _ _ (fun past log => Refines interval log (past.foldl RecordLog.step records))
    (fun past s op s' hp hq hs => ?_) _ [] _ _ h hq hr
  obtain ⟨chunks, last, hrep, hhist⟩ := hp
  obtain ⟨removed', chunks', last', hrep', hkeep⟩ := hrep.step hq.1 (fun _ => rfl) hs
  obtain ⟨rfl, hhist'⟩ := hkeep hq.2
  rw [List.foldl_append, List.foldl_cons, List.foldl_nil, ← hhist, ← hhist']
  exact ⟨chunks', last', hrep', rfl⟩

end Refines

end SevlaMq.Storage
