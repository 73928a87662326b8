import SevlaMq.Storage.Durability

/-!
# Truncation

`truncate_to` reads the records it keeps, removes every file of the partition and appends the
records again, starting at offset 0.

* `Exact` — the log is cut at an offset and otherwise left as it is.
* `append_unsynced` — an append does not look at what is synced, so that appending the records of a
  log again goes through the states the log went through (`Replayed`).
* `retained_log_renumbered` — after retention the kept records come out with other offsets.
* `truncate_exact_iff` — a truncation is exact when nothing was removed from the front of the log,
  or when there is nothing to cut, and only then.
-/

set_option autoImplicit false

namespace SevlaMq.Storage

/-! ## Appending the records again -/

/-- The file, with nothing synced. -/
def File.unsynced (f : File) : File := { f with synced := 0 }

def SegmentMetadata.unsynced (s : SegmentMetadata) : SegmentMetadata :=
  { s with file := s.file.unsynced, indexFile := s.indexFile.unsynced }

def PartitionLog.unsynced (log : PartitionLog) : PartitionLog :=
  { log with segments := log.segments.map SegmentMetadata.unsynced }

theorem File.writeAll_unsynced (f : File) (data : Bytes) :
    f.unsynced.writeAll data = (f.writeAll data).map File.unsynced := by
  unfold File.writeAll File.unsynced
  simp only
  split <;> rfl

theorem SegmentMetadata.writeIndex_unsynced (s : SegmentMetadata) (interval offset : Nat) :
    s.unsynced.writeIndex interval offset = (s.writeIndex interval offset).map File.unsynced := by
  by_cases hindex : shouldIndex interval s.index s.len = true
  · have hwrite : s.writeIndex interval offset =
        s.indexFile.writeAll (encodeIndexEntry ⟨offset, s.len⟩) := if_pos hindex
    rw [hwrite, ← File.writeAll_unsynced]
    exact if_pos hindex
  · have hskip : s.writeIndex interval offset = .ok s.indexFile := if_neg hindex
    rw [hskip]
    exact if_neg hindex

theorem SegmentMetadata.write_unsynced (s : SegmentMetadata) (interval offset : Nat)
    (encoded : Bytes) : s.unsynced.write interval offset encoded =
      (s.write interval offset encoded).map SegmentMetadata.unsynced := by
  have hfile : s.unsynced.file.writeAll encoded = (s.file.writeAll encoded).map File.unsynced :=
    File.writeAll_unsynced s.file encoded
  unfold SegmentMetadata.write
  rw [SegmentMetadata.writeIndex_unsynced, hfile]
  cases s.writeIndex interval offset with
  | error e => rfl
  | ok indexFile =>
    cases s.file.writeAll encoded with
    | error e => rfl
    | ok file =>
      by_cases hover : U64_MAX < s.len + encoded.length
      · have hover' : U64_MAX < s.unsynced.len + encoded.length := hover
        simp only [Except.map, if_pos hover, if_pos hover']
      · have hover' : ¬ U64_MAX < s.unsynced.len + encoded.length := hover
        simp only [Except.map, if_neg hover, if_neg hover']
        rfl

namespace PartitionLog

theorem rotate_unsynced (log : PartitionLog) :
    log.unsynced.rotate = log.rotate.map PartitionLog.unsynced := by
  have hany : log.unsynced.segments.any (·.baseOffset = log.unsynced.nextOffset) =
      log.segments.any (·.baseOffset = log.nextOffset) := by
    rw [unsynced, List.any_map]
    rfl
  obtain ⟨htaken, hrot⟩ | ⟨hfree, hrot⟩ := log.rotate_cases
  · obtain ⟨_, hrot'⟩ | ⟨hfree', _⟩ := log.unsynced.rotate_cases
    · rw [hrot, hrot']
      rfl
    · rw [hany, htaken] at hfree'
      cases hfree'
  · obtain ⟨htaken', _⟩ | ⟨_, hrot'⟩ := log.unsynced.rotate_cases
    · rw [hany, hfree] at htaken'
      cases htaken'
    · rw [hrot, hrot']
      simp [Except.map, unsynced, SegmentMetadata.new, SegmentMetadata.unsynced, File.unsynced,
        File.empty]

theorem getLast?_unsynced (log : PartitionLog) :
    log.unsynced.segments.getLast? = log.segments.getLast?.map SegmentMetadata.unsynced := by
  rw [unsynced, List.getLast?_map]

theorem makeRoom_unsynced (log : PartitionLog) (n : Nat) :
    log.unsynced.makeRoom n = (log.makeRoom n).map PartitionLog.unsynced := by
  unfold makeRoom
  rw [getLast?_unsynced, rotate_unsynced]
  cases log.segments.getLast? with
  | none => rfl
  | some active =>
    have hsame : log.unsynced.full active.unsynced n = log.full active n := rfl
    simp only [Option.map_some, hsame]
    split <;> rfl

theorem setActive_unsynced (log : PartitionLog) (s : SegmentMetadata) :
    log.unsynced.setActive s.unsynced = (log.setActive s).unsynced := by
  simp only [setActive, unsynced, List.map_append, List.map_dropLast, List.map_cons, List.map_nil]

theorem store_unsynced (log : PartitionLog) (r : Record) (encoded : Bytes) :
    log.unsynced.store r encoded =
      ((log.store r encoded).1, (log.store r encoded).2.unsynced) := by
  unfold store
  rw [getLast?_unsynced]
  cases log.segments.getLast? with
  | none => rfl
  | some active =>
    have hwrite : active.unsynced.write log.unsynced.indexIntervalBytes log.unsynced.nextOffset
        encoded = (active.write log.indexIntervalBytes log.nextOffset encoded).map
          SegmentMetadata.unsynced := SegmentMetadata.write_unsynced _ _ _ _
    simp only [Option.map_some, hwrite]
    cases active.write log.indexIntervalBytes log.nextOffset encoded with
    | error e => rfl
    | ok written =>
      simp only [Except.map, setActive_unsynced]
      by_cases hover : U64_MAX < log.nextOffset + 1
      · have hover₁ : U64_MAX < (log.setActive written).nextOffset + 1 := hover
        have hover₂ : U64_MAX < (log.setActive written).unsynced.nextOffset + 1 := hover
        rw [if_pos hover₁, if_pos hover₂]
      · have hover₁ : ¬ U64_MAX < (log.setActive written).nextOffset + 1 := hover
        have hover₂ : ¬ U64_MAX < (log.setActive written).unsynced.nextOffset + 1 := hover
        rw [if_neg hover₁, if_neg hover₂]
        rfl

/-- **An append does not look at what is synced.** -/
theorem append_unsynced [Checksum] (log : PartitionLog) (r : Record) :
    log.unsynced.append r = ((log.append r).1, (log.append r).2.unsynced) := by
  unfold append
  have hstate : log.unsynced.producerState = log.producerState := rfl
  have hnext : log.unsynced.nextOffset = log.nextOffset := rfl
  rw [hstate, hnext]
  cases admission log.producerState r with
  | error e => rfl
  | ok o =>
    cases o with
    | some offset => rfl
    | none =>
      cases encodeRecord r log.nextOffset with
      | error e => rfl
      | ok encoded =>
        simp only [makeRoom_unsynced]
        cases log.makeRoom encoded.length with
        | error e => rfl
        | ok log' => exact store_unsynced log' r encoded

theorem syncData_unsynced (log : PartitionLog) : log.syncData.unsynced = log.unsynced := by
  unfold syncData
  split
  · rfl
  · rename_i s hlast
    obtain ⟨closed, hs⟩ := List.getLast?_eq_some_iff.1 hlast
    simp only [setActive, unsynced, hs, List.dropLast_concat, List.map_append, List.map_cons,
      List.map_nil]
    rfl

theorem appendAll_nextOffset_le [Checksum] : ∀ (rs : List Record) (log : PartitionLog),
    (log.appendAll rs).2.nextOffset ≤ log.nextOffset + rs.length
  | [], _ => Nat.le_refl _
  | r :: rs, log => by
    have hle := (append_frame log r).2
    rw [appendAll, List.length_cons]
    split
    · rename_i heq
      rw [heq] at hle
      simp only at hle ⊢
      omega
    · rename_i log' heq
      rw [heq] at hle
      have := appendAll_nextOffset_le rs log'
      simp only at hle
      omega

/-- Appending one list of records after another. -/
theorem appendAll_append [Checksum] : ∀ {rs : List Record} {log log' : PartitionLog}
    (_ : log.appendAll rs = (.ok (), log')) (rs' : List Record),
    log.appendAll (rs ++ rs') = log'.appendAll rs'
  | [], log, log', h, rs' => by
    cases h
    rfl
  | r :: rs, log, log', h, rs' => by
    rw [appendAll] at h
    rw [List.cons_append, appendAll]
    split at h
    · cases h
    · exact appendAll_append h rs'

/-- What can be appended in one go can be appended in part. -/
theorem appendAll_take [Checksum] : ∀ {rs rs' : List Record} {log log' : PartitionLog},
    log.appendAll (rs ++ rs') = (.ok (), log') → (log.appendAll rs).1 = .ok ()
  | [], _, _, _, _ => rfl
  | r :: rs, rs', log, log', h => by
    rw [List.cons_append, appendAll] at h
    rw [appendAll]
    split at h
    · cases h
    · exact appendAll_take h

end PartitionLog

section Truncation

variable [Checksum] {interval : Nat} {log log' : PartitionLog} {removed : List Record}
  {chunks : List (List Record)} {last : List Record}

/-- Appending the records to an empty log gives the log. -/
def Replayed (log : PartitionLog) (records : List Record) : Prop :=
  log.cleared.appendAll records = (.ok (), log.unsynced)

theorem Replayed.append {records : List Record} {r : Record} {offset : Nat}
    (h : Replayed log records) (happ : (log.append r).1 = .ok offset) :
    Replayed (log.append r).2 (records ++ [r]) := by
  rw [Replayed, (PartitionLog.append_frame log r).1, PartitionLog.appendAll_append h,
    PartitionLog.appendAll, PartitionLog.append_unsynced, happ]
  rfl

theorem Replayed.syncData {records : List Record} (h : Replayed log records) :
    Replayed log.syncData records := by
  have hcleared : log.syncData.cleared = log.cleared := by
    unfold PartitionLog.syncData
    split <;> rfl
  rw [Replayed, hcleared, PartitionLog.syncData_unsynced]
  exact h

/-- The representation of a log; as long as nothing was removed, its records give it back. -/
structure Traced (interval : Nat) (log : PartitionLog) (removed : List Record)
    (chunks : List (List Record)) (last : List Record) : Prop where
  rep : Rep interval log removed chunks last
  replayed : removed = [] → Replayed log (chunks.flatten ++ last)

namespace Traced

/-- An append is stored, or leaves the log alone. -/
theorem append (h : Traced interval log removed chunks last) {r : Record}
    (hb : log.nextOffset < U64_MAX) (hio : (log.append r).1 ≠ .error .io) :
    ∃ chunks' last', Traced interval (log.append r).2 removed chunks' last' := by
  have hsame : (log.append r).2 = log →
      ∃ chunks' last', Traced interval (log.append r).2 removed chunks' last' := by
    intro heq
    rw [heq]
    exact ⟨chunks, last, h⟩
  cases ha : admission log.producerState r with
  | error e => exact hsame (by simp only [PartitionLog.append, ha])
  | ok o =>
    cases o with
    | some offset => exact hsame (by simp only [PartitionLog.append, ha])
    | none =>
      cases hc : checkRecord r with
      | error e => exact hsame (by simp only [PartitionLog.append, ha, encodeRecord, hc])
      | ok u =>
        obtain ⟨hres, chunks', last', hhist, hrep⟩ := h.rep.append_stored ha hc hb hio
        refine ⟨chunks', last', hrep, fun hnil => ?_⟩
        subst hnil
        have hrecords : chunks'.flatten ++ last' = chunks.flatten ++ last ++ [r] := hhist
        rw [hrecords]
        exact (h.replayed rfl).append hres

/-- **A step without truncation** keeps the trace. -/
theorem step (h : Traced interval log removed chunks last) {op : Operation}
    (hb : log.nextOffset < U64_MAX) (htr : op.truncates = false) (hs : log.step op = some log') :
    ∃ removed' chunks' last', Traced interval log' removed' chunks' last' := by
  obtain ⟨hio, rfl⟩ := PartitionLog.step_perform hs
  cases op with
  | append r =>
    obtain ⟨chunks', last', h'⟩ := h.append hb (mapUnit_error hio)
    exact ⟨removed, chunks', last', h'⟩
  | appendReplica offset r =>
    have hio : (log.appendReplica offset r).1 ≠ .error .io := mapUnit_error hio
    show ∃ removed' chunks' last', Traced interval (log.appendReplica offset r).2 removed' chunks' last'
    by_cases heq : offset = log.nextOffset
    · have hcode : log.appendReplica offset r = log.append r := by
        rw [PartitionLog.appendReplica, if_neg (by omega), if_neg (fun hne => hne heq)]
      rw [hcode] at hio ⊢
      obtain ⟨chunks', last', h'⟩ := h.append hb hio
      exact ⟨removed, chunks', last', h'⟩
    · rw [PartitionLog.appendReplica_of_ne heq]
      exact ⟨removed, chunks, last, h⟩
  | truncateTo offset => cases htr
  | syncData =>
    exact ⟨removed, chunks, last, h.rep.syncData, fun hnil => (h.replayed hnil).syncData⟩
  | applyRetention maxBytes maxAge elapsed =>
    obtain ⟨k, hk, hcount, hrep⟩ := h.rep.applyRetention maxBytes maxAge elapsed
    refine ⟨_, _, _, hrep, fun hnil => ?_⟩
    obtain ⟨hremoved, htake⟩ := List.append_eq_nil_iff.1 hnil
    -- chunks are not empty, so none of them was taken
    have hzero : k = 0 := by
      by_contra hpos
      obtain ⟨rs, rest, hchunks⟩ : ∃ rs rest, chunks = rs :: rest :=
        List.exists_cons_of_length_pos (by omega)
      obtain ⟨n, rfl⟩ : ∃ n, k = n + 1 := ⟨k - 1, by omega⟩
      rw [hchunks, List.take_succ_cons, List.flatten_cons] at htake
      exact h.rep.closed rs (by rw [hchunks]; exact List.mem_cons_self)
        (List.append_eq_nil_iff.1 htake).1
    subst hzero
    have hlog : (log.applyRetention maxBytes maxAge elapsed).2 = log := by
      obtain ⟨n, hretain, _⟩ :=
        PartitionLog.retain_drop maxBytes maxAge elapsed log.logSizeBytes log.segments
      rw [PartitionLog.applyRetention, hretain] at hcount ⊢
      obtain rfl : n = 0 := hcount
      rfl
    show Replayed (log.applyRetention maxBytes maxAge elapsed).2 _
    rw [hlog, List.drop_zero]
    exact h.replayed hremoved

/-- Whole runs. -/
theorem of_run {ops : List Operation} (h : Traced interval log removed chunks last)
    (hops : ∀ op ∈ ops, op.truncates = false) (hfew : Along PartitionLog.step Countable log ops)
    (hr : run PartitionLog.step log ops = some log') :
    ∃ removed' chunks' last', Traced interval log' removed' chunks' last' := by
  refine @run_invariant _ _ _ (fun log op => Countable log op ∧ op.truncates = false)
    (fun log => ∃ removed chunks last, Traced interval log removed chunks last)
    (fun log op log' hp hq hs => ?_) _ _ _ ⟨removed, chunks, last, h⟩
    (hfew.and (Along.of_mem hops)) hr
  obtain ⟨removed, chunks, last, h⟩ := hp
  exact h.step hq.1 hq.2 hs

end Traced

/-! ## Exact truncation -/

/-- `truncate_to` cuts the log at `offset` and leaves the rest as it is. -/
structure Exact (log : PartitionLog) (offset : Nat) : Prop where
  returns : (log.truncateTo offset).1 = .ok ()
  nextOffset : (log.truncateTo offset).2.nextOffset = offset
  records : ∃ records, log.read 0 USIZE_MAX = .ok records ∧
    (log.truncateTo offset).2.read 0 USIZE_MAX = .ok (records.filter (·.offset < offset))
  lowWatermark : (log.truncateTo offset).2.lowWatermark = log.lowWatermark
  -- a record that is not a repeated one
  append : ∀ r n, admission (log.truncateTo offset).2.producerState r = .ok none →
    ((log.truncateTo offset).2.append r).1 = .ok n → n = offset

/-- A record that is stored gets the next offset. -/
theorem PartitionLog.append_offset {r : Record} {n : Nat}
    (ha : admission log.producerState r = .ok none) (h : (log.append r).1 = .ok n) :
    n = log.nextOffset := by
  have hstore : ∀ {l : PartitionLog} {encoded : Bytes}, (l.store r encoded).1 = .ok n →
      n = l.nextOffset := by
    intro l encoded hs
    unfold PartitionLog.store at hs
    split at hs
    · cases hs
    · split at hs
      · cases hs
      · dsimp only at hs
        split at hs
        · cases hs
        · cases hs
          rfl
  unfold PartitionLog.append at h
  simp only [ha] at h
  split at h
  · cases h
  · split at h
    · cases h
    · rename_i log' hroom
      obtain ⟨segments, rfl⟩ := PartitionLog.makeRoom_ok hroom
      have hn := hstore h
      exact hn

/-- The records a log holds. -/
theorem Rep.read_all (h : Rep interval log removed chunks last) :
    log.read 0 USIZE_MAX = .ok (storedFrom removed.length (chunks.flatten ++ last)) := by
  rw [h.read, if_neg (by decide), takeBudget_all, fromOffset_eq_drop, Nat.zero_sub, List.drop_zero]

/-- At the end of the log there is nothing to cut. -/
theorem Traced.exact_end (h : Traced interval log removed chunks last) : Exact log log.nextOffset := by
  have hcode : log.truncateTo log.nextOffset = (.ok (), log) := by
    rw [PartitionLog.truncateTo, if_neg (Nat.lt_irrefl _), if_pos rfl]
  have hread := h.rep.read_all
  have hall : (storedFrom removed.length (chunks.flatten ++ last)).filter
      (fun s => s.offset < log.nextOffset) = storedFrom removed.length (chunks.flatten ++ last) := by
    rw [h.rep.nextOffset_eq, storedFrom_below, List.take_length]
  refine ⟨by rw [hcode], by rw [hcode], ⟨_, hread, ?_⟩, by rw [hcode], ?_⟩
  · rw [hcode, hread, hall]
  · rw [hcode]
    exact fun r n => PartitionLog.append_offset

/-- A log that nothing was removed from is cut exactly. -/
theorem Traced.exact_cut (h : Traced interval log [] chunks last) {offset : Nat}
    (hlt : offset < log.nextOffset) : Exact log offset := by
  have hreplay : log.truncateTo offset =
      log.cleared.replay ((chunks.flatten ++ last).take offset) := h.rep.truncateTo_replay hlt
  have hall := h.replayed rfl
  rw [Replayed, ← List.take_append_drop offset (chunks.flatten ++ last)] at hall
  have hok : (log.truncateTo offset).1 = .ok () := by
    rw [hreplay, PartitionLog.replay_ok (PartitionLog.appendAll_take hall)]
  have hcut := h.rep.truncateTo (by rw [hok]; exact fun he => by cases he)
  rw [RecordLog.truncateTo, if_neg (by rw [← h.rep.nextOffset]; omega)] at hcut
  obtain ⟨_, chunks', last', hhist', hrep'⟩ := hcut
  have hnext : (log.truncateTo offset).2.nextOffset = offset := by
    rw [hrep'.nextOffset, hhist', List.length_take_of_le]
    rw [← h.rep.nextOffset]
    omega
  refine ⟨hok, hnext, ⟨_, h.rep.read_all, ?_⟩, ?_, ?_⟩
  · have hbelow := storedFrom_below 0 offset (chunks.flatten ++ last)
    rw [Nat.zero_add] at hbelow
    rw [hrep'.read_all, List.length_nil, hbelow]
    exact congrArg (fun records => Except.ok (storedFrom 0 records)) hhist'
  · rw [hrep'.lowWatermark, h.rep.lowWatermark]
  · intro r n ha happ
    rw [PartitionLog.append_offset ha happ, hnext]

/-- After retention the kept records are numbered from 0 again. -/
theorem Rep.renumbered (h : Rep interval log removed chunks last) {offset : Nat}
    (hremoved : removed ≠ []) (hlow : removed.length ≤ offset) (hlt : offset < log.nextOffset) :
    ¬ Exact log offset := by
  intro hexact
  have hpos : 0 < removed.length := List.length_pos_of_ne_nil hremoved
  have hbelow := storedFrom_below removed.length (offset - removed.length) (chunks.flatten ++ last)
  rw [Nat.add_sub_cancel' hlow] at hbelow
  have hcode : log.truncateTo offset =
      log.cleared.replay ((chunks.flatten ++ last).take (offset - removed.length)) := by
    rw [PartitionLog.truncateTo, if_neg (by omega), if_neg (by omega), h.read_all]
    simp only
    rw [hbelow, storedFrom_toRecord]
  have hle : (log.truncateTo offset).2.nextOffset ≤ offset - removed.length := by
    have happ := PartitionLog.appendAll_nextOffset_le
      ((chunks.flatten ++ last).take (offset - removed.length)) log.cleared
    have htake := List.length_take_le (offset - removed.length) (chunks.flatten ++ last)
    have hzero : log.cleared.nextOffset = 0 := rfl
    have hsync : ∀ l : PartitionLog, l.syncData.nextOffset = l.nextOffset := by
      intro l
      unfold PartitionLog.syncData
      split <;> rfl
    rw [hcode, PartitionLog.replay]
    split
    · rename_i heq
      rw [heq] at happ
      simp only at happ ⊢
      omega
    · rename_i heq
      rw [heq] at happ
      simp only [hsync] at happ ⊢
      omega
  rw [hexact.nextOffset] at hle
  omega

/-- **`truncate_to` is exact** when retention has removed nothing, or when it is given the end of
the log, and only then. -/
theorem truncate_exact_iff {topic : String} {maxSegmentBytes interval offset : Nat}
    {log₀ log : PartitionLog} {ops : List Operation}
    (h₀ : PartitionLog.openLog Dir.empty topic maxSegmentBytes interval = .ok log₀)
    (hops : ∀ op ∈ ops, op.truncates = false)
    (hfew : Along PartitionLog.step Countable log₀ ops)
    (hr : run PartitionLog.step log₀ ops = some log)
    (hlow : log.lowWatermark ≤ offset) (hnext : offset ≤ log.nextOffset) :
    Exact log offset ↔ log.lowWatermark = 0 ∨ offset = log.nextOffset := by
  have hstart : Traced interval log₀ [] [] [] := by
    refine ⟨openLog_empty h₀, fun _ => ?_⟩
    rw [openLog_new h₀]
    rfl
  obtain ⟨removed, chunks, last, h⟩ := hstart.of_run hops hfew hr
  rw [h.rep.lowWatermark] at hlow ⊢
  constructor
  · intro hexact
    by_contra hno
    obtain ⟨hremoved, hne⟩ := not_or.1 hno
    have hnonempty : removed ≠ [] := fun hnil => hremoved (by rw [hnil]; rfl)
    exact h.rep.renumbered hnonempty hlow (by omega) hexact
  · intro hor
    by_cases heq : offset = log.nextOffset
    · rw [heq]
      exact h.exact_end
    · have hnil : removed = [] := List.length_eq_zero_iff.1 (hor.resolve_right heq)
      subst hnil
      exact h.exact_cut (by omega)

end Truncation

/-- The first of three segments is removed, and the log is cut behind its first record left. -/
theorem retained_log_renumbered :
    letI := Checksum.crc32
    ∃ log₀ log, PartitionLog.openLog Dir.empty "payments" 55 64 = .ok log₀ ∧
      run PartitionLog.step log₀ (retentionRun.take 3 ++
        [.applyRetention (some 110) none fun _ => none]) = some log ∧
      log.lowWatermark ≤ 2 ∧ 2 ≤ log.nextOffset ∧ ¬ Exact log 2 := by
  let _ := Checksum.crc32
  have hrun : (run PartitionLog.step ⟨0, 55, 64, [.new 0], .empty⟩ (retentionRun.take 3 ++
      [.applyRetention (some 110) none fun _ => none])).any (fun log =>
        log.lowWatermark ≤ 2 ∧ 2 ≤ log.nextOffset ∧ (log.truncateTo 2).2.nextOffset ≠ 2) := by
    decide +kernel
  obtain ⟨log, hr, hlog⟩ := (Option.any_eq_true _ _).1 hrun
  simp only [Bool.decide_and, Bool.and_eq_true, decide_eq_true_eq] at hlog
  exact ⟨_, log, rfl, hr, hlog.1, hlog.2.1, fun hexact => hlog.2.2 hexact.nextOffset⟩

theorem truncate_exact_iff_kept :
    letI := Checksum.crc32
    ∃ log₀ log, PartitionLog.openLog Dir.empty "payments" 55 64 = .ok log₀ ∧
      run PartitionLog.step log₀ keepingRun = some log ∧ Exact log 2 := by
  let _ := Checksum.crc32
  have hrun : (run PartitionLog.step ⟨0, 55, 64, [.new 0], .empty⟩ keepingRun).any (fun log =>
      log.lowWatermark = 0 ∧ 2 ≤ log.nextOffset) := by decide +kernel
  obtain ⟨log, hr, hlog⟩ := (Option.any_eq_true _ _).1 hrun
  simp only [Bool.decide_and, Bool.and_eq_true, decide_eq_true_eq] at hlog
  have hops : ∀ op ∈ keepingRun, op.truncates = false := by decide
  have hfew : Along PartitionLog.step Countable ⟨0, 55, 64, [.new 0], .empty⟩ keepingRun := by
    decide +kernel
  exact ⟨_, log, rfl, hr, (@truncate_exact_iff _ "payments" 55 64 2 _ log keepingRun rfl hops hfew hr
    (by rw [hlog.1]; decide) hlog.2).2 (Or.inl hlog.1)⟩

end SevlaMq.Storage
