import SevlaMq.Storage.Durability

/-!
# The representation invariant of the segmented log

What the metadata, the files and the indexes of a log have to do with each other, after any
sequence of operations, retention and truncation in any order included.

* `HoldsRecords`, `Intact` — the invariant, for given records in the segments.
* `Sized` — the segments before the last one are within the segment limit or hold one record.
* `Sound` — what every operation keeps; `Sound.step`, `Sound.of_run`.
* `representation_invariant` — every log that can be reached is intact.
-/

set_option autoImplicit false

namespace SevlaMq.Storage

/-! ## The index -/

theorem encodedSize_pos (r : Record) : 0 < encodedSize r := by
  simp [encodedSize, LENGTH_SIZE]

theorem indexAll_increasing {interval offset position : Nat} {index : List IndexEntry}
    {rs : List Record} (h : index.Pairwise fun x y => x.offset < y.offset ∧ x.position < y.position)
    (hbelow : ∀ e ∈ index, e.offset < offset ∧ e.position < position) :
    (indexAll interval index offset position rs).Pairwise
      fun x y => x.offset < y.offset ∧ x.position < y.position := by
  induction rs generalizing index offset position with
  | nil => exact h
  | cons r rs ih =>
    have hpos := encodedSize_pos r
    apply ih
    · unfold indexRecord
      split
      · rw [List.pairwise_append]
        refine ⟨h, List.pairwise_singleton _ _, fun x hx y hy => ?_⟩
        rw [List.mem_singleton.1 hy]
        exact hbelow x hx
      · exact h
    · intro e he
      unfold indexRecord at he
      split at he
      · rcases List.mem_append.1 he with he | he
        · have := hbelow e he
          omega
        · rw [List.mem_singleton.1 he]
          simp only
          omega
      · have := hbelow e he
        omega

theorem indexAll_head {interval offset position : Nat} {index : List IndexEntry} {e : IndexEntry}
    {rs : List Record} (h : index.head? = some e) :
    (indexAll interval index offset position rs).head? = some e := by
  induction rs generalizing index offset position with
  | nil => exact h
  | cons r rs ih =>
    apply ih
    unfold indexRecord
    split
    · rw [List.head?_append, h]
      rfl
    · exact h

/-- The first record is indexed. -/
theorem sparseIndex_head {interval base : Nat} {rs : List Record} (h : rs ≠ []) :
    (sparseIndex interval base rs).head? = some ⟨base, 0⟩ := by
  obtain ⟨r, rs, rfl⟩ := List.exists_cons_of_ne_nil h
  show (indexAll interval [⟨base, 0⟩] (base + 1) (0 + encodedSize r) rs).head? = _
  exact indexAll_head rfl

/-! ## Segment sizes -/

/-- Every segment is within the limit or holds at most one record; `next` is the offset after the
last one. -/
def Sized (limit : Nat) : List SegmentMetadata → Nat → Prop
  | [], _ => True
  | [s], next => s.len ≤ limit ∨ next ≤ s.baseOffset + 1
  | s :: s' :: rest, next =>
    (s.len ≤ limit ∨ s'.baseOffset ≤ s.baseOffset + 1) ∧ Sized limit (s' :: rest) next

theorem sized_concat {limit next : Nat} {ss : List SegmentMetadata} {s : SegmentMetadata} :
    Sized limit (ss ++ [s]) next ↔
      Sized limit ss s.baseOffset ∧ (s.len ≤ limit ∨ next ≤ s.baseOffset + 1) := by
  induction ss with
  | nil => simp [Sized]
  | cons x ss ih =>
    cases ss with
    | nil => simp [Sized]
    | cons y ss =>
      simp only [List.cons_append, Sized] at ih ⊢
      rw [ih, and_assoc]

/-- A segment that another one follows. -/
theorem Sized.get {limit next k : Nat} {ss : List SegmentMetadata} {s s' : SegmentMetadata}
    (h : Sized limit ss next) (hs : ss[k]? = some s) (hs' : ss[k + 1]? = some s') :
    s.len ≤ limit ∨ s'.baseOffset ≤ s.baseOffset + 1 := by
  induction ss generalizing k with
  | nil => cases hs
  | cons x ss ih =>
    cases ss with
    | nil => cases hs'
    | cons y ss =>
      cases k with
      | zero =>
        cases hs
        cases hs'
        exact h.1
      | succ k => exact ih h.2 hs hs'

theorem Sized.drop {limit next : Nat} {ss : List SegmentMetadata} (h : Sized limit ss next)
    (k : Nat) : Sized limit (ss.drop k) next := by
  induction ss generalizing k with
  | nil => simpa using h
  | cons s ss ih =>
    cases k with
    | zero => exact h
    | succ k =>
      rw [List.drop_succ_cons]
      cases ss with
      | nil => simp [Sized]
      | cons s' ss => exact ih h.2 k

/-- The sizes do not depend on the files. -/
theorem Sized.setFiles {limit next : Nat} {closed : List SegmentMetadata} {s s' : SegmentMetadata}
    (h : Sized limit (closed ++ [s]) next) (hbase : s'.baseOffset = s.baseOffset)
    (hlen : s'.len = s.len) : Sized limit (closed ++ [s']) next := by
  rw [sized_concat] at h ⊢
  rw [hbase, hlen]
  exact h

theorem SegmentMetadata.write_within {s w : SegmentMetadata} {interval offset : Nat}
    {encoded : Bytes} (h : s.write interval offset encoded = .ok w) :
    s.file.bytes.length + encoded.length ≤ MAX_FILE_SIZE := by
  unfold write at h
  split at h
  · cases h
  · split at h
    · cases h
    · rename_i hfile
      exact (File.writeAll_ok hfile).1

section Representation

variable [Checksum]

/-- The segment holds the encodings of `rs` from its base offset on, and its index points at the
first bytes of some of them, the first one included. -/
structure HoldsRecords (rs : List Record) (s : SegmentMetadata) : Prop where
  encodable : ∀ r ∈ rs, ∀ offset, encodeRecord r offset = .ok (recordBytes r offset)
  bytes : s.file.bytes = segmentBytes s.baseOffset rs
  len : s.len = s.file.bytes.length
  increasing : s.index.Pairwise fun x y => x.offset < y.offset ∧ x.position < y.position
  first : rs ≠ [] → s.index.head? = some ⟨s.baseOffset, 0⟩
  entries : ∀ e ∈ s.index, ∃ k < rs.length, e.offset = s.baseOffset + k ∧
    e.position = (segmentBytes s.baseOffset (rs.take k)).length

/-- The segments hold the records `chunks`, one list each, without gaps up to the next offset. -/
structure Intact (log : PartitionLog) (chunks : List (List Record)) : Prop where
  nonempty : log.segments ≠ []
  sorted : log.segments.Pairwise fun s s' => s.baseOffset < s'.baseOffset
  holds : List.Forall₂ HoldsRecords chunks log.segments
  adjacent : ∀ k rs s s', chunks[k]? = some rs → log.segments[k]? = some s →
    log.segments[k + 1]? = some s' → s'.baseOffset = s.baseOffset + rs.length
  ends : ∀ rs s, chunks.getLast? = some rs → log.segments.getLast? = some s →
    log.nextOffset = s.baseOffset + rs.length
  closed : ∀ k rs s, chunks[k]? = some rs → log.segments[k]? = some s →
    k + 1 < log.segments.length → rs ≠ [] ∧ (s.len ≤ log.maxSegmentBytes ∨ rs.length = 1)

/-- What every operation keeps. -/
structure Sound (interval limit : Nat) (log : PartitionLog) : Prop where
  rep : ∃ removed chunks last, Rep interval log removed chunks last
  limit_eq : log.maxSegmentBytes = limit
  sized : Sized limit log.segments log.nextOffset

variable {interval limit : Nat} {log log' : PartitionLog}

theorem PartitionLog.step_some {op : Operation} (h : (op.perform log).1 ≠ .error .io) :
    log.step op = some (op.perform log).2 := by
  unfold step
  split
  · rename_i heq
    rw [heq] at h
    exact absurd rfl h
  · rename_i heq
    rw [heq]

/-- A write into an active segment that is not full, or into a new one. -/
theorem Sized.written {closed : List SegmentMetadata} {active w : SegmentMetadata} {r : Record}
    {removed last : List Record} {chunks : List (List Record)}
    (h : Sized log.maxSegmentBytes log.segments log.nextOffset)
    (hrep : Rep interval log removed chunks last) (hs : log.segments = closed ++ [active])
    (hw : (log.target closed active (encodedSize r)).2.write log.indexIntervalBytes log.nextOffset
      (recordBytes r log.nextOffset) = .ok w) :
    Sized log.maxSegmentBytes ((log.target closed active (encodedSize r)).1 ++ [w])
      (log.nextOffset + 1) := by
  obtain ⟨closed', active', hs', _, hholds⟩ := hrep.segments.last
  rw [hs] at hs' h
  obtain ⟨rfl, hactive⟩ := List.append_inj' hs' rfl
  cases hactive
  obtain ⟨hbase, hlen, _, _⟩ := SegmentMetadata.write_ok hw
  have hwithin := SegmentMetadata.write_within hw
  rw [recordBytes_length] at hlen hwithin
  unfold PartitionLog.target at hbase hlen hwithin ⊢
  cases hfull : log.full active (encodedSize r) with
  | true =>
    simp only [hfull, if_true] at hbase hlen hwithin ⊢
    rw [sized_concat, hbase]
    exact ⟨h, Or.inr (Nat.le_refl _)⟩
  | false =>
    simp only [hfull, Bool.false_eq_true, if_false] at hbase hlen hwithin ⊢
    rw [sized_concat] at h ⊢
    rw [hbase]
    refine ⟨h.1, ?_⟩
    by_cases hempty : active.len = 0
    · -- the first record of a segment
      have hlast : last = [] := totalSize_eq_zero.1 (hholds.len ▸ hempty)
      have hnext := hrep.nextOffset_eq
      rw [hlast, List.append_nil] at hnext
      have := hholds.baseOffset
      right
      omega
    · left
      rw [← hholds.len_eq] at hwithin
      have hroom : ¬ log.maxSegmentBytes < saturatingAdd active.len (encodedSize r) := by
        intro hlt
        simp [PartitionLog.full, hempty, hlt] at hfull
      simp only [saturatingAdd, USIZE_MAX, MAX_FILE_SIZE] at hroom hwithin
      omega

/-- The replay of any records stops at the first one that is refused. -/
theorem PartitionLog.appendAll_invariant {P : PartitionLog → Prop}
    (happend : ∀ {log : PartitionLog} {r : Record}, P log → log.nextOffset < U64_MAX →
      (log.append r).1 ≠ .error .io → P (log.append r).2)
    {rs : List Record} (h : P log) (hb : log.nextOffset + rs.length ≤ U64_MAX)
    (hio : (log.appendAll rs).1 ≠ .error .io) : P (log.appendAll rs).2 := by
  induction rs generalizing log with
  | nil => exact h
  | cons r rs ih =>
    rw [List.length_cons] at hb
    have hior : (log.append r).1 ≠ .error .io := fun he => hio (PartitionLog.appendAll_error he rs)
    have h' := happend h (by omega) hior
    have hnext := (PartitionLog.append_frame log r).2
    cases hres : (log.append r).1 with
    | error e =>
      have hstop : log.appendAll (r :: rs) = (.error e, (log.append r).2) := by
        rw [PartitionLog.appendAll]
        split
        · rename_i heq
          rw [heq] at hres ⊢
          cases hres; rfl
        · rename_i heq
          rw [heq] at hres
          cases hres
      rw [hstop]
      exact h'
    | ok offset =>
      rw [PartitionLog.appendAll_ok hres] at hio ⊢
      exact ih h' (by omega) hio

/-- **Truncation keeps what appends and syncs keep**, if the cleared log has it. -/
theorem Rep.truncateTo_invariant {removed last : List Record} {chunks : List (List Record)}
    (hrep : Rep interval log removed chunks last) {P : PartitionLog → Prop}
    (happend : ∀ {log : PartitionLog} {r : Record}, P log → log.nextOffset < U64_MAX →
      (log.append r).1 ≠ .error .io → P (log.append r).2)
    (hsync : ∀ {log : PartitionLog}, P log → P log.syncData) (h : P log) (hcleared : P log.cleared)
    {offset : Nat} (hio : (log.truncateTo offset).1 ≠ .error .io) :
    P (log.truncateTo offset).2 := by
  have hread := hrep.read 0 USIZE_MAX
  rw [if_neg (by decide), takeBudget_all] at hread
  unfold PartitionLog.truncateTo at hio ⊢
  split
  · exact h
  · split
    · exact h
    · rename_i hgt hne
      rw [if_neg hgt, if_neg hne, hread] at hio
      rw [hread]
      simp only at hio ⊢
      let retained := ((fromOffset 0 (storedFrom removed.length (chunks.flatten ++ last))).filter
        (·.offset < offset)).map StoredRecord.toRecord
      have hlen : retained.length ≤ U64_MAX := by
        have h1 : retained.length ≤ (chunks.flatten ++ last).length := by
          rw [List.length_map]
          refine Nat.le_trans (List.length_filter_le _ _) ?_
          refine Nat.le_trans (List.length_filter_le _ _) ?_
          rw [storedFrom_length]
        have h2 := hrep.nextOffset_eq
        have h3 := hrep.bound
        omega
      have hall : (log.cleared.appendAll retained).1 ≠ .error .io :=
        fun he => hio (PartitionLog.replay_error he)
      have hend := PartitionLog.appendAll_invariant happend hcleared
        (by rw [show log.cleared.nextOffset = 0 from rfl]; omega) hall
      unfold PartitionLog.replay
      split
      · rename_i heq
        rw [heq] at hend
        exact hend
      · rename_i heq
        rw [heq] at hend
        exact hsync hend

namespace Sound

theorem append (h : Sound interval limit log) {r : Record} (hb : log.nextOffset < U64_MAX)
    (hio : (log.append r).1 ≠ .error .io) : Sound interval limit (log.append r).2 := by
  obtain ⟨removed, chunks, last, hrep⟩ := h.rep
  obtain ⟨closed, active, hs, _, hactive⟩ := hrep.segments.last
  obtain ⟨chunks', last', _, hrep'⟩ := hrep.append_step hb hio
  have hsame : log.append r = ((log.append r).1, log) ∨
      (admission log.producerState r = .ok none ∧ checkRecord r = .ok ()) := by
    unfold PartitionLog.append encodeRecord
    split
    · exact Or.inl rfl
    · exact Or.inl rfl
    · cases hc : checkRecord r with
      | error e => exact Or.inl rfl
      | ok u => exact Or.inr ⟨by assumption, rfl⟩
  rcases hsame with hsame | ⟨ha, hc⟩
  · rw [hsame]
    exact h
  · obtain ⟨w, hw, happ⟩ := PartitionLog.append_stored ha hc hs hactive.len_eq hb hio
    have hsized := h.sized
    rw [← h.limit_eq] at hsized
    have hwritten := hsized.written hrep hs hw
    rw [happ] at hrep' ⊢
    refine ⟨⟨_, _, _, hrep'⟩, h.limit_eq, ?_⟩
    rw [← h.limit_eq]
    exact hwritten

theorem syncData (h : Sound interval limit log) : Sound interval limit log.syncData := by
  obtain ⟨removed, chunks, last, hrep⟩ := h.rep
  obtain ⟨closed, active, hs, _, _⟩ := hrep.segments.last
  refine ⟨⟨_, _, _, hrep.syncData⟩, ?_, ?_⟩
  · rw [PartitionLog.syncData_eq hs]
    exact h.limit_eq
  · have hsized := h.sized
    rw [hs] at hsized
    rw [PartitionLog.syncData_eq hs]
    exact hsized.setFiles rfl rfl

theorem cleared (h : Sound interval limit log) : Sound interval limit log.cleared := by
  obtain ⟨removed, chunks, last, hrep⟩ := h.rep
  exact ⟨⟨_, _, _, Rep.cleared hrep.indexInterval⟩, h.limit_eq, Or.inl (Nat.zero_le _)⟩

/-- Truncation, after retention or not. -/
theorem truncateTo (h : Sound interval limit log) {offset : Nat}
    (hio : (log.truncateTo offset).1 ≠ .error .io) :
    Sound interval limit (log.truncateTo offset).2 := by
  obtain ⟨removed, chunks, last, hrep⟩ := h.rep
  exact hrep.truncateTo_invariant (fun h hb hio => Sound.append h hb hio) (fun h => h.syncData) h
    h.cleared hio

theorem applyRetention (h : Sound interval limit log) (maxBytes maxAge : Option Nat)
    (elapsed : Nat → Option Nat) :
    Sound interval limit (log.applyRetention maxBytes maxAge elapsed).2 := by
  obtain ⟨removed, chunks, last, hrep⟩ := h.rep
  obtain ⟨k, _, _, hrep'⟩ := hrep.applyRetention maxBytes maxAge elapsed
  obtain ⟨j, hj, _⟩ :=
    PartitionLog.retain_drop maxBytes maxAge elapsed log.logSizeBytes log.segments
  refine ⟨⟨_, _, _, hrep'⟩, ?_, ?_⟩
  · exact h.limit_eq
  · simp only [PartitionLog.applyRetention, hj]
    exact h.sized.drop j

/-- **Every operation keeps the log sound**, successful or not. -/
theorem step (h : Sound interval limit log) {op : Operation} (hb : log.nextOffset < U64_MAX)
    (hs : log.step op = some log') : Sound interval limit log' := by
  obtain ⟨hio, rfl⟩ := PartitionLog.step_perform hs
  cases op with
  | append r => exact h.append hb (mapUnit_error hio)
  | appendReplica offset r =>
    by_cases heq : offset = log.nextOffset
    · subst heq
      have hcode : log.appendReplica log.nextOffset r = log.append r := by
        rw [PartitionLog.appendReplica, if_neg (Nat.lt_irrefl _), if_neg (fun hne => hne rfl)]
      simp only [Operation.perform, hcode] at hio ⊢
      exact h.append hb (mapUnit_error hio)
    · simp only [Operation.perform, PartitionLog.appendReplica_of_ne heq]
      exact h
  | truncateTo offset => exact h.truncateTo hio
  | syncData => exact h.syncData
  | applyRetention maxBytes maxAge elapsed => exact h.applyRetention maxBytes maxAge elapsed

theorem of_run {ops : List Operation} (h : Sound interval limit log)
    (hfew : Along PartitionLog.step Countable log ops)
    (hr : run PartitionLog.step log ops = some log') : Sound interval limit log' :=
  run_invariant (fun _ _ _ hp hq hs => Sound.step hp hq hs) h hfew hr

end Sound

/-! ## The invariant -/

theorem Holds.holdsRecords {base : Nat} {rs : List Record} {s : SegmentMetadata}
    (h : Holds interval base rs s) (hc : ∀ r ∈ rs, checkRecord r = .ok ()) :
    HoldsRecords rs s where
  encodable := fun r hr offset => encodeRecord_checked (hc r hr) offset
  bytes := by rw [h.baseOffset]; exact h.bytes
  len := h.len_eq
  increasing := by
    rw [h.index]
    exact indexAll_increasing .nil fun e he => absurd he List.not_mem_nil
  first := by
    intro hne
    rw [h.index, h.baseOffset]
    exact sparseIndex_head hne
  entries := by
    intro e he
    rw [h.index] at he
    obtain ⟨k, hk, hoffset, hposition⟩ := mem_sparseIndex he
    refine ⟨k, hk, ?_, ?_⟩
    · rw [hoffset, h.baseOffset]
    · rw [hposition, segmentBytes_length]

theorem Covers.holdsRecords {base : Nat} {chunks : List (List Record)}
    {ss : List SegmentMetadata} (h : Covers interval base chunks ss)
    (hc : ∀ r ∈ chunks.flatten, checkRecord r = .ok ()) :
    List.Forall₂ HoldsRecords chunks ss := by
  induction h with
  | nil => exact .nil
  | cons head tail ih =>
    rw [List.flatten_cons] at hc
    exact .cons (head.holdsRecords fun r hr => hc r (List.mem_append_left _ hr))
      (ih fun r hr => hc r (List.mem_append_right _ hr))

theorem Covers.adjacent {base k : Nat} {chunks : List (List Record)} {ss : List SegmentMetadata}
    {rs : List Record} {s s' : SegmentMetadata} (h : Covers interval base chunks ss)
    (hrs : chunks[k]? = some rs) (hs : ss[k]? = some s) (hs' : ss[k + 1]? = some s') :
    s'.baseOffset = s.baseOffset + rs.length := by
  induction h generalizing k with
  | nil => cases hs
  | cons head tail ih =>
    cases k with
    | zero =>
      cases hrs
      cases hs
      cases tail with
      | nil => cases hs'
      | cons head' _ =>
        cases hs'
        rw [head'.baseOffset, head.baseOffset]
    | succ k => exact ih hrs hs hs'

/-- A sound log is intact. -/
theorem Sound.intact (h : Sound interval limit log) : ∃ chunks, Intact log chunks := by
  obtain ⟨removed, chunks, last, hrep⟩ := h.rep
  obtain ⟨closed, active, hsegments, _, hactive⟩ := hrep.segments.last
  have hflat : (chunks ++ [last]).flatten = chunks.flatten ++ last := by simp
  refine ⟨chunks ++ [last], ?_, ?_, ?_, ?_, ?_, ?_⟩
  · rw [hsegments]
    simp
  · have hsorted := hrep.laid.sorted hrep.closed
    simpa [PartitionLog.dir, List.pairwise_map] using hsorted
  · refine hrep.segments.holdsRecords ?_
    rw [hflat]
    exact hrep.checked
  · intro k rs s s' hrs hs hs'
    exact hrep.segments.adjacent hrs hs hs'
  · intro rs s hrs hs
    rw [List.getLast?_concat] at hrs
    rw [hsegments, List.getLast?_concat] at hs
    cases hrs
    cases hs
    rw [hrep.nextOffset_eq, hactive.baseOffset, List.length_append, Nat.add_assoc]
  · intro k rs s hrs hs hk
    have hlen := hrep.segments.length_eq
    rw [List.length_append, List.length_singleton] at hlen
    rw [List.getElem?_append_left (by omega)] at hrs
    have hne := hrep.closed rs (List.mem_of_getElem? hrs)
    refine ⟨hne, ?_⟩
    obtain ⟨s', hs'⟩ : ∃ s', log.segments[k + 1]? = some s' :=
      ⟨_, List.getElem?_eq_getElem hk⟩
    have hnext := hrep.segments.adjacent
      (by rw [List.getElem?_append_left (by omega)]; exact hrs) hs hs'
    have hpos := List.length_pos_iff.2 hne
    rw [h.limit_eq]
    rcases h.sized.get hs hs' with hle | hle
    · exact Or.inl hle
    · right
      omega

/-- **The representation invariant.**  Every log that is reached from an empty directory by
appends, replica appends, truncations, syncs and retention is intact. -/
theorem representation_invariant {topic : String} {maxSegmentBytes interval : Nat}
    {log₀ log : PartitionLog} {ops : List Operation}
    (h₀ : PartitionLog.openLog Dir.empty topic maxSegmentBytes interval = .ok log₀)
    (hfew : Along PartitionLog.step Countable log₀ ops)
    (hr : run PartitionLog.step log₀ ops = some log) : ∃ chunks, Intact log chunks := by
  have hnew : Sound interval maxSegmentBytes log₀ := by
    refine ⟨⟨_, _, _, openLog_empty h₀⟩, ?_, ?_⟩
    · rw [openLog_new h₀]
    · rw [openLog_new h₀]
      exact Or.inl (Nat.zero_le _)
  exact (hnew.of_run hfew hr).intact

end Representation

/-- Three records of one producer in segments of their own, retention to the last one, and a
truncation that is refused in the middle of its replay. -/
def truncatedRun : List Operation :=
  [.append ⟨none, utf8 "zero", 1, some ⟨"p", 0⟩⟩, .append ⟨none, utf8 "one", 1, none⟩,
    .append ⟨none, utf8 "two", 1, some ⟨"p", 1⟩⟩, .append ⟨none, utf8 "three", 1, none⟩,
    .applyRetention (some 110) none fun _ => none, .truncateTo 3]

theorem representation_invariant_truncated :
    letI := Checksum.crc32
    ∃ log₀ log, PartitionLog.openLog Dir.empty "payments" 60 64 = .ok log₀ ∧
      run PartitionLog.step log₀ truncatedRun = some log ∧ ∃ chunks, Intact log chunks := by
  let _ := Checksum.crc32
  have hrun : (run PartitionLog.step ⟨0, 60, 64, [.new 0], .empty⟩ truncatedRun).isSome := by
    decide +kernel
  obtain ⟨log, hr⟩ := Option.isSome_iff_exists.1 hrun
  have hfew : Along PartitionLog.step Countable ⟨0, 60, 64, [.new 0], .empty⟩ truncatedRun := by
    decide +kernel
  exact ⟨_, log, rfl, hr, @representation_invariant _ "payments" 60 64 _ _ _ rfl hfew hr⟩

end SevlaMq.Storage
