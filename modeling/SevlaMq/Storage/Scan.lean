import SevlaMq.Lib.Stream
import SevlaMq.Storage.Producers
import SevlaMq.Storage.Restart

/-!
# Reading a log without its index

What `read` and `recover_segment` have to find in the files of a partition.

* `segment_round_trip` — `decode_record`, called again and again on encoded records and the
  beginning of another one, returns the records and stops at the beginning of the other one.
* `PartitionLog.scan` — all records of a log, by decoding every file from its first byte.
* `LongestWithin` — the longest prefix of a list of records within a number of bytes, with at least
  one record.
* `read_eq_scan` — after any run `read` answers what the scan says: neither the segments it skips
  nor the index entries it starts from show.
-/

set_option autoImplicit false

namespace SevlaMq.Storage

/-! ## Within a number of bytes -/

/-- The encoded sizes of the records, summed up. -/
def totalBytes (ss : List StoredRecord) : Nat := (ss.map fun s => encodedSize s.toRecord).sum

/-- The result is the longest prefix of the candidates whose sizes, summed up as a `usize`, are
within `maxBytes`; the first candidate belongs to it in any case. -/
structure LongestWithin (maxBytes : Nat) (candidates result : List StoredRecord) : Prop where
  isPrefix : result <+: candidates
  first : candidates ≠ [] → result ≠ []
  within : result.length ≤ 1 ∨ min (totalBytes result) USIZE_MAX ≤ maxBytes
  longest : ∀ longer, longer <+: candidates → result.length < longer.length →
    maxBytes < min (totalBytes longer) USIZE_MAX

theorem totalBytes_cons (s : StoredRecord) (ss : List StoredRecord) :
    totalBytes (s :: ss) = encodedSize s.toRecord + totalBytes ss := by
  simp [totalBytes]

theorem takeWithin_within {maxBytes used : Nat} {ss : List StoredRecord} :
    takeWithin maxBytes used ss = [] ∨
      min (used + totalBytes (takeWithin maxBytes used ss)) USIZE_MAX ≤ maxBytes := by
  induction ss generalizing used with
  | nil => exact Or.inl rfl
  | cons s ss ih =>
    unfold takeWithin
    split
    · exact Or.inl rfl
    · rename_i hle
      right
      rw [totalBytes_cons]
      unfold saturatingAdd at hle ih ⊢
      rcases @ih (min (used + encodedSize s.toRecord) USIZE_MAX) with hnil | hmin
      · rw [hnil, show totalBytes [] = 0 from rfl]
        omega
      · omega

theorem takeWithin_longest {maxBytes used : Nat} {ss longer : List StoredRecord}
    (hp : longer <+: ss) (hlen : (takeWithin maxBytes used ss).length < longer.length) :
    maxBytes < min (used + totalBytes longer) USIZE_MAX := by
  induction ss generalizing used longer with
  | nil =>
    rw [List.prefix_nil.1 hp] at hlen
    cases hlen
  | cons s ss ih =>
    cases longer with
    | nil => cases hlen
    | cons x longer =>
      obtain ⟨rfl, hrest⟩ := List.cons_prefix_cons.1 hp
      rw [totalBytes_cons]
      unfold takeWithin at hlen
      split at hlen
      · rename_i hgt
        unfold saturatingAdd at hgt
        omega
      · have hmin := ih hrest (Nat.lt_of_succ_lt_succ hlen)
        unfold saturatingAdd at hmin
        omega

/-- The budget of a read leaves the longest prefix. -/
theorem takeBudget_longest (maxBytes : Nat) (ss : List StoredRecord) :
    LongestWithin maxBytes ss (takeBudget maxBytes ss) := by
  refine ⟨takeBudget_isPrefix maxBytes ss, fun hne => ?_, ?_, fun longer hp hlen => ?_⟩
  · obtain ⟨s, ss, rfl⟩ := List.exists_cons_of_ne_nil hne
    exact List.cons_ne_nil _ _
  · cases ss with
    | nil => exact Or.inl (Nat.zero_le _)
    | cons s ss =>
      rw [takeBudget, totalBytes_cons]
      rcases @takeWithin_within maxBytes (saturatingAdd 0 (encodedSize s.toRecord)) ss with
        hnil | hmin
      · rw [hnil]
        exact Or.inl (Nat.le_refl _)
      · unfold saturatingAdd at hmin ⊢
        omega
  · cases ss with
    | nil =>
      rw [List.prefix_nil.1 hp] at hlen
      cases hlen
    | cons s ss =>
      cases longer with
      | nil => cases hlen
      | cons x longer =>
        obtain ⟨rfl, hrest⟩ := List.cons_prefix_cons.1 hp
        have hmin := takeWithin_longest hrest (Nat.lt_of_succ_lt_succ hlen)
        rw [totalBytes_cons]
        unfold saturatingAdd at hmin
        omega

theorem totalBytes_mono {ss ss' : List StoredRecord} (h : ss <+: ss') :
    totalBytes ss ≤ totalBytes ss' := by
  obtain ⟨more, rfl⟩ := h
  unfold totalBytes
  rw [List.map_append, List.sum_append]
  exact Nat.le_add_right _ _

/-- **What is within the budget**, of candidates in the order of their offsets: the first one, and
each one such that it and those before it are. -/
theorem LongestWithin.mem_iff {maxBytes : Nat} {candidates result : List StoredRecord}
    (h : LongestWithin maxBytes candidates result)
    (hsorted : candidates.Pairwise fun x y => x.offset < y.offset) {x : StoredRecord}
    (hx : x ∈ candidates) :
    x ∈ result ↔ (∀ y ∈ candidates, x.offset ≤ y.offset) ∨
      min (totalBytes (candidates.filter (·.offset ≤ x.offset))) USIZE_MAX ≤ maxBytes := by
  obtain ⟨before, after, rfl⟩ := List.append_of_mem hx
  obtain ⟨_, hafter, hbefore⟩ := List.pairwise_append.1 hsorted
  have hlater := (List.pairwise_cons.1 hafter).1
  have hless : ∀ y ∈ before, y.offset < x.offset := fun y hy => hbefore y hy x List.mem_cons_self
  have hupto : (before ++ x :: after).filter (·.offset ≤ x.offset) = before ++ [x] := by
    have hbelow : before.filter (·.offset ≤ x.offset) = before :=
      List.filter_eq_self.2 fun y hy => decide_eq_true (Nat.le_of_lt (hless y hy))
    have habove : after.filter (·.offset ≤ x.offset) = [] :=
      List.filter_eq_nil_iff.2 fun y hy hle =>
        absurd (of_decide_eq_true hle) (Nat.not_le.2 (hlater y hy))
    rw [List.filter_append, hbelow, List.filter_cons, habove, if_pos (decide_eq_true le_rfl)]
  have hprefix : before ++ [x] <+: before ++ x :: after :=
    List.prefix_append_right_inj _ |>.2 (List.cons_prefix_cons.2 ⟨rfl, List.nil_prefix⟩)
  rw [hupto]
  constructor
  · intro hmem
    have hreach : before ++ [x] <+: result := by
      rcases List.prefix_or_prefix_of_prefix hprefix h.isPrefix with hle | hle
      · exact hle
      rcases List.prefix_concat_iff.1 hle with heq | hle
      · exact heq ▸ List.prefix_rfl
      · exact absurd (hless x (hle.subset hmem)) (Nat.lt_irrefl _)
    rcases h.within with hone | hmin
    · have hlen := Nat.le_trans hreach.length_le hone
      obtain rfl : before = [] := by
        rw [List.length_append] at hlen
        exact List.eq_nil_of_length_eq_zero (Nat.le_zero.1 (Nat.le_of_succ_le_succ hlen))
      refine Or.inl fun y hy => ?_
      rcases List.mem_cons.1 hy with rfl | hy
      · exact Nat.le_refl _
      · exact Nat.le_of_lt (hlater y hy)
    · have := totalBytes_mono hreach
      exact Or.inr (by omega)
  · intro hreach
    have hlen : (before ++ [x]).length ≤ result.length := by
      rcases hreach with hfirst | hmin
      · obtain rfl : before = [] := by
          refine List.eq_nil_iff_forall_not_mem.2 fun y hy => ?_
          exact absurd (hfirst y (List.mem_append_left _ hy)) (Nat.not_le.2 (hless y hy))
        exact List.length_pos_iff.2 (h.first (List.cons_ne_nil _ _))
      · by_contra hshort
        have := h.longest _ hprefix (Nat.not_le.1 hshort)
        omega
    exact (List.prefix_of_prefix_length_le hprefix h.isPrefix hlen).subset
      (List.mem_append_right _ List.mem_cons_self)
/-- The records a read can return have consecutive offsets. -/
theorem offsets_of_prefix {base offset : Nat} {rs : List Record} {records : List StoredRecord}
    (h : records <+: fromOffset offset (storedFrom base rs)) :
    records.map (·.offset) = List.range' (max offset base) records.length := by
  rw [fromOffset_eq_drop, storedFrom_drop, show base + (offset - base) = max offset base by omega] at h
  have hoffsets := List.prefix_iff_eq_take.1 (h.map (·.offset))
  have hlen := h.length_le
  rw [storedFrom_length] at hlen
  rw [storedFrom_offsets, List.length_map, List.take_range'_of_length_ge hlen] at hoffsets
  exact hoffsets

section Scan

variable [Checksum]

/-! ## Frames of a segment -/

/-- **Encoded records and the beginning of another one**: `decode_record` returns the records, one
after the other, then finds no whole record and leaves the beginning of the other one. -/
theorem segment_round_trip {items : List (Record × UInt64)} {encodings : List Bytes} {r : Record}
    {offset : UInt64} {encoded t : Bytes}
    (hitems : List.Forall₂ (fun x bytes => encodeRecord x.1 x.2.toNat = .ok bytes) items encodings)
    (hnext : encodeRecord r offset.toNat = .ok encoded) (ht : t <+: encoded) (hne : t ≠ encoded) :
    drain decodeRecord (encodings.flatten ++ t) =
        (items.map fun x => x.1.at x.2.toNat, .ok t) ∧
      decodeRecord t = .ok none := by
  have htorn := (encodeRecord_isFrame offset.toNat_lt hnext).torn t ht hne
  refine ⟨?_, htorn⟩
  obtain ⟨fs, hfs, hvalues, hbytes⟩ : ∃ fs : List (StoredRecord × Bytes),
      (∀ f ∈ fs, IsFrame decodeRecord f.1 f.2) ∧
      fs.map Prod.fst = (items.map fun x => x.1.at x.2.toNat) ∧
      concatFrames fs = encodings.flatten := by
    clear ht hne htorn
    induction hitems with
    | nil => exact ⟨[], fun f hf => absurd hf List.not_mem_nil, rfl, rfl⟩
    | @cons x bytes items encodings hx _ ih =>
      obtain ⟨fs, hfs, hvalues, hbytes⟩ := ih
      refine ⟨(x.1.at x.2.toNat, bytes) :: fs, ?_, ?_, ?_⟩
      · exact List.forall_mem_cons.2 ⟨encodeRecord_isFrame x.2.toNat_lt hx, hfs⟩
      · rw [List.map_cons, List.map_cons, hvalues]
      · rw [concatFrames_cons, List.flatten_cons, hbytes]
  rw [← hbytes, drain_concatFrames hfs htorn, hvalues]

/-! ## A plain scan -/

/-- All records in the file of a segment. -/
def SegmentMetadata.records (s : SegmentMetadata) : Except StorageError (List StoredRecord) :=
  match drain decodeRecord s.file.bytes with
  | (records, .ok []) => .ok records
  | (_, .ok (_ :: _)) => .error .invalidRecord
  | (_, .error e) => .error e

def scanSegments : List SegmentMetadata → Except StorageError (List StoredRecord)
  | [] => .ok []
  | s :: rest =>
    match s.records, scanSegments rest with
    | .ok records, .ok more => .ok (records ++ more)
    | .error e, _ => .error e
    | _, .error e => .error e

/-- All records of a log, in the order of its files. -/
def PartitionLog.scan (log : PartitionLog) : Except StorageError (List StoredRecord) :=
  scanSegments log.segments

theorem frames_fst (base : Nat) (rs : List Record) :
    (frames base rs).map Prod.fst = storedFrom base rs := by
  induction rs generalizing base with
  | nil => rfl
  | cons r rs ih => simp [frames, storedFrom, ih]

variable {interval : Nat}

theorem Holds.records {base : Nat} {rs : List Record} {s : SegmentMetadata}
    (h : Holds interval base rs s) (hc : ∀ r ∈ rs, checkRecord r = .ok ())
    (hb : base + rs.length ≤ U64_MAX) : s.records = .ok (storedFrom base rs) := by
  have hdrain := drain_concatFrames (frames_isFrame hc hb) (show decodeRecord [] = .ok none from rfl)
  rw [List.append_nil, frames_fst] at hdrain
  unfold SegmentMetadata.records
  rw [h.bytes, segmentBytes, hdrain]

theorem Covers.scan {base : Nat} {chunks : List (List Record)} {ss : List SegmentMetadata}
    (h : Covers interval base chunks ss) (hc : ∀ r ∈ chunks.flatten, checkRecord r = .ok ())
    (hb : base + chunks.flatten.length ≤ U64_MAX) :
    scanSegments ss = .ok (storedFrom base chunks.flatten) := by
  induction h with
  | nil => rfl
  | @cons base rs chunks s ss head tail ih =>
    rw [List.flatten_cons] at hc hb ⊢
    rw [List.length_append] at hb
    have hhead := head.records (fun r hr => hc r (List.mem_append_left _ hr)) (by omega)
    have htail := ih (fun r hr => hc r (List.mem_append_right _ hr)) (by omega)
    simp only [scanSegments, hhead, htail, storedFrom_append]

theorem Rep.scan {log : PartitionLog} {removed last : List Record} {chunks : List (List Record)}
    (h : Rep interval log removed chunks last) :
    log.scan = .ok (storedFrom removed.length (chunks.flatten ++ last)) := by
  have hflat : (chunks ++ [last]).flatten = chunks.flatten ++ last := by simp
  have hscan := h.segments.scan (by rw [hflat]; exact h.checked)
    (by rw [hflat, ← h.nextOffset_eq]; exact h.bound)
  rw [hflat] at hscan
  exact hscan

/-- **A read returns what the scan says.** -/
theorem Rep.read_scan {log : PartitionLog} {removed last : List Record}
    {chunks : List (List Record)} (h : Rep interval log removed chunks last) {offset maxBytes : Nat}
    (hmax : 0 < maxBytes) :
    ∃ records, log.read offset maxBytes = .ok records ∧
      LongestWithin maxBytes
        (fromOffset offset (storedFrom removed.length (chunks.flatten ++ last))) records ∧
      records.map (·.offset) = List.range' (max offset log.lowWatermark) records.length := by
  have hread := h.read offset maxBytes
  rw [if_neg (Nat.ne_of_gt hmax)] at hread
  have hlongest := takeBudget_longest maxBytes
    (fromOffset offset (storedFrom removed.length (chunks.flatten ++ last)))
  refine ⟨_, hread, hlongest, ?_⟩
  rw [h.lowWatermark]
  exact offsets_of_prefix hlongest.isPrefix

/-! ## Every log that can be reached -/

/-- Some records are stored in the segments. -/
def Stored (log : PartitionLog) : Prop :=
  ∃ interval removed chunks last, Rep interval log removed chunks last

namespace Stored

variable {log log' : PartitionLog}

theorem append (h : Stored log) {r : Record} (hb : log.nextOffset < U64_MAX)
    (hio : (log.append r).1 ≠ .error .io) : Stored (log.append r).2 := by
  obtain ⟨interval, removed, chunks, last, hrep⟩ := h
  obtain ⟨chunks', last', _, hrep'⟩ := hrep.append_step hb hio
  exact ⟨interval, removed, chunks', last', hrep'⟩

theorem append_few (h : Stored log) {r : Record} (hb : log.nextOffset < U64_MAX)
    (hio : (log.append r).1 ≠ .error .io) : (log.append r).2.nextOffset ≤ log.nextOffset + 1 := by
  obtain ⟨interval, removed, chunks, last, hrep⟩ := h
  have happ := hrep.append hb hio
  split at happ
  · rw [happ]
    exact Nat.le_succ _
  · rename_i o rs hres
    obtain ⟨_, chunks', last', hhist, hrep'⟩ := happ
    rw [hrep'.nextOffset, hhist, hrep.nextOffset]
    rcases RecordLog.append_cases hres with rfl | ⟨_, rfl⟩
    · exact Nat.le_succ _
    · rw [List.length_append, List.length_singleton]

theorem syncData (h : Stored log) :
    Stored log.syncData ∧ log.syncData.nextOffset = log.nextOffset := by
  obtain ⟨interval, removed, chunks, last, hrep⟩ := h
  exact ⟨⟨interval, removed, chunks, last, hrep.syncData⟩,
    hrep.syncData.nextOffset.trans hrep.nextOffset.symm⟩

/-- Truncation replays the retained records into an empty log, also where it renumbers them. -/
theorem truncateTo (h : Stored log) {offset : Nat}
    (hio : (log.truncateTo offset).1 ≠ .error .io) : Stored (log.truncateTo offset).2 := by
  obtain ⟨interval, removed, chunks, last, hrep⟩ := h
  refine hrep.truncateTo_invariant (fun h hb hio => Stored.append h hb hio) (fun h => ?_)
    ⟨interval, removed, chunks, last, hrep⟩
    ⟨interval, [], [], [], Rep.cleared hrep.indexInterval⟩ hio
  obtain ⟨interval, removed, chunks, last, hrep⟩ := h
  exact ⟨interval, removed, chunks, last, hrep.syncData⟩

theorem step (h : Stored log) {op : Operation} (hb : log.nextOffset < U64_MAX)
    (hs : log.step op = some log') : Stored log' := by
  cases htr : op.truncates with
  | false =>
    obtain ⟨interval, removed, chunks, last, hrep⟩ := h
    obtain ⟨removed', chunks', last', hrep', _⟩ :=
      hrep.step hb (fun ht => by rw [htr] at ht; cases ht) hs
    exact ⟨interval, removed', chunks', last', hrep'⟩
  | true =>
    obtain ⟨hio, rfl⟩ := PartitionLog.step_perform hs
    cases op with
    | truncateTo offset => exact h.truncateTo hio
    | append r => cases htr
    | appendReplica offset r => cases htr
    | syncData => cases htr
    | applyRetention maxBytes maxAge elapsed => cases htr

/-- The directory of a log whose first segment was removed is refused; any other one is opened
with the records it holds. -/
theorem act (h : Stored log) {topic : String} {a : Action} (hb : ActCountable log a)
    (hs : log.act topic a = some log') : Stored log' := by
  cases a with
  | perform op => exact h.step hb hs
  | reopen maxSegmentBytes interval' =>
    obtain ⟨interval, removed, chunks, last, hrep⟩ := h
    simp only [PartitionLog.act] at hs
    cases hopen : PartitionLog.openLog log.dir topic maxSegmentBytes interval' with
    | error e =>
      rw [hopen] at hs
      cases hs
    | ok log₁ =>
      by_cases hne : removed = []
      · subst hne
        have hrefines : Refines interval log (history [] chunks last) := ⟨chunks, last, hrep, rfl⟩
        obtain ⟨interval'', records, chunks', last', hrep', _⟩ := @Refines.act _ _ _ _ _ topic
          (.reopen maxSegmentBytes interval') hrefines rfl trivial hs
        exact ⟨interval'', [], chunks', last', hrep'⟩
      · exact absurd hopen (hrep.openLog_refused hne)

/-- A log opens again when retention removed nothing from it. -/
theorem reopens_iff (h : Stored log) {topic : String} {maxSegmentBytes interval : Nat}
    (hset : Settings topic maxSegmentBytes interval) :
    (∃ log', PartitionLog.openLog log.dir topic maxSegmentBytes interval = .ok log') ↔
      log.lowWatermark = 0 := by
  obtain ⟨_, removed, chunks, last, hrep⟩ := h
  rw [hrep.lowWatermark, List.length_eq_zero_iff]
  constructor
  · rintro ⟨log', hopen⟩
    by_contra hne
    exact hrep.openLog_refused hne hopen
  · rintro rfl
    have hbound := hrep.bound
    rw [hrep.nextOffset] at hbound
    obtain ⟨log', hopen, _⟩ :=
      openLog_laid hset hrep.laid rfl hrep.closed (List.Perm.refl _) hrep.sequenced hbound
    exact ⟨log', hopen⟩

theorem reopen (h : Stored log) {topic : String} {maxSegmentBytes interval : Nat}
    (hopen : PartitionLog.openLog log.dir topic maxSegmentBytes interval = .ok log') :
    Stored log' := by
  refine @Stored.act _ _ _ h topic (.reopen maxSegmentBytes interval) trivial ?_
  simp only [PartitionLog.act, hopen]
  rfl

end Stored

/-- **Indexed reads equal a plain scan.**  After any run of appends, truncations, syncs, retention
and reopenings, with any segment limits and index intervals, a read returns the longest prefix
within its budget of the records from the requested offset on that decoding all files yields. -/
theorem read_eq_scan {topic : String} {maxSegmentBytes interval : Nat} {log₀ log : PartitionLog}
    {acts : List Action}
    (h₀ : PartitionLog.openLog Dir.empty topic maxSegmentBytes interval = .ok log₀)
    (hfew : Along (PartitionLog.act topic) ActCountable log₀ acts)
    (hr : run (PartitionLog.act topic) log₀ acts = some log) :
    ∃ stored, log.scan = .ok stored ∧ ∀ offset maxBytes, 0 < maxBytes →
      ∃ records, log.read offset maxBytes = .ok records ∧
        LongestWithin maxBytes (stored.filter (offset ≤ ·.offset)) records ∧
        records.map (·.offset) = List.range' (max offset log.lowWatermark) records.length ∧
        ((∃ s ∈ stored, offset ≤ s.offset) → records ≠ []) := by
  have hnew : Stored log₀ := ⟨interval, [], [], [], openLog_empty h₀⟩
  obtain ⟨interval', removed, chunks, last, hrep⟩ :=
    run_invariant (fun _ _ _ hp hq hs => Stored.act hp hq hs) hnew hfew hr
  refine ⟨_, hrep.scan, fun offset maxBytes hmax => ?_⟩
  obtain ⟨records, hread, hlongest, hoffsets⟩ := @Rep.read_scan _ _ _ _ _ _ hrep offset _ hmax
  refine ⟨records, hread, hlongest, hoffsets, ?_⟩
  rintro ⟨s, hs, hle⟩
  exact hlongest.first (List.ne_nil_of_mem (List.mem_filter.2 ⟨hs, decide_eq_true hle⟩))

end Scan

/-- A record with an empty key and one of a producer. -/
def twoRecords : List (Record × UInt64) :=
  [(⟨some [], utf8 "zero", 1, none⟩, 7), (⟨none, [], 2, some ⟨"p", 0⟩⟩, 8)]

theorem segment_round_trip_torn :
    letI := Checksum.crc32
    ∃ encodings encoded, List.Forall₂ (fun x bytes => encodeRecord x.1 x.2.toNat = .ok bytes)
        twoRecords encodings ∧
      encodeRecord ⟨none, utf8 "two", 3, none⟩ 9 = .ok encoded ∧
      drain decodeRecord (encodings.flatten ++ encoded.take 30) =
        (twoRecords.map fun x => x.1.at x.2.toNat, .ok (encoded.take 30)) := by
  let _ := Checksum.crc32
  have hitems : List.Forall₂ (fun x bytes => encodeRecord x.1 x.2.toNat = .ok bytes) twoRecords
      [recordBytes ⟨some [], utf8 "zero", 1, none⟩ 7,
        recordBytes ⟨none, [], 2, some ⟨"p", 0⟩⟩ 8] :=
    .cons (encodeRecord_checked rfl 7) (.cons (encodeRecord_checked (by decide +kernel) 8) .nil)
  have hnext := @encodeRecord_checked _ ⟨none, utf8 "two", 3, none⟩ rfl 9
  refine ⟨_, _, hitems, hnext, (@segment_round_trip _ _ _ _ 9 _ _ hitems hnext
    (List.take_prefix _ _) fun heq => ?_).1⟩
  have := congrArg List.length heq
  rw [List.length_take, recordBytes_length] at this
  exact absurd this (by decide)

/-- Four records in segments of their own, retention to the last two, and another record. -/
def retainedRun : List Action :=
  [.reopen 60 64, .perform (.append ⟨none, utf8 "zero", 1, none⟩),
    .perform (.append ⟨none, utf8 "one", 1, none⟩), .perform (.append ⟨none, utf8 "two", 1, none⟩),
    .perform (.append ⟨none, utf8 "three", 1, none⟩),
    .perform (.applyRetention (some 110) none fun _ => none),
    .perform (.append ⟨none, utf8 "four", 1, none⟩)]

theorem read_eq_scan_retained :
    letI := Checksum.crc32
    ∃ log₀ log, PartitionLog.openLog Dir.empty "payments" 1024 64 = .ok log₀ ∧
      run (PartitionLog.act "payments") log₀ retainedRun = some log ∧ log.lowWatermark = 2 ∧
      ∃ stored records, log.scan = .ok stored ∧ log.read 1 100 = .ok records ∧
        LongestWithin 100 (stored.filter (1 ≤ ·.offset)) records := by
  let _ := Checksum.crc32
  have hrun : (run (PartitionLog.act "payments") ⟨0, 1024, 64, [.new 0], .empty⟩
      retainedRun).any (fun log => log.lowWatermark = 2) := by decide +kernel
  obtain ⟨log, hr, hlow⟩ := (Option.any_eq_true _ _).1 hrun
  have hfew : Along (PartitionLog.act "payments") ActCountable ⟨0, 1024, 64, [.new 0], .empty⟩
      retainedRun := by decide +kernel
  obtain ⟨stored, hscan, hread⟩ := @read_eq_scan _ "payments" 1024 64 _ _ _ rfl hfew hr
  obtain ⟨records, hrecords, hlongest, _⟩ := hread 1 100 (by decide)
  exact ⟨_, log, rfl, hr, of_decide_eq_true hlow, stored, records, hscan, hrecords, hlongest⟩

end SevlaMq.Storage
