import Mathlib.Data.List.Pairwise
import SevlaMq.Storage.Refinement

/-!
# Opening the directory of a log

`PartitionLog::open` rebuilds offsets, indexes and producer sequences from the bytes of the
segment files, and cuts an incomplete record off the last one.

* `recoverSegment_spec` — the recovery loop over whole records and an incomplete tail.
* `Laid` — a directory listing holds given chunks, and after the last one an incomplete tail.
* `openLog_laid` — opening such a directory, in whatever order its files are listed, gives a log
  that holds the chunks.
* `crash_recovery` — after any run without retention and a crash inside one further append, the
  log that is opened is the log that was live.
-/

set_option autoImplicit false

namespace SevlaMq.Storage

/-! ## Listing a directory -/

/-- A segment as `discover_segments` finds it. -/
def discovered (x : Nat × File) : SegmentMetadata := ⟨x.1, x.2.bytes.length, [], x.2, .empty⟩

/-- The order in which the files are listed does not matter. -/
theorem discoverSegments_sorted {files : List (Nat × File)} {dir : Dir}
    (hsorted : files.Pairwise fun x y => x.1 < y.1) (hdir : dir.logs.Perm files) :
    discoverSegments dir = files.map discovered := by
  have htotal : Std.Total fun x y : Nat × File => x.1 ≤ y.1 := ⟨fun x y => Nat.le_total x.1 y.1⟩
  have htrans : IsTrans (Nat × File) fun x y => x.1 ≤ y.1 := ⟨fun _ _ _ => Nat.le_trans⟩
  have hperm := (List.perm_insertionSort (fun x y => x.1 ≤ y.1) dir.logs).trans hdir
  have heq : dir.logs.insertionSort (fun x y => x.1 ≤ y.1) = files := by
    refine List.Perm.eq_of_pairwise (fun x y hx hy hxy hyx => ?_)
      (List.pairwise_insertionSort _ _) (hsorted.imp Nat.le_of_lt) hperm
    by_contra hxy'
    have hsymm : Std.Symm fun x y : Nat × File => x.1 ≠ y.1 := ⟨fun _ _ => Ne.symm⟩
    have hdistinct : files.Pairwise fun x y => x.1 ≠ y.1 := hsorted.imp Nat.ne_of_lt
    exact hdistinct.forall (hperm.subset hx) hy hxy' (Nat.le_antisymm hxy hyx)
  rw [discoverSegments, heq]
  rfl

theorem initialSegments_sorted {files : List (Nat × File)} {dir : Dir}
    (hsorted : files.Pairwise fun x y => x.1 < y.1) (hne : files ≠ []) (hdir : dir.logs.Perm files) :
    initialSegments dir = .ok (files.map discovered) := by
  rw [initialSegments, discoverSegments_sorted hsorted hdir]
  obtain ⟨x, files', rfl⟩ := List.exists_cons_of_ne_nil hne
  rfl

/-! ## The recovery loop -/

/-- A record that an append accepts passes the check of the recovery. -/
theorem recoverProducer_admitted {t : ProducerTable} {r : Record} (offset : Nat)
    (h : admission t r = .ok none) : recoverProducer t (r.at offset) = .ok (t.store r offset) := by
  unfold admission at h
  unfold recoverProducer ProducerTable.store
  simp only [Record.at]
  cases hp : r.producer with
  | none => rfl
  | some p =>
    simp only [hp] at h
    cases hv : validateProducerId p.id with
    | error e => rw [hv] at h; cases h
    | ok u =>
      simp only [hv] at h
      cases ht : t p.id with
      | none =>
        simp only [ht] at h
        split at h
        · cases h
        · rename_i hseq
          simp only [checkSequence, hv, ht, if_neg hseq]
      | some x =>
        obtain ⟨sequence, o⟩ := x
        simp only [ht] at h
        split at h
        · cases h
        · split at h
          · cases h
          · rename_i hseq
            simp only [checkSequence, hv, ht, if_neg hseq]

section Recovery

variable [Checksum]

/-- The loop over accepted records. -/
theorem recover_frames (interval : Nat) {rs : List Record} {position : Nat} {r : Recovered}
    (hseq : Sequenced r.producerState r.nextOffset rs)
    (hb : r.nextOffset + rs.length ≤ U64_MAX) :
    foldSteps (recoverRecord interval) position r (frames r.nextOffset rs) =
      .ok ⟨r.nextOffset + rs.length, indexAll interval r.index r.nextOffset position rs,
        r.producerState.storeAll r.nextOffset rs⟩ := by
  induction rs generalizing position r with
  | nil => rfl
  | cons x rs ih =>
    rw [List.length_cons] at hb
    have hstep : recoverRecord interval r position (x.at r.nextOffset) =
        .ok ⟨r.nextOffset + 1, indexRecord interval r.index r.nextOffset position,
          r.producerState.store x r.nextOffset⟩ := by
      rw [recoverRecord, recoverProducer_admitted r.nextOffset hseq.1.1]
      simp only [Record.at_offset, ne_eq, not_true, if_false]
      rw [if_neg (by omega)]
    rw [frames, foldSteps]
    simp only [hstep]
    have hrest := @ih (position + (recordBytes x r.nextOffset).length)
      ⟨r.nextOffset + 1, indexRecord interval r.index r.nextOffset position,
        r.producerState.store x r.nextOffset⟩ hseq.2 (by simp only; omega)
    rw [hrest, recordBytes_length]
    simp only [List.length_cons, indexAll, ProducerTable.storeAll]
    rw [Nat.add_assoc, Nat.add_comm 1]

/-- **The recovery of a segment** finds its whole records and leaves an incomplete tail. -/
theorem recoverSegment_spec {interval base : Nat} {rs : List Record} {t : ProducerTable}
    {tail : Bytes} (hseq : Sequenced t base rs) (hb : base + rs.length ≤ U64_MAX)
    (htail : decodeRecord tail = .ok none) :
    recoverSegment (segmentBytes base rs ++ tail) base interval t =
      .ok (⟨base + rs.length, sparseIndex interval base rs, t.storeAll base rs⟩, totalSize rs) := by
  have hframes := frames_isFrame hseq.checked hb
  have hfuel : (frames base rs).length < (segmentBytes base rs ++ tail).length + 1 := by
    have := length_le_concatFrames hframes
    rw [List.length_append]
    exact Nat.lt_succ_of_le (Nat.le_trans this (Nat.le_add_right _ _))
  have hloop : foldFrames decodeRecord (recoverRecord interval) (segmentBytes base rs ++ tail).length
      ((segmentBytes base rs ++ tail).length + 1) ⟨base, [], t⟩ (segmentBytes base rs ++ tail) =
      .ok (⟨base + rs.length, sparseIndex interval base rs, t.storeAll base rs⟩, tail) := by
    have := foldFrames_concat (recoverRecord interval) htail (frames base rs) _ 0 ⟨base, [], t⟩
      _ hframes hfuel (recover_frames interval hseq hb)
    rwa [Nat.zero_add] at this
  rw [recoverSegment, hloop]
  simp only
  rw [List.length_append, Nat.add_sub_cancel, segmentBytes_length]

/-! ## A directory and its chunks -/

/-- The listing holds the chunks, one file each from offset `base` on, and after the last one an
incomplete tail. -/
inductive Laid (tail : Bytes) : Nat → List (List Record) → List Record → List (Nat × File) → Prop
  | last {base : Nat} {rs : List Record} {f : File} (h : f.bytes = segmentBytes base rs ++ tail) :
      Laid tail base [] rs [(base, f)]
  | cons {base : Nat} {rs : List Record} {chunks : List (List Record)} {rest : List Record}
      {f : File} {files : List (Nat × File)} (h : f.bytes = segmentBytes base rs)
      (next : Laid tail (base + rs.length) chunks rest files) :
      Laid tail base (rs :: chunks) rest ((base, f) :: files)

namespace Laid

variable {tail : Bytes} {base : Nat} {chunks : List (List Record)} {last : List Record}
  {files : List (Nat × File)}

theorem ne_nil (h : Laid tail base chunks last files) : files ≠ [] := by
  cases h <;> exact List.cons_ne_nil _ _

theorem base_le (h : Laid tail base chunks last files) : ∀ x ∈ files, base ≤ x.1 := by
  induction h with
  | last h => exact fun x hx => by rw [List.mem_singleton.1 hx]
  | cons h next ih =>
    intro x hx
    rcases List.mem_cons.1 hx with rfl | hx
    · exact Nat.le_refl _
    · exact Nat.le_trans (Nat.le_add_right _ _) (ih x hx)

/-- The files have different names and are listed in the order of the records. -/
theorem sorted (h : Laid tail base chunks last files) (hne : ∀ rs ∈ chunks, rs ≠ []) :
    files.Pairwise fun x y => x.1 < y.1 := by
  induction h with
  | last h => exact List.pairwise_singleton _ _
  | @cons base rs chunks rest f files h next ih =>
    refine List.pairwise_cons.2 ⟨fun x hx => ?_, ih fun y hy => hne y (List.mem_cons_of_mem _ hy)⟩
    have hpos : 0 < rs.length := List.length_pos_iff.2 (hne rs List.mem_cons_self)
    have := next.base_le x hx
    simp only
    omega

end Laid

/-- A recovered segment holds its whole records. -/
theorem recovered_holds {interval base : Nat} {rs : List Record} {f : File} {tail : Bytes}
    (h : f.bytes = segmentBytes base rs ++ tail) :
    Holds interval base rs
      ((discovered (base, f)).recovered (totalSize rs) (sparseIndex interval base rs)) := by
  have hlen : (discovered (base, f)).len = totalSize rs + tail.length := by
    simp only [discovered, h, List.length_append, segmentBytes_length]
  refine ⟨rfl, ?_, ?_, rfl⟩
  · simp only [SegmentMetadata.recovered, rewriteIndex, hlen]
    split
    · simp only [discovered, File.setLen, h]
      exact List.take_left' (segmentBytes_length base rs)
    · have : tail = [] := List.length_eq_zero_iff.1 (by omega)
      simp only [discovered, h, this, List.append_nil]
  · simp only [SegmentMetadata.recovered, rewriteIndex, hlen]
    split <;> omega

/-- The loop of `open` over a directory that holds accepted records. -/
theorem recoverSegments_laid {interval base : Nat} {tail : Bytes} {chunks : List (List Record)}
    {last : List Record} {files : List (Nat × File)} (h : Laid tail base chunks last files)
    (htail : decodeRecord tail = .ok none) {t : ProducerTable}
    (hseq : Sequenced t base (chunks.flatten ++ last))
    (hb : base + (chunks.flatten ++ last).length ≤ U64_MAX) :
    ∃ segments, recoverSegments interval base t (files.map discovered) =
        .ok (base + (chunks.flatten ++ last).length, t.storeAll base (chunks.flatten ++ last),
          segments) ∧
      Covers interval base (chunks ++ [last]) segments := by
  induction h generalizing t with
  | @last base rs f h =>
    simp only [List.flatten_nil, List.nil_append] at hseq hb ⊢
    refine ⟨_, ?_, .cons (recovered_holds h) .nil⟩
    rw [List.map_cons, List.map_nil, recoverSegments, if_neg (fun hne => hne rfl)]
    simp only [discovered, h]
    rw [recoverSegment_spec hseq hb htail]
    simp only [ne_eq, not_true, and_false, if_false, recoverSegments]
  | @cons base rs chunks rest f files h next ih =>
    rw [List.flatten_cons, List.append_assoc] at hseq hb ⊢
    have hseq' := (sequenced_append _ _ _ _).1 hseq
    rw [List.length_append, ← Nat.add_assoc] at hb ⊢
    obtain ⟨segments, hrest, hcov⟩ := ih hseq'.2 hb
    have hbytes : f.bytes = segmentBytes base rs ++ [] := by rw [h, List.append_nil]
    refine ⟨_, ?_, .cons (recovered_holds hbytes) hcov⟩
    rw [List.map_cons, recoverSegments, if_neg (fun hne => hne rfl)]
    have hspec := @recoverSegment_spec _ interval _ _ _ [] hseq'.1 (by omega) rfl
    rw [← hbytes] at hspec
    have hlen : ¬ totalSize rs < (discovered (base, f)).len := by
      simp only [discovered, h, segmentBytes_length]
      exact Nat.lt_irrefl _
    simp only [show (discovered (base, f)).file = f from rfl, hspec, hlen, false_and, if_false,
      hrest]
    rw [ProducerTable.storeAll_append t base rs]

/-- The settings `open` accepts. -/
structure Settings (topic : String) (maxSegmentBytes interval : Nat) : Prop where
  topic : validateTopic topic = .ok ()
  segment : maxSegmentBytes ≠ 0
  index : interval ≠ 0

/-- **Opening a directory** that holds accepted records, whatever its index files hold. -/
theorem openLog_laid {topic : String} {maxSegmentBytes interval : Nat} {tail : Bytes}
    {chunks : List (List Record)} {last : List Record} {files : List (Nat × File)} {dir : Dir}
    (hset : Settings topic maxSegmentBytes interval) (h : Laid tail 0 chunks last files)
    (htail : decodeRecord tail = .ok none) (hne : ∀ rs ∈ chunks, rs ≠ [])
    (hdir : dir.logs.Perm files) (hseq : Sequenced .empty 0 (chunks.flatten ++ last))
    (hb : (chunks.flatten ++ last).length ≤ U64_MAX) :
    ∃ log, PartitionLog.openLog dir topic maxSegmentBytes interval = .ok log ∧
      Rep interval log [] chunks last := by
  obtain ⟨segments, hrec, hcov⟩ := @recoverSegments_laid _ interval _ _ _ _ _ h htail _ hseq
    (by rw [Nat.zero_add]; exact hb)
  have hinit := initialSegments_sorted (h.sorted hne) h.ne_nil hdir
  refine ⟨⟨(chunks.flatten ++ last).length, maxSegmentBytes, interval, segments,
    ProducerTable.empty.storeAll 0 (chunks.flatten ++ last)⟩, ?_, rfl, hcov, hne, rfl, hseq, rfl, hb⟩
  rw [PartitionLog.openLog, hset.topic]
  simp only [if_neg hset.segment, if_neg hset.index, hinit, hrec, Nat.zero_add]

/-- A directory that can be opened was opened with valid settings. -/
theorem openLog_settings {dir : Dir} {topic : String} {maxSegmentBytes interval : Nat}
    {log : PartitionLog} (h : PartitionLog.openLog dir topic maxSegmentBytes interval = .ok log) :
    Settings topic maxSegmentBytes interval := by
  unfold PartitionLog.openLog at h
  split at h
  · cases h
  · rename_i htopic
    split at h
    · cases h
    · rename_i hseg
      split at h
      · cases h
      · rename_i hidx
        exact ⟨htopic, hseg, hidx⟩

/-- A new log has an empty segment 0. -/
theorem openLog_new {topic : String} {maxSegmentBytes interval : Nat} {log : PartitionLog}
    (h : PartitionLog.openLog Dir.empty topic maxSegmentBytes interval = .ok log) :
    log = ⟨0, maxSegmentBytes, interval, [.new 0], .empty⟩ := by
  have hset := openLog_settings h
  unfold PartitionLog.openLog at h
  rw [hset.topic] at h
  simp only [if_neg hset.segment, if_neg hset.index] at h
  cases h
  rfl

theorem openLog_empty {topic : String} {maxSegmentBytes interval : Nat} {log : PartitionLog}
    (h : PartitionLog.openLog Dir.empty topic maxSegmentBytes interval = .ok log) :
    Rep interval log [] [] [] := by
  rw [openLog_new h]
  exact ⟨rfl, .cons ⟨rfl, rfl, rfl, rfl⟩ .nil, fun _ hrs => absurd hrs List.not_mem_nil, rfl, trivial,
    rfl, Nat.zero_le _⟩

/-- The directory of a live log holds its chunks. -/
theorem Covers.laid {interval base : Nat} {chunks : List (List Record)} {last : List Record}
    {closed : List SegmentMetadata} {active : SegmentMetadata} {tail : Bytes} {f : File}
    (h : Covers interval base chunks closed)
    (ha : Holds interval (base + chunks.flatten.length) last active)
    (hf : f.bytes = active.file.bytes ++ tail) :
    Laid tail base chunks last
      (closed.map (fun s => (s.baseOffset, s.file)) ++ [(active.baseOffset, f)]) := by
  induction h with
  | nil =>
    rw [ha.baseOffset]
    exact .last (by rw [hf, ha.bytes]; rfl)
  | @cons base rs chunks s ss head tail ih =>
    rw [List.map_cons, List.cons_append, head.baseOffset]
    refine .cons head.bytes (ih ?_)
    rw [List.flatten_cons, List.length_append, ← Nat.add_assoc] at ha
    exact ha

/-! ## A crash inside an append -/

/-- The directory when an append of `record` was interrupted: the log may have rotated, and a
proper prefix of the encoding is at the end of the active file.  Nothing is said about the index
files. -/
inductive Torn (log : PartitionLog) (record : Record) (dir : Dir) : Prop
  | mk {log₁ : PartitionLog} {active : SegmentMetadata} {encoded tail : Bytes}
      (hencoded : encodeRecord record log.nextOffset = .ok encoded)
      (hroom : log₁ = log ∨ log.makeRoom encoded.length = .ok log₁)
      (hactive : log₁.segments.getLast? = some active)
      (hpre : tail <+: encoded) (hne : tail ≠ encoded)
      (hdir : dir.logs.Perm (log₁.setActive { active with
        file := { active.file with bytes := active.file.bytes ++ tail } }).dir.logs)

/-- Making room leaves the log alone or closes its last chunk. -/
theorem Rep.makeRoom {interval n : Nat} {log log₁ : PartitionLog} {removed : List Record}
    {chunks : List (List Record)} {last : List Record} (h : Rep interval log removed chunks last)
    (hroom : log.makeRoom n = .ok log₁) :
    log₁ = log ∨ Rep interval log₁ removed (chunks ++ [last]) [] := by
  obtain ⟨closed, active, hs, hclosed, hactive⟩ := h.segments.last
  have hlast : log.segments.getLast? = some active := by rw [hs, List.getLast?_concat]
  simp only [PartitionLog.makeRoom, hlast] at hroom
  split at hroom
  · rename_i hfull
    obtain ⟨_, hrot⟩ | ⟨_, hrot⟩ := log.rotate_cases
    · rw [hrot] at hroom; cases hroom
    · rw [hrot] at hroom
      cases hroom
      have hne : last ≠ [] := by
        rintro rfl
        simp [PartitionLog.full, hactive.len, totalSize] at hfull
      have hhist : history removed (chunks ++ [last]) [] = history removed chunks last := by
        simp [history]
      have hbase : removed.length + (chunks ++ [last]).flatten.length = log.nextOffset := by
        rw [h.nextOffset_eq]; simp
      refine Or.inr ⟨h.indexInterval, h.segments.concat ?_, fun rs hrs => ?_, ?_, ?_, ?_, h.bound⟩
      · rw [hbase]; exact Holds.new _ _
      · rcases List.mem_append.1 hrs with hrs | hrs
        · exact h.closed rs hrs
        · rw [List.mem_singleton.1 hrs]; exact hne
      · rw [hhist]; exact h.nextOffset
      · rw [hhist]; exact h.sequenced
      · rw [hhist]; exact h.producerState
  · cases hroom
    exact Or.inl rfl

/-- The log that is opened after a crash inside an append. -/
theorem Rep.torn {interval : Nat} {log : PartitionLog} {chunks : List (List Record)}
    {last : List Record} (h : Rep interval log [] chunks last) {record : Record} {dir : Dir}
    {topic : String} {maxSegmentBytes : Nat} (hset : Settings topic maxSegmentBytes interval)
    (ht : Torn log record dir) :
    ∃ log' chunks' last', PartitionLog.openLog dir topic maxSegmentBytes interval = .ok log' ∧
      Rep interval log' [] chunks' last' ∧
      history [] chunks' last' = history [] chunks last ∧
      chunkImages interval 0 (chunks' ++ [last']) = chunkImages interval 0 (chunks ++ [last]) := by
  obtain @⟨log₁, active, encoded, tail, hencoded, hroom, hactive, hpre, hne, hdir⟩ := ht
  have htail : decodeRecord tail = .ok none := by
    refine (encodeRecord_isFrame ?_ hencoded).torn tail hpre hne
    have := h.bound
    simp only [U64_MAX] at this
    omega
  -- the chunks of the log that was being written to
  obtain ⟨chunks₁, last₁, h₁, hhist, himages⟩ : ∃ chunks₁ last₁, Rep interval log₁ [] chunks₁ last₁ ∧
      history [] chunks₁ last₁ = history [] chunks last ∧
      chunkImages interval 0 (chunks₁ ++ [last₁]) = chunkImages interval 0 (chunks ++ [last]) := by
    have hsame : log₁ = log ∨ Rep interval log₁ [] (chunks ++ [last]) [] := by
      rcases hroom with rfl | hroom
      · exact Or.inl rfl
      · exact h.makeRoom hroom
    rcases hsame with rfl | h₁
    · exact ⟨chunks, last, h, rfl, rfl⟩
    · exact ⟨_, _, h₁, by simp [history], chunkImages_nil _ _ _⟩
  obtain ⟨closed, active₁, hs, hclosed, hholds⟩ := h₁.segments.last
  rw [hs, List.getLast?_concat] at hactive
  obtain rfl : active₁ = active := Option.some.inj hactive
  have hlaid := hclosed.laid hholds (f := { active₁.file with bytes := active₁.file.bytes ++ tail })
    rfl
  have hfiles : (log₁.setActive { active₁ with
      file := { active₁.file with bytes := active₁.file.bytes ++ tail } }).dir.logs =
      closed.map (fun s => (s.baseOffset, s.file)) ++
        [(active₁.baseOffset, { active₁.file with bytes := active₁.file.bytes ++ tail })] := by
    simp only [PartitionLog.setActive, PartitionLog.dir, hs, List.dropLast_concat, List.map_append,
      List.map_cons, List.map_nil]
  rw [hfiles] at hdir
  have hbound := h₁.bound
  rw [h₁.nextOffset] at hbound
  obtain ⟨log', hopen, hrep⟩ := openLog_laid hset hlaid htail h₁.closed hdir h₁.sequenced hbound
  exact ⟨log', chunks₁, last₁, hopen, hrep, hhist, himages⟩

/-- **Crash recovery equals the live log.**  After any run of appends, replica appends,
truncations and syncs from an empty directory, and a crash inside one further append, opening the
directory gives the log that was live before that append. -/
theorem crash_recovery {topic : String} {maxSegmentBytes interval : Nat}
    {log₀ log : PartitionLog} {ops : List Operation} {record : Record} {dir : Dir}
    (h₀ : PartitionLog.openLog Dir.empty topic maxSegmentBytes interval = .ok log₀)
    (hops : ∀ op ∈ ops, op.retains = false) (hfew : Along PartitionLog.step Countable log₀ ops)
    (hr : run PartitionLog.step log₀ ops = some log) (ht : Torn log record dir) :
    ∃ log', PartitionLog.openLog dir topic maxSegmentBytes interval = .ok log' ∧
      log'.nextOffset = log.nextOffset ∧
      (∀ offset maxBytes, log'.read offset maxBytes = log.read offset maxBytes) ∧
      log'.producerState = log.producerState ∧ images log'.segments = images log.segments := by
  have hnew : Refines interval log₀ [] := ⟨[], [], openLog_empty h₀, rfl⟩
  obtain ⟨chunks, last, hrep, hrecords⟩ := hnew.of_run hops hfew hr
  obtain ⟨log', chunks', last', hopen, hrep', hhist, himages⟩ :=
    hrep.torn (openLog_settings h₀) ht
  have hlive : Refines interval log (history [] chunks last) := ⟨chunks, last, hrep, rfl⟩
  have hopened : Refines interval log' (history [] chunks last) := ⟨chunks', last', hrep', hhist⟩
  refine ⟨log', hopen, ?_, fun offset maxBytes => ?_, ?_, ?_⟩
  · rw [hopened.nextOffset, hlive.nextOffset]
  · rw [hopened.read, hlive.read]
  · rw [hopened.producerState, hlive.producerState]
  · rw [hrep'.segments.images, hrep.segments.images]
    exact himages

end Recovery

/-- Two records, a truncation and a third one: the next record does not fit into segment 0. -/
def rotatingRun : List Operation :=
  [.append ⟨none, utf8 "zero", 1, none⟩, .append ⟨none, utf8 "one", 1, some ⟨"p", 0⟩⟩,
    .truncateTo 1, .append ⟨none, utf8 "two", 1, some ⟨"p", 0⟩⟩]

theorem crash_recovery_rotating :
    letI := Checksum.crc32
    ∃ log₀ log log' dir, PartitionLog.openLog Dir.empty "payments" 110 64 = .ok log₀ ∧
      run PartitionLog.step log₀ rotatingRun = some log ∧
      Torn log ⟨none, utf8 "three", 1, none⟩ dir ∧ dir.logs.length = 2 ∧
      PartitionLog.openLog dir "payments" 110 64 = .ok log' ∧ log'.nextOffset = log.nextOffset ∧
      images log'.segments = images log.segments := by
  let _ := Checksum.crc32
  have h₀ : PartitionLog.openLog Dir.empty "payments" 110 64 = .ok ⟨0, 110, 64, [.new 0], .empty⟩ :=
    rfl
  have hfew : Along PartitionLog.step Countable ⟨0, 110, 64, [.new 0], .empty⟩ rotatingRun := by
    decide +kernel
  have hrun : (run PartitionLog.step ⟨0, 110, 64, [.new 0], .empty⟩ rotatingRun).any (fun log =>
      (log.makeRoom 50).toOption.any fun log₁ => log₁.segments.length = 2) := by decide +kernel
  obtain ⟨log, hr, hlog⟩ := (Option.any_eq_true _ _).1 hrun
  cases hroom : log.makeRoom 50 with
  | error e => rw [hroom] at hlog; cases hlog
  | ok log₁ =>
    have hlen : log₁.segments.length = 2 := by simpa [hroom, Except.toOption] using hlog
    obtain ⟨active, hactive⟩ : ∃ active, log₁.segments.getLast? = some active :=
      Option.ne_none_iff_exists'.1 fun h => by simp [List.getLast?_eq_none_iff.1 h] at hlen
    have hsize : ∀ offset, (recordBytes ⟨none, utf8 "three", 1, none⟩ offset).length = 50 :=
      fun offset => recordBytes_length _ offset
    have ht := @Torn.mk _ log ⟨none, utf8 "three", 1, none⟩ ⟨_, [(0, ⟨[1, 2, 3], 0⟩)]⟩ log₁ active _
      ((recordBytes ⟨none, utf8 "three", 1, none⟩ log.nextOffset).take 7)
      (encodeRecord_checked rfl _) (Or.inr (by rw [hsize]; exact hroom)) hactive
      (List.take_prefix _ _) (fun h => by simpa [hsize] using congrArg List.length h)
      (List.Perm.refl _)
    obtain ⟨log', hopen, hnext, _, _, himages⟩ := crash_recovery h₀ (by decide) hfew hr ht
    refine ⟨_, log, log', _, h₀, hr, ht, ?_, hopen, hnext, himages⟩
    simp [PartitionLog.setActive, PartitionLog.dir, hlen]

end SevlaMq.Storage
