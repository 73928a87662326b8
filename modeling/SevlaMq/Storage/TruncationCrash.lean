import SevlaMq.Storage.Truncation

/-!
# Crashes during a truncation

`truncate_to` removes the index and the log of every segment, the first one first, before it writes
the records it keeps again.

* `FileOp` — one operation on the files of a partition; `truncateOps` — those of `truncate_to`, in
  order.
* `truncateOps_dir` — all of them together leave the directory of the truncated log.
* `CrashSafe` — a crash after any number of them leaves a directory that opens and holds the
  records below the offset.
* `records_lost_in_truncation` — a crash behind the first two removals.
* `truncate_crash_safe_iff` — a truncation is safe when there is nothing to cut, or when all of a
  single segment goes, and only then.
-/

set_option autoImplicit false

namespace SevlaMq.Storage

/-! ## File operations -/

inductive FileOp where
  | removeIndex (base : Nat)
  | removeLog (base : Nat)
  | createLog (base : Nat)
  | createIndex (base : Nat)
  | syncDir
  | writeIndex (base : Nat) (data : Bytes)
  | writeLog (base : Nat) (data : Bytes)
  | syncLog (base : Nat)
  | syncIndex (base : Nat)
  deriving DecidableEq, Repr

/-- Change the file with the given name. -/
def onFile (base : Nat) (change : File → File) (files : List (Nat × File)) : List (Nat × File) :=
  files.map fun x => if x.1 = base then (x.1, change x.2) else x

/-- The directory after a file operation that succeeds. -/
def FileOp.perform (dir : Dir) : FileOp → Dir
  | .removeIndex base => { dir with indexes := dir.indexes.filter (·.1 ≠ base) }
  | .removeLog base => { dir with logs := dir.logs.filter (·.1 ≠ base) }
  | .createLog base => { dir with logs := dir.logs ++ [(base, .empty)] }
  | .createIndex base => { dir with indexes := dir.indexes ++ [(base, .empty)] }
  | .syncDir => dir
  | .writeIndex base data =>
    { dir with indexes := onFile base (fun f => { f with bytes := f.bytes ++ data }) dir.indexes }
  | .writeLog base data =>
    { dir with logs := onFile base (fun f => { f with bytes := f.bytes ++ data }) dir.logs }
  | .syncLog base => { dir with logs := onFile base File.syncData dir.logs }
  | .syncIndex base => { dir with indexes := onFile base File.syncData dir.indexes }

def performAll (dir : Dir) (ops : List FileOp) : Dir := ops.foldl FileOp.perform dir

theorem performAll_append (dir : Dir) (ops ops' : List FileOp) :
    performAll dir (ops ++ ops') = performAll (performAll dir ops) ops' := List.foldl_append

/-- `create_segment`. -/
def createOps (base : Nat) : List FileOp := [.createLog base, .createIndex base, .syncDir]

/-- The removals of `truncate_to`. -/
def removeOps (segments : List SegmentMetadata) : List FileOp :=
  segments.flatMap fun s => [.removeIndex s.baseOffset, .removeLog s.baseOffset]

namespace PartitionLog

/-- The writes of `append` to its target. -/
def writeOps (interval offset : Nat) (target : SegmentMetadata) (encoded : Bytes) : List FileOp :=
  (if shouldIndex interval target.index target.len then
    [.writeIndex target.baseOffset (encodeIndexEntry ⟨offset, target.len⟩)]
  else []) ++ [.writeLog target.baseOffset encoded]

/-- The file operations of `append`. -/
def appendOps [Checksum] (log : PartitionLog) (r : Record) : List FileOp :=
  match admission log.producerState r with
  | .ok none =>
    match encodeRecord r log.nextOffset, log.segments.getLast? with
    | .ok encoded, some active =>
      if log.full active encoded.length then
        createOps log.nextOffset ++
          writeOps log.indexIntervalBytes log.nextOffset (.new log.nextOffset) encoded
      else writeOps log.indexIntervalBytes log.nextOffset active encoded
    | _, _ => []
  | _ => []

/-- `sync_data`. -/
def syncOps (log : PartitionLog) : List FileOp :=
  match log.segments.getLast? with
  | none => []
  | some s => [.syncLog s.baseOffset, .syncIndex s.baseOffset]

/-- The file operations behind the removals: the appends and the final sync. -/
def replayOps [Checksum] : PartitionLog → List Record → List FileOp
  | log, [] => log.syncOps
  | log, r :: rs =>
    log.appendOps r ++
      match log.append r with
      | (.error _, _) => []
      | (.ok _, log') => log'.replayOps rs

/-- The file operations of `truncate_to`. -/
def truncateOps [Checksum] (log : PartitionLog) (offset : Nat) : List FileOp :=
  if log.nextOffset < offset then []
  else if offset = log.nextOffset then []
  else
    match log.read 0 USIZE_MAX with
    | .error _ => []
    | .ok records =>
      let retained := records.filter (·.offset < offset)
      removeOps log.segments ++ createOps 0 ++
        log.cleared.replayOps (retained.map StoredRecord.toRecord)

end PartitionLog

/-! ## The directory they leave -/

theorem onFile_last {base : Nat} {change : File → File} {files : List (Nat × File)} {f : File}
    (h : ∀ x ∈ files, x.1 ≠ base) :
    onFile base change (files ++ [(base, f)]) = files ++ [(base, change f)] := by
  have hkeep : files.map (fun x => if x.1 = base then (x.1, change x.2) else x) = files := by
    refine (List.map_congr_left fun x hx => ?_).trans (List.map_id files)
    exact if_neg (h x hx)
  rw [onFile, List.map_append, hkeep]
  simp

/-- The names of the closed segments differ from that of the active one. -/
def Apart (closed : List SegmentMetadata) (active : SegmentMetadata) : Prop :=
  ∀ s ∈ closed, s.baseOffset ≠ active.baseOffset

theorem Apart.files {closed : List SegmentMetadata} {active : SegmentMetadata}
    (h : Apart closed active) (file : SegmentMetadata → File) :
    ∀ x ∈ closed.map (fun s => (s.baseOffset, file s)), x.1 ≠ active.baseOffset := by
  intro x hx
  obtain ⟨s, hs, rfl⟩ := List.mem_map.1 hx
  exact h s hs

namespace PartitionLog

/-- The writes of an append leave the files of the segment that was written. -/
theorem writeOps_dir {log : PartitionLog} {closed : List SegmentMetadata}
    {active w : SegmentMetadata} {interval offset : Nat} {encoded : Bytes}
    (hs : log.segments = closed ++ [active]) (hapart : Apart closed active)
    (hw : active.write interval offset encoded = .ok w) :
    performAll log.dir (writeOps interval offset active encoded) =
      dir { log with segments := closed ++ [w] } := by
  have hbase := (SegmentMetadata.write_ok hw).1
  have hfile := (SegmentMetadata.write_ok hw).2.2.2
  have hlogs := hapart.files (·.file)
  have hindexes := hapart.files (·.indexFile)
  have hindex : w.indexFile = if shouldIndex interval active.index active.len then
      { active.indexFile with
        bytes := active.indexFile.bytes ++ encodeIndexEntry ⟨offset, active.len⟩ }
      else active.indexFile := by
    unfold SegmentMetadata.write at hw
    split at hw
    · cases hw
    rename_i indexFile hi
    have hwi : w.indexFile = indexFile := by
      split at hw
      · cases hw
      · split at hw
        · cases hw
        · cases hw
          rfl
    rw [hwi]
    unfold SegmentMetadata.writeIndex at hi
    split at hi
    · rename_i hshould
      rw [if_pos hshould, (File.writeAll_ok hi).2]
    · rename_i hshould
      cases hi
      rw [if_neg hshould]
  simp only [dir, hs, List.map_append, List.map_cons, List.map_nil, hbase, hfile, hindex, writeOps]
  cases shouldIndex interval active.index active.len with
  | true =>
    simp only [if_true, List.cons_append, List.nil_append, performAll, List.foldl_cons,
      List.foldl_nil, FileOp.perform, onFile_last hlogs, onFile_last hindexes]
  | false =>
    simp only [Bool.false_eq_true, if_false, List.nil_append, performAll, List.foldl_cons,
      List.foldl_nil, FileOp.perform, onFile_last hlogs]

theorem createOps_dir (log : PartitionLog) (base : Nat) :
    performAll log.dir (createOps base) =
      dir { log with segments := log.segments ++ [.new base] } := by
  simp [performAll, createOps, FileOp.perform, dir, SegmentMetadata.new]

/-- The removals leave the files of the other segments. -/
theorem removeOps_dir : ∀ (segments : List SegmentMetadata) (d : Dir),
    performAll d (removeOps segments) =
      ⟨d.logs.filter fun x => segments.all (x.1 ≠ ·.baseOffset),
        d.indexes.filter fun x => segments.all (x.1 ≠ ·.baseOffset)⟩
  | [], d => by simp [performAll, removeOps]
  | s :: segments, d => by
    have hcons : removeOps (s :: segments) =
        [.removeIndex s.baseOffset, .removeLog s.baseOffset] ++ removeOps segments := rfl
    rw [hcons, performAll_append, removeOps_dir segments]
    simp only [performAll, List.foldl_cons, List.foldl_nil, FileOp.perform, List.filter_filter,
      List.all_cons, Dir.mk.injEq]
    constructor
    · exact List.filter_congr fun x _ => Bool.and_comm _ _
    · exact List.filter_congr fun x _ => Bool.and_comm _ _

/-- Nothing is left when all segments are removed. -/
theorem removeOps_all (log : PartitionLog) : performAll log.dir (removeOps log.segments) = Dir.empty := by
  rw [removeOps_dir, Dir.empty, Dir.mk.injEq]
  constructor
  · refine List.filter_eq_nil_iff.2 fun x hx => ?_
    obtain ⟨s, hs, rfl⟩ := List.mem_map.1 hx
    simp only [List.all_eq_true, not_forall]
    exact ⟨s, hs, by simp⟩
  · refine List.filter_eq_nil_iff.2 fun x hx => ?_
    obtain ⟨s, hs, rfl⟩ := List.mem_map.1 hx
    simp only [List.all_eq_true, not_forall]
    exact ⟨s, hs, by simp⟩

end PartitionLog

/-! ## Crashes -/

/-- Both files of every segment are synced to their end. -/
def FullySynced (log : PartitionLog) : Prop :=
  ∀ s ∈ log.segments, s.file.synced = s.file.bytes.length ∧
    s.indexFile.synced = s.indexFile.bytes.length

theorem FullySynced.closed {log : PartitionLog} (h : FullySynced log) : ClosedSynced log :=
  fun s hs => (h s (List.dropLast_subset _ hs)).1

/-- A crash may leave everything as it is. -/
theorem crash_refl {dir : Dir} (hlogs : ∀ x ∈ dir.logs, x.2.synced ≤ x.2.bytes.length)
    (hindexes : ∀ x ∈ dir.indexes, x.2.synced ≤ x.2.bytes.length) : Crash dir dir :=
  .mk (List.Perm.refl _) (List.Perm.refl _)
    (List.forall₂_same.2 fun x hx => ⟨rfl, .refl (hlogs x hx)⟩)
    (List.forall₂_same.2 fun x hx => ⟨rfl, .refl (hindexes x hx)⟩)

/-- What a crash leaves of an empty file. -/
theorem keeps_blank {files : List (Nat × File)} {f : File} (hf : f.bytes = [])
    (h : List.Forall₂ (fun x y => y.1 = x.1 ∧ x.2.Keeps y.2) [(0, f)] files) :
    ∃ g : File, g.bytes = [] ∧ files = [(0, g)] := by
  obtain ⟨y, rest, ⟨hname, hkeep⟩, hrest, rfl⟩ := List.forall₂_cons_left_iff.1 h
  cases hrest
  obtain ⟨name, g⟩ := y
  obtain rfl : name = 0 := hname
  refine ⟨g, ?_, rfl⟩
  have hpre := hkeep.1
  rw [hf] at hpre
  exact List.prefix_nil.1 hpre

section Directory

variable [Checksum] {interval : Nat} {log log' : PartitionLog} {removed : List Record}
  {chunks : List (List Record)} {last : List Record}

namespace Rep

/-- Every segment has a name of its own. -/
theorem apart (h : Rep interval log removed chunks last) {closed : List SegmentMetadata}
    {active : SegmentMetadata} (hs : log.segments = closed ++ [active]) : Apart closed active := by
  have hsorted := h.laid.sorted h.closed
  simp only [PartitionLog.dir, hs, List.map_append, List.map_cons, List.map_nil] at hsorted
  intro s hsc
  have hlt := (List.pairwise_append.1 hsorted).2.2 (s.baseOffset, s.file)
    (List.mem_map.2 ⟨s, hsc, rfl⟩) (active.baseOffset, active.file) (List.mem_singleton.2 rfl)
  exact Nat.ne_of_lt hlt

/-- The file operations of an append that is stored. -/
theorem appendOps_dir (h : Rep interval log removed chunks last) {r : Record}
    (ha : admission log.producerState r = .ok none) (hc : checkRecord r = .ok ())
    (hb : log.nextOffset < U64_MAX) (hio : (log.append r).1 ≠ .error .io) :
    performAll log.dir (log.appendOps r) = (log.append r).2.dir := by
  obtain ⟨closed, active, hs, _, hactive⟩ := h.segments.last
  obtain ⟨w, hw, happ⟩ := PartitionLog.append_stored ha hc hs hactive.len_eq hb hio
  have hlast : log.segments.getLast? = some active := by rw [hs, List.getLast?_concat]
  have hroom : (log.makeRoom (encodedSize r)) ≠ .error .io := by
    intro he
    simp only [PartitionLog.append, ha, encodeRecord_checked hc, recordBytes_length, he] at hio
    exact hio rfl
  rw [happ]
  unfold PartitionLog.appendOps
  simp only [ha, encodeRecord_checked hc, hlast, recordBytes_length]
  unfold PartitionLog.target at hw ⊢
  cases hfull : log.full active (encodedSize r) with
  | false =>
    simp only [hfull, Bool.false_eq_true, if_false] at hw ⊢
    exact PartitionLog.writeOps_dir hs (h.apart hs) hw
  | true =>
    simp only [hfull, if_true] at hw ⊢
    simp only [PartitionLog.makeRoom, hlast, hfull, if_true] at hroom
    rw [performAll_append, PartitionLog.createOps_dir]
    obtain ⟨_, hrot⟩ | ⟨hfree, _⟩ := log.rotate_cases
    · exact absurd hrot hroom
    · have hapart : Apart log.segments (.new log.nextOffset) := by
        intro s hsl heq
        have htaken := List.any_eq_false.1 hfree s hsl
        exact htaken (decide_eq_true heq)
      have hdir := @PartitionLog.writeOps_dir
        { log with segments := log.segments ++ [.new log.nextOffset] } log.segments
        (.new log.nextOffset) w log.indexIntervalBytes log.nextOffset _ rfl hapart hw
      rw [hdir, ← hs]
      rfl

/-- The file operations of a sync. -/
theorem syncOps_dir (h : Rep interval log removed chunks last) :
    performAll log.dir log.syncOps = log.syncData.dir := by
  obtain ⟨closed, active, hs, _, _⟩ := h.segments.last
  have hlast : log.segments.getLast? = some active := by rw [hs, List.getLast?_concat]
  have hapart := h.apart hs
  have hlogs := hapart.files (·.file)
  have hindexes := hapart.files (·.indexFile)
  rw [PartitionLog.syncData_eq hs, PartitionLog.syncOps, hlast]
  simp only [PartitionLog.dir, hs, List.map_append, List.map_cons,
    List.map_nil, performAll, List.foldl_cons, List.foldl_nil, FileOp.perform, onFile_last hlogs,
    onFile_last hindexes]

/-- The file operations of a replay. -/
theorem replayOps_dir {rs : List Record} (h : Rep interval log removed chunks last)
    (hseq : Sequenced .empty 0 (history removed chunks last ++ rs))
    (hb : log.nextOffset + rs.length ≤ U64_MAX) (hok : (log.appendAll rs).1 = .ok ()) :
    performAll log.dir (log.replayOps rs) = (log.replay rs).2.dir := by
  rw [PartitionLog.replay_ok hok]
  induction rs generalizing log chunks last with
  | nil => exact h.syncOps_dir
  | cons r rs ih =>
    have hr := ((sequenced_append _ _ _ _).1 hseq).2
    rw [List.length_cons] at hb
    have ha : admission log.producerState r = .ok none := by rw [h.producerState]; exact hr.1.1
    have hio : (log.append r).1 ≠ .error .io := by
      intro he
      rw [PartitionLog.appendAll_error he rs] at hok
      cases hok
    obtain ⟨hres, chunks', last', hhist, hrep⟩ := h.append_stored ha hr.1.2 (by omega) hio
    rw [PartitionLog.appendAll_ok hres] at hok ⊢
    have hnext : (log.append r).2.nextOffset = log.nextOffset + 1 := by
      rw [hrep.nextOffset, hhist, List.length_append, ← h.nextOffset]; rfl
    have hseq' : Sequenced .empty 0 (history removed chunks' last' ++ rs) := by
      rw [hhist, List.append_assoc]
      exact hseq
    have hrest : log.replayOps (r :: rs) = log.appendOps r ++ (log.append r).2.replayOps rs := by
      rw [PartitionLog.replayOps]
      split
      · rename_i heq
        rw [heq] at hres
        cases hres
      · rename_i heq
        rw [heq]
    rw [hrest, performAll_append, h.appendOps_dir ha hr.1.2 (by omega) hio]
    exact ih hrep hseq' (by omega) hok

/-- The file operations of a truncation. -/
theorem truncateOps_eq (h : Rep interval log [] chunks last) {offset : Nat}
    (hlt : offset < log.nextOffset) : log.truncateOps offset =
      removeOps log.segments ++ createOps 0 ++
        log.cleared.replayOps ((history [] chunks last).take offset) := by
  have hbelow := storedFrom_below 0 offset (chunks.flatten ++ last)
  rw [Nat.zero_add] at hbelow
  rw [PartitionLog.truncateOps, if_neg (by omega), if_neg (by omega), h.read_all]
  simp only
  rw [List.length_nil, hbelow, storedFrom_toRecord]
  rfl

/-- **All operations of a truncation** leave the directory of the log it returns. -/
theorem truncateOps_dir (h : Rep interval log [] chunks last) {offset : Nat}
    (hok : (log.truncateTo offset).1 = .ok ()) :
    performAll log.dir (log.truncateOps offset) = (log.truncateTo offset).2.dir := by
  by_cases hgt : log.nextOffset < offset
  · rw [PartitionLog.truncateTo, if_pos hgt] at hok
    cases hok
  by_cases heq : offset = log.nextOffset
  · rw [PartitionLog.truncateOps, if_neg hgt, if_pos heq, PartitionLog.truncateTo, if_neg hgt,
      if_pos heq]
    rfl
  have hlt : offset < log.nextOffset := by omega
  have hcode := h.truncateTo_replay hlt
  have hseq : Sequenced .empty 0 ((history [] chunks last).take offset) := by
    have hall := h.sequenced
    rw [← List.take_append_drop offset (history [] chunks last), sequenced_append] at hall
    exact hall.1
  have hlen : ((history [] chunks last).take offset).length ≤ U64_MAX :=
    Nat.le_trans (List.length_take_le _ _) (Nat.le_trans (Nat.le_of_lt hlt) h.bound)
  have happ : (log.cleared.appendAll ((history [] chunks last).take offset)).1 = .ok () := by
    cases hres : (log.cleared.appendAll ((history [] chunks last).take offset)).1 with
    | error e =>
      rw [hcode, PartitionLog.replay_error hres] at hok
      cases hok
    | ok u => rfl
  have hcleared : performAll Dir.empty (createOps 0) = log.cleared.dir := rfl
  rw [h.truncateOps_eq hlt, performAll_append, performAll_append, PartitionLog.removeOps_all,
    hcleared, hcode]
  exact (Rep.cleared h.indexInterval).replayOps_dir hseq
    (by simpa [PartitionLog.cleared] using hlen) happ

end Rep

/-! ### Safety -/

/-- A crash after any number of the operations of a truncation leaves a directory that opens and
holds every record below the offset. -/
def CrashSafe (log : PartitionLog) (offset : Nat) (topic : String) (maxSegmentBytes interval : Nat) :
    Prop :=
  ∀ ops, ops <+: log.truncateOps offset → ∀ dir, Crash (performAll log.dir ops) dir →
    ∃ log', PartitionLog.openLog dir topic maxSegmentBytes interval = .ok log' ∧
      ∀ s, log.Contains s → s.offset < offset → log'.Contains s

variable {topic : String} {maxSegmentBytes : Nat} {records : RecordLog}

/-- All records of a log whose files are synced are on disk. -/
theorem FullySynced.syncedTo (h : FullySynced log) (hr : Refines interval log records) :
    SyncedTo interval records.length log records := by
  refine ⟨hr, Nat.le_refl _, fun active hactive => ?_⟩
  obtain ⟨chunks, last, hrep, rfl⟩ := hr
  obtain ⟨hdrop, _, hholds⟩ := hrep.drop_active hactive
  have hmem : active ∈ log.segments := List.mem_of_getLast? hactive
  rw [(h active hmem).1, hdrop, hholds.bytes, segmentBytes_length]
  exact totalSize_take_le _ _

/-- What a crash leaves of the segment files of a synced log has all its records. -/
theorem FullySynced.survives {dir : Dir} {logs : List (Nat × File)} (h : FullySynced log)
    (hr : Refines interval log records) (hset : Settings topic maxSegmentBytes interval)
    (hlogs : dir.logs.Perm logs)
    (hkeep : List.Forall₂ (fun x y => y.1 = x.1 ∧ x.2.Keeps y.2) log.dir.logs logs) :
    ∃ log', PartitionLog.openLog dir topic maxSegmentBytes interval = .ok log' ∧
      ∀ s, log.Contains s → log'.Contains s := by
  obtain ⟨log', chunks', last', hopen, hrep', hpre⟩ :=
    (h.syncedTo hr).survives_logs h.closed hset hlogs hkeep
  obtain ⟨chunks, last, hrep, rfl⟩ := hr
  rw [List.take_length] at hpre
  refine ⟨log', hopen, fun s hs => ?_⟩
  obtain ⟨more, hmore⟩ := hpre
  have hflat : chunks'.flatten ++ last' = (chunks.flatten ++ last) ++ more := hmore.symm
  rw [hrep'.contains, hflat, storedFrom_append]
  exact List.mem_append_left _ ((hrep.contains s).1 hs)

/-- An empty directory opens. -/
theorem openLog_fresh (hset : Settings topic maxSegmentBytes interval) :
    ∃ log', PartitionLog.openLog Dir.empty topic maxSegmentBytes interval = .ok log' := by
  refine ⟨⟨0, maxSegmentBytes, interval, [.new 0], .empty⟩, ?_⟩
  rw [PartitionLog.openLog, hset.topic]
  simp only [if_neg hset.segment, if_neg hset.index]
  rfl

/-- A directory with an empty segment 0 opens. -/
theorem openLog_blank {dir : Dir} {f : File} (hset : Settings topic maxSegmentBytes interval)
    (hf : f.bytes = []) (hlogs : dir.logs.Perm [(0, f)]) :
    ∃ log', PartitionLog.openLog dir topic maxSegmentBytes interval = .ok log' := by
  have hlaid : Laid [] 0 [] [] [(0, f)] := .last (by rw [hf]; rfl)
  obtain ⟨log', hopen, _⟩ := openLog_laid hset hlaid rfl (fun _ h => absurd h List.not_mem_nil)
    hlogs trivial (Nat.zero_le _)
  exact ⟨log', hopen⟩

/-- Nothing is done when there is nothing to cut. -/
theorem FullySynced.safe_end (h : FullySynced log) (hr : Refines interval log records)
    (hset : Settings topic maxSegmentBytes interval) :
    CrashSafe log log.nextOffset topic maxSegmentBytes interval := by
  intro ops hops dir hcrash
  rw [PartitionLog.truncateOps, if_neg (Nat.lt_irrefl _), if_pos rfl] at hops
  obtain rfl := List.prefix_nil.1 hops
  obtain @⟨logs, _, hlogs, _, hkeep, _⟩ := hcrash
  obtain ⟨log', hopen, hcontains⟩ := h.survives hr hset hlogs hkeep
  exact ⟨log', hopen, fun s hs _ => hcontains s hs⟩

/-- The operations that empty a log of one segment. -/
theorem Rep.truncateOps_single (h : Rep interval log [] chunks last)
    (hsingle : log.segments.length = 1) (hpos : 0 < log.nextOffset) :
    log.truncateOps 0 = [.removeIndex 0, .removeLog 0, .createLog 0, .createIndex 0, .syncDir,
      .syncLog 0, .syncIndex 0] ∧
    ∃ f g, log.dir = ⟨[(0, f)], [(0, g)]⟩ := by
  obtain ⟨active, hactive⟩ := List.length_eq_one_iff.1 hsingle
  have hbase : active.baseOffset = 0 := by
    have hlow := h.lowWatermark
    simpa [PartitionLog.lowWatermark, hactive] using hlow
  refine ⟨?_, active.file, active.indexFile, ?_⟩
  · rw [h.truncateOps_eq hpos, List.take_zero, hactive]
    simp [removeOps, createOps, PartitionLog.replayOps, PartitionLog.syncOps, PartitionLog.cleared,
      SegmentMetadata.new, hbase]
  · simp [PartitionLog.dir, hactive, hbase]

/-- A log of one segment can be emptied safely. -/
theorem FullySynced.safe_single (h : FullySynced log) (hr : Refines interval log records)
    (hset : Settings topic maxSegmentBytes interval) (hsingle : log.segments.length = 1)
    (hpos : 0 < log.nextOffset) : CrashSafe log 0 topic maxSegmentBytes interval := by
  intro ops hops dir hcrash
  suffices hopens : ∃ log', PartitionLog.openLog dir topic maxSegmentBytes interval = .ok log' by
    obtain ⟨log', hopen⟩ := hopens
    exact ⟨log', hopen, fun s _ hlt => absurd hlt (Nat.not_lt_zero _)⟩
  have hsurvives : ∀ {logs : List (Nat × File)}, dir.logs.Perm logs →
      List.Forall₂ (fun x y => y.1 = x.1 ∧ x.2.Keeps y.2) log.dir.logs logs →
      ∃ log', PartitionLog.openLog dir topic maxSegmentBytes interval = .ok log' := by
    intro logs hlogs hkeep
    obtain ⟨log', hopen, _⟩ := h.survives hr hset hlogs hkeep
    exact ⟨log', hopen⟩
  have hblank : ∀ {f : File} {logs : List (Nat × File)}, f.bytes = [] → dir.logs.Perm logs →
      List.Forall₂ (fun x y => y.1 = x.1 ∧ x.2.Keeps y.2) [(0, f)] logs →
      ∃ log', PartitionLog.openLog dir topic maxSegmentBytes interval = .ok log' := by
    intro f logs hf hlogs hkeep
    obtain ⟨g, hg, rfl⟩ := keeps_blank hf hkeep
    exact openLog_blank hset hg hlogs
  obtain ⟨chunks, last, hrep, rfl⟩ := hr
  obtain ⟨htruncate, f, g, hdir⟩ := hrep.truncateOps_single hsingle hpos
  obtain @⟨logs, indexes, hlogs, hindexes, hkeepLogs, hkeepIndexes⟩ := hcrash
  rw [htruncate] at hops
  have hlen : ops.length ≤ 7 := hops.length_le
  rw [List.prefix_iff_eq_take] at hops
  rw [hdir] at hkeepLogs hkeepIndexes hsurvives
  -- the segment file as it was, none, or a new one
  generalize ops.length = n at hops hlen
  subst hops
  match n, hlen with
  | 0, _ => exact hsurvives hlogs hkeepLogs
  | 1, _ => exact hsurvives hlogs hkeepLogs
  | 2, _ =>
    have hnone : performAll ⟨[(0, f)], [(0, g)]⟩ [.removeIndex 0, .removeLog 0] = Dir.empty := rfl
    obtain rfl : logs = [] := List.forall₂_nil_left_iff.1 hkeepLogs
    obtain rfl : indexes = [] := List.forall₂_nil_left_iff.1 hkeepIndexes
    have hempty : dir = Dir.empty := by
      have hnoLogs : dir.logs = [] := List.Perm.eq_nil hlogs
      have hnoIndexes : dir.indexes = [] := List.Perm.eq_nil hindexes
      obtain ⟨dlogs, dindexes⟩ := dir
      subst hnoLogs
      subst hnoIndexes
      rfl
    rw [hempty]
    exact openLog_fresh hset
  | 3, _ => exact hblank rfl hlogs hkeepLogs
  | 4, _ => exact hblank rfl hlogs hkeepLogs
  | 5, _ => exact hblank rfl hlogs hkeepLogs
  | 6, _ => exact hblank rfl hlogs hkeepLogs
  | 7, _ => exact hblank rfl hlogs hkeepLogs

/-- The directory behind the first two removals. -/
theorem Rep.first_removed (h : Rep interval log [] chunks last) {offset : Nat}
    (hlt : offset < log.nextOffset) :
    ∃ s rest, log.segments = s :: rest ∧
      [.removeIndex s.baseOffset, .removeLog s.baseOffset] <+: log.truncateOps offset ∧
      performAll log.dir [.removeIndex s.baseOffset, .removeLog s.baseOffset] =
        PartitionLog.dir { log with segments := rest } := by
  cases hsegments : log.segments with
  | nil =>
    have hlen := h.segments.length_eq
    rw [hsegments] at hlen
    simp at hlen
  | cons s rest =>
    refine ⟨s, rest, rfl, ?_, ?_⟩
    · rw [h.truncateOps_eq hlt, hsegments, removeOps, List.flatMap_cons, List.append_assoc,
        List.append_assoc]
      exact List.prefix_append _ _
    · have hsorted := h.laid.sorted h.closed
      simp only [PartitionLog.dir, hsegments, List.map_cons] at hsorted
      have hapart : ∀ x ∈ rest, s.baseOffset ≠ x.baseOffset := by
        intro x hx
        have hlt := (List.pairwise_cons.1 hsorted).1 (x.baseOffset, x.file)
          (List.mem_map.2 ⟨x, hx, rfl⟩)
        exact Nat.ne_of_lt hlt
      have hkeep : ∀ file : SegmentMetadata → File,
          ((s :: rest).map fun x => (x.baseOffset, file x)).filter (·.1 ≠ s.baseOffset) =
            rest.map fun x => (x.baseOffset, file x) := by
        intro file
        rw [List.map_cons, List.filter_cons, if_neg (by simp), List.filter_eq_self]
        intro x hx
        obtain ⟨y, hy, rfl⟩ := List.mem_map.1 hx
        exact decide_eq_true (hapart y hy).symm
      simp only [performAll, List.foldl_cons, List.foldl_nil, FileOp.perform, PartitionLog.dir,
        hsegments, hkeep]

/-- Cutting off part of a single segment, or anything of several, is not safe. -/
theorem FullySynced.not_safe_cut (h : FullySynced log) (hr : Refines interval log records)
    {offset : Nat} (hlt : offset < log.nextOffset)
    (hcut : 0 < offset ∨ log.segments.length ≠ 1) :
    ¬ CrashSafe log offset topic maxSegmentBytes interval := by
  intro hsafe
  obtain ⟨chunks, last, hrep, rfl⟩ := hr
  obtain ⟨s, rest, hsegments, hprefix, hdir⟩ := hrep.first_removed hlt
  have hwithin : ∀ x ∈ rest, x.file.synced ≤ x.file.bytes.length ∧
      x.indexFile.synced ≤ x.indexFile.bytes.length := by
    intro x hx
    have hx' := h x (by rw [hsegments]; exact List.mem_cons_of_mem _ hx)
    exact ⟨Nat.le_of_eq hx'.1, Nat.le_of_eq hx'.2⟩
  have hcrash : Crash (PartitionLog.dir { log with segments := rest })
      (PartitionLog.dir { log with segments := rest }) := by
    apply crash_refl
    · intro x hx
      obtain ⟨y, hy, rfl⟩ := List.mem_map.1 hx
      exact (hwithin y hy).1
    · intro x hx
      obtain ⟨y, hy, rfl⟩ := List.mem_map.1 hx
      exact (hwithin y hy).2
  obtain ⟨log', hopen, hcontains⟩ := hsafe _ hprefix
    (PartitionLog.dir { log with segments := rest }) (by rw [hdir]; exact hcrash)
  have hlen := hrep.segments.length_eq
  rw [hsegments, List.length_append, List.length_singleton, List.length_cons] at hlen
  cases hchunks : chunks with
  | cons rs more =>
    -- the next segment does not start at offset 0
    have hrest := @Rep.dropSegments _ interval log [] chunks last hrep 1 (by rw [hchunks]; simp)
    rw [hsegments, List.drop_one, List.tail_cons] at hrest
    refine hrest.openLog_refused ?_ hopen
    have hne := hrep.closed rs (by rw [hchunks]; exact List.mem_cons_self)
    simpa [hchunks] using hne
  | nil =>
    -- the directory is empty, and the first record is gone
    rw [hchunks, List.length_nil] at hlen
    have hnil : rest = [] := List.length_eq_zero_iff.1 (by omega)
    subst hnil
    have hpos : 0 < offset := hcut.resolve_right fun hne => hne (by rw [hsegments]; rfl)
    have hempty : PartitionLog.dir { log with segments := [] } = Dir.empty := rfl
    rw [hempty] at hopen
    have hnew := openLog_empty hopen
    have hnext := hrep.nextOffset_eq
    obtain ⟨r, rs, hrecords⟩ : ∃ r rs, chunks.flatten ++ last = r :: rs :=
      List.exists_cons_of_length_pos (by rw [List.length_nil] at hnext; omega)
    have hfirst : log.Contains (r.at 0) := by
      rw [hrep.contains, hrecords]
      exact List.mem_cons_self
    have hgone := hcontains (r.at 0) hfirst hpos
    rw [hnew.contains] at hgone
    exact absurd hgone List.not_mem_nil

/-- **A truncation is safe against a crash** when it is given the end of the log, or when it
empties a log of one segment, and only then. -/
theorem truncate_crash_safe_iff {topic : String} {maxSegmentBytes interval offset : Nat}
    {log₀ log : PartitionLog} {ops : List Operation}
    (h₀ : PartitionLog.openLog Dir.empty topic maxSegmentBytes interval = .ok log₀)
    (hops : ∀ op ∈ ops, op.retains = false)
    (hfew : Along PartitionLog.step Countable log₀ ops)
    (hr : run PartitionLog.step log₀ ops = some log) (hsynced : FullySynced log)
    (hnext : offset ≤ log.nextOffset) :
    CrashSafe log offset topic maxSegmentBytes interval ↔
      offset = log.nextOffset ∨ (offset = 0 ∧ log.segments.length = 1) := by
  have hset := openLog_settings h₀
  have hrefines : Refines interval log (ops.foldl RecordLog.step []) :=
    Refines.of_run ⟨[], [], openLog_empty h₀, rfl⟩ hops hfew hr
  constructor
  · intro hsafe
    by_contra hno
    obtain ⟨hne, hsingle⟩ := not_or.1 hno
    refine hsynced.not_safe_cut hrefines (by omega) ?_ hsafe
    by_cases hzero : offset = 0
    · exact Or.inr fun hlen => hsingle ⟨hzero, hlen⟩
    · exact Or.inl (by omega)
  · intro hor
    by_cases heq : offset = log.nextOffset
    · rw [heq]
      exact hsynced.safe_end hrefines hset
    · obtain ⟨rfl, hsingle⟩ := hor.resolve_left heq
      exact hsynced.safe_single hrefines hset hsingle (by omega)

end Directory

/-- Two records in one segment, synced. -/
def oneSegmentRun : List Operation :=
  [.append ⟨none, utf8 "zero", 1, none⟩, .append ⟨none, utf8 "one", 1, none⟩, .syncData]

instance (log : PartitionLog) : Decidable (FullySynced log) :=
  inferInstanceAs (Decidable (∀ s ∈ log.segments, s.file.synced = s.file.bytes.length ∧
    s.indexFile.synced = s.indexFile.bytes.length))

/-- A cut behind the first of two records: a crash behind the two removals loses both. -/
theorem records_lost_in_truncation :
    letI := Checksum.crc32
    ∃ log₀ log, PartitionLog.openLog Dir.empty "payments" 200 64 = .ok log₀ ∧
      run PartitionLog.step log₀ oneSegmentRun = some log ∧ FullySynced log ∧ 1 ≤ log.nextOffset ∧
      ¬ CrashSafe log 1 "payments" 200 64 := by
  let _ := Checksum.crc32
  have hrun : (run PartitionLog.step ⟨0, 200, 64, [.new 0], .empty⟩ oneSegmentRun).any (fun log =>
      FullySynced log ∧ 1 < log.nextOffset) := by decide +kernel
  obtain ⟨log, hr, hlog⟩ := (Option.any_eq_true _ _).1 hrun
  simp only [Bool.decide_and, Bool.and_eq_true, decide_eq_true_eq] at hlog
  have hrefines : Refines 64 log (oneSegmentRun.foldl RecordLog.step []) :=
    Refines.of_run ⟨[], [], @openLog_empty _ "payments" 200 64 _ rfl, rfl⟩ (by decide)
      (by decide +kernel) hr
  exact ⟨_, log, rfl, hr, hlog.1, Nat.le_of_lt hlog.2,
    hlog.1.not_safe_cut hrefines hlog.2 (Or.inl Nat.one_pos)⟩

theorem truncate_crash_safe_iff_emptied :
    letI := Checksum.crc32
    ∃ log₀ log, PartitionLog.openLog Dir.empty "payments" 200 64 = .ok log₀ ∧
      run PartitionLog.step log₀ oneSegmentRun = some log ∧ CrashSafe log 0 "payments" 200 64 := by
  let _ := Checksum.crc32
  have hrun : (run PartitionLog.step ⟨0, 200, 64, [.new 0], .empty⟩ oneSegmentRun).any (fun log =>
      FullySynced log ∧ log.segments.length = 1) := by decide +kernel
  obtain ⟨log, hr, hlog⟩ := (Option.any_eq_true _ _).1 hrun
  simp only [Bool.decide_and, Bool.and_eq_true, decide_eq_true_eq] at hlog
  have hops : ∀ op ∈ oneSegmentRun, op.retains = false := by decide
  have hfew : Along PartitionLog.step Countable ⟨0, 200, 64, [.new 0], .empty⟩ oneSegmentRun := by
    decide +kernel
  exact ⟨_, log, rfl, hr, (@truncate_crash_safe_iff _ "payments" 200 64 0 _ log oneSegmentRun rfl hops
    hfew hr hlog.1 (Nat.zero_le _)).2 (Or.inr ⟨rfl, hlog.2⟩)⟩

end SevlaMq.Storage
