import SevlaMq.Storage.Representation

/-!
# Restarts

A crash takes unsynced suffixes of the files away, `open` recovers what is left, and the log goes
on from there.  A closed segment that lost records keeps the directory from being opened, so a log
that was opened has all its closed segments; what it may lack is at the end of the active file.

* `Outage` — what is found after a crash; unlike `Crash` it also says what is synced then, so that
  one crash can follow another.
* `PartitionLog.flushed` — the records below an offset that lie in the active segment are synced.
* `SyncedTo.restart` — a log that was opened has every record that was synced.
* `Rep.outage` — and in the worst case no other ones.
-/

set_option autoImplicit false

namespace SevlaMq.Storage

/-! ## Outages -/

/-- A crash keeps a prefix that contains the synced one.  After it at least that one is synced:
nothing more if only the process died, everything that is left if the machine did. -/
structure File.Survives (f f' : File) : Prop where
  bytes : f'.bytes <+: f.bytes
  synced : f.synced ≤ f'.synced
  within : f'.synced ≤ f'.bytes.length

/-- What is found after a crash; the files may be listed in any order. -/
inductive Outage (dir dir' : Dir) : Prop
  | mk {logs indexes : List (Nat × File)} (hlogs : dir'.logs.Perm logs)
      (hindexes : dir'.indexes.Perm indexes)
      (keepLogs : List.Forall₂ (fun x y => y.1 = x.1 ∧ x.2.Survives y.2) dir.logs logs)
      (keepIndexes : List.Forall₂ (fun x y => y.1 = x.1 ∧ x.2.Survives y.2) dir.indexes indexes)

theorem File.Survives.refl {f : File} (h : f.synced ≤ f.bytes.length) : f.Survives f :=
  ⟨List.prefix_rfl, Nat.le_refl _, h⟩

theorem File.Survives.keeps {f f' : File} (h : f.Survives f') : f.Keeps f' :=
  ⟨h.bytes, Nat.le_trans h.synced h.within⟩

theorem survives_keeps {files files' : List (Nat × File)}
    (h : List.Forall₂ (fun x y => y.1 = x.1 ∧ x.2.Survives y.2) files files') :
    List.Forall₂ (fun x y => y.1 = x.1 ∧ x.2.Keeps y.2) files files' :=
  h.imp fun _ _ hxy => ⟨hxy.1, hxy.2.keeps⟩

theorem survives_within {files files' : List (Nat × File)}
    (h : List.Forall₂ (fun x y => y.1 = x.1 ∧ x.2.Survives y.2) files files') :
    ∀ y ∈ files', y.2.synced ≤ y.2.bytes.length := by
  induction h with
  | nil => exact List.forall_mem_nil _
  | cons hxy _ ih => exact List.forall_mem_cons.2 ⟨hxy.2.within, ih⟩

/-- Related lists end with related elements. -/
theorem forall₂_getLast? {α β : Type} {R : α → β → Prop} {as : List α} {bs : List β}
    (h : List.Forall₂ R as bs) {b : β} (hb : b ∈ bs.getLast?) : ∃ a ∈ as.getLast?, R a b := by
  induction h with
  | nil => cases hb
  | @cons a b' as bs hab hrest ih =>
    cases hrest with
    | nil =>
      cases hb
      exact ⟨a, rfl, hab⟩
    | cons _ _ =>
      rw [List.getLast?_cons_cons] at hb ⊢
      exact ih hb

/-! ## What `open` makes of the files -/

/-- Recovery cuts the file to its whole records and writes the index file anew. -/
structure SegmentMetadata.Reopened (s s' : SegmentMetadata) : Prop where
  baseOffset : s'.baseOffset = s.baseOffset
  synced : s'.file.synced = min s.file.synced s'.file.bytes.length
  index : s'.indexFile.synced = 0

theorem recovered_reopened {s : SegmentMetadata} {validLen : Nat} {index : List IndexEntry}
    (hlen : s.len = s.file.bytes.length) (hin : s.file.synced ≤ s.file.bytes.length) :
    s.Reopened (s.recovered validLen index) := by
  refine ⟨rfl, ?_, rfl⟩
  simp only [SegmentMetadata.recovered, rewriteIndex]
  split
  · rename_i hlt
    rw [hlen] at hlt
    simp only [File.setLen, List.length_take]
    omega
  · exact (Nat.min_eq_left hin).symm

theorem reopened_within {ss segments : List SegmentMetadata}
    (h : List.Forall₂ SegmentMetadata.Reopened ss segments) :
    ∀ s ∈ segments, s.file.synced ≤ s.file.bytes.length ∧
      s.indexFile.synced ≤ s.indexFile.bytes.length := by
  induction h with
  | nil => exact List.forall_mem_nil _
  | cons hs _ ih =>
    refine List.forall_mem_cons.2 ⟨⟨?_, ?_⟩, ih⟩
    · rw [hs.synced]
      exact Nat.min_le_right _ _
    · rw [hs.index]
      exact Nat.zero_le _

section Restart

variable [Checksum]

theorem recoverSegments_reopened {interval : Nat} :
    ∀ {ss : List SegmentMetadata} {base next : Nat} {t t' : ProducerTable}
      {segments : List SegmentMetadata}, (∀ s ∈ ss, s.len = s.file.bytes.length ∧
        s.file.synced ≤ s.file.bytes.length) →
      recoverSegments interval base t ss = .ok (next, t', segments) →
      List.Forall₂ SegmentMetadata.Reopened ss segments := by
  intro ss
  induction ss with
  | nil =>
    intro base next t t' segments _ h
    cases h
    exact .nil
  | cons s ss ih =>
    intro base next t t' segments hin h
    unfold recoverSegments at h
    split at h
    · cases h
    · split at h
      · cases h
      · split at h
        · cases h
        · split at h
          · cases h
          · rename_i hrest
            cases h
            obtain ⟨hlen, hsynced⟩ := hin s List.mem_cons_self
            exact .cons (recovered_reopened hlen hsynced)
              (ih (fun x hx => hin x (List.mem_cons_of_mem _ hx)) hrest)

variable {interval : Nat} {log log' : PartitionLog} {chunks : List (List Record)}
  {last : List Record}

/-- After a crash that lets the directory be opened the closed segments are whole. -/
theorem Covers.opened {base : Nat} {t : ProducerTable} {closed : List SegmentMetadata}
    {active : SegmentMetadata} {logs : List (Nat × File)}
    {res : Nat × ProducerTable × List SegmentMetadata} (hcov : Covers interval base chunks closed)
    (hactive : Holds interval (base + chunks.flatten.length) last active)
    (hseq : Sequenced t base (chunks.flatten ++ last))
    (hb : base + (chunks.flatten ++ last).length ≤ U64_MAX)
    (hkeep : List.Forall₂ (fun x y => y.1 = x.1 ∧ x.2.Keeps y.2)
      (closed.map (fun s => (s.baseOffset, s.file)) ++ [(active.baseOffset, active.file)]) logs)
    (hok : recoverSegments interval base t (logs.map discovered) = .ok res) :
    ∃ j tail, Laid tail base chunks (last.take j) logs ∧ decodeRecord tail = .ok none ∧
      ∀ k ≤ last.length, totalSize (last.take k) ≤ active.file.synced → k ≤ j := by
  induction hcov generalizing logs t res with
  | @nil base =>
    rw [List.map_nil, List.nil_append] at hkeep
    obtain ⟨y, rest, ⟨hkey, hfile⟩, hrest, rfl⟩ := List.forall₂_cons_left_iff.1 hkeep
    cases hrest
    rw [List.flatten_nil, List.length_nil, Nat.add_zero] at hactive
    rw [List.flatten_nil, List.nil_append] at hseq hb
    obtain ⟨j, tail, hbytes, htail, hk⟩ := hactive.keeps hseq.checked hb hfile
    obtain ⟨key, f⟩ := y
    obtain rfl : key = base := hkey.trans hactive.baseOffset
    exact ⟨j, tail, .last hbytes, htail, hk⟩
  | @cons base rs chunks s ss head tail ih =>
    rw [List.map_cons, List.cons_append] at hkeep
    obtain ⟨y, rest, ⟨hkey, hfile⟩, hrest, rfl⟩ := List.forall₂_cons_left_iff.1 hkeep
    rw [List.flatten_cons, List.length_append, ← Nat.add_assoc] at hactive
    rw [List.flatten_cons, List.append_assoc] at hseq hb
    rw [List.length_append] at hb
    obtain ⟨hrs, hseq'⟩ := (sequenced_append _ _ _ _).1 hseq
    obtain ⟨key, f⟩ := y
    obtain rfl : key = base := hkey.trans head.baseOffset
    have hp := hfile.1
    rw [head.bytes] at hp
    obtain ⟨j, torn, hj, hbytes, htorn, _, hwhole⟩ :=
      prefix_segmentBytes hrs.checked (by omega) hp
    rcases Nat.lt_or_eq_of_le hj with hlt | rfl
    · -- the next file starts behind the records of this segment
      have hlaid := tail.laid hactive (List.append_nil _).symm
      obtain ⟨x, files, hfiles⟩ := List.exists_cons_of_ne_nil hlaid.ne_nil
      have hx := hlaid.base_le x (by rw [hfiles]; exact List.mem_cons_self)
      rw [hfiles] at hrest
      obtain ⟨y, rest', hxy, _, rfl⟩ := List.forall₂_cons_left_iff.1 hrest
      obtain ⟨e, he⟩ := @recoverSegments_short _ interval _ _ _ _ _ _ y rest' hrs (by omega) hlt
        hbytes htorn (by rw [hxy.1]; exact hx)
      rw [hok] at he
      cases he
    · rw [hwhole rfl, List.take_length, List.append_nil] at hbytes
      have hspec := @recoverSegment_spec _ interval key rs t [] hrs (by omega) rfl
      rw [List.append_nil, ← hbytes] at hspec
      rw [List.map_cons, recoverSegments, if_neg (fun hne => hne rfl),
        show (discovered (key, f)).file = f from rfl, hspec] at hok
      simp only at hok
      split at hok
      · cases hok
      · split at hok
        · cases hok
        · rename_i hrec
          obtain ⟨j, torn, hlaid, htorn, hk⟩ := ih hactive hseq' (by omega) hrest hrec
          exact ⟨j, torn, .cons hbytes hlaid, htorn, hk⟩

/-- The log `open` returns has the segments the recovery made of the files. -/
theorem openLog_recovered {topic : String} {maxSegmentBytes : Nat} {dir : Dir}
    {logs : List (Nat × File)} (hsorted : logs.Pairwise fun x y => x.1 < y.1) (hne : logs ≠ [])
    (hlogs : dir.logs.Perm logs)
    (hopen : PartitionLog.openLog dir topic maxSegmentBytes interval = .ok log') :
    ∃ next t, recoverSegments interval 0 .empty (logs.map discovered) =
      .ok (next, t, log'.segments) := by
  have hset := openLog_settings hopen
  rw [PartitionLog.openLog, hset.topic] at hopen
  simp only [if_neg hset.segment, if_neg hset.index,
    initialSegments_sorted hsorted hne hlogs] at hopen
  split at hopen
  · cases hopen
  · rename_i next t segments hrec
    cases hopen
    exact ⟨next, t, hrec⟩

/-- **A log that was opened after a crash has every record that was synced**, and these are synced
still. -/
theorem SyncedTo.restart {n : Nat} {records : RecordLog} {topic : String} {maxSegmentBytes : Nat}
    {dir : Dir} (h : SyncedTo interval n log records) (hcrash : Outage log.dir dir)
    (hopen : PartitionLog.openLog dir topic maxSegmentBytes interval = .ok log') :
    ∃ records', records' <+: records ∧ SyncedTo interval n log' records' ∧ SyncedWithin log' := by
  obtain ⟨chunks, last, hrep, rfl⟩ := h.refines
  obtain @⟨logs, indexes, hlogs, _, hkeep, _⟩ := hcrash
  obtain ⟨closed, active, hs, hcov, hactive⟩ := hrep.segments.last
  have hmem := PartitionLog.active_mem hs
  have hbound := hrep.bound
  rw [hrep.nextOffset_eq] at hbound
  have hsorted := keeps_sorted (survives_keeps hkeep) (hrep.laid.sorted hrep.closed)
  have hdir : log.dir.logs = closed.map (fun s => (s.baseOffset, s.file)) ++
      [(active.baseOffset, active.file)] := by
    simp only [PartitionLog.dir, hs, List.map_append, List.map_cons, List.map_nil]
  rw [hdir] at hkeep
  have hne : logs ≠ [] := by
    rintro rfl
    exact List.concat_ne_nil _ _ (List.forall₂_nil_right_iff.1 hkeep)
  obtain ⟨next, t, hrec⟩ := openLog_recovered hsorted hne hlogs hopen
  obtain ⟨j, tail, hlaid, htail, hj⟩ :=
    hcov.opened hactive hrep.sequenced hbound (survives_keeps hkeep) hrec
  obtain ⟨log₁, hopen₁, hrep'⟩ := hrep.reopen_cut (openLog_settings hopen) hlaid htail hlogs
  rw [hopen] at hopen₁
  cases hopen₁
  have hwithin := survives_within hkeep
  have hreopened := recoverSegments_reopened (fun s hs => by
    obtain ⟨y, hy, rfl⟩ := List.mem_map.1 hs
    exact ⟨rfl, hwithin y hy⟩) hrec
  have hpre := h.take_prefix hrep hmem hj
  refine ⟨history [] chunks (last.take j), ⟨last.drop j, (history_cut j).symm⟩,
    ⟨⟨chunks, last.take j, hrep', rfl⟩, ?_, fun active' hactive' => ?_⟩, fun s hs => ?_⟩
  · have := hpre.length_le
    rwa [List.length_take_of_le h.le] at this
  · obtain ⟨d, hd, hreopen⟩ := forall₂_getLast? hreopened hactive'
    rw [List.getLast?_map, Option.mem_map] at hd
    obtain ⟨y, hy, rfl⟩ := hd
    obtain ⟨x, hx, hkey, hsurvives⟩ := forall₂_getLast? hkeep hy
    rw [List.getLast?_concat, Option.mem_some_iff] at hx
    subst hx
    have hbase : active'.baseOffset = active.baseOffset := hreopen.baseOffset.trans hkey
    obtain ⟨hdrop, _, _⟩ := hrep.drop_active hmem
    obtain ⟨hdrop', _, hholds'⟩ := hrep'.drop_active hactive'
    have hsync := h.synced active hmem
    rw [hdrop] at hsync
    rw [hdrop', hbase, hreopen.synced]
    refine Nat.le_min.2 ⟨Nat.le_trans ?_ hsurvives.synced, ?_⟩
    · rw [List.take_take, Nat.min_comm, ← List.take_take]
      exact Nat.le_trans (totalSize_take_le _ _) hsync
    · rw [hholds'.bytes, segmentBytes_length]
      exact totalSize_take_le _ _
  · exact reopened_within hreopened s hs

/-! ## What is certain to be left -/

/-- The records below `n` that lie in the active segment are synced. -/
def PartitionLog.flushed (log : PartitionLog) (n : Nat) : Bool :=
  log.segments.getLast?.all fun active =>
    match log.read active.baseOffset USIZE_MAX with
    | .error _ => true
    | .ok ss =>
      totalSize ((ss.filter (·.offset < n)).map StoredRecord.toRecord) ≤ active.file.synced

theorem Rep.flushed_iff {n : Nat} {active : SegmentMetadata} (h : Rep interval log [] chunks last)
    (hactive : active ∈ log.segments.getLast?) :
    log.flushed n = true ↔
      totalSize (last.take (n - active.baseOffset)) ≤ active.file.synced := by
  obtain ⟨_, hbase, _⟩ := h.drop_active hactive
  have hread := h.read active.baseOffset USIZE_MAX
  rw [if_neg (by decide), takeBudget_all, fromOffset_eq_drop, storedFrom_append, hbase,
    List.length_nil, Nat.zero_add, Nat.sub_zero,
    List.drop_left' (storedFrom_length _ _)] at hread
  rw [Option.mem_def] at hactive
  simp only [PartitionLog.flushed, hactive, Option.all_some, hbase, hread, storedFrom_below_iff,
    storedFrom_toRecord, decide_eq_true_eq]

/-- Flushed records are synced. -/
theorem Refines.syncedTo_flushed {n : Nat} {records : RecordLog} (h : Refines interval log records)
    (hn : n ≤ log.nextOffset) (hf : log.flushed n = true) : SyncedTo interval n log records := by
  obtain ⟨chunks, last, hrep, rfl⟩ := h
  refine ⟨⟨chunks, last, hrep, rfl⟩, by rw [← hrep.nextOffset]; exact hn, fun active hactive => ?_⟩
  rw [(hrep.drop_active hactive).1]
  exact (hrep.flushed_iff hactive).1 hf

theorem SyncedTo.flushed {n : Nat} {records : RecordLog} (h : SyncedTo interval n log records) :
    log.flushed n = true := by
  obtain ⟨chunks, last, hrep, rfl⟩ := h.refines
  obtain ⟨closed, active, hs, _, _⟩ := hrep.segments.last
  have hmem := PartitionLog.active_mem hs
  rw [hrep.flushed_iff hmem, ← (hrep.drop_active hmem).1]
  exact h.synced active hmem

/-- The first records of those that are synced are. -/
theorem SyncedTo.mono {m n : Nat} {records : RecordLog} (h : SyncedTo interval n log records)
    (hm : m ≤ n) : SyncedTo interval m log records := by
  refine ⟨h.refines, Nat.le_trans hm h.le, fun active hactive => ?_⟩
  have hsync := h.synced active hactive
  rw [← Nat.min_eq_left (Nat.sub_le_sub_right hm active.baseOffset), ← List.take_take]
  exact Nat.le_trans (totalSize_take_le _ _) hsync

/-- An append keeps what is synced synced, and returns the offset of a record in the log. -/
theorem SyncedTo.append {n : Nat} {records : RecordLog} {r : Record}
    (h : SyncedTo interval n log records) (hwithin : SyncedWithin log)
    (hb : log.nextOffset < U64_MAX) (hio : (log.append r).1 ≠ .error .io) :
    (∃ records', SyncedTo interval n (log.append r).2 records') ∧ SyncedWithin (log.append r).2 ∧
      log.nextOffset ≤ (log.append r).2.nextOffset ∧
      (log.append r).2.nextOffset ≤ log.nextOffset + 1 ∧
      ∀ offset, (log.append r).1 = .ok offset → offset < (log.append r).2.nextOffset := by
  have hstep : log.step (.append r) = some (log.append r).2 := by
    refine PartitionLog.step_some fun herr => hio ?_
    simp only [Operation.perform] at herr
    cases hres : (log.append r).1 with
    | error e =>
      rw [hres] at herr
      cases herr; rfl
    | ok offset =>
      rw [hres] at herr
      cases herr
  obtain ⟨chunks, last, hrep, rfl⟩ := h.refines
  obtain ⟨records', hpre, h'⟩ := h.step rfl hb hstep
  refine ⟨⟨records', h'⟩, (hrep.written rfl hb hstep).syncedWithin hwithin, ?_, ?_⟩
  · rw [h'.refines.nextOffset, hrep.nextOffset]
    exact hpre.length_le
  have happ := hrep.append hb hio
  split at happ
  · rw [happ]
    exact ⟨Nat.le_succ _, fun offset hok => by cases hok⟩
  · rename_i o rs hres
    obtain ⟨hok, chunks', last', hhist, hrep'⟩ := happ
    rw [hrep'.nextOffset, hhist, hrep.nextOffset]
    constructor
    · rcases RecordLog.append_cases hres with rfl | ⟨_, rfl⟩
      · exact Nat.le_succ _
      · rw [List.length_append, List.length_singleton]
    · intro offset hoffset
      rw [hok] at hoffset
      cases hoffset
      exact RecordLog.append_offset_lt hres

/-- After `sync_data` every record is synced. -/
theorem SyncedTo.syncData {n : Nat} {records : RecordLog} (h : SyncedTo interval n log records)
    (hwithin : SyncedWithin log) :
    SyncedTo interval log.nextOffset log.syncData records ∧ SyncedWithin log.syncData ∧
      log.syncData.nextOffset = log.nextOffset := by
  obtain ⟨chunks, last, hrep, rfl⟩ := h.refines
  obtain ⟨closed, active, hs, _, _⟩ := hrep.segments.last
  have hsync : log.syncData.nextOffset = log.nextOffset := by
    rw [hrep.syncData.nextOffset, hrep.nextOffset]
  refine ⟨?_, ?_, hsync⟩
  · rw [hrep.nextOffset]
    exact h.refines.syncedTo
  · have hw : Written log .syncData log.syncData := by
      refine .synced rfl hs ?_
      rw [PartitionLog.syncData_eq hs]
    exact hw.syncedWithin hwithin

/-- **In the worst case nothing else is left**: some crash lets the directory be opened and leaves
only flushed records. -/
theorem Rep.outage {topic : String} {maxSegmentBytes : Nat} (h : Rep interval log [] chunks last)
    (hwithin : SyncedWithin log) (hset : Settings topic maxSegmentBytes interval) :
    ∃ dir log', Outage log.dir dir ∧
      PartitionLog.openLog dir topic maxSegmentBytes interval = .ok log' ∧
      log'.nextOffset ≤ log.nextOffset ∧ log.flushed log'.nextOffset = true := by
  obtain ⟨closed, active, hs, hcov, hactive⟩ := h.segments.last
  have hmem := PartitionLog.active_mem hs
  have hin : ∀ s ∈ closed ++ [active], s.file.synced ≤ s.file.bytes.length ∧
      s.indexFile.synced ≤ s.indexFile.bytes.length := fun s hmem => hwithin s (by rw [hs]; exact hmem)
  have hlen : (active.file.bytes.take active.file.synced).length = active.file.synced :=
    List.length_take_of_le (hin active (List.mem_append_right _ (List.mem_singleton.2 rfl))).1
  have hbound := h.bound
  rw [h.nextOffset_eq, List.length_append, List.length_nil, Nat.zero_add] at hbound
  rw [List.length_nil, Nat.zero_add] at hactive
  -- the active file is cut to its synced prefix
  have hp : active.file.bytes.take active.file.synced <+:
      segmentBytes chunks.flatten.length last := by
    rw [← hactive.bytes]
    exact List.take_prefix _ _
  obtain ⟨j, tail, hj, hbytes, htail, _, _⟩ := prefix_segmentBytes
    (fun r hr => h.checked r (List.mem_append_right _ hr)) hbound hp
  let f : File := ⟨active.file.bytes.take active.file.synced, active.file.synced⟩
  have hf : f.bytes = segmentBytes (0 + chunks.flatten.length) (last.take j) ++ tail := by
    rw [Nat.zero_add]
    exact hbytes
  have hlaid : Laid tail 0 chunks (last.take j)
      (closed.map (fun s => (s.baseOffset, s.file)) ++ [(active.baseOffset, f)]) := by
    have hcut := @recovered_holds _ interval _ _ _ _ hf
    have := @Covers.laid _ _ 0 _ _ _ _ tail f hcov hcut (by rw [hcut.bytes]; exact hf)
    rw [hactive.baseOffset, ← Nat.zero_add chunks.flatten.length]
    exact this
  obtain ⟨log', hopen, hrep'⟩ := @Rep.reopen_cut _ _ _ _ _ _ _ _ _ ⟨_, log.dir.indexes⟩ _ h hset
    hlaid htail (List.Perm.refl _)
  have hnext : log'.nextOffset = chunks.flatten.length + j := by
    rw [hrep'.nextOffset_eq, List.length_append, List.length_take_of_le hj, List.length_nil,
      Nat.zero_add]
  refine ⟨_, log', .mk (List.Perm.refl _) (List.Perm.refl _) ?_ ?_, hopen, ?_, ?_⟩
  · simp only [PartitionLog.dir, hs, List.map_append, List.map_cons, List.map_nil]
    refine List.rel_append (List.forall₂_same.2 fun x hx => ⟨rfl, .refl ?_⟩)
      (.cons ⟨rfl, List.take_prefix _ _, Nat.le_refl _, Nat.le_of_eq hlen.symm⟩ .nil)
    obtain ⟨s, hmem, rfl⟩ := List.mem_map.1 hx
    exact (hin s (List.mem_append_left _ hmem)).1
  · refine List.forall₂_same.2 fun x hx => ⟨rfl, .refl ?_⟩
    obtain ⟨s, hmem, rfl⟩ := List.mem_map.1 hx
    exact (hwithin s hmem).2
  · rw [hnext, h.nextOffset_eq, List.length_append, List.length_nil, Nat.zero_add]
    exact Nat.add_le_add_left hj _
  · rw [h.flushed_iff hmem, hnext, (h.drop_active hmem).2.1, Nat.add_sub_cancel_left]
    -- the whole records fit into the synced prefix
    have := congrArg List.length hbytes
    rw [hlen, List.length_append, segmentBytes_length] at this
    omega

end Restart

end SevlaMq.Storage
