import SevlaMq.Storage.Scan
import SevlaMq.Storage.TruncationCrash

/-!
# Appends that fail

`append` rotates, writes an index entry, writes the record and only then changes the log in memory.
Each file operation may fail, a write after any number of bytes.

* `LogHandle` — a log with the files behind `active_file` and `active_index_file`, and the files of
  the directory that belong to no segment.
* `LogHandle.append` — `append` when the given file operation fails; without a fault it is
  `PartitionLog.append` (`of_append_ok`).
* `Usable` — what a failed append should leave: the same records, and a log that takes the next
  record and can be opened afterwards.
* `PartitionLog.spoils` — a file is left behind by the rotation, or a byte of the record by the
  write.
* `failed_append_usable_iff` — a failed append leaves a usable log unless it spoils it.
-/

set_option autoImplicit false

namespace SevlaMq.Storage

/-! ## File operations that fail -/

/-- The file operation of `append` that fails; a write has written some bytes then. -/
inductive Fault where
  | createLog
  | createIndex
  | syncDir
  | openLog
  | openIndex
  | writeIndex (written : Nat)
  | writeLog (written : Nat)
  deriving DecidableEq, Repr

namespace Fault

/-- The operations of `rotate`. -/
def inRotation : Fault → Bool
  | .writeIndex _ | .writeLog _ => false
  | _ => true

/-- The operations of `rotate` behind the creation of the log file. -/
def leavesFile : Fault → Bool
  | .createIndex | .syncDir | .openLog | .openIndex => true
  | _ => false

def indexBytes : Fault → Option Nat
  | .writeIndex written => some written
  | _ => none

def logBytes : Fault → Option Nat
  | .writeLog written => some written
  | _ => none

end Fault

namespace File

/-- How many of `n` bytes get into the file: those before the failure, or what there is room for. -/
def taken (f : File) (n : Nat) : Option Nat → Nat
  | some written => min written n
  | none => min (MAX_FILE_SIZE - f.bytes.length) n

/-- `write_all` when it fails after some bytes, or when it does not. -/
def write (f : File) (data : Bytes) (fault : Option Nat) : Except StorageError Unit × File :=
  ((if fault.isSome ∨ MAX_FILE_SIZE < f.bytes.length + data.length then .error .io else .ok ()),
    { f with bytes := f.bytes ++ data.take (f.taken data.length fault) })

end File

/-! ## Append -/

/-- A log, the base offsets in the names of its two open files, and the files in its directory that
belong to no segment. -/
structure LogHandle where
  log : PartitionLog
  activeFile : Nat
  activeIndexFile : Nat
  strays : Dir

namespace LogHandle

/-- The log with the files of its last segment open. -/
def of (log : PartitionLog) : LogHandle :=
  let base := (log.segments.getLast?.map (·.baseOffset)).getD 0
  ⟨log, base, base, .empty⟩

def dir (h : LogHandle) : Dir :=
  ⟨h.log.dir.logs ++ h.strays.logs, h.log.dir.indexes ++ h.strays.indexes⟩

/-- `write_all` on `active_file`, whichever file that is. -/
def writeLog (h : LogHandle) (data : Bytes) (fault : Option Nat) :
    Except StorageError Unit × LogHandle :=
  let file := ((h.dir.logs.find? (·.1 = h.activeFile)).map (·.2)).getD .empty
  let (res, written) := file.write data fault
  (res, { h with
    log := { h.log with segments := h.log.segments.map fun s =>
      if s.baseOffset = h.activeFile then { s with file := written } else s }
    strays := { h.strays with logs := onFile h.activeFile (fun _ => written) h.strays.logs } })

/-- `write_all` on `active_index_file`. -/
def writeIndex (h : LogHandle) (data : Bytes) (fault : Option Nat) :
    Except StorageError Unit × LogHandle :=
  let file := ((h.dir.indexes.find? (·.1 = h.activeIndexFile)).map (·.2)).getD .empty
  let (res, written) := file.write data fault
  (res, { h with
    log := { h.log with segments := h.log.segments.map fun s =>
      if s.baseOffset = h.activeIndexFile then { s with indexFile := written } else s }
    strays := { h.strays with
      indexes := onFile h.activeIndexFile (fun _ => written) h.strays.indexes } })

/-- `rotate`: the files are created, the directory is synced, the files are opened, and the segment
is added at the end. -/
def rotate (h : LogHandle) (fault : Option Fault) : Except StorageError Unit × LogHandle :=
  let base := h.log.nextOffset
  if fault = some .createLog ∨ h.dir.logs.any (·.1 = base) then (.error .io, h) else
  let created := { h with strays := { h.strays with logs := h.strays.logs ++ [(base, .empty)] } }
  if fault = some .createIndex ∨ h.dir.indexes.any (·.1 = base) then (.error .io, created) else
  let created := { h with strays :=
    ⟨h.strays.logs ++ [(base, .empty)], h.strays.indexes ++ [(base, .empty)]⟩ }
  if fault = some .syncDir ∨ fault = some .openLog then (.error .io, created)
  else if fault = some .openIndex then (.error .io, { created with activeFile := base })
  else (.ok (), { h with
    log := { h.log with segments := h.log.segments ++ [.new base] }
    activeFile := base
    activeIndexFile := base })

/-- The first part of `append`: rotate when the record does not fit. -/
def makeRoom (h : LogHandle) (encodedLen : Nat) (fault : Option Fault) :
    Except StorageError Unit × LogHandle :=
  match h.log.segments.getLast? with
  | none => (.error .missingActiveSegment, h)
  | some active => if h.log.full active encodedLen then h.rotate fault else (.ok (), h)

/-- The last part of `append`: the length, the index, the next offset and the producers. -/
def commit (h : LogHandle) (record : Record) (encodedLen : Nat) :
    Except StorageError Nat × LogHandle :=
  match h.log.segments.getLast? with
  | none => (.error .missingActiveSegment, h)
  | some active =>
    if U64_MAX < active.len + encodedLen then (.error .recordTooLarge, h) else
    let log := h.log.setActive { active with
      len := active.len + encodedLen
      index := indexRecord h.log.indexIntervalBytes active.index h.log.nextOffset active.len }
    if U64_MAX < log.nextOffset + 1 then (.error .offsetOverflow, { h with log })
    else (.ok log.nextOffset, { h with log := { log with
      nextOffset := log.nextOffset + 1
      producerState := log.producerState.store record log.nextOffset } })

/-- The index entry of the next record, if it is to have one. -/
def announce (h : LogHandle) (active : SegmentMetadata) (fault : Option Fault) :
    Except StorageError Unit × LogHandle :=
  if shouldIndex h.log.indexIntervalBytes active.index active.len then
    h.writeIndex (encodeIndexEntry ⟨h.log.nextOffset, active.len⟩) (fault.bind Fault.indexBytes)
  else (.ok (), h)

/-- The part of `append` behind the rotation. -/
def store (h : LogHandle) (record : Record) (encoded : Bytes) (fault : Option Fault) :
    Except StorageError Nat × LogHandle :=
  match h.log.segments.getLast? with
  | none => (.error .missingActiveSegment, h)
  | some active =>
    match h.announce active fault with
    | (.error e, h) => (.error e, h)
    | (.ok (), h) =>
      match h.writeLog encoded (fault.bind Fault.logBytes) with
      | (.error e, h) => (.error e, h)
      | (.ok (), h) => h.commit record encoded.length

/-- `append`. -/
def append [Checksum] (h : LogHandle) (record : Record) (fault : Option Fault) :
    Except StorageError Nat × LogHandle :=
  match admission h.log.producerState record with
  | .error e => (.error e, h)
  | .ok (some offset) => (.ok offset, h)
  | .ok none =>
    match encodeRecord record h.log.nextOffset with
    | .error e => (.error e, h)
    | .ok encoded =>
      match h.makeRoom encoded.length fault with
      | (.error e, h) => (.error e, h)
      | (.ok (), h) => h.store record encoded fault

end LogHandle

/-! ## What is left behind -/

namespace SegmentMetadata

/-- The index entry of the record at `offset` is written, if it is to have one. -/
def announces (s : SegmentMetadata) (interval offset : Nat) (fault : Option Fault) : Bool :=
  shouldIndex interval s.index s.len → (s.indexFile.write (encodeIndexEntry ⟨offset, s.len⟩)
    (fault.bind Fault.indexBytes)).1.isOk

/-- Some bytes of a record of `n` bytes get into the file of the segment. -/
def takes (s : SegmentMetadata) (interval offset n : Nat) (fault : Option Fault) : Bool :=
  s.announces interval offset fault && 0 < s.file.taken n (fault.bind Fault.logBytes)

end SegmentMetadata

/-- An append that fails leaves a file of a segment that was not added, in a log that has offsets
left, or bytes of the record that it did not store. -/
def PartitionLog.spoils (log : PartitionLog) (r : Record) (fault : Option Fault) : Bool :=
  match admission log.producerState r, checkRecord r, log.segments.getLast? with
  | .ok none, .ok (), some active =>
    if log.full active (encodedSize r) && fault.any Fault.inRotation then
      fault.any Fault.leavesFile && log.nextOffset < U64_MAX
    else if log.full active (encodedSize r) then
      (SegmentMetadata.new log.nextOffset).takes log.indexIntervalBytes log.nextOffset
        (encodedSize r) fault
    else active.takes log.indexIntervalBytes log.nextOffset (encodedSize r) fault
  | _, _, _ => false

/-! ## Writing to the last segment -/

theorem Apart.map {closed : List SegmentMetadata} {active : SegmentMetadata}
    (h : Apart closed active) (change : SegmentMetadata → SegmentMetadata) :
    (closed ++ [active]).map (fun s => if s.baseOffset = active.baseOffset then change s else s) =
      closed ++ [change active] := by
  rw [List.map_append, List.map_cons, if_pos rfl, List.map_nil]
  congr 1
  refine (List.map_congr_left fun s hs => ?_).trans (List.map_id closed)
  exact if_neg (h s hs)

theorem Apart.find {closed : List SegmentMetadata} {active : SegmentMetadata}
    (h : Apart closed active) (file : SegmentMetadata → File) :
    ((closed ++ [active]).map fun s => (s.baseOffset, file s)).find?
      (·.1 = active.baseOffset) = some (active.baseOffset, file active) := by
  rw [List.map_append, List.find?_append, List.find?_eq_none.2 (fun x hx => ?_)]
  · simp
  · rw [decide_eq_true_eq]
    exact h.files file x hx

namespace LogHandle

variable {log : PartitionLog} {closed : List SegmentMetadata} {active : SegmentMetadata}

theorem of_eq (hs : log.segments = closed ++ [active]) :
    of log = ⟨log, active.baseOffset, active.baseOffset, .empty⟩ := by
  simp only [of, hs, List.getLast?_concat, Option.map_some, Option.getD_some]

theorem writeLog_of (hs : log.segments = closed ++ [active]) (ha : Apart closed active)
    (data : Bytes) (fault : Option Nat) :
    (of log).writeLog data fault = ((active.file.write data fault).1,
      of { log with
        segments := closed ++ [{ active with file := (active.file.write data fault).2 }] }) := by
  rw [of_eq hs, of_eq rfl]
  have hfind := ha.find SegmentMetadata.file
  simp only [writeLog, dir, PartitionLog.dir, hs, Dir.empty, List.append_nil, hfind, Option.map_some,
    Option.getD_some, ha.map fun s => { s with file := (active.file.write data fault).2 }]
  rfl

theorem writeIndex_of (hs : log.segments = closed ++ [active]) (ha : Apart closed active)
    (data : Bytes) (fault : Option Nat) :
    (of log).writeIndex data fault = ((active.indexFile.write data fault).1,
      of { log with segments :=
        closed ++ [{ active with indexFile := (active.indexFile.write data fault).2 }] }) := by
  rw [of_eq hs, of_eq rfl]
  have hfind := ha.find SegmentMetadata.indexFile
  simp only [writeIndex, dir, PartitionLog.dir, hs, Dir.empty, List.append_nil, hfind,
    Option.map_some, Option.getD_some,
    ha.map fun s => { s with indexFile := (active.indexFile.write data fault).2 }]
  rfl

/-- The segment behind the announcement of a record. -/
def announced (s : SegmentMetadata) (interval offset : Nat) (fault : Option Fault) :
    SegmentMetadata :=
  { s with indexFile := if shouldIndex interval s.index s.len then
      (s.indexFile.write (encodeIndexEntry ⟨offset, s.len⟩) (fault.bind Fault.indexBytes)).2
    else s.indexFile }

theorem announce_of (hs : log.segments = closed ++ [active]) (ha : Apart closed active)
    (fault : Option Fault) :
    (of log).announce active fault =
      ((if active.announces log.indexIntervalBytes log.nextOffset fault then .ok () else .error .io),
        of { log with segments :=
          closed ++ [announced active log.indexIntervalBytes log.nextOffset fault] }) := by
  simp only [announce, show (of log).log = log from rfl, writeIndex_of hs ha, announced,
    SegmentMetadata.announces, decide_eq_true_eq]
  cases hindex : shouldIndex log.indexIntervalBytes active.index active.len with
  | false =>
    rw [if_neg Bool.false_ne_true, if_pos (fun h => by cases h), if_neg Bool.false_ne_true]
    exact congrArg (Prod.mk _) (congrArg of (by rw [← hs]))
  | true =>
    simp only [if_true, forall_const]
    congr 1
    unfold File.write
    split
    · rfl
    · rfl

theorem store_of (hs : log.segments = closed ++ [active]) (ha : Apart closed active)
    (r : Record) (encoded : Bytes) (fault : Option Fault) :
    (of log).store r encoded fault =
      let s := announced active log.indexIntervalBytes log.nextOffset fault
      let w := active.file.write encoded (fault.bind Fault.logBytes)
      if active.announces log.indexIntervalBytes log.nextOffset fault then
        match w.1 with
        | .error e => (.error e, of { log with segments := closed ++ [{ s with file := w.2 }] })
        | .ok () =>
          (of { log with segments := closed ++ [{ s with file := w.2 }] }).commit r encoded.length
      else (.error .io, of { log with segments := closed ++ [s] }) := by
  have hlast : (of log).log.segments.getLast? = some active := by
    rw [show (of log).log = log from rfl, hs, List.getLast?_concat]
  unfold store
  rw [hlast]
  simp only [announce_of hs ha]
  cases active.announces log.indexIntervalBytes log.nextOffset fault with
  | false => rfl
  | true =>
    simp only [if_true]
    rw [writeLog_of rfl (show Apart closed (announced active _ _ _) from ha),
      show (announced active log.indexIntervalBytes log.nextOffset fault).file = active.file from rfl]
    cases (active.file.write encoded (fault.bind Fault.logBytes)).1 with
    | error e => rfl
    | ok u => rfl

theorem commit_of (hs : log.segments = closed ++ [active]) {n : Nat}
    (hlen : active.len + n ≤ U64_MAX) (r : Record) :
    (of log).commit r n =
      let segments := closed ++ [{ active with
        len := active.len + n
        index := indexRecord log.indexIntervalBytes active.index log.nextOffset active.len }]
      if U64_MAX < log.nextOffset + 1 then (.error .offsetOverflow, of { log with segments })
      else (.ok log.nextOffset, of { log with
        nextOffset := log.nextOffset + 1
        segments
        producerState := log.producerState.store r log.nextOffset }) := by
  have hlast : (of log).log.segments.getLast? = some active := by
    rw [show (of log).log = log from rfl, hs, List.getLast?_concat]
  unfold commit
  rw [hlast]
  simp only [if_neg (Nat.not_lt.2 hlen), of_eq hs, PartitionLog.setActive, hs, List.dropLast_concat]
  split
  · rw [of_eq rfl]
  · rw [of_eq rfl]

/-- A base offset that no segment has is free in the directory. -/
theorem dir_free (hs : log.segments = closed ++ [active]) {base : Nat}
    (hfree : log.segments.any (·.baseOffset = base) = false) :
    (of log).dir.logs.any (·.1 = base) = false ∧ (of log).dir.indexes.any (·.1 = base) = false := by
  simp only [dir, of_eq hs, PartitionLog.dir, Dir.empty, List.append_nil, List.any_map]
  exact ⟨hfree, hfree⟩

/-- What a failed rotation leaves: the log as it was, and no file of the new segment or at least
its log file. -/
theorem rotate_fault (hs : log.segments = closed ++ [active]) {fault : Fault}
    (hfree : log.segments.any (·.baseOffset = log.nextOffset) = false)
    (hf : fault.inRotation = true) :
    ∃ h, (of log).rotate (some fault) = (.error .io, h) ∧ h.log = log ∧
      (fault.leavesFile = true → h.dir.logs.any (·.1 = log.nextOffset) = true) ∧
      (fault.leavesFile = false → h = of log) := by
  obtain ⟨hlogs, hindexes⟩ := dir_free hs hfree
  unfold rotate
  cases fault with
  | createLog => exact ⟨of log, by simp, rfl, (fun h => by cases h), fun _ => rfl⟩
  | writeIndex k => cases hf
  | writeLog k => cases hf
  | createIndex =>
    refine ⟨_, by simp [show (of log).log = log from rfl, hlogs]; rfl, rfl, fun _ => ?_,
      fun h => by cases h⟩
    simp [dir]
  | syncDir =>
    refine ⟨_, by simp [show (of log).log = log from rfl, hlogs, hindexes]; rfl, rfl, fun _ => ?_,
      fun h => by cases h⟩
    simp [dir]
  | openLog =>
    refine ⟨_, by simp [show (of log).log = log from rfl, hlogs, hindexes]; rfl, rfl, fun _ => ?_,
      fun h => by cases h⟩
    simp [dir]
  | openIndex =>
    refine ⟨_, by simp [show (of log).log = log from rfl, hlogs, hindexes]; rfl, rfl, fun _ => ?_,
      fun h => by cases h⟩
    simp [dir]

theorem rotate_ok (hs : log.segments = closed ++ [active]) {fault : Option Fault}
    (hfree : log.segments.any (·.baseOffset = log.nextOffset) = false)
    (hf : fault.any Fault.inRotation = false) :
    (of log).rotate fault =
      (.ok (), of { log with segments := log.segments ++ [.new log.nextOffset] }) := by
  obtain ⟨hlogs, hindexes⟩ := dir_free hs hfree
  have hne : ∀ f, f.inRotation = true → fault ≠ some f := by
    rintro f hin rfl
    rw [Option.any_some, hin] at hf
    cases hf
  unfold rotate
  simp only [show (of log).log = log from rfl, hlogs, hindexes, hne .createLog rfl,
    hne .createIndex rfl, hne .syncDir rfl, hne .openLog rfl, hne .openIndex rfl, false_or,
    Bool.false_eq_true, if_false]
  rw [of_eq hs, of_eq rfl]
  rfl

theorem of_dir (log : PartitionLog) : (of log).dir = log.dir := by
  simp only [dir, of, Dir.empty, List.append_nil]

theorem makeRoom_nextOffset (h : LogHandle) (n : Nat) (fault : Option Fault) :
    (h.makeRoom n fault).2.log.nextOffset = h.log.nextOffset := by
  unfold makeRoom
  split
  · rfl
  · split
    · unfold rotate
      dsimp only
      split
      · rfl
      · split
        · rfl
        · split
          · rfl
          · split
            · rfl
            · rfl
    · rfl

theorem announce_nextOffset (h : LogHandle) (active : SegmentMetadata) (fault : Option Fault) :
    (h.announce active fault).2.log.nextOffset = h.log.nextOffset := by
  unfold announce
  split
  · rfl
  · rfl

theorem store_lt {h : LogHandle} {r : Record} {encoded : Bytes} {fault : Option Fault}
    {offset : Nat} (hok : (h.store r encoded fault).1 = .ok offset) :
    h.log.nextOffset < U64_MAX := by
  unfold store at hok
  split at hok
  · cases hok
  · rename_i active _
    split at hok
    · cases hok
    · rename_i announced hann
      have hnext := announce_nextOffset h active fault
      rw [hann] at hnext
      split at hok
      · cases hok
      · rename_i written hwrite
        have hkept : written.log.nextOffset = announced.log.nextOffset := by
          rw [show written = (announced.writeLog encoded (fault.bind Fault.logBytes)).2 by
            rw [hwrite]]
          rfl
        unfold commit at hok
        split at hok
        · cases hok
        · split at hok
          · cases hok
          · simp only at hok
            split at hok
            · cases hok
            · rename_i hlt
              have hset : ∀ s, (written.log.setActive s).nextOffset = written.log.nextOffset :=
                fun s => rfl
              rw [hset] at hlt
              simp only at hnext
              omega

end LogHandle

theorem File.write_none {f f' : File} {data : Bytes} (h : f.writeAll data = .ok f') :
    f.write data none = (.ok (), f') := by
  obtain ⟨hfits, rfl⟩ := File.writeAll_ok h
  have htake : f.taken data.length none = data.length := by
    rw [File.taken]
    omega
  rw [File.write, htake, List.take_length, if_neg (fun hor => ?_)]
  rcases hor with hsome | hlt
  · cases hsome
  · omega

theorem File.write_fits {f : File} {data : Bytes}
    (h : f.bytes.length + data.length ≤ MAX_FILE_SIZE) : (f.write data none).1 = .ok () := by
  have hall : f.writeAll data = .ok { f with bytes := f.bytes ++ data } := by
    rw [File.writeAll, if_neg (Nat.not_lt.2 h)]
  rw [File.write_none hall]

theorem encodeIndexEntry_length (e : IndexEntry) : (encodeIndexEntry e).length = 16 := by
  rw [encodeIndexEntry, List.length_append, toBE_length, toBE_length]

/-- A record that passes the checks fits into an empty file. -/
theorem encodedSize_le {r : Record} (h : checkRecord r = .ok ()) :
    encodedSize r ≤ MAX_FILE_SIZE := by
  have := (checkRecord_ok h).1
  simp only [encodedSize, LENGTH_SIZE, MAX_RECORD_SIZE, MAX_FILE_SIZE] at this ⊢
  omega

/-- A write that succeeds takes all bytes. -/
theorem File.write_ok {f : File} {data : Bytes} {fault : Option Nat}
    (h : (f.write data fault).1 = .ok ()) :
    fault = none ∧ f.bytes.length + data.length ≤ MAX_FILE_SIZE ∧
      (f.write data fault).2 = { f with bytes := f.bytes ++ data } := by
  have hcond : ¬ (fault.isSome ∨ MAX_FILE_SIZE < f.bytes.length + data.length) := by
    intro hor
    rw [File.write, if_pos hor] at h
    cases h
  obtain ⟨hnone, hfits⟩ := not_or.1 hcond
  obtain rfl : fault = none := by
    cases fault with
    | none => rfl
    | some k => exact absurd rfl hnone
  have htake : f.taken data.length none = data.length := by
    rw [File.taken]
    omega
  refine ⟨rfl, by omega, ?_⟩
  rw [File.write, htake, List.take_length]

theorem File.write_nothing {f : File} {data : Bytes} {fault : Option Nat} (hne : data ≠ [])
    (h : f.taken data.length fault = 0) :
    (f.write data fault).1 = .error .io ∧ (f.write data fault).2.bytes = f.bytes := by
  have hpos := List.length_pos_iff.2 hne
  rw [File.write, h]
  refine ⟨if_pos ?_, List.append_nil _⟩
  cases fault with
  | some k => exact Or.inl rfl
  | none =>
    rw [File.taken] at h
    right
    omega

/-- The write of `append` without a fault. -/
theorem SegmentMetadata.write_announced {s w : SegmentMetadata} {interval offset : Nat}
    {encoded : Bytes} (h : s.write interval offset encoded = .ok w) :
    s.announces interval offset none = true ∧ s.file.write encoded none = (.ok (), w.file) ∧
      w = { LogHandle.announced s interval offset none with
        file := w.file
        len := s.len + encoded.length
        index := indexRecord interval s.index offset s.len } := by
  unfold SegmentMetadata.write at h
  split at h
  · cases h
  · rename_i indexFile hindex
    split at h
    · cases h
    · rename_i file hfile
      split at h
      · cases h
      · cases h
        have hwritten : shouldIndex interval s.index s.len = true →
            s.indexFile.write (encodeIndexEntry ⟨offset, s.len⟩) none = (.ok (), indexFile) := by
          intro hs
          rw [SegmentMetadata.writeIndex, if_pos hs] at hindex
          exact File.write_none hindex
        refine ⟨?_, File.write_none hfile, ?_⟩
        · rw [SegmentMetadata.announces, decide_eq_true_eq]
          intro hs
          rw [Option.bind_none, hwritten hs]
          rfl
        · simp only [LogHandle.announced, Option.bind_none]
          congr 1
          split
          · rename_i hs
            rw [hwritten hs]
          · rename_i hs
            rw [SegmentMetadata.writeIndex, if_neg hs] at hindex
            cases hindex
            rfl

/-- Where the index entry and the record can be written, the segment is. -/
theorem SegmentMetadata.write_of_announces {s : SegmentMetadata} {interval offset : Nat}
    {encoded : Bytes} (hlen : s.len = s.file.bytes.length)
    (hann : s.announces interval offset none = true)
    (hfile : (s.file.write encoded none).1 = .ok ()) :
    ∃ w, s.write interval offset encoded = .ok w := by
  have hall : ∀ {f : File} {data : Bytes}, f.bytes.length + data.length ≤ MAX_FILE_SIZE →
      f.writeAll data = .ok { f with bytes := f.bytes ++ data } := by
    intro f data hle
    rw [File.writeAll, if_neg (Nat.not_lt.2 hle)]
  obtain ⟨indexFile, hindex⟩ : ∃ indexFile, s.writeIndex interval offset = .ok indexFile := by
    rw [SegmentMetadata.announces, decide_eq_true_eq] at hann
    unfold SegmentMetadata.writeIndex
    split
    · rename_i hs
      have hok := hann hs
      rw [Option.bind_none] at hok
      cases hres : (s.indexFile.write (encodeIndexEntry ⟨offset, s.len⟩) none).1 with
      | error e =>
        rw [hres] at hok
        cases hok
      | ok u => exact ⟨_, hall (File.write_ok hres).2.1⟩
    · exact ⟨_, rfl⟩
  have hfits := (File.write_ok hfile).2.1
  have hsum : ¬ U64_MAX < s.len + encoded.length := by
    simp only [MAX_FILE_SIZE, U64_MAX] at hfits ⊢
    omega
  simp only [SegmentMetadata.write, hindex, hall hfits, if_neg hsum]
  exact ⟨_, rfl⟩

theorem LogHandle.store_ok {log : PartitionLog} {closed : List SegmentMetadata}
    {active w : SegmentMetadata} {r : Record} {encoded : Bytes}
    (hs : log.segments = closed ++ [active]) (ha : Apart closed active)
    (hlen : active.len = active.file.bytes.length) (hb : log.nextOffset < U64_MAX)
    (hw : active.write log.indexIntervalBytes log.nextOffset encoded = .ok w) :
    (of log).store r encoded none = (.ok log.nextOffset, of { log with
      nextOffset := log.nextOffset + 1
      segments := closed ++ [w]
      producerState := log.producerState.store r log.nextOffset }) := by
  obtain ⟨hann, hfile, hwritten⟩ := SegmentMetadata.write_announced hw
  have hwithin := SegmentMetadata.write_within hw
  have hfits : active.len + encoded.length ≤ U64_MAX := by
    simp only [MAX_FILE_SIZE, U64_MAX] at hwithin ⊢
    omega
  rw [store_of hs ha]
  simp only [Option.bind_none, hfile, hann, if_true]
  rw [@commit_of _ closed { announced active log.indexIntervalBytes log.nextOffset none with
    file := w.file } rfl _ hfits, if_neg (show ¬ U64_MAX < log.nextOffset + 1 by omega)]
  conv_rhs => rw [hwritten]
  rfl

theorem PartitionLog.target_takes {log : PartitionLog} (closed : List SegmentMetadata) {active : SegmentMetadata}
    {m n : Nat} {fault : Option Fault} :
    (if log.full active n then
      (SegmentMetadata.new log.nextOffset).takes log.indexIntervalBytes log.nextOffset m fault
    else active.takes log.indexIntervalBytes log.nextOffset m fault) =
      (log.target closed active n).2.takes log.indexIntervalBytes log.nextOffset m fault := by
  unfold PartitionLog.target
  split
  · rfl
  · rfl

theorem totalSize_length_le (rs : List Record) : rs.length ≤ totalSize rs := by
  induction rs with
  | nil => exact Nat.le_refl _
  | cons r rs ih =>
    have := encodedSize_pos r
    simp only [totalSize, List.map_cons, List.sum_cons, List.length_cons] at ih ⊢
    omega

section Faults

variable [Checksum] {interval : Nat} {log : PartitionLog} {removed : List Record}
  {chunks : List (List Record)} {last : List Record}

open LogHandle

theorem recordBytes_ne_nil (r : Record) (offset : Nat) : recordBytes r offset ≠ [] := by
  rw [← List.length_pos_iff, recordBytes_length]
  exact encodedSize_pos r

theorem LogHandle.of_append {r : Record} (ha : admission log.producerState r = .ok none)
    (hc : checkRecord r = .ok ()) (fault : Option Fault) :
    (of log).append r fault =
      match (of log).makeRoom (encodedSize r) fault with
      | (.error e, h) => (.error e, h)
      | (.ok (), h) => h.store r (recordBytes r log.nextOffset) fault := by
  simp only [append, show (of log).log = log from rfl, ha, encodeRecord_checked hc,
    recordBytes_length]

namespace Rep

/-- A segment that is full has records, so that the next offset is free for the next segment. -/
theorem fresh (h : Rep interval log removed chunks last) {closed : List SegmentMetadata}
    {active : SegmentMetadata} {n : Nat} (hs : log.segments = closed ++ [active])
    (hfull : log.full active n = true) :
    log.segments.any (·.baseOffset = log.nextOffset) = false := by
  obtain ⟨closed', active', hs', _, hactive⟩ := h.segments.last
  rw [hs] at hs'
  obtain ⟨rfl, heq⟩ := List.append_inj' hs' rfl
  cases heq
  have hlast : last ≠ [] := by
    rintro rfl
    simp [PartitionLog.full, hactive.len, totalSize] at hfull
  have hpos := List.length_pos_iff.2 hlast
  have hnext := h.nextOffset_eq
  rw [List.length_append] at hnext
  have hsorted := h.laid.sorted h.closed
  simp only [PartitionLog.dir, hs, List.map_append, List.map_cons, List.map_nil] at hsorted
  rw [List.any_eq_false]
  intro s hmem heq
  rw [decide_eq_true_eq] at heq
  have hbase := hactive.baseOffset
  rw [hs] at hmem
  rcases List.mem_append.1 hmem with hmem | hmem
  · have hlt := (List.pairwise_append.1 hsorted).2.2 (s.baseOffset, s.file)
      (List.mem_map.2 ⟨s, hmem, rfl⟩) (active.baseOffset, active.file) (List.mem_singleton.2 rfl)
    simp only at hlt
    omega
  · rw [List.mem_singleton.1 hmem] at heq
    omega

/-- The log that takes a record of `n` bytes: the log itself, or the log with a new segment. -/
theorem room (h : Rep interval log removed chunks last) {closed : List SegmentMetadata}
    {active : SegmentMetadata} (hs : log.segments = closed ++ [active]) (n : Nat) :
    ∃ chunks₁ last₁, chunks₁.flatten ++ last₁ = chunks.flatten ++ last ∧
      Rep interval { log with
        segments := (log.target closed active n).1 ++ [(log.target closed active n).2] }
        removed chunks₁ last₁ ∧
      log.makeRoom n = .ok { log with
        segments := (log.target closed active n).1 ++ [(log.target closed active n).2] } ∧
      ∀ fault : Option Fault, (log.full active n && fault.any Fault.inRotation) = false →
        (of log).makeRoom n fault = (.ok (), of { log with
          segments := (log.target closed active n).1 ++ [(log.target closed active n).2] }) := by
  have hlast : log.segments.getLast? = some active := by rw [hs, List.getLast?_concat]
  cases hfull : log.full active n with
  | false =>
    simp only [PartitionLog.target, hfull, Bool.false_eq_true, if_false, ← hs]
    refine ⟨chunks, last, rfl, h, ?_, fun fault _ => ?_⟩
    · simp only [PartitionLog.makeRoom, hlast, hfull, Bool.false_eq_true, if_false]
    · simp only [LogHandle.makeRoom, show (of log).log = log from rfl, hlast, hfull,
        Bool.false_eq_true, if_false]
  | true =>
    have hfree := h.fresh hs hfull
    simp only [PartitionLog.target, hfull, if_true, ← hs, Bool.true_and]
    have hroom : log.makeRoom n =
        .ok { log with segments := log.segments ++ [.new log.nextOffset] } := by
      obtain ⟨htaken, _⟩ | ⟨_, hrot⟩ := log.rotate_cases
      · rw [hfree] at htaken
        cases htaken
      · simp only [PartitionLog.makeRoom, hlast, hfull, if_true, hrot]
    refine ⟨chunks ++ [last], [], by simp, ?_, hroom, fun fault hf => ?_⟩
    · rcases h.makeRoom hroom with hsame | hrep
      · have := congrArg (fun l => l.segments.length) hsame
        simp at this
      · exact hrep
    · simp only [LogHandle.makeRoom, show (of log).log = log from rfl, hlast, hfull, if_true,
        rotate_ok hs hfree hf]

/-- **Without a fault** the handle does what the log does. -/
theorem of_append_ok (h : Rep interval log removed chunks last) {r : Record}
    (hb : log.nextOffset < U64_MAX) (hio : (log.append r).1 ≠ .error .io) :
    (of log).append r none = ((log.append r).1, of (log.append r).2) := by
  cases ha : admission log.producerState r with
  | error e => simp [LogHandle.append, PartitionLog.append, show (of log).log = log from rfl, ha]
  | ok o =>
    cases o with
    | some offset =>
      simp [LogHandle.append, PartitionLog.append, show (of log).log = log from rfl, ha]
    | none =>
      cases hc : checkRecord r with
      | error e =>
        simp [LogHandle.append, PartitionLog.append, show (of log).log = log from rfl, ha,
          encodeRecord, hc]
      | ok u =>
        obtain ⟨closed, active, hs, _, hactive⟩ := h.segments.last
        obtain ⟨w, hw, happ⟩ := PartitionLog.append_stored ha hc hs hactive.len_eq hb hio
        obtain ⟨chunks₁, last₁, _, hrep₁, _, hroom⟩ := h.room hs (encodedSize r)
        obtain ⟨closed', active', hs', _, htarget⟩ := hrep₁.segments.last
        obtain ⟨rfl, heq⟩ := List.append_inj' hs' rfl
        cases heq
        rw [of_append ha hc, hroom none (Bool.and_false _), happ]
        exact LogHandle.store_ok rfl (hrep₁.apart rfl) htarget.len_eq hb hw

/-- What is not in the log file does not matter. -/
theorem setActive (h : Rep interval log removed chunks last) {closed : List SegmentMetadata}
    {active s : SegmentMetadata} (hs : log.segments = closed ++ [active])
    (hbase : s.baseOffset = active.baseOffset) (hbytes : s.file.bytes = active.file.bytes)
    (hlen : s.len = active.len) (hindex : s.index = active.index) :
    Rep interval { log with segments := closed ++ [s] } removed chunks last := by
  obtain ⟨closed', active', hs', hclosed, hactive⟩ := h.segments.last
  rw [hs] at hs'
  obtain ⟨rfl, heq⟩ := List.append_inj' hs' rfl
  cases heq
  refine ⟨h.indexInterval, hclosed.concat ⟨?_, ?_, ?_, ?_⟩, h.closed, h.nextOffset, h.sequenced,
    h.producerState, h.bound⟩
  · rw [hbase, hactive.baseOffset]
  · rw [hbytes, hactive.bytes]
  · rw [hlen, hactive.len]
  · rw [hindex, hactive.index]

/-- **A failure that spoils nothing** leaves the records as they are. -/
theorem fault_harmless (h : Rep interval log removed chunks last) {r : Record}
    {fault : Option Fault} {e : StorageError} (hfail : ((of log).append r fault).1 = .error e)
    (hsp : log.spoils r fault = false) :
    (∃ log' chunks' last', ((of log).append r fault).2 = of log' ∧
      Rep interval log' removed chunks' last' ∧
      chunks'.flatten ++ last' = chunks.flatten ++ last) ∨
    (log.nextOffset = U64_MAX ∧ ((of log).append r fault).2.log = log) := by
  obtain ⟨closed, active, hs, _, hactive⟩ := h.segments.last
  have hlast : log.segments.getLast? = some active := by rw [hs, List.getLast?_concat]
  cases ha : admission log.producerState r with
  | error e =>
    refine Or.inl ⟨log, chunks, last, ?_, h, rfl⟩
    simp [LogHandle.append, show (of log).log = log from rfl, ha]
  | ok o =>
    cases o with
    | some offset =>
      refine Or.inl ⟨log, chunks, last, ?_, h, rfl⟩
      simp [LogHandle.append, show (of log).log = log from rfl, ha]
    | none =>
      cases hc : checkRecord r with
      | error e =>
        refine Or.inl ⟨log, chunks, last, ?_, h, rfl⟩
        simp [LogHandle.append, show (of log).log = log from rfl, ha, encodeRecord, hc]
      | ok u =>
        obtain ⟨chunks₁, last₁, hsame, hrep₁, _, hroom⟩ := h.room hs (encodedSize r)
        simp only [PartitionLog.spoils, ha, hc, hlast] at hsp
        rw [of_append ha hc] at hfail ⊢
        cases hrot : log.full active (encodedSize r) && fault.any Fault.inRotation with
        | true =>
          obtain ⟨hfull, hany⟩ := Bool.and_eq_true_iff.1 hrot
          obtain ⟨f, rfl, hf⟩ := (Option.any_eq_true _ _).1 hany
          obtain ⟨after, hrotate, hlog, _, hkept⟩ := rotate_fault hs (h.fresh hs hfull) hf
          have hroom : (of log).makeRoom (encodedSize r) (some f) = (.error .io, after) := by
            simp only [LogHandle.makeRoom, show (of log).log = log from rfl, hlast, hfull, if_true,
              hrotate]
          rw [hroom]
          rw [hrot, if_pos rfl, Option.any_some, Bool.and_eq_false_iff] at hsp
          rcases hsp with hleft | hover
          · exact Or.inl ⟨log, chunks, last, hkept hleft, h, rfl⟩
          · have := h.bound
            rw [decide_eq_false_iff_not] at hover
            exact Or.inr ⟨by omega, hlog⟩
        | false =>
          rw [hrot, if_neg Bool.false_ne_true, PartitionLog.target_takes closed] at hsp
          rw [hroom fault hrot] at hfail ⊢
          have hstore := @store_of { log with segments := _ } _ _ rfl (hrep₁.apart rfl) r
            (recordBytes r log.nextOffset) fault
          simp only at hfail ⊢ hstore
          rw [hstore]
          left
          cases hann : (log.target closed active (encodedSize r)).2.announces
              log.indexIntervalBytes log.nextOffset fault with
          | false =>
            rw [if_neg Bool.false_ne_true]
            exact ⟨_, chunks₁, last₁, rfl, hrep₁.setActive rfl rfl rfl rfl rfl, hsame⟩
          | true =>
            rw [SegmentMetadata.takes, hann, Bool.true_and, decide_eq_false_iff_not,
              Nat.not_lt, Nat.le_zero] at hsp
            obtain ⟨herror, hbytes⟩ := File.write_nothing (recordBytes_ne_nil r log.nextOffset)
              (by rw [recordBytes_length]; exact hsp)
            rw [if_pos rfl, herror]
            exact ⟨_, chunks₁, last₁, rfl, hrep₁.setActive rfl rfl hbytes rfl rfl, hsame⟩

end Rep

/-! ## Reading behind the last record -/

theorem readSegments_last {offset maxBytes bytesRead : Nat} {records : List StoredRecord}
    {closed : List SegmentMetadata} {s : SegmentMetadata}
    (h : ∀ x ∈ closed ++ [s], x.baseOffset ≤ offset) :
    PartitionLog.readSegments offset maxBytes records bytesRead (closed ++ [s]) =
      PartitionLog.readSegments offset maxBytes records bytesRead [s] := by
  induction closed with
  | nil => rfl
  | cons x closed ih =>
    have hnext : (closed ++ [s]).head?.any (·.baseOffset ≤ offset) = true := by
      obtain ⟨y, rest, hy⟩ := List.exists_cons_of_ne_nil (List.concat_ne_nil s closed)
      have hmem : y ∈ closed ++ [s] := by rw [hy]; exact List.mem_cons_self
      have hle := h y (List.mem_cons_of_mem _ hmem)
      rw [hy, List.head?_cons, Option.any_some]
      exact decide_eq_true hle
    rw [List.cons_append, PartitionLog.readSegments, if_pos hnext]
    exact ih fun y hy => h y (List.mem_cons_of_mem _ hy)

/-- Records below the requested offset are skipped, whatever follows them. -/
theorem readBuffer_skip {offset maxBytes base fuel bytesRead : Nat} {rs : List Record}
    {records : List StoredRecord} {tail : Bytes} (hc : ∀ r ∈ rs, checkRecord r = .ok ())
    (hb : base + rs.length ≤ offset) (ho : offset ≤ U64_MAX) :
    PartitionLog.readBuffer offset maxBytes (fuel + rs.length) records bytesRead
        (segmentBytes base rs ++ tail) =
      PartitionLog.readBuffer offset maxBytes fuel records bytesRead tail := by
  induction rs generalizing base with
  | nil => rfl
  | cons r rs ih =>
    rw [List.length_cons] at hb ⊢
    have hframe := @frames_isFrame _ base (r :: rs) hc (by rw [List.length_cons]; omega) _
      List.mem_cons_self
    have hdec := hframe.complete (segmentBytes (base + 1) rs ++ tail)
    have hne : recordBytes r base ++ (segmentBytes (base + 1) rs ++ tail) ≠ [] := fun h =>
      hframe.ne_nil (List.append_eq_nil_iff.1 h).1
    rw [segmentBytes_cons, List.append_assoc, ← Nat.add_assoc, PartitionLog.readBuffer, if_neg hne,
      hdec]
    simp only [show (r.at base).offset < offset by rw [Record.at_offset]; omega, if_true]
    exact ih (fun x hx => hc x (List.mem_cons_of_mem _ hx)) (by omega)

/-- Bytes of another record behind the last one show in a read at the next offset. -/
theorem Rep.read_extended (h : Rep interval log removed chunks last)
    {closed : List SegmentMetadata} {active s : SegmentMetadata} {log' : PartitionLog} {r : Record}
    {tail : Bytes} {k : Nat} (hs : log.segments = closed ++ [active])
    (hs' : log'.segments = closed ++ [s]) (hbase : s.baseOffset = active.baseOffset)
    (hbytes : s.file.bytes = active.file.bytes ++ tail) (hk : k ≤ last.length)
    (hseek : s.seek log.nextOffset = totalSize (last.take k)) (hc : checkRecord r = .ok ())
    (hpre : tail <+: recordBytes r log.nextOffset) (hne : tail ≠ []) :
    log'.read log.nextOffset USIZE_MAX ≠ log.read log.nextOffset USIZE_MAX := by
  obtain ⟨closed', active', hs'', _, hactive⟩ := h.segments.last
  rw [hs] at hs''
  obtain ⟨rfl, heq⟩ := List.append_inj' hs'' rfl
  cases heq
  have hnext := h.nextOffset_eq
  have hbound := h.bound
  rw [List.length_append] at hnext
  have hempty : log.read log.nextOffset USIZE_MAX = .ok [] := by
    rw [h.read, if_neg (by decide), fromOffset_below (by rw [List.length_append]; omega)]
    rfl
  have hbelow : ∀ x ∈ closed ++ [s], x.baseOffset ≤ log.nextOffset := by
    intro x hx
    have hsorted := h.laid.sorted h.closed
    simp only [PartitionLog.dir, hs, List.map_append, List.map_cons, List.map_nil] at hsorted
    have hle := hactive.baseOffset
    rcases List.mem_append.1 hx with hx | hx
    · have hlt := (List.pairwise_append.1 hsorted).2.2 (x.baseOffset, x.file)
        (List.mem_map.2 ⟨x, hx, rfl⟩) (active.baseOffset, active.file) (List.mem_singleton.2 rfl)
      simp only at hlt
      omega
    · rw [List.mem_singleton.1 hx, hbase]
      omega
  have hbuffer : s.file.bytes.drop (s.seek log.nextOffset) =
      segmentBytes (removed.length + chunks.flatten.length + k) (last.drop k) ++ tail := by
    rw [hseek, hbytes, List.drop_append_of_le_length, hactive.buffer hk]
    rw [hactive.bytes, segmentBytes_length]
    exact totalSize_take_le _ _
  have hframe : IsFrame decodeRecord (r.at log.nextOffset) (recordBytes r log.nextOffset) := by
    refine encodeRecord_isFrame ?_ (encodeRecord_checked hc log.nextOffset)
    simp only [U64_MAX] at hbound
    omega
  have hpos := List.length_pos_iff.2 hne
  -- the loop gets to the bytes behind the last record
  have hloop : ∃ fuel, PartitionLog.readBuffer log.nextOffset USIZE_MAX
      ((s.file.bytes.drop (s.seek log.nextOffset)).length + 1) [] 0
      (s.file.bytes.drop (s.seek log.nextOffset)) =
      PartitionLog.readBuffer log.nextOffset USIZE_MAX (fuel + 2) [] 0 tail := by
    have hcount := totalSize_length_le (last.drop k)
    rw [hbuffer, List.length_append, segmentBytes_length]
    refine ⟨totalSize (last.drop k) + tail.length + 1 - (last.drop k).length - 2, ?_⟩
    rw [← @readBuffer_skip _ _ _ (removed.length + chunks.flatten.length + k) _ 0 (last.drop k) [] tail
      (fun x hx => h.checked x (List.mem_append_right _ (List.mem_of_mem_drop hx)))
      (by rw [List.length_drop]; omega) hbound]
    congr 1
    omega
  obtain ⟨fuel, hloop⟩ := hloop
  rw [hempty, PartitionLog.read, if_neg (by decide), hs', readSegments_last hbelow,
    PartitionLog.readSegments]
  simp only [List.head?_nil, Option.any_none, Bool.false_eq_true, if_false, hloop]
  by_cases hwhole : tail = recordBytes r log.nextOffset
  · -- the whole record is returned
    have hdec := hframe.complete []
    rw [List.append_nil, ← hwhole] at hdec
    rw [PartitionLog.readBuffer, if_neg hne, hdec]
    simp [PartitionLog.readBuffer, PartitionLog.readSegments]
  · rw [PartitionLog.readBuffer, if_neg hne, hframe.torn tail hpre hwhole]
    simp

/-- A read at the next offset shows what a failed append left in the file of its target. -/
theorem Rep.read_spoiled (h : Rep interval log removed chunks last)
    {closed : List SegmentMetadata} {active : SegmentMetadata} {r : Record} {fault : Option Fault}
    {e : StorageError} (hs : log.segments = closed ++ [active]) (hc : checkRecord r = .ok ())
    (hfail : ((of log).store r (recordBytes r log.nextOffset) fault).1 = .error e)
    (htakes : active.takes log.indexIntervalBytes log.nextOffset (encodedSize r) fault = true) :
    ((of log).store r (recordBytes r log.nextOffset) fault).2.log.read log.nextOffset USIZE_MAX ≠
      log.read log.nextOffset USIZE_MAX := by
  obtain ⟨closed', active', hs', _, hactive⟩ := h.segments.last
  rw [hs] at hs'
  obtain ⟨rfl, heq⟩ := List.append_inj' hs' rfl
  cases heq
  have hnext := h.nextOffset_eq
  rw [List.length_append, ← Nat.add_assoc] at hnext
  rw [SegmentMetadata.takes, Bool.and_eq_true_iff, decide_eq_true_eq,
    ← recordBytes_length r log.nextOffset] at htakes
  obtain ⟨hann, htaken⟩ := htakes
  rw [store_of hs (h.apart hs), hann] at hfail ⊢
  simp only [if_true] at hfail ⊢
  have htail : (recordBytes r log.nextOffset).take (active.file.taken
      (recordBytes r log.nextOffset).length (fault.bind Fault.logBytes)) ≠ [] := by
    intro hnil
    have := congrArg List.length hnil
    rw [List.length_take, List.length_nil] at this
    have := List.length_pos_iff.2 (recordBytes_ne_nil r log.nextOffset)
    omega
  cases hwrite : (active.file.write (recordBytes r log.nextOffset) (fault.bind Fault.logBytes)).1 with
  | error e =>
    obtain ⟨k, hk, _, hseek⟩ := hactive.seek log.nextOffset
    exact h.read_extended hs rfl rfl rfl hk hseek hc (List.take_prefix _ _) htail
  | ok u =>
    -- only the next offset can be in the way now
    obtain ⟨_, hfits, hfile⟩ := File.write_ok hwrite
    have hsum : active.len + (recordBytes r log.nextOffset).length ≤ U64_MAX := by
      rw [hactive.len_eq]
      simp only [MAX_FILE_SIZE, U64_MAX] at hfits ⊢
      omega
    have hcommit := @commit_of { log with segments := _ } closed
      { announced active log.indexIntervalBytes log.nextOffset fault with
        file := (active.file.write (recordBytes r log.nextOffset) (fault.bind Fault.logBytes)).2 }
      rfl _ hsum r
    simp only [hwrite] at hfail
    simp only
    rw [hcommit] at hfail ⊢
    split at hfail
    · rename_i hover
      rw [if_pos hover]
      let w : SegmentMetadata := { announced active log.indexIntervalBytes log.nextOffset fault with
        file := (active.file.write (recordBytes r log.nextOffset) (fault.bind Fault.logBytes)).2
        len := active.len + (recordBytes r log.nextOffset).length
        index := indexRecord log.indexIntervalBytes active.index log.nextOffset active.len }
      have hbytes : w.file.bytes = active.file.bytes ++ recordBytes r log.nextOffset :=
        congrArg File.bytes hfile
      have hholds : Holds interval (removed.length + chunks.flatten.length) (last ++ [r]) w := by
        refine hactive.extend rfl ?_ ?_ ?_
        · rw [hbytes, hnext]
        · exact congrArg (active.len + ·) (recordBytes_length r log.nextOffset)
        · rw [← hnext, ← h.indexInterval]
      obtain ⟨k, _, hk, hseek⟩ := hholds.seek log.nextOffset
      have hle : k ≤ last.length := by omega
      rw [List.take_append_of_le_length hle] at hseek
      exact h.read_extended hs rfl rfl hbytes hle hseek hc List.prefix_rfl
        (recordBytes_ne_nil r log.nextOffset)
    · cases hfail

/-! ## Usable logs -/

/-- There is room for the record in the active files, or it starts new ones. -/
def LogHandle.Room (h : LogHandle) (r : Record) : Prop :=
  ∀ active ∈ h.log.segments.getLast?, h.log.full active (encodedSize r) = false →
    active.file.bytes.length + encodedSize r ≤ MAX_FILE_SIZE ∧
    active.indexFile.bytes.length + 16 ≤ MAX_FILE_SIZE

/-- What a failed append should leave: the next offset, the producers and the records are what they
were, the next record is taken, and opening the directory then gives the old records and the new
one. -/
structure Usable (topic : String) (before after : LogHandle) : Prop where
  nextOffset : after.log.nextOffset = before.log.nextOffset
  producerState : after.log.producerState = before.log.producerState
  read : ∀ offset maxBytes, after.log.read offset maxBytes = before.log.read offset maxBytes
  accepts : ∀ r, admission after.log.producerState r = .ok none → checkRecord r = .ok () →
    after.log.nextOffset < U64_MAX → after.Room r →
    (after.append r none).1 = .ok after.log.nextOffset
  reopens : ∀ r offset stored maxSegmentBytes interval, Settings topic maxSegmentBytes interval →
    admission after.log.producerState r = .ok none → (after.append r none).1 = .ok offset →
    before.log.read 0 USIZE_MAX = .ok stored →
    ∃ log', PartitionLog.openLog (after.append r none).2.dir topic maxSegmentBytes interval =
        .ok log' ∧
      log'.read 0 USIZE_MAX = .ok (stored ++ [r.at offset])

/-- A record is stored only where there is another offset. -/
theorem LogHandle.append_lt {h : LogHandle} {r : Record} {fault : Option Fault} {offset : Nat}
    (ha : admission h.log.producerState r = .ok none)
    (hok : (h.append r fault).1 = .ok offset) : h.log.nextOffset < U64_MAX := by
  simp only [LogHandle.append, ha] at hok
  split at hok
  · cases hok
  · rename_i encoded _
    split at hok
    · cases hok
    · rename_i room hroom
      have hnext := makeRoom_nextOffset h encoded.length fault
      rw [hroom] at hnext
      rw [← hnext]
      exact store_lt hok

namespace Rep

/-- What can be written to the target of a record can be appended. -/
theorem append_writable (h : Rep interval log removed chunks last) {r : Record}
    {closed : List SegmentMetadata} {active : SegmentMetadata}
    (ha : admission log.producerState r = .ok none) (hc : checkRecord r = .ok ())
    (hs : log.segments = closed ++ [active])
    (hann : (log.target closed active (encodedSize r)).2.announces log.indexIntervalBytes
      log.nextOffset none = true)
    (hfile : ((log.target closed active (encodedSize r)).2.file.write
      (recordBytes r log.nextOffset) none).1 = .ok ()) :
    (log.append r).1 ≠ .error .io := by
  obtain ⟨chunks₁, last₁, _, hrep₁, hroom, _⟩ := h.room hs (encodedSize r)
  obtain ⟨closed', active', hs', _, htarget⟩ := hrep₁.segments.last
  obtain ⟨rfl, heq⟩ := List.append_inj' hs' rfl
  cases heq
  obtain ⟨w, hw⟩ := SegmentMetadata.write_of_announces htarget.len_eq hann hfile
  simp only [PartitionLog.append, ha, encodeRecord_checked hc, recordBytes_length, hroom,
    PartitionLog.store, List.getLast?_concat, hw]
  split
  · exact fun herr => by cases herr
  · exact fun herr => by cases herr

/-- A successful append of the handle is one of the log. -/
theorem append_of_ok (h : Rep interval log removed chunks last) {r : Record} {offset : Nat}
    (ha : admission log.producerState r = .ok none)
    (hok : ((of log).append r none).1 = .ok offset) : (log.append r).1 ≠ .error .io := by
  obtain ⟨closed, active, hs, _, _⟩ := h.segments.last
  cases hc : checkRecord r with
  | error e => simp [LogHandle.append, show (of log).log = log from rfl, ha, encodeRecord, hc] at hok
  | ok u =>
    obtain ⟨chunks₁, last₁, _, hrep₁, _, hroom⟩ := h.room hs (encodedSize r)
    rw [of_append ha hc, hroom none (Bool.and_false _)] at hok
    have hstore := @store_of { log with segments := _ } _ _ rfl (hrep₁.apart rfl) r
      (recordBytes r log.nextOffset) none
    simp only at hok hstore
    rw [hstore] at hok
    split at hok
    · rename_i hann
      split at hok
      · cases hok
      · rename_i hfile
        exact h.append_writable ha hc hs hann hfile
    · cases hok

theorem append_room (h : Rep interval log removed chunks last) {r : Record}
    (ha : admission log.producerState r = .ok none) (hc : checkRecord r = .ok ())
    (hroom : (of log).Room r) : (log.append r).1 ≠ .error .io := by
  obtain ⟨closed, active, hs, _, _⟩ := h.segments.last
  have hfits : (log.target closed active (encodedSize r)).2.file.bytes.length + encodedSize r ≤
        MAX_FILE_SIZE ∧
      (log.target closed active (encodedSize r)).2.indexFile.bytes.length + 16 ≤ MAX_FILE_SIZE := by
    unfold PartitionLog.target
    split
    · exact ⟨by simpa [SegmentMetadata.new, File.empty] using encodedSize_le hc,
        by simp [SegmentMetadata.new, File.empty, MAX_FILE_SIZE]⟩
    · rename_i hfull
      exact hroom active (PartitionLog.active_mem hs) (Bool.not_eq_true _ ▸ hfull)
  refine h.append_writable ha hc hs ?_ (File.write_fits ?_)
  · rw [SegmentMetadata.announces, decide_eq_true_eq]
    intro _
    rw [Option.bind_none, File.write_fits (by rw [encodeIndexEntry_length]; exact hfits.2)]
    rfl
  · rw [recordBytes_length]
    exact hfits.1

/-- A log with the same records is usable. -/
theorem usable {log' : PartitionLog} {chunks' : List (List Record)} {last' : List Record}
    (h : Rep interval log [] chunks last) (h' : Rep interval log' [] chunks' last')
    (hsame : chunks'.flatten ++ last' = chunks.flatten ++ last) (topic : String) :
    Usable topic (of log) (of log') := by
  have hhist : history [] chunks' last' = history [] chunks last := hsame
  refine ⟨?_, ?_, fun offset maxBytes => ?_, fun r ha hc hb hroom => ?_,
    fun r offset stored maxSegmentBytes interval' hset ha hok hread => ?_⟩
  · show log'.nextOffset = log.nextOffset
    rw [h'.nextOffset, h.nextOffset, hhist]
  · show log'.producerState = log.producerState
    rw [h'.producerState, h.producerState, hhist]
  · show log'.read offset maxBytes = log.read offset maxBytes
    rw [h'.read, h.read, hsame]
  · have hio := h'.append_room ha hc hroom
    rw [h'.of_append_ok hb hio]
    exact (h'.append_stored ha hc hb hio).1
  · have hb := append_lt ha hok
    have hio := h'.append_of_ok ha hok
    have happ := h'.of_append_ok hb hio
    rw [happ] at hok ⊢
    cases hc : checkRecord r with
    | error e =>
      simp [PartitionLog.append, show admission log'.producerState r = .ok none from ha, encodeRecord,
        hc] at hok
    | ok u =>
      obtain ⟨hres, chunks'', last'', hhist'', hrep''⟩ := h'.append_stored ha hc hb hio
      simp only at hok ⊢
      rw [hres] at hok
      cases hok
      have hrefines : Refines interval (log'.append r).2 (history [] chunks last ++ [r]) :=
        ⟨chunks'', last'', hrep'', by rw [hhist'', hhist]⟩
      obtain ⟨log₁, hopen, hrefines₁⟩ := hrefines.reopen hset
      refine ⟨log₁, by rw [of_dir]; exact hopen, ?_⟩
      have hall : Refines interval log (history [] chunks last) := ⟨chunks, last, h, rfl⟩
      rw [show (of log).log = log from rfl, hall.read_all] at hread
      cases hread
      rw [hrefines₁.read_all, storedFrom_append, Nat.zero_add, h'.nextOffset, hhist]
      rfl

/-- A log that spoils nothing is left usable. -/
theorem usable_of_harmless (h : Rep interval log [] chunks last) {r : Record}
    {fault : Option Fault} {e : StorageError} (hfail : ((of log).append r fault).1 = .error e)
    (hsp : log.spoils r fault = false) (topic : String) :
    Usable topic (of log) ((of log).append r fault).2 := by
  rcases h.fault_harmless hfail hsp with ⟨log', chunks', last', hafter, hrep', hsame⟩ |
    ⟨hover, hlog⟩
  · rw [hafter]
    exact h.usable hrep' hsame topic
  · -- no record can be appended any more
    refine ⟨?_, ?_, fun offset maxBytes => ?_, fun r ha hc hb _ => ?_,
      fun r offset stored maxSegmentBytes interval' _ ha hok _ => ?_⟩
    · rw [hlog]
      rfl
    · rw [hlog]
      rfl
    · rw [hlog]
      rfl
    · rw [hlog, hover] at hb
      exact absurd hb (Nat.lt_irrefl _)
    · have hb := append_lt ha hok
      rw [hlog, hover] at hb
      exact absurd hb (Nat.lt_irrefl _)

/-- What is left behind keeps the log from being usable. -/
theorem not_usable_of_spoils (h : Rep interval log [] chunks last) {r : Record}
    {fault : Option Fault} {e : StorageError} (hfail : ((of log).append r fault).1 = .error e)
    (hsp : log.spoils r fault = true) (topic : String) :
    ¬ Usable topic (of log) ((of log).append r fault).2 := by
  intro husable
  obtain ⟨closed, active, hs, _, hactive⟩ := h.segments.last
  have hlast : log.segments.getLast? = some active := by rw [hs, List.getLast?_concat]
  unfold PartitionLog.spoils at hsp
  split at hsp
  · rename_i active' ha hc hactive'
    rw [hlast] at hactive'
    cases hactive'
    obtain ⟨chunks₁, last₁, hsame, hrep₁, _, hroom⟩ := h.room hs (encodedSize r)
    rw [of_append ha hc] at hfail husable
    cases hrot : log.full active (encodedSize r) && fault.any Fault.inRotation with
    | true =>
      obtain ⟨hfull, hany⟩ := Bool.and_eq_true_iff.1 hrot
      obtain ⟨f, rfl, hf⟩ := (Option.any_eq_true _ _).1 hany
      obtain ⟨after, hrotate, hlog, hleft, _⟩ := rotate_fault hs (h.fresh hs hfull) hf
      have hfailed : (of log).makeRoom (encodedSize r) (some f) = (.error .io, after) := by
        simp only [LogHandle.makeRoom, show (of log).log = log from rfl, hlast, hfull, if_true,
          hrotate]
      rw [hrot, if_pos rfl, Option.any_some, Bool.and_eq_true_iff, decide_eq_true_eq] at hsp
      rw [hfailed] at husable
      simp only at husable
      -- the record itself is refused because of the file that exists
      have hroom' : after.Room r := by
        intro s hmem hnot
        rw [hlog, hlast] at hmem
        cases hmem
        rw [hlog, hfull] at hnot
        cases hnot
      have haccept := husable.accepts r (by rw [hlog]; exact ha) hc (by rw [hlog]; exact hsp.2) hroom'
      have hexists : after.makeRoom (encodedSize r) none = (.error .io, after) := by
        simp only [LogHandle.makeRoom, LogHandle.rotate, hlog, hlast, hfull, if_true, hleft hsp.1,
          or_true]
      simp only [LogHandle.append, hlog, ha, encodeRecord_checked hc, recordBytes_length,
        hexists] at haccept
      cases haccept
    | false =>
      rw [hrot, if_neg Bool.false_ne_true, PartitionLog.target_takes closed] at hsp
      rw [hroom fault hrot] at hfail husable
      simp only at hfail husable
      have hread := husable.read log.nextOffset USIZE_MAX
      have hread₁ := hrep₁.read log.nextOffset USIZE_MAX
      rw [hsame, ← h.read] at hread₁
      refine hrep₁.read_spoiled rfl hc hfail hsp ?_
      exact hread.trans hread₁.symm
  · cases hsp

end Rep

/-! ## Runs -/

/-- An operation, a reopening, or an append that fails. -/
inductive Event where
  | act (a : Action)
  | failed (record : Record) (fault : Option Fault)

/-- The log after an event. -/
def PartitionLog.happen (topic : String) (log : PartitionLog) : Event → Option PartitionLog
  | .act a => log.act topic a
  | .failed record fault =>
    match (of log).append record fault with
    | (.error _, after) => some after.log
    | (.ok _, _) => none

/-- There is room for one more offset, and an append that fails spoils nothing. -/
def Unspoiled (log : PartitionLog) : Event → Prop
  | .act a => ActCountable log a
  | .failed record fault => log.nextOffset < U64_MAX ∧ log.spoils record fault = false

instance (log : PartitionLog) (e : Event) : Decidable (Unspoiled log e) :=
  match e with
  | .act a => inferInstanceAs (Decidable (ActCountable log a))
  | .failed record fault =>
    inferInstanceAs (Decidable (log.nextOffset < U64_MAX ∧ log.spoils record fault = false))

theorem Stored.happen {log' : PartitionLog} {topic : String} {event : Event} (h : Stored log)
    (hq : Unspoiled log event) (hs : log.happen topic event = some log') : Stored log' := by
  cases event with
  | act a => exact h.act hq hs
  | failed record fault =>
    obtain ⟨interval, removed, chunks, last, hrep⟩ := h
    simp only [PartitionLog.happen] at hs
    split at hs
    · rename_i e after heq
      cases hs
      have hfail : ((of log).append record fault).1 = .error e := by rw [heq]
      rcases hrep.fault_harmless hfail hq.2 with ⟨log', chunks', last', hafter, hrep', _⟩ |
        ⟨hover, _⟩
      · rw [heq] at hafter
        simp only at hafter
        rw [hafter]
        exact ⟨interval, removed, chunks', last', hrep'⟩
      · have := hq.1
        omega
    · cases hs

/-- **When a failed append leaves the log usable.**  After any run of operations, reopenings and
failed appends that spoil nothing, in a log that retention has not shortened, an append that fails,
for whatever reason, leaves the log usable if and only if it spoils nothing. -/
theorem failed_append_usable_iff {topic : String} {maxSegmentBytes interval : Nat}
    {log₀ log : PartitionLog} {events : List Event} {record : Record} {fault : Option Fault}
    {e : StorageError}
    (h₀ : PartitionLog.openLog Dir.empty topic maxSegmentBytes interval = .ok log₀)
    (hfew : Along (PartitionLog.happen topic) Unspoiled log₀ events)
    (hr : run (PartitionLog.happen topic) log₀ events = some log) (hlow : log.lowWatermark = 0)
    (hfail : ((LogHandle.of log).append record fault).1 = .error e) :
    Usable topic (LogHandle.of log) ((LogHandle.of log).append record fault).2 ↔
      log.spoils record fault = false := by
  have hnew : Stored log₀ := ⟨interval, [], [], [], openLog_empty h₀⟩
  obtain ⟨interval', removed, chunks, last, hrep⟩ :=
    run_invariant (fun _ _ _ hp hq hs => Stored.happen hp hq hs) hnew hfew hr
  rw [hrep.lowWatermark, List.length_eq_zero_iff] at hlow
  subst hlow
  constructor
  · intro husable
    cases hsp : log.spoils record fault with
    | false => rfl
    | true => exact absurd husable (hrep.not_usable_of_spoils hfail hsp topic)
  · intro hsp
    exact hrep.usable_of_harmless hfail hsp topic

end Faults

/-- Two records, a third one whose index entry is torn, and a fourth one that follows it. -/
def faultyRun : List Event :=
  [.act (.perform (.append ⟨none, utf8 "zero", 1, none⟩)),
    .act (.perform (.append ⟨none, utf8 "one", 1, some ⟨"p", 0⟩⟩)),
    .failed ⟨none, utf8 "two", 1, none⟩ (some (.writeIndex 5)),
    .act (.perform (.append ⟨none, utf8 "three", 1, none⟩))]

/-- One byte of a record in the file, and no read gets past it. -/
theorem torn_record_not_usable :
    letI := Checksum.crc32
    ∃ log₀ log, PartitionLog.openLog Dir.empty "payments" 110 1 = .ok log₀ ∧
      run (PartitionLog.happen "payments") log₀ faultyRun = some log ∧
      ∃ record fault e, ((LogHandle.of log).append record fault).1 = .error e ∧
        ¬ Usable "payments" (LogHandle.of log) ((LogHandle.of log).append record fault).2 := by
  let _ := Checksum.crc32
  have hrun : (run (PartitionLog.happen "payments") ⟨0, 110, 1, [.new 0], .empty⟩ faultyRun).any
      (fun log =>
        let after := (LogHandle.of log).append ⟨none, utf8 "four", 1, none⟩ (some (.writeLog 1))
        decide (after.1 = .error .io) &&
          decide (after.2.log.read 0 USIZE_MAX ≠ log.read 0 USIZE_MAX)) := by decide +kernel
  obtain ⟨log, hr, hlog⟩ := (Option.any_eq_true _ _).1 hrun
  simp only [Bool.and_eq_true, decide_eq_true_eq] at hlog
  exact ⟨_, log, rfl, hr, _, _, _, hlog.1, fun husable => hlog.2 (husable.read 0 USIZE_MAX)⟩

theorem failed_append_usable_iff_rotated :
    letI := Checksum.crc32
    ∃ log₀ log, PartitionLog.openLog Dir.empty "payments" 110 1 = .ok log₀ ∧
      run (PartitionLog.happen "payments") log₀ faultyRun = some log ∧
      Usable "payments" (LogHandle.of log) ((LogHandle.of log).append
        ⟨none, utf8 "four", 1, none⟩ (some (.writeLog 0))).2 := by
  let _ := Checksum.crc32
  have hrun : (run (PartitionLog.happen "payments") ⟨0, 110, 1, [.new 0], .empty⟩ faultyRun).any
      (fun log => decide (log.lowWatermark = 0) &&
        decide (((LogHandle.of log).append ⟨none, utf8 "four", 1, none⟩ (some (.writeLog 0))).1 =
          .error .io) &&
        decide (log.spoils ⟨none, utf8 "four", 1, none⟩ (some (.writeLog 0)) = false)) := by
    decide +kernel
  obtain ⟨log, hr, hlog⟩ := (Option.any_eq_true _ _).1 hrun
  simp only [Bool.and_eq_true, decide_eq_true_eq] at hlog
  have hfew : Along (PartitionLog.happen "payments") Unspoiled ⟨0, 110, 1, [.new 0], .empty⟩
      faultyRun := by decide +kernel
  exact ⟨_, log, rfl, hr, (@failed_append_usable_iff _ "payments" 110 1 _ log faultyRun _ _ _ rfl
    hfew hr hlog.1.1 hlog.1.2).2 hlog.2⟩

end SevlaMq.Storage
