import Mathlib.Data.List.Sort
import SevlaMq.Storage.RecordLog

/-!
# The segmented partition log

Model of `PartitionLog`, `recover_segment`, `discover_segments`, `create_segment` and
`rewrite_index` of `crates/storage/src/lib.rs`.

* A segment carries what is on disk at its `path` and at `index_path(path)`.  The partition
  directory holds the files of the segments and nothing else, so `PartitionLog.dir` is read off
  the segments.
* `File.synced` is the length of the prefix that a crash cannot take away.
* The handles `active_file` and `active_index_file` are always the files of the last segment.
* A file name is the 20-digit base offset; a directory is keyed by that number.
* `StorageError.io` is a failed file operation.  The state after it is of no interest: a run is a
  sequence of operations whose file operations succeed, see `PartitionLog.step`.
-/

set_option autoImplicit false

namespace SevlaMq.Storage

/-! ## Files -/

structure File where
  bytes : Bytes
  synced : Nat
  deriving DecidableEq, Repr

/-- `u64::MAX`. -/
def U64_MAX : Nat := 2 ^ 64 - 1

/-- The largest size a file can have: offsets into it are signed 64-bit integers. -/
def MAX_FILE_SIZE : Nat := 2 ^ 63 - 1

namespace File

def empty : File := ⟨[], 0⟩

/-- `write_all` on a file opened for appending. -/
def writeAll (f : File) (data : Bytes) : Except StorageError File :=
  if MAX_FILE_SIZE < f.bytes.length + data.length then .error .io
  else .ok { f with bytes := f.bytes ++ data }

/-- `sync_data`. -/
def syncData (f : File) : File := { f with synced := f.bytes.length }

/-- `set_len` to at most the present length. -/
def setLen (f : File) (len : Nat) : File := ⟨f.bytes.take len, min f.synced len⟩

end File

/-- The files of a partition directory by base offset: `{base:020}.log` and `{base:020}.idx`. -/
structure Dir where
  logs : List (Nat × File)
  indexes : List (Nat × File)
  deriving DecidableEq, Repr

def Dir.empty : Dir := ⟨[], []⟩

/-! ## Segments -/

structure IndexEntry where
  offset : Nat
  position : Nat
  deriving DecidableEq, Repr

/-- `encode_index_entry`. -/
def encodeIndexEntry (e : IndexEntry) : Bytes := toBE 8 e.offset ++ toBE 8 e.position

structure SegmentMetadata where
  baseOffset : Nat
  len : Nat
  index : List IndexEntry
  file : File
  indexFile : File
  deriving DecidableEq, Repr

/-- Whether the record at `position` gets an index entry. -/
def shouldIndex (interval : Nat) (index : List IndexEntry) (position : Nat) : Bool :=
  index.getLast?.all fun entry => interval ≤ position - entry.position

/-- The index after the record `offset` at `position`. -/
def indexRecord (interval : Nat) (index : List IndexEntry) (offset position : Nat) :
    List IndexEntry :=
  if shouldIndex interval index position then index ++ [⟨offset, position⟩] else index

namespace SegmentMetadata

/-- An empty segment. -/
def new (baseOffset : Nat) : SegmentMetadata := ⟨baseOffset, 0, [], .empty, .empty⟩

/-- The index file after a record was announced to it. -/
def writeIndex (s : SegmentMetadata) (interval offset : Nat) : Except StorageError File :=
  if shouldIndex interval s.index s.len then
    s.indexFile.writeAll (encodeIndexEntry ⟨offset, s.len⟩)
  else .ok s.indexFile

/-- The part of `append` that concerns the active segment: the index entry, the record, the
length and the index in memory.  The file has the new length already when it is computed, so the
checked addition does not fail. -/
def write (s : SegmentMetadata) (interval offset : Nat) (encoded : Bytes) :
    Except StorageError SegmentMetadata :=
  match s.writeIndex interval offset with
  | .error e => .error e
  | .ok indexFile =>
    match s.file.writeAll encoded with
    | .error e => .error e
    | .ok file =>
      if U64_MAX < s.len + encoded.length then .error .recordTooLarge
      else .ok { s with
        len := s.len + encoded.length
        index := indexRecord interval s.index offset s.len
        file := file
        indexFile := indexFile }

/-- Where a read of `offset` starts: the last index entry not beyond it, else the beginning.
`partition_point` counts the entries not beyond `offset`, which come first in a sorted index. -/
def seek (s : SegmentMetadata) (offset : Nat) : Nat :=
  ((s.index.takeWhile (·.offset ≤ offset)).getLast?.map (·.position)).getD 0

end SegmentMetadata

/-- `create_segment`; `create_new` fails on a file that exists. -/
def createSegment (segments : List SegmentMetadata) (baseOffset : Nat) :
    Except StorageError SegmentMetadata :=
  if segments.any (·.baseOffset = baseOffset) then .error .io else .ok (.new baseOffset)

/-! ## The log -/

structure PartitionLog where
  nextOffset : Nat
  maxSegmentBytes : Nat
  indexIntervalBytes : Nat
  segments : List SegmentMetadata
  producerState : ProducerTable

namespace PartitionLog

/-- What is on disk. -/
def dir (log : PartitionLog) : Dir :=
  ⟨log.segments.map fun s => (s.baseOffset, s.file),
    log.segments.map fun s => (s.baseOffset, s.indexFile)⟩

def lowWatermark (log : PartitionLog) : Nat :=
  (log.segments.head?.map (·.baseOffset)).getD log.nextOffset

def logSizeBytes (log : PartitionLog) : Nat := (log.segments.map (·.len)).sum

/-- Replace the active segment. -/
def setActive (log : PartitionLog) (s : SegmentMetadata) : PartitionLog :=
  { log with segments := log.segments.dropLast ++ [s] }

/-- `rotate`; flushing a `std::fs::File` does nothing. -/
def rotate (log : PartitionLog) : Except StorageError PartitionLog :=
  match createSegment log.segments log.nextOffset with
  | .error e => .error e
  | .ok s => .ok { log with segments := log.segments ++ [s] }

/-- An append of `encodedLen` bytes starts a new segment. -/
def full (log : PartitionLog) (active : SegmentMetadata) (encodedLen : Nat) : Bool :=
  active.len ≠ 0 && log.maxSegmentBytes < saturatingAdd active.len encodedLen

/-- The first part of `append`: rotate when the record does not fit. -/
def makeRoom (log : PartitionLog) (encodedLen : Nat) : Except StorageError PartitionLog :=
  match log.segments.getLast? with
  | none => .error .missingActiveSegment
  | some active => if log.full active encodedLen then log.rotate else .ok log

/-- The second part of `append`: write the encoded record to the active segment. -/
def store (log : PartitionLog) (record : Record) (encoded : Bytes) :
    Except StorageError Nat × PartitionLog :=
  match log.segments.getLast? with
  | none => (.error .missingActiveSegment, log)
  | some active =>
    match active.write log.indexIntervalBytes log.nextOffset encoded with
    | .error e => (.error e, log)
    | .ok written =>
      let log := log.setActive written
      if U64_MAX < log.nextOffset + 1 then (.error .offsetOverflow, log)
      else (.ok log.nextOffset, { log with
        nextOffset := log.nextOffset + 1
        producerState := log.producerState.store record log.nextOffset })

/-- `append`. -/
def append [Checksum] (log : PartitionLog) (record : Record) :
    Except StorageError Nat × PartitionLog :=
  match admission log.producerState record with
  | .error e => (.error e, log)
  | .ok (some offset) => (.ok offset, log)
  | .ok none =>
    match encodeRecord record log.nextOffset with
    | .error e => (.error e, log)
    | .ok encoded =>
      match log.makeRoom encoded.length with
      | .error e => (.error e, log)
      | .ok log => log.store record encoded

/-! ## Reading -/

/-- The loop over the records of one segment.  The flag says that the budget is used up; `records`
and `bytesRead` are the accumulators of `read`.  One unit of fuel per record. -/
def readBuffer [Checksum] (offset maxBytes : Nat) :
    Nat → List StoredRecord → Nat → Bytes → Except StorageError (Bool × List StoredRecord × Nat)
  | 0, _, _, _ => .error .invalidRecord
  | fuel + 1, records, bytesRead, buffer =>
    if buffer = [] then .ok (false, records, bytesRead) else
    match decodeRecord buffer with
    | .error e => .error e
    | .ok none => .error .invalidRecord
    | .ok (some (record, rest)) =>
      let encodedSize := buffer.length - rest.length
      if record.offset < offset then readBuffer offset maxBytes fuel records bytesRead rest
      else if records ≠ [] ∧ maxBytes < saturatingAdd bytesRead encodedSize then
        .ok (true, records, bytesRead)
      else
        readBuffer offset maxBytes fuel (records ++ [record]) (saturatingAdd bytesRead encodedSize)
          rest

/-- The loop over the segments. -/
def readSegments [Checksum] (offset maxBytes : Nat) :
    List StoredRecord → Nat → List SegmentMetadata → Except StorageError (List StoredRecord)
  | records, _, [] => .ok records
  | records, bytesRead, s :: rest =>
    if rest.head?.any (·.baseOffset ≤ offset) then readSegments offset maxBytes records bytesRead rest
    else
      let buffer := s.file.bytes.drop (s.seek offset)
      match readBuffer offset maxBytes (buffer.length + 1) records bytesRead buffer with
      | .error e => .error e
      | .ok (true, records, _) => .ok records
      | .ok (false, records, bytesRead) => readSegments offset maxBytes records bytesRead rest

/-- `read`. -/
def read [Checksum] (log : PartitionLog) (offset maxBytes : Nat) :
    Except StorageError (List StoredRecord) :=
  if maxBytes = 0 then .error .invalidReadLimit
  else readSegments offset maxBytes [] 0 log.segments

/-! ## Replication, truncation, sync, retention -/

/-- `append_replica`. -/
def appendReplica [Checksum] (log : PartitionLog) (offset : Nat) (record : Record) :
    Except StorageError Nat × PartitionLog :=
  if offset < log.nextOffset then
    match log.read offset MAX_RECORD_SIZE with
    | .error e => (.error e, log)
    | .ok records =>
      match records.find? (·.offset = offset) with
      | none => (.error (.replicaDiverged offset), log)
      | some existing =>
        if existing.timestampMs = record.timestampMs ∧ existing.key = record.key ∧
            existing.value = record.value then (.ok offset, log)
        else (.error (.replicaDiverged offset), log)
  else if offset ≠ log.nextOffset then
    (.error (.unexpectedOffset log.nextOffset offset), log)
  else log.append record

/-- `sync_data`. -/
def syncData (log : PartitionLog) : PartitionLog :=
  match log.segments.getLast? with
  | none => log
  | some s => log.setActive { s with file := s.file.syncData, indexFile := s.indexFile.syncData }

/-- The loop of `truncate_to` over the retained records. -/
def appendAll [Checksum] : PartitionLog → List Record → Except StorageError Unit × PartitionLog
  | log, [] => (.ok (), log)
  | log, r :: rs =>
    match log.append r with
    | (.error e, log) => (.error e, log)
    | (.ok _, log) => log.appendAll rs

/-- The log after all its files were removed and segment 0 was created. -/
def cleared (log : PartitionLog) : PartitionLog :=
  { log with nextOffset := 0, segments := [.new 0], producerState := .empty }

/-- The end of `truncate_to`: append the retained records to the cleared log and sync it. -/
def replay [Checksum] (log : PartitionLog) (retained : List Record) :
    Except StorageError Unit × PartitionLog :=
  match log.appendAll retained with
  | (.error e, log) => (.error e, log)
  | (.ok (), log) => (.ok (), log.syncData)

/-- `truncate_to`. -/
def truncateTo [Checksum] (log : PartitionLog) (offset : Nat) :
    Except StorageError Unit × PartitionLog :=
  if log.nextOffset < offset then (.error (.unexpectedOffset log.nextOffset offset), log)
  else if offset = log.nextOffset then (.ok (), log)
  else
    match log.read 0 USIZE_MAX with
    | .error e => (.error e, log)
    | .ok records =>
      let retained := records.filter (·.offset < offset)
      log.cleared.replay (retained.map StoredRecord.toRecord)

/-- Whether retention removes the first of several segments.  `elapsed` is the time since the
last modification of a segment's file, `none` if that lies in the future. -/
def removable (maxBytes maxAge : Option Nat) (elapsed : Nat → Option Nat) (totalBytes : Nat)
    (s : SegmentMetadata) : Bool :=
  maxBytes.any (· < totalBytes) || maxAge.any fun age => (elapsed s.baseOffset).any (age ≤ ·)

/-- The loop of `apply_retention`: the number of segments removed and those that are left. -/
def retain (maxBytes maxAge : Option Nat) (elapsed : Nat → Option Nat) :
    Nat → List SegmentMetadata → Nat × List SegmentMetadata
  | totalBytes, s :: next :: rest =>
    if removable maxBytes maxAge elapsed totalBytes s then
      let (removed, left) := retain maxBytes maxAge elapsed (totalBytes - s.len) (next :: rest)
      (removed + 1, left)
    else (0, s :: next :: rest)
  | _, segments => (0, segments)

/-- `apply_retention`. -/
def applyRetention (log : PartitionLog) (maxBytes maxAge : Option Nat)
    (elapsed : Nat → Option Nat) : Nat × PartitionLog :=
  let (removed, left) := retain maxBytes maxAge elapsed log.logSizeBytes log.segments
  (removed, { log with segments := left })

end PartitionLog

/-! ## Opening a directory -/

/-- What `recover_segment` rebuilds while it reads a segment. -/
structure Recovered where
  nextOffset : Nat
  index : List IndexEntry
  producerState : ProducerTable

/-- The sequence check of `recover_segment`. -/
def checkSequence (t : ProducerTable) (p : ProducerIdentity) : Except StorageError Unit :=
  match validateProducerId p.id with
  | .error e => .error e
  | .ok () =>
    match t p.id with
    | some (sequence, _) =>
      if p.sequence ≠ saturatingSucc sequence then
        .error (.unexpectedProducerSequence p.id (saturatingSucc sequence) p.sequence)
      else .ok ()
    | none =>
      if p.sequence ≠ 0 then .error (.unexpectedProducerSequence p.id 0 p.sequence) else .ok ()

/-- The producer table after a recovered record. -/
def recoverProducer (t : ProducerTable) (record : StoredRecord) :
    Except StorageError ProducerTable :=
  match record.producer with
  | none => .ok t
  | some p =>
    match checkSequence t p with
    | .error e => .error e
    | .ok () => .ok (t.insert p.id (p.sequence, record.offset))

/-- The body of the loop of `recover_segment`, for a record at `position`. -/
def recoverRecord (interval : Nat) (r : Recovered) (position : Nat) (record : StoredRecord) :
    Except StorageError Recovered :=
  if record.offset ≠ r.nextOffset then
    .error (.unexpectedOffset r.nextOffset record.offset)
  else
    match recoverProducer r.producerState record with
    | .error e => .error e
    | .ok producerState =>
      if U64_MAX < r.nextOffset + 1 then .error .offsetOverflow
      else .ok ⟨r.nextOffset + 1, indexRecord interval r.index record.offset position, producerState⟩

/-- `recover_segment`: what was rebuilt and the length of the whole records. -/
def recoverSegment [Checksum] (contents : Bytes) (nextOffset interval : Nat) (t : ProducerTable) :
    Except StorageError (Recovered × Nat) :=
  match foldFrames decodeRecord (recoverRecord interval) contents.length (contents.length + 1)
      ⟨nextOffset, [], t⟩ contents with
  | .error e => .error e
  | .ok (r, rest) => .ok (r, contents.length - rest.length)

/-- `discover_segments`.  The order of a directory listing is arbitrary; the segments are sorted
by base offset. -/
def discoverSegments (dir : Dir) : List SegmentMetadata :=
  (dir.logs.insertionSort fun x y => x.1 ≤ y.1).map fun x =>
    ⟨x.1, x.2.bytes.length, [], x.2, .empty⟩

/-- `rewrite_index`: the index file is created anew. -/
def rewriteIndex (s : SegmentMetadata) : SegmentMetadata :=
  { s with indexFile := ⟨s.index.flatMap encodeIndexEntry, 0⟩ }

/-- The segment as `open` leaves it: cut to its whole records, with the index rebuilt. -/
def SegmentMetadata.recovered (s : SegmentMetadata) (validLen : Nat) (index : List IndexEntry) :
    SegmentMetadata :=
  rewriteIndex { s with
    len := if validLen < s.len then validLen else s.len
    file := if validLen < s.len then s.file.setLen validLen else s.file
    index := index }

/-- The loop of `open` over the segments. -/
def recoverSegments [Checksum] (interval : Nat) : Nat → ProducerTable → List SegmentMetadata →
    Except StorageError (Nat × ProducerTable × List SegmentMetadata)
  | nextOffset, t, [] => .ok (nextOffset, t, [])
  | nextOffset, t, s :: rest =>
    if s.baseOffset ≠ nextOffset then .error (.unexpectedSegmentBase nextOffset s.baseOffset) else
    match recoverSegment s.file.bytes nextOffset interval t with
    | .error e => .error e
    | .ok (r, validLen) =>
      if validLen < s.len ∧ rest ≠ [] then .error (.incompleteClosedSegment s.baseOffset) else
      match recoverSegments interval r.nextOffset r.producerState rest with
      | .error e => .error e
      | .ok (nextOffset, t, segments) => .ok (nextOffset, t, s.recovered validLen r.index :: segments)

/-- The segments `open` starts from; an empty directory gets segment 0. -/
def initialSegments (dir : Dir) : Except StorageError (List SegmentMetadata) :=
  match discoverSegments dir with
  | [] => if dir.indexes.any (·.1 = 0) then .error .io else .ok [.new 0]
  | segments => .ok segments

/-- `PartitionLog::open` on the directory of a partition of `topic`. -/
def PartitionLog.openLog [Checksum] (dir : Dir) (topic : String)
    (maxSegmentBytes indexIntervalBytes : Nat) : Except StorageError PartitionLog :=
  match validateTopic topic with
  | .error e => .error e
  | .ok () =>
    if maxSegmentBytes = 0 then .error .invalidSegmentLimit
    else if indexIntervalBytes = 0 then .error .invalidIndexInterval
    else
      match initialSegments dir with
      | .error e => .error e
      | .ok segments =>
        match recoverSegments indexIntervalBytes 0 .empty segments with
        | .error e => .error e
        | .ok (nextOffset, t, segments) =>
          .ok ⟨nextOffset, maxSegmentBytes, indexIntervalBytes, segments, t⟩

/-! ## Runs -/

inductive Operation where
  | append (record : Record)
  | appendReplica (offset : Nat) (record : Record)
  | truncateTo (offset : Nat)
  | syncData
  | applyRetention (maxBytes maxAge : Option Nat) (elapsed : Nat → Option Nat)

def Operation.truncates : Operation → Bool
  | .truncateTo _ => true
  | _ => false

def Operation.retains : Operation → Bool
  | .applyRetention _ _ _ => true
  | _ => false

/-- What an operation returns and the log after it. -/
def Operation.perform [Checksum] (log : PartitionLog) :
    Operation → Except StorageError Unit × PartitionLog
  | .append record => let (r, log') := log.append record; (r.map fun _ => (), log')
  | .appendReplica offset record =>
    let (r, log') := log.appendReplica offset record; (r.map fun _ => (), log')
  | .truncateTo offset => log.truncateTo offset
  | .syncData => (.ok (), log.syncData)
  | .applyRetention maxBytes maxAge elapsed =>
    (.ok (), (log.applyRetention maxBytes maxAge elapsed).2)

/-- One operation whose file operations succeed; it may be refused otherwise. -/
def PartitionLog.step [Checksum] (log : PartitionLog) (op : Operation) : Option PartitionLog :=
  match op.perform log with
  | (.error .io, _) => none
  | (_, log') => some log'

end SevlaMq.Storage
