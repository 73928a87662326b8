import SevlaMq.Storage.TruncationCrash
import SevlaMq.Storage.Pieces

/-!
# Interrupted opens

`PartitionLog::open` of `crates/storage/src/lib.rs` changes the directory while it reads it: it
creates segment 0 in an empty directory, cuts an incomplete record off the last segment and writes
the index of every segment anew, up to the segment at which it fails.

* `OpenOp`, `openOps` — its file operations, in order, also those of an open that fails.
* `openOps_files` — all of them together leave the files of the log that was opened.
* `recoverOps_cases` — what is done to the segment files: nothing, or the cut of the last one.
* `open_repeatable_iff` — an open that was interrupted any number of times, each time after any of
  its operations, ends as it would have ended at once, unless the directory has an index of segment
  0 and no segment.
-/

set_option autoImplicit false

namespace SevlaMq.Storage

/-! ## File operations -/

inductive OpenOp where
  | file (op : FileOp)
  | setLen (base len : Nat)
  | resetIndex (base : Nat)

/-- The directory after an operation that succeeds; `File::create` empties a file that exists. -/
def OpenOp.perform (dir : Dir) : OpenOp → Dir
  | .file op => op.perform dir
  | .setLen base len => { dir with logs := onFile base (·.setLen len) dir.logs }
  | .resetIndex base =>
    { dir with indexes := dir.indexes.filter (·.1 ≠ base) ++ [(base, .empty)] }

def performOpen (dir : Dir) (ops : List OpenOp) : Dir := ops.foldl OpenOp.perform dir

theorem performOpen_append (dir : Dir) (ops ops' : List OpenOp) :
    performOpen dir (ops ++ ops') = performOpen (performOpen dir ops) ops' := List.foldl_append

/-- `rewrite_index`. -/
def rewriteOps (base : Nat) (index : List IndexEntry) : List OpenOp :=
  .resetIndex base :: index.map fun entry => .file (.writeIndex base (encodeIndexEntry entry))

section Open

variable [Checksum]

/-- The loop of `open` over the segments. -/
def recoverOps (interval : Nat) : Nat → ProducerTable → List SegmentMetadata → List OpenOp
  | _, _, [] => []
  | nextOffset, t, s :: rest =>
    if s.baseOffset ≠ nextOffset then [] else
    match recoverSegment s.file.bytes nextOffset interval t with
    | .error _ => []
    | .ok (r, validLen) =>
      if validLen < s.len ∧ rest ≠ [] then [] else
        (if validLen < s.len then [.setLen s.baseOffset validLen] else []) ++
          rewriteOps s.baseOffset r.index ++ recoverOps interval r.nextOffset r.producerState rest

/-- The file operations of `open`.  When the index of segment 0 exists, its log has been created
before that is noticed. -/
def openOps (dir : Dir) (topic : String) (maxSegmentBytes indexIntervalBytes : Nat) :
    List OpenOp :=
  match validateTopic topic with
  | .error _ => []
  | .ok () =>
    if maxSegmentBytes = 0 then []
    else if indexIntervalBytes = 0 then []
    else
      match discoverSegments dir with
      | [] =>
        if dir.indexes.any (·.1 = 0) then [.file (.createLog 0)]
        else (createOps 0).map .file ++ recoverOps indexIntervalBytes 0 .empty [.new 0]
      | segments => recoverOps indexIntervalBytes 0 .empty segments

/-- The directory after an open that was interrupted behind its first `n` operations. -/
def interrupted (topic : String) (maxSegmentBytes interval : Nat) (dir : Dir) (n : Nat) : Dir :=
  performOpen dir ((openOps dir topic maxSegmentBytes interval).take n)

end Open

/-- No two files of a directory have one name. -/
def Dir.Named (dir : Dir) : Prop := (dir.logs.map Prod.fst).Nodup

/-- There is an index of segment 0 and no segment. -/
def Dir.Stray (dir : Dir) : Prop := dir.logs = [] ∧ ∃ x ∈ dir.indexes, x.1 = 0

theorem prefix_append_cases {α : Type} {as bs cs : List α} (h : as <+: bs ++ cs) :
    as <+: bs ∨ ∃ as', as = bs ++ as' ∧ as' <+: cs := by
  rcases List.prefix_or_prefix_of_prefix h (List.prefix_append bs cs) with hle | ⟨as', rfl⟩
  · exact Or.inl hle
  · exact Or.inr ⟨as', rfl, (List.prefix_append_right_inj _).1 h⟩

/-! ## A segment that was cut -/

section Recovered

variable [Checksum]

/-- Whole bytes are a frame: what is shorter is incomplete. -/
theorem Whole.isFrame {s : StoredRecord} {bs : Bytes} (h : Whole s bs) :
    IsFrame decodeRecord s bs where
  complete := h
  ne_nil := h.ne_nil
  torn := by
    intro t ht hne
    have hlt : t.length < bs.length := by
      refine Nat.lt_of_le_of_ne ht.length_le fun hlen => hne (ht.eq_of_length hlen)
    have hwhole := h []
    rw [List.append_nil] at hwhole
    unfold decodeRecord at hwhole ⊢
    split at hwhole
    · cases hwhole
    rename_i hheader
    by_cases hshort : t.length < LENGTH_SIZE
    · rw [if_pos hshort]
    rw [if_neg hshort]
    obtain ⟨more, rfl⟩ := ht
    rw [List.take_append_of_le_length (Nat.not_lt.1 hshort)] at hwhole
    simp only at hwhole ⊢
    split at hwhole
    · cases hwhole
    rename_i hmin
    rw [if_neg hmin]
    split at hwhole
    · cases hwhole
    rename_i hmax
    rw [if_neg hmax]
    split at hwhole
    · cases hwhole
    rename_i hlen
    -- nothing is left behind the record, so the frame ends where it says
    obtain ⟨⟨encoded, rest⟩, hencoded, hwhole⟩ := bind_eq_ok hwhole
    obtain ⟨s', -, hwhole⟩ := bind_eq_ok hwhole
    obtain ⟨rfl, rfl⟩ : s' = s ∧ rest = [] := by simpa using hwhole
    refine if_pos ?_
    unfold getOrPanic getBytes at hencoded
    split at hencoded
    · rename_i pair hpair
      split at hpair
      · cases hpair
      · cases hpair
        have hrest := congrArg List.length (Prod.mk.inj (Except.ok.inj hencoded)).2
        rw [List.length_drop, List.length_drop, List.length_nil] at hrest
        omega
    · cases hencoded

/-- **Recovery finds in the cut segment what it found in the segment.** -/
theorem recoverSegment_cut {contents : Bytes} {nextOffset interval validLen : Nat}
    {t : ProducerTable} {r : Recovered}
    (h : recoverSegment contents nextOffset interval t = .ok (r, validLen)) :
    recoverSegment (contents.take validLen) nextOffset interval t = .ok (r, validLen) ∧
      validLen ≤ contents.length := by
  unfold recoverSegment at h
  split at h
  · cases h
  rename_i r' rest hloop
  cases h
  obtain ⟨pieces, hwhole, hcontents, hfold⟩ := foldFrames_pieces (Nat.le_refl _) hloop
  have hframes : ∀ x ∈ pieces, IsFrame decodeRecord x.1 x.2 := fun x hx => (hwhole x hx).isFrame
  have hvalid : contents.length - rest.length = (concatFrames pieces).length := by
    rw [hcontents, List.length_append, Nat.add_sub_cancel]
  have htake : contents.take (contents.length - rest.length) = concatFrames pieces := by
    rw [hvalid, hcontents, List.take_left']
    rfl
  rw [Nat.sub_self] at hfold
  have hnothing : decodeRecord [] = .ok none := rfl
  have hagain := foldFrames_concat (recoverRecord interval) hnothing pieces
    ((concatFrames pieces).length + 1) 0 ⟨nextOffset, [], t⟩ r hframes
    (Nat.lt_succ_of_le (length_le_concatFrames hframes)) hfold
  rw [List.append_nil, Nat.zero_add] at hagain
  refine ⟨?_, Nat.sub_le _ _⟩
  rw [htake, recoverSegment, hagain]
  simp only [List.length_nil, Nat.sub_zero, hvalid]

/-- The segment as the cut leaves it. -/
def SegmentMetadata.cut (s : SegmentMetadata) (len : Nat) : SegmentMetadata :=
  { s with len := len, file := s.file.setLen len }

omit [Checksum] in
theorem recovered_cut {s : SegmentMetadata} {validLen : Nat} {index : List IndexEntry}
    (h : validLen < s.len) :
    (s.cut validLen).recovered validLen index = s.recovered validLen index := by
  simp only [SegmentMetadata.recovered, SegmentMetadata.cut, if_pos h, Nat.lt_irrefl, if_false]

/-! ## What is done to the segment files -/

/-- The operations leave the segment files alone. -/
def KeepsLogs (ops : List OpenOp) : Prop := ∀ dir, (performOpen dir ops).logs = dir.logs

omit [Checksum] in
theorem KeepsLogs.append {ops ops' : List OpenOp} (h : KeepsLogs ops) (h' : KeepsLogs ops') :
    KeepsLogs (ops ++ ops') := by
  intro dir
  rw [performOpen_append, h', h]

omit [Checksum] in
theorem keepsLogs_of_mem {ops : List OpenOp}
    (h : ∀ op ∈ ops, ∀ dir, (op.perform dir).logs = dir.logs) : KeepsLogs ops := by
  induction ops with
  | nil => exact fun _ => rfl
  | cons op ops ih =>
    rw [List.forall_mem_cons] at h
    intro dir
    exact (ih h.2 (op.perform dir)).trans (h.1 dir)

omit [Checksum] in
theorem keepsLogs_rewrite {base : Nat} {index : List IndexEntry} {ops : List OpenOp}
    (h : ops <+: rewriteOps base index) : KeepsLogs ops := by
  refine keepsLogs_of_mem fun op hop dir => ?_
  rcases List.mem_cons.1 (h.subset hop) with rfl | hop
  · rfl
  · obtain ⟨entry, _, rfl⟩ := List.mem_map.1 hop
    rfl

/-- **Any number of the operations of the loop** leave the segment files alone, or cut the last one
to its whole records; the loop then finds what it has found before. -/
theorem recoverOps_cases {interval : Nat} : ∀ {segments : List SegmentMetadata} {nextOffset : Nat}
    {t : ProducerTable} {ops : List OpenOp}, ops <+: recoverOps interval nextOffset t segments →
    KeepsLogs ops ∨
    ∃ closed s len, segments = closed ++ [s] ∧ len < s.len ∧
      (∀ dir, (performOpen dir ops).logs = onFile s.baseOffset (·.setLen len) dir.logs) ∧
      recoverSegments interval nextOffset t (closed ++ [s.cut len]) =
        recoverSegments interval nextOffset t segments
  | [], _, _, ops, h => by
    obtain rfl := List.prefix_nil.1 h
    exact Or.inl fun _ => rfl
  | s :: rest, nextOffset, t, ops, h => by
    have hnone : ops <+: [] → KeepsLogs ops := by
      intro hnil
      obtain rfl := List.prefix_nil.1 hnil
      exact fun _ => rfl
    rw [recoverOps] at h
    split at h
    · exact Or.inl (hnone h)
    rename_i hbase
    split at h
    · exact Or.inl (hnone h)
    rename_i r validLen hrecover
    split at h
    · exact Or.inl (hnone h)
    rename_i hclosed
    by_cases hcut : validLen < s.len
    · -- the segment is the last one
      have hrest : rest = [] := by
        by_contra hne
        exact hclosed ⟨hcut, hne⟩
      rw [hrest, if_pos hcut, recoverOps, List.append_nil] at h
      cases ops with
      | nil => exact Or.inl fun _ => rfl
      | cons op ops =>
        obtain ⟨rfl, hops⟩ := List.cons_prefix_cons.1 h
        refine Or.inr ⟨[], s, validLen, by rw [hrest]; rfl, hcut, fun dir => ?_, ?_⟩
        · exact keepsLogs_rewrite hops _
        · have hagain : recoverSegment (s.cut validLen).file.bytes nextOffset interval t =
              .ok (r, validLen) := (recoverSegment_cut hrecover).1
          have hbase' : ¬ (s.cut validLen).baseOffset ≠ nextOffset := hbase
          rw [List.nil_append, hrest, recoverSegments, recoverSegments, if_neg hbase, if_neg hbase',
            hrecover, hagain]
          simp only [ne_eq, not_true, and_false, if_false, recovered_cut hcut]
    · rw [if_neg hcut, List.nil_append] at h
      rcases prefix_append_cases h with hops | ⟨ops', rfl, hops⟩
      · exact Or.inl (keepsLogs_rewrite hops)
      have hkeep : KeepsLogs (rewriteOps s.baseOffset r.index) :=
        keepsLogs_rewrite List.prefix_rfl
      rcases recoverOps_cases hops with hlogs | ⟨closed, last, len, hsplit, hlen, hlogs, hsame⟩
      · exact Or.inl (hkeep.append hlogs)
      · refine Or.inr ⟨s :: closed, last, len, by rw [hsplit]; rfl, hlen, fun dir => ?_, ?_⟩
        · rw [performOpen_append, hlogs, hkeep]
        · have hne : closed ++ [last.cut len] ≠ [] := by simp
          have hne' : rest ≠ [] := by rw [hsplit]; simp
          rw [List.cons_append, recoverSegments, recoverSegments, if_neg hbase, if_neg hbase,
            hrecover]
          simp only [hsame, hcut, false_and, if_false]

/-! ## What a directory opens to -/

omit [Checksum] in
/-- The files in the order in which they are opened. -/
theorem Dir.Named.sorted {dir : Dir} (h : dir.Named) :
    ∃ files, files.Pairwise (fun x y => x.1 < y.1) ∧ dir.logs.Perm files := by
  refine ⟨dir.logs.insertionSort fun x y => x.1 ≤ y.1, ?_, (List.perm_insertionSort _ _).symm⟩
  have htotal : Std.Total fun x y : Nat × File => x.1 ≤ y.1 := ⟨fun x y => Nat.le_total x.1 y.1⟩
  have htrans : IsTrans (Nat × File) fun x y => x.1 ≤ y.1 := ⟨fun _ _ _ => Nat.le_trans⟩
  have hle := List.pairwise_insertionSort (fun x y : Nat × File => x.1 ≤ y.1) dir.logs
  have hne : (dir.logs.insertionSort fun x y => x.1 ≤ y.1).Pairwise fun x y => x.1 ≠ y.1 := by
    have hperm := List.perm_insertionSort (fun x y : Nat × File => x.1 ≤ y.1) dir.logs
    exact List.pairwise_map.1 ((hperm.map Prod.fst).nodup_iff.2 h)
  exact (hle.and hne).imp fun hxy => Nat.lt_of_le_of_ne hxy.1 hxy.2

/-- A directory with segments opens to what the loop finds in them. -/
theorem openLog_segments {dir : Dir} {topic : String} {maxSegmentBytes interval : Nat}
    (hset : Settings topic maxSegmentBytes interval) {segments : List SegmentMetadata}
    (hinit : initialSegments dir = .ok segments) :
    PartitionLog.openLog dir topic maxSegmentBytes interval =
      match recoverSegments interval 0 .empty segments with
      | .error e => .error e
      | .ok (nextOffset, t, segments) =>
        .ok ⟨nextOffset, maxSegmentBytes, interval, segments, t⟩ := by
  rw [PartitionLog.openLog, hset.topic]
  cases hrecover : recoverSegments interval 0 .empty segments with
  | error e => simp only [if_neg hset.segment, if_neg hset.index, hinit, hrecover]
  | ok recovered => simp only [if_neg hset.segment, if_neg hset.index, hinit, hrecover]

omit [Checksum] in
/-- The last segment is cut in the directory. -/
theorem discoverSegments_cut {dir dir' : Dir} (h : dir.Named) {closed : List SegmentMetadata}
    {s : SegmentMetadata} {len : Nat} (hsegments : discoverSegments dir = closed ++ [s])
    (hlen : len < s.len) (hlogs : dir'.logs = onFile s.baseOffset (·.setLen len) dir.logs) :
    discoverSegments dir' = closed ++ [s.cut len] := by
  obtain ⟨files, hsorted, hperm⟩ := h.sorted
  rw [discoverSegments_sorted hsorted hperm] at hsegments
  obtain ⟨first, last, rfl, rfl, hlast⟩ := List.map_eq_append_iff.1 hsegments
  obtain ⟨x, rfl, rfl⟩ := List.map_eq_singleton_iff.1 hlast
  have hapart : ∀ y ∈ first, y.1 ≠ x.1 := by
    intro y hy
    exact Nat.ne_of_lt ((List.pairwise_append.1 hsorted).2.2 y hy x List.mem_cons_self)
  have hfiles : onFile x.1 (·.setLen len) (first ++ [x]) = first ++ [(x.1, x.2.setLen len)] :=
    onFile_last hapart
  have hperm' : dir'.logs.Perm (first ++ [(x.1, x.2.setLen len)]) := by
    rw [hlogs, ← hfiles]
    exact hperm.map _
  have hsorted' : (first ++ [(x.1, x.2.setLen len)]).Pairwise fun x y => x.1 < y.1 := by
    rw [List.pairwise_append] at hsorted ⊢
    refine ⟨hsorted.1, List.pairwise_singleton _ _, fun y hy z hz => ?_⟩
    rw [List.mem_singleton.1 hz]
    exact hsorted.2.2 y hy x List.mem_cons_self
  rw [discoverSegments_sorted hsorted' hperm', List.map_append]
  have hcut : discovered (x.1, x.2.setLen len) = (discovered x).cut len := by
    have hle : len ≤ x.2.bytes.length := Nat.le_of_lt hlen
    simp [discovered, SegmentMetadata.cut, File.setLen, hle]
  rw [List.map_singleton, hcut]

/-- A directory without segments, and what `open` creates in it. -/
theorem fresh_cases {dir : Dir} {interval : Nat} {ops : List OpenOp} (hnil : dir.logs = [])
    (h : ops <+: (createOps 0).map .file ++ recoverOps interval 0 .empty [.new 0]) :
    ops = [] ∨ (performOpen dir ops).logs = [(0, .empty)] := by
  cases ops with
  | nil => exact Or.inl rfl
  | cons op ops =>
    right
    obtain ⟨rfl, hops⟩ := List.cons_prefix_cons.1 h
    have hkeep : KeepsLogs ops := by
      rcases prefix_append_cases (show ops <+: [.file (.createIndex 0), .file .syncDir] ++
        recoverOps interval 0 .empty [.new 0] from hops) with hcreate | ⟨ops', rfl, hrecover⟩
      · refine keepsLogs_of_mem fun op hop dir => ?_
        rcases List.mem_cons.1 (hcreate.subset hop) with rfl | hop
        · rfl
        · rw [List.mem_singleton.1 hop]
          rfl
      · have hcreate : KeepsLogs [.file (.createIndex 0), .file .syncDir] := fun _ => rfl
        rcases recoverOps_cases hrecover with hlogs | ⟨closed, s, len, hsplit, hlen, -, -⟩
        · exact hcreate.append hlogs
        · -- segment 0 is empty
          have hs : s = .new 0 := by
            have hlast := congrArg List.getLast? hsplit
            simpa using hlast.symm
          rw [hs] at hlen
          exact absurd hlen (Nat.not_lt_zero _)
    have hfirst : (performOpen dir (.file (.createLog 0) :: ops)).logs =
        (OpenOp.perform dir (.file (.createLog 0))).logs := hkeep _
    rw [hfirst, OpenOp.perform, FileOp.perform, hnil]
    rfl

theorem openOps_refused {dir : Dir} {topic : String} {maxSegmentBytes interval : Nat}
    (h : ¬ Settings topic maxSegmentBytes interval) :
    openOps dir topic maxSegmentBytes interval = [] := by
  unfold openOps
  split
  · rfl
  rename_i htopic
  split
  · rfl
  rename_i hsegment
  split
  · rfl
  rename_i hindex
  exact absurd ⟨htopic, hsegment, hindex⟩ h

omit [Checksum] in
theorem initialSegments_ne_nil {dir : Dir} {segments : List SegmentMetadata}
    (h : discoverSegments dir = segments) (hne : segments ≠ []) :
    initialSegments dir = .ok segments := by
  rw [initialSegments, h]
  obtain ⟨s, rest, rfl⟩ := List.exists_cons_of_ne_nil hne
  rfl

omit [Checksum] in
theorem discoverSegments_eq_nil {dir : Dir} : discoverSegments dir = [] ↔ dir.logs = [] := by
  rw [discoverSegments, List.map_eq_nil_iff, ← List.length_eq_zero_iff, List.length_insertionSort,
    List.length_eq_zero_iff]

/-- **Any number of the operations of an open** leave a directory that opens to the same log, or
fails in the same way. -/
theorem performOpen_openLog {dir : Dir} {topic : String} {maxSegmentBytes interval : Nat}
    {ops : List OpenOp} (hnamed : dir.Named)
    (hstray : Settings topic maxSegmentBytes interval → ¬ dir.Stray)
    (h : ops <+: openOps dir topic maxSegmentBytes interval) :
    PartitionLog.openLog (performOpen dir ops) topic maxSegmentBytes interval =
        PartitionLog.openLog dir topic maxSegmentBytes interval ∧
      (performOpen dir ops).Named ∧
      (Settings topic maxSegmentBytes interval → ¬ (performOpen dir ops).Stray) := by
  by_cases hset : Settings topic maxSegmentBytes interval
  swap
  · rw [openOps_refused hset] at h
    obtain rfl := List.prefix_nil.1 h
    exact ⟨rfl, hnamed, hstray⟩
  rw [openOps, hset.topic] at h
  simp only [if_neg hset.segment, if_neg hset.index] at h
  -- it suffices that both directories give the loop what ends in the same way
  suffices hsame : (performOpen dir ops).Named ∧ ¬ (performOpen dir ops).Stray ∧
      ∃ segments segments', initialSegments dir = .ok segments ∧
        initialSegments (performOpen dir ops) = .ok segments' ∧
        recoverSegments interval 0 .empty segments' = recoverSegments interval 0 .empty segments by
    obtain ⟨hnamed', hstray', segments, segments', hinit, hinit', hrecover⟩ := hsame
    refine ⟨?_, hnamed', fun _ => hstray'⟩
    rw [openLog_segments hset hinit, openLog_segments hset hinit', hrecover]
  split at h
  · rename_i hnone
    have hnil := discoverSegments_eq_nil.1 hnone
    have hindex : ¬ dir.indexes.any (·.1 = 0) = true := by
      intro hany
      obtain ⟨x, hx, hzero⟩ := List.any_eq_true.1 hany
      exact hstray hset ⟨hnil, x, hx, of_decide_eq_true hzero⟩
    have hinit : initialSegments dir = .ok [.new 0] := by
      rw [initialSegments, hnone]
      exact if_neg hindex
    rw [if_neg hindex] at h
    rcases fresh_cases hnil h with rfl | hlogs
    · exact ⟨hnamed, hstray hset, _, _, hinit, hinit, rfl⟩
    · refine ⟨?_, fun hno => ?_, _, [.new 0], hinit, ?_, rfl⟩
      · rw [Dir.Named, hlogs]
        exact List.nodup_singleton _
      · rw [hno.1] at hlogs
        cases hlogs
      · refine initialSegments_ne_nil ?_ (List.cons_ne_nil _ _)
        rw [discoverSegments, hlogs]
        rfl
  · rename_i hsome
    have hne : discoverSegments dir ≠ [] := hsome
    have hinit := initialSegments_ne_nil rfl hne
    have hlogs_ne : dir.logs ≠ [] := fun hnil => hne (discoverSegments_eq_nil.2 hnil)
    rcases recoverOps_cases h with hkeep | ⟨closed, s, len, hsplit, hlen, hlogs, hrecover⟩
    · have hlogs := hkeep dir
      refine ⟨?_, fun hno => hlogs_ne (hlogs ▸ hno.1), _, _, hinit,
        initialSegments_ne_nil ?_ hne, rfl⟩
      · rwa [Dir.Named, hlogs]
      · rw [discoverSegments, hlogs]
        rfl
    · have hlogs := hlogs dir
      refine ⟨?_, fun hno => ?_, _, _, hinit,
        initialSegments_ne_nil (discoverSegments_cut hnamed hsplit hlen hlogs) (by simp), hrecover⟩
      · have hnames : (performOpen dir ops).logs.map Prod.fst = dir.logs.map Prod.fst := by
          rw [hlogs, onFile, List.map_map]
          refine List.map_congr_left fun x _ => ?_
          simp only [Function.comp]
          split
          · rfl
          · rfl
        rwa [Dir.Named, hnames]
      · rw [hno.1] at hlogs
        exact hlogs_ne (List.map_eq_nil_iff.1 hlogs.symm)

/-! ## The directory they leave -/

omit [Checksum] in
theorem writeIndex_all {files : List (Nat × File)} {base : Nat} (hapart : ∀ x ∈ files, x.1 ≠ base) :
    ∀ (index : List IndexEntry) (f : File) (dir : Dir), dir.indexes = files ++ [(base, f)] →
      (performOpen dir (index.map fun entry =>
        .file (.writeIndex base (encodeIndexEntry entry)))).indexes =
      files ++ [(base, { f with bytes := f.bytes ++ index.flatMap encodeIndexEntry })]
  | [], f, dir, h => by
    rw [List.flatMap_nil, List.append_nil]
    exact h
  | entry :: index, f, dir, h => by
    have hwrite : (OpenOp.perform dir (.file (.writeIndex base (encodeIndexEntry entry)))).indexes =
        files ++ [(base, { f with bytes := f.bytes ++ encodeIndexEntry entry })] := by
      rw [OpenOp.perform, FileOp.perform, h, onFile_last hapart]
    have hrest := writeIndex_all hapart index _ _ hwrite
    rw [List.flatMap_cons, ← List.append_assoc]
    exact hrest

omit [Checksum] in
/-- `rewrite_index` leaves the entries, whatever the file held before. -/
theorem rewriteOps_indexes (dir : Dir) (base : Nat) (index : List IndexEntry) :
    (performOpen dir (rewriteOps base index)).indexes =
      dir.indexes.filter (·.1 ≠ base) ++ [(base, ⟨index.flatMap encodeIndexEntry, 0⟩)] := by
  refine writeIndex_all (fun x hx => ?_) index .empty _ rfl
  simpa using (List.mem_filter.1 hx).2

/-- **The loop leaves the files of the segments it returns**, and the others as they were. -/
theorem recoverOps_files {interval : Nat} : ∀ {segments segments' : List SegmentMetadata}
    {nextOffset nextOffset' : Nat} {t t' : ProducerTable} {dir : Dir},
    recoverSegments interval nextOffset t segments = .ok (nextOffset', t', segments') →
    (segments.map SegmentMetadata.baseOffset).Nodup →
    (∀ s ∈ segments, (s.baseOffset, s.file) ∈ dir.logs) →
    (∀ s ∈ segments', (s.baseOffset, s.file) ∈
        (performOpen dir (recoverOps interval nextOffset t segments)).logs ∧
      (s.baseOffset, s.indexFile) ∈
        (performOpen dir (recoverOps interval nextOffset t segments)).indexes) ∧
    ∀ x, x.1 ∉ segments.map SegmentMetadata.baseOffset →
      (x ∈ dir.logs → x ∈ (performOpen dir (recoverOps interval nextOffset t segments)).logs) ∧
      (x ∈ dir.indexes →
        x ∈ (performOpen dir (recoverOps interval nextOffset t segments)).indexes)
  | [], segments', nextOffset, nextOffset', t, t', dir, h, _, _ => by
    cases h
    exact ⟨fun s hs => absurd hs List.not_mem_nil, fun x _ => ⟨id, id⟩⟩
  | s :: rest, segments', nextOffset, nextOffset', t, t', dir, h, hnodup, hmem => by
    rw [recoverSegments] at h
    split at h
    · cases h
    rename_i hbase
    split at h
    · cases h
    rename_i r validLen hrecover
    split at h
    · cases h
    rename_i hclosed
    split at h
    · cases h
    rename_i next₁ t₁ segments₁ hrest
    cases h
    rw [recoverOps, if_neg hbase, hrecover]
    simp only [if_neg hclosed]
    rw [List.map_cons, List.nodup_cons] at hnodup
    rw [performOpen_append, performOpen_append]
    generalize hcutdir :
      performOpen dir (if validLen < s.len then [.setLen s.baseOffset validLen] else []) = dir₁
    -- the segment file, cut or not, and the new index
    have hlogs₁ : dir₁.logs = (if validLen < s.len then
        onFile s.baseOffset (·.setLen validLen) dir.logs else dir.logs) ∧
        dir₁.indexes = dir.indexes := by
      rw [← hcutdir]
      split
      · exact ⟨rfl, rfl⟩
      · exact ⟨rfl, rfl⟩
    have hown : (s.baseOffset, (s.recovered validLen r.index).file) ∈ dir₁.logs := by
      have hs := hmem s List.mem_cons_self
      rw [hlogs₁.1]
      simp only [SegmentMetadata.recovered, rewriteIndex]
      split
      · exact List.mem_map.2 ⟨_, hs, if_pos rfl⟩
      · exact hs
    have hothers : ∀ x, x.1 ≠ s.baseOffset → x ∈ dir.logs → x ∈ dir₁.logs := by
      intro x hx hin
      rw [hlogs₁.1]
      split
      · exact List.mem_map.2 ⟨x, hin, if_neg hx⟩
      · exact hin
    generalize hindexdir : performOpen dir₁ (rewriteOps s.baseOffset r.index) = dir₂
    have hlogs₂ : dir₂.logs = dir₁.logs := by
      rw [← hindexdir]
      exact keepsLogs_rewrite List.prefix_rfl dir₁
    have hindexes₂ := rewriteOps_indexes dir₁ s.baseOffset r.index
    rw [hindexdir, hlogs₁.2] at hindexes₂
    obtain ⟨hheld, hframe⟩ := @recoverOps_files interval rest segments₁ r.nextOffset _
      r.producerState _ dir₂ hrest hnodup.2 fun x hx => by
        rw [hlogs₂]
        refine hothers _ (fun heq => hnodup.1 ?_) (hmem x (List.mem_cons_of_mem _ hx))
        exact List.mem_map.2 ⟨x, hx, heq⟩
    refine ⟨fun x hx => ?_, fun x hx => ?_⟩
    · rcases List.mem_cons.1 hx with rfl | hx
      · refine ⟨(hframe _ hnodup.1).1 (hlogs₂ ▸ hown), (hframe _ hnodup.1).2 ?_⟩
        rw [hindexes₂]
        exact List.mem_append_right _ (List.mem_singleton.2 rfl)
      · exact hheld x hx
    · rw [List.map_cons, List.mem_cons, not_or] at hx
      refine ⟨fun hin => (hframe x hx.2).1 (hlogs₂ ▸ hothers x hx.1 hin), fun hin => ?_⟩
      refine (hframe x hx.2).2 ?_
      rw [hindexes₂]
      exact List.mem_append_left _ (List.mem_filter.2 ⟨hin, by simpa using hx.1⟩)

/-- **An open that ends leaves the files of the log**, each under its name. -/
theorem openOps_files {dir : Dir} {topic : String} {maxSegmentBytes interval : Nat}
    {log : PartitionLog} (hnamed : dir.Named)
    (hopen : PartitionLog.openLog dir topic maxSegmentBytes interval = .ok log) :
    ∀ s ∈ log.segments,
      (s.baseOffset, s.file) ∈ (performOpen dir (openOps dir topic maxSegmentBytes interval)).logs ∧
      (s.baseOffset, s.indexFile) ∈
        (performOpen dir (openOps dir topic maxSegmentBytes interval)).indexes := by
  have hset := openLog_settings hopen
  have hfrom : ∀ {segments : List SegmentMetadata} {dir' : Dir},
      initialSegments dir = .ok segments →
      (segments.map SegmentMetadata.baseOffset).Nodup →
      (∀ s ∈ segments, (s.baseOffset, s.file) ∈ dir'.logs) →
      ∀ s ∈ log.segments,
        (s.baseOffset, s.file) ∈ (performOpen dir' (recoverOps interval 0 .empty segments)).logs ∧
        (s.baseOffset, s.indexFile) ∈
          (performOpen dir' (recoverOps interval 0 .empty segments)).indexes := by
    intro segments dir' hinit hnodup hmem
    rw [openLog_segments hset hinit] at hopen
    split at hopen
    · cases hopen
    · rename_i nextOffset t segments' hrecover
      cases hopen
      exact (recoverOps_files hrecover hnodup hmem).1
  rw [openOps, hset.topic]
  simp only [if_neg hset.segment, if_neg hset.index]
  split
  · rename_i hnone
    by_cases hindex : dir.indexes.any (·.1 = 0) = true
    · -- such a directory does not open
      have herror : initialSegments dir = .error .io := by
        rw [initialSegments, hnone]
        exact if_pos hindex
      rw [PartitionLog.openLog, hset.topic] at hopen
      simp only [if_neg hset.segment, if_neg hset.index, herror] at hopen
      cases hopen
    · have hinit : initialSegments dir = .ok [.new 0] := by
        rw [initialSegments, hnone]
        exact if_neg hindex
      have hcreated : (performOpen dir ((createOps 0).map .file)).logs = [(0, .empty)] := by
        have happend : (performOpen dir ((createOps 0).map .file)).logs =
            dir.logs ++ [(0, .empty)] := rfl
        rw [happend, discoverSegments_eq_nil.1 hnone]
        rfl
      rw [if_neg hindex, performOpen_append]
      refine hfrom hinit (List.nodup_singleton _) fun s hs => ?_
      rw [List.mem_singleton.1 hs, hcreated]
      exact List.mem_singleton.2 rfl
  · rename_i hsome
    have hinit := initialSegments_ne_nil rfl (show discoverSegments dir ≠ [] from hsome)
    obtain ⟨files, hsorted, hperm⟩ := hnamed.sorted
    have hfiles := discoverSegments_sorted hsorted hperm
    refine hfrom hinit ?_ fun s hs => ?_
    · rw [hfiles, List.map_map]
      exact List.pairwise_map.2 (hsorted.imp Nat.ne_of_lt)
    · rw [hfiles] at hs
      obtain ⟨x, hx, rfl⟩ := List.mem_map.1 hs
      exact hperm.mem_iff.2 hx

/-- Opens that are interrupted one after the other. -/
theorem interrupted_openLog {topic : String} {maxSegmentBytes interval : Nat}
    (attempts : List Nat) : ∀ {dir : Dir}, dir.Named →
      (Settings topic maxSegmentBytes interval → ¬ dir.Stray) →
      PartitionLog.openLog (attempts.foldl (interrupted topic maxSegmentBytes interval) dir) topic
          maxSegmentBytes interval =
        PartitionLog.openLog dir topic maxSegmentBytes interval := by
  induction attempts with
  | nil => exact fun _ _ => rfl
  | cons n attempts ih =>
    intro dir hnamed hstray
    obtain ⟨hsame, hnamed', hstray'⟩ := performOpen_openLog hnamed hstray
      (List.take_prefix n (openOps dir topic maxSegmentBytes interval))
    exact (ih hnamed' hstray').trans hsame

/-- The index of segment 0 alone: the first open fails behind the creation of the segment, and the
second one finds it. -/
theorem stray_opens {dir : Dir} {topic : String} {maxSegmentBytes interval : Nat}
    (hset : Settings topic maxSegmentBytes interval) (hstray : dir.Stray) :
    PartitionLog.openLog dir topic maxSegmentBytes interval = .error .io ∧
    PartitionLog.openLog (interrupted topic maxSegmentBytes interval dir 1) topic maxSegmentBytes
      interval = .ok ⟨0, maxSegmentBytes, interval, [.new 0], .empty⟩ := by
  have hnone := discoverSegments_eq_nil.2 hstray.1
  have hindex : dir.indexes.any (·.1 = 0) = true := by
    obtain ⟨x, hx, hzero⟩ := hstray.2
    exact List.any_eq_true.2 ⟨x, hx, decide_eq_true hzero⟩
  constructor
  · have herror : initialSegments dir = .error .io := by
      rw [initialSegments, hnone]
      exact if_pos hindex
    rw [PartitionLog.openLog, hset.topic]
    simp only [if_neg hset.segment, if_neg hset.index, herror]
  · have hops : openOps dir topic maxSegmentBytes interval = [.file (.createLog 0)] := by
      rw [openOps, hset.topic]
      simp only [if_neg hset.segment, if_neg hset.index, hnone, if_pos hindex]
    have hlogs : (interrupted topic maxSegmentBytes interval dir 1).logs = [(0, .empty)] := by
      have happend : (interrupted topic maxSegmentBytes interval dir 1).logs =
          dir.logs ++ [(0, .empty)] := by
        rw [interrupted, hops]
        rfl
      rw [happend, hstray.1]
      rfl
    have hinit : initialSegments (interrupted topic maxSegmentBytes interval dir 1) =
        .ok [.new 0] := by
      refine initialSegments_ne_nil ?_ (List.cons_ne_nil _ _)
      rw [discoverSegments, hlogs]
      rfl
    rw [openLog_segments hset hinit]
    rfl

/-- **An open can be interrupted and repeated**, any number of times and after any of its file
operations: it ends as it would have ended at once, in a log or in an error.  The exception is a
directory with the index of segment 0 and no segment.  An open that ends has left the files of the
log. -/
theorem open_repeatable_iff {topic : String} {maxSegmentBytes interval : Nat} {dir : Dir}
    (hnamed : dir.Named) :
    ((∀ attempts : List Nat,
      PartitionLog.openLog (attempts.foldl (interrupted topic maxSegmentBytes interval) dir) topic
          maxSegmentBytes interval =
        PartitionLog.openLog dir topic maxSegmentBytes interval) ↔
      (Settings topic maxSegmentBytes interval → ¬ dir.Stray)) ∧
    ∀ log, PartitionLog.openLog dir topic maxSegmentBytes interval = .ok log →
      ∀ s ∈ log.segments,
        (s.baseOffset, s.file) ∈
          (performOpen dir (openOps dir topic maxSegmentBytes interval)).logs ∧
        (s.baseOffset, s.indexFile) ∈
          (performOpen dir (openOps dir topic maxSegmentBytes interval)).indexes := by
  refine ⟨⟨fun h hset hstray => ?_, fun hstray attempts => ?_⟩, fun log hopen => ?_⟩
  · obtain ⟨hfails, hopens⟩ := stray_opens hset hstray
    have hagain := h [1]
    rw [List.foldl_cons, List.foldl_nil, hfails, hopens] at hagain
    cases hagain
  · exact interrupted_openLog attempts hnamed hstray
  · exact openOps_files hnamed hopen

end Recovered

/-- One record, and the first bytes of another. -/
def tornDir [Checksum] : Dir :=
  ⟨[(0, ⟨recordBytes ⟨none, utf8 "one", 1, none⟩ 0 ++ [0, 0, 0], 0⟩)], []⟩

theorem open_repeatable_iff_torn :
    letI := Checksum.crc32
    ∃ log, PartitionLog.openLog
        ([1, 3].foldl (interrupted "payments" 200 64) tornDir) "payments" 200 64 = .ok log ∧
      log.nextOffset = 1 := by
  let _ := Checksum.crc32
  have hopens : (PartitionLog.openLog tornDir "payments" 200 64).toOption.any
      (·.nextOffset = 1) = true := by decide +kernel
  have hagain := (@open_repeatable_iff _ "payments" 200 64 tornDir (List.nodup_singleton _)).1.2
    (fun _ hno => List.cons_ne_nil _ _ hno.1) [1, 3]
  rw [hagain]
  cases hopen : PartitionLog.openLog tornDir "payments" 200 64 with
  | error e =>
    rw [hopen] at hopens
    cases hopens
  | ok log =>
    rw [hopen] at hopens
    exact ⟨log, rfl, of_decide_eq_true hopens⟩

end SevlaMq.Storage
