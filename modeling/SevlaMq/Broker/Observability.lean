import Mathlib.Algebra.BigOperators.Group.List.Basic
import Mathlib.Data.List.AList
import Mathlib.Data.List.FinRange
import Mathlib.Data.UInt
import SevlaMq.Lib.Exposition

/-!
# The counters of a broker

Model of `crates/broker/src/observability.rs`: atomic counters, histograms, and the text they are
rendered as.

* `Piece` — what the source writes to its output at once; `write` — the text of it.
* `readPage_write` — a reader of the text format finds what was written.
* `observations_add_up` — in whatever order the additions of concurrent observations happen, the
  buckets of a histogram count what was observed.
* `RuntimeMetrics.render` — the counters and the histograms.
-/

set_option autoImplicit false

namespace SevlaMq.Broker

open SevlaMq.Exposition

/-! ## What is written -/

/-- `str::replace` of a character. -/
def replaceChar (c : Char) (replacement value : List Char) : List Char :=
  value.flatMap fun x => if x = c then replacement else [x]

/-- `escape_label`. -/
def escapeLabel (value : String) : List Char :=
  replaceChar '"' ['\\', '"']
    (replaceChar '\n' ['\\', 'n'] (replaceChar '\\' ['\\', '\\'] value.toList))

def decimal (n : Nat) : List Char := Nat.toDigits 10 n

/-- `format_seconds`. -/
def formatSeconds (micros : Nat) : List Char :=
  decimal (micros / 1000000) ++ '.' :: (decimal (micros % 1000000)).leftpad 6 '0'

/-- What stands between the quotes of a label. -/
inductive LabelValue where
  -- a string, through `escape_label`
  | text (value : String)
  | number (n : Nat)
  | seconds (micros : Nat)
  | infinity
  deriving DecidableEq, Repr

def LabelValue.write : LabelValue → List Char
  | .text value => escapeLabel value
  | .number n => decimal n
  | .seconds micros => formatSeconds micros
  | .infinity => ['+', 'I', 'n', 'f']

inductive Amount where
  | number (n : Nat)
  | seconds (micros : Nat)
  deriving DecidableEq, Repr

def Amount.write : Amount → List Char
  | .number n => decimal n
  | .seconds micros => formatSeconds micros

/-- One or two `writeln!` or `push_str` to the output. -/
inductive Piece where
  -- the two comments before a family of series
  | family (name help kind : String)
  | sample (name : String) (labels : List (String × LabelValue)) (amount : Amount)
  deriving DecidableEq, Repr

/-- `{name="value",..}`, or nothing. -/
def writeLabels : List (String × LabelValue) → List Char
  | [] => []
  | labels => '{' :: (fields ',' (labels.map fun l =>
      l.1.toList ++ '=' :: '"' :: (l.2.write ++ ['"'])) ++ ['}'])

def Piece.write : Piece → List Char
  | .family name help kind =>
    helpMark ++ name.toList ++ [' '] ++ help.toList ++ ['\n'] ++
      (typeMark ++ name.toList ++ [' '] ++ kind.toList ++ ['\n'])
  | .sample name labels amount =>
    name.toList ++ writeLabels labels ++ [' '] ++ amount.write ++ ['\n']

/-- The text of the output. -/
def write (output : List Piece) : List Char := output.flatMap Piece.write

/-- `metric`. -/
def metric (name help kind : String) (value : UInt64) : List Piece :=
  [.family name help kind, .sample name [] (.number value.toNat)]

/-! ## What is read -/

/-- The value of the label. -/
def LabelValue.read : LabelValue → String
  | .text value => value
  | .number n => String.ofList (decimal n)
  | .seconds micros => String.ofList (formatSeconds micros)
  | .infinity => "+Inf"

def Amount.read : Amount → Number
  | .number n => ⟨n, 0⟩
  | .seconds micros => ⟨micros, 6⟩

def Piece.lines : Piece → List Line
  | .family name help kind => [.help name help, .type name kind]
  | .sample name labels amount =>
    [.sample name (labels.map fun l => (l.1, l.2.read)) amount.read]

/-- Names are names, and comments take one line. -/
def Piece.Proper : Piece → Prop
  | .family name help kind => Named name ∧ '\n' ∉ help.toList ∧ '\n' ∉ kind.toList
  | .sample name labels _ => Named name ∧ ∀ l ∈ labels, Named l.1

/-- Replacing one character after the other escapes every character once. -/
theorem escapeLabel_eq (value : String) : escapeLabel value = escape value.toList := by
  unfold escapeLabel escape replaceChar
  rw [List.flatMap_assoc, List.flatMap_assoc]
  refine List.flatMap_congr fun c _ => ?_
  by_cases hback : c = '\\'
  · subst c
    rfl
  by_cases hbreak : c = '\n'
  · subst c
    rfl
  by_cases hquote : c = '"'
  · subst c
    rfl
  simp [escapeChar, hback, hbreak, hquote]

theorem escapeChar_digit {c : Char} (h : c.isDigit = true) : escapeChar c = [c] := by
  unfold escapeChar
  split
  · cases h
  · cases h
  · cases h
  · rfl

/-- Numbers need no escaping. -/
theorem escape_formatSeconds (micros : Nat) :
    escape (formatSeconds micros) = formatSeconds micros := by
  have hplain : ∀ c ∈ formatSeconds micros, escapeChar c = [c] := by
    intro c hc
    simp only [formatSeconds, decimal, List.leftpad, List.mem_append, List.mem_cons,
      List.mem_replicate] at hc
    rcases hc with hc | rfl | ⟨_, rfl⟩ | hc
    · exact escapeChar_digit (toDigits_isDigit hc)
    · rfl
    · rfl
    · exact escapeChar_digit (toDigits_isDigit hc)
  rw [escape, List.flatMap_congr hplain, List.flatMap_singleton']

theorem escape_decimal (n : Nat) : escape (decimal n) = decimal n := by
  have hplain : ∀ c ∈ decimal n, escapeChar c = [c] :=
    fun c hc => escapeChar_digit (toDigits_isDigit hc)
  rw [escape, List.flatMap_congr hplain, List.flatMap_singleton']

/-- What is written for a label value is the escaped form of what is read. -/
theorem LabelValue.write_eq (v : LabelValue) : v.write = escape v.read.toList := by
  cases v with
  | text value => exact escapeLabel_eq value
  | number n => rw [read, String.toList_ofList, write, escape_decimal]
  | seconds micros => rw [read, String.toList_ofList, write, escape_formatSeconds]
  | infinity => rfl

theorem Amount.write_eq (a : Amount) : a.write = numberText a.read := by cases a <;> rfl

theorem labelsText_eq : ∀ {ls : List Label}, ls ≠ [] →
    labelsText ls = fields ',' (ls.map labelText) ++ ['}']
  | [], h => absurd rfl h
  | [l], _ => by simp [labelsText, fields]
  | l :: l' :: ls, _ => by
    have ih := labelsText_eq (List.cons_ne_nil l' ls)
    rw [labelsText]
    · rw [ih]
      simp [fields, List.intercalate_cons_cons]
    · exact fun h => List.cons_ne_nil _ _ h

theorem Piece.write_eq (piece : Piece) : piece.write = pageText piece.lines := by
  cases piece with
  | family name help kind => simp [write, lines, pageText_cons, lineText]
  | sample name labels amount =>
    cases labels with
    | nil => simp [write, lines, writeLabels, pageText_cons, lineText, Amount.write_eq]
    | cons l ls =>
      rw [write, lines, List.map_cons, pageText_cons, pageText_nil, lineText,
        labelsText_eq (List.cons_ne_nil _ _), Amount.write_eq]
      simp [writeLabels, labelText, LabelValue.write_eq, Function.comp_def]

theorem write_eq (output : List Piece) : write output = pageText (output.flatMap Piece.lines) := by
  rw [write, pageText_flatMap]
  exact List.flatMap_congr fun piece _ => piece.write_eq

theorem Piece.Proper.lines {piece : Piece} (h : piece.Proper) :
    ∀ line ∈ piece.lines, line.Proper := by
  cases piece with
  | family name help kind =>
    obtain ⟨hname, hhelp, hkind⟩ := h
    intro line hline
    rcases List.mem_cons.1 hline with rfl | hline
    · exact ⟨hname, hhelp⟩
    · rw [List.mem_singleton.1 hline]
      exact ⟨hname, hkind⟩
  | sample name labels amount =>
    intro line hline
    rw [List.mem_singleton.1 hline]
    refine ⟨h.1, fun l hl => ?_⟩
    obtain ⟨x, hx, rfl⟩ := List.mem_map.1 hl
    exact h.2 x hx

/-- **What is written is read back.** -/
theorem readPage_write {output : List Piece} (h : ∀ piece ∈ output, piece.Proper) :
    readPage (write output) = some (output.flatMap Piece.lines) := by
  rw [write_eq]
  refine readPage_pageText fun line hline => ?_
  obtain ⟨piece, hpiece, hline⟩ := List.mem_flatMap.1 hline
  exact (h piece hpiece).lines line hline

/-! ## Histograms -/

def LATENCY_BUCKETS_US : List Nat :=
  [100, 500, 1000, 5000, 10000, 50000, 100000, 500000, 1000000]

/-- One bucket for every bound, and a last one for everything. -/
abbrev Bucket := Fin (LATENCY_BUCKETS_US.length + 1)

structure Histogram where
  buckets : Bucket → UInt64
  count : UInt64
  sumUs : UInt64

/-- `fetch_add` on one of the atomics. -/
inductive FetchAdd where
  | bucket (i : Bucket)
  | count
  | sumUs (micros : UInt64)
  deriving DecidableEq, Repr

namespace Histogram

def default : Histogram := ⟨fun _ => 0, 0, 0⟩

def fetchAdd (h : Histogram) : FetchAdd → Histogram
  | .bucket i => { h with buckets := fun j => if j = i then h.buckets j + 1 else h.buckets j }
  | .count => { h with count := h.count + 1 }
  | .sumUs micros => { h with sumUs := h.sumUs + micros }

/-- `u64::try_from` of the microseconds. -/
def micros (duration : Nat) : UInt64 := .ofNat (min duration (2 ^ 64 - 1))

/-- The additions of one observation, in the order of the source. -/
def additions (duration : Nat) : List FetchAdd :=
  (((List.finRange LATENCY_BUCKETS_US.length).filter fun i =>
    (micros duration).toNat ≤ LATENCY_BUCKETS_US.get i).map fun i => .bucket i.castSucc) ++
      [.bucket (Fin.last _), .count, .sumUs (micros duration)]

/-- `observe`. -/
def observe (h : Histogram) (duration : Nat) : Histogram := (additions duration).foldl fetchAdd h

/-- `render`. -/
def render (h : Histogram) (name help : String) : List Piece :=
  .family name help "histogram" ::
    (List.finRange LATENCY_BUCKETS_US.length).map (fun i =>
      .sample (name ++ "_bucket") [("le", .seconds (LATENCY_BUCKETS_US.get i))]
        (.number (h.buckets i.castSucc).toNat)) ++
    [.sample (name ++ "_bucket") [("le", .infinity)] (.number (h.buckets (Fin.last _)).toNat),
      .sample (name ++ "_count") [] (.number h.count.toNat),
      .sample (name ++ "_sum") [] (.seconds h.sumUs.toNat)]

/-- The observations that bucket `i` counts. -/
def counted (i : Bucket) (duration : Nat) : Bool :=
  Fin.lastCases (motive := fun _ => Bool) true
    (fun j => (micros duration).toNat ≤ LATENCY_BUCKETS_US.get j) i

def FetchAdd.sumUs? : FetchAdd → Option UInt64
  | .sumUs micros => some micros
  | _ => none

theorem add_one_ofNat (x : UInt64) (n : Nat) : x + 1 + .ofNat n = x + .ofNat (n + 1) := by
  rw [UInt64.ofNat_add, UInt64.add_assoc, UInt64.add_comm 1]
  rfl

/-- What additions leave, whatever their order. -/
theorem foldl_fetchAdd (acts : List FetchAdd) (h : Histogram) :
    (∀ i, (acts.foldl fetchAdd h).buckets i = h.buckets i + .ofNat (acts.count (.bucket i))) ∧
      (acts.foldl fetchAdd h).count = h.count + .ofNat (acts.count .count) ∧
      (acts.foldl fetchAdd h).sumUs = h.sumUs + (acts.filterMap FetchAdd.sumUs?).sum := by
  induction acts generalizing h with
  | nil => simp
  | cons a acts ih =>
    obtain ⟨hbuckets, hcount, hsum⟩ := ih (h.fetchAdd a)
    rw [List.foldl_cons]
    refine ⟨fun i => ?_, ?_, ?_⟩
    · rw [hbuckets i, List.count_cons]
      cases a with
      | bucket j =>
        by_cases hij : i = j
        · subst j
          simp [fetchAdd, add_one_ofNat]
        · have hne : (FetchAdd.bucket j == .bucket i) = false :=
            beq_false_of_ne fun h => hij (FetchAdd.bucket.inj h).symm
          simp [fetchAdd, hij, hne]
      | count => simp [fetchAdd]
      | sumUs micros => simp [fetchAdd]
    · rw [hcount, List.count_cons]
      cases a with
      | bucket j => simp [fetchAdd]
      | count => simp [fetchAdd, add_one_ofNat]
      | sumUs micros => simp [fetchAdd]
    · rw [hsum, List.filterMap_cons]
      cases a with
      | bucket j => rfl
      | count => rfl
      | sumUs micros => simp [fetchAdd, FetchAdd.sumUs?, add_assoc]

theorem count_bucket (i : Bucket) (duration : Nat) :
    (additions duration).count (.bucket i) = if counted i duration then 1 else 0 := by
  rw [additions, List.count_append]
  have hinj : Function.Injective fun j : Fin LATENCY_BUCKETS_US.length =>
      FetchAdd.bucket j.castSucc :=
    fun _ _ h => Fin.castSucc_injective _ (FetchAdd.bucket.inj h)
  cases i using Fin.lastCases with
  | last =>
    have hnone : FetchAdd.bucket (Fin.last _) ∉ ((List.finRange LATENCY_BUCKETS_US.length).filter
        fun j => decide ((micros duration).toNat ≤ LATENCY_BUCKETS_US.get j)).map
          fun j => FetchAdd.bucket j.castSucc := by
      intro h
      obtain ⟨j, _, hj⟩ := List.mem_map.1 h
      exact Fin.castSucc_ne_last j (FetchAdd.bucket.inj hj)
    rw [List.count_eq_zero.2 hnone, counted, Fin.lastCases_last]
    rfl
  | cast j =>
    have hrest : List.count (FetchAdd.bucket j.castSucc)
        [.bucket (Fin.last _), .count, .sumUs (micros duration)] = 0 := by
      rw [List.count_eq_zero]
      intro h
      simp only [List.mem_cons, FetchAdd.bucket.injEq, reduceCtorEq, List.not_mem_nil, or_false]
        at h
      exact Fin.castSucc_ne_last j h
    rw [hrest, List.count_map_of_injective _ _ hinj, counted, Fin.lastCases_castSucc]
    generalize hp : (fun j : Fin LATENCY_BUCKETS_US.length =>
      decide ((micros duration).toNat ≤ LATENCY_BUCKETS_US.get j)) = p
    rw [show decide ((micros duration).toNat ≤ LATENCY_BUCKETS_US.get j) = p j by rw [← hp]]
    cases hj : p j with
    | true =>
      rw [List.count_filter hj, List.count_eq_one_of_mem (List.nodup_finRange _)
        (List.mem_finRange j)]
      rfl
    | false =>
      rw [List.count_eq_zero.2 fun h => by
        rw [(List.mem_filter.1 h).2] at hj
        cases hj]
      rfl

theorem count_count (duration : Nat) : (additions duration).count .count = 1 := by
  rw [additions, List.count_append, List.count_eq_zero.2 fun h => ?_]
  · rfl
  · obtain ⟨j, _, hj⟩ := List.mem_map.1 h
    cases hj

theorem additions_sumUs (duration : Nat) :
    (additions duration).filterMap FetchAdd.sumUs? = [micros duration] := by
  have hnone : (((List.finRange LATENCY_BUCKETS_US.length).filter fun i =>
      decide ((micros duration).toNat ≤ LATENCY_BUCKETS_US.get i)).map fun i =>
        FetchAdd.bucket i.castSucc).filterMap FetchAdd.sumUs? = [] := by
    rw [List.filterMap_eq_nil_iff]
    intro a ha
    obtain ⟨_, _, rfl⟩ := List.mem_map.1 ha
    rfl
  rw [additions, List.filterMap_append, hnone]
  rfl

/-- The additions of many observations. -/
theorem additions_flatMap (durations : List Nat) :
    (∀ i, (durations.flatMap additions).count (.bucket i) = durations.countP (counted i)) ∧
      (durations.flatMap additions).count .count = durations.length ∧
      (durations.flatMap additions).filterMap FetchAdd.sumUs? = durations.map micros := by
  induction durations with
  | nil => exact ⟨fun _ => rfl, rfl, rfl⟩
  | cons d ds ih =>
    obtain ⟨hbuckets, hcount, hsum⟩ := ih
    rw [List.flatMap_cons]
    refine ⟨fun i => ?_, ?_, ?_⟩
    · rw [List.count_append, count_bucket, hbuckets i, List.countP_cons, Nat.add_comm]
    · rw [List.count_append, count_count, hcount, List.length_cons, Nat.add_comm]
    · rw [List.filterMap_append, additions_sumUs, hsum, List.map_cons, List.singleton_append]

/-- **Observations add up** once their additions are done, in whatever order the additions of
concurrent observations happen: each bucket counts the observations within its bound. -/
theorem observations_add_up {durations : List Nat} {acts : List FetchAdd}
    (h : acts.Perm (durations.flatMap additions)) :
    (∀ i, (acts.foldl fetchAdd default).buckets i = .ofNat (durations.countP (counted i))) ∧
      (acts.foldl fetchAdd default).count = .ofNat durations.length ∧
      (acts.foldl fetchAdd default).sumUs = (durations.map micros).sum := by
  obtain ⟨hbuckets, hcount, hsum⟩ := foldl_fetchAdd acts default
  obtain ⟨hbuckets', hcount', hsum'⟩ := additions_flatMap durations
  refine ⟨fun i => ?_, ?_, ?_⟩
  · rw [hbuckets i, h.count_eq, hbuckets' i]
    exact UInt64.zero_add _
  · rw [hcount, h.count_eq, hcount']
    exact UInt64.zero_add _
  · rw [hsum, (h.filterMap _).sum_eq, hsum']
    exact UInt64.zero_add _

theorem observations_add_up_between : (∀ i,
    (((additions 3).take 2 ++ additions 700 ++ (additions 3).drop 2).foldl fetchAdd
      default).buckets i = .ofNat ([3, 700].countP (counted i))) ∧
    (((additions 3).take 2 ++ additions 700 ++ (additions 3).drop 2).foldl fetchAdd
      default).count = .ofNat 2 ∧
    (((additions 3).take 2 ++ additions 700 ++ (additions 3).drop 2).foldl fetchAdd
      default).sumUs = ([3, 700].map micros).sum :=
  observations_add_up (by decide +kernel)

end Histogram

/-! ## The metrics of a broker -/

/-- A follower or a leader and a partition. -/
abbrev ReplicaKey := UInt32 × String × UInt32

structure RuntimeMetrics where
  activeConnections : UInt64
  producedMessages : UInt64
  producedBytes : UInt64
  fetchedMessages : UInt64
  fetchedBytes : UInt64
  brokerBusy : UInt64
  retentionSegmentsRemoved : UInt64
  replicationRecordsSent : UInt64
  replicationRecordsReceived : UInt64
  replicationFailures : UInt64
  replicationReconnects : UInt64
  automaticLeaderPromotions : UInt64
  -- the hash maps, in the order in which they are iterated
  replicaOffsets : AList fun _ : ReplicaKey => UInt64
  replicaSync : AList fun _ : ReplicaKey => Bool
  inSyncReplicas : AList fun _ : ReplicaKey => Bool
  produceLatency : Histogram
  fetchLatency : Histogram
  appendLatency : Histogram
  flushLatency : Histogram

namespace RuntimeMetrics

def default : RuntimeMetrics :=
  ⟨0, 0, 0, 0, 0, 0, 0, 0, 0, 0, 0, 0, ∅, ∅, ∅, .default, .default, .default, .default⟩

/-- The calls of `metric`, those of `render_automatic_promotions` last. -/
def counters (m : RuntimeMetrics) : List (String × String × String × UInt64) :=
  [("sevlamq_active_connections", "Current client TCP connections.", "gauge",
      m.activeConnections),
    ("sevlamq_messages_produced_total", "Messages accepted by the broker.", "counter",
      m.producedMessages),
    ("sevlamq_bytes_produced_total", "Uncompressed payload bytes accepted by the broker.",
      "counter", m.producedBytes),
    ("sevlamq_messages_fetched_total", "Messages returned by fetch requests.", "counter",
      m.fetchedMessages),
    ("sevlamq_bytes_fetched_total", "Payload bytes returned by fetch requests.", "counter",
      m.fetchedBytes),
    ("sevlamq_broker_busy_total", "Requests rejected because the storage queue remained full.",
      "counter", m.brokerBusy),
    ("sevlamq_retention_segments_removed_total", "Closed log segments removed by retention.",
      "counter", m.retentionSegmentsRemoved),
    ("sevlamq_replication_records_sent_total", "Records acknowledged by followers.", "counter",
      m.replicationRecordsSent),
    ("sevlamq_replication_records_received_total",
      "Records accepted through the replication listener.", "counter",
      m.replicationRecordsReceived),
    ("sevlamq_replication_failures_total",
      "Replication operations that failed before acknowledgement.", "counter",
      m.replicationFailures),
    ("sevlamq_replication_reconnects_total",
      "Follower recovery retries after a failed connection.", "counter",
      m.replicationReconnects),
    ("sevlamq_automatic_leader_promotions_total",
      "Partition leaders promoted automatically after probe failures.", "counter",
      m.automaticLeaderPromotions)]

/-- The calls of `Histogram::render`. -/
def histograms (m : RuntimeMetrics) : List (String × String × Histogram) :=
  [("sevlamq_produce_duration_seconds", "End-to-end produce request latency.", m.produceLatency),
    ("sevlamq_fetch_duration_seconds", "End-to-end fetch request latency.", m.fetchLatency),
    ("sevlamq_append_duration_seconds", "Storage append latency.", m.appendLatency),
    ("sevlamq_flush_duration_seconds", "Durable storage synchronization latency.",
      m.flushLatency)]

/-- `render`. -/
def render (m : RuntimeMetrics) : List Piece :=
  m.counters.flatMap (fun (name, help, kind, value) => metric name help kind value) ++
    m.histograms.flatMap fun (name, help, h) => h.render name help

end RuntimeMetrics

end SevlaMq.Broker
