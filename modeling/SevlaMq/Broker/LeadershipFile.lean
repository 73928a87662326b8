import Mathlib.Data.List.AList
import Mathlib.Data.Prod.Lex
import SevlaMq.Broker.Topics
import SevlaMq.Lib.Run
import SevlaMq.Lib.Text
import SevlaMq.Storage.PartitionLog

/-!
# The leadership registry and its file

Model of `LeadershipRegistry::{open, apply}`, `parse_entries` and `persist_entries` of
`crates/broker/src/leadership.rs`.  The registry is a hash map and the text of `leadership.meta`,
which is rewritten after every change.

* `Registry` — the map in memory and the file.
* `persistEntries`, `parseEntries` — the file as text, with its tabs and line breaks.
* `parse_persist` — a file that was written is read back.
* `Sound` — memory and file agree; it holds after `open` and is kept by `apply`.
* `registry_converges` — messages about one partition, in any order, with repetitions and restarts,
  leave the greatest of them.
-/

set_option autoImplicit false

namespace SevlaMq.Broker

open SevlaMq.Cluster
open SevlaMq.Storage (U64_MAX)

def U32_MAX : Nat := 2 ^ 32 - 1

inductive RegistryError where
  | io
  | invalidMetadata
  | poisoned
  | missingPartition (partition : Nat)
  | leadership (e : LeadershipError)
  deriving DecidableEq, Repr

/-- `HashMap<(String, u32), PartitionLeadership>`; nothing depends on the order. -/
abbrev Table := AList fun _ : String × Nat => PartitionLeadership

structure Registry where
  entries : Table
  -- the text of `leadership.meta`
  file : Option (List Char)

namespace Registry

/-! ## The file -/

/-- One line of the file. -/
def entryLine (topic : String) (l : PartitionLeadership) : List Char :=
  fields '\t' [topic.toList, Nat.toDigits 10 l.partition, Nat.toDigits 10 l.leaderId,
    Nat.toDigits 10 l.leaderEpoch, Nat.toDigits 10 l.highWatermark]

/-- The order of the keys. -/
def keyLe (a b : Sigma fun _ : String × Nat => PartitionLeadership) : Bool :=
  a.1.1 < b.1.1 ∨ (a.1.1 = b.1.1 ∧ a.1.2 ≤ b.1.2)

/-- The text `persist_entries` writes. -/
def persistEntries (entries : Table) : List Char :=
  unlines ((entries.entries.mergeSort keyLe).map fun e => entryLine e.1.1 e.2)

/-- `fields.next()`, parsed. -/
def parseField (limit : Nat) (field : Option (List Char)) : Except RegistryError Nat :=
  match field.bind (parseUnsigned limit) with
  | some n => .ok n
  | none => .error .invalidMetadata

/-- The last field; a line without a watermark has the greatest one. -/
def parseWatermark (field : Option (List Char)) : Except RegistryError Nat :=
  match field with
  | none => .ok U64_MAX
  | some field => parseField U64_MAX (some field)

/-- One line of `parse_entries`. -/
def parseLine (line : List Char) : Except RegistryError (String × PartitionLeadership) :=
  match line.splitOn '\t' with
  | [] => .error .invalidMetadata
  | topic :: rest => do
    let partition ← parseField U32_MAX rest[0]?
    let leaderId ← parseField U32_MAX rest[1]?
    let leaderEpoch ← parseField U64_MAX rest[2]?
    let highWatermark ← parseWatermark rest[3]?
    if rest[4]?.isSome then .error .invalidMetadata
    else .ok (String.ofList topic, ⟨partition, leaderId, leaderEpoch, highWatermark⟩)

def parseLines : List (List Char) → Table → Except RegistryError Table
  | [], entries => .ok entries
  | line :: rest, entries =>
    match parseLine line with
    | .error e => .error e
    | .ok (topic, l) => parseLines rest (entries.insert (topic, l.partition) l)

/-- `parse_entries`. -/
def parseEntries (contents : List Char) : Except RegistryError Table :=
  parseLines ((lines contents).filter (· ≠ [])) ∅

/-! ## Operations -/

/-- `LeadershipRegistry::open` on the file found. -/
def openFile : Option (List Char) → Except RegistryError Registry
  | none => .ok ⟨∅, none⟩
  | some contents =>
    match parseEntries contents with
    | .error e => .error e
    | .ok entries => .ok ⟨entries, some contents⟩

/-- The file operations of `persist_entries` succeed or not; the file is replaced by the last one,
a rename. -/
def persist (succeeds : Bool) (r : Registry) (entries : Table) :
    Except RegistryError Unit × Registry :=
  if succeeds then (.ok (), ⟨entries, some (persistEntries entries)⟩)
  else (.error .io, ⟨entries, r.file⟩)

/-- `LeadershipRegistry::apply`. -/
def apply (cfg : Settings) (succeeds : Bool) (r : Registry) (topic : String)
    (l : PartitionLeadership) : Except RegistryError Unit × Registry :=
  match applyEntry (cfg.cluster l.partition) (r.entries.lookup (topic, l.partition)) l with
  | .error e => (.error (.leadership e), r)
  | .ok _ =>
    if r.entries.lookup (topic, l.partition) = some l then (.ok (), r)
    else r.persist succeeds (r.entries.insert (topic, l.partition) l)

/-- The entries as the requests see them. -/
def view (r : Registry) : Entries := fun topic partition => r.entries.lookup (topic, partition)

/-! ## A file that was written is read back -/

/-- The values of the record's types. -/
structure Fits (l : PartitionLeadership) : Prop where
  partition : l.partition ≤ U32_MAX
  leaderId : l.leaderId ≤ U32_MAX
  leaderEpoch : l.leaderEpoch ≤ U64_MAX
  highWatermark : l.highWatermark ≤ U64_MAX

/-- A topic that stays within its field. -/
def Plain (topic : String) : Prop := '\t' ∉ topic.toList ∧ '\n' ∉ topic.toList

/-- The topics of the storage worker are plain. -/
theorem plain_of_validateTopic {topic : String} (h : Storage.validateTopic topic = .ok ()) :
    Plain topic :=
  ⟨Storage.not_mem_of_validateTopic h (by decide) (by decide),
    Storage.not_mem_of_validateTopic h (by decide) (by decide)⟩

/-- An entry that can be written: it is stored under its own partition. -/
structure Writable (key : String × Nat) (l : PartitionLeadership) : Prop where
  topic : Plain key.1
  partition : l.partition = key.2
  fits : Fits l

section File

variable {key : String × Nat} {topic : String} {l : PartitionLeadership}

theorem mem_entryLine {c : Char} (hc : c ≠ '\t') (hd : c.isDigit = false)
    (h : c ∈ entryLine topic l) : c ∈ topic.toList := by
  obtain ⟨f, hf, hcf⟩ := mem_fields hc h
  simp only [List.mem_cons, List.not_mem_nil, or_false] at hf
  rcases hf with rfl | rfl | rfl | rfl | rfl
  · exact hcf
  all_goals exact absurd hcf (not_mem_toDigits hd)

theorem entryLine_ne_nil : entryLine topic l ≠ [] := by
  simp [entryLine, fields, List.intercalate_cons_cons]

/-- A line ends with a digit. -/
theorem entryLine_getLast : (entryLine topic l).getLast? ≠ some '\r' := by
  have hlast := @getLast?_fields '\t' (Nat.toDigits 10 l.highWatermark) Nat.toDigits_ne_nil
    [topic.toList, Nat.toDigits 10 l.partition, Nat.toDigits 10 l.leaderId,
      Nat.toDigits 10 l.leaderEpoch]
  intro h
  have hline : (Nat.toDigits 10 l.highWatermark).getLast? = some '\r' := hlast.symm.trans h
  exact not_mem_toDigits (by decide) (List.mem_of_getLast? hline)

theorem parseField_toDigits {limit n : Nat} (h : n ≤ limit) :
    parseField limit (some (Nat.toDigits 10 n)) = .ok n := by
  simp only [parseField, Option.bind_some, parseUnsigned_toDigits h]

theorem parseLine_entryLine (h : Writable key l) :
    parseLine (entryLine key.1 l) = .ok (key.1, l) := by
  have hsplit : (entryLine key.1 l).splitOn '\t' = [key.1.toList, Nat.toDigits 10 l.partition,
      Nat.toDigits 10 l.leaderId, Nat.toDigits 10 l.leaderEpoch, Nat.toDigits 10 l.highWatermark] := by
    refine List.splitOn_intercalate '\t' ?_ (by simp)
    intro f hf
    simp only [List.mem_cons, List.not_mem_nil, or_false] at hf
    rcases hf with rfl | rfl | rfl | rfl | rfl
    · exact h.topic.1
    all_goals exact not_mem_toDigits (by decide)
  unfold parseLine
  rw [hsplit]
  simp [parseField_toDigits h.fits.partition, parseField_toDigits h.fits.leaderId,
    parseField_toDigits h.fits.leaderEpoch, parseField_toDigits h.fits.highWatermark,
    parseWatermark, bind, Except.bind]

/-- Reading the lines of a map adds its entries to those read before. -/
theorem parseLines_entries : ∀ {xs : List (Sigma fun _ : String × Nat => PartitionLeadership)}
    {entries : Table}, xs.NodupKeys → (∀ x ∈ xs, Writable x.1 x.2) →
    ∃ entries', parseLines (xs.map fun x => entryLine x.1.1 x.2) entries = .ok entries' ∧
      ∀ k, entries'.lookup k = (xs.dlookup k).or (entries.lookup k)
  | [], entries, _, _ => ⟨entries, rfl, fun _ => rfl⟩
  | x :: xs, entries, hnd, hw => by
    have hx := hw x List.mem_cons_self
    have hnd' := List.nodupKeys_cons.1 hnd
    obtain ⟨entries', hparse, hlookup⟩ := @parseLines_entries xs
      (entries.insert (x.1.1, x.2.partition) x.2) hnd'.2
      (fun y hy => hw y (List.mem_cons_of_mem _ hy))
    refine ⟨entries', ?_, fun k => ?_⟩
    · rw [List.map_cons, parseLines, parseLine_entryLine hx]
      exact hparse
    · rw [hlookup k, hx.partition]
      by_cases hk : k = x.1
      · subst hk
        have hnone : xs.dlookup x.1 = none := List.dlookup_eq_none.2 hnd'.1
        rw [hnone, AList.lookup_insert, List.dlookup_cons_eq]
        rfl
      · rw [AList.lookup_insert_ne hk, List.dlookup_cons_ne xs x hk]

/-- **A file that was written is read back.** -/
theorem parse_persist {entries : Table}
    (hw : ∀ k l, entries.lookup k = some l → Writable k l) :
    ∃ entries', parseEntries (persistEntries entries) = .ok entries' ∧
      ∀ k, entries'.lookup k = entries.lookup k := by
  have hperm := List.mergeSort_perm entries.entries keyLe
  have hnd : (entries.entries.mergeSort keyLe).NodupKeys :=
    (List.perm_nodupKeys hperm).2 entries.nodupKeys
  have hwritable : ∀ x ∈ entries.entries.mergeSort keyLe, Writable x.1 x.2 := by
    intro x hx
    exact hw x.1 x.2 (List.mem_dlookup entries.nodupKeys (hperm.mem_iff.1 hx))
  obtain ⟨entries', hparse, hlookup⟩ := @parseLines_entries _ ∅ hnd hwritable
  refine ⟨entries', ?_, fun k => ?_⟩
  · have hlines : lines (persistEntries entries) =
        (entries.entries.mergeSort keyLe).map fun x => entryLine x.1.1 x.2 := by
      apply lines_unlines
      · intro line hline
        obtain ⟨x, hx, rfl⟩ := List.mem_map.1 hline
        intro hc
        exact (hwritable x hx).topic.2 (mem_entryLine (by decide) (by decide) hc)
      · intro line hline
        obtain ⟨x, _, rfl⟩ := List.mem_map.1 hline
        exact entryLine_getLast
    have hfilter : (lines (persistEntries entries)).filter (· ≠ []) =
        lines (persistEntries entries) := by
      refine List.filter_eq_self.2 fun line hline => ?_
      rw [hlines] at hline
      obtain ⟨x, _, rfl⟩ := List.mem_map.1 hline
      exact decide_eq_true entryLine_ne_nil
    rw [parseEntries, hfilter, hlines]
    exact hparse
  · rw [hlookup k, AList.lookup_empty, Option.or_none]
    exact List.perm_dlookup k hnd hperm

/-- What a line of a file says can be written again. -/
theorem parseLine_writable {line : List Char} (hline : '\n' ∉ line)
    (h : parseLine line = .ok (topic, l)) : Writable (topic, l.partition) l := by
  have hfield : ∀ {limit n : Nat} {f : Option (List Char)}, parseField limit f = .ok n →
      n ≤ limit := by
    intro limit n f hf
    unfold parseField at hf
    split at hf
    · rename_i m hm
      cases hf
      obtain ⟨field, _, hparse⟩ := Option.bind_eq_some_iff.1 hm
      exact parseUnsigned_le hparse
    · cases hf
  unfold parseLine at h
  split at h
  · cases h
  rename_i first rest hsplit
  have hplain : Plain (String.ofList first) := by
    have hmem : first ∈ line.splitOn '\t' := by rw [hsplit]; exact List.mem_cons_self
    rw [Plain, String.toList_ofList]
    exact ⟨fun hc => (mem_splitOn hmem hc).1 rfl, fun hc => hline (mem_splitOn hmem hc).2⟩
  simp only [bind, Except.bind] at h
  split at h
  · cases h
  rename_i partition hpartition
  split at h
  · cases h
  rename_i leaderId hleader
  split at h
  · cases h
  rename_i leaderEpoch hepoch
  split at h
  · cases h
  rename_i highWatermark hhw
  split at h
  · cases h
  cases h
  have hwatermark : highWatermark ≤ U64_MAX := by
    unfold parseWatermark at hhw
    split at hhw
    · cases hhw
      exact Nat.le_refl _
    · exact hfield hhw
  exact ⟨hplain, rfl, hfield hpartition, hfield hleader, hfield hepoch, hwatermark⟩

theorem parseLines_writable : ∀ {ls : List (List Char)} {entries entries' : Table},
    (∀ line ∈ ls, '\n' ∉ line) → (∀ k l, entries.lookup k = some l → Writable k l) →
    parseLines ls entries = .ok entries' → ∀ k l, entries'.lookup k = some l → Writable k l
  | [], _, _, _, hw, h => by
    cases h
    exact hw
  | line :: ls, entries, entries', hls, hw, h => by
    unfold parseLines at h
    split at h
    · cases h
    rename_i topic e hline
    refine parseLines_writable (fun x hx => hls x (List.mem_cons_of_mem _ hx)) ?_ h
    intro k l hl
    by_cases hk : k = (topic, e.partition)
    · rw [hk, AList.lookup_insert] at hl
      cases hl
      rw [hk]
      exact parseLine_writable (hls line List.mem_cons_self) hline
    · rw [AList.lookup_insert_ne hk] at hl
      exact hw k l hl

end File

/-! ## Memory and file agree -/

/-- Every entry can be written, and opening the file gives the entries of the memory. -/
structure Sound (r : Registry) : Prop where
  writable : ∀ k l, r.entries.lookup k = some l → Writable k l
  saved : ∃ entries, openFile r.file = .ok ⟨entries, r.file⟩ ∧
    ∀ k, entries.lookup k = r.entries.lookup k

section Sound

variable {cfg : Settings} {r r' : Registry} {topic : String} {l : PartitionLeadership}

/-- Whatever file a registry was opened on. -/
theorem sound_openFile {file : Option (List Char)} (h : openFile file = .ok r) : Sound r := by
  unfold openFile at h
  split at h
  · cases h
    exact ⟨fun k l hl => by simp at hl, ∅, rfl, fun _ => rfl⟩
  · rename_i contents
    split at h
    · cases h
    rename_i entries hparse
    cases h
    refine ⟨?_, entries, by simp only [openFile, hparse], fun _ => rfl⟩
    refine parseLines_writable ?_ (fun k l hl => by simp at hl) hparse
    intro line hline
    exact not_mem_lines (List.mem_of_mem_filter hline)

theorem Sound.insert (h : Sound r) (ht : Plain topic) (hl : Fits l) :
    Sound (r.persist true (r.entries.insert (topic, l.partition) l)).2 := by
  have hw : ∀ k e, (r.entries.insert (topic, l.partition) l).lookup k = some e → Writable k e := by
    intro k e he
    by_cases hk : k = (topic, l.partition)
    · rw [hk, AList.lookup_insert] at he
      cases he
      rw [hk]
      exact ⟨ht, rfl, hl⟩
    · rw [AList.lookup_insert_ne hk] at he
      exact h.writable k e he
  obtain ⟨entries, hparse, hlookup⟩ := parse_persist hw
  refine ⟨hw, entries, ?_, hlookup⟩
  simp only [persist, if_true, openFile, hparse]

/-- **`apply`** keeps memory and file together. -/
theorem Sound.apply (h : Sound r) (ht : Plain topic) (hl : Fits l) :
    Sound (r.apply cfg true topic l).2 := by
  unfold Registry.apply
  split
  · exact h
  · split
    · exact h
    · exact h.insert ht hl

/-- The entries after `apply`. -/
theorem apply_view (t : String) (p : Nat) : (r.apply cfg true topic l).2.view t p =
    if t = topic ∧ p = l.partition then
      match applyEntry (cfg.cluster l.partition) (r.view topic l.partition) l with
      | .ok e => some e
      | .error _ => r.view topic l.partition
    else r.view t p := by
  unfold Registry.apply
  cases happ : applyEntry (cfg.cluster l.partition) (r.entries.lookup (topic, l.partition)) l with
  | error e =>
    simp only [view, happ]
    split
    · rename_i hk
      rw [hk.1, hk.2]
    · rfl
  | ok e =>
    have he : e = l := (applyEntry_ok happ).1
    subst he
    simp only [view, happ]
    split
    · rename_i hsame
      split
      · rename_i hk
        rw [hk.1, hk.2, hsame]
      · rfl
    · simp only [persist, if_true]
      split
      · rename_i hk
        rw [hk.1, hk.2, AList.lookup_insert]
      · rename_i hk
        rw [AList.lookup_insert_ne fun heq => hk ⟨congrArg Prod.fst heq, congrArg Prod.snd heq⟩]

/-- `apply` on the file refines that of the requests, whether its write succeeds there or not. -/
theorem apply_refines (persists : Entries → Bool) :
    (r.apply cfg true topic l).2.view = (r.view.apply cfg persists topic l).2 := by
  funext t p
  rw [apply_view]
  cases happ : applyEntry (cfg.cluster l.partition) (r.view topic l.partition) l with
  | error e =>
    rw [Entries.apply_error happ]
    dsimp only
    split
    · rename_i hk
      rw [hk.1, hk.2]
    · rfl
  | ok e =>
    rw [Entries.apply_entries happ]
    rfl

end Sound

/-! ## Convergence -/

/-- What happens to a registry: a message about a topic arrives, or the broker restarts. -/
inductive Event where
  | apply (l : PartitionLeadership)
  | reopen
  deriving DecidableEq, Repr

/-- One event of `topic`; a message that is rejected is skipped. -/
def event (cfg : Settings) (topic : String) (r : Registry) : Event → Option Registry
  | .apply l => some (r.apply cfg true topic l).2
  | .reopen =>
    match openFile r.file with
    | .ok r' => some r'
    | .error _ => none

/-- The messages of a run. -/
def messages (events : List Event) : List PartitionLeadership :=
  events.filterMap fun
    | .apply l => some l
    | .reopen => none

/-- The order of leaderships. -/
def rank (l : PartitionLeadership) : ℕ ×ₗ ℕ := toLex (l.leaderEpoch, l.highWatermark)

/-- The entry does not go back, and names another leader only in another epoch. -/
def Advances (before after : Option PartitionLeadership) : Prop :=
  ∀ a, before = some a → ∃ b, after = some b ∧ rank a ≤ rank b ∧
    (b.leaderId ≠ a.leaderId → b.leaderEpoch ≠ a.leaderEpoch)

/-- Messages of one partition; those of one epoch name one leader. -/
structure Coherent (partition : Nat) (ls : List PartitionLeadership) : Prop where
  partition : ∀ l ∈ ls, l.partition = partition
  leader : ∀ a ∈ ls, ∀ b ∈ ls, a.leaderEpoch = b.leaderEpoch → a.leaderId = b.leaderId

/-- The entry is the greatest of the leaderships heard of, or there was none. -/
def Greatest (heard : List PartitionLeadership) : Option PartitionLeadership → Prop
  | none => heard = []
  | some e => e ∈ heard ∧ ∀ l ∈ heard, rank l ≤ rank e

section Convergence

variable {cfg : Settings} {topic : String} {p : Nat} {r r' : Registry}

theorem rank_le {a b : PartitionLeadership} : rank a ≤ rank b ↔
    a.leaderEpoch < b.leaderEpoch ∨
      (a.leaderEpoch = b.leaderEpoch ∧ a.highWatermark ≤ b.highWatermark) :=
  Prod.Lex.toLex_le_toLex

theorem Advances.refl (e : Option PartitionLeadership) : Advances e e :=
  fun a ha => ⟨a, ha, le_refl _, fun hne => absurd rfl hne⟩

/-- An accepted leadership advances the entry. -/
theorem advances_applyEntry {c : ClusterConfig} {current : Option PartitionLeadership}
    {l e : PartitionLeadership} (h : applyEntry c current l = .ok e) : Advances current (some e) := by
  obtain ⟨rfl, _, hnewer⟩ := applyEntry_ok h
  intro a ha
  refine ⟨e, rfl, ?_, ?_⟩
  · rw [rank_le]
    rcases hnewer a ha with hlt | ⟨heq, _, hle⟩
    · exact Or.inl hlt
    · exact Or.inr ⟨heq, hle⟩
  · intro hne
    rcases hnewer a ha with hlt | ⟨_, heq, _⟩
    · omega
    · exact absurd heq.symm hne

/-- Two leaderships of the same rank are one. -/
theorem Coherent.eq_of_rank {ls : List PartitionLeadership} (h : Coherent p ls)
    {a b : PartitionLeadership} (ha : a ∈ ls) (hb : b ∈ ls) (hab : rank a ≤ rank b)
    (hba : rank b ≤ rank a) : a = b := by
  have hpartition : a.partition = b.partition := by rw [h.partition a ha, h.partition b hb]
  rw [rank_le] at hab hba
  have hepoch : a.leaderEpoch = b.leaderEpoch := by omega
  have hhw : a.highWatermark = b.highWatermark := by omega
  have hleader := h.leader a ha b hb hepoch
  cases a
  cases b
  simp_all

/-- **One message**: the entry stays the greatest of what was heard. -/
theorem Greatest.applyEntry {c : ClusterConfig} {heard : List PartitionLeadership}
    {current : Option PartitionLeadership} {l : PartitionLeadership}
    (h : Greatest heard current) (hl : l.leaderId ∈ c.nodes)
    (hc : ∀ a ∈ heard, a.leaderEpoch = l.leaderEpoch → a.leaderId = l.leaderId) :
    Greatest (heard ++ [l]) (match applyEntry c current l with
      | .ok e => some e
      | .error _ => current) := by
  cases current with
  | none =>
    have happ : Cluster.applyEntry c none l = .ok l := by
      unfold Cluster.applyEntry
      rw [if_neg (by simp [hl])]
    rw [happ]
    have hnil : heard = [] := h
    subst hnil
    refine ⟨by simp, fun m hm => ?_⟩
    rw [List.mem_singleton.1 hm]
  | some e =>
    obtain ⟨hmem, hmax⟩ := h
    by_cases hle : rank e ≤ rank l
    · have happ : Cluster.applyEntry c (some e) l = .ok l := by
        rcases rank_le.1 hle with hlt | ⟨heq, hhw⟩
        · exact applyEntry_newer hl hlt
        · exact applyEntry_raised hl heq.symm (hc e hmem heq).symm hhw
      rw [happ]
      refine ⟨by simp, fun m hm => ?_⟩
      rcases List.mem_append.1 hm with hm | hm
      · exact le_trans (hmax m hm) hle
      · rw [List.mem_singleton.1 hm]
    · cases happ : Cluster.applyEntry c (some e) l with
      | ok e' =>
        -- what is accepted is not older
        obtain ⟨rfl, _, _⟩ := applyEntry_ok happ
        obtain ⟨b, hb, hrank, _⟩ := advances_applyEntry happ e rfl
        cases hb
        exact absurd hrank hle
      | error _ =>
        refine ⟨List.mem_append_left _ hmem, fun m hm => ?_⟩
        rcases List.mem_append.1 hm with hm | hm
        · exact hmax m hm
        · rw [List.mem_singleton.1 hm]
          exact le_of_lt (not_le.1 hle)

/-! ### Events -/

/-- What an event may bring for one partition of a topic. -/
def About (cfg : Settings) (p : Nat) : Event → Prop
  | .apply l => l.partition = p ∧ l.leaderId ∈ cfg.nodes ∧ Fits l
  | .reopen => True

/-- An event is possible, keeps memory and file together and advances the entry. -/
theorem event_sound {a : Event} (h : Sound r) (ht : Plain topic) (ha : About cfg p a) :
    ∃ r', event cfg topic r a = some r' ∧ Sound r' ∧ Advances (r.view topic p) (r'.view topic p) := by
  cases a with
  | apply l =>
    obtain ⟨hp, _, hfits⟩ := ha
    refine ⟨_, rfl, h.apply ht hfits, ?_⟩
    rw [apply_view, if_pos ⟨rfl, hp.symm⟩, ← hp]
    split
    · rename_i e happ
      exact advances_applyEntry happ
    · exact Advances.refl _
  | reopen =>
    obtain ⟨entries, hopen, hlookup⟩ := h.saved
    refine ⟨⟨entries, r.file⟩, by simp only [event, hopen], sound_openFile hopen, ?_⟩
    have hview : Registry.view ⟨entries, r.file⟩ topic p = r.view topic p := hlookup (topic, p)
    rw [hview]
    exact Advances.refl _

/-- An event keeps the entry the greatest. -/
theorem event_greatest {a : Event} {heard : List PartitionLeadership} (h : Sound r)
    (ha : About cfg p a) (hg : Greatest heard (r.view topic p))
    (hc : Coherent p (heard ++ messages [a])) (hr : event cfg topic r a = some r') :
    Greatest (heard ++ messages [a]) (r'.view topic p) := by
  cases a with
  | apply l =>
    obtain ⟨rfl, hnode, _⟩ := ha
    cases hr
    rw [apply_view, if_pos ⟨rfl, rfl⟩]
    have hlast : l ∈ heard ++ messages [.apply l] := List.mem_append_right _ (by simp [messages])
    refine hg.applyEntry hnode fun a ha => ?_
    exact hc.leader a (List.mem_append_left _ ha) l hlast
  | reopen =>
    obtain ⟨entries, hopen, hlookup⟩ := h.saved
    simp only [event, hopen] at hr
    cases hr
    have hview : Registry.view ⟨entries, r.file⟩ topic p = r.view topic p := hlookup (topic, p)
    rw [hview]
    simpa [messages] using hg

theorem Coherent.mono {ls ls' : List PartitionLeadership} (h : Coherent p ls) (hs : ls' ⊆ ls) :
    Coherent p ls' :=
  ⟨fun l hl => h.partition l (hs hl), fun a ha b hb => h.leader a (hs ha) b (hs hb)⟩

/-- Events of one partition: every one is possible, advances the entry, and the last entry is the
greatest. -/
theorem events_greatest (ht : Plain topic) : ∀ {events : List Event} {r : Registry}
    {heard : List PartitionLeadership}, Sound r → (∀ a ∈ events, About cfg p a) →
    Greatest heard (r.view topic p) → Coherent p (heard ++ messages events) →
    ∃ r', run (event cfg topic) r events = some r' ∧
      Greatest (heard ++ messages events) (r'.view topic p) ∧
      Along (event cfg topic) (fun r a => ∀ r', event cfg topic r a = some r' →
        Advances (r.view topic p) (r'.view topic p)) r events
  | [], r, heard, _, _, hg, _ => ⟨r, rfl, by simpa [messages] using hg, trivial⟩
  | a :: events, r, heard, hs, ha, hg, hc => by
    have hsplit : heard ++ messages (a :: events) = heard ++ messages [a] ++ messages events := by
      rw [List.append_assoc, messages, messages, messages, ← List.filterMap_append,
        List.singleton_append]
    rw [hsplit] at hc ⊢
    have ha₁ := ha a List.mem_cons_self
    obtain ⟨r₁, hr₁, hs₁, hadv⟩ := event_sound hs ht ha₁
    have hg₁ := event_greatest hs ha₁ hg (hc.mono (List.subset_append_left _ _)) hr₁
    obtain ⟨r', hrun, hg', halong⟩ := events_greatest ht hs₁
      (fun x hx => ha x (List.mem_cons_of_mem _ hx)) hg₁ hc
    refine ⟨r', ?_, hg', ?_, ?_⟩
    · simp only [run, hr₁]
      exact hrun
    · intro r₂ hr₂
      rw [hr₁] at hr₂
      cases hr₂
      exact hadv
    · intro r₂ hr₂
      rw [hr₁] at hr₂
      cases hr₂
      exact halong

/-- What `Greatest` means for coherent leaderships. -/
theorem Greatest.iff {heard : List PartitionLeadership} {current : Option PartitionLeadership}
    (h : Greatest heard current) (hc : Coherent p heard) (e : PartitionLeadership) :
    current = some e ↔ e ∈ heard ∧ ∀ l ∈ heard, rank l ≤ rank e := by
  cases current with
  | none =>
    have hnil : heard = [] := h
    simp [hnil]
  | some c =>
    obtain ⟨hmem, hmax⟩ := h
    constructor
    · intro heq
      cases heq
      exact ⟨hmem, hmax⟩
    · rintro ⟨hemem, hemax⟩
      rw [hc.eq_of_rank hmem hemem (hemax c hmem) (hmax e hemem)]

/-- **Leadership registries converge.**  A registry is opened on any file; messages about one
partition arrive in any order, any number of times, and the registry is reopened in between.  The
entry ends as the greatest of the messages and the entry it started with, and on the way it never
goes back and changes its leader only with the epoch. -/
theorem registry_converges {file : Option (List Char)} {events : List Event}
    (hopen : openFile file = .ok r) (ht : Plain topic)
    (hevents : ∀ l, .apply l ∈ events → l.partition = p ∧ l.leaderId ∈ cfg.nodes ∧ Fits l)
    (hleader : ∀ a ∈ (r.view topic p).toList ++ messages events,
      ∀ b ∈ (r.view topic p).toList ++ messages events,
        a.leaderEpoch = b.leaderEpoch → a.leaderId = b.leaderId) :
    ∃ r', run (event cfg topic) r events = some r' ∧
      (∀ e, r'.view topic p = some e ↔ e ∈ (r.view topic p).toList ++ messages events ∧
        ∀ l ∈ (r.view topic p).toList ++ messages events, rank l ≤ rank e) ∧
      (r'.view topic p = none ↔ (r.view topic p).toList ++ messages events = []) ∧
      Along (event cfg topic) (fun r a => ∀ r', event cfg topic r a = some r' →
        Advances (r.view topic p) (r'.view topic p)) r events := by
  have hs := sound_openFile hopen
  have habout : ∀ a ∈ events, About cfg p a := by
    intro a ha
    cases a with
    | apply l => exact hevents l ha
    | reopen => trivial
  have hstart : Greatest (r.view topic p).toList (r.view topic p) := by
    cases h : r.view topic p with
    | none => rfl
    | some e => exact ⟨by simp, fun l hl => by simp at hl; rw [hl]⟩
  have hc : Coherent p ((r.view topic p).toList ++ messages events) := by
    refine ⟨fun l hl => ?_, hleader⟩
    rcases List.mem_append.1 hl with hl | hl
    · have hentry : r.view topic p = some l := by simpa using hl
      exact (hs.writable (topic, p) l hentry).partition
    · obtain ⟨a, ha, hal⟩ := List.mem_filterMap.1 hl
      cases a with
      | apply m =>
        cases hal
        exact (hevents l ha).1
      | reopen => cases hal
  obtain ⟨r', hrun, hg, halong⟩ := events_greatest ht hs habout hstart hc
  refine ⟨r', hrun, hg.iff hc, ?_, halong⟩
  cases h : r'.view topic p with
  | none =>
    rw [h] at hg
    exact ⟨fun _ => hg, fun _ => rfl⟩
  | some e =>
    rw [h] at hg
    constructor
    · intro hnone
      cases hnone
    · intro hnil
      rw [hnil] at hg
      exact absurd hg.1 List.not_mem_nil

theorem one_mem_threeNodes : 1 ∈ Cluster.threeNodes.nodes := List.mem_cons_self

theorem three_partitions_pos : 0 < 3 := Nat.succ_pos 2

/-- Three brokers with three replicas. -/
def threeBrokers : Settings where
  nodes := [1, 2, 3]
  replicationFactor := 3
  minInSyncReplicas := 2
  sorted := Cluster.threeNodes.sorted
  replication_le := Cluster.threeNodes.replication_le
  min_pos := Cluster.threeNodes.min_pos
  min_le := Cluster.threeNodes.min_le
  self := 1
  self_mem := one_mem_threeNodes
  autoCreateTopics := false
  defaultPartitionCount := 3
  default_pos := three_partitions_pos

/-- Two messages, the older one last, with a restart between them. -/
theorem registry_converges_reordered :
    ∃ r', run (event threeBrokers "orders")
        ⟨(∅ : Table).insert ("orders", 1) ⟨1, 2, 0, 4⟩, some "orders\t1\t2\t0\t4\n".toList⟩
        [.apply ⟨1, 3, 1, 4⟩, .reopen, .apply ⟨1, 2, 0, 6⟩] = some r' ∧
      r'.view "orders" 1 = some ⟨1, 3, 1, 4⟩ := by
  obtain ⟨r', hrun, hiff, _, _⟩ := @registry_converges threeBrokers "orders" 1
    ⟨(∅ : Table).insert ("orders", 1) ⟨1, 2, 0, 4⟩, some "orders\t1\t2\t0\t4\n".toList⟩
    (some "orders\t1\t2\t0\t4\n".toList)
    [.apply ⟨1, 3, 1, 4⟩, .reopen, .apply ⟨1, 2, 0, 6⟩] rfl
    (plain_of_validateTopic (by decide))
    (by
      intro l hl
      simp only [List.mem_cons, List.not_mem_nil, or_false, Event.apply.injEq, reduceCtorEq,
        false_or] at hl
      rcases hl with rfl | rfl
      · exact ⟨rfl, by decide, by constructor <;> decide⟩
      · exact ⟨rfl, by decide, by constructor <;> decide⟩)
    (by decide)
  exact ⟨r', hrun, (hiff _).2 (by decide)⟩

end Convergence

end Registry

end SevlaMq.Broker
