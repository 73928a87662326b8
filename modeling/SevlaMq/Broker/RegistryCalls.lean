import SevlaMq.Broker.LeadershipFile

/-!
# Calls on the leadership registry

Model of `LeadershipRegistry::{ensure_topic, partition, apply, migrate_high_watermark}` of
`crates/broker/src/leadership.rs` with the file operations of `persist_entries`, each of which can
fail.  A call changes the map in memory and then writes it: to `leadership.meta.tmp`, line by line,
and from there by a rename to `leadership.meta`.

* `SharedRegistry` — the lock, the map and the two files; `Steps` — what the file operations of one
  call do.
* `apply_refines_registry`, `ensureTopic_refines_entries`, `migrate_refines_entries` — the calls
  against the registry and the entries of the requests.
* `leadership_file_round_trip` — the map of any run of calls, and any map that was read, is read
  back from the text written for it.
* `error_atomic_iff` — a call that returns an error leaves memory and file as they were only if it
  did not come to change the map.
-/

set_option autoImplicit false

namespace SevlaMq.Broker

open SevlaMq.Cluster
open SevlaMq.Storage (U64_MAX)

/-! ## The registry and its files -/

/-- What the file operations of one `persist_entries` do. -/
structure Steps where
  create : Bool
  -- by line: `some n` is a `writeln!` that fails after `n` characters
  write : Nat → Option Nat
  sync : Bool
  rename : Bool

/-- File operations that succeed. -/
def Steps.succeeding : Steps := ⟨true, fun _ => none, true, true⟩

/-- The temporary file cannot be created. -/
def Steps.noSpace : Steps := ⟨false, fun _ => none, true, true⟩

/-- `Inner`: the `RwLock`, the map, `leadership.meta` and `leadership.meta.tmp`. -/
structure SharedRegistry where
  poisoned : Bool
  entries : Table
  file : Option (List Char)
  temporary : Option (List Char)

namespace SharedRegistry

/-- Map and file without the lock and the temporary file. -/
def registry (r : SharedRegistry) : Registry := ⟨r.entries, r.file⟩

/-- `LeadershipRegistry::open` after a restart. -/
def reopen (r : SharedRegistry) : Except RegistryError SharedRegistry :=
  match Registry.openFile r.file with
  | .error e => .error e
  | .ok opened => .ok ⟨false, opened.entries, opened.file, r.temporary⟩

/-- The loop of `writeln!`. -/
def writeLines (write : Nat → Option Nat) : Nat → List (List Char) → List Char → Bool × List Char
  | _, [], written => (true, written)
  | i, line :: rest, written =>
    match write i with
    | some n => (false, written ++ (line ++ ['\n']).take n)
    | none => writeLines write (i + 1) rest (written ++ (line ++ ['\n']))

/-- `persist_entries` of the map in memory. -/
def persistEntries (steps : Steps) (r : SharedRegistry) :
    Except RegistryError Unit × SharedRegistry :=
  if steps.create = false then (.error .io, r)
  else
    let ordered := r.entries.entries.mergeSort Registry.keyLe
    match writeLines steps.write 0 (ordered.map fun e => Registry.entryLine e.1.1 e.2) [] with
    | (false, written) => (.error .io, { r with temporary := some written })
    | (true, written) =>
      if steps.sync = false then (.error .io, { r with temporary := some written })
      else if steps.rename = false then (.error .io, { r with temporary := some written })
      else (.ok (), { r with file := some written, temporary := none })

/-! ## Calls -/

/-- The loop of `ensure_topic`, with `changed`. -/
def insertVacant (cfg : Settings) (topic : String) : List Nat → Bool → Table → Bool × Table
  | [], changed, entries => (changed, entries)
  | partition :: rest, changed, entries =>
    match entries.lookup (topic, partition) with
    | some _ => insertVacant cfg topic rest changed entries
    | none => insertVacant cfg topic rest true
        (entries.insert (topic, partition) (initialLeadership (cfg.cluster partition)))

/-- `LeadershipRegistry::ensure_topic`. -/
def ensureTopic (cfg : Settings) (steps : Steps) (r : SharedRegistry) (topic : String)
    (partitions : Nat) : Except RegistryError Unit × SharedRegistry :=
  if r.poisoned then (.error .poisoned, r)
  else
    match insertVacant cfg topic (List.range partitions) false r.entries with
    | (changed, entries) =>
      if changed then persistEntries steps { r with entries } else (.ok (), { r with entries })

/-- `LeadershipRegistry::partition`. -/
def partition (r : SharedRegistry) (topic : String) (partition : Nat) :
    Except RegistryError PartitionLeadership :=
  if r.poisoned then .error .poisoned
  else
    match r.entries.lookup (topic, partition) with
    | some l => .ok l
    | none => .error (.missingPartition partition)

/-- `LeadershipRegistry::apply`; `applyEntry` makes the comparisons. -/
def apply (cfg : Settings) (steps : Steps) (r : SharedRegistry) (topic : String)
    (l : PartitionLeadership) : Except RegistryError Unit × SharedRegistry :=
  if cfg.nodes.contains l.leaderId = false then
    (.error (.leadership (.unknownBroker l.leaderId)), r)
  else if r.poisoned then (.error .poisoned, r)
  else
    match applyEntry (cfg.cluster l.partition) (r.entries.lookup (topic, l.partition)) l with
    | .error e => (.error (.leadership e), r)
    | .ok _ =>
      if r.entries.lookup (topic, l.partition) = some l then (.ok (), r)
      else persistEntries steps { r with entries := r.entries.insert (topic, l.partition) l }

/-- `LeadershipRegistry::migrate_high_watermark`. -/
def migrateHighWatermark (steps : Steps) (r : SharedRegistry) (topic : String)
    (partition highWatermark : Nat) : Except RegistryError Unit × SharedRegistry :=
  if r.poisoned then (.error .poisoned, r)
  else
    match r.entries.lookup (topic, partition) with
    | none => (.error (.missingPartition partition), r)
    | some l =>
      if l.highWatermark ≠ U64_MAX then (.ok (), r)
      else persistEntries steps
        { r with entries := r.entries.insert (topic, partition) { l with highWatermark } }

/-- The calls that change the map. -/
inductive Call where
  | ensureTopic (topic : String) (partitions : Nat)
  | apply (topic : String) (l : PartitionLeadership)
  | migrateHighWatermark (topic : String) (partition highWatermark : Nat)
  deriving DecidableEq, Repr

def call (cfg : Settings) (steps : Steps) (r : SharedRegistry) :
    Call → Except RegistryError Unit × SharedRegistry
  | .ensureTopic topic partitions => r.ensureTopic cfg steps topic partitions
  | .apply topic l => r.apply cfg steps topic l
  | .migrateHighWatermark topic partition highWatermark =>
    r.migrateHighWatermark steps topic partition highWatermark

/-! ## What is written -/

section Persist

variable {cfg : Settings} {steps : Steps} {r : SharedRegistry} {topic : String}

theorem writeLines_ok : ∀ {ls : List (List Char)} {write : Nat → Option Nat} {i : Nat}
    {before written : List Char}, writeLines write i ls before = (true, written) →
      written = before ++ unlines ls
  | [], _, _, _, _, h => by
    cases h
    simp [unlines]
  | line :: ls, write, i, before, written, h => by
    unfold writeLines at h
    split at h
    · cases h
    · rw [writeLines_ok h]
      simp [unlines, List.append_assoc]

/-- **`persist_entries`** succeeds with the text in `leadership.meta`, or fails and leaves it as it
was.  Nothing else is touched but the temporary file. -/
theorem persistEntries_cases :
    ((persistEntries steps r).1 = .ok () ∧
      (persistEntries steps r).2 =
        { r with file := some (Registry.persistEntries r.entries), temporary := none }) ∨
    ((persistEntries steps r).1 = .error .io ∧
      ∃ temporary, (persistEntries steps r).2 = { r with temporary }) := by
  unfold persistEntries
  split
  · exact Or.inr ⟨rfl, r.temporary, rfl⟩
  dsimp only
  split
  · exact Or.inr ⟨rfl, _, rfl⟩
  · rename_i written hwrite
    split
    · exact Or.inr ⟨rfl, _, rfl⟩
    split
    · exact Or.inr ⟨rfl, _, rfl⟩
    · have htext : written = Registry.persistEntries r.entries := by
        simpa [Registry.persistEntries] using writeLines_ok hwrite
      exact Or.inl ⟨rfl, by rw [htext]⟩

@[simp] theorem persistEntries_entries : (persistEntries steps r).2.entries = r.entries := by
  rcases persistEntries_cases with ⟨_, h⟩ | ⟨_, _, h⟩ <;> rw [h]

@[simp] theorem persistEntries_poisoned : (persistEntries steps r).2.poisoned = r.poisoned := by
  rcases persistEntries_cases with ⟨_, h⟩ | ⟨_, _, h⟩ <;> rw [h]

theorem persistEntries_error {e : RegistryError} (h : (persistEntries steps r).1 = .error e) :
    (persistEntries steps r).2.file = r.file := by
  rcases persistEntries_cases with ⟨hok, _⟩ | ⟨_, _, hr⟩
  · rw [hok] at h
    cases h
  · rw [hr]

/-- The registry of the requests, whose file is rewritten or not. -/
theorem persistEntries_registry : ∃ succeeds, ∀ before : Table,
    Registry.persist succeeds ⟨before, r.file⟩ r.entries =
      ((persistEntries steps r).1, (persistEntries steps r).2.registry) := by
  rcases @persistEntries_cases steps r with ⟨hok, hr⟩ | ⟨herr, temporary, hr⟩
  · refine ⟨true, fun _ => ?_⟩
    rw [hok, hr]
    rfl
  · refine ⟨false, fun _ => ?_⟩
    rw [herr, hr]
    rfl

end Persist

/-! ## What a call does to the map -/

section Entries

variable {cfg : Settings} {steps : Steps} {r : SharedRegistry} {topic : String}

/-- **The loop of `ensure_topic`**: the vacant partitions get their first entry and the others keep
theirs. -/
theorem insertVacant_lookup (k : String × Nat) : ∀ {ps : List Nat} {changed : Bool}
    {entries : Table}, (insertVacant cfg topic ps changed entries).2.lookup k =
      if k.1 = topic ∧ k.2 ∈ ps then
        some ((entries.lookup k).getD (initialLeadership (cfg.cluster k.2)))
      else entries.lookup k
  | [], _, _ => by simp [insertVacant]
  | p :: ps, changed, entries => by
    -- another key is in the rest of the loop, or in none of it
    have hrest : k ≠ (topic, p) → (k.1 = topic ∧ k.2 ∈ p :: ps ↔ k.1 = topic ∧ k.2 ∈ ps) := by
      intro hk
      refine and_congr_right fun ht => ?_
      rw [List.mem_cons, or_iff_right fun hp => hk (Prod.ext ht hp)]
    unfold insertVacant
    split
    · rename_i l hl
      rw [insertVacant_lookup k]
      by_cases hk : k = (topic, p)
      · subst hk
        simp [hl]
      · exact (if_congr (hrest hk) rfl rfl).symm
    · rename_i hnone
      rw [insertVacant_lookup k]
      by_cases hk : k = (topic, p)
      · subst hk
        simp [hnone]
      · rw [AList.lookup_insert_ne hk]
        exact (if_congr (hrest hk) rfl rfl).symm

/-- `changed` says whether a partition was vacant. -/
theorem insertVacant_changed : ∀ {ps : List Nat} {changed : Bool} {entries : Table},
    (insertVacant cfg topic ps changed entries).1 = true ↔
      changed = true ∨ ∃ p ∈ ps, entries.lookup (topic, p) = none
  | [], _, _ => by simp [insertVacant]
  | p :: ps, changed, entries => by
    unfold insertVacant
    split
    · rename_i l hl
      simp [insertVacant_changed, hl]
    · rename_i hnone
      simp [insertVacant_changed, hnone]

theorem insertVacant_unchanged : ∀ {ps : List Nat} {changed : Bool} {entries : Table},
    (insertVacant cfg topic ps changed entries).1 = false →
      (insertVacant cfg topic ps changed entries).2 = entries
  | [], _, _, _ => rfl
  | p :: ps, changed, entries, h => by
    unfold insertVacant at h ⊢
    split at h
    · exact insertVacant_unchanged h
    · have htrue := (@insertVacant_changed cfg topic ps true (entries.insert (topic, p)
        (initialLeadership (cfg.cluster p)))).2 (Or.inl rfl)
      rw [h] at htrue
      cases htrue

/-- How the map changes by a call.  The file is not part of it. -/
inductive Changed (cfg : Settings) (r : SharedRegistry) : Call → Table → Prop
  | ensureTopic (topic : String) (partitions : Nat) : Changed cfg r (.ensureTopic topic partitions)
      (insertVacant cfg topic (List.range partitions) false r.entries).2
  | apply (topic : String) (l : PartitionLeadership) (hnode : l.leaderId ∈ cfg.nodes) :
      Changed cfg r (.apply topic l) (r.entries.insert (topic, l.partition) l)
  | migrate (topic : String) (partition highWatermark : Nat) {l : PartitionLeadership}
      (hl : r.entries.lookup (topic, partition) = some l) :
      Changed cfg r (.migrateHighWatermark topic partition highWatermark)
        (r.entries.insert (topic, partition) { l with highWatermark })

/-- **A call** leaves the registry alone or changes the map and comes to write it; only then the
file can change. -/
theorem call_cases (c : Call) :
    (call cfg steps r c).2 = r ∨
    ∃ entries, Changed cfg r c entries ∧
      call cfg steps r c = persistEntries steps { r with entries } := by
  cases c with
  | ensureTopic topic partitions =>
    simp only [call, ensureTopic]
    split
    · exact Or.inl rfl
    split
    · exact Or.inr ⟨_, .ensureTopic topic partitions, rfl⟩
    · rename_i hchanged
      refine Or.inl ?_
      rw [insertVacant_unchanged (by simpa using hchanged)]
  | apply topic l =>
    simp only [call, apply]
    split
    · exact Or.inl rfl
    rename_i hnode
    split
    · exact Or.inl rfl
    split
    · exact Or.inl rfl
    split
    · exact Or.inl rfl
    · exact Or.inr ⟨_, .apply topic l (by simpa using hnode), rfl⟩
  | migrateHighWatermark topic partition highWatermark =>
    simp only [call, migrateHighWatermark]
    split
    · exact Or.inl rfl
    split
    · exact Or.inl rfl
    rename_i l hl
    split
    · exact Or.inl rfl
    · exact Or.inr ⟨_, .migrate topic partition highWatermark hl, rfl⟩

end Entries

/-! ## Against the registry of the requests -/

section Refinement

variable {cfg : Settings} {steps : Steps} {r : SharedRegistry} {topic : String}

/-- `apply` is that of the registry, whose file is rewritten or not. -/
theorem apply_refines_registry (l : PartitionLeadership) (hlock : r.poisoned = false) :
    ∃ succeeds, r.registry.apply cfg succeeds topic l =
      ((r.apply cfg steps topic l).1, (r.apply cfg steps topic l).2.registry) := by
  obtain ⟨succeeds, hpersist⟩ := @persistEntries_registry steps
    { r with entries := r.entries.insert (topic, l.partition) l }
  refine ⟨succeeds, ?_⟩
  unfold Registry.apply apply
  dsimp only [registry]
  by_cases hnode : cfg.nodes.contains l.leaderId = false
  · have hunknown : applyEntry (cfg.cluster l.partition) (r.entries.lookup (topic, l.partition)) l =
        .error (.unknownBroker l.leaderId) := if_pos hnode
    rw [if_pos hnode, hunknown]
  · rw [if_neg hnode, if_neg (by simp [hlock])]
    cases happ : applyEntry (cfg.cluster l.partition) (r.entries.lookup (topic, l.partition)) l with
    | error e => rfl
    | ok _ =>
      by_cases hsame : r.entries.lookup (topic, l.partition) = some l
      · exact (if_pos hsame).trans (by rw [if_pos hsame])
      · exact (if_neg hsame).trans (by rw [if_neg hsame]; exact hpersist r.entries)

theorem ensureTopic_view (partitions : Nat) (hlock : r.poisoned = false) :
    (r.ensureTopic cfg steps topic partitions).2.registry.view =
      r.registry.view.insertVacant cfg topic partitions := by
  have hview : ∀ t p, (insertVacant cfg topic (List.range partitions) false r.entries).2.lookup
      (t, p) = r.registry.view.insertVacant cfg topic partitions t p := by
    intro t p
    rw [insertVacant_lookup]
    simp only [List.mem_range, Entries.insertVacant, Registry.view, registry]
  funext t p
  rw [← hview t p]
  unfold ensureTopic
  rw [hlock, if_neg Bool.false_ne_true]
  dsimp only
  split
  · simp [Registry.view, registry]
  · rfl

/-- `ensure_topic` on the files is that of the requests, whose write succeeds or fails. -/
theorem ensureTopic_refines_entries (partitions : Nat) (hlock : r.poisoned = false) :
    ∃ persists, (r.registry.view.ensureTopic cfg persists topic partitions).2 =
        (r.ensureTopic cfg steps topic partitions).2.registry.view ∧
      ((r.registry.view.ensureTopic cfg persists topic partitions).1 = .ok () ↔
        (r.ensureTopic cfg steps topic partitions).1 = .ok ()) := by
  refine ⟨fun _ => (r.ensureTopic cfg steps topic partitions).1 = .ok (), ?_, ?_⟩
  · rw [Entries.ensureTopic_entries, ensureTopic_view partitions hlock]
  unfold Entries.ensureTopic
  split
  · rename_i hall
    have hsame : (insertVacant cfg topic (List.range partitions) false r.entries).1 = false := by
      rw [Bool.eq_false_iff]
      intro hchanged
      rcases insertVacant_changed.1 hchanged with hfalse | ⟨p, hp, hnone⟩
      · cases hfalse
      · have hsome := List.all_eq_true.1 hall p hp
        rw [show r.registry.view topic p = none from hnone] at hsome
        cases hsome
    have hok : (r.ensureTopic cfg steps topic partitions).1 = .ok () := by
      unfold ensureTopic
      rw [hlock, if_neg Bool.false_ne_true]
      dsimp only
      rw [hsame, if_neg Bool.false_ne_true]
    exact iff_of_true rfl hok
  · exact Entries.persist_ok_iff.trans decide_eq_true_iff

theorem migrate_refines_entries (partition highWatermark : Nat) (hlock : r.poisoned = false) :
    ∃ persists, (r.registry.view.migrate persists topic partition highWatermark).2 =
        (r.migrateHighWatermark steps topic partition highWatermark).2.registry.view ∧
      ((r.registry.view.migrate persists topic partition highWatermark).1 = .ok () ↔
        (r.migrateHighWatermark steps topic partition highWatermark).1 = .ok ()) := by
  obtain ⟨written, hwritten⟩ : ∃ written : Bool, written = true ↔
      (r.migrateHighWatermark steps topic partition highWatermark).1 = .ok () :=
    ⟨_, decide_eq_true_iff⟩
  refine ⟨fun _ => written, ?_⟩
  unfold migrateHighWatermark at hwritten ⊢
  unfold Entries.migrate
  rw [hlock, if_neg Bool.false_ne_true] at hwritten ⊢
  have hview : r.registry.view topic partition = r.entries.lookup (topic, partition) := rfl
  rw [hview]
  cases hl : r.entries.lookup (topic, partition) with
  | none => exact ⟨rfl, by simp⟩
  | some l =>
    have hlimit : (2 ^ 64 - 1 : Nat) = U64_MAX := rfl
    simp only [hlimit, hl] at hwritten ⊢
    by_cases hmax : l.highWatermark ≠ U64_MAX
    · rw [if_pos hmax, if_pos hmax]
      exact ⟨rfl, iff_of_true rfl rfl⟩
    · rw [if_neg hmax] at hwritten
      rw [if_neg hmax, if_neg hmax]
      refine ⟨?_, Entries.persist_ok_iff.trans hwritten⟩
      rw [Entries.persist_entries]
      funext t p
      simp only [Registry.view, registry, persistEntries_entries, Entries.insert]
      by_cases hk : t = topic ∧ p = partition
      · rw [if_pos hk, hk.1, hk.2, AList.lookup_insert]
      · rw [if_neg hk, AList.lookup_insert_ne fun heq =>
          hk ⟨congrArg Prod.fst heq, congrArg Prod.snd heq⟩]

end Refinement

/-! ## The map is read back -/

/-- The arguments of a call: a topic of the storage worker and values of the types. -/
def Call.Fits : Call → Prop
  | .ensureTopic topic partitions => Storage.validateTopic topic = .ok () ∧ partitions ≤ U32_MAX
  | .apply topic l => Storage.validateTopic topic = .ok () ∧ Registry.Fits l
  | .migrateHighWatermark topic partition highWatermark =>
    Storage.validateTopic topic = .ok () ∧ partition ≤ U32_MAX ∧ highWatermark ≤ U64_MAX

/-- What happens to a registry: a call, with whatever its file operations do, or a restart. -/
inductive Act where
  | call (c : Call) (steps : Steps)
  | reopen

def act (cfg : Settings) (r : SharedRegistry) : Act → Option SharedRegistry
  | .call c steps => some (r.call cfg steps c).2
  | .reopen => r.reopen.toOption

def Act.Fits : Act → Prop
  | .call c _ => c.Fits
  | .reopen => True

/-- Every entry of the map can be written. -/
def Writable (entries : Table) : Prop :=
  ∀ k l, entries.lookup k = some l → Registry.Writable k l

section RoundTrip

variable {cfg : Settings} {steps : Steps} {r r' : SharedRegistry} {topic : String}

theorem Writable.insert {entries : Table} (h : Writable entries) {k : String × Nat}
    {l : PartitionLeadership} (hl : Registry.Writable k l) : Writable (entries.insert k l) := by
  intro k' l' hl'
  by_cases hk : k' = k
  · rw [hk, AList.lookup_insert] at hl'
    cases hl'
    rw [hk]
    exact hl
  · rw [AList.lookup_insert_ne hk] at hl'
    exact h k' l' hl'

/-- The first entry of a partition can be written. -/
theorem writable_initialLeadership {partition : Nat} (hnodes : ∀ b ∈ cfg.nodes, b ≤ U32_MAX)
    (ht : Storage.validateTopic topic = .ok ()) (hp : partition ≤ U32_MAX) :
    Registry.Writable (topic, partition) (initialLeadership (cfg.cluster partition)) :=
  ⟨Registry.plain_of_validateTopic ht, rfl,
    ⟨hp, hnodes _ (cfg.cluster partition).deterministicLeader_mem, Nat.zero_le _, Nat.zero_le _⟩⟩

/-- **A call** keeps the map writable. -/
theorem Changed.writable {c : Call} {entries : Table} (hnodes : ∀ b ∈ cfg.nodes, b ≤ U32_MAX)
    (hc : c.Fits) (h : Writable r.entries) (hchanged : Changed cfg r c entries) :
    Writable entries := by
  cases hchanged with
  | ensureTopic topic partitions =>
    obtain ⟨ht, hn⟩ := hc
    intro k l hl
    rw [insertVacant_lookup] at hl
    split at hl
    · rename_i hk
      cases hl
      cases hold : r.entries.lookup k with
      | some l => exact h k l hold
      | none =>
        have hp : k.2 ≤ U32_MAX := by
          have := List.mem_range.1 hk.2
          omega
        have hwritable := writable_initialLeadership hnodes ht hp
        rw [← hk.1] at hwritable
        exact hwritable
    · exact h k l hl
  | apply topic l hnode => exact h.insert ⟨Registry.plain_of_validateTopic hc.1, rfl, hc.2⟩
  | migrate topic partition highWatermark hl =>
    have hold := h _ _ hl
    exact h.insert ⟨hold.topic, hold.partition,
      ⟨hold.fits.partition, hold.fits.leaderId, hold.fits.leaderEpoch, hc.2.2⟩⟩

theorem writable_reopen (h : r.reopen = .ok r') : Writable r'.entries := by
  unfold reopen at h
  split at h
  · cases h
  · rename_i opened hopen
    cases h
    exact (Registry.sound_openFile hopen).writable

theorem writable_act {a : Act} (hnodes : ∀ b ∈ cfg.nodes, b ≤ U32_MAX) (h : Writable r.entries)
    (ha : a.Fits) (hstep : act cfg r a = some r') : Writable r'.entries := by
  cases a with
  | call c steps =>
    cases hstep
    rcases call_cases c with hsame | ⟨entries, hchanged, hpersist⟩
    · rw [hsame]
      exact h
    · rw [hpersist, persistEntries_entries]
      exact hchanged.writable hnodes ha h
  | reopen =>
    unfold act at hstep
    cases hopen : r.reopen with
    | error e =>
      rw [hopen] at hstep
      cases hstep
    | ok opened =>
      rw [hopen] at hstep
      cases hstep
      exact writable_reopen hopen

/-- **`leadership.meta` round trip.**  A registry is opened on any file that is accepted; after any
calls with valid arguments, whatever their file operations do, and any restarts, the text written
for its map is read as the same map.  So is the text written for any map that was read. -/
theorem leadership_file_round_trip (hnodes : ∀ b ∈ cfg.nodes, b ≤ U32_MAX) :
    (∀ start r r' : SharedRegistry, ∀ acts : List Act, start.reopen = .ok r →
      (∀ a ∈ acts, a.Fits) → run (act cfg) r acts = some r' →
        ∃ entries, Registry.parseEntries (Registry.persistEntries r'.entries) = .ok entries ∧
          ∀ k, entries.lookup k = r'.entries.lookup k) ∧
    (∀ (contents : List Char) (entries : Table), Registry.parseEntries contents = .ok entries →
      ∃ entries', Registry.parseEntries (Registry.persistEntries entries) = .ok entries' ∧
        ∀ k, entries'.lookup k = entries.lookup k) := by
  constructor
  · intro start r r' acts hopen hacts hrun
    have hstep : ∀ s a s', Writable s.entries → a.Fits → act cfg s a = some s' →
        Writable s'.entries := fun s a s' hs ha hstep => writable_act hnodes hs ha hstep
    exact Registry.parse_persist
      (run_invariant hstep (writable_reopen hopen) (Along.of_mem hacts) hrun)
  · intro contents entries hparse
    have hopen : Registry.openFile (some contents) = .ok ⟨entries, some contents⟩ := by
      simp only [Registry.openFile, hparse]
    exact Registry.parse_persist (Registry.sound_openFile hopen).writable

end RoundTrip

/-- A registry opened on a file of an earlier version, without watermarks. -/
def legacyRegistry : SharedRegistry :=
  ⟨false, (∅ : Table).insert ("orders", 0) ⟨0, 2, 7, U64_MAX⟩,
    some "orders\t0\t2\t7\r\n".toList, none⟩

/-- A migrated watermark, a leadership with the greatest values and a second partition; no write
succeeds. -/
def legacyActs : List Act :=
  [.call (.migrateHighWatermark "orders" 0 9) .noSpace,
    .call (.apply "orders" ⟨U32_MAX, 3, U64_MAX, U64_MAX⟩) .noSpace,
    .call (.ensureTopic "orders" 2) .noSpace]

theorem leadership_file_round_trip_legacy :
    ∃ r', run (act Registry.threeBrokers) legacyRegistry legacyActs = some r' ∧
      r'.entries.lookup ("orders", 0) = some ⟨0, 2, 7, 9⟩ ∧
      ∃ entries, Registry.parseEntries (Registry.persistEntries r'.entries) = .ok entries ∧
        ∀ k, entries.lookup k = r'.entries.lookup k := by
  refine ⟨_, rfl, rfl, ?_⟩
  refine (@leadership_file_round_trip Registry.threeBrokers (by decide)).1
    ⟨false, ∅, legacyRegistry.file, none⟩ legacyRegistry _ legacyActs rfl ?_ rfl
  intro a ha
  simp only [legacyActs, List.mem_cons, List.not_mem_nil, or_false] at ha
  rcases ha with rfl | rfl | rfl
  · exact ⟨by decide, by decide, by decide⟩
  · exact ⟨by decide, by constructor <;> decide⟩
  · exact ⟨by decide, by decide⟩

/-! ## Errors -/

/-- Opening `leadership.meta` gives the entries of the memory. -/
def Matches (r : SharedRegistry) : Prop :=
  ∃ opened, r.reopen = .ok opened ∧ ∀ k, opened.entries.lookup k = r.entries.lookup k

/-- The call left every answer of `partition` as it was, and the file still gives the entries of
the memory. -/
structure Atomic (before after : SharedRegistry) : Prop where
  partition : ∀ topic partition, after.partition topic partition = before.partition topic partition
  saved : after.Matches

/-- The call does not come to a change of the map: the lock is poisoned, `apply` refuses the
leadership, or `migrate_high_watermark` finds no entry or has the value it replaces. -/
def Refuses (cfg : Settings) (r : SharedRegistry) : Call → Prop
  | .ensureTopic _ _ => r.poisoned = true
  | .apply topic l => r.poisoned = true ∨
    ∃ e, applyEntry (cfg.cluster l.partition) (r.entries.lookup (topic, l.partition)) l = .error e
  | .migrateHighWatermark topic partition highWatermark => r.poisoned = true ∨
    r.entries.lookup (topic, partition) = none ∨ highWatermark = U64_MAX

section Errors

variable {cfg : Settings} {steps : Steps} {r r' : SharedRegistry} {c : Call} {e : RegistryError}

/-- A call that fails leaves `leadership.meta` and the lock alone. -/
theorem call_error (h : (r.call cfg steps c).1 = .error e) :
    (r.call cfg steps c).2.file = r.file ∧ (r.call cfg steps c).2.poisoned = r.poisoned := by
  rcases @call_cases cfg steps r c with hsame | ⟨entries, _, hpersist⟩
  · rw [hsame]
    exact ⟨rfl, rfl⟩
  · rw [hpersist] at h ⊢
    exact ⟨persistEntries_error h, persistEntries_poisoned⟩

theorem call_poisoned (h : r.poisoned = true) : (r.call cfg steps c).2 = r := by
  cases c with
  | ensureTopic topic partitions => simp [call, ensureTopic, h]
  | apply topic l =>
    simp only [call, apply, h, if_true]
    split <;> rfl
  | migrateHighWatermark topic partition highWatermark => simp [call, migrateHighWatermark, h]

/-- With the file and the lock left alone, atomicity is a matter of the map. -/
theorem atomic_iff (h : r.Matches) (hfile : r'.file = r.file) (hlock : r.poisoned = false)
    (hlock' : r'.poisoned = false) :
    Atomic r r' ↔ ∀ k, r'.entries.lookup k = r.entries.lookup k := by
  constructor
  · intro hatomic k
    have hk := hatomic.partition k.1 k.2
    unfold partition at hk
    rw [hlock, hlock', if_neg Bool.false_ne_true, if_neg Bool.false_ne_true] at hk
    cases hnew : r'.entries.lookup k with
    | none =>
      cases hold : r.entries.lookup k with
      | none => rfl
      | some l => simp [hnew, hold] at hk
    | some l' =>
      cases hold : r.entries.lookup k with
      | none => simp [hnew, hold] at hk
      | some l =>
        simp only [hnew, hold, Except.ok.injEq] at hk
        rw [hk]
  · intro hsame
    obtain ⟨opened, hopen, hlookup⟩ := h
    refine ⟨fun t p => ?_, ⟨false, opened.entries, opened.file, r'.temporary⟩, ?_, fun k => ?_⟩
    · simp only [partition, hlock, hlock', hsame]
    · unfold reopen at hopen ⊢
      rw [hfile]
      split at hopen
      · cases hopen
      · cases hopen
        rfl
    · rw [hsame k]
      exact hlookup k

/-- An entry that is inserted and was not there before changes the map. -/
theorem lookup_insert_changed {entries : Table} {k : String × Nat} {l : PartitionLeadership}
    (h : entries.lookup k ≠ some l) :
    ¬ ∀ k', (entries.insert k l).lookup k' = entries.lookup k' := by
  intro hsame
  have hk := hsame k
  rw [AList.lookup_insert] at hk
  exact h hk.symm

/-- **The map after a call that failed** is the map before it only if the call refused. -/
theorem lookup_same_iff (hlock : r.poisoned = false) (h : (r.call cfg steps c).1 = .error e) :
    (∀ k, (r.call cfg steps c).2.entries.lookup k = r.entries.lookup k) ↔ r.Refuses cfg c := by
  cases c with
  | ensureTopic topic partitions =>
    -- the only error is that of `persist_entries`, after a partition was found vacant
    simp only [call, ensureTopic, hlock, Bool.false_eq_true, if_false] at h ⊢
    split at h
    · rename_i hchanged
      rw [if_pos hchanged, persistEntries_entries]
      refine iff_of_false (fun hsame => ?_) (by simp [Refuses, hlock])
      rcases insertVacant_changed.1 hchanged with hfalse | ⟨p, hp, hnone⟩
      · cases hfalse
      · have hk := hsame (topic, p)
        rw [insertVacant_lookup, if_pos ⟨rfl, hp⟩, hnone] at hk
        cases hk
    · cases h
  | apply topic l =>
    simp only [call, apply, hlock, Bool.false_eq_true, if_false] at h ⊢
    simp only [Refuses, hlock, Bool.false_eq_true, false_or]
    by_cases hnode : cfg.nodes.contains l.leaderId = false
    · rw [if_pos hnode]
      exact iff_of_true (fun _ => rfl) ⟨_, if_pos hnode⟩
    rw [if_neg hnode] at h ⊢
    cases happ : applyEntry (cfg.cluster l.partition) (r.entries.lookup (topic, l.partition)) l with
    | error e' => exact iff_of_true (fun _ => rfl) ⟨e', rfl⟩
    | ok l' =>
      simp only [happ] at h
      split at h
      · cases h
      · rename_i hne
        simp only [if_neg hne, persistEntries_entries]
        refine iff_of_false (lookup_insert_changed hne) ?_
        rintro ⟨e', he'⟩
        cases he'
  | migrateHighWatermark topic partition highWatermark =>
    simp only [call, migrateHighWatermark, hlock, Bool.false_eq_true, if_false] at h ⊢
    simp only [Refuses, hlock, Bool.false_eq_true, false_or]
    cases hl : r.entries.lookup (topic, partition) with
    | none => exact iff_of_true (fun _ => rfl) (Or.inl rfl)
    | some l =>
      simp only [hl] at h
      split at h
      · cases h
      rename_i hmax
      simp only [if_neg hmax, persistEntries_entries]
      rw [not_not] at hmax
      constructor
      · intro hsame
        have hk := hsame (topic, partition)
        rw [AList.lookup_insert, hl] at hk
        exact Or.inr ((congrArg PartitionLeadership.highWatermark (Option.some.inj hk)).trans hmax)
      · rintro (hnone | rfl) k
        · cases hnone
        · by_cases hk : k = (topic, partition)
          · rw [hk, AList.lookup_insert, hl, ← hmax]
          · rw [AList.lookup_insert_ne hk]

/-- **Errors of the registry.**  The file matches the memory and a call returns an error, for
whatever reason.  Then `partition` answers as before and the file still matches the memory if and
only if the call refused before it changed the map. -/
theorem error_atomic_iff (h : r.Matches) (herr : (r.call cfg steps c).1 = .error e) :
    Atomic r (r.call cfg steps c).2 ↔ r.Refuses cfg c := by
  obtain ⟨hfile, hlock'⟩ := call_error herr
  by_cases hlock : r.poisoned = true
  · rw [call_poisoned hlock]
    refine iff_of_true ⟨fun _ _ => rfl, h⟩ ?_
    cases c with
    | ensureTopic topic partitions => exact hlock
    | apply topic l => exact Or.inl hlock
    | migrateHighWatermark topic partition highWatermark => exact Or.inl hlock
  · rw [Bool.not_eq_true] at hlock
    rw [atomic_iff h hfile hlock (hlock'.trans hlock)]
    exact lookup_same_iff hlock herr

/-- A topic whose first write failed is never written by calling again: the entries are there, so
`ensure_topic` returns without `persist_entries`. -/
theorem retried_ensureTopic_unwritten {topic : String} {partitions : Nat} (steps' : Steps)
    (hlock : r.poisoned = false) (h : (r.ensureTopic cfg steps topic partitions).1 = .error e) :
    (r.ensureTopic cfg steps topic partitions).2.ensureTopic cfg steps' topic partitions =
      (.ok (), (r.ensureTopic cfg steps topic partitions).2) := by
  have hlock' := (@call_error cfg steps r (.ensureTopic topic partitions) e h).2.trans hlock
  have hview := @ensureTopic_view cfg steps r topic partitions hlock
  simp only [call] at hlock'
  generalize (r.ensureTopic cfg steps topic partitions).2 = r' at hlock' hview ⊢
  have hfull : (insertVacant cfg topic (List.range partitions) false r'.entries).1 = false := by
    rw [Bool.eq_false_iff]
    intro hchanged
    rcases insertVacant_changed.1 hchanged with hfalse | ⟨p, hp, hnone⟩
    · cases hfalse
    · have hentry : r'.registry.view topic p = none := hnone
      rw [hview, Entries.insertVacant, if_pos ⟨rfl, List.mem_range.1 hp⟩] at hentry
      cases hentry
  unfold ensureTopic
  rw [if_neg (by simp [hlock'])]
  simp only [hfull, Bool.false_eq_true, if_false, insertVacant_unchanged hfull]

/-- A registry with one entry, as it was written. -/
def oneEntry : SharedRegistry :=
  ⟨false, (∅ : Table).insert ("orders", 0) ⟨0, 1, 0, 4⟩, some "orders\t0\t1\t0\t4\n".toList, none⟩

theorem oneEntry_matches : oneEntry.Matches := ⟨oneEntry, rfl, fun _ => rfl⟩

/-- A stale leadership is refused and nothing changed. -/
theorem error_atomic_iff_stale :
    (oneEntry.call Registry.threeBrokers .succeeding (.apply "orders" ⟨0, 2, 0, 9⟩)).1 =
        .error (.leadership .staleEpoch) ∧
      Atomic oneEntry
        (oneEntry.call Registry.threeBrokers .succeeding (.apply "orders" ⟨0, 2, 0, 9⟩)).2 :=
  ⟨rfl, (@error_atomic_iff Registry.threeBrokers .succeeding oneEntry
    (.apply "orders" ⟨0, 2, 0, 9⟩) (.leadership .staleEpoch) oneEntry_matches rfl).2
      (Or.inr ⟨.staleEpoch, rfl⟩)⟩

/-- The temporary file cannot be created: `apply` returns the error, `partition` answers with the
new leader and the file still names the old one. -/
theorem failed_apply_changes_memory :
    oneEntry.Matches ∧
      (oneEntry.call Registry.threeBrokers .noSpace (.apply "orders" ⟨0, 2, 1, 4⟩)).1 = .error .io ∧
      ¬ Atomic oneEntry
        (oneEntry.call Registry.threeBrokers .noSpace (.apply "orders" ⟨0, 2, 1, 4⟩)).2 := by
  refine ⟨oneEntry_matches, rfl, fun h => ?_⟩
  have hpartition := h.partition "orders" 0
  revert hpartition
  decide

end Errors

end SharedRegistry

end SevlaMq.Broker
