import Mathlib.Data.List.Infix
import Mathlib.Data.String.Basic

/-!
# The consumer-group coordinator

Model of `crates/broker/src/groups.rs`.

* `Members` is the `BTreeMap<String, Instant>` of a group: the entries in the order of the ids.
* A hash map that is only looked up is a function; `Env.order` is the order in which the map of
  the groups is iterated during a call.
* Instants are numbers.  `Env.clock` is the reading of the clock when the heartbeat of a member is
  looked at, so it may differ from member to member.
* Offset files are kept by resolved path; `Env` says which file operations of a call fail.
-/

set_option autoImplicit false

namespace SevlaMq.Group

/-- `u64::MAX`. -/
def GENERATION_MAX : Nat := 2 ^ 64 - 1

inductive GroupError where
  | invalidId
  | unknownGroup
  | unknownMember
  | staleGeneration (expected actual : Nat)
  | partitionNotAssigned (partition : Nat)
  | generationOverflow
  | invalidOffsetFile
  | io
  deriving DecidableEq, Repr

/-! ## Members -/

/-- Insertion into a list that is sorted by id. -/
def insertEntry (id : String) (instant : Nat) : List (String × Nat) → List (String × Nat)
  | [] => [(id, instant)]
  | e :: entries =>
    if id < e.1 then (id, instant) :: e :: entries
    else if id = e.1 then (id, instant) :: entries
    else e :: insertEntry id instant entries

theorem mem_insertEntry {id : String} {instant : Nat} {entries : List (String × Nat)}
    {e : String × Nat} (h : e ∈ insertEntry id instant entries) :
    e = (id, instant) ∨ e ∈ entries := by
  induction entries with
  | nil => simpa [insertEntry] using h
  | cons x entries ih =>
    unfold insertEntry at h
    split at h
    · simpa using h
    · split at h
      · rcases List.mem_cons.1 h with h | h
        · exact Or.inl h
        · exact Or.inr (List.mem_cons_of_mem _ h)
      · rcases List.mem_cons.1 h with h | h
        · exact Or.inr (by simp [h])
        · exact (ih h).imp_right (List.mem_cons_of_mem _)

theorem insertEntry_sorted {id : String} {instant : Nat} {entries : List (String × Nat)}
    (h : entries.Pairwise fun x y => x.1 < y.1) :
    (insertEntry id instant entries).Pairwise fun x y => x.1 < y.1 := by
  induction entries with
  | nil => simp [insertEntry]
  | cons x entries ih =>
    rw [List.pairwise_cons] at h
    unfold insertEntry
    split
    · rename_i hlt
      refine List.pairwise_cons.2 ⟨fun y hy => ?_, List.pairwise_cons.2 h⟩
      rcases List.mem_cons.1 hy with rfl | hy
      · exact hlt
      · exact lt_trans hlt (h.1 y hy)
    · split
      · rename_i heq
        subst heq
        exact List.pairwise_cons.2 h
      · rename_i hlt hne
        refine List.pairwise_cons.2 ⟨fun y hy => ?_, ih h.2⟩
        rcases mem_insertEntry hy with rfl | hy
        · exact lt_of_le_of_ne (not_lt.1 hlt) (Ne.symm hne)
        · exact h.1 y hy

/-- The members of a group with the instants of their last heartbeats. -/
@[ext]
structure Members where
  entries : List (String × Nat)
  sorted : entries.Pairwise fun x y => x.1 < y.1

namespace Members

def empty : Members := ⟨[], .nil⟩

def keys (m : Members) : List String := m.entries.map Prod.fst

def insert (m : Members) (id : String) (instant : Nat) : Members :=
  ⟨insertEntry id instant m.entries, insertEntry_sorted m.sorted⟩

def retain (m : Members) (keep : String → Nat → Bool) : Members :=
  ⟨m.entries.filter fun e => keep e.1 e.2, m.sorted.filter _⟩

def remove (m : Members) (id : String) : Members := m.retain fun x _ => x ≠ id

end Members

/-! ## Offset files -/

abbrev Path := List String

/-- The components of a path without `.` and `..`. -/
def resolve (components : List String) : Path :=
  components.foldl (fun path c =>
    if c = "." then path else if c = ".." then path.dropLast else path ++ [c]) []

structure Disk where
  dirs : List Path
  files : Path → Option String

/-- Where `persist_offset` fails. -/
inductive Fault where
  | directory
  | temporary
  | sync
  deriving DecidableEq, Repr

namespace Disk

def setFile (disk : Disk) (path : Path) (contents : Option String) : Disk :=
  { disk with files := fun x => if x = path then contents else disk.files x }

/-- `fs::create_dir_all`. -/
def createDirAll (disk : Disk) (components : List String) : Except GroupError Disk :=
  let paths := components.inits.map resolve
  if paths.any fun p => (disk.files p).isSome then .error .io
  -- the `.` at the end is no component for `Path::parent`: `mkdir` fails below a missing directory
  else if components.getLast? = some "." ∧ resolve components ∉ disk.dirs then .error .io
  else .ok { disk with dirs := disk.dirs ++ paths.filter (· ∉ disk.dirs) }

/-- `fs::read_to_string`; `none` if there is no such file. -/
def readToString (disk : Disk) (components : List String) : Except GroupError (Option String) :=
  let above := components.inits.dropLast.map resolve
  if above.any fun p => (disk.files p).isSome then .error .io
  else if above.any (· ∉ disk.dirs) then .ok none
  else if resolve components ∈ disk.dirs then .error .io
  else .ok (disk.files (resolve components))

/-- The directories in a directory. -/
def readDir (disk : Disk) (path : Path) : List String :=
  disk.dirs.filterMap fun p => if p ≠ [] ∧ p.dropLast = path then p.getLast? else none

end Disk

/-- The characters `str::trim` removes. -/
def isWhiteSpace (c : Char) : Bool :=
  let n := c.toNat
  (9 ≤ n && n ≤ 13) || n = 32 || n = 0x85 || n = 0xA0 || n = 0x1680 || (0x2000 ≤ n && n ≤ 0x200A) ||
    n = 0x2028 || n = 0x2029 || n = 0x202F || n = 0x205F || n = 0x3000

def trim (s : String) : List Char :=
  ((s.toList.dropWhile isWhiteSpace).reverse.dropWhile isWhiteSpace).reverse

/-- `str::parse::<u64>`. -/
def parseU64 (s : List Char) : Option Nat :=
  let digits := match s with
    | '+' :: rest => rest
    | s => s
  if digits = [] ∨ digits.any (fun c => !c.isDigit) then none
  else
    let value := digits.foldl (fun n c => 10 * n + (c.toNat - '0'.toNat)) 0
    if value ≤ GENERATION_MAX then some value else none

/-- `offset_path`, not yet resolved. -/
def offsetPath (root : Path) (group topic : String) (partition : Nat) : List String :=
  root ++ [group, topic, toString partition ++ ".offset"]

/-- `load_offsets`, one partition after the other. -/
def loadOffsets (disk : Disk) (fails : Path → Bool) (root : Path) (group topic : String) :
    Nat → Except GroupError (Nat → Option Nat)
  | 0 => .ok fun _ => none
  | n + 1 =>
    match loadOffsets disk fails root group topic n with
    | .error e => .error e
    | .ok offsets =>
      let path := offsetPath root group topic n
      if fails (resolve path) then .error .io else
      match disk.readToString path with
      | .error e => .error e
      | .ok none => .ok offsets
      | .ok (some contents) =>
        match parseU64 (trim contents) with
        | none => .error .invalidOffsetFile
        | some offset => .ok fun p => if p = n then some offset else offsets p

/-- `persist_offset`. -/
def persistOffset (disk : Disk) (fault : Option Fault) (root : Path) (group topic : String)
    (partition offset : Nat) : Except GroupError Unit × Disk :=
  if fault = some .directory then (.error .io, disk) else
  match disk.createDirAll (root ++ [group, topic]) with
  | .error e => (.error e, disk)
  | .ok disk =>
    let path := resolve (offsetPath root group topic partition)
    let temporary := resolve (root ++ [group, topic, toString partition ++ ".offset.tmp"])
    let contents := toString offset ++ "\n"
    if temporary ∈ disk.dirs then (.error .io, disk)
    else if fault = some .temporary ∨ path ∈ disk.dirs then
      (.error .io, disk.setFile temporary (some contents))
    else
      let disk := (disk.setFile temporary none).setFile path (some contents)
      if fault = some .sync then (.error .io, disk) else (.ok (), disk)

/-- `validate_id`. -/
def validateId (value : String) : Except GroupError Unit :=
  if value.isEmpty ∨ 249 < value.utf8ByteSize ∨
      value.toList.any (fun c => !(c.isAlphanum || c = '.' || c = '_' || c = '-')) then
    .error .invalidId
  else .ok ()

/-! ## One group -/

structure ConsumerGroup where
  generation : Nat
  members : Members
  assignments : String → Option (List Nat)
  committedOffsets : Nat → Option Nat

namespace ConsumerGroup

/-- A group without members. -/
def new (committedOffsets : Nat → Option Nat) : ConsumerGroup :=
  ⟨0, .empty, fun _ => none, committedOffsets⟩

/-- `entry(member).or_default().push(partition)`. -/
def push (assignments : String → Option (List Nat)) (member : String) (partition : Nat) :
    String → Option (List Nat) :=
  fun x => if x = member then some ((assignments member).getD [] ++ [partition]) else assignments x

/-- The loop of `rebalance`. -/
def assign (members : List String) (partitionCount : Nat) : String → Option (List Nat) :=
  (List.range partitionCount).foldl (fun assignments partition =>
    match members[partition % members.length]? with
    | some member => push assignments member partition
    | none => assignments) fun _ => none

/-- `rebalance`. -/
def rebalance (g : ConsumerGroup) (partitionCount : Nat) : Except GroupError Unit × ConsumerGroup :=
  if GENERATION_MAX < g.generation + 1 then (.error .generationOverflow, g)
  else (.ok (), { g with
    generation := g.generation + 1
    assignments :=
      if g.members.keys = [] then fun _ => none else assign g.members.keys partitionCount })

/-- `expire_members`; whether one has expired, and the group without those that have. -/
def expireMembers (g : ConsumerGroup) (timeout : Nat) (clock : String → Nat) :
    Bool × ConsumerGroup :=
  let members := g.members.retain fun m heartbeat => clock m - heartbeat ≤ timeout
  (g.members.keys.length ≠ members.keys.length, { g with members := members })

/-- The head of `active_group` and the body of the loop of `expire_sessions`. -/
def expire (g : ConsumerGroup) (timeout : Nat) (clock : String → Nat) (partitionCount : Nat) :
    Except GroupError Unit × ConsumerGroup :=
  match g.expireMembers timeout clock with
  | (true, g) => g.rebalance partitionCount
  | (false, g) => (.ok (), g)

/-- `validate_member`. -/
def validateMember (g : ConsumerGroup) (member : String) (generation : Nat) :
    Except GroupError Unit :=
  if generation ≠ g.generation then .error (.staleGeneration g.generation generation)
  else if member ∉ g.members.keys then .error .unknownMember
  else .ok ()

/-- Whether the partition is assigned to the member. -/
def owns (g : ConsumerGroup) (member : String) (partition : Nat) : Bool :=
  (g.assignments member).any (·.contains partition)

end ConsumerGroup

/-! ## The coordinator -/

/-- Group and topic. -/
abbrev Key := String × String

/-- What a call finds around it. -/
structure Env where
  now : Nat
  clock : Key → String → Nat
  order : List Key
  readFails : Path → Bool
  fault : Option Fault

structure GroupIdentity where
  group : String
  topic : String
  member : String
  generation : Nat
  deriving DecidableEq, Repr

def GroupIdentity.key (id : GroupIdentity) : Key := (id.group, id.topic)

structure Coordinator where
  offsetsDir : Path
  defaultPartitionCount : Nat
  topicPartitionCounts : String → Option Nat
  sessionTimeout : Nat
  groups : Key → Option ConsumerGroup
  disk : Disk

namespace Coordinator

def partitionCount (c : Coordinator) (topic : String) : Nat :=
  (c.topicPartitionCounts topic).getD c.defaultPartitionCount

def setGroup (c : Coordinator) (key : Key) (g : ConsumerGroup) : Coordinator :=
  { c with groups := fun x => if x = key then some g else c.groups x }

/-- The topics of one group in `recover_groups`. -/
def recoverTopics (disk : Disk) (root : Path) (partitionCount : Nat) (group : String) :
    List String → (Key → Option ConsumerGroup) → Except GroupError (Key → Option ConsumerGroup)
  | [], groups => .ok groups
  | topic :: topics, groups =>
    match validateId topic with
    | .error e => .error e
    | .ok () =>
      match loadOffsets disk (fun _ => false) root group topic partitionCount with
      | .error e => .error e
      | .ok offsets =>
        recoverTopics disk root partitionCount group topics fun x =>
          if x = (group, topic) then some (.new offsets) else groups x

/-- `recover_groups`. -/
def recoverGroups (disk : Disk) (root : Path) (partitionCount : Nat) :
    List String → (Key → Option ConsumerGroup) → Except GroupError (Key → Option ConsumerGroup)
  | [], groups => .ok groups
  | group :: rest, groups =>
    match validateId group with
    | .error e => .error e
    | .ok () =>
      match recoverTopics disk root partitionCount group (disk.readDir (root ++ [group])) groups with
      | .error e => .error e
      | .ok groups => recoverGroups disk root partitionCount rest groups

/-- `GroupCoordinator::open`. -/
def openDir (disk : Disk) (dataDir : Path) (partitionCount sessionTimeout : Nat) :
    Except GroupError Coordinator :=
  let offsetsDir := dataDir ++ ["__consumer_offsets"]
  match disk.createDirAll offsetsDir with
  | .error e => .error e
  | .ok disk =>
    match recoverGroups disk offsetsDir partitionCount (disk.readDir offsetsDir) fun _ => none with
    | .error e => .error e
    | .ok groups => .ok ⟨offsetsDir, partitionCount, fun _ => none, sessionTimeout, groups, disk⟩

/-- `active_group`. -/
def activeGroup (c : Coordinator) (env : Env) (key : Key) :
    Except GroupError ConsumerGroup × Coordinator :=
  match c.groups key with
  | none => (.error .unknownGroup, c)
  | some g =>
    match g.expire c.sessionTimeout (env.clock key) (c.partitionCount key.2) with
    | (.error e, g) => (.error e, c.setGroup key g)
    | (.ok (), g) => (.ok g, c.setGroup key g)

/-- `active_group` followed by `validate_member`. -/
def activeMember (c : Coordinator) (env : Env) (id : GroupIdentity) :
    Except GroupError ConsumerGroup × Coordinator :=
  match c.activeGroup env id.key with
  | (.error e, c) => (.error e, c)
  | (.ok g, c) =>
    match g.validateMember id.member id.generation with
    | .error e => (.error e, c)
    | .ok () => (.ok g, c)

/-- The group that `join` works on, a new one with the offsets on disk if there is none. -/
def joinedGroup (c : Coordinator) (env : Env) (key : Key) : Except GroupError ConsumerGroup :=
  match c.groups key with
  | some g => .ok g
  | none =>
    match loadOffsets c.disk env.readFails c.offsetsDir key.1 key.2 (c.partitionCount key.2) with
    | .error e => .error e
    | .ok offsets => .ok (.new offsets)

/-- What `join` does to the group. -/
def joinMember (c : Coordinator) (env : Env) (key : Key) (member : String) (g : ConsumerGroup) :
    Except GroupError Unit × ConsumerGroup :=
  let (membersExpired, g) := g.expireMembers c.sessionTimeout (env.clock key)
  let isNew := member ∉ g.members.keys
  let g := { g with members := g.members.insert member env.now }
  if isNew ∨ membersExpired ∨ g.generation = 0 then g.rebalance (c.partitionCount key.2)
  else (.ok (), g)

/-- `join`. -/
def join (c : Coordinator) (env : Env) (group topic member : String) :
    Except GroupError (Nat × List Nat) × Coordinator :=
  match validateId group, validateId topic, validateId member with
  | .ok (), .ok (), .ok () =>
    let key := (group, topic)
    match c.joinedGroup env key with
    | .error e => (.error e, c)
    | .ok g =>
      match c.joinMember env key member g with
      | (.error e, g) => (.error e, c.setGroup key g)
      | (.ok (), g) => (.ok (g.generation, (g.assignments member).getD []), c.setGroup key g)
  | _, _, _ => (.error .invalidId, c)

/-- `heartbeat`. -/
def heartbeat (c : Coordinator) (env : Env) (id : GroupIdentity) :
    Except GroupError Unit × Coordinator :=
  match c.activeMember env id with
  | (.error e, c) => (.error e, c)
  | (.ok g, c) => (.ok (), c.setGroup id.key { g with members := g.members.insert id.member env.now })

/-- `leave`. -/
def leave (c : Coordinator) (env : Env) (id : GroupIdentity) :
    Except GroupError Unit × Coordinator :=
  match c.activeMember env id with
  | (.error e, c) => (.error e, c)
  | (.ok g, c) =>
    let (res, g) := { g with members := g.members.remove id.member }.rebalance
      (c.partitionCount id.topic)
    (res, c.setGroup id.key g)

/-- `authorize_fetch`. -/
def authorizeFetch (c : Coordinator) (env : Env) (id : GroupIdentity) (partition : Nat) :
    Except GroupError Unit × Coordinator :=
  match c.activeMember env id with
  | (.error e, c) => (.error e, c)
  | (.ok g, c) =>
    if g.owns id.member partition then (.ok (), c) else (.error (.partitionNotAssigned partition), c)

/-- `commit`. -/
def commit (c : Coordinator) (env : Env) (id : GroupIdentity) (partition offset : Nat) :
    Except GroupError Unit × Coordinator :=
  match c.activeMember env id with
  | (.error e, c) => (.error e, c)
  | (.ok g, c) =>
    if g.owns id.member partition then
      match persistOffset c.disk env.fault c.offsetsDir id.group id.topic partition offset with
      | (.error e, disk) => (.error e, { c with disk := disk })
      | (.ok (), disk) => (.ok (), { c with disk := disk }.setGroup id.key { g with
          committedOffsets := fun p => if p = partition then some offset else g.committedOffsets p })
    else (.error (.partitionNotAssigned partition), c)

/-- The loop of `expire_sessions` over the groups in the order of iteration. -/
def expireLoop (env : Env) : List Key → Coordinator → Except GroupError Unit × Coordinator
  | [], c => (.ok (), c)
  | key :: keys, c =>
    match c.groups key with
    | none => expireLoop env keys c
    | some g =>
      match g.expire c.sessionTimeout (env.clock key) (c.partitionCount key.2) with
      | (.error e, g) => (.error e, c.setGroup key g)
      | (.ok (), g) => expireLoop env keys (c.setGroup key g)

/-- `expire_sessions`. -/
def expireSessions (c : Coordinator) (env : Env) : Except GroupError Unit × Coordinator :=
  expireLoop env env.order c

/-- The loop of `set_topic_partitions` over the groups in the order of iteration. -/
def extendLoop (env : Env) (topic : String) (partitions : Nat) :
    List Key → Coordinator → Except GroupError Unit × Coordinator
  | [], c => (.ok (), c)
  | key :: keys, c =>
    match c.groups key with
    | none => extendLoop env topic partitions keys c
    | some g =>
      if key.2 = topic then
        match loadOffsets c.disk env.readFails c.offsetsDir key.1 topic partitions with
        | .error e => (.error e, c)
        | .ok offsets => extendLoop env topic partitions keys (c.setGroup key { g with
            committedOffsets := fun p => (offsets p).or (g.committedOffsets p) })
      else extendLoop env topic partitions keys c

/-- `set_topic_partitions`. -/
def setTopicPartitions (c : Coordinator) (env : Env) (topic : String) (partitions : Nat) :
    Except GroupError Unit × Coordinator :=
  let counts := fun x => if x = topic then some partitions else c.topicPartitionCounts x
  extendLoop env topic partitions env.order { c with topicPartitionCounts := counts }

/-- `committed_offset`. -/
def committedOffset (c : Coordinator) (env : Env) (group topic : String) (partition : Nat) :
    Except GroupError (Option Nat) :=
  match validateId group, validateId topic with
  | .ok (), .ok () =>
    let path := offsetPath c.offsetsDir group topic partition
    if env.readFails (resolve path) then .error .io else
    match c.disk.readToString path with
    | .error e => .error e
    | .ok none => .ok none
    | .ok (some contents) =>
      match parseU64 (trim contents) with
      | none => .error .invalidOffsetFile
      | some offset => .ok (some offset)
  | _, _ => .error .invalidId

end Coordinator

/-! ## Calls -/

inductive Request where
  | join (group topic member : String)
  | heartbeat (id : GroupIdentity)
  | leave (id : GroupIdentity)
  | commit (id : GroupIdentity) (partition offset : Nat)
  | authorizeFetch (id : GroupIdentity) (partition : Nat)
  | expireSessions
  | setTopicPartitions (topic : String) (partitions : Nat)

abbrev Call := Env × Request

namespace Coordinator

/-- The result of a call and the coordinator after it. -/
def handle (c : Coordinator) : Call → Except GroupError Unit × Coordinator
  | (env, .join group topic member) =>
    let (res, c) := c.join env group topic member
    (res.map fun _ => (), c)
  | (env, .heartbeat id) => c.heartbeat env id
  | (env, .leave id) => c.leave env id
  | (env, .commit id partition offset) => c.commit env id partition offset
  | (env, .authorizeFetch id partition) => c.authorizeFetch env id partition
  | (env, .expireSessions) => c.expireSessions env
  | (env, .setTopicPartitions topic partitions) => c.setTopicPartitions env topic partitions

/-- The coordinator after a list of calls. -/
def after (c : Coordinator) (calls : List Call) : Coordinator :=
  calls.foldl (fun c call => (c.handle call).2) c

/-- What every call keeps holds after any calls. -/
theorem after_invariant {P : Coordinator → Prop} {c : Coordinator}
    (hkeeps : ∀ c call, P c → P (c.handle call).2) (h : P c) (calls : List Call) :
    P (c.after calls) :=
  List.foldlRecOn calls _ h fun c hc call _ => hkeeps c call hc

end Coordinator

end SevlaMq.Group
