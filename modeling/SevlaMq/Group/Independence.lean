import SevlaMq.Group.Offsets

/-!
# Offset files of different groups and topics

`validate_id` accepts the names `.` and `..`, and `offset_path` joins names to a path.  What a commit
for one group and topic leaves of another one depends on where the paths lead.

* `Rooted` — what is on the disk is in directories; every state of a coordinator has such a disk
  (`Coordinator.on_after`).
* `persist_apart` — when no step leads up and the two files are on one level, writing one of them
  leaves what is read from the other.
* `keptApart_iff` — for which sets of names commits are independent of each other and every offset
  file is inside the directory of the offsets.
-/

set_option autoImplicit false

namespace SevlaMq.Group

/-! ## Paths -/

theorem resolve_concat_dot (path : List String) : resolve (path ++ ["."]) = resolve path := by
  rw [resolve_concat, if_pos rfl]

/-- On the way to a path every directory above it is passed. -/
theorem prefix_resolve_mem (components : List String) {dir : Path} (h : dir <+: resolve components) :
    dir ∈ components.inits.map resolve := by
  induction components using List.reverseRecOn generalizing dir with
  | nil =>
    rw [List.prefix_nil.1 h]
    exact List.mem_singleton_self _
  | append_singleton path c ih =>
    rw [inits_concat_resolve, List.mem_append, List.mem_singleton]
    by_cases hwhole : dir = resolve (path ++ [c])
    · exact Or.inr hwhole
    · refine Or.inl (ih ?_)
      rw [resolve_concat] at h hwhole
      split at h
      · exact h
      · split at h
        · exact h.trans (List.dropLast_prefix _)
        · rename_i hdot hdots
          rw [if_neg hdot, if_neg hdots] at hwhole
          exact (List.prefix_concat_iff.1 h).resolve_left hwhole

/-- Without `..` all steps lead down. -/
theorem resolve_leads_down {components : List String} (h : ∀ c ∈ components, c ≠ "..") :
    ∀ dir ∈ components.inits.map resolve, dir <+: resolve components := by
  induction components using List.reverseRecOn with
  | nil =>
    intro dir hdir
    rw [List.mem_singleton.1 hdir]
  | append_singleton path c ih =>
    intro dir hdir
    rw [inits_concat_resolve, List.mem_append, List.mem_singleton] at hdir
    rcases hdir with hdir | rfl
    · refine (ih (fun x hx => h x (by simp [hx])) dir hdir).trans ?_
      rw [resolve_concat, if_neg (h c (by simp))]
      split
      · exact List.prefix_refl _
      · exact List.prefix_append _ _
    · exact List.prefix_refl _

/-! ## Disks -/

/-- Every directory above a directory or a file is on the disk. -/
def Rooted (disk : Disk) : Prop :=
  ∀ path, path ∈ disk.dirs ∨ (disk.files path).isSome → ∀ dir, dir <+: path → dir ≠ path →
    dir ∈ disk.dirs

namespace Rooted

variable {disk disk' : Disk}

theorem createDirAll (h : Rooted disk) {components : List String}
    (hcreate : disk.createDirAll components = .ok disk') : Rooted disk' := by
  obtain ⟨hfiles, hdirs⟩ := createDirAll_ok hcreate
  intro path hpath dir hdir hne
  rw [hdirs]
  rw [hdirs, hfiles] at hpath
  rcases hpath with (hpath | hpath) | hpath
  · exact Or.inl (h path (Or.inl hpath) dir hdir hne)
  · right
    obtain ⟨before, hbefore, rfl⟩ := List.mem_map.1 hpath
    obtain ⟨x, hx, rfl⟩ := List.mem_map.1 (prefix_resolve_mem before hdir)
    exact List.mem_map_of_mem ((List.mem_inits _ _).2
      (((List.mem_inits _ _).1 hx).trans ((List.mem_inits _ _).1 hbefore)))
  · exact Or.inl (h path (Or.inr hpath) dir hdir hne)

/-- A file in a directory that is there. -/
theorem setFile (h : Rooted disk) {dir : Path} {name : String} (hdir : dir ∈ disk.dirs)
    (contents : Option String) : Rooted (disk.setFile (dir ++ [name]) contents) := by
  intro path hpath above habove hne
  by_cases heq : path = dir ++ [name]
  · subst heq
    have hle := (List.prefix_concat_iff.1 habove).resolve_left hne
    by_cases hsame : above = dir
    · rw [hsame]
      exact hdir
    · exact h dir (Or.inl hdir) above hle hsame
  · refine h path (hpath.imp_right fun hfile => ?_) above habove hne
    simpa [Disk.setFile, heq] using hfile

theorem persistOffset (h : Rooted disk) {fault : Option Fault} {root : Path} {group topic : String}
    {p offset : Nat} {res : Except GroupError Unit}
    (hper : persistOffset disk fault root group topic p offset = (res, disk')) : Rooted disk' := by
  unfold SevlaMq.Group.persistOffset at hper
  split at hper
  · cases hper
    exact h
  · split at hper
    · cases hper
      exact h
    · rename_i disk₁ hcreate
      have h₁ := h.createDirAll hcreate
      have hdir : resolve (root ++ [group, topic]) ∈ disk₁.dirs :=
        ((createDirAll_ok hcreate).2 _).2 (Or.inr (List.mem_map_of_mem
          ((List.mem_inits _ _).2 (List.prefix_refl _))))
      simp only [resolve_offsetPath, resolve_temporary] at hper
      split at hper
      · cases hper
        exact h₁
      · split at hper
        · cases hper
          exact h₁.setFile hdir _
        · have h₂ := @setFile _ h₁ _ (temporaryFile p) hdir none
          split at hper
          · cases hper
            exact h₂.setFile hdir _
          · cases hper
            exact h₂.setFile hdir _

end Rooted

namespace Coordinator

/-- A state of a coordinator on a data directory. -/
structure On (dataDir : Path) (c : Coordinator) : Prop where
  dir : c.offsetsDir = dataDir ++ ["__consumer_offsets"]
  rooted : Rooted c.disk

namespace On

variable {dataDir : Path} {c c' : Coordinator}

theorem touches (h : On dataDir c) (ht : Touches c c') : On dataDir c' :=
  ⟨ht.dir.trans h.dir, ht.disk ▸ h.rooted⟩

theorem commit (h : On dataDir c) {env : Env} {id : GroupIdentity} {partition offset : Nat}
    {res : Except GroupError Unit} (hcommit : c.commit env id partition offset = (res, c')) :
    On dataDir c' := by
  obtain ⟨c₁, htouches, hres⟩ := commit_result hcommit
  have h₁ := h.touches htouches
  cases hres with
  | refused e => exact h₁
  | failed hg howner hper => exact ⟨h₁.dir, h₁.rooted.persistOffset hper⟩
  | accepted hg howner hper => exact ⟨h₁.dir, h₁.rooted.persistOffset hper⟩

theorem handle (h : On dataDir c) (call : Call) : On dataDir (c.handle call).2 := by
  obtain ⟨env, request⟩ := call
  cases request with
  | join group topic member =>
    have hloads := c.join_loads env group topic member
    exact ⟨hloads.dir.trans h.dir, hloads.disk ▸ h.rooted⟩
  | heartbeat id => exact h.touches (c.heartbeat_touches env id)
  | leave id => exact h.touches (c.leave_touches env id)
  | commit id partition offset =>
    exact @commit _ _ (c.commit env id partition offset).2 h _ _ _ _ _ rfl
  | authorizeFetch id partition => exact h.touches (c.authorizeFetch_touches env id partition)
  | expireSessions => exact h.touches (c.expireLoop_touches env env.order)
  | setTopicPartitions topic partitions =>
    have hset := c.setTopicPartitions_reloads env topic partitions
    exact ⟨hset.dir.trans h.dir, hset.disk ▸ h.rooted⟩

end On

/-- **Every state of a coordinator** is one on its data directory. -/
theorem on_after {disk : Disk} {dataDir : Path} {n timeout : Nat} {c : Coordinator}
    (hdisk : Rooted disk) (hopen : openDir disk dataDir n timeout = .ok c) (calls : List Call) :
    On dataDir (c.after calls) := by
  have hnew : On dataDir c := by
    refine ⟨openDir_dir hopen, ?_⟩
    unfold openDir at hopen
    simp only at hopen
    split at hopen
    · cases hopen
    · rename_i hcreate
      split at hopen
      · cases hopen
      · cases hopen
        exact hdisk.createDirAll hcreate
  exact after_invariant (fun _ call hc => hc.handle call) hnew calls

end Coordinator

/-! ## Two offset files -/

/-- The steps to the directory of a group and topic lead down, to the given level. -/
structure Level (root : Path) (group topic : String) (depth : Nat) : Prop where
  down : ∀ dir ∈ pairDirs root group topic, dir <+: resolve (root ++ [group, topic])
  length : (resolve (root ++ [group, topic])).length = depth

section Files

variable {disk disk' : Disk} {root : Path} {group topic group' topic' : String} {depth p p' : Nat}

/-- A file is below every directory of its level. -/
theorem Level.ne_dir (h : Level root group topic depth) (h' : Level root group' topic' depth)
    (name : String) : resolve (root ++ [group', topic']) ++ [name] ∉ pairDirs root group topic := by
  intro hmem
  have hle := (h.down _ hmem).length_le
  rw [List.length_append, List.length_singleton, h'.length, h.length] at hle
  omega

/-- What `persist_offset` leaves when it succeeds: the directories on the way, and two files. -/
theorem persistOffset_ok {fault : Option Fault} {offset : Nat}
    (hper : persistOffset disk fault root group topic p offset = (.ok (), disk')) :
    (∀ d, d ∈ disk'.dirs ↔ d ∈ disk.dirs ∨ d ∈ pairDirs root group topic) ∧
      ∀ x, x ≠ resolve (root ++ [group, topic]) ++ [offsetFile p] →
        x ≠ resolve (root ++ [group, topic]) ++ [temporaryFile p] → disk'.files x = disk.files x := by
  unfold persistOffset at hper
  rw [resolve_temporary, resolve_offsetPath] at hper
  split at hper
  · cases hper
  split at hper
  · cases hper
  rename_i disk₁ hcreate
  obtain ⟨hfiles, hdirs⟩ := createDirAll_ok hcreate
  simp only at hper
  split at hper
  · cases hper
  split at hper
  · cases hper
  split at hper
  · cases hper
  · cases hper
    refine ⟨hdirs, fun x hx hx' => ?_⟩
    rw [← hfiles]
    simp only [Disk.setFile, if_neg hx, if_neg hx']

/-- What is read depends on the file and on the directories above it. -/
theorem Level.readToString (h : Level root group topic depth) (hrooted : Rooted disk)
    (hfile : disk'.files (resolve (offsetPath root group topic p)) =
      disk.files (resolve (offsetPath root group topic p)))
    (hdir : resolve (offsetPath root group topic p) ∈ disk'.dirs ↔
      resolve (offsetPath root group topic p) ∈ disk.dirs)
    (habove : ∀ d ∈ pairDirs root group topic, disk'.files d = disk.files d)
    (hdirs : ∀ d ∈ disk.dirs, d ∈ disk'.dirs) :
    disk'.readToString (offsetPath root group topic p) =
      disk.readToString (offsetPath root group topic p) := by
  have hany : ((pairDirs root group topic).any fun d => (disk'.files d).isSome) =
      (pairDirs root group topic).any fun d => (disk.files d).isSome := by
    rw [Bool.eq_iff_iff, List.any_eq_true, List.any_eq_true]
    refine exists_congr fun d => and_congr_right fun hd => ?_
    rw [habove d hd]
  unfold Disk.readToString
  simp only [above_offsetPath]
  rw [hany]
  split
  · rfl
  by_cases hmissing : ∃ d ∈ pairDirs root group topic, d ∉ disk.dirs
  · -- without its directory there is no such file
    obtain ⟨d, hd, hno⟩ := hmissing
    have hnothing : ¬ (resolve (offsetPath root group topic p) ∈ disk.dirs ∨
        (disk.files (resolve (offsetPath root group topic p))).isSome) := by
      intro hthere
      refine hno (hrooted _ hthere d ?_ ?_)
      · rw [resolve_offsetPath]
        exact (h.down d hd).trans (List.prefix_append _ _)
      · rintro rfl
        rw [resolve_offsetPath] at hd
        exact h.ne_dir h _ hd
    obtain ⟨hnodir, hnofile⟩ := not_or.1 hnothing
    rw [Option.not_isSome_iff_eq_none] at hnofile
    have hbefore : ((pairDirs root group topic).any (· ∉ disk.dirs)) = true :=
      List.any_eq_true.2 ⟨d, hd, decide_eq_true hno⟩
    rw [if_pos hbefore, hfile, hnofile, if_neg (fun hin => hnodir (hdir.1 hin)), ite_self]
  · have hthere : ∀ d ∈ pairDirs root group topic, d ∈ disk.dirs := by
      intro d hd
      by_contra hno
      exact hmissing ⟨d, hd, hno⟩
    have hbefore : ¬ ((pairDirs root group topic).any (· ∉ disk.dirs)) = true := by
      rw [List.any_eq_true]
      rintro ⟨d, hd, hno⟩
      exact of_decide_eq_true hno (hthere d hd)
    have hafter : ¬ ((pairDirs root group topic).any (· ∉ disk'.dirs)) = true := by
      rw [List.any_eq_true]
      rintro ⟨d, hd, hno⟩
      exact of_decide_eq_true hno (hdirs d (hthere d hd))
    rw [if_neg hbefore, if_neg hafter, hfile]
    exact if_congr hdir rfl rfl

/-- **Writing one file leaves what is read from another** on the same level. -/
theorem persist_apart (hrooted : Rooted disk) (h : Level root group topic depth)
    (h' : Level root group' topic' depth) {fault : Option Fault} {offset : Nat}
    (hper : persistOffset disk fault root group topic p offset = (.ok (), disk'))
    (hne : resolve (offsetPath root group' topic' p') ≠ resolve (offsetPath root group topic p)) :
    disk'.readToString (offsetPath root group' topic' p') =
      disk.readToString (offsetPath root group' topic' p') := by
  obtain ⟨hdirs, hfiles⟩ := persistOffset_ok hper
  refine h'.readToString hrooted (hfiles _ ?_ ?_) ?_ (fun d hd => hfiles d ?_ ?_)
    fun d hd => (hdirs d).2 (Or.inl hd)
  · rw [← resolve_offsetPath]
    exact hne
  · rw [resolve_offsetPath]
    intro heq
    exact offsetFile_ne_temporaryFile p' p (List.singleton_inj.1 (List.append_inj_right' heq rfl))
  · rw [hdirs, or_iff_left]
    rw [resolve_offsetPath]
    exact h.ne_dir h' (offsetFile p')
  · rintro rfl
    exact h'.ne_dir h _ hd
  · rintro rfl
    exact h'.ne_dir h _ hd

end Files

/-! ## Names -/

/-- What an offset is committed for. -/
structure OffsetKey where
  group : String
  topic : String
  partition : Nat
  deriving DecidableEq, Repr

/-- The file of the offset. -/
def OffsetKey.file (dataDir : Path) (k : OffsetKey) : Path :=
  resolve (offsetPath (dataDir ++ ["__consumer_offsets"]) k.group k.topic k.partition)

/-- Group and topic are called by the given names. -/
def OffsetKey.Named (names : Set String) (k : OffsetKey) : Prop :=
  k.group ∈ names ∧ k.topic ∈ names

/-- For groups and topics with these names: a successful commit for one key leaves the committed
offset of every other one, and all offset files are inside the directory of the offsets. -/
structure KeptApart (names : Set String) : Prop where
  independent : ∀ dataDir c, (∀ d ∈ dataDir, Plain d) → Coordinator.On dataDir c →
    ∀ k k' : OffsetKey, k.Named names → k'.Named names → k ≠ k' →
    ∀ env member generation offset c',
      c.commit env ⟨k.group, k.topic, member, generation⟩ k.partition offset = (.ok (), c') →
    ∀ env', c'.committedOffset env' k'.group k'.topic k'.partition =
      c.committedOffset env' k'.group k'.topic k'.partition
  inside : ∀ dataDir, (∀ d ∈ dataDir, Plain d) → ∀ k : OffsetKey, k.Named names →
    dataDir ++ ["__consumer_offsets"] <+: k.file dataDir ∧
      k.file dataDir ≠ dataDir ++ ["__consumer_offsets"]

section Names

variable {dataDir : Path} {group topic group' topic' : String}

/-- What is read for a key depends on its file only. -/
theorem committedOffset_congr {c c' : Coordinator} {env : Env} {partition : Nat}
    (hdir : c'.offsetsDir = c.offsetsDir)
    (hread : c'.disk.readToString (offsetPath c.offsetsDir group topic partition) =
      c.disk.readToString (offsetPath c.offsetsDir group topic partition)) :
    c'.committedOffset env group topic partition = c.committedOffset env group topic partition := by
  unfold Coordinator.committedOffset
  simp only [hdir, hread]

theorem commit_apart {c c' : Coordinator} {env : Env} {id : GroupIdentity}
    {partition offset partition' depth : Nat} (hrooted : Rooted c.disk)
    (h : Level c.offsetsDir id.group id.topic depth) (h' : Level c.offsetsDir group' topic' depth)
    (hcommit : c.commit env id partition offset = (.ok (), c'))
    (hne : resolve (offsetPath c.offsetsDir group' topic' partition') ≠
      resolve (offsetPath c.offsetsDir id.group id.topic partition)) (env' : Env) :
    c'.committedOffset env' group' topic' partition' =
      c.committedOffset env' group' topic' partition' := by
  obtain ⟨c₁, htouches, hres⟩ := Coordinator.commit_result hcommit
  cases hres with
  | accepted hg howner hper =>
    rw [htouches.disk, htouches.dir] at hper
    refine committedOffset_congr htouches.dir ?_
    exact persist_apart hrooted h h' hper hne

theorem level_plain (hdata : ∀ d ∈ dataDir, Plain d) (hgroup : Plain group) (htopic : Plain topic) :
    Level (dataDir ++ ["__consumer_offsets"]) group topic (dataDir.length + 3) ∧
      resolve (dataDir ++ ["__consumer_offsets"] ++ [group, topic]) =
        dataDir ++ ["__consumer_offsets"] ++ [group, topic] := by
  have hall : ∀ c ∈ dataDir ++ ["__consumer_offsets"] ++ [group, topic], Plain c := by
    intro c hc
    rcases List.mem_append.1 hc with hc | hc
    · exact root_plain hdata c hc
    · simp only [List.mem_cons, List.not_mem_nil, or_false] at hc
      rcases hc with rfl | rfl
      · exact hgroup
      · exact htopic
  have hresolved := resolve_plain hall
  refine ⟨⟨resolve_leads_down fun c hc => (hall c hc).2, ?_⟩, hresolved⟩
  rw [hresolved]
  simp

theorem level_dot (hdata : ∀ d ∈ dataDir, Plain d) :
    Level (dataDir ++ ["__consumer_offsets"]) "." "." (dataDir.length + 1) ∧
      resolve (dataDir ++ ["__consumer_offsets"] ++ [".", "."]) =
        dataDir ++ ["__consumer_offsets"] := by
  have hresolved : resolve (dataDir ++ ["__consumer_offsets"] ++ [".", "."]) =
      dataDir ++ ["__consumer_offsets"] := by
    rw [show [".", "."] = ["."] ++ ["."] from rfl, ← List.append_assoc, resolve_concat_dot,
      resolve_concat_dot, resolve_plain (root_plain hdata)]
  refine ⟨⟨resolve_leads_down fun c hc => ?_, ?_⟩, hresolved⟩
  · rcases List.mem_append.1 hc with hc | hc
    · exact (root_plain hdata c hc).2
    · simp only [List.mem_cons, List.not_mem_nil, or_false, or_self] at hc
      rw [hc]
      decide
  · rw [hresolved]
    simp

/-- Names that are kept apart lead to different files on one level of the directory. -/
theorem named_level {names : Set String} (hdots : ".." ∉ names)
    (hdot : "." ∈ names → ∀ x ∈ names, x = ".") (hdata : ∀ d ∈ dataDir, Plain d) :
    ∃ depth, (∀ k : OffsetKey, k.Named names →
        Level (dataDir ++ ["__consumer_offsets"]) k.group k.topic depth ∧
        dataDir ++ ["__consumer_offsets"] <+:
          resolve (dataDir ++ ["__consumer_offsets"] ++ [k.group, k.topic])) ∧
      ∀ k k' : OffsetKey, k.Named names → k'.Named names → k'.file dataDir = k.file dataDir →
        k = k' := by
  by_cases h : "." ∈ names
  · obtain ⟨hlevel, hresolved⟩ := level_dot hdata
    refine ⟨dataDir.length + 1, fun k hk => ?_, fun k k' hk hk' hfile => ?_⟩
    · rw [hdot h _ hk.1, hdot h _ hk.2, hresolved]
      exact ⟨hlevel, List.prefix_refl _⟩
    · unfold OffsetKey.file at hfile
      rw [hdot h _ hk.1, hdot h _ hk.2, hdot h _ hk'.1, hdot h _ hk'.2] at hfile
      have hp := resolve_offsetPath_injective hfile
      cases k
      cases k'
      simp only at hp
      simp only [OffsetKey.mk.injEq]
      exact ⟨(hdot h _ hk.1).trans (hdot h _ hk'.1).symm,
        (hdot h _ hk.2).trans (hdot h _ hk'.2).symm, hp.symm⟩
  · have hplain : ∀ x ∈ names, Plain x := by
      intro x hx
      refine ⟨?_, ?_⟩
      · rintro rfl
        exact h hx
      · rintro rfl
        exact hdots hx
    refine ⟨dataDir.length + 3, fun k hk => ?_, fun k k' hk hk' hfile => ?_⟩
    · obtain ⟨hlevel, hresolved⟩ := level_plain hdata (hplain _ hk.1) (hplain _ hk.2)
      rw [hresolved]
      exact ⟨hlevel, List.prefix_append _ _⟩
    · obtain ⟨_, hresolved⟩ := level_plain hdata (hplain _ hk.1) (hplain _ hk.2)
      obtain ⟨_, hresolved'⟩ := level_plain hdata (hplain _ hk'.1) (hplain _ hk'.2)
      unfold OffsetKey.file at hfile
      rw [resolve_offsetPath, resolve_offsetPath, hresolved, hresolved'] at hfile
      obtain ⟨hdir, hname⟩ := List.append_inj' hfile rfl
      have hpair := List.append_cancel_left hdir
      have hp := offsetFile_injective (List.singleton_inj.1 hname)
      cases k
      cases k'
      simp only [List.cons.injEq, and_true] at hpair hp
      simp only [OffsetKey.mk.injEq]
      exact ⟨hpair.1.symm, hpair.2.symm, hp.symm⟩

theorem keptApart_of {names : Set String} (hdots : ".." ∉ names)
    (hdot : "." ∈ names → ∀ x ∈ names, x = ".") : KeptApart names := by
  refine ⟨fun dataDir c hdata hon k k' hk hk' hne env member generation offset c' hcommit env' => ?_,
    fun dataDir hdata k hk => ?_⟩
  · obtain ⟨depth, hlevel, hinjective⟩ := named_level hdots hdot hdata
    have h := (hlevel k hk).1
    have h' := (hlevel k' hk').1
    rw [← hon.dir] at h h'
    refine commit_apart hon.rooted h h' hcommit ?_ env'
    rw [hon.dir]
    exact fun hfile => hne (hinjective k k' hk hk' hfile)
  · obtain ⟨depth, hlevel, _⟩ := named_level hdots hdot hdata
    have hinitial := (hlevel k hk).2
    rw [OffsetKey.file, resolve_offsetPath]
    refine ⟨hinitial.trans (List.prefix_append _ _), fun heq => ?_⟩
    have hlen := congrArg List.length heq
    have hle := hinitial.length_le
    rw [List.length_append, List.length_singleton] at hlen
    omega

/-! ## One file for two keys -/

/-- A member of the group `.` of a topic, with partition 0. -/
def dotGroup : ConsumerGroup :=
  ⟨1, .insert .empty "m" 0, fun m => if m = "m" then some [0] else none, fun _ => none⟩

/-- A coordinator with that group and nothing on its disk. -/
def dotState (topic : String) : Coordinator :=
  ⟨["__consumer_offsets"], 1, fun _ => none, 10,
    fun key => if key = (".", topic) then some dotGroup else none, .fresh []⟩

theorem dotState_on (topic : String) : Coordinator.On [] (dotState topic) := by
  refine ⟨rfl, fun path hpath dir hdir hne => ?_⟩
  rcases hpath with hpath | hpath
  · rw [List.mem_singleton.1 hpath, List.prefix_nil] at hdir
    rw [List.mem_singleton.1 hpath] at hne
    exact absurd hdir hne
  · cases hpath

theorem dot_pairDirs (h : Plain topic) :
    ∀ d, d ∈ pairDirs ["__consumer_offsets"] topic "." →
      d ∈ pairDirs ["__consumer_offsets"] "." topic := by
  intro d hd
  have hroot : ([] : Path) ++ ["__consumer_offsets"] = ["__consumer_offsets"] := rfl
  rw [← hroot, mem_pairDirs (List.forall_mem_nil _)] at hd ⊢
  rw [resolve_concat_dot, resolve_concat_plain h] at hd
  rw [resolve_concat_plain h, resolve_concat_dot]
  tauto

theorem dot_level (h : Plain topic) : Level ["__consumer_offsets"] "." topic 2 := by
  refine ⟨resolve_leads_down fun c hc => ?_, ?_⟩
  · simp only [List.mem_append, List.mem_cons, List.not_mem_nil, or_false] at hc
    rcases hc with rfl | rfl | rfl
    · decide
    · decide
    · exact h.2
  · rw [show ["__consumer_offsets"] ++ [".", topic] = ["__consumer_offsets", "."] ++ [topic] from rfl,
      resolve_concat_plain h, List.length_append, List.length_singleton]
    decide

/-- The commit of the member of `.` goes through, and the file holds its offset. -/
theorem dotState_commit (h : Plain topic) :
    ∃ c', (dotState topic).commit (envAt 0) ⟨".", topic, "m", 1⟩ 0 7 = (.ok (), c') ∧
      c'.offsetsDir = ["__consumer_offsets"] ∧
      Tidy c'.disk ["__consumer_offsets"] "." topic ∧
      Holds c'.disk ["__consumer_offsets"] "." topic (setOffset (fun _ => none) 0 7) := by
  have hlevel := dot_level h
  have hapart : Apart ["__consumer_offsets"] "." topic := by
    intro p _ hmem
    rw [resolve_offsetPath] at hmem
    exact hlevel.ne_dir hlevel _ hmem
  have htidy : Tidy (.fresh []) ["__consumer_offsets"] "." topic := by
    refine ⟨fun d hd => ?_, fun _ _ hno => by cases hno⟩
    rw [List.mem_singleton.1 hd]
    exact prefix_resolve_mem _ List.nil_prefix
  have hholds : Holds (.fresh []) ["__consumer_offsets"] "." topic fun _ => none :=
    ⟨fun _ => rfl, fun _ hno => absurd rfl hno, fun _ _ hno => by cases hno⟩
  obtain ⟨disk', hper⟩ : ∃ disk', persistOffset (.fresh []) none ["__consumer_offsets"] "." topic 0 7 =
      (.ok (), disk') := by
    obtain ⟨disk₁, hcreate, h₁⟩ := @Tidy.createDirAll _ _ _ _ htidy hapart
      (["__consumer_offsets"] ++ [".", topic]) (by simpa using h.1) fun d hd => hd
    have hfree : ∀ name, resolve (["__consumer_offsets"] ++ [".", topic]) ++ [name] ∉ disk₁.dirs :=
      fun name hin => hlevel.ne_dir hlevel name (h₁.dirs _ hin)
    unfold persistOffset
    rw [if_neg (by decide), hcreate]
    simp only [resolve_offsetPath, resolve_temporary]
    rw [if_neg (hfree _), if_neg (not_or.2 ⟨by decide, hfree _⟩), if_neg (by decide)]
    exact ⟨_, rfl⟩
  have hactive : (dotState topic).activeMember (envAt 0) ⟨".", topic, "m", 1⟩ =
      (.ok dotGroup, (dotState topic).setGroup (".", topic) dotGroup) := by
    have hgroup : (dotState topic).groups (".", topic) = some dotGroup := if_pos rfl
    unfold Coordinator.activeMember Coordinator.activeGroup
    rw [show GroupIdentity.key ⟨".", topic, "m", 1⟩ = (".", topic) from rfl, hgroup]
    rfl
  obtain ⟨c', hcommit, hdir, hdisk⟩ : ∃ c', (dotState topic).commit (envAt 0) ⟨".", topic, "m", 1⟩ 0 7 =
      (.ok (), c') ∧ c'.offsetsDir = ["__consumer_offsets"] ∧ c'.disk = disk' := by
    have hper' : persistOffset ((dotState topic).setGroup (".", topic) dotGroup).disk
        (envAt 0).fault ((dotState topic).setGroup (".", topic) dotGroup).offsetsDir "." topic 0 7 =
      (.ok (), disk') := hper
    unfold Coordinator.commit
    rw [hactive]
    simp only
    rw [if_pos (show dotGroup.owns "m" 0 = true from rfl), hper']
    exact ⟨_, rfl, rfl, rfl⟩
  refine ⟨c', hcommit, hdir, ?_, ?_⟩
  · rw [hdisk]
    exact htidy.persist hapart (by decide : 0 < PARTITIONS) hper
  · rw [hdisk]
    rcases hholds.persist (by decide : 7 ≤ GENERATION_MAX) hper with ⟨_, e, he⟩ | ⟨hheld, _⟩
    · cases he
    · exact hheld

/-- What a member of `.` commits for a topic is committed for the group with the name of the topic
and the topic `.`. -/
theorem dot_not_apart (hvalid : validateId topic = .ok ()) (h : Plain topic) :
    ∃ c', (dotState topic).commit (envAt 0) ⟨".", topic, "m", 1⟩ 0 7 = (.ok (), c') ∧
      (dotState topic).committedOffset (envAt 0) topic "." 0 = .ok none ∧
      c'.committedOffset (envAt 0) topic "." 0 = .ok (some 7) := by
  obtain ⟨c', hcommit, hdir, htidy, hholds⟩ := dotState_commit h
  have hlevel := dot_level h
  have hdot : validateId "." = .ok () := by decide +kernel
  have hfile : resolve (offsetPath ["__consumer_offsets"] topic "." 0) =
      resolve (offsetPath ["__consumer_offsets"] "." topic 0) := by
    rw [resolve_offsetPath, resolve_offsetPath,
      show ["__consumer_offsets"] ++ [topic, "."] = ["__consumer_offsets", topic] ++ ["."] from rfl,
      show ["__consumer_offsets"] ++ [".", topic] = ["__consumer_offsets", "."] ++ [topic] from rfl,
      resolve_concat_dot, resolve_concat_plain h,
      show ["__consumer_offsets", topic] = ["__consumer_offsets"] ++ [topic] from rfl,
      resolve_concat_plain h]
    rfl
  have hapart : Apart ["__consumer_offsets"] "." topic := by
    intro p _ hmem
    rw [resolve_offsetPath] at hmem
    exact hlevel.ne_dir hlevel _ hmem
  have hread : c'.disk.readToString (offsetPath ["__consumer_offsets"] topic "." 0) =
      .ok (some (toString 7 ++ "\n")) := by
    have hno : ¬ ((pairDirs ["__consumer_offsets"] topic ".").any fun p =>
        (c'.disk.files p).isSome) = true := by
      rw [List.any_eq_true]
      rintro ⟨d, hd, hsome⟩
      rw [htidy.no_file hapart (dot_pairDirs h d hd)] at hsome
      cases hsome
    have hthere : ¬ ((pairDirs ["__consumer_offsets"] topic ".").any (· ∉ c'.disk.dirs)) = true := by
      rw [List.any_eq_true]
      rintro ⟨d, hd, hmissing⟩
      exact of_decide_eq_true hmissing (hholds.dirs 0 (by decide) d (dot_pairDirs h d hd))
    unfold Disk.readToString
    simp only [above_offsetPath]
    rw [if_neg hno, if_neg hthere, hfile, if_neg fun hin => hapart 0 (by decide) (htidy.dirs _ hin),
      hholds.files 0]
    rfl
  refine ⟨c', hcommit, ?_, ?_⟩
  · have hbefore : (dotState topic).disk.readToString
        (offsetPath ["__consumer_offsets"] topic "." 0) = .ok none := by
      have hmissing : ((pairDirs ["__consumer_offsets"] topic ".").any
          (· ∉ (Disk.fresh []).dirs)) = true := by
        refine List.any_eq_true.2 ⟨["__consumer_offsets"], ?_, by decide⟩
        exact (mem_pairDirs (List.forall_mem_nil _)).2 (Or.inr (Or.inl rfl))
      unfold Disk.readToString
      simp only [above_offsetPath]
      rw [if_neg (by simp [dotState, Disk.fresh])]
      exact if_pos hmissing
    unfold Coordinator.committedOffset
    rw [hvalid, hdot]
    simp only
    rw [show (dotState topic).offsetsDir = ["__consumer_offsets"] from rfl, hbefore]
    rfl
  · unfold Coordinator.committedOffset
    rw [hvalid, hdot]
    simp only
    rw [hdir, hread]
    simp only [parse_printed (by decide : 7 ≤ GENERATION_MAX)]
    rfl

end Names

/-- **For which names offsets are kept apart.**  For a set of names that `validate_id` accepts: the
commits for different keys with these names are independent in every state, and all their offset
files are inside the directory of the offsets, if and only if the name `..` is not among them and
the name `.` is not there beside another one. -/
theorem keptApart_iff {names : Set String} (hnames : ∀ x ∈ names, validateId x = .ok ()) :
    KeptApart names ↔ ".." ∉ names ∧ ("." ∈ names → ∀ x ∈ names, x = ".") := by
  constructor
  · intro h
    have hdots : ".." ∉ names := by
      intro hmem
      -- two steps up from the directory of the offsets
      have hinside := (h.inside [] (List.forall_mem_nil _) ⟨"..", "..", 0⟩ ⟨hmem, hmem⟩).1
      exact absurd hinside (by decide +kernel)
    refine ⟨hdots, fun hdot x hx => ?_⟩
    by_contra hne
    have hplain : Plain x := ⟨hne, fun heq => hdots (heq ▸ hx)⟩
    obtain ⟨c', hcommit, hbefore, hafter⟩ := dot_not_apart (hnames x hx) hplain
    have hsame := h.independent [] (dotState x) (List.forall_mem_nil _) (dotState_on x)
      ⟨".", x, 0⟩ ⟨x, ".", 0⟩ ⟨hdot, hx⟩ ⟨hx, hdot⟩
      (fun heq => hne (OffsetKey.mk.inj heq).1.symm) (envAt 0) "m" 1 7 c' hcommit (envAt 0)
    rw [hbefore, hafter] at hsame
    cases hsame
  · rintro ⟨hdots, hdot⟩
    exact keptApart_of hdots hdot

theorem keptApart_iff_plain :
    validateId "workers" = .ok () ∧ validateId "payments" = .ok () ∧
      KeptApart ({"workers", "payments"} : Set String) := by
  have hworkers : validateId "workers" = .ok () := by decide +kernel
  have hpayments : validateId "payments" = .ok () := by decide +kernel
  refine ⟨hworkers, hpayments, (keptApart_iff fun x hx => ?_).2 ⟨fun hx => ?_, fun hx => ?_⟩⟩
  · rcases hx with rfl | rfl
    · exact hworkers
    · exact hpayments
  · rcases hx with hx | hx
    · exact absurd hx (by decide)
    · exact absurd hx (by decide)
  · rcases hx with hx | hx
    · exact absurd hx (by decide)
    · exact absurd hx (by decide)

/-- The group `.` of the topic `orders` shares its offset with the group `orders` of the topic `.`,
and the offset of the group `..` is in the directory of the topic. -/
theorem dot_names_share_offset :
    validateId "." = .ok () ∧ validateId ".." = .ok () ∧ validateId "orders" = .ok () ∧
    ∃ c, Coordinator.openDir (.fresh ["data"]) ["data"] 1 10 = .ok c ∧
      let c₁ := c.after [(envAt 0, .join "." "orders" "worker-a")]
      (c₁.commit (envAt 1) ⟨".", "orders", "worker-a", 1⟩ 0 7).1 = .ok () ∧
      c₁.committedOffset (envAt 2) "orders" "." 0 = .ok none ∧
      (c₁.commit (envAt 1) ⟨".", "orders", "worker-a", 1⟩ 0 7).2.committedOffset (envAt 2)
        "orders" "." 0 = .ok (some 7) ∧
      OffsetKey.file ["data"] ⟨"..", "orders", 0⟩ = ["data", "orders", "0.offset"] ∧
      ¬ c.offsetsDir <+: OffsetKey.file ["data"] ⟨"..", "orders", 0⟩ :=
  ⟨by decide +kernel, by decide +kernel, by decide +kernel, _, rfl, by decide +kernel,
    by decide +kernel, by decide +kernel, by decide +kernel, by decide +kernel⟩

end SevlaMq.Group
