import SevlaMq.Group.Generations
import SevlaMq.Lib.Text

/-!
# The offset files of a group and topic

* `Holds` — the offset files of a group and topic hold given offsets: `Holds.loadOffsets`,
  `Holds.committedOffset` and `Holds.persist` say what is read from them and written to them.
* `Tidy` — there is nothing else on the disk than these files and the directories that lead to them.
* `Clear` — the names of group and topic keep files and directories apart (`Clear.apart`).
* `recoverGroups_ok` — on such a disk the coordinator finds the group again.
-/

set_option autoImplicit false

namespace SevlaMq.Group

/-! ## Paths -/

/-- A component that is neither `.` nor `..`. -/
def Plain (c : String) : Prop := c ≠ "." ∧ c ≠ ".."

/-- The name of the offset file of a partition. -/
def offsetFile (partition : Nat) : String := toString partition ++ ".offset"

/-- The name of the temporary file of a partition. -/
def temporaryFile (partition : Nat) : String := toString partition ++ ".offset.tmp"

theorem resolve_concat (path : List String) (c : String) :
    resolve (path ++ [c]) =
      if c = "." then resolve path else if c = ".." then (resolve path).dropLast
      else resolve path ++ [c] := by
  simp [resolve, List.foldl_append]

theorem resolve_concat_plain {c : String} (h : Plain c) (path : List String) :
    resolve (path ++ [c]) = resolve path ++ [c] := by
  rw [resolve_concat, if_neg h.1, if_neg h.2]

/-- A path of plain components is resolved. -/
theorem resolve_plain {path : List String} (h : ∀ c ∈ path, Plain c) : resolve path = path := by
  induction path using List.reverseRecOn with
  | nil => rfl
  | append_singleton path c ih =>
    rw [resolve_concat_plain (h c (by simp)), ih fun x hx => h x (by simp [hx])]

theorem inits_concat_resolve (path : List String) (c : String) :
    (path ++ [c]).inits.map resolve = path.inits.map resolve ++ [resolve (path ++ [c])] := by
  simp [List.inits_append]

theorem toList_toString (n : Nat) : (toString n).toList = Nat.toDigits 10 n := by
  simp

theorem toDigits_injective {m n : Nat} (h : Nat.toDigits 10 m = Nat.toDigits 10 n) : m = n := by
  have hm := @parseUnsigned_toDigits (max m n) m (by omega)
  rw [h, parseUnsigned_toDigits (by omega)] at hm
  exact (Option.some.inj hm).symm

theorem offsetFile_injective {p q : Nat} (h : offsetFile p = offsetFile q) : p = q := by
  have hlist := congrArg String.toList h
  simp only [offsetFile, String.toList_append, toList_toString] at hlist
  exact toDigits_injective (List.append_cancel_right hlist)

theorem offsetFile_ne_temporaryFile (p q : Nat) : offsetFile p ≠ temporaryFile q := by
  intro h
  have hlast := congrArg (fun s => s.toList.getLast?) h
  simp [offsetFile, temporaryFile, String.toList_append, List.getLast?_append] at hlast

theorem offsetFile_plain (p : Nat) : Plain (offsetFile p) := by
  refine ⟨fun h => ?_, fun h => ?_⟩
  all_goals
    have hlast := congrArg (fun s => s.toList.getLast?) h
    simp [offsetFile, String.toList_append, List.getLast?_append] at hlast

theorem temporaryFile_plain (p : Nat) : Plain (temporaryFile p) := by
  refine ⟨fun h => ?_, fun h => ?_⟩
  all_goals
    have hlast := congrArg (fun s => s.toList.getLast?) h
    simp [temporaryFile, String.toList_append, List.getLast?_append] at hlast

theorem isDigit_not_whiteSpace {c : Char} (h : c.isDigit = true) : isWhiteSpace c = false := by
  simp only [Char.isDigit, Bool.and_eq_true, decide_eq_true_eq, ge_iff_le, UInt32.le_iff_toNat_le] at h
  have hlo : 48 ≤ c.toNat := h.1
  have hhi : c.toNat ≤ 57 := h.2
  simp [isWhiteSpace]
  omega

/-- What is written for an offset is read back. -/
theorem parse_printed {offset : Nat} (h : offset ≤ GENERATION_MAX) :
    parseU64 (trim (toString offset ++ "\n")) = some offset := by
  have hdigits : ∀ c ∈ Nat.toDigits 10 offset, isWhiteSpace c = false :=
    fun c hc => isDigit_not_whiteSpace (toDigits_isDigit hc)
  have htrim : trim (toString offset ++ "\n") = Nat.toDigits 10 offset := by
    have hfirst : (Nat.toDigits 10 offset ++ ['\n']).dropWhile isWhiteSpace =
        Nat.toDigits 10 offset ++ ['\n'] := by
      cases hd : Nat.toDigits 10 offset with
      | nil => exact absurd hd Nat.toDigits_ne_nil
      | cons c rest =>
        rw [List.cons_append, List.dropWhile_cons_of_neg]
        rw [hdigits c (by rw [hd]; exact List.mem_cons_self)]
        decide
    have hlast : (Nat.toDigits 10 offset).reverse.dropWhile isWhiteSpace =
        (Nat.toDigits 10 offset).reverse := by
      cases hd : (Nat.toDigits 10 offset).reverse with
      | nil => exact absurd (List.reverse_eq_nil_iff.1 hd) Nat.toDigits_ne_nil
      | cons c rest =>
        rw [List.dropWhile_cons_of_neg]
        rw [hdigits c (List.mem_reverse.1 (by rw [hd]; exact List.mem_cons_self))]
        decide
    have hbreak : isWhiteSpace '\n' = true := by decide
    have hnl : ("\n" : String).toList = ['\n'] := by decide
    rw [trim, String.toList_append, toList_toString, hnl, hfirst, List.reverse_append,
      List.reverse_singleton, List.singleton_append, List.dropWhile_cons_of_pos hbreak, hlast,
      List.reverse_reverse]
  rw [htrim]
  exact parseUnsigned_toDigits h

/-! ## The files of a group and topic -/

/-- The directories that lead to the offset files. -/
def pairDirs (root : Path) (group topic : String) : List Path :=
  (root ++ [group, topic]).inits.map resolve

section Files

variable {disk disk' : Disk} {root : Path} {group topic : String} {last : Nat → Option Nat}

theorem resolve_offsetPath (root : Path) (group topic : String) (p : Nat) :
    resolve (offsetPath root group topic p) = resolve (root ++ [group, topic]) ++ [offsetFile p] := by
  rw [← resolve_concat_plain (offsetFile_plain p), List.append_assoc]
  rfl

theorem resolve_temporary (root : Path) (group topic : String) (p : Nat) :
    resolve (root ++ [group, topic, toString p ++ ".offset.tmp"]) =
      resolve (root ++ [group, topic]) ++ [temporaryFile p] := by
  rw [← resolve_concat_plain (temporaryFile_plain p), List.append_assoc]
  rfl

theorem above_offsetPath (root : Path) (group topic : String) (p : Nat) :
    (offsetPath root group topic p).inits.dropLast.map resolve = pairDirs root group topic := by
  have hpath : offsetPath root group topic p = root ++ [group, topic] ++ [offsetFile p] := by
    rw [List.append_assoc]
    rfl
  rw [hpath, pairDirs]
  simp [List.inits_append]

theorem createDirAll_ok {components : List String} (h : disk.createDirAll components = .ok disk') :
    disk'.files = disk.files ∧
      ∀ d, d ∈ disk'.dirs ↔ d ∈ disk.dirs ∨ d ∈ components.inits.map resolve := by
  unfold Disk.createDirAll at h
  simp only at h
  split at h
  · cases h
  · split at h
    · cases h
    · cases h
      refine ⟨rfl, fun d => ?_⟩
      simp only [List.mem_append, List.mem_filter, decide_eq_true_eq]
      tauto

/-- The offset files hold the offsets `last`. -/
structure Holds (disk : Disk) (root : Path) (group topic : String) (last : Nat → Option Nat) :
    Prop where
  files : ∀ p, disk.files (resolve (offsetPath root group topic p)) =
    (last p).map fun offset => toString offset ++ "\n"
  dirs : ∀ p, last p ≠ none → ∀ d ∈ pairDirs root group topic, d ∈ disk.dirs
  fits : ∀ p offset, last p = some offset → offset ≤ GENERATION_MAX

/-- A file that can be read holds the offset. -/
theorem Holds.read (h : Holds disk root group topic last) {p : Nat} {contents : Option String}
    (hread : disk.readToString (offsetPath root group topic p) = .ok contents) :
    contents = (last p).map fun offset => toString offset ++ "\n" := by
  unfold Disk.readToString at hread
  simp only [above_offsetPath] at hread
  split at hread
  · cases hread
  · split at hread
    · rename_i hany
      cases hread
      -- without the directories there is no file
      obtain ⟨d, hd, hno⟩ := List.any_eq_true.1 hany
      cases hlast : last p with
      | none => rfl
      | some offset =>
        have hin := h.dirs p (by rw [hlast]; exact Option.some_ne_none _) d hd
        simp [hin] at hno
    · split at hread
      · cases hread
      · cases hread
        exact h.files p

theorem Holds.parse (h : Holds disk root group topic last) {p : Nat} {contents : String}
    (hread : disk.readToString (offsetPath root group topic p) = .ok (some contents)) :
    ∃ offset, last p = some offset ∧ parseU64 (trim contents) = some offset := by
  have hcontents := h.read hread
  cases hlast : last p with
  | none => simp [hlast] at hcontents
  | some offset =>
    rw [hlast, Option.map_some, Option.some.injEq] at hcontents
    refine ⟨offset, rfl, ?_⟩
    rw [hcontents]
    exact parse_printed (h.fits p offset hlast)

/-- **`load_offsets`** finds the offsets of the partitions. -/
theorem Holds.loadOffsets (h : Holds disk root group topic last) {fails : Path → Bool} {n : Nat}
    {offsets : Nat → Option Nat}
    (hload : loadOffsets disk fails root group topic n = .ok offsets) (p : Nat) :
    offsets p = if p < n then last p else none := by
  induction n generalizing offsets with
  | zero =>
    cases hload
    simp
  | succ n ih =>
    unfold SevlaMq.Group.loadOffsets at hload
    split at hload
    · cases hload
    · rename_i before hbefore
      have hp := ih hbefore
      simp only at hload
      split at hload
      · cases hload
      · split at hload
        · cases hload
        · rename_i hread
          cases hload
          have hnone := h.read hread
          have hlast : last n = none := by
            cases hl : last n with
            | none => rfl
            | some offset => simp [hl] at hnone
          rw [hp]
          rcases Nat.lt_trichotomy p n with hlt | rfl | hgt
          · rw [if_pos hlt, if_pos (by omega)]
          · rw [if_neg (by omega), if_pos (by omega), hlast]
          · rw [if_neg (by omega), if_neg (by omega)]
        · rename_i hread
          obtain ⟨offset, hlast, hparse⟩ := h.parse hread
          rw [hparse] at hload
          cases hload
          simp only
          split
          · rename_i heq
            rw [heq, if_pos (by omega), hlast]
          · rename_i hne
            rw [hp]
            exact if_congr (by omega) rfl rfl

/-- One offset changed. -/
def setOffset (last : Nat → Option Nat) (partition offset : Nat) : Nat → Option Nat :=
  fun p => if p = partition then some offset else last p

theorem resolve_offsetPath_injective {p q : Nat}
    (h : resolve (offsetPath root group topic p) = resolve (offsetPath root group topic q)) :
    p = q := by
  rw [resolve_offsetPath, resolve_offsetPath] at h
  exact offsetFile_injective (List.singleton_inj.1 (List.append_cancel_left h))

theorem resolve_offsetPath_ne_temporary (root : Path) (group topic : String) (p q : Nat) :
    resolve (offsetPath root group topic p) ≠
      resolve (root ++ [group, topic, toString q ++ ".offset.tmp"]) := by
  intro h
  rw [resolve_offsetPath, resolve_temporary] at h
  exact offsetFile_ne_temporaryFile p q (List.singleton_inj.1 (List.append_cancel_left h))

/-- A temporary file is not in the way. -/
theorem Holds.setTemporary (h : Holds disk root group topic last) (p : Nat)
    (contents : Option String) :
    Holds (disk.setFile (resolve (root ++ [group, topic, toString p ++ ".offset.tmp"])) contents)
      root group topic last := by
  refine ⟨fun q => ?_, h.dirs, h.fits⟩
  show (if _ then _ else _) = _
  rw [if_neg (resolve_offsetPath_ne_temporary root group topic q p)]
  exact h.files q

theorem Holds.setOffset (h : Holds disk root group topic last) {p offset : Nat}
    (hdirs : ∀ d ∈ pairDirs root group topic, d ∈ disk.dirs) (hfits : offset ≤ GENERATION_MAX) :
    Holds (disk.setFile (resolve (offsetPath root group topic p)) (some (toString offset ++ "\n")))
      root group topic (setOffset last p offset) := by
  refine ⟨fun q => ?_, fun _ _ => hdirs, fun q o hq => ?_⟩
  · show (if _ then _ else _) = _
    by_cases hqp : q = p
    · rw [hqp, if_pos rfl]
      simp [SevlaMq.Group.setOffset]
    · rw [if_neg fun heq => hqp (resolve_offsetPath_injective heq), h.files q]
      simp [SevlaMq.Group.setOffset, hqp]
  · unfold SevlaMq.Group.setOffset at hq
    split at hq
    · cases hq
      exact hfits
    · exact h.fits q o hq

/-- **`persist_offset`** changes one offset, unless it fails before the rename. -/
theorem Holds.persist (h : Holds disk root group topic last) {fault : Option Fault}
    {p offset : Nat} (hfits : offset ≤ GENERATION_MAX) {res : Except GroupError Unit}
    (hper : persistOffset disk fault root group topic p offset = (res, disk')) :
    (Holds disk' root group topic last ∧ ∃ e, res = .error e) ∨
    (Holds disk' root group topic (SevlaMq.Group.setOffset last p offset) ∧
      (res = .ok () ∨ fault = some .sync ∧ ∃ e, res = .error e)) := by
  unfold persistOffset at hper
  split at hper
  · cases hper
    exact Or.inl ⟨h, _, rfl⟩
  · split at hper
    · cases hper
      exact Or.inl ⟨h, _, rfl⟩
    · rename_i disk₁ hcreate
      obtain ⟨hfiles, hdirs⟩ := createDirAll_ok hcreate
      have hall : ∀ d ∈ pairDirs root group topic, d ∈ disk₁.dirs :=
        fun d hd => (hdirs d).2 (Or.inr hd)
      have h₁ : Holds disk₁ root group topic last :=
        ⟨fun q => by rw [hfiles]; exact h.files q, fun _ _ => hall, h.fits⟩
      simp only at hper
      split at hper
      · cases hper
        exact Or.inl ⟨h₁, _, rfl⟩
      · split at hper
        · cases hper
          exact Or.inl ⟨h₁.setTemporary p _, _, rfl⟩
        · have hset := (h₁.setTemporary p none).setOffset (p := p) hall hfits
          split at hper
          · rename_i hsync
            cases hper
            exact Or.inr ⟨hset, Or.inr ⟨hsync, _, rfl⟩⟩
          · cases hper
            exact Or.inr ⟨hset, Or.inl rfl⟩

/-- **`committed_offset`** returns the offset if it can read it. -/
theorem Holds.committedOffset {c : Coordinator} (h : Holds c.disk c.offsetsDir group topic last)
    {env : Env} {p : Nat} {offset : Option Nat}
    (hread : c.committedOffset env group topic p = .ok offset) : offset = last p := by
  unfold Coordinator.committedOffset at hread
  split at hread
  · simp only at hread
    split at hread
    · cases hread
    · split at hread
      · cases hread
      · rename_i hnone
        cases hread
        have := h.read hnone
        cases hl : last p with
        | none => rfl
        | some offset => simp [hl] at this
      · rename_i hsome
        obtain ⟨offset, hlast, hparse⟩ := h.parse hsome
        rw [hparse] at hread
        cases hread
        exact hlast.symm
  · cases hread

/-- The directory of the offsets is created anew. -/
theorem Holds.openDir (h : Holds disk root group topic last) {dataDir : Path} {n timeout : Nat}
    {c : Coordinator} (hopen : Coordinator.openDir disk dataDir n timeout = .ok c)
    (hroot : root = dataDir ++ ["__consumer_offsets"]) :
    Holds c.disk c.offsetsDir group topic last := by
  unfold Coordinator.openDir at hopen
  simp only at hopen
  split at hopen
  · cases hopen
  · rename_i disk₁ hcreate
    split at hopen
    · cases hopen
    · cases hopen
      obtain ⟨hfiles, hdirs⟩ := createDirAll_ok hcreate
      subst hroot
      refine ⟨fun p => ?_, fun p hp d hd => ?_, h.fits⟩
      · show disk₁.files _ = _
        rw [hfiles]
        exact h.files p
      · exact (hdirs d).2 (Or.inl (h.dirs p hp d hd))

end Files

/-! ## Nothing in the way -/

/-- The number of partitions a topic can have: they are numbered by `u32`. -/
def PARTITIONS : Nat := 2 ^ 32

/-- There is nothing else on the disk than offset files and the directories that lead to them. -/
structure Tidy (disk : Disk) (root : Path) (group topic : String) : Prop where
  dirs : ∀ d ∈ disk.dirs, d ∈ pairDirs root group topic
  files : ∀ x contents, disk.files x = some contents →
    ∃ p < PARTITIONS, x = resolve (offsetPath root group topic p)

/-- No offset file has the path of a directory. -/
def Apart (root : Path) (group topic : String) : Prop :=
  ∀ p < PARTITIONS, resolve (offsetPath root group topic p) ∉ pairDirs root group topic

section Tidy

variable {disk disk' : Disk} {root : Path} {group topic : String} {last : Nat → Option Nat}

theorem Tidy.no_file (h : Tidy disk root group topic) (ha : Apart root group topic) {d : Path}
    (hd : d ∈ pairDirs root group topic) : disk.files d = none := by
  cases hf : disk.files d with
  | none => rfl
  | some contents =>
    obtain ⟨p, hp, rfl⟩ := h.files d contents hf
    exact absurd hd (ha p hp)

theorem Tidy.created (h : Tidy disk root group topic) {components : List String}
    (hsub : ∀ d ∈ components.inits.map resolve, d ∈ pairDirs root group topic)
    (hcreate : disk.createDirAll components = .ok disk') : Tidy disk' root group topic := by
  obtain ⟨hfiles, hdirs⟩ := createDirAll_ok hcreate
  refine ⟨fun d hd => ?_, fun x contents hx => ?_⟩
  · rcases (hdirs d).1 hd with hd | hd
    · exact h.dirs d hd
    · exact hsub d hd
  · rw [hfiles] at hx
    exact h.files x contents hx

theorem Tidy.createDirAll (h : Tidy disk root group topic) (ha : Apart root group topic)
    {components : List String} (hlast : components.getLast? ≠ some ".")
    (hsub : ∀ d ∈ components.inits.map resolve, d ∈ pairDirs root group topic) :
    ∃ disk', disk.createDirAll components = .ok disk' ∧ Tidy disk' root group topic := by
  have hno : ¬ ((components.inits.map resolve).any fun p => (disk.files p).isSome) = true := by
    rw [List.any_eq_true]
    rintro ⟨d, hd, hsome⟩
    rw [h.no_file ha (hsub d hd)] at hsome
    cases hsome
  obtain ⟨disk', hcreate⟩ : ∃ disk', disk.createDirAll components = .ok disk' := by
    unfold Disk.createDirAll
    simp only
    rw [if_neg hno, if_neg fun hdot => hlast hdot.1]
    exact ⟨_, rfl⟩
  exact ⟨disk', hcreate, h.created hsub hcreate⟩

/-- Every offset can be read. -/
theorem Tidy.readToString (h : Tidy disk root group topic) (ha : Apart root group topic) {p : Nat}
    (hp : p < PARTITIONS) :
    ∃ contents, disk.readToString (offsetPath root group topic p) = .ok contents := by
  have hno : ¬ ((pairDirs root group topic).any fun p => (disk.files p).isSome) = true := by
    rw [List.any_eq_true]
    rintro ⟨d, hd, hsome⟩
    rw [h.no_file ha hd] at hsome
    cases hsome
  unfold Disk.readToString
  simp only [above_offsetPath]
  rw [if_neg hno]
  split
  · exact ⟨_, rfl⟩
  · rw [if_neg fun hin => ha p hp (h.dirs _ hin)]
    exact ⟨_, rfl⟩

theorem Tidy.loadOffsets (h : Tidy disk root group topic) (ha : Apart root group topic)
    (hh : Holds disk root group topic last) {n : Nat} (hn : n ≤ PARTITIONS) :
    ∃ offsets, loadOffsets disk (fun _ => false) root group topic n = .ok offsets := by
  induction n with
  | zero => exact ⟨_, rfl⟩
  | succ n ih =>
    obtain ⟨offsets, hoffsets⟩ := ih (by omega)
    obtain ⟨contents, hread⟩ := h.readToString ha (p := n) (by omega)
    simp only [SevlaMq.Group.loadOffsets, hoffsets, hread, Bool.false_eq_true, if_false]
    cases contents with
    | none => exact ⟨_, rfl⟩
    | some contents =>
      obtain ⟨offset, _, hparse⟩ := hh.parse hread
      simp only [hparse]
      exact ⟨_, rfl⟩

theorem Tidy.persist (h : Tidy disk root group topic) (ha : Apart root group topic)
    {p offset : Nat} (hp : p < PARTITIONS) {res : Except GroupError Unit}
    (hper : persistOffset disk none root group topic p offset = (res, disk')) :
    Tidy disk' root group topic := by
  unfold persistOffset at hper
  rw [if_neg (by decide)] at hper
  split at hper
  · cases hper
    exact h
  rename_i disk₁ hcreate
  have h₁ : Tidy disk₁ root group topic := h.created (fun d hd => hd) hcreate
  have hfree : resolve (offsetPath root group topic p) ∉ disk₁.dirs :=
    fun hin => ha p hp (h₁.dirs _ hin)
  simp only at hper
  split at hper
  · cases hper
    exact h₁
  · rw [if_neg (by simp [hfree]), if_neg (by decide)] at hper
    cases hper
    refine ⟨h₁.dirs, fun x contents hx => ?_⟩
    simp only [Disk.setFile] at hx
    split at hx
    · rename_i heq
      exact ⟨p, hp, heq⟩
    · split at hx
      · cases hx
      · exact h₁.files x contents hx

end Tidy

/-! ## Names -/

/-- The group is not named like an offset file while the topic is `..`, and the data directory is
not while both are. -/
def Clear (dataDir : Path) (group topic : String) : Prop :=
  ∀ p < PARTITIONS, topic = ".." →
    group ≠ offsetFile p ∧ (group = ".." → dataDir.getLast? ≠ some (offsetFile p))

section Names

variable {dataDir : Path} {group topic : String}

theorem consumerOffsets_plain : Plain "__consumer_offsets" := by
  constructor <;> decide

theorem root_plain (hdata : ∀ c ∈ dataDir, Plain c) :
    ∀ c ∈ dataDir ++ ["__consumer_offsets"], Plain c := by
  intro c hc
  rcases List.mem_append.1 hc with hc | hc
  · exact hdata c hc
  · rw [List.mem_singleton.1 hc]
    exact consumerOffsets_plain

theorem offsetFile_ne_consumerOffsets (p : Nat) : offsetFile p ≠ "__consumer_offsets" := by
  intro h
  have hlast := congrArg (fun s => s.toList.getLast?) h
  simp [offsetFile, String.toList_append, List.getLast?_append] at hlast

/-- The directories are those above the data directory, and at most three more. -/
theorem mem_pairDirs (hdata : ∀ c ∈ dataDir, Plain c) {d : Path} :
    d ∈ pairDirs (dataDir ++ ["__consumer_offsets"]) group topic ↔
      d <+: dataDir ∨ d = dataDir ++ ["__consumer_offsets"] ∨
      d = resolve (dataDir ++ ["__consumer_offsets"] ++ [group]) ∨
      d = resolve (dataDir ++ ["__consumer_offsets"] ++ [group] ++ [topic]) := by
  have hroot := root_plain hdata
  have hinits : (dataDir ++ ["__consumer_offsets"]).inits.map resolve =
      (dataDir ++ ["__consumer_offsets"]).inits := by
    refine (List.map_congr_left fun x hx => ?_).trans (List.map_id _)
    exact resolve_plain fun c hc => hroot c (((List.mem_inits _ _).1 hx).subset hc)
  have hsplit : dataDir ++ ["__consumer_offsets"] ++ [group, topic] =
      dataDir ++ ["__consumer_offsets"] ++ [group] ++ [topic] := by simp
  rw [pairDirs, hsplit, inits_concat_resolve, inits_concat_resolve, hinits]
  simp only [List.mem_append, List.mem_inits, List.mem_singleton, List.prefix_concat_iff]
  tauto

/-- A step down from a directory leads to the component that was named. -/
theorem eq_of_resolve_concat {path : Path} {c x : String}
    (h : path ++ [x] = resolve (path ++ [c])) (hpath : resolve path = path) : x = c := by
  rw [resolve_concat, hpath] at h
  have hlen := congrArg List.length h
  split at h
  · rename_i hdot
    simp [hdot] at hlen
  · split at h
    · rename_i hdots
      simp [hdots] at hlen
      omega
    · exact List.singleton_inj.1 (List.append_cancel_left h)

theorem length_resolve_concat (path : Path) (c : String) :
    (resolve (path ++ [c])).length ≤ (resolve path).length + 1 := by
  rw [resolve_concat]
  split
  · omega
  · split
    · simp only [List.length_dropLast]
      omega
    · simp

/-- Only `..` leads up. -/
theorem length_le_resolve_concat {c : String} (h : c ≠ "..") (path : Path) :
    (resolve path).length ≤ (resolve (path ++ [c])).length := by
  rw [resolve_concat, if_neg h]
  split
  · omega
  · simp

theorem length_le_resolve_concat_succ (path : Path) (c : String) :
    (resolve path).length ≤ (resolve (path ++ [c])).length + 1 := by
  by_cases h : c = ".."
  · rw [resolve_concat, h, if_neg (by decide), if_pos rfl, List.length_dropLast]
    omega
  · have := length_le_resolve_concat h path
    omega

/-- **Clear names keep the offset files apart from the directories.** -/
theorem Clear.apart (h : Clear dataDir group topic) (hdata : ∀ c ∈ dataDir, Plain c) :
    Apart (dataDir ++ ["__consumer_offsets"]) group topic := by
  intro p hp hmem
  have hroot := resolve_plain (root_plain hdata)
  have hsplit : dataDir ++ ["__consumer_offsets"] ++ [group, topic] =
      dataDir ++ ["__consumer_offsets"] ++ [group] ++ [topic] := by simp
  rw [resolve_offsetPath, mem_pairDirs hdata, hsplit] at hmem
  have hup := length_le_resolve_concat_succ (dataDir ++ ["__consumer_offsets"]) group
  have hup' := length_le_resolve_concat_succ (dataDir ++ ["__consumer_offsets"] ++ [group]) topic
  have hrootlen : (resolve (dataDir ++ ["__consumer_offsets"])).length = dataDir.length + 1 := by
    rw [hroot, List.length_append, List.length_singleton]
  by_cases ht : topic = ".."
  · obtain ⟨hne, hboth⟩ := h p hp ht
    have hgroup := resolve_concat (dataDir ++ ["__consumer_offsets"]) group
    have hbase := resolve_concat (dataDir ++ ["__consumer_offsets"] ++ [group]) ".."
    rw [hroot] at hgroup
    rw [if_neg (by decide), if_pos rfl, hgroup] at hbase
    rw [ht] at hmem hup'
    rcases hmem with hprefix | heq | heq | heq
    · -- only two steps up lead above the data directory
      have hlen := hprefix.length_le
      rw [List.length_append, List.length_singleton] at hlen
      by_cases hg : group = ".."
      · rw [if_neg (by rw [hg]; decide), if_pos hg, List.dropLast_concat] at hbase
        rw [hbase] at hprefix hlen
        have hwhole := hprefix.eq_of_length (by
          rw [List.length_append, List.length_dropLast, List.length_singleton] at *
          omega)
        refine hboth hg ?_
        rw [← hwhole, List.getLast?_concat]
      · have hdown := length_le_resolve_concat hg (dataDir ++ ["__consumer_offsets"])
        omega
    · have hlast := congrArg List.getLast? heq
      simp only [List.getLast?_concat, Option.some.injEq] at hlast
      exact offsetFile_ne_consumerOffsets p hlast
    · have hlast := congrArg List.getLast? heq
      rw [List.getLast?_concat, hgroup] at hlast
      split at hlast
      · simp only [List.getLast?_concat, Option.some.injEq] at hlast
        exact offsetFile_ne_consumerOffsets p hlast
      · split at hlast
        · rename_i hg
          rw [List.dropLast_concat] at hlast
          exact hboth hg hlast.symm
        · simp only [List.getLast?_concat, Option.some.injEq] at hlast
          exact hne hlast.symm
    · have hlen := congrArg List.length heq
      simp at hlen
  · -- the files are below the directory of the group
    have hdown := length_le_resolve_concat ht (dataDir ++ ["__consumer_offsets"] ++ [group])
    rcases hmem with hprefix | heq | heq | heq
    · have hlen := hprefix.length_le
      rw [List.length_append, List.length_singleton] at hlen
      omega
    · have hlast := congrArg List.getLast? heq
      simp only [List.getLast?_concat, Option.some.injEq] at hlast
      exact offsetFile_ne_consumerOffsets p hlast
    · have hlen := congrArg List.length heq
      rw [List.length_append, List.length_singleton] at hlen
      omega
    · have hlen := congrArg List.length heq
      simp at hlen

theorem mem_readDir {disk : Disk} {path : Path} {name : String} (h : name ∈ disk.readDir path) :
    path ++ [name] ∈ disk.dirs := by
  obtain ⟨d, hd, hname⟩ := List.mem_filterMap.1 h
  split at hname
  · rename_i hchild
    obtain ⟨hne, rfl⟩ := hchild
    rw [List.getLast?_eq_some_getLast hne, Option.some.injEq] at hname
    rw [← hname, List.dropLast_append_getLast]
    exact hd
  · cases hname

/-- What a directory of a tidy disk below that of the offsets is called. -/
theorem Tidy.group_name {disk : Disk}
    (h : Tidy disk (dataDir ++ ["__consumer_offsets"]) group topic)
    (hdata : ∀ c ∈ dataDir, Plain c) {name : String}
    (hname : name ∈ disk.readDir (dataDir ++ ["__consumer_offsets"])) :
    name = group ∨ name = topic := by
  have hroot := resolve_plain (root_plain hdata)
  rcases (mem_pairDirs hdata).1 (h.dirs _ (mem_readDir hname)) with hprefix | heq | heq | heq
  · have hlen := hprefix.length_le
    simp only [List.length_append, List.length_singleton] at hlen
    omega
  · have hlen := congrArg List.length heq
    simp at hlen
  · exact Or.inl (eq_of_resolve_concat heq hroot)
  · -- the topic may be `.` or the step into a directory
    rw [resolve_concat] at heq
    split at heq
    · exact Or.inl (eq_of_resolve_concat heq hroot)
    · split at heq
      · have hlen := congrArg List.length heq
        have hle := length_resolve_concat (dataDir ++ ["__consumer_offsets"]) group
        rw [hroot] at hle
        simp only [List.length_append, List.length_singleton, List.length_dropLast] at hlen hle
        omega
      · exact Or.inr (List.append_inj_right' heq rfl |> List.singleton_inj.1)

theorem Tidy.topic_name {disk : Disk}
    (h : Tidy disk (dataDir ++ ["__consumer_offsets"]) group topic)
    (hdata : ∀ c ∈ dataDir, Plain c) {name name' : String}
    (hname : name' ∈ disk.readDir (dataDir ++ ["__consumer_offsets"] ++ [name])) :
    name = group ∧ name' = topic := by
  have hroot := resolve_plain (root_plain hdata)
  have hle := length_resolve_concat (dataDir ++ ["__consumer_offsets"]) group
  rw [hroot, List.length_append, List.length_singleton] at hle
  rcases (mem_pairDirs hdata).1 (h.dirs _ (mem_readDir hname)) with hprefix | heq | heq | heq
  · have hlen := hprefix.length_le
    simp only [List.length_append, List.length_singleton] at hlen
    omega
  · have hlen := congrArg List.length heq
    simp at hlen
  · have hlen := congrArg List.length heq
    simp only [List.length_append, List.length_singleton] at hlen
    omega
  · have hlen := congrArg List.length heq
    simp only [List.length_append, List.length_singleton] at hlen
    rw [resolve_concat] at heq hlen
    split at heq
    · rename_i hdot
      rw [if_pos hdot] at hlen
      omega
    · rename_i hdot
      rw [if_neg hdot] at hlen
      split at heq
      · rename_i hdots
        rw [if_pos hdots, List.length_dropLast] at hlen
        omega
      · refine ⟨?_, List.append_inj_right' heq rfl |> List.singleton_inj.1⟩
        exact eq_of_resolve_concat (List.append_inj_left' heq rfl) hroot

end Names

/-! ## Memory -/

/-- There is no other group in memory, and its offsets are the latest ones. -/
def Remembers (group topic : String) (last : Nat → Option Nat)
    (groups : Key → Option ConsumerGroup) : Prop :=
  ∀ key g, groups key = some g → key = (group, topic) ∧
    ∀ p offset, g.committedOffsets p = some offset → last p = some offset

section Memory

variable {dataDir : Path} {group topic : String} {last : Nat → Option Nat}

/-- A group with the latest offsets takes the place of another. -/
theorem Remembers.update {groups : Key → Option ConsumerGroup} {g : ConsumerGroup}
    (h : Remembers group topic last groups)
    (hg : ∀ p offset, g.committedOffsets p = some offset → last p = some offset) :
    Remembers group topic last fun x => if x = (group, topic) then some g else groups x := by
  intro key g' hg'
  simp only at hg'
  split at hg'
  · rename_i hkey
    cases hg'
    exact ⟨hkey, hg⟩
  · exact h key g' hg'

/-- Loaded offsets are the latest ones. -/
theorem Holds.loaded {disk : Disk} {root : Path} (h : Holds disk root group topic last)
    {fails : Path → Bool} {n : Nat} {offsets : Nat → Option Nat}
    (hload : SevlaMq.Group.loadOffsets disk fails root group topic n = .ok offsets) {p offset : Nat}
    (hp : offsets p = some offset) : last p = some offset := by
  rw [h.loadOffsets hload p] at hp
  split at hp
  · exact hp
  · cases hp

theorem recoverTopics_ok {disk : Disk} {root : Path} (hheld : Holds disk root group topic last)
    (htidy : Tidy disk root group topic) (ha : Apart root group topic)
    (htopic : validateId topic = .ok ()) {n : Nat} (hn : n ≤ PARTITIONS) {names : List String}
    (hnames : ∀ name ∈ names, name = topic) {groups : Key → Option ConsumerGroup}
    (h : Remembers group topic last groups) :
    ∃ groups', Coordinator.recoverTopics disk root n group names groups = .ok groups' ∧
      Remembers group topic last groups' := by
  induction names generalizing groups with
  | nil => exact ⟨groups, rfl, h⟩
  | cons name names ih =>
    obtain rfl := hnames name List.mem_cons_self
    obtain ⟨offsets, hload⟩ := htidy.loadOffsets ha hheld hn
    simp only [Coordinator.recoverTopics, htopic, hload]
    refine ih (fun x hx => hnames x (List.mem_cons_of_mem _ hx)) (h.update fun p offset hp => ?_)
    exact hheld.loaded hload hp

theorem recoverGroups_ok {disk : Disk}
    (hheld : Holds disk (dataDir ++ ["__consumer_offsets"]) group topic last)
    (htidy : Tidy disk (dataDir ++ ["__consumer_offsets"]) group topic)
    (ha : Apart (dataDir ++ ["__consumer_offsets"]) group topic)
    (hdata : ∀ c ∈ dataDir, Plain c) (hgroup : validateId group = .ok ())
    (htopic : validateId topic = .ok ()) {n : Nat} (hn : n ≤ PARTITIONS) {names : List String}
    (hnames : ∀ name ∈ names, name = group ∨ name = topic) {groups : Key → Option ConsumerGroup}
    (h : Remembers group topic last groups) :
    ∃ groups', Coordinator.recoverGroups disk (dataDir ++ ["__consumer_offsets"]) n names groups =
      .ok groups' ∧ Remembers group topic last groups' := by
  induction names generalizing groups with
  | nil => exact ⟨groups, rfl, h⟩
  | cons name names ih =>
    have hvalid : validateId name = .ok () := by
      rcases hnames name List.mem_cons_self with rfl | rfl
      · exact hgroup
      · exact htopic
    obtain ⟨groups₁, hrec, h₁⟩ : ∃ groups₁, Coordinator.recoverTopics disk
        (dataDir ++ ["__consumer_offsets"]) n name
        (disk.readDir (dataDir ++ ["__consumer_offsets"] ++ [name])) groups = .ok groups₁ ∧
        Remembers group topic last groups₁ := by
      by_cases hname : name = group
      · subst hname
        exact recoverTopics_ok hheld htidy ha htopic hn
          (fun x hx => (htidy.topic_name hdata hx).2) h
      · -- there are no directories below that of another name
        have hnil : disk.readDir (dataDir ++ ["__consumer_offsets"] ++ [name]) = [] := by
          refine List.eq_nil_iff_forall_not_mem.2 fun x hx => ?_
          exact hname (htidy.topic_name hdata hx).1
        rw [hnil]
        exact ⟨groups, rfl, h⟩
    simp only [Coordinator.recoverGroups, hvalid, hrec]
    exact ih (fun x hx => hnames x (List.mem_cons_of_mem _ hx)) h₁

end Memory

end SevlaMq.Group
