import SevlaMq.Consumer.AtLeastOnce

/-!
# At-most-once consumption

* `position` — the offset a consumer goes on from: that of its session, or the one after the record
  at hand once its commit was accepted.
* `SessionFenced` — a member whose session is of the current generation goes on from the committed
  offset of each partition that it owns.  A session of an older generation, or from before a restart
  of the broker, promises nothing, and its commits are refused.
* `Fenced` — that is so for every consumer; a record that is about to be handled, or was handled, is
  below the committed offset, and there are no two of them.
* `handled_at_most_once` — in every run each record is handled at most once, and no committed offset
  decreases.
-/

set_option autoImplicit false

namespace SevlaMq.Consumer

open SevlaMq.Storage (Record StoredRecord RecordLog storedFrom)
open SevlaMq.Group

/-! ## Committed offsets -/

/-- The committed offset of a partition, as a consumer takes it. -/
def committed (last : Nat → Option Nat) (p : Nat) : Nat := (last p).getD 0

/-- No offset has decreased. -/
def Raises (last last' : Nat → Option Nat) : Prop :=
  ∀ p o, last p = some o → ∃ o', last' p = some o' ∧ o ≤ o'

theorem Raises.refl (last : Nat → Option Nat) : Raises last last :=
  fun _ o h => ⟨o, h, Nat.le_refl o⟩

theorem Raises.trans {last last₁ last' : Nat → Option Nat} (h : Raises last last₁)
    (h' : Raises last₁ last') : Raises last last' := by
  intro p o hp
  obtain ⟨o₁, hp₁, hle⟩ := h p o hp
  obtain ⟨o', hp', hle'⟩ := h' p o₁ hp₁
  exact ⟨o', hp', Nat.le_trans hle hle'⟩

theorem Raises.committed_le {last last' : Nat → Option Nat} (h : Raises last last') (p : Nat) :
    committed last p ≤ committed last' p := by
  unfold committed
  cases hp : last p with
  | none => exact Nat.zero_le _
  | some o =>
    obtain ⟨o', hp', hle⟩ := h p o hp
    rw [hp']
    exact hle

theorem committed_setOffset (last : Nat → Option Nat) (p offset q : Nat) :
    committed (setOffset last p offset) q = if q = p then offset else committed last q := by
  unfold committed setOffset
  split <;> rfl

theorem Raises.setOffset {last : Nat → Option Nat} {p offset : Nat}
    (h : committed last p ≤ offset) : Raises last (setOffset last p offset) := by
  intro q o hq
  unfold SevlaMq.Group.setOffset
  split
  · rename_i heq
    subst heq
    refine ⟨offset, rfl, ?_⟩
    rw [committed, hq] at h
    exact h
  · exact ⟨o, hq, Nat.le_refl o⟩

/-! ## Sessions -/

namespace Session

variable {session : Session}

/-- The offset a consumer goes on from. -/
def position (session : Session) : Phase → Nat → Option Nat
  | .processing p _ record _ stage, q =>
    if q = p ∧ stage ≠ .start then some (record.offset + 1) else session.offsets q
  | _, q => session.offsets q

/-- The offsets of all partitions are loaded. -/
def Loaded (session : Session) : Prop := ∀ q ∈ session.partitions, session.offsets q ≠ none

/-- What is known of a session, whatever has become of the group. -/
def Shape (session : Session) : Phase → Prop
  | .loading p rest => ∀ q ∈ session.partitions, q ∈ p :: rest ∨ session.offsets q ≠ none
  | .idle | .leaving => session.Loaded
  | .polling p rest | .fetching p rest _ => session.Loaded ∧ p :: rest ⊆ session.partitions
  | .processing p rest record records _ =>
    session.Loaded ∧ p :: rest ⊆ session.partitions ∧ record.offset + 1 ≤ GENERATION_MAX ∧
      session.offset p ≤ record.offset ∧ (record :: records).Pairwise (·.offset < ·.offset)

theorem Loaded.insert (h : session.Loaded) (p offset : Nat) : (session.insert p offset).Loaded := by
  intro q hq
  simp only [Session.insert]
  split
  · exact Option.some_ne_none _
  · exact h q hq

theorem Loaded.pollNext (h : session.Loaded) {rest : List Nat} (hrest : rest ⊆ session.partitions) :
    session.Shape (pollNext rest) := by
  cases rest with
  | nil => exact h
  | cons p rest => exact ⟨h, hrest⟩

theorem position_pollNext (rest : List Nat) (q : Nat) :
    session.position (Consumer.pollNext rest) q = session.offsets q := by
  cases rest <;> rfl

theorem position_loadNext (rest : List Nat) (q : Nat) :
    session.position (Consumer.loadNext rest) q = session.offsets q := by
  cases rest <;> rfl

end Session

/-- A member whose session is of the current generation goes on from the committed offset of each
partition that it owns. -/
structure SessionFenced (g : ConsumerGroup) (last : Nat → Option Nat) (m : String)
    (session : Session) (phase : Phase) : Prop where
  shape : session.Shape phase
  ordered : m ∈ g.members.keys → session.generation ≤ g.generation
  agrees : m ∈ g.members.keys → session.generation = g.generation → ∀ p ∈ g.assigned m,
    ∀ o, session.position phase p = some o → o = committed last p

namespace SessionFenced

variable {g : ConsumerGroup} {last : Nat → Option Nat} {m : String} {session : Session}
  {phase : Phase}

/-- A call of another consumer leaves the session fenced. -/
theorem serves {key : Key} {newcomer : Option String} {c c' : Coordinator}
    (h : SessionFenced (c.group key) last m session phase) (hc : Serves key newcomer c c')
    (hnew : newcomer ≠ some m) : SessionFenced (c'.group key) last m session phase := by
  have hmember : m ∈ (c'.group key).members.keys → m ∈ (c.group key).members.keys :=
    fun hm => (hc.members m hm).resolve_right hnew
  have hle := hc.follows.le
  refine ⟨h.shape, fun hm => Nat.le_trans (h.ordered (hmember hm)) hle, ?_⟩
  intro hm hgen p hp o ho
  have hordered := h.ordered (hmember hm)
  -- the generation has not moved, so neither have the assignments
  have hsame := hc.follows.assignments (by omega)
  unfold ConsumerGroup.assigned at hp
  rw [hsame] at hp
  exact h.agrees (hmember hm) (by omega) p hp o ho

/-- So does the commit of the owner of another partition. -/
theorem commit (h : SessionFenced g last m session phase) (howner : OneOwner g)
    {id : GroupIdentity} {partition : Nat} (hid : g.Owner id partition) (hne : m ≠ id.member)
    (offset : Nat) : SessionFenced g (setOffset last partition offset) m session phase := by
  refine ⟨h.shape, h.ordered, fun hm hgen p hp o ho => ?_⟩
  have hother : p ≠ partition := by
    intro heq
    subst heq
    exact hne (howner m id.member p hp hid.partition)
  rw [committed_setOffset, if_neg hother]
  exact h.agrees hm hgen p hp o ho

/-- A consumer goes on from the same offsets. -/
theorem next (h : SessionFenced g last m session phase) {session' : Session} {phase' : Phase}
    (hgen : session'.generation = session.generation) (hshape : session'.Shape phase')
    (hposition : ∀ p, session'.position phase' p = session.position phase p) :
    SessionFenced g last m session' phase' := by
  refine ⟨hshape, fun hm => hgen ▸ h.ordered hm, fun hm hcur p hp o ho => ?_⟩
  rw [hposition] at ho
  exact h.agrees hm (hgen ▸ hcur) p hp o ho

end SessionFenced

def ProcessFenced (g : ConsumerGroup) (last : Nat → Option Nat) (m : String) : Process → Prop
  | .consuming session phase => SessionFenced g last m session phase
  | _ => True

/-- The record whose commit was accepted and whose handler is started next. -/
def Process.token : Process → Option (Nat × Nat)
  | .consuming _ (.processing p _ record _ .committed) => some (p, record.offset)
  | _ => none

/-! ## The system -/

/-- `last` are the committed offsets on disk. -/
structure Fenced (options : Options) (dataDir : Path) (last : Nat → Option Nat) (s : System) :
    Prop where
  dir : s.coordinator.offsetsDir = dataDir ++ ["__consumer_offsets"]
  holds : Holds s.coordinator.disk s.coordinator.offsetsDir options.group options.topic last
  owner : OneOwner (s.coordinator.group (options.group, options.topic))
  consumers : ∀ m, ProcessFenced (s.coordinator.group (options.group, options.topic)) last m
    (s.consumers m)
  unique : ∀ m m' t, (s.consumers m).token = some t → (s.consumers m').token = some t → m = m'
  pending : ∀ m t, (s.consumers m).token = some t → t ∉ s.invoked ∧ t.2 < committed last t.1
  once : s.invoked.Nodup
  below : ∀ t ∈ s.invoked, t.2 < committed last t.1

namespace Fenced

variable {options : Options} {dataDir : Path} {last : Nat → Option Nat} {s s' : System}
  {member : String} {session : Session} {action : Action}

/-- A consumer makes a call that changes no offset on disk, or none, and takes up no record. -/
theorem become (h : Fenced options dataDir last s) {c : Coordinator} {process : Process}
    {newcomer : Option String}
    (hc : Serves (options.group, options.topic) newcomer s.coordinator c)
    (hnew : ∀ x, newcomer = some x → x = member)
    (hholds : Holds c.disk c.offsetsDir options.group options.topic last)
    (hp : ProcessFenced (c.group (options.group, options.topic)) last member process)
    (htoken : process.token = none ∨ process.token = (s.consumers member).token) :
    Fenced options dataDir last (s.become member c process) := by
  have htokens : ∀ m t, ((s.become member c process).consumers m).token = some t →
      (s.consumers m).token = some t := by
    intro m t hm
    simp only [System.become] at hm
    split at hm
    · rename_i heq
      subst heq
      rcases htoken with hnone | hsame
      · rw [hnone] at hm
        cases hm
      · rw [← hsame]
        exact hm
    · exact hm
  refine ⟨hc.dir.trans h.dir, hholds, hc.owner h.owner, fun m => ?_, ?_, ?_, h.once, h.below⟩
  · simp only [System.become]
    split
    · rename_i heq
      subst heq
      exact hp
    · rename_i hne
      have hm := h.consumers m
      cases hproc : s.consumers m with
      | consuming session phase =>
        rw [hproc] at hm
        refine SessionFenced.serves hm hc fun hno => hne (hnew m hno)
      | _ => trivial
  · intro m m' t hm hm'
    exact h.unique m m' t (htokens m t hm) (htokens m' t hm')
  · intro m t hm
    exact h.pending m t (htokens m t hm)

/-- A consumer does something on its own. -/
theorem proceed (h : Fenced options dataDir last s) {process : Process}
    (hp : ProcessFenced (s.coordinator.group (options.group, options.topic)) last member process)
    (htoken : process.token = none ∨ process.token = (s.consumers member).token) :
    Fenced options dataDir last (s.become member s.coordinator process) :=
  h.become (Coordinator.Touches.refl _).serves (fun _ hno => by cases hno) h.holds hp htoken

/-- A call that commits nothing. -/
theorem touch (h : Fenced options dataDir last s) {c : Coordinator} {process : Process}
    (hc : s.coordinator.Touches c)
    (hp : ProcessFenced (c.group (options.group, options.topic)) last member process)
    (htoken : process.token = none ∨ process.token = (s.consumers member).token) :
    Fenced options dataDir last (s.become member c process) := by
  refine h.become hc.serves (fun _ hno => by cases hno) ?_ hp htoken
  rw [hc.disk, hc.dir]
  exact h.holds

/-- The session of the consumer that acts. -/
theorem fenced (h : Fenced options dataDir last s) {phase : Phase}
    (hm : s.consumers member = .consuming session phase) :
    SessionFenced (s.coordinator.group (options.group, options.topic)) last member session
      phase := by
  have hp := h.consumers member
  rw [hm] at hp
  exact hp

/-! ### Commits -/

section Commit

variable {p : Nat} {rest : List Nat} {record : StoredRecord} {records : List StoredRecord}
  {env : Env} {res : Except GroupError Unit} {c : Coordinator}

/-- The owner of a partition has the record at the committed offset, or one after it, at hand. -/
theorem committed_le {g : ConsumerGroup}
    (h : SessionFenced g last member session (.processing p rest record records .start))
    (howner : g.Owner (System.identity options member session) p) :
    committed last p ≤ record.offset := by
  obtain ⟨hloaded, hrest, _, hle, _⟩ := h.shape
  obtain ⟨o, ho⟩ := Option.ne_none_iff_exists'.1 (hloaded p (hrest List.mem_cons_self))
  have hposition : session.position (.processing p rest record records .start) p = some o := by
    rw [Session.position, if_neg (fun hno => hno.2 rfl)]
    exact ho
  rw [← h.agrees howner.member howner.generation p howner.partition o hposition]
  rw [Session.offset, ho] at hle
  exact hle

/-- **The commit of the record at hand** raises the committed offset beyond it, and no other record
that is about to be handled is that one. -/
theorem raise (h : Fenced options dataDir last s)
    (hm : s.consumers member = .consuming session (.processing p rest record records .start))
    (hcommit : s.coordinator.commit env (System.identity options member session) p
      (record.offset + 1) = (res, c))
    (hholds : Holds c.disk c.offsetsDir options.group options.topic
      (setOffset last p (record.offset + 1)))
    (howner : (c.group (options.group, options.topic)).Owner
      (System.identity options member session) p) {process : Process}
    (hp : ProcessFenced (c.group (options.group, options.topic))
      (setOffset last p (record.offset + 1)) member process)
    (htoken : ∀ t, process.token = some t → t = (p, record.offset)) :
    Fenced options dataDir (setOffset last p (record.offset + 1)) (s.become member c process) ∧
      Raises last (setOffset last p (record.offset + 1)) := by
  have hserves : Serves (options.group, options.topic) none s.coordinator c :=
    s.coordinator.commit_serves env hcommit
  have hle := committed_le ((h.fenced hm).serves hserves (fun hno => by cases hno)) howner
  have hraises : Raises last (setOffset last p (record.offset + 1)) :=
    .setOffset (Nat.le_succ_of_le hle)
  have hfresh : ∀ m t, (s.consumers m).token = some t → t ≠ (p, record.offset) := by
    rintro m t hm' rfl
    have hlt := (h.pending m _ hm').2
    simp only at hlt
    omega
  have hself : record.offset < committed (setOffset last p (record.offset + 1)) p := by
    rw [committed_setOffset, if_pos rfl]
    exact Nat.lt_succ_self _
  have htokens : ∀ m t, ((s.become member c process).consumers m).token = some t →
      (m = member ∧ t = (p, record.offset)) ∨ (m ≠ member ∧ (s.consumers m).token = some t) := by
    intro m t hm'
    simp only [System.become] at hm'
    split at hm'
    · rename_i heq
      exact Or.inl ⟨heq, htoken t hm'⟩
    · rename_i hne
      exact Or.inr ⟨hne, hm'⟩
  refine ⟨⟨hserves.dir.trans h.dir, hholds, hserves.owner h.owner, fun m => ?_, ?_, ?_, h.once, ?_⟩,
    hraises⟩
  · simp only [System.become]
    split
    · rename_i heq
      subst heq
      exact hp
    · rename_i hne
      have hm' := h.consumers m
      cases hproc : s.consumers m with
      | consuming session' phase =>
        rw [hproc] at hm'
        have hserved := SessionFenced.serves hm' hserves (fun hno => by cases hno)
        exact hserved.commit (hserves.owner h.owner) howner hne _
      | _ => trivial
  · intro m m' t hm₁ hm₂
    rcases htokens m t hm₁ with ⟨rfl, rfl⟩ | ⟨_, hm₁⟩
    · rcases htokens m' _ hm₂ with ⟨rfl, _⟩ | ⟨_, hm₂⟩
      · rfl
      · exact absurd rfl (hfresh m' _ hm₂)
    · rcases htokens m' t hm₂ with ⟨_, rfl⟩ | ⟨_, hm₂⟩
      · exact absurd rfl (hfresh m _ hm₁)
      · exact h.unique m m' t hm₁ hm₂
  · intro m t hm₁
    rcases htokens m t hm₁ with ⟨_, rfl⟩ | ⟨_, hm₁⟩
    · refine ⟨fun hin => ?_, hself⟩
      have hlt := h.below _ hin
      simp only at hlt
      omega
    · obtain ⟨hnot, hlt⟩ := h.pending m t hm₁
      exact ⟨hnot, Nat.lt_of_lt_of_le hlt (hraises.committed_le t.1)⟩
  · intro t ht
    exact Nat.lt_of_lt_of_le (h.below t ht) (hraises.committed_le t.1)

/-- The commit is accepted, or refused; when writing fails the offset may have been raised. -/
theorem commit (h : Fenced options dataDir last s)
    (hm : s.consumers member = .consuming session (.processing p rest record records .start))
    (hcommit : s.coordinator.commit env (System.identity options member session) p
      (record.offset + 1) = (res, c)) :
    (∃ last', Fenced options dataDir last' (s.become member c .joining) ∧ Raises last last') ∧
    (res = .ok () → ∃ last', Fenced options dataDir last' (s.become member c
      (.consuming session (.processing p rest record records .committed))) ∧ Raises last last') := by
  have hsession := h.fenced hm
  obtain ⟨hloaded, hrest, hfits, hle, hsorted⟩ := hsession.shape
  have hserves : Serves (options.group, options.topic) none s.coordinator c :=
    s.coordinator.commit_serves env hcommit
  rcases commit_holds h.holds rfl hfits hcommit with ⟨hholds, e, hres⟩ | ⟨hholds, howner⟩
  · refine ⟨⟨last, ?_, .refl last⟩, fun hok => ?_⟩
    · exact h.become hserves (fun _ hno => by cases hno) hholds trivial (Or.inl rfl)
    · rw [hok] at hres
      cases hres
  · refine ⟨⟨_, h.raise hm hcommit hholds howner trivial fun _ hno => (by cases hno)⟩,
      fun _ => ⟨_, h.raise hm hcommit hholds howner ?_ fun _ ht => ?_⟩⟩
    · have hserved := hsession.serves hserves (fun hno => by cases hno)
      refine ⟨⟨hloaded, hrest, hfits, hle, hsorted⟩, hserved.ordered, fun hin hgen q hq o ho => ?_⟩
      rw [committed_setOffset]
      simp only [Session.position] at ho
      split at ho
      · rename_i hqp
        cases ho
        rw [if_pos hqp.1]
      · rename_i hqp
        have hne : q ≠ p := fun heq => hqp ⟨heq, fun hno => (by cases hno)⟩
        rw [if_neg hne]
        refine hserved.agrees hin hgen q hq o ?_
        rw [Session.position, if_neg (fun hno => hne hno.1)]
        exact ho
    · exact (Option.some.inj ht).symm

end Commit

/-! ### Records -/

section Records

variable {g : ConsumerGroup} {m : String} {phase : Phase} {p : Nat} {rest : List Nat}
  {record : StoredRecord} {records : List StoredRecord} {stage : Stage}

theorem processNext_token (session : Session) (p : Nat) (rest : List Nat)
    (records : List StoredRecord) : (processNext session p rest records).token = none := by
  cases records with
  | nil => cases rest <;> rfl
  | cons record records =>
    rw [processNext]
    split <;> rfl

/-- The records of a partition are taken up, from where the consumer goes on. -/
theorem processNext_fenced (h : SessionFenced g last m session phase) {session' : Session}
    (hgen : session'.generation = session.generation)
    (hposition : ∀ q, session'.offsets q = session.position phase q) (hloaded : session'.Loaded)
    (hrest : p :: rest ⊆ session'.partitions)
    (hsorted : records.Pairwise (·.offset < ·.offset))
    (hle : ∀ x ∈ records, session'.offset p ≤ x.offset) :
    ProcessFenced g last m (processNext session' p rest records) := by
  cases records with
  | nil =>
    refine h.next hgen (hloaded.pollNext fun q hq => hrest (List.mem_cons_of_mem _ hq)) fun q => ?_
    rw [Session.position_pollNext]
    exact hposition q
  | cons record records =>
    rw [processNext]
    split
    · rename_i hfits
      refine h.next hgen ⟨hloaded, hrest, hfits, hle record List.mem_cons_self, hsorted⟩ fun q => ?_
      rw [Session.position, if_neg (fun hno => hno.2 rfl)]
      exact hposition q
    · trivial

/-- The record at hand was handled. -/
theorem handled (h : SessionFenced g last m session (.processing p rest record records stage))
    (hstage : stage ≠ .start) :
    ProcessFenced g last m
      (processNext (session.insert p (record.offset + 1)) p rest records) := by
  obtain ⟨hloaded, hrest, hfits, _, hsorted⟩ := h.shape
  obtain ⟨hfirst, hothers⟩ := List.pairwise_cons.1 hsorted
  refine processNext_fenced h rfl (fun q => ?_) (hloaded.insert p _) hrest hothers fun x hx => ?_
  · simp only [Session.insert, Session.position, hstage, ne_eq, not_false_eq_true, and_true]
  · have hnext : (session.insert p (record.offset + 1)).offset p = record.offset + 1 := by
      simp [Session.insert, Session.offset]
    rw [hnext]
    exact hfirst x hx

/-- The handler is started: the token is spent. -/
theorem invoke (h : Fenced options dataDir last s)
    (hm : s.consumers member = .consuming session (.processing p rest record records .committed)) :
    Fenced options dataDir last { s.become member s.coordinator
        (.consuming session (.processing p rest record records .running)) with
      invoked := s.invoked ++ [(p, record.offset)] } := by
  have htoken : (s.consumers member).token = some (p, record.offset) := by rw [hm]; rfl
  obtain ⟨hnot, hlt⟩ := h.pending member _ htoken
  have hsession : ProcessFenced (s.coordinator.group (options.group, options.topic)) last member
      (.consuming session (.processing p rest record records .running)) :=
    (h.fenced hm).next rfl (h.fenced hm).shape fun q => by simp [Session.position]
  have hnext := @proceed _ _ _ _ member h _ hsession (Or.inl rfl)
  refine ⟨hnext.dir, hnext.holds, hnext.owner, hnext.consumers, hnext.unique, ?_, ?_, ?_⟩
  · intro m t ht
    obtain ⟨hnotin, hbelow⟩ := hnext.pending m t ht
    refine ⟨fun hin => ?_, hbelow⟩
    rcases List.mem_append.1 hin with hin | hin
    · exact hnotin hin
    · -- two consumers do not hold the same token
      rw [List.mem_singleton] at hin
      subst hin
      simp only [System.become] at ht
      split at ht
      · cases ht
      · rename_i hne
        exact hne (h.unique m member _ ht htoken)
  · refine List.nodup_append.2 ⟨h.once, List.nodup_singleton _, fun a ha b hb => ?_⟩
    rw [List.mem_singleton] at hb
    subst hb
    intro heq
    exact hnot (heq ▸ ha)
  · intro t ht
    rcases List.mem_append.1 ht with ht | ht
    · exact h.below t ht
    · rw [List.mem_singleton] at ht
      subst ht
      exact hlt

theorem process (h : Fenced options dataDir last s)
    (hm : s.consumers member = .consuming session (.processing p rest record records stage))
    (hs : s.process .atMostOnce options member session p rest record records stage action =
      some s') : ∃ last', Fenced options dataDir last' s' ∧ Raises last last' := by
  have hdone : ∀ {completed}, stage ≠ .start → Fenced options dataDir last
      { s.become member s.coordinator
        (completedNext .atMostOnce session p rest record records) with completed := completed } := by
    intro completed hstage
    have hnext := @proceed _ _ _ _ member h _ (handled (h.fenced hm) hstage)
      (Or.inl (processNext_token _ _ _ _))
    exact ⟨hnext.dir, hnext.holds, hnext.owner, hnext.consumers, hnext.unique, hnext.pending,
      hnext.once, hnext.below⟩
  unfold System.process at hs
  split at hs
  · split at hs
    · rename_i hstage
      subst hstage
      split at hs
      · rename_i hcommit
        cases hs
        exact (h.commit hm hcommit).1
      · rename_i hcommit
        cases hs
        exact (h.commit hm hcommit).2 rfl
    · cases hs
  · split at hs
    · rename_i hstage
      subst hstage
      cases hs
      exact ⟨last, h.invoke hm, .refl last⟩
    · cases hs
  · split at hs
    · rename_i hstage
      subst hstage
      cases hs
      refine ⟨last, h.proceed ?_ (Or.inl rfl), .refl last⟩
      exact (h.fenced hm).next rfl (h.fenced hm).shape fun q => by simp [Session.position]
    · cases hs
  · split at hs
    · rename_i hstage
      cases hs
      exact ⟨last, hdone (by rw [hstage]; exact fun hno => (by cases hno)), .refl last⟩
    · cases hs
  · split at hs
    · rename_i hstage
      cases hs
      exact ⟨last, hdone (by rw [hstage]; exact fun hno => (by cases hno)), .refl last⟩
    · cases hs
  · cases hs

end Records

/-! ### Steps -/

theorem consume (h : Fenced options dataDir last s) {phase : Phase}
    (hm : s.consumers member = .consuming session phase)
    (hs : s.consume .atMostOnce options member session phase action = some s') :
    ∃ last', Fenced options dataDir last' s' ∧ Raises last last' := by
  have hsession := h.fenced hm
  unfold System.consume at hs
  split at hs
  · -- an offset is loaded
    rename_i p rest env
    split at hs
    · cases hs
      exact ⟨last, h.proceed trivial (Or.inl rfl), .refl last⟩
    · rename_i offset hread
      cases hs
      have hoffset := h.holds.committedOffset hread
      have htoken : (Process.consuming (session.insert p (offset.getD 0)) (loadNext rest)).token =
          none := by cases rest <;> rfl
      refine ⟨last, h.proceed ⟨?_, hsession.ordered, ?_⟩ (Or.inl htoken), .refl last⟩
      · have hloaded : ∀ q ∈ session.partitions, q ∈ rest ∨
            (session.insert p (offset.getD 0)).offsets q ≠ none := by
          intro q hq
          simp only [Session.insert]
          split
          · exact Or.inr (Option.some_ne_none _)
          · rename_i hne
            rcases hsession.shape q hq with hin | hin
            · exact Or.inl ((List.mem_cons.1 hin).resolve_left hne)
            · exact Or.inr hin
        cases rest with
        | nil => exact fun q hq => (hloaded q hq).resolve_left List.not_mem_nil
        | cons q rest => exact hloaded
      · intro hin hgen q hq o ho
        rw [Session.position_loadNext] at ho
        simp only [Session.insert] at ho
        split at ho
        · rename_i heq
          cases ho
          rw [heq, hoffset]
          rfl
        · exact hsession.agrees hin hgen q hq o ho
  · -- a round over the partitions starts
    cases hs
    have htoken : (Process.consuming session (pollNext session.partitions)).token = none := by
      cases session.partitions <;> rfl
    refine ⟨last, h.proceed ?_ (Or.inl htoken), .refl last⟩
    refine hsession.next rfl (Session.Loaded.pollNext hsession.shape (List.Subset.refl _)) fun q => ?_
    rw [Session.position_pollNext]
    rfl
  · -- a fetch is authorized
    rename_i p rest env highWatermark
    have htouches := s.coordinator.authorizeFetch_touches env
      (System.identity options member session) p
    split at hs
    · split at hs
      · rename_i hauth
        cases hs
        rw [hauth] at htouches
        exact ⟨last, h.touch htouches trivial (Or.inl rfl), .refl last⟩
      · rename_i hauth
        cases hs
        rw [hauth] at htouches
        have hserved := hsession.serves htouches.serves (fun hno => by cases hno)
        refine ⟨last, h.touch htouches ?_ (Or.inl rfl), .refl last⟩
        exact hserved.next rfl hserved.shape fun q => rfl
    · cases hs
  · -- the records are read
    rename_i p rest highWatermark
    split at hs
    · cases hs
      exact ⟨last, h.proceed trivial (Or.inl rfl), .refl last⟩
    · rename_i records hread
      cases hs
      obtain ⟨hloaded, hrest⟩ := hsession.shape
      obtain ⟨k, hk⟩ := RecordLog.read_below hread highWatermark
      refine ⟨last, h.proceed ?_ (Or.inl (processNext_token _ _ _ _)), .refl last⟩
      rw [hk]
      exact processNext_fenced hsession rfl (fun q => rfl) hloaded hrest
        (Storage.storedFrom_increasing _ _) fun x hx => Storage.storedFrom_ge hx
  · cases hs
    refine ⟨last, h.proceed ?_ (Or.inl rfl), .refl last⟩
    exact hsession.next rfl hsession.shape.1 fun q => rfl
  · cases hs
    refine ⟨last, h.proceed ?_ (Or.inl rfl), .refl last⟩
    exact hsession.next rfl hsession.shape.1 fun q => rfl
  · cases hs
    exact ⟨last, h.touch (s.coordinator.leave_touches _ _) trivial (Or.inl rfl), .refl last⟩
  · exact h.process hm hs
  · cases hs

theorem act (h : Fenced options dataDir last s)
    (hs : s.act .atMostOnce options member (s.consumers member) action = some s') :
    ∃ last', Fenced options dataDir last' s' ∧ Raises last last' := by
  generalize hm : s.consumers member = process at hs
  unfold System.act at hs
  split at hs
  · cases hs
    exact ⟨last, h.proceed trivial (Or.inl rfl), .refl last⟩
  · cases hs
    exact ⟨last, h.proceed trivial (Or.inl rfl), .refl last⟩
  · -- the consumer joins
    rename_i env
    have hserves : Serves (options.group, options.topic) (some member) s.coordinator _ :=
      s.coordinator.join_serves env options.group options.topic member
    have hloads := s.coordinator.join_loads env options.group options.topic member
    have hnew : ∀ x, some member = some x → x = member := fun x hx => (Option.some.inj hx).symm
    split at hs
    · rename_i heq
      cases hs
      rw [heq] at hserves hloads
      refine ⟨last, h.become hserves hnew ?_ trivial (Or.inl rfl), .refl last⟩
      rw [hloads.disk, hloads.dir]
      exact h.holds
    · rename_i generation partitions c heq
      cases hs
      have hgen := Coordinator.join_generation heq
      rw [heq] at hserves hloads
      have htoken : (Process.consuming ⟨generation, partitions, fun _ => none⟩
          (loadNext partitions)).token = none := by cases partitions <;> rfl
      refine ⟨last, h.become hserves hnew ?_ ⟨?_, fun _ => ?_, fun _ _ q _ o ho => ?_⟩
        (Or.inl htoken), .refl last⟩
      · rw [hloads.disk, hloads.dir]
        exact h.holds
      · cases partitions with
        | nil => exact fun q hq => absurd hq List.not_mem_nil
        | cons p rest => exact fun q hq => Or.inl hq
      · exact Nat.le_of_eq hgen.symm
      · rw [Session.position_loadNext] at ho
        cases ho
  · rename_i session phase env
    cases hs
    have htouches := s.coordinator.heartbeat_touches env (System.identity options member session)
    have hserved := (h.fenced hm).serves htouches.serves (fun hno => by cases hno)
    exact ⟨last, h.touch htouches hserved (Or.inr (by rw [hm])), .refl last⟩
  · split at hs
    · cases hs
      exact ⟨last, h.proceed trivial (Or.inl rfl), .refl last⟩
    · cases hs
  · exact h.consume hm hs
  · cases hs

/-- The broker takes a step. -/
theorem serve (h : Fenced options dataDir last s)
    (hc : Serves (options.group, options.topic) none s.coordinator s'.coordinator)
    (hdisk : s'.coordinator.disk = s.coordinator.disk) (hsame : s'.consumers = s.consumers)
    (hinvoked : s'.invoked = s.invoked) : Fenced options dataDir last s' := by
  refine ⟨hc.dir.trans h.dir, ?_, hc.owner h.owner, fun m => ?_, ?_, ?_, ?_, ?_⟩
  · rw [hdisk, hc.dir]
    exact h.holds
  · have hm := h.consumers m
    rw [hsame]
    cases hproc : s.consumers m with
    | consuming session phase =>
      rw [hproc] at hm
      exact SessionFenced.serves hm hc (fun hno => by cases hno)
    | _ => trivial
  · rw [hsame]
    exact h.unique
  · rw [hsame, hinvoked]
    exact h.pending
  · rw [hinvoked]
    exact h.once
  · rw [hinvoked]
    exact h.below

/-- The broker is started again: nobody is a member any more. -/
theorem restart (h : Fenced options dataDir last s) {c : Coordinator}
    {logs : Nat → RecordLog} {partitionCount sessionTimeout : Nat}
    (hopen : Coordinator.openDir s.coordinator.disk dataDir partitionCount sessionTimeout = .ok c) :
    Fenced options dataDir last { s with coordinator := c, logs := logs } := by
  obtain ⟨offsets, hg⟩ := Coordinator.openDir_new hopen (options.group, options.topic)
  refine ⟨Coordinator.openDir_dir hopen, h.holds.openDir hopen h.dir, ?_, fun m => ?_, h.unique,
    h.pending, h.once, h.below⟩
  · show OneOwner (c.group (options.group, options.topic))
    rw [hg]
    intro m m' p hp
    cases hp
  · show ProcessFenced (c.group (options.group, options.topic)) last m (s.consumers m)
    have hm := h.consumers m
    cases hproc : s.consumers m with
    | consuming session phase =>
      rw [hproc] at hm
      rw [hg]
      exact ⟨SessionFenced.shape hm, fun hno => ((by cases hno)), fun hno => ((by cases hno))⟩
    | _ => trivial

/-- **One step.** -/
theorem step (h : Fenced options dataDir last s) {e : Event}
    (hs : s.step .atMostOnce options dataDir e = some s') :
    ∃ last', Fenced options dataDir last' s' ∧ Raises last last' := by
  have hsame : Serves (options.group, options.topic) none s.coordinator s.coordinator :=
    (Coordinator.Touches.refl _).serves
  unfold System.step at hs
  split at hs
  · exact h.act hs
  · split at hs
    · cases hs
      exact ⟨last, h, .refl last⟩
    · cases hs
      exact ⟨last, h.serve hsame rfl rfl rfl, .refl last⟩
  · cases hs
    exact ⟨last, h.serve hsame rfl rfl rfl, .refl last⟩
  · rename_i env
    cases hs
    have htouches := s.coordinator.expireLoop_touches env env.order
    exact ⟨last, h.serve htouches.serves htouches.disk rfl rfl, .refl last⟩
  · rename_i env topic partitions
    cases hs
    exact ⟨last, h.serve (s.coordinator.setTopicPartitions_serves env topic partitions)
      (s.coordinator.setTopicPartitions_reloads env topic partitions).disk rfl rfl, .refl last⟩
  · split at hs
    · cases hs
    · rename_i c hopen
      cases hs
      exact ⟨last, h.restart hopen, .refl last⟩

/-- **A run.** -/
theorem run (h : Fenced options dataDir last s) {events : List Event}
    (hrun : SevlaMq.run (System.step .atMostOnce options dataDir) s events = some s') :
    ∃ last', Fenced options dataDir last' s' ∧ Raises last last' := by
  induction events generalizing s last with
  | nil =>
    cases hrun
    exact ⟨last, h, .refl last⟩
  | cons e events ih =>
    simp only [SevlaMq.run] at hrun
    split at hrun
    · cases hrun
    · rename_i s₁ hs
      obtain ⟨last₁, h₁, hraises₁⟩ := h.step hs
      obtain ⟨last', h', hraises'⟩ := ih h₁ hrun
      exact ⟨last', h', hraises₁.trans hraises'⟩

end Fenced

theorem Initial.fenced {options : Options} {dataDir : Path} {last : Nat → Option Nat} {s : System}
    (h : Initial options dataDir last s) : Fenced options dataDir last s := by
  obtain ⟨disk, partitionCount, sessionTimeout, hholds, hopen⟩ := h.opened
  obtain ⟨offsets, hg⟩ := Coordinator.openDir_new hopen (options.group, options.topic)
  refine ⟨Coordinator.openDir_dir hopen, hholds.openDir hopen rfl, ?_, fun m => ?_, ?_, ?_, ?_, ?_⟩
  · rw [hg]
    intro m m' p hp
    cases hp
  · rw [h.down m]
    trivial
  · intro m m' t hm
    rw [h.down m] at hm
    cases hm
  · intro m t hm
    rw [h.down m] at hm
    cases hm
  · rw [h.invoked]
    exact List.nodup_nil
  · rw [h.invoked]
    exact fun t ht => absurd ht List.not_mem_nil

/-- **At-most-once consumption.**  In every run of the broker and any consumers, one process for each
member id, the handler is started at most once for each offset of a partition, and from any point of
the run on no committed offset decreases. -/
theorem handled_at_most_once {options : Options} {dataDir : Path} {last : Nat → Option Nat}
    {s₀ s s' : System} (h₀ : Initial options dataDir last s₀) {past events : List Event}
    (hpast : run (System.step .atMostOnce options dataDir) s₀ past = some s)
    (hrun : run (System.step .atMostOnce options dataDir) s events = some s') :
    s'.invoked.Nodup ∧
    ∀ env env' p o c', s.coordinator.committedOffset env options.group options.topic p =
        .ok (some o) →
      s'.coordinator.committedOffset env' options.group options.topic p = .ok c' →
      ∃ o', c' = some o' ∧ o ≤ o' := by
  obtain ⟨last₁, h₁, _⟩ := h₀.fenced.run hpast
  obtain ⟨last', h', hraises⟩ := h₁.run hrun
  refine ⟨h'.once, fun env env' p o c' hread hread' => ?_⟩
  rw [h'.holds.committedOffset hread']
  exact hraises p o (h₁.holds.committedOffset hread).symm

/-- A worker has committed a payment that it has not handled yet, and another one joins. -/
def rebalancingEvents : List Event :=
  [.produce 0 payment, .produce 0 payment, .advance 0 2] ++
  [.start, .join (envAt 0), .load (envAt 0), .poll, .fetch (envAt 0) 2, .read,
    .commit (envAt 1)].map (.consumer "worker-a") ++
  [.start, .join (envAt 2)].map (.consumer "worker-b")

/-- It handles the payment, is refused the commit of the next one, joins again and handles that too;
then the broker is started again. -/
def rejoiningEvents : List Event :=
  [.invoke, .succeed, .commit (envAt 3), .join (envAt 4), .load (envAt 4), .poll,
    .fetch (envAt 4) 2, .read, .commit (envAt 5), .invoke].map (.consumer "worker-a") ++
  [.restart 1 10 fun _ => 1]

theorem handled_at_most_once_rejoining :
    ∃ c s s', Coordinator.openDir (.fresh ["data"]) ["data"] 1 10 = .ok c ∧
      run (System.step .atMostOnce workers ["data"]) (freshSystem c) rebalancingEvents = some s ∧
      run (System.step .atMostOnce workers ["data"]) s rejoiningEvents = some s' ∧
      s'.invoked = [(0, 0), (0, 1)] ∧ s'.invoked.Nodup := by
  obtain ⟨c, hopen⟩ : ∃ c, Coordinator.openDir (.fresh ["data"]) ["data"] 1 10 = .ok c := ⟨_, rfl⟩
  have hrun : ((run (System.step .atMostOnce workers ["data"]) (freshSystem c)
      rebalancingEvents).any fun s =>
      (run (System.step .atMostOnce workers ["data"]) s rejoiningEvents).any fun s' =>
        decide (s'.invoked = [(0, 0), (0, 1)])) = true := by
    cases hopen
    decide +kernel
  obtain ⟨s, hs, hrest⟩ := (Option.any_eq_true _ _).1 hrun
  obtain ⟨s', hs', hinvoked⟩ := (Option.any_eq_true _ _).1 hrest
  exact ⟨c, s, s', hopen, hs, hs', of_decide_eq_true hinvoked,
    (handled_at_most_once (freshSystem_initial hopen) hs hs').1⟩

end SevlaMq.Consumer
