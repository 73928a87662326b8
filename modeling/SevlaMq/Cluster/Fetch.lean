import SevlaMq.Cluster.Contents
import SevlaMq.Cluster.Step

/-!
# The two fetch paths

`Fetch` reads the log and then looks the high watermark up; `GroupFetch` looks it up first, has the
request authorised by the group coordinator and then reads.  The steps of both interleave with
everything else the brokers do: `Service` adds the group fetches to the cluster.

* `returned` — the records the step of a request gives to its client.
* `Exposes` — a record is in the log of a broker, below the high watermark the broker knows.
* `fetch_exposes_committed` — as long as no record is cut off while a `Fetch` holds it uncommitted,
  and no high watermark falls below the one a `GroupFetch` holds, every record returned was exposed
  at some moment.
-/

set_option autoImplicit false

namespace SevlaMq.Cluster

open SevlaMq.Storage

/-! ## The model -/

/-- A group fetch that passed the leadership check. -/
inductive GroupFetch where
  | lookup (offset maxBytes : Nat)
  | authorize (highWatermark offset maxBytes : Nat)
  | read (highWatermark offset maxBytes : Nat)
  | done
  deriving DecidableEq, Repr

/-- The next step of a group fetch on the broker `x`, and the records it returns.  `granted` is the
answer of the coordinator. -/
def GroupFetch.step (x : Broker) (granted : Bool) :
    GroupFetch → Option (GroupFetch × List FetchedRecord)
  | .lookup offset maxBytes =>
    match x.entry with
    | none => some (.done, [])
    | some l => some (.authorize l.highWatermark offset maxBytes, [])
  | .authorize highWatermark offset maxBytes =>
    if granted then some (.read highWatermark offset maxBytes, []) else some (.done, [])
  | .read highWatermark offset maxBytes =>
    match readRecords x.log offset maxBytes with
    | none => some (.done, [])
    | some records => some (.done, records.filter (·.offset < highWatermark))
  | .done => none

/-- The high watermark a group fetch holds. -/
def GroupFetch.bound : GroupFetch → Nat
  | .authorize highWatermark _ _ => highWatermark
  | .read highWatermark _ _ => highWatermark
  | _ => 0

/-- The cluster and the group fetches being handled. -/
structure Service where
  cluster : State
  groupFetches : List (BrokerId × GroupFetch)

inductive ServiceAction where
  | cluster (a : Action)
  | groupFetch (b : BrokerId) (offset maxBytes : Nat)
  | proceed (index : Nat) (granted : Bool)
  deriving DecidableEq, Repr

/-- The group fetches that go on after a cluster action. -/
def surviving (fetches : List (BrokerId × GroupFetch)) : Action → List (BrokerId × GroupFetch)
  | .restart b => fetches.filter (·.1 ≠ b)
  | _ => fetches

def Service.step (cfg : ClusterConfig) (s : Service) : ServiceAction → Option Service
  | .cluster a =>
    match Cluster.step cfg s.cluster a with
    | none => none
    | some cluster => some ⟨cluster, surviving s.groupFetches a⟩
  | .groupFetch b offset maxBytes =>
    -- `cluster_leadership_error`
    if b ∈ cfg.nodes ∧
        (cfg.nodes.length = 1 ∨ (s.cluster.broker b).entry.map (·.leaderId) = some b) then
      some { s with groupFetches := s.groupFetches ++ [(b, .lookup offset maxBytes)] }
    else none
  | .proceed index granted =>
    match s.groupFetches[index]? with
    | none => none
    | some (b, g) =>
      match g.step (s.cluster.broker b) granted with
      | none => none
      | some (g', _) => some { s with groupFetches := s.groupFetches.set index (b, g') }

def Service.init : Service := ⟨State.init, []⟩

/-! ## What is returned -/

/-- The records of a fetch response. -/
def Message.records : Message → List FetchedRecord
  | .fetched _ _ records => records
  | _ => []

/-- The records the next step returns to a client, with the broker that returns them. -/
def returned (cfg : ClusterConfig) (s : Service) : ServiceAction → List (BrokerId × FetchedRecord)
  | .cluster (.task index c) =>
    match s.cluster.tasks[index]? with
    | none => []
    | some (b, t) =>
      match taskStep cfg s.cluster b t c with
      | none => []
      | some e => (e.sent.flatMap Message.records).map (b, ·)
  | .proceed index granted =>
    match s.groupFetches[index]? with
    | none => []
    | some (b, g) =>
      match g.step (s.cluster.broker b) granted with
      | none => []
      | some (_, records) => records.map (b, ·)
  | _ => []

/-- The record is in the log of `b`, below the high watermark `b` knows. -/
def Exposes (b : BrokerId) (f : FetchedRecord) (s : Service) : Prop :=
  InLog (contents (s.cluster.broker b).log) f ∧ f.offset < (s.cluster.broker b).highWatermark

instance (b : BrokerId) (f : FetchedRecord) (s : Service) : Decidable (Exposes b f s) :=
  inferInstanceAs (Decidable (_ = _ ∧ _ < _))

/-! ## The condition -/

/-- The records a fetch holds between its read and its lookup. -/
def Task.held : Task → List FetchedRecord
  | .fetchFilter _ _ records => records
  | _ => []

/-- The length a task cuts the log to. -/
def Task.cutsTo : Task → Option Nat
  | .replicaTruncate _ m _ => some m.record.offset
  | .leadershipTruncate l _ => some l.highWatermark
  | .promoteTruncate l _ => some l.highWatermark
  | _ => none

/-- The task an action steps. -/
def ServiceAction.stepped (s : Service) : ServiceAction → Option (BrokerId × Task)
  | .cluster (.task index _) => s.cluster.tasks[index]?
  | _ => none

/-- No record is cut off while a fetch on the broker holds it and it is not committed there. -/
def KeepsHeld (s : Service) (p : BrokerId × Task) : Prop :=
  ∀ n ∈ p.2.cutsTo, ∀ q ∈ s.cluster.tasks, q.1 = p.1 → ∀ f ∈ q.2.held,
    f.offset < n ∨ f.offset < (s.cluster.broker p.1).highWatermark

/-- No entry is replaced by one whose high watermark is below that of a group fetch on the
broker. -/
def KeepsBounds (cfg : ClusterConfig) (s : Service) (p : BrokerId × Task) : Prop :=
  ∀ l ∈ p.2.update cfg, applyEntry cfg (s.cluster.broker p.1).entry l = .ok l →
    ∀ q ∈ s.groupFetches, q.1 = p.1 → q.2.bound ≤ l.highWatermark

instance (s : Service) (p : BrokerId × Task) : Decidable (KeepsHeld s p) :=
  inferInstanceAs (Decidable (∀ n ∈ p.2.cutsTo, ∀ q ∈ s.cluster.tasks, q.1 = p.1 →
    ∀ f ∈ q.2.held, f.offset < n ∨ f.offset < (s.cluster.broker p.1).highWatermark))

instance (cfg : ClusterConfig) (s : Service) (p : BrokerId × Task) :
    Decidable (KeepsBounds cfg s p) :=
  inferInstanceAs (Decidable (∀ l ∈ p.2.update cfg,
    applyEntry cfg (s.cluster.broker p.1).entry l = .ok l →
      ∀ q ∈ s.groupFetches, q.1 = p.1 → q.2.bound ≤ l.highWatermark))

/-- The step disturbs no fetch between its two looks at the broker. -/
def KeepsFetches (cfg : ClusterConfig) (s : Service) (a : ServiceAction) : Prop :=
  ∀ p ∈ a.stepped s, KeepsHeld s p ∧ KeepsBounds cfg s p

instance (cfg : ClusterConfig) (s : Service) (a : ServiceAction) :
    Decidable (KeepsFetches cfg s a) :=
  inferInstanceAs (Decidable (∀ p ∈ a.stepped s, KeepsHeld s p ∧ KeepsBounds cfg s p))

/-! ## What a move does to a broker -/

section Moves

variable {cfg : ClusterConfig} {s s' : State} {a : Action} {b : BrokerId} {e : Effect}

/-- A log grows at its end or is cut by a task. -/
theorem Move.log_cases (hm : Move cfg s a b e) :
    (s.broker b).log <+: e.broker.log ∨ ∃ index c t n, a = .task index c ∧
      s.tasks[index]? = some (b, t) ∧ t.cutsTo = some n ∧
      e.broker.log = (s.broker b).log.take n := by
  cases hm with
  | task ht hs =>
    cases hs with
    | append happ => exact Or.inl (appendInputs_isPrefix happ)
    | replicaTruncate hl => exact Or.inr ⟨_, _, _, _, rfl, ht, rfl, rfl⟩
    | leadershipTruncate hl => exact Or.inr ⟨_, _, _, _, rfl, ht, rfl, rfl⟩
    | promoteTruncate hl => exact Or.inr ⟨_, _, _, _, rfl, ht, rfl, rfl⟩
    | replicaStore hs => exact Or.inl (appendReplica_grows hs)
    | recoverStore he hs => exact Or.inl (appendReplica_grows hs)
    | _ => exact Or.inl List.prefix_rfl
  | _ => exact Or.inl List.prefix_rfl

theorem highWatermark_getD (x : Broker) (cfg : ClusterConfig) :
    x.highWatermark ≤ ({ x with entry := some (x.entry.getD (initialLeadership cfg)) } :
      Broker).highWatermark := by
  unfold Broker.highWatermark
  cases x.entry with
  | none => exact Nat.zero_le _
  | some l => exact Nat.le_refl _

/-- A high watermark falls only when a task installs another entry. -/
theorem Move.highWatermark_cases (hm : Move cfg s a b e) :
    (s.broker b).highWatermark ≤ e.broker.highWatermark ∨ ∃ index c t l, a = .task index c ∧
      s.tasks[index]? = some (b, t) ∧ t.update cfg = some l ∧
      applyEntry cfg (s.broker b).entry l = .ok l ∧ e.broker.entry = some l := by
  cases hm with
  | createTopic => exact Or.inl (highWatermark_getD _ _)
  | task ht hs =>
    cases hs with
    | commit ha => exact Or.inr ⟨_, _, _, _, rfl, ht, rfl, ha, rfl⟩
    | replicaAdopt ha => exact Or.inr ⟨_, _, _, _, rfl, ht, rfl, ha, rfl⟩
    | leadershipApply ha => exact Or.inr ⟨_, _, _, _, rfl, ht, rfl, ha, rfl⟩
    | promoteApply ha => exact Or.inr ⟨_, _, _, _, rfl, ht, rfl, ha, rfl⟩
    | syncApply ha => exact Or.inr ⟨_, _, _, _, rfl, ht, rfl, ha, rfl⟩
    | syncNewer => exact Or.inl (highWatermark_getD _ _)
    | syncOlder => exact Or.inl (highWatermark_getD _ _)
    | _ => exact Or.inl (Nat.le_refl _)
  | _ => exact Or.inl (Nat.le_refl _)

theorem finishRecord_holds_none (cfg : ClusterConfig) (b : BrokerId) (r : Replication) :
    (finishRecord cfg b r).1.held = [] := by
  unfold finishRecord
  split <;> rfl

/-- What a fetch holds after its read is in the log. -/
theorem Move.held (hm : Move cfg s a b e) :
    ∀ f ∈ e.task.held, InLog (contents e.broker.log) f := by
  intro f hf
  cases hm with
  | task ht hs =>
    cases hs with
    | append happ => split at hf <;> cases hf
    | committed => rw [finishRecord_holds_none] at hf; cases hf
    | uncommitted => rw [finishRecord_holds_none] at hf; cases hf
    | commit => rw [finishRecord_holds_none] at hf; cases hf
    | recoverStore => split at hf <;> cases hf
    | fetchRead hr => exact readRecords_inLog hr f hf
    | _ => cases hf
  | _ => cases hf

/-- A fetch response holds what the fetch held, below the high watermark. -/
theorem TaskStep.records {t : Task} {c : Choice} (hs : TaskStep cfg s b t c e) :
    ∀ f ∈ e.sent.flatMap Message.records,
      f ∈ t.held ∧ f.offset < (s.broker b).highWatermark := by
  intro f hf
  obtain ⟨m, hm, hfm⟩ := List.mem_flatMap.1 hf
  have hcast : ∀ l : PartitionLeadership, m ∈ broadcast cfg b l → m.records = [] := by
    intro l hl
    obtain ⟨i, _, rfl⟩ := List.mem_map.1 hl
    rfl
  cases hs with
  | fetchFilter he =>
    cases List.mem_singleton.1 hm
    obtain ⟨hmem, hlt⟩ := List.mem_filter.1 hfm
    rw [Broker.highWatermark_eq he]
    exact ⟨hmem, of_decide_eq_true hlt⟩
  | commit => rw [hcast _ hm] at hfm; cases hfm
  | promoteApply => rw [hcast _ hm] at hfm; cases hfm
  | contact => cases List.mem_singleton.1 hm; cases hfm
  | catchUp => cases List.mem_singleton.1 hm; cases hfm
  | replicaGap => cases List.mem_singleton.1 hm; cases hfm
  | replicaStore => cases List.mem_singleton.1 hm; cases hfm
  | recoverFetch => cases List.mem_singleton.1 hm; cases hfm
  | _ => cases hm

end Moves

/-! ## Runs -/

variable {cfg : ClusterConfig}

/-- What a fetch holds is still in the log or was exposed; the high watermark a group fetch holds
has not fallen. -/
structure Fetching (cfg : ClusterConfig) (acts : List ServiceAction) (s : Service) : Prop where
  reached : run (Service.step cfg) Service.init acts = some s
  held : ∀ p ∈ s.cluster.tasks, ∀ f ∈ p.2.held, InLog (contents (s.cluster.broker p.1).log) f ∨
    Once (Service.step cfg) Service.init acts (Exposes p.1 f)
  bounds : ∀ p ∈ s.groupFetches, p.2.bound ≤ (s.cluster.broker p.1).highWatermark

namespace Fetching

variable {acts : List ServiceAction} {s s' : Service} {c : State} {a : Action} {b : BrokerId}
  {e : Effect}

theorem init (cfg : ClusterConfig) : Fetching cfg [] Service.init where
  reached := rfl
  held := fun _ hp => absurd hp List.not_mem_nil
  bounds := fun _ hp => absurd hp List.not_mem_nil

/-- The records held on the acting broker, after a step that cuts none of them off uncommitted. -/
theorem held_moved (h : Fetching cfg acts s) (hq : KeepsFetches cfg s (.cluster a))
    (hm : Move cfg s.cluster a b e) {t : Task} (ht : (b, t) ∈ s.cluster.tasks)
    {f : FetchedRecord} (hf : f ∈ t.held) : InLog (contents e.broker.log) f ∨
      Once (Service.step cfg) Service.init acts (Exposes b f) := by
  obtain hin | honce := h.held (b, t) ht f hf
  · rcases hm.log_cases with hgrow | ⟨index, choice, t', n, rfl, ht', hcut, hlog⟩
    · exact Or.inl (hin.mono (contents_isPrefix hgrow))
    · have hkeep := (hq (b, t') ht').1 n hcut (b, t) ht rfl f hf
      rcases hkeep with hlt | hlt
      · refine Or.inl ?_
        unfold InLog
        rw [hlog, contents_take, List.getElem?_take_of_lt hlt]
        exact hin
      · exact Or.inr (Once.now h.reached ⟨hin, hlt⟩)
  · exact Or.inr honce

/-- The bounds held on the acting broker. -/
theorem bounds_moved (h : Fetching cfg acts s) (hq : KeepsFetches cfg s (.cluster a))
    (hm : Move cfg s.cluster a b e) {g : GroupFetch} (hg : (b, g) ∈ s.groupFetches) :
    g.bound ≤ e.broker.highWatermark := by
  rcases hm.highWatermark_cases with hle | ⟨index, choice, t, l, rfl, ht, hupdate, happly, hentry⟩
  · exact Nat.le_trans (h.bounds (b, g) hg) hle
  · rw [Broker.highWatermark_eq hentry]
    exact (hq (b, t) ht).2 l hupdate happly (b, g) hg rfl

theorem cluster (h : Fetching cfg acts s) (hq : KeepsFetches cfg s (.cluster a))
    (hs : Cluster.step cfg s.cluster a = some c) :
    Fetching cfg (acts ++ [.cluster a]) ⟨c, surviving s.groupFetches a⟩ := by
  obtain ⟨b, e, hm, hmv⟩ := step_move hs
  refine ⟨run_snoc h.reached (by simp only [Service.step, hs]), ?_, ?_⟩
  · intro p hp f hf
    rcases hmv.tasks p hp with hother | rfl
    · have hold := others_subset hother
      by_cases hb : p.1 = b
      · obtain ⟨i, t⟩ := p
        subst hb
        rw [hmv.self]
        exact (h.held_moved hq hm hold hf).imp_right fun honce => honce.later _
      · rw [hmv.other _ hb]
        exact (h.held p hold f hf).imp_right fun honce => honce.later _
    · rw [hmv.self]
      exact Or.inl (hm.held f hf)
  · intro p hp
    have hold : p ∈ s.groupFetches := by
      unfold surviving at hp
      split at hp
      · exact (List.mem_filter.1 hp).1
      · exact hp
    by_cases hb : p.1 = b
    · obtain ⟨i, g⟩ := p
      subst hb
      rw [hmv.self]
      exact h.bounds_moved hq hm hold
    · rw [hmv.other _ hb]
      exact h.bounds p hold

theorem step_bound {x : Broker} {g g' : GroupFetch} {granted : Bool} {records : List FetchedRecord}
    (hg : g.bound ≤ x.highWatermark) (hs : g.step x granted = some (g', records)) :
    g'.bound ≤ x.highWatermark := by
  cases g with
  | lookup offset maxBytes =>
    simp only [GroupFetch.step] at hs
    split at hs
    · cases hs
      exact Nat.zero_le _
    · rename_i l he
      cases hs
      exact Nat.le_of_eq (Broker.highWatermark_eq he).symm
  | authorize highWatermark offset maxBytes =>
    simp only [GroupFetch.step] at hs
    split at hs
    · cases hs
      exact hg
    · cases hs
      exact Nat.zero_le _
  | read highWatermark offset maxBytes =>
    simp only [GroupFetch.step] at hs
    split at hs <;> cases hs <;> exact Nat.zero_le _
  | done => cases hs

theorem step {a : ServiceAction} (h : Fetching cfg acts s) (hq : KeepsFetches cfg s a)
    (hs : s.step cfg a = some s') : Fetching cfg (acts ++ [a]) s' := by
  cases a with
  | cluster a =>
    simp only [Service.step] at hs
    split at hs
    · cases hs
    · rename_i c hc
      cases hs
      exact h.cluster hq hc
  | groupFetch b offset maxBytes =>
    have hreached := run_snoc h.reached hs
    simp only [Service.step] at hs
    split at hs
    · cases hs
      refine ⟨hreached, ?_, ?_⟩
      · intro p hp f hf
        exact (h.held p hp f hf).imp_right fun honce => honce.later _
      · intro p hp
        rcases List.mem_append.1 hp with hp | hp
        · exact h.bounds p hp
        · cases List.mem_singleton.1 hp
          exact Nat.zero_le _
    · cases hs
  | proceed index granted =>
    have hreached := run_snoc h.reached hs
    simp only [Service.step] at hs
    split at hs
    · cases hs
    · rename_i b g hg
      split at hs
      · cases hs
      · rename_i g' records hstep
        cases hs
        refine ⟨hreached, ?_, ?_⟩
        · intro p hp f hf
          exact (h.held p hp f hf).imp_right fun honce => honce.later _
        · intro p hp
          rcases List.mem_or_eq_of_mem_set hp with hp | rfl
          · exact h.bounds p hp
          · exact step_bound (h.bounds (b, g) (List.mem_of_getElem? hg)) hstep

/-- What is returned next was exposed. -/
theorem exposed {a : ServiceAction} {f : FetchedRecord} (h : Fetching cfg acts s)
    (hr : (b, f) ∈ returned cfg s a) : Once (Service.step cfg) Service.init acts (Exposes b f) := by
  unfold returned at hr
  split at hr
  · rename_i index choice
    split at hr
    · cases hr
    · rename_i b' t ht
      split at hr
      · cases hr
      · rename_i e he
        obtain ⟨g, hg, heq⟩ := List.mem_map.1 hr
        cases heq
        obtain ⟨hheld, hlt⟩ := (taskStep_cases he).records f hg
        rcases h.held (b, t) (List.mem_of_getElem? ht) f hheld with hin | honce
        · exact Once.now h.reached ⟨hin, hlt⟩
        · exact honce
  · rename_i index granted
    split at hr
    · cases hr
    · rename_i b' g hg
      split at hr
      · cases hr
      · rename_i g' records hstep
        obtain ⟨x, hx, heq⟩ := List.mem_map.1 hr
        cases heq
        have hbound := h.bounds _ (List.mem_of_getElem? hg)
        refine Once.now h.reached ?_
        cases g with
        | read highWatermark offset maxBytes =>
          simp only [GroupFetch.step] at hstep
          split at hstep
          · cases hstep
            cases hx
          · rename_i read hread
            cases hstep
            obtain ⟨hmem, hlt⟩ := List.mem_filter.1 hx
            have hlt' : f.offset < highWatermark := of_decide_eq_true hlt
            exact ⟨readRecords_inLog hread f hmem, Nat.lt_of_lt_of_le hlt' hbound⟩
        | lookup offset maxBytes =>
          simp only [GroupFetch.step] at hstep
          split at hstep <;> cases hstep <;> cases hx
        | authorize highWatermark offset maxBytes =>
          simp only [GroupFetch.step] at hstep
          split at hstep <;> cases hstep <;> cases hx
        | done => cases hstep
  · cases hr

end Fetching

/-- **Fetches expose committed records.**  In every run whose steps disturb no fetch between its two
looks at the broker, a record that is returned was in the log of that broker, below its high
watermark, at some moment of the run. -/
theorem fetch_exposes_committed (cfg : ClusterConfig) {acts : List ServiceAction} {s : Service}
    (hq : Along (Service.step cfg) (KeepsFetches cfg) Service.init acts)
    (hr : run (Service.step cfg) Service.init acts = some s) {a : ServiceAction} {b : BrokerId}
    {f : FetchedRecord} (hf : (b, f) ∈ returned cfg s a) :
    Once (Service.step cfg) Service.init acts (Exposes b f) := by
  have h : Fetching cfg ([] ++ acts) s :=
    run_history (P := Fetching cfg) (fun _ _ _ _ hp hq hs => hp.step hq hs) (Fetching.init cfg) hq hr
  exact h.exposed hf

/-- A fetch reads the record of broker 2 before it is committed and a group fetch looks the high
watermark up afterwards. -/
def committedFetchRun : List ServiceAction :=
  [.cluster (.createTopic 1), .cluster (.createTopic 2), .cluster (.createTopic 3),
    .cluster (.produce 2 (oneRecord 7 .leader)), .cluster (.task 0 (.stamp [5])),
    .cluster (.fetch 2 0 100), .cluster (.deliver 0), .cluster (.task 1 .go),
    .cluster (.task 0 .go), .cluster (.task 0 .go), .cluster (.task 0 .go), .cluster (.deliver 1),
    .cluster (.task 2 .go), .cluster (.task 2 .go), .cluster (.task 0 (.receive 2)),
    .cluster (.task 0 .fail), .cluster (.task 0 .go), .cluster (.task 0 .go), .groupFetch 2 0 100,
    .proceed 0 true, .proceed 0 true]

theorem fetch_exposes_committed_read : ∃ s f,
    run (Service.step threeNodes) Service.init committedFetchRun = some s ∧
    (2, f) ∈ returned threeNodes s (.cluster (.task 1 .go)) ∧
    (2, f) ∈ returned threeNodes s (.proceed 0 true) ∧
    Once (Service.step threeNodes) Service.init committedFetchRun (Exposes 2 f) := by
  have hfetch : (run (Service.step threeNodes) Service.init committedFetchRun).any (fun s =>
      (2, ⟨0, 5, none, [7]⟩) ∈ returned threeNodes s (.cluster (.task 1 .go)) ∧
      (2, ⟨0, 5, none, [7]⟩) ∈ returned threeNodes s (.proceed 0 true)) := by decide +kernel
  obtain ⟨s, hr, hs⟩ := (Option.any_eq_true _ _).1 hfetch
  obtain ⟨hplain, hgroup⟩ := of_decide_eq_true hs
  exact ⟨s, _, hr, hplain, hgroup,
    fetch_exposes_committed threeNodes (by decide +kernel) hr hplain⟩

/-- A fetch reads the uncommitted record of broker 2; the record is cut off when broker 1 is
promoted, and the record of broker 1 that takes its place is committed before the fetch looks the
high watermark up. -/
def replacedFetchRun : List ServiceAction :=
  [.cluster (.createTopic 1), .cluster (.createTopic 2), .cluster (.createTopic 3),
    .cluster (.produce 2 (oneRecord 7 .leader)), .cluster (.task 0 (.stamp [5])),
    .cluster (.fetch 2 0 100), .cluster (.deliver 0), .cluster (.task 1 .go),
    .cluster (.promote 1), .cluster (.task 2 .go), .cluster (.task 2 .go), .cluster (.task 2 .go),
    .cluster (.task 2 .go), .cluster (.task 2 .go), .cluster (.task 2 .go), .cluster (.deliver 1),
    .cluster (.task 3 .go), .cluster (.task 3 .go), .cluster (.task 3 .go),
    .cluster (.produce 1 (oneRecord 8 .leader)), .cluster (.task 4 (.stamp [6])),
    .cluster (.task 4 .go), .cluster (.task 4 .go), .cluster (.task 4 .go), .cluster (.deliver 3),
    .cluster (.task 5 .go), .cluster (.task 5 .go), .cluster (.task 4 (.receive 4)),
    .cluster (.task 4 .fail), .cluster (.task 4 .go), .cluster (.task 4 .go), .cluster (.deliver 5),
    .cluster (.task 6 .go)]

theorem fetch_returns_lost_record : ∃ s,
    run (Service.step threeNodes) Service.init replacedFetchRun = some s ∧
    (2, ⟨0, 5, none, [7]⟩) ∈ returned threeNodes s (.cluster (.task 1 .go)) ∧
    ¬ Once (Service.step threeNodes) Service.init replacedFetchRun
      (Exposes 2 ⟨0, 5, none, [7]⟩) := by
  have hfetch : (run (Service.step threeNodes) Service.init replacedFetchRun).any (fun s =>
      (2, ⟨0, 5, none, [7]⟩) ∈ returned threeNodes s (.cluster (.task 1 .go))) := by decide +kernel
  obtain ⟨s, hr, hs⟩ := (Option.any_eq_true _ _).1 hfetch
  exact ⟨s, hr, of_decide_eq_true hs, by decide +kernel⟩

end SevlaMq.Cluster
