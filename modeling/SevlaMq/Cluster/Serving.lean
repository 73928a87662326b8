import SevlaMq.Cluster.Replication

/-!
# A healthy partition serves produce requests

The leader keeps its epoch, every broker answers and no round trip fails.  On top of the
single-epoch invariant this module keeps what ties the requests in flight to the tasks that wait for
them.

* `Healthy` — the partition at rest under its leader; `Calm` — the steps of the brokers while
  nothing fails and nobody else is promoted.
* `Serving` — the invariant; `Serving.step`, `Serving.of_run`.
-/

set_option autoImplicit false

namespace SevlaMq.Cluster

open SevlaMq.Storage

variable {cfg : ClusterConfig} {leader : BrokerId} {epoch : Nat}

/-! ## Healthy partitions and calm steps -/

/-- Every node follows `leader` in `epoch`, every log is a prefix of the leader's, every watermark is
backed, and nothing is in flight. -/
structure Healthy (cfg : ClusterConfig) (leader : BrokerId) (epoch : Nat) (s : State) : Prop where
  replica : leader ∈ cfg.replicaSet
  entries : ∀ b ∈ cfg.nodes, ∃ l, (s.broker b).entry = some l
  inEpoch : ∀ b l, (s.broker b).entry = some l → InEpoch cfg leader epoch s l
  logs : ∀ b, contents (s.broker b).log <+: contents (s.broker leader).log
  checked : ∀ r ∈ (s.broker leader).log, checkRecord r = .ok ()
  tasks : s.tasks = []
  net : s.net = []
  answers : s.answers = []

/-- A step of a healthy partition: no promotion, no restart, no failed or late round trip.  A
produce request has at least one record, as `ProduceBatchRequest::new` demands. -/
def Calm : Action → Bool
  | .promote _ => false
  | .restart _ => false
  | .produce _ request => request.inputs ≠ []
  | .task _ c => c ≠ .fail
  | _ => true

theorem calm_not_promote {a : Action} (h : Calm a) (candidate : BrokerId) :
    a ≠ .promote candidate := by
  rintro rfl
  cases h

/-! ## The invariant -/

/-- What a task knows about the requests in flight. -/
def Task.Serving (leader : BrokerId) (s : State) (b : BrokerId) : Task → Prop
  | .readBack _ offsets _ => ∀ offset ∈ offsets, offset < (s.broker leader).log.length
  | .awaitAck r _ conn first => ∃ m, Message.replicate conn b (r.followers.headD 0) m ∈ s.net ∧
      (first = true → m.record = r.current.record) ∧
      ∀ sender dst m', Message.replicate conn sender dst m' ∈ s.net → m' = m
  | .catchUp r _ next => next ≤ r.current.record.offset
  | .replicaExpected conn m => ∃ sender, Message.replicate conn sender b m ∈ s.net
  | .replicaStore conn m => ∃ sender, Message.replicate conn sender b m ∈ s.net
  | _ => True

/-- **The invariant of a healthy partition.** -/
structure Serving (cfg : ClusterConfig) (leader : BrokerId) (epoch : Nat) (s : State) : Prop where
  replica : leader ∈ cfg.replicaSet
  oneEpoch : OneEpoch cfg leader epoch s
  tasks : ∀ p ∈ s.tasks, p.2.Serving leader s p.1
  checked : ∀ r ∈ (s.broker leader).log, checkRecord r = .ok ()

theorem Healthy.serving {s : State} (h : Healthy cfg leader epoch s) :
    Serving cfg leader epoch s where
  replica := h.replica
  oneEpoch := by
    refine ⟨⟨fun b => ⟨h.logs b, fun hb => ?_, h.inEpoch b⟩, fun p hp => ?_, fun m hm => ?_⟩,
      fun a ha => ?_⟩
    · obtain ⟨l, hl⟩ := h.entries b hb
      rw [hl]
      exact Option.some_ne_none l
    · rw [h.tasks] at hp
      cases hp
    · rw [h.net] at hm
      cases hm
    · rw [h.answers] at ha
      cases ha
  tasks := fun p hp => by
    rw [h.tasks] at hp
    cases hp
  checked := h.checked

/-! ## What an append does -/

/-- Every record of the log was there or passed the check. -/
theorem append_checked {log log' : RecordLog} {r : Record} {offset : Nat}
    (h : log.append r = .ok (offset, log')) (hc : ∀ x ∈ log, checkRecord x = .ok ()) :
    ∀ x ∈ log', checkRecord x = .ok () := by
  unfold RecordLog.append at h
  split at h
  · cases h
  · cases h
    exact hc
  · split at h
    · cases h
    · rename_i hr
      cases h
      intro x hx
      rcases List.mem_append.1 hx with hx | hx
      · exact hc x hx
      · cases List.mem_singleton.1 hx
        exact hr

theorem appendInputs_checked : ∀ {inputs : List (ProduceInput × UInt64)} {log log' : RecordLog}
    {res : Except StorageError (List Nat)}, appendInputs log inputs = (res, log') →
      (∀ x ∈ log, checkRecord x = .ok ()) → ∀ x ∈ log', checkRecord x = .ok ()
  | [], log, log', res, h, hc => by cases h; exact hc
  | (i, ts) :: rest, log, log', res, h, hc => by
    unfold appendInputs at h
    split at h
    · cases h; exact hc
    · rename_i offset log₁ ha
      have h₁ := append_checked ha hc
      split at h
      · rename_i hrest
        cases h; exact appendInputs_checked hrest h₁
      · rename_i hrest
        cases h; exact appendInputs_checked hrest h₁

/-- One offset in the log is returned for every record. -/
theorem appendInputs_offsets : ∀ {inputs : List (ProduceInput × UInt64)} {log log' : RecordLog}
    {offsets : List Nat}, appendInputs log inputs = (.ok offsets, log') →
      offsets.length = inputs.length ∧ ∀ offset ∈ offsets, offset < log'.length
  | [], log, log', offsets, h => by
    cases h
    exact ⟨rfl, fun _ ho => by cases ho⟩
  | (i, ts) :: rest, log, log', offsets, h => by
    unfold appendInputs at h
    split at h
    · cases h
    · rename_i offset log₁ ha
      split at h
      · cases h
      · rename_i offsets' log₂ hrest
        cases h
        obtain ⟨hlen, hlt⟩ := appendInputs_offsets hrest
        refine ⟨by rw [List.length_cons, List.length_cons, hlen], fun o ho => ?_⟩
        rcases List.mem_cons.1 ho with rfl | ho
        · exact Nat.lt_of_lt_of_le (RecordLog.append_offset_lt ha)
            (appendInputs_isPrefix hrest).length_le
        · exact hlt o ho

/-! ## Steps -/

namespace Serving

variable {s s' : State} {a : Action} {b : BrokerId} {e : Effect}

/-- A task that does not step keeps what it knows. -/
theorem task_later (hlat : Later leader s s') {t : Task} (hin : t.InEpoch cfg leader epoch s b)
    (ht : t.Serving leader s b) : t.Serving leader s' b := by
  cases t with
  | readBack => exact fun o ho => Nat.lt_of_lt_of_le (ht o ho) (hlat.length leader)
  | awaitAck r l conn first =>
    obtain ⟨m, hm, hrec, huniq⟩ := ht
    refine ⟨m, hlat.net _ hm, hrec, fun sender dst m' hm' => ?_⟩
    rcases hlat.fresh _ _ _ _ hm' with hold | hnew
    · exact huniq sender dst m' hold
    · have hconn := hin.2.2.2.2.1
      omega
  | replicaExpected =>
    obtain ⟨sender, hm⟩ := ht
    exact ⟨sender, hlat.net _ hm⟩
  | replicaStore =>
    obtain ⟨sender, hm⟩ := ht
    exact ⟨sender, hlat.net _ hm⟩
  | _ => exact ht

theorem finish_serving (r : Replication) :
    (finishRecord cfg b r).1.Serving leader s b := by
  unfold finishRecord
  split <;> trivial

/-- A request that was just sent is alone on its connection. -/
theorem sent_alone (h : Serving cfg leader epoch s) (hmv : Moved s a b e s') {dst : BrokerId}
    {m : ReplicateRecord} (hs : e.sent = [.replicate s.nextConn b dst m]) :
    Message.replicate s.nextConn b dst m ∈ s'.net ∧
      ∀ sender dst' m', Message.replicate s.nextConn sender dst' m' ∈ s'.net → m' = m := by
  rw [hmv.net, hs]
  refine ⟨List.mem_append_right _ (List.mem_singleton.2 rfl), fun sender dst' m' hm' => ?_⟩
  rcases List.mem_append.1 hm' with hold | hnew
  · exact absurd (h.oneEpoch.sound.net _ hold).2 (Nat.lt_irrefl _)
  · cases List.mem_singleton.1 hnew
    rfl

theorem task_move (h : Serving cfg leader epoch s) (hm : Move cfg s a b e)
    (hmv : Moved s a b e s') : e.task.Serving leader s' b := by
  have hlat := h.oneEpoch.later hm hmv
  cases hm with
  | replicateSame hn =>
    exact ⟨_, hlat.net _ (List.mem_of_getElem? hn)⟩
  | task ht hs =>
    have hn := h.tasks _ (List.mem_of_getElem? ht)
    have hin := h.oneEpoch.sound.task ht
    cases hs with
    | @append request ts res log happ =>
      obtain rfl : b = leader := hin
      cases res with
      | ok offsets =>
        intro o ho
        rw [hmv.self]
        exact (appendInputs_offsets happ).2 o ho
      | error => trivial
    | readBack hr =>
      intro o ho
      exact Nat.lt_of_lt_of_le (hn o (List.mem_cons_of_mem _ ho)) (hlat.length leader)
    | dispatch => trivial
    | contact hf he =>
      obtain ⟨hsent, huniq⟩ := h.sent_alone hmv rfl
      refine ⟨_, ?_, fun _ => rfl, huniq⟩
      rw [hf]
      exact hsent
    | behind hnet hle => exact hle
    | catchUp hr =>
      obtain ⟨hsent, huniq⟩ := h.sent_alone hmv rfl
      exact ⟨_, hsent, fun hno => absurd hno Bool.false_ne_true, huniq⟩
    | committed => exact finish_serving _
    | uncommitted => exact finish_serving _
    | commit => exact finish_serving _
    | replicaReady =>
      obtain ⟨sender, hmsg⟩ := hn
      exact ⟨sender, hlat.net _ hmsg⟩
    | recoverStore => split <;> trivial
    | replicaAdopt => exact hin.elim
    | _ => trivial
  | _ => trivial

/-- Storing a record the log has leaves the log alone. -/
theorem stored_unchanged {log log' : RecordLog} {f : FetchedRecord} {offset : Nat}
    (hst : log.appendReplica f.offset f.toRecord = .ok (offset, log')) (hf : InLog (contents log) f) :
    log' = log := by
  rcases appendReplica_contents hst with hsame | ⟨hend, _⟩
  · exact hsame
  · have hlt := hf.lt
    rw [contents_length] at hlt
    omega

theorem checked_move (h : Serving cfg leader epoch s) (hm : Move cfg s a b e)
    (hmv : Moved s a b e s') : ∀ r ∈ (s'.broker leader).log, checkRecord r = .ok () := by
  by_cases hb : leader = b
  · subst hb
    rw [hmv.self]
    cases hm with
    | task ht hs =>
      have hin := h.oneEpoch.sound.task ht
      cases hs with
      | append happ => exact appendInputs_checked happ h.checked
      | replicaTruncate => exact hin.elim
      | leadershipTruncate => exact hin.elim
      | promoteTruncate => exact hin.elim
      | replicaStore hst =>
        rw [stored_unchanged hst hin.1.sourced]
        exact h.checked
      | recoverStore he hst =>
        rw [stored_unchanged hst (hin _ List.mem_cons_self)]
        exact h.checked
      | _ => exact h.checked
    | _ => exact h.checked
  · rw [hmv.other _ hb]
    exact h.checked

theorem step (h : Serving cfg leader epoch s) (hcalm : Calm a)
    (hs : Cluster.step cfg s a = some s') : Serving cfg leader epoch s' := by
  have hone := h.oneEpoch.step h.replica (calm_not_promote hcalm) hs
  obtain ⟨b, e, hm, hmv⟩ := step_move hs
  have hlat := h.oneEpoch.later hm hmv
  refine ⟨h.replica, hone, ?_, h.checked_move hm hmv⟩
  intro p hp
  rcases hmv.tasks p hp with hother | rfl
  · have hold := others_subset hother
    exact task_later hlat (h.oneEpoch.sound.tasks p hold) (h.tasks p hold)
  · exact h.task_move hm hmv

theorem of_run {acts : List Action} (h : Serving cfg leader epoch s) (hcalm : ∀ a ∈ acts, Calm a)
    (hr : run (Cluster.step cfg) s acts = some s') : Serving cfg leader epoch s' :=
  run_invariant (fun _ _ _ hp hq hs => hp.step hq hs) h (Along.of_mem hcalm) hr

end Serving

end SevlaMq.Cluster
