import SevlaMq.Cluster.Epochs

/-!
# Epoch fencing of the partition log

The `ReplicateRecord` handler, the `ApplyLeadership` handler and `promote_leader` compare epochs
when they start; the offset query, the truncation, the append and the registry update that follow
are separate awaited steps.  A registry update of another request may fall between any two of
them.

* `WriteFenced`, `RefusalClean` — the two halves of fencing, for one step of one request: a step
  that changes the log finds an entry not newer than the request, and a request that is refused
  as stale has not cut the log before.
* `overtaken_write` — a run on which a store of epoch 0 lands after the entry reached epoch 1.
* `requests_fenced` — both halves hold on every run on which no registry update overtakes another
  request of the broker that can still write.
-/

set_option autoImplicit false

namespace SevlaMq.Cluster

open SevlaMq.Storage

variable {cfg : ClusterConfig}

/-- The epoch a request carries. -/
def Task.requestEpoch : Task → Option Nat
  | .replicaTail _ m _ => some m.leaderEpoch
  | .replicaTruncate _ m _ => some m.leaderEpoch
  | .replicaAdopt _ m _ _ => some m.leaderEpoch
  | .replicaExpected _ m => some m.leaderEpoch
  | .replicaStore _ m => some m.leaderEpoch
  | .leadershipTail l _ => some l.leaderEpoch
  | .leadershipTruncate l _ => some l.leaderEpoch
  | .leadershipApply l _ _ => some l.leaderEpoch
  | .promoteQuery _ cur _ _ => some (cur.leaderEpoch + 1)
  | .promoteTail l _ => some l.leaderEpoch
  | .promoteTruncate l _ => some l.leaderEpoch
  | .promoteApply l _ _ => some l.leaderEpoch
  | _ => none

/-- A step of a request from `s` to `s'` that changes the log finds an entry that has not passed
the request's epoch. -/
def WriteFenced (s s' : State) (b : BrokerId) (t : Task) : Prop :=
  ∀ epoch, t.requestEpoch = some epoch → (s'.broker b).log ≠ (s.broker b).log →
    epochOf (s.broker b).entry ≤ epoch

/-- A request that is answered with `StaleEpoch` has left the log unchanged. -/
def RefusalClean (cfg : ClusterConfig) (s : State) (b : BrokerId) (t : Task) : Prop :=
  ∀ l, t.update cfg = some l → applyEntry cfg (s.broker b).entry l = .error .staleEpoch →
    t.cut = false

/-! ## A store after the entry has moved on -/

/-- Broker 3 has checked a record of epoch 0, then takes up epoch 1; the store is still to come. -/
def overtakenRun : List Action :=
  [.createTopic 1, .createTopic 2, .createTopic 3, .produce 2 (oneRecord 7 .leader),
    .task 0 (.stamp [5]), .task 0 .go, .task 0 .go, .task 0 .go, .deliver 0, .task 1 .go,
    .promote 1, .task 2 .go, .task 2 .go, .task 2 .go, .task 2 .go, .task 2 .go, .task 2 .go,
    .deliver 2, .task 3 .go, .task 3 .go]

theorem overtaken_write : ∃ s s', run (step threeNodes) State.init overtakenRun = some s ∧
    step threeNodes s (.task 1 .go) = some s' ∧ ∃ t, s.tasks[1]? = some (3, t) ∧
    ¬ WriteFenced s s' 3 t := by
  refine ⟨_, _, rfl, rfl, _, rfl, fun h => ?_⟩
  exact absurd (h 0 rfl (by decide +kernel)) (by decide +kernel)

/-! ## Requests that are not overtaken -/

/-- The epoch below which the entry has to stay for the request to go on safely: a request that
may still truncate, or has truncated, is ahead of the entry; a store is not behind it. -/
def Task.limit (b : BrokerId) : Task → Option Nat
  | .replicaTail _ m _ => some m.leaderEpoch
  | .replicaTruncate _ m _ => some m.leaderEpoch
  | .replicaAdopt _ m _ cut => if cut then some m.leaderEpoch else none
  | .replicaExpected _ m => some (m.leaderEpoch + 1)
  | .replicaStore _ m => some (m.leaderEpoch + 1)
  | .leadershipTail l _ => some l.leaderEpoch
  | .leadershipTruncate l _ => some l.leaderEpoch
  | .leadershipApply l _ cut => if cut then some l.leaderEpoch else none
  | .promoteQuery candidate cur _ _ => if candidate = b then some (cur.leaderEpoch + 1) else none
  | .promoteTail l _ => some l.leaderEpoch
  | .promoteTruncate l _ => some l.leaderEpoch
  | .promoteApply l _ cut => if cut then some l.leaderEpoch else none
  | _ => none

/-- A step that raises the epoch of a broker's entry overtakes no other request of this broker
that can still write. -/
def OvertakesNone (cfg : ClusterConfig) (s : State) (a : Action) : Prop :=
  ∀ p ∈ stepped s a, ∀ l ∈ p.2.update cfg, epochOf (s.broker p.1).entry < l.leaderEpoch →
    ∀ q ∈ others s a, q.1 = p.1 → ∀ limit ∈ q.2.limit q.1, l.leaderEpoch < limit

instance (s : State) (a : Action) : Decidable (OvertakesNone cfg s a) :=
  inferInstanceAs (Decidable (∀ p ∈ stepped s a, ∀ l ∈ p.2.update cfg,
    epochOf (s.broker p.1).entry < l.leaderEpoch →
      ∀ q ∈ others s a, q.1 = p.1 → ∀ limit ∈ q.2.limit q.1, l.leaderEpoch < limit))

/-- The invariant: every request is ahead of the entry as far as its limit asks. -/
def Ahead (s : State) : Prop :=
  ∀ b t, (b, t) ∈ s.tasks → ∀ limit, t.limit b = some limit → epochOf (s.broker b).entry < limit

namespace Ahead

variable {s s' : State} {a : Action} {b : BrokerId} {e : Effect}

/-- A move either leaves the epoch alone or is the registry update of the task it steps. -/
theorem raises (hm : Move cfg s a b e) :
    epochOf e.broker.entry = epochOf (s.broker b).entry ∨
    ∃ t l, stepped s a = some (b, t) ∧ t.update cfg = some l ∧ e.broker.entry = some l := by
  cases hm with
  | createTopic => exact Or.inl (epochOf_getD _)
  | task ht hs =>
    cases hs with
    | commit => exact Or.inr ⟨_, _, stepped_go ht, rfl, rfl⟩
    | replicaAdopt => exact Or.inr ⟨_, _, stepped_go ht, rfl, rfl⟩
    | leadershipApply => exact Or.inr ⟨_, _, stepped_go ht, rfl, rfl⟩
    | promoteApply => exact Or.inr ⟨_, _, stepped_go ht, rfl, rfl⟩
    | syncApply => exact Or.inr ⟨_, _, stepped_go ht, rfl, rfl⟩
    | syncNewer => exact Or.inl (epochOf_getD _)
    | syncOlder => exact Or.inl (epochOf_getD _)
    | _ => exact Or.inl rfl
  | _ => exact Or.inl rfl

/-- The other requests of the broker stay ahead. -/
theorem others_ahead (h : Ahead s) (hq : OvertakesNone cfg s a) (hm : Move cfg s a b e)
    {t : Task} (ht : (b, t) ∈ others s a) {limit : Nat} (hl : t.limit b = some limit) :
    epochOf e.broker.entry < limit := by
  have hold := h b t (others_subset ht) limit hl
  obtain hsame | ⟨t', l, hst, hup, hk⟩ := raises hm
  · rw [hsame]; exact hold
  · rw [hk, epochOf_some]
    rcases Nat.lt_or_ge (epochOf (s.broker b).entry) l.leaderEpoch with hlt | hge
    · exact hq _ hst _ hup hlt _ ht rfl _ hl
    · exact Nat.lt_of_le_of_lt hge hold

/-- The continuation of a move is ahead of the entry it leaves. -/
theorem continues (h : Ahead s) (hm : Move cfg s a b e) {limit : Nat}
    (hl : e.task.limit b = some limit) : epochOf e.broker.entry < limit := by
  cases hm with
  | promote he =>
    simp only [Task.limit] at hl
    split at hl
    · cases hl; rw [he, epochOf_some]; exact Nat.lt_succ_self _
    · cases hl
  | leadershipNewer hn he hlt => cases hl; rw [he, epochOf_some]; exact hlt
  | replicateNewer hn he hlt => cases hl; rw [he, epochOf_some]; exact hlt
  | replicateSame hn he heq => cases hl; rw [he, epochOf_some, heq]; exact Nat.lt_succ_self _
  | task ht hs =>
    have hold := h _ _ (List.mem_of_getElem? ht)
    cases hs with
    | append => revert hl; split <;> exact fun hl => by cases hl
    | committed => revert hl; unfold finishRecord; split <;> exact fun hl => by cases hl
    | uncommitted => revert hl; unfold finishRecord; split <;> exact fun hl => by cases hl
    | commit => revert hl; unfold finishRecord; split <;> exact fun hl => by cases hl
    | recoverStore => revert hl; split <;> exact fun hl => by cases hl
    | replicaLonger => cases hl; exact hold _ rfl
    | replicaTruncate =>
      simp only [Task.limit] at hl
      split at hl
      · cases hl; exact hold _ rfl
      · cases hl
    | replicaAdopt => cases hl; exact Nat.lt_succ_self _
    | replicaReady => cases hl; exact hold _ rfl
    | leadershipLonger => cases hl; exact hold _ rfl
    | leadershipTruncate =>
      simp only [Task.limit] at hl
      split at hl
      · cases hl; exact hold _ rfl
      · cases hl
    | promoteAsk => exact hold _ hl
    | promoteMiss => exact hold _ hl
    | promoteSelf => cases hl; exact hold _ (if_pos rfl)
    | promoteLonger => cases hl; exact hold _ rfl
    | promoteTruncate =>
      simp only [Task.limit] at hl
      split at hl
      · cases hl; exact hold _ rfl
      · cases hl
    | _ => cases hl
  | _ => cases hl

theorem step (h : Ahead s) (hq : OvertakesNone cfg s a) (hs : Cluster.step cfg s a = some s') :
    Ahead s' := by
  obtain ⟨b, e, hm, hmv⟩ := step_move hs
  intro i t ht limit hl
  rcases hmv.tasks (i, t) ht with hold | heq
  · by_cases hi : i = b
    · subst hi
      rw [hmv.self]
      exact h.others_ahead hq hm hold hl
    · rw [hmv.other i hi]
      exact h i t (others_subset hold) limit hl
  · cases heq
    rw [hmv.self]
    exact h.continues hm hl

/-- A request that writes to the log has a limit that keeps the entry at or below its epoch. -/
theorem writes (h : Ahead s) {t : Task} {c : Choice} (ht : (b, t) ∈ s.tasks)
    (hs : TaskStep cfg s b t c e) (hlog : e.broker.log ≠ (s.broker b).log) {epoch : Nat}
    (he : t.requestEpoch = some epoch) : epochOf (s.broker b).entry ≤ epoch := by
  have hold := h b t ht
  cases hs with
  | append => cases he
  | recoverStore => cases he
  | replicaTruncate => cases he; exact Nat.le_of_lt (hold _ rfl)
  | leadershipTruncate => cases he; exact Nat.le_of_lt (hold _ rfl)
  | promoteTruncate => cases he; exact Nat.le_of_lt (hold _ rfl)
  | replicaStore => cases he; exact Nat.le_of_lt_succ (hold _ rfl)
  | _ => exact absurd rfl hlog

/-- A request that has cut the log is not refused as stale. -/
theorem accepted (h : Ahead s) {t : Task} (ht : (b, t) ∈ s.tasks) {l : PartitionLeadership}
    (hu : t.update cfg = some l) (hc : t.cut = true) :
    applyEntry cfg (s.broker b).entry l ≠ .error .staleEpoch := by
  have hlt : epochOf (s.broker b).entry < l.leaderEpoch := by
    have hold := h b t ht
    have hcut : ∀ {c : Bool} {n : Nat}, (if c then some n else none).isSome = true → c = true :=
      fun {c n} h => by cases c <;> simp_all
    cases t with
    | replicaAdopt => cases hu; exact hold _ (if_pos (hcut hc))
    | leadershipApply => cases hu; exact hold _ (if_pos (hcut hc))
    | promoteApply => cases hu; exact hold _ (if_pos (hcut hc))
    | _ => cases hc
  intro hst
  unfold applyEntry at hst
  split at hst
  · cases hst
  · split at hst
    · rename_i c hentry
      rw [hentry, epochOf_some] at hlt
      split at hst
      · omega
      · split at hst <;> cases hst
    · cases hst

end Ahead

/-- **Epoch fencing.**  On every run on which no registry update overtakes a request of the same
broker that can still write, every step of a request is fenced: it changes the log only while the
entry has not passed its epoch, and a request refused as stale has left the log unchanged. -/
theorem requests_fenced (cfg : ClusterConfig) {acts : List Action} {s s' : State}
    (hq : Along (step cfg) (OvertakesNone cfg) State.init acts)
    (hr : run (step cfg) State.init acts = some s) {index : Nat} {c : Choice} {b : BrokerId}
    {t : Task} (ht : s.tasks[index]? = some (b, t))
    (hs : step cfg s (.task index c) = some s') :
    WriteFenced s s' b t ∧ RefusalClean cfg s b t := by
  have h : Ahead s := run_invariant (fun _ _ _ hp hq hs => Ahead.step hp hq hs)
    (fun _ _ h => by cases h) hq hr
  have hmem := List.mem_of_getElem? ht
  refine ⟨fun epoch he hlog => ?_, fun l hu hst => ?_⟩
  · simp only [step, ht] at hs
    split at hs
    · cases hs
    · rename_i e hstep
      cases hs
      simp only [State.install, if_pos] at hlog
      exact h.writes hmem (taskStep_cases hstep) hlog he
  · cases hc : t.cut with
    | false => rfl
    | true => exact absurd hst (h.accepted hmem hu hc)

theorem requests_fenced_store : ∃ s s',
    run (step threeNodes) State.init (overtakenRun.take 10) = some s ∧
    step threeNodes s (.task 1 .go) = some s' ∧ ∃ t, s.tasks[1]? = some (3, t) ∧
    (s'.broker 3).log ≠ (s.broker 3).log ∧ WriteFenced s s' 3 t ∧ RefusalClean threeNodes s 3 t := by
  refine ⟨_, _, rfl, rfl, _, rfl, ?_, ?_⟩
  · decide +kernel
  · exact @requests_fenced threeNodes (overtakenRun.take 10) _ _ (by decide +kernel) rfl 1 .go 3 _
      rfl rfl

end SevlaMq.Cluster
