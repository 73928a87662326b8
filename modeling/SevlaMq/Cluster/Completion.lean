import SevlaMq.Cluster.Serving

/-!
# No produce request is stuck

While a partition is healthy, the messages a request waits for can be delivered and answered, and the
catch-up loop comes nearer to the record with every round.  So each request that is being handled can
be brought to its end, whatever the others have done so far.

* `Aside` — the continuation of one task, with the exchanges it needs and without a step of any
  other task.
* `Serving.exchange` — one replication request is handled and acknowledged.
* `Serving.caughtUp` — the catch-up loop ends.
* `Serving.completes` — every produce request can be brought to its end.
-/

set_option autoImplicit false

namespace SevlaMq.Cluster

open SevlaMq.Storage

variable {cfg : ClusterConfig} {leader : BrokerId} {epoch : Nat}

/-- A message is delivered or a task goes on, and no round trip fails. -/
def Action.exchange : Action → Bool
  | .deliver _ => true
  | .task _ c => c ≠ .fail
  | _ => false

theorem calm_of_exchange {a : Action} (h : a.exchange) : Calm a := by
  cases a with
  | deliver => rfl
  | task => exact h
  | _ => cases h

/-- A produce request that is being handled. -/
def Task.produces : Task → Bool
  | .append _ => true
  | .readBack _ _ _ => true
  | .contact _ => true
  | .awaitAck _ _ _ _ => true
  | .catchUp _ _ _ => true
  | .commitApply _ _ => true
  | _ => false

/-! ## The continuation of one task -/

theorem set_concat {α : Type} (xs : List α) (x y : α) : (xs ++ [x]).set xs.length y = xs ++ [y] := by
  rw [List.set_append_right _ _ (Nat.le_refl _), Nat.sub_self]
  rfl

theorem set_same {α : Type} {xs : List α} {i : Nat} {x : α} (h : xs[i]? = some x) :
    xs.set i x = xs := by
  obtain ⟨hi, rfl⟩ := List.getElem?_eq_some_iff.1 h
  exact List.set_getElem_self hi

/-- Task `i` of the leader goes on to `t`; the other tasks stay where they are, and those started on
the way have ended. -/
structure Aside (cfg : ClusterConfig) (leader : BrokerId) (i : Nat) (s : State) (t : Task)
    (s' : State) : Prop where
  acts : ∃ acts : List Action, (∀ a ∈ acts, a.exchange) ∧ run (step cfg) s acts = some s'
  tasks : ∃ extra, s'.tasks = s.tasks.set i (leader, t) ++ extra ∧ ∀ x ∈ extra, x.2 = .done

namespace Aside

variable {i : Nat} {s s' s'' : State} {t t' : Task}

theorem trans (h : Aside cfg leader i s t s') (h' : Aside cfg leader i s' t' s'')
    (hi : i < s.tasks.length) : Aside cfg leader i s t' s'' := by
  obtain ⟨acts, hacts, hr⟩ := h.acts
  obtain ⟨acts', hacts', hr'⟩ := h'.acts
  obtain ⟨extra, htasks, hdone⟩ := h.tasks
  obtain ⟨extra', htasks', hdone'⟩ := h'.tasks
  refine ⟨⟨acts ++ acts', ?_, ?_⟩, extra ++ extra', ?_, ?_⟩
  · intro a ha
    rcases List.mem_append.1 ha with ha | ha
    · exact hacts a ha
    · exact hacts' a ha
  · rw [run_append, hr]
    exact hr'
  · have hi' : i < (s.tasks.set i (leader, t)).length := by rwa [List.length_set]
    rw [htasks', htasks, List.set_append_left _ _ hi', List.set_set, List.append_assoc]
  · intro x hx
    rcases List.mem_append.1 hx with hx | hx
    · exact hdone x hx
    · exact hdone' x hx

theorem refl (ht : s.tasks[i]? = some (leader, t)) : Aside cfg leader i s t s := by
  refine ⟨⟨[], (fun a ha => by cases ha), rfl⟩, [], ?_, (fun x hx => by cases hx)⟩
  rw [List.append_nil, set_same ht]

theorem task (h : Aside cfg leader i s t s') (hi : i < s.tasks.length) :
    s'.tasks[i]? = some (leader, t) := by
  obtain ⟨extra, htasks, _⟩ := h.tasks
  have hi' : i < (s.tasks.set i (leader, t)).length := by rwa [List.length_set]
  rw [htasks, List.getElem?_append_left hi', List.getElem?_set_self hi]

theorem serving (h : Aside cfg leader i s t s') (hs : Serving cfg leader epoch s) :
    Serving cfg leader epoch s' := by
  obtain ⟨acts, hacts, hr⟩ := h.acts
  exact hs.of_run (fun a ha => calm_of_exchange (hacts a ha)) hr

/-- The task itself takes a step. -/
theorem own {c : Choice} {e : Effect} (ht : s.tasks[i]? = some (leader, t))
    (hs : taskStep cfg s leader t c = some e) (hc : c ≠ .fail) :
    Aside cfg leader i s e.task (s.install leader i e) := by
  refine ⟨⟨[.task i c], ?_, ?_⟩, [], (List.append_nil _).symm, fun x hx => by cases hx⟩
  · intro a ha
    cases List.mem_singleton.1 ha
    exact decide_eq_true hc
  · simp only [run, step, ht, hs]

end Aside

/-- The replication `r` goes on with the next follower. -/
def Replication.Passes (r : Replication) (t : Task) : Prop :=
  ∃ r' : Replication, t = .contact r' ∧ r'.followers = r.followers.tail ∧ r'.rest = r.rest

/-! ## One exchange -/

/-- A follower can store every record of the leader up to its own log end. -/
theorem appendReplica_accepted {log leaderLog : RecordLog} {f : FetchedRecord}
    (hp : contents log <+: contents leaderLog) (hf : InLog (contents leaderLog) f)
    (hc : ∀ r ∈ leaderLog, checkRecord r = .ok ()) (hle : f.offset ≤ log.length) :
    ∃ offset log', log.appendReplica f.offset f.toRecord = .ok (offset, log') := by
  unfold RecordLog.appendReplica
  cases he : log[f.offset]? with
  | some existing =>
    have hsame : Cluster.content existing = f.content := by
      have hin := (inLog_fetched he).mono hp
      unfold InLog at hin hf
      rw [show (fetched existing f.offset).offset = f.offset from rfl, hf] at hin
      exact (Option.some.inj hin).symm
    simp only [Cluster.content, FetchedRecord.content, Prod.mk.injEq] at hsame
    exact ⟨_, _, if_pos hsame⟩
  | none =>
    have hlen : f.offset = log.length := by
      have := List.getElem?_eq_none_iff.1 he
      omega
    obtain ⟨r, hr, hcontent⟩ : ∃ r, leaderLog[f.offset]? = some r ∧ Cluster.content r = f.content := by
      unfold InLog contents at hf
      rw [List.getElem?_map] at hf
      obtain ⟨r, hr, hcontent⟩ := Option.map_eq_some_iff.1 hf
      exact ⟨r, hr, hcontent⟩
    have hchecked : checkRecord f.toRecord = .ok () := by
      obtain ⟨hsize, _⟩ := checkRecord_ok (hc r (List.mem_of_getElem? hr))
      simp only [Cluster.content, FetchedRecord.content, Prod.mk.injEq] at hcontent
      obtain ⟨_, hkey, hvalue⟩ := hcontent
      have hfits : ¬ CRC_SIZE + (BODY_FIXED_SIZE + producerLen f.toRecord + keyLen f.toRecord +
          f.toRecord.value.length) > MAX_RECORD_SIZE := by
        simp only [keyLen, hkey, hvalue] at hsize
        simp only [keyLen, producerLen, FetchedRecord.toRecord, Record.new, Option.map_none,
          Option.getD_none]
        omega
      rw [checkRecord, if_neg hfits]
      rfl
    simp only [ne_eq, hlen, not_true_eq_false, if_false]
    refine ⟨log.length, log ++ [f.toRecord], ?_⟩
    unfold RecordLog.append
    simp only [admission, FetchedRecord.toRecord, Record.new] at hchecked ⊢
    simp only [hchecked]

theorem step_task {s : State} {i : Nat} {b : BrokerId} {t : Task} {c : Choice} {e : Effect}
    (ht : s.tasks[i]? = some (b, t)) (hs : taskStep cfg s b t c = some e) :
    step cfg s (.task i c) = some (s.install b i e) := by
  simp only [step, ht, hs]

theorem step_task_cases {s s' : State} {i : Nat} {c : Choice}
    (h : step cfg s (.task i c) = some s') : ∃ b t e, s.tasks[i]? = some (b, t) ∧
      taskStep cfg s b t c = some e ∧ s' = s.install b i e := by
  simp only [step] at h
  split at h
  · cases h
  · rename_i b t ht
    split at h
    · cases h
    · rename_i e he
      cases h
      exact ⟨b, t, e, ht, he, rfl⟩

/-- A step that leaves its broker alone leaves every broker alone. -/
theorem install_broker {s : State} {b : BrokerId} {i : Nat} {e : Effect}
    (h : e.broker = s.broker b) (x : BrokerId) : (s.install b i e).broker x = s.broker x := by
  simp only [State.install]
  split
  · rename_i hx
    rw [hx, h]
  · rfl

/-- A request that is handled by another broker while task `i` waits. -/
theorem Aside.handled {i : Nat} {s s' : State} {t : Task} {dst : BrokerId} {acts : List Action}
    (ht : s.tasks[i]? = some (leader, t)) (hacts : ∀ a ∈ acts, a.exchange)
    (hr : run (step cfg) s acts = some s') (htasks : s'.tasks = s.tasks ++ [(dst, .done)]) :
    Aside cfg leader i s t s' := by
  refine ⟨⟨acts, hacts, hr⟩, [(dst, .done)], ?_, fun x hx => ?_⟩
  · rw [htasks, set_same ht]
  · cases List.mem_singleton.1 hx
    rfl

namespace Serving

variable {i : Nat} {s s' : State} {t : Task}

/-- A replication request in flight to a follower passes the epoch check. -/
theorem delivered (h : Serving cfg leader epoch s) {conn : Nat} {sender dst : BrokerId}
    {m : ReplicateRecord} (hmsg : Message.replicate conn sender dst m ∈ s.net)
    (hdst : dst ∈ cfg.nodes) :
    ∃ index, Cluster.step cfg s (.deliver index) = some (s.spawn dst (.replicaExpected conn m)) := by
  obtain ⟨index, hindex⟩ := List.mem_iff_getElem?.1 hmsg
  obtain ⟨cur, hcur⟩ := h.oneEpoch.node_entry hdst
  have hgenuine := (h.oneEpoch.sound.net _ hmsg).1
  have hentry := h.oneEpoch.entry_inEpoch hcur
  have hepoch : m.leaderEpoch = cur.leaderEpoch := hgenuine.leaderEpoch.trans hentry.leaderEpoch.symm
  have hid : m.leaderId = cur.leaderId := hgenuine.leaderId.trans hentry.leaderId.symm
  have hreceive : receive cfg s (.replicate conn sender dst m) =
      some (dst, .replicaExpected conn m) := by
    simp [receive, hcur, hepoch, hid]
  refine ⟨index, ?_⟩
  simp only [Cluster.step, hindex, hreceive]

/-- A follower whose log is too short answers with its end. -/
theorem exchange_gap (h : Serving cfg leader epoch s) {conn : Nat} {sender dst : BrokerId}
    {m : ReplicateRecord} (hmsg : Message.replicate conn sender dst m ∈ s.net)
    (hdst : dst ∈ cfg.nodes) (ht : s.tasks[i]? = some (leader, t))
    (hgap : (s.broker dst).log.length < m.record.offset) :
    ∃ s', Aside cfg leader i s t s' ∧
      Message.replicateAck conn (s.broker dst).log.length ∈ s'.net := by
  obtain ⟨index, hspawn⟩ := h.delivered hmsg hdst
  have hfirst : taskStep cfg (s.spawn dst (.replicaExpected conn m)) dst (.replicaExpected conn m)
      .go = some ⟨s.broker dst, .done, [.replicateAck conn (s.broker dst).log.length], [], []⟩ :=
    if_pos hgap
  let answer : Effect := ⟨s.broker dst, .done, [.replicateAck conn (s.broker dst).log.length], [], []⟩
  refine ⟨(s.spawn dst (.replicaExpected conn m)).install dst s.tasks.length answer,
    @Aside.handled cfg leader i s _ t dst [.deliver index, .task s.tasks.length .go] ht ?_ ?_ ?_, ?_⟩
  · simp [Action.exchange]
  · simp only [run, hspawn, step_task List.getElem?_concat_length hfirst, answer]
  · exact set_concat _ _ _
  · exact List.mem_append_right _ (List.mem_singleton.2 rfl)

/-- A follower whose log reaches the record stores it, or finds it, and answers beyond it. -/
theorem exchange_store (h : Serving cfg leader epoch s) {conn : Nat} {sender dst : BrokerId}
    {m : ReplicateRecord} (hmsg : Message.replicate conn sender dst m ∈ s.net)
    (hdst : dst ∈ cfg.nodes) (ht : s.tasks[i]? = some (leader, t))
    (hle : m.record.offset ≤ (s.broker dst).log.length) :
    ∃ s' next, Aside cfg leader i s t s' ∧ Message.replicateAck conn next ∈ s'.net ∧
      m.record.offset < next := by
  obtain ⟨index, hspawn⟩ := h.delivered hmsg hdst
  obtain ⟨offset, log, hstored⟩ := appendReplica_accepted (h.oneEpoch.sound.brokers dst).1
    (h.oneEpoch.sound.net _ hmsg).1.sourced h.checked hle
  let s₁ := s.spawn dst (.replicaExpected conn m)
  let ready : Effect := ⟨s.broker dst, .replicaStore conn m, [], [], []⟩
  let stored : Effect := ⟨{ s.broker dst with log }, .done, [.replicateAck conn log.length], [], []⟩
  have hready : taskStep cfg s₁ dst (.replicaExpected conn m) .go = some ready :=
    if_neg (Nat.not_lt.2 hle)
  have hself : ((s₁.install dst s.tasks.length ready).broker dst) = s.broker dst := if_pos rfl
  have hstore : taskStep cfg (s₁.install dst s.tasks.length ready) dst (.replicaStore conn m) .go =
      some stored := by
    simp only [taskStep, hself, hstored]
    rfl
  have htask : (s₁.install dst s.tasks.length ready).tasks = s.tasks ++ [(dst, .replicaStore conn m)] :=
    set_concat _ _ _
  have hlast : (s₁.install dst s.tasks.length ready).tasks[s.tasks.length]? =
      some (dst, .replicaStore conn m) := by
    rw [htask]
    exact List.getElem?_concat_length
  refine ⟨(s₁.install dst s.tasks.length ready).install dst s.tasks.length stored, log.length,
    @Aside.handled cfg leader i s _ t dst
      [.deliver index, .task s.tasks.length .go, .task s.tasks.length .go] ht ?_ ?_ ?_, ?_,
    appendReplica_lt hstored⟩
  · simp [Action.exchange]
  · simp only [run, hspawn, step_task List.getElem?_concat_length hready, step_task hlast hstore, s₁]
  · show ((s₁.install dst s.tasks.length ready).tasks).set _ _ = _
    rw [htask]
    exact set_concat _ _ _
  · exact List.mem_append_right _ (List.mem_singleton.2 rfl)

/-! ## The follower at hand -/

/-- An acknowledgement that has arrived is taken up. -/
theorem received (h : Serving cfg leader epoch s) {r : Replication} {l : PartitionLeadership}
    {conn next : Nat} {first : Bool} (ht : s.tasks[i]? = some (leader, .awaitAck r l conn first))
    (hack : Message.replicateAck conn next ∈ s.net) :
    ∃ s' t', Aside cfg leader i s t' s' ∧ (r.Passes t' ∨ (t' = .catchUp r l next ∧
      next ≤ (s'.broker (r.followers.headD 0)).log.length)) := by
  obtain ⟨index, hindex⟩ := List.mem_iff_getElem?.1 hack
  have hin := h.oneEpoch.sound.task ht
  have hlen := h.oneEpoch.acked_length hindex hin.2.2.2.2
  have hgo : ∀ e, taskStep cfg s leader (.awaitAck r l conn first) (.receive index) = some e →
      Aside cfg leader i s e.task (s.install leader i e) := fun e he => Aside.own ht he (by simp)
  simp only [taskStep, hindex, ne_eq, not_true_eq_false, if_false] at hgo
  by_cases hahead : first = true ∧ r.current.record.offset + 1 < next
  · rw [if_pos hahead] at hgo
    exact ⟨_, _, hgo _ rfl, Or.inl ⟨_, rfl, rfl, rfl⟩⟩
  rw [if_neg hahead] at hgo
  by_cases hbehind : next ≤ r.current.record.offset
  · rw [if_pos hbehind] at hgo
    refine ⟨_, _, hgo _ rfl, Or.inr ⟨rfl, ?_⟩⟩
    rw [install_broker rfl]
    exact hlen
  · rw [if_neg hbehind] at hgo
    exact ⟨_, _, hgo _ rfl, Or.inl ⟨_, rfl, rfl, rfl⟩⟩

/-- The catch-up loop sends the record its follower asked for. -/
theorem sent (h : Serving cfg leader epoch s) {r : Replication} {l : PartitionLeadership}
    {next : Nat} (ht : s.tasks[i]? = some (leader, .catchUp r l next)) :
    ∃ s' m, Aside cfg leader i s (.awaitAck r l s.nextConn false) s' ∧
      Message.replicate s.nextConn leader (r.followers.headD 0) m ∈ s'.net ∧
      m.record.offset = next ∧ ∀ b, s'.broker b = s.broker b := by
  have hle : next ≤ r.current.record.offset := h.tasks _ (List.mem_of_getElem? ht)
  have hheld := ((h.oneEpoch.sound.task ht).2.1.jobs _ List.mem_cons_self).lt
  rw [contents_length] at hheld
  obtain ⟨missing, hmissing⟩ : ∃ x, (s.broker leader).log[next]? = some x :=
    ⟨_, List.getElem?_eq_getElem (Nat.lt_of_le_of_lt hle hheld)⟩
  refine ⟨_, _, Aside.own (c := .go) ht (by simp only [taskStep, hmissing]; rfl) (by simp),
    List.mem_append_right _ (List.mem_singleton.2 rfl), rfl, install_broker rfl⟩

/-- The follower at hand is a node of the cluster. -/
theorem follower_mem {r : Replication} (hp : Progress cfg leader s r) (hf : r.followers ≠ []) :
    r.followers.headD 0 ∈ cfg.nodes := by
  obtain ⟨f, fs, hfs⟩ := List.exists_cons_of_ne_nil hf
  have hmem : f ∈ r.acked.map (·.follower) ++ r.followers := by
    rw [hfs]
    exact List.mem_append_right _ List.mem_cons_self
  rw [hfs]
  exact cfg.replicaSet_subset (cfg.mem_replicaFollowers.1 (hp.placed.subset hmem)).1

/-- **The catch-up loop ends.**  Each round brings the follower one record nearer. -/
theorem caughtUp (n : Nat) : ∀ {s : State} {r : Replication} {l : PartitionLeadership} {next : Nat},
    Serving cfg leader epoch s → s.tasks[i]? = some (leader, .catchUp r l next) →
      next ≤ (s.broker (r.followers.headD 0)).log.length → r.current.record.offset < next + n →
        ∃ s' t', Aside cfg leader i s t' s' ∧ r.Passes t' := by
  induction n with
  | zero =>
    intro s r l next h ht _ hlt
    have hle : next ≤ r.current.record.offset := h.tasks _ (List.mem_of_getElem? ht)
    omega
  | succ n ih =>
    intro s r l next h ht hfollower hlt
    have hi : i < s.tasks.length := (List.getElem?_eq_some_iff.1 ht).1
    obtain ⟨_, hp, _, hfollowers⟩ := h.oneEpoch.sound.task ht
    obtain ⟨s₁, m, haside₁, hmsg, hoffset, hkept⟩ := h.sent ht
    obtain ⟨s₂, next₂, haside₂, hack, hnext⟩ := (haside₁.serving h).exchange_store hmsg
      (follower_mem hp hfollowers) (haside₁.task hi) (by rw [hoffset, hkept]; exact hfollower)
    have h₂ := haside₁.trans haside₂ hi
    obtain ⟨s₃, t₃, haside₃, hpass | ⟨rfl, hlen⟩⟩ := (h₂.serving h).received (h₂.task hi) hack
    · exact ⟨s₃, t₃, h₂.trans haside₃ hi, hpass⟩
    · have h₃ := h₂.trans haside₃ hi
      obtain ⟨s₄, t₄, haside₄, hpass⟩ := ih (h₃.serving h) (h₃.task hi) hlen (by omega)
      exact ⟨s₄, t₄, h₃.trans haside₄ hi, hpass⟩

/-- The follower at hand answers, and the replication goes on with the next one. -/
theorem awaited (h : Serving cfg leader epoch s) {r : Replication} {l : PartitionLeadership}
    {conn : Nat} {first : Bool} (ht : s.tasks[i]? = some (leader, .awaitAck r l conn first)) :
    ∃ s' t', Aside cfg leader i s t' s' ∧ r.Passes t' := by
  have hi : i < s.tasks.length := (List.getElem?_eq_some_iff.1 ht).1
  obtain ⟨_, hp, _, hfollowers, _⟩ := h.oneEpoch.sound.task ht
  obtain ⟨m, hmsg, _⟩ := h.tasks _ (List.mem_of_getElem? ht)
  have hdst := follower_mem hp hfollowers
  obtain ⟨s₁, next, haside, hack⟩ : ∃ s₁ next, Aside cfg leader i s (.awaitAck r l conn first) s₁ ∧
      Message.replicateAck conn next ∈ s₁.net := by
    by_cases hgap : (s.broker (r.followers.headD 0)).log.length < m.record.offset
    · obtain ⟨s₁, haside, hack⟩ := h.exchange_gap hmsg hdst ht hgap
      exact ⟨s₁, _, haside, hack⟩
    · obtain ⟨s₁, next, haside, hack, _⟩ := h.exchange_store hmsg hdst ht (Nat.not_lt.1 hgap)
      exact ⟨s₁, next, haside, hack⟩
  obtain ⟨s₂, t₂, haside₂, hpass | ⟨rfl, hlen⟩⟩ := (haside.serving h).received (haside.task hi) hack
  · exact ⟨s₂, t₂, haside.trans haside₂ hi, hpass⟩
  · have h₂ := haside.trans haside₂ hi
    obtain ⟨s₃, t₃, haside₃, hpass⟩ := caughtUp (r.current.record.offset + 1) (h₂.serving h)
      (h₂.task hi) hlen (by omega)
    exact ⟨s₃, t₃, h₂.trans haside₃ hi, hpass⟩

/-! ## One record after the other -/

/-- The task is over, or the record at hand is and the next one is taken up. -/
def Next (n : Nat) (t : Task) : Prop :=
  t = .done ∨ ∃ r : Replication, t = .contact r ∧ r.rest.length < n

theorem finish_next {b : BrokerId} (r : Replication) {n : Nat} (hn : r.rest.length ≤ n) :
    Next n (finishRecord cfg b r).1 := by
  unfold finishRecord
  split
  · rename_i job rest hrest
    rw [hrest] at hn
    exact Or.inr ⟨_, rfl, hn⟩
  · exact Or.inl rfl

theorem committed {r : Replication} {l : PartitionLeadership} {n : Nat}
    (ht : s.tasks[i]? = some (leader, .commitApply r l)) (hn : r.rest.length ≤ n) :
    ∃ s' t', Aside cfg leader i s t' s' ∧ Next n t' := by
  have hgo : ∀ e, taskStep cfg s leader (.commitApply r l) .go = some e →
      Aside cfg leader i s e.task (s.install leader i e) := fun e he => Aside.own ht he (by simp)
  simp only [taskStep] at hgo
  split at hgo
  · exact ⟨_, _, hgo _ rfl, Or.inl rfl⟩
  · exact ⟨_, _, hgo _ rfl, finish_next r hn⟩

/-- No follower is left: the record is committed or given up. -/
theorem concluded {r : Replication} {n : Nat} (ht : s.tasks[i]? = some (leader, .contact r))
    (hf : r.followers = []) (hn : r.rest.length ≤ n) :
    ∃ s' t', Aside cfg leader i s t' s' ∧ Next n t' := by
  have hi : i < s.tasks.length := (List.getElem?_eq_some_iff.1 ht).1
  have hgo : ∀ e, taskStep cfg s leader (.contact r) .go = some e →
      Aside cfg leader i s e.task (s.install leader i e) := fun e he => Aside.own ht he (by simp)
  simp only [taskStep, hf] at hgo
  split at hgo
  · split at hgo
    · exact ⟨_, _, hgo _ rfl, Or.inl rfl⟩
    · split at hgo
      · exact ⟨_, _, hgo _ rfl, finish_next r hn⟩
      · have haside := hgo _ rfl
        obtain ⟨s', t', haside', hnext⟩ := committed (haside.task hi) hn
        exact ⟨s', t', haside.trans haside' hi, hnext⟩
  · split at hgo
    · exact ⟨_, _, hgo _ rfl, Or.inl rfl⟩
    · exact ⟨_, _, hgo _ rfl, finish_next r hn⟩

/-- Every follower of the record at hand is contacted. -/
theorem contacted {n : Nat} : ∀ (k : Nat) {s : State} {r : Replication},
    Serving cfg leader epoch s → s.tasks[i]? = some (leader, .contact r) →
      r.followers.length ≤ k → r.rest.length ≤ n → ∃ s' t', Aside cfg leader i s t' s' ∧ Next n t' := by
  intro k
  induction k with
  | zero =>
    intro s r h ht hk hn
    exact concluded ht (List.length_eq_zero_iff.1 (Nat.le_zero.1 hk)) hn
  | succ k ih =>
    intro s r h ht hk hn
    have hi : i < s.tasks.length := (List.getElem?_eq_some_iff.1 ht).1
    cases hf : r.followers with
    | nil => exact concluded ht hf hn
    | cons f fs =>
      obtain ⟨l, hl⟩ := h.oneEpoch.node_entry (cfg.replicaSet_subset h.replica)
      have haside : Aside cfg leader i s (.awaitAck r l s.nextConn true) _ :=
        Aside.own (c := .go) ht (by simp only [taskStep, hf, hl]; rfl) (by simp)
      obtain ⟨s₁, t₁, haside₁, r₁, rfl, hf₁, hr₁⟩ := (haside.serving h).awaited (haside.task hi)
      have h₁ := haside.trans haside₁ hi
      have hk₁ : r₁.followers.length ≤ k := by
        rw [hf₁, List.length_tail]
        omega
      obtain ⟨s₂, t₂, haside₂, hnext⟩ := ih (h₁.serving h) (h₁.task hi) hk₁ (hr₁ ▸ hn)
      exact ⟨s₂, t₂, h₁.trans haside₂ hi, hnext⟩

/-- A replication comes to its end. -/
theorem replicated (n : Nat) : ∀ {s : State} {t : Task}, Serving cfg leader epoch s →
    s.tasks[i]? = some (leader, t) → Next n t → ∃ s', Aside cfg leader i s .done s' := by
  induction n with
  | zero =>
    rintro s t h ht (rfl | ⟨r, rfl, hn⟩)
    · exact ⟨s, Aside.refl ht⟩
    · omega
  | succ n ih =>
    rintro s t h ht (rfl | ⟨r, rfl, hn⟩)
    · exact ⟨s, Aside.refl ht⟩
    · have hi : i < s.tasks.length := (List.getElem?_eq_some_iff.1 ht).1
      obtain ⟨s₁, t₁, haside, hnext⟩ := contacted _ h ht (Nat.le_refl _) (Nat.le_of_lt_succ hn)
      obtain ⟨s₂, haside₂⟩ := ih (haside.serving h) (haside.task hi) hnext
      exact ⟨s₂, haside.trans haside₂ hi⟩

/-- The appended records are read back and replicated. -/
theorem readBack : ∀ (offsets : List Nat) {s : State} {ackMode : AckMode} {jobs : List Job},
    Serving cfg leader epoch s → s.tasks[i]? = some (leader, .readBack ackMode offsets jobs) →
      ∃ s', Aside cfg leader i s .done s'
  | [], s, ackMode, jobs, h, ht => by
    have hi : i < s.tasks.length := (List.getElem?_eq_some_iff.1 ht).1
    cases jobs with
    | nil => exact ⟨_, Aside.own (c := .go) ht rfl (by simp)⟩
    | cons job rest =>
      have haside : Aside cfg leader i s
          (.contact (startReplication cfg leader ackMode [] job rest)) _ :=
        Aside.own (c := .go) ht rfl (by simp)
      obtain ⟨s', haside'⟩ := replicated (rest.length + 1) (haside.serving h) (haside.task hi)
        (Or.inr ⟨_, rfl, Nat.lt_succ_self _⟩)
      exact ⟨s', haside.trans haside' hi⟩
  | offset :: offsets, s, ackMode, jobs, h, ht => by
    have hi : i < s.tasks.length := (List.getElem?_eq_some_iff.1 ht).1
    have hgo : ∀ e, taskStep cfg s leader (.readBack ackMode (offset :: offsets) jobs) .go = some e →
        Aside cfg leader i s e.task (s.install leader i e) := fun e he => Aside.own ht he (by simp)
    simp only [taskStep] at hgo
    split at hgo
    · have haside := hgo _ rfl
      obtain ⟨s', haside'⟩ := readBack offsets (haside.serving h) (haside.task hi)
      exact ⟨s', haside.trans haside' hi⟩
    · exact ⟨_, hgo _ rfl⟩

theorem appended (h : Serving cfg leader epoch s) {request : ProduceRequest}
    (ht : s.tasks[i]? = some (leader, .append request)) : ∃ s', Aside cfg leader i s .done s' := by
  have hi : i < s.tasks.length := (List.getElem?_eq_some_iff.1 ht).1
  let timestamps := List.replicate request.inputs.length (0 : UInt64)
  have hgo : ∀ e, taskStep cfg s leader (.append request) (.stamp timestamps) = some e →
      Aside cfg leader i s e.task (s.install leader i e) := fun e he => Aside.own ht he (by simp)
  simp only [taskStep, timestamps, List.length_replicate, ne_eq, not_true_eq_false, if_false] at hgo
  split at hgo
  · have haside := hgo _ rfl
    obtain ⟨s', haside'⟩ := readBack _ (haside.serving h) (haside.task hi)
    exact ⟨s', haside.trans haside' hi⟩
  · exact ⟨_, hgo _ rfl⟩

/-- **A produce request can be brought to its end** while the others stay where they are. -/
theorem ends (h : Serving cfg leader epoch s) {b : BrokerId} (ht : s.tasks[i]? = some (b, t))
    (hp : t.produces) : b = leader ∧ ∃ s', Aside cfg leader i s .done s' := by
  have hi : i < s.tasks.length := (List.getElem?_eq_some_iff.1 ht).1
  have hin := h.oneEpoch.sound.task ht
  cases t with
  | append =>
    obtain rfl : b = leader := hin
    exact ⟨rfl, h.appended ht⟩
  | readBack =>
    obtain ⟨rfl, _⟩ := hin
    exact ⟨rfl, readBack _ h ht⟩
  | contact r =>
    obtain ⟨rfl, _⟩ := hin
    exact ⟨rfl, replicated (r.rest.length + 1) h ht (Or.inr ⟨r, rfl, Nat.lt_succ_self _⟩)⟩
  | awaitAck r l conn first =>
    obtain ⟨rfl, _⟩ := hin
    obtain ⟨s₁, t₁, haside, r₁, rfl, _⟩ := h.awaited ht
    obtain ⟨s₂, haside₂⟩ := replicated (r₁.rest.length + 1) (haside.serving h) (haside.task hi)
      (Or.inr ⟨r₁, rfl, Nat.lt_succ_self _⟩)
    exact ⟨rfl, s₂, haside.trans haside₂ hi⟩
  | catchUp r l next =>
    obtain ⟨rfl, _⟩ := hin
    obtain ⟨s₁, m, haside, _⟩ := h.sent ht
    obtain ⟨s₂, t₂, haside₂, r₂, rfl, _⟩ := (haside.serving h).awaited (haside.task hi)
    have h₂ := haside.trans haside₂ hi
    obtain ⟨s₃, haside₃⟩ := replicated (r₂.rest.length + 1) (h₂.serving h) (h₂.task hi)
      (Or.inr ⟨r₂, rfl, Nat.lt_succ_self _⟩)
    exact ⟨rfl, s₃, h₂.trans haside₃ hi⟩
  | commitApply r l =>
    obtain ⟨rfl, _⟩ := hin
    obtain ⟨s₁, t₁, haside, hnext⟩ := committed ht (Nat.le_refl _)
    obtain ⟨s₂, haside₂⟩ := replicated _ (haside.serving h) (haside.task hi) hnext
    exact ⟨rfl, s₂, haside.trans haside₂ hi⟩
  | _ => cases hp

/-- One request fewer is being handled. -/
theorem countP_lt (haside : Aside cfg leader i s .done s') (ht : s.tasks[i]? = some (leader, t))
    (hp : t.produces) :
    s'.tasks.countP (·.2.produces) < s.tasks.countP (·.2.produces) := by
  obtain ⟨extra, htasks, hdone⟩ := haside.tasks
  obtain ⟨hi, hget⟩ := List.getElem?_eq_some_iff.1 ht
  have hextra : extra.countP (·.2.produces) = 0 := by
    rw [List.countP_eq_zero]
    intro x hx
    rw [hdone x hx]
    exact Bool.false_ne_true
  have hmem : 0 < s.tasks.countP (·.2.produces) :=
    List.countP_pos_iff.2 ⟨_, List.mem_of_getElem? ht, hp⟩
  have hdone : Task.produces .done = false := rfl
  rw [htasks, List.countP_append, hextra, List.countP_set hi, hget]
  simp only [hp, if_true, hdone, Bool.false_eq_true, if_false]
  omega

/-- **No produce request is stuck.**  Deliveries and steps bring every request to its end. -/
theorem completes (n : Nat) : ∀ {s : State}, Serving cfg leader epoch s →
    s.tasks.countP (·.2.produces) ≤ n → ∃ acts s', (∀ a ∈ acts, a.exchange) ∧
      run (Cluster.step cfg) s acts = some s' ∧ ∀ p ∈ s'.tasks, p.2.produces = false := by
  induction n with
  | zero =>
    intro s h hn
    refine ⟨[], s, (fun a ha => by cases ha), rfl, fun p hp => ?_⟩
    have := List.countP_eq_zero.1 (Nat.le_zero.1 hn) p hp
    exact Bool.eq_false_iff.2 this
  | succ n ih =>
    intro s h hn
    by_cases hany : ∃ p ∈ s.tasks, p.2.produces
    · obtain ⟨⟨b, t⟩, hmem, hp⟩ := hany
      obtain ⟨i, ht⟩ := List.mem_iff_getElem?.1 hmem
      obtain ⟨rfl, s₁, haside⟩ := h.ends ht hp
      obtain ⟨acts, hacts, hr⟩ := haside.acts
      have hlt := countP_lt haside ht hp
      obtain ⟨more, s₂, hmore, hr₂, hend⟩ := ih (haside.serving h) (by omega)
      refine ⟨acts ++ more, s₂, fun a ha => ?_, ?_, hend⟩
      · rcases List.mem_append.1 ha with ha | ha
        · exact hacts a ha
        · exact hmore a ha
      · rw [run_append, hr]
        exact hr₂
    · refine ⟨[], s, (fun a ha => by cases ha), rfl, fun p hp => ?_⟩
      exact Bool.eq_false_iff.2 fun hprod => hany ⟨p, hp, hprod⟩

end Serving

end SevlaMq.Cluster
