import SevlaMq.Lib.QueueServer

/-!
# Readers that sleep until something is announced

Readers ask an object behind a queue and go to sleep when the answer is empty.  Who has changed the
object tells all of them, after the reply has come; who is asleep then asks again.

A reader registers before it asks: what is announced between the two counts as well.

* `Waiters.step` — the steps of the readers and of those who announce, beside the `QueueServer`.
* `Watched` — the invariant: nothing that was performed after the question of a sleeping reader has
  been announced.
* `foldl_crosses` — a property that is lost over many commands is lost over one of them.
-/

set_option autoImplicit false

namespace SevlaMq

variable {σ κ ρ : Type}

/-- Where a reader stands; `notified` says whether there was an announcement since it registered. -/
inductive Reader (κ : Type) where
  | idle
  | asking (call : Nat) (notified : Bool)
  | asleep (command : κ) (notified : Bool)

def Reader.notify : Reader κ → Reader κ
  | .idle => .idle
  | .asking call _ => .asking call true
  | .asleep command _ => .asleep command true

structure Waiters (σ κ ρ : Type) where
  server : QueueServer σ κ ρ
  announced : Nat → Bool
  readers : Nat → Reader κ

inductive WaiterAction (κ : Type) where
  | server (a : QueueAction κ)
  | announce (id : Nat)
  | ask (reader id : Nat) (command : κ)
  | again (reader id : Nat)
  | settle (reader : Nat)
  | timeout (reader : Nat)
  | leave (reader : Nat)

namespace Waiters

def start (object : σ) : Waiters σ κ ρ := ⟨.start object, fun _ => false, fun _ => .idle⟩

def setReader (s : Waiters σ κ ρ) (reader : Nat) (r : Reader κ) : Waiters σ κ ρ :=
  { s with readers := fun i => if i = reader then r else s.readers i }

/-- Everyone who is asleep, or has asked, is notified. -/
def tell (s : Waiters σ κ ρ) (id : Nat) : Waiters σ κ ρ :=
  { s with
    announced := fun i => if i = id then true else s.announced i
    readers := fun i => (s.readers i).notify }

/-- The reader registers and makes the call `id`. -/
def register (s : Waiters σ κ ρ) (reader id : Nat) (command : κ) : Option (Waiters σ κ ρ) :=
  match s.server.calls id with
  | .idle => some ({ s with server := s.server.setCall id (.sending command) }.setReader reader
      (.asking id false))
  | _ => none

/-- One step; `empty` are the answers that send a reader to sleep, and `announces` says what is
announced after its reply. -/
def step (serve : σ → κ → ρ × σ) (capacity : Nat) (empty : ρ → Bool) (announces : κ → ρ → Bool)
    (s : Waiters σ κ ρ) : WaiterAction κ → Option (Waiters σ κ ρ)
  | .server a => (s.server.step serve capacity a).map fun server => { s with server }
  | .announce id =>
    match s.server.calls id with
    | .returned command r =>
      if announces command r ∧ s.announced id = false then
        some (s.tell id)
      else none
    | _ => none
  | .ask reader id command =>
    match s.readers reader with
    | .idle => s.register reader id command
    | _ => none
  | .again reader id =>
    match s.readers reader with
    | .asleep command true => s.register reader id command
    | _ => none
  | .settle reader =>
    match s.readers reader with
    | .asking id notified =>
      match s.server.calls id with
      | .returned command r =>
        some (s.setReader reader (if empty r then .asleep command notified else .idle))
      | _ => none
    | _ => none
  | .timeout reader =>
    match s.readers reader with
    | .asleep _ false => some (s.setReader reader .idle)
    | _ => none
  | .leave reader => some (s.setReader reader .idle)

end Waiters

/-! ## The invariant -/

namespace Waiters

variable {serve : σ → κ → ρ × σ} {capacity : Nat} {empty : ρ → Bool} {announces : κ → ρ → Bool}
  {object : σ} {s s' : Waiters σ κ ρ}

/-- Nothing of `xs` has been announced. -/
def Unannounced (s : Waiters σ κ ρ) (xs : List (Served κ ρ)) : Prop :=
  ∀ x ∈ xs, s.announced x.id = false

/-- What holds of a reader that has not been notified: it registered when `before` had been
performed, and its question comes later; or its question was answered after `before`. -/
def Watches (empty : ρ → Bool) (s : Waiters σ κ ρ) : Reader κ → Prop
  | .asking id false => ∃ before after, s.server.served = before ++ after ∧
      (∀ x ∈ before, x.id ≠ id) ∧ s.Unannounced after
  | .asleep command false => ∃ before id r after,
      s.server.served = before ++ ⟨id, command, r⟩ :: after ∧ empty r = true ∧ s.Unannounced after
  | _ => True

structure Watched (serve : σ → κ → ρ × σ) (capacity : Nat) (empty : ρ → Bool) (object : σ)
    (s : Waiters σ κ ρ) : Prop where
  serial : s.server.Serial serve capacity object
  announced : ∀ id, s.announced id = true → ∃ x ∈ s.server.served, x.id = id
  watches : ∀ i, s.Watches empty (s.readers i)

namespace Watched

theorem init (serve : σ → κ → ρ × σ) (capacity : Nat) (empty : ρ → Bool) (object : σ) :
    Watched serve capacity empty object (.start object) where
  serial := .init serve capacity object
  announced := fun id h => by cases h
  watches := fun _ => trivial

/-- One reader changes. -/
theorem setReader (h : Watched serve capacity empty object s) {reader : Nat} {r : Reader κ}
    (hr : s.Watches empty r) : Watched serve capacity empty object (s.setReader reader r) where
  serial := h.serial
  announced := h.announced
  watches := by
    intro i
    by_cases hi : i = reader
    · have : (s.setReader reader r).readers i = r := if_pos hi
      rw [this]
      exact hr
    · have : (s.setReader reader r).readers i = s.readers i := if_neg hi
      rw [this]
      exact h.watches i

/-- The server goes on: what is performed later has not been announced. -/
theorem server (h : Watched serve capacity empty object s) {server : QueueServer σ κ ρ}
    (hserial : server.Serial serve capacity object) (hlater : s.server.Later server) :
    Watched serve capacity empty object { s with server } := by
  obtain ⟨rest, hrest⟩ := hlater.served
  have hfresh : ∀ x ∈ rest, s.announced x.id = false := by
    intro x hx
    refine Bool.eq_false_iff.2 fun hannounced => ?_
    obtain ⟨y, hy, hid⟩ := h.announced x.id hannounced
    have hids := hserial.served_ids
    rw [← hrest, List.map_append] at hids
    exact (List.nodup_append.1 hids).2.2 y.id (List.mem_map.2 ⟨y, hy, rfl⟩) x.id
      (List.mem_map.2 ⟨x, hx, rfl⟩) hid
  have hmore : ∀ after, s.Unannounced after →
      Waiters.Unannounced { s with server } (after ++ rest) := by
    intro after hafter x hx
    rcases List.mem_append.1 hx with hx | hx
    · exact hafter x hx
    · exact hfresh x hx
  refine ⟨hserial, fun id hid => ?_, fun i => ?_⟩
  · obtain ⟨x, hx, hxid⟩ := h.announced id hid
    exact ⟨x, by rw [← hrest]; exact List.mem_append_left _ hx, hxid⟩
  · have hwatches := h.watches i
    change Watches empty { s with server } (s.readers i)
    cases hreader : s.readers i with
    | idle => trivial
    | asking id notified =>
      cases notified with
      | true => trivial
      | false =>
        rw [hreader] at hwatches
        obtain ⟨before, after, hserved, hid, hafter⟩ := hwatches
        refine ⟨before, after ++ rest, ?_, hid, hmore after hafter⟩
        rw [← List.append_assoc, ← hserved, hrest]
    | asleep command notified =>
      cases notified with
      | true => trivial
      | false =>
        rw [hreader] at hwatches
        obtain ⟨before, id, r, after, hserved, hempty, hafter⟩ := hwatches
        refine ⟨before, id, r, after ++ rest, ?_, hempty, hmore after hafter⟩
        rw [← List.cons_append, ← List.append_assoc, ← hserved, hrest]

/-- A reader registers with a call that is new. -/
theorem register (h : Watched serve capacity empty object s) {reader id : Nat} {command : κ}
    (hs : s.register reader id command = some s') : Watched serve capacity empty object s' := by
  unfold Waiters.register at hs
  split at hs
  · rename_i hidle
    cases hs
    have hcall : QueueServer.step serve capacity s.server (.call id command) =
        some (s.server.setCall id (.sending command)) := by
      simp only [QueueServer.step, hidle]
    refine (h.server (h.serial.step hcall) (.of_step hcall)).setReader ?_
    refine ⟨s.server.served, [], (List.append_nil _).symm, ?_,
      fun x hx => absurd hx List.not_mem_nil⟩
    intro x hx
    refine h.serial.not_accepted id (fun c hc => ?_) (x.id, x.command) ?_
    · rw [hidle] at hc
      exact hc
    · exact List.mem_append_left _ (List.mem_map.2 ⟨x, hx, rfl⟩)
  · cases hs

/-- Everyone is told: nobody is left who has not been notified. -/
theorem tell (h : Watched serve capacity empty object s) {id : Nat}
    (hid : ∃ x ∈ s.server.served, x.id = id) :
    Watched serve capacity empty object (s.tell id) where
  serial := h.serial
  announced := by
    intro i hi
    by_cases heq : i = id
    · rw [heq]
      exact hid
    · have hsame : (if i = id then true else s.announced i) = s.announced i := if_neg heq
      exact h.announced i (hsame ▸ hi)
  watches := by
    intro i
    change Watches empty _ (s.readers i).notify
    cases s.readers i <;> trivial

/-- A reader has its answer. -/
theorem settle (h : Watched serve capacity empty object s) {reader id : Nat} {notified : Bool}
    {command : κ} {r : ρ} (hreader : s.readers reader = .asking id notified)
    (hreturned : s.server.calls id = .returned command r) :
    Watched serve capacity empty object
      (s.setReader reader (if empty r then .asleep command notified else .idle)) := by
  refine h.setReader ?_
  split
  · rename_i hempty
    cases notified with
    | true => trivial
    | false =>
      have hwatches := h.watches reader
      rw [hreader] at hwatches
      obtain ⟨before, after, hserved, hid, hafter⟩ := hwatches
      have hmem := h.serial.answered id command r (Or.inr hreturned)
      rw [hserved] at hmem
      rcases List.mem_append.1 hmem with hmem | hmem
      · exact absurd rfl (hid _ hmem)
      · obtain ⟨early, late, rfl⟩ := List.append_of_mem hmem
        refine ⟨before ++ early, id, r, late, by rw [hserved, List.append_assoc], hempty, ?_⟩
        intro x hx
        exact hafter x (List.mem_append_right _ (List.mem_cons_of_mem _ hx))
  · trivial

/-- **One step.** -/
theorem step (h : Watched serve capacity empty object s) {a : WaiterAction κ}
    (hs : Waiters.step serve capacity empty announces s a = some s') :
    Watched serve capacity empty object s' := by
  cases a with
  | server a =>
    obtain ⟨server, hserver, rfl⟩ := Option.map_eq_some_iff.1 hs
    exact h.server (h.serial.step hserver) (.of_step hserver)
  | announce id =>
    simp only [Waiters.step] at hs
    split at hs
    · rename_i command r hreturned
      split at hs
      · cases hs
        exact h.tell ⟨_, h.serial.answered id command r (Or.inr hreturned), rfl⟩
      · cases hs
    · cases hs
  | ask reader id command =>
    simp only [Waiters.step] at hs
    split at hs
    · exact h.register hs
    · cases hs
  | again reader id =>
    simp only [Waiters.step] at hs
    split at hs
    · exact h.register hs
    · cases hs
  | settle reader =>
    simp only [Waiters.step] at hs
    split at hs
    · rename_i id notified hreader
      split at hs
      · rename_i command r hreturned
        cases hs
        exact h.settle hreader hreturned
      · cases hs
    · cases hs
  | timeout reader =>
    simp only [Waiters.step] at hs
    split at hs
    · cases hs
      exact h.setReader trivial
    · cases hs
  | leave reader =>
    cases hs
    exact h.setReader trivial

/-- **Any run.** -/
theorem of_run {acts : List (WaiterAction κ)}
    (h : run (Waiters.step serve capacity empty announces) (.start object) acts = some s) :
    Watched serve capacity empty object s :=
  run_invariant (Q := fun _ _ => True) (fun _ _ _ hp _ hs => hp.step hs)
    (init serve capacity empty object) (.of_forall fun _ _ => trivial) h

end Watched

end Waiters

/-- A property that is lost over a list is lost over one element. -/
theorem foldl_crosses {α β : Type} {f : β → α → β} {P : β → Prop} : ∀ {xs : List α} {b : β},
    P b → ¬ P (xs.foldl f b) → ∃ before x after, xs = before ++ x :: after ∧
      P (before.foldl f b) ∧ ¬ P (f (before.foldl f b) x)
  | [], _, hb, hend => absurd hb hend
  | x :: xs, b, hb, hend => by
    by_cases hx : P (f b x)
    · obtain ⟨before, y, after, rfl, hbefore, hafter⟩ := foldl_crosses hx hend
      exact ⟨x :: before, y, after, rfl, hbefore, hafter⟩
    · exact ⟨[], x, xs, rfl, hb, hx⟩

end SevlaMq
