import Mathlib.Algebra.Order.Floor.Div
import Mathlib.Data.Int.CardIntervalMod
import Mathlib.Data.List.Nodup

/-!
# Dealing numbers round robin

The numbers `0, …, n - 1` are dealt to the players of a list in turn: number `i` goes to player
`i % players.length`.

* `mem_deal` — who gets which number; `deal_owner`, `deal_unique` — exactly one player does.
* `deal_sorted` — each player gets their numbers in increasing order.
* `deal_even` — any two players get the same number of them, up to one.
* `Turns` — the numbers below `n` taken in turn by a counter; `Turns.take` is one turn,
  `Turns.count` how often each number was taken.
-/

set_option autoImplicit false

namespace SevlaMq

variable {α : Type} [DecidableEq α]

/-- The numbers below `n` that player `x` gets. -/
def deal (players : List α) (n : Nat) (x : α) : List Nat :=
  (List.range n).filter fun i => players[i % players.length]? = some x

theorem mem_deal {players : List α} {n i : Nat} {x : α} :
    i ∈ deal players n x ↔ i < n ∧ players[i % players.length]? = some x := by
  simp [deal]

theorem deal_succ (players : List α) (n : Nat) (x : α) :
    deal players (n + 1) x =
      deal players n x ++ if players[n % players.length]? = some x then [n] else [] := by
  simp only [deal, List.range_succ, List.filter_append, List.filter_cons, List.filter_nil,
    decide_eq_true_eq]

theorem deal_nil (n : Nat) (x : α) : deal [] n x = [] := by
  simp [deal]

theorem deal_sorted (players : List α) (n : Nat) (x : α) :
    (deal players n x).Pairwise (· < ·) :=
  List.pairwise_lt_range.filter _

theorem deal_unique {players : List α} {n i : Nat} {x y : α} (hx : i ∈ deal players n x)
    (hy : i ∈ deal players n y) : x = y := by
  rw [mem_deal] at hx hy
  rw [hx.2] at hy
  simpa using hy.2

/-- Only players get numbers. -/
theorem mem_of_deal {players : List α} {n i : Nat} {x : α} (h : i ∈ deal players n x) :
    x ∈ players := by
  rw [mem_deal] at h
  exact List.mem_of_getElem? h.2

theorem deal_owner {players : List α} (hne : players ≠ []) {n i : Nat} (h : i < n) :
    ∃ x ∈ players, i ∈ deal players n x := by
  have hlt : i % players.length < players.length := Nat.mod_lt _ (List.length_pos_iff.2 hne)
  refine ⟨players[i % players.length], List.getElem_mem hlt, ?_⟩
  rw [mem_deal]
  exact ⟨h, List.getElem?_eq_getElem hlt⟩

/-- How many numbers the player at a position gets. -/
theorem deal_length {players : List α} (hd : players.Nodup) {k : Nat} (hk : k < players.length)
    (n : Nat) :
    (deal players n players[k]).length =
      n / players.length + if k < n % players.length then 1 else 0 := by
  have hpos : 0 < players.length := Nat.zero_lt_of_lt hk
  have hturn : ∀ i, decide (players[i % players.length]? = some players[k]) =
      decide (i ≡ k [MOD players.length]) := by
    intro i
    have hlt : i % players.length < players.length := Nat.mod_lt _ hpos
    rw [decide_eq_decide, List.getElem?_eq_getElem hlt, Option.some.injEq, hd.getElem_inj_iff,
      Nat.ModEq, Nat.mod_eq_of_lt hk]
  have hcount := Nat.count_modEq_card n hpos k
  rw [Nat.mod_eq_of_lt hk] at hcount
  rw [← hcount, Nat.count, List.countP_eq_length_filter, deal]
  congr 1
  exact List.filter_congr fun i _ => hturn i

/-- **The deal is even.** -/
theorem deal_even {players : List α} (hd : players.Nodup) {x y : α} (hx : x ∈ players)
    (hy : y ∈ players) (n : Nat) :
    (deal players n x).length ≤ (deal players n y).length + 1 := by
  obtain ⟨i, hi, rfl⟩ := List.getElem_of_mem hx
  obtain ⟨j, hj, rfl⟩ := List.getElem_of_mem hy
  rw [deal_length hd hi, deal_length hd hj]
  split <;> split <;> omega

/-- Player `i` of `n` gets every `n`-th number from `i` on. -/
theorem deal_range_length {n i : Nat} (hi : i < n) (m : Nat) :
    (deal (List.range n) m i).length = (m - i) ⌈/⌉ n := by
  have hlen :=
    deal_length List.nodup_range (by rwa [List.length_range] : i < (List.range n).length) m
  rw [List.getElem_range, List.length_range] at hlen
  rw [hlen, Nat.ceilDiv_eq_add_pred_div]
  have hm := Nat.div_add_mod m n
  have hr : m % n < n := Nat.mod_lt m (Nat.zero_lt_of_lt hi)
  generalize m / n = q at *
  generalize m % n = r at *
  subst hm
  symm
  split
  · rename_i hlt
    have hsum : n * q + r - i + n - 1 = n * (q + 1) + (r - i - 1) := by
      rw [Nat.mul_succ]
      omega
    rw [hsum, Nat.mul_add_div (by omega), Nat.div_eq_of_lt (by omega)]
  · rename_i hge
    rcases Nat.eq_zero_or_pos q with rfl | hq
    · rw [Nat.mul_zero, Nat.div_eq_of_lt (by omega)]
    · have hn : n ≤ n * q := Nat.le_mul_of_pos_right n hq
      have hsum : n * q + r - i + n - 1 = n * q + (n - 1 - (i - r)) := by omega
      rw [hsum, Nat.mul_add_div (by omega), Nat.div_eq_of_lt (by omega)]

/-! ## Taking turns -/

/-- The numbers `chosen` were taken in turn, and `next` is up. -/
structure Turns (n next : Nat) (chosen : List Nat) : Prop where
  inOrder : chosen = (List.range chosen.length).map (· % n)
  upNext : next = chosen.length % n

variable {n next : Nat} {chosen : List Nat}

theorem Turns.nil (n : Nat) : Turns n 0 [] := ⟨rfl, (Nat.zero_mod n).symm⟩

theorem Turns.take (h : Turns n next chosen) : Turns n ((next + 1) % n) (chosen ++ [next]) where
  inOrder := by
    rw [List.length_append, List.length_singleton, List.range_succ, List.map_append, ← h.inOrder,
      List.map_singleton, ← h.upNext]
  upNext := by
    rw [h.upNext, List.length_append, List.length_singleton, Nat.mod_add_mod]

theorem Turns.next_lt (h : Turns n next chosen) (hn : 0 < n) : next < n := by
  rw [h.upNext]
  exact Nat.mod_lt _ hn

theorem Turns.count (h : Turns n next chosen) {i : Nat} (hi : i < n) :
    chosen.count i = (chosen.length - i) ⌈/⌉ n := by
  rw [← deal_range_length hi, h.inOrder, List.length_map, List.length_range, deal,
    List.count_eq_countP, List.countP_map, List.countP_eq_length_filter]
  congr 1
  refine List.filter_congr fun j _ => ?_
  have hlt : j % n < n := Nat.mod_lt _ (Nat.zero_lt_of_lt hi)
  rw [Bool.eq_iff_iff]
  simp [hlt]

end SevlaMq
