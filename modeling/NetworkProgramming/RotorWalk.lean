/-
**Rotor walks.**

A walker goes from one of `n` places to another.  Every place has a rotor, which points to the place
to go to next; when the walker leaves, the rotor moves on to the following place.  From the last place
and with all rotors at the place `0`, the walk is a closed one of `n * n` moves, in which it goes from
every place to every place once.  So each place is visited `n` times before the walk repeats itself.

Main definitions:

* `Rotor.Walker`, `Rotor.next` — a walker and its move;
* `Rotor.walk` — the places that are visited in some moves, and the walker behind them;
* `Rotor.start`, `Rotor.mid` — the walkers at the beginning and in the middle of a lap;
* `Rotor.lap`, `Rotor.tour` — the places that are visited in a lap, and in all of them.

Main results:

* `Rotor.walks_lap` — a lap;
* `Rotor.walk_tour` — **the tour is closed**;
* `Rotor.walk_eq_tour` — the walk repeats the tour;
* `Rotor.tours_perm` — **the tours come to every place equally often**.
-/

import Mathlib.Algebra.BigOperators.Group.List.Basic
import Mathlib.Data.List.Count
import Mathlib.Data.List.Nodup
import Mathlib.Data.List.Range
import Mathlib.Logic.Function.Basic
import Mathlib.Tactic.Ring

set_option relaxedAutoImplicit false
set_option autoImplicit false

namespace Rotor

/-! ### The walk -/

/-- A walker, and the rotors of all places. -/
@[ext]
structure Walker where
  head : ℕ
  rotor : ℕ → ℕ

/-- The place that the walker goes to. -/
def Walker.target (s : Walker) : ℕ := s.rotor s.head

/-- **A move**: the rotor of the place that is left moves on. -/
def next (n : ℕ) (s : Walker) : Walker :=
  ⟨s.target, Function.update s.rotor s.head ((s.target + 1) % n)⟩

theorem next_rotor (n : ℕ) (s : Walker) (i : ℕ) :
    (next n s).rotor i = if i = s.head then (s.target + 1) % n else s.rotor i :=
  Function.update_apply _ _ _ _

/-- The places that are visited in `k` moves, and the walker behind them. -/
def walk (n : ℕ) : ℕ → Walker → List ℕ × Walker
  | 0, s => ([], s)
  | k + 1, s => (s.target :: (walk n k (next n s)).1, (walk n k (next n s)).2)

@[simp] theorem length_walk (n k : ℕ) (s : Walker) : (walk n k s).1.length = k := by
  induction k generalizing s with
  | zero => rfl
  | succ k ih => simp [walk, ih]

/-- A walk goes on where another one has ended. -/
theorem walk_add (n j k : ℕ) (s : Walker) :
    walk n (j + k) s =
      ((walk n j s).1 ++ (walk n k (walk n j s).2).1, (walk n k (walk n j s).2).2) := by
  induction j generalizing s with
  | zero => simp [walk]
  | succ j ih =>
      rw [Nat.add_right_comm, walk, ih]
      rfl

/-- The last move of a walk. -/
theorem walk_succ (n k : ℕ) (s : Walker) :
    walk n (k + 1) s = ((walk n k s).1 ++ [(walk n k s).2.target], next n (walk n k s).2) :=
  walk_add n k 1 s

/-- From `s` the places `l` are visited, and the walker is `t` then. -/
def Walks (n : ℕ) (s : Walker) (l : List ℕ) (t : Walker) : Prop := walk n l.length s = (l, t)

theorem Walks.nil (n : ℕ) (s : Walker) : Walks n s [] s := rfl

theorem Walks.cons {n : ℕ} {s t : Walker} {l : List ℕ} (h : Walks n (next n s) l t) :
    Walks n s (s.target :: l) t := by
  unfold Walks at h ⊢
  rw [List.length_cons, walk, h]

theorem Walks.append {n : ℕ} {s t u : Walker} {l m : List ℕ} (h : Walks n s l t)
    (h' : Walks n t m u) : Walks n s (l ++ m) u := by
  unfold Walks at h h' ⊢
  rw [List.length_append, walk_add, h, h']

/-- One walk after the other. -/
theorem walks_flatMap {n m : ℕ} {s : ℕ → Walker} {l : ℕ → List ℕ}
    (h : ∀ k < m, Walks n (s k) (l k) (s (k + 1))) :
    Walks n (s 0) ((List.range m).flatMap l) (s m) := by
  induction m with
  | zero => exact Walks.nil n _
  | succ m ih =>
      rw [List.range_succ, List.flatMap_append, List.flatMap_singleton]
      exact (ih fun k hk => h k (Nat.lt_succ_of_lt hk)).append (h m (Nat.lt_succ_self m))

/-! ### A lap -/

/-- The walker before the lap number `k`: it is at the last place, the rotors of the first `k` places
have come round to `0`, the others are at `k`. -/
def start (n k : ℕ) : Walker :=
  ⟨n - 1, fun i => if i < k then 0 else if i < n then k else 0⟩

/-- The walker in the lap number `k`, at the place `k`, when it has been to the places before `j`. -/
def mid (n k j : ℕ) : Walker :=
  ⟨k, fun i => if i < k then 0 else if i = k then j else if i < j ∨ i + 1 = n then k + 1
    else if i < n then k else 0⟩

/-- The places that are visited in the lap number `k`: the place `k`, and from there every later one,
each with the way back. -/
def lap (n k : ℕ) : List ℕ :=
  if k + 1 = n then [k]
  else [k, k] ++ (List.range (n - 2 - k)).flatMap (fun d => [k + 1 + d, k]) ++ [n - 1]

/-- **The places that are visited in all laps.** -/
def tour (n : ℕ) : List ℕ := (List.range n).flatMap (lap n)

section Lap

variable {n k j : ℕ}

theorem target_start (hk : k < n) : (start n k).target = k := by
  simp only [Walker.target, start]
  split_ifs <;> omega

theorem target_mid (hk : k < n) : (mid n k j).target = j := by
  simp only [Walker.target, mid]
  split_ifs <;> omega

/-- The last lap is a move from the last place to itself. -/
theorem next_start_last (hn : k + 1 = n) : next n (start n k) = start n (k + 1) := by
  rw [next, target_start (by omega), hn, Nat.mod_self]
  refine Walker.ext ?_ (funext fun i => ?_)
  · simp only [start]
    omega
  · simp only [start, Function.update_apply]
    split_ifs <;> omega

/-- The first move of any other lap. -/
theorem next_start (hk : k + 1 < n) :
    next n (start n k) = ⟨k, Function.update (start n k).rotor (n - 1) (k + 1)⟩ := by
  rw [next, target_start (by omega), Nat.mod_eq_of_lt hk]
  rfl

theorem target_next_start (hk : k + 1 < n) : (next n (start n k)).target = k := by
  rw [next_start hk]
  simp only [Walker.target, start, Function.update_apply]
  split_ifs <;> omega

theorem next_next_start (hk : k + 1 < n) : next n (next n (start n k)) = mid n k (k + 1) := by
  rw [next, target_next_start hk, next_start hk, Nat.mod_eq_of_lt hk]
  refine Walker.ext rfl (funext fun i => ?_)
  simp only [start, mid, Function.update_apply]
  split_ifs <;> omega

/-- A move to a later place, the last one excepted. -/
theorem next_mid (hk : k < j) (hj : j + 1 < n) :
    next n (mid n k j) = ⟨j, Function.update (mid n k j).rotor k (j + 1)⟩ := by
  rw [next, target_mid (by omega), Nat.mod_eq_of_lt hj]
  rfl

theorem target_next_mid (hk : k < j) (hj : j + 1 < n) : (next n (mid n k j)).target = k := by
  rw [next_mid hk hj]
  simp only [Walker.target, mid, Function.update_apply]
  split_ifs <;> omega

/-- The way to a later place and back. -/
theorem next_next_mid (hk : k < j) (hj : j + 1 < n) :
    next n (next n (mid n k j)) = mid n k (j + 1) := by
  rw [next, target_next_mid hk hj, next_mid hk hj, Nat.mod_eq_of_lt (by omega)]
  refine Walker.ext rfl (funext fun i => ?_)
  simp only [mid, Function.update_apply]
  split_ifs <;> omega

/-- The move to the last place ends the lap. -/
theorem next_mid_last (hk : k < j) (hj : j + 1 = n) : next n (mid n k j) = start n (k + 1) := by
  rw [next, target_mid (by omega), hj, Nat.mod_self]
  refine Walker.ext ?_ (funext fun i => ?_)
  · simp only [start]
    omega
  · simp only [start, mid, Function.update_apply]
    split_ifs <;> omega

/-- **A lap.** -/
theorem walks_lap (hk : k < n) : Walks n (start n k) (lap n k) (start n (k + 1)) := by
  unfold lap
  split_ifs with hlast
  · have h := Walks.cons (Walks.nil n (next n (start n k)))
    rwa [target_start hk, next_start_last hlast] at h
  · have hk' : k + 1 < n := by omega
    have hfirst : Walks n (start n k) [k, k] (mid n k (k + 1)) := by
      have h := Walks.cons (s := start n k) (Walks.cons (Walks.nil n (next n (next n (start n k)))))
      rwa [target_start hk, target_next_start hk', next_next_start hk'] at h
    have hmiddle : ∀ d < n - 2 - k,
        Walks n (mid n k (k + 1 + d)) [k + 1 + d, k] (mid n k (k + 1 + (d + 1))) := by
      intro d hd
      have h := Walks.cons (s := mid n k (k + 1 + d))
        (Walks.cons (Walks.nil n (next n (next n (mid n k (k + 1 + d))))))
      rwa [target_mid hk, target_next_mid (by omega) (by omega),
        next_next_mid (by omega) (by omega)] at h
    have hend : Walks n (mid n k (k + 1 + (n - 2 - k))) [n - 1] (start n (k + 1)) := by
      have hj : k + 1 + (n - 2 - k) = n - 1 := by omega
      have h := Walks.cons (Walks.nil n (next n (mid n k (n - 1))))
      rw [hj]
      rwa [target_mid hk, next_mid_last (by omega) (by omega)] at h
    exact (hfirst.append (walks_flatMap hmiddle)).append hend

end Lap

/-! ### The tour -/

variable {n : ℕ}

/-- After all laps the rotors are where they were. -/
theorem start_self (n : ℕ) : start n n = start n 0 := by
  refine Walker.ext rfl (funext fun i => ?_)
  simp only [start]
  split_ifs <;> omega

/-- **The tour is closed.** -/
theorem walk_tour (n : ℕ) : Walks n (start n 0) (tour n) (start n 0) := by
  have h := walks_flatMap (s := start n) (m := n) fun k hk => walks_lap hk
  rwa [start_self] at h

/-- The places of the ways out and back. -/
theorem count_ways (k c m : ℕ) :
    ((List.range m).flatMap fun d => [k + 1 + d, k]).count c =
      (if k < c ∧ c < k + 1 + m then 1 else 0) + if c = k then m else 0 := by
  induction m with
  | zero =>
      rw [List.range_zero, List.flatMap_nil, List.count_nil]
      split_ifs <;> omega
  | succ m ih =>
      rw [List.range_succ, List.flatMap_append, List.flatMap_singleton, List.count_append, ih]
      simp only [List.count_cons, List.count_nil, beq_iff_eq]
      split_ifs <;> omega

/-- How often a lap comes to a place. -/
theorem count_lap {k c : ℕ} (hk : k < n) (hc : c < n) :
    (lap n k).count c = if c < k then 0 else if c = k then n - k else 1 := by
  unfold lap
  split_ifs with hlast hlt hck hlt hck
  · simp only [List.count_cons, List.count_nil, beq_iff_eq]
    split_ifs <;> omega
  · simp only [List.count_cons, List.count_nil, beq_iff_eq]
    split_ifs <;> omega
  · omega
  all_goals
    simp only [List.count_append, List.count_cons, List.count_nil, beq_iff_eq, count_ways]
    split_ifs <;> omega

/-- **Every place is visited `n` times.** -/
theorem count_tour {c : ℕ} (hc : c < n) : (tour n).count c = n := by
  have hlaps : ∀ m ≤ n, ((List.range m).flatMap (lap n)).count c = if c < m then n else m := by
    intro m
    induction m with
    | zero => simp
    | succ m ih =>
        intro hm
        rw [List.range_succ, List.flatMap_append, List.flatMap_singleton, List.count_append,
          ih (by omega), count_lap (by omega) hc]
        split_ifs <;> omega
  rw [tour, hlaps n le_rfl, if_pos hc]

theorem length_lap {k : ℕ} (hk : k < n) : (lap n k).length + (2 * k + 1) = 2 * n := by
  have hways : ∀ m, ((List.range m).flatMap fun d => [k + 1 + d, k]).length = 2 * m := by
    intro m
    induction m with
    | zero => rfl
    | succ m ih =>
        rw [List.range_succ, List.flatMap_append, List.flatMap_singleton, List.length_append, ih]
        rfl
  unfold lap
  split_ifs with hlast
  · rw [List.length_singleton]
    omega
  · simp only [List.length_append, hways, List.length_cons, List.length_nil]
    omega

/-- The tour has a move from every place to every place. -/
theorem length_tour (n : ℕ) : (tour n).length = n * n := by
  have hlaps : ∀ m ≤ n, ((List.range m).flatMap (lap n)).length + m * m = 2 * n * m := by
    intro m
    induction m with
    | zero => simp
    | succ m ih =>
        intro hm
        have hold := ih (by omega)
        have hlen := length_lap (n := n) (k := m) (by omega)
        have hsquare : (m + 1) * (m + 1) = m * m + (2 * m + 1) := by ring
        have htwice : 2 * n * (m + 1) = 2 * n * m + 2 * n := by ring
        rw [List.range_succ, List.flatMap_append, List.flatMap_singleton, List.length_append]
        omega
  have h := hlaps n le_rfl
  have htwice : 2 * n * n = n * n + n * n := by ring
  rw [tour]
  omega

/-- A place of a walk is where the walker goes to behind the places before it. -/
theorem getElem?_walk {j k : ℕ} (hj : j < k) (s : Walker) :
    (walk n k s).1[j]? = some (walk n j s).2.target := by
  obtain ⟨d, rfl⟩ := Nat.exists_eq_add_of_lt hj
  rw [Nat.add_right_comm, walk_add n (j + 1), List.getElem?_append_left (by simp), walk_succ,
    List.getElem?_append_right (by simp), length_walk, Nat.sub_self]
  rfl

/-- After any number of tours. -/
theorem walk_tours (n m : ℕ) :
    Walks n (start n 0) (List.replicate m (tour n)).flatten (start n 0) := by
  induction m with
  | zero => exact Walks.nil n _
  | succ m ih =>
      rw [List.replicate_succ, List.flatten_cons]
      exact (walk_tour n).append ih

theorem length_tours (n m : ℕ) : (List.replicate m (tour n)).flatten.length = m * (n * n) := by
  simp [length_tour]

/-- **The walk repeats the tour.** -/
theorem walk_eq_tour (hn : 0 < n) (k : ℕ) :
    (walk n k (start n 0)).1.map some = (List.range k).map fun j => (tour n)[j % (n * n)]? := by
  have htour : walk n (n * n) (start n 0) = (tour n, start n 0) := length_tour n ▸ walk_tour n
  refine List.ext_getElem? ?_
  intro j
  rcases Nat.lt_or_ge j k with hj | hj
  · -- the tours before are closed, so that only the place in the tour counts
    have hback : (walk n j (start n 0)).2 = (walk n (j % (n * n)) (start n 0)).2 := by
      have htours := walk_tours n (j / (n * n))
      rw [Walks, length_tours] at htours
      conv_lhs => rw [← Nat.div_add_mod' j (n * n), walk_add, htours]
    have hplace : (tour n)[j % (n * n)]? = some (walk n (j % (n * n)) (start n 0)).2.target := by
      rw [← getElem?_walk (Nat.mod_lt j (Nat.mul_pos hn hn)), htour]
    rw [List.getElem?_map, getElem?_walk hj, List.getElem?_map, List.getElem?_range hj,
      Option.map_some, Option.map_some, hback, hplace]
  · rw [List.getElem?_eq_none (by simpa using hj), List.getElem?_eq_none (by simpa using hj)]

theorem lt_of_mem_tour {c : ℕ} (hc : c ∈ tour n) : c < n := by
  obtain ⟨k, hk, hc⟩ := List.mem_flatMap.1 hc
  have hkn := List.mem_range.1 hk
  unfold lap at hc
  split_ifs at hc with hlast
  · rw [List.mem_singleton.1 hc]
    exact hkn
  · simp only [List.mem_append, List.mem_cons, List.not_mem_nil, or_false, List.mem_flatMap,
      List.mem_range] at hc
    obtain ((rfl | rfl) | ⟨d, hd, rfl | rfl⟩) | rfl := hc <;> omega

/-- **The tours come to every place equally often.** -/
theorem tours_perm (n m : ℕ) :
    (List.replicate m (tour n)).flatten.Perm (List.replicate (m * n) (List.range n)).flatten := by
  refine List.perm_iff_count.2 ?_
  intro c
  have htour : (tour n).count c = n * (List.range n).count c := by
    rcases Nat.lt_or_ge c n with hc | hc
    · rw [count_tour hc, List.count_eq_one_of_mem List.nodup_range (List.mem_range.2 hc), Nat.mul_one]
    · rw [List.count_eq_zero.2 fun h => Nat.not_lt_of_le hc (lt_of_mem_tour h),
        List.count_eq_zero.2 fun h => Nat.not_lt_of_le hc (List.mem_range.1 h), Nat.mul_zero]
  rw [List.count_flatten, List.count_flatten, List.map_replicate, List.map_replicate,
    List.sum_replicate_nat, List.sum_replicate_nat, htour, Nat.mul_assoc]

end Rotor
