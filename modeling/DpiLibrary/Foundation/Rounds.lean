import Mathlib.Algebra.BigOperators.Group.List.Basic
import Mathlib.Algebra.GroupWithZero.Nat
import Mathlib.Data.List.Range
import Mathlib.Tactic.Common

/-!
# Service in rounds

Queues of different lengths are served in rounds: each round takes one item of every queue
that has not run out, in the order of the queues. A server that walks along the list, drops
the queues that have run out and starts over at its end serves in exactly this order.
-/

namespace DpiLibrary

variable {ι : Type*} {queues done todo : List ι} {count : ι → ℕ} {r n : ℕ}
  {served : List (ι × ℕ)} {q : ι}

/-- The queues with an item for round `r`, counted from 0. -/
def serving (queues : List ι) (count : ι → ℕ) (r : ℕ) : List ι :=
  queues.filter fun q => r < count q

/-- The first `n` rounds: whose item is taken, and its number in its queue. -/
def rounds (queues : List ι) (count : ι → ℕ) (n : ℕ) : List (ι × ℕ) :=
  (List.range n).flatMap fun r => (serving queues count r).map (·, r)

@[simp] theorem rounds_zero : rounds queues count 0 = [] := rfl

theorem rounds_succ : rounds queues count (n + 1) =
    rounds queues count n ++ (serving queues count n).map (·, n) := by
  simp [rounds, List.range_succ]

@[simp] theorem serving_nil : serving [] count r = [] := rfl

theorem serving_cons_of_lt (h : r < count q) :
    serving (q :: todo) count r = q :: serving todo count r := by
  simp [serving, h]

theorem serving_cons_of_le (h : count q ≤ r) :
    serving (q :: todo) count r = serving todo count r := by
  simp [serving, Nat.not_lt.mpr h]

/-- Who is served in a round has been served in the one before. -/
theorem serving_succ : serving queues count (r + 1) =
    serving (serving queues count r) count (r + 1) := by
  rw [serving, serving, serving, List.filter_filter]
  apply List.filter_congr
  intro q _
  rw [Bool.eq_iff_iff]
  simp only [Bool.and_eq_true, decide_eq_true_eq]
  omega

theorem serving_of_count_le (h : ∀ q ∈ queues, count q ≤ r) : serving queues count r = [] :=
  List.filter_eq_nil_iff.mpr fun q hq => by simpa using h q hq

theorem lt_count_of_mem_rounds (h : (q, r) ∈ rounds queues count n) : r < count q := by
  simp only [rounds, serving, List.mem_flatMap, List.mem_map, List.mem_filter,
    decide_eq_true_eq] at h
  obtain ⟨i, -, p, ⟨-, hlt⟩, heq⟩ := h
  cases heq
  exact hlt

/-- Further rounds after the longest queue has run out take nothing. -/
theorem rounds_of_le (h : ∀ q ∈ queues, count q ≤ r) (hle : r ≤ n) :
    rounds queues count n = rounds queues count r := by
  induction n, hle using Nat.le_induction with
  | base => rfl
  | succ n hn ih =>
    rw [rounds_succ, ih, serving_of_count_le fun q hq => (h q hq).trans hn]
    simp

theorem length_serving_add (n : ℕ) :
    (queues.map fun q => min (count q) n).sum + (serving queues count n).length =
      (queues.map fun q => min (count q) (n + 1)).sum := by
  induction queues with
  | nil => rfl
  | cons q queues ih =>
    simp only [List.map_cons, List.sum_cons]
    rcases Nat.lt_or_ge n (count q) with hlt | hge
    · rw [serving_cons_of_lt hlt, List.length_cons]
      omega
    · rw [serving_cons_of_le hge]
      omega

theorem length_rounds_min (n : ℕ) :
    (rounds queues count n).length = (queues.map fun q => min (count q) n).sum := by
  induction n with
  | zero => simp
  | succ n ih => rw [rounds_succ, List.length_append, List.length_map, ih, length_serving_add]

/-- Enough rounds take every item. -/
theorem length_rounds (h : ∀ q ∈ queues, count q ≤ n) :
    (rounds queues count n).length = (queues.map count).sum := by
  have hmin : (queues.map fun q => min (count q) n) = queues.map count :=
    List.map_congr_left fun q hq => min_eq_left (h q hq)
  rw [length_rounds_min, hmin]

/-- Round `r` has come past the queues in `done`, the others on the list are in `todo`. -/
structure InRound (queues : List ι) (count : ι → ℕ) (r : ℕ) (done todo : List ι)
    (served : List (ι × ℕ)) : Prop where
  served : served = rounds queues count r ++ done.map (·, r)
  split : serving queues count r = done ++ serving todo count r

theorem inRound_start : InRound queues count 0 [] queues [] := ⟨rfl, rfl⟩

namespace InRound

/-- The next queue gives an item. -/
theorem serve (h : InRound queues count r done (q :: todo) served) (hq : r < count q) :
    InRound queues count r (done ++ [q]) todo (served ++ [(q, r)]) := by
  refine ⟨by simp [h.served], ?_⟩
  rw [h.split, serving_cons_of_lt hq, List.append_assoc, List.singleton_append]

/-- The next queue has run out and is dropped. -/
theorem drop (h : InRound queues count r done (q :: todo) served) (hq : count q ≤ r) :
    InRound queues count r done todo served :=
  ⟨h.served, by rw [h.split, serving_cons_of_le hq]⟩

/-- At the end of the list the next round begins, on the queues that are left. -/
theorem wrap (h : InRound queues count r done [] served) :
    InRound queues count (r + 1) [] done served := by
  have hsplit : serving queues count r = done := by rw [h.split, serving_nil, List.append_nil]
  constructor
  · rw [h.served, rounds_succ, hsplit]
    simp
  · rw [serving_succ, hsplit]
    simp

/-- When no queue is left, everything has been served. -/
theorem finish (h : InRound queues count r [] [] served) (hn : ∀ q ∈ queues, count q ≤ n) :
    served = rounds queues count n := by
  have hr : ∀ q ∈ queues, count q ≤ r := by
    intro q hq
    by_contra hlt
    have hmem : q ∈ serving queues count r :=
      List.mem_filter.mpr ⟨hq, by simpa using hlt⟩
    rw [h.split] at hmem
    simp at hmem
  have hserved : served = rounds queues count r := by simp [h.served]
  rw [hserved, ← rounds_of_le hr (le_max_left r n), rounds_of_le hn (le_max_right r n)]

end InRound
end DpiLibrary
