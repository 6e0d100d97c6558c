import Mathlib.Order.WellFounded

/-!
# Fair runs

An infinite schedule names the party whose turn it is; a party that cannot move lets
its turn pass. A schedule is fair when every party has its turn again and again. The
rule for reaching a goal is proved here: a rank that no turn raises, and in each state
a party that lowers it and goes on being able to until the rank is lower.
-/

namespace DpiLibrary
namespace FairRuns

variable {σ π : Type*} (turn : σ → π → Option σ)

/-- The state after the first turns of a schedule. -/
def run (s : σ) (schedule : ℕ → π) : ℕ → σ
  | 0 => s
  | n + 1 => (turn (run s schedule n) (schedule n)).getD (run s schedule n)

/-- Every party has its turn infinitely often. -/
def Fair (schedule : ℕ → π) : Prop := ∀ p n, ∃ d, schedule (n + d) = p

variable {turn} {s : σ} {schedule : ℕ → π}

theorem run_succ_of_none {n : ℕ} (h : turn (run turn s schedule n) (schedule n) = none) :
    run turn s schedule (n + 1) = run turn s schedule n := by
  simp [run, h]

theorem run_succ_of_some {n : ℕ} {t : σ}
    (h : turn (run turn s schedule n) (schedule n) = some t) :
    run turn s schedule (n + 1) = t := by
  simp [run, h]

/-- What every turn keeps holds from the state on in which it holds first. -/
theorem run_invariant {I : σ → Prop} (hturn : ∀ s p t, I s → turn s p = some t → I t) {n m : ℕ}
    (hle : n ≤ m) (h : I (run turn s schedule n)) : I (run turn s schedule m) := by
  induction m, hle using Nat.le_induction with
  | base => exact h
  | succ m hle ih =>
    cases hstep : turn (run turn s schedule m) (schedule m) with
    | none => rwa [run_succ_of_none hstep]
    | some t =>
      rw [run_succ_of_some hstep]
      exact hturn _ _ _ ih hstep

/-- Parties that have their turns one after the other have them infinitely often. -/
theorem fair_of_mod {parties : List π} (hne : 0 < parties.length) (hall : ∀ p, p ∈ parties) :
    Fair fun n => parties.get ⟨n % parties.length, Nat.mod_lt n hne⟩ := by
  intro p n
  obtain ⟨i, rfl⟩ := List.get_of_mem (hall p)
  have hlt := Nat.mod_lt n hne
  refine ⟨parties.length - n % parties.length + i, congrArg parties.get (Fin.ext ?_)⟩
  have hsum : n + (parties.length - n % parties.length + i) =
      i + parties.length * (n / parties.length + 1) := by
    have hdiv := Nat.div_add_mod n parties.length
    rw [Nat.mul_succ]
    omega
  show (n + (parties.length - n % parties.length + i)) % parties.length = i
  rw [hsum, Nat.add_mul_mod_self_left, Nat.mod_eq_of_lt i.isLt]

/-- A rank of the states, seen with what a proof knows of them, that leads to the goal. The
turns in a run are among those allowed. -/
structure Ranking (turn : σ → π → Option σ) (allowed : σ → π → Prop) (goal : σ → Prop)
    (τ ρ : Type*) [Preorder ρ] where
  View : σ → τ → Prop
  rank : σ → τ → ρ
  Helps : σ → τ → π → Prop
  exists_helps : ∀ s x, View s x → ¬ goal s → ∃ p, Helps s x p
  enabled : ∀ s x p, View s x → ¬ goal s → Helps s x p → (turn s p).isSome
  step : ∀ s x p t, View s x → ¬ goal s → allowed s p → turn s p = some t →
    goal t ∨ ∃ y, View t y ∧ (rank t y < rank s x ∨
      rank t y = rank s x ∧ ¬ Helps s x p ∧ ∀ q, Helps s x q → Helps t y q)

namespace Ranking

variable {allowed : σ → π → Prop} {goal : σ → Prop} {τ ρ : Type*} [Preorder ρ]

/-- Until a party that helps has its turn the rank stays or falls. -/
theorem falls (R : Ranking turn allowed goal τ ρ)
    (hallowed : ∀ n, allowed (run turn s schedule n) (schedule n)) {p : π} :
    ∀ d n x, R.View (run turn s schedule n) x → R.Helps (run turn s schedule n) x p →
      schedule (n + d) = p → ∃ m, n ≤ m ∧ (goal (run turn s schedule m) ∨
        ∃ y, R.View (run turn s schedule m) y ∧
          R.rank (run turn s schedule m) y < R.rank (run turn s schedule n) x) := by
  intro d
  induction d with
  | zero =>
    intro n x hview hhelps hturn
    rw [Nat.add_zero] at hturn
    by_cases hgoal : goal (run turn s schedule n)
    · exact ⟨n, le_rfl, Or.inl hgoal⟩
    · obtain ⟨t, ht⟩ := Option.isSome_iff_exists.mp (R.enabled _ x p hview hgoal hhelps)
      rw [← hturn] at ht
      have hrun : run turn s schedule (n + 1) = t := run_succ_of_some ht
      refine ⟨n + 1, Nat.le_succ n, ?_⟩
      rw [hrun]
      rcases R.step _ x _ t hview hgoal (hallowed n) ht with hdone | ⟨y, hy, hlt | ⟨-, hnot, -⟩⟩
      · exact Or.inl hdone
      · exact Or.inr ⟨y, hy, hlt⟩
      · rw [hturn] at hnot
        exact absurd hhelps hnot
  | succ d ih =>
    intro n x hview hhelps hturn
    have hlater : schedule (n + 1 + d) = p := by
      rw [← hturn]
      congr 1
      omega
    by_cases hgoal : goal (run turn s schedule n)
    · exact ⟨n, le_rfl, Or.inl hgoal⟩
    cases hstep : turn (run turn s schedule n) (schedule n) with
    | none =>
      have hrun := run_succ_of_none hstep
      rw [← hrun] at hview hhelps ⊢
      obtain ⟨m, hle, hm⟩ := ih (n + 1) x hview hhelps hlater
      exact ⟨m, (Nat.le_succ n).trans hle, hm⟩
    | some t =>
      have hrun := run_succ_of_some hstep
      rcases R.step _ x _ t hview hgoal (hallowed n) hstep with
        hdone | ⟨y, hy, hlt | ⟨heq, -, hkept⟩⟩
      · refine ⟨n + 1, Nat.le_succ n, Or.inl ?_⟩
        rwa [hrun]
      · refine ⟨n + 1, Nat.le_succ n, Or.inr ⟨y, ?_⟩⟩
        rw [hrun]
        exact ⟨hy, hlt⟩
      · have hhelps' := hkept p hhelps
        rw [← hrun] at hy hhelps' heq
        obtain ⟨m, hle, hm⟩ := ih (n + 1) y hy hhelps' hlater
        rw [heq] at hm
        exact ⟨m, (Nat.le_succ n).trans hle, hm⟩

/-- Every fair run reaches the goal. -/
theorem reaches [WellFoundedLT ρ] (R : Ranking turn allowed goal τ ρ) (hfair : Fair schedule)
    (hallowed : ∀ n, allowed (run turn s schedule n) (schedule n)) {x : τ} (hview : R.View s x) :
    ∃ n, goal (run turn s schedule n) := by
  have hfrom : ∀ r n x, R.View (run turn s schedule n) x →
      R.rank (run turn s schedule n) x = r → ∃ m, goal (run turn s schedule m) := by
    intro r
    induction r using WellFoundedLT.induction with
    | ind r ih =>
      rintro n x hx rfl
      by_cases hgoal : goal (run turn s schedule n)
      · exact ⟨n, hgoal⟩
      · obtain ⟨p, hp⟩ := R.exists_helps _ x hx hgoal
        obtain ⟨d, hd⟩ := hfair p n
        obtain ⟨m, -, hm | ⟨y, hy, hlt⟩⟩ := R.falls hallowed d n x hx hp hd
        · exact ⟨m, hm⟩
        · exact ih _ hlt m y hy rfl
  exact hfrom _ 0 x hview rfl

end Ranking
end FairRuns
end DpiLibrary
