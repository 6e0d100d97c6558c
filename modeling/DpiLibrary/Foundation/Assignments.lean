import Mathlib.Data.List.Basic

/-!
# Assignments to the parts of a record

A record has a part for each key. An assignment gives one part what is read from a value, and
fails when nothing can be read. After a list of them each part holds what its last assignment
gave.
-/

namespace DpiLibrary

/-- A record, as seen by those who assign to it. -/
structure Record (σ κ υ φ : Type*) [DecidableEq κ] where
  part : σ → κ → φ
  read : κ → υ → Option φ
  assign : σ → κ → υ → Option σ
  /-- Whether an assignment fails does not depend on the record. -/
  assign_eq_none (s : σ) (k : κ) (v : υ) : assign s k v = none ↔ read k v = none
  /-- An assignment changes its own part. -/
  part_assign {s s' : σ} {k : κ} {v : υ} (h : assign s k v = some s') (k' : κ) :
    some (part s' k') = if k' = k then read k v else some (part s k')
  ext {s s' : σ} (h : ∀ k, part s k = part s' k) : s = s'

namespace Record

variable {σ κ υ φ : Type*} [DecidableEq κ] (R : Record σ κ υ φ)

/-- One assignment after the other. -/
def assignAll (assignments : List (κ × υ)) (s : σ) : Option σ :=
  assignments.foldlM (fun s x => R.assign s x.1 x.2) s

/-- What the last assignment to a key assigns. -/
def lastValue (k : κ) : List (κ × υ) → Option υ
  | [] => none
  | x :: xs => (lastValue k xs).or (if k = x.1 then some x.2 else none)

theorem assignAll_cons (x : κ × υ) (xs : List (κ × υ)) (s : σ) :
    R.assignAll (x :: xs) s = (R.assign s x.1 x.2).bind (R.assignAll xs) := rfl

theorem assignAll_eq_none (xs : List (κ × υ)) (s : σ) :
    R.assignAll xs s = none ↔ ∃ x ∈ xs, R.read x.1 x.2 = none := by
  induction xs generalizing s with
  | nil => simp [assignAll]
  | cons x xs ih =>
    rw [assignAll_cons, List.exists_mem_cons_iff, ← R.assign_eq_none s x.1 x.2]
    cases R.assign s x.1 x.2 with
    | none => simp
    | some s' => simp [ih]

theorem part_assignAll {xs : List (κ × υ)} {s s' : σ} (h : R.assignAll xs s = some s') (k : κ) :
    some (R.part s' k) = (lastValue k xs).elim (some (R.part s k)) (R.read k) := by
  induction xs generalizing s with
  | nil =>
    obtain rfl : s = s' := by simpa [assignAll] using h
    rfl
  | cons x xs ih =>
    rw [assignAll_cons, Option.bind_eq_some_iff] at h
    obtain ⟨t, hassign, hrest⟩ := h
    rw [ih hrest, lastValue]
    cases lastValue k xs with
    | some v => rfl
    | none =>
      have hpart := R.part_assign hassign k
      split_ifs at hpart ⊢ with hk
      · subst hk
        exact hpart
      · exact hpart

/-- The record after a list of assignments, part by part. -/
theorem assignAll_eq_some_iff (xs : List (κ × υ)) (s s' : σ) :
    R.assignAll xs s = some s' ↔ (∀ x ∈ xs, R.read x.1 x.2 ≠ none) ∧
      ∀ k, some (R.part s' k) = (lastValue k xs).elim (some (R.part s k)) (R.read k) := by
  constructor
  · intro h
    refine ⟨fun x hx hread => ?_, R.part_assignAll h⟩
    have hnone := (R.assignAll_eq_none xs s).mpr ⟨x, hx, hread⟩
    rw [h] at hnone
    cases hnone
  · rintro ⟨hread, hparts⟩
    cases hrun : R.assignAll xs s with
    | none =>
      obtain ⟨x, hx, hnone⟩ := (R.assignAll_eq_none xs s).mp hrun
      exact absurd hnone (hread x hx)
    | some t =>
      have hparts' := R.part_assignAll hrun
      rw [R.ext fun k => Option.some.inj ((hparts' k).trans (hparts k).symm)]

end Record
end DpiLibrary
