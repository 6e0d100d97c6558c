import Mathlib.Data.List.Induction
import Mathlib.Tactic.Common

/-!
# Events since the last mark

Events belong to keys, and some of them are marked. For each key the events since its
last marked one are counted. The count stays below a bound exactly when every stretch
of events without a mark of the key has fewer of them.
-/

namespace DpiLibrary

variable {κ : Type*} [DecidableEq κ]

/-- Events of the key `c` after the last marked one of `c`. -/
def sinceMark (c : κ) (events : List (κ × Bool)) : ℕ :=
  events.foldl (fun n e => if e.1 = c then if e.2 then 0 else n + 1 else n) 0

/-- No event of `c` is marked. -/
def Unmarked (c : κ) (events : List (κ × Bool)) : Prop := ∀ e ∈ events, e.1 = c → e.2 = false

/-- Events of the key `c`. -/
def eventsOf (c : κ) (events : List (κ × Bool)) : ℕ := events.countP fun e => e.1 = c

@[simp] theorem sinceMark_nil (c : κ) : sinceMark c [] = 0 := rfl

theorem sinceMark_concat (c : κ) (events : List (κ × Bool)) (e : κ × Bool) :
    sinceMark c (events ++ [e]) =
      if e.1 = c then if e.2 then 0 else sinceMark c events + 1 else sinceMark c events := by
  rw [sinceMark, List.foldl_append]
  rfl

theorem sinceMark_append {c : κ} (before : List (κ × Bool)) {events : List (κ × Bool)}
    (h : Unmarked c events) :
    sinceMark c (before ++ events) = sinceMark c before + eventsOf c events := by
  induction events using List.reverseRecOn with
  | nil => simp [eventsOf]
  | append_singleton events e ih =>
    have hold : Unmarked c events := fun x hx => h x (List.mem_append_left _ hx)
    rw [← List.append_assoc, sinceMark_concat, ih hold]
    by_cases hkey : e.1 = c
    · have hmark := h e (by simp) hkey
      simp [eventsOf, List.countP_append, hkey, hmark]
      omega
    · simp [eventsOf, List.countP_append, hkey]

/-- The events counted are those of an unmarked stretch at the end. -/
theorem exists_unmarked_suffix (c : κ) (events : List (κ × Bool)) :
    ∃ before stretch, events = before ++ stretch ∧ Unmarked c stretch ∧
      eventsOf c stretch = sinceMark c events := by
  induction events using List.reverseRecOn with
  | nil => exact ⟨[], [], rfl, by simp [Unmarked], rfl⟩
  | append_singleton events e ih =>
    obtain ⟨before, stretch, rfl, hunmarked, hcount⟩ := ih
    rw [sinceMark_concat]
    by_cases hmark : e.1 = c ∧ e.2 = true
    · refine ⟨before ++ stretch ++ [e], [], by simp, by simp [Unmarked], ?_⟩
      simp [eventsOf, hmark.1, hmark.2]
    · refine ⟨before, stretch ++ [e], by simp, fun x hx hkey => ?_, ?_⟩
      · rcases List.mem_append.mp hx with hx | hx
        · exact hunmarked x hx hkey
        · obtain rfl := List.mem_singleton.mp hx
          exact Bool.eq_false_iff.mpr fun hx => hmark ⟨hkey, hx⟩
      · unfold eventsOf at hcount ⊢
        rw [List.countP_append, hcount]
        by_cases hkey : e.1 = c
        · have hfalse : e.2 = false := Bool.eq_false_iff.mpr fun he => hmark ⟨hkey, he⟩
          simp [hkey, hfalse]
        · simp [hkey]

theorem sinceMark_lt_iff (c : κ) (events : List (κ × Bool)) (n : ℕ) :
    sinceMark c events < n ↔
      ∀ before stretch, events = before ++ stretch → Unmarked c stretch →
        eventsOf c stretch < n := by
  constructor
  · rintro hlt before stretch rfl hunmarked
    rw [sinceMark_append before hunmarked] at hlt
    omega
  · intro h
    obtain ⟨before, stretch, heq, hunmarked, hcount⟩ := exists_unmarked_suffix c events
    rw [← hcount]
    exact h before stretch heq hunmarked

end DpiLibrary
