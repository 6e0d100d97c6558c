import Mathlib.Data.List.Basic
import Mathlib.Data.List.Infix
import Mathlib.Tactic.Common
import Mathlib.Tactic.Simps.Basic

/-!
# A bounded ring whose consumer releases one step late

A producer sends items into a ring of `n` slots. The consumer takes them in order
and holds the last one taken until it asks for the next, so at most one item is
taken and not yet released. The bounds are fields of the state: a state that
violates them cannot be built. Items are counted from the beginning and never
wrap; item `j` occupies slot `j % n`.
-/

namespace DpiLibrary

structure LaggedRing (α : Type*) (n : ℕ) where
  sent : List α
  fin : Bool
  returned : ℕ
  released : ℕ
  released_le : released ≤ returned
  returned_le : returned ≤ released + 1
  returned_le_sent : returned ≤ sent.length
  released_lt_sent : sent ≠ [] → released < sent.length
  sent_le : sent.length ≤ released + n

namespace LaggedRing

variable {α : Type*} {n : ℕ}

@[simps]
def empty (α : Type*) (n : ℕ) : LaggedRing α n where
  sent := []
  fin := false
  returned := 0
  released := 0
  released_le := le_rfl
  returned_le := Nat.zero_le 1
  returned_le_sent := le_rfl
  released_lt_sent := fun h => absurd rfl h
  sent_le := Nat.zero_le _

/-- The producer fills the next slot, with the final item if `last`. -/
@[simps]
def land (a : LaggedRing α n) (b : α) (last : Bool) (h : a.sent.length < a.released + n) :
    LaggedRing α n where
  sent := a.sent ++ [b]
  fin := last
  returned := a.returned
  released := a.released
  released_le := a.released_le
  returned_le := a.returned_le
  returned_le_sent := by
    rw [List.length_append]
    exact a.returned_le_sent.trans (Nat.le_add_right _ _)
  released_lt_sent := fun _ => by
    rw [List.length_append]
    exact Nat.lt_succ_of_le (a.released_le.trans a.returned_le_sent)
  sent_le := by
    rw [List.length_append]
    exact h

/-- The producer declares the last item to be final. -/
@[simps]
def finish (a : LaggedRing α n) : LaggedRing α n where
  sent := a.sent
  fin := true
  returned := a.returned
  released := a.released
  released_le := a.released_le
  returned_le := a.returned_le
  returned_le_sent := a.returned_le_sent
  released_lt_sent := a.released_lt_sent
  sent_le := a.sent_le

/-- The consumer gives back the item taken last, when another one can be taken. -/
@[simps]
def release (a : LaggedRing α n) (h : a.returned < a.sent.length) : LaggedRing α n where
  sent := a.sent
  fin := a.fin
  returned := a.returned
  released := a.returned
  released_le := le_rfl
  returned_le := Nat.le_succ _
  returned_le_sent := a.returned_le_sent
  released_lt_sent := fun _ => h
  sent_le := a.sent_le.trans (Nat.add_le_add_right a.released_le n)

/-- The consumer takes the next item. -/
@[simps]
def take (a : LaggedRing α n) (hrel : a.released = a.returned)
    (hsent : a.returned < a.sent.length) : LaggedRing α n where
  sent := a.sent
  fin := a.fin
  returned := a.returned + 1
  released := a.released
  released_le := hrel.le.trans (Nat.le_succ _)
  returned_le := by rw [hrel]
  returned_le_sent := hsent
  released_lt_sent := a.released_lt_sent
  sent_le := a.sent_le

/-- The moves of the two parties. -/
inductive Step : LaggedRing α n → LaggedRing α n → Prop
  | land {a : LaggedRing α n} (b : α) (last : Bool) (h : a.sent.length < a.released + n)
    (hfin : a.fin = false) : Step a (a.land b last h)
  | finish {a : LaggedRing α n} (hfin : a.fin = false) (hsent : a.sent ≠ []) : Step a a.finish
  | release {a : LaggedRing α n} (h : a.returned < a.sent.length) : Step a (a.release h)
  | take {a : LaggedRing α n} (hrel : a.released = a.returned)
    (hsent : a.returned < a.sent.length) : Step a (a.take hrel hsent)

/-- The items the consumer has taken, in order. -/
def delivered (a : LaggedRing α n) : List α := a.sent.take a.returned

theorem delivered_isPrefix (a : LaggedRing α n) : a.delivered <+: a.sent := List.take_prefix _ _

theorem delivered_eq (a : LaggedRing α n) (h : a.returned = a.sent.length) :
    a.delivered = a.sent := by
  rw [delivered, h, List.take_length]

theorem delivered_take (a : LaggedRing α n) (hrel : a.released = a.returned)
    (hsent : a.returned < a.sent.length) :
    (a.take hrel hsent).delivered = a.delivered ++ [a.sent[a.returned]] :=
  (List.take_append_getElem hsent).symm

/-- With two slots or more, a full ring always has an item to take: producer and consumer
never wait for each other. -/
theorem returned_lt_of_full (a : LaggedRing α n) (hn : 2 ≤ n)
    (hfull : a.sent.length = a.released + n) : a.returned < a.sent.length := by
  have := a.returned_le
  omega

/-- With two slots or more the item to be taken next is never in the slot of the one held. -/
theorem returned_lt_window (a : LaggedRing α n) (hn : 2 ≤ n) :
    a.returned < a.released + n := by
  have := a.returned_le
  omega

/-- The parties only add to what has been sent and taken. -/
structure Le (a a' : LaggedRing α n) : Prop where
  sent : a.sent <+: a'.sent
  returned : a.returned ≤ a'.returned
  released : a.released ≤ a'.released
  fin : a.fin = true → a'.fin = true ∧ a'.sent = a.sent

theorem Step.le {a a' : LaggedRing α n} (h : Step a a') : Le a a' := by
  cases h with
  | land b last h hfin =>
    exact ⟨List.prefix_append _ _, le_rfl, le_rfl, fun hf => by simp [hfin] at hf⟩
  | finish hfin hsent => exact ⟨List.prefix_refl _, le_rfl, le_rfl, fun hf => ⟨rfl, rfl⟩⟩
  | release h => exact ⟨List.prefix_refl _, le_rfl, a.released_le, fun hf => ⟨hf, rfl⟩⟩
  | take hrel hsent =>
    exact ⟨List.prefix_refl _, Nat.le_succ _, le_rfl, fun hf => ⟨hf, rfl⟩⟩

end LaggedRing
end DpiLibrary
