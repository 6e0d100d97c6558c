import Mathlib.Data.List.Basic

/-!
# Vectors grown on demand

A table indexed by numbers that are handed out elsewhere is grown when an index past
its end is stored. The elements in between come into being with a default value: an
index in range says nothing about whether it was ever stored.
-/

namespace DpiLibrary
namespace GrownVector

variable {α : Type*}

/-- `vector::resize` to a larger size. -/
def grow (l : List α) (n : ℕ) (fill : α) : List α := l ++ List.replicate (n - l.length) fill

/-- Store at an index, after making it one of the vector. -/
def store (l : List α) (i : ℕ) (a fill : α) : List α := (grow l (i + 1) fill).set i a

theorem length_grow (l : List α) (n : ℕ) (fill : α) : (grow l n fill).length = max l.length n := by
  rw [grow, List.length_append, List.length_replicate]
  omega

theorem length_store (l : List α) (i : ℕ) (a fill : α) :
    (store l i a fill).length = max l.length (i + 1) := by
  rw [store, List.length_set, length_grow]

theorem getElem?_grow_of_lt {l : List α} {i : ℕ} (h : i < l.length) (n : ℕ) (fill : α) :
    (grow l n fill)[i]? = l[i]? := List.getElem?_append_left h

@[simp] theorem getElem?_store_self (l : List α) (i : ℕ) (a fill : α) :
    (store l i a fill)[i]? = some a := by
  apply List.getElem?_set_self
  rw [length_grow]
  omega

/-- Other indices of the vector keep their element. -/
theorem getElem?_store_of_lt {l : List α} {i j : ℕ} (hj : j < l.length) (hne : j ≠ i)
    (a fill : α) : (store l i a fill)[j]? = l[j]? := by
  rw [store, List.getElem?_set_ne hne.symm, getElem?_grow_of_lt hj]

/-- Indices skipped by the growth hold the default. -/
theorem getElem?_store_of_between {l : List α} {i j : ℕ} (hj : l.length ≤ j) (hlt : j < i)
    (a fill : α) : (store l i a fill)[j]? = some fill := by
  rw [store, List.getElem?_set_ne (by omega), grow, List.getElem?_append_right hj,
    List.getElem?_replicate, if_pos (by omega)]

end GrownVector
end DpiLibrary
