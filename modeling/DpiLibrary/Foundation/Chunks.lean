import Mathlib.Algebra.Order.Floor.Div
import Mathlib.Data.List.Basic
import Mathlib.Tactic.Common

/-!
# Lists cut into chunks

A list is cut into chunks of a given size. All but the last are full, and a further
chunk is begun only when something is left for it. The chunks are then determined by
the list: how it came in pieces does not matter.
-/

namespace DpiLibrary

variable {α : Type*} {size : ℕ}

inductive Chunked (size : ℕ) : List (List α) → Prop
  | last (c : List α) (hle : c.length ≤ size) : Chunked size [c]
  | full (c : List α) (rest : List (List α)) (hfull : c.length = size) (hrest : Chunked size rest)
    (hmore : rest.flatten ≠ []) : Chunked size (c :: rest)

/-- Number of chunks for `total` elements; the empty list has one chunk too. -/
def chunkCount (size total : ℕ) : ℕ := max 1 (total ⌈/⌉ size)

theorem chunkCount_of_le {total : ℕ} (h : total ≤ size) : chunkCount size total = 1 := by
  unfold chunkCount
  rcases Nat.eq_zero_or_pos size with hzero | hpos
  · simp [hzero]
  · have hle : total ⌈/⌉ size ≤ 1 := (ceilDiv_le_iff_le_mul hpos).mpr (by omega)
    exact max_eq_left hle

theorem chunkCount_add (hsize : 0 < size) {total : ℕ} (htotal : 0 < total) :
    chunkCount size (size + total) = chunkCount size total + 1 := by
  have hpos : 1 ≤ total ⌈/⌉ size := by
    by_contra hnot
    have hzero := (ceilDiv_le_iff_le_mul hsize).mp (show total ⌈/⌉ size ≤ 0 by omega)
    omega
  have hsum : (size + total) ⌈/⌉ size = total ⌈/⌉ size + 1 := by
    rw [Nat.ceilDiv_eq_add_pred_div, Nat.ceilDiv_eq_add_pred_div, Nat.add_assoc,
      Nat.add_sub_assoc (by omega), Nat.add_div_left _ hsize]
  unfold chunkCount
  omega

theorem chunkCount_le (hsize : 0 < size) {total count : ℕ} (hcount : 1 ≤ count)
    (h : total ≤ count * size) : chunkCount size total ≤ count := by
  apply max_le hcount
  apply (ceilDiv_le_iff_le_mul hsize).mpr
  rwa [Nat.mul_comm]

namespace Chunked

variable {chunks : List (List α)}

theorem length_eq (h : Chunked size chunks) (hsize : 0 < size) :
    chunks.length = chunkCount size chunks.flatten.length := by
  induction h with
  | last c hle =>
    rw [List.flatten_singleton, chunkCount_of_le hle]
    rfl
  | full c rest hfull hrest hmore ih =>
    rw [List.length_cons, ih, List.flatten_cons, List.length_append, hfull,
      chunkCount_add hsize (List.length_pos_of_ne_nil hmore)]

theorem length_flatten_le (h : Chunked size chunks) :
    chunks.flatten.length ≤ chunks.length * size := by
  induction h with
  | last c hle => simpa using hle
  | full c rest hfull hrest hmore ih =>
    rw [List.flatten_cons, List.length_append, List.length_cons, Nat.succ_mul, hfull]
    omega

/-- Each chunk is the part of the list at its place. -/
theorem getElem_eq (h : Chunked size chunks) :
    ∀ i (hi : i < chunks.length), chunks[i] = (chunks.flatten.drop (i * size)).take size := by
  induction h with
  | last c hle =>
    intro i hi
    obtain rfl : i = 0 := by simpa using hi
    simp [List.take_of_length_le hle]
  | full c rest hfull hrest hmore ih =>
    intro i hi
    cases i with
    | zero => simp [← hfull]
    | succ i =>
      have hdrop : (i + 1) * size = c.length + i * size := by
        rw [hfull, Nat.succ_mul, Nat.add_comm]
      rw [List.getElem_cons_succ, ih i (by simpa using hi), List.flatten_cons, hdrop,
        ← List.drop_drop, List.drop_left]

/-- Full chunks and what remains, which is nothing only if there are no others. -/
theorem of_full {full : List (List α)} {remainder : List α}
    (hfull : ∀ c ∈ full, c.length = size) (hle : remainder.length ≤ size)
    (hmore : full ≠ [] → remainder ≠ []) : Chunked size (full ++ [remainder]) := by
  induction full with
  | nil => exact .last remainder hle
  | cons c full ih =>
    obtain ⟨hc, hrest⟩ := List.forall_mem_cons.mp hfull
    have hne := hmore (List.cons_ne_nil c full)
    apply Chunked.full c _ hc (ih hrest fun _ => hne)
    rw [List.flatten_concat]
    exact List.append_ne_nil_of_right_ne_nil _ hne

end Chunked
end DpiLibrary
