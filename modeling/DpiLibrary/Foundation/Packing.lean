import Mathlib.Data.List.Perm.Basic
import Mathlib.Data.List.Pairwise
import Mathlib.Algebra.BigOperators.Group.List.Basic
import Mathlib.Algebra.GroupWithZero.Nat
import Mathlib.Algebra.Order.BigOperators.Group.List

/-!
# Blocks packed into an address range

A span is a half-open address interval given by its start and its length. A
packing of `[0, limit)` is a list of non-empty spans, pairwise apart, inside the
range. An allocator only ever permutes, splits, joins or drops spans, so these
four rules carry both its safety and its accounting.
-/

namespace DpiLibrary

structure Span where
  start : ℕ
  length : ℕ
  deriving DecidableEq, Repr

namespace Span

/-- Two spans share no address. -/
def Apart (a b : Span) : Prop := a.start + a.length ≤ b.start ∨ b.start + b.length ≤ a.start

theorem Apart.symm {a b : Span} (h : Apart a b) : Apart b a := Or.symm h

def Inside (limit : ℕ) (a : Span) : Prop := a.start + a.length ≤ limit

instance (limit : ℕ) (a : Span) : Decidable (a.Inside limit) :=
  inferInstanceAs (Decidable (a.start + a.length ≤ limit))

/-- The addresses of a span. -/
def Contains (a : Span) (x : ℕ) : Prop := a.start ≤ x ∧ x < a.start + a.length

instance (a : Span) (x : ℕ) : Decidable (a.Contains x) :=
  inferInstanceAs (Decidable (a.start ≤ x ∧ x < a.start + a.length))

/-- Non-empty spans without a common address are apart. -/
theorem apart_of_disjoint {a b : Span} (ha : 0 < a.length) (hb : 0 < b.length)
    (h : ∀ x, a.Contains x → ¬ b.Contains x) : Apart a b := by
  by_contra hn
  simp only [Apart, not_or, not_le] at hn
  rcases le_total a.start b.start with hle | hle
  · exact h b.start ⟨hle, hn.1⟩ ⟨le_rfl, by omega⟩
  · exact h a.start ⟨le_rfl, by omega⟩ ⟨hle, hn.2⟩

theorem Apart.start_ne {a b : Span} (h : Apart a b) (ha : 0 < a.length) (hb : 0 < b.length) :
    a.start ≠ b.start := by
  unfold Apart at h
  omega

end Span

/-- Non-empty spans inside `[0, limit)`, pairwise apart. -/
structure Packing (limit : ℕ) (l : List Span) : Prop where
  pos : ∀ a ∈ l, 0 < a.length
  inside : ∀ a ∈ l, a.Inside limit
  apart : l.Pairwise Span.Apart

namespace Packing

variable {limit : ℕ} {l l' : List Span} {a b : Span}

theorem perm (h : Packing limit l) (hp : l.Perm l') : Packing limit l' where
  pos a ha := h.pos a (hp.mem_iff.mpr ha)
  inside a ha := h.inside a (hp.mem_iff.mpr ha)
  apart := (hp.pairwise_iff fun h => h.symm).mp h.apart

theorem sublist (h : Packing limit l') (hs : l.Sublist l') : Packing limit l where
  pos a ha := h.pos a (hs.subset ha)
  inside a ha := h.inside a (hs.subset ha)
  apart := h.apart.sublist hs

theorem cons_iff : Packing limit (a :: l) ↔
    0 < a.length ∧ a.Inside limit ∧ (∀ b ∈ l, a.Apart b) ∧ Packing limit l := by
  constructor
  · intro h
    exact ⟨h.pos a (by simp), h.inside a (by simp), (List.pairwise_cons.mp h.apart).1,
      h.sublist (List.sublist_cons_self a l)⟩
  · rintro ⟨hpos, hin, hap, hl⟩
    refine ⟨?_, ?_, List.pairwise_cons.mpr ⟨hap, hl.apart⟩⟩
    · simpa using ⟨hpos, hl.pos⟩
    · simpa using ⟨hin, hl.inside⟩

/-- Two members at different places of a packing start at different addresses. -/
theorem start_ne (h : Packing limit (a :: l)) (hb : b ∈ l) : a.start ≠ b.start := by
  obtain ⟨hpos, -, hap, hl⟩ := cons_iff.mp h
  exact (hap b hb).start_ne hpos (hl.pos b hb)

theorem tail (h : Packing limit (a :: l)) : Packing limit l := (cons_iff.mp h).2.2.2

/-- Cut a span in two non-empty parts. -/
theorem split {o m n : ℕ} (hm : 0 < m) (hn : 0 < n) (h : Packing limit (⟨o, m + n⟩ :: l)) :
    Packing limit (⟨o, m⟩ :: ⟨o + m, n⟩ :: l) := by
  obtain ⟨-, hin, hap, hl⟩ := cons_iff.mp h
  simp only [Span.Inside] at hin
  have hfst : ∀ b ∈ l, Span.Apart ⟨o, m⟩ b := by
    intro b hb
    have := hap b hb
    simp only [Span.Apart] at this ⊢
    omega
  have hsnd : ∀ b ∈ l, Span.Apart ⟨o + m, n⟩ b := by
    intro b hb
    have := hap b hb
    simp only [Span.Apart] at this ⊢
    omega
  have hrest : Packing limit (⟨o + m, n⟩ :: l) :=
    cons_iff.mpr ⟨hn, by simp only [Span.Inside]; omega, hsnd, hl⟩
  refine cons_iff.mpr ⟨hm, by simp only [Span.Inside]; omega, ?_, hrest⟩
  intro b hb
  rcases List.mem_cons.mp hb with rfl | hb
  · exact Or.inl le_rfl
  · exact hfst b hb

/-- Glue two touching spans. -/
theorem join {o m n : ℕ} (h : Packing limit (⟨o, m⟩ :: ⟨o + m, n⟩ :: l)) :
    Packing limit (⟨o, m + n⟩ :: l) := by
  obtain ⟨hm, -, hap, hrest⟩ := cons_iff.mp h
  obtain ⟨hn, hin, hap', hl⟩ := cons_iff.mp hrest
  simp only [Span.Inside] at hin
  refine cons_iff.mpr ⟨by simp only at hm ⊢; omega, by simp only [Span.Inside]; omega, ?_, hl⟩
  intro b hb
  have hfst := hap b (by simp [hb])
  have hsnd := hap' b hb
  have hpos := hl.pos b hb
  simp only [Span.Apart] at hm hfst hsnd ⊢
  omega

end Packing

/-- Addresses covered by a list of spans that are apart. -/
def totalLength (l : List Span) : ℕ := (l.map Span.length).sum

@[simp] theorem totalLength_nil : totalLength [] = 0 := rfl

@[simp] theorem totalLength_cons (a : Span) (l : List Span) :
    totalLength (a :: l) = a.length + totalLength l := by simp [totalLength]

@[simp] theorem totalLength_append (l l' : List Span) :
    totalLength (l ++ l') = totalLength l + totalLength l' := by simp [totalLength]

theorem totalLength_perm {l l' : List Span} (h : l.Perm l') : totalLength l = totalLength l' :=
  (h.map Span.length).sum_eq

/-- How many spans of a list contain an address. Unlike a packing this says something
about empty spans as well: they contain nothing. -/
def cover (l : List Span) (x : ℕ) : ℕ := l.countP fun a => a.Contains x

@[simp] theorem cover_nil (x : ℕ) : cover [] x = 0 := rfl

theorem cover_cons (a : Span) (l : List Span) (x : ℕ) :
    cover (a :: l) x = cover l x + if a.Contains x then 1 else 0 := by
  simp [cover, List.countP_cons]

@[simp] theorem cover_append (l l' : List Span) (x : ℕ) :
    cover (l ++ l') x = cover l x + cover l' x := List.countP_append

theorem cover_perm {l l' : List Span} (h : l.Perm l') (x : ℕ) : cover l x = cover l' x :=
  h.countP_eq _

theorem cover_pos {l : List Span} {x : ℕ} : 0 < cover l x ↔ ∃ a ∈ l, a.Contains x := by
  simp [cover, List.countP_pos_iff]

/-- Two touching spans contain what the joined one does. -/
theorem cover_join (o m n : ℕ) (l : List Span) (x : ℕ) :
    cover (⟨o, m⟩ :: ⟨o + m, n⟩ :: l) x = cover (⟨o, m + n⟩ :: l) x := by
  have hjoin :
      Span.Contains ⟨o, m + n⟩ x ↔ Span.Contains ⟨o, m⟩ x ∨ Span.Contains ⟨o + m, n⟩ x := by
    simp only [Span.Contains]
    omega
  have hapart : ¬ (Span.Contains ⟨o, m⟩ x ∧ Span.Contains ⟨o + m, n⟩ x) := by
    simp only [Span.Contains]
    omega
  simp only [cover_cons, hjoin]
  by_cases hm : Span.Contains ⟨o, m⟩ x
  · have hn : ¬ Span.Contains ⟨o + m, n⟩ x := fun hn => hapart ⟨hm, hn⟩
    simp [hm, hn]
  · simp [hm]

/-- No address lies in two spans of a list that covers none twice. -/
theorem disjoint_of_cover {l : List Span} (h : ∀ x, cover l x ≤ 1) :
    l.Pairwise fun a b => ∀ x, a.Contains x → ¬ b.Contains x := by
  induction l with
  | nil => exact List.Pairwise.nil
  | cons a l ih =>
    constructor
    · intro b hb x hax hbx
      have hpos : 0 < cover l x := cover_pos.mpr ⟨b, hb, hbx⟩
      have hle := h x
      rw [cover_cons, if_pos hax] at hle
      omega
    · apply ih
      intro x
      have hle := h x
      rw [cover_cons] at hle
      omega

end DpiLibrary
