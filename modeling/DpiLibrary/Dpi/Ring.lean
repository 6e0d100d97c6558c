import Mathlib.Tactic
import DpiLibrary.Foundation.Packing
import DpiLibrary.Dpi.NodeServer

/-!
# Geometry of a ring

Segments are counted along the ring without wrapping: segment `j` lies in slot
`j % n`. Within any window of `n` consecutive segments the slots are different,
and so are the bytes.
-/

namespace DpiLibrary

/-- A ring of `segments` segments with `segmentSize` data bytes each, inside the address space. -/
structure RingGeometry where
  entry : ℕ
  segments : ℕ
  segmentSize : ℕ
  segments_pos : 0 < segments
  fits : entry + segments * (segmentSize + segmentHeaderSize) < sizeTBound

namespace RingGeometry

variable (g : RingGeometry)

/-- Bytes of a segment with its header. -/
def fullSize : ℕ := g.segmentSize + segmentHeaderSize

/-- Offset of the slot of segment `j`. -/
def slot (j : ℕ) : ℕ := g.entry + j % g.segments * g.fullSize

/-- Offset of the data of segment `j`. -/
def dataOffset (j : ℕ) : ℕ := g.slot j + segmentHeaderSize

/-- Bytes of the ring, the counter of a latency ring included. -/
def block (type : Buffertype) : Span :=
  ⟨g.entry - NodeServer.counterSize type,
    NodeServer.counterSize type + g.segments * g.fullSize⟩

theorem slot_zero : g.slot 0 = g.entry := by simp [slot]

theorem le_slot (j : ℕ) : g.entry ≤ g.slot j := Nat.le_add_right _ _

theorem slot_add_fullSize_le (j : ℕ) :
    g.slot j + g.fullSize ≤ g.entry + g.segments * g.fullSize := by
  have hlt : j % g.segments + 1 ≤ g.segments := Nat.mod_lt j g.segments_pos
  have hmul := Nat.mul_le_mul_right g.fullSize hlt
  rw [Nat.succ_mul] at hmul
  unfold slot
  omega

theorem slot_lt (j : ℕ) : g.slot j < sizeTBound := by
  have hslot := g.slot_add_fullSize_le j
  have hfits := g.fits
  unfold fullSize segmentHeaderSize at *
  omega

theorem slot_add_segments (j : ℕ) : g.slot (j + g.segments) = g.slot j := by
  simp [slot]

/-- Counting along the ring: the index starts again behind the last segment. -/
theorem succ_mod (j : ℕ) :
    (j + 1) % g.segments = if j % g.segments = g.segments - 1 then 0 else j % g.segments + 1 := by
  have hpos := g.segments_pos
  have hlt := Nat.mod_lt j hpos
  rw [← Nat.mod_add_mod j g.segments 1]
  split_ifs with hlast
  · rw [hlast, Nat.sub_add_cancel hpos, Nat.mod_self]
  · rw [Nat.mod_eq_of_lt (by omega)]

theorem slot_succ (j : ℕ) :
    g.slot (j + 1) =
      if j % g.segments = g.segments - 1 then g.entry else g.slot j + g.fullSize := by
  unfold slot
  rw [g.succ_mod]
  split_ifs
  · rw [Nat.zero_mul, Nat.add_zero]
  · rw [Nat.succ_mul, Nat.add_assoc]

/-- Different segments of a window of `segments` ones lie in different slots. -/
theorem mod_ne (low : ℕ) {j j' : ℕ} (hj : low ≤ j ∧ j < low + g.segments)
    (hj' : low ≤ j' ∧ j' < low + g.segments) (hne : j ≠ j') :
    j % g.segments ≠ j' % g.segments := by
  intro hmod
  rcases Nat.lt_or_gt_of_ne hne with hlt | hlt
  · have hdvd := (Nat.modEq_iff_dvd' hlt.le).mp hmod
    have := Nat.le_of_dvd (by omega) hdvd
    omega
  · have hdvd := (Nat.modEq_iff_dvd' hlt.le).mp hmod.symm
    have := Nat.le_of_dvd (by omega) hdvd
    omega

theorem slots_apart (low : ℕ) {j j' : ℕ} (hj : low ≤ j ∧ j < low + g.segments)
    (hj' : low ≤ j' ∧ j' < low + g.segments) (hne : j ≠ j') :
    g.slot j + g.fullSize ≤ g.slot j' ∨ g.slot j' + g.fullSize ≤ g.slot j := by
  have hmod := g.mod_ne low hj hj' hne
  unfold slot
  rcases Nat.lt_or_gt_of_ne hmod with hlt | hlt
  · have hmul := Nat.mul_le_mul_right g.fullSize (Nat.succ_le_of_lt hlt)
    rw [Nat.succ_mul] at hmul
    omega
  · have hmul := Nat.mul_le_mul_right g.fullSize (Nat.succ_le_of_lt hlt)
    rw [Nat.succ_mul] at hmul
    omega

theorem slot_ne (low : ℕ) {j j' : ℕ} (hj : low ≤ j ∧ j < low + g.segments)
    (hj' : low ≤ j' ∧ j' < low + g.segments) (hne : j ≠ j') : g.slot j ≠ g.slot j' := by
  have hapart := g.slots_apart low hj hj' hne
  unfold fullSize segmentHeaderSize at hapart
  omega

/-- Every slot is that of a segment of the window from `low` on. -/
theorem exists_window (low j : ℕ) :
    ∃ j', low ≤ j' ∧ j' < low + g.segments ∧ g.slot j' = g.slot j := by
  have hpos := g.segments_pos
  have hj := Nat.mod_lt j hpos
  have hlow := Nat.mod_lt low hpos
  have hdiv := Nat.div_add_mod low g.segments
  refine ⟨low + (j % g.segments + g.segments - low % g.segments) % g.segments,
    Nat.le_add_right _ _, Nat.add_lt_add_left (Nat.mod_lt _ hpos) _, ?_⟩
  have hsum : low + (j % g.segments + g.segments - low % g.segments) =
      j % g.segments + g.segments * (low / g.segments + 1) := by
    rw [Nat.mul_succ]
    omega
  have hmod : (low + (j % g.segments + g.segments - low % g.segments) % g.segments) % g.segments =
      j % g.segments := by
    rw [Nat.add_mod_mod, hsum, Nat.add_mul_mod_self_left, Nat.mod_mod]
  rw [slot, hmod, slot]

/-- Header of a segment that is free for the writer. -/
def freeHeader (j : ℕ) : SegmentHeader := ⟨0, g.slot (j + 1), 0b0001⟩

theorem freeHeader_add_segments (j : ℕ) : g.freeHeader (j + g.segments) = g.freeHeader j := by
  have hslot := g.slot_add_segments (j + 1)
  rw [Nat.add_right_comm] at hslot
  rw [freeHeader, freeHeader, hslot]

theorem fits_freeHeader (j : ℕ) : (g.freeHeader j).Fits :=
  ⟨Nat.two_pow_pos 64, g.slot_lt (j + 1), Nat.one_lt_two_pow (by omega)⟩

theorem initialHeader_eq {i : ℕ} (hi : i < g.segments) :
    NodeServer.initialHeader g.entry g.segments g.fullSize i = g.freeHeader i := by
  have hnext : (if i + 1 = g.segments then g.entry
      else (g.entry + (i + 1) * g.fullSize) % sizeTBound) = g.slot (i + 1) := by
    split_ifs with hlast
    · rw [slot, hlast, Nat.mod_self, Nat.zero_mul, Nat.add_zero]
    · have hlt : i + 1 < g.segments := by omega
      have hslot : g.slot (i + 1) = g.entry + (i + 1) * g.fullSize := by
        rw [slot, Nat.mod_eq_of_lt hlt]
      rw [← hslot, Nat.mod_eq_of_lt (g.slot_lt (i + 1))]
  simp [NodeServer.initialHeader, freeHeader, SegmentHeader.setWriteable, hnext]

theorem slot_mod (j : ℕ) : g.slot (j % g.segments) = g.slot j := by simp [slot]

theorem freeHeader_mod (j : ℕ) : g.freeHeader (j % g.segments) = g.freeHeader j := by
  simp [freeHeader, slot]

theorem slot_eq_of_lt {i : ℕ} (hi : i < g.segments) :
    (g.entry + i * g.fullSize) % sizeTBound = g.slot i := by
  have hslot : g.slot i = g.entry + i * g.fullSize := by rw [slot, Nat.mod_eq_of_lt hi]
  rw [← hslot, Nat.mod_eq_of_lt (g.slot_lt i)]

theorem initHeaders_succ (m : Mem) (count : ℕ) (hcount : count < g.segments) :
    (List.range (count + 1)).foldl
        (NodeServer.writeInitialHeader g.entry g.segments g.fullSize) m =
      writeHeader ((List.range count).foldl
        (NodeServer.writeInitialHeader g.entry g.segments g.fullSize) m)
        (g.slot count) (g.freeHeader count) := by
  rw [List.range_succ, List.foldl_append, List.foldl_cons, List.foldl_nil,
    NodeServer.writeInitialHeader, g.slot_eq_of_lt hcount, g.initialHeader_eq hcount]

theorem readHeader_initHeaders_aux (m : Mem) :
    ∀ count ≤ g.segments, ∀ i < count,
      readHeader ((List.range count).foldl
        (NodeServer.writeInitialHeader g.entry g.segments g.fullSize) m) (g.slot i) =
        g.freeHeader i := by
  intro count
  induction count with
  | zero => intro _ i hi; omega
  | succ count ih =>
    intro hcount i hi
    rw [g.initHeaders_succ m count (by omega)]
    rcases Nat.lt_succ_iff_lt_or_eq.mp hi with hlt | rfl
    · have hapart : g.slot i + g.fullSize ≤ g.slot count ∨ g.slot count + g.fullSize ≤ g.slot i :=
        g.slots_apart 0 (by omega) (by omega) (by omega)
      unfold fullSize at hapart
      rw [(agreeOn_writeHeader (by omega)).readHeader]
      exact ih (by omega) i hlt
    · exact readHeader_writeHeader _ _ (g.fits_freeHeader i)

/-- The headers the node writes: every segment is free and points at the next one. -/
theorem readHeader_initHeaders (m : Mem) (j : ℕ) :
    readHeader (NodeServer.initHeaders m g.entry g.segments g.fullSize) (g.slot j) =
      g.freeHeader j := by
  have hlt : j % g.segments < g.segments := Nat.mod_lt j g.segments_pos
  rw [← g.slot_mod, ← g.freeHeader_mod]
  exact g.readHeader_initHeaders_aux m g.segments le_rfl _ hlt

theorem agreeOn_initHeaders (m : Mem) {start len : ℕ}
    (hout : start + len ≤ g.entry ∨ g.entry + g.segments * g.fullSize ≤ start) :
    AgreeOn (NodeServer.initHeaders m g.entry g.segments g.fullSize) m start len := by
  have haux : ∀ count ≤ g.segments, AgreeOn ((List.range count).foldl
      (NodeServer.writeInitialHeader g.entry g.segments g.fullSize) m) m start len := by
    intro count
    induction count with
    | zero => exact fun _ => AgreeOn.refl _ _ _
    | succ count ih =>
      intro hcount
      rw [g.initHeaders_succ m count (by omega)]
      have hle := g.le_slot count
      have hend := g.slot_add_fullSize_le count
      unfold fullSize at hend hout
      exact (agreeOn_writeHeader (by omega)).trans (ih (by omega))
  exact haux g.segments le_rfl

end RingGeometry
end DpiLibrary
