import DpiLibrary.Dpi.BufferHandle
import DpiLibrary.Dpi.RingMemory

/-!
# The segment iterator

An iterator over the segments of one ring in local memory. Two iterators are equal
when both or neither of them has gone past a segment with the end flag; nothing
else is compared, so every such iterator equals the end iterator.
-/

namespace DpiLibrary

/-- The position in the registered memory, and whether the segment left last had the end
flag. The header of the end iterator is on the heap and is not looked at. -/
structure SegmentIterator where
  currentPosition : ℕ
  prevIsEndSegment : Bool
  deriving DecidableEq, Repr

namespace SegmentIterator

def getEndSegmentIterator : SegmentIterator := ⟨0, true⟩

/-- `operator==`. -/
def equals (it other : SegmentIterator) : Bool := it.prevIsEndSegment == other.prevIsEndSegment

/-- `operator++`. -/
def increment (m : Mem) (it : SegmentIterator) : SegmentIterator :=
  let currentHeader := readHeader m it.currentPosition
  ⟨currentHeader.nextSegmentOffset, currentHeader.isEndSegment⟩

/-- The bytes behind the header, as many as its counter says. -/
def getRawData (m : Mem) (it : SegmentIterator) : List UInt8 :=
  readBytes m (it.currentPosition + segmentHeaderSize) (readHeader m it.currentPosition).counter

/-- `for (; it != end; it++)`, collecting the raw data behind what was collected before. -/
def walk (m : Mem) (endIterator : SegmentIterator) :
    ℕ → SegmentIterator → List UInt8 → Option (List UInt8)
  | 0, _, _ => none
  | fuel + 1, it, data =>
    if it.equals endIterator then some data
    else walk m endIterator fuel (it.increment m) (data ++ it.getRawData m)

end SegmentIterator

namespace BufferSegment

/-- `BufferSegment::begin`. -/
def beginIterator (segment : BufferSegment) : SegmentIterator := ⟨segment.offset, false⟩

/-- `BufferSegment::end`. -/
def endIterator (_segment : BufferSegment) : SegmentIterator := .getEndSegmentIterator

end BufferSegment

namespace SegmentIterator

variable {g : RingGeometry} {x : RingState g} {m : Mem}

/-- From block `j` on, the walk over an untouched ring collects the blocks sent and stops
behind the final one. -/
theorem walk_shows (h : g.Shows .bw x .checkEnd m) (hreleased : x.released = 0)
    (hfin : x.fin = true) :
    ∀ (fuel j : ℕ) (data : List UInt8), j < x.sent.length → x.sent.length < j + fuel →
      walk m getEndSegmentIterator fuel ⟨g.slot j, false⟩ data =
        some (data ++ (x.sent.drop j).flatten) := by
  intro fuel
  induction fuel with
  | zero => intro j data hj hfuel; omega
  | succ fuel ih =>
    intro j data hj hfuel
    obtain ⟨hnext, hend, hcounter, hdata⟩ := h.readSegment hreleased hj
    have hraw : getRawData m ⟨g.slot j, false⟩ = x.sent[j] := by
      simp only [getRawData, hcounter]
      exact hdata
    have hdrop := RingGeometry.flatten_drop hj
    have hgo : walk m getEndSegmentIterator (fuel + 1) ⟨g.slot j, false⟩ data =
        walk m getEndSegmentIterator fuel
          ⟨g.slot (j + 1), (readHeader m (g.slot j)).isEndSegment⟩ (data ++ x.sent[j]) := by
      simp [walk, equals, getEndSegmentIterator, increment, hraw, hnext]
    rw [hgo]
    by_cases hlast : (readHeader m (g.slot j)).isEndSegment = true
    · obtain ⟨fuel, rfl⟩ : ∃ f, fuel = f + 1 := Nat.exists_eq_succ_of_ne_zero (by omega)
      rw [hdrop, List.drop_eq_nil_of_le (hend.mp hlast).2.ge]
      simp [walk, equals, getEndSegmentIterator, hlast]
    · have hmore : j + 1 < x.sent.length := by
        by_contra hnot
        exact hlast (hend.mpr ⟨hfin, by omega⟩)
      rw [Bool.eq_false_iff.mpr hlast, ih (j + 1) _ hmore (by omega), hdrop, List.append_assoc]

end SegmentIterator
end DpiLibrary
