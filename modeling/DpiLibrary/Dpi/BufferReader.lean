import DpiLibrary.Dpi.BufferHandle
import DpiLibrary.Dpi.RingMemory

/-!
# The buffer reader

`BufferReader::read` copies the segments of all rings one after the other, each
ring from its entry segment along the next pointers up to the segment with the end
flag. The number of segments read of one ring is bounded by a fuel.
-/

namespace DpiLibrary
namespace BufferReader

/-- Bytes of a segment that are copied, with one read. A read is shorter than `2 ^ 32` bytes: a
work request holds its length in 32 bits. -/
def segmentBytes (m : Mem) (withHeader : Bool) (currentSegmentOffset : ℕ) : List UInt8 :=
  let header := readHeader m currentSegmentOffset
  if withHeader then readBytes m currentSegmentOffset (header.counter + segmentHeaderSize)
  else readBytes m (currentSegmentOffset + segmentHeaderSize) header.counter

/-- The loop over the segments of a ring. `data` is what has been copied so far, so that
its length is `writeoffset`. -/
def readRing (m : Mem) (withHeader : Bool) : ℕ → ℕ → List UInt8 → Option (List UInt8)
  | 0, _, _ => none
  | fuel + 1, currentSegmentOffset, data =>
    let data := data ++ segmentBytes m withHeader currentSegmentOffset
    let header := readHeader m currentSegmentOffset
    if header.isEndSegment then some data
    else readRing m withHeader fuel header.nextSegmentOffset data

/-- Size of the local buffer allocated for the data. -/
def dataSize (handle : BufferHandle) (withHeader : Bool) : ℕ :=
  (handle.entrySegments.map fun segment =>
    (segment.size + if withHeader then segmentHeaderSize else 0) * handle.segmentsPerWriter).sum

/-- The data and `sizeRead` after the call; a handle without segments gives a null pointer. -/
def read (fuel : ℕ) (m : Mem) (handle : BufferHandle) (sizeRead : ℕ) (withHeader : Bool) :
    Option (Option (List UInt8) × ℕ) :=
  if handle.entrySegments = [] then some (none, sizeRead)
  else
    (handle.entrySegments.foldlM
      (fun data segment => readRing m withHeader fuel segment.offset data) []).map
        fun data => (some data, data.length)

variable {g : RingGeometry} {x : RingState g} {stage : MarkStep} {m : Mem}

/-- Nothing of the ring has been released, so every block sent is still there: the loop
copies them from block `j` on. -/
theorem readRing_shows (h : g.Shows .bw x .checkEnd m) (hreleased : x.released = 0)
    (hfin : x.fin = true) :
    ∀ (fuel j : ℕ) (data : List UInt8), j < x.sent.length → x.sent.length ≤ j + fuel →
      readRing m false fuel (g.slot j) data = some (data ++ (x.sent.drop j).flatten) := by
  intro fuel
  induction fuel with
  | zero => intro j data hj hfuel; omega
  | succ fuel ih =>
    intro j data hj hfuel
    obtain ⟨hnext, hend, hcounter, hdata⟩ := h.readSegment hreleased hj
    have hbytes : segmentBytes m false (g.slot j) = x.sent[j] := by
      simp only [segmentBytes, Bool.false_eq_true, if_false, hcounter]
      exact hdata
    have hdrop := RingGeometry.flatten_drop hj
    simp only [readRing, hbytes]
    split_ifs with hlast
    · have hlast := (hend.mp hlast).2
      rw [hdrop, List.drop_eq_nil_of_le hlast.ge]
      simp
    · have hmore : j + 1 < x.sent.length := by
        by_contra hnot
        exact hlast (hend.mpr ⟨hfin, by omega⟩)
      rw [hnext, ih (j + 1) _ hmore (by omega), hdrop, List.append_assoc]

end BufferReader
end DpiLibrary
