import DpiLibrary.Foundation.Cursor
import DpiLibrary.Dpi.SegmentHeader

/-!
# The buffer iterator

`BufferIterator` and `BufferIteratorLat` as one machine that takes one step for
each access to memory shared with the writers. The two differ in
`mark_prev_segment` only. The client calls `next` after `has_next` has returned
true. Events record what the calls are and return.
-/

namespace DpiLibrary

variable {k : ℕ}

/-- What can be observed of a run: calls and returns of the iterator by ring, and headers
with the consumable flag that arrive in memory. -/
inductive RingEvent (k : ℕ) where
  | hasNextReturned (result : Bool)
  | nextCalled (ring : Fin k)
  | nextReturned (ring : Fin k) (offset : ℕ) (data : List UInt8)
  | madeConsumable (offset : ℕ)
  deriving DecidableEq, Repr

/-- `IterHelper`. `prev` is nothing while it is the end iterator, whose header is on the
heap and kept in `sentinel`. The ring is recorded for the events only. -/
structure IterHelper (k : ℕ) where
  iter : ℕ
  prev : Option ℕ
  sentinel : SegmentHeader
  counterOffset : ℕ
  ring : Fin k
  deriving DecidableEq, Repr

namespace IterHelper

/-- The constructor: the end iterator's header is marked as end and unmarked again. -/
def ofEntry (entry : ℕ) (ring : Fin k) : IterHelper k where
  iter := entry
  prev := none
  sentinel := ((SegmentHeader.mk 0 0 0).markEndSegment).markEndSegment false
  counterOffset := (entry + (sizeTBound - 8)) % sizeTBound
  ring

/-- `*prev`. -/
def prevHeader (m : Mem) (h : IterHelper k) : SegmentHeader :=
  match h.prev with
  | none => h.sentinel
  | some off => readHeader m off

/-- `prev->counter = counter`. -/
def setPrevCounter (m : Mem) (h : IterHelper k) (counter : ℕ) : Mem × IterHelper k :=
  match h.prev with
  | none => (m, { h with sentinel := { h.sentinel with counter } })
  | some off => (setCounterAt m off counter, h)

/-- A change of the flags of `*prev`. -/
def modifyPrevFlags (m : Mem) (h : IterHelper k) (f : SegmentHeader → SegmentHeader) :
    Mem × IterHelper k :=
  match h.prev with
  | none => (m, { h with sentinel := f h.sentinel })
  | some off => (modifyFlagsAt m off f, h)

end IterHelper

/-- The statements of `mark_prev_segment`, in order. `checkWriteable` and `credit` belong
to the latency iterator. -/
inductive MarkStep where
  | checkEnd
  | checkWriteable
  | counter
  | consumable
  | writeable
  | credit
  deriving DecidableEq, Repr

/-- Where the iterator stands. A mark ends in `getRawData` inside `next` and in `erase`
inside `has_next`. -/
inductive IteratorPc where
  | idle
  | ready
  | loop
  | testConsumable
  | mark (step : MarkStep) (inNext : Bool)
  | erase
  | getRawData
  | advance (retSize : ℕ)
  deriving DecidableEq, Repr

inductive IteratorAction where
  | hasNext
  | next
  | run
  deriving DecidableEq, Repr

structure BufferIterator (k : ℕ) where
  segmentIterators : Cursor (IterHelper k)
  pc : IteratorPc
  deriving DecidableEq, Repr

namespace BufferIterator

/-- An iterator over the entry segments of a buffer. -/
def ofEntries (entries : List (ℕ × Fin k)) : BufferIterator k :=
  ⟨.start (entries.map fun (entry, ring) => .ofEntry entry ring), .idle⟩

def afterMark (inNext : Bool) : IteratorPc := if inNext then .getRawData else .erase

/-- The current helper after a statement that may have changed its sentinel. -/
def put (it : BufferIterator k) (h : IterHelper k) (pc : IteratorPc) : BufferIterator k :=
  ⟨it.segmentIterators.modify fun _ => h, pc⟩

/-- One statement of `mark_prev_segment` on the current ring. -/
def markStep (type : Buffertype) (m : Mem) (it : BufferIterator k) (h : IterHelper k)
    (inNext : Bool) : MarkStep → Mem × BufferIterator k
  | .checkEnd =>
    if (h.prevHeader m).isEndSegment then (m, { it with pc := afterMark inNext })
    else
      match type with
      | .bw => (m, { it with pc := .mark .counter inNext })
      | .lat => (m, { it with pc := .mark .checkWriteable inNext })
  | .checkWriteable =>
    if (h.prevHeader m).isWriteable then (m, { it with pc := .mark .counter inNext })
    else (m, { it with pc := afterMark inNext })
  | .counter =>
    let (m, h) := h.setPrevCounter m 0
    (m, it.put h (.mark .consumable inNext))
  | .consumable =>
    let (m, h) := h.modifyPrevFlags m (SegmentHeader.setConsumable · false)
    (m, it.put h (.mark .writeable inNext))
  | .writeable =>
    let (m, h) := h.modifyPrevFlags m (SegmentHeader.setWriteable · true)
    match type with
    | .bw => (m, it.put h (afterMark inNext))
    | .lat => (m, it.put h (.mark .credit inNext))
  | .credit =>
    (writeWord m h.counterOffset ((readWord m h.counterOffset + 1) % sizeTBound),
      { it with pc := afterMark inNext })

/-- Head of the loop of `has_next`: wrap around at the end of the list and test `prev`. -/
def loopStep (m : Mem) (it : BufferIterator k) : BufferIterator k × List (RingEvent k) :=
  let c := if it.segmentIterators.atEnd then .start it.segmentIterators.toList
    else it.segmentIterators
  match c.get? with
  | none => (⟨c, .idle⟩, [.hasNextReturned false])
  | some h =>
    if (h.prevHeader m).isEndSegment then (⟨c, .mark .checkEnd false⟩, [])
    else (⟨c, .testConsumable⟩, [])

def step (type : Buffertype) (m : Mem) (it : BufferIterator k) :
    IteratorAction → Option (Mem × BufferIterator k × List (RingEvent k))
  | .hasNext =>
    if it.pc = .idle ∨ it.pc = .ready then some (m, { it with pc := .loop }, []) else none
  | .next =>
    match it.pc, it.segmentIterators.get? with
    | .ready, some h => some (m, { it with pc := .mark .checkEnd true }, [.nextCalled h.ring])
    | _, _ => none
  | .run =>
    match it.pc, it.segmentIterators.get? with
    | .loop, _ =>
      let (it, events) := it.loopStep m
      some (m, it, events)
    | .testConsumable, some h =>
      if (readHeader m h.iter).isConsumable then
        some (m, { it with pc := .ready }, [.hasNextReturned true])
      else some (m, ⟨it.segmentIterators.next, .loop⟩, [])
    | .mark step inNext, some h =>
      let (m, it) := it.markStep type m h inNext step
      some (m, it, [])
    | .erase, some _ => some (m, ⟨it.segmentIterators.erase, .loop⟩, [])
    | .getRawData, some h =>
      some (m, { it with pc := .advance (readHeader m h.iter).counter }, [])
    | .advance retSize, some h =>
      -- `prev = iter`, `iter++` and the step to the next ring
      let h' := { h with prev := some h.iter, iter := (readHeader m h.iter).nextSegmentOffset }
      some (m, ⟨(it.segmentIterators.modify fun _ => h').next, .idle⟩,
        [.nextReturned h.ring h.iter (readBytes m (h.iter + segmentHeaderSize) retSize)])
    | _, _ => none

end BufferIterator
end DpiLibrary
