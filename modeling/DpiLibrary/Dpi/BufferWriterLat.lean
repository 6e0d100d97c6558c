import DpiLibrary.Dpi.RingSystem

/-!
# The latency writer

`BufferWriterLat` as a machine. A message is staged in the internal buffer together
with its header and written in one operation, which reads the internal buffer when
the queue pair executes it. The writer counts the segments it may still write; when
there are none it reads the ring's counter until it changes. Slot addresses are
computed by the writer.
-/

namespace DpiLibrary

/-- Operations on the queue pair. `posted` are the bytes of a write at the time it is
posted. -/
inductive LatOp where
  | write (remote src : ℕ) (posted : List UInt8)
  | writeHeader (remote : ℕ)
  | readHeader (remote : ℕ)
  | readCounter (remote : ℕ)
  deriving DecidableEq, Repr

/-- Arguments of `append`. `beyond` are the bytes behind the data in the client's memory, of
which those not given count as zero. -/
structure Message where
  data : List UInt8
  beyond : List UInt8 := []
  signaled : Bool := false
  deriving DecidableEq, Repr

/-- What the second copy of `writeToSegment` reads from the data on: as many bytes as the data
has with a header. -/
def Message.copied (message : Message) : List UInt8 :=
  (message.data ++ message.beyond ++ List.replicate segmentHeaderSize 0).take
    (message.data.length + segmentHeaderSize)

inductive LatCall where
  | append (message : Message)
  | close
  deriving DecidableEq, Repr

inductive LatPc where
  | constructing
  | readingHeader
  | readingCounter
  | idle
  | append (message : Message)
  | refresh (consumedCntOld : ℕ) (message : Message)
  | write (message : Message)
  | written (signaled : Bool)
  | closing
  | closed
  deriving DecidableEq, Repr

/-- The writer's members and its queue pair. `written` counts the appends completed and
`appended` collects the messages passed so far. -/
structure BufferWriterLat where
  segmentSizes : ℕ
  segmentsPerWriter : ℕ
  entrySegmentOffset : ℕ
  internalBufferSize : ℕ
  header : SegmentHeader
  internalBuffer : Mem
  internalOffset : ℕ
  lastSegmentOffset : ℕ
  currentSegmentOffset : ℕ
  nextSegmentOffset : ℕ
  segmentIndex : ℕ
  consumedCnt : ℕ
  writeableFreeSegments : ℕ
  queue : List LatOp
  pc : LatPc
  calls : List LatCall
  written : ℕ
  appended : List (List UInt8)

namespace BufferWriterLat

def init (entry segments segmentSizes internalBufferSize : ℕ) (calls : List LatCall) :
    BufferWriterLat where
  segmentSizes
  segmentsPerWriter := segments
  entrySegmentOffset := entry
  internalBufferSize
  header := ⟨0, 0, 0⟩
  internalBuffer := fun _ => 0
  internalOffset := 0
  lastSegmentOffset := 0
  currentSegmentOffset := entry
  nextSegmentOffset := entry + segmentSizes + segmentHeaderSize
  segmentIndex := 0
  consumedCnt := 0
  writeableFreeSegments := 0
  queue := []
  pc := .constructing
  calls
  written := 0
  appended := []

def post (w : BufferWriterLat) (op : LatOp) (pc : LatPc) : BufferWriterLat :=
  { w with queue := w.queue ++ [op], pc }

/-- The counter lies in front of the entry segment. -/
def counterOffset (w : BufferWriterLat) : ℕ := w.entrySegmentOffset - 8

/-- New credits after the counter has changed. The first branch is the roll-over. -/
def refreshed (w : BufferWriterLat) (consumedCntOld : ℕ) : ℕ :=
  if w.consumedCnt < consumedCntOld then
    (w.writeableFreeSegments + (w.consumedCnt + (sizeTBound - 1 - consumedCntOld))) % sizeTBound
  else (w.writeableFreeSegments + (w.consumedCnt - consumedCntOld)) % sizeTBound

/-- Index and offset of the segment after the current one. -/
def nextSegment (w : BufferWriterLat) : ℕ × ℕ :=
  if w.segmentIndex = w.segmentsPerWriter - 1 then (0, w.entrySegmentOffset)
  else (w.segmentIndex + 1, w.currentSegmentOffset + w.segmentSizes + segmentHeaderSize)

/-- Header written along with a message of `size` bytes. -/
def messageHeader (w : BufferWriterLat) (size : ℕ) : SegmentHeader :=
  { ({ w.header with counter := size }.setConsumable true) with
    nextSegmentOffset := w.nextSegment.2 }

/-- The copies of `writeToSegment` to the offset `offset` of the internal buffer: where each
writes, and what. -/
def memcpys (w : BufferWriterLat) (message : Message) (offset : ℕ) : List (ℕ × List UInt8) :=
  [(offset, (w.messageHeader message.data.length).encode),
    (offset + segmentHeaderSize, message.copied)]

/-- `writeToSegment` stages the message behind the one staged last, or at the beginning if
it does not fit there. -/
def writeMessage (w : BufferWriterLat) (message : Message) : BufferWriterLat :=
  let header := w.messageHeader message.data.length
  let size := message.data.length + segmentHeaderSize
  let offset := if w.internalBufferSize < size + w.internalOffset then 0 else w.internalOffset
  { w with
    header
    internalBuffer := writeAll w.internalBuffer (w.memcpys message offset)
    internalOffset := offset + size
    nextSegmentOffset := w.nextSegment.2
    segmentIndex := w.nextSegment.1
    queue := w.queue ++ [.write w.currentSegmentOffset offset (header.encode ++ message.data)]
    pc := .written (w.writeableFreeSegments == 1 || message.signaled) }

/-- The header written by `close`. -/
def closedHeader (w : BufferWriterLat) : SegmentHeader :=
  (({ w.header with counter := w.segmentSizes }.setWriteable false).setConsumable
    true).markEndSegment

def nextCall (w : BufferWriterLat) : Option BufferWriterLat :=
  match w.calls with
  | [] => none
  | .append message :: calls =>
    some { w with calls, appended := w.appended ++ [message.data], pc := .append message }
  | .close :: calls =>
    some ({ w with calls, header := w.closedHeader }.post (.writeHeader w.lastSegmentOffset)
      .closing)

def step (w : BufferWriterLat) : Option BufferWriterLat :=
  match w.pc with
  | .constructing => some (w.post (.readHeader w.currentSegmentOffset) .readingHeader)
  | .readingHeader =>
    if w.queue = [] then some (w.post (.readCounter w.counterOffset) .readingCounter) else none
  | .readingCounter =>
    if w.queue = [] then some { w with writeableFreeSegments := w.consumedCnt, pc := .idle }
    else none
  | .idle => w.nextCall
  | .append message =>
    if w.writeableFreeSegments = 0 then
      some (w.post (.readCounter w.counterOffset) (.refresh w.consumedCnt message))
    else some { w with pc := .write message }
  | .refresh consumedCntOld message =>
    if w.queue = [] then
      if consumedCntOld = w.consumedCnt then
        some (w.post (.readCounter w.counterOffset) (.refresh consumedCntOld message))
      else
        some { w with writeableFreeSegments := w.refreshed consumedCntOld, pc := .write message }
    else none
  | .write message => some (w.writeMessage message)
  | .written signaled =>
    if signaled = true ∧ w.queue ≠ [] then none
    else
      some { w with
        writeableFreeSegments := (w.writeableFreeSegments + (sizeTBound - 1)) % sizeTBound
        lastSegmentOffset := w.currentSegmentOffset
        currentSegmentOffset := w.nextSegmentOffset
        written := w.written + 1
        pc := .idle }
  | .closing => if w.queue = [] then some { w with pc := .closed } else none
  | .closed => w.nextCall

/-- The queue pair executes the operation at the head of the queue. The offset is that of
a segment that is consumable after the write. Transfers are shorter than `2 ^ 32` bytes: a work
request holds its length in 32 bits. -/
def nic (m : Mem) (w : BufferWriterLat) : Option (Mem × BufferWriterLat × Option ℕ) :=
  match w.queue with
  | [] => none
  | .write remote src posted :: queue =>
    let m := writeBytes m remote (readBytes w.internalBuffer src posted.length)
    some (m, { w with queue }, if (readHeader m remote).isConsumable then some remote else none)
  | .writeHeader remote :: queue =>
    some (writeHeader m remote w.header, { w with queue },
      if w.header.isConsumable then some remote else none)
  | .readHeader remote :: queue => some (m, { w with queue, header := readHeader m remote }, none)
  | .readCounter remote :: queue =>
    some (m, { w with queue, consumedCnt := readWord m remote }, none)

def machine : WriterMachine BufferWriterLat := ⟨step, nic⟩

/-- The write executed next carries the bytes it was posted with: they have not been
overwritten in the internal buffer. -/
def CarriesPosted (w : BufferWriterLat) : Prop :=
  ∀ remote src posted queue, w.queue = .write remote src posted :: queue →
    readBytes w.internalBuffer src posted.length = posted

theorem carriesPosted_of_queue {w : BufferWriterLat} {remote src : ℕ} {posted : List UInt8}
    {queue : List LatOp} (hqueue : w.queue = .write remote src posted :: queue) :
    w.CarriesPosted ↔ readBytes w.internalBuffer src posted.length = posted := by
  constructor
  · intro h
    exact h remote src posted queue hqueue
  · intro h remote' src' posted' queue' hq
    cases hqueue.symm.trans hq
    exact h

instance (w : BufferWriterLat) : Decidable w.CarriesPosted :=
  match hqueue : w.queue with
  | .write _ _ _ :: _ => decidable_of_iff _ (carriesPosted_of_queue hqueue).symm
  | [] => .isTrue fun _ _ _ _ hq => by simp [hqueue] at hq
  | .writeHeader _ :: _ => .isTrue fun _ _ _ _ hq => by simp [hqueue] at hq
  | .readHeader _ :: _ => .isTrue fun _ _ _ _ hq => by simp [hqueue] at hq
  | .readCounter _ :: _ => .isTrue fun _ _ _ _ hq => by simp [hqueue] at hq

end BufferWriterLat
end DpiLibrary
