import DpiLibrary.Dpi.SegmentHeader

/-!
# The bandwidth writer

`BufferWriterBW` as a machine. One step of the writer runs up to the next posted
operation or up to the next wait; the queue pair executes posted operations in
order, reading and writing the writer's local memory when it does so. A signaled
operation waits for the queue to drain. The queue pair also signals every
`RDMA_MAX_WR`-th operation on its own account, which waits as well: schedules that
drain the queue at that point are among those considered.
-/

namespace DpiLibrary

/-- Operations on the queue pair. Data is read from the internal buffer, headers are
read from and written to the writer's copy of the header. -/
inductive RemoteOp where
  | writeData (remote src len : ℕ)
  | writeHeader (remote : ℕ)
  | readHeader (remote : ℕ)
  deriving DecidableEq, Repr

inductive WriterCall where
  | append (data : List UInt8)
  | close
  deriving DecidableEq, Repr

/-- What follows a `writeToSegment` in `super_append`: the second part of a split, or the
return to `append`, which may have more to write. -/
inductive AfterWrite where
  | split (data : List UInt8) (rest : Option (List UInt8))
  | done (rest : Option (List UInt8))
  deriving DecidableEq, Repr

/-- Where the writer stands, with the data still to be written by the call. -/
inductive WriterPc where
  | constructing
  | constructed
  | idle
  | append (data : List UInt8)
  | superAppend (data : List UInt8) (rest : Option (List UInt8))
  | flush (data : List UInt8) (after : AfterWrite)
  | getNextSegment (data : List UInt8) (rest : Option (List UInt8))
  | handOver (next : ℕ) (data : List UInt8) (rest : Option (List UInt8))
  | poll (next : ℕ) (data : List UInt8) (rest : Option (List UInt8))
  | closing
  | closed
  deriving DecidableEq, Repr

/-- The control location after a write. -/
def AfterWrite.pc : AfterWrite → WriterPc
  | .split data rest => .getNextSegment data rest
  | .done none => .idle
  | .done (some data) => .append data

/-- The writer's members, its local memory and its queue pair; `appended` collects the
bytes passed to `append` so far. -/
structure BufferWriterBW where
  segmentSize : ℕ
  internalBufferSize : ℕ
  segmentOffset : ℕ
  sizeUsed : ℕ
  header : SegmentHeader
  internalBuffer : Mem
  internalOffset : ℕ
  queue : List RemoteOp
  pc : WriterPc
  calls : List WriterCall
  appended : List UInt8

namespace BufferWriterBW

def init (entry segmentSize internalBufferSize : ℕ) (calls : List WriterCall) : BufferWriterBW where
  segmentSize
  internalBufferSize
  segmentOffset := entry
  sizeUsed := 0
  header := ⟨0, 0, 0⟩
  internalBuffer := fun _ => 0
  internalOffset := 0
  queue := []
  pc := .constructing
  calls
  appended := []

def post (w : BufferWriterBW) (op : RemoteOp) (pc : WriterPc) : BufferWriterBW :=
  { w with queue := w.queue ++ [op], pc }

/-- Copy the data to the internal buffer at `offset` and post its write. -/
def postData (w : BufferWriterBW) (offset : ℕ) (data : List UInt8) (after : AfterWrite) :
    BufferWriterBW :=
  { w with
    internalBuffer := writeBytes w.internalBuffer offset data
    internalOffset := offset + data.length
    queue := w.queue ++
      [.writeData (w.segmentOffset + w.sizeUsed + segmentHeaderSize) offset data.length]
    sizeUsed := w.sizeUsed + data.length
    pc := after.pc }

/-- Without room in the internal buffer the header is written first: the write is signaled,
so the internal buffer is free when it returns. -/
def writeToSegment (w : BufferWriterBW) (data : List UInt8) (after : AfterWrite) :
    BufferWriterBW :=
  if data.length + w.internalOffset ≤ w.internalBufferSize then
    w.postData w.internalOffset data after
  else w.post (.writeHeader w.segmentOffset) (.flush data after)

def superAppend (w : BufferWriterBW) (data : List UInt8) (rest : Option (List UInt8)) :
    BufferWriterBW :=
  if w.segmentSize < w.sizeUsed + data.length then
    let firstPartSize := w.segmentSize - w.sizeUsed
    if 0 < firstPartSize then
      w.writeToSegment (data.take firstPartSize) (.split (data.drop firstPartSize) rest)
    else { w with pc := .getNextSegment data rest }
  else w.writeToSegment data (.done rest)

/-- The header update of `getNextSegment` and of `close`. -/
def consumableHeader (w : BufferWriterBW) : SegmentHeader :=
  { (w.header.setConsumable true).setWriteable false with counter := w.sizeUsed }

def closedHeader (w : BufferWriterBW) : SegmentHeader :=
  (({ w.header with counter := w.sizeUsed }.setWriteable false).setConsumable true).markEndSegment

/-- The next call of the client. -/
def nextCall (w : BufferWriterBW) : Option BufferWriterBW :=
  match w.calls with
  | [] => none
  | .append data :: calls =>
    some { w with calls, appended := w.appended ++ data, pc := .append data }
  | .close :: calls =>
    some ({ w with calls, header := w.closedHeader }.post (.writeHeader w.segmentOffset) .closing)

def step (w : BufferWriterBW) : Option BufferWriterBW :=
  match w.pc with
  | .constructing => some (w.post (.readHeader w.segmentOffset) .constructed)
  | .constructed => if w.queue = [] then some { w with pc := .idle } else none
  | .idle => w.nextCall
  | .append data =>
    if w.internalBufferSize < data.length then
      some { w with
        pc := .superAppend (data.take w.internalBufferSize)
          (some (data.drop w.internalBufferSize)) }
    else some { w with pc := .superAppend data none }
  | .superAppend data rest => some (w.superAppend data rest)
  | .flush data after => if w.queue = [] then some (w.postData 0 data after) else none
  | .getNextSegment data rest =>
    some ({ w with header := w.consumableHeader }.post (.writeHeader w.segmentOffset)
      (.handOver w.header.nextSegmentOffset data rest))
  | .handOver next data rest =>
    if w.queue = [] then some (w.post (.readHeader next) (.poll next data rest)) else none
  | .poll next data rest =>
    if w.queue = [] then
      if w.header.isWriteable then
        some { w with segmentOffset := next, sizeUsed := 0, pc := .superAppend data rest }
      else some (w.post (.readHeader next) (.poll next data rest))
    else none
  | .closing => if w.queue = [] then some { w with pc := .closed } else none
  | .closed => w.nextCall

/-- The queue pair executes the operation at the head of the queue. The offset is that of
a header with the consumable flag, if one was written. Transfers are shorter than `2 ^ 32`
bytes: a work request holds its length in 32 bits. -/
def nic (m : Mem) (w : BufferWriterBW) : Option (Mem × BufferWriterBW × Option ℕ) :=
  match w.queue with
  | [] => none
  | .writeData remote src len :: queue =>
    some (writeBytes m remote (readBytes w.internalBuffer src len), { w with queue }, none)
  | .writeHeader remote :: queue =>
    some (writeHeader m remote w.header, { w with queue },
      if w.header.isConsumable then some remote else none)
  | .readHeader remote :: queue =>
    some (m, { w with queue, header := readHeader m remote }, none)

/-- The queue pair changes the queue and at most the writer's copy of the header. -/
theorem nic_eq {m m' : Mem} {w w' : BufferWriterBW} {made : Option ℕ}
    (hstep : w.nic m = some (m', w', made)) :
    ∃ op queue header, w.queue = op :: queue ∧ w' = { w with queue, header } := by
  unfold nic at hstep
  split at hstep
  · cases hstep
  · next op remote src len queue hqueue =>
    cases hstep
    exact ⟨_, queue, w.header, hqueue, rfl⟩
  · next op remote queue hqueue =>
    cases hstep
    exact ⟨_, queue, w.header, hqueue, rfl⟩
  · next op remote queue hqueue =>
    cases hstep
    exact ⟨_, queue, _, hqueue, rfl⟩

end BufferWriterBW
end DpiLibrary
