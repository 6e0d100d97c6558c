import Mathlib.Data.Finmap
import DpiLibrary.Dpi.RegistryClient

/-!
# The memory API

The five calls on a context. What the registry answers during a call, and what the
remote operations below the API come to, is given with the call: the registry may
refuse every request, and a connection or an operation may fail, throw or never end.
A call need not return either, so its result is an outcome.
-/

namespace DpiLibrary

/-- How a piece of code ends. -/
inductive Outcome (α : Type) where
  | returned (a : α)
  /-- A null pointer is followed, or one that has never been set. -/
  | invalidPointer
  | exception
  | endless
  deriving DecidableEq, Repr

namespace Outcome

variable {α β : Type}

def bind : Outcome α → (α → Outcome β) → Outcome β
  | .returned a, f => f a
  | .invalidPointer, _ => .invalidPointer
  | .exception, _ => .exception
  | .endless, _ => .endless

instance : Monad Outcome where
  pure := .returned
  bind := bind

@[simp] theorem pure_eq (a : α) : (pure a : Outcome α) = .returned a := rfl

@[simp] theorem returned_bind (a : α) (f : α → Outcome β) : (.returned a >>= f) = f a := rfl

/-- What follows returns only if what comes first does. -/
@[simp] theorem bind_eq_returned_iff {x : Outcome α} {f : α → Outcome β} {b : β} :
    (x >>= f) = .returned b ↔ ∃ a, x = .returned a ∧ f a = .returned b := by
  cases x with
  | returned a => simp
  | _ => exact iff_of_false (by rintro ⟨⟩) (by simp)

/-- Follow a pointer that may be null. -/
def deref : Option α → Outcome α
  | some a => .returned a
  | none => .invalidPointer

@[simp] theorem deref_eq_returned_iff {p : Option α} {a : α} :
    deref p = .returned a ↔ p = some a := by
  cases p <;> simp [deref]

end Outcome

/-- `DPI_SUCCESS`, `DPI_FAILURE` and `DPI_NOT_INITIALIZED`. -/
inductive ErrCode where
  | success
  | failure
  | notInitialized
  deriving DecidableEq, Repr

/-- Answers during one call: of the registry to each request, and of what the constructors
and the methods of writers and readers do on the network. -/
structure Answers where
  registry : RegistryRequest → RegistryResponse
  connectWriter : (connection : String) → Outcome Bool
  connectReader : (connection : String) → Outcome Bool
  readHeader : (offset : ℕ) → Outcome Bool
  append : (data : List UInt8) → Outcome Bool
  close : (name : String) → Outcome Bool
  /-- The loop over the segments of a handle; the memory allocated for the data may be null. -/
  readSegments : BufferHandle → Outcome (Option (List UInt8))

namespace Answers

variable (answers : Answers)

/-- `RegistryClient::registerBuffer`, with the message it sends. -/
def registerBuffer (handle : BufferHandle) : Bool :=
  answers.registry (.appendBuffer
    { name := handle.name
      nodeId := handle.nodeId
      segmentsPerWriter := handle.segmentsPerWriter
      numberAppenders := handle.numberOfWriters
      segmentSizes := handle.segmentSizes
      register := true
      buffertype := handle.buffertype }) = .appendBuffer .noError

def retrieveBuffer (name : String) : Option BufferHandle :=
  (RegistryClient.retrieveBuffer name).result
    (answers.registry (RegistryClient.retrieveBuffer name).request)

def joinBuffer (name : String) : Option BufferHandle :=
  (RegistryClient.joinBuffer name).result
    (answers.registry (RegistryClient.joinBuffer name).request)

end Answers

/-- `Config::getIPFromNodeId`: the access to the list of nodes is checked. -/
def getIPFromNodeId (dpiNodes : List String) (nodeId : ℕ) : Outcome String :=
  match dpiNodes[(nodeId + (sizeTBound - 1)) % sizeTBound]? with
  | some connection => .returned connection
  | none => .exception

/-- A `BufferWriterBW` as the API sees it. Its segment is null, and its header and internal
buffer are not there, when the constructor has given up. -/
structure ApiWriter where
  localBufferSegment : Option BufferSegment
  deriving DecidableEq, Repr

namespace ApiWriter

/-- The constructor. The results of connecting and of reading the header are not looked at,
but a node that is not connected is not in the list the read looks it up in. -/
def construct (dpiNodes : List String) (answers : Answers) (name : String) :
    Outcome ApiWriter := do
  let handle ← Outcome.deref (answers.joinBuffer name)
  match handle.entrySegments with
  | [segment] => do
    let connection ← getIPFromNodeId dpiNodes handle.nodeId
    let connected ← answers.connectWriter connection
    if connected then do
      let _headerRead ← answers.readHeader segment.offset
      return ⟨some segment⟩
    else .exception
  | _ => return ⟨none⟩

def append (writer : ApiWriter) (answers : Answers) (data : List UInt8) : Outcome Bool :=
  match writer.localBufferSegment with
  | some _ => answers.append data
  | none => .invalidPointer

def close (writer : ApiWriter) (answers : Answers) (name : String) : Outcome Bool :=
  match writer.localBufferSegment with
  | some _ => answers.close name
  | none => .invalidPointer

end ApiWriter

/-- A `BufferReader` as the API sees it: the name in its handle, and whether its client is
connected to the node. -/
structure ApiReader where
  name : String
  connected : Bool
  deriving DecidableEq, Repr

namespace ApiReader

/-- The constructor; the result of connecting is not looked at. -/
def construct (dpiNodes : List String) (answers : Answers) (handle : Option BufferHandle) :
    Outcome ApiReader := do
  let handle ← Outcome.deref handle
  let connection ← getIPFromNodeId dpiNodes handle.nodeId
  let connected ← answers.connectReader connection
  return ⟨handle.name, connected⟩

/-- `BufferReader::read`; `none` is the null pointer. -/
def read (reader : ApiReader) (answers : Answers) : Outcome (Option (List UInt8)) := do
  let handle ← Outcome.deref (answers.retrieveBuffer reader.name)
  if handle.entrySegments = [] then return none
  else if reader.connected then answers.readSegments handle
  else .exception

end ApiReader

/-- `DPI_Context`. The maps hold pointers, which may be null; the registry client is there
once the context has been initialised. -/
structure DpiContext where
  bufferWriters : AList fun _ : String => Option ApiWriter
  bufferReaders : AList fun _ : String => Option ApiReader
  initialised : Bool
  deriving DecidableEq

/-- `map[name]`: a name that is not there is inserted with a null pointer. -/
def subscript {α : Type} (map : AList fun _ : String => Option α) (name : String) :
    (AList fun _ : String => Option α) × Option α :=
  match map.lookup name with
  | some pointer => (map, pointer)
  | none => (map.insert name none, none)

/-- `Config::DPI_SEGMENT_SIZE`. -/
def dpiSegmentSize : ℕ := 1024 * 1024 * 512 + segmentHeaderSize

namespace DpiContext

/-- A context without buffers, after `DPI_Init` or before. -/
def empty (initialised : Bool) : DpiContext := ⟨∅, ∅, initialised⟩

variable (dpiNodes : List String) (answers : Answers) (ctx : DpiContext) (name : String)

/-- The handle that `DPI_Create_buffer` registers. -/
def createdHandle (nodeId segmentsPerAppender participatingAppenders : ℕ) : BufferHandle :=
  .create name nodeId segmentsPerAppender participatingAppenders
    (dpiSegmentSize - segmentHeaderSize)

/-- `DPI_Create_buffer`. Whether the buffer has been registered is not looked at. -/
def createBuffer (nodeId segmentsPerAppender participatingAppenders : ℕ) :
    Outcome (ErrCode × DpiContext) :=
  if ctx.initialised = false then return (.notInitialized, ctx)
  else do
    let _registered := answers.registerBuffer
      (createdHandle name nodeId segmentsPerAppender participatingAppenders)
    let buffHandle := answers.retrieveBuffer name
    let writer ← ApiWriter.construct dpiNodes answers name
    let reader ← ApiReader.construct dpiNodes answers buffHandle
    return (.success, { ctx with
      bufferWriters := ctx.bufferWriters.insert name (some writer)
      bufferReaders := ctx.bufferReaders.insert name (some reader) })

/-- `DPI_Append`. -/
def append (data : List UInt8) : Outcome (ErrCode × DpiContext) :=
  if ctx.initialised = false then return (.notInitialized, ctx)
  else do
    let (bufferWriters, pointer) := subscript ctx.bufferWriters name
    let writer ← Outcome.deref pointer
    let appended ← writer.append answers data
    return (if appended then .success else .failure, { ctx with bufferWriters })

/-- `DPI_Close_buffer`. The result of `close` is not looked at. -/
def closeBuffer : Outcome (ErrCode × DpiContext) :=
  if ctx.initialised = false then return (.notInitialized, ctx)
  else do
    let (bufferWriters, pointer) := subscript ctx.bufferWriters name
    let writer ← Outcome.deref pointer
    let _closed ← writer.close answers name
    return (.success, { ctx with bufferWriters })

/-- `DPI_Get_buffer` with the pointer to the data. That the name is not in the map is
reported on the console only. -/
def getBuffer (data : Option (List UInt8)) :
    Outcome (ErrCode × DpiContext × Option (List UInt8)) :=
  if ctx.initialised = false then return (.notInitialized, ctx, data)
  else do
    let (bufferReaders, pointer) := subscript ctx.bufferReaders name
    let reader ← Outcome.deref pointer
    let data ← reader.read answers
    return (if data.isSome then .success else .failure, { ctx with bufferReaders }, data)

/-- The loop of `DPI_Finalize`. -/
def closeAll : List ((_ : String) × Option ApiWriter) → Outcome Unit
  | [] => return ()
  | ⟨name, pointer⟩ :: entries => do
    let writer ← Outcome.deref pointer
    let _closed ← writer.close answers name
    closeAll entries

/-- `DPI_Finalize`. -/
def finalize : Outcome (ErrCode × DpiContext) :=
  if ctx.initialised = false then return (.notInitialized, ctx)
  else do
    closeAll answers ctx.bufferWriters.entries
    return (.success, ctx)

end DpiContext

/-- A call with its arguments. -/
inductive ApiCall where
  | createBuffer (name : String) (nodeId segmentsPerAppender participatingAppenders : ℕ)
  | append (name : String) (data : List UInt8)
  | closeBuffer (name : String)
  | getBuffer (name : String)
  | finalize
  deriving DecidableEq, Repr

namespace ApiCall

/-- The error code and the context after the call. -/
def run (dpiNodes : List String) (ctx : DpiContext) (answers : Answers) :
    ApiCall → Outcome (ErrCode × DpiContext)
  | .createBuffer name nodeId segmentsPerAppender participatingAppenders =>
    ctx.createBuffer dpiNodes answers name nodeId segmentsPerAppender participatingAppenders
  | .append name data => ctx.append answers name data
  | .closeBuffer name => ctx.closeBuffer answers name
  | .getBuffer name => do
    let (code, ctx, _) ← ctx.getBuffer answers name none
    return (code, ctx)
  | .finalize => ctx.finalize answers

/-- One call of a run; after a call that does not return there is no other. -/
def step (dpiNodes : List String) :
    Outcome DpiContext → ApiCall × Answers → Option (Outcome DpiContext)
  | .returned ctx, (call, answers) => some do
    let (_, ctx) ← call.run dpiNodes ctx answers
    return ctx
  | _, _ => none

end ApiCall
end DpiLibrary
