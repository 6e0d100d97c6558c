import Mathlib.Data.Finmap
import DpiLibrary.Foundation.Cursor
import DpiLibrary.Foundation.Packing

/-!
# Memory management of the RDMA manager

The free blocks are a linked list and the live blocks a map from offset to block
record. Offsets and sizes are `size_t` values; sums of an offset and a size stay
inside the registered memory, so they are plain naturals. The one sum that is not
bounded by the memory size is the running lower bound of `internalFree`, which is
computed modulo `2 ^ 64` as in the source.
-/

namespace DpiLibrary

/-- Number of values of `size_t`. -/
def sizeTBound : ℕ := 2 ^ 64

/-- Record of one block of registered memory (`rdma_mem_t`). -/
structure RdmaMem where
  size : ℕ
  free : Bool
  offset : ℕ
  isnull : Bool
  deriving DecidableEq, Repr

namespace RdmaMem

/-- The record of a block that exists. -/
def ofBlock (initSize : ℕ) (initFree : Bool) (initOffset : ℕ) : RdmaMem :=
  ⟨initSize, initFree, initOffset, false⟩

/-- The default record, returned when no memory is available. -/
def null : RdmaMem := ⟨0, false, 0, true⟩

instance : Inhabited RdmaMem := ⟨null⟩

/-- The addresses a record stands for. -/
def span (b : RdmaMem) : Span := ⟨b.offset, b.size⟩

@[simp] theorem span_start (b : RdmaMem) : b.span.start = b.offset := rfl

@[simp] theorem span_length (b : RdmaMem) : b.span.length = b.size := rfl

end RdmaMem

/-- Live blocks by offset (`unordered_map<size_t, rdma_mem_t>`). -/
abbrev UsedMem := AList fun _ : ℕ => RdmaMem

structure RDMAManager where
  memSize : ℕ
  rdmaMem : List RdmaMem
  usedRdmaMem : UsedMem
  deriving DecidableEq

namespace RDMAManager

/-- Subtraction of `size_t` values. -/
def sizeTSub (a b : ℕ) : ℕ := (a + sizeTBound - b % sizeTBound) % sizeTBound

theorem sizeTSub_of_le {a b : ℕ} (h : b ≤ a) (ha : a < sizeTBound) : sizeTSub a b = a - b := by
  have hmod : b % sizeTBound = b := Nat.mod_eq_of_lt (by omega)
  rw [sizeTSub, hmod, show a + sizeTBound - b = a - b + sizeTBound by omega,
    Nat.add_mod_right, Nat.mod_eq_of_lt (by omega)]

theorem sizeTSub_of_lt {a b : ℕ} (h : a < b) (hb : b < sizeTBound) :
    sizeTSub a b = a + sizeTBound - b := by
  rw [sizeTSub, Nat.mod_eq_of_lt hb, Nat.mod_eq_of_lt (by omega)]

/-- The constructor: one free block, as large as the memory. -/
def init (memSize : ℕ) : RDMAManager := ⟨memSize, [.ofBlock memSize true 0], ∅⟩

/-- First fit: the block found and the free list afterwards. The remainder of a
block that is larger than requested takes the block's place. -/
def firstFit (size : ℕ) : Cursor RdmaMem → List RdmaMem → Option (RdmaMem × List RdmaMem)
  | _, [] => none
  | listIter, memRes :: rest =>
    if memRes.free && size ≤ memRes.size then
      let listIter :=
        if size < memRes.size then
          listIter.insert (.ofBlock (memRes.size - size) true (memRes.offset + size))
        else listIter
      some (memRes, listIter.erase.toList)
    else firstFit size listIter.next rest

def internalAlloc (m : RDMAManager) (size : ℕ) : RDMAManager × RdmaMem :=
  match firstFit size (.start m.rdmaMem) m.rdmaMem with
  | some (memRes, rdmaMem) =>
    let memResUsed := RdmaMem.ofBlock size false memRes.offset
    ({ m with rdmaMem, usedRdmaMem := m.usedRdmaMem.insert memRes.offset memResUsed }, memResUsed)
  | none => (m, .null)

/-- First half of `mergeFreeMem`: join the block pointed at to a predecessor that
touches it. Returns the iterator, on the joined block, and the space joined so far. -/
def mergePrev (iter : Cursor RdmaMem) (offset freeSpace : ℕ) : Cursor RdmaMem × ℕ :=
  if iter.atBegin then (iter, freeSpace)
  else
    let iter := iter.prev
    let memPrev := iter.get?.getD .null
    if memPrev.offset + memPrev.size = offset then
      let freeSpace := freeSpace + memPrev.size
      let iter := iter.modify fun b => { b with size := freeSpace }
      (iter.next.erase.prev, freeSpace)
    else (iter.next, freeSpace)

/-- Second half of `mergeFreeMem`: join a successor that touches the block handed in. -/
def mergeNext (iter : Cursor RdmaMem) (offset size freeSpace : ℕ) : Cursor RdmaMem :=
  let iter := iter.next
  match iter.get? with
  | none => iter
  | some memNext =>
    if offset + size = memNext.offset then
      let freeSpace := freeSpace + memNext.size
      iter.erase.prev.modify fun b => { b with size := freeSpace }
    else iter

def mergeFreeMem (iter : Cursor RdmaMem) : Cursor RdmaMem :=
  let el := iter.get?.getD .null
  let (iter, freeSpace) := mergePrev iter el.offset el.size
  mergeNext iter el.offset el.size freeSpace

/-- The loop of `internalFree`: the first free block that starts after `offset`
while the running bound `lastOffset` does not exceed `offset`. The bound is the
sum of the offsets passed. -/
def findFreePos (offset : ℕ) : ℕ → Cursor RdmaMem → List RdmaMem → Option (Cursor RdmaMem)
  | _, _, [] => none
  | lastOffset, listIter, memRes :: rest =>
    if lastOffset ≤ offset ∧ offset < memRes.offset then some listIter
    else findFreePos offset ((lastOffset + memRes.offset) % sizeTBound) listIter.next rest

/-- The record is looked up with an inserting access and erased before the
insertion point is searched, so a search without result loses it. -/
def internalFree (m : RDMAManager) (offset : ℕ) : RDMAManager × Bool :=
  let memResFree := (m.usedRdmaMem.lookup offset).getD .null
  let usedRdmaMem := m.usedRdmaMem.erase offset
  let memResFree := { memResFree with free := true }
  if m.rdmaMem.isEmpty then ({ m with rdmaMem := [memResFree], usedRdmaMem }, true)
  else
    match findFreePos offset 0 (.start m.rdmaMem) m.rdmaMem with
    | some listIter =>
      let listIter := (listIter.insert memResFree).prev
      ({ m with rdmaMem := (mergeFreeMem listIter).toList, usedRdmaMem }, true)
    | none => ({ m with usedRdmaMem }, false)

/-- Requests to the allocator. -/
inductive MemRequest where
  | alloc (size : ℕ)
  | free (offset : ℕ)
  deriving DecidableEq, Repr

/-- One request of a well-behaved client: allocations have a positive size and
only live offsets are freed. -/
def step (m : RDMAManager) : MemRequest → Option RDMAManager
  | .alloc size => if 0 < size then some (m.internalAlloc size).1 else none
  | .free offset => if offset ∈ m.usedRdmaMem then some (m.internalFree offset).1 else none

/-- The live blocks, in any order. -/
def liveBlocks (m : RDMAManager) : List RdmaMem := m.usedRdmaMem.entries.map Sigma.snd

/-- Everything the manager knows about, free or live. -/
def spans (m : RDMAManager) : List Span :=
  (m.rdmaMem ++ m.liveBlocks).map RdmaMem.span

end RDMAManager
end DpiLibrary
