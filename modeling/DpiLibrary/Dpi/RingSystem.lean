import Mathlib.Data.Fintype.Basic
import DpiLibrary.Foundation.Schedule
import DpiLibrary.Dpi.Ring
import DpiLibrary.Dpi.BufferIterator

/-!
# Writers and one iterator on a buffer

The system is a memory, one writer and queue pair for each ring, and the iterator
of the consumer. A schedule names, step by step, who moves: a writer, its queue
pair or the iterator. The kind of writer is a parameter.
-/

namespace DpiLibrary

/-- A kind of writer: its own steps and the steps of its queue pair. -/
structure WriterMachine (ω : Type) where
  step : ω → Option ω
  nic : Mem → ω → Option (Mem × ω × Option ℕ)

/-- The rings of a buffer on one node, with their blocks apart. -/
structure BufferRings (k : ℕ) where
  type : Buffertype
  ring : Fin k → RingGeometry
  counter_fits : ∀ r, NodeServer.counterSize type ≤ (ring r).entry
  apart : ∀ r r', r ≠ r' → ((ring r).block type).Apart ((ring r').block type)

structure RingSystem (ω : Type) (k : ℕ) where
  mem : Mem
  writers : Fin k → ω
  iterator : BufferIterator k
  log : List (RingEvent k)

/-- A buffer with one ring has a first one. -/
instance oneRing : NeZero 1 := ⟨Nat.one_ne_zero⟩

inductive RingLabel (k : ℕ) where
  | writer (ring : Fin k)
  | nic (ring : Fin k)
  | iterator (action : IteratorAction)
  deriving DecidableEq, Repr

/-- A call of the iterator, followed by `statements` of its steps. -/
def RingLabel.call {k : ℕ} (action : IteratorAction) (statements : ℕ) : List (RingLabel k) :=
  .iterator action :: List.replicate statements (.iterator .run)

namespace BufferRings

variable {k : ℕ} (b : BufferRings k)

/-- The node writes the rings of the buffer one after the other. -/
def initMem (m : Mem) : Mem :=
  (List.finRange k).foldl
    (fun m r => (NodeServer.initRing m b.type ((b.ring r).block b.type).start (b.ring r).segments
      (b.ring r).fullSize).1) m

/-- A buffer with one ring. -/
def single (type : Buffertype) (g : RingGeometry)
    (hcounter : NodeServer.counterSize type ≤ g.entry) :
    BufferRings 1 where
  type
  ring := fun _ => g
  counter_fits := fun _ => hcounter
  apart := fun r r' h => absurd (Subsingleton.elim r r') h

/-- The iterator's entry segments, in ring order. -/
def entries : List (ℕ × Fin k) := (List.finRange k).map fun r => ((b.ring r).entry, r)

end BufferRings

namespace RingSystem

variable {ω : Type} {k : ℕ}

def init (b : BufferRings k) (m : Mem) (writers : Fin k → ω) : RingSystem ω k where
  mem := b.initMem m
  writers
  iterator := .ofEntries b.entries
  log := []

def step (type : Buffertype) (machine : WriterMachine ω) (s : RingSystem ω k) :
    RingLabel k → Option (RingSystem ω k)
  | .writer r =>
    (machine.step (s.writers r)).map fun w =>
      { s with writers := Function.update s.writers r w }
  | .nic r =>
    (machine.nic s.mem (s.writers r)).map fun (mem, w, made) =>
      { s with
        mem
        writers := Function.update s.writers r w
        log := s.log ++ made.toList.map RingEvent.madeConsumable }
  | .iterator action =>
    (s.iterator.step type s.mem action).map fun (mem, iterator, events) =>
      { s with mem, iterator, log := s.log ++ events }

/-- The blocks `next` has returned for a ring, in order. -/
def returnedBlocks (log : List (RingEvent k)) (r : Fin k) : List (List UInt8) :=
  log.filterMap fun
    | .nextReturned ring _ data => if ring = r then some data else none
    | _ => none

end RingSystem
end DpiLibrary
