import DpiLibrary.Dpi.RingMemory
import DpiLibrary.Dpi.RingSystem

/-!
# The protocol of a buffer

The abstract system: for each ring the blocks sent and how far the consumer is, and
the ring whose next segment the consumer has asked for. Its moves carry the events
the concrete system logs, so that what a log can look like is settled here, without
memory, headers or program counters.
-/

namespace DpiLibrary

variable {k : ℕ}

structure BufferState (b : BufferRings k) where
  ring : ∀ r, RingState (b.ring r)
  asked : Option (Fin k)

namespace BufferState

variable {b : BufferRings k}

def start (b : BufferRings k) : BufferState b := ⟨fun _ => .empty _ _, none⟩

def set (a : BufferState b) (r : Fin k) (x : RingState (b.ring r)) : BufferState b :=
  { a with ring := Function.update a.ring r x }

@[simp] theorem set_ring_self (a : BufferState b) (r : Fin k) (x : RingState (b.ring r)) :
    (a.set r x).ring r = x := by simp [set]

@[simp] theorem set_ring_of_ne (a : BufferState b) {r r' : Fin k} (h : r' ≠ r)
    (x : RingState (b.ring r)) : (a.set r x).ring r' = a.ring r' := by simp [set, h]

@[simp] theorem set_self (a : BufferState b) (r : Fin k) : a.set r (a.ring r) = a := by
  simp [set]

/-- Every block of the ring fills its segment, or the ring is one for bandwidth: then the
counter of the final segment is the length of its block too. -/
def Exact (a : BufferState b) (r : Fin k) : Prop :=
  b.type = .bw ∨ ∀ x ∈ (a.ring r).sent, x.length = (b.ring r).segmentSize

/-- All that was sent on the ring has been taken, and nothing will follow. -/
def Drained (a : BufferState b) (r : Fin k) : Prop :=
  (a.ring r).fin = true ∧ (a.ring r).returned = (a.ring r).sent.length

end BufferState

/-- The moves of the protocol with their events. -/
inductive RingMove {b : BufferRings k} :
    BufferState b → List (RingEvent k) → BufferState b → Prop
  | stutter (a : BufferState b) : RingMove a [] a
  | ready (a : BufferState b) : RingMove a [.hasNextReturned true] a
  | exhausted (a : BufferState b) (hall : ∀ r, a.Drained r) :
    RingMove a [.hasNextReturned false] a
  | ask (a : BufferState b) (r : Fin k) (hsent : (a.ring r).returned < (a.ring r).sent.length) :
    RingMove a [.nextCalled r] { a with asked := some r }
  | land (a : BufferState b) (r : Fin k) (block : List UInt8) (last : Bool)
    (hroom : (a.ring r).sent.length < (a.ring r).released + (b.ring r).segments)
    (hfin : (a.ring r).fin = false) :
    RingMove a [.madeConsumable ((b.ring r).slot (a.ring r).sent.length)]
      (a.set r ((a.ring r).land block last hroom))
  | finish (a : BufferState b) (r : Fin k) (hfin : (a.ring r).fin = false)
    (hsent : (a.ring r).sent ≠ []) :
    RingMove a [.madeConsumable ((b.ring r).slot ((a.ring r).sent.length - 1))]
      (a.set r (a.ring r).finish)
  | release (a : BufferState b) (r : Fin k) (hasked : a.asked = some r)
    (hsent : (a.ring r).returned < (a.ring r).sent.length) :
    RingMove a [] (a.set r ((a.ring r).release hsent))
  | take (a : BufferState b) (r : Fin k) (hasked : a.asked = some r)
    (hrel : (a.ring r).released = (a.ring r).returned)
    (hsent : (a.ring r).returned < (a.ring r).sent.length) (data : List UInt8)
    (hdata : a.Exact r → data = (a.ring r).sent[(a.ring r).returned]) :
    RingMove a [.nextReturned r ((b.ring r).slot (a.ring r).returned) data]
      { a.set r ((a.ring r).take hrel hsent) with asked := none }

namespace RingSystem

/-- The segment of the ring that is lent to the client: returned by `next`, and `next` not
called again on the ring. -/
def lentSegment (log : List (RingEvent k)) (r : Fin k) : Option ℕ :=
  log.foldl (fun lent e =>
    match e with
    | .nextReturned ring offset _ => if ring = r then some offset else lent
    | .nextCalled ring => if ring = r then none else lent
    | _ => lent) none

/-- The segment at `offset` has been made consumable after `next` returned it last. -/
def freshlyConsumable (log : List (RingEvent k)) (offset : ℕ) : Bool :=
  log.foldl (fun fresh e =>
    match e with
    | .madeConsumable off => if off = offset then true else fresh
    | .nextReturned _ off _ => if off = offset then false else fresh
    | _ => fresh) false

/-- Whenever `next` returns a segment, it has been made consumable since the last time. -/
def NeverTwice (log : List (RingEvent k)) : Prop :=
  ∀ pre r offset data, pre ++ [.nextReturned r offset data] <+: log →
    freshlyConsumable pre offset = true

@[simp] theorem lentSegment_concat (log : List (RingEvent k)) (e : RingEvent k) (r : Fin k) :
    lentSegment (log ++ [e]) r =
      match e with
      | .nextReturned ring offset _ => if ring = r then some offset else lentSegment log r
      | .nextCalled ring => if ring = r then none else lentSegment log r
      | _ => lentSegment log r := by
  rw [lentSegment, List.foldl_append]
  cases e <;> rfl

@[simp] theorem freshlyConsumable_concat (log : List (RingEvent k)) (e : RingEvent k) (offset : ℕ) :
    freshlyConsumable (log ++ [e]) offset =
      match e with
      | .madeConsumable off => if off = offset then true else freshlyConsumable log offset
      | .nextReturned _ off _ => if off = offset then false else freshlyConsumable log offset
      | _ => freshlyConsumable log offset := by
  rw [freshlyConsumable, List.foldl_append]
  cases e <;> rfl

theorem returnedBlocks_append (log events : List (RingEvent k)) (r : Fin k) :
    returnedBlocks (log ++ events) r = returnedBlocks log r ++ returnedBlocks events r :=
  List.filterMap_append

@[simp] theorem returnedBlocks_concat (log : List (RingEvent k)) (e : RingEvent k) (r : Fin k) :
    returnedBlocks (log ++ [e]) r =
      match e with
      | .nextReturned ring _ data =>
        if ring = r then returnedBlocks log r ++ [data] else returnedBlocks log r
      | _ => returnedBlocks log r := by
  rw [returnedBlocks, List.filterMap_append]
  cases e with
  | nextReturned ring offset data => by_cases h : ring = r <;> simp [returnedBlocks, h]
  | _ => simp [returnedBlocks]

theorem neverTwice_concat {log : List (RingEvent k)} {e : RingEvent k} :
    NeverTwice (log ++ [e]) ↔ NeverTwice log ∧
      match e with
      | .nextReturned _ offset _ => freshlyConsumable log offset = true
      | _ => True := by
  constructor
  · intro h
    refine ⟨fun pre r offset data hpre => h pre r offset data
      (hpre.trans (List.prefix_append _ _)), ?_⟩
    cases e with
    | nextReturned r offset data => exact h log r offset data (List.prefix_refl _)
    | _ => trivial
  · rintro ⟨hlog, he⟩ pre r offset data hpre
    rcases List.prefix_concat_iff.mp hpre with heq | hpre
    · obtain ⟨rfl, hlast⟩ := List.append_inj' heq rfl
      cases hlast
      exact he
    · exact hlog pre r offset data hpre

end RingSystem

/-- Segments of different rings lie at different offsets. -/
theorem BufferRings.slots_apart (b : BufferRings k) {r r' : Fin k} (h : r ≠ r') (j j' : ℕ) :
    (b.ring r).slot j + (b.ring r).fullSize ≤ (b.ring r').slot j' ∨
      (b.ring r').slot j' + (b.ring r').fullSize ≤ (b.ring r).slot j := by
  have hap := b.apart r r' h
  have hc := b.counter_fits r
  have hc' := b.counter_fits r'
  have hlo := (b.ring r).le_slot j
  have hlo' := (b.ring r').le_slot j'
  have hhi := (b.ring r).slot_add_fullSize_le j
  have hhi' := (b.ring r').slot_add_fullSize_le j'
  simp only [Span.Apart, RingGeometry.block] at hap
  omega

theorem BufferRings.slot_ne (b : BufferRings k) {r r' : Fin k} (h : r ≠ r') (j j' : ℕ) :
    (b.ring r).slot j ≠ (b.ring r').slot j' := by
  have hap := b.slots_apart h j j'
  unfold RingGeometry.fullSize segmentHeaderSize at hap
  omega

open RingSystem

/-- What the log of a run says about the abstract state. -/
structure LogInv {b : BufferRings k} (a : BufferState b) (log : List (RingEvent k)) : Prop where
  blocks : ∀ r, a.Exact r → returnedBlocks log r = (a.ring r).delivered
  count : ∀ r, (returnedBlocks log r).length = (a.ring r).returned
  lent : ∀ r offset, lentSegment log r = some offset → a.asked ≠ some r ∧
    (a.ring r).returned = (a.ring r).released + 1 ∧
    offset = (b.ring r).slot (a.ring r).released
  fresh : ∀ r j, (a.ring r).returned ≤ j → j < (a.ring r).sent.length →
    freshlyConsumable log ((b.ring r).slot j) = true
  neverTwice : NeverTwice log
  exhausted : .hasNextReturned false ∈ log → ∀ r, a.Drained r

theorem logInv_start (b : BufferRings k) : LogInv (BufferState.start b) [] where
  blocks r _ := rfl
  count r := rfl
  lent r offset h := by simp [lentSegment] at h
  fresh r j _ h := absurd h (Nat.not_lt_zero j)
  neverTwice pre r offset data h := by simp at h
  exhausted h := absurd h List.not_mem_nil

section

variable {b : BufferRings k} {a : BufferState b} {log : List (RingEvent k)}

/-- A move changes one ring, and its events say nothing of the others. -/
theorem LogInv.change (h : LogInv a log) (r : Fin k) (x : RingState (b.ring r))
    (asked : Option (Fin k)) (events : List (RingEvent k))
    (hasked : ∀ r', r' ≠ r → a.asked ≠ some r' → asked ≠ some r')
    (hothers : ∀ r', r' ≠ r → returnedBlocks (log ++ events) r' = returnedBlocks log r' ∧
      lentSegment (log ++ events) r' = lentSegment log r' ∧
      ∀ j, freshlyConsumable log ((b.ring r').slot j) = true →
        freshlyConsumable (log ++ events) ((b.ring r').slot j) = true)
    (hblocks : (b.type = .bw ∨ ∀ block ∈ x.sent, block.length = (b.ring r).segmentSize) →
      returnedBlocks (log ++ events) r = x.delivered)
    (hcount : (returnedBlocks (log ++ events) r).length = x.returned)
    (hlent : ∀ offset, lentSegment (log ++ events) r = some offset → asked ≠ some r ∧
      x.returned = x.released + 1 ∧ offset = (b.ring r).slot x.released)
    (hfresh : ∀ j, x.returned ≤ j → j < x.sent.length →
      freshlyConsumable (log ++ events) ((b.ring r).slot j) = true)
    (hnever : NeverTwice (log ++ events))
    (hexhausted : .hasNextReturned false ∈ log ++ events →
      ∀ r', ({ a.set r x with asked } : BufferState b).Drained r') :
    LogInv { a.set r x with asked } (log ++ events) := by
  constructor
  · intro r' hexact
    by_cases hr : r' = r
    · subst hr
      simp only [BufferState.Exact, BufferState.set_ring_self] at hexact ⊢
      exact hblocks hexact
    · simp only [BufferState.Exact, BufferState.set_ring_of_ne _ hr] at hexact ⊢
      rw [(hothers r' hr).1]
      exact h.blocks r' hexact
  · intro r'
    by_cases hr : r' = r
    · subst hr
      simp only [BufferState.set_ring_self]
      exact hcount
    · simp only [BufferState.set_ring_of_ne _ hr]
      rw [(hothers r' hr).1]
      exact h.count r'
  · intro r' offset hlast
    by_cases hr : r' = r
    · subst hr
      simp only [BufferState.set_ring_self]
      exact hlent offset hlast
    · simp only [BufferState.set_ring_of_ne _ hr]
      rw [(hothers r' hr).2.1] at hlast
      obtain ⟨hold, hheld⟩ := h.lent r' offset hlast
      exact ⟨hasked r' hr hold, hheld⟩
  · intro r' j hj hj'
    by_cases hr : r' = r
    · subst hr
      simp only [BufferState.set_ring_self] at hj hj'
      exact hfresh j hj hj'
    · simp only [BufferState.set_ring_of_ne _ hr] at hj hj'
      exact (hothers r' hr).2.2 j (h.fresh r' j hj hj')
  · exact hnever
  · exact hexhausted

/-- The writer's moves log a consumable segment and touch nothing the consumer has done. -/
theorem LogInv.madeConsumable (h : LogInv a log) (r : Fin k) (x : RingState (b.ring r))
    (offset : ℕ) (hfin : (a.ring r).fin = false) (hsent : (a.ring r).sent <+: x.sent)
    (hreturned : x.returned = (a.ring r).returned) (hreleased : x.released = (a.ring r).released)
    (hfresh : ∀ j, j < x.sent.length → j < (a.ring r).sent.length ∨ offset = (b.ring r).slot j) :
    LogInv (a.set r x) (log ++ [.madeConsumable offset]) := by
  have hkept : ∀ off, freshlyConsumable log off = true →
      freshlyConsumable (log ++ [.madeConsumable offset]) off = true := by
    intro off hold
    rw [freshlyConsumable_concat]
    simp [hold]
  have hdelivered : x.delivered = (a.ring r).delivered := by
    obtain ⟨rest, hrest⟩ := hsent
    rw [LaggedRing.delivered, LaggedRing.delivered, hreturned, ← hrest]
    exact List.take_append_of_le_length (a.ring r).returned_le_sent
  have hinv := h.change r x a.asked [.madeConsumable offset] (fun _ _ hold => hold)
    (fun r' _ => ⟨by simp, by simp, fun j => hkept _⟩) ?_ ?_ ?_ ?_
    (neverTwice_concat.mpr ⟨h.neverTwice, trivial⟩) ?_
  · exact hinv
  · intro hexact
    rw [returnedBlocks_concat, hdelivered]
    exact h.blocks r (hexact.imp id fun hall block hblock => hall block (hsent.subset hblock))
  · rw [returnedBlocks_concat, hreturned]
    exact h.count r
  · intro off hlent
    rw [lentSegment_concat] at hlent
    rw [hreturned, hreleased]
    exact h.lent r off hlent
  · intro j hj hj'
    rw [hreturned] at hj
    rcases hfresh j hj' with hlt | rfl
    · exact hkept _ (h.fresh r j hj hlt)
    · rw [freshlyConsumable_concat]
      simp
  · intro hmem
    have hold : .hasNextReturned false ∈ log := by simpa using hmem
    have hdrained := (h.exhausted hold r).1
    rw [hfin] at hdrained
    cases hdrained

theorem LogInv.land (h : LogInv a log) (r : Fin k) (block : List UInt8) (last : Bool)
    (hroom : (a.ring r).sent.length < (a.ring r).released + (b.ring r).segments)
    (hfin : (a.ring r).fin = false) :
    LogInv (a.set r ((a.ring r).land block last hroom))
      (log ++ [.madeConsumable ((b.ring r).slot (a.ring r).sent.length)]) := by
  refine h.madeConsumable r _ _ hfin (List.prefix_append _ _) rfl rfl fun j hj => ?_
  rw [LaggedRing.land_sent, List.length_append, List.length_singleton] at hj
  rcases Nat.lt_succ_iff_lt_or_eq.mp hj with hlt | rfl
  · exact Or.inl hlt
  · exact Or.inr rfl

theorem LogInv.finish (h : LogInv a log) (r : Fin k) (hfin : (a.ring r).fin = false) :
    LogInv (a.set r (a.ring r).finish)
      (log ++ [.madeConsumable ((b.ring r).slot ((a.ring r).sent.length - 1))]) :=
  h.madeConsumable r _ _ hfin (List.prefix_refl _) rfl rfl fun _ hj => Or.inl hj

theorem LogInv.release (h : LogInv a log) (r : Fin k) (hasked : a.asked = some r)
    (hsent : (a.ring r).returned < (a.ring r).sent.length) :
    LogInv (a.set r ((a.ring r).release hsent)) log := by
  have hinv := h.change r ((a.ring r).release hsent) a.asked [] (fun _ _ hold => hold)
  rw [List.append_nil] at hinv
  apply hinv
  · exact fun r' _ => ⟨rfl, rfl, fun _ => id⟩
  · exact h.blocks r
  · exact h.count r
  · intro offset hlent
    exact absurd hasked (h.lent r offset hlent).1
  · exact h.fresh r
  · exact h.neverTwice
  · intro hmem
    have hdrained := (h.exhausted hmem r).2
    omega

theorem LogInv.take (h : LogInv a log) (r : Fin k)
    (hrel : (a.ring r).released = (a.ring r).returned)
    (hsent : (a.ring r).returned < (a.ring r).sent.length) {data : List UInt8}
    (hdata : a.Exact r → data = (a.ring r).sent[(a.ring r).returned]) :
    LogInv { a.set r ((a.ring r).take hrel hsent) with asked := none }
      (log ++ [.nextReturned r ((b.ring r).slot (a.ring r).returned) data]) := by
  apply h.change r ((a.ring r).take hrel hsent) none
  · exact fun _ _ _ => by simp
  · intro r' hr
    refine ⟨?_, ?_, fun j hold => ?_⟩
    · simp [Ne.symm hr]
    · simp [Ne.symm hr]
    · rw [freshlyConsumable_concat]
      simp only [if_neg (b.slot_ne (Ne.symm hr) _ _)]
      exact hold
  · intro hexact
    rw [returnedBlocks_concat, LaggedRing.delivered_take, h.blocks r hexact, hdata hexact]
    simp
  · rw [returnedBlocks_concat]
    simp [h.count]
  · intro offset hlent
    rw [lentSegment_concat] at hlent
    simp only [if_true, Option.some.injEq] at hlent
    simp [hrel, hlent]
  · intro j hj hj'
    simp only [LaggedRing.take_sent, LaggedRing.take_returned] at hj hj'
    have hle := (a.ring r).sent_le
    have hne : (b.ring r).slot (a.ring r).returned ≠ (b.ring r).slot j :=
      (b.ring r).slot_ne (a.ring r).released ⟨by omega, by omega⟩ ⟨by omega, by omega⟩ (by omega)
    rw [freshlyConsumable_concat]
    simp only [if_neg hne]
    exact h.fresh r j (by omega) hj'
  · exact neverTwice_concat.mpr ⟨h.neverTwice, h.fresh r _ le_rfl hsent⟩
  · intro hmem
    have hold : .hasNextReturned false ∈ log := by simpa using hmem
    have hdrained := (h.exhausted hold r).2
    omega

end

/-- The log invariant is kept by every move of the protocol. -/
theorem LogInv.move {b : BufferRings k} {a a' : BufferState b} {log events : List (RingEvent k)}
    (h : LogInv a log) (hmove : RingMove a events a') : LogInv a' (log ++ events) := by
  cases hmove with
  | stutter => simpa using h
  | ready =>
    refine ⟨fun r hr => ?_, fun r => ?_, fun r offset hl => h.lent r offset ?_,
      fun r j hj hj' => ?_, neverTwice_concat.mpr ⟨h.neverTwice, trivial⟩,
      fun hmem => h.exhausted ?_⟩
    · simpa using h.blocks r hr
    · simpa using h.count r
    · simpa using hl
    · simpa using h.fresh r j hj hj'
    · simpa using hmem
  | exhausted hall =>
    refine ⟨fun r hr => ?_, fun r => ?_, fun r offset hl => h.lent r offset ?_,
      fun r j hj hj' => ?_, neverTwice_concat.mpr ⟨h.neverTwice, trivial⟩, fun _ => hall⟩
    · simpa using h.blocks r hr
    · simpa using h.count r
    · simpa using hl
    · simpa using h.fresh r j hj hj'
  | ask r hsent =>
    refine ⟨fun r' hr => ?_, fun r' => ?_, fun r' offset hl => ?_, fun r' j hj hj' => ?_,
      neverTwice_concat.mpr ⟨h.neverTwice, trivial⟩, fun hmem => h.exhausted ?_⟩
    · simpa using h.blocks r' hr
    · simpa using h.count r'
    · rw [lentSegment_concat] at hl
      by_cases hr : r = r'
      · simp [hr] at hl
      · simp only [if_neg hr] at hl
        exact ⟨by simpa using hr, (h.lent r' offset hl).2⟩
    · simpa using h.fresh r' j hj hj'
    · simpa using hmem
  | land r block last hroom hfin => exact h.land r block last hroom hfin
  | finish r hfin hsent => exact h.finish r hfin
  | release r hasked hsent => simpa using h.release r hasked hsent
  | take r hasked hrel hsent data hdata => exact h.take r hrel hsent hdata

end DpiLibrary
