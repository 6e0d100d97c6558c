import Mathlib.Data.Prod.Lex
import DpiLibrary.Foundation.FairRuns
import DpiLibrary.Dpi.DrainedBuffer

/-!
# Delivery under fair scheduling

The writers of a buffer, their queue pairs and the client of its iterator have their
turns in any fair order. A writer that polls and an iterator that goes around the rings
can move forever without getting anywhere, so that the steps themselves do not bound a
run. What is bounded is the work that is left, and in each state some party lowers it,
or brings the iterator nearer to a ring on which there is something to do.
-/

namespace DpiLibrary

variable {k : ℕ} {ω : Type}

/-- Who has its turn. The client of the iterator reads to the end. -/
inductive Party (k : ℕ) where
  | writer (ring : Fin k)
  | nic (ring : Fin k)
  | consumer
  deriving DecidableEq, Repr

namespace Party

def all (k : ℕ) : List (Party k) :=
  (List.finRange k).map writer ++ (List.finRange k).map nic ++ [consumer]

theorem mem_all (p : Party k) : p ∈ all k := by
  cases p <;> simp [all]

theorem length_all_pos (k : ℕ) : 0 < (all k).length := by simp [all]

/-- One turn after the other. -/
def inTurn (k n : ℕ) : Party k := (all k).get ⟨n % (all k).length, Nat.mod_lt n (length_all_pos k)⟩

theorem fair_inTurn (k : ℕ) : FairRuns.Fair (inTurn k) :=
  FairRuns.fair_of_mod (length_all_pos k) mem_all

end Party

namespace RingSystem

/-- The step a party takes. -/
def label (s : RingSystem ω k) : Party k → RingLabel k
  | .writer r => .writer r
  | .nic r => .nic r
  | .consumer => .iterator s.iterator.clientAction

def turn (type : Buffertype) (machine : WriterMachine ω) (s : RingSystem ω k) (p : Party k) :
    Option (RingSystem ω k) :=
  s.step type machine (s.label p)

theorem label_eq_nic {s : RingSystem ω k} {p : Party k} {r : Fin k} (h : s.label p = .nic r) :
    p = .nic r := by
  cases p with
  | nic r' =>
    cases h
    rfl
  | writer r' => cases h
  | consumer => cases h

/-- What has been logged stays logged. -/
theorem mem_log_of_turn {type : Buffertype} {machine : WriterMachine ω} {s t : RingSystem ω k}
    {p : Party k} {e : RingEvent k} (h : e ∈ s.log) (hstep : s.turn type machine p = some t) :
    e ∈ t.log := by
  cases p with
  | writer r =>
    obtain ⟨w, -, rfl⟩ := Option.map_eq_some_iff.mp hstep
    exact h
  | nic r =>
    obtain ⟨⟨m', w, made⟩, -, rfl⟩ := Option.map_eq_some_iff.mp hstep
    exact List.mem_append_left _ h
  | consumer =>
    obtain ⟨⟨m', it, events⟩, -, rfl⟩ := Option.map_eq_some_iff.mp hstep
    exact List.mem_append_left _ h

end RingSystem

def MarkStep.left : MarkStep → ℕ
  | .checkEnd => 10
  | .checkWriteable => 9
  | .counter => 8
  | .consumable => 7
  | .writeable => 6
  | .credit => 5

/-- Bound on the steps to the end of a call, those of the search not counted. -/
def IteratorPc.left : IteratorPc → ℕ
  | .idle => 14
  | .loop => 12
  | .testConsumable => 12
  | .ready => 11
  | .mark step _ => step.left
  | .getRawData => 4
  | .erase => 4
  | .advance _ => 3

namespace BufferState

variable {b : BufferRings k}

/-- `has_next` does not pass over the ring: there is a segment to return, or the ring is read
up and can be erased. -/
def Due (a : BufferState b) (r : Fin k) : Prop :=
  (a.ring r).returned < (a.ring r).sent.length ∨
    0 < (a.ring r).returned ∧ (a.ring r).fin = true ∧ (a.ring r).returned = (a.ring r).sent.length

instance (a : BufferState b) (r : Fin k) : Decidable (a.Due r) := by
  unfold Due
  infer_instance

/-- Everything sent on the ring is returned, and more will follow. -/
def Awaited (a : BufferState b) (r : Fin k) : Prop :=
  (a.ring r).fin = false ∧ (a.ring r).returned = (a.ring r).sent.length

/-- A ring that is read up has room. -/
theorem Awaited.room {a : BufferState b} {r : Fin k} (h : a.Awaited r)
    (hsegments : 2 ≤ (b.ring r).segments) :
    (a.ring r).sent.length < (a.ring r).released + (b.ring r).segments := by
  rw [← h.2]
  exact (a.ring r).returned_lt_window hsegments

end BufferState

namespace BufferIterator

variable {b : BufferRings k}

/-- The steps of a call and of leaving the rings in the list. -/
def left (it : BufferIterator k) : ℕ := 10 * it.segmentIterators.toList.length + it.pc.left

/-- `has_next` goes around the rings. -/
def Searches (it : BufferIterator k) : Prop := it.pc = .loop ∨ it.pc = .testConsumable

/-- There is a ring that ends the search. -/
def HasDue (it : BufferIterator k) (a : BufferState b) : Prop :=
  ∃ h ∈ it.segmentIterators.toList, a.Due h.ring

instance (it : BufferIterator k) (a : BufferState b) : Decidable (it.HasDue a) := by
  unfold HasDue
  infer_instance

/-- The helpers in the order in which the search comes to them. -/
def visits (c : Cursor (IterHelper k)) : List (IterHelper k) := c.after ++ c.before.reverse

/-- Steps of the search up to the first ring that is due. -/
def toDue (it : BufferIterator k) (a : BufferState b) : ℕ :=
  match it.pc, it.segmentIterators with
  | .loop, c => 2 * (visits c).findIdx (fun h => a.Due h.ring) + 1
  | .testConsumable, ⟨bs, h :: as⟩ =>
    if (a.ring h.ring).returned < (a.ring h.ring).sent.length then 0
    else 2 * (visits ⟨h :: bs, as⟩).findIdx (fun h => a.Due h.ring) + 2
  | _, _ => 0

theorem mem_visits {c : Cursor (IterHelper k)} {h : IterHelper k} :
    h ∈ visits c ↔ h ∈ c.toList := by
  simp [visits, Cursor.toList, or_comm]

/-- Wrapping around changes nothing of the order. -/
theorem visits_wrap (c : Cursor (IterHelper k)) :
    visits (if c.atEnd then .start c.toList else c) = visits c := by
  split_ifs with hend
  · have hnil : c.after = [] := by simpa [Cursor.atEnd] using hend
    simp [visits, Cursor.start, Cursor.toList, hnil]
  · rfl

/-- A ring that is not due is passed over. -/
theorem findIdx_visits_cons {bs as : List (IterHelper k)} {h : IterHelper k} (a : BufferState b)
    (hnot : ¬ a.Due h.ring) (hdue : ∃ y ∈ visits ⟨bs, h :: as⟩, a.Due y.ring) :
    (visits ⟨bs, h :: as⟩).findIdx (fun h => a.Due h.ring) =
      (visits ⟨h :: bs, as⟩).findIdx (fun h => a.Due h.ring) + 1 := by
  obtain ⟨y, hy, hydue⟩ := hdue
  have hmem : y ∈ as ++ bs.reverse := by
    simp only [visits, List.cons_append, List.mem_cons] at hy
    rcases hy with rfl | hy
    · exact absurd hydue hnot
    · exact hy
  have hlt : (as ++ bs.reverse).findIdx (fun h => decide (a.Due h.ring)) <
      (as ++ bs.reverse).length :=
    List.findIdx_lt_length_of_exists ⟨y, hmem, by simpa using hydue⟩
  have hcons : visits ⟨h :: bs, as⟩ = (as ++ bs.reverse) ++ [h] := by
    simp [visits]
  rw [hcons, List.findIdx_append, if_pos hlt]
  simp only [visits, List.cons_append, List.findIdx_cons, hnot, decide_false, cond_false]

/-- Every statement of a mark brings it nearer to its end. -/
theorem markStep_left (type : Buffertype) (m : Mem) (bs as : List (IterHelper k))
    (h : IterHelper k) (step : MarkStep) (inNext : Bool) :
    ∃ m' h' pc', markStep type m ⟨⟨bs, h :: as⟩, .mark step inNext⟩ h inNext step =
      (m', ⟨⟨bs, h' :: as⟩, pc'⟩) ∧ pc'.left < step.left := by
  have hafter : (afterMark inNext).left = 4 := by cases inNext <;> rfl
  cases step with
  | checkEnd =>
    simp only [markStep]
    split_ifs
    · exact ⟨m, h, _, rfl, by rw [hafter]; decide⟩
    · cases type <;> exact ⟨m, h, _, rfl, by simp [IteratorPc.left, MarkStep.left]⟩
  | checkWriteable =>
    simp only [markStep]
    split_ifs
    · exact ⟨m, h, _, rfl, by simp [IteratorPc.left, MarkStep.left]⟩
    · exact ⟨m, h, _, rfl, by rw [hafter]; decide⟩
  | counter => exact ⟨_, _, _, rfl, by simp [IteratorPc.left, MarkStep.left]⟩
  | consumable => exact ⟨_, _, _, rfl, by simp [IteratorPc.left, MarkStep.left]⟩
  | writeable =>
    cases type
    · exact ⟨_, _, _, rfl, by rw [hafter]; decide⟩
    · exact ⟨_, _, _, rfl, by simp [IteratorPc.left, MarkStep.left]⟩
  | credit => exact ⟨_, _, _, rfl, by rw [hafter]; decide⟩

end BufferIterator

/-- A return of `next` returns one segment. -/
theorem sum_returnedBlocks_nextReturned (r' : Fin k) (offset : ℕ) (data : List UInt8) :
    ∑ r, (RingSystem.returnedBlocks [RingEvent.nextReturned r' offset data] r).length = 1 := by
  have hterm : ∀ r, (RingSystem.returnedBlocks [RingEvent.nextReturned r' offset data] r).length =
      if r' = r then 1 else 0 := by
    intro r
    by_cases hr : r' = r <;> simp [RingSystem.returnedBlocks, hr]
  simp [hterm]

section

variable {b : BufferRings k} {W : ∀ r, RingState (b.ring r) → Mem → ω → Prop} {a : BufferState b}
  {m : Mem} {writers : Fin k → ω} {it : BufferIterator k}

/-- What a step of the client's loop does: it is the return of false, it takes work off, or
it goes on with the search. -/
inductive ConsumerStep (m : Mem) (it : BufferIterator k) (a : BufferState b) : Prop
  | last (it' : BufferIterator k)
    (hstep : it.step b.type m it.clientAction = some (m, it', [.hasNextReturned false]))
  | more (m' : Mem) (it' : BufferIterator k) (events : List (RingEvent k))
    (hstep : it.step b.type m it.clientAction = some (m', it', events))
    (hconsumer : ∀ offset, .madeConsumable offset ∉ events)
    (hlt : it'.left < it.left + 12 * ∑ r, (RingSystem.returnedBlocks events r).length)
  | search (it' : BufferIterator k)
    (hstep : it.step b.type m it.clientAction = some (m, it', []))
    (hsearches : it.Searches) (hne : it.segmentIterators.toList ≠ [])
    (hleft : it'.left = it.left)
    (hlist : it'.segmentIterators.toList = it.segmentIterators.toList)
    (hnearer : it.HasDue a → it'.toDue a < it.toDue a)

/-- Most steps stay in the list. -/
theorem ConsumerStep.within {m' : Mem} {c c' : Cursor (IterHelper k)} {pc pc' : IteratorPc}
    {events : List (RingEvent k)}
    (hstep : BufferIterator.step b.type m ⟨c, pc⟩ (BufferIterator.clientAction ⟨c, pc⟩) =
      some (m', ⟨c', pc'⟩, events))
    (hconsumer : ∀ offset, .madeConsumable offset ∉ events)
    (hlist : c'.toList.length = c.toList.length) (hlt : pc'.left < pc.left) :
    ConsumerStep m ⟨c, pc⟩ a := by
  apply ConsumerStep.more m' ⟨c', pc'⟩ events hstep hconsumer
  simp only [BufferIterator.left, hlist]
  omega

/-- Head of the loop of `has_next`. -/
theorem SysInv.consumer_loop {c : Cursor (IterHelper k)}
    (hinv : SysInv W a m writers ⟨c, .loop⟩) : ConsumerStep m ⟨c, .loop⟩ a := by
  obtain ⟨c', hc', hlist⟩ : ∃ c', c' = (if c.atEnd then .start c.toList else c) ∧
      c'.toList = c.toList := by
    refine ⟨_, rfl, ?_⟩
    split_ifs <;> simp
  have hvisits : BufferIterator.visits c' = BufferIterator.visits c := by
    rw [hc', BufferIterator.visits_wrap]
  have hinv' : SysInv W a m writers ⟨c', .loop⟩ :=
    hinv.rest hlist (Or.inr (Or.inl rfl)) (Or.inr rfl)
  have hstep : BufferIterator.step b.type m ⟨c, .loop⟩ .run =
      some (m, BufferIterator.loopStep m ⟨c, .loop⟩) := rfl
  simp only [BufferIterator.loopStep, ← hc'] at hstep
  obtain ⟨bs, as⟩ := c'
  cases as with
  | nil => exact .last _ hstep
  | cons h as =>
    obtain ⟨hhelper, hrel, hshows, -⟩ := hinv'.current
    have hiff := isEndSegment_prevHeader hhelper hshows hrel
    simp only [Cursor.get?_cons] at hstep
    by_cases hend : (h.prevHeader m).isEndSegment = true
    · rw [if_pos hend] at hstep
      exact .within hstep (fun _ => List.not_mem_nil) (congrArg List.length hlist) (by decide)
    · rw [if_neg hend] at hstep
      have hne : c.toList ≠ [] := by
        rw [← hlist]
        simp
      apply ConsumerStep.search _ hstep (Or.inl rfl) hne _ hlist
      · rintro ⟨y, hy, hydue⟩
        have hloop : BufferIterator.toDue ⟨c, .loop⟩ a =
            2 * (BufferIterator.visits ⟨bs, h :: as⟩).findIdx (fun h => a.Due h.ring) + 1 := by
          rw [hvisits]
          rfl
        rw [hloop]
        simp only [BufferIterator.toDue]
        split_ifs with hconsumable
        · omega
        · have hnot : ¬ a.Due h.ring := by
            rintro (hlt | hdrained)
            · exact hconsumable hlt
            · exact hend (hiff.mpr hdrained)
          rw [BufferIterator.findIdx_visits_cons a hnot
            ⟨y, by rw [BufferIterator.mem_visits, hlist]; exact hy, hydue⟩]
          omega
      · simp only [BufferIterator.left, hlist, IteratorPc.left]

/-- One step of the client's loop. -/
theorem SysInv.consumer_step (hinv : SysInv W a m writers it) : ConsumerStep m it a := by
  obtain ⟨⟨bs, as⟩, pc⟩ := it
  cases as with
  | nil =>
    rcases hinv.iterator.atEnd rfl with rfl | rfl
    · have hstep : BufferIterator.step b.type m ⟨⟨bs, []⟩, .idle⟩ .hasNext =
          some (m, ⟨⟨bs, []⟩, .loop⟩, []) := rfl
      exact .within hstep (fun _ => List.not_mem_nil) rfl (by decide)
    · exact hinv.consumer_loop
  | cons h as =>
    obtain ⟨hhelper, hphase, hshows, -⟩ := hinv.current
    cases pc with
    | idle => exact .within rfl (fun _ => List.not_mem_nil) rfl (by decide)
    | loop => exact hinv.consumer_loop
    | ready => exact .within rfl (by simp) rfl (by decide)
    | testConsumable =>
      have hiff := hshows.isConsumable_iff hphase.2
      rw [← hhelper.iter] at hiff
      by_cases hconsumable : (readHeader m h.iter).isConsumable = true
      · have hstep : BufferIterator.step b.type m ⟨⟨bs, h :: as⟩, .testConsumable⟩ .run =
            some (m, ⟨⟨bs, h :: as⟩, .ready⟩, [.hasNextReturned true]) := by
          simp [BufferIterator.step, hconsumable]
        exact .within hstep (by simp) rfl (by decide)
      · have hstep : BufferIterator.step b.type m ⟨⟨bs, h :: as⟩, .testConsumable⟩ .run =
            some (m, ⟨⟨h :: bs, as⟩, .loop⟩, []) := by
          simp [BufferIterator.step, hconsumable]
        apply ConsumerStep.search _ hstep (Or.inr rfl) (by simp)
        · simp [BufferIterator.left, IteratorPc.left]
        · simp
        · intro _
          simp only [BufferIterator.toDue, if_neg fun hlt => hconsumable (hiff.mpr hlt)]
          omega
    | mark step inNext =>
      obtain ⟨m', h', pc', hmark, hlt⟩ :=
        BufferIterator.markStep_left b.type m bs as h step inNext
      have hstep : BufferIterator.step b.type m ⟨⟨bs, h :: as⟩, .mark step inNext⟩ .run =
          some (m', ⟨⟨bs, h' :: as⟩, pc'⟩, []) := by
        simp only [BufferIterator.step, Cursor.get?_cons, hmark]
      exact .within hstep (fun _ => List.not_mem_nil) (by simp) hlt
    | erase =>
      apply ConsumerStep.more m ⟨⟨bs, as⟩, .loop⟩ [] rfl (fun _ => List.not_mem_nil)
      simp only [BufferIterator.left, Cursor.toList_mk, List.length_append, List.length_cons,
        IteratorPc.left]
      omega
    | getRawData =>
      have hlt : (IteratorPc.advance (readHeader m h.iter).counter).left <
          IteratorPc.getRawData.left := by
        show 3 < 4
        decide
      exact .within rfl (fun _ => List.not_mem_nil) rfl hlt
    | advance retSize =>
      apply ConsumerStep.more m _ _ rfl (by simp)
      rw [sum_returnedBlocks_nextReturned]
      simp only [BufferIterator.left, Cursor.toList_next, Cursor.modify_cons, Cursor.toList_mk,
        List.length_append, List.length_cons, IteratorPc.left]
      omega

end

/-- What the operations of a kind of writer keep can be added to its invariant. -/
theorem WriterSim.and {b : BufferRings k} {machine : WriterMachine ω} {guard : ω → Prop}
    {W : ∀ r, RingState (b.ring r) → Mem → ω → Prop} (sim : WriterSim b machine guard W)
    {P : Fin k → ω → Prop}
    (hstep : ∀ r x m w w', W r x m w → P r w → machine.step w = some w' → P r w')
    (hnic : ∀ r x m w m' w' made, W r x m w → P r w → machine.nic m w = some (m', w', made) →
      P r w') :
    WriterSim b machine guard fun r x m w => W r x m w ∧ P r w where
  window r x m w h := sim.window r x m w h.1
  frame r x m m' w h hagree := ⟨sim.frame r x m m' w h.1 hagree, h.2⟩
  mark r x m m' w h hheld hsent hagree := ⟨sim.mark r x m m' w h.1 hheld hsent hagree, h.2⟩
  release r x m m' w hsent h hheld hagree hcount :=
    ⟨sim.release r x m m' w hsent h.1 hheld hagree hcount, h.2⟩
  take r x m w hrel hsent h := ⟨sim.take r x m w hrel hsent h.1, h.2⟩
  step r x m w w' h hw := ⟨sim.step r x m w w' h.1 hw, hstep r x m w w' h.1 h.2 hw⟩
  nic r x stage m w m' w' made h hguard hshows hstage hcredit hw := by
    obtain ⟨x', hmove, hshows', hW, hagree⟩ :=
      sim.nic r x stage m w m' w' made h.1 hguard hshows hstage hcredit hw
    exact ⟨x', hmove, hshows', ⟨hW, hnic r x m w m' w' made h.1 h.2 hw⟩, hagree⟩

/-- What a kind of writer has to guarantee to come to its end: of the work it has left it pays
for the segments it sends, and a turn of the writer or of its queue pair takes some off where
the ring has room. -/
structure WriterLaws (b : BufferRings k) (machine : WriterMachine ω)
    (W : ∀ r, RingState (b.ring r) → Mem → ω → Prop) (left : ∀ r, RingState (b.ring r) → ω → ℕ)
    (Busy : ω → Prop) : Prop where
  nic_isSome : ∀ m w, (machine.nic m w).isSome ↔ Busy w
  stays_busy : ∀ w w', machine.step w = some w' → Busy w → Busy w'
  consume : ∀ r (x x' : RingState (b.ring r)) w, x'.sent = x.sent → x.released ≤ x'.released →
    left r x' w ≤ left r x w
  step_le : ∀ r x m w w', W r x m w → machine.step w = some w' → left r x w' ≤ left r x w
  step_lt : ∀ r x m w w', W r x m w → machine.step w = some w' → ¬ Busy w →
    x.sent.length < x.released + (b.ring r).segments → left r x w' < left r x w
  nic_le : ∀ r x stage m w m' w' made x', W r x m w → (b.ring r).Shows b.type x stage m →
    machine.nic m w = some (m', w', made) → NicMove x made x' →
    left r x' w' + 12 * x'.sent.length ≤ left r x w + 12 * x.sent.length
  nic_lt : ∀ r x stage m w m' w' made x', W r x m w → (b.ring r).Shows b.type x stage m →
    machine.nic m w = some (m', w', made) → NicMove x made x' →
    made ≠ none ∨ x.sent.length < x.released + (b.ring r).segments →
    left r x' w' + 12 * x'.sent.length < left r x w + 12 * x.sent.length
  step_isSome : ∀ r x m w, W r x m w → x.fin = false → ¬ Busy w → (machine.step w).isSome
  sent_ne_nil : ∀ r x m w, W r x m w → x.fin = true → x.sent ≠ []

/-- The work a kind of writer has left, and when its queue pair has something to do. -/
structure WriterProgress (b : BufferRings k) (machine : WriterMachine ω)
    (W : ∀ r, RingState (b.ring r) → Mem → ω → Prop) where
  left : ∀ r, RingState (b.ring r) → ω → ℕ
  Busy : ω → Prop
  laws : WriterLaws b machine W left Busy

section

variable {b : BufferRings k} {a a' : BufferState b}

theorem due_congr {r : Fin k} (h : (a'.ring r).sent = (a.ring r).sent ∧
    (a'.ring r).fin = (a.ring r).fin ∧ (a'.ring r).returned = (a.ring r).returned) :
    a'.Due r ↔ a.Due r := by
  simp only [BufferState.Due, h.1, h.2.1, h.2.2]

theorem awaited_congr {r : Fin k} (h : (a'.ring r).sent = (a.ring r).sent ∧
    (a'.ring r).fin = (a.ring r).fin ∧ (a'.ring r).returned = (a.ring r).returned) :
    a'.Awaited r ↔ a.Awaited r := by
  simp only [BufferState.Awaited, h.1, h.2.1, h.2.2]

theorem toDue_congr {it : BufferIterator k} (h : ∀ r, (a'.ring r).sent = (a.ring r).sent ∧
    (a'.ring r).fin = (a.ring r).fin ∧ (a'.ring r).returned = (a.ring r).returned) :
    it.toDue a' = it.toDue a := by
  unfold BufferIterator.toDue
  split
  · simp only [due_congr (h _)]
  · simp only [due_congr (h _), (h _).1, (h _).2.2]
  · rfl

end

namespace WriterProgress

variable {b : BufferRings k} {machine : WriterMachine ω} {guard : ω → Prop}
  {W : ∀ r, RingState (b.ring r) → Mem → ω → Prop} (progress : WriterProgress b machine W)
  {s s' : RingSystem ω k} {a a' : BufferState b}

/-- Work left of all parties, those of the search not counted. -/
def work (s : RingSystem ω k) (a : BufferState b) : ℕ :=
  ∑ r, progress.left r (a.ring r) (s.writers r) + 12 * a.toReturn + s.iterator.left

/-- The search comes second: what ends it can change only when work is taken off. -/
def rank (s : RingSystem ω k) (a : BufferState b) : ℕ ×ₗ ℕ :=
  toLex (progress.work s a, if s.iterator.HasDue a then s.iterator.toDue a else 0)

/-- A party that takes work off, or brings the search nearer to its end. -/
def Helps (s : RingSystem ω k) (a : BufferState b) : Party k → Prop
  | .writer r => ¬ progress.Busy (s.writers r) ∧ a.Awaited r
  | .nic r => progress.Busy (s.writers r) ∧ a.Awaited r
  | .consumer => s.iterator.Searches → s.iterator.segmentIterators.toList = [] ∨ s.iterator.HasDue a

theorem rank_lt (h : progress.work s' a' < progress.work s a) :
    progress.rank s' a' < progress.rank s a :=
  Prod.Lex.toLex_lt_toLex.mpr (Or.inl h)

/-- An iterator that has nothing to find leaves the turn to a writer. -/
theorem exists_helps (h : s.Refines W a) : ∃ p, progress.Helps s a p := by
  by_cases hconsumer : progress.Helps s a .consumer
  · exact ⟨_, hconsumer⟩
  · simp only [Helps, not_forall, not_or] at hconsumer
    obtain ⟨-, hne, hnone⟩ := hconsumer
    obtain ⟨y, hy⟩ := List.exists_mem_of_ne_nil _ hne
    have hnot : ¬ a.Due y.ring := fun hdue => hnone ⟨y, hy, hdue⟩
    have hreturned : (a.ring y.ring).returned = (a.ring y.ring).sent.length := by
      have hle := (a.ring y.ring).returned_le_sent
      by_contra hne
      exact hnot (Or.inl (by omega))
    have hawaited : a.Awaited y.ring := by
      refine ⟨?_, hreturned⟩
      by_contra hfin
      have hfin : (a.ring y.ring).fin = true := by simpa using hfin
      have hsent := progress.laws.sent_ne_nil _ _ _ _ (h.1.writer y.ring) hfin
      have hpos := List.length_pos_of_ne_nil hsent
      exact hnot (Or.inr ⟨by omega, hfin, hreturned⟩)
    by_cases hbusy : progress.Busy (s.writers y.ring)
    · exact ⟨.nic y.ring, hbusy, hawaited⟩
    · exact ⟨.writer y.ring, hbusy, hawaited⟩

theorem enabled (h : s.Refines W a) {p : Party k} (hhelps : progress.Helps s a p) :
    (s.turn b.type machine p).isSome := by
  cases p with
  | writer r =>
    obtain ⟨hbusy, hfin, -⟩ := hhelps
    have hsome := progress.laws.step_isSome _ _ _ _ (h.1.writer r) hfin hbusy
    simpa [RingSystem.turn, RingSystem.label, RingSystem.step] using hsome
  | nic r =>
    have hsome := (progress.laws.nic_isSome s.mem _).mpr hhelps.1
    simpa [RingSystem.turn, RingSystem.label, RingSystem.step] using hsome
  | consumer =>
    cases h.1.consumer_step with
    | last it' hstep => simp [RingSystem.turn, RingSystem.label, RingSystem.step, hstep]
    | more m' it' events hstep => simp [RingSystem.turn, RingSystem.label, RingSystem.step, hstep]
    | search it' hstep => simp [RingSystem.turn, RingSystem.label, RingSystem.step, hstep]

/-- Work after a turn that changes one ring and its writer. -/
theorem work_set_le {r : Fin k} {w : ω} {x : RingState (b.ring r)} {c : ℕ}
    (hle : progress.left r x w + 12 * x.sent.length + c ≤
      progress.left r (a.ring r) (s.writers r) + 12 * (a.ring r).sent.length)
    (hreturned : x.returned = (a.ring r).returned)
    (hwriters : s'.writers = Function.update s.writers r w) (hiterator : s'.iterator = s.iterator) :
    progress.work s' (a.set r x) + c ≤ progress.work s a := by
  unfold work BufferState.toReturn
  rw [hwriters, hiterator, Finset.mul_sum, Finset.mul_sum, ← Finset.sum_add_distrib,
    ← Finset.sum_add_distrib, ← Finset.add_sum_erase _ _ (Finset.mem_univ r),
    ← Finset.add_sum_erase _ _ (Finset.mem_univ r)]
  have hrest : ∑ r' ∈ Finset.univ.erase r,
      (progress.left r' ((a.set r x).ring r') (Function.update s.writers r w r') +
        12 * (((a.set r x).ring r').sent.length - ((a.set r x).ring r').returned)) =
      ∑ r' ∈ Finset.univ.erase r, (progress.left r' (a.ring r') (s.writers r') +
        12 * ((a.ring r').sent.length - (a.ring r').returned)) := by
    refine Finset.sum_congr rfl fun r' hr' => ?_
    have hr := Finset.ne_of_mem_erase hr'
    rw [BufferState.set_ring_of_ne _ hr, Function.update_of_ne hr]
  have hx := x.returned_le_sent
  have ha := (a.ring r).returned_le_sent
  rw [hrest, BufferState.set_ring_self, Function.update_self]
  omega

/-- What a turn does: it returns false, lowers the rank, or keeps the rank and leaves those
that help as they are. -/
def Advances (s : RingSystem ω k) (a : BufferState b) (p : Party k) (s' : RingSystem ω k) : Prop :=
  .hasNextReturned false ∈ s'.log ∨ ∃ a', s'.Refines W a' ∧
    (progress.rank s' a' < progress.rank s a ∨ progress.rank s' a' = progress.rank s a ∧
      ¬ progress.Helps s a p ∧ ∀ q, progress.Helps s a q → progress.Helps s' a' q)

/-- A turn of a writer or its queue pair takes work off, or it changes only the writer. -/
theorem advances_of_ring {r : Fin k} {w : ω} {x : RingState (b.ring r)} {p : Party k}
    (h : s'.Refines W (a.set r x)) (hreturned : x.returned = (a.ring r).returned)
    (hwriters : s'.writers = Function.update s.writers r w) (hiterator : s'.iterator = s.iterator)
    (hturn : progress.left r x w + 12 * x.sent.length <
        progress.left r (a.ring r) (s.writers r) + 12 * (a.ring r).sent.length ∨
      x = a.ring r ∧ progress.left r x w ≤ progress.left r (a.ring r) (s.writers r) ∧
        ¬ progress.Helps s a p ∧
        (a.Awaited r → (progress.Busy w ↔ progress.Busy (s.writers r)))) :
    progress.Advances s a p s' := by
  refine Or.inr ⟨a.set r x, h, ?_⟩
  rcases hturn with hlt | ⟨rfl, hle, hnot, hbusy⟩
  · have hwork := progress.work_set_le (c := 1) hlt hreturned hwriters hiterator
    exact Or.inl (progress.rank_lt hwork)
  · have hwork := progress.work_set_le (s := s) (c := 0)
      (Nat.add_le_add_right hle _) rfl hwriters hiterator
    rw [BufferState.set_self] at hwork ⊢
    rcases hwork.lt_or_eq with hlt | heq
    · exact Or.inl (progress.rank_lt hlt)
    · refine Or.inr ⟨?_, hnot, fun q hq => ?_⟩
      · rw [Nat.add_zero] at heq
        rw [rank, rank, heq, hiterator]
      · have hother : ∀ r', a.Awaited r' →
            (progress.Busy (s'.writers r') ↔ progress.Busy (s.writers r')) := by
          intro r' hawaited
          rw [hwriters]
          by_cases hr : r' = r
          · subst hr
            rw [Function.update_self]
            exact hbusy hawaited
          · rw [Function.update_of_ne hr]
        cases q with
        | writer r' => exact ⟨(not_congr (hother r' hq.2)).mpr hq.1, hq.2⟩
        | nic r' => exact ⟨(hother r' hq.2).mpr hq.1, hq.2⟩
        | consumer =>
          unfold Helps at hq ⊢
          rwa [hiterator]

variable (hsegments : ∀ r, 2 ≤ (b.ring r).segments)

include hsegments in
theorem writer_turn (sim : WriterSim b machine guard W) (h : s.Refines W a) {r : Fin k}
    (hstep : s.turn b.type machine (.writer r) = some s') :
    progress.Advances s a (.writer r) s' := by
  obtain ⟨w, hw, rfl⟩ := Option.map_eq_some_iff.mp hstep
  have hwriter := h.1.writer r
  have h' : RingSystem.Refines W { s with writers := Function.update s.writers r w }
      (a.set r (a.ring r)) := by
    rw [BufferState.set_self]
    exact ⟨h.1.writer_step sim hw, h.2⟩
  apply progress.advances_of_ring (s := s) h' rfl rfl rfl
  by_cases hhelps : ¬ progress.Busy (s.writers r) ∧ a.Awaited r
  · have hlt := progress.laws.step_lt _ _ _ _ _ hwriter hw hhelps.1 (hhelps.2.room (hsegments r))
    exact Or.inl (Nat.add_lt_add_right hlt _)
  · refine Or.inr ⟨rfl, progress.laws.step_le _ _ _ _ _ hwriter hw, hhelps, fun hawaited => ?_⟩
    have hbusy : progress.Busy (s.writers r) := by
      by_contra hidle
      exact hhelps ⟨hidle, hawaited⟩
    exact iff_of_true (progress.laws.stays_busy _ _ hw hbusy) hbusy

include hsegments in
theorem nic_turn (sim : WriterSim b machine guard W) (h : s.Refines W a) {r : Fin k}
    (hguard : guard (s.writers r)) (hstep : s.turn b.type machine (.nic r) = some s') :
    progress.Advances s a (.nic r) s' := by
  obtain ⟨⟨m', w, made⟩, hnic, rfl⟩ := Option.map_eq_some_iff.mp hstep
  have hwriter := h.1.writer r
  obtain ⟨x, hmove, hinv⟩ := h.1.nic_step sim hguard hnic
  have h' : RingSystem.Refines W
      { s with
        mem := m'
        writers := Function.update s.writers r w
        log := s.log ++ made.toList.map RingEvent.madeConsumable } (a.set r x) :=
    ⟨hinv, h.2.move (hmove.ringMove a)⟩
  apply progress.advances_of_ring (s := s) h' hmove.returned rfl rfl
  by_cases hmade : made = none
  · subst hmade
    cases hmove with
    | stutter =>
      by_cases hawaited : a.Awaited r
      · exact Or.inl (progress.laws.nic_lt _ _ _ _ _ _ _ _ _ hwriter (h.1.shows r) hnic .stutter
          (Or.inr (hawaited.room (hsegments r))))
      · have hle := progress.laws.nic_le _ _ _ _ _ _ _ _ _ hwriter (h.1.shows r) hnic .stutter
        exact Or.inr ⟨rfl, by omega, fun hhelps => hawaited hhelps.2,
          fun hyes => absurd hyes hawaited⟩
  · exact Or.inl (progress.laws.nic_lt _ _ _ _ _ _ _ _ _ hwriter (h.1.shows r) hnic hmove
      (Or.inl hmade))

/-- The consumer takes no segment back. -/
theorem released_le_of_consumer {events : List (RingEvent k)} (hmove : RingMove a events a')
    (hconsumer : ∀ offset, .madeConsumable offset ∉ events) (r : Fin k) :
    (a.ring r).released ≤ (a'.ring r).released := by
  cases hmove with
  | stutter => exact le_rfl
  | ready => exact le_rfl
  | exhausted hall => exact le_rfl
  | ask r' hsent => exact le_rfl
  | land r' block last hroom hfin => exact absurd List.mem_cons_self (hconsumer _)
  | finish r' hfin hsent => exact absurd List.mem_cons_self (hconsumer _)
  | release r' hasked hsent =>
    by_cases hr : r = r'
    · subst hr
      rw [BufferState.set_ring_self]
      exact (a.ring r).released_le
    · rw [BufferState.set_ring_of_ne _ hr]
  | take r' hasked hrel hsent data hdata =>
    by_cases hr : r = r'
    · subst hr
      simp
    · simp [hr]

/-- The writers' work does not grow when the consumer moves. -/
theorem work_consumer_le {events : List (RingEvent k)} (hmove : RingMove a events a')
    (hconsumer : ∀ offset, .madeConsumable offset ∉ events) (hwriters : s'.writers = s.writers) :
    progress.work s' a' + s.iterator.left +
        12 * ∑ r, (RingSystem.returnedBlocks events r).length ≤
      progress.work s a + s'.iterator.left := by
  have hsum : ∑ r, progress.left r (a'.ring r) (s'.writers r) ≤
      ∑ r, progress.left r (a.ring r) (s.writers r) := by
    rw [hwriters]
    refine Finset.sum_le_sum fun r _ => ?_
    exact progress.laws.consume _ _ _ _ (hmove.of_consumer hconsumer r).1
      (released_le_of_consumer hmove hconsumer r)
  have hleft := hmove.toReturn hconsumer
  unfold work
  omega

theorem consumer_turn (sim : WriterSim b machine guard W) (h : s.Refines W a)
    (hguarded : s.Guarded guard (s.label .consumer))
    (hstep : s.turn b.type machine .consumer = some s') :
    progress.Advances s a .consumer s' := by
  obtain ⟨a', events, hmove, hlog, h'⟩ := h.step sim hguarded hstep
  obtain ⟨⟨m', it', events'⟩, hit, rfl⟩ := Option.map_eq_some_iff.mp hstep
  obtain rfl : events' = events := List.append_cancel_left hlog
  cases h.1.consumer_step with
  | last it'' hlast =>
    rw [hlast] at hit
    cases hit
    exact Or.inl (by simp)
  | more m'' it'' events'' hmore hconsumer hlt =>
    rw [hmore] at hit
    cases hit
    have hwork := progress.work_consumer_le (s := s) hmove hconsumer
      (rfl : RingSystem.writers ⟨m', s.writers, it', s.log ++ events'⟩ = s.writers)
    refine Or.inr ⟨a', h', Or.inl (progress.rank_lt ?_)⟩
    simp only at hwork hlt ⊢
    omega
  | search it'' hsearch hsearches hne hleft hlist hnearer =>
    rw [hsearch] at hit
    cases hit
    have hnone : ∀ offset, (RingEvent.madeConsumable offset : RingEvent k) ∉ [] :=
      fun _ => List.not_mem_nil
    have hwork := progress.work_consumer_le (s := s) hmove hnone
      (rfl : RingSystem.writers ⟨s.mem, s.writers, it', s.log ++ []⟩ = s.writers)
    have hkept : ∀ r, (a'.ring r).sent = (a.ring r).sent ∧ (a'.ring r).fin = (a.ring r).fin ∧
        (a'.ring r).returned = (a.ring r).returned :=
      hmove.of_consumer hnone
    have hle : progress.work ⟨s.mem, s.writers, it', s.log ++ []⟩ a' ≤ progress.work s a := by
      simp only [RingSystem.returnedBlocks, List.filterMap_nil, List.length_nil,
        Finset.sum_const_zero] at hwork
      omega
    have hdue : it'.HasDue a' ↔ s.iterator.HasDue a := by
      unfold BufferIterator.HasDue
      simp only [hlist, due_congr (hkept _)]
    refine Or.inr ⟨a', h', ?_⟩
    by_cases hsome : s.iterator.HasDue a
    · refine Or.inl (Prod.Lex.toLex_lt_toLex.mpr (hle.lt_or_eq.imp id fun heq => ⟨heq, ?_⟩))
      simp only [if_pos hsome, if_pos (hdue.mpr hsome), toDue_congr hkept]
      exact hnearer hsome
    · rcases hle.lt_or_eq with hlt | heq
      · exact Or.inl (progress.rank_lt hlt)
      · refine Or.inr ⟨?_, fun hhelps => ?_, fun q hq => ?_⟩
        · simp only [rank, heq, if_neg hsome, if_neg (not_congr hdue |>.mpr hsome)]
        · exact (hhelps hsearches).elim hne hsome
        · cases q with
          | consumer => exact absurd (hq hsearches) (not_or.mpr ⟨hne, hsome⟩)
          | writer r => exact ⟨hq.1, (awaited_congr (hkept r)).mpr hq.2⟩
          | nic r => exact ⟨hq.1, (awaited_congr (hkept r)).mpr hq.2⟩

/-- What is assumed of the turns: the operations of the queue pairs meet their guard, and the
iterator does not let a credit counter wrap. -/
def Allowed (guard : ω → Prop) (s : RingSystem ω k) (p : Party k) : Prop :=
  s.Guarded guard (s.label p)

def ranking (sim : WriterSim b machine guard W) :
    FairRuns.Ranking (RingSystem.turn (k := k) b.type machine) (Allowed guard)
      (fun s => .hasNextReturned false ∈ s.log) (BufferState b) (ℕ ×ₗ ℕ) where
  View := RingSystem.Refines W
  rank := progress.rank
  Helps := progress.Helps
  exists_helps _ _ h _ := progress.exists_helps h
  enabled _ _ _ h _ := progress.enabled h
  step s a p s' h _ hallowed hstep := by
    cases p with
    | writer r => exact progress.writer_turn hsegments sim h hstep
    | nic r => exact progress.nic_turn hsegments sim h hallowed hstep
    | consumer => exact progress.consumer_turn sim h hallowed hstep

/-- The states of a run whose turns are allowed are states of the protocol. -/
theorem refines_run (sim : WriterSim b machine guard W) {s : RingSystem ω k}
    (hs : ∃ a, s.Refines W a) {schedule : ℕ → Party k}
    (hallowed : ∀ n a, (FairRuns.run (RingSystem.turn b.type machine) s schedule n).Refines W a →
      Allowed guard (FairRuns.run (RingSystem.turn b.type machine) s schedule n) (schedule n)) :
    ∀ n, ∃ a, (FairRuns.run (RingSystem.turn b.type machine) s schedule n).Refines W a := by
  intro n
  induction n with
  | zero => exact hs
  | succ n ih =>
    obtain ⟨a, ha⟩ := ih
    cases hstep : RingSystem.turn b.type machine
        (FairRuns.run (RingSystem.turn b.type machine) s schedule n) (schedule n) with
    | none =>
      rw [FairRuns.run_succ_of_none hstep]
      exact ⟨a, ha⟩
    | some t =>
      rw [FairRuns.run_succ_of_some hstep]
      obtain ⟨a', -, -, -, ha'⟩ := ha.step sim (hallowed n a ha) hstep
      exact ⟨a', ha'⟩

include progress hsegments in
/-- In every fair run `has_next` returns false from some time on, and all that was sent has
then been taken. -/
theorem eventually_drained (sim : WriterSim b machine guard W) {s : RingSystem ω k}
    (hs : ∃ a, s.Refines W a) {schedule : ℕ → Party k} (hfair : FairRuns.Fair schedule)
    (hallowed : ∀ n a, (FairRuns.run (RingSystem.turn b.type machine) s schedule n).Refines W a →
      Allowed guard (FairRuns.run (RingSystem.turn b.type machine) s schedule n) (schedule n)) :
    ∃ n, ∀ n', n ≤ n' →
      .hasNextReturned false ∈
        (FairRuns.run (RingSystem.turn b.type machine) s schedule n').log ∧
      ∃ a, (FairRuns.run (RingSystem.turn b.type machine) s schedule n').Refines W a ∧
        ∀ r, a.Drained r := by
  have hrefines := refines_run sim hs hallowed
  obtain ⟨a, ha⟩ := hs
  obtain ⟨n, hn⟩ := (progress.ranking hsegments sim).reaches hfair
    (fun n => (hrefines n).elim (hallowed n)) ha
  have hkeep : ∀ (s : RingSystem ω k) p t, .hasNextReturned false ∈ s.log →
      s.turn b.type machine p = some t → .hasNextReturned false ∈ t.log :=
    fun s p t hs hstep => RingSystem.mem_log_of_turn hs hstep
  refine ⟨n, fun n' hle => ?_⟩
  have hlog := FairRuns.run_invariant hkeep hle hn
  obtain ⟨a', ha'⟩ := hrefines n'
  exact ⟨hlog, a', ha', ha'.2.exhausted hlog⟩

end WriterProgress
end DpiLibrary
