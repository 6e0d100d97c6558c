import DpiLibrary.Foundation.Rounds
import DpiLibrary.Dpi.DrainedBuffer

/-!
# Closed rings are read in rounds

On closed rings every visit of the buffer iterator finds a segment, so that each pass over
the list is a round. Rings that are read up are taken off the list one visit after their
final segment, in the round they have no segment for.
-/

namespace DpiLibrary

variable {k : ℕ}

namespace RingSystem

/-- What `next` has returned, of all rings in one sequence. -/
def returnedSegments (log : List (RingEvent k)) : List (Fin k × ℕ × List UInt8) :=
  log.filterMap fun
    | .nextReturned ring offset data => some (ring, offset, data)
    | _ => none

theorem returnedSegments_append (log events : List (RingEvent k)) :
    returnedSegments (log ++ events) = returnedSegments log ++ returnedSegments events :=
  List.filterMap_append

theorem returnedBlocks_eq (log : List (RingEvent k)) (r : Fin k) :
    returnedBlocks log r = (returnedSegments log).filterMap fun (ring, _, data) =>
      if ring = r then some data else none := by
  rw [returnedSegments, List.filterMap_filterMap, returnedBlocks]
  apply List.filterMap_congr
  intro e _
  cases e <;> rfl

end RingSystem

open RingSystem

variable {b : BufferRings k} {a a' : BufferState b} {events : List (RingEvent k)}
  {c c' : Cursor (IterHelper k)} {m m' : Mem} {it it' : BufferIterator k}

namespace BufferState

/-- Segment `i` of a ring, as `next` returns it. -/
def segmentAt (a : BufferState b) (segment : Fin k × ℕ) : Fin k × ℕ × List UInt8 :=
  (segment.1, (b.ring segment.1).slot segment.2, (a.ring segment.1).sent.getD segment.2 [])

def sentCount (a : BufferState b) (r : Fin k) : ℕ := (a.ring r).sent.length

end BufferState

/-- How the position in the list moves, and what is returned meanwhile. -/
inductive CursorStep (a : BufferState b) :
    Cursor (IterHelper k) → List (RingEvent k) → Cursor (IterHelper k) → Prop
  | stay (c : Cursor (IterHelper k)) (events : List (RingEvent k))
    (hnone : returnedSegments events = []) : CursorStep a c events c
  | put (bs as : List (IterHelper k)) (h h' : IterHelper k) (hring : h'.ring = h.ring) :
    CursorStep a ⟨bs, h :: as⟩ [] ⟨bs, h' :: as⟩
  | wrap (bs : List (IterHelper k)) (events : List (RingEvent k))
    (hnone : returnedSegments events = []) : CursorStep a ⟨bs, []⟩ events ⟨[], bs.reverse⟩
  | erase (bs as : List (IterHelper k)) (h : IterHelper k)
    (hdrained : (a.ring h.ring).returned = (a.ring h.ring).sent.length) :
    CursorStep a ⟨bs, h :: as⟩ [] ⟨bs, as⟩
  | advance (bs as : List (IterHelper k)) (h h' : IterHelper k) (events : List (RingEvent k))
    (hring : h'.ring = h.ring) (hsent : (a.ring h.ring).returned < (a.ring h.ring).sent.length)
    (hnext : returnedSegments events = [a.segmentAt (h.ring, (a.ring h.ring).returned)]) :
    CursorStep a ⟨bs, h :: as⟩ events ⟨h' :: bs, as⟩

theorem RingMove.take_spec {r : Fin k} {offset : ℕ} {data : List UInt8}
    (h : RingMove a [.nextReturned r offset data] a') (hexact : a.Exact r) :
    (a.ring r).returned < (a.ring r).sent.length ∧
      (r, offset, data) = a.segmentAt (r, (a.ring r).returned) := by
  cases h with
  | take r hasked hrel hsent data hdata =>
    refine ⟨hsent, ?_⟩
    simp [BufferState.segmentAt, hdata hexact, hsent]

/-- The loop of `has_next` moves in the list only at its end, and returns no segment. -/
theorem BufferIterator.loopStep_cursor (m : Mem) (c : Cursor (IterHelper k)) :
    (BufferIterator.loopStep m ⟨c, .loop⟩).1.segmentIterators =
        (if c.atEnd then .start c.toList else c) ∧
      returnedSegments (BufferIterator.loopStep m ⟨c, .loop⟩).2 = [] := by
  simp only [BufferIterator.loopStep]
  generalize (if c.atEnd then Cursor.start c.toList else c) = c'
  cases c'.get? with
  | none => exact ⟨rfl, rfl⟩
  | some h =>
    simp only
    split_ifs <;> exact ⟨rfl, rfl⟩

variable {ω : Type} {W : ∀ r, RingState (b.ring r) → Mem → ω → Prop} {writers : Fin k → ω}

/-- A step of the client's loop on closed rings does not pass over a ring. -/
theorem SysInv.cursorStep (rules : WriterRules b W) (htype : b.type = .bw)
    (hinv : SysInv W a m writers it) (hfinds : it.Finds a)
    (hstep : it.step .bw m it.clientAction = some (m', it', events)) :
    CursorStep a it.segmentIterators events it'.segmentIterators := by
  obtain ⟨⟨bs, as⟩, pc⟩ := it
  have hloop : pc = .loop → CursorStep a ⟨bs, as⟩ events it'.segmentIterators := by
    rintro rfl
    have hrun : some (m, BufferIterator.loopStep m ⟨⟨bs, as⟩, .loop⟩) = some (m', it', events) :=
      hstep
    obtain ⟨hcursor, hnone⟩ := BufferIterator.loopStep_cursor m ⟨bs, as⟩
    simp only [Option.some.injEq, Prod.mk.injEq] at hrun
    rw [hrun.2] at hcursor hnone
    rw [hcursor]
    cases as with
    | nil => simpa [Cursor.atEnd, Cursor.start] using CursorStep.wrap bs events hnone
    | cons h as => exact .stay _ _ hnone
  cases as with
  | nil =>
    rcases hinv.iterator.atEnd rfl with hpc | hpc
    · simp only at hpc
      subst hpc
      simp only [BufferIterator.step, BufferIterator.clientAction, true_or, if_true,
        Option.some.injEq, Prod.mk.injEq] at hstep
      obtain ⟨-, rfl, rfl⟩ := hstep
      exact .stay _ _ rfl
    · exact hloop hpc
  | cons h as =>
    obtain ⟨hhelper, hphase, hshows, -⟩ := hinv.current
    cases pc with
    | idle =>
      cases hstep
      exact .stay _ _ rfl
    | loop => exact hloop rfl
    | ready =>
      cases hstep
      exact .stay _ _ rfl
    | testConsumable =>
      have hconsumable := (hshows.isConsumable_iff hphase.2).mpr (hfinds rfl h rfl)
      rw [← hhelper.iter] at hconsumable
      simp only [BufferIterator.step, BufferIterator.clientAction, Cursor.get?_cons, hconsumable,
        if_true, Option.some.injEq, Prod.mk.injEq] at hstep
      obtain ⟨-, rfl, rfl⟩ := hstep
      exact .stay _ _ rfl
    | mark step inNext =>
      obtain ⟨m'', h', pc', hmark, hring⟩ :=
        BufferIterator.markStep_cursor .bw m bs as h step inNext
      simp only [BufferIterator.step, BufferIterator.clientAction, Cursor.get?_cons, hmark,
        Option.some.injEq, Prod.mk.injEq] at hstep
      obtain ⟨-, rfl, rfl⟩ := hstep
      exact .put bs as h h' hring
    | erase =>
      cases hstep
      exact .erase bs as h hphase.2
    | getRawData =>
      cases hstep
      exact .stay _ _ rfl
    | advance retSize =>
      obtain ⟨a', hmove, -⟩ := hinv.advance rules
      obtain ⟨hsent, hnext⟩ := hmove.take_spec (Or.inl htype)
      cases hstep
      exact .advance bs as h _ _ rfl hsent (congrArg (fun x => [x]) hnext)

/-- The iterator is in round `round` and has served `order` so far. -/
structure Visiting (a : BufferState b) (c : Cursor (IterHelper k)) (round : ℕ)
    (order : List (Fin k × ℕ)) : Prop where
  served : InRound (List.finRange k) a.sentCount round (c.before.reverse.map IterHelper.ring)
    (c.after.map IterHelper.ring) order
  before : ∀ h ∈ c.before, (a.ring h.ring).returned = round + 1
  after : ∀ h ∈ c.after, (a.ring h.ring).returned = round

/-- The position only depends on what has been sent and returned. -/
theorem Visiting.congr {round : ℕ} {order : List (Fin k × ℕ)} (h : Visiting a c round order)
    (hkept : ∀ r, (a'.ring r).sent = (a.ring r).sent ∧
      (a'.ring r).returned = (a.ring r).returned) : Visiting a' c round order := by
  have hcount : a'.sentCount = a.sentCount := by
    funext r
    exact congrArg List.length (hkept r).1
  constructor
  · rw [hcount]
    exact h.served
  · intro y hy
    rw [(hkept y.ring).2]
    exact h.before y hy
  · intro y hy
    rw [(hkept y.ring).2]
    exact h.after y hy

theorem Visiting.step {round : ℕ} {order : List (Fin k × ℕ)} (h : Visiting a c round order)
    (hstep : CursorStep a c events c') (hnodup : (c.toList.map IterHelper.ring).Nodup)
    (hkeep : ∀ r, (a'.ring r).sent = (a.ring r).sent ∧
      (a'.ring r).returned = (a.ring r).returned + (returnedBlocks events r).length) :
    ∃ round' order', Visiting a' c' round' (order ++ order') ∧
      returnedSegments events = order'.map a.segmentAt := by
  have hquiet : returnedSegments events = [] → ∀ r, (a'.ring r).sent = (a.ring r).sent ∧
      (a'.ring r).returned = (a.ring r).returned := by
    intro hnone r
    have hblocks : returnedBlocks events r = [] := by rw [returnedBlocks_eq, hnone]; rfl
    obtain ⟨hsent, hreturned⟩ := hkeep r
    rw [hblocks] at hreturned
    exact ⟨hsent, hreturned⟩
  cases hstep with
  | stay c events hnone =>
    refine ⟨round, [], ?_, hnone⟩
    rw [List.append_nil]
    exact h.congr (hquiet hnone)
  | put bs as y y' hring =>
    refine ⟨round, [], ?_, rfl⟩
    have h' := h.congr (hquiet rfl)
    rw [List.append_nil]
    refine ⟨?_, h'.before, fun z hz => ?_⟩
    · have hserved := h'.served
      simpa only [List.map_cons, hring] using hserved
    · rcases List.mem_cons.mp hz with rfl | hz
      · rw [hring]
        exact h'.after y List.mem_cons_self
      · exact h'.after z (List.mem_cons_of_mem _ hz)
  | wrap bs events hnone =>
    have h' := h.congr (hquiet hnone)
    refine ⟨round + 1, [], ?_, hnone⟩
    rw [List.append_nil]
    refine ⟨h'.served.wrap, by simp, fun y hy => ?_⟩
    exact h'.before y (by simpa using hy)
  | erase bs as y hdrained =>
    have h' := h.congr (hquiet rfl)
    refine ⟨round, [], ?_, rfl⟩
    rw [List.append_nil]
    have hround := h.after y List.mem_cons_self
    have hcount : a'.sentCount y.ring ≤ round := by
      unfold BufferState.sentCount
      rw [(hquiet rfl y.ring).1]
      omega
    exact ⟨h'.served.drop hcount, h'.before, fun z hz => h'.after z (List.mem_cons_of_mem _ hz)⟩
  | advance bs as y y' events hring hsent hnext =>
    have hround := h.after y List.mem_cons_self
    rw [hround] at hsent hnext
    refine ⟨round, [(y.ring, round)], ?_, hnext⟩
    -- only the ring in front is one segment further
    have hself : (a'.ring y.ring).returned = round + 1 := by
      rw [(hkeep y.ring).2, hround, returnedBlocks_eq, hnext]
      simp [BufferState.segmentAt]
    have hothers : ∀ z ∈ bs.reverse ++ as,
        (a'.ring z.ring).returned = (a.ring z.ring).returned := by
      intro z hz
      have hne : y.ring ≠ z.ring := by
        intro heq
        rw [Cursor.toList_mk, List.map_append, List.map_cons] at hnodup
        have hnot := (List.nodup_cons.mp (List.perm_middle.nodup_iff.mp hnodup)).1
        rw [← List.map_append, heq] at hnot
        exact hnot (List.mem_map_of_mem hz)
      rw [(hkeep z.ring).2, returnedBlocks_eq, hnext]
      simp [BufferState.segmentAt, hne]
    have hcount : a'.sentCount = a.sentCount := by
      funext r
      exact congrArg List.length (hkeep r).1
    constructor
    · have hserved := h.served.serve hsent
      rw [hcount]
      simpa [hring] using hserved
    · intro z hz
      rcases List.mem_cons.mp hz with rfl | hz
      · rw [hring, hself]
      · rw [hothers z (by simp [hz])]
        exact h.before z hz
    · intro z hz
      rw [hothers z (by simp [hz])]
      exact h.after z (List.mem_cons_of_mem _ hz)

/-- `has_next` returns false on an empty list only. -/
theorem BufferIterator.step_exhausted {type : Buffertype} {action : IteratorAction}
    (hstep : it.step type m action = some (m', it', [.hasNextReturned false])) :
    it.segmentIterators = ⟨[], []⟩ ∧ it'.pc = .idle := by
  obtain ⟨⟨bs, as⟩, pc⟩ := it
  cases action with
  | hasNext =>
    simp only [BufferIterator.step] at hstep
    split_ifs at hstep
    cases hstep
  | next =>
    cases as <;> cases pc <;> simp [BufferIterator.step] at hstep
  | run =>
    by_cases hpc : pc = .loop
    · subst hpc
      have hrun : some (m, BufferIterator.loopStep m ⟨⟨bs, as⟩, .loop⟩) =
          some (m', it', [.hasNextReturned false]) := hstep
      simp only [BufferIterator.loopStep, Option.some.injEq, Prod.mk.injEq] at hrun
      cases as with
      | cons h as =>
        simp only [Cursor.atEnd, List.isEmpty_cons, Bool.false_eq_true, if_false,
          Cursor.get?_cons] at hrun
        split_ifs at hrun <;> simp at hrun
      | nil =>
        cases hbs : bs.reverse with
        | nil =>
          obtain rfl := List.reverse_eq_nil_iff.mp hbs
          simp only [Cursor.atEnd, List.isEmpty_nil, if_true, Cursor.toList_mk, List.reverse_nil,
            List.append_nil, Cursor.start, Cursor.get?_nil, Prod.mk.injEq] at hrun
          exact ⟨rfl, by rw [← hrun.2.1]⟩
        | cons h rest =>
          simp only [Cursor.atEnd, List.isEmpty_nil, if_true, Cursor.toList_mk, List.append_nil,
            Cursor.start, hbs, Cursor.get?_cons] at hrun
          split_ifs at hrun <;> simp at hrun
    · cases as with
      | nil => cases pc <;> simp_all [BufferIterator.step]
      | cons h as =>
        cases pc with
        | testConsumable =>
          simp only [BufferIterator.step, Cursor.get?_cons] at hstep
          split_ifs at hstep <;> simp at hstep
        | _ => simp_all [BufferIterator.step]

namespace RingSystem.Refines

variable {machine : WriterMachine ω} {guard : ω → Prop}

/-- The client's loop on closed rings serves them in rounds. -/
theorem drain_rounds (sim : WriterSim b machine guard W) (htype : b.type = .bw)
    (earlier : List (RingEvent k)) {n : ℕ} {m' : Mem} {events : List (RingEvent k)} :
    ∀ (fuel : ℕ) (m : Mem) (it : BufferIterator k) (log : List (RingEvent k)) (a : BufferState b)
      (round : ℕ) (order : List (Fin k × ℕ)),
      RingSystem.Refines W ⟨m, writers, it, earlier ++ log⟩ a → a.Closed → it.Finds a →
      Visiting a it.segmentIterators round order →
      returnedSegments log = order.map a.segmentAt → .hasNextReturned false ∉ log →
      (∀ r, a.sentCount r ≤ n) → it.drain .bw fuel m log = some (m', events) →
      ∃ served, events = served ++ [.hasNextReturned false] ∧ .hasNextReturned false ∉ served ∧
        returnedSegments served = (rounds (List.finRange k) a.sentCount n).map a.segmentAt := by
  intro fuel
  induction fuel with
  | zero =>
    intro m it log a round order _ _ _ _ _ _ _ hdrain
    cases hdrain
  | succ fuel ih =>
    intro m it log a round order h hclosed hfinds hvisiting horder hnot hn hdrain
    have hsys : SysInv W a m writers it := h.1
    cases hsys.drain_step hclosed hfinds with
    | last it' hstep =>
      simp only [BufferIterator.drain, hstep, Option.bind_some, List.mem_singleton, if_true,
        Option.some.injEq, Prod.mk.injEq] at hdrain
      obtain ⟨-, rfl⟩ := hdrain
      refine ⟨log, rfl, hnot, ?_⟩
      have hserved := hvisiting.served
      rw [(BufferIterator.step_exhausted hstep).1] at hserved
      rw [horder, hserved.finish fun r _ => hn r]
    | more m₁ it₁ events₁ hstep hmore hconsumer hfinds₁ hwork =>
      obtain ⟨a₁, hmove, h₁⟩ := h.iterator_step sim htype hstep
      have hkeep := hmove.of_consumer hconsumer
      have hcursor := hsys.cursorStep sim.toWriterRules htype hfinds hstep
      obtain ⟨round₁, order₁, hvisiting₁, horder₁⟩ := hvisiting.step hcursor hsys.iterator.nodup
        fun r => ⟨(hkeep r).1, (hkeep r).2.2⟩
      have hsegments : a₁.segmentAt = a.segmentAt := by
        funext segment
        rw [BufferState.segmentAt, BufferState.segmentAt, (hkeep segment.1).1]
      have hcount : a₁.sentCount = a.sentCount := by
        funext r
        exact congrArg List.length (hkeep r).1
      rw [List.append_assoc] at h₁
      simp only [BufferIterator.drain, hstep, Option.bind_some, if_neg hmore] at hdrain
      have hrest := ih m₁ it₁ (log ++ events₁) a₁ round₁ (order ++ order₁) h₁
        (hmove.closed hconsumer hclosed) (.move hmove hconsumer hfinds₁) hvisiting₁
        (by rw [returnedSegments_append, horder, horder₁, hsegments, List.map_append])
        (by simp [hnot, hmore]) (by rw [hcount]; exact hn) hdrain
      rwa [hsegments, hcount] at hrest

end RingSystem.Refines

theorem SysInv.work_le (hinv : SysInv W a m writers it) : it.work ≤ 8 * k + 11 := by
  have hlength := hinv.iterator.nodup.length_le_card
  rw [List.length_map, Fintype.card_fin] at hlength
  have hpc : it.pc.work ≤ 11 := by
    cases it.pc with
    | mark step inNext => cases step <;> simp [IteratorPc.work, MarkStep.work]
    | _ => simp [IteratorPc.work]
  unfold BufferIterator.work
  omega

/-- A consumer at work on closed rings, whatever calls it makes. -/
structure Reading (W : ∀ r, RingState (b.ring r) → Mem → ω → Prop) (a : BufferState b)
    (t : RingSystem ω k) : Prop where
  refines : t.Refines W a
  closed : a.Closed
  finds : t.iterator.Finds a

namespace Reading

variable {machine : WriterMachine ω} {guard : ω → Prop} {t t' : RingSystem ω k}

/-- Bound on the steps a call can still take. -/
def work (a : BufferState b) (t : RingSystem ω k) : ℕ := 12 * a.toReturn + t.iterator.work

/-- A call that has not returned goes on and comes nearer to its end. -/
theorem run (sim : WriterSim b machine guard W) (htype : b.type = .bw) (h : Reading W a t)
    (hpc : t.iterator.pc ≠ .idle ∧ t.iterator.pc ≠ .ready) :
    ∃ t' a', t.step b.type machine (.iterator .run) = some t' ∧ Reading W a' t' ∧
      a'.toReturn ≤ a.toReturn ∧ (t'.iterator.pc = .idle ∨ work a' t' < work a t) := by
  obtain ⟨m, writers, it, log⟩ := t
  have haction : it.clientAction = .run := by
    unfold BufferIterator.clientAction
    split
    · exact absurd ‹_› hpc.1
    · exact absurd ‹_› hpc.2
    · rfl
  have hsys : SysInv W a m writers it := h.refines.1
  have hstate : ∀ {m' it' events}, it.step .bw m it.clientAction = some (m', it', events) →
      RingSystem.step b.type machine ⟨m, writers, it, log⟩ (.iterator .run) =
        some ⟨m', writers, it', log ++ events⟩ := by
    intro m' it' events hstep
    rw [haction] at hstep
    simp only [RingSystem.step, htype, hstep, Option.map_some]
  cases hsys.drain_step h.closed h.finds with
  | last it' hstep =>
    obtain ⟨a', hmove, h'⟩ := h.refines.iterator_step sim htype hstep
    have hidle := (BufferIterator.step_exhausted hstep).2
    have hfinds : it'.Finds a' := fun hpc => by simp [hidle] at hpc
    have hleft := hmove.toReturn (by simp)
    exact ⟨_, a', hstate hstep, ⟨h', hmove.closed (by simp) h.closed, hfinds⟩, by omega,
      Or.inl hidle⟩
  | more m' it' events hstep hmore hconsumer hfinds hwork =>
    obtain ⟨a', hmove, h'⟩ := h.refines.iterator_step sim htype hstep
    have hleft := hmove.toReturn hconsumer
    refine ⟨_, a', hstate hstep, ⟨h', hmove.closed hconsumer h.closed,
      .move hmove hconsumer hfinds⟩, by omega, Or.inr ?_⟩
    simp only [work]
    omega

/-- Every action of the consumer is one on closed rings. -/
theorem step (sim : WriterSim b machine guard W) (htype : b.type = .bw) (h : Reading W a t)
    {action : IteratorAction} (hstep : t.step b.type machine (.iterator action) = some t') :
    ∃ a', Reading W a' t' ∧ a'.toReturn ≤ a.toReturn := by
  by_cases hrun : action = .run
  · subst hrun
    have hpc : t.iterator.pc ≠ .idle ∧ t.iterator.pc ≠ .ready := by
      constructor <;> intro hpc <;> simp [RingSystem.step, BufferIterator.step, hpc] at hstep
    obtain ⟨t'', a', hstep', h', hle, -⟩ := h.run sim htype hpc
    rw [hstep] at hstep'
    cases hstep'
    exact ⟨a', h', hle⟩
  · obtain ⟨m, writers, it, log⟩ := t
    obtain ⟨⟨m', it', events⟩, hit, rfl⟩ := Option.map_eq_some_iff.mp hstep
    rw [htype] at hit
    obtain ⟨a', hmove, h'⟩ := h.refines.iterator_step sim htype hit
    -- a call only begins
    have hbegins : (∀ offset, .madeConsumable offset ∉ events) ∧ it'.pc ≠ .testConsumable := by
      cases action with
      | run => exact absurd rfl hrun
      | hasNext =>
        simp only [BufferIterator.step] at hit
        split_ifs at hit
        cases hit
        exact ⟨by simp, by simp⟩
      | next =>
        simp only [BufferIterator.step] at hit
        split at hit
        · cases hit
          exact ⟨by simp, by simp⟩
        · cases hit
    have hleft := hmove.toReturn hbegins.1
    exact ⟨a', ⟨h', hmove.closed hbegins.1 h.closed, fun hpc => absurd hpc hbegins.2⟩, by omega⟩

theorem exec (sim : WriterSim b machine guard W) (htype : b.type = .bw)
    (actions : List IteratorAction) :
    ∀ (t : RingSystem ω k) (a : BufferState b), Reading W a t →
      Schedule.exec (RingSystem.step b.type machine) t (actions.map .iterator) = some t' →
      ∃ a', Reading W a' t' ∧ a'.toReturn ≤ a.toReturn := by
  induction actions with
  | nil =>
    intro t a h hexec
    cases hexec
    exact ⟨a, h, le_rfl⟩
  | cons action actions ih =>
    intro t a h hexec
    rw [List.map_cons, Schedule.exec_cons] at hexec
    obtain ⟨t₁, hstep, hrest⟩ := Option.bind_eq_some_iff.mp hexec
    obtain ⟨a₁, h₁, hle₁⟩ := h.step sim htype hstep
    obtain ⟨a', h', hle⟩ := ih t₁ a₁ h₁ hrest
    exact ⟨a', h', hle.trans hle₁⟩

/-- A call returns. -/
theorem call_returns (sim : WriterSim b machine guard W) (htype : b.type = .bw) (fuel : ℕ) :
    ∀ (t : RingSystem ω k) (a : BufferState b), Reading W a t → work a t ≤ fuel →
      ∃ n ≤ fuel, ∃ t', Schedule.exec (RingSystem.step b.type machine) t
          (List.replicate n (.iterator .run)) = some t' ∧
        (t'.iterator.pc = .idle ∨ t'.iterator.pc = .ready) := by
  induction fuel with
  | zero =>
    intro t a h hfuel
    have hpos : 0 < t.iterator.pc.work := by
      cases t.iterator.pc with
      | mark step inNext => cases step <;> simp [IteratorPc.work, MarkStep.work]
      | _ => simp [IteratorPc.work]
    simp only [work, BufferIterator.work] at hfuel
    omega
  | succ fuel ih =>
    intro t a h hfuel
    by_cases hpc : t.iterator.pc = .idle ∨ t.iterator.pc = .ready
    · exact ⟨0, Nat.zero_le _, t, rfl, hpc⟩
    · obtain ⟨t₁, a₁, hstep, h₁, -, hnear⟩ := h.run sim htype (not_or.mp hpc)
      rcases hnear with hidle | hlt
      · refine ⟨1, Nat.succ_le_succ (Nat.zero_le _), t₁, ?_, Or.inl hidle⟩
        simp [hstep]
      · obtain ⟨n, hn, t', hexec, hpc'⟩ := ih t₁ a₁ h₁ (by omega)
        refine ⟨n + 1, Nat.succ_le_succ hn, t', ?_, hpc'⟩
        rw [List.replicate_succ, Schedule.exec_cons, hstep]
        exact hexec

end Reading

namespace BufferRings

/-- How many segments of a ring are consumable. -/
def consumableSegments (b : BufferRings k) (m : Mem) (r : Fin k) : ℕ :=
  Nat.count (fun i => (readHeader m ((b.ring r).slot i)).isConsumable = true) (b.ring r).segments

/-- Segment `i` of a ring as memory shows it. -/
def segmentIn (b : BufferRings k) (m : Mem) (segment : Fin k × ℕ) : Fin k × ℕ × List UInt8 :=
  (segment.1, (b.ring segment.1).slot segment.2,
    readBytes m ((b.ring segment.1).dataOffset segment.2)
      (readHeader m ((b.ring segment.1).slot segment.2)).counter)

end BufferRings

/-- On a closed ring the consumable segments are those sent. -/
theorem ClosedRing.isConsumable_iff {g : RingGeometry} {x : RingState g} {bytes : List UInt8}
    (h : ClosedRing x m bytes) {i : ℕ} (hi : i < g.segments) :
    (readHeader m (g.slot i)).isConsumable = true ↔ i < x.sent.length := by
  have hheader := h.shows.header i (by rw [h.released]; omega) (by rw [h.released]; omega)
  have hkept : ∀ header, MarkStep.checkEnd.applied header = header := fun _ => rfl
  rw [hheader, RingGeometry.expectedHeader]
  simp only [hkept, ite_self]
  by_cases hsent : i < x.sent.length
  · rw [if_pos hsent]
    refine iff_of_true ?_ hsent
    unfold RingGeometry.sentHeader
    split_ifs <;> simp [SegmentHeader.isConsumable, RingGeometry.sentFlags]
  · rw [if_neg hsent]
    exact iff_of_false (by simp [SegmentHeader.isConsumable, RingGeometry.freeHeader]) hsent

theorem ClosedRing.count_consumable {g : RingGeometry} {x : RingState g} {bytes : List UInt8}
    (h : ClosedRing x m bytes) :
    Nat.count (fun i => (readHeader m (g.slot i)).isConsumable = true) g.segments =
      x.sent.length := by
  have hle := x.sent_le
  rw [h.released, Nat.zero_add] at hle
  obtain ⟨rest, hrest⟩ := Nat.exists_eq_add_of_le hle
  have hfull : Nat.count (fun i => (readHeader m (g.slot i)).isConsumable = true)
      x.sent.length = x.sent.length := by
    rw [Nat.count_iff_forall]
    intro i hi
    exact (h.isConsumable_iff (by omega)).mpr hi
  have hnone : Nat.count (fun i =>
      (readHeader m (g.slot (x.sent.length + i))).isConsumable = true) rest = 0 := by
    rw [Nat.count_iff_forall_not]
    intro i hi hconsumable
    have hlt := (h.isConsumable_iff (by omega)).mp hconsumable
    omega
  calc Nat.count (fun i => (readHeader m (g.slot i)).isConsumable = true) g.segments
    _ = Nat.count (fun i => (readHeader m (g.slot i)).isConsumable = true)
        (x.sent.length + rest) := congrArg _ hrest
    _ = x.sent.length := by rw [Nat.count_add, hfull, hnone, Nat.add_zero]

theorem ClosedRing.segmentIn {r : Fin k} {bytes : List UInt8}
    (h : ClosedRing (a.ring r) m bytes) {i : ℕ} (hi : i < (a.ring r).sent.length) :
    b.segmentIn m (r, i) = a.segmentAt (r, i) := by
  obtain ⟨-, -, hcounter, hdata⟩ := h.shows.readSegment h.released hi
  rw [BufferRings.segmentIn, BufferState.segmentAt, hcounter, RingGeometry.dataOffset, hdata]
  simp [hi]

/-- A new iterator is in front of the first round. -/
theorem visiting_start (hreturned : ∀ r, (a.ring r).returned = 0) :
    Visiting a (BufferIterator.ofEntries b.entries).segmentIterators 0 [] := by
  have hlist : (BufferIterator.ofEntries b.entries).segmentIterators =
      .start ((List.finRange k).map fun r => IterHelper.ofEntry (b.ring r).entry r) := by
    simp [BufferIterator.ofEntries, BufferRings.entries, Function.comp_def]
  rw [hlist]
  refine ⟨?_, by simp [Cursor.start], fun h _ => hreturned h.ring⟩
  have hrings : (List.finRange k).map (IterHelper.ring ∘ fun r =>
      IterHelper.ofEntry (b.ring r).entry r) = List.finRange k := List.map_id _
  simp only [Cursor.start, List.reverse_nil, List.map_nil, List.map_map, hrings]
  exact inRound_start

open BufferWriterBW

/-- Closed rings are read in rounds: `next` returns the segments of round 0, of round 1 and so
on, where a round has a segment of every ring that still has one, in ring order; then
`has_next` returns false. Whatever calls the consumer makes, each of them returns. -/
theorem drain_roundRobin (b : BufferRings k) (htype : b.type = .bw)
    (internalBufferSize : Fin k → ℕ) (appends : Fin k → List (List UInt8))
    (hfits : ∀ r, (appends r).flatten.length ≤ (b.ring r).segments * (b.ring r).segmentSize)
    (m : Mem) (schedule : List (RingLabel k)) (hlabels : ∀ label ∈ schedule, label.OfWriter)
    (s : RingSystem BufferWriterBW k)
    (hrun : Schedule.exec (RingSystem.step .bw machine)
      (RingSystem.init b m (b.bandwidthWriters internalBufferSize appends)) schedule = some s)
    (hclosed : ∀ r, (s.writers r).Closed) (fuel : ℕ) (hfuel : b.readSteps ≤ fuel) :
    (∃ m' events, (BufferIterator.ofEntries b.entries).drain .bw fuel s.mem [] =
        some (m', events ++ [.hasNextReturned false]) ∧ .hasNextReturned false ∉ events ∧
      returnedSegments events = (rounds (List.finRange k) (b.consumableSegments s.mem)
        (Finset.univ.sup (b.consumableSegments s.mem))).map (b.segmentIn s.mem) ∧
      (returnedSegments events).length = ∑ r, b.consumableSegments s.mem r) ∧
    ∀ (actions : List IteratorAction) (t : RingSystem BufferWriterBW k),
      Schedule.exec (RingSystem.step .bw machine) s (actions.map .iterator) = some t →
      ∃ n ≤ b.readSteps, ∃ t', Schedule.exec (RingSystem.step .bw machine) t
          (List.replicate n (.iterator .run)) = some t' ∧
        (t'.iterator.pc = .idle ∨ t'.iterator.pc = .ready) := by
  obtain ⟨a, ha⟩ := bandwidth_refines htype (spare_of_fits hfits) m schedule schedule s
    (List.prefix_refl _) hrun
  obtain ⟨hiterator, hblocks⟩ := untouched_of_writers hlabels hrun
  have hnew : s.iterator = .ofEntries b.entries := hiterator
  have hring := ha.closedRing htype (by rw [hiterator]; rfl) hblocks hclosed
  have hallClosed : a.Closed :=
    fun r => ⟨(hring r).fin, List.ne_nil_of_length_pos (hring r).nonempty⟩
  have hwork := b.work_lt_readSteps fun r => (hring r).released
  have sim := bandwidthSim htype fun r => (appends r).flatten
  constructor
  · have hstart : RingSystem.Refines (fun r => Inv (b.ring r) (appends r).flatten)
        ⟨s.mem, s.writers, .ofEntries b.entries, s.log ++ []⟩ a := by
      rw [List.append_nil, ← hnew]
      exact ha
    have hfinds : (BufferIterator.ofEntries b.entries).Finds a :=
      fun h => absurd h (by simp [BufferIterator.ofEntries])
    have hcount : b.consumableSegments s.mem = a.sentCount :=
      funext fun r => (hring r).count_consumable
    obtain ⟨m', events, hdrain, -⟩ := RingSystem.Refines.drain sim htype s.log fuel s.mem
      (.ofEntries b.entries) [] a hstart hallClosed hfinds (hwork.trans_le hfuel)
    obtain ⟨served, rfl, hnot, hserved⟩ := RingSystem.Refines.drain_rounds sim htype s.log fuel
      s.mem (.ofEntries b.entries) [] a 0 [] hstart hallClosed hfinds
      (visiting_start fun r => (hring r).returned) rfl List.not_mem_nil
      (fun r => Finset.le_sup (f := a.sentCount) (Finset.mem_univ r)) hdrain
    refine ⟨m', served, hdrain, hnot, ?_, ?_⟩
    · rw [hserved, hcount]
      apply List.map_congr_left
      rintro ⟨r, i⟩ hmem
      have hlt : i < a.sentCount r := lt_count_of_mem_rounds hmem
      exact ((hring r).segmentIn hlt).symm
    · rw [hserved, List.length_map, length_rounds fun r _ => Finset.le_sup (Finset.mem_univ r),
        hcount, Fin.sum_univ_def]
  · intro actions t hexec
    rw [← htype] at hexec ⊢
    have hfinds : s.iterator.Finds a := by
      rw [hnew]
      exact fun h => absurd h (by simp [BufferIterator.ofEntries])
    obtain ⟨a', h, hle⟩ := Reading.exec sim htype actions s a ⟨ha, hallClosed, hfinds⟩ hexec
    apply Reading.call_returns sim htype _ t a' h
    have hiter := h.refines.1.work_le
    rw [b.work_ofEntries] at hwork
    simp only [Reading.work]
    omega

/-- Two rings with segments of one byte. -/
def bytePair : BufferRings 2 where
  type := .bw
  ring := fun r => ⟨100 * r, 2, 1, Nat.two_pos, by revert r; decide⟩
  counter_fits := by decide
  apart := fun r r' h => by
    unfold Span.Apart
    revert r r'
    decide

/-- One writer fills two segments and closes, the other fills one segment and closes. -/
def unequalRun : List (RingLabel 2) :=
  [RingLabel.writer 0, .nic 0] ++ List.replicate 5 (RingLabel.writer 0) ++
    [RingLabel.nic 0, .nic 0, .writer 0, .nic 0] ++ List.replicate 3 (RingLabel.writer 0) ++
    [RingLabel.nic 0, .nic 0, .writer 0] ++
    [RingLabel.writer 1, .nic 1] ++ List.replicate 5 (RingLabel.writer 1) ++
    [RingLabel.nic 1, .nic 1, .writer 1]

theorem drain_roundRobin_unequal :
    ∃ s, Schedule.exec (RingSystem.step .bw machine)
      (RingSystem.init bytePair (fun _ => 0)
        (bytePair.bandwidthWriters (fun _ => 4) ![[[7, 9]], [[5]]])) unequalRun = some s ∧
    ∃ m' events, (BufferIterator.ofEntries bytePair.entries).drain .bw 76 s.mem [] =
        some (m', events ++ [.hasNextReturned false]) ∧
      returnedSegments events = [(0, 0, [7]), (1, 100, [5]), (0, 25, [9])] := by
  have hend : ((Schedule.exec (RingSystem.step .bw machine)
      (RingSystem.init bytePair (fun _ => 0)
        (bytePair.bandwidthWriters (fun _ => 4) ![[[7, 9]], [[5]]])) unequalRun).map fun s =>
        (decide (∀ r, (s.writers r).pc = .closed ∧ (s.writers r).queue = [] ∧
          (s.writers r).calls = []),
        (rounds (List.finRange 2) (bytePair.consumableSegments s.mem)
          (Finset.univ.sup (bytePair.consumableSegments s.mem))).map (bytePair.segmentIn s.mem))) =
      some (true, [(0, 0, [7]), (1, 100, [5]), (0, 25, [9])]) := by decide +kernel
  obtain ⟨s, hs, heq⟩ := Option.map_eq_some_iff.mp hend
  simp only [Prod.mk.injEq, decide_eq_true_eq] at heq
  obtain ⟨hclosed, horder⟩ := heq
  obtain ⟨⟨m', events, hdrain, -, hrounds, -⟩, -⟩ :=
    drain_roundRobin bytePair rfl (fun _ => 4) ![[[7, 9]], [[5]]] (by decide) (fun _ => 0)
      unequalRun (by simp [unequalRun, RingLabel.OfWriter]) s hs
      (fun r => ⟨Or.inr (hclosed r).1, (hclosed r).2.1, (hclosed r).2.2⟩) 76 (by decide)
  exact ⟨s, hs, m', events, hdrain, hrounds.trans horder⟩

end DpiLibrary
