import DpiLibrary.Dpi.RingRefinement

/-!
# A buffer among others

What a buffer on a node does and does not notice of the others: only writes into its own blocks
matter to it, and its iterator writes nowhere but in the ring on which `next` is running. An
iterator may be created when the writers are already at work.
-/

namespace DpiLibrary

variable {k : ℕ} {ω : Type} {b : BufferRings k} {W : ∀ r, RingState (b.ring r) → Mem → ω → Prop}
  {a : BufferState b} {m m' : Mem} {writers : Fin k → ω} {it it' : BufferIterator k}

/-- The range lies in front of the block or behind it. -/
def Span.Outside (block : Span) (start len : ℕ) : Prop :=
  start + len ≤ block.start ∨ block.start + block.length ≤ start

theorem Span.Apart.outside {block block' : Span} (h : block.Apart block') :
    block.Outside block'.start block'.length := by
  unfold Apart at h
  unfold Outside
  omega

theorem SysInv.frame (rules : WriterRules b W) (hinv : SysInv W a m writers it)
    (hagree : ∀ r, AgreeOn m' m ((b.ring r).block b.type).start ((b.ring r).block b.type).length) :
    SysInv W a m' writers it where
  shows r := (hinv.shows r).frame (b.counter_le r) (hagree r)
  writer r := rules.frame _ _ _ _ _ (hinv.writer r) (hagree r)
  iterator := hinv.iterator

/-- One of the writers is exchanged. -/
theorem SysInv.setWriter (hinv : SysInv W a m writers it) {r : Fin k} {w : ω}
    (hw : W r (a.ring r) m w) : SysInv W a m (Function.update writers r w) it := by
  refine ⟨hinv.shows, fun r' => ?_, hinv.iterator⟩
  by_cases hr : r' = r
  · subst hr
    rwa [Function.update_self]
  · rw [Function.update_of_ne hr]
    exact hinv.writer r'

namespace BufferIterator

/-- A statement of `mark_prev_segment` changes bytes of the segment behind the helper, or the
counter. -/
theorem markStep_outside {type : Buffertype} {h : IterHelper k} {inNext : Bool} {step : MarkStep}
    (hrun : it.markStep type m h inNext step = (m', it')) {start len : ℕ}
    (hprev : ∀ off, h.prev = some off → start + len ≤ off ∨ off + segmentHeaderSize ≤ start)
    (hcredit : step = .credit → start + len ≤ h.counterOffset ∨ h.counterOffset + 8 ≤ start) :
    AgreeOn m' m start len := by
  have hcounter : AgreeOn (h.setPrevCounter m 0).1 m start len := by
    unfold IterHelper.setPrevCounter
    cases hoff : h.prev with
    | none => exact AgreeOn.refl _ _ _
    | some off =>
      have hout := hprev off hoff
      unfold segmentHeaderSize at hout
      exact agreeOn_writeWord (by omega)
  have hflags : ∀ f, AgreeOn (h.modifyPrevFlags m f).1 m start len := by
    intro f
    unfold IterHelper.modifyPrevFlags
    cases hoff : h.prev with
    | none => exact AgreeOn.refl _ _ _
    | some off =>
      have hout := hprev off hoff
      unfold segmentHeaderSize at hout
      exact agreeOn_writeWord (by omega)
  cases step with
  | checkEnd =>
    simp only [markStep] at hrun
    split_ifs at hrun
    · cases hrun
      exact AgreeOn.refl _ _ _
    · cases type <;> cases hrun <;> exact AgreeOn.refl _ _ _
  | checkWriteable =>
    simp only [markStep] at hrun
    split_ifs at hrun <;> cases hrun <;> exact AgreeOn.refl _ _ _
  | counter =>
    cases hrun
    exact hcounter
  | consumable =>
    cases hrun
    exact hflags (SegmentHeader.setConsumable · false)
  | writeable =>
    cases type <;> cases hrun <;> exact hflags (SegmentHeader.setWriteable · true)
  | credit =>
    cases hrun
    exact agreeOn_writeWord (hcredit rfl)

/-- Only the statements of `mark_prev_segment` write to memory. -/
theorem mark_of_ne {type : Buffertype} {action : IteratorAction} {events : List (RingEvent k)}
    (hstep : it.step type m action = some (m', it', events)) (hne : m' ≠ m) :
    ∃ step inNext h it'', action = .run ∧ it.pc = .mark step inNext ∧
      it.segmentIterators.get? = some h ∧ it.markStep type m h inNext step = (m', it'') := by
  cases action with
  | hasNext =>
    simp only [BufferIterator.step] at hstep
    split_ifs at hstep
    cases hstep
    exact absurd rfl hne
  | next =>
    simp only [BufferIterator.step] at hstep
    split at hstep <;> cases hstep
    exact absurd rfl hne
  | run =>
    simp only [BufferIterator.step] at hstep
    split at hstep
    · cases hstep
      exact absurd rfl hne
    · split_ifs at hstep <;> cases hstep <;> exact absurd rfl hne
    · next step inNext h hpc hget =>
      cases hstep
      exact ⟨step, inNext, h, _, rfl, hpc, hget, rfl⟩
    · cases hstep
      exact absurd rfl hne
    · cases hstep
      exact absurd rfl hne
    · cases hstep
      exact absurd rfl hne
    · cases hstep

end BufferIterator

/-- The iterator writes in the ring on which `next` is running, and nowhere else. -/
theorem SysInv.iterator_writes (hinv : SysInv W a m writers it) {action : IteratorAction}
    {events : List (RingEvent k)} (hstep : it.step b.type m action = some (m', it', events))
    {start len : ℕ}
    (hout : ∀ r, a.asked = some r → ((b.ring r).block b.type).Outside start len) :
    AgreeOn m' m start len := by
  by_cases heq : m' = m
  · rw [heq]
    exact AgreeOn.refl _ _ _
  · obtain ⟨step, inNext, h, it'', -, hpc, hget, hrun⟩ := BufferIterator.mark_of_ne hstep heq
    obtain ⟨⟨bs, as⟩, pc⟩ := it
    cases as with
    | nil => simp at hget
    | cons h' as =>
      simp only [Cursor.get?_cons, Option.some.injEq] at hget hpc
      subst hget hpc
      obtain ⟨hhelper, hphase, hshows, hasked⟩ := hinv.current
      cases inNext with
      | false =>
        -- the segment behind the helper is the final one, which is left as it is
        obtain ⟨hrel, rfl, hpos, hdrained⟩ := hphase
        have hend := (isEndSegment_prevHeader hhelper hshows hrel).mpr ⟨hpos, hdrained⟩
        simp only [BufferIterator.markStep, hend, if_true] at hrun
        cases hrun
        exact absurd rfl heq
      | true =>
        obtain ⟨hrel, hsent, hallowed⟩ := hphase
        have hring := hout h'.ring hasked
        have hc := b.counter_fits h'.ring
        simp only [Span.Outside, RingGeometry.block] at hring
        apply BufferIterator.markStep_outside hrun
        · intro off hprev
          obtain ⟨-, rfl⟩ := hhelper.prev_held hrel hprev
          have hlo := (b.ring h'.ring).le_slot (a.ring h'.ring).released
          have hhi := (b.ring h'.ring).slot_add_fullSize_le (a.ring h'.ring).released
          unfold RingGeometry.fullSize at hhi hring
          omega
        · rintro rfl
          obtain ⟨htype, -⟩ := hallowed
          rw [hhelper.counterOffset htype]
          simp only [htype, NodeServer.counterSize] at hring hc
          omega

/-- Events of the consumer's own calls. -/
def RingEvent.isCall : RingEvent k → Bool
  | .madeConsumable _ => false
  | _ => true

/-- The iterator makes calls only. -/
theorem BufferIterator.isCall_of_step {type : Buffertype} {action : IteratorAction}
    {events : List (RingEvent k)} (hstep : it.step type m action = some (m', it', events)) :
    ∀ e ∈ events, e.isCall = true := by
  cases action with
  | hasNext =>
    simp only [BufferIterator.step] at hstep
    split_ifs at hstep
    cases hstep
    simp
  | next =>
    simp only [BufferIterator.step] at hstep
    split at hstep <;> cases hstep
    simp [RingEvent.isCall]
  | run =>
    simp only [BufferIterator.step] at hstep
    split at hstep
    · cases hstep
      unfold BufferIterator.loopStep
      dsimp only
      split
      · simp [RingEvent.isCall]
      · split_ifs <;> simp
    · split_ifs at hstep <;> cases hstep <;> simp [RingEvent.isCall]
    · cases hstep
      simp
    · cases hstep
      simp
    · cases hstep
      simp
    · cases hstep
      simp [RingEvent.isCall]
    · cases hstep

namespace RingSystem

theorem calls_concat (log : List (RingEvent k)) (e : RingEvent k) :
    (log ++ [e]).filter RingEvent.isCall =
      if e.isCall then log.filter RingEvent.isCall ++ [e] else log.filter RingEvent.isCall := by
  rw [List.filter_append, List.filter_singleton]
  cases e.isCall <;> simp

/-- What has been returned and what is lent follows from the calls. -/
theorem returnedBlocks_calls (log : List (RingEvent k)) (r : Fin k) :
    returnedBlocks (log.filter RingEvent.isCall) r = returnedBlocks log r := by
  induction log using List.reverseRecOn with
  | nil => rfl
  | append_singleton log e ih =>
    rw [calls_concat]
    cases e <;> simp [RingEvent.isCall, ih]

theorem lentSegment_calls (log : List (RingEvent k)) (r : Fin k) :
    lentSegment (log.filter RingEvent.isCall) r = lentSegment log r := by
  induction log using List.reverseRecOn with
  | nil => rfl
  | append_singleton log e ih =>
    rw [calls_concat]
    cases e <;> simp [RingEvent.isCall, ih]

theorem lentSegment_of_no_calls {log : List (RingEvent k)} (h : ∀ e ∈ log, e.isCall = false)
    (r : Fin k) : lentSegment log r = none := by
  have hfilter : log.filter RingEvent.isCall = [] := by simpa using h
  rw [← lentSegment_calls, hfilter]
  rfl

theorem freshlyConsumable_of_no_calls {log : List (RingEvent k)} (h : ∀ e ∈ log, e.isCall = false)
    {offset : ℕ} (hmem : .madeConsumable offset ∈ log) : freshlyConsumable log offset = true := by
  induction log using List.reverseRecOn with
  | nil => cases hmem
  | append_singleton log e ih =>
    have he := h e (by simp)
    have ih := ih fun e' he' => h e' (by simp [he'])
    cases e with
    | madeConsumable off =>
      rw [freshlyConsumable_concat]
      by_cases heq : off = offset
      · simp [heq]
      · have hold : .madeConsumable offset ∈ log := by simpa [Ne.symm heq] using hmem
        simp [ih hold]
    | _ => cases he

/-- The headers that had arrived before an iterator was created. -/
def arrivals (x : ∀ r, RingState (b.ring r)) : List (RingEvent k) :=
  (List.finRange k).flatMap fun r =>
    (List.range (x r).sent.length).map fun j => .madeConsumable ((b.ring r).slot j)

theorem isCall_of_mem_arrivals {x : ∀ r, RingState (b.ring r)} {e : RingEvent k}
    (h : e ∈ arrivals x) : e.isCall = false := by
  simp only [arrivals, List.mem_flatMap, List.mem_map] at h
  obtain ⟨r, -, j, -, rfl⟩ := h
  rfl

variable {x : ∀ r, RingState (b.ring r)}

theorem logInv_arrivals (hreturned : ∀ r, (x r).returned = 0) :
    LogInv (b := b) ⟨x, none⟩ (arrivals x) := by
  have hcalls : ∀ e ∈ arrivals x, e.isCall = false := fun e he => isCall_of_mem_arrivals he
  have hfilter : (arrivals x).filter RingEvent.isCall = [] := by simpa using hcalls
  have hblocks : ∀ r, returnedBlocks (arrivals x) r = [] := by
    intro r
    rw [← returnedBlocks_calls, hfilter]
    rfl
  refine ⟨fun r _ => ?_, fun r => ?_, fun r offset hlent => ?_, fun r j hj hsent => ?_,
    fun pre r offset data hpre => ?_, fun hmem => ?_⟩
  · rw [hblocks, LaggedRing.delivered, hreturned, List.take_zero]
  · rw [hblocks, hreturned]
    rfl
  · rw [lentSegment_of_no_calls hcalls] at hlent
    cases hlent
  · apply freshlyConsumable_of_no_calls hcalls
    simp only [arrivals, List.mem_flatMap, List.mem_map]
    exact ⟨r, List.mem_finRange r, j, List.mem_range.mpr hsent, rfl⟩
  · have hcall := hcalls (.nextReturned r offset data) (hpre.subset (by simp))
    cases hcall
  · have hcall := hcalls _ hmem
    cases hcall

/-- An iterator is created on rings from which nothing has been taken yet. -/
theorem refines_opened (hreturned : ∀ r, (x r).returned = 0)
    (hshows : ∀ r, (b.ring r).Shows b.type (x r) .checkEnd m)
    (hwriters : ∀ r, W r (x r) m (writers r)) :
    Refines W ⟨m, writers, .ofEntries b.entries, arrivals x⟩ (⟨x, none⟩ : BufferState b) := by
  have hstart := b.iterInv_start
  have hlist : (BufferIterator.ofEntries b.entries).segmentIterators.toList.map IterHelper.ring =
      List.finRange k := by
    simp [BufferIterator.ofEntries, BufferRings.entries, IterHelper.ofEntry, Function.comp_def]
  have hidle : ∀ r, (BufferIterator.ofEntries b.entries).pcAt r = .idle := by
    intro r
    unfold BufferIterator.pcAt
    split
    · split_ifs <;> rfl
    · rfl
  have hreleased : ∀ r, (x r).released = 0 := by
    intro r
    have hle := (x r).released_le
    rw [hreturned] at hle
    exact Nat.le_zero.mp hle
  refine ⟨⟨fun r => ?_, hwriters, hstart.nodup, fun h hh => ?_, fun h hh => ?_, fun r hr => ?_,
    rfl, hstart.atEnd⟩, logInv_arrivals hreturned⟩
  · rw [hidle]
    exact hshows r
  · obtain ⟨hiter, hprev, hsentinel, hunmarked, hcounter⟩ := hstart.helper h hh
    exact ⟨by rw [hreturned]; exact hiter, by rw [hreturned]; exact hprev, hsentinel, hunmarked,
      hcounter⟩
  · rw [hidle]
    show (x h.ring).released = (x h.ring).returned - 1
    rw [hreleased, hreturned]
  · rw [hlist] at hr
    exact absurd (List.mem_finRange r) hr

end RingSystem
end DpiLibrary
