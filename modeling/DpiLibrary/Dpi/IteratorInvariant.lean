import DpiLibrary.Dpi.RingProtocol

/-!
# The iterator refines the protocol

The invariant ties the concrete system to a state of the abstract protocol: memory
shows it, each helper points at the segment to be returned next, and the program
counter of the current ring says how far a call is. Every step of the iterator is a
move of the protocol, whatever the kind of writer, as long as the writers' own
invariant survives the iterator's writes.
-/

namespace DpiLibrary

variable {k : ℕ}

namespace IteratorPc

/-- How much of the segment held is reset. -/
def stage : IteratorPc → MarkStep
  | .mark step true => step
  | _ => .checkEnd

/-- Inside `next`. -/
def inNext : IteratorPc → Bool
  | .mark _ inNext => inNext
  | .getRawData => true
  | .advance _ => true
  | _ => false

end IteratorPc

/-- The bandwidth iterator has no `checkWriteable` and no `credit`; the latency iterator
passes over the sentinel. -/
def MarkAllowed (type : Buffertype) (returned : ℕ) : MarkStep → Prop
  | .checkEnd => True
  | .checkWriteable => type = .lat
  | .counter => type = .lat → 0 < returned
  | .consumable => type = .lat → 0 < returned
  | .writeable => type = .lat → 0 < returned
  | .credit => type = .lat ∧ 0 < returned

/-- What the program counter says about the ring it is at. -/
def Phase (type : Buffertype) {g : RingGeometry} (x : RingState g) : IteratorPc → Prop
  | .idle => x.released = x.returned - 1
  | .loop => x.released = x.returned - 1
  | .testConsumable => x.released = x.returned - 1 ∧ x.returned < x.released + g.segments
  | .ready => x.released = x.returned - 1 ∧ x.returned < x.sent.length
  | .mark step true => x.released = x.returned - 1 ∧ x.returned < x.sent.length ∧
    MarkAllowed type x.returned step
  | .mark step false => x.released = x.returned - 1 ∧ step = .checkEnd ∧ 0 < x.returned ∧
    x.fin = true ∧ x.returned = x.sent.length
  | .erase => x.fin = true ∧ x.returned = x.sent.length
  | .getRawData => x.released = x.returned ∧ x.returned < x.sent.length
  | .advance size => x.released = x.returned ∧ x.returned < x.sent.length ∧
    (size = (x.sent.getD x.returned []).length ∨ type = .lat ∧ size = g.segmentSize)

/-- Where a helper points. -/
structure HelperInv (type : Buffertype) {g : RingGeometry} (x : RingState g) (h : IterHelper k) :
    Prop where
  iter : h.iter = g.slot x.returned
  prev : h.prev = if x.returned = 0 then none else some (g.slot (x.returned - 1))
  sentinel : h.sentinel.isEndSegment = false
  unmarked : type = .lat → h.sentinel.isWriteable = false
  counterOffset : type = .lat → h.counterOffset = g.entry - 8

namespace BufferIterator

/-- The program counter as seen from one ring. -/
def pcAt (it : BufferIterator k) (r : Fin k) : IteratorPc :=
  match it.segmentIterators.get? with
  | some h => if h.ring = r then it.pc else .idle
  | none => .idle

/-- The ring on which `next` is running. -/
def askedRing (it : BufferIterator k) : Option (Fin k) :=
  if it.pc.inNext then it.segmentIterators.get?.map IterHelper.ring else none

@[simp] theorem pcAt_cons (bs as : List (IterHelper k)) (h : IterHelper k) (pc : IteratorPc)
    (r : Fin k) : pcAt ⟨⟨bs, h :: as⟩, pc⟩ r = if h.ring = r then pc else .idle := rfl

end BufferIterator

structure IterInv {b : BufferRings k} (a : BufferState b) (it : BufferIterator k) : Prop where
  nodup : (it.segmentIterators.toList.map IterHelper.ring).Nodup
  helper : ∀ h ∈ it.segmentIterators.toList, HelperInv b.type (a.ring h.ring) h
  phase : ∀ h ∈ it.segmentIterators.toList, Phase b.type (a.ring h.ring) (it.pcAt h.ring)
  erased : ∀ r, r ∉ it.segmentIterators.toList.map IterHelper.ring → a.Drained r
  asked : a.asked = it.askedRing
  atEnd : it.segmentIterators.get? = none → it.pc = .idle ∨ it.pc = .loop

/-- What a kind of writer has to guarantee of its invariant: it survives what the other
rings do and what the iterator does to the ring. -/
structure WriterRules {ω : Type} (b : BufferRings k)
    (W : ∀ r, RingState (b.ring r) → Mem → ω → Prop) : Prop where
  window : ∀ r x m w, W r x m w → x.returned < x.released + (b.ring r).segments ∨
    x.fin = true ∧ x.returned = x.sent.length
  frame : ∀ r x m m' w, W r x m w →
    AgreeOn m' m ((b.ring r).block b.type).start ((b.ring r).block b.type).length → W r x m' w
  mark : ∀ r x m m' w, W r x m w → x.returned = x.released + 1 → x.returned < x.sent.length →
    (∀ start len, start + len ≤ (b.ring r).slot x.released ∨
      (b.ring r).dataOffset x.released ≤ start → AgreeOn m' m start len) → W r x m' w
  release : ∀ r x m m' w (hsent : x.returned < x.sent.length), W r x m w →
    x.returned = x.released + 1 →
    (∀ start len, (b.ring r).entry ≤ start → AgreeOn m' m start len) →
    (b.type = .lat → readWord m ((b.ring r).entry - 8) + 1 < sizeTBound ∧
      readWord m' ((b.ring r).entry - 8) = readWord m ((b.ring r).entry - 8) + 1) →
    W r (x.release hsent) m' w
  take : ∀ r x m w (hrel : x.released = x.returned) (hsent : x.returned < x.sent.length),
    W r x m w → W r (x.take hrel hsent) m w

/-- The concrete system and the protocol state it is in. -/
structure SysInv {ω : Type} {b : BufferRings k} (W : ∀ r, RingState (b.ring r) → Mem → ω → Prop)
    (a : BufferState b) (m : Mem) (writers : Fin k → ω) (it : BufferIterator k) : Prop where
  shows : ∀ r, (b.ring r).Shows b.type (a.ring r) (it.pcAt r).stage m
  writer : ∀ r, W r (a.ring r) m (writers r)
  iterator : IterInv a it

theorem BufferRings.counter_le (b : BufferRings k) (r : Fin k) :
    b.type = .lat → 8 ≤ (b.ring r).entry := by
  intro htype
  have hfits := b.counter_fits r
  rwa [htype] at hfits

section

variable {ω : Type} {b : BufferRings k} {W : ∀ r, RingState (b.ring r) → Mem → ω → Prop}
  {a : BufferState b} {m m' : Mem} {writers : Fin k → ω}

/-- Between calls the position in the list can change freely. -/
theorem SysInv.rest {c c' : Cursor (IterHelper k)} {pc pc' : IteratorPc}
    (h : SysInv W a m writers ⟨c, pc⟩) (hlist : c'.toList = c.toList)
    (hpc : pc = .idle ∨ pc = .loop ∨ pc = .testConsumable ∨ pc = .ready)
    (hpc' : pc' = .idle ∨ pc' = .loop) : SysInv W a m writers ⟨c', pc'⟩ := by
  have hstage : ∀ (it : BufferIterator k) r, it.pc = pc ∨ it.pc = pc' →
      (it.pcAt r).stage = .checkEnd := by
    intro it r hit
    unfold BufferIterator.pcAt
    split
    · split_ifs
      · rcases hit with hit | hit <;> rw [hit]
        · rcases hpc with rfl | rfl | rfl | rfl <;> rfl
        · rcases hpc' with rfl | rfl <;> rfl
      · rfl
    · rfl
  have hphase : ∀ {g : RingGeometry} (x : RingState g) r,
      Phase b.type x (BufferIterator.pcAt ⟨c, pc⟩ r) → x.released = x.returned - 1 := by
    intro g x r
    unfold BufferIterator.pcAt
    split
    · split_ifs
      · rcases hpc with rfl | rfl | rfl | rfl
        · exact id
        · exact id
        · exact And.left
        · exact And.left
      · exact id
    · exact id
  refine ⟨fun r => ?_, h.writer, ?_, ?_, ?_, ?_, ?_, fun _ => hpc'⟩
  · rw [hstage _ r (Or.inr rfl), ← hstage ⟨c, pc⟩ r (Or.inl rfl)]
    exact h.shows r
  · rw [hlist]
    exact h.iterator.nodup
  · rw [hlist]
    exact h.iterator.helper
  · intro x hx
    have hmem : x ∈ c.toList := hlist ▸ hx
    have hold := hphase _ _ (h.iterator.phase x hmem)
    unfold BufferIterator.pcAt
    split
    · split_ifs
      · rcases hpc' with rfl | rfl <;> exact hold
      · exact hold
    · exact hold
  · intro r hr
    refine h.iterator.erased r ?_
    rwa [← hlist]
  · rw [h.iterator.asked]
    unfold BufferIterator.askedRing
    rcases hpc with rfl | rfl | rfl | rfl <;> rcases hpc' with rfl | rfl <;> rfl

/-- A step on the current ring: the other rings see no change. -/
theorem SysInv.put (rules : WriterRules b W) {bs as : List (IterHelper k)} {h h' : IterHelper k}
    {pc : IteratorPc} (hinv : SysInv W a m writers ⟨⟨bs, h :: as⟩, pc⟩)
    (hring : h'.ring = h.ring) (pc' : IteratorPc) (x : RingState (b.ring h.ring))
    (asked : Option (Fin k))
    (hagree : ∀ r, r ≠ h.ring →
      AgreeOn m' m ((b.ring r).block b.type).start ((b.ring r).block b.type).length)
    (hshows : (b.ring h.ring).Shows b.type x pc'.stage m')
    (hwriter : W h.ring x m' (writers h.ring)) (hhelper : HelperInv b.type x h')
    (hphase : Phase b.type x pc') (hasked : asked = if pc'.inNext then some h.ring else none) :
    SysInv W { a.set h.ring x with asked } m' writers ⟨⟨bs, h' :: as⟩, pc'⟩ := by
  have hothers : ∀ r, r ≠ h.ring →
      ({ a.set h.ring x with asked } : BufferState b).ring r = a.ring r :=
    fun r hr => BufferState.set_ring_of_ne a hr x
  have hself : ({ a.set h.ring x with asked } : BufferState b).ring h.ring = x :=
    BufferState.set_ring_self a h.ring x
  have hidle : ∀ r, r ≠ h.ring → BufferIterator.pcAt ⟨⟨bs, h' :: as⟩, pc'⟩ r = .idle ∧
      BufferIterator.pcAt ⟨⟨bs, h :: as⟩, pc⟩ r = .idle := by
    intro r hr
    simp [hring, Ne.symm hr]
  have hpc' : BufferIterator.pcAt ⟨⟨bs, h' :: as⟩, pc'⟩ h.ring = pc' := by simp [hring]
  have hnodup := hinv.iterator.nodup
  simp only [Cursor.toList_mk, List.map_append, List.map_cons] at hnodup
  have hne : ∀ x ∈ bs.reverse ++ as, x.ring ≠ h.ring := by
    intro y hy heq
    have hperm := (List.perm_middle.nodup_iff.mp hnodup)
    refine (List.nodup_cons.mp hperm).1 ?_
    rw [← List.map_append, ← heq]
    exact List.mem_map_of_mem hy
  have hold : ∀ y ∈ bs.reverse ++ as, y ∈ bs.reverse ++ h :: as := by
    intro y hy
    simp only [List.mem_append, List.mem_cons] at hy ⊢
    tauto
  refine ⟨fun r => ?_, fun r => ?_, ?_, fun y hy => ?_, fun y hy => ?_, fun r hr => ?_, ?_, ?_⟩
  · by_cases hr : r = h.ring
    · subst hr
      rw [hself, hpc']
      exact hshows
    · rw [hothers r hr, (hidle r hr).1, ← (hidle r hr).2]
      exact (hinv.shows r).frame (b.counter_le r) (hagree r hr)
  · by_cases hr : r = h.ring
    · subst hr
      rw [hself]
      exact hwriter
    · rw [hothers r hr]
      exact rules.frame _ _ _ _ _ (hinv.writer r) (hagree r hr)
  · simpa only [Cursor.toList_mk, List.map_append, List.map_cons, hring] using hnodup
  · have hy' : y = h' ∨ y ∈ bs.reverse ++ as := by
      simp only [Cursor.toList_mk, List.mem_append, List.mem_cons] at hy ⊢
      tauto
    rcases hy' with rfl | hy'
    · rw [hring, hself]
      exact hhelper
    · rw [hothers _ (hne y hy')]
      exact hinv.iterator.helper y (hold y hy')
  · have hy' : y = h' ∨ y ∈ bs.reverse ++ as := by
      simp only [Cursor.toList_mk, List.mem_append, List.mem_cons] at hy ⊢
      tauto
    rcases hy' with rfl | hy'
    · rw [hring, hself, hpc']
      exact hphase
    · have hyne := hne y hy'
      have hphase' := hinv.iterator.phase y (hold y hy')
      rw [(hidle _ hyne).2] at hphase'
      rw [hothers _ hyne, (hidle _ hyne).1]
      exact hphase'
  · have hr' : r ∉ (bs.reverse ++ h :: as).map IterHelper.ring := by
      simpa only [Cursor.toList_mk, List.map_append, List.map_cons, hring] using hr
    have hrne : r ≠ h.ring := by
      rintro rfl
      exact hr' (by simp)
    have hdrained := hinv.iterator.erased r hr'
    unfold BufferState.Drained at hdrained ⊢
    rwa [hothers r hrne]
  · rw [hasked]
    unfold BufferIterator.askedRing
    simp only [Cursor.get?_cons, Option.map_some, hring]
  · intro hnone
    simp at hnone

/-- A step on the current ring that changes neither memory nor the protocol state. -/
theorem SysInv.stay (rules : WriterRules b W) {bs as : List (IterHelper k)} {h : IterHelper k}
    {pc pc' : IteratorPc} (hinv : SysInv W a m writers ⟨⟨bs, h :: as⟩, pc⟩)
    (hstage : (b.ring h.ring).Shows b.type (a.ring h.ring) pc.stage m →
      (b.ring h.ring).Shows b.type (a.ring h.ring) pc'.stage m)
    (hphase : Phase b.type (a.ring h.ring) pc → Phase b.type (a.ring h.ring) pc')
    (hnext : pc'.inNext = pc.inNext) : SysInv W a m writers ⟨⟨bs, h :: as⟩, pc'⟩ := by
  have hpc : BufferIterator.pcAt ⟨⟨bs, h :: as⟩, pc⟩ h.ring = pc := by simp
  have hmem : h ∈ (Cursor.mk bs (h :: as)).toList := by simp
  have hshows := hinv.shows h.ring
  have hph := hinv.iterator.phase h hmem
  have hasked := hinv.iterator.asked
  rw [hpc] at hshows hph
  simp only [BufferIterator.askedRing, Cursor.get?_cons, Option.map_some] at hasked
  have hput := hinv.put rules rfl pc' (a.ring h.ring) a.asked (fun r _ => AgreeOn.refl _ _ _)
    (hstage hshows) (hinv.writer h.ring) (hinv.iterator.helper h hmem) (hphase hph)
    (by rw [hasked, hnext])
  rwa [BufferState.set_self] at hput

/-- A mark changes nothing of the list but the sentinel of the current helper. -/
theorem BufferIterator.markStep_cursor (type : Buffertype) (m : Mem) (bs as : List (IterHelper k))
    (h : IterHelper k) (step : MarkStep) (inNext : Bool) :
    ∃ m' h' pc', BufferIterator.markStep type m ⟨⟨bs, h :: as⟩, .mark step inNext⟩ h inNext step =
      (m', ⟨⟨bs, h' :: as⟩, pc'⟩) ∧ h'.ring = h.ring := by
  have hcounter : (h.setPrevCounter m 0).2.ring = h.ring := by
    unfold IterHelper.setPrevCounter
    split <;> rfl
  have hflags : ∀ f, (h.modifyPrevFlags m f).2.ring = h.ring := by
    intro f
    unfold IterHelper.modifyPrevFlags
    split <;> rfl
  cases step with
  | checkEnd =>
    simp only [BufferIterator.markStep]
    split_ifs
    · exact ⟨m, h, _, rfl, rfl⟩
    · cases type <;> exact ⟨m, h, _, rfl, rfl⟩
  | checkWriteable =>
    simp only [BufferIterator.markStep]
    split_ifs <;> exact ⟨m, h, _, rfl, rfl⟩
  | counter => exact ⟨_, _, _, rfl, hcounter⟩
  | consumable => exact ⟨_, _, _, rfl, hflags (SegmentHeader.setConsumable · false)⟩
  | writeable => cases type <;> exact ⟨_, _, _, rfl, hflags (SegmentHeader.setWriteable · true)⟩
  | credit => exact ⟨_, h, _, rfl, rfl⟩

/-- A statement that changes the segment held, or the sentinel if there is none. -/
structure PrevWrite (m m' : Mem) (h h' : IterHelper k) (f : SegmentHeader → SegmentHeader) :
    Prop where
  none : h.prev = none → m' = m ∧ h' = { h with sentinel := f h.sentinel }
  some : ∀ off, h.prev = some off → h' = h ∧ readHeader m' off = f (readHeader m off) ∧
    ∀ start len, start + len ≤ off ∨ off + segmentHeaderSize ≤ start → AgreeOn m' m start len

theorem prevWrite_setPrevCounter (m : Mem) (h : IterHelper k) :
    PrevWrite m (h.setPrevCounter m 0).1 h (h.setPrevCounter m 0).2
      (fun y => { y with counter := 0 }) := by
  refine ⟨fun hprev => by simp [IterHelper.setPrevCounter, hprev], fun off hprev => ?_⟩
  simp only [IterHelper.setPrevCounter, hprev]
  refine ⟨trivial, readHeader_setCounterAt m off (Nat.two_pow_pos 64), fun start len hout => ?_⟩
  unfold segmentHeaderSize at hout
  exact agreeOn_writeWord (by omega)

theorem prevWrite_modifyPrevFlags (m : Mem) (h : IterHelper k)
    (f : SegmentHeader → SegmentHeader)
    (hf : ∀ y, f y = { y with segmentFlags := (f y).segmentFlags })
    (hfits : ∀ off, h.prev = some off → (f (readHeader m off)).segmentFlags < sizeTBound) :
    PrevWrite m (h.modifyPrevFlags m f).1 h (h.modifyPrevFlags m f).2 f := by
  refine ⟨fun hprev => by simp [IterHelper.modifyPrevFlags, hprev], fun off hprev => ?_⟩
  simp only [IterHelper.modifyPrevFlags, hprev]
  refine ⟨trivial, ?_, fun start len hout => ?_⟩
  · rw [readHeader_modifyFlagsAt m off (hfits off hprev)]
    exact (hf _).symm
  · unfold segmentHeaderSize at hout
    exact agreeOn_writeWord (by omega)

/-- A reset statement on the segment held keeps all that is known, with the next stage. -/
theorem SysInv.prevWrite (rules : WriterRules b W) {bs as : List (IterHelper k)}
    {h h' : IterHelper k} {step : MarkStep} (step' : MarkStep)
    {f : SegmentHeader → SegmentHeader}
    (hinv : SysInv W a m writers ⟨⟨bs, h :: as⟩, .mark step true⟩)
    (hallowed : b.type = .lat → 0 < (a.ring h.ring).returned) (hwrite : PrevWrite m m' h h' f)
    (hf : ∀ y, step'.applied y = f (step.applied y))
    (hend : ∀ y, (f y).isEndSegment = y.isEndSegment) :
    h'.ring = h.ring ∧ HelperInv b.type (a.ring h.ring) h' ∧
      (b.ring h.ring).Shows b.type (a.ring h.ring) step' m' ∧
      W h.ring (a.ring h.ring) m' (writers h.ring) ∧
      ∀ r, r ≠ h.ring →
        AgreeOn m' m ((b.ring r).block b.type).start ((b.ring r).block b.type).length := by
  have hmem : h ∈ (Cursor.mk bs (h :: as)).toList := by simp
  have hhelper := hinv.iterator.helper h hmem
  have hshows := hinv.shows h.ring
  have hphase := hinv.iterator.phase h hmem
  simp only [BufferIterator.pcAt_cons, if_true, IteratorPc.stage, Phase] at hshows hphase
  have hprev := hhelper.prev
  by_cases hzero : (a.ring h.ring).returned = 0
  · rw [if_pos hzero] at hprev
    obtain ⟨rfl, rfl⟩ := hwrite.none hprev
    refine ⟨rfl, ⟨hhelper.iter, hhelper.prev, ?_, fun htype => ?_, hhelper.counterOffset⟩,
      hshows.stage_congr (Or.inl (by omega)), hinv.writer h.ring, fun r _ => AgreeOn.refl _ _ _⟩
    · rw [hend]
      exact hhelper.sentinel
    · have := hallowed htype
      omega
  · have hheld : (a.ring h.ring).returned = (a.ring h.ring).released + 1 := by omega
    have hrel : (a.ring h.ring).returned - 1 = (a.ring h.ring).released := by omega
    rw [if_neg hzero, hrel] at hprev
    obtain ⟨rfl, hread, hout⟩ := hwrite.some _ hprev
    refine ⟨rfl, hhelper, hshows.mark hheld hout ?_ (b.counter_le _),
      rules.mark _ _ _ _ _ (hinv.writer h'.ring) hheld hphase.2.1 hout, fun r hr => ?_⟩
    · rw [hread, hshows.readHeader_held hheld, hf]
    · have hap := b.apart r h'.ring hr
      have hc := b.counter_fits h'.ring
      have hlo := (b.ring h'.ring).le_slot (a.ring h'.ring).released
      have hhi := (b.ring h'.ring).slot_add_fullSize_le (a.ring h'.ring).released
      apply hout
      simp only [Span.Apart, RingGeometry.block] at hap ⊢
      unfold RingGeometry.fullSize at hhi hap ⊢
      omega

/-- Between calls, the segment held is the final one exactly when the ring is drained. -/
theorem isEndSegment_prevHeader {g : RingGeometry} {type : Buffertype} {x : RingState g}
    {h : IterHelper k} (hhelper : HelperInv type x h) (hshows : g.Shows type x .checkEnd m)
    (hrel : x.released = x.returned - 1) :
    (h.prevHeader m).isEndSegment = true ↔
      0 < x.returned ∧ x.fin = true ∧ x.returned = x.sent.length := by
  have hprev := hhelper.prev
  unfold IterHelper.prevHeader
  by_cases hzero : x.returned = 0
  · rw [if_pos hzero] at hprev
    rw [hprev]
    refine iff_of_false (by simp [hhelper.sentinel]) (by omega)
  · have hheld : x.returned = x.released + 1 := by omega
    have hslot : x.returned - 1 = x.released := by omega
    rw [if_neg hzero, hslot] at hprev
    rw [hprev]
    simp only [hshows.readHeader_held hheld, MarkStep.applied,
      RingGeometry.isEndSegment_sentHeader, ← hheld]
    constructor
    · exact fun hend => ⟨by omega, hend⟩
    · exact And.right

theorem mem_toList_cons (bs as : List (IterHelper k)) (h : IterHelper k) :
    h ∈ (Cursor.mk bs (h :: as)).toList := by simp

/-- What the invariant says of the current ring. -/
theorem SysInv.current {bs as : List (IterHelper k)} {h : IterHelper k} {pc : IteratorPc}
    (hinv : SysInv W a m writers ⟨⟨bs, h :: as⟩, pc⟩) :
    HelperInv b.type (a.ring h.ring) h ∧ Phase b.type (a.ring h.ring) pc ∧
      (b.ring h.ring).Shows b.type (a.ring h.ring) pc.stage m ∧
      a.asked = if pc.inNext then some h.ring else none := by
  have hmem := mem_toList_cons bs as h
  have hphase := hinv.iterator.phase h hmem
  have hshows := hinv.shows h.ring
  have hasked := hinv.iterator.asked
  simp only [BufferIterator.pcAt_cons, if_true] at hphase hshows
  simp only [BufferIterator.askedRing, Cursor.get?_cons, Option.map_some] at hasked
  exact ⟨hinv.iterator.helper h hmem, hphase, hshows, hasked⟩

/-- The two tests that open `mark_prev_segment` inside `next`. -/
theorem SysInv.markTests (rules : WriterRules b W) {bs as : List (IterHelper k)}
    {h : IterHelper k} {step : MarkStep}
    (hinv : SysInv W a m writers ⟨⟨bs, h :: as⟩, .mark step true⟩)
    (hstep : step = .checkEnd ∨ step = .checkWriteable) {m' : Mem} {it' : BufferIterator k}
    (hrun : BufferIterator.markStep b.type m ⟨⟨bs, h :: as⟩, .mark step true⟩ h true step =
      (m', it')) : SysInv W a m' writers it' := by
  obtain ⟨hhelper, hphase, hshows, -⟩ := hinv.current
  obtain ⟨hrel, hsent, hallowed⟩ := hphase
  rcases hstep with rfl | rfl
  · have hend : (h.prevHeader m).isEndSegment = false := by
      rw [Bool.eq_false_iff]
      intro hend
      have := (isEndSegment_prevHeader hhelper hshows hrel).mp hend
      omega
    simp only [BufferIterator.markStep, hend, Bool.false_eq_true, if_false] at hrun
    cases htype : b.type with
    | bw =>
      simp only [htype, Prod.mk.injEq] at hrun
      obtain ⟨rfl, rfl⟩ := hrun
      refine hinv.stay rules (fun h => h.stage_congr (Or.inr fun _ => rfl)) ?_ rfl
      exact fun _ => ⟨hrel, hsent, fun hlat => by simp [htype] at hlat⟩
    | lat =>
      simp only [htype, Prod.mk.injEq] at hrun
      obtain ⟨rfl, rfl⟩ := hrun
      refine hinv.stay rules (fun h => h.stage_congr (Or.inr fun _ => rfl)) ?_ rfl
      exact fun _ => ⟨hrel, hsent, htype⟩
  · have hlat : b.type = .lat := hallowed
    by_cases hzero : (a.ring h.ring).returned = 0
    · have hprev := hhelper.prev
      rw [if_pos hzero] at hprev
      have hw : (h.prevHeader m).isWriteable = false := by
        simp only [IterHelper.prevHeader, hprev]
        exact hhelper.unmarked hlat
      simp only [BufferIterator.markStep, hw, Bool.false_eq_true, if_false,
        BufferIterator.afterMark, if_true, Prod.mk.injEq] at hrun
      obtain ⟨rfl, rfl⟩ := hrun
      refine hinv.stay rules (fun h => h.stage_congr (Or.inr fun _ => rfl)) ?_ rfl
      exact fun _ => ⟨by omega, hsent⟩
    · have hheld : (a.ring h.ring).returned = (a.ring h.ring).released + 1 := by omega
      have hslot : (a.ring h.ring).returned - 1 = (a.ring h.ring).released := by omega
      have hprev := hhelper.prev
      rw [if_neg hzero, hslot] at hprev
      have hw : (h.prevHeader m).isWriteable = true := by
        simp only [IterHelper.prevHeader, hprev, hshows.readHeader_held hheld]
        simp only [IteratorPc.stage, MarkStep.applied, hlat]
        exact RingGeometry.isWriteable_sentHeader (by omega)
      simp only [BufferIterator.markStep, hw, if_true, Prod.mk.injEq] at hrun
      obtain ⟨rfl, rfl⟩ := hrun
      refine hinv.stay rules (fun h => h.stage_congr (Or.inr fun _ => rfl)) ?_ rfl
      exact fun _ => ⟨hrel, hsent, fun _ => by omega⟩

/-- The held segment goes back to the writer; without one, nothing happens. -/
theorem SysInv.releaseHeld (rules : WriterRules b W) {bs as : List (IterHelper k)}
    {h h' : IterHelper k} {step : MarkStep}
    (hinv : SysInv W a m writers ⟨⟨bs, h :: as⟩, .mark step true⟩) {m₁ : Mem}
    (hring : h'.ring = h.ring) (hhelper : HelperInv b.type (a.ring h.ring) h')
    (hshows : (b.ring h.ring).Shows b.type (a.ring h.ring) .credit m₁)
    (hwriter : W h.ring (a.ring h.ring) m₁ (writers h.ring))
    (hothers : ∀ r, r ≠ h.ring →
      AgreeOn m' m ((b.ring r).block b.type).start ((b.ring r).block b.type).length)
    (hagree : ∀ start len, (b.ring h.ring).entry ≤ start → AgreeOn m' m₁ start len)
    (hlat : b.type = .lat → 0 < (a.ring h.ring).returned ∧
      readWord m₁ ((b.ring h.ring).entry - 8) + 1 < sizeTBound ∧
        readWord m' ((b.ring h.ring).entry - 8) =
          readWord m₁ ((b.ring h.ring).entry - 8) + 1)
    (hbw : b.type = .bw → m' = m₁) :
    ∃ a', RingMove a [] a' ∧ SysInv W a' m' writers ⟨⟨bs, h' :: as⟩, .getRawData⟩ := by
  obtain ⟨-, ⟨hrel, hsent, -⟩, -, hasked⟩ := hinv.current
  simp only [IteratorPc.inNext, if_true] at hasked
  by_cases hzero : (a.ring h.ring).returned = 0
  · have htype : b.type = .bw := by
      cases htype : b.type with
      | bw => rfl
      | lat =>
        have := (hlat htype).1
        omega
    obtain rfl := hbw htype
    refine ⟨a, .stutter a, ?_⟩
    have hphase : Phase b.type (a.ring h.ring) .getRawData := ⟨by omega, hsent⟩
    have hput := hinv.put rules hring .getRawData (a.ring h.ring) a.asked hothers
      (hshows.stage_congr (Or.inl (by omega))) hwriter hhelper hphase hasked
    rwa [BufferState.set_self] at hput
  · have hheld : (a.ring h.ring).returned = (a.ring h.ring).released + 1 := by omega
    refine ⟨_, .release a h.ring hasked hsent, ?_⟩
    refine hinv.put rules hring .getRawData ((a.ring h.ring).release hsent) a.asked hothers ?_ ?_ ?_
      ⟨rfl, hsent⟩ hasked
    · refine hshows.release hheld hsent hagree fun htype => ?_
      obtain ⟨-, hlt, hcount⟩ := hlat htype
      have hc := hshows.counter htype
      rw [hcount, hc, hheld]
      rw [hc] at hlt
      have hmod : ((b.ring h.ring).segments + (a.ring h.ring).released) % sizeTBound + 1 =
          (((b.ring h.ring).segments + (a.ring h.ring).released) % sizeTBound + 1) % sizeTBound :=
        (Nat.mod_eq_of_lt hlt).symm
      rw [hmod, Nat.mod_add_mod, Nat.add_assoc]
    · exact rules.release _ _ _ _ _ hsent hwriter hheld hagree fun htype => (hlat htype).2
    · exact ⟨hhelper.iter, hhelper.prev, hhelper.sentinel, hhelper.unmarked,
        hhelper.counterOffset⟩

/-- Flags of a header that is partly reset fit their word. -/
theorem applied_segmentFlags_lt {g : RingGeometry} {type : Buffertype} {x : RingState g}
    {stage : MarkStep} (hshows : g.Shows type x stage m)
    {f : SegmentHeader → SegmentHeader}
    (hf : ∀ y : SegmentHeader, y.segmentFlags < 8 → (f y).segmentFlags < 8) :
    (f (readHeader m (g.slot x.released))).segmentFlags < sizeTBound := by
  have hbound : 8 ≤ sizeTBound := by
    unfold sizeTBound
    omega
  exact (hf _ (hshows.segmentFlags_lt x.released)).trans_le hbound

theorem setConsumable_lt (y : SegmentHeader) (h : y.segmentFlags < 8) :
    (y.setConsumable false).segmentFlags < 8 := by
  simp only [SegmentHeader.setConsumable, Bool.false_eq_true, if_false]
  exact Nat.and_le_left.trans_lt h

theorem setWriteable_lt (y : SegmentHeader) (h : y.segmentFlags < 8) :
    (y.setWriteable true).segmentFlags < 8 := by
  simp only [SegmentHeader.setWriteable, if_true]
  exact Nat.or_lt_two_pow (n := 3) h (by norm_num)

theorem HelperInv.prev_held {g : RingGeometry} {type : Buffertype} {x : RingState g}
    {h : IterHelper k} (hhelper : HelperInv type x h) (hrel : x.released = x.returned - 1)
    {off : ℕ} (hprev : h.prev = some off) :
    x.returned = x.released + 1 ∧ off = g.slot x.released := by
  have hp := hhelper.prev
  rw [hprev] at hp
  by_cases hzero : x.returned = 0
  · rw [if_pos hzero] at hp
    cases hp
  · rw [if_neg hzero, Option.some.injEq] at hp
    have hslot : x.returned - 1 = x.released := by omega
    exact ⟨by omega, by rw [hp, hslot]⟩

/-- `mark_prev_segment` inside `next`, statement by statement. -/
theorem SysInv.markStep (rules : WriterRules b W) {bs as : List (IterHelper k)}
    {h : IterHelper k} {step : MarkStep}
    (hinv : SysInv W a m writers ⟨⟨bs, h :: as⟩, .mark step true⟩) {m' : Mem}
    {it' : BufferIterator k}
    (hrun : BufferIterator.markStep b.type m ⟨⟨bs, h :: as⟩, .mark step true⟩ h true step =
      (m', it'))
    (hcredit : step = .credit → readWord m h.counterOffset + 1 < sizeTBound) :
    ∃ a', RingMove a [] a' ∧ SysInv W a' m' writers it' := by
  obtain ⟨hhelper, hphase, hshows, hasked⟩ := hinv.current
  obtain ⟨hrel, hsent, hallowed⟩ := hphase
  have hlt : ∀ {f : SegmentHeader → SegmentHeader},
      (∀ y : SegmentHeader, y.segmentFlags < 8 → (f y).segmentFlags < 8) →
      ∀ off, h.prev = some off → (f (readHeader m off)).segmentFlags < sizeTBound := by
    intro f hf off hprev
    obtain ⟨-, rfl⟩ := hhelper.prev_held hrel hprev
    exact applied_segmentFlags_lt hshows hf
  cases step with
  | checkEnd => exact ⟨a, .stutter a, hinv.markTests rules (Or.inl rfl) hrun⟩
  | checkWriteable => exact ⟨a, .stutter a, hinv.markTests rules (Or.inr rfl) hrun⟩
  | counter =>
    obtain ⟨hring, hhelper', hshows', hwriter', hothers⟩ :=
      hinv.prevWrite rules .consumable hallowed (prevWrite_setPrevCounter m h) (fun _ => rfl)
        (fun _ => rfl)
    simp only [BufferIterator.markStep, BufferIterator.put, Cursor.modify_cons,
      Prod.mk.injEq] at hrun
    obtain ⟨rfl, rfl⟩ := hrun
    have hput := hinv.put rules hring (.mark .consumable true) (a.ring h.ring) a.asked
      hothers hshows' hwriter' hhelper' ⟨hrel, hsent, hallowed⟩ hasked
    rw [BufferState.set_self] at hput
    exact ⟨a, .stutter a, hput⟩
  | consumable =>
    have hwrite := prevWrite_modifyPrevFlags m h (SegmentHeader.setConsumable · false)
      (fun _ => rfl) (hlt setConsumable_lt)
    obtain ⟨hring, hhelper', hshows', hwriter', hothers⟩ :=
      hinv.prevWrite rules .writeable hallowed hwrite (fun _ => rfl)
        SegmentHeader.isEndSegment_setConsumable
    simp only [BufferIterator.markStep, BufferIterator.put, Cursor.modify_cons,
      Prod.mk.injEq] at hrun
    obtain ⟨rfl, rfl⟩ := hrun
    have hput := hinv.put rules hring (.mark .writeable true) (a.ring h.ring) a.asked
      hothers hshows' hwriter' hhelper' ⟨hrel, hsent, hallowed⟩ hasked
    rw [BufferState.set_self] at hput
    exact ⟨a, .stutter a, hput⟩
  | writeable =>
    have hwrite := prevWrite_modifyPrevFlags m h (SegmentHeader.setWriteable · true)
      (fun _ => rfl) (hlt setWriteable_lt)
    obtain ⟨hring, hhelper', hshows', hwriter', hothers⟩ :=
      hinv.prevWrite rules .credit hallowed hwrite (fun _ => rfl)
        SegmentHeader.isEndSegment_setWriteable
    cases htype : b.type with
    | bw =>
      simp only [BufferIterator.markStep, BufferIterator.put, Cursor.modify_cons, htype,
        BufferIterator.afterMark, if_true, Prod.mk.injEq] at hrun
      obtain ⟨rfl, rfl⟩ := hrun
      exact hinv.releaseHeld rules hring hhelper' hshows' hwriter' hothers
        (fun _ _ _ => AgreeOn.refl _ _ _) (fun hlat => by simp [htype] at hlat) (fun _ => rfl)
    | lat =>
      simp only [BufferIterator.markStep, BufferIterator.put, Cursor.modify_cons, htype,
        Prod.mk.injEq] at hrun
      obtain ⟨rfl, rfl⟩ := hrun
      have hput := hinv.put rules hring (.mark .credit true) (a.ring h.ring) a.asked
        hothers hshows' hwriter' hhelper' ⟨hrel, hsent, htype, hallowed htype⟩ hasked
      rw [BufferState.set_self] at hput
      exact ⟨a, .stutter a, hput⟩
  | credit =>
    obtain ⟨htype, hpos⟩ := hallowed
    have hoffset := hhelper.counterOffset htype
    have h8 := b.counter_le h.ring htype
    have hcr := hcredit rfl
    rw [hoffset] at hcr
    simp only [BufferIterator.markStep, BufferIterator.afterMark, if_true, hoffset,
      Nat.mod_eq_of_lt hcr, Prod.mk.injEq] at hrun
    obtain ⟨rfl, rfl⟩ := hrun
    refine hinv.releaseHeld rules rfl hhelper hshows (hinv.writer h.ring) (fun r hr => ?_)
      (fun start len hstart => agreeOn_writeWord (Or.inr (by omega)))
      (fun _ => ⟨hpos, hcr, readWord_writeWord _ _ _ hcr⟩) (fun hbw => by simp [htype] at hbw)
    have hap := b.apart r h.ring hr
    simp only [Span.Apart, RingGeometry.block, htype, NodeServer.counterSize] at hap
    refine agreeOn_writeWord ?_
    simp only [RingGeometry.block, htype, NodeServer.counterSize]
    omega

/-- Head of the loop of `has_next`. -/
theorem SysInv.loopStep (rules : WriterRules b W) {c : Cursor (IterHelper k)}
    (hinv : SysInv W a m writers ⟨c, .loop⟩) {it' : BufferIterator k}
    {events : List (RingEvent k)} (hrun : BufferIterator.loopStep m ⟨c, .loop⟩ = (it', events)) :
    RingMove a events a ∧ SysInv W a m writers it' := by
  obtain ⟨c', hc', hlist⟩ : ∃ c', c' = (if c.atEnd then .start c.toList else c) ∧
      c'.toList = c.toList := by
    refine ⟨_, rfl, ?_⟩
    split_ifs <;> simp
  have hinv' : SysInv W a m writers ⟨c', .loop⟩ :=
    hinv.rest hlist (Or.inr (Or.inl rfl)) (Or.inr rfl)
  simp only [BufferIterator.loopStep, ← hc'] at hrun
  obtain ⟨bs, as⟩ := c'
  cases as with
  | nil =>
    -- past the end after wrapping around: the list is empty
    have hempty : bs = [] := by
      by_cases hend : c.atEnd = true
      · rw [if_pos hend] at hc'
        exact (Cursor.mk.inj hc').1
      · rw [if_neg hend] at hc'
        subst hc'
        simp [Cursor.atEnd] at hend
    subst hempty
    simp only [Cursor.get?_nil, Prod.mk.injEq] at hrun
    obtain ⟨rfl, rfl⟩ := hrun
    exact ⟨.exhausted a fun r => hinv'.iterator.erased r (by simp),
      hinv'.rest rfl (Or.inr (Or.inl rfl)) (Or.inl rfl)⟩
  | cons h as =>
    obtain ⟨hhelper, hrel, hshows, -⟩ := hinv'.current
    have hiff := isEndSegment_prevHeader hhelper hshows hrel
    simp only [Cursor.get?_cons] at hrun
    by_cases hend : (h.prevHeader m).isEndSegment = true
    · simp only [hend, if_true, Prod.mk.injEq] at hrun
      obtain ⟨rfl, rfl⟩ := hrun
      exact ⟨.stutter a, hinv'.stay rules id (fun _ => ⟨hrel, rfl, hiff.mp hend⟩) rfl⟩
    · rw [if_neg hend, Prod.mk.injEq] at hrun
      obtain ⟨rfl, rfl⟩ := hrun
      refine ⟨.stutter a, hinv'.stay rules id (fun _ => ⟨hrel, ?_⟩) rfl⟩
      rcases rules.window _ _ _ _ (hinv'.writer h.ring) with hwindow | hdrained
      · exact hwindow
      · have hpos := (b.ring h.ring).segments_pos
        by_cases hzero : (a.ring h.ring).returned = 0
        · omega
        · exact absurd (hiff.mpr ⟨by omega, hdrained⟩) hend

theorem SysInv.testConsumable (rules : WriterRules b W) {bs as : List (IterHelper k)}
    {h : IterHelper k} (hinv : SysInv W a m writers ⟨⟨bs, h :: as⟩, .testConsumable⟩) :
    if (readHeader m h.iter).isConsumable = true then
      SysInv W a m writers ⟨⟨bs, h :: as⟩, .ready⟩
    else SysInv W a m writers ⟨⟨h :: bs, as⟩, .loop⟩ := by
  obtain ⟨hhelper, ⟨hrel, hwindow⟩, hshows, -⟩ := hinv.current
  have hiff := hshows.isConsumable_iff hwindow
  rw [hhelper.iter]
  split_ifs with hconsumable
  · exact hinv.stay rules id (fun _ => ⟨hrel, hiff.mp hconsumable⟩) rfl
  · exact hinv.rest (by simp) (Or.inr (Or.inr (Or.inl rfl))) (Or.inr rfl)

/-- A drained ring leaves the iterator's list. -/
theorem SysInv.erase {bs as : List (IterHelper k)} {h : IterHelper k}
    (hinv : SysInv W a m writers ⟨⟨bs, h :: as⟩, .erase⟩) :
    SysInv W a m writers ⟨⟨bs, as⟩, .loop⟩ := by
  obtain ⟨-, hdrained, -, hasked⟩ := hinv.current
  have hnodup := hinv.iterator.nodup
  have hperm : ((bs.reverse ++ h :: as).map IterHelper.ring).Perm
      (h.ring :: (bs.reverse ++ as).map IterHelper.ring) := by
    simp
  simp only [Cursor.toList_mk] at hnodup
  obtain ⟨hnot, hnodup'⟩ := List.nodup_cons.mp (hperm.nodup_iff.mp hnodup)
  have hold : ∀ y ∈ bs.reverse ++ as, y ∈ (Cursor.mk bs (h :: as)).toList ∧ h.ring ≠ y.ring := by
    intro y hy
    refine ⟨?_, fun heq => hnot (heq ▸ List.mem_map_of_mem hy)⟩
    simp only [Cursor.toList_mk, List.mem_append, List.mem_cons] at hy ⊢
    tauto
  have hpc : ∀ r, BufferIterator.pcAt ⟨⟨bs, as⟩, .loop⟩ r = .idle ∨
      BufferIterator.pcAt ⟨⟨bs, as⟩, .loop⟩ r = .loop := by
    intro r
    cases as with
    | nil => exact Or.inl rfl
    | cons h' as =>
      rw [BufferIterator.pcAt_cons]
      split_ifs
      · exact Or.inr rfl
      · exact Or.inl rfl
  refine ⟨fun r => ?_, hinv.writer, hnodup', fun y hy => hinv.iterator.helper y (hold y hy).1,
    fun y hy => ?_, fun r hr => ?_, ?_, fun _ => Or.inr rfl⟩
  · have hshows := hinv.shows r
    have hstage : (BufferIterator.pcAt ⟨⟨bs, h :: as⟩, .erase⟩ r).stage = .checkEnd := by
      rw [BufferIterator.pcAt_cons]
      split_ifs <;> rfl
    have hstage' : (BufferIterator.pcAt ⟨⟨bs, as⟩, .loop⟩ r).stage = .checkEnd := by
      rcases hpc r with hpc | hpc <;> rw [hpc] <;> rfl
    rw [hstage']
    rwa [hstage] at hshows
  · obtain ⟨hmem, hne⟩ := hold y hy
    have hphase := hinv.iterator.phase y hmem
    rw [BufferIterator.pcAt_cons, if_neg hne] at hphase
    rcases hpc y.ring with hpc | hpc <;> rw [hpc] <;> exact hphase
  · by_cases heq : r = h.ring
    · rw [heq]
      exact hdrained
    · refine hinv.iterator.erased r fun hmem => ?_
      rcases List.mem_cons.mp (hperm.mem_iff.mp hmem) with hmem | hmem
      · exact heq hmem
      · exact hr hmem
  · rw [hasked]
    rfl

/-- The rest of `next` after the mark: the size is read, then the iterators advance. -/
theorem SysInv.getRawData (rules : WriterRules b W) {bs as : List (IterHelper k)}
    {h : IterHelper k} (hinv : SysInv W a m writers ⟨⟨bs, h :: as⟩, .getRawData⟩) :
    SysInv W a m writers ⟨⟨bs, h :: as⟩, .advance (readHeader m h.iter).counter⟩ := by
  obtain ⟨hhelper, ⟨hrel, hsent⟩, hshows, -⟩ := hinv.current
  refine hinv.stay rules id (fun _ => ⟨hrel, hsent, ?_⟩) rfl
  have hle := (a.ring h.ring).sent_le
  rw [hhelper.iter, hshows.header _ hrel.le (by omega), RingGeometry.expectedHeader, if_pos hsent,
    if_neg (Nat.lt_irrefl _)]
  unfold RingGeometry.sentHeader
  split_ifs
  · cases htype : b.type with
    | bw => exact Or.inl rfl
    | lat => exact Or.inr ⟨rfl, rfl⟩
  · exact Or.inl rfl

theorem SysInv.advance (rules : WriterRules b W) {bs as : List (IterHelper k)}
    {h : IterHelper k} {retSize : ℕ}
    (hinv : SysInv W a m writers ⟨⟨bs, h :: as⟩, .advance retSize⟩) :
    ∃ a', RingMove a
      [.nextReturned h.ring h.iter (readBytes m (h.iter + segmentHeaderSize) retSize)] a' ∧
      SysInv W a' m writers
        ⟨⟨{ h with
              prev := some h.iter
              iter := (readHeader m h.iter).nextSegmentOffset } :: bs, as⟩, .idle⟩ := by
  obtain ⟨hhelper, ⟨hrel, hsent, hsize⟩, hshows, hasked⟩ := hinv.current
  simp only [IteratorPc.inNext, if_true] at hasked
  have hle := (a.ring h.ring).sent_le
  have hget : (a.ring h.ring).sent.getD (a.ring h.ring).returned [] =
      (a.ring h.ring).sent[(a.ring h.ring).returned] := by
    rw [List.getD_eq_getElem?_getD, List.getElem?_eq_getElem hsent, Option.getD_some]
  have hdata : a.Exact h.ring → readBytes m (h.iter + segmentHeaderSize) retSize =
      (a.ring h.ring).sent[(a.ring h.ring).returned] := by
    intro hexact
    have hlen : retSize = ((a.ring h.ring).sent[(a.ring h.ring).returned]).length := by
      rcases hsize with hsize | ⟨hlat, hsize⟩
      · rw [hsize, hget]
      · rcases hexact with hbw | hall
        · rw [hlat] at hbw
          cases hbw
        · rw [hsize, hall _ (List.getElem_mem hsent)]
    rw [hlen, hhelper.iter]
    exact hshows.data _ _ hrel.le (List.getElem?_eq_getElem hsent)
  have hnext : (readHeader m h.iter).nextSegmentOffset =
      (b.ring h.ring).slot ((a.ring h.ring).returned + 1) := by
    rw [hhelper.iter, hshows.header _ hrel.le (by omega), RingGeometry.expectedHeader,
      if_pos hsent, if_neg (Nat.lt_irrefl _)]
    unfold RingGeometry.sentHeader
    split_ifs <;> rfl
  have hmove := RingMove.take a h.ring hasked hrel hsent _ hdata
  rw [← hhelper.iter] at hmove
  refine ⟨_, hmove, ?_⟩
  have hring : ({ h with
      prev := some h.iter
      iter := (readHeader m h.iter).nextSegmentOffset } : IterHelper k).ring = h.ring := rfl
  have hput := hinv.put rules hring .idle
    ((a.ring h.ring).take hrel hsent) none (fun r _ => AgreeOn.refl _ _ _)
    (hshows.take hrel hsent) (rules.take _ _ _ _ hrel hsent (hinv.writer h.ring))
    ⟨hnext, ?_, hhelper.sentinel, hhelper.unmarked, hhelper.counterOffset⟩ ?_ rfl
  · exact hput.rest (by simp) (Or.inl rfl) (Or.inl rfl)
  · simp [hhelper.iter]
  · show (a.ring h.ring).released = (a.ring h.ring).returned + 1 - 1
    rw [hrel, Nat.add_sub_cancel]

/-- A mark inside `has_next` finds the end flag again and does nothing. -/
theorem SysInv.markEnd (rules : WriterRules b W) {bs as : List (IterHelper k)}
    {h : IterHelper k} {step : MarkStep}
    (hinv : SysInv W a m writers ⟨⟨bs, h :: as⟩, .mark step false⟩) {m' : Mem}
    {it' : BufferIterator k}
    (hrun : BufferIterator.markStep b.type m ⟨⟨bs, h :: as⟩, .mark step false⟩ h false step =
      (m', it')) : SysInv W a m' writers it' := by
  obtain ⟨hhelper, ⟨hrel, rfl, hpos, hdrained⟩, hshows, -⟩ := hinv.current
  have hend := (isEndSegment_prevHeader hhelper hshows hrel).mpr ⟨hpos, hdrained⟩
  simp only [BufferIterator.markStep, hend, if_true, BufferIterator.afterMark,
    Bool.false_eq_true, if_false, Prod.mk.injEq] at hrun
  obtain ⟨rfl, rfl⟩ := hrun
  exact hinv.stay rules id (fun _ => hdrained) rfl

/-- Every step of the iterator is a move of the protocol. -/
theorem SysInv.iterator_step (rules : WriterRules b W) {it it' : BufferIterator k}
    {action : IteratorAction} {events : List (RingEvent k)}
    (hinv : SysInv W a m writers it) (hstep : it.step b.type m action = some (m', it', events))
    (hcredit : ∀ h, it.segmentIterators.get? = some h → it.pc = .mark .credit true →
      readWord m h.counterOffset + 1 < sizeTBound) :
    ∃ a', RingMove a events a' ∧ SysInv W a' m' writers it' := by
  obtain ⟨⟨bs, as⟩, pc⟩ := it
  cases action with
  | hasNext =>
    simp only [BufferIterator.step] at hstep
    split_ifs at hstep with hpc
    cases hstep
    refine ⟨a, .stutter a, hinv.rest rfl ?_ (Or.inr rfl)⟩
    rcases hpc with rfl | rfl
    · exact Or.inl rfl
    · exact Or.inr (Or.inr (Or.inr rfl))
  | next =>
    cases as with
    | nil => cases pc <;> simp [BufferIterator.step] at hstep
    | cons h as =>
      cases pc with
      | ready =>
        simp only [BufferIterator.step, Cursor.get?_cons, Option.some.injEq,
          Prod.mk.injEq] at hstep
        obtain ⟨rfl, rfl, rfl⟩ := hstep
        obtain ⟨hhelper, ⟨hrel, hsent⟩, hshows, -⟩ := hinv.current
        refine ⟨_, .ask a h.ring hsent, ?_⟩
        have hput := hinv.put rules rfl (.mark .checkEnd true) (a.ring h.ring) (some h.ring)
          (fun r _ => AgreeOn.refl _ _ _) hshows (hinv.writer h.ring) hhelper
          ⟨hrel, hsent, trivial⟩ rfl
        rwa [BufferState.set_self] at hput
      | _ => simp [BufferIterator.step] at hstep
  | run =>
    cases as with
    | nil =>
      rcases hinv.iterator.atEnd rfl with rfl | rfl
      · simp [BufferIterator.step] at hstep
      · simp only [BufferIterator.step, Option.some.injEq, Prod.mk.injEq] at hstep
        obtain ⟨rfl, rfl, rfl⟩ := hstep
        exact ⟨a, hinv.loopStep rules rfl⟩
    | cons h as =>
      cases pc with
      | idle => simp [BufferIterator.step] at hstep
      | ready => simp [BufferIterator.step] at hstep
      | loop =>
        simp only [BufferIterator.step, Option.some.injEq, Prod.mk.injEq] at hstep
        obtain ⟨rfl, rfl, rfl⟩ := hstep
        exact ⟨a, hinv.loopStep rules rfl⟩
      | testConsumable =>
        have htest := hinv.testConsumable rules
        simp only [BufferIterator.step, Cursor.get?_cons, Cursor.next_cons] at hstep
        split_ifs at hstep htest <;> cases hstep
        · exact ⟨a, .ready a, htest⟩
        · exact ⟨a, .stutter a, htest⟩
      | mark step inNext =>
        simp only [BufferIterator.step, Cursor.get?_cons, Option.some.injEq,
          Prod.mk.injEq] at hstep
        obtain ⟨rfl, rfl, rfl⟩ := hstep
        cases inNext with
        | false => exact ⟨a, .stutter a, hinv.markEnd rules rfl⟩
        | true =>
          refine hinv.markStep rules rfl fun hs => hcredit h rfl ?_
          rw [hs]
      | erase =>
        simp only [BufferIterator.step, Cursor.get?_cons, Cursor.erase_cons, Option.some.injEq,
          Prod.mk.injEq] at hstep
        obtain ⟨rfl, rfl, rfl⟩ := hstep
        exact ⟨a, .stutter a, hinv.erase⟩
      | getRawData =>
        simp only [BufferIterator.step, Cursor.get?_cons, Option.some.injEq,
          Prod.mk.injEq] at hstep
        obtain ⟨rfl, rfl, rfl⟩ := hstep
        exact ⟨a, .stutter a, hinv.getRawData rules⟩
      | advance retSize =>
        simp only [BufferIterator.step, Cursor.get?_cons, Cursor.modify_cons, Cursor.next_cons,
          Option.some.injEq, Prod.mk.injEq] at hstep
        obtain ⟨rfl, rfl, rfl⟩ := hstep
        exact hinv.advance rules

end
end DpiLibrary
