import DpiLibrary.Dpi.BandwidthReclose

/-!
# What the iterator resets in a bandwidth ring

`mark_prev_segment` tests the end flag and then changes the header in three statements. A
segment that it works on carries neither the writeable flag nor, after the test, the end
flag, also in a ring of one segment, where the segment to be given back is the one that was
found consumable. So it never meets a segment of the writer's.
-/

namespace DpiLibrary

variable {k : ℕ} {g : RingGeometry} {m m' : Mem} {h h' : IterHelper k} {pc : IteratorPc}

/-- The segment behind the helper has been taken, unless it is the one in front as well. -/
def Behind (m : Mem) (h : IterHelper k) : Prop :=
  ∀ off ∈ h.prev, off ≠ h.iter → (readHeader m off).isWriteable = false

/-- The segment in front is still there to be returned. -/
def InFront (m : Mem) (h : IterHelper k) : Prop :=
  h.prev ≠ some h.iter → (readHeader m h.iter).isConsumable = true

/-- The segment behind the helper is neither the writer's nor the final one. -/
def GivenBack (m : Mem) (h : IterHelper k) : Prop :=
  ∀ off ∈ h.prev, (readHeader m off).isWriteable = false ∧ (readHeader m off).isEndSegment = false

/-- What the headers of a ring look like at each statement of the iterator. -/
def ResetPhase (m : Mem) (h : IterHelper k) : IteratorPc → Prop
  | .idle | .loop | .testConsumable => Behind m h
  | .ready | .mark .checkEnd true => (readHeader m h.iter).isConsumable = true ∧ Behind m h
  | .mark .counter true | .mark .consumable true => GivenBack m h ∧ InFront m h
  | .mark .writeable true => GivenBack m h ∧ InFront m h ∧
    ∀ off ∈ h.prev, (readHeader m off).isConsumable = false
  | .mark .checkEnd false => ∃ off ∈ h.prev, (readHeader m off).isEndSegment = true
  | .mark _ _ => False
  | .erase => True
  | .getRawData | .advance _ => InFront m h

/-- No header that is the writer's carries another flag. -/
def FreeOnly (g : RingGeometry) (m : Mem) : Prop :=
  ∀ j, (readHeader m (g.slot j)).isWriteable = true →
    (readHeader m (g.slot j)).isConsumable = false ∧
      (readHeader m (g.slot j)).isEndSegment = false

theorem FreeOnly.of_consumable (hfree : FreeOnly g m) {j : ℕ}
    (h : (readHeader m (g.slot j)).isConsumable = true) :
    (readHeader m (g.slot j)).isWriteable = false := by
  rw [Bool.eq_false_iff]
  intro hwriteable
  rw [(hfree j hwriteable).1] at h
  cases h

theorem FreeOnly.of_end (hfree : FreeOnly g m) {j : ℕ}
    (h : (readHeader m (g.slot j)).isEndSegment = true) :
    (readHeader m (g.slot j)).isWriteable = false := by
  rw [Bool.eq_false_iff]
  intro hwriteable
  rw [(hfree j hwriteable).2] at h
  cases h

open BufferWriterBW

section

variable (hfree : FreeOnly g m) (hkeeps : KeepsTaken g m m') (hw : Walker .bw g h)
include hfree hkeeps hw

theorem InFront.keeps (hfront : InFront m h) : InFront m' h := by
  obtain ⟨q, hq⟩ := hw.iter_slot
  intro hne
  have hcon := hfront hne
  rw [hq] at hcon ⊢
  rwa [hkeeps q (hfree.of_consumable hcon)]

omit hfree in
theorem Behind.keeps (hbehind : Behind m h) : Behind m' h := by
  intro off hoff hne
  obtain ⟨q, rfl, -⟩ := hw.prev_slot hoff
  have htaken := hbehind _ hoff hne
  rwa [hkeeps q htaken]

omit hfree in
theorem GivenBack.keeps (hback : GivenBack m h) : GivenBack m' h := by
  intro off hoff
  obtain ⟨q, rfl, -⟩ := hw.prev_slot hoff
  have htaken := hback _ hoff
  rwa [hkeeps q htaken.1]

/-- The writer changes nothing of what the iterator relies on. -/
theorem ResetPhase.keeps (hphase : ResetPhase m h pc) : ResetPhase m' h pc := by
  have hconsumable : (readHeader m h.iter).isConsumable = true →
      (readHeader m' h.iter).isConsumable = true := by
    obtain ⟨q, hq⟩ := hw.iter_slot
    rw [hq]
    intro hcon
    rwa [hkeeps q (hfree.of_consumable hcon)]
  cases pc with
  | idle => exact hphase.keeps hkeeps hw
  | loop => exact hphase.keeps hkeeps hw
  | testConsumable => exact hphase.keeps hkeeps hw
  | ready => exact ⟨hconsumable hphase.1, hphase.2.keeps hkeeps hw⟩
  | erase => trivial
  | getRawData => exact hphase.keeps hfree hkeeps hw
  | advance size => exact hphase.keeps hfree hkeeps hw
  | mark step inNext =>
    cases inNext with
    | true =>
      cases step with
      | checkEnd => exact ⟨hconsumable hphase.1, hphase.2.keeps hkeeps hw⟩
      | checkWriteable => exact hphase
      | counter => exact ⟨hphase.1.keeps hkeeps hw, hphase.2.keeps hfree hkeeps hw⟩
      | consumable => exact ⟨hphase.1.keeps hkeeps hw, hphase.2.keeps hfree hkeeps hw⟩
      | writeable =>
        obtain ⟨hback, hfront, hreset⟩ := hphase
        refine ⟨hback.keeps hkeeps hw, hfront.keeps hfree hkeeps hw, fun off hoff => ?_⟩
        have htaken := (hback off hoff).1
        have hcon := hreset off hoff
        obtain ⟨q, rfl, -⟩ := hw.prev_slot hoff
        rwa [hkeeps q htaken]
      | credit => exact hphase
    | false =>
      cases step with
      | checkEnd =>
        obtain ⟨off, hoff, hend⟩ := hphase
        refine ⟨off, hoff, ?_⟩
        obtain ⟨q, rfl, -⟩ := hw.prev_slot hoff
        rwa [hkeeps q (hfree.of_end hend)]
      | _ => exact hphase

end

variable {w : BufferWriterBW} {f : SegmentHeader → SegmentHeader}

theorem BufferWriterBW.Reclosing.freeOnly (h : Reclosing g m w) : FreeOnly g m := h.free

/-- A statement of a reset, as the ring sees it. -/
structure ResetStep (g : RingGeometry) (w : BufferWriterBW) (m m' : Mem) (h h' : IterHelper k)
    (f : SegmentHeader → SegmentHeader) : Prop where
  ring : h'.ring = h.ring
  writer : Reclosing g m' w
  walker : Walker .bw g h'
  front : InFront m' h'
  header : ∀ off ∈ h'.prev, off ∈ h.prev ∧ readHeader m' off = f (readHeader m off)
  outside : ∀ start len, start + len ≤ g.entry ∨ g.entry + g.segments * g.fullSize ≤ start →
    AgreeOn m' m start len

theorem ResetStep.of_prevWrite (hK : Reclosing g m w) (hw : Walker .bw g h)
    (hback : GivenBack m h) (hfront : InFront m h) (hwrite : PrevWrite m m' h h' f)
    (hnext : ∀ y, (f y).nextSegmentOffset = y.nextSegmentOffset)
    (hends : ∀ y, (f y).isEndSegment = y.isEndSegment)
    (hfree : ∀ off ∈ h.prev, (f (readHeader m off)).isWriteable = true →
      (f (readHeader m off)).isConsumable = false) : ResetStep g w m m' h h' f := by
  obtain ⟨hring, hprev, hiter, hw'⟩ := hw.prevWrite hwrite hends
  cases hp : h.prev with
  | none =>
    obtain ⟨rfl, -⟩ := hwrite.none hp
    refine ⟨hring, hK, hw', ?_, ?_, fun _ _ _ => AgreeOn.refl _ _ _⟩
    · unfold InFront
      rw [hprev, hiter]
      exact hfront
    · intro off hoff
      rw [hprev, hp] at hoff
      cases hoff
  | some off =>
    obtain ⟨q, rfl, -⟩ := hw.prev_slot hp
    have hchange := hwrite.changes hp
    obtain ⟨-, hread, hout⟩ := hwrite.some _ hp
    obtain ⟨htaken, hend⟩ := hback _ hp
    refine ⟨hring, hK.reset hchange htaken hend hnext hends (hfree _ hp), hw', ?_, ?_, ?_⟩
    · unfold InFront
      rw [hprev, hiter]
      intro hne
      obtain ⟨j, hj⟩ := hw.iter_slot
      have hcon := hfront hne
      rw [hj] at hcon ⊢
      rw [hchange, if_neg]
      · exact hcon
      · intro hslot
        rw [hp, hj, hslot] at hne
        exact hne rfl
    · intro off hoff
      rw [hprev] at hoff
      rw [hp, Option.mem_some_iff] at hoff
      subst hoff
      exact ⟨hp, hread⟩
    · intro start len hside
      have hlo := g.le_slot q
      have hhi := g.slot_add_fullSize_le q
      apply hout
      unfold RingGeometry.fullSize at hhi hside
      omega

theorem ResetStep.givenBack (h' : IterHelper k) (hstep : ResetStep g w m m' h h' f)
    (hback : GivenBack m h) (htaken : ∀ y : SegmentHeader, y.isWriteable = false →
      (f y).isWriteable = false) (hends : ∀ y, (f y).isEndSegment = y.isEndSegment) :
    GivenBack m' h' := by
  intro off hoff
  obtain ⟨hold, hread⟩ := hstep.header off hoff
  obtain ⟨hw, hend⟩ := hback off hold
  rw [hread, hends]
  exact ⟨htaken _ hw, hend⟩

/-- The segment that `next` is about to give back has been taken. -/
theorem taken_of_ready (hfree : FreeOnly g m) (hw : Walker .bw g h)
    (hcon : (readHeader m h.iter).isConsumable = true) (hbehind : Behind m h) :
    ∀ off ∈ h.prev, (readHeader m off).isWriteable = false := by
  intro off hoff
  by_cases heq : off = h.iter
  · obtain ⟨q, hq⟩ := hw.iter_slot
    rw [heq]
    rw [hq] at hcon ⊢
    exact hfree.of_consumable hcon
  · exact hbehind off hoff heq

/-- `mark_prev_segment` on a bandwidth ring, statement by statement. -/
theorem markStep_resets {bs as : List (IterHelper k)} {step : MarkStep} {inNext : Bool}
    (hK : Reclosing g m w) (hw : Walker .bw g h) (hphase : ResetPhase m h (.mark step inNext))
    (hrun : BufferIterator.markStep .bw m ⟨⟨bs, h :: as⟩, .mark step inNext⟩ h inNext step =
      (m', ⟨⟨bs, h' :: as⟩, pc⟩)) :
    h'.ring = h.ring ∧ Reclosing g m' w ∧ Walker .bw g h' ∧ ResetPhase m' h' pc ∧
      ∀ start len, start + len ≤ g.entry ∨ g.entry + g.segments * g.fullSize ≤ start →
        AgreeOn m' m start len := by
  have hquiet : m' = m → h' = h → ResetPhase m h pc → h'.ring = h.ring ∧ Reclosing g m' w ∧
      Walker .bw g h' ∧ ResetPhase m' h' pc ∧
      ∀ start len, start + len ≤ g.entry ∨ g.entry + g.segments * g.fullSize ≤ start →
        AgreeOn m' m start len := by
    rintro rfl rfl hnew
    exact ⟨rfl, hK, hw, hnew, fun _ _ _ => AgreeOn.refl _ _ _⟩
  cases inNext with
  | false =>
    cases step with
    | checkEnd =>
      obtain ⟨off, hoff, hend⟩ := hphase
      have hprev : (h.prevHeader m).isEndSegment = true := by
        rw [IterHelper.prevHeader, Option.mem_def.mp hoff]
        exact hend
      simp only [BufferIterator.markStep, hprev, if_true, BufferIterator.afterMark,
        Bool.false_eq_true, if_false, Prod.mk.injEq, BufferIterator.mk.injEq, Cursor.mk.injEq,
        List.cons.injEq] at hrun
      obtain ⟨rfl, ⟨-, rfl, -⟩, rfl⟩ := hrun
      exact hquiet rfl rfl trivial
    | _ => exact hphase.elim
  | true =>
    cases step with
    | checkEnd =>
      obtain ⟨hcon, hbehind⟩ := hphase
      have htaken := taken_of_ready hK.freeOnly hw hcon hbehind
      simp only [BufferIterator.markStep] at hrun
      split_ifs at hrun with hend <;> simp only [Prod.mk.injEq, BufferIterator.mk.injEq,
        Cursor.mk.injEq, List.cons.injEq] at hrun <;> obtain ⟨rfl, ⟨-, rfl, -⟩, rfl⟩ := hrun
      · exact hquiet rfl rfl fun _ => hcon
      · refine hquiet rfl rfl ⟨fun off hoff => ⟨htaken off hoff, ?_⟩, fun _ => hcon⟩
        rw [IterHelper.prevHeader, Option.mem_def.mp hoff] at hend
        simpa using hend
    | checkWriteable => exact hphase.elim
    | credit => exact hphase.elim
    | counter =>
      obtain ⟨hback, hfront⟩ := hphase
      have hreset := ResetStep.of_prevWrite hK hw hback hfront (prevWrite_setPrevCounter m h)
        (fun _ => rfl) (fun _ => rfl) fun off hoff hwriteable => by
          rw [SegmentHeader.isWriteable_counter, (hback off hoff).1] at hwriteable
          cases hwriteable
      simp only [BufferIterator.markStep, BufferIterator.put, Cursor.modify_cons, Prod.mk.injEq,
        BufferIterator.mk.injEq, Cursor.mk.injEq, List.cons.injEq] at hrun
      obtain ⟨rfl, ⟨-, rfl, -⟩, rfl⟩ := hrun
      exact ⟨hreset.ring, hreset.writer, hreset.walker,
        ⟨hreset.givenBack _ hback (fun _ => id) fun _ => rfl, hreset.front⟩, hreset.outside⟩
    | consumable =>
      obtain ⟨hback, hfront⟩ := hphase
      have hwrite := prevWrite_modifyPrevFlags m h (SegmentHeader.setConsumable · false)
        (fun _ => rfl) fun off _ => (flags_modify_lt m off).1
      have hreset := ResetStep.of_prevWrite hK hw hback hfront hwrite (fun _ => rfl)
        SegmentHeader.isEndSegment_setConsumable
        fun off hoff _ => SegmentHeader.isConsumable_setConsumable _
      simp only [BufferIterator.markStep, BufferIterator.put, Cursor.modify_cons, Prod.mk.injEq,
        BufferIterator.mk.injEq, Cursor.mk.injEq, List.cons.injEq] at hrun
      obtain ⟨rfl, ⟨-, rfl, -⟩, rfl⟩ := hrun
      have hback' := hreset.givenBack _ hback
        (fun y hy => (SegmentHeader.isWriteable_setConsumable y false).trans hy)
        SegmentHeader.isEndSegment_setConsumable
      refine ⟨hreset.ring, hreset.writer, hreset.walker, ⟨hback', hreset.front, ?_⟩,
        hreset.outside⟩
      intro off hoff
      rw [(hreset.header off hoff).2]
      exact SegmentHeader.isConsumable_setConsumable _
    | writeable =>
      obtain ⟨hback, hfront, hreset'⟩ := hphase
      have hwrite := prevWrite_modifyPrevFlags m h (SegmentHeader.setWriteable · true)
        (fun _ => rfl) fun off _ => (flags_modify_lt m off).2
      have hreset := ResetStep.of_prevWrite hK hw hback hfront hwrite (fun _ => rfl)
        SegmentHeader.isEndSegment_setWriteable fun off hoff _ =>
          (SegmentHeader.isConsumable_setWriteable _).trans (hreset' off hoff)
      simp only [BufferIterator.markStep, BufferIterator.put, Cursor.modify_cons,
        BufferIterator.afterMark, if_true, Prod.mk.injEq, BufferIterator.mk.injEq, Cursor.mk.injEq,
        List.cons.injEq] at hrun
      obtain ⟨rfl, ⟨-, rfl, -⟩, rfl⟩ := hrun
      exact ⟨hreset.ring, hreset.writer, hreset.walker, hreset.front, hreset.outside⟩

/-- The segment returned is taken, and the helper goes on. -/
theorem ResetPhase.advance {size : ℕ} (hK : Reclosing g m w) (hw : Walker .bw g h)
    (hfront : ResetPhase m h (.advance size)) :
    ResetPhase m { h with
      prev := some h.iter
      iter := (readHeader m h.iter).nextSegmentOffset } .idle := by
  intro off hoff hne
  obtain rfl : h.iter = off := Option.mem_some_iff.mp hoff
  obtain ⟨q, hq⟩ := hw.iter_slot
  have hcon : (readHeader m h.iter).isConsumable = true := by
    apply hfront
    intro hprev
    -- in a ring of one segment the next one is the same again
    obtain ⟨q', hslot, hiter⟩ := hw.prev_slot hprev
    apply hne
    have hchain := hK.chain q'
    rw [← hslot, ← hiter] at hchain
    exact hchain.symm
  rw [hq] at hcon ⊢
  exact hK.freeOnly.of_consumable hcon

variable {b : BufferRings k} {writers : Fin k → BufferWriterBW}

/-- A helper of a bandwidth buffer at a place in the program. -/
def ResetsOwn (b : BufferRings k) (m : Mem) (h : IterHelper k) (pc : IteratorPc) : Prop :=
  Walker .bw (b.ring h.ring) h ∧ ResetPhase m h pc

theorem resetRules (b : BufferRings k) (writers : Fin k → BufferWriterBW) :
    RingRules .bw b (fun r m => Reclosing (b.ring r) m (writers r)) (ResetsOwn b) where
  frame r m m' hagree hK := by
    have hsame := RingGeometry.readHeader_of_agree (b.counter_fits r) hagree
    refine ⟨hK.frame hsame, ?_⟩
    rintro h pc rfl ⟨hw, hphase⟩
    exact ⟨hw, hphase.keeps hK.freeOnly (fun j _ => hsame j) hw⟩
  leave m h := Iff.rfl
  again m h := fun ⟨hw, hphase⟩ => ⟨hw, hphase.2⟩
  loop m h _ := by
    rintro ⟨hw, hphase⟩
    refine ⟨hw, ?_⟩
    split_ifs with hend
    · cases hprev : h.prev with
      | none =>
        rw [IterHelper.prevHeader, hprev, hw.sentinel] at hend
        cases hend
      | some off =>
        rw [IterHelper.prevHeader, hprev] at hend
        exact ⟨off, hprev, hend⟩
    · exact hphase
  test m h _ := by
    rintro ⟨hw, hphase⟩
    refine ⟨hw, ?_⟩
    split_ifs with hcon
    · exact ⟨hcon, hphase⟩
    · exact hphase
  next m h _ := id
  mark m h step inNext bs as m' h' pc' hK := by
    rintro ⟨hw, hphase⟩ hrun
    obtain ⟨hring, hK', hw', hphase', hout⟩ := markStep_resets hK hw hphase hrun
    refine ⟨hring, hK', ⟨?_, hphase'⟩, fun r hr => b.agreeOn_other hr fun start len hside => ?_⟩
    · rw [hring]
      exact hw'
    · apply hout
      have hc := b.counter_fits h.ring
      simp only [RingGeometry.block] at hside
      omega
  size m h size := id
  advance m h size hK := by
    rintro ⟨hw, hphase⟩
    exact ⟨hw.advance hK.chain, hphase.advance hK hw⟩

end DpiLibrary
