import DpiLibrary.Dpi.AllocatedRing
import DpiLibrary.Dpi.IteratorInvariant

/-!
# The iterator from one ring

Where the iterator stands in its list matters little to a single ring: all that a ring sees
is its own helper and, while that is the current one, the program counter. What is kept by
each statement on the current ring, and does not depend on the other rings, is therefore kept
by every step of the iterator, for any number of segments and whatever the writers do.
-/

namespace DpiLibrary

variable {k : ℕ}

/-- Of the headers of the ring, one is changed. -/
def RingGeometry.ChangesHeader (g : RingGeometry) (q : ℕ) (f : SegmentHeader → SegmentHeader)
    (m m' : Mem) : Prop :=
  ∀ j, readHeader m' (g.slot j) =
    if g.slot j = g.slot q then f (readHeader m (g.slot q)) else readHeader m (g.slot j)

/-- The headers of a ring lie in its block. -/
theorem RingGeometry.readHeader_of_agree {g : RingGeometry} {type : Buffertype} {m m' : Mem}
    (hcounter : NodeServer.counterSize type ≤ g.entry)
    (hagree : AgreeOn m' m (g.block type).start (g.block type).length) (j : ℕ) :
    readHeader m' (g.slot j) = readHeader m (g.slot j) := by
  have hlo := g.le_slot j
  have hhi := g.slot_add_fullSize_le j
  apply (hagree.mono ?_ ?_).readHeader
  · simp only [block]
    omega
  · simp only [block]
    unfold fullSize at hhi ⊢
    omega

/-- Bytes outside the block of one ring are all that another one has. -/
theorem BufferRings.agreeOn_other (b : BufferRings k) {m m' : Mem} {r r' : Fin k} (hne : r' ≠ r)
    (hout : ∀ start len, start + len ≤ ((b.ring r).block b.type).start ∨
      ((b.ring r).block b.type).start + ((b.ring r).block b.type).length ≤ start →
      AgreeOn m' m start len) :
    AgreeOn m' m ((b.ring r').block b.type).start ((b.ring r').block b.type).length := by
  have hap := b.apart r' r hne
  unfold Span.Apart at hap
  apply hout
  omega

/-- Where a helper stands in its ring: in front of the first segment it has not returned, with
the segment before that one behind it. -/
structure Walker (type : Buffertype) (g : RingGeometry) (h : IterHelper k) : Prop where
  place : (h.prev = none ∧ ∃ q, h.iter = g.slot q) ∨
    ∃ q, h.prev = some (g.slot q) ∧ h.iter = g.slot (q + 1)
  sentinel : h.sentinel.isEndSegment = false
  counterOffset : type = .lat → h.counterOffset = g.entry - 8

section

variable {type : Buffertype} {g : RingGeometry} {m m' : Mem} {h h' : IterHelper k}
  {f : SegmentHeader → SegmentHeader}

theorem Walker.prev_slot (hw : Walker type g h) {off : ℕ} (hprev : h.prev = some off) :
    ∃ q, off = g.slot q ∧ h.iter = g.slot (q + 1) := by
  rcases hw.place with ⟨hnone, -⟩ | ⟨q, hsome, hiter⟩
  · rw [hprev] at hnone
    cases hnone
  · rw [hprev, Option.some.injEq] at hsome
    exact ⟨q, hsome, hiter⟩

theorem Walker.iter_slot (hw : Walker type g h) : ∃ q, h.iter = g.slot q := by
  rcases hw.place with ⟨-, hiter⟩ | ⟨q, -, hiter⟩
  · exact hiter
  · exact ⟨q + 1, hiter⟩

/-- The helper goes on to the next segment of the ring. -/
theorem Walker.advance (hw : Walker type g h)
    (hchain : ∀ j, nextSegmentAt m (g.slot j) = g.slot (j + 1)) :
    Walker type g { h with
      prev := some h.iter
      iter := (readHeader m h.iter).nextSegmentOffset } := by
  obtain ⟨q, hq⟩ := hw.iter_slot
  refine ⟨Or.inr ⟨q, by rw [hq], ?_⟩, hw.sentinel, hw.counterOffset⟩
  rw [hq]
  exact hchain q

/-- A store to the sentinel or to the segment behind the helper. -/
theorem Walker.prevWrite (hw : Walker type g h) (hwrite : PrevWrite m m' h h' f)
    (hend : ∀ y, (f y).isEndSegment = y.isEndSegment) :
    h'.ring = h.ring ∧ h'.prev = h.prev ∧ h'.iter = h.iter ∧ Walker type g h' := by
  cases hprev : h.prev with
  | none =>
    obtain ⟨-, rfl⟩ := hwrite.none hprev
    refine ⟨rfl, hprev, rfl, hw.place, ?_, hw.counterOffset⟩
    rw [hend]
    exact hw.sentinel
  | some off =>
    obtain ⟨rfl, -⟩ := hwrite.some off hprev
    exact ⟨rfl, hprev, rfl, hw⟩

/-- Flags of a header in memory fit their word after a change that adds no bit beyond the
flags. -/
theorem flags_modify_lt (m : Mem) (off : ℕ) :
    ((readHeader m off).setConsumable false).segmentFlags < sizeTBound ∧
      ((readHeader m off).setWriteable true).segmentFlags < sizeTBound := by
  have hlt := (fits_readHeader m off).2.2
  constructor
  · exact Nat.and_le_left.trans_lt hlt
  · exact Nat.or_lt_two_pow (n := 64) hlt (by decide)

/-- What such a store does to the headers of the ring. -/
theorem PrevWrite.changes (hwrite : PrevWrite m m' h h' f) {q : ℕ}
    (hprev : h.prev = Option.some (g.slot q)) : g.ChangesHeader q f m m' := by
  obtain ⟨-, hread, hout⟩ := hwrite.some _ hprev
  intro j
  split_ifs with heq
  · rw [heq, hread]
  · have hapart := (g.slot_eq_or_apart q j).resolve_left heq
    apply AgreeOn.readHeader
    apply hout
    unfold RingGeometry.fullSize at hapart
    omega

end

/-- What a step of the iterator on one ring has to keep: `K` of each ring, and `At` of a helper
at a place in the program. -/
structure RingRules (type : Buffertype) (b : BufferRings k) (K : Fin k → Mem → Prop)
    (At : Mem → IterHelper k → IteratorPc → Prop) : Prop where
  frame : ∀ r m m',
    AgreeOn m' m ((b.ring r).block b.type).start ((b.ring r).block b.type).length → K r m →
    K r m' ∧ ∀ h pc, h.ring = r → At m h pc → At m' h pc
  leave : ∀ m h, At m h .idle ↔ At m h .loop
  again : ∀ m h, At m h .ready → At m h .loop
  loop : ∀ m h, K h.ring m → At m h .loop →
    At m h (if (h.prevHeader m).isEndSegment then .mark .checkEnd false else .testConsumable)
  test : ∀ m h, K h.ring m → At m h .testConsumable →
    At m h (if (readHeader m h.iter).isConsumable then .ready else .loop)
  next : ∀ m h, K h.ring m → At m h .ready → At m h (.mark .checkEnd true)
  mark : ∀ m h step inNext bs as m' h' pc', K h.ring m → At m h (.mark step inNext) →
    BufferIterator.markStep type m ⟨⟨bs, h :: as⟩, .mark step inNext⟩ h inNext step =
      (m', ⟨⟨bs, h' :: as⟩, pc'⟩) →
    h'.ring = h.ring ∧ K h.ring m' ∧ At m' h' pc' ∧ ∀ r, r ≠ h.ring →
      AgreeOn m' m ((b.ring r).block b.type).start ((b.ring r).block b.type).length
  size : ∀ m h size, At m h .getRawData → At m h (.advance size)
  advance : ∀ m h size, K h.ring m → At m h (.advance size) →
    At m { h with
      prev := some h.iter
      iter := (readHeader m h.iter).nextSegmentOffset } .idle

/-- Each ring and each helper is as it should be. -/
structure Walks (K : Fin k → Mem → Prop) (At : Mem → IterHelper k → IteratorPc → Prop)
    (m : Mem) (it : BufferIterator k) : Prop where
  ring : ∀ r, K r m
  nodup : (it.segmentIterators.toList.map IterHelper.ring).Nodup
  helper : ∀ h ∈ it.segmentIterators.toList, At m h (it.pcAt h.ring)
  atEnd : it.segmentIterators.get? = none → it.pc = .idle ∨ it.pc = .loop

section

variable {type : Buffertype} {b : BufferRings k} {K : Fin k → Mem → Prop}
  {At : Mem → IterHelper k → IteratorPc → Prop} {m m' : Mem} {it it' : BufferIterator k}
  {bs as : List (IterHelper k)} {h h' : IterHelper k} {pc pc' : IteratorPc}

theorem Walks.current (hw : Walks K At m ⟨⟨bs, h :: as⟩, pc⟩) :
    At m h pc ∧ ∀ y ∈ bs.reverse ++ as, y.ring ≠ h.ring ∧ At m y .idle := by
  have hcur := hw.helper h (mem_toList_cons bs as h)
  rw [BufferIterator.pcAt_cons, if_pos rfl] at hcur
  refine ⟨hcur, fun y hy => ?_⟩
  have hnodup := hw.nodup
  rw [Cursor.toList_mk, List.map_append, List.map_cons, List.perm_middle.nodup_iff,
    List.nodup_cons, ← List.map_append] at hnodup
  have hne : y.ring ≠ h.ring := fun heq => hnodup.1 (heq ▸ List.mem_map_of_mem hy)
  have hmem : y ∈ (Cursor.mk bs (h :: as)).toList := by
    simp only [Cursor.toList_mk, List.mem_append, List.mem_cons] at hy ⊢
    tauto
  have hat := hw.helper y hmem
  rw [BufferIterator.pcAt_cons, if_neg (Ne.symm hne)] at hat
  exact ⟨hne, hat⟩

/-- A step on the current ring. -/
theorem Walks.put (rules : RingRules type b K At) (hw : Walks K At m ⟨⟨bs, h :: as⟩, pc⟩)
    (hring : h'.ring = h.ring) (hK : K h.ring m') (hat : At m' h' pc')
    (hagree : ∀ r, r ≠ h.ring →
      AgreeOn m' m ((b.ring r).block b.type).start ((b.ring r).block b.type).length) :
    Walks K At m' ⟨⟨bs, h' :: as⟩, pc'⟩ := by
  obtain ⟨-, hothers⟩ := hw.current
  refine ⟨fun r => ?_, ?_, fun y hy => ?_, by simp⟩
  · by_cases hr : r = h.ring
    · rw [hr]
      exact hK
    · exact (rules.frame r m m' (hagree r hr) (hw.ring r)).1
  · have hnodup := hw.nodup
    simpa only [Cursor.toList_mk, List.map_append, List.map_cons, hring] using hnodup
  · have hy' : y = h' ∨ y ∈ bs.reverse ++ as := by
      simp only [Cursor.toList_mk, List.mem_append, List.mem_cons] at hy ⊢
      tauto
    rcases hy' with rfl | hy'
    · rw [BufferIterator.pcAt_cons, if_pos rfl]
      exact hat
    · obtain ⟨hne, hidle⟩ := hothers y hy'
      rw [BufferIterator.pcAt_cons, hring, if_neg (Ne.symm hne)]
      exact (rules.frame y.ring m m' (hagree _ hne) (hw.ring _)).2 y .idle rfl hidle

/-- A step on the current ring that leaves memory alone. -/
theorem Walks.stay (rules : RingRules type b K At) (hw : Walks K At m ⟨⟨bs, h :: as⟩, pc⟩)
    (hat : At m h pc') : Walks K At m ⟨⟨bs, h :: as⟩, pc'⟩ :=
  hw.put rules rfl (hw.ring h.ring) hat fun _ _ => AgreeOn.refl _ _ _

/-- Between calls the position in the list can change freely. -/
theorem Walks.rest (rules : RingRules type b K At) {c c' : Cursor (IterHelper k)}
    (hw : Walks K At m ⟨c, pc⟩) (hlist : c'.toList = c.toList)
    (hcur : ∀ y ∈ c.get?, At m y .idle) (hpc' : pc' = .idle ∨ pc' = .loop) :
    Walks K At m ⟨c', pc'⟩ := by
  refine ⟨hw.ring, by rw [hlist]; exact hw.nodup, fun y hy => ?_, fun _ => hpc'⟩
  have hidle : At m y .idle := by
    have hat := hw.helper y (hlist ▸ hy)
    unfold BufferIterator.pcAt at hat
    split at hat
    · next x hx =>
      split_ifs at hat with heq
      · have hmem : x ∈ c.toList := Cursor.mem_toList_of_get? hx
        have hxy : x = y := List.inj_on_of_nodup_map hw.nodup hmem (hlist ▸ hy) heq
        exact hxy ▸ hcur x hx
      · exact hat
    · exact hat
  unfold BufferIterator.pcAt
  split
  · split_ifs
    · rcases hpc' with rfl | rfl
      · exact hidle
      · exact (rules.leave m y).mp hidle
    · exact hidle
  · exact hidle

/-- A write to one ring by its writer. -/
theorem Walks.writes (rules : RingRules type b K At) {K' : Fin k → Mem → Prop}
    (hw : Walks K At m it) {r : Fin k}
    (hagree : ∀ r', r' ≠ r →
      AgreeOn m' m ((b.ring r').block b.type).start ((b.ring r').block b.type).length)
    (hown : K' r m') (hothers : ∀ r', r' ≠ r → K r' m' → K' r' m')
    (hat : ∀ h ∈ it.segmentIterators.toList, h.ring = r → At m h (it.pcAt r) →
      At m' h (it.pcAt r)) : Walks K' At m' it := by
  refine ⟨fun r' => ?_, hw.nodup, fun h hh => ?_, hw.atEnd⟩
  · by_cases hr : r' = r
    · rw [hr]
      exact hown
    · exact hothers r' hr (rules.frame r' m m' (hagree r' hr) (hw.ring r')).1
  · have hold := hw.helper h hh
    by_cases hr : h.ring = r
    · rw [hr] at hold ⊢
      exact hat h hh hr hold
    · exact (rules.frame h.ring m m' (hagree _ hr) (hw.ring _)).2 h _ rfl hold

/-- The iterator goes on to the next ring. -/
theorem Walks.leave (rules : RingRules type b K At) (hw : Walks K At m ⟨⟨bs, h :: as⟩, pc⟩)
    (hring : h'.ring = h.ring) (hat : At m h' .idle) : Walks K At m ⟨⟨h' :: bs, as⟩, .idle⟩ := by
  have hput := hw.put rules hring (hw.ring h.ring) hat fun _ _ => AgreeOn.refl _ _ _
  apply hput.rest rules
  · rw [Cursor.toList_mk, Cursor.toList_mk, List.reverse_cons, List.append_assoc,
      List.singleton_append]
  · intro y hy
    cases hy
    exact hat
  · exact Or.inl rfl

/-- A ring is taken off the list. -/
theorem Walks.erase (rules : RingRules type b K At) (hw : Walks K At m ⟨⟨bs, h :: as⟩, pc⟩) :
    Walks K At m ⟨⟨bs, as⟩, .loop⟩ := by
  obtain ⟨-, hothers⟩ := hw.current
  refine ⟨hw.ring, ?_, fun y hy => ?_, fun _ => Or.inr rfl⟩
  · have hnodup := hw.nodup
    rw [Cursor.toList_mk, List.map_append, List.map_cons, List.perm_middle.nodup_iff,
      List.nodup_cons, ← List.map_append] at hnodup
    exact hnodup.2
  · have hidle := (hothers y hy).2
    unfold BufferIterator.pcAt
    split
    · split_ifs
      · exact (rules.leave m y).mp hidle
      · exact hidle
    · exact hidle

/-- Head of the loop of `has_next`. -/
theorem Walks.loopStep (rules : RingRules type b K At) {c : Cursor (IterHelper k)}
    (hw : Walks K At m ⟨c, .loop⟩) : Walks K At m (BufferIterator.loopStep m ⟨c, .loop⟩).1 := by
  have hlist : (if c.atEnd then Cursor.start c.toList else c).toList = c.toList := by
    split_ifs <;> simp
  have hcur : ∀ y ∈ c.get?, At m y .idle := by
    intro y hy
    have hat := hw.helper y (Cursor.mem_toList_of_get? hy)
    simp only [BufferIterator.pcAt, Option.mem_def.mp hy, if_true] at hat
    exact (rules.leave m y).mpr hat
  have hw' : Walks K At m ⟨if c.atEnd then .start c.toList else c, .loop⟩ :=
    hw.rest rules hlist hcur (Or.inr rfl)
  simp only [BufferIterator.loopStep]
  generalize (if c.atEnd then Cursor.start c.toList else c) = c' at hw'
  obtain ⟨bs, as⟩ := c'
  cases as with
  | nil => exact hw'.rest rules rfl (by simp) (Or.inl rfl)
  | cons h as =>
    have hat := rules.loop m h (hw'.ring h.ring) hw'.current.1
    simp only [Cursor.get?_cons]
    split_ifs at hat ⊢ <;> exact hw'.stay rules hat

theorem Walks.run (rules : RingRules type b K At) (hw : Walks K At m ⟨⟨bs, h :: as⟩, pc⟩)
    {events : List (RingEvent k)}
    (hstep : BufferIterator.step type m ⟨⟨bs, h :: as⟩, pc⟩ .run = some (m', it', events)) :
    Walks K At m' it' := by
  have hK := hw.ring h.ring
  obtain ⟨hat, hothers⟩ := hw.current
  cases pc with
  | idle => simp [BufferIterator.step] at hstep
  | ready => simp [BufferIterator.step] at hstep
  | loop =>
    simp only [BufferIterator.step, Option.some.injEq, Prod.mk.injEq] at hstep
    obtain ⟨rfl, rfl, -⟩ := hstep
    exact hw.loopStep rules
  | testConsumable =>
    have htest := rules.test m h hK hat
    simp only [BufferIterator.step, Cursor.get?_cons, Cursor.next_cons] at hstep
    split_ifs at hstep htest <;> cases hstep
    · exact hw.stay rules htest
    · have hloop := hw.stay rules htest
      exact hloop.rest rules (by simp) (by simpa using (rules.leave m h).mpr htest) (Or.inr rfl)
  | mark step inNext =>
    obtain ⟨m'', h', pc', hmark, -⟩ := BufferIterator.markStep_cursor type m bs as h step inNext
    simp only [BufferIterator.step, Cursor.get?_cons, hmark, Option.some.injEq,
      Prod.mk.injEq] at hstep
    obtain ⟨rfl, rfl, -⟩ := hstep
    obtain ⟨hring, hK', hat', hagree⟩ := rules.mark m h step inNext bs as _ _ _ hK hat hmark
    exact hw.put rules hring hK' hat' hagree
  | erase =>
    simp only [BufferIterator.step, Cursor.get?_cons, Cursor.erase_cons, Option.some.injEq,
      Prod.mk.injEq] at hstep
    obtain ⟨rfl, rfl, -⟩ := hstep
    exact hw.erase rules
  | getRawData =>
    simp only [BufferIterator.step, Cursor.get?_cons, Option.some.injEq, Prod.mk.injEq] at hstep
    obtain ⟨rfl, rfl, -⟩ := hstep
    exact hw.stay rules (rules.size m h _ hat)
  | advance size =>
    simp only [BufferIterator.step, Cursor.get?_cons, Cursor.modify_cons, Cursor.next_cons,
      Option.some.injEq, Prod.mk.injEq] at hstep
    obtain ⟨rfl, rfl, -⟩ := hstep
    exact hw.leave rules rfl (rules.advance m h size hK hat)

/-- Every step of the iterator keeps what the rules keep. -/
theorem Walks.step (rules : RingRules type b K At) (hw : Walks K At m it)
    {action : IteratorAction} {events : List (RingEvent k)}
    (hstep : it.step type m action = some (m', it', events)) : Walks K At m' it' := by
  obtain ⟨⟨bs, as⟩, pc⟩ := it
  cases action with
  | hasNext =>
    simp only [BufferIterator.step] at hstep
    split_ifs at hstep with hpc
    cases hstep
    cases as with
    | nil => exact hw.rest rules rfl (by simp) (Or.inr rfl)
    | cons h as =>
      have hat := hw.current.1
      rcases hpc with rfl | rfl
      · exact hw.stay rules ((rules.leave m h).mp hat)
      · exact hw.stay rules (rules.again m h hat)
  | next =>
    cases as with
    | nil => cases pc <;> simp [BufferIterator.step] at hstep
    | cons h as =>
      cases pc with
      | ready =>
        simp only [BufferIterator.step, Cursor.get?_cons, Option.some.injEq,
          Prod.mk.injEq] at hstep
        obtain ⟨rfl, rfl, -⟩ := hstep
        exact hw.stay rules (rules.next m h (hw.ring h.ring) hw.current.1)
      | _ => simp [BufferIterator.step] at hstep
  | run =>
    cases as with
    | cons h as => exact hw.run rules hstep
    | nil =>
      rcases hw.atEnd rfl with hpc | hpc <;> simp only at hpc <;> subst hpc
      · simp [BufferIterator.step] at hstep
      · simp only [BufferIterator.step, Option.some.injEq, Prod.mk.injEq] at hstep
        obtain ⟨rfl, rfl, -⟩ := hstep
        exact hw.loopStep rules

end
end DpiLibrary
