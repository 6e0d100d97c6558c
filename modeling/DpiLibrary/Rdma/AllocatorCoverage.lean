import DpiLibrary.Rdma.AllocatorConservation

/-!
# Which addresses the allocator has handed out

Requests of size zero are answered too, and the blocks they leave contain no
address. What is kept without a bound on the sizes is how often each address is
covered by the free and the live blocks together.
-/

namespace DpiLibrary
namespace RDMAManager

theorem exists_contains_iff (l : List RdmaMem) (x : ℕ) :
    (∃ b ∈ l, b.span.Contains x) ↔ 0 < cover (l.map RdmaMem.span) x := by
  simp [cover_pos]

/-- An address that a later allocation may hand out. -/
def Available (m : RDMAManager) (x : ℕ) : Prop := ∃ b ∈ m.rdmaMem, b.span.Contains x

theorem available_iff (m : RDMAManager) (x : ℕ) :
    m.Available x ↔ 0 < cover (m.rdmaMem.map RdmaMem.span) x := exists_contains_iff m.rdmaMem x

/-- The free block that a request is served from. -/
def servedFrom (m : RDMAManager) (size : ℕ) : Option RdmaMem :=
  m.rdmaMem.find? fun b => b.free && size ≤ b.size

theorem firstFit_fst (size : ℕ) : ∀ (l : List RdmaMem) (c : Cursor RdmaMem),
    (firstFit size c l).map Prod.fst = l.find? fun b => b.free && size ≤ b.size := by
  intro l
  induction l with
  | nil => intro c; rfl
  | cons memRes rest ih =>
    intro c
    by_cases hfit : (memRes.free && decide (size ≤ memRes.size)) = true
    · simp [firstFit, hfit]
    · rw [firstFit, if_neg hfit]
      simpa [List.find?_cons, hfit] using ih c.next

/-- An allocation looked at through the block it is served from. -/
theorem internalAlloc_servedFrom (m : RDMAManager) (size : ℕ) :
    m.servedFrom size = none ∧ m.internalAlloc size = (m, .null) ∨
      ∃ pre b post, m.servedFrom size = some b ∧ m.rdmaMem = pre ++ b :: post ∧
        b.free = true ∧ size ≤ b.size ∧
        m.internalAlloc size =
          ({ m with
              rdmaMem := pre ++ remainder b size ++ post
              usedRdmaMem := m.usedRdmaMem.insert b.offset (.ofBlock size false b.offset) },
            .ofBlock size false b.offset) := by
  have hfst := firstFit_fst size m.rdmaMem (.start m.rdmaMem)
  cases h : firstFit size (.start m.rdmaMem) m.rdmaMem with
  | none =>
    rw [h] at hfst
    apply Or.inl
    constructor
    · exact hfst.symm
    · simp [internalAlloc, h]
  | some found =>
    obtain ⟨b, l'⟩ := found
    rw [h] at hfst
    obtain ⟨pre, post, hl, hfree, hle, hl'⟩ := firstFit_spec size m.rdmaMem [] b l' h
    exact Or.inr ⟨pre, b, post, hfst.symm, hl, hfree, hle, by simp [internalAlloc, h, hl']⟩

/-- The block taken and the remainder cover what the free block did. -/
theorem cover_take {size : ℕ} {b : RdmaMem} (hle : size ≤ b.size) (l : List Span) (x : ℕ) :
    cover ((RdmaMem.ofBlock size false b.offset).span ::
      ((remainder b size).map RdmaMem.span ++ l)) x = cover (b.span :: l) x := by
  rcases hle.eq_or_lt with heq | hlt
  · simp [remainder, RdmaMem.span, RdmaMem.ofBlock, heq]
  · have hjoin := cover_join b.offset size (b.size - size) l x
    rw [Nat.add_sub_cancel' hle] at hjoin
    simpa [remainder, hlt, RdmaMem.span, RdmaMem.ofBlock] using hjoin

theorem cover_alloc {m : RDMAManager} {size : ℕ} {pre post : List RdmaMem} {b : RdmaMem}
    (hsplit : m.rdmaMem = pre ++ b :: post) (hle : size ≤ b.size)
    (hfresh : b.offset ∉ m.usedRdmaMem) (x : ℕ) :
    cover (spans { m with
      rdmaMem := pre ++ remainder b size ++ post
      usedRdmaMem := m.usedRdmaMem.insert b.offset (.ofBlock size false b.offset) }) x =
      cover m.spans x := by
  rw [cover_perm (spans_alloc_perm hfresh), cover_take hle,
    cover_perm (spans_perm_of_split hsplit)]

theorem cover_absorbNext (b : RdmaMem) (post : List RdmaMem) (x : ℕ) :
    cover ((absorbNext b post).map RdmaMem.span) x =
      cover ((b :: post).map RdmaMem.span) x := by
  cases post with
  | nil => rfl
  | cons n post =>
    by_cases htouch : b.offset + b.size = n.offset
    · have hjoin := cover_join b.offset b.size n.size (post.map RdmaMem.span) x
      rw [htouch] at hjoin
      simpa [absorbNext, htouch, RdmaMem.span] using hjoin.symm
    · simp [absorbNext, htouch]

theorem cover_mergeFreeMem (b : RdmaMem) (bs as : List RdmaMem) (x : ℕ) :
    cover ((mergeFreeMem ⟨bs, b :: as⟩).toList.map RdmaMem.span) x =
      cover ((bs.reverse ++ b :: as).map RdmaMem.span) x := by
  rw [mergeFreeMem_toList]
  cases bs with
  | nil => simpa using cover_absorbNext b as x
  | cons p ps =>
    by_cases htouch : p.offset + p.size = b.offset
    · have hjoin := cover_join p.offset p.size b.size (as.map RdmaMem.span) x
      rw [htouch, Nat.add_comm p.size] at hjoin
      have hnext := cover_absorbNext { p with size := b.size + p.size } as x
      simp only [List.map_cons] at hnext
      simp only [htouch, if_true, List.map_append, cover_append, hnext, List.reverse_cons,
        List.append_assoc, List.singleton_append, List.map_cons]
      exact congrArg _ hjoin.symm
    · have hnext := cover_absorbNext b as x
      simp only [htouch, if_false, List.map_append, cover_append, List.map_cons, cover_cons,
        List.reverse_cons, List.append_assoc, List.singleton_append] at hnext ⊢
      omega

/-- A free that finds its place succeeds and adds the addresses of its block to the free ones. -/
theorem free_found {m : RDMAManager} {offset : ℕ} {b : RdmaMem}
    (hb : m.usedRdmaMem.lookup offset = some b) (hplace : m.FindsPlace (.free offset)) :
    (m.internalFree offset).2 = true ∧
      (m.internalFree offset).1.usedRdmaMem = m.usedRdmaMem.erase offset ∧
      ∀ x, cover ((m.internalFree offset).1.rdmaMem.map RdmaMem.span) x =
        cover (b.span :: m.rdmaMem.map RdmaMem.span) x := by
  rcases m.internalFree_cases offset with
    ⟨hnil, h⟩ | ⟨hne, hall, -⟩ | ⟨pre, f, post, hsplit, -, -, h⟩
  · rw [h, freedBlock_eq hb, hnil]
    exact ⟨rfl, rfl, fun _ => rfl⟩
  · rcases hplace with hnil | ⟨pre, f, post, hsplit, hadm⟩
    · exact absurd hnil hne
    · exact absurd hadm (hall pre f post hsplit)
  · rw [h, freedBlock_eq hb, hsplit]
    refine ⟨rfl, rfl, fun x => ?_⟩
    rw [cover_mergeFreeMem, List.reverse_reverse]
    have hmove : (pre ++ { b with free := true } :: f :: post).Perm
        ({ b with free := true } :: (pre ++ f :: post)) := List.perm_middle
    exact cover_perm (hmove.map RdmaMem.span) x

/-- Free and live blocks end inside the memory. This needs no good behaviour of the clients:
any offset may be freed. -/
structure WithinMemory (m : RDMAManager) : Prop where
  freeBlocks : ∀ b ∈ m.rdmaMem, b.free = true ∧ b.span.Inside m.memSize
  liveBlocks : ∀ offset b, m.usedRdmaMem.lookup offset = some b → b.span.Inside m.memSize

theorem withinMemory_init (memSize : ℕ) : WithinMemory (init memSize) where
  freeBlocks := by simp [init, RdmaMem.ofBlock, RdmaMem.span, Span.Inside]
  liveBlocks := by simp [init]

theorem memSize_internalAlloc (m : RDMAManager) (size : ℕ) :
    (m.internalAlloc size).1.memSize = m.memSize := by
  rcases m.internalAlloc_cases size with h | ⟨pre, b, post, -, -, -, h⟩ <;> rw [h]

theorem memSize_internalFree (m : RDMAManager) (offset : ℕ) :
    (m.internalFree offset).1.memSize = m.memSize := by
  rcases m.internalFree_cases offset with ⟨-, h⟩ | ⟨-, -, h⟩ | ⟨pre, f, post, -, -, -, h⟩ <;>
    rw [h]

theorem usedRdmaMem_internalFree (m : RDMAManager) (offset : ℕ) :
    (m.internalFree offset).1.usedRdmaMem = m.usedRdmaMem.erase offset := by
  rcases m.internalFree_cases offset with ⟨-, h⟩ | ⟨-, -, h⟩ | ⟨pre, f, post, -, -, -, h⟩ <;>
    rw [h]

theorem WithinMemory.alloc {m : RDMAManager} (hm : WithinMemory m) (size : ℕ) :
    WithinMemory (m.internalAlloc size).1 := by
  rcases m.internalAlloc_cases size with h | ⟨pre, b, post, hsplit, -, hle, h⟩
  · rw [h]
    exact hm
  · have hb := (hm.freeBlocks b (by simp [hsplit])).2
    simp only [Span.Inside, RdmaMem.span_start, RdmaMem.span_length] at hb
    rw [h]
    constructor
    · intro c hc
      simp only [List.mem_append] at hc
      rcases hc with (hc | hc) | hc
      · exact hm.freeBlocks c (by simp [hsplit, hc])
      · unfold remainder at hc
        split_ifs at hc with hlt
        · rw [List.mem_singleton.mp hc]
          simp only [RdmaMem.ofBlock, Span.Inside, RdmaMem.span, true_and]
          omega
        · cases hc
      · exact hm.freeBlocks c (by simp [hsplit, hc])
    · intro offset c hc
      by_cases ho : offset = b.offset
      · rw [ho, AList.lookup_insert] at hc
        cases hc
        simp only [RdmaMem.ofBlock, Span.Inside, RdmaMem.span]
        omega
      · rw [AList.lookup_insert_ne ho] at hc
        exact hm.liveBlocks offset c hc

theorem inside_mergeFreeMem {limit : ℕ} {b : RdmaMem} {bs as : List RdmaMem}
    (h : ∀ c ∈ bs.reverse ++ b :: as, c.free = true ∧ c.span.Inside limit) :
    ∀ c ∈ (mergeFreeMem ⟨bs, b :: as⟩).toList, c.free = true ∧ c.span.Inside limit := by
  refine forall_mergeFreeMem ?_ h
  rintro p q htouch ⟨hfree, -⟩ ⟨-, hend⟩
  constructor
  · exact hfree
  · simp only [Span.Inside, RdmaMem.span] at hend ⊢
    omega

theorem WithinMemory.freed {m : RDMAManager} (hm : WithinMemory m) (offset : ℕ) :
    (m.freedBlock offset).free = true ∧ (m.freedBlock offset).span.Inside m.memSize := by
  refine ⟨rfl, ?_⟩
  unfold freedBlock
  cases h : m.usedRdmaMem.lookup offset with
  | none => simp [RdmaMem.null, RdmaMem.span, Span.Inside]
  | some b => exact hm.liveBlocks offset b h

theorem WithinMemory.free {m : RDMAManager} (hm : WithinMemory m) (offset : ℕ) :
    WithinMemory (m.internalFree offset).1 := by
  have hused : ∀ o b, (m.usedRdmaMem.erase offset).lookup o = some b →
      b.span.Inside m.memSize := by
    intro o b hb
    by_cases ho : o = offset
    · subst ho
      simp at hb
    · rw [AList.lookup_erase_ne ho] at hb
      exact hm.liveBlocks o b hb
  rcases m.internalFree_cases offset with ⟨-, h⟩ | ⟨-, -, h⟩ | ⟨pre, f, post, hsplit, -, -, h⟩
  · rw [h]
    exact ⟨by simpa using hm.freed offset, hused⟩
  · rw [h]
    exact ⟨hm.freeBlocks, hused⟩
  · rw [h]
    refine ⟨inside_mergeFreeMem ?_, hused⟩
    intro c hc
    simp only [List.reverse_reverse, List.mem_append, List.mem_cons] at hc
    rcases hc with hc | rfl | hc
    · exact hm.freeBlocks c (by simp [hsplit, hc])
    · exact hm.freed offset
    · exact hm.freeBlocks c (by rw [hsplit]; simp [hc])

/-- An allocation fails exactly when every free block is too small. -/
theorem WithinMemory.servedFrom_eq_none {m : RDMAManager} (hm : WithinMemory m) (size : ℕ) :
    m.servedFrom size = none ↔ ¬ ∃ b ∈ m.rdmaMem, size ≤ b.size := by
  simp only [servedFrom, List.find?_eq_none, not_exists, not_and]
  constructor
  · intro h b hb hle
    exact h b hb (by simp [(hm.freeBlocks b hb).1, hle])
  · intro h b hb hfit
    simp only [Bool.and_eq_true, decide_eq_true_eq] at hfit
    exact h b hb hfit.2

theorem cover_sublist {l l' : List Span} (h : l.Sublist l') (x : ℕ) : cover l x ≤ cover l' x :=
  h.countP_le

theorem values_erase_sublist (used : UsedMem) (offset : ℕ) :
    ((used.erase offset).entries.map fun e => e.2.span).Sublist
      (used.entries.map fun e => e.2.span) :=
  (List.kerase_sublist offset used.entries).map _

theorem spans_eq (m : RDMAManager) :
    m.spans = m.rdmaMem.map RdmaMem.span ++ m.usedRdmaMem.entries.map fun e => e.2.span := by
  simp [spans, liveBlocks, Function.comp_def]

/-- Whatever is requested and freed, no address is covered twice. -/
structure Accounted (m : RDMAManager) : Prop where
  covered : ∀ x, cover m.spans x ≤ 1
  within : WithinMemory m
  keyed : ∀ offset b, m.usedRdmaMem.lookup offset = some b → b.offset = offset

theorem accounted_init (memSize : ℕ) : Accounted (init memSize) where
  covered x := by
    simp only [spans_init, cover_cons, cover_nil]
    split_ifs <;> omega
  within := withinMemory_init memSize
  keyed := by simp [init]

/-- A record that is overwritten only loses its addresses. -/
theorem Accounted.alloc {m : RDMAManager} (hm : Accounted m) (size : ℕ) :
    Accounted (m.internalAlloc size).1 := by
  refine ⟨fun x => ?_, hm.within.alloc size, ?_⟩
  · rcases m.internalAlloc_cases size with h | ⟨pre, b, post, hsplit, -, hle, h⟩
    · rw [h]
      exact hm.covered x
    · have herase := cover_sublist (values_erase_sublist m.usedRdmaMem b.offset) x
      have htake := cover_take hle [] x
      have hbefore := hm.covered x
      rw [spans_eq, hsplit] at hbefore
      rw [h, spans_eq]
      simp only [AList.entries_insert, AList.erase, List.map_append, List.map_cons,
        cover_append, cover_cons, cover_nil, List.append_nil] at herase htake hbefore ⊢
      omega
  · rcases m.internalAlloc_cases size with h | ⟨pre, b, post, -, -, -, h⟩
    · rw [h]
      exact hm.keyed
    · rw [h]
      exact keyed_insert hm.keyed

theorem Accounted.free {m : RDMAManager} (hm : Accounted m) (offset : ℕ) :
    Accounted (m.internalFree offset).1 := by
  have hmove : ∀ x, cover ((m.freedBlock offset).span :: spans
      { m with usedRdmaMem := m.usedRdmaMem.erase offset }) x ≤ cover m.spans x := by
    intro x
    cases hb : m.usedRdmaMem.lookup offset with
    | none =>
      have herase := cover_sublist (values_erase_sublist m.usedRdmaMem offset) x
      have hnone : ¬ (m.freedBlock offset).span.Contains x := by
        simp [freedBlock, hb, RdmaMem.null, RdmaMem.span, Span.Contains]
      rw [cover_cons, if_neg hnone, spans_eq, spans_eq, cover_append, cover_append]
      exact Nat.add_le_add_left herase _
    | some b =>
      rw [freedBlock_eq hb]
      exact (cover_perm (spans_free_perm hb) x).ge
  refine ⟨fun x => ?_, hm.within.free offset, ?_⟩
  · refine le_trans ?_ ((hmove x).trans (hm.covered x))
    rcases m.internalFree_cases offset with
      ⟨hnil, h⟩ | ⟨-, -, h⟩ | ⟨pre, f, post, hsplit, -, -, h⟩
    · rw [h, spans_eq, spans_eq, hnil]
      simp [cover_cons]
    · rw [h, cover_cons]
      exact Nat.le_add_right _ _
    · rw [h, spans_eq, spans_eq, hsplit]
      simp only [cover_append, cover_cons, cover_mergeFreeMem, List.map_append, List.map_cons,
        List.reverse_reverse]
      omega
  · rcases m.internalFree_cases offset with ⟨-, h⟩ | ⟨-, -, h⟩ | ⟨pre, f, post, -, -, -, h⟩ <;>
      rw [h] <;> exact keyed_erase hm.keyed

/-- A block has been taken from the free ones and is recorded as live. -/
structure Taken (m : RDMAManager) (size offset : ℕ) (m' : RDMAManager) : Prop where
  memSize : m'.memSize = m.memSize
  accounted : m.Accounted → m'.Accounted
  used : m'.usedRdmaMem = m.usedRdmaMem.insert offset (.ofBlock size false offset)
  free : ∀ x, cover (m'.rdmaMem.map RdmaMem.span) x +
    (if (Span.mk offset size).Contains x then 1 else 0) = cover (m.rdmaMem.map RdmaMem.span) x

theorem internalAlloc_taken (m : RDMAManager) (size : ℕ) :
    m.internalAlloc size = (m, .null) ∨ ∃ offset,
      (m.internalAlloc size).2 = .ofBlock size false offset ∧
        Taken m size offset (m.internalAlloc size).1 := by
  rcases m.internalAlloc_cases size with h | ⟨pre, b, post, hsplit, -, hle, h⟩
  · exact Or.inl h
  · refine Or.inr ⟨b.offset, by rw [h], memSize_internalAlloc m size, fun hm => hm.alloc size,
      by rw [h], fun x => ?_⟩
    have htake := cover_take hle [] x
    rw [h, hsplit]
    simp only [List.map_append, List.map_cons, cover_append, cover_cons, cover_nil,
      List.append_nil, RdmaMem.span, RdmaMem.ofBlock] at htake ⊢
    omega

theorem Taken.lookup {m m' : RDMAManager} {size offset : ℕ} (h : Taken m size offset m') :
    m'.usedRdmaMem.lookup offset = some (.ofBlock size false offset) := by
  rw [h.used, AList.lookup_insert]

theorem Taken.cover_le {m m' : RDMAManager} {size offset : ℕ} (h : Taken m size offset m')
    (x : ℕ) : cover (m'.rdmaMem.map RdmaMem.span) x ≤ cover (m.rdmaMem.map RdmaMem.span) x := by
  rw [← h.free x]
  exact Nat.le_add_right _ _

/-- Every address of the block was free before. -/
theorem Taken.cover_pos {m m' : RDMAManager} {size offset : ℕ} (h : Taken m size offset m')
    {x : ℕ} (hx : (Span.mk offset size).Contains x) :
    0 < cover (m.rdmaMem.map RdmaMem.span) x := by
  rw [← h.free x, if_pos hx]
  exact Nat.succ_pos _

theorem Accounted.cover_free_le {m : RDMAManager} (hm : Accounted m) (x : ℕ) :
    cover (m.rdmaMem.map RdmaMem.span) x + cover (m.liveBlocks.map RdmaMem.span) x ≤ 1 := by
  have hle := hm.covered x
  rwa [spans, List.map_append, cover_append] at hle

/-- No address of the block is free afterwards. -/
theorem Taken.cover_eq_zero {m m' : RDMAManager} {size offset : ℕ} (h : Taken m size offset m')
    (hm : Accounted m) {x : ℕ} (hx : (Span.mk offset size).Contains x) :
    cover (m'.rdmaMem.map RdmaMem.span) x = 0 := by
  have hfree := h.free x
  have hle := hm.cover_free_le x
  rw [if_pos hx] at hfree
  omega

end RDMAManager
end DpiLibrary
