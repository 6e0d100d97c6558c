import DpiLibrary.Rdma.AllocatorSafety

/-!
# Allocator conservation

An allocation cuts one free block in two, and a free that finds its place only
glues touching blocks, so the sizes keep their sum. A free without a place drops
its block: the record has left the map and enters no list.
-/

namespace DpiLibrary
namespace RDMAManager

open Schedule

/-- Free and live blocks together are as large as the memory. -/
def Conserved (m : RDMAManager) : Prop :=
  (m.rdmaMem.map RdmaMem.size).sum + (m.liveBlocks.map RdmaMem.size).sum = m.memSize

theorem conserved_iff (m : RDMAManager) : Conserved m ↔ totalLength m.spans = m.memSize := by
  have hlen : Span.length ∘ RdmaMem.span = RdmaMem.size := rfl
  simp only [Conserved, spans, totalLength, List.map_append, List.map_map, List.sum_append, hlen]

/-- The free block at which the search of `internalFree` stops, or an empty free list. -/
def FindsPlace (m : RDMAManager) : MemRequest → Prop
  | .alloc _ => True
  | .free offset =>
    m.rdmaMem = [] ∨ ∃ pre f post, m.rdmaMem = pre ++ f :: post ∧ Admits offset pre f

/-- A free reports success. -/
def FreeReturnsTrue (m : RDMAManager) : MemRequest → Prop
  | .alloc _ => True
  | .free offset => (m.internalFree offset).2 = true

theorem freeReturnsTrue_iff (m : RDMAManager) (r : MemRequest) :
    m.FreeReturnsTrue r ↔ m.FindsPlace r := by
  cases r with
  | alloc size => exact Iff.rfl
  | free offset =>
    unfold FreeReturnsTrue FindsPlace
    rcases m.internalFree_cases offset with
      ⟨hnil, h⟩ | ⟨hne, hall, h⟩ | ⟨pre, f, post, hsplit, hadm, -, h⟩
    · exact iff_of_true (by simp [h]) (Or.inl hnil)
    · refine iff_of_false (by simp [h]) ?_
      rintro (hnil | ⟨pre, f, post, hsplit, hadm⟩)
      · exact hne hnil
      · exact hall pre f post hsplit hadm
    · exact iff_of_true (by simp [h]) (Or.inr ⟨pre, f, post, hsplit, hadm⟩)

theorem memSize_step {m m' : RDMAManager} {r : MemRequest} (h : m.step r = some m') :
    m'.memSize = m.memSize := by
  cases r with
  | alloc size =>
    simp only [step] at h
    split_ifs at h
    cases h
    rcases m.internalAlloc_cases size with h | ⟨pre, b, post, -, -, -, h⟩ <;> rw [h]
  | free offset =>
    simp only [step] at h
    split_ifs at h
    cases h
    rcases m.internalFree_cases offset with ⟨-, h⟩ | ⟨-, -, h⟩ | ⟨pre, f, post, -, -, -, h⟩ <;>
      rw [h]

theorem totalLength_alloc {m : RDMAManager} (hm : Inv m) (size : ℕ) :
    totalLength (m.internalAlloc size).1.spans = totalLength m.spans := by
  rcases m.internalAlloc_cases size with h | ⟨pre, b, post, hsplit, -, hle, h⟩
  · rw [h]
  · have hfresh : b.offset ∉ m.usedRdmaMem := fresh_key hm (by simp [hsplit])
    rw [h, totalLength_perm (spans_alloc_perm hfresh),
      totalLength_perm (spans_perm_of_split hsplit)]
    have htake := totalLength_take hle
    simp only [totalLength_cons, totalLength_append, RdmaMem.span_length, RdmaMem.ofBlock]
    omega

/-- Putting a block back keeps the sum. -/
theorem totalLength_putBack {m : RDMAManager} {offset : ℕ} {b : RdmaMem}
    (hb : m.usedRdmaMem.lookup offset = some b) {pre post l : List RdmaMem}
    (hsplit : m.rdmaMem = pre ++ post)
    (hl : Rearranges (pre ++ { b with free := true } :: post) l) :
    totalLength (spans { m with rdmaMem := l, usedRdmaMem := m.usedRdmaMem.erase offset }) =
      totalLength m.spans := by
  have htotal := hl.total
  rw [totalLength_perm (spans_free_perm hb)]
  simp only [spans, liveBlocks, hsplit, List.map_append, List.map_cons, totalLength_append,
    totalLength_cons, RdmaMem.span_length] at htotal ⊢
  omega

theorem totalLength_free {m : RDMAManager} {offset : ℕ} (hlive : offset ∈ m.usedRdmaMem)
    (hplace : m.FindsPlace (.free offset)) :
    totalLength (m.internalFree offset).1.spans = totalLength m.spans := by
  obtain ⟨b, hb⟩ := lookup_of_mem hlive
  rcases m.internalFree_cases offset with
    ⟨hnil, h⟩ | ⟨hne, hall, -⟩ | ⟨pre, f, post, hsplit, -, -, h⟩
  · rw [h, freedBlock_eq hb]
    exact totalLength_putBack hb (show m.rdmaMem = [] ++ [] by simp [hnil]) (Rearranges.refl _)
  · rcases hplace with hnil | ⟨pre, f, post, hsplit, hadm⟩
    · exact absurd hnil hne
    · exact absurd hadm (hall pre f post hsplit)
  · rw [h, freedBlock_eq hb]
    refine totalLength_putBack hb hsplit ?_
    simpa using rearranges_mergeFreeMem { b with free := true } pre.reverse (f :: post)

theorem conserved_step {m m' : RDMAManager} {r : MemRequest} (hm : Inv m) (hc : Conserved m)
    (hplace : m.FindsPlace r) (h : m.step r = some m') : Conserved m' := by
  rw [conserved_iff] at hc ⊢
  rw [memSize_step h, ← hc]
  cases r with
  | alloc size =>
    simp only [step] at h
    split_ifs at h
    cases h
    exact totalLength_alloc hm size
  | free offset =>
    simp only [step] at h
    split_ifs at h with hlive
    cases h
    exact totalLength_free hlive hplace

theorem conserved_init (memSize : ℕ) : Conserved (init memSize) := by
  simp [Conserved, init, RdmaMem.ofBlock, liveBlocks]

/-- Every free succeeds and no byte is lost, exactly when every free finds its place. -/
theorem freesSucceed_conserved_iff (memSize : ℕ) (requests : List MemRequest) :
    EachStep step FreeReturnsTrue (init memSize) requests ∧
        Throughout step Conserved (init memSize) requests ↔
      EachStep step FindsPlace (init memSize) requests := by
  constructor
  · rintro ⟨hfree, -⟩ pre r m m' hpre hm hstep
    exact (freeReturnsTrue_iff m r).mp (hfree pre r m m' hpre hm hstep)
  · intro hplace
    refine ⟨fun pre r m m' hpre hm hstep =>
      (freeReturnsTrue_iff m r).mpr (hplace pre r m m' hpre hm hstep), ?_⟩
    rcases Nat.eq_zero_or_pos memSize with rfl | hpos
    · -- without memory there is nothing to allocate and so nothing to free
      have hconst := EachStep.throughout (I := fun m => m = init 0)
        (by rintro _ r m' rfl - h; exact step_init_zero h) requests _ rfl hplace
      intro pre m hpre hm
      rw [hconst pre m hpre hm]
      exact conserved_init 0
    · have hboth := EachStep.throughout (I := fun m => Inv m ∧ Conserved m)
        (fun m r m' hI hG h => ⟨inv_step hI.1 h, conserved_step hI.1 hI.2 hG h⟩)
        requests _ ⟨inv_init hpos, conserved_init memSize⟩ hplace
      exact fun pre m hpre hm => (hboth pre m hpre hm).2

/-- Two halves of the memory, freed in the order they were allocated: the second free
finds only the block at offset 0, fails, and its fifty bytes are gone. -/
theorem lost_after_ascending_frees :
    ¬ (EachStep step FreeReturnsTrue (init 100) [.alloc 50, .alloc 50, .free 0, .free 50] ∧
      Throughout step Conserved (init 100) [.alloc 50, .alloc 50, .free 0, .free 50]) := by
  rintro ⟨-, hcons⟩
  have hsizes : (exec step (init 100) [.alloc 50, .alloc 50, .free 0, .free 50]).map
      (fun m => (m.rdmaMem.map RdmaMem.size).sum + (m.liveBlocks.map RdmaMem.size).sum) =
        some 50 := by
    decide
  obtain ⟨m, hm, hsum⟩ := Option.map_eq_some_iff.mp hsizes
  have hsize : m.memSize = 100 := by
    have hmem : (exec step (init 100) [.alloc 50, .alloc 50, .free 0, .free 50]).map
        RDMAManager.memSize = some 100 := by decide
    simpa [hm] using hmem
  have hconserved := hcons _ m (List.prefix_refl _) hm
  unfold Conserved at hconserved
  omega

end RDMAManager
end DpiLibrary
