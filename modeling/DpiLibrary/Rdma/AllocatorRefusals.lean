import DpiLibrary.Rdma.AllocatorCoverage

/-!
# Refused frees

A remote client may send any offset in a release message, and `internalFree` does
not ask whether it names a live block: the inserting lookup makes up a record, and
whether that record enters the free list is decided by the search alone. The
answer and the damage are therefore both read off the search.
-/

namespace DpiLibrary
namespace RDMAManager

open Schedule

/-- One request, of any size and for any offset. -/
def request (m : RDMAManager) : MemRequest → Option RDMAManager
  | .alloc size => some (m.internalAlloc size).1
  | .free offset => some (m.internalFree offset).1

/-- A live block starts here. -/
def LiveAt (m : RDMAManager) (offset : ℕ) : Prop := ∃ b ∈ m.liveBlocks, b.offset = offset

/-- What is not allocated is not freed, and a free that answers `false` leaves the free list
and the map alone. -/
def RefusesSafely (m : RDMAManager) : MemRequest → Prop
  | .alloc _ => True
  | .free offset =>
    (¬ m.LiveAt offset → (m.internalFree offset).2 = false) ∧
      ((m.internalFree offset).2 = false → (m.internalFree offset).1 = m)

/-- The search finds a place for the live blocks and for nothing else. -/
def PlaceOnlyForLive (m : RDMAManager) : MemRequest → Prop
  | .alloc _ => True
  | .free offset => m.LiveAt offset ↔ m.FindsPlace (.free offset)

theorem accounted_request {m m' : RDMAManager} {r : MemRequest} (hm : Accounted m)
    (h : m.request r = some m') : Accounted m' := by
  cases r with
  | alloc size =>
    cases h
    exact hm.alloc size
  | free offset =>
    cases h
    exact hm.free offset

theorem Accounted.liveAt_iff {m : RDMAManager} (hm : Accounted m) (offset : ℕ) :
    m.LiveAt offset ↔ offset ∈ m.usedRdmaMem := by
  constructor
  · rintro ⟨b, hb, rfl⟩
    obtain ⟨o, ho⟩ := mem_liveBlocks.mp hb
    have hkey : b.offset = o := hm.keyed o b ho
    rw [hkey]
    exact AList.lookup_isSome.mp (by simp [ho])
  · intro hmem
    obtain ⟨b, hb⟩ := lookup_of_mem hmem
    exact ⟨b, mem_liveBlocks.mpr ⟨offset, hb⟩, hm.keyed offset b hb⟩

theorem erase_eq_self_iff {used : UsedMem} {offset : ℕ} :
    used.erase offset = used ↔ offset ∉ used := by
  constructor
  · intro h hmem
    rw [← h] at hmem
    exact (AList.mem_erase.mp hmem).1 rfl
  · intro hnot
    apply AList.ext
    exact List.kerase_of_notMem_keys hnot

/-- A search without result erases the record, if there is one, and does nothing else. -/
theorem internalFree_not_found {m : RDMAManager} {offset : ℕ}
    (hplace : ¬ m.FindsPlace (.free offset)) :
    m.internalFree offset = ({ m with usedRdmaMem := m.usedRdmaMem.erase offset }, false) := by
  rcases m.internalFree_cases offset with
    ⟨hnil, -⟩ | ⟨-, -, h⟩ | ⟨pre, f, post, hsplit, hadm, -, -⟩
  · exact absurd (Or.inl hnil) hplace
  · exact h
  · exact absurd (Or.inr ⟨pre, f, post, hsplit, hadm⟩) hplace

theorem internalFree_found {m : RDMAManager} {offset : ℕ} (hplace : m.FindsPlace (.free offset)) :
    (m.internalFree offset).2 = true :=
  (freeReturnsTrue_iff m (.free offset)).mpr hplace

theorem refusesSafely_iff {m : RDMAManager} (hm : Accounted m) (r : MemRequest) :
    m.RefusesSafely r ↔ m.PlaceOnlyForLive r := by
  cases r with
  | alloc size => exact Iff.rfl
  | free offset =>
    by_cases hplace : m.FindsPlace (.free offset)
    · -- the record made up or looked up enters the free list
      have hfound := internalFree_found hplace
      simp [RefusesSafely, PlaceOnlyForLive, hplace, hfound]
    · -- the erased record is in no list: harmless only where there was none
      have hnot := internalFree_not_found hplace
      have hmanager : ({ m with usedRdmaMem := m.usedRdmaMem.erase offset } : RDMAManager) = m ↔
          offset ∉ m.usedRdmaMem := by
        rw [← erase_eq_self_iff]
        constructor
        · exact congrArg usedRdmaMem
        · intro herase
          rw [herase]
      simp only [RefusesSafely, PlaceOnlyForLive, hnot, hplace, hmanager, hm.liveAt_iff]
      tauto

/-- Every free of a run refuses what is not live and damages nothing when it refuses, exactly
when the search finds a place for the live blocks only and for all of them. -/
theorem frees_refuse_safely_iff (memSize : ℕ) (requests : List MemRequest) :
    EachStep request RefusesSafely (init memSize) requests ↔
      EachStep request PlaceOnlyForLive (init memSize) requests :=
  eachStep_congr (fun _ _ _ hm _ h => accounted_request hm h)
    (fun _ r _ hm _ => refusesSafely_iff hm r) requests _ (accounted_init memSize)

/-- An offset inside the block that was handed out: the free succeeds and puts a record of no
size in front of the free list. -/
theorem free_inside_block_accepted :
    ¬ EachStep request RefusesSafely (init 100) [.alloc 50, .free 10] := by
  intro h
  have hstep := h [.alloc 50] (.free 10) ((init 100).internalAlloc 50).1
    (((init 100).internalAlloc 50).1.internalFree 10).1 (List.prefix_refl _) rfl rfl
  have hlive : ¬ ((init 100).internalAlloc 50).1.LiveAt 10 := by
    rintro ⟨b, hb, hoffset⟩
    have hblocks : ((init 100).internalAlloc 50).1.liveBlocks = [.ofBlock 50 false 0] := by decide
    rw [hblocks, List.mem_singleton] at hb
    rw [hb] at hoffset
    exact absurd hoffset (by decide)
  have hfalse := hstep.1 hlive
  exact absurd hfalse (by decide)

end RDMAManager
end DpiLibrary
