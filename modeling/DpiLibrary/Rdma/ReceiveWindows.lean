import DpiLibrary.Foundation.Schedule
import DpiLibrary.Rdma.AllocatorCoverage

/-!
# Receive windows of datagram connections

A received datagram starts with a header of 40 bytes. `localAlloc` reserves room for
it in front of the pointer it returns, and `receive` posts the memory from the header
on. The room is added in `size_t`: a size close to `2 ^ 64` gets a block that is
shorter than the header, or an empty one. As long as no such request is served, each
window is the block that the allocator has recorded for its pointer.
-/

namespace DpiLibrary

open Schedule

/-- `Config::RDMA_UD_OFFSET`, the length of the header. -/
def rdmaUdOffset : ℕ := 40

/-- Registered memory as mapped by the process. -/
structure RegisteredBuffer where
  buffer : ℕ
  memSize : ℕ
  mapped : buffer + memSize < sizeTBound

/-- The memory part of a datagram manager. Pointers are addresses. -/
structure RDMAManagerUD where
  buffer : ℕ
  memory : RDMAManager
  deriving DecidableEq

namespace RDMAManagerUD

open RDMAManager (sizeTSub sizeTSub_of_le)

/-- The null pointer is `none`. -/
def localAlloc (m : RDMAManagerUD) (size : ℕ) : RDMAManagerUD × Option ℕ :=
  let (memory, memRes) := m.memory.internalAlloc ((size + rdmaUdOffset) % sizeTBound)
  ({ m with memory }, if memRes.isnull then none
    else some ((m.buffer + memRes.offset + rdmaUdOffset) % sizeTBound))

/-- The offset of the block that a pointer stands for. -/
def offsetOf (m : RDMAManagerUD) (ptr : ℕ) : ℕ := sizeTSub (sizeTSub ptr m.buffer) rdmaUdOffset

def localFree (m : RDMAManagerUD) (ptr : ℕ) : RDMAManagerUD × Bool :=
  let (memory, freed) := m.memory.internalFree (m.offsetOf ptr)
  ({ m with memory }, freed)

/-- The entry `receive` and `receiveMCast` post; its length field has 32 bits. -/
def receive (memAddr size : ℕ) : Span :=
  ⟨sizeTSub memAddr rdmaUdOffset, (size + rdmaUdOffset) % sizeTBound % 2 ^ 32⟩

theorem offsetOf_pointer (m : RDMAManagerUD) {offset : ℕ}
    (h : m.buffer + offset + rdmaUdOffset < sizeTBound) :
    m.offsetOf (m.buffer + offset + rdmaUdOffset) = offset := by
  have houter : sizeTSub (m.buffer + offset + rdmaUdOffset) m.buffer = offset + rdmaUdOffset := by
    rw [sizeTSub_of_le (by omega) h]
    omega
  rw [offsetOf, houter, sizeTSub_of_le (by omega) (by omega)]
  omega

end RDMAManagerUD

/-- Memory a client has been given and has not given back. -/
structure ReceiveWindow where
  ptr : ℕ
  size : ℕ
  deriving DecidableEq, Repr

/-- The bytes from the header in front of the pointer to the end of the memory. -/
def ReceiveWindow.span (w : ReceiveWindow) : Span :=
  ⟨RDMAManager.sizeTSub w.ptr rdmaUdOffset, w.size + rdmaUdOffset⟩

/-- What is posted for a window starts where the window does and is no longer. -/
theorem ReceiveWindow.receive_within (w : ReceiveWindow) :
    (RDMAManagerUD.receive w.ptr w.size).start = w.span.start ∧
      (RDMAManagerUD.receive w.ptr w.size).length ≤ w.span.length :=
  ⟨rfl, (Nat.mod_le _ _).trans (Nat.mod_le _ _)⟩

/-- Requests for local memory. -/
inductive LocalRequest where
  | localAlloc (size : ℕ)
  | localFree (w : ReceiveWindow)
  deriving DecidableEq, Repr

/-- The manager and the memory its clients hold. -/
structure ReceiveBuffers where
  manager : RDMAManagerUD
  live : List ReceiveWindow
  deriving DecidableEq

namespace ReceiveBuffers

open RDMAManager (sizeTSub sizeTSub_of_le)

def start (region : RegisteredBuffer) : ReceiveBuffers :=
  ⟨⟨region.buffer, .init region.memSize⟩, []⟩

/-- Sizes are 64-bit values, and only memory that is held is given back. -/
def step (s : ReceiveBuffers) : LocalRequest → Option ReceiveBuffers
  | .localAlloc size =>
    if size < sizeTBound then
      let (manager, ptr) := s.manager.localAlloc size
      some ⟨manager, (ptr.map fun ptr => ⟨ptr, size⟩).toList ++ s.live⟩
    else none
  | .localFree w =>
    if w ∈ s.live then some ⟨(s.manager.localFree w.ptr).1, s.live.erase w⟩ else none

/-- The windows lie inside the registered memory, no byte in two of them. -/
structure WindowsApart (region : RegisteredBuffer) (s : ReceiveBuffers) : Prop where
  inside : ∀ w ∈ s.live, region.buffer ≤ w.span.start ∧
    w.span.start + w.span.length ≤ region.buffer + region.memSize
  disjoint : s.live.Pairwise fun w w' => ∀ x, w.span.Contains x → ¬ w'.span.Contains x

/-- The header fits behind the size, or no free block is as long as the wrapped sum. -/
def HeaderFits (s : ReceiveBuffers) : LocalRequest → Prop
  | .localAlloc size =>
    size + rdmaUdOffset < sizeTBound ∨
      ∀ b ∈ s.manager.memory.rdmaMem, b.size < (size + rdmaUdOffset) % sizeTBound
  | .localFree _ => True

instance (s : ReceiveBuffers) (a : LocalRequest) : Decidable (HeaderFits s a) :=
  match a with
  | .localAlloc _ => inferInstanceAs (Decidable (_ ∨ _))
  | .localFree _ => .isTrue trivial

/-- What the allocator records for memory that is held. -/
def record (m : RDMAManagerUD) (w : ReceiveWindow) : RdmaMem :=
  .ofBlock (w.size + rdmaUdOffset) false (m.offsetOf w.ptr)

@[simp] theorem record_offset (m : RDMAManagerUD) (w : ReceiveWindow) :
    (record m w).offset = m.offsetOf w.ptr := by
  simp only [record, RdmaMem.ofBlock]

@[simp] theorem record_size (m : RDMAManagerUD) (w : ReceiveWindow) :
    (record m w).size = w.size + rdmaUdOffset := by
  simp only [record, RdmaMem.ofBlock]

/-- The live blocks of the allocator are those of the memory that is held, each found
again from its pointer. -/
structure Inv (region : RegisteredBuffer) (s : ReceiveBuffers) : Prop where
  buffer : s.manager.buffer = region.buffer
  memSize : s.manager.memory.memSize = region.memSize
  accounted : s.manager.memory.Accounted
  placed : ∀ w ∈ s.live, w.ptr = region.buffer + s.manager.offsetOf w.ptr + rdmaUdOffset
  records : (s.live.map (record s.manager)).Perm s.manager.memory.liveBlocks

theorem inv_start (region : RegisteredBuffer) : Inv region (start region) where
  buffer := rfl
  memSize := rfl
  accounted := RDMAManager.accounted_init region.memSize
  placed := by simp [start]
  records := List.Perm.refl _

variable {region : RegisteredBuffer} {s s' : ReceiveBuffers}

theorem Inv.lookup (hs : Inv region s) {w : ReceiveWindow} (hw : w ∈ s.live) :
    s.manager.memory.usedRdmaMem.lookup (s.manager.offsetOf w.ptr) =
      some (record s.manager w) := by
  have hlive : record s.manager w ∈ s.manager.memory.liveBlocks :=
    hs.records.mem_iff.mp (List.mem_map_of_mem hw)
  obtain ⟨offset, hlook⟩ := RDMAManager.mem_liveBlocks.mp hlive
  have hkey := hs.accounted.keyed offset _ hlook
  rw [record_offset] at hkey
  rw [hkey]
  exact hlook

/-- A window is the block recorded for it, moved to where the memory is mapped. -/
theorem Inv.window_eq (hs : Inv region s) {w : ReceiveWindow} (hw : w ∈ s.live) :
    w.span = ⟨region.buffer + (record s.manager w).offset, (record s.manager w).size⟩ ∧
      (record s.manager w).offset + (record s.manager w).size ≤ region.memSize := by
  have hinside := hs.accounted.within.liveBlocks _ _ (hs.lookup hw)
  rw [hs.memSize] at hinside
  simp only [Span.Inside, RdmaMem.span_start, RdmaMem.span_length, record_offset,
    record_size] at hinside
  have hptr := hs.placed w hw
  have hmapped := region.mapped
  have hstart : sizeTSub w.ptr rdmaUdOffset = region.buffer + s.manager.offsetOf w.ptr := by
    have hlower : rdmaUdOffset ≤ w.ptr := by omega
    have hupper : w.ptr < sizeTBound := by omega
    rw [sizeTSub_of_le hlower hupper]
    omega
  rw [record_offset, record_size]
  exact ⟨by rw [ReceiveWindow.span, hstart], hinside⟩

theorem Inv.windowsApart (hs : Inv region s) : WindowsApart region s := by
  constructor
  · intro w hw
    obtain ⟨hspan, hend⟩ := hs.window_eq hw
    rw [hspan]
    simp only
    omega
  · have hrecords : ((s.live.map (record s.manager)).map RdmaMem.span).Pairwise
        fun a b => ∀ x, a.Contains x → ¬ b.Contains x := by
      apply disjoint_of_cover
      intro x
      have hcover := hs.accounted.cover_free_le x
      rw [← cover_perm (hs.records.map RdmaMem.span)] at hcover
      omega
    rw [List.map_map, List.pairwise_map] at hrecords
    refine hrecords.imp_of_mem ?_
    intro w w' hw hw' hdisjoint x hx hx'
    rw [(hs.window_eq hw).1] at hx
    rw [(hs.window_eq hw').1] at hx'
    have hlow := hdisjoint (x - region.buffer)
    simp only [Span.Contains, Function.comp_apply, RdmaMem.span_start,
      RdmaMem.span_length] at hx hx' hlow
    omega

/-- Memory that is held is never empty, so no free block starts where it does. -/
theorem Inv.fresh (hs : Inv region s) {b : RdmaMem} (hb : b ∈ s.manager.memory.rdmaMem)
    (hpos : 0 < b.size) : b.offset ∉ s.manager.memory.usedRdmaMem := by
  intro hmem
  obtain ⟨c, hc⟩ := RDMAManager.lookup_of_mem hmem
  have hlive : c ∈ s.manager.memory.liveBlocks := RDMAManager.mem_liveBlocks.mpr ⟨_, hc⟩
  obtain ⟨w, -, rfl⟩ := List.mem_map.mp (hs.records.mem_iff.mpr hlive)
  have hkey := hs.accounted.keyed _ _ hc
  have hcovered := hs.accounted.cover_free_le b.offset
  have hfree : 0 < cover (s.manager.memory.rdmaMem.map RdmaMem.span) b.offset :=
    cover_pos.mpr ⟨b.span, List.mem_map_of_mem hb, le_rfl, Nat.lt_add_of_pos_right hpos⟩
  have hheld : 0 < cover (s.manager.memory.liveBlocks.map RdmaMem.span) b.offset := by
    refine cover_pos.mpr ⟨_, List.mem_map_of_mem hlive, hkey.le, ?_⟩
    rw [RdmaMem.span_start, hkey]
    exact Nat.lt_add_of_pos_right (Nat.succ_pos _)
  omega

theorem inv_localAlloc (hs : Inv region s) {size : ℕ} (hfits : HeaderFits s (.localAlloc size))
    (h : step s (.localAlloc size) = some s') : Inv region s' := by
  simp only [step] at h
  split_ifs at h with hsize
  cases h
  rcases s.manager.memory.internalAlloc_servedFrom ((size + rdmaUdOffset) % sizeTBound) with
    ⟨-, halloc⟩ | ⟨pre, b, post, -, hsplit, -, hle, halloc⟩
  · simpa [RDMAManagerUD.localAlloc, halloc, RdmaMem.null] using hs
  · have hb : b ∈ s.manager.memory.rdmaMem := by simp [hsplit]
    have hsum : size + rdmaUdOffset < sizeTBound := by
      rcases hfits with hsum | hnone
      · exact hsum
      · exact absurd hle (Nat.not_le.mpr (hnone b hb))
    rw [Nat.mod_eq_of_lt hsum] at hle halloc
    have hinside := (hs.accounted.within.freeBlocks b hb).2
    rw [hs.memSize] at hinside
    simp only [Span.Inside, RdmaMem.span_start, RdmaMem.span_length] at hinside
    have hmapped := region.mapped
    have hbuffer := hs.buffer
    have hptr : s.manager.buffer + b.offset + rdmaUdOffset < sizeTBound := by omega
    have hfresh := hs.fresh hb (by unfold rdmaUdOffset at hle; omega)
    have haccounted := hs.accounted.alloc (size + rdmaUdOffset)
    rw [halloc] at haccounted
    have hrecord : record s.manager ⟨s.manager.buffer + b.offset + rdmaUdOffset, size⟩ =
        .ofBlock (size + rdmaUdOffset) false b.offset := by
      rw [record, s.manager.offsetOf_pointer hptr]
    simp only [RDMAManagerUD.localAlloc, Nat.mod_eq_of_lt hsum, halloc, RdmaMem.ofBlock,
      Nat.mod_eq_of_lt hptr]
    refine ⟨hs.buffer, hs.memSize, haccounted, List.forall_mem_cons.mpr ⟨?_, hs.placed⟩, ?_⟩
    · change _ = region.buffer + s.manager.offsetOf _ + rdmaUdOffset
      rw [s.manager.offsetOf_pointer hptr, hbuffer]
    · change (record s.manager _ :: s.live.map (record s.manager)).Perm
        ((s.manager.memory.usedRdmaMem.insert b.offset _).entries.map Sigma.snd)
      rw [hrecord, RDMAManager.liveBlocks_insert hfresh]
      exact hs.records.cons _

theorem inv_localFree (hs : Inv region s) {w : ReceiveWindow}
    (h : step s (.localFree w) = some s') : Inv region s' := by
  simp only [step] at h
  split_ifs at h with hw
  cases h
  have hlook := hs.lookup hw
  have hused := RDMAManager.usedRdmaMem_internalFree s.manager.memory (s.manager.offsetOf w.ptr)
  refine ⟨hs.buffer, ?_, hs.accounted.free _,
    fun v hv => hs.placed v (List.mem_of_mem_erase hv), ?_⟩
  · exact (RDMAManager.memSize_internalFree s.manager.memory _).trans hs.memSize
  · have hsplit : (s.live.map (record s.manager)).Perm
        (record s.manager w :: (s.live.erase w).map (record s.manager)) :=
      (List.perm_cons_erase hw).map (record s.manager)
    have hlive := hs.records.trans (RDMAManager.liveBlocks_erase_perm hlook)
    change ((s.live.erase w).map (record s.manager)).Perm
      ((s.manager.memory.internalFree (s.manager.offsetOf w.ptr)).1.usedRdmaMem.entries.map
        Sigma.snd)
    rw [hused]
    exact (hsplit.symm.trans hlive).cons_inv

theorem inv_step (hs : Inv region s) {a : LocalRequest} (hG : HeaderFits s a)
    (h : step s a = some s') : Inv region s' := by
  cases a with
  | localAlloc size => exact inv_localAlloc hs hG h
  | localFree w => exact inv_localFree hs h

theorem accounted_step (s : ReceiveBuffers) (a : LocalRequest) (s' : ReceiveBuffers)
    (hs : s.manager.memory.Accounted) (h : step s a = some s') :
    s'.manager.memory.Accounted := by
  cases a with
  | localAlloc size =>
    simp only [step] at h
    split_ifs at h
    cases h
    exact hs.alloc _
  | localFree w =>
    simp only [step] at h
    split_ifs at h
    cases h
    exact hs.free _

/-- A window longer than the address space does not lie in the registered memory. -/
theorem headerFits_of_windowsApart (hs : s.manager.memory.Accounted) {a : LocalRequest}
    (h : step s a = some s') (hapart : WindowsApart region s') : HeaderFits s a := by
  cases a with
  | localFree w => trivial
  | localAlloc size =>
    by_contra hfits
    simp only [HeaderFits, not_or, not_lt, not_forall] at hfits
    obtain ⟨hwrap, b, hb, hle⟩ := hfits
    simp only [step] at h
    split_ifs at h with hsize
    cases h
    rcases s.manager.memory.internalAlloc_servedFrom ((size + rdmaUdOffset) % sizeTBound) with
      ⟨hnone, -⟩ | ⟨pre, c, post, -, -, -, -, halloc⟩
    · exact (hs.within.servedFrom_eq_none _).mp hnone ⟨b, hb, hle⟩
    · have hinside := hapart.inside
        ⟨(s.manager.buffer + c.offset + rdmaUdOffset) % sizeTBound, size⟩
        (by simp [RDMAManagerUD.localAlloc, halloc, RdmaMem.ofBlock])
      have hmapped := region.mapped
      have hlength := hinside.2
      simp only [ReceiveWindow.span] at hlength
      omega

/-- The windows of all memory that is held stay apart and inside the registered memory, in
exactly the runs in which no request whose header does not fit is served. -/
theorem windowsApart_iff (region : RegisteredBuffer) (requests : List LocalRequest) :
    Throughout step (WindowsApart region) (start region) requests ↔
      EachStep step HeaderFits (start region) requests := by
  constructor
  · intro hapart pre a t u hpre ht hu
    have haccounted : t.manager.memory.Accounted := by
      refine invariant_exec (I := fun s => s.manager.memory.Accounted) ?_ pre (start region) t
        (RDMAManager.accounted_init region.memSize) ht
      exact accounted_step
    refine headerFits_of_windowsApart haccounted hu (hapart (pre ++ [a]) u hpre ?_)
    rw [exec_concat, ht]
    exact hu
  · intro hfits
    have hinv : Throughout step (Inv region) (start region) requests :=
      EachStep.throughout (fun _ _ _ hs hG h => inv_step hs hG h) requests _
        (inv_start region) hfits
    exact fun pre t hpre ht => (hinv pre t hpre ht).windowsApart

/-- A buffer of 1000 bytes. -/
def thousandBytes : RegisteredBuffer := ⟨4096, 1000, by decide⟩

/-- The first size is the largest one but 39, and gets an empty block. Its pointer is given
back while another client holds the same one. -/
def emptyBlockRun : List LocalRequest :=
  [.localAlloc (2 ^ 64 - 40), .localAlloc 100, .localFree ⟨4136, 2 ^ 64 - 40⟩, .localAlloc 100]

theorem windows_overlap_after_empty_block :
    ¬ Throughout step (WindowsApart thousandBytes) (start thousandBytes) emptyBlockRun := by
  intro h
  have hlive : (exec step (start thousandBytes) emptyBlockRun).map ReceiveBuffers.live =
      some [⟨4136, 100⟩, ⟨4136, 100⟩] := by decide
  obtain ⟨s, hs, hmap⟩ := Option.map_eq_some_iff.mp hlive
  have hdisjoint := (h _ s (List.prefix_refl _) hs).disjoint
  rw [hmap] at hdisjoint
  exact (List.pairwise_cons.mp hdisjoint).1 ⟨4136, 100⟩ (by simp) 4136 (by decide) (by decide)

end ReceiveBuffers
end DpiLibrary
