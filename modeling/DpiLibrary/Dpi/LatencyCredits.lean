import DpiLibrary.Dpi.LatencyRuns

/-!
# Credits of a latency writer

An append without credits waits for the counter in front of the ring to change and
gains the difference. The counter is a word that starts again at zero, and the
branch for that case counts one segment too few. Where the counter grows, no append
takes a credit that is not there.
-/

namespace DpiLibrary

/-- The queue pair executes an operation or gives it up. -/
def LatMove.OfQueuePair : LatMove → Prop
  | .step => False
  | .fail => False
  | .nic _ => True
  | .lost => True

/-- Credits at a place of the program: none while an append waits, one for an append behind
the refresh. -/
def LatPc.Credits : LatPc → ℕ → Prop
  | .refresh _ _, credits => credits = 0
  | .write _, credits => 0 < credits
  | .written _, credits => 0 < credits
  | _, _ => True

namespace BufferWriterLat

open Schedule

variable {w w' : BufferWriterLat} {a : LatMove}

/-- Segments given back between two values of the counter. -/
def counterDifference (new old : ℕ) : ℕ := (new + (sizeTBound - old)) % sizeTBound

/-- An append has seen the counter change from `old`: it gains the difference, and whatever
the queue pair does until the append returns, this leaves one credit less. -/
structure CreditsSurvive (w : BufferWriterLat) (old : ℕ) : Prop where
  gains : ∀ w', w.move .step = some w' →
    w'.writeableFreeSegments = counterDifference w.consumedCnt old
  decrement : ∀ between w', (∀ a ∈ between, a.OfQueuePair) →
    exec move w (.step :: .step :: (between ++ [.step])) = some w' →
      w'.writeableFreeSegments + 1 = w.refreshed old

theorem counterDifference_of_le {new old : ℕ} (hnew : new < sizeTBound) (hle : old ≤ new) :
    counterDifference new old = new - old := by
  unfold counterDifference sizeTBound at *
  omega

theorem counterDifference_of_lt {new old : ℕ} (hold : old < sizeTBound) (hlt : new < old) :
    counterDifference new old = new + (sizeTBound - old) := by
  unfold counterDifference sizeTBound at *
  omega

theorem refreshed_of_le {old : ℕ} (hcredits : w.writeableFreeSegments = 0)
    (hnew : w.consumedCnt < sizeTBound) (hle : old ≤ w.consumedCnt) :
    w.refreshed old = w.consumedCnt - old := by
  unfold refreshed
  rw [if_neg (by omega), hcredits, Nat.zero_add, Nat.mod_eq_of_lt (by omega)]

/-- The difference is counted from the last value before the roll-over, not from the first
one after it. -/
theorem refreshed_of_lt {old : ℕ} (hcredits : w.writeableFreeSegments = 0)
    (hold : old < sizeTBound) (hlt : w.consumedCnt < old) :
    w.refreshed old + 1 = w.consumedCnt + (sizeTBound - old) := by
  unfold refreshed
  rw [if_pos hlt, hcredits, Nat.zero_add, Nat.mod_eq_of_lt (by omega)]
  omega

theorem refreshed_lt (old : ℕ) : w.refreshed old < sizeTBound := by
  unfold refreshed
  split_ifs <;> exact Nat.mod_lt _ (by decide)

/-- The queue pair leaves the credits and the place in the program alone. -/
theorem ofQueuePair_keeps (ha : a.OfQueuePair) (h : w.move a = some w') :
    w'.writeableFreeSegments = w.writeableFreeSegments ∧ w'.pc = w.pc := by
  rcases hqueue : w.queue with _ | ⟨op, queue⟩
  · cases a <;> simp_all [LatMove.OfQueuePair, move, nic]
  · cases a with
    | step => cases ha
    | fail => cases ha
    | nic m =>
      cases op <;> simp only [move, nic, hqueue, Option.map_some, Option.some.injEq] at h <;>
        subst h <;> exact ⟨rfl, rfl⟩
    | lost =>
      simp only [move, hqueue, Option.some.injEq] at h
      subst h
      exact ⟨rfl, rfl⟩

theorem exec_ofQueuePair_keeps :
    ∀ (moves : List LatMove) (w w' : BufferWriterLat), (∀ a ∈ moves, a.OfQueuePair) →
      exec move w moves = some w' →
        w'.writeableFreeSegments = w.writeableFreeSegments ∧ w'.pc = w.pc := by
  intro moves
  induction moves with
  | nil =>
    intro w w' _ h
    cases h
    exact ⟨rfl, rfl⟩
  | cons a moves ih =>
    intro w w' hmoves h
    obtain ⟨ha, hrest⟩ := List.forall_mem_cons.mp hmoves
    obtain ⟨w₁, hw₁, hw'⟩ := Option.bind_eq_some_iff.mp h
    obtain ⟨hcredits, hpc⟩ := ih w₁ w' hrest hw'
    obtain ⟨hcredits₁, hpc₁⟩ := ofQueuePair_keeps ha hw₁
    exact ⟨hcredits.trans hcredits₁, hpc.trans hpc₁⟩

theorem step_refresh {old : ℕ} {message : Message} (hpc : w.pc = .refresh old message)
    (hqueue : w.queue = []) (hne : old ≠ w.consumedCnt) :
    w.move .step =
      some { w with writeableFreeSegments := w.refreshed old, pc := .write message } := by
  simp only [move, step, hpc, hqueue, if_true, if_neg hne]

/-- What is left of the credits gained when the append returns. -/
theorem credits_after_append {old : ℕ} {message : Message} (hpc : w.pc = .refresh old message)
    (hqueue : w.queue = []) (hne : old ≠ w.consumedCnt) {between : List LatMove}
    (hbetween : ∀ a ∈ between, a.OfQueuePair)
    (h : exec move w (.step :: .step :: (between ++ [.step])) = some w') :
    w'.writeableFreeSegments = (w.refreshed old + (sizeTBound - 1)) % sizeTBound := by
  rw [exec_cons, step_refresh hpc hqueue hne, Option.bind_some, exec_cons] at h
  obtain ⟨w₁, hw₁, h⟩ := Option.bind_eq_some_iff.mp h
  have hw₁ : writeMessage { w with
      writeableFreeSegments := w.refreshed old, pc := .write message } message = w₁ :=
    Option.some.inj hw₁
  rw [exec_concat] at h
  obtain ⟨w₂, hw₂, hlast⟩ := Option.bind_eq_some_iff.mp h
  obtain ⟨hcredits, hpc₂⟩ := exec_ofQueuePair_keeps between w₁ w₂ hbetween hw₂
  have hcredits₁ : w₁.writeableFreeSegments = w.refreshed old := by rw [← hw₁]; rfl
  obtain ⟨signaled, hpc₁⟩ : ∃ signaled, w₁.pc = .written signaled := by
    rw [← hw₁]
    exact ⟨_, rfl⟩
  rw [hpc₁] at hpc₂
  simp only [move, step, hpc₂] at hlast
  split_ifs at hlast
  rw [← Option.some.inj hlast]
  simp only [hcredits, hcredits₁]

/-- An append gains the difference of the two values, and has a credit to take, exactly when
the counter has not started again. -/
theorem credits_survive_iff (w : BufferWriterLat) {old : ℕ} {message : Message}
    (hpc : w.pc = .refresh old message) (hqueue : w.queue = [])
    (hcredits : w.writeableFreeSegments = 0) (hold : old < sizeTBound)
    (hnew : w.consumedCnt < sizeTBound) (hne : old ≠ w.consumedCnt) :
    CreditsSurvive w old ↔ old < w.consumedCnt := by
  constructor
  · intro h
    by_contra hnot
    have hgains := h.gains _ (step_refresh hpc hqueue hne)
    have hdifference := counterDifference_of_lt hold (show w.consumedCnt < old by omega)
    have hrefreshed := refreshed_of_lt hcredits hold (show w.consumedCnt < old by omega)
    simp only at hgains
    omega
  · intro hlt
    have hrefreshed := refreshed_of_le hcredits hnew hlt.le
    constructor
    · intro w' hw'
      rw [step_refresh hpc hqueue hne] at hw'
      cases hw'
      rw [hrefreshed, counterDifference_of_le hnew hlt.le]
    · intro between w' hbetween hexec
      rw [credits_after_append hpc hqueue hne hbetween hexec, hrefreshed]
      unfold sizeTBound at *
      omega

/-- A writer of segments of one byte that has read the counter again and found `new`. -/
def refreshing (old new : ℕ) : BufferWriterLat :=
  { init 8 2 1 64 [] with consumedCnt := new, pc := .refresh old ⟨[7], [], false⟩ }

theorem credits_survive_two_segments : CreditsSurvive (refreshing 5 7) 5 := by
  apply (credits_survive_iff (refreshing 5 7) rfl rfl rfl (by decide) (by decide) (by decide)).mpr
  decide

/-- One segment has been given back, the counter has gone from its last value to zero, and the
append gains nothing. -/
theorem credit_lost_at_roll_over : ¬ CreditsSurvive (refreshing (2 ^ 64 - 1) 0) (2 ^ 64 - 1) := by
  intro h
  have hgains := h.gains _ rfl
  revert hgains
  decide

/-- What the counter says is not below what it said before. -/
def CounterGrows (w : BufferWriterLat) (a : LatMove) : Prop :=
  a = .step → ∀ old message, w.pc = .refresh old message → old ≤ w.consumedCnt

/-- An append that returns takes a credit that is there. -/
def TakesCredit (w : BufferWriterLat) (a : LatMove) : Prop :=
  a = .step → ∀ signaled, w.pc = .written signaled → 0 < w.writeableFreeSegments

structure Credited (w : BufferWriterLat) : Prop where
  counter : w.consumedCnt < sizeTBound
  credits : w.writeableFreeSegments < sizeTBound
  phase : w.pc.Credits w.writeableFreeSegments

theorem credited_init (entry segments segmentSizes internalBufferSize : ℕ)
    (calls : List LatCall) :
    Credited (init entry segments segmentSizes internalBufferSize calls) :=
  ⟨Nat.two_pow_pos 64, Nat.two_pow_pos 64, trivial⟩

theorem credited_nextCall (hcounter : w.consumedCnt < sizeTBound)
    (hcredits : w.writeableFreeSegments < sizeTBound) (h : w.nextCall = some w') :
    Credited w' := by
  unfold nextCall at h
  rcases hcalls : w.calls with _ | ⟨message | _, calls⟩ <;> rw [hcalls] at h
  · cases h
  · cases h
    exact ⟨hcounter, hcredits, trivial⟩
  · cases h
    exact ⟨hcounter, hcredits, trivial⟩

theorem Credited.step (h : Credited w) (hgrows : CounterGrows w .step)
    (hstep : w.step = some w') : Credited w' := by
  obtain ⟨hcounter, hcredits, hphase⟩ := h
  unfold BufferWriterLat.step at hstep
  cases hpc : w.pc with
  | constructing =>
    rw [hpc] at hstep
    cases hstep
    exact ⟨hcounter, hcredits, trivial⟩
  | readingHeader =>
    simp only [hpc] at hstep
    split_ifs at hstep
    cases hstep
    exact ⟨hcounter, hcredits, trivial⟩
  | readingCounter =>
    simp only [hpc] at hstep
    split_ifs at hstep
    cases hstep
    exact ⟨hcounter, hcounter, trivial⟩
  | idle =>
    rw [hpc] at hstep
    exact credited_nextCall hcounter hcredits hstep
  | append message =>
    simp only [hpc] at hstep
    split_ifs at hstep with hzero
    · cases hstep
      exact ⟨hcounter, hcredits, hzero⟩
    · cases hstep
      exact ⟨hcounter, hcredits, Nat.pos_of_ne_zero hzero⟩
  | refresh old message =>
    simp only [hpc] at hstep
    rw [hpc] at hphase
    have hle := hgrows rfl old message hpc
    split_ifs at hstep with hqueue heq
    · cases hstep
      exact ⟨hcounter, hcredits, hphase⟩
    · cases hstep
      have hgained := refreshed_of_le hphase hcounter hle
      refine ⟨hcounter, refreshed_lt old, ?_⟩
      simp only [LatPc.Credits, hgained]
      omega
  | write message =>
    simp only [hpc, Option.some.injEq] at hstep
    rw [hpc] at hphase
    subst hstep
    exact ⟨hcounter, hcredits, hphase⟩
  | written signaled =>
    simp only [hpc] at hstep
    split_ifs at hstep
    cases hstep
    exact ⟨hcounter, Nat.mod_lt _ (by decide), trivial⟩
  | closing =>
    simp only [hpc] at hstep
    split_ifs at hstep
    cases hstep
    exact ⟨hcounter, hcredits, trivial⟩
  | closed =>
    rw [hpc] at hstep
    exact credited_nextCall hcounter hcredits hstep

theorem Credited.move (h : Credited w) (hgrows : CounterGrows w a) (hmove : w.move a = some w') :
    Credited w' := by
  cases a with
  | step => exact h.step hgrows hmove
  | fail =>
    obtain ⟨hcounter, hcredits, -⟩ := h
    simp only [BufferWriterLat.move, fail] at hmove
    split at hmove
    · cases hmove
      exact ⟨hcounter, hcredits, trivial⟩
    · cases hmove
      exact ⟨hcounter, hcredits, trivial⟩
    · cases hmove
      exact ⟨hcounter, hcredits, trivial⟩
    · cases hmove
  | nic m =>
    obtain ⟨hcredits, hpc⟩ := ofQueuePair_keeps (a := .nic m) trivial hmove
    refine ⟨?_, hcredits ▸ h.credits, by rw [hcredits, hpc]; exact h.phase⟩
    rcases hqueue : w.queue with _ | ⟨op, queue⟩
    · simp [BufferWriterLat.move, nic, hqueue] at hmove
    · cases op <;>
        simp only [BufferWriterLat.move, nic, hqueue, Option.map_some,
          Option.some.injEq] at hmove <;>
        subst hmove
      · exact h.counter
      · exact h.counter
      · exact h.counter
      · exact readWord_lt m _
  | lost =>
    obtain ⟨hcredits, hpc⟩ := ofQueuePair_keeps (a := .lost) trivial hmove
    refine ⟨?_, hcredits ▸ h.credits, by rw [hcredits, hpc]; exact h.phase⟩
    rcases hqueue : w.queue with _ | ⟨op, queue⟩
    · simp [BufferWriterLat.move, hqueue] at hmove
    · simp only [BufferWriterLat.move, hqueue, Option.some.injEq] at hmove
      subst hmove
      exact h.counter

/-- In a run that never sees the counter go back, every append that returns takes a credit
that is there. -/
theorem takesCredit_of_counterGrows (entry segments segmentSizes internalBufferSize : ℕ)
    (calls : List LatCall) (moves : List LatMove)
    (hmoves : EachStep move CounterGrows
      (init entry segments segmentSizes internalBufferSize calls) moves) :
    EachStep move TakesCredit (init entry segments segmentSizes internalBufferSize calls)
      moves := by
  have hcredited := EachStep.throughout (fun _ _ _ h hgrows hmove => h.move hgrows hmove) moves _
    (credited_init entry segments segmentSizes internalBufferSize calls) hmoves
  intro pre a w w' hpre hw _ _ signaled hpc
  have hphase := (hcredited pre w ((List.prefix_append pre [a]).trans hpre) hw).phase
  rw [hpc] at hphase
  exact hphase

end BufferWriterLat
end DpiLibrary
