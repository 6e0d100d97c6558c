import DpiLibrary.Foundation.Packing

/-!
# Gaps between ascending blocks

Blocks that follow one another in an address range leave gaps, and walking over
the blocks once yields the gaps in order. Whether the gaps are also merged as far
as possible depends on the blocks of no length alone: such a block takes no
address, yet it cuts the gap it stands in.
-/

namespace DpiLibrary

/-- Spans in ascending order, none of them empty and no two touching. -/
structure Merged (l : List Span) : Prop where
  pos : ∀ a ∈ l, 0 < a.length
  gap : l.Pairwise fun a b => a.start + a.length < b.start

/-- Blocks that follow one another between two bounds; any of them may be empty. -/
def Ascending (lo : ℕ) : List Span → ℕ → Prop
  | [], hi => lo ≤ hi
  | b :: l, hi => lo ≤ b.start ∧ Ascending (b.start + b.length) l hi

/-- The room between a bound and the address where the next block starts. -/
def room (lo hi : ℕ) : List Span := if lo < hi then [⟨lo, hi - lo⟩] else []

/-- What blocks that follow one another leave between two bounds. -/
def gaps (lo : ℕ) : List Span → ℕ → List Span
  | [], hi => room lo hi
  | b :: l, hi => room lo b.start ++ gaps (b.start + b.length) l hi

/-- An address between the bounds that no block takes. -/
def Vacant (lo : ℕ) (l : List Span) (hi x : ℕ) : Prop :=
  lo ≤ x ∧ x < hi ∧ ∀ b ∈ l, ¬ b.Contains x

theorem mem_room {lo hi : ℕ} {a : Span} : a ∈ room lo hi ↔ lo < hi ∧ a = ⟨lo, hi - lo⟩ := by
  unfold room
  split_ifs with h <;> simp [h]

theorem room_contains {lo hi x : ℕ} : (∃ a ∈ room lo hi, a.Contains x) ↔ lo ≤ x ∧ x < hi := by
  constructor
  · rintro ⟨a, ha, hx⟩
    obtain ⟨hlt, rfl⟩ := mem_room.mp ha
    simp only [Span.Contains] at hx
    omega
  · rintro ⟨hlo, hhi⟩
    refine ⟨⟨lo, hi - lo⟩, mem_room.mpr ⟨by omega, rfl⟩, hlo, ?_⟩
    simp only
    omega

theorem Ascending.le {l : List Span} : ∀ {lo hi : ℕ}, Ascending lo l hi → lo ≤ hi := by
  induction l with
  | nil => exact id
  | cons b l ih =>
    intro lo hi h
    have hle := ih h.2
    have hlo := h.1
    omega

/-- Blocks above a bound contain nothing below it. -/
theorem Ascending.not_contains {l : List Span} : ∀ {lo hi x : ℕ}, Ascending lo l hi → x < lo →
    ∀ b ∈ l, ¬ b.Contains x := by
  induction l with
  | nil => simp
  | cons c l ih =>
    intro lo hi x h hx b hb
    have hlo := h.1
    rcases List.mem_cons.mp hb with rfl | hb
    · simp only [Span.Contains]
      omega
    · exact ih h.2 (by omega) b hb

/-- Where the last block ends. -/
def lastEnd (lo : ℕ) : List Span → ℕ
  | [] => lo
  | b :: l => lastEnd (b.start + b.length) l

theorem ascending_iff {l : List Span} : ∀ {lo hi : ℕ},
    Ascending lo l hi ↔ Ascending lo l (lastEnd lo l) ∧ lastEnd lo l ≤ hi := by
  induction l with
  | nil => simp [Ascending, lastEnd]
  | cons b l ih =>
    intro lo hi
    simp only [Ascending, lastEnd]
    rw [ih, and_assoc]

/-- The blocks end where the last one does or before. -/
theorem Ascending.end_le {l : List Span} : ∀ {lo hi : ℕ}, Ascending lo l hi →
    ∀ b ∈ l, b.start + b.length ≤ lastEnd lo l := by
  induction l with
  | nil => simp
  | cons c l ih =>
    intro lo hi h b hb
    rcases List.mem_cons.mp hb with rfl | hb
    · exact (ascending_iff.mp h.2).1.le
    · exact ih h.2 b hb

theorem Ascending.le_start {l : List Span} : ∀ {lo hi : ℕ}, Ascending lo l hi →
    ∀ b ∈ l, lo ≤ b.start := by
  induction l with
  | nil => simp
  | cons c l ih =>
    intro lo hi h b hb
    have hlo := h.1
    rcases List.mem_cons.mp hb with rfl | hb
    · exact hlo
    · have hle := ih h.2 b hb
      omega

/-- Blocks apart, in order and between the bounds follow one another. -/
theorem ascending_of_pairwise {hi : ℕ} {l : List Span} : ∀ {lo : ℕ}, lo ≤ hi →
    (∀ b ∈ l, lo ≤ b.start) → l.Pairwise (fun a b => a.start + a.length ≤ b.start) →
    (∀ b ∈ l, b.start + b.length ≤ hi) → Ascending lo l hi := by
  induction l with
  | nil => exact fun h _ _ _ => h
  | cons b l ih =>
    intro lo _ hlo hpair hhi
    obtain ⟨hafter, hrest⟩ := List.pairwise_cons.mp hpair
    exact ⟨hlo b List.mem_cons_self, ih (hhi b List.mem_cons_self) hafter hrest
      fun c hc => hhi c (List.mem_cons_of_mem b hc)⟩

theorem vacant_cons {lo hi x : ℕ} {b : Span} {l : List Span} (h : Ascending lo (b :: l) hi) :
    Vacant lo (b :: l) hi x ↔
      (lo ≤ x ∧ x < b.start) ∨ Vacant (b.start + b.length) l hi x := by
  have hlo := h.1
  have hle := h.2.le
  simp only [Vacant, List.forall_mem_cons]
  constructor
  · rintro ⟨hlx, hhx, hb, hl⟩
    by_cases hx : x < b.start
    · exact Or.inl ⟨hlx, hx⟩
    · refine Or.inr ⟨?_, hhx, hl⟩
      simp only [Span.Contains] at hb
      omega
  · rintro (⟨hlx, hx⟩ | ⟨hlx, hhx, hl⟩)
    · refine ⟨hlx, by omega, ?_, h.2.not_contains (by omega)⟩
      simp only [Span.Contains]
      omega
    · refine ⟨by omega, hhx, ?_, hl⟩
      simp only [Span.Contains]
      omega

/-- The gaps contain the vacant addresses and no others. -/
theorem gaps_contains {l : List Span} : ∀ {lo hi : ℕ}, Ascending lo l hi → ∀ x,
    (∃ a ∈ gaps lo l hi, a.Contains x) ↔ Vacant lo l hi x := by
  induction l with
  | nil =>
    intro lo hi _ x
    simpa [gaps, Vacant] using room_contains
  | cons b l ih =>
    intro lo hi h x
    rw [vacant_cons h, ← ih h.2 x, ← room_contains]
    simp only [gaps, List.mem_append, or_and_right, exists_or]

theorem gaps_pos {l : List Span} : ∀ {lo hi : ℕ}, ∀ a ∈ gaps lo l hi, 0 < a.length := by
  have hroom : ∀ {lo hi : ℕ}, ∀ a ∈ room lo hi, 0 < a.length := by
    intro lo hi a ha
    obtain ⟨hlt, rfl⟩ := mem_room.mp ha
    simp only
    omega
  induction l with
  | nil => exact hroom
  | cons b l ih =>
    intro lo hi a ha
    rcases List.mem_append.mp ha with ha | ha
    · exact hroom a ha
    · exact ih a ha

theorem gaps_start {l : List Span} {lo hi : ℕ} (h : Ascending lo l hi) :
    ∀ a ∈ gaps lo l hi, lo ≤ a.start := by
  intro a ha
  have hpos := gaps_pos a ha
  have hstart : a.Contains a.start := ⟨le_rfl, by omega⟩
  exact ((gaps_contains h a.start).mp ⟨a, ha, hstart⟩).1

/-- No empty block has vacant addresses directly on both sides. -/
def NoneCut (lo : ℕ) (l : List Span) (hi : ℕ) : Prop :=
  ∀ b ∈ l, b.length = 0 → 0 < b.start →
    Vacant lo l hi (b.start - 1) → ¬ Vacant lo l hi b.start

theorem noneCut_cons {lo hi : ℕ} {b : Span} {l : List Span} (h : Ascending lo (b :: l) hi) :
    NoneCut lo (b :: l) hi ↔
      (lo < b.start → b.length = 0 → ¬ Vacant (b.start + b.length) l hi b.start) ∧
        NoneCut (b.start + b.length) l hi := by
  have hlo := h.1
  constructor
  · intro hcut
    constructor
    · intro hlt hzero hvac
      refine hcut b List.mem_cons_self hzero (by omega) ?_ ((vacant_cons h).mpr (Or.inr hvac))
      exact (vacant_cons h).mpr (Or.inl ⟨by omega, by omega⟩)
    · intro c hc hzero hpos hbelow habove
      exact hcut c (List.mem_cons_of_mem b hc) hzero hpos
        ((vacant_cons h).mpr (Or.inr hbelow)) ((vacant_cons h).mpr (Or.inr habove))
  · rintro ⟨hhead, htail⟩ c hc hzero hpos hbelow habove
    rcases List.mem_cons.mp hc with rfl | hc
    · rcases (vacant_cons h).mp hbelow with hbelow | hbelow
      · rcases (vacant_cons h).mp habove with habove | habove
        · omega
        · exact hhead (by omega) hzero habove
      · have := hbelow.1
        omega
    · have hstart := h.2.le_start c hc
      have hvac : Vacant (b.start + b.length) l hi c.start := by
        rcases (vacant_cons h).mp habove with habove | habove
        · omega
        · exact habove
      rcases (vacant_cons h).mp hbelow with hbelow | hbelow
      · -- only an empty head leaves room directly below a later block
        have heq : c.start = b.start := by omega
        rw [heq] at hvac
        exact hhead (by omega) (by omega) hvac
      · exact htail c hc hzero hpos hbelow hvac

/-- The gaps are merged exactly when no empty block cuts one of them. -/
theorem gaps_merged_iff {l : List Span} : ∀ {lo hi : ℕ}, Ascending lo l hi →
    (Merged (gaps lo l hi) ↔ NoneCut lo l hi) := by
  have hroom : ∀ {lo hi : ℕ}, (room lo hi).Pairwise fun a b => a.start + a.length < b.start := by
    intro lo hi
    unfold room
    split_ifs <;> simp
  induction l with
  | nil =>
    intro lo hi _
    exact iff_of_true ⟨gaps_pos, hroom⟩ (by simp [NoneCut])
  | cons b l ih =>
    intro lo hi h
    have hcontains := gaps_contains h.2
    rw [noneCut_cons h, ← ih h.2]
    constructor
    · intro hm
      obtain ⟨-, htail, hcross⟩ := List.pairwise_append.mp hm.gap
      refine ⟨fun hlt hzero hvac => ?_, fun a => gaps_pos a, htail⟩
      obtain ⟨a, ha, hin⟩ := (hcontains b.start).mpr hvac
      have hbefore := hcross _ (mem_room.mpr ⟨hlt, rfl⟩) a ha
      simp only [Span.Contains] at hbefore hin
      omega
    · rintro ⟨hhead, hm⟩
      refine ⟨fun a => gaps_pos a, List.pairwise_append.mpr ⟨hroom, hm.gap, ?_⟩⟩
      intro a ha c hc
      obtain ⟨hlt, rfl⟩ := mem_room.mp ha
      have hstart := gaps_start h.2 c hc
      have hpos := gaps_pos c hc
      have hne : b.start ≠ c.start := by
        intro heq
        refine hhead hlt (by omega) ((hcontains b.start).mp ⟨c, hc, ?_⟩)
        simp only [Span.Contains]
        omega
      simp only
      omega

end DpiLibrary
