import Mathlib.Data.List.Basic
import Mathlib.Tactic.Ring
import Mathlib.Tactic.SplitIfs

/-!
# Byte-addressed memory

Memory is a total function from addresses to bytes. A block write changes the
addresses of the block and no others, so every frame argument is an inequality
between addresses. Words are stored little-endian.
-/

namespace DpiLibrary

abbrev Mem := ℕ → UInt8

def readBytes (m : Mem) : ℕ → ℕ → List UInt8
  | _, 0 => []
  | off, len + 1 => m off :: readBytes m (off + 1) len

def writeBytes (m : Mem) (off : ℕ) (bs : List UInt8) : Mem :=
  fun a => if off ≤ a then (bs[a - off]?).getD (m a) else m a

/-- Two memories hold the same bytes in an address range. -/
def AgreeOn (m m' : Mem) (off len : ℕ) : Prop := ∀ a, off ≤ a → a < off + len → m a = m' a

@[simp] theorem readBytes_zero (m : Mem) (off : ℕ) : readBytes m off 0 = [] := rfl

@[simp] theorem length_readBytes (m : Mem) (off len : ℕ) : (readBytes m off len).length = len := by
  induction len generalizing off with
  | zero => rfl
  | succ len ih => simp [readBytes, ih]

theorem getElem?_readBytes (m : Mem) (off len i : ℕ) (h : i < len) :
    (readBytes m off len)[i]? = some (m (off + i)) := by
  induction len generalizing off i with
  | zero => omega
  | succ len ih =>
    cases i with
    | zero => simp [readBytes]
    | succ i =>
      rw [readBytes, List.getElem?_cons_succ, ih (off + 1) i (by omega)]
      congr 2
      omega

theorem readBytes_add (m : Mem) (off a b : ℕ) :
    readBytes m off (a + b) = readBytes m off a ++ readBytes m (off + a) b := by
  induction a generalizing off with
  | zero => simp
  | succ a ih =>
    rw [Nat.succ_add, readBytes, readBytes, ih, Nat.add_right_comm off 1 a, List.cons_append]
    rfl

theorem AgreeOn.refl (m : Mem) (off len : ℕ) : AgreeOn m m off len := fun _ _ _ => rfl

theorem AgreeOn.symm {m m' : Mem} {off len : ℕ} (h : AgreeOn m m' off len) :
    AgreeOn m' m off len := fun a ha hb => (h a ha hb).symm

theorem AgreeOn.trans {m₁ m₂ m₃ : Mem} {off len : ℕ} (h : AgreeOn m₁ m₂ off len)
    (h' : AgreeOn m₂ m₃ off len) : AgreeOn m₁ m₃ off len :=
  fun a ha hb => (h a ha hb).trans (h' a ha hb)

theorem AgreeOn.mono {m m' : Mem} {off len off' len' : ℕ} (h : AgreeOn m m' off len)
    (hlo : off ≤ off') (hhi : off' + len' ≤ off + len) : AgreeOn m m' off' len' :=
  fun a ha hb => h a (by omega) (by omega)

theorem AgreeOn.readBytes {m m' : Mem} {off len : ℕ} (h : AgreeOn m m' off len) :
    readBytes m off len = readBytes m' off len := by
  induction len generalizing off with
  | zero => rfl
  | succ len ih =>
    rw [DpiLibrary.readBytes, DpiLibrary.readBytes, h off le_rfl (by omega),
      ih (h.mono (by omega) (by omega))]

theorem writeBytes_of_lt {m : Mem} {off a : ℕ} {bs : List UInt8} (h : a < off) :
    writeBytes m off bs a = m a := by
  simp [writeBytes, Nat.not_le.mpr h]

theorem writeBytes_of_ge {m : Mem} {off a : ℕ} {bs : List UInt8} (h : off + bs.length ≤ a) :
    writeBytes m off bs a = m a := by
  have hnone : bs[a - off]? = none := List.getElem?_eq_none (by omega)
  simp [writeBytes, hnone]

/-- A block write leaves a range outside the block as it was. -/
theorem agreeOn_writeBytes {m : Mem} {off off' len : ℕ} {bs : List UInt8}
    (h : off' + len ≤ off ∨ off + bs.length ≤ off') :
    AgreeOn (writeBytes m off bs) m off' len := by
  intro a ha hb
  rcases h with h | h
  · exact writeBytes_of_lt (by omega)
  · exact writeBytes_of_ge (by omega)

theorem readBytes_writeBytes_within (m : Mem) (off i len : ℕ) (bs : List UInt8)
    (h : i + len ≤ bs.length) :
    readBytes (writeBytes m off bs) (off + i) len = (bs.drop i).take len := by
  apply List.ext_getElem?
  intro j
  by_cases hj : j < len
  · rw [getElem?_readBytes _ _ _ _ hj, List.getElem?_take_of_lt hj, List.getElem?_drop]
    have hlt : i + j < bs.length := by omega
    simp [writeBytes, hlt, Nat.add_assoc]
  · rw [List.getElem?_eq_none (by simpa using hj),
      List.getElem?_eq_none (by simp only [List.length_take, List.length_drop]; omega)]

theorem readBytes_writeBytes (m : Mem) (off : ℕ) (bs : List UInt8) :
    readBytes (writeBytes m off bs) off bs.length = bs := by
  have h := readBytes_writeBytes_within m off 0 bs.length bs (by omega)
  simpa using h

/-- Writing what is there changes nothing. -/
theorem writeBytes_readBytes (m : Mem) (off len : ℕ) :
    writeBytes m off (readBytes m off len) = m := by
  funext a
  unfold writeBytes
  split_ifs with ha
  · by_cases hlt : a - off < len
    · have hidx : off + (a - off) = a := by omega
      rw [getElem?_readBytes _ _ _ _ hlt, hidx, Option.getD_some]
    · rw [List.getElem?_eq_none (by simpa using hlt), Option.getD_none]
  · rfl

/-- `k` bytes of a number, least significant first. -/
def encodeLE : ℕ → ℕ → List UInt8
  | 0, _ => []
  | k + 1, x => UInt8.ofNat (x % 256) :: encodeLE k (x / 256)

def decodeLE : List UInt8 → ℕ
  | [] => 0
  | b :: bs => b.toNat + 256 * decodeLE bs

@[simp] theorem length_encodeLE (k x : ℕ) : (encodeLE k x).length = k := by
  induction k generalizing x with
  | zero => rfl
  | succ k ih => simp [encodeLE, ih]

theorem decodeLE_encodeLE (k x : ℕ) (h : x < 256 ^ k) : decodeLE (encodeLE k x) = x := by
  induction k generalizing x with
  | zero => simp only [pow_zero, Nat.lt_one_iff] at h; simp [encodeLE, decodeLE, h]
  | succ k ih =>
    have hdiv : x / 256 < 256 ^ k := by
      rw [pow_succ] at h
      exact Nat.div_lt_of_lt_mul (by rwa [Nat.mul_comm])
    have hbyte : (UInt8.ofNat (x % 256)).toNat = x % 256 := by
      rw [UInt8.toNat_ofNat']
      exact Nat.mod_mod_of_dvd x (dvd_refl 256)
    rw [encodeLE, decodeLE, ih _ hdiv, hbyte]
    omega

theorem encodeLE_decodeLE (bs : List UInt8) : encodeLE bs.length (decodeLE bs) = bs := by
  induction bs with
  | nil => rfl
  | cons b bs ih =>
    have hb : b.toNat < 256 := b.toNat_lt
    have hmod : (b.toNat + 256 * decodeLE bs) % 256 = b.toNat := by omega
    have hdiv : (b.toNat + 256 * decodeLE bs) / 256 = decodeLE bs := by omega
    rw [List.length_cons, decodeLE, encodeLE, hmod, hdiv, ih, UInt8.ofNat_toNat]

theorem decodeLE_lt (bs : List UInt8) : decodeLE bs < 256 ^ bs.length := by
  induction bs with
  | nil => simp [decodeLE]
  | cons b bs ih =>
    have hb : b.toNat < 256 := b.toNat_lt
    rw [decodeLE, List.length_cons, pow_succ]
    omega

/-- A 64-bit word. -/
def readWord (m : Mem) (off : ℕ) : ℕ := decodeLE (readBytes m off 8)

theorem readWord_lt (m : Mem) (off : ℕ) : readWord m off < 2 ^ 64 := by
  have h := decodeLE_lt (readBytes m off 8)
  rw [length_readBytes] at h
  exact lt_of_lt_of_le h (by norm_num)

def writeWord (m : Mem) (off x : ℕ) : Mem := writeBytes m off (encodeLE 8 x)

theorem readWord_writeWord (m : Mem) (off x : ℕ) (h : x < 2 ^ 64) :
    readWord (writeWord m off x) off = x := by
  have hread := readBytes_writeBytes m off (encodeLE 8 x)
  rw [length_encodeLE] at hread
  rw [readWord, writeWord, hread, decodeLE_encodeLE]
  exact lt_of_lt_of_le h (by norm_num)

theorem AgreeOn.readWord {m m' : Mem} {off : ℕ} (h : AgreeOn m m' off 8) :
    readWord m off = readWord m' off := by
  rw [DpiLibrary.readWord, DpiLibrary.readWord, h.readBytes]

theorem agreeOn_writeWord {m : Mem} {off off' len x : ℕ} (h : off' + len ≤ off ∨ off + 8 ≤ off') :
    AgreeOn (writeWord m off x) m off' len :=
  agreeOn_writeBytes (by simpa using h)

/-- The bytes of a word. -/
theorem readBytes_eq_encodeLE (m : Mem) (off : ℕ) :
    readBytes m off 8 = encodeLE 8 (readWord m off) := by
  have h := encodeLE_decodeLE (readBytes m off 8)
  rw [length_readBytes] at h
  exact h.symm

theorem getElem?_encodeLE_readWord (m : Mem) (off : ℕ) {i : ℕ} (hi : i < 8) :
    (encodeLE 8 (readWord m off))[i]? = some (m (off + i)) := by
  rw [← readBytes_eq_encodeLE, getElem?_readBytes m off 8 i hi]

theorem readWord_of_getElem? {m : Mem} {off x : ℕ} (hx : x < 2 ^ 64)
    (h : ∀ i < 8, (encodeLE 8 x)[i]? = some (m (off + i))) : readWord m off = x := by
  have hbytes : readBytes m off 8 = encodeLE 8 x := by
    apply List.ext_getElem?
    intro i
    by_cases hi : i < 8
    · rw [getElem?_readBytes m off 8 i hi, h i hi]
    · rw [List.getElem?_eq_none (by simpa using hi), List.getElem?_eq_none (by simpa using hi)]
  rw [readWord, hbytes]
  exact decodeLE_encodeLE 8 x (lt_of_lt_of_le hx (by norm_num))

theorem getElem?_encodeLE_zero {k i : ℕ} (hi : i < k) : (encodeLE k 0)[i]? = some 0 := by
  induction k generalizing i with
  | zero => omega
  | succ k ih =>
    cases i with
    | zero => rfl
    | succ i => exact ih (by omega)

/-- A number below 256 is in its first byte. -/
theorem getElem?_encodeLE_of_lt {k x i : ℕ} (hx : x < 256) (hpos : 0 < i) (hi : i < k) :
    (encodeLE k x)[i]? = some 0 := by
  obtain ⟨i, rfl⟩ := Nat.exists_eq_succ_of_ne_zero hpos.ne'
  obtain ⟨k, rfl⟩ := Nat.exists_eq_succ_of_ne_zero (show k ≠ 0 by omega)
  rw [encodeLE, List.getElem?_cons_succ, Nat.div_eq_of_lt hx]
  exact getElem?_encodeLE_zero (by omega)

theorem byte_eq_zero_of_readWord_lt {m : Mem} {off i : ℕ} (h : readWord m off < 256)
    (hpos : 0 < i) (hi : i < 8) : m (off + i) = 0 := by
  have hbyte := getElem?_encodeLE_readWord m off hi
  rw [getElem?_encodeLE_of_lt h hpos hi] at hbyte
  exact (Option.some.inj hbyte).symm

/-- Block writes one after the other, each given by its address and its bytes. -/
def writeAll (m : Mem) (l : List (ℕ × List UInt8)) : Mem :=
  l.foldl (fun m w => writeBytes m w.1 w.2) m

/-- A block write has an address among its bytes. -/
def Writes (w : ℕ × List UInt8) (x : ℕ) : Prop := w.1 ≤ x ∧ x < w.1 + w.2.length

theorem writeBytes_of_not_writes {m : Mem} {w : ℕ × List UInt8} {x : ℕ} (h : ¬ Writes w x) :
    writeBytes m w.1 w.2 x = m x := by
  unfold Writes at h
  rcases Nat.lt_or_ge x w.1 with hlt | hge
  · exact writeBytes_of_lt hlt
  · exact writeBytes_of_ge (by omega)

/-- What a write leaves at an address depends on nothing but the byte that was there,
and not even on that inside the block. -/
theorem writeBytes_congr {m m' : Mem} {w : ℕ × List UInt8} {x : ℕ} (h : m x = m' x ∨ Writes w x) :
    writeBytes m w.1 w.2 x = writeBytes m' w.1 w.2 x := by
  by_cases hx : Writes w x
  · have hlt : x - w.1 < w.2.length := by
      unfold Writes at hx
      omega
    simp [writeBytes, hx.1, hlt]
  · rw [writeBytes_of_not_writes hx, writeBytes_of_not_writes hx]
    exact h.resolve_right hx

theorem writeAll_of_not_writes {l : List (ℕ × List UInt8)} {x : ℕ} (h : ∀ w ∈ l, ¬ Writes w x)
    (m : Mem) : writeAll m l x = m x := by
  induction l generalizing m with
  | nil => rfl
  | cons w l ih =>
    have hrest := ih (fun v hv => h v (List.mem_cons_of_mem w hv)) (writeBytes m w.1 w.2)
    exact hrest.trans (writeBytes_of_not_writes (h w List.mem_cons_self))

theorem writeAll_congr {l : List (ℕ × List UInt8)} {x : ℕ} {m m' : Mem}
    (h : m x = m' x ∨ ∃ w ∈ l, Writes w x) : writeAll m l x = writeAll m' l x := by
  induction l generalizing m m' with
  | nil =>
    rcases h with h | ⟨w, hw, -⟩
    · exact h
    · cases hw
  | cons w l ih =>
    apply ih
    rcases h with h | ⟨v, hv, hx⟩
    · exact Or.inl (writeBytes_congr (Or.inl h))
    · rcases List.mem_cons.mp hv with rfl | hv
      · exact Or.inl (writeBytes_congr (Or.inr hx))
      · exact Or.inr ⟨v, hv, hx⟩

/-- Writes change nothing outside a set of addresses, whatever the memory holds, exactly
when all their bytes lie in the set. -/
theorem writeAll_frame_iff (l : List (ℕ × List UInt8)) (P : ℕ → Prop) :
    (∀ m x, ¬ P x → writeAll m l x = m x) ↔ ∀ w ∈ l, ∀ x, Writes w x → P x := by
  constructor
  · intro h w hw x hx
    by_contra hP
    -- one byte cannot be kept in both of these memories
    have hsame : writeAll (fun _ => 0) l x = writeAll (fun _ => 1) l x :=
      writeAll_congr (Or.inr ⟨w, hw, hx⟩)
    rw [h _ x hP, h _ x hP] at hsame
    exact absurd hsame (by decide)
  · intro h m x hP
    exact writeAll_of_not_writes (fun w hw hx => hP (h w hw x hx)) m

end DpiLibrary
