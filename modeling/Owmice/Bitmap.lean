import Mathlib.Tactic

/-! # Bitmaps (`standard/bitmap.h`)

A bitmap is an array of 32-bit words; bit `b` is bit `b % 32` of word `b / 32`.  The array has
no length here, as the functions know none: a bit past the end of the array is a bit of the
words that follow it in memory.

* `bitTest_bitSet`, `bitTest_bitUnset`: what the updates do to every bit;
* `setBits`: the number of set bits below a bound, and how the updates change it. -/

namespace Owmice

abbrev Bitmap := ℕ → BitVec 32

/-- The mask `1 << (bit % 32)`. -/
def mask (bit : ℕ) : BitVec 32 := 1#32 <<< (bit % 32)

/-- `bit_set`. -/
def bitSet (map : Bitmap) (bit : ℕ) : Bitmap :=
  Function.update map (bit / 32) (map (bit / 32) ||| mask bit)

/-- `bit_unset`. -/
def bitUnset (map : Bitmap) (bit : ℕ) : Bitmap :=
  Function.update map (bit / 32) (map (bit / 32) &&& ~~~ mask bit)

/-- `bit_test`. -/
def bitTest (map : Bitmap) (bit : ℕ) : Bool := map (bit / 32) &&& mask bit != 0#32

/-! ### Single bits -/

theorem mask_getLsbD (bit j : ℕ) :
    (mask bit).getLsbD j = decide (j = bit % 32) := by
  have hb : bit % 32 < 32 := Nat.mod_lt _ (by decide)
  simp only [mask, BitVec.getLsbD_shiftLeft, BitVec.getLsbD_one]
  by_cases h : j = bit % 32
  · simp [h, hb]
  · by_cases h' : j < bit % 32
    · simp [h', h]
    · have : j - bit % 32 ≠ 0 := by omega
      simp [h, this]

/-- A masked word is zero exactly when the bit is clear. -/
theorem and_mask_eq_zero (w : BitVec 32) (bit : ℕ) :
    w &&& mask bit = 0#32 ↔ w.getLsbD (bit % 32) = false := by
  have hb : bit % 32 < 32 := Nat.mod_lt _ (by decide)
  constructor
  · intro h
    have := congrArg (fun v => v.getLsbD (bit % 32)) h
    simpa [BitVec.getLsbD_and, mask_getLsbD] using this
  · intro h
    refine BitVec.eq_of_getLsbD_eq fun j hj => ?_
    rw [BitVec.getLsbD_and, mask_getLsbD]
    by_cases hjb : j = bit % 32
    · simp [hjb, h]
    · simp [hjb]

theorem bitTest_eq (map : Bitmap) (bit : ℕ) :
    bitTest map bit = (map (bit / 32)).getLsbD (bit % 32) := by
  rw [bitTest, Bool.eq_iff_iff, bne_iff_ne, ne_eq, and_mask_eq_zero, Bool.not_eq_false]

theorem bitTest_bitSet (map : Bitmap) (bit b : ℕ) :
    bitTest (bitSet map bit) b = (decide (b = bit) || bitTest map b) := by
  have hb : b % 32 < 32 := Nat.mod_lt _ (by decide)
  rw [bitTest_eq, bitTest_eq, bitSet]
  by_cases hw : b / 32 = bit / 32
  · rw [hw, Function.update_self, BitVec.getLsbD_or, mask_getLsbD, Bool.or_comm]
    congr 2
    exact propext ⟨fun h => by omega, fun h => by rw [h]⟩
  · rw [Function.update_of_ne hw]
    have : b ≠ bit := fun h => hw (by rw [h])
    simp [this]

theorem bitTest_bitUnset (map : Bitmap) (bit b : ℕ) :
    bitTest (bitUnset map bit) b = (!decide (b = bit) && bitTest map b) := by
  have hb : b % 32 < 32 := Nat.mod_lt _ (by decide)
  rw [bitTest_eq, bitTest_eq, bitUnset]
  by_cases hw : b / 32 = bit / 32
  · rw [hw, Function.update_self, BitVec.getLsbD_and, BitVec.getLsbD_not, mask_getLsbD,
      Bool.and_comm]
    have : (b % 32 = bit % 32) = (b = bit) := propext ⟨fun h => by omega, fun h => by rw [h]⟩
    simp [hb, this]
  · rw [Function.update_of_ne hw]
    have : b ≠ bit := fun h => hw (by rw [h])
    simp [this]

@[simp] theorem bitTest_bitSet_iff (map : Bitmap) (bit b : ℕ) :
    bitTest (bitSet map bit) b = true ↔ b = bit ∨ bitTest map b = true := by
  simp [bitTest_bitSet]

@[simp] theorem bitTest_bitUnset_iff (map : Bitmap) (bit b : ℕ) :
    bitTest (bitUnset map bit) b = true ↔ b ≠ bit ∧ bitTest map b = true := by
  simp [bitTest_bitUnset]

/-- A word without a clear bit is `0xffffffff`. -/
theorem eq_ones_iff (w : BitVec 32) :
    w = 0xffffffff#32 ↔ ∀ j < 32, w.getLsbD j = true := by
  have hones : (0xffffffff#32 : BitVec 32) = BitVec.allOnes 32 := by decide
  rw [hones]
  constructor
  · rintro rfl j hj
    rw [BitVec.getLsbD_allOnes, decide_eq_true hj]
  · intro h
    refine BitVec.eq_of_getLsbD_eq fun j hj => ?_
    rw [h j hj, BitVec.getLsbD_allOnes, decide_eq_true hj]

/-! ### Counting -/

/-- The number of set bits below `n`. -/
def setBits (map : Bitmap) (n : ℕ) : ℕ := ((Finset.range n).filter (bitTest map ·)).card

theorem setBits_le (map : Bitmap) (n : ℕ) : setBits map n ≤ n :=
  (Finset.card_filter_le _ _).trans_eq (Finset.card_range n)

/-- All bits below `n` are set exactly when there are `n` of them. -/
theorem setBits_eq_iff (map : Bitmap) (n : ℕ) :
    setBits map n = n ↔ ∀ b < n, bitTest map b = true := by
  have h := Finset.card_filter_eq_iff (s := Finset.range n) (p := (bitTest map · = true))
  simpa only [setBits, Finset.card_range, Finset.mem_range] using h

theorem setBits_congr {map map' : Bitmap} {n : ℕ}
    (h : ∀ b < n, bitTest map' b = bitTest map b) : setBits map' n = setBits map n := by
  unfold setBits
  congr 1
  exact Finset.filter_congr fun b hb => by rw [h b (Finset.mem_range.mp hb)]

/-- A clear bit below `n` is set. -/
theorem setBits_bitSet {map : Bitmap} {n bit : ℕ} (hn : bit < n) (hb : bitTest map bit = false) :
    setBits (bitSet map bit) n = setBits map n + 1 := by
  have hins : (Finset.range n).filter (bitTest (bitSet map bit) ·) =
      insert bit ((Finset.range n).filter (bitTest map ·)) := by
    ext b
    simp only [Finset.mem_filter, Finset.mem_range, bitTest_bitSet_iff, Finset.mem_insert]
    constructor
    · rintro ⟨h1, rfl | h2⟩
      · exact .inl rfl
      · exact .inr ⟨h1, h2⟩
    · rintro (rfl | ⟨h1, h2⟩)
      · exact ⟨hn, .inl rfl⟩
      · exact ⟨h1, .inr h2⟩
  rw [setBits, hins, Finset.card_insert_of_notMem (by simp [hb]), setBits]

/-- A set bit below `n` is cleared. -/
theorem setBits_bitUnset {map : Bitmap} {n bit : ℕ} (hn : bit < n) (hb : bitTest map bit = true) :
    setBits (bitUnset map bit) n + 1 = setBits map n := by
  have hset : setBits map n = setBits (bitSet (bitUnset map bit) bit) n := by
    refine setBits_congr fun b _ => ?_
    rw [Bool.eq_iff_iff, bitTest_bitSet_iff, bitTest_bitUnset_iff]
    by_cases h : b = bit
    · simp [h, hb]
    · simp [h]
  rw [hset, setBits_bitSet hn (by simp [bitTest_bitUnset])]

/-- Setting a set bit changes no bit. -/
theorem setBits_bitSet_of_set {map : Bitmap} {n bit : ℕ} (hb : bitTest map bit = true) :
    setBits (bitSet map bit) n = setBits map n := by
  refine setBits_congr fun b _ => ?_
  rw [bitTest_bitSet]
  by_cases h : b = bit
  · simp [h, hb]
  · simp [h]

end Owmice
