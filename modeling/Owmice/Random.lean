import Owmice.Lcg

/-! # Random numbers (`standard/stdio.h`)

`rand` gives the bits 16 to 30 of a state of 32 bits, and `rand_range` moves them into a range. -/

namespace Owmice.Stdio

open Finset Function

/-- `rand`: the result, and the new value of `next`. -/
def rand (next : UInt32) : UInt32 × UInt32 :=
  let next := next * 1103515245 + 12345
  (next / 65536 % 32768, next)

/-- `srand`: the value of `next`. -/
def srand (seed : UInt32) : UInt32 := seed

/-- `rand_range`, in the arithmetic of `int`. -/
def randRange (min max : BitVec 32) (next : UInt32) : BitVec 32 × UInt32 :=
  let r := rand next
  ((BitVec.ofNat 32 r.1.toNat).srem (max - min + 1) + min, r.2)

/-- The value of `next` after `n` calls of `rand` behind `srand(seed)`. -/
def nextAt (seed : UInt32) (n : ℕ) : UInt32 := (fun s => (rand s).2)^[n] (srand seed)

/-- The result of call `n`, where the first call is call 0. -/
def randAt (seed : UInt32) (n : ℕ) : UInt32 := (rand (nextAt seed n)).1

/-- The result of call `n` of `rand_range`. -/
def randRangeAt (min max : BitVec 32) (seed : UInt32) (n : ℕ) : BitVec 32 :=
  (randRange min max (nextAt seed n)).1

section Rand

variable {seed : UInt32}

/-- The state without its last bit. -/
def residue (s : UInt32) : ZMod (2 ^ 31) := s.toNat

/-- The step of the generator. -/
abbrev next31 : ZMod (2 ^ 31) → ZMod (2 ^ 31) :=
  Lcg.step ((1103515245 : ℤ) : ZMod (2 ^ 31)) ((12345 : ℤ) : ZMod (2 ^ 31))

theorem residue_rand (s : UInt32) : residue (rand s).2 = next31 (residue s) := by
  have hwrap : (rand s).2.toNat = (s.toNat * 1103515245 + 12345) % 4294967296 := by
    simp [rand, UInt32.toNat_add, UInt32.toNat_mul]
  have hdvd : ((2 ^ 31 : ℕ) : ℕ) ∣ 4294967296 := ⟨2, rfl⟩
  have hmod : ((s.toNat * 1103515245 + 12345) % 4294967296 : ℕ) ≡ s.toNat * 1103515245 + 12345
      [MOD 2 ^ 31] := Nat.mod_mod_of_dvd _ hdvd
  rw [residue, hwrap, (ZMod.natCast_eq_natCast_iff _ _ _).mpr hmod, residue, next31, Lcg.step]
  push_cast
  ring

theorem residue_nextAt (n : ℕ) : residue (nextAt seed n) = next31^[n] (residue seed) := by
  induction n with
  | zero => rfl
  | succ n ih =>
      have hsucc : nextAt seed (n + 1) = (rand (nextAt seed n)).2 := iterate_succ_apply' _ n _
      rw [hsucc, residue_rand, ih, iterate_succ_apply']

/-- A result is the high half of a residue. -/
theorem toNat_randAt (n : ℕ) :
    (randAt seed n).toNat = (next31^[n] (next31 (residue seed))).val / 2 ^ 16 := by
  have hval : (residue (rand (nextAt seed n)).2).val = (rand (nextAt seed n)).2.toNat % 2 ^ 31 :=
    ZMod.val_natCast ..
  have hstate : residue (rand (nextAt seed n)).2 = next31^[n] (next31 (residue seed)) := by
    rw [residue_rand, residue_nextAt, ← iterate_succ_apply' next31 n, iterate_succ_apply]
  have hhigh : (randAt seed n).toNat = (rand (nextAt seed n)).2.toNat / 65536 % 32768 := by
    simp [randAt, rand, UInt32.toNat_mod, UInt32.toNat_div]
  rw [← hstate, hval, hhigh]
  omega

/-- From every seed the results of `rand` repeat after `2 ^ 31` calls and not before. -/
theorem rand_period (seed : UInt32) (p : ℕ) :
    (∀ n, randAt seed (n + p) = randAt seed n) ↔ 2 ^ 31 ∣ p := by
  have hperiod := Lcg.high_periodic_iff (a := 1103515245) (c := 12345) (j := 16) (k := 31)
    (by decide) (by decide) (by decide) (next31 (residue seed)) p
  rw [← hperiod]
  simp only [← UInt32.toNat_inj, toNat_randAt]

/-- What a property of the results counts in a period. -/
theorem card_randAt (P : ℕ → Prop) [DecidablePred P] :
    ({n ∈ range (2 ^ 31) | P (randAt seed n).toNat}).card =
      65536 * ({r ∈ range 32768 | P r}).card := by
  have hcard := Lcg.card_high (a := 1103515245) (c := 12345) (j := 16) (k := 31)
    (by decide) (by decide) (by decide) (next31 (residue seed)) P
  simp only [toNat_randAt]
  exact hcard

end Rand

section Range

variable {min max : BitVec 32} {seed : UInt32}

theorem randAt_lt (seed : UInt32) (n : ℕ) : (randAt seed n).toNat < 32768 := by
  have hlt := ZMod.val_lt (next31^[n] (next31 (residue seed)))
  rw [toNat_randAt]
  omega

/-- The result of `rand_range` when the size of the range does not overflow. -/
theorem toInt_randRangeAt (hle : min.toInt ≤ max.toInt)
    (hfits : max.toInt - min.toInt + 1 < 2147483648) (n : ℕ) :
    (randRangeAt min max seed n).toInt =
      min.toInt + (randAt seed n).toNat % (max.toInt - min.toInt + 1) := by
  have hlt := randAt_lt seed n
  have hmin := min.toInt_lt
  have hmax := max.toInt_lt
  have hmin' := min.le_toInt
  obtain ⟨r, hr⟩ : ∃ r, (randAt seed n).toNat = r := ⟨_, rfl⟩
  obtain ⟨d, hd⟩ : ∃ d, max.toInt - min.toInt + 1 = d := ⟨_, rfl⟩
  have hsize : (max - min + 1).toInt = d := by
    rw [BitVec.toInt_add, BitVec.toInt_sub, Int.bmod_add_bmod, show (1 : BitVec 32).toInt = 1 from rfl, hd]
    exact Int.bmod_eq_of_le (by omega) (by omega)
  have hres : (BitVec.ofNat 32 r).toInt = r := by
    rw [BitVec.toInt_ofNat']
    exact Int.bmod_eq_of_le (by omega) (by omega)
  have hrest : 0 ≤ (r : ℤ) % d ∧ (r : ℤ) % d < d :=
    ⟨Int.emod_nonneg _ (by omega), Int.emod_lt_of_pos _ (by omega)⟩
  have hdef : randRangeAt min max seed n = (BitVec.ofNat 32 (randAt seed n).toNat).srem
    (max - min + 1) + min := rfl
  rw [hdef, hr, hd, BitVec.toInt_add, BitVec.toInt_srem, hsize, hres,
    Int.tmod_eq_emod_of_nonneg (by omega), Int.add_comm]
  exact Int.bmod_eq_of_le (by omega) (by omega)

/-- `rand_range` stays in its range, and in a period of `rand` each number comes up once for each of
65536 times the results of `rand` that fall on it; so none is missed when the range has at most as
many numbers as `rand` has results. -/
theorem randRange_uniform (seed : UInt32) (hle : min.toInt ≤ max.toInt)
    (hfits : max.toInt - min.toInt + 1 < 2147483648) :
    (∀ n, min.toInt ≤ (randRangeAt min max seed n).toInt ∧
      (randRangeAt min max seed n).toInt ≤ max.toInt) ∧
    (∀ v : ℤ, ({n ∈ range (2 ^ 31) | (randRangeAt min max seed n).toInt = v}).card =
      65536 * ({r ∈ range 32768 |
        min.toInt + ((r : ℕ) : ℤ) % (max.toInt - min.toInt + 1) = v}).card) ∧
    (max.toInt - min.toInt < 32768 → ∀ v : ℤ, min.toInt ≤ v → v ≤ max.toInt →
      ∃ n < 2 ^ 31, (randRangeAt min max seed n).toInt = v) := by
  have hcount : ∀ v : ℤ, ({n ∈ range (2 ^ 31) | (randRangeAt min max seed n).toInt = v}).card =
      65536 * ({r ∈ range 32768 |
        min.toInt + ((r : ℕ) : ℤ) % (max.toInt - min.toInt + 1) = v}).card := by
    intro v
    simp only [toInt_randRangeAt hle hfits]
    exact card_randAt fun r => min.toInt + (r : ℤ) % (max.toInt - min.toInt + 1) = v
  refine ⟨fun n => ?_, hcount, fun hsmall v hv hv' => ?_⟩
  · have hnonneg := Int.emod_nonneg ((randAt seed n).toNat : ℤ)
      (show max.toInt - min.toInt + 1 ≠ 0 by omega)
    have hless := Int.emod_lt_of_pos ((randAt seed n).toNat : ℤ)
      (show 0 < max.toInt - min.toInt + 1 by omega)
    rw [toInt_randRangeAt hle hfits]
    constructor <;> omega
  · have hmem : (v - min.toInt).toNat ∈ ({r ∈ range 32768 |
        min.toInt + ((r : ℕ) : ℤ) % (max.toInt - min.toInt + 1) = v}) := by
      rw [mem_filter, mem_range]
      refine ⟨by omega, ?_⟩
      rw [Int.toNat_of_nonneg (by omega), Int.emod_eq_of_lt (by omega) (by omega)]
      omega
    have hpos : 0 < ({n ∈ range (2 ^ 31) | (randRangeAt min max seed n).toInt = v}).card := by
      rw [hcount v]
      exact Nat.mul_pos (by norm_num) (card_pos.mpr ⟨_, hmem⟩)
    obtain ⟨n, hn⟩ := card_pos.mp hpos
    rw [mem_filter, mem_range] at hn
    exact ⟨n, hn⟩

/-- The colours of the drawing programs. -/
theorem randRange_uniform_colors :
    (∀ n, (0 : BitVec 32).toInt ≤ (randRangeAt 0 15 1 n).toInt ∧
      (randRangeAt 0 15 1 n).toInt ≤ (15 : BitVec 32).toInt) ∧
    (∀ v : ℤ, ({n ∈ range (2 ^ 31) | (randRangeAt 0 15 1 n).toInt = v}).card =
      65536 * ({r ∈ range 32768 | (0 : BitVec 32).toInt +
        ((r : ℕ) : ℤ) % ((15 : BitVec 32).toInt - (0 : BitVec 32).toInt + 1) = v}).card) ∧
    ((15 : BitVec 32).toInt - (0 : BitVec 32).toInt < 32768 →
      ∀ v : ℤ, (0 : BitVec 32).toInt ≤ v → v ≤ (15 : BitVec 32).toInt →
        ∃ n < 2 ^ 31, (randRangeAt 0 15 1 n).toInt = v) :=
  randRange_uniform 1 (by decide) (by decide)

end Range

end Owmice.Stdio
