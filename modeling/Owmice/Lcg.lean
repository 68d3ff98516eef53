import Mathlib.Algebra.Ring.GeomSum
import Mathlib.Data.ZMod.Basic
import Mathlib.Dynamics.PeriodicPts.Lemmas
import Mathlib.Tactic

/-! # Congruential generators modulo a power of two

The map `x ↦ a * x + c` modulo `2 ^ k` with `a ≡ 1` modulo 4 and an odd `c` runs through all `2 ^ k`
residues from every one of them.  A program that drops the low bits of the state sees a sequence
with the same period.

* `iterate_step`: `n` steps in closed form, over any commutative ring;
* `dvd_geomSum_iff`: `2 ^ k` divides `1 + a + ⋯ + a ^ (n - 1)` exactly if it divides `n`;
* `iterate_eq_self_iff`, `bijective_iterate`: the cycle;
* `high_periodic_iff`, `card_high`: the bits from `j` on. -/

namespace Owmice.Lcg

open Finset Function

/-- One step. -/
def step {R : Type} [CommRing R] (a c x : R) : R := a * x + c

section Ring

variable {R : Type} [CommRing R] (a c x : R)

/-- The distance after `n` steps. -/
theorem iterate_step (n : ℕ) :
    (step a c)^[n] x = x + (∑ i ∈ range n, a ^ i) * ((a - 1) * x + c) := by
  induction n with
  | zero => simp
  | succ n ih =>
      have hgeom : (∑ i ∈ range n, a ^ i) * (a - 1) = a ^ n - 1 := geom_sum_mul a n
      have hsucc : ∑ i ∈ range (n + 1), a ^ i = a * ∑ i ∈ range n, a ^ i + 1 := geom_sum_succ
      rw [iterate_succ_apply', ih, step, hsucc]
      ring

/-- The two residues of a step modulo different numbers agree. -/
theorem map_iterate_step {S : Type} [CommRing S] (φ : R →+* S) (n : ℕ) :
    φ ((step a c)^[n] x) = (step (φ a) (φ c))^[n] (φ x) := by
  induction n with
  | zero => rfl
  | succ n ih => rw [iterate_succ_apply', iterate_succ_apply', step, map_add, map_mul, ih, step]

end Ring

section Powers

variable {a c : ℤ}

theorem pow_emod_four (ha : a % 4 = 1) (n : ℕ) : a ^ n % 4 = 1 := by
  induction n with
  | zero => simp
  | succ n ih =>
      rw [pow_succ, Int.mul_emod, ih, ha]
      rfl

theorem geomSum_odd (ha : a % 4 = 1) (m : ℕ) : (∑ i ∈ range (2 * m + 1), a ^ i) % 2 = 1 := by
  have hall : ∀ n, (∑ i ∈ range n, a ^ i) % 2 = (n : ℤ) % 2 := by
    intro n
    induction n with
    | zero => rfl
    | succ n ih =>
        have hpow := pow_emod_four ha n
        rw [sum_range_succ, Int.add_emod, ih]
        push_cast
        omega
  rw [hall]
  push_cast
  omega

theorem geomSum_double (m : ℕ) :
    ∑ i ∈ range (2 * m), a ^ i = (∑ i ∈ range m, a ^ i) * (1 + a ^ m) := by
  rw [two_mul, sum_range_add]
  simp only [pow_add]
  rw [← mul_sum]
  ring

/-- The power of two in a geometric sum is that in the number of its terms. -/
theorem dvd_geomSum_iff (ha : a % 4 = 1) (k n : ℕ) :
    (2 : ℤ) ^ k ∣ ∑ i ∈ range n, a ^ i ↔ 2 ^ k ∣ n := by
  induction k generalizing n with
  | zero => simp
  | succ k ih =>
      rcases Nat.even_or_odd' n with ⟨m, rfl | rfl⟩
      · obtain ⟨q, hq⟩ : ∃ q, 1 + a ^ m = 2 * (2 * q + 1) := by
          have hpow := pow_emod_four ha m
          exact ⟨a ^ m / 4, by omega⟩
        have hodd : IsCoprime ((2 : ℤ) ^ k) (2 * q + 1) :=
          IsCoprime.pow_left ⟨-q, 1, by ring⟩
        rw [geomSum_double, hq, pow_succ, pow_succ, Nat.mul_comm 2 m,
          Nat.mul_dvd_mul_iff_right (by norm_num), ← ih m,
          show (∑ i ∈ range m, a ^ i) * (2 * (2 * q + 1)) =
            (∑ i ∈ range m, a ^ i) * (2 * q + 1) * 2 by ring,
          mul_dvd_mul_iff_right (by norm_num)]
        exact ⟨hodd.dvd_of_dvd_mul_right, fun h => h.mul_right _⟩
      · have hsum := geomSum_odd ha m
        constructor
        · intro h
          have htwo : (2 : ℤ) ∣ ∑ i ∈ range (2 * m + 1), a ^ i :=
            (Dvd.intro_left _ (pow_succ 2 k).symm).trans h
          omega
        · intro h
          have htwo : 2 ∣ 2 * m + 1 := (Dvd.intro_left _ (pow_succ 2 k).symm).trans h
          omega

end Powers

section Cycle

variable {a c : ℤ} {k : ℕ}

/-- After `n` steps a residue is back exactly if `2 ^ k` divides `n`. -/
theorem iterate_eq_self_iff (ha : a % 4 = 1) (hc : c % 2 = 1) (n : ℕ) (x : ZMod (2 ^ k)) :
    (step (a : ZMod (2 ^ k)) c)^[n] x = x ↔ 2 ^ k ∣ n := by
  obtain ⟨z, rfl⟩ := ZMod.intCast_surjective x
  have hodd : IsCoprime ((2 : ℤ) ^ k) ((a - 1) * z + c) := by
    obtain ⟨q, hq⟩ : ∃ q, (a - 1) * z + c = 2 * q + 1 := by
      refine ⟨2 * (a / 4) * z + c / 2, ?_⟩
      have ha' : a - 1 = 4 * (a / 4) := by omega
      have hc' : c = 2 * (c / 2) + 1 := by omega
      rw [ha']
      linear_combination hc'
    rw [hq]
    exact IsCoprime.pow_left ⟨-q, 1, by ring⟩
  have hcast : (∑ i ∈ range n, (a : ZMod (2 ^ k)) ^ i) * (((a : ZMod (2 ^ k)) - 1) * z + c) =
      (((∑ i ∈ range n, a ^ i) * ((a - 1) * z + c) : ℤ) : ZMod (2 ^ k)) := by
    push_cast
    rfl
  rw [iterate_step, add_eq_left, hcast, ZMod.intCast_zmod_eq_zero_iff_dvd, ← dvd_geomSum_iff ha]
  push_cast
  exact ⟨hodd.dvd_of_dvd_mul_right, fun h => h.mul_right _⟩

/-- From every residue the first `2 ^ k` states are all residues. -/
theorem bijOn_iterate (ha : a % 4 = 1) (hc : c % 2 = 1) (x : ZMod (2 ^ k)) :
    Set.BijOn (fun n => (step (a : ZMod (2 ^ k)) c)^[n] x) (range (2 ^ k)) Set.univ := by
  have hinj : Set.InjOn (fun n => (step (a : ZMod (2 ^ k)) c)^[n] x) (range (2 ^ k)) := by
    have hlt : ∀ i j : ℕ, i < j → j < 2 ^ k →
        (step (a : ZMod (2 ^ k)) c)^[i] x ≠ (step (a : ZMod (2 ^ k)) c)^[j] x := by
      intro i j hij hj heq
      have hback : (step (a : ZMod (2 ^ k)) c)^[j - i] ((step (a : ZMod (2 ^ k)) c)^[i] x) =
          (step (a : ZMod (2 ^ k)) c)^[i] x := by
        rw [← iterate_add_apply, Nat.sub_add_cancel hij.le, heq]
      have hdvd := (iterate_eq_self_iff ha hc _ _).mp hback
      exact absurd (Nat.le_of_dvd (by omega) hdvd) (by omega)
    intro i hi j hj heq
    rw [coe_range, Set.mem_Iio] at hi hj
    rcases lt_trichotomy i j with h | h | h
    · exact absurd heq (hlt i j h hj)
    · exact h
    · exact absurd heq.symm (hlt j i h hi)
  have himage : (range (2 ^ k)).image (fun n => (step (a : ZMod (2 ^ k)) c)^[n] x) = univ := by
    rw [← card_eq_iff_eq_univ, card_image_of_injOn hinj, card_range, ZMod.card]
  refine ⟨fun _ _ => trivial, hinj, fun y _ => ?_⟩
  have hy : y ∈ (range (2 ^ k)).image (fun n => (step (a : ZMod (2 ^ k)) c)^[n] x) := by
    rw [himage]
    exact mem_univ y
  obtain ⟨n, hn, hny⟩ := mem_image.mp hy
  exact ⟨n, hn, hny⟩

/-- Every residue is among the states. -/
theorem exists_iterate (ha : a % 4 = 1) (hc : c % 2 = 1) (x y : ZMod (2 ^ k)) :
    ∃ n, (step (a : ZMod (2 ^ k)) c)^[n] x = y := by
  obtain ⟨n, -, hn⟩ := (bijOn_iterate ha hc x).surjOn (Set.mem_univ y)
  exact ⟨n, hn⟩

/-- In `2 ^ k` states each property holds as often as among the residues. -/
theorem card_iterate (ha : a % 4 = 1) (hc : c % 2 = 1) (x : ZMod (2 ^ k)) (P : ℕ → Prop)
    [DecidablePred P] :
    ({n ∈ range (2 ^ k) | P ((step (a : ZMod (2 ^ k)) c)^[n] x).val}).card =
      ({v ∈ range (2 ^ k) | P v}).card := by
  have hbij := bijOn_iterate ha hc x
  refine card_nbij (fun n => ((step (a : ZMod (2 ^ k)) c)^[n] x).val) ?_ ?_ ?_
  · intro n hn
    rw [mem_coe, mem_filter] at hn ⊢
    exact ⟨mem_range.mpr (ZMod.val_lt _), hn.2⟩
  · intro n hn m hm heq
    have hn' := (mem_filter.mp (mem_coe.mp hn)).1
    have hm' := (mem_filter.mp (mem_coe.mp hm)).1
    exact hbij.injOn (mem_coe.mpr hn') (mem_coe.mpr hm') (ZMod.val_injective _ heq)
  · intro v hv
    obtain ⟨hlt, hP⟩ := mem_filter.mp (mem_coe.mp hv)
    obtain ⟨n, hn, hnv⟩ := hbij.surjOn (Set.mem_univ (v : ZMod (2 ^ k)))
    have hval : ((step (a : ZMod (2 ^ k)) c)^[n] x).val = v := by
      rw [show (step (a : ZMod (2 ^ k)) c)^[n] x = v from hnv]
      exact ZMod.val_cast_of_lt (mem_range.mp hlt)
    refine ⟨n, mem_coe.mpr (mem_filter.mpr ⟨mem_coe.mp hn, ?_⟩), hval⟩
    rw [hval]
    exact hP

end Cycle

/-! ### The high bits of the states -/

section High

variable {a c : ℤ} {j k : ℕ}

/-- The low bits of the states are back earlier. -/
theorem val_iterate_mod (ha : a % 4 = 1) (hc : c % 2 = 1) (hjk : j ≤ k) {n : ℕ} (hn : 2 ^ j ∣ n)
    (x : ZMod (2 ^ k)) :
    ((step (a : ZMod (2 ^ k)) c)^[n] x).val % 2 ^ j = x.val % 2 ^ j := by
  have hlow := (iterate_eq_self_iff ha hc n
    (ZMod.castHom (pow_dvd_pow 2 hjk) (ZMod (2 ^ j)) x)).mpr hn
  have hmap := map_iterate_step (a : ZMod (2 ^ k)) c x
    (ZMod.castHom (pow_dvd_pow 2 hjk) (ZMod (2 ^ j))) n
  rw [map_intCast, map_intCast, hlow] at hmap
  rw [← ZMod.natCast_eq_natCast_iff']
  simpa only [ZMod.natCast_val, ZMod.castHom_apply] using hmap

/-- The bits from `j` on have no smaller period than the states. -/
theorem high_periodic_iff (ha : a % 4 = 1) (hc : c % 2 = 1) (hjk : j < k) (x : ZMod (2 ^ k))
    (p : ℕ) :
    (∀ n, ((step (a : ZMod (2 ^ k)) c)^[n + p] x).val / 2 ^ j =
      ((step (a : ZMod (2 ^ k)) c)^[n] x).val / 2 ^ j) ↔ 2 ^ k ∣ p := by
  constructor
  · intro h
    rcases Nat.eq_zero_or_pos p with rfl | hp
    · exact dvd_zero _
    have hone : ∀ y : ZMod (2 ^ k), ((step (a : ZMod (2 ^ k)) c)^[p] y).val / 2 ^ j = y.val / 2 ^ j := by
      intro y
      obtain ⟨n, rfl⟩ := exists_iterate ha hc x y
      rw [← iterate_add_apply, Nat.add_comm]
      exact h n
    have hmany : ∀ m, ∀ y : ZMod (2 ^ k),
        ((step (a : ZMod (2 ^ k)) c)^[p * m] y).val / 2 ^ j = y.val / 2 ^ j := by
      intro m y
      induction m with
      | zero => rfl
      | succ m ih => rw [Nat.mul_succ, Nat.add_comm, iterate_add_apply, hone, ih]
    obtain ⟨v, q, hq, rfl⟩ := Nat.exists_eq_two_pow_mul_odd hp.ne'
    -- a multiple of the period after which the low bits are back as well
    have hback : (step (a : ZMod (2 ^ k)) c)^[2 ^ v * q * 2 ^ (j - v)] x = x := by
      have hlow : 2 ^ j ∣ 2 ^ v * q * 2 ^ (j - v) := by
        refine (pow_dvd_pow 2 (show j ≤ v + (j - v) by omega)).trans ?_
        rw [pow_add]
        exact ⟨q, by ring⟩
      apply ZMod.val_injective
      rw [← Nat.div_add_mod (_ : ZMod (2 ^ k)).val (2 ^ j), hmany,
        val_iterate_mod ha hc hjk.le hlow, Nat.div_add_mod]
    have hdvd := (iterate_eq_self_iff ha hc _ x).mp hback
    have hcoprime : Nat.Coprime (2 ^ k) q := (Nat.coprime_two_left.mpr hq).pow_left k
    rw [Nat.mul_right_comm, ← pow_add] at hdvd
    have hk := (Nat.pow_dvd_pow_iff_le_right (by norm_num)).mp (hcoprime.dvd_of_dvd_mul_right hdvd)
    exact (pow_dvd_pow 2 (by omega)).trans (Nat.dvd_mul_right _ _)
  · intro h n
    rw [Nat.add_comm, iterate_add_apply, (iterate_eq_self_iff ha hc p _).mpr h]

/-- Among numbers below a multiple of `d`, each quotient comes up `d` times. -/
theorem card_div (P : ℕ → Prop) [DecidablePred P] (d q : ℕ) :
    ({v ∈ range (q * d) | P (v / d)}).card = d * ({r ∈ range q | P r}).card := by
  rw [← Nat.count_eq_card_filter_range, ← Nat.count_eq_card_filter_range]
  induction q with
  | zero => simp
  | succ q ih =>
      have hlast : Nat.count (fun i => P ((q * d + i) / d)) d = if P q then d else 0 := by
        rw [Nat.count_eq_card_filter_range]
        have hquot : ∀ i ∈ range d, (q * d + i) / d = q := by
          intro i hi
          have hlt := mem_range.mp hi
          rw [Nat.mul_comm, Nat.mul_add_div (by omega), Nat.div_eq_of_lt hlt, Nat.add_zero]
        rw [filter_congr fun i hi => by rw [hquot i hi]]
        split
        case isTrue h => simp [h]
        case isFalse h => simp [h]
      rw [Nat.succ_mul, Nat.count_add, ih, hlast, Nat.count_succ]
      split
      · ring
      · ring

/-- In `2 ^ k` states each property holds of the bits from `j` on as often as it should. -/
theorem card_high (ha : a % 4 = 1) (hc : c % 2 = 1) (hjk : j ≤ k) (x : ZMod (2 ^ k))
    (P : ℕ → Prop) [DecidablePred P] :
    ({n ∈ range (2 ^ k) | P (((step (a : ZMod (2 ^ k)) c)^[n] x).val / 2 ^ j)}).card =
      2 ^ j * ({r ∈ range (2 ^ (k - j)) | P r}).card := by
  have hsplit : 2 ^ k = 2 ^ (k - j) * 2 ^ j := by rw [← pow_add, Nat.sub_add_cancel hjk]
  rw [card_iterate ha hc x fun v => P (v / 2 ^ j), ← card_div, ← hsplit]

end High

end Owmice.Lcg
