import Owmice.CString
import Owmice.Printf

/-! # Integers as text (`standard/strings.h`)

`itoa` writes the digits of `abs(value)` from the last one to the first, then a sign, and reverses
the string in place.  `abs` of the least integer is that integer itself, whose remainders are
negative; each digit is then subtracted from `'0'`, and `atoi` adds it back.

* `reverse_apply`: the loop that reverses;
* `itoa_string`: the string that `itoa` writes, for every number;
* `itoa_iff`: it is the numeral except for the least integer, and `atoi` reads it in any case. -/

namespace Owmice.Integers

open Owmice.Stdio

/-! ### The code -/

/-- `abs`. -/
def abs (num : BitVec 32) : BitVec 32 := if num.toInt < 0 then num * -1 else num

/-- A `char` as an `int`. -/
def charInt (c : UInt8) : BitVec 32 := c.toBitVec.signExtend 32

/-- The loop of `atoi`. -/
def atoiLoop : List UInt8 → BitVec 32 → BitVec 32
  | [], res => res
  | c :: str, res => if c ≠ 0 then atoiLoop str (res * 10 + charInt c - 48) else res

/-- `atoi`. -/
def atoi (str : List UInt8) : BitVec 32 :=
  if byteAt str 0 = 45 then -1 * atoiLoop (str.drop 1) 0 else 1 * atoiLoop str 0

/-- `swap` of the bytes at `x` and `y`. -/
def swap (buffer : List UInt8) (x y : ℕ) : List UInt8 :=
  setAt (setAt buffer x (byteAt buffer y)) y (byteAt buffer x)

/-- `reverse`; `itoa` calls it with 0 and the place of the last character, so neither index is ever
negative. -/
def reverse (buffer : List UInt8) (i j : ℕ) : List UInt8 :=
  if i < j then reverse (swap buffer i j) (i + 1) (j - 1) else buffer
termination_by j - i

/-- `buffer[i++] = c`, on the buffer and `i`. -/
def put (out : List UInt8 × ℕ) (c : UInt8) : List UInt8 × ℕ := (setAt out.1 out.2 c, out.2 + 1)

/-- The character of the remainder `r`. -/
def digitByte (r : BitVec 32) : UInt8 :=
  .ofBitVec ((if 10 ≤ r.toInt then 65 + (r - 10) else 48 + r).setWidth 8)

theorem natAbs_sdiv {base : BitVec 32} (hbase : 2 ≤ base.toInt) (n : BitVec 32) :
    (n.sdiv base).toInt.natAbs = n.toInt.natAbs / base.toInt.natAbs := by
  have hne : base ≠ -1#32 := by
    rintro rfl
    exact absurd hbase (by decide)
  rw [BitVec.toInt_sdiv_of_ne_or_ne n base (.inr hne), Int.natAbs_tdiv]
  rfl

/-- The loop of `itoa`. -/
def itoaLoop (base : BitVec 32) (hbase : 2 ≤ base.toInt) (n : BitVec 32)
    (out : List UInt8 × ℕ) : List UInt8 × ℕ :=
  if n = 0 then out
  else itoaLoop base hbase (n.sdiv base) (put out (digitByte (n.srem base)))
termination_by n.toInt.natAbs
decreasing_by
  rename_i hn
  have hpos : n.toInt ≠ 0 := fun h => hn (BitVec.eq_of_toInt_eq h)
  rw [natAbs_sdiv hbase]
  exact Nat.div_lt_self (by omega) (by omega)

/-- `itoa`. -/
def itoa (value : BitVec 32) (buffer : List UInt8) (base : BitVec 32) : List UInt8 :=
  if h : base.toInt < 2 ∨ 32 < base.toInt then buffer
  else
    let out := itoaLoop base (by omega) (abs value) (buffer, 0)
    let out := if out.2 = 0 then put out 48 else out
    let out := if value.toInt < 0 ∧ base = 10 then put out 45 else out
    reverse (setAt out.1 out.2 0) 0 (out.2 - 1)

/-! ### Reversing -/

theorem byteAt_swap (b : List UInt8) (x y k : ℕ) :
    byteAt (swap b x y) k =
      if k = y then byteAt b x else if k = x then byteAt b y else byteAt b k := by
  rw [swap, byteAt_setAt, byteAt_setAt]

theorem reverse_apply (b : List UInt8) (i j k : ℕ) :
    byteAt (reverse b i j) k =
      if i ≤ k ∧ k ≤ j then byteAt b (i + j - k) else byteAt b k := by
  induction b, i, j using reverse.induct with
  | case1 b i j h ih =>
      rw [reverse, if_pos h, ih, byteAt_swap, byteAt_swap]
      by_cases hk : i ≤ k ∧ k ≤ j
      · rw [if_pos hk]
        by_cases hin : i + 1 ≤ k ∧ k ≤ j - 1
        · rw [if_pos hin, if_neg (by omega), if_neg (by omega)]
          congr 1
          omega
        · rw [if_neg hin]
          by_cases hkj : k = j
          · rw [if_pos hkj, hkj, Nat.add_sub_cancel]
          · rw [if_neg hkj, if_pos (by omega)]
            congr 1
            omega
      · rw [if_neg hk, if_neg (by omega), if_neg (by omega), if_neg (by omega)]
  | case2 b i j h =>
      rw [reverse, if_neg h]
      by_cases hk : i ≤ k ∧ k ≤ j
      · rw [if_pos hk]
        congr 1
        omega
      · rw [if_neg hk]

theorem byteAt_reverse {t : List UInt8} {k : ℕ} (hk : k < t.length) :
    byteAt t.reverse k = byteAt t (t.length - 1 - k) := by
  rw [byteAt, byteAt, List.getD_eq_getElem?_getD, List.getD_eq_getElem?_getD,
    List.getElem?_reverse hk]

/-- A string in a buffer is reversed. -/
theorem cstr_reverse {b t : List UInt8} (h : cstr b = t) :
    cstr (reverse b 0 (t.length - 1)) = t.reverse := by
  obtain ⟨ht, hb⟩ := cstr_eq_iff.mp h
  refine cstr_eq_iff.mpr ⟨fun c hc => ht c (List.mem_reverse.mp hc), fun k hk => ?_⟩
  rw [List.length_reverse] at hk
  rw [reverse_apply]
  by_cases hlt : k < t.length
  · rw [if_pos (by omega), hb _ (by omega), byteAt_reverse hlt, Nat.zero_add]
  · have hend : byteAt t.reverse k = 0 := byteAt_of_le (by rw [List.length_reverse]; omega)
    have hzero : byteAt t k = 0 := byteAt_of_le (by omega)
    rw [hend]
    by_cases h0 : t.length = 0
    · rw [if_pos (by omega), show 0 + (t.length - 1) - k = k by omega, hb k hk, hzero]
    · rw [if_neg (by omega), hb k hk, hzero]

/-! ### Writing the digits -/

/-- A number with its sign. -/
def signed (minus : Bool) (m : ℕ) : ℤ := if minus then -m else m

/-- The character of a digit; those of a negative number are subtracted. -/
def digitOf (minus : Bool) (d : ℕ) : UInt8 :=
  if minus then 48 - UInt8.ofNat d else digitChar 65 d

/-- The numeral of such digits. -/
def spelled (minus : Bool) (b m : ℕ) : List UInt8 :=
  if m = 0 then [48] else (Nat.digits b m).reverse.map (digitOf minus)

/-- The bytes that have been written are `t`. -/
structure Written (out : List UInt8 × ℕ) (t : List UInt8) : Prop where
  count : out.2 = t.length
  bytes : ∀ k < t.length, byteAt out.1 k = byteAt t k

theorem Written.put {out : List UInt8 × ℕ} {t : List UInt8} (h : Written out t) (c : UInt8) :
    Written (put out c) (t ++ [c]) where
  count := by
    rw [Integers.put, h.count, List.length_append]
    rfl
  bytes k hk := by
    rw [List.length_append, List.length_singleton] at hk
    rw [Integers.put, byteAt_setAt, h.count]
    by_cases hkt : k = t.length
    · rw [if_pos hkt, hkt, byteAt, List.getD_eq_getElem?_getD, List.getElem?_concat_length,
        Option.getD_some]
    · rw [if_neg hkt, h.bytes k (by omega), byteAt, byteAt, List.getD_eq_getElem?_getD,
        List.getD_eq_getElem?_getD, List.getElem?_append_left (by omega)]

/-- The zero byte behind them ends the string. -/
theorem Written.cstr {out : List UInt8 × ℕ} {t : List UInt8} (h : Written out t)
    (ht : ∀ c ∈ t, c ≠ 0) : cstr (setAt out.1 out.2 0) = t := by
  refine cstr_eq_iff.mpr ⟨ht, fun k hk => ?_⟩
  rw [byteAt_setAt, h.count]
  by_cases hkt : k = t.length
  · rw [if_pos hkt, byteAt_of_le (by omega)]
  · rw [if_neg hkt, h.bytes k (by omega)]

/-- The string is then reversed. -/
theorem Written.cstr_reverse {out : List UInt8 × ℕ} {t : List UInt8} (h : Written out t)
    (ht : ∀ c ∈ t, c ≠ 0) :
    Owmice.cstr (reverse (setAt out.1 out.2 0) 0 (out.2 - 1)) = t.reverse := by
  have hreverse := Integers.cstr_reverse (h.cstr ht)
  rw [← h.count] at hreverse
  exact hreverse

theorem signed_tdiv (minus : Bool) (m b : ℕ) :
    (signed minus m).tdiv b = signed minus (m / b) := by
  cases minus with
  | false => exact (Int.ofNat_tdiv m b).symm
  | true =>
      simp only [signed, if_true, Int.neg_tdiv]
      rw [Int.ofNat_tdiv]

theorem signed_tmod (minus : Bool) (m b : ℕ) :
    (signed minus m).tmod b = signed minus (m % b) := by
  cases minus with
  | false => exact (Int.ofNat_tmod m b).symm
  | true =>
      simp only [signed, if_true, Int.neg_tmod]
      rw [Int.ofNat_tmod]

/-- The character of a remainder, of either sign. -/
theorem digitByte_eq {minus : Bool} {r : BitVec 32} {d : ℕ} (hr : r.toInt = signed minus d)
    (hd : d < 32) : digitByte r = digitOf minus d := by
  have hall : ∀ minus, ∀ d < 32,
      digitByte (BitVec.ofInt 32 (signed minus d)) = digitOf minus d := by decide
  rw [← hall minus d hd, ← hr, BitVec.ofInt_toInt]

theorem digitOf_ne_zero (minus : Bool) {d : ℕ} (hd : d < 32) : digitOf minus d ≠ 0 := by
  have hall : ∀ minus, ∀ d < 32, digitOf minus d ≠ 0 := by decide
  exact hall minus d hd

section Loop

variable {base : BitVec 32} (hbase : 2 ≤ base.toInt) (hbase' : base.toInt ≤ 32)

include hbase' in
/-- The loop of `itoa` writes the digits, the last one first. -/
theorem itoaLoop_written (minus : Bool) (m : ℕ) (n : BitVec 32) (out : List UInt8 × ℕ)
    (t : List UInt8) (hn : n.toInt = signed minus m) (h : Written out t) :
    Written (itoaLoop base hbase n out)
      (t ++ (Nat.digits base.toInt.natAbs m).map (digitOf minus)) := by
  have hb : (base.toInt.natAbs : ℤ) = base.toInt := by omega
  induction m using Nat.strong_induction_on generalizing n out t with
  | h m ih =>
      by_cases hm : m = 0
      · have hzero : n = 0 := by
          apply BitVec.eq_of_toInt_eq
          rw [hn, hm, signed]
          cases minus <;> rfl
        rw [itoaLoop, if_pos hzero, hm, Nat.digits_zero, List.map_nil, List.append_nil]
        exact h
      · have hne : n ≠ 0 := by
          rintro rfl
          cases minus with
          | false =>
              change (0 : ℤ) = m at hn
              omega
          | true =>
              change (0 : ℤ) = -m at hn
              omega
        have hdiv : (n.sdiv base).toInt = signed minus (m / base.toInt.natAbs) := by
          have hnot : base ≠ -1#32 := by
            rintro rfl
            exact absurd hbase (by decide)
          rw [BitVec.toInt_sdiv_of_ne_or_ne n base (.inr hnot), hn, ← signed_tdiv, hb]
        have hmod : (n.srem base).toInt = signed minus (m % base.toInt.natAbs) := by
          rw [BitVec.toInt_srem, hn, ← signed_tmod, hb]
        have hlt : m % base.toInt.natAbs < 32 :=
          lt_of_lt_of_le (Nat.mod_lt _ (by omega)) (by omega)
        have hnext := ih (m / base.toInt.natAbs) (Nat.div_lt_self (by omega) (by omega))
          (n.sdiv base) _ _ hdiv (h.put (digitByte (n.srem base)))
        rw [itoaLoop, if_neg hne, Nat.digits_def' (by omega) (by omega), List.map_cons,
          ← digitByte_eq hmod hlt]
        rw [List.append_assoc, List.singleton_append] at hnext
        exact hnext

end Loop

/-- The digits of `abs`: those of the least integer are negative. -/
theorem toInt_abs (v : BitVec 32) :
    (abs v).toInt = signed (decide (v = BitVec.intMin 32)) v.toInt.natAbs := by
  by_cases hmin : v = BitVec.intMin 32
  · rw [hmin]
    decide
  · have hne : v.toInt ≠ -2147483648 := fun h => hmin (BitVec.eq_of_toInt_eq h)
    have hlow := v.le_toInt
    have hhigh := v.toInt_lt
    have hone : (-1 : BitVec 32).toInt = -1 := by decide
    rw [decide_eq_false hmin, signed, if_neg (by decide), abs]
    by_cases hneg : v.toInt < 0
    · rw [if_pos hneg, BitVec.toInt_mul, hone, Int.bmod_eq_of_le_mul_two (by omega) (by omega)]
      omega
    · rw [if_neg hneg]
      omega

/-- The digits, or `'0'` where there are none. -/
theorem Written.digits {out : List UInt8 × ℕ} {minus : Bool} {b m : ℕ}
    (h : Written out ((Nat.digits b m).map (digitOf minus))) (hb : 2 ≤ b) (hb' : b ≤ 32) :
    ∃ t, Written (if out.2 = 0 then Integers.put out 48 else out) t ∧ (∀ c ∈ t, c ≠ 0) ∧
      t.reverse = spelled minus b m := by
  by_cases hzero : m = 0
  · rw [hzero, Nat.digits_zero, List.map_nil] at h
    have hnone : out.2 = 0 := h.count
    rw [if_pos hnone, spelled, if_pos hzero]
    exact ⟨[48], h.put 48, by simp, rfl⟩
  · have hsome : out.2 ≠ 0 := by
      rw [h.count, List.length_map]
      intro hlen
      exact hzero (Nat.digits_eq_nil_iff_eq_zero.mp (List.length_eq_zero_iff.mp hlen))
    rw [if_neg hsome, spelled, if_neg hzero, List.map_reverse]
    refine ⟨_, h, fun c hc => ?_, rfl⟩
    obtain ⟨d, hd, rfl⟩ := List.mem_map.mp hc
    have hlt := Nat.digits_lt_base (by omega) hd
    exact digitOf_ne_zero minus (by omega)

/-- The sign behind them. -/
theorem Written.sign {out : List UInt8 × ℕ} {t : List UInt8} (h : Written out t)
    (ht : ∀ c ∈ t, c ≠ 0) (minus : Prop) [Decidable minus] :
    ∃ t', Written (if minus then Integers.put out 45 else out) t' ∧ (∀ c ∈ t', c ≠ 0) ∧
      t'.reverse = (if minus then [45] else []) ++ t.reverse := by
  by_cases hminus : minus
  · rw [if_pos hminus, if_pos hminus]
    refine ⟨t ++ [45], h.put 45, fun c hc => ?_, List.reverse_append⟩
    rcases List.mem_append.mp hc with hc | hc
    · exact ht c hc
    · rw [List.mem_singleton.mp hc]
      decide
  · rw [if_neg hminus, if_neg hminus]
    exact ⟨t, h, ht, rfl⟩

/-- The string that `itoa` writes. -/
theorem itoa_string {value base : BitVec 32} (buffer : List UInt8) (hbase : 2 ≤ base.toInt)
    (hbase' : base.toInt ≤ 32) :
    cstr (itoa value buffer base) = (if value.toInt < 0 ∧ base = 10 then [45] else []) ++
      spelled (decide (value = BitVec.intMin 32)) base.toInt.natAbs value.toInt.natAbs := by
  have hstart : Written (buffer, 0) [] := ⟨rfl, fun k hk => absurd hk (Nat.not_lt_zero k)⟩
  have hloop := itoaLoop_written hbase hbase' _ _ (abs value) _ _ (toInt_abs value) hstart
  rw [List.nil_append] at hloop
  obtain ⟨t, hdigits, ht, hspelled⟩ := hloop.digits (by omega) (by omega)
  obtain ⟨t', hsigned, ht', hsign⟩ := hdigits.sign ht (value.toInt < 0 ∧ base = 10)
  rw [itoa, dif_neg (by omega), ← hspelled, ← hsign]
  exact hsigned.cstr_reverse ht'

/-! ### Reading them back -/

/-- The string up to the zero byte is read. -/
theorem atoiLoop_cstr (str : List UInt8) (res : BitVec 32) :
    atoiLoop str res = atoiLoop (cstr str) res := by
  induction str generalizing res with
  | nil => rfl
  | cons c str ih =>
      by_cases hc : c = 0
      · simp [atoiLoop, cstr, hc]
      · have hcons : cstr (c :: str) = c :: cstr str := by simp [cstr, hc]
        rw [hcons, atoiLoop, atoiLoop, if_pos hc, if_pos hc, ih]

theorem atoi_cstr (str : List UInt8) : atoi str = atoi (cstr str) := by
  have hfirst : byteAt (cstr str) 0 = byteAt str 0 := byteAt_cstr (Nat.zero_le _)
  rw [atoi, atoi, hfirst, ← atoiLoop_cstr str 0]
  by_cases hsign : byteAt str 0 = 45
  · have hpos : 1 ≤ strlen str := by
      by_contra h
      have hend := byteAt_strlen str
      rw [show strlen str = 0 by omega, hsign] at hend
      exact absurd hend (by decide)
    rw [if_pos hsign, if_pos hsign, atoiLoop_cstr, cstr_drop hpos]
  · rw [if_neg hsign, if_neg hsign]

theorem atoiLoop_append {s : List UInt8} (hs : ∀ c ∈ s, c ≠ 0) (t : List UInt8)
    (res : BitVec 32) : atoiLoop (s ++ t) res = atoiLoop t (atoiLoop s res) := by
  induction s generalizing res with
  | nil => rfl
  | cons c s ih =>
      obtain ⟨hc, hs⟩ := List.forall_mem_cons.mp hs
      rw [List.cons_append, atoiLoop, atoiLoop, if_pos hc, if_pos hc, ih hs]

/-- The value of a digit, of either sign. -/
theorem charInt_digitOf (minus : Bool) {d : ℕ} (hd : d < 10) :
    charInt (digitOf minus d) = BitVec.ofInt 32 (signed minus d) + 48 := by
  have hall : ∀ minus, ∀ d < 10,
      charInt (digitOf minus d) = BitVec.ofInt 32 (signed minus d) + 48 := by decide
  exact hall minus d hd

theorem signed_digit (minus : Bool) (m : ℕ) :
    signed minus m = signed minus (m / 10) * 10 + signed minus (m % 10) := by
  cases minus with
  | false =>
      change (m : ℤ) = (m / 10 : ℕ) * 10 + (m % 10 : ℕ)
      omega
  | true =>
      change -(m : ℤ) = -(m / 10 : ℕ) * 10 + -(m % 10 : ℕ)
      omega

/-- The loop of `atoi` adds the digits up. -/
theorem atoiLoop_digits (minus : Bool) (m : ℕ) :
    atoiLoop ((Nat.digits 10 m).reverse.map (digitOf minus)) 0 =
      BitVec.ofInt 32 (signed minus m) := by
  induction m using Nat.strong_induction_on with
  | h m ih =>
      by_cases hm : m = 0
      · rw [hm]
        cases minus <;> rfl
      · have hd : m % 10 < 10 := Nat.mod_lt _ (by norm_num)
        have hrest : ∀ c ∈ (Nat.digits 10 (m / 10)).reverse.map (digitOf minus), c ≠ 0 := by
          intro c hc
          obtain ⟨d, hmem, rfl⟩ := List.mem_map.mp hc
          have := Nat.digits_lt_base (by norm_num) (List.mem_reverse.mp hmem)
          exact digitOf_ne_zero minus (by omega)
        have hten : (10 : BitVec 32) = BitVec.ofInt 32 10 := rfl
        rw [Nat.digits_def' (by norm_num) (by omega), List.reverse_cons, List.map_append,
          atoiLoop_append hrest, ih _ (Nat.div_lt_self (by omega) (by norm_num))]
        simp only [List.map_cons, List.map_nil, atoiLoop]
        rw [if_pos (digitOf_ne_zero minus (by omega)), charInt_digitOf minus hd,
          signed_digit minus m, BitVec.ofInt_add, BitVec.ofInt_mul, ← hten, ← BitVec.add_assoc, BitVec.add_sub_cancel]

theorem atoiLoop_spelled (minus : Bool) (m : ℕ) :
    atoiLoop (spelled minus 10 m) 0 = BitVec.ofInt 32 (signed minus m) := by
  rw [spelled]
  by_cases hm : m = 0
  · rw [if_pos hm, hm]
    cases minus <;> rfl
  · rw [if_neg hm, atoiLoop_digits]

/-- A numeral does not begin with the sign. -/
theorem byteAt_spelled_ne (m : ℕ) : byteAt (spelled false 10 m) 0 ≠ 45 := by
  have hmem : ∀ c ∈ spelled false 10 m, c ≠ 45 := by
    rw [spelled]
    split
    case isTrue => simp
    case isFalse =>
      intro c hc
      obtain ⟨d, hd, rfl⟩ := List.mem_map.mp hc
      have hlt := Nat.digits_lt_base (by norm_num) (List.mem_reverse.mp hd)
      have hall : ∀ d < 10, digitOf false d ≠ 45 := by decide
      exact hall d hlt
  generalize spelled false 10 m = s at hmem
  cases s with
  | nil => decide
  | cons c s => exact hmem c List.mem_cons_self

/-- `atoi` reads what `itoa` has written. -/
theorem atoi_itoa (value : BitVec 32) (buffer : List UInt8) :
    atoi (itoa value buffer 10) = value := by
  rw [atoi_cstr, itoa_string buffer (by decide) (by decide)]
  have hten : (10 : BitVec 32).toInt.natAbs = 10 := by decide
  have hmul : ∀ x : BitVec 32, 1 * x = x := BitVec.one_mul
  rw [hten]
  by_cases hneg : value.toInt < 0
  · have hfirst : ∀ s, byteAt (45 :: s) 0 = 45 := fun _ => rfl
    rw [if_pos ⟨hneg, rfl⟩, List.singleton_append, atoi, if_pos (hfirst _), List.drop_one,
      List.tail_cons, atoiLoop_spelled]
    by_cases hmin : value = BitVec.intMin 32
    · rw [hmin]
      decide
    · have habs : signed (decide (value = BitVec.intMin 32)) value.toInt.natAbs = -value.toInt := by
        rw [decide_eq_false hmin, signed, if_neg (by decide)]
        omega
      have hone : (-1 : BitVec 32) * -value = value := by
        rw [BitVec.neg_mul, hmul, BitVec.neg_neg]
      rw [habs, BitVec.ofInt_neg, BitVec.ofInt_toInt, hone]
  · have hmin : value ≠ BitVec.intMin 32 := by
      rintro rfl
      exact hneg (by decide)
    have habs : signed false value.toInt.natAbs = value.toInt := by
      rw [signed, if_neg (by decide)]
      omega
    rw [if_neg (fun h => hneg h.1), List.nil_append, decide_eq_false hmin, atoi,
      if_neg (byteAt_spelled_ne _), atoiLoop_spelled, habs, BitVec.ofInt_toInt, hmul]

/-! ### The numeral -/

/-- Subtracted digits are no numeral. -/
theorem spelled_ne_numeral {b m : ℕ} (hb : 2 ≤ b) (hb' : b ≤ 32) (hm : m ≠ 0) :
    spelled true b m ≠ numeral b 65 m := by
  intro heq
  rw [spelled, numeral, if_neg hm, if_neg hm, List.map_inj_left] at heq
  have hnil : Nat.digits b m ≠ [] := Nat.digits_ne_nil_iff_ne_zero.mpr hm
  have hmem := List.getLast_mem hnil
  have hlt := Nat.digits_lt_base (by omega) hmem
  have hsame := heq _ (List.mem_reverse.mpr hmem)
  have hall : ∀ d < 32, digitOf true d = digitChar 65 d → d = 0 := by decide
  exact Nat.getLast_digit_ne_zero b hm (hall _ (by omega) hsame)

/-- `itoa` writes the numeral of the absolute value, behind a sign in base 10, exactly if the number
is not the least one; `atoi` gives back every number. -/
theorem itoa_iff (value base : BitVec 32) (buffer : List UInt8) (hbase : 2 ≤ base.toInt)
    (hbase' : base.toInt ≤ 32) :
    (cstr (itoa value buffer base) = (if value.toInt < 0 ∧ base = 10 then [45] else []) ++
        numeral base.toInt.natAbs 65 value.toInt.natAbs ↔ value ≠ BitVec.intMin 32) ∧
      atoi (itoa value buffer 10) = value := by
  refine ⟨?_, atoi_itoa value buffer⟩
  rw [itoa_string buffer hbase hbase', List.append_cancel_left_eq]
  constructor
  · rintro heq rfl
    exact spelled_ne_numeral (by omega) (by omega) (by decide) heq
  · intro hne
    rw [decide_eq_false hne]
    rfl

/-- The theorem for -42 in base 10. -/
theorem itoa_iff_negative :
    cstr (itoa (-42) [] 10) = [45, 52, 50] ∧ atoi (itoa (-42) [] 10) = -42 := by
  obtain ⟨hstring, hback⟩ := itoa_iff (-42) 10 [] (by decide) (by decide)
  have hvalue : (-42 : BitVec 32).toInt = -42 := by decide
  have hbase : (10 : BitVec 32).toInt = 10 := by decide
  have hdigits : Nat.digits 10 42 = [2, 4] := by norm_num
  refine ⟨(hstring.mpr (by decide)).trans ?_, hback⟩
  rw [hvalue, hbase, numeral, if_pos (by decide), if_neg (by decide)]
  change [45] ++ (Nat.digits 10 42).reverse.map (digitChar 65) = _
  rw [hdigits]
  decide

/-- The least integer: its digits are subtracted from `'0'`. -/
theorem itoa_least :
    ¬ ∀ (value base : BitVec 32) (buffer : List UInt8), 2 ≤ base.toInt → base.toInt ≤ 32 →
      cstr (itoa value buffer base) = (if value.toInt < 0 ∧ base = 10 then [45] else []) ++
          numeral base.toInt.natAbs 65 value.toInt.natAbs ∧
        atoi (itoa value buffer 10) = value := by
  intro hclaim
  have hstring := (hclaim (BitVec.intMin 32) 10 [] (by decide) (by decide)).1
  rw [itoa_string [] (by decide) (by decide), List.append_cancel_left_eq] at hstring
  exact spelled_ne_numeral (by decide) (by decide) (by decide) hstring

end Owmice.Integers
