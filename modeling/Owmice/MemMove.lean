import Owmice.Memory

/-! # Copies in memory (`memmove` and `memcpy` of `standard/stdio.h`)

`memmove` copies byte by byte, upwards when the destination lies below the source and downwards
otherwise, so that a byte is read before it is overwritten, however the ranges overlap.  `memcpy`
always copies upwards.

* `memmove_apply`, `memmove_correct`: every byte of the memory afterwards;
* `memcpy_eq_load`: a copy between ranges that do not overlap. -/

namespace Owmice.Mem

/-- The first loop of `memmove`: the memory after `n` bytes have been copied upwards. -/
def copyUp (m : Mem) (dst src : ℕ) : ℕ → Mem
  | 0 => m
  | n + 1 =>
      let m := copyUp m dst src n
      Function.update m (w32 (dst + n)) (m (w32 (src + n)))

/-- The second loop of `memmove`: the bytes `n - 1`, .., 0 are copied in this order. -/
def copyDown (dst src : ℕ) : ℕ → Mem → Mem
  | 0, m => m
  | n + 1, m => copyDown dst src n (Function.update m (w32 (dst + n)) (m (w32 (src + n))))

/-- `memmove`. -/
def memmove (m : Mem) (dst src size : ℕ) : Mem :=
  if dst < src then copyUp m dst src size else copyDown dst src size m

variable {m : Mem} {dst src : ℕ}

theorem copyUp_apply (hlt : dst < src) {n : ℕ} (hn : src + n ≤ 4294967296) (x : ℕ) :
    copyUp m dst src n x = if dst ≤ x ∧ x < dst + n then m (src + (x - dst)) else m x := by
  induction n generalizing x with
  | zero => rw [copyUp, if_neg (by omega)]
  | succ n ih =>
      specialize ih (by omega)
      rw [copyUp, w32_of_lt (by omega), w32_of_lt (by omega)]
      by_cases hx : x = dst + n
      · -- the byte of the source lies above those written so far
        rw [hx, Function.update_self, ih, if_neg (by omega), if_pos (by omega),
          Nat.add_sub_cancel_left]
      · rw [Function.update_of_ne hx, ih]
        by_cases hin : dst ≤ x ∧ x < dst + n
        · rw [if_pos hin, if_pos (by omega)]
        · rw [if_neg hin, if_neg (by omega)]

theorem copyDown_apply (hle : src ≤ dst) {n : ℕ} {m : Mem} (hn : dst + n ≤ 4294967296) (x : ℕ) :
    copyDown dst src n m x = if dst ≤ x ∧ x < dst + n then m (src + (x - dst)) else m x := by
  induction n generalizing m with
  | zero => rw [copyDown, if_neg (by omega)]
  | succ n ih =>
      rw [copyDown, ih (by omega), w32_of_lt (by omega), w32_of_lt (by omega)]
      by_cases hin : dst ≤ x ∧ x < dst + n
      · -- the bytes that remain to be copied lie below the one written
        rw [if_pos hin, if_pos (by omega), Function.update_of_ne (by omega)]
      · rw [if_neg hin]
        by_cases hx : x = dst + n
        · rw [hx, Function.update_self, if_pos (by omega), Nat.add_sub_cancel_left]
        · rw [Function.update_of_ne hx, if_neg (by omega)]

/-- The destination holds what the source held, and nothing else has changed. -/
theorem memmove_apply {size : ℕ} (hdst : dst + size ≤ 4294967296)
    (hsrc : src + size ≤ 4294967296) (x : ℕ) : memmove m dst src size x =
      if dst ≤ x ∧ x < dst + size then m (src + (x - dst)) else m x := by
  rw [memmove]
  split
  case isTrue hlt => exact copyUp_apply hlt hsrc x
  case isFalse hle => exact copyDown_apply (not_lt.mp hle) hdst x

/-- However the ranges overlap, every byte of the destination is the one that the source had
before the call, and no other byte changes. -/
theorem memmove_correct (m : Mem) {dst src size : ℕ} (hdst : dst + size ≤ 4294967296)
    (hsrc : src + size ≤ 4294967296) :
    (∀ i < size, memmove m dst src size (dst + i) = m (src + i)) ∧
      Only (fun x => dst ≤ x ∧ x < dst + size) m (memmove m dst src size) := by
  refine ⟨fun i hi => ?_, fun x hx => ?_⟩
  · rw [memmove_apply hdst hsrc, if_pos (by omega), Nat.add_sub_cancel_left]
  · rw [memmove_apply hdst hsrc, if_neg hx]

/-- The theorem for three bytes that move up by one. -/
theorem memmove_correct_up :
    (∀ i < 3, memmove (fun x => UInt8.ofNat x) 5 4 3 (5 + i) = UInt8.ofNat (4 + i)) ∧
      Only (fun x => 5 ≤ x ∧ x < 5 + 3) (fun x => UInt8.ofNat x)
        (memmove (fun x => UInt8.ofNat x) 5 4 3) :=
  memmove_correct (fun x => UInt8.ofNat x) (by norm_num) (by norm_num)

/-- The bytes of the destination. -/
theorem bytes_memmove {size : ℕ} (hdst : dst + size ≤ 4294967296)
    (hsrc : src + size ≤ 4294967296) :
    (memmove m dst src size).bytes dst size = m.bytes src size := by
  refine List.ext_getElem (by simp) fun i hi _ => ?_
  rw [length_bytes] at hi
  rw [getElem_bytes, getElem_bytes, w32_of_lt (by omega), w32_of_lt (by omega),
    memmove_apply hdst hsrc, if_pos (by omega), Nat.add_sub_cancel_left]

/-- Bytes that the copy does not reach. -/
theorem bytes_memmove_of_disjoint {size a n : ℕ} (hdst : dst + size ≤ 4294967296)
    (hsrc : src + size ≤ 4294967296) (ha : a + n ≤ 4294967296) (h : a + n ≤ dst ∨ dst + size ≤ a) :
    (memmove m dst src size).bytes a n = m.bytes a n := by
  refine bytes_congr fun i hi => ?_
  rw [w32_of_lt (by omega), memmove_apply hdst hsrc, if_neg (by omega)]

/-- Nor does a `load` elsewhere change them. -/
theorem bytes_load_of_disjoint {bs : List UInt8} {a n : ℕ} (hdst : dst + bs.length ≤ 4294967296)
    (ha : a + n ≤ 4294967296) (h : a + n ≤ dst ∨ dst + bs.length ≤ a) :
    (m.load dst bs).bytes a n = m.bytes a n := by
  refine bytes_congr fun i hi => ?_
  rw [w32_of_lt (by omega), load_outside _ hdst (by omega)]

/-- `memcpy`, whose loop is the first one of `memmove`. -/
def memcpy (m : Mem) (dst src size : ℕ) : Mem := copyUp m dst src size

/-- A copy between ranges that do not overlap loads the bytes of the source. -/
theorem memcpy_eq_load {size : ℕ} (hdst : dst + size ≤ 4294967296)
    (hsrc : src + size ≤ 4294967296) (h : src + size ≤ dst ∨ dst + size ≤ src) :
    memcpy m dst src size = m.load dst (m.bytes src size) := by
  have hcopy : ∀ n ≤ size, ∀ x, copyUp m dst src n x =
      if dst ≤ x ∧ x < dst + n then m (src + (x - dst)) else m x := by
    intro n
    induction n with
    | zero =>
        intro _ x
        rw [copyUp, if_neg (by omega)]
    | succ n ih =>
        intro hn x
        have ih := ih (by omega)
        rw [copyUp, w32_of_lt (by omega), w32_of_lt (by omega)]
        by_cases hx : x = dst + n
        · rw [hx, Function.update_self, ih, if_neg (by omega), if_pos (by omega),
            Nat.add_sub_cancel_left]
        · rw [Function.update_of_ne hx, ih]
          by_cases hin : dst ≤ x ∧ x < dst + n
          · rw [if_pos hin, if_pos (by omega)]
          · rw [if_neg hin, if_neg (by omega)]
  have hlen : (m.bytes src size).length = size := length_bytes _ _ _
  funext x
  rw [memcpy, hcopy size le_rfl]
  by_cases hin : dst ≤ x ∧ x < dst + size
  · obtain ⟨i, rfl⟩ := Nat.exists_eq_add_of_le hin.1
    rw [if_pos hin, load_apply m (by omega) (by omega), getElem_bytes, w32_of_lt (by omega),
      Nat.add_sub_cancel_left]
  · rw [if_neg hin, load_outside m (by omega) (by omega)]

end Owmice.Mem
