import Mathlib.Tactic

/-! # Words of two bytes

The word with a low byte `a` and a high byte `b`, as programs make it from the bytes.

* `toNat_bytes`: its value;
* `low_bytes`, `high_bytes`, `bytes_word`: the bytes of a word and the word of its bytes. -/

namespace Owmice

theorem toNat_bytes (a b : UInt8) :
    (a.toUInt16 ||| b.toUInt16 <<< 8).toNat = a.toNat + 256 * b.toNat := by
  have ha := a.toNat_lt
  have hb := b.toNat_lt
  have hshift : b.toNat <<< 8 % 2 ^ 16 = b.toNat <<< 8 := by
    rw [Nat.shiftLeft_eq]
    omega
  rw [UInt16.toNat_or, UInt16.toNat_shiftLeft, UInt8.toNat_toUInt16, UInt8.toNat_toUInt16,
    show (8 : UInt16).toNat % 16 = 8 from rfl, hshift, Nat.or_comm,
    ← Nat.shiftLeft_add_eq_or_of_lt ha, Nat.shiftLeft_eq]
  omega

theorem low_bytes (a b : UInt8) : (a.toUInt16 ||| b.toUInt16 <<< 8).toUInt8 = a := by
  apply UInt8.toNat_inj.mp
  have ha := a.toNat_lt
  rw [UInt16.toNat_toUInt8, toNat_bytes]
  omega

theorem high_bytes (a b : UInt8) : ((a.toUInt16 ||| b.toUInt16 <<< 8) >>> 8).toUInt8 = b := by
  apply UInt8.toNat_inj.mp
  have ha := a.toNat_lt
  have hb := b.toNat_lt
  rw [UInt16.toNat_toUInt8, UInt16.toNat_shiftRight, toNat_bytes,
    show (8 : UInt16).toNat % 16 = 8 from rfl, Nat.shiftRight_eq_div_pow]
  omega

theorem bytes_word (w : UInt16) : w.toUInt8.toUInt16 ||| (w >>> 8).toUInt8.toUInt16 <<< 8 = w := by
  apply UInt16.toNat_inj.mp
  have hw := w.toNat_lt
  rw [toNat_bytes, UInt16.toNat_toUInt8, UInt16.toNat_toUInt8, UInt16.toNat_shiftRight,
    show (8 : UInt16).toNat % 16 = 8 from rfl, Nat.shiftRight_eq_div_pow]
  omega

/-- A mask of the low byte does nothing. -/
theorem toUInt8_and_255 (w : UInt16) : (w &&& 0xFF).toUInt8 = w.toUInt8 := by
  apply UInt8.toNat_inj.mp
  rw [UInt16.toNat_toUInt8, UInt16.toNat_and, show (0xFF : UInt16).toNat = 2 ^ 8 - 1 from rfl,
    Nat.and_two_pow_sub_one_eq_mod, UInt16.toNat_toUInt8]
  omega

end Owmice
