import Owmice.Logged
import Owmice.Memory
import Owmice.Tokens

/-! # The bytes that a shift touches (`strshl` of `standard/strings.h`)

`strshl` moves the characters of a string to its front, byte by byte, and leaves a zero byte in
every place that it has read.  When more than half of the string is cut off, bytes of the old
string stay between the new one and these zero bytes; a second `strlen` finds them, and `substr`
copies the new string onto itself to put a zero byte behind it.

* `strshlM_val`: the logging version is `strshl`;
* `strshl_inside`: what is left of the string, and the bytes that are read or written. -/

namespace Owmice

open Logged

/-- A read of byte `i`. -/
def byteAtM (b : List UInt8) (i : ℕ) : Logged ℕ UInt8 := do
  access i
  pure (byteAt b i)

/-- A store to byte `i`. -/
def setAtM (b : List UInt8) (i : ℕ) (v : UInt8) : Logged ℕ (List UInt8) := do
  access i
  pure (setAt b i v)

/-- The loop of `strlen` on the rest of a buffer, from byte `len` on. -/
def strlenLoopM : List UInt8 → ℕ → Logged ℕ ℕ
  | [], len => do
      access len
      pure len
  | c :: b, len => do
      access len
      if c = 0 then pure len else strlenLoopM b (len + 1)

/-- `strlen`. -/
def strlenM (b : List UInt8) : Logged ℕ ℕ := strlenLoopM b 0

/-- `memset`. -/
def memsetM (b : List UInt8) (value : UInt8) (size : ℕ) : Logged ℕ (List UInt8) :=
  (List.range size).foldlM (fun b i => setAtM b i value) b

/-- The loop of `strshl` from round `i` on, with `n` rounds to go. -/
def shiftLoopM (amt size : ℕ) : ℕ → ℕ → List UInt8 → Logged ℕ (List UInt8)
  | 0, _, str => pure str
  | n + 1, i, str =>
      if size < w32 (i + amt) then pure str
      else do
        let c ← byteAtM str (w32 (i + amt))
        let str ← setAtM str i c
        let str ← setAtM str (w32 (i + amt)) 0
        shiftLoopM amt size n (i + 1) str

/-- `substr`, with one buffer as source and destination; `length` is an `int`. -/
def substrM (str : List UInt8) (position : ℕ) (length : ℤ) : Logged ℕ (List UInt8) := do
  let str ← (List.range length.toNat).foldlM (fun b i => do
    let c ← byteAtM b (i + position)
    setAtM b i c) str
  setAtM str length.toNat 0

/-- `strshl`. -/
def strshlM (str : List UInt8) (amt : ℕ) : Logged ℕ (List UInt8) := do
  let size ← strlenM str
  if size ≤ amt then memsetM str 0 size
  else do
    let str ← shiftLoopM amt size (size - amt) 0 str
    let len ← strlenM str
    if size - amt < len then substrM str 0 (BitVec.ofNat 32 (size - amt)).toInt else pure str

/-! ### The bytes of the loops -/

section Loops

variable {N : ℕ} {b : List UInt8}

theorem strlenLoopM_spec (b : List UInt8) (len : ℕ) :
    (strlenLoopM b len).val = len + strlen b ∧
      ∀ i ∈ (strlenLoopM b len).log, i ≤ len + strlen b := by
  induction b generalizing len with
  | nil =>
      refine ⟨rfl, fun i hi => ?_⟩
      obtain rfl : i = len := by simpa [strlenLoopM] using hi
      exact Nat.le_add_right _ _
  | cons c b ih =>
      rw [strlenLoopM]
      by_cases hc : c = 0
      · have hlen : strlen (c :: b) = 0 := by simp [strlen, hc]
        rw [if_pos hc, hlen]
        refine ⟨rfl, fun i hi => ?_⟩
        obtain rfl : i = len := by simpa using hi
        exact Nat.le_add_right _ _
      · have hlen : strlen (c :: b) = strlen b + 1 := by simp [strlen, hc]
        obtain ⟨ih1, ih2⟩ := ih (len + 1)
        rw [if_neg hc, hlen]
        refine ⟨?_, fun i hi => ?_⟩
        · rw [bind_val, ih1]
          omega
        · rw [bind_log, access_log, List.singleton_append, List.mem_cons] at hi
          rcases hi with rfl | hi
          · exact Nat.le_add_right _ _
          · have := ih2 i hi
            omega

theorem strlenM_val (b : List UInt8) : (strlenM b).val = strlen b :=
  (strlenLoopM_spec b 0).1.trans (Nat.zero_add _)

/-- `strlen` reads the string and its zero byte. -/
theorem within_strlenM (h : strlen b ≤ N) :
    Within (· ≤ N) (fun len => len = strlen b) (strlenM b) := by
  refine ⟨fun i hi => ?_, strlenM_val b⟩
  have := (strlenLoopM_spec b 0).2 i hi
  omega

theorem within_setAtM {i : ℕ} (v : UInt8) (h : i ≤ N) :
    Within (· ≤ N) (fun b' => b' = setAt b i v) (setAtM b i v) :=
  within_bind (within_access h) fun _ _ => within_pure rfl

theorem within_byteAtM {i : ℕ} (h : i ≤ N) :
    Within (· ≤ N) (fun c => c = byteAt b i) (byteAtM b i) :=
  within_bind (within_access h) fun _ _ => within_pure rfl

theorem within_memsetM {size : ℕ} (value : UInt8) (h : size ≤ N) :
    Within (· ≤ N) (fun b' => b' = memset b value size) (memsetM b value size) := by
  refine ⟨?_, foldlM_val _ _ (fun _ _ => rfl) _ _⟩
  have hlog : Within (· ≤ N) (fun _ => True) (memsetM b value size) := by
    apply within_foldlM trivial
    intro i hi b' _
    rw [List.mem_range] at hi
    exact ⟨(within_setAtM value (by omega)).1, trivial⟩
  exact hlog.1

theorem within_substrM {length : ℕ} (h : length ≤ N) :
    Within (· ≤ N) (fun b' => b' = substr b 0 length) (substrM b 0 length) := by
  have hlog : Within (· ≤ N) (fun _ => True) ((List.range length).foldlM (fun b i => do
      let c ← byteAtM b (i + 0)
      setAtM b i c) b) := by
    apply within_foldlM trivial
    intro i hi b' _
    rw [List.mem_range] at hi
    apply within_bind (within_byteAtM (by omega))
    intro c _
    exact ⟨(within_setAtM c (by omega)).1, trivial⟩
  have hval : ((List.range length).foldlM (fun b i => do
      let c ← byteAtM b (i + 0)
      setAtM b i c) b).val =
        (List.range length).foldl (fun b i => setAt b i (byteAt b (i + 0))) b :=
    foldlM_val _ _ (fun _ _ => rfl) _ _
  unfold substrM substr
  rw [Int.toNat_natCast]
  apply within_bind (Q := fun b' => b' = _) ⟨hlog.1, hval⟩
  rintro b' rfl
  exact within_setAtM 0 h

/-- The rounds of the loop stay within a string of `size` bytes. -/
theorem within_shiftLoopM {amt size : ℕ} (hsize : size < 4294967296) (n i : ℕ)
    (str : List UInt8) (hn : i + n + amt ≤ size) :
    Within (· ≤ size) (fun b' => b' = shiftLoop amt size n i str)
      (shiftLoopM amt size n i str) := by
  induction n generalizing i str with
  | zero => exact within_pure rfl
  | succ n ih =>
      have hsrc : w32 (i + amt) = i + amt := w32_of_lt (by omega)
      rw [shiftLoopM, hsrc, shiftLoop, if_neg (by omega), if_neg (by omega)]
      apply within_bind (within_byteAtM (by omega))
      rintro c rfl
      apply within_bind (within_setAtM _ (by omega))
      rintro b' rfl
      apply within_bind (within_setAtM _ (by omega))
      rintro b' rfl
      exact ih (i + 1) _ (by omega)

end Loops

/-! ### The shift -/

/-- An `int` holds every length below `2 ^ 31`. -/
theorem toInt_ofNat {n : ℕ} (h : n < 2147483648) : (BitVec.ofNat 32 n).toInt = n := by
  rw [BitVec.toInt_eq_toNat_of_lt]
  · rw [BitVec.toNat_ofNat, Nat.mod_eq_of_lt (by omega)]
  · rw [BitVec.toNat_ofNat, Nat.mod_eq_of_lt (by omega)]
    omega

/-- `strshl` stays within the string and its zero byte. -/
theorem within_strshlM {str : List UInt8} (hlen : strlen str < 4294967296) {amt : ℕ}
    (hamt : 0 < amt) :
    Within (· ≤ strlen str) (fun b' => b' = strshl str amt) (strshlM str amt) := by
  unfold strshlM strshl
  apply within_bind (within_strlenM le_rfl)
  rintro size rfl
  by_cases hall : strlen str ≤ amt
  · simp only [hall, if_true]
    exact within_memsetM 0 le_rfl
  simp only [hall, if_false]
  apply within_bind (within_shiftLoopM hlen _ _ _ (by omega))
  rintro out rfl
  have hsh := shiftLoop_shifted str (strlen str) hamt (strlen str - amt) 0 str (by omega)
    fun j => by rw [if_neg (by omega), if_neg (by omega)]
  rw [Nat.zero_add] at hsh
  generalize shiftLoop amt (strlen str) (strlen str - amt) 0 str = out at hsh ⊢
  have hout : strlen out ≤ strlen str := by
    apply strlen_le_of_zero
    rw [hsh, if_neg (by omega), if_neg (by omega), byteAt_strlen]
  apply within_bind (within_strlenM hout)
  rintro len rfl
  split
  case isTrue hstale =>
    -- more than half of the string has been cut off, so that the length is an `int`
    have hhalf : strlen str - amt < amt := by
      by_contra hle
      refine byteAt_ne_zero out hstale ?_
      rw [hsh, if_neg (by omega), if_pos (by omega)]
    rw [toInt_ofNat (by omega)]
    exact within_substrM (Nat.sub_le _ _)
  case isFalse => exact within_pure rfl

theorem strshlM_val {str : List UInt8} (hlen : strlen str < 4294967296) {amt : ℕ}
    (hamt : 0 < amt) : (strshlM str amt).val = strshl str amt :=
  (within_strshlM hlen hamt).2

/-- `strshl` cuts the first `amt` characters off a string, and reads and writes no byte behind the
zero byte of the string. -/
theorem strshl_inside {str : List UInt8} (hlen : strlen str < 4294967296) {amt : ℕ}
    (hamt : 1 ≤ amt) : cstr (strshlM str amt).val = (cstr str).drop amt ∧
      ∀ i ∈ (strshlM str amt).log, i ≤ strlen str := by
  refine ⟨?_, (within_strshlM hlen hamt).1⟩
  rw [strshlM_val hlen hamt]
  exact cstr_strshl str hamt

/-- The theorem for a string of five characters that loses three. -/
theorem strshl_inside_three :
    cstr (strshlM [97, 98, 99, 100, 101, 0, 7] 3).val = (cstr [97, 98, 99, 100, 101, 0, 7]).drop 3 ∧
      ∀ i ∈ (strshlM [97, 98, 99, 100, 101, 0, 7] 3).log, i ≤ strlen [97, 98, 99, 100, 101, 0, 7] :=
  strshl_inside (by decide) (by decide)

end Owmice
