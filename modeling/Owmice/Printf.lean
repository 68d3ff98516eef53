import Owmice.CString
import Owmice.Logged

/-! # Formatted output (`printf` of `standard/stdio.h`)

`ft_printf_aux` walks over the format and leaves a conversion to one of eight handlers, which
take a word from the stack and call `ft_printf_aux` for the rest of the format.  The characters
sent to `owmice_putchar` are the log; the number returned is an `int`, a word of 32 bits.

* `expand`: what a format stands for, directive by directive;
* `ftPutnum_sends`: the digits of a number, with the highest first;
* `printf_expands`: the characters sent, and the number returned. -/

namespace Owmice.Stdio

open Logged

/-- The digits of a base and their characters. -/
structure Numerals where
  base : ℕ
  digits : List UInt8
  two_le : 2 ≤ base
  length_eq : digits.length = base

/-- `nums_decimal`. -/
def numsDecimal : Numerals := ⟨10, [48, 49, 50, 51, 52, 53, 54, 55, 56, 57], by decide, rfl⟩

/-- `nums_octal`. -/
def numsOctal : Numerals := ⟨8, [48, 49, 50, 51, 52, 53, 54, 55], by decide, rfl⟩

/-- `nums_hexs`. -/
def numsHexs : Numerals :=
  ⟨16, [48, 49, 50, 51, 52, 53, 54, 55, 56, 57, 97, 98, 99, 100, 101, 102], by decide, rfl⟩

/-- `nums_hexl`. -/
def numsHexl : Numerals :=
  ⟨16, [48, 49, 50, 51, 52, 53, 54, 55, 56, 57, 65, 66, 67, 68, 69, 70], by decide, rfl⟩

/-- What `printf` reads: the words of the stack from its first argument on, and the bytes from an
address on. -/
structure Args where
  stack : ℕ → BitVec 32
  memory : BitVec 32 → List UInt8

/-- `ft_putchar`. -/
def ftPutchar (c : UInt8) : Logged UInt8 Unit := access c

/-- `ft_putnum`. -/
def ftPutnum (nums : Numerals) (n : ℕ) : Logged UInt8 (BitVec 32) := do
  if h : nums.base ≤ n then do
    let res ← ftPutnum nums (n / nums.base)
    ftPutchar (byteAt nums.digits (n % nums.base))
    pure (1 + res)
  else do
    ftPutchar (byteAt nums.digits (n % nums.base))
    pure 1
termination_by n
decreasing_by exact Nat.div_lt_self (by have := nums.two_le; omega) nums.two_le

/-- The loop of `ft_print_s`. -/
def putString : List UInt8 → BitVec 32 → Logged UInt8 (BitVec 32)
  | [], len => pure len
  | c :: s, len =>
      if c = 0 then pure len
      else do
        ftPutchar c
        putString s (len + 1)

/-- The string `(null)`. -/
def nullString : List UInt8 := [40, 110, 117, 108, 108, 41]

/-! ### The handlers

A handler takes its argument `n` from the stack, sends its characters and adds their number to
`len`; then it calls `ft_printf_aux` for the rest of the format (`Handler.call`). -/

/-- A number without a sign. -/
def putUnsigned (nums : Numerals) (len n : BitVec 32) : Logged UInt8 (BitVec 32) := do
  let res ← ftPutnum nums n.toNat
  pure (len + res)

/-- `ft_print_c`. -/
def ftPrintC (len n : BitVec 32) : Logged UInt8 (BitVec 32) := do
  ftPutchar (UInt8.ofNat n.toNat)
  pure (len + 1)

/-- `ft_print_d`; `-(unsigned) n` is the negation of words. -/
def ftPrintD (len n : BitVec 32) : Logged UInt8 (BitVec 32) :=
  if n.toInt < 0 then do
    ftPutchar 45
    let len := len + 1
    let res ← ftPutnum numsDecimal (-n).toNat
    pure (len + res)
  else do
    let res ← ftPutnum numsDecimal n.toNat
    pure (len + res)

/-- `ft_print_o`. -/
def ftPrintO (len n : BitVec 32) : Logged UInt8 (BitVec 32) := putUnsigned numsOctal len n

/-- `ft_print_u`. -/
def ftPrintU (len n : BitVec 32) : Logged UInt8 (BitVec 32) := putUnsigned numsDecimal len n

/-- `ft_print_x`. -/
def ftPrintx (len n : BitVec 32) : Logged UInt8 (BitVec 32) := putUnsigned numsHexs len n

/-- `ft_print_X`. -/
def ftPrintX (len n : BitVec 32) : Logged UInt8 (BitVec 32) := putUnsigned numsHexl len n

/-- `ft_print_s`. -/
def ftPrintS (args : Args) (len n : BitVec 32) : Logged UInt8 (BitVec 32) :=
  let s := if n = 0 then nullString else args.memory n
  putString s len

/-- The functions in `ft_print_dispatch`. -/
inductive Handler where
  | c
  | d
  | o
  | u
  | x
  | X
  | s
deriving DecidableEq

/-- `ft_print_dispatch`; `none` is a null pointer. -/
def ftPrintDispatch (c : UInt8) : Option Handler :=
  if c = 99 then some .c
  else if c = 100 ∨ c = 105 then some .d
  else if c = 111 then some .o
  else if c = 117 then some .u
  else if c = 120 then some .x
  else if c = 88 then some .X
  else if c = 115 then some .s
  else none

/-- The handler without the rest of the format. -/
def Handler.put (args : Args) (len n : BitVec 32) : Handler → Logged UInt8 (BitVec 32)
  | c => ftPrintC len n
  | d => ftPrintD len n
  | o => ftPrintO len n
  | u => ftPrintU len n
  | x => ftPrintx len n
  | X => ftPrintX len n
  | s => ftPrintS args len n

mutual

/-- A handler of the dispatch table: it takes the argument at `ap`, and goes on behind it. -/
def Handler.call (args : Args) (h : Handler) (fmt : List UInt8) (ap : ℕ) (len : BitVec 32) :
    Logged UInt8 (BitVec 32) := do
  let len ← h.put args len (args.stack ap)
  ftPrintfAux args fmt (ap + 1) len
termination_by 2 * fmt.length + 1

/-- `ft_printf_aux`. -/
def ftPrintfAux (args : Args) (fmt : List UInt8) (ap : ℕ) (len : BitVec 32) :
    Logged UInt8 (BitVec 32) :=
  match fmt with
  | [] => pure len
  | c :: fmt =>
      if c = 0 then pure len
      else if c ≠ 37 then do
        ftPutchar c
        ftPrintfAux args fmt ap (len + 1)
      else
        match fmt with
        | [] => pure len
        | c :: fmt =>
            match ftPrintDispatch c with
            | none =>
                if c = 0 then pure len
                else do
                  ftPutchar c
                  ftPrintfAux args fmt ap (len + 1)
            | some h => h.call args fmt ap len
termination_by 2 * fmt.length

end

/-- `printf`. -/
def printf (args : Args) (fmt : List UInt8) : Logged UInt8 (BitVec 32) := ftPrintfAux args fmt 0 0

/-! ### What a format stands for -/

/-- The conversions. -/
inductive Conversion where
  | char
  | signed
  | octal
  | unsigned
  | hexLower
  | hexUpper
  | string
deriving DecidableEq

/-- A directive of a format: a character that stands for itself, or a conversion. -/
inductive Directive where
  | plain (c : UInt8)
  | conv (k : Conversion)
deriving DecidableEq

/-- The conversion of a letter: `c`, `d` or `i`, `o`, `u`, `x`, `X`, `s`. -/
def conversion : UInt8 → Option Conversion
  | 99 => some .char
  | 100 => some .signed
  | 105 => some .signed
  | 111 => some .octal
  | 117 => some .unsigned
  | 120 => some .hexLower
  | 88 => some .hexUpper
  | 115 => some .string
  | _ => none

/-- The directives of a format; a `%` at its end stands for nothing. -/
def directives : List UInt8 → List Directive
  | [] => []
  | [c] => if c = 37 then [] else [.plain c]
  | c :: d :: s =>
      if c = 37 then
        match conversion d with
        | none => .plain d :: directives s
        | some k => .conv k :: directives s
      else .plain c :: directives (d :: s)

/-- The character of a digit; `letter` is the one for ten. -/
def digitChar (letter : UInt8) (d : ℕ) : UInt8 :=
  if d < 10 then 48 + UInt8.ofNat d else letter + UInt8.ofNat (d - 10)

/-- A number in base `b`, without leading zeros. -/
def numeral (b : ℕ) (letter : UInt8) (n : ℕ) : List UInt8 :=
  if n = 0 then [48] else (Nat.digits b n).reverse.map (digitChar letter)

/-- A decimal number with its sign. -/
def decimal (z : ℤ) : List UInt8 :=
  if z < 0 then 45 :: numeral 10 97 z.natAbs else numeral 10 97 z.natAbs

/-- What a conversion makes of its argument. -/
def Conversion.render (memory : BitVec 32 → List UInt8) (n : BitVec 32) : Conversion → List UInt8
  | char => [UInt8.ofNat n.toNat]
  | signed => decimal n.toInt
  | octal => numeral 8 97 n.toNat
  | unsigned => numeral 10 97 n.toNat
  | hexLower => numeral 16 97 n.toNat
  | hexUpper => numeral 16 65 n.toNat
  | string => if n = 0 then nullString else cstr (memory n)

/-- The number of arguments that the directives take. -/
def arity : List Directive → ℕ
  | [] => 0
  | .plain _ :: ds => arity ds
  | .conv _ :: ds => arity ds + 1

/-- The text of the directives, from left to right; every conversion takes one argument.  There
is none when the arguments do not match the conversions. -/
def expand (memory : BitVec 32 → List UInt8) :
    List Directive → List (BitVec 32) → Option (List UInt8)
  | [], [] => some []
  | [], _ :: _ => none
  | .plain c :: ds, as => (expand memory ds as).map (c :: ·)
  | .conv _ :: _, [] => none
  | .conv k :: ds, a :: as => (expand memory ds as).map (k.render memory a ++ ·)

/-! ### Sending -/

/-- The program sends `text` and returns `len` and the number of these characters. -/
structure Sends (len : BitVec 32) (text : List UInt8) (x : Logged UInt8 (BitVec 32)) : Prop where
  log_eq : x.log = text
  val_eq : x.val = len + BitVec.ofNat 32 text.length

theorem sends_pure (len : BitVec 32) : Sends len [] (pure len) := ⟨rfl, by simp⟩

theorem sends_putchar {len : BitVec 32} {c : UInt8} {text : List UInt8}
    {f : Unit → Logged UInt8 (BitVec 32)} (h : Sends (len + 1) text (f ())) :
    Sends len (c :: text) (ftPutchar c >>= f) := by
  refine ⟨?_, ?_⟩
  · rw [ftPutchar, bind_log, access_log, List.singleton_append]
    exact congrArg _ h.log_eq
  · rw [bind_val, h.val_eq, List.length_cons, BitVec.add_assoc, Nat.add_comm, BitVec.ofNat_add]
    rfl

theorem sends_bind {len : BitVec 32} {text text' : List UInt8} {x : Logged UInt8 (BitVec 32)}
    {f : BitVec 32 → Logged UInt8 (BitVec 32)} (hx : Sends len text x)
    (hf : Sends (len + BitVec.ofNat 32 text.length) text' (f (len + BitVec.ofNat 32 text.length))) :
    Sends len (text ++ text') (x >>= f) := by
  refine ⟨?_, ?_⟩
  · rw [bind_log, hx.log_eq, hx.val_eq, hf.log_eq]
  · rw [bind_val, hx.val_eq, hf.val_eq, List.length_append, BitVec.add_assoc, BitVec.ofNat_add]

theorem putString_sends (s : List UInt8) (len : BitVec 32) :
    Sends len (cstr s) (putString s len) := by
  induction s generalizing len with
  | nil => exact sends_pure len
  | cons c s ih =>
      rw [putString]
      by_cases hc : c = 0
      · rw [if_pos hc, hc]
        exact sends_pure len
      · have hcons : cstr (c :: s) = c :: cstr s := by simp [cstr, hc]
        rw [if_neg hc, hcons]
        exact sends_putchar (ih (len + 1))

/-! ### Numbers -/

/-- The table of the base holds the characters of its digits. -/
def Numerals.Spells (nums : Numerals) (letter : UInt8) : Prop :=
  ∀ d < nums.base, byteAt nums.digits d = digitChar letter d

theorem numsDecimal_spells : numsDecimal.Spells 97 := by unfold Numerals.Spells; decide

theorem numsOctal_spells : numsOctal.Spells 97 := by unfold Numerals.Spells; decide

theorem numsHexs_spells : numsHexs.Spells 97 := by unfold Numerals.Spells; decide

theorem numsHexl_spells : numsHexl.Spells 65 := by unfold Numerals.Spells; decide

/-- A number with one digit. -/
theorem numeral_of_lt {b n : ℕ} (letter : UInt8) (h : n < b) :
    numeral b letter n = [digitChar letter n] := by
  rw [numeral]
  split
  case isTrue hn => rw [hn]; rfl
  case isFalse hn => rw [Nat.digits_of_lt b n hn h, List.reverse_singleton, List.map_singleton]

/-- The last digit of a number with more than one. -/
theorem numeral_of_le {b n : ℕ} (letter : UInt8) (hb : 2 ≤ b) (h : b ≤ n) :
    numeral b letter n = numeral b letter (n / b) ++ [digitChar letter (n % b)] := by
  have hdiv : n / b ≠ 0 := (Nat.div_pos h (by omega)).ne'
  rw [numeral, numeral, if_neg (by omega), if_neg hdiv, Nat.digits_def' (by omega) (by omega),
    List.reverse_cons, List.map_append, List.map_singleton]

/-- `ft_putnum` sends the numeral. -/
theorem ftPutnum_sends {nums : Numerals} {letter : UInt8} (hs : nums.Spells letter) (n : ℕ) :
    Sends 0#32 (numeral nums.base letter n) (ftPutnum nums n) := by
  have hb := nums.two_le
  induction n using ftPutnum.induct nums with
  | case1 n h ih =>
      have hchar := hs (n % nums.base) (Nat.mod_lt _ (by omega))
      rw [ftPutnum, dif_pos h, hchar, numeral_of_le letter hb h]
      refine ⟨?_, ?_⟩
      · simp only [bind_log, ih.log_eq, ftPutchar, access_log, pure_log, List.append_nil]
      · simp only [bind_val, pure_val, ih.val_eq, List.length_append, List.length_singleton,
          BitVec.ofNat_add, BitVec.zero_add]
        exact BitVec.add_comm _ _
  | case2 n h =>
      have hn : n < nums.base := not_le.mp h
      have hchar := hs n hn
      rw [ftPutnum, dif_neg h, Nat.mod_eq_of_lt hn, hchar, numeral_of_lt letter hn]
      exact ⟨rfl, by simp [ftPutchar]⟩

theorem putUnsigned_sends {nums : Numerals} {letter : UInt8} (hs : nums.Spells letter)
    (len n : BitVec 32) :
    Sends len (numeral nums.base letter n.toNat) (putUnsigned nums len n) := by
  have h := ftPutnum_sends hs n.toNat
  refine ⟨?_, ?_⟩
  · rw [putUnsigned, bind_log, pure_log, List.append_nil, h.log_eq]
  · rw [putUnsigned, bind_val, pure_val, h.val_eq, BitVec.zero_add]

/-- The digits that `ft_print_d` sends are those of the absolute value, also for the least
number. -/
theorem toNat_neg_of_neg {n : BitVec 32} (h : n.toInt < 0) : (-n).toNat = n.toInt.natAbs := by
  rw [BitVec.toInt_eq_toNat_cond] at h ⊢
  rw [BitVec.toNat_neg]
  split at h <;> omega

theorem toNat_of_nonneg {n : BitVec 32} (h : ¬ n.toInt < 0) : n.toNat = n.toInt.natAbs := by
  rw [BitVec.toInt_eq_toNat_cond] at h ⊢
  split at h <;> omega

theorem ftPrintD_sends (len n : BitVec 32) : Sends len (decimal n.toInt) (ftPrintD len n) := by
  unfold ftPrintD decimal
  by_cases h : n.toInt < 0
  · rw [if_pos h, if_pos h, ← toNat_neg_of_neg h]
    exact sends_putchar (putUnsigned_sends numsDecimal_spells (len + 1) (-n))
  · rw [if_neg h, if_neg h, ← toNat_of_nonneg h]
    exact putUnsigned_sends numsDecimal_spells len n

theorem ftPrintC_sends (len n : BitVec 32) : Sends len [UInt8.ofNat n.toNat] (ftPrintC len n) :=
  sends_putchar (sends_pure _)

theorem ftPrintS_sends (args : Args) (len n : BitVec 32) :
    Sends len (if n = 0 then nullString else cstr (args.memory n)) (ftPrintS args len n) := by
  have hnull : cstr nullString = nullString := by decide
  have h := putString_sends (if n = 0 then nullString else args.memory n) len
  rw [apply_ite cstr, hnull] at h
  exact h

/-! ### The format -/

/-- The conversion that a handler is for. -/
def Handler.conversion : Handler → Conversion
  | c => .char
  | d => .signed
  | o => .octal
  | u => .unsigned
  | x => .hexLower
  | X => .hexUpper
  | s => .string

/-- A handler sends what its conversion makes of the argument. -/
theorem put_sends (args : Args) (len n : BitVec 32) (h : Handler) :
    Sends len (h.conversion.render args.memory n) (h.put args len n) := by
  cases h with
  | c => exact ftPrintC_sends len n
  | d => exact ftPrintD_sends len n
  | o => exact putUnsigned_sends numsOctal_spells len n
  | u => exact putUnsigned_sends numsDecimal_spells len n
  | x => exact putUnsigned_sends numsHexs_spells len n
  | X => exact putUnsigned_sends numsHexl_spells len n
  | s => exact ftPrintS_sends args len n

/-- The dispatch table has a handler for the letters of the conversions, and for no others. -/
theorem conversion_eq (c : UInt8) : conversion c = (ftPrintDispatch c).map Handler.conversion := by
  unfold conversion ftPrintDispatch
  split
  · rfl
  · rfl
  · rfl
  · rfl
  · rfl
  · rfl
  · rfl
  · rfl
  case h_9 =>
    simp_all

theorem cstr_cons {c : UInt8} (s : List UInt8) (hc : c ≠ 0) : cstr (c :: s) = c :: cstr s := by
  simp [cstr, hc]

theorem directives_plain {c : UInt8} (s : List UInt8) (hc : c ≠ 37) :
    directives (c :: s) = .plain c :: directives s := by
  cases s with
  | nil => simp [directives, hc]
  | cons d s => rw [directives, if_neg hc]

section expand

variable {memory : BitVec 32 → List UInt8} {ds : List Directive} {as : List (BitVec 32)}
  {text : List UInt8}

theorem expand_nil (h : expand memory [] as = some text) : text = [] := by
  cases as with
  | nil => exact (Option.some.inj h).symm
  | cons a as => cases h

theorem expand_plain {c : UInt8} (h : expand memory (.plain c :: ds) as = some text) :
    ∃ rest, text = c :: rest ∧ expand memory ds as = some rest := by
  rw [expand, Option.map_eq_some_iff] at h
  obtain ⟨rest, hrest, rfl⟩ := h
  exact ⟨rest, rfl, hrest⟩

theorem expand_conv {k : Conversion} (h : expand memory (.conv k :: ds) as = some text) :
    ∃ a as' rest, as = a :: as' ∧ text = k.render memory a ++ rest ∧
      expand memory ds as' = some rest := by
  cases as with
  | nil => cases h
  | cons a as =>
      rw [expand, Option.map_eq_some_iff] at h
      obtain ⟨rest, hrest, rfl⟩ := h
      exact ⟨a, as, rest, rfl, rfl, hrest⟩

/-- There is a text when there is an argument for every conversion. -/
theorem expand_some (memory : BitVec 32 → List UInt8) : ∀ (ds : List Directive)
    (as : List (BitVec 32)), as.length = arity ds → ∃ text, expand memory ds as = some text
  | [], [], _ => ⟨[], rfl⟩
  | [], _ :: _, h => by cases h
  | .plain c :: ds, as, h => by
      obtain ⟨text, ht⟩ := expand_some memory ds as h
      exact ⟨c :: text, by rw [expand, ht, Option.map_some]⟩
  | .conv k :: ds, [], h => by cases h
  | .conv k :: ds, a :: as, h => by
      obtain ⟨text, ht⟩ := expand_some memory ds as (by simpa [arity] using h)
      exact ⟨k.render memory a ++ text, by rw [expand, ht, Option.map_some]⟩

end expand

/-- `ft_printf_aux` sends what the rest of the format stands for; the arguments that are left are
on the stack from `ap` on. -/
theorem ftPrintfAux_sends (args : Args) : ∀ (fmt : List UInt8) (ap : ℕ) (len : BitVec 32)
    (as : List (BitVec 32)) (text : List UInt8),
    (∀ i (h : i < as.length), args.stack (ap + i) = as[i]) →
      expand args.memory (directives (cstr fmt)) as = some text →
        Sends len text (ftPrintfAux args fmt ap len)
  | [], ap, len, as, text, _, h => by
      rw [expand_nil h, ftPrintfAux]
      exact sends_pure len
  | c :: fmt, ap, len, as, text, has, h => by
      rw [ftPrintfAux.eq_def]
      simp only
      by_cases hc : c = 0
      · rw [hc] at h ⊢
        rw [if_pos rfl, expand_nil h]
        exact sends_pure len
      rw [if_neg hc]
      rw [cstr_cons fmt hc] at h
      by_cases hpercent : c ≠ 37
      · rw [directives_plain _ hpercent] at h
        obtain ⟨rest, rfl, hrest⟩ := expand_plain h
        rw [if_pos hpercent]
        exact sends_putchar (ftPrintfAux_sends args fmt ap (len + 1) as rest has hrest)
      rw [if_neg hpercent]
      obtain rfl := not_not.mp hpercent
      cases fmt with
      | nil =>
          rw [expand_nil h]
          exact sends_pure len
      | cons c fmt =>
          simp only
          by_cases hc : c = 0
          · rw [hc] at h ⊢
            rw [expand_nil h]
            exact sends_pure len
          rw [cstr_cons fmt hc, directives, if_pos rfl, conversion_eq] at h
          cases hd : ftPrintDispatch c with
          | none =>
              rw [hd] at h
              obtain ⟨rest, rfl, hrest⟩ := expand_plain h
              simp only [hc, if_false]
              exact sends_putchar (ftPrintfAux_sends args fmt ap (len + 1) as rest has hrest)
          | some f =>
              rw [hd] at h
              obtain ⟨a, as', rest, rfl, rfl, hrest⟩ := expand_conv h
              have ha : args.stack ap = a := has 0 (Nat.zero_lt_succ _)
              simp only [Handler.call, ha]
              refine sends_bind (put_sends args len a f) ?_
              refine ftPrintfAux_sends args fmt (ap + 1) _ as' rest (fun i hi => ?_) hrest
              have := has (i + 1) (Nat.succ_lt_succ hi)
              rwa [List.getElem_cons_succ, ← Nat.add_assoc, Nat.add_right_comm] at this

/-- A word is the number as an `int` exactly if the number is less than `2 ^ 31`. -/
theorem toInt_ofNat_eq_iff {n : ℕ} : (BitVec.ofNat 32 n).toInt = n ↔ n < 2147483648 := by
  rw [BitVec.toInt_ofNat', Int.bmod_def]
  split
  · omega
  · omega

/-- `printf` sends the text of the format, and returns the number of its characters as a word.
As an `int`, this is the number as long as it is less than `2 ^ 31`. -/
theorem printf_expands (args : Args) (fmt : List UInt8) (as : List (BitVec 32))
    (hargs : ∀ i (h : i < as.length), args.stack i = as[i])
    (hmatch : as.length = arity (directives (cstr fmt))) :
    ∃ text, expand args.memory (directives (cstr fmt)) as = some text ∧
      (printf args fmt).log = text ∧ (printf args fmt).val = BitVec.ofNat 32 text.length ∧
      ((printf args fmt).val.toInt = text.length ↔ text.length < 2147483648) := by
  obtain ⟨text, htext⟩ := expand_some args.memory _ as hmatch
  have h := ftPrintfAux_sends args fmt 0 0 as text (by simpa using hargs) htext
  have hval : (printf args fmt).val = BitVec.ofNat 32 text.length :=
    h.val_eq.trans (BitVec.zero_add _)
  exact ⟨text, htext, h.log_eq, hval, by rw [hval, toInt_ofNat_eq_iff]⟩

/-- The arguments of `printf ("%s=%d%%", "x", -7)`. -/
def smallArgs : Args := ⟨fun i => if i = 0 then 4096 else -7, fun _ => [120]⟩

/-- The theorem for this call. -/
theorem printf_expands_small :
    ∃ text, expand smallArgs.memory (directives (cstr [37, 115, 61, 37, 100, 37, 37])) [4096, -7] =
        some text ∧ (printf smallArgs [37, 115, 61, 37, 100, 37, 37]).log = text ∧
      (printf smallArgs [37, 115, 61, 37, 100, 37, 37]).val = BitVec.ofNat 32 text.length ∧
      ((printf smallArgs [37, 115, 61, 37, 100, 37, 37]).val.toInt = text.length ↔
        text.length < 2147483648) :=
  printf_expands smallArgs _ [4096, -7] (by decide) (by decide)

/-- The text of that call. -/
example : expand smallArgs.memory (directives (cstr [37, 115, 61, 37, 100, 37, 37])) [4096, -7] =
    some [120, 61, 45, 55, 37] := by decide

/-! ### A number of characters that is no `int` -/

/-- The format `%s%s..` with `k` conversions. -/
def stringFormat (k : ℕ) : List UInt8 := (List.replicate k [37, 115]).flatten

theorem directives_stringFormat (k : ℕ) :
    directives (cstr (stringFormat k)) = List.replicate k (.conv .string) := by
  induction k with
  | zero => rfl
  | succ k ih =>
      have hcstr : cstr (stringFormat (k + 1)) = 37 :: 115 :: cstr (stringFormat k) := by
        rw [stringFormat, List.replicate_succ, List.flatten_cons]
        exact (cstr_cons _ (by decide)).trans (congrArg _ (cstr_cons _ (by decide)))
      rw [hcstr, List.replicate_succ, ← ih]
      rfl

theorem expand_strings (memory : BitVec 32 → List UInt8) (a : BitVec 32) (ha : a ≠ 0) (k : ℕ) :
    ∃ text, expand memory (List.replicate k (.conv .string)) (List.replicate k a) = some text ∧
      text.length = k * (cstr (memory a)).length := by
  induction k with
  | zero => exact ⟨[], rfl, by simp⟩
  | succ k ih =>
      obtain ⟨text, htext, hlen⟩ := ih
      refine ⟨cstr (memory a) ++ text, ?_, ?_⟩
      · rw [List.replicate_succ, List.replicate_succ, expand, htext, Conversion.render, if_neg ha,
          Option.map_some]
      · rw [List.length_append, hlen]
        ring

theorem arity_replicate (k : ℕ) (c : Conversion) : arity (List.replicate k (.conv c)) = k := by
  induction k with
  | zero => rfl
  | succ k ih => rw [List.replicate_succ, arity, ih]

/-- With 2048 strings of `2 ^ 20` characters, the number returned is not the number of the
characters sent. -/
theorem printf_overflows : ∃ (args : Args) (fmt : List UInt8) (as : List (BitVec 32)),
    (∀ i (h : i < as.length), args.stack i = as[i]) ∧
      as.length = arity (directives (cstr fmt)) ∧
      (printf args fmt).val.toInt ≠ (printf args fmt).log.length := by
  -- the numbers are kept as variables, so that no list of this length is ever built
  obtain ⟨k, hk⟩ : ∃ k, k = 2048 := ⟨_, rfl⟩
  obtain ⟨n, hn⟩ : ∃ n, n = 1048576 := ⟨_, rfl⟩
  obtain ⟨s, hs⟩ : ∃ s : List UInt8, s = List.replicate n 97 := ⟨_, rfl⟩
  have hcstr : (cstr s).length = n := by
    have hzero : ∀ c ∈ s, c ≠ 0 := fun c hc => by
      rw [hs] at hc
      rw [List.eq_of_mem_replicate hc]
      decide
    rw [cstr_eq_iff.mpr ⟨hzero, fun _ _ => rfl⟩, hs, List.length_replicate]
  obtain ⟨text, htext, hlen⟩ := expand_strings (fun _ => s) 4096 (by decide) k
  have hstack : ∀ i (h : i < (List.replicate k (4096 : BitVec 32)).length),
      (4096 : BitVec 32) = (List.replicate k 4096)[i] := fun i h => by rw [List.getElem_replicate]
  have h := ftPrintfAux_sends ⟨fun _ => 4096, fun _ => s⟩ (stringFormat k) 0 0
    (List.replicate k 4096) text hstack (by rw [directives_stringFormat]; exact htext)
  have hzero32 : 0 + BitVec.ofNat 32 text.length = BitVec.ofNat 32 text.length :=
    BitVec.zero_add _
  refine ⟨⟨fun _ => 4096, fun _ => s⟩, stringFormat k, List.replicate k 4096, hstack, ?_, ?_⟩
  · rw [directives_stringFormat, arity_replicate, List.length_replicate]
  · rw [printf, h.val_eq, h.log_eq, hzero32, Ne, toInt_ofNat_eq_iff, hlen, hcstr, hk, hn]
    decide

end Owmice.Stdio
