import Owmice.CString

/-! # The words of a command (`strtok` of `standard/strings.h`)

`strtok` moves the first word of a string to another buffer and shifts the rest to the front.
The word is copied without a zero byte behind it: `clearchar` has set the other buffer to zero
before, but only up to the first zero byte that was there.

* `cstr_strshl`: what the shift leaves;
* `cstr_token_iff`: when the other buffer ends where the word does;
* `strtok_iff`: the whole call, for one delimiter. -/

namespace Owmice

/-- `memset`. -/
def memset (b : List UInt8) (value : UInt8) (size : ℕ) : List UInt8 :=
  (List.range size).foldl (fun b i => setAt b i value) b

/-- The loop of `strshl` from round `i` on, with `n` rounds to go. -/
def shiftLoop (amt size : ℕ) : ℕ → ℕ → List UInt8 → List UInt8
  | 0, _, str => str
  | n + 1, i, str =>
      if size < i + amt then str
      else shiftLoop amt size n (i + 1) (setAt (setAt str i (byteAt str (i + amt))) (i + amt) 0)

/-- `substr`, with one buffer as source and destination. -/
def substr (str : List UInt8) (position length : ℕ) : List UInt8 :=
  setAt ((List.range length).foldl (fun b i => setAt b i (byteAt b (i + position))) str) length 0

/-- `strshl`. -/
def strshl (str : List UInt8) (amt : ℕ) : List UInt8 :=
  let size := strlen str
  if size ≤ amt then memset str 0 size
  else
    let str := shiftLoop amt size (size - amt) 0 str
    if size - amt < strlen str then substr str 0 (size - amt) else str

/-- The inner loop of `strtok` from byte `i` on: the buffer, and the number of bytes copied. -/
def tokenLoop (c : UInt8) : List UInt8 → ℕ → List UInt8 → List UInt8 × ℕ
  | [], i, dest => (dest, i)
  | d :: src, i, dest =>
      if d ≠ c ∧ d ≠ 0 then tokenLoop c src (i + 1) (setAt dest i d) else (dest, i)

/-- What `strtok` leaves in the two buffers; it returns `dest` if `found`, and `NULL`
otherwise. -/
structure Tokens where
  found : Bool
  dest : List UInt8
  src : List UInt8

/-- The outer loop of `strtok`. -/
def delimLoop : List UInt8 → List UInt8 → List UInt8 → List UInt8 × List UInt8
  | [], dest, src => (dest, src)
  | c :: delim, dest, src =>
      if c = 0 then (dest, src)
      else
        let (dest, i) := tokenLoop c src 0 dest
        delimLoop delim dest (strshl src (i + 1))

/-- `strtok`. -/
def strtok (dest src delim : List UInt8) : Tokens :=
  if byteAt src 0 = 0 then ⟨false, dest, src⟩
  else
    let (dest, src) := delimLoop delim (clearchar dest) src
    ⟨byteAt dest 0 ≠ 0, dest, src⟩

/-! ### The shift -/

/-- The buffer before round `i`: the bytes of the rounds done have moved, and their places hold
zeros. -/
def Shifted (old : List UInt8) (amt i : ℕ) (str : List UInt8) : Prop :=
  ∀ j, byteAt str j =
    if j < i then byteAt old (j + amt) else if amt ≤ j ∧ j < i + amt then 0 else byteAt old j

theorem shiftLoop_shifted (old : List UInt8) {amt : ℕ} (size : ℕ) (hamt : 0 < amt)
    (n i : ℕ) (str : List UInt8) (hn : i + n + amt ≤ size) (h : Shifted old amt i str) :
    Shifted old amt (i + n) (shiftLoop amt size n i str) := by
  induction n generalizing i str with
  | zero => exact h
  | succ n ih =>
      have hsrc : byteAt str (i + amt) = byteAt old (i + amt) := by
        rw [h, if_neg (by omega), if_neg (by omega)]
      rw [shiftLoop, if_neg (by omega), hsrc, ← Nat.add_assoc, Nat.add_right_comm]
      refine ih (i + 1) _ (by omega) fun j => ?_
      rw [byteAt_setAt, byteAt_setAt, h]
      by_cases h1 : j = i + amt
      · rw [if_pos h1, if_neg (by omega), if_pos (by omega)]
      rw [if_neg h1]
      by_cases h2 : j = i
      · rw [if_pos h2, if_pos (by omega), h2]
      rw [if_neg h2]
      by_cases h3 : j < i
      · rw [if_pos h3, if_pos (by omega)]
      have hlt : ¬ j < i + 1 := by omega
      have hmoved : (amt ≤ j ∧ j < i + 1 + amt) ↔ (amt ≤ j ∧ j < i + amt) := by omega
      rw [if_neg h3, if_neg hlt]
      simp only [hmoved]

/-- A copy of bytes onto themselves. -/
theorem byteAt_substr_zero (str : List UInt8) (length j : ℕ) :
    byteAt (substr str 0 length) j = if j = length then 0 else byteAt str j := by
  have hself : ∀ n k, byteAt ((List.range n).foldl (fun b i => setAt b i (byteAt b (i + 0))) str) k =
      byteAt str k := by
    intro n
    induction n with
    | zero => exact fun _ => rfl
    | succ n ih =>
        intro k
        rw [List.range_succ, List.foldl_append, List.foldl_cons, List.foldl_nil, byteAt_setAt,
          Nat.add_zero, ih, ih]
        split
        case isTrue hk => rw [hk]
        case isFalse => rfl
  rw [substr, byteAt_setAt, hself]

/-- `strshl` cuts the first `amt` characters off. -/
theorem cstr_strshl (str : List UInt8) {amt : ℕ} (hamt : 0 < amt) :
    cstr (strshl str amt) = (cstr str).drop amt := by
  have hlen : (cstr str).length = strlen str := rfl
  unfold strshl
  by_cases hall : strlen str ≤ amt
  · rw [if_pos hall, List.drop_of_length_le (hlen.trans_le hall)]
    apply cstr_of_zero
    change byteAt (clearchar str) 0 = 0
    rw [byteAt_clearchar]
    split
    · rfl
    case isFalse h0 =>
      have hz := byteAt_strlen str
      rwa [show strlen str = 0 by omega] at hz
  · rw [if_neg hall]
    have hnz : ∀ k < strlen str - amt, byteAt str (k + amt) ≠ 0 := fun k hk =>
      byteAt_ne_zero str (by omega)
    have hsh : Shifted str amt (strlen str - amt)
        (shiftLoop amt (strlen str) (strlen str - amt) 0 str) := by
      have h := shiftLoop_shifted str (strlen str) hamt (strlen str - amt) 0 str
        (by omega) fun j => by rw [if_neg (by omega), if_neg (by omega)]
      rwa [Nat.zero_add] at h
    -- the string that is left, up to the place of its zero byte
    obtain ⟨out, hout⟩ : ∃ out, out = shiftLoop amt (strlen str) (strlen str - amt) 0 str :=
      ⟨_, rfl⟩
    rw [← hout] at hsh ⊢
    have hfront : ∀ k < strlen str - amt, byteAt out k = byteAt str (k + amt) := fun k hk => by
      rw [hsh, if_pos hk]
    refine cstr_eq_iff.mpr ⟨fun c hc => cstr_ne_zero c (List.mem_of_mem_drop hc), fun k hk => ?_⟩
    rw [List.length_drop, hlen] at hk
    rw [byteAt_drop, byteAt_cstr (by omega), Nat.add_comm amt]
    simp only
    split
    case isTrue h =>
      rw [byteAt_substr_zero]
      split
      case isTrue hk' =>
        rw [hk', Nat.sub_add_cancel (by omega), byteAt_strlen]
      case isFalse hk' => exact hfront k (by omega)
    case isFalse h =>
      have hend : strlen out = strlen str - amt := by
        by_contra hne
        have := byteAt_strlen out
        rw [hfront _ (by omega)] at this
        exact hnz _ (by omega) this
      by_cases hk' : k = strlen str - amt
      · rw [hk', Nat.sub_add_cancel (by omega), byteAt_strlen, ← hend, byteAt_strlen]
      · exact hfront k (by omega)

/-! ### The word -/

/-- The first word of a string: the longest prefix without `c`. -/
def token (c : UInt8) (src : List UInt8) : List UInt8 := (cstr src).takeWhile (· ≠ c)

/-- What follows the first `c` of a string. -/
def afterToken (c : UInt8) (src : List UInt8) : List UInt8 :=
  ((cstr src).dropWhile (· ≠ c)).tail

theorem afterToken_eq (c : UInt8) (src : List UInt8) :
    afterToken c src = (cstr src).drop ((token c src).length + 1) := by
  unfold afterToken token
  rw [← List.drop_one, ← List.drop_drop, drop_length_takeWhile]

theorem token_ne_zero (c : UInt8) (src : List UInt8) : ∀ d ∈ token c src, d ≠ 0 :=
  fun d hd => cstr_ne_zero d ((List.takeWhile_prefix _).subset hd)

/-- The loop copies the first word. -/
theorem tokenLoop_eq (c : UInt8) (src : List UInt8) (i : ℕ) (dest : List UInt8) :
    (tokenLoop c src i dest).2 = i + (token c src).length ∧
      ∀ j, byteAt (tokenLoop c src i dest).1 j =
        if i ≤ j ∧ j < i + (token c src).length then byteAt (token c src) (j - i)
        else byteAt dest j := by
  induction src generalizing i dest with
  | nil =>
      refine ⟨rfl, fun j => ?_⟩
      rw [if_neg]
      · rfl
      · change ¬ (i ≤ j ∧ j < i + 0)
        omega
  | cons d src ih =>
      rw [tokenLoop]
      by_cases hd : d ≠ c ∧ d ≠ 0
      · have htoken : token c (d :: src) = d :: token c src := by
          simp [token, cstr, hd.1, hd.2]
        obtain ⟨ih1, ih2⟩ := ih (i + 1) (setAt dest i d)
        rw [if_pos hd, htoken, List.length_cons]
        refine ⟨by rw [ih1]; omega, fun j => ?_⟩
        rw [ih2, byteAt_setAt]
        by_cases hj : j = i
        · rw [if_neg (by omega), if_pos hj, if_pos (by omega), hj, Nat.sub_self]
          rfl
        · by_cases hin : i + 1 ≤ j ∧ j < i + 1 + (token c src).length
          · rw [if_pos hin, if_pos (by omega), show j - i = j - (i + 1) + 1 by omega,
              byteAt_cons_succ]
          · rw [if_neg hin, if_neg hj, if_neg (by omega)]
      · have htoken : token c (d :: src) = [] := by
          by_cases h0 : d = 0
          · simp [token, cstr, h0]
          · obtain rfl : d = c := by tauto
            simp [token, cstr, h0]
        rw [if_neg hd, htoken]
        refine ⟨rfl, fun j => ?_⟩
        rw [if_neg]
        change ¬ (i ≤ j ∧ j < i + 0)
        omega

/-- The word that has been copied to a buffer. -/
theorem cstr_token_iff (c : UInt8) (src dest : List UInt8) :
    cstr (tokenLoop c src 0 (clearchar dest)).1 = token c src ↔
      (token c src).length ≤ strlen dest ∨ byteAt dest (token c src).length = 0 := by
  obtain ⟨-, hbytes⟩ := tokenLoop_eq c src 0 (clearchar dest)
  rw [cstr_eq_iff]
  -- all depends on the byte behind the word
  have hend : byteAt (tokenLoop c src 0 (clearchar dest)).1 (token c src).length =
      byteAt (clearchar dest) (token c src).length := by
    rw [hbytes, if_neg (by omega)]
  have hzero : byteAt (token c src) (token c src).length = 0 := byteAt_of_le le_rfl
  have hclear : byteAt (clearchar dest) (token c src).length = 0 ↔
      (token c src).length ≤ strlen dest ∨ byteAt dest (token c src).length = 0 := by
    rw [byteAt_clearchar]
    rcases Nat.lt_trichotomy (token c src).length (strlen dest) with hlt | heq | hlt
    · simp [hlt, hlt.le]
    · simp [heq, byteAt_strlen]
    · simp [not_lt.mpr hlt.le, not_le.mpr hlt]
  rw [← hclear, ← hend]
  constructor
  · rintro ⟨-, h⟩
    rw [h _ le_rfl, hzero]
  · intro h
    refine ⟨token_ne_zero c src, fun k hk => ?_⟩
    rcases Nat.lt_or_eq_of_le hk with hlt | rfl
    · rw [hbytes, if_pos (by omega), Nat.sub_zero]
    · rw [h, hzero]

/-- `strtok` for one delimiter: the word and the rest, and whether there is a word. -/
theorem strtok_single {c : UInt8} (hc : c ≠ 0) (dest : List UInt8) {src : List UInt8}
    (hsrc : cstr src ≠ []) : (strtok dest src [c]).dest = (tokenLoop c src 0 (clearchar dest)).1 ∧
      cstr (strtok dest src [c]).src = afterToken c src ∧
      ((strtok dest src [c]).found = false ↔ token c src = []) := by
  have h0 : byteAt src 0 ≠ 0 := fun h => hsrc (cstr_of_zero h)
  obtain ⟨hlen, hbytes⟩ := tokenLoop_eq c src 0 (clearchar dest)
  rw [Nat.zero_add] at hlen
  simp only [strtok, h0, if_false, delimLoop, hc]
  refine ⟨trivial, ?_, ?_⟩
  · rw [hlen, cstr_strshl src (Nat.succ_pos _), afterToken_eq]
  · simp only [ne_eq, decide_not, Bool.not_eq_false', decide_eq_true_eq]
    rw [hbytes]
    by_cases htoken : token c src = []
    · simp only [htoken, List.length_nil, Nat.lt_irrefl, and_false, if_false, iff_true]
      rw [byteAt_clearchar]
      split
      · rfl
      case isFalse h =>
        have := byteAt_strlen dest
        rwa [show strlen dest = 0 by omega] at this
    · have hpos : 0 < (token c src).length := List.length_pos_iff.mpr htoken
      simp only [htoken, iff_false]
      rw [if_pos (by omega), Nat.sub_zero]
      obtain ⟨d, rest, hd⟩ := List.exists_cons_of_ne_nil htoken
      have := token_ne_zero c src d (by simp [hd])
      rwa [hd]

/-- With one delimiter, `strtok` splits a string into its first word and the rest, and finds a
word if there is one, exactly if the other buffer has been cleared as far as the word reaches, or
had a zero byte behind it. -/
theorem strtok_iff {c : UInt8} (hc : c ≠ 0) (dest : List UInt8) {src : List UInt8}
    (hsrc : cstr src ≠ []) :
    (cstr (strtok dest src [c]).dest = token c src ∧
      cstr (strtok dest src [c]).src = afterToken c src ∧
      ((strtok dest src [c]).found = false ↔ token c src = [])) ↔
        ((token c src).length ≤ strlen dest ∨ byteAt dest (token c src).length = 0) := by
  obtain ⟨h1, h2, h3⟩ := strtok_single hc dest hsrc
  rw [h1, ← cstr_token_iff]
  exact ⟨fun h => h.1, fun h => ⟨h, h2, h3⟩⟩

/-- The theorem for the command `a b` and a buffer that holds a string of two bytes. -/
theorem strtok_iff_two :
    (cstr (strtok [120, 121, 0, 0] [97, 32, 98] [32]).dest = token 32 [97, 32, 98] ∧
      cstr (strtok [120, 121, 0, 0] [97, 32, 98] [32]).src = afterToken 32 [97, 32, 98] ∧
      ((strtok [120, 121, 0, 0] [97, 32, 98] [32]).found = false ↔ token 32 [97, 32, 98] = [])) ↔
        ((token 32 [97, 32, 98]).length ≤ strlen [120, 121, 0, 0] ∨
          byteAt [120, 121, 0, 0] (token 32 [97, 32, 98]).length = 0) :=
  strtok_iff (by decide) [120, 121, 0, 0] (by decide)

/-- In a buffer that starts with a zero byte, old bytes follow the word. -/
theorem strtok_stale : cstr (strtok [0, 120, 0, 0] [97, 32, 98] [32]).dest = [97, 120] ∧
    token 32 [97, 32, 98] = [97] := by decide

end Owmice
