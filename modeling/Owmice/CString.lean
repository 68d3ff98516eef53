import Mathlib.Tactic

/-! # C strings (`standard/strings.h`)

A buffer is a list of bytes, and the bytes behind the listed ones are zero.  Its length grows
when a byte behind it is written, and so tells how far the buffer has been written.  A string
ends at the first zero byte.

* `cstr_cut`, `strlen_strcat`: a string after a cut, and its length after an append;
* `cstr_eq_iff`, `cstr_strcpy`: the string in a buffer, byte by byte, and after a copy. -/

namespace Owmice

/-- Byte `i` of the buffer. -/
def byteAt (b : List UInt8) (i : ℕ) : UInt8 := b.getD i 0

/-- The store of a byte. -/
def setAt (b : List UInt8) (i : ℕ) (v : UInt8) : List UInt8 :=
  if i < b.length then b.set i v else b ++ List.replicate (i - b.length) 0 ++ [v]

/-- `strlen`. -/
def strlen (b : List UInt8) : ℕ := (b.takeWhile (· ≠ 0)).length

/-- `clearchar`. -/
def clearchar (b : List UInt8) : List UInt8 :=
  (List.range (strlen b)).foldl (fun b i => setAt b i 0) b

/-- The copying loop of `strcat`. -/
def copyTo (dest : List UInt8) (i : ℕ) : List UInt8 → List UInt8
  | [] => setAt dest i 0
  | c :: src => if c ≠ 0 then copyTo (setAt dest i c) (i + 1) src else setAt dest i 0

/-- `strcat`. -/
def strcat (dest src : List UInt8) : List UInt8 := copyTo dest (strlen dest) src

/-- `strcpy`. -/
def strcpy (dest src : List UInt8) : List UInt8 := copyTo dest 0 src

/-- The string at the beginning of a buffer. -/
def cstr (b : List UInt8) : List UInt8 := b.takeWhile (· ≠ 0)

/-- `cmp`, on strings without their zero bytes. -/
def cmp : List UInt8 → List UInt8 → ℤ
  | [], [] => 0
  | [], d :: _ => -d.toNat
  | c :: _, [] => c.toNat
  | c :: s, d :: t => if c = d then cmp s t else c.toNat - d.toNat

/-- `streq`. -/
def streq (s t : List UInt8) : Bool := cmp s t == 0

/-- The string at address `a` of a memory, at most `n` bytes of it. -/
def cstring (m : ℕ → UInt8) : ℕ → ℕ → List UInt8
  | 0, _ => []
  | n + 1, a => if m a = 0 then [] else m a :: cstring m n (a + 1)

theorem drop_length_takeWhile {α : Type} (p : α → Bool) (l : List α) :
    l.drop (l.takeWhile p).length = l.dropWhile p := by
  induction l with
  | nil => rfl
  | cons a l ih =>
      cases h : p a with
      | true => simp [h, ih]
      | false => simp [h]

theorem byteAt_setAt (b : List UInt8) (i j : ℕ) (v : UInt8) :
    byteAt (setAt b i v) j = if j = i then v else byteAt b j := by
  simp only [byteAt, setAt, List.getD_eq_getElem?_getD]
  by_cases hi : i < b.length
  · rw [if_pos hi, List.getElem?_set]
    by_cases hj : j = i
    · simp [hj, hi]
    · simp [hj, Ne.symm hj]
  · rw [if_neg hi]
    by_cases hj : j = i
    · rw [if_pos hj, List.getElem?_append_right (by simp; omega)]
      simp [hj, show i - (b.length + (i - b.length)) = 0 by omega]
    · rw [if_neg hj]
      by_cases hjb : j < b.length
      · rw [List.getElem?_append_left (by simp; omega), List.getElem?_append_left hjb]
      · rw [List.getElem?_eq_none (l := b) (by omega), Option.getD_none]
        by_cases hji : j < i
        · rw [List.getElem?_append_left (by simp; omega), List.getElem?_append_right (by omega),
            List.getElem?_replicate, if_pos (by omega), Option.getD_some]
        · rw [List.getElem?_eq_none (by simp; omega), Option.getD_none]

theorem byteAt_clearchar (b : List UInt8) (j : ℕ) :
    byteAt (clearchar b) j = if j < strlen b then 0 else byteAt b j := by
  unfold clearchar
  induction strlen b with
  | zero => rw [if_neg (Nat.not_lt_zero j)]; rfl
  | succ n ih =>
      rw [List.range_succ, List.foldl_append, List.foldl_cons, List.foldl_nil, byteAt_setAt, ih]
      by_cases hj : j = n
      · rw [if_pos hj, if_pos (by omega)]
      · rw [if_neg hj]
        by_cases hlt : j < n
        · rw [if_pos hlt, if_pos (by omega)]
        · rw [if_neg hlt, if_neg (by omega)]

theorem length_setAt (b : List UInt8) (i : ℕ) (v : UInt8) :
    (setAt b i v).length = max b.length (i + 1) := by
  unfold setAt
  split
  · rw [List.length_set]
    omega
  · simp only [List.length_append, List.length_replicate, List.length_singleton]
    omega

@[simp] theorem byteAt_cons_succ (c : UInt8) (b : List UInt8) (i : ℕ) :
    byteAt (c :: b) (i + 1) = byteAt b i := rfl

theorem byteAt_strlen (b : List UInt8) : byteAt b (strlen b) = 0 := by
  induction b with
  | nil => rfl
  | cons c b ih =>
      by_cases hc : c = 0
      · simp [strlen, hc, byteAt]
      · have hlen : strlen (c :: b) = strlen b + 1 := by simp [strlen, hc]
        rw [hlen, byteAt_cons_succ, ih]

theorem byteAt_ne_zero (b : List UInt8) {i : ℕ} (h : i < strlen b) : byteAt b i ≠ 0 := by
  induction b generalizing i with
  | nil => exact absurd h (Nat.not_lt_zero _)
  | cons c b ih =>
      by_cases hc : c = 0
      · simp [strlen, hc] at h
      · have hlen : strlen (c :: b) = strlen b + 1 := by simp [strlen, hc]
        cases i with
        | zero => exact hc
        | succ i =>
            rw [byteAt_cons_succ]
            exact ih (by omega)

theorem strlen_le_of_zero {b : List UInt8} {n : ℕ} (h : byteAt b n = 0) : strlen b ≤ n := by
  by_contra hlt
  exact byteAt_ne_zero b (not_le.mp hlt) h

theorem strlen_eq {b : List UInt8} {n : ℕ} (h0 : byteAt b n = 0)
    (h : ∀ i < n, byteAt b i ≠ 0) : strlen b = n := by
  refine le_antisymm (strlen_le_of_zero h0) ?_
  by_contra hlt
  exact h _ (not_le.mp hlt) (byteAt_strlen b)

/-- One character more. -/
theorem strcat_single (b : List UInt8) {c : UInt8} (hc : c ≠ 0) :
    strcat b [c] = setAt (setAt b (strlen b) c) (strlen b + 1) 0 := by
  simp only [strcat, copyTo, ne_eq, hc, not_false_eq_true, if_true]

theorem strlen_strcat (b : List UInt8) {c : UInt8} (hc : c ≠ 0) :
    strlen (strcat b [c]) = strlen b + 1 := by
  rw [strcat_single b hc]
  refine strlen_eq ?_ fun i hi => ?_
  · rw [byteAt_setAt, if_pos rfl]
  · rw [byteAt_setAt, if_neg (by omega), byteAt_setAt]
    split
    · exact hc
    · exact byteAt_ne_zero b (by omega)

/-- The string in a buffer has no zero byte, and the buffer agrees with it up to and with the
zero byte behind it. -/
theorem cstr_eq_iff : ∀ {b s : List UInt8}, cstr b = s ↔
    (∀ c ∈ s, c ≠ 0) ∧ ∀ k ≤ s.length, byteAt b k = byteAt s k
  | [], s => by
      cases s with
      | nil => simp [cstr, byteAt]
      | cons c s =>
          simp only [cstr, List.takeWhile_nil, reduceCtorEq, false_iff, not_and]
          intro hs hb
          exact absurd (hb 0 (Nat.zero_le _)).symm (hs c List.mem_cons_self)
  | d :: b, [] => by
      simp [cstr, List.takeWhile_cons, byteAt]
  | d :: b, c :: s => by
      have ih := cstr_eq_iff (b := b) (s := s)
      constructor
      · intro h
        have hd : d ≠ 0 := by
          rintro rfl
          simp [cstr] at h
        have hdb : cstr (d :: b) = d :: cstr b := by simp [cstr, hd]
        rw [hdb, List.cons.injEq] at h
        obtain ⟨rfl, h⟩ := h
        obtain ⟨hs, hb⟩ := ih.mp h
        refine ⟨List.forall_mem_cons.mpr ⟨hd, hs⟩, fun k hk => ?_⟩
        cases k with
        | zero => rfl
        | succ k => exact hb k (by simpa using hk)
      · rintro ⟨hs, hb⟩
        obtain ⟨hc, hs⟩ := List.forall_mem_cons.mp hs
        have hdc : d = c := hb 0 (Nat.zero_le _)
        have hrest : cstr b = s := ih.mpr ⟨hs, fun k hk => hb (k + 1) (by simpa using hk)⟩
        rw [← hrest, hdc]
        simp [cstr, hc]

theorem cstr_ne_zero {b : List UInt8} : ∀ c ∈ cstr b, c ≠ 0 := (cstr_eq_iff.mp rfl).1

theorem byteAt_of_le {b : List UInt8} {k : ℕ} (h : b.length ≤ k) : byteAt b k = 0 := by
  simp [byteAt, List.getElem?_eq_none h]

/-- The bytes of a buffer into which a string has been copied. -/
theorem byteAt_copyTo {src : List UInt8} (hsrc : ∀ c ∈ src, c ≠ 0) (dest : List UInt8) (i j : ℕ) :
    byteAt (copyTo dest i src) j =
      if i ≤ j ∧ j ≤ i + src.length then byteAt src (j - i) else byteAt dest j := by
  induction src generalizing dest i with
  | nil =>
      rw [copyTo, byteAt_setAt]
      by_cases hj : j = i
      · rw [if_pos hj, if_pos (by simp [hj]), byteAt_of_le (Nat.zero_le _)]
      · rw [if_neg hj, if_neg (by simp; omega)]
  | cons c src ih =>
      obtain ⟨hc, hsrc⟩ := List.forall_mem_cons.mp hsrc
      rw [copyTo, if_pos hc, ih hsrc, List.length_cons]
      by_cases hin : i + 1 ≤ j ∧ j ≤ i + 1 + src.length
      · rw [if_pos hin, if_pos (by omega), show j - i = j - (i + 1) + 1 by omega, byteAt_cons_succ]
      · rw [if_neg hin, byteAt_setAt]
        by_cases hj : j = i
        · rw [if_pos hj, if_pos (by omega), hj, Nat.sub_self]
          rfl
        · rw [if_neg hj, if_neg (by omega)]

/-- A buffer holds the string that has been copied to it. -/
theorem cstr_strcpy (dest : List UInt8) {src : List UInt8} (h : ∀ c ∈ src, c ≠ 0) :
    cstr (strcpy dest src) = src := by
  refine cstr_eq_iff.mpr ⟨h, fun k hk => ?_⟩
  rw [strcpy, byteAt_copyTo h, if_pos (by omega), Nat.sub_zero]

/-- Writing the zero byte once more changes nothing. -/
theorem cstr_setAt_length {b s : List UInt8} (h : cstr b = s) : cstr (setAt b s.length 0) = s := by
  obtain ⟨hs, hb⟩ := cstr_eq_iff.mp h
  refine cstr_eq_iff.mpr ⟨hs, fun k hk => ?_⟩
  rw [byteAt_setAt]
  split
  · rw [byteAt_of_le (by omega)]
  · exact hb k hk

theorem byteAt_cstr {b : List UInt8} {k : ℕ} (h : k ≤ strlen b) : byteAt (cstr b) k = byteAt b k :=
  ((cstr_eq_iff.mp rfl).2 k h).symm

theorem byteAt_drop (b : List UInt8) (n k : ℕ) : byteAt (b.drop n) k = byteAt b (n + k) := by
  simp only [byteAt, List.getD_eq_getElem?_getD, List.getElem?_drop]

theorem cstr_drop : ∀ {b : List UInt8} {n : ℕ}, n ≤ strlen b → cstr (b.drop n) = (cstr b).drop n
  | [], n, _ => by simp [cstr]
  | c :: b, 0, _ => rfl
  | c :: b, n + 1, h => by
      have hc : c ≠ 0 := by
        rintro rfl
        simp [strlen] at h
      have hcons : cstr (c :: b) = c :: cstr b := by simp [cstr, hc]
      have hlen : strlen (c :: b) = strlen b + 1 := by simp [strlen, hc]
      rw [List.drop_succ_cons, cstr_drop (by omega), hcons, List.drop_succ_cons]

theorem take_strlen (b : List UInt8) : b.take (strlen b) = cstr b := by
  rw [strlen, cstr]
  exact (List.prefix_iff_eq_take.mp (List.takeWhile_prefix _)).symm

/-- A zero byte cuts a string off. -/
theorem cstr_setAt_zero {b : List UInt8} {n : ℕ} (h : n ≤ strlen b) :
    cstr (setAt b n 0) = (cstr b).take n := by
  have hlen : (cstr b).length = strlen b := rfl
  refine cstr_eq_iff.mpr ⟨fun c hc => cstr_ne_zero c (List.mem_of_mem_take hc), fun k hk => ?_⟩
  rw [List.length_take, hlen, Nat.min_eq_left h] at hk
  rw [byteAt_setAt]
  split
  case isTrue hkn =>
    rw [byteAt_of_le]
    rw [List.length_take, hlen]
    omega
  case isFalse hkn =>
    rw [← byteAt_cstr (by omega), byteAt, byteAt, List.getD_eq_getElem?_getD,
      List.getD_eq_getElem?_getD, List.getElem?_take_of_lt (by omega)]

/-- In the place of the last character, it cuts this one off. -/
theorem cstr_cut (b : List UInt8) : cstr (setAt b (strlen b - 1) 0) = (cstr b).dropLast := by
  rw [cstr_setAt_zero (Nat.sub_le _ _), List.dropLast_eq_take]
  rfl

/-- `strcat` with one character. -/
theorem cstr_strcat (b : List UInt8) {c : UInt8} (hc : c ≠ 0) :
    cstr (strcat b [c]) = cstr b ++ [c] := by
  have hlen : (cstr b).length = strlen b := rfl
  refine cstr_eq_iff.mpr ⟨fun d hd => ?_, fun k hk => ?_⟩
  · rcases List.mem_append.mp hd with hd | hd
    · exact cstr_ne_zero d hd
    · rwa [List.mem_singleton.mp hd]
  · rw [List.length_append, List.length_singleton, hlen] at hk
    rw [strcat_single b hc, byteAt_setAt, byteAt_setAt]
    by_cases h1 : k = strlen b + 1
    · rw [if_pos h1, byteAt_of_le (by simp [hlen, h1])]
    by_cases h2 : k = strlen b
    · rw [if_neg h1, if_pos h2, h2, byteAt, List.getD_eq_getElem?_getD, ← hlen,
        List.getElem?_concat_length, Option.getD_some]
    · rw [if_neg h1, if_neg h2, ← byteAt_cstr (by omega), byteAt, byteAt,
        List.getD_eq_getElem?_getD, List.getD_eq_getElem?_getD,
        List.getElem?_append_left (by omega)]

theorem cstr_congr {b b' : List UInt8} (h : ∀ j, byteAt b' j = byteAt b j) : cstr b' = cstr b := by
  obtain ⟨hs, hb⟩ := cstr_eq_iff.mp (rfl : cstr b = cstr b)
  exact cstr_eq_iff.mpr ⟨hs, fun k hk => (h k).trans (hb k hk)⟩

/-- A zero byte behind the string changes nothing. -/
theorem cstr_setAt_of_le {b : List UInt8} {i : ℕ} (h : strlen b ≤ i) :
    cstr (setAt b i 0) = cstr b := by
  obtain ⟨hs, hb⟩ := cstr_eq_iff.mp (rfl : cstr b = cstr b)
  refine cstr_eq_iff.mpr ⟨hs, fun k hk => ?_⟩
  rw [byteAt_setAt]
  split
  · have hend : (cstr b).length ≤ k := by
      change strlen b ≤ k
      omega
    rw [byteAt_of_le hend]
  · exact hb k hk

theorem cstr_of_zero {b : List UInt8} (h : byteAt b 0 = 0) : cstr b = [] :=
  List.length_eq_zero_iff.mp (Nat.le_zero.mp (strlen_le_of_zero h))

/-- A copy stops at the zero byte. -/
theorem copyTo_cstr (src dest : List UInt8) (i : ℕ) :
    copyTo dest i src = copyTo dest i (cstr src) := by
  induction src generalizing dest i with
  | nil => rfl
  | cons c src ih =>
      by_cases hc : c = 0
      · simp [copyTo, cstr, hc]
      · have hcons : cstr (c :: src) = c :: cstr src := by simp [cstr, hc]
        rw [hcons, copyTo, copyTo, if_pos hc, if_pos hc, ih]

theorem cstr_strcpy_cstr (dest src : List UInt8) : cstr (strcpy dest src) = cstr src := by
  rw [strcpy, copyTo_cstr]
  exact cstr_strcpy dest cstr_ne_zero

/-- Strings are compared byte by byte. -/
theorem cmp_eq_zero_iff : ∀ {s t : List UInt8}, (∀ c ∈ s, c ≠ 0) → (∀ c ∈ t, c ≠ 0) →
    (cmp s t = 0 ↔ s = t)
  | [], [], _, _ => by simp [cmp]
  | [], d :: t, _, ht => by
      have hd : d.toNat ≠ 0 := fun h => ht d List.mem_cons_self (UInt8.toNat_inj.mp h)
      simp only [cmp, reduceCtorEq, iff_false]
      omega
  | c :: s, [], hs, _ => by
      have hc : c.toNat ≠ 0 := fun h => hs c List.mem_cons_self (UInt8.toNat_inj.mp h)
      simp only [cmp, reduceCtorEq, iff_false]
      omega
  | c :: s, d :: t, hs, ht => by
      obtain ⟨_, hs⟩ := List.forall_mem_cons.mp hs
      obtain ⟨_, ht⟩ := List.forall_mem_cons.mp ht
      simp only [cmp, List.cons.injEq]
      by_cases hcd : c = d
      · rw [if_pos hcd, cmp_eq_zero_iff hs ht]
        simp [hcd]
      · have hne : c.toNat ≠ d.toNat := fun h => hcd (UInt8.toNat_inj.mp h)
        rw [if_neg hcd]
        simp only [hcd, false_and, iff_false]
        omega

theorem streq_iff {s t : List UInt8} (hs : ∀ c ∈ s, c ≠ 0) (ht : ∀ c ∈ t, c ≠ 0) :
    streq s t = true ↔ s = t := by
  rw [streq, beq_iff_eq, cmp_eq_zero_iff hs ht]

/-- A string that is in memory with its zero byte is read back. -/
theorem cstring_eq {m : ℕ → UInt8} : ∀ {s : List UInt8} {n a : ℕ}, s.length < n →
    (∀ c ∈ s, c ≠ 0) → (∀ k (h : k < s.length), m (a + k) = s[k]) → m (a + s.length) = 0 →
    cstring m n a = s
  | _, 0, _, hn, _, _, _ => absurd hn (Nat.not_lt_zero _)
  | [], n + 1, a, _, _, _, h0 => by
      rw [List.length_nil, Nat.add_zero] at h0
      rw [cstring, if_pos h0]
  | c :: s, n + 1, a, hn, hs, hm, h0 => by
      obtain ⟨hc, hs⟩ := List.forall_mem_cons.mp hs
      have hhead : m a = c := hm 0 (Nat.zero_lt_succ _)
      rw [cstring, hhead, if_neg hc]
      congr 1
      refine cstring_eq (by simpa using hn) hs (fun k hk => ?_) ?_
      · have := hm (k + 1) (by simpa using hk)
        rwa [List.getElem_cons_succ, ← Nat.add_assoc, Nat.add_right_comm] at this
      · rwa [List.length_cons, ← Nat.add_assoc, Nat.add_right_comm] at h0

/-- So is the string of a field that contains a zero byte. -/
theorem cstring_eq_cstr {m : ℕ → UInt8} : ∀ {l : List UInt8} {n a : ℕ}, l.length ≤ n → 0 ∈ l →
    (∀ k (h : k < l.length), m (a + k) = l[k]) → cstring m n a = cstr l
  | [], _, _, _, h0, _ => absurd h0 (by simp)
  | c :: l, 0, _, hn, _, _ => absurd hn (by simp)
  | c :: l, n + 1, a, hn, h0, hm => by
      have hhead : m a = c := hm 0 (Nat.zero_lt_succ _)
      rw [cstring, hhead]
      by_cases hc : c = 0
      · simp [cstr, hc]
      · have hl : 0 ∈ l := (List.mem_cons.mp h0).resolve_left (Ne.symm hc)
        have ih : cstring m n (a + 1) = cstr l := by
          apply cstring_eq_cstr (by simpa using hn) hl
          intro k hk
          have := hm (k + 1) (by simpa using hk)
          rwa [List.getElem_cons_succ, ← Nat.add_assoc, Nat.add_right_comm] at this
        rw [if_neg hc, ih]
        simp [cstr, hc]

end Owmice
