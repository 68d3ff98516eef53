import Owmice.Memory

/-! # The text terminal (`screen/terminal.h`)

A screen of 30 rows of 90 cells in `term_buffer`: row 0 is the status bar, rows 1 to 28 hold
text, and row 29 stays blank and feeds the scrolling.  Positions are of type `size_t`, which
has 32 bits; a new line stores `-1` in the column, which the increment behind it makes 0.

* `termScroll_apply`, `termCls_apply`: what the loops of `term_scroll` and `term_cls` do to
  every cell;
* `termPutchar_store`, `termPutchar_newline`, `termPutchar_backspace`: what `term_putchar` does
  with a character, a new line and a backspace. -/

namespace Owmice.Screen

/-- `VGA_WIDTH`. -/
def vgaWidth : ℕ := 90
/-- `VGA_HEIGHT`. -/
def vgaHeight : ℕ := 29
/-- `SCREEN_START`. -/
def screenStart : ℕ := 1

/-- The variables of the terminal; `cursor` is the position in the registers of the VGA. -/
structure Terminal where
  termRow : ℕ
  termColumn : ℕ
  termColor : UInt8
  scrollTerm : Bool
  pmtlen : ℕ
  cursor : ℕ
  termBuffer : ℕ → UInt16

/-- `vga_entry`. -/
def vgaEntry (uc color : UInt8) : UInt16 := uc.toUInt16 ||| color.toUInt16 <<< 8

/-- `term_movecur`. -/
def termMovecur (t : Terminal) (x y : ℕ) : Terminal :=
  { t with cursor := (y * vgaWidth + x) % 65536 }

/-- The inner loop of `term_cls`. -/
def clsRow (color : UInt8) (b : ℕ → UInt16) (y : ℕ) : ℕ → UInt16 :=
  (List.range vgaWidth).foldl (fun b x => Function.update b (y * vgaWidth + x) (vgaEntry 32 color)) b

/-- `term_cls`. -/
def termCls (t : Terminal) : Terminal :=
  { t with
    termRow := screenStart
    termColumn := 0
    termBuffer := (List.range' screenStart vgaHeight).foldl (clsRow t.termColor) t.termBuffer }

/-- The inner loop of `term_scroll`: a row becomes a copy of the row below. -/
def copyRow (b : ℕ → UInt16) (ii : ℕ) : ℕ → UInt16 :=
  (List.range vgaWidth).foldl
    (fun b i => Function.update b (ii * vgaWidth + i) (b ((ii + 1) * vgaWidth + i))) b

/-- `term_scroll`. -/
def termScroll (t : Terminal) : Terminal :=
  if t.scrollTerm then
    { t with
      termBuffer := (List.range' screenStart (vgaHeight - screenStart)).foldl copyRow t.termBuffer }
  else t

/-- `term_putentryat`. -/
def termPutentryat (t : Terminal) (c color : UInt8) (x y : ℕ) : Terminal :=
  if c = 10 then
    { t with termRow := w32 (t.termRow + 1), termColumn := sub32 0 1 }
  else if c = 8 ∧ t.termColumn ≤ t.pmtlen then t
  else
    let (t, x, c) :=
      if c = 8 then ({ t with termColumn := sub32 t.termColumn 2 }, sub32 x 1, 0) else (t, x, c)
    let index := w32 (y * vgaWidth + x)
    let t := { t with termBuffer := Function.update t.termBuffer index (vgaEntry c color) }
    let x := if c = 0 then sub32 x 1 else x
    if y ≠ 0 then termMovecur t (w32 (x + 1)) y else t

/-- `term_putchar` behind the call of `term_putentryat`: the increment of the column and the
wrap to the next row. -/
def termAdvance (t : Terminal) : Terminal :=
  let t := { t with termColumn := w32 (t.termColumn + 1) }
  if t.termColumn = vgaWidth then { t with termColumn := 0, termRow := w32 (t.termRow + 1) } else t

/-- The end of `term_putchar`: behind the last text row, the text moves up. -/
def termFollow (t : Terminal) : Terminal :=
  if vgaHeight - 1 < t.termRow then termScroll { t with termRow := t.termRow - 1 } else t

/-- `term_putchar`. -/
def termPutchar (t : Terminal) (c : UInt8) : Terminal :=
  termFollow (termAdvance (termPutentryat t c t.termColor t.termColumn t.termRow))

/-- `term_write`. -/
def termWrite (t : Terminal) (data : List UInt8) : Terminal := data.foldl termPutchar t

/-- `prompt`, with the string `pmt`. -/
def prompt (t : Terminal) (pmt : List UInt8) : Terminal :=
  let t := if t.termRow ≠ screenStart then termWrite t [10] else t
  termWrite t pmt

/-! ### The loops -/

/-- A loop over the first `n` cells of row `y` that stores `g x` in cell `x`, where `g` may
read cells outside the row. -/
theorem foldl_row (g : (ℕ → UInt16) → ℕ → UInt16) (y : ℕ) (b : ℕ → UInt16)
    (hg : ∀ b' x, (∀ k, ¬ (y * 90 ≤ k ∧ k < y * 90 + 90) → b' k = b k) → g b' x = g b x)
    (n : ℕ) (hn : n ≤ 90) (k : ℕ) :
    (List.range n).foldl (fun b x => Function.update b (y * 90 + x) (g b x)) b k =
      if y * 90 ≤ k ∧ k < y * 90 + n then g b (k - y * 90) else b k := by
  induction n generalizing k with
  | zero =>
      rw [if_neg (by omega)]
      rfl
  | succ n ih =>
      specialize ih (by omega)
      rw [List.range_succ, List.foldl_append, List.foldl_cons, List.foldl_nil]
      have hsame := hg _ n fun k hk => (ih k).trans (if_neg (by omega))
      by_cases hk : k = y * 90 + n
      · rw [hk, Function.update_self, hsame, if_pos (by omega)]
        congr 1
        omega
      · rw [Function.update_of_ne hk, ih]
        by_cases hin : y * 90 ≤ k ∧ k < y * 90 + n
        · rw [if_pos hin, if_pos (by omega)]
        · rw [if_neg hin, if_neg (by omega)]

theorem clsRow_apply (color : UInt8) (b : ℕ → UInt16) (y k : ℕ) :
    clsRow color b y k = if y * 90 ≤ k ∧ k < y * 90 + 90 then vgaEntry 32 color else b k :=
  foldl_row (fun _ _ => vgaEntry 32 color) y b (fun _ _ _ => rfl) 90 le_rfl k

theorem copyRow_apply (b : ℕ → UInt16) (y k : ℕ) :
    copyRow b y k = if y * 90 ≤ k ∧ k < y * 90 + 90 then b (k + 90) else b k := by
  have h := foldl_row (fun b x => b ((y + 1) * 90 + x)) y b (fun b' x h => h _ (by omega)) 90
    le_rfl k
  rw [copyRow, vgaWidth, h]
  split
  · congr 1
    omega
  · rfl

/-- Rows `a` to `a + n - 1` are cleared. -/
theorem foldl_clsRow (color : UInt8) (a n : ℕ) (b : ℕ → UInt16) (k : ℕ) :
    (List.range' a n).foldl (clsRow color) b k =
      if a * 90 ≤ k ∧ k < (a + n) * 90 then vgaEntry 32 color else b k := by
  induction n with
  | zero =>
      rw [if_neg (by omega)]
      rfl
  | succ n ih =>
      rw [List.range'_1_concat, List.foldl_append, List.foldl_cons, List.foldl_nil, clsRow_apply,
        ih]
      by_cases h2 : (a + n) * 90 ≤ k ∧ k < (a + n) * 90 + 90
      · rw [if_pos h2, if_pos (by omega)]
      · rw [if_neg h2]
        by_cases h1 : a * 90 ≤ k ∧ k < (a + n) * 90
        · rw [if_pos h1, if_pos (by omega)]
        · rw [if_neg h1, if_neg (by omega)]

/-- Rows `a` to `a + n - 1` become copies of the rows below them: the copies run upwards, so
each reads a row that is still as it was. -/
theorem foldl_copyRow (a n : ℕ) (b : ℕ → UInt16) (k : ℕ) :
    (List.range' a n).foldl copyRow b k =
      if a * 90 ≤ k ∧ k < (a + n) * 90 then b (k + 90) else b k := by
  induction n generalizing k with
  | zero =>
      rw [if_neg (by omega)]
      rfl
  | succ n ih =>
      rw [List.range'_1_concat, List.foldl_append, List.foldl_cons, List.foldl_nil, copyRow_apply]
      by_cases h2 : (a + n) * 90 ≤ k ∧ k < (a + n) * 90 + 90
      · rw [if_pos h2, ih, if_neg (by omega), if_pos (by omega)]
      · rw [if_neg h2, ih]
        by_cases h1 : a * 90 ≤ k ∧ k < (a + n) * 90
        · rw [if_pos h1, if_pos (by omega)]
        · rw [if_neg h1, if_neg (by omega)]

/-- `term_cls` clears rows 1 to 29. -/
theorem termCls_apply (t : Terminal) (k : ℕ) :
    (termCls t).termBuffer k =
      if 90 ≤ k ∧ k < 2700 then vgaEntry 32 t.termColor else t.termBuffer k := by
  have hrows := foldl_clsRow t.termColor 1 29 t.termBuffer k
  simpa only [termCls, screenStart, vgaHeight, Nat.reduceAdd, Nat.reduceMul, Nat.one_mul]
    using hrows

/-- `term_scroll` moves rows 2 to 29 one row up. -/
theorem termScroll_apply {t : Terminal} (h : t.scrollTerm = true) (k : ℕ) :
    (termScroll t).termBuffer k =
      if 90 ≤ k ∧ k < 2610 then t.termBuffer (k + 90) else t.termBuffer k := by
  have hrows := foldl_copyRow 1 28 t.termBuffer k
  simpa only [termScroll, h, if_true, screenStart, vgaHeight, Nat.reduceSub, Nat.reduceAdd,
    Nat.reduceMul, Nat.one_mul] using hrows

/-! ### `term_putchar` -/

section Putchar

variable {t : Terminal}

/-- The terminal with a character in the cell of the cursor, and the cursor behind it. -/
def stored (t : Terminal) (c : UInt8) : Terminal :=
  { t with
    termRow := if t.termColumn + 1 = 90 then t.termRow + 1 else t.termRow
    termColumn := if t.termColumn + 1 = 90 then 0 else t.termColumn + 1
    cursor := t.termRow * 90 + if c = 0 then t.termColumn else t.termColumn + 1
    termBuffer := Function.update t.termBuffer (t.termRow * 90 + t.termColumn)
      (vgaEntry c t.termColor) }

/-- The terminal with the cursor on the cell before it, which is blank. -/
def erased (t : Terminal) : Terminal :=
  { t with
    termColumn := t.termColumn - 1
    cursor := t.termRow * 90 + (t.termColumn - 1)
    termBuffer := Function.update t.termBuffer (t.termRow * 90 + (t.termColumn - 1))
      (vgaEntry 0 t.termColor) }

theorem termAdvance_store {c : UInt8} (h10 : c ≠ 10) (h8 : c ≠ 8)
    (hrow : 1 ≤ t.termRow ∧ t.termRow ≤ 29) (hcol : t.termColumn ≤ 89) :
    termAdvance (termPutentryat t c t.termColor t.termColumn t.termRow) = stored t c := by
  have hy : t.termRow ≠ 0 := by omega
  have hidx : w32 (t.termRow * 90 + t.termColumn) = t.termRow * 90 + t.termColumn :=
    w32_of_lt (by omega)
  have hnext : w32 (t.termColumn + 1) = t.termColumn + 1 := w32_of_lt (by omega)
  have hrow' : w32 (t.termRow + 1) = t.termRow + 1 := w32_of_lt (by omega)
  have hcursor : (t.termRow * 90 + w32 ((if c = 0 then sub32 t.termColumn 1 else t.termColumn) + 1))
      % 65536 = t.termRow * 90 + if c = 0 then t.termColumn else t.termColumn + 1 := by
    split
    · simp only [w32, sub32]
      omega
    · rw [hnext]
      omega
  simp only [termAdvance, termPutentryat, stored, h10, h8, hy, if_false, if_true, false_and,
    ne_eq, not_false_eq_true, vgaWidth, hidx, hnext, hrow', hcursor, termMovecur]
  by_cases hw : t.termColumn + 1 = 90
  · simp only [hw, if_true]
  · simp only [hw, if_false]

/-- A backspace behind the prompt's columns. -/
theorem termAdvance_backspace (hrow : 1 ≤ t.termRow ∧ t.termRow ≤ 28) (hcol : t.termColumn ≤ 89)
    (hpmt : t.pmtlen < t.termColumn) :
    termAdvance (termPutentryat t 8 t.termColor t.termColumn t.termRow) = erased t := by
  have h8 : ¬ (8 : UInt8) = 10 := by decide
  have hy : t.termRow ≠ 0 := by omega
  have hguard : ¬ t.termColumn ≤ t.pmtlen := by omega
  have hback : sub32 t.termColumn 1 = t.termColumn - 1 := sub32_of_le (by omega) (by omega)
  have hidx : w32 (t.termRow * 90 + (t.termColumn - 1)) = t.termRow * 90 + (t.termColumn - 1) :=
    w32_of_lt (by omega)
  -- the column goes back by two and, like behind every character, forward by one
  have hstep : w32 (sub32 t.termColumn 2 + 1) = t.termColumn - 1 := by
    simp only [w32, sub32]
    omega
  have hcursor : w32 (sub32 (t.termColumn - 1) 1 + 1) = t.termColumn - 1 := by
    simp only [w32, sub32]
    omega
  have hpos : (t.termRow * 90 + (t.termColumn - 1)) % 65536 =
      t.termRow * 90 + (t.termColumn - 1) := by omega
  have hwrap : ¬ t.termColumn - 1 = 90 := by omega
  simp only [termAdvance, termPutentryat, erased, h8, hguard, hy, if_false, if_true, and_false,
    ne_eq, not_false_eq_true, vgaWidth, hback, hidx, hstep, hcursor, hpos, hwrap, termMovecur]

theorem termFollow_of_le (hrow : t.termRow ≤ 28) : termFollow t = t := by
  rw [termFollow, vgaHeight, if_neg (by omega)]

/-- A character other than a new line and a backspace. -/
theorem termPutchar_store {c : UInt8} (h10 : c ≠ 10) (h8 : c ≠ 8)
    (hrow : 1 ≤ t.termRow ∧ t.termRow ≤ 29) (hcol : t.termColumn ≤ 89) :
    termPutchar t c = termFollow (stored t c) := by
  rw [termPutchar, termAdvance_store h10 h8 hrow hcol]

/-- A new line. -/
theorem termPutchar_newline (hrow : t.termRow ≤ 28) :
    termPutchar t 10 = termFollow { t with termRow := t.termRow + 1, termColumn := 0 } := by
  have hnext : w32 (sub32 0 1 + 1) = 0 := by decide +kernel
  have hrow' : w32 (t.termRow + 1) = t.termRow + 1 := w32_of_lt (by omega)
  simp only [termPutchar, termAdvance, termPutentryat, if_true, hnext, hrow', vgaWidth]
  rfl

theorem termPutchar_backspace (hrow : 1 ≤ t.termRow ∧ t.termRow ≤ 28) (hcol : t.termColumn ≤ 89)
    (hpmt : t.pmtlen < t.termColumn) : termPutchar t 8 = erased t := by
  rw [termPutchar, termAdvance_backspace hrow hcol hpmt]
  exact termFollow_of_le hrow.2

end Putchar

end Owmice.Screen
