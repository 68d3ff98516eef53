import Owmice.Terminal

/-! # Drawing one cell (`draw` in `screen/terminal.h`)

`draw` moves the cursor to the cell, writes a blank through `term_putchar`, and moves the cursor
back.  `term_putchar` also moves the cursor on, and a blank in the last column of row 28 or
anywhere in row 29 takes it behind the last text row: the text is then scrolled.

* `draw_buffer`: the buffer after `draw`;
* `draw_iff`: the draws that change the one cell only. -/

namespace Owmice.Screen

/-- The terminal, and the position that a change of the cursor will come back to. -/
structure Display where
  term : Terminal
  lastcol : ℕ
  lastrow : ℕ

/-- `vga_entry_color`. -/
def vgaEntryColor (fg bg : UInt8) : UInt8 := fg ||| bg <<< 4

/-- `draw`. -/
def draw (d : Display) (x y : ℕ) (color : ℤ) : Display :=
  let lastcol := d.term.termColumn
  let lastrow := d.term.termRow
  let tcolor := d.term.termColor
  let dcol := vgaEntryColor (UInt8.ofInt color) (UInt8.ofInt color)
  let t := termPutchar { d.term with termRow := y, termColumn := x, termColor := dcol } 32
  { term := { t with termColor := tcolor, termColumn := lastcol, termRow := lastrow }
    lastcol := lastcol
    lastrow := lastrow }

/-- A blank on a background of the colour. -/
def blankOf (color : ℤ) : UInt16 :=
  vgaEntry 32 (vgaEntryColor (UInt8.ofInt color) (UInt8.ofInt color))

/-- From `d` to `d'`, the cell in column `x` of row `y` has become a blank of the colour; the
other cells, the cursor and the colour of the text are as they were. -/
structure DrawsCell (d d' : Display) (x y : ℕ) (color : ℤ) : Prop where
  cell : d'.term.termBuffer (y * vgaWidth + x) = blankOf color
  others : ∀ k, k ≠ y * vgaWidth + x → d'.term.termBuffer k = d.term.termBuffer k
  row : d'.term.termRow = d.term.termRow
  column : d'.term.termColumn = d.term.termColumn
  color : d'.term.termColor = d.term.termColor

/-- The buffer with the blank in its cell. -/
def withBlank (d : Display) (x y : ℕ) (color : ℤ) : ℕ → UInt16 :=
  Function.update d.term.termBuffer (y * vgaWidth + x) (blankOf color)

variable {d : Display} {x y : ℕ} {color : ℤ}

theorem termFollow_buffer {t : Terminal} (k : ℕ) :
    (termFollow t).termBuffer k =
      if 28 < t.termRow ∧ t.scrollTerm = true ∧ 90 ≤ k ∧ k < 2610 then t.termBuffer (k + 90)
      else t.termBuffer k := by
  unfold termFollow vgaHeight
  by_cases hrow : 28 < t.termRow
  · rw [if_pos hrow]
    by_cases hs : t.scrollTerm = true
    · have hscroll := termScroll_apply (t := { t with termRow := t.termRow - 1 }) hs k
      rw [hscroll]
      by_cases hk : 90 ≤ k ∧ k < 2610
      · rw [if_pos hk, if_pos ⟨hrow, hs, hk⟩]
      · rw [if_neg hk, if_neg fun h => hk h.2.2]
    · rw [termScroll, if_neg hs, if_neg fun h => hs h.2.1]
  · rw [if_neg hrow, if_neg fun h => hrow h.1]

/-- The buffer after `draw`: a blank in cell 2609 or behind it scrolls the text. -/
theorem draw_buffer (hx : x < 90) (hy : 1 ≤ y ∧ y < 30) (k : ℕ) :
    (draw d x y color).term.termBuffer k =
      if 2609 ≤ y * 90 + x ∧ d.term.scrollTerm = true ∧ 90 ≤ k ∧ k < 2610 then
        withBlank d x y color (k + 90)
      else withBlank d x y color k := by
  have hput := termPutchar_store
    (t := { d.term with
      termRow := y
      termColumn := x
      termColor := vgaEntryColor (UInt8.ofInt color) (UInt8.ofInt color) })
    (c := 32) (by decide) (by decide) ⟨hy.1, by simp only; omega⟩ (by simp only; omega)
  have hrow : 28 < (if x + 1 = 90 then y + 1 else y) ↔ 2609 ≤ y * 90 + x := by
    split
    · omega
    · omega
  unfold draw
  simp only
  rw [hput, termFollow_buffer]
  simp only [stored, hrow]
  rfl

/-- Scrolling changes nothing on a text whose rows are all alike. -/
theorem scroll_idle_iff {b : ℕ → UInt16} :
    (∀ k, (if 90 ≤ k ∧ k < 2610 then b (k + 90) else b k) = b k) ↔
      ∀ k, 90 ≤ k → k < 2610 → b (k + 90) = b k := by
  constructor
  · intro h k h1 h2
    have hk := h k
    rwa [if_pos ⟨h1, h2⟩] at hk
  · intro h k
    split
    case isTrue hk => exact h k hk.1 hk.2
    case isFalse => rfl

theorem drawsCell_iff_buffer :
    DrawsCell d (draw d x y color) x y color ↔
      ∀ k, (draw d x y color).term.termBuffer k = withBlank d x y color k := by
  constructor
  · intro h k
    unfold withBlank
    by_cases hk : k = y * vgaWidth + x
    · rw [hk, Function.update_self, h.cell]
    · rw [Function.update_of_ne hk, h.others k hk]
  · intro h
    refine ⟨?_, fun k hk => ?_, rfl, rfl, rfl⟩
    · rw [h, withBlank, Function.update_self]
    · rw [h, withBlank, Function.update_of_ne hk]

/-- `draw` changes one cell exactly when it does not scroll, or scrolls a text that does not
change by it. -/
theorem draw_iff (d : Display) (x y : ℕ) (color : ℤ) (hx : x < 90) (hy : 1 ≤ y ∧ y < 30) :
    DrawsCell d (draw d x y color) x y color ↔
      d.term.scrollTerm = false ∨ y * 90 + x < 2609 ∨
        ∀ k, 90 ≤ k → k < 2610 → withBlank d x y color (k + 90) = withBlank d x y color k := by
  rw [drawsCell_iff_buffer]
  simp only [draw_buffer hx hy]
  by_cases hscroll : 2609 ≤ y * 90 + x ∧ d.term.scrollTerm = true
  · obtain ⟨hcell, hs⟩ := hscroll
    simp only [hcell, hs, true_and]
    rw [scroll_idle_iff]
    constructor
    · intro h
      exact .inr (.inr h)
    · rintro (h | h | h)
      · cases h
      · omega
      · exact h
  · constructor
    · intro _
      by_cases hcell : 2609 ≤ y * 90 + x
      · exact .inl (Bool.eq_false_iff.mpr fun hs => hscroll ⟨hcell, hs⟩)
      · exact .inr (.inl (by omega))
    · intro _ k
      rw [if_neg fun h => hscroll ⟨h.1, h.2.1⟩]

/-- A screen with one character of text, in the first column of row 2. -/
def written : Display where
  term := ⟨2, 1, 15, true, 1, 181, fun k => if k = 180 then vgaEntry 97 15 else vgaEntry 32 15⟩
  lastcol := 0
  lastrow := 0

/-- A cell in the middle of the screen. -/
theorem draw_iff_middle : DrawsCell written (draw written 40 12 4) 40 12 4 :=
  (draw_iff written 40 12 4 (by decide) (by decide)).mpr (.inr (.inl (by decide)))

/-- A cell in the last row: the character of row 2 moves to row 1. -/
theorem draw_scrolls : ¬ DrawsCell written (draw written 0 29 4) 0 29 4 := by
  intro h
  have hkept := h.others 90 (by decide)
  rw [draw_buffer (by decide) (by decide), if_pos (by decide)] at hkept
  exact absurd hkept (by decide)

end Owmice.Screen
