import Owmice.CardTerminal

/-! # What is on the screen (`screen/terminal.h`)

The terminal on the card is the one with a buffer of its own (`Agrees`, with one lemma for each
function), and so the card shows it.

* `Stores`: a character has a cell of its own in the window of the card.  The cursor of the terminal
  is `OnRow`, or a title of the bar has taken it `LeftOf` the bar;
* `agrees_apply`, `agrees_run`: one step and a run of them;
* `screen_shows`: the dots on the screen from `term_initialize` on, whatever the state of the card
  was. -/

namespace Owmice.Vga

open Screen

/-! ### The functions -/

/-- The terminal on the card is the one with a buffer of its own. -/
structure Agrees (font : ℕ → UInt8) (t : CardTerminal) (d : Display) (on : Bool) : Prop where
  row : t.termRow = d.term.termRow
  column : t.termColumn = d.term.termColumn
  color : t.termColor = d.term.termColor
  scroll : t.scrollTerm = d.term.scrollTerm
  pmtlen : t.pmtlen = d.term.pmtlen
  lastcol : t.lastcol = d.lastcol
  lastrow : t.lastrow = d.lastrow
  held : Holds font t.card d.term.termBuffer d.term.cursor on

/-- A character that `term_putchar` stores has a cell of its own. -/
def Stores (u : Terminal) (c : UInt8) : Prop :=
  c ≠ 10 → ¬ (c = 8 ∧ u.termColumn ≤ u.pmtlen) →
    Distinct (w32 (u.termRow * vgaWidth + if c = 8 then sub32 u.termColumn 1 else u.termColumn))

section Agrees

variable {font : ℕ → UInt8} {t : CardTerminal} {d : Display} {on : Bool}

theorem agrees_moveTo (h : Agrees font t d on) (y x : ℕ) :
    Agrees font { t with termRow := y, termColumn := x }
      { d with term := { d.term with termRow := y, termColumn := x } } on :=
  ⟨rfl, rfl, h.color, h.scroll, h.pmtlen, h.lastcol, h.lastrow, h.held⟩

theorem agrees_column (h : Agrees font t d on) (x : ℕ) :
    Agrees font { t with termColumn := x } { d with term := { d.term with termColumn := x } } on :=
  ⟨h.row, rfl, h.color, h.scroll, h.pmtlen, h.lastcol, h.lastrow, h.held⟩

theorem agrees_setColor (h : Agrees font t d on) (color : UInt8) :
    Agrees font { t with termColor := color } { d with term := { d.term with termColor := color } }
      on :=
  ⟨h.row, h.column, rfl, h.scroll, h.pmtlen, h.lastcol, h.lastrow, h.held⟩

/-- Another state of the card. -/
theorem agrees_card (h : Agrees font t d on) {card : Card} {buffer : ℕ → UInt16} {cursor : ℕ}
    {on' : Bool} (hheld : Holds font card buffer cursor on') :
    Agrees font { t with card := card }
      { d with term := { d.term with termBuffer := buffer, cursor := cursor } } on' :=
  ⟨h.row, h.column, h.color, h.scroll, h.pmtlen, h.lastcol, h.lastrow, hheld⟩

theorem agrees_termCls (h : Agrees font t d on) :
    Agrees font t.termCls { d with term := termCls d.term } on := by
  have hloop : Holds font
      ((List.range' screenStart vgaHeight).foldl (clsRow t.termColor) t.card)
      ((List.range' screenStart vgaHeight).foldl (Screen.clsRow d.term.termColor)
        d.term.termBuffer) d.term.cursor on := by
    rw [h.color]
    refine holds_foldl h.held fun y hy c b h => ?_
    rw [List.mem_range'_1, screenStart, vgaHeight] at hy
    exact holds_clsRow h _ (by omega)
  exact agrees_card (agrees_moveTo h screenStart 0) hloop

theorem agrees_termScroll (h : Agrees font t d on) :
    Agrees font t.termScroll { d with term := termScroll d.term } on := by
  have hloop : Holds font
      ((List.range' screenStart (vgaHeight - screenStart)).foldl copyRow t.card)
      ((List.range' screenStart (vgaHeight - screenStart)).foldl Screen.copyRow
        d.term.termBuffer) d.term.cursor on := by
    refine holds_foldl h.held fun y hy c b h => ?_
    rw [List.mem_range'_1, screenStart, vgaHeight] at hy
    exact holds_copyRow h (by omega)
  unfold CardTerminal.termScroll Screen.termScroll
  rcases em (d.term.scrollTerm = true) with hscroll | hscroll
  · rw [if_pos hscroll, if_pos (h.scroll.trans hscroll)]
    exact agrees_card h hloop
  · rw [if_neg hscroll, if_neg (h.scroll ▸ hscroll)]
    exact h

theorem agrees_termAdvance (h : Agrees font t d on) :
    Agrees font t.termAdvance { d with term := termAdvance d.term } on := by
  unfold CardTerminal.termAdvance Screen.termAdvance
  simp only [h.column, h.row]
  split
  · exact ⟨rfl, rfl, h.color, h.scroll, h.pmtlen, h.lastcol, h.lastrow, h.held⟩
  · exact ⟨rfl, rfl, h.color, h.scroll, h.pmtlen, h.lastcol, h.lastrow, h.held⟩

theorem agrees_termFollow (h : Agrees font t d on) :
    Agrees font t.termFollow { d with term := termFollow d.term } on := by
  unfold CardTerminal.termFollow Screen.termFollow
  rw [h.row]
  split
  · exact agrees_termScroll
      (d := { d with term := { d.term with termRow := d.term.termRow - 1 } })
      ⟨rfl, h.column, h.color, h.scroll, h.pmtlen, h.lastcol, h.lastrow, h.held⟩
  · exact h

/-- The store of a character, and the cursor behind it. -/
theorem agrees_place (h : Agrees font t d on) (c color : UInt8) (x y : ℕ)
    (hcell : Distinct (w32 (y * vgaWidth + x))) :
    let x' := if c = 0 then sub32 x 1 else x
    let card := t.card.store (termBuffer (w32 (y * vgaWidth + x))) (vgaEntry c color)
    let buffer := Function.update d.term.termBuffer (w32 (y * vgaWidth + x)) (vgaEntry c color)
    Agrees font
      (if y ≠ 0 then { t with card := movecur (w32 (x' + 1)) y card } else { t with card := card })
      { d with
        term := if y ≠ 0 then termMovecur { d.term with termBuffer := buffer } (w32 (x' + 1)) y
          else { d.term with termBuffer := buffer } } on := by
  intro x' card buffer
  have hstored : Holds font card buffer d.term.cursor on := h.held.store hcell (vgaEntry c color)
  rcases eq_or_ne y 0 with hy | hy
  · rw [if_neg (not_not.mpr hy), if_neg (not_not.mpr hy)]
    exact agrees_card h hstored
  · rw [if_pos hy, if_pos hy]
    exact agrees_card h (holds_movecur hstored _ _)

theorem agrees_termPutentryat (h : Agrees font t d on) (c color : UInt8) (x y : ℕ)
    (hc : c ≠ 10 → ¬ (c = 8 ∧ d.term.termColumn ≤ d.term.pmtlen) →
      Distinct (w32 (y * vgaWidth + if c = 8 then sub32 x 1 else x))) :
    Agrees font (t.termPutentryat c color x y)
      { d with term := termPutentryat d.term c color x y } on := by
  have hkeeps : (c = 8 ∧ t.termColumn ≤ t.pmtlen) ↔ c = 8 ∧ d.term.termColumn ≤ d.term.pmtlen := by
    rw [h.column, h.pmtlen]
  unfold CardTerminal.termPutentryat Screen.termPutentryat
  rcases eq_or_ne c 10 with h10 | h10
  · rw [if_pos h10, if_pos h10]
    rw [h.row]
    exact agrees_moveTo h (w32 (d.term.termRow + 1)) (sub32 0 1)
  rcases em (c = 8 ∧ d.term.termColumn ≤ d.term.pmtlen) with hkept | hkept
  · rw [if_neg h10, if_neg h10, if_pos hkept, if_pos (hkeeps.mpr hkept)]
    exact h
  have hcell := hc h10 hkept
  rw [if_neg h10, if_neg h10, if_neg hkept, if_neg (mt hkeeps.mp hkept)]
  rcases eq_or_ne c 8 with h8 | h8
  · rw [if_pos h8] at hcell
    have hcolumn : sub32 t.termColumn 2 = sub32 d.term.termColumn 2 := by rw [h.column]
    rw [if_pos h8, if_pos h8, hcolumn]
    exact agrees_place (agrees_column h (sub32 d.term.termColumn 2)) 0 color (sub32 x 1) y hcell
  · rw [if_neg h8] at hcell
    rw [if_neg h8, if_neg h8]
    exact agrees_place h c color x y hcell

theorem agrees_termPutchar (h : Agrees font t d on) {c : UInt8} (hc : Stores d.term c) :
    Agrees font (t.termPutchar c) { d with term := termPutchar d.term c } on := by
  rw [CardTerminal.termPutchar, h.color, h.column, h.row]
  exact agrees_termFollow (agrees_termAdvance (agrees_termPutentryat h c _ _ _ hc))

end Agrees

/-! ### Positions -/

/-- The cursor is in a row of the text or in the bar. -/
def OnRow (u : Terminal) : Prop := u.termRow ≤ 28 ∧ u.termColumn ≤ 89

/-- The cursor is in the bar, at most `n` columns to the left of its start. -/
def LeftOf (n : ℕ) (u : Terminal) : Prop :=
  u.termRow = 0 ∧ 4294967296 - n ≤ u.termColumn ∧ u.termColumn < 4294967296

section Positions

variable {u : Terminal} {n : ℕ}

theorem termFollow_position (u : Terminal) :
    (termFollow u).termRow = (if 28 < u.termRow then u.termRow - 1 else u.termRow) ∧
      (termFollow u).termColumn = u.termColumn := by
  unfold termFollow termScroll vgaHeight
  split
  · split
    · exact ⟨rfl, rfl⟩
    · exact ⟨rfl, rfl⟩
  · exact ⟨rfl, rfl⟩

theorem onRow_follow (hrow : u.termRow ≤ 29) (hcol : u.termColumn ≤ 89) : OnRow (termFollow u) := by
  obtain ⟨hr, hc⟩ := termFollow_position u
  refine ⟨?_, by rw [hc]; exact hcol⟩
  rw [hr]
  split
  · omega
  · omega

theorem advance_onRow (hrow : u.termRow ≤ 28)
    (hcol : u.termColumn ≤ 89 ∨ u.termColumn = 4294967295) :
    (termAdvance u).termRow ≤ 29 ∧ (termAdvance u).termColumn ≤ 89 := by
  rcases eq_or_ne (w32 (u.termColumn + 1)) 90 with hw | hw
  · rw [termAdvance_wrap hw]
    simp only [w32]
    omega
  · rw [termAdvance_next hw]
    simp only [w32] at hw ⊢
    omega

theorem advance_leftOf (hrow : u.termRow = 0) (hlow : 4294967296 - n ≤ u.termColumn)
    (hhigh : u.termColumn < 4294967296) (hn : n ≤ 1073741824) :
    OnRow (termAdvance u) ∨ LeftOf n (termAdvance u) := by
  have hw : w32 (u.termColumn + 1) ≠ 90 := by
    rw [w32]
    omega
  rw [termAdvance_next hw]
  rcases eq_or_ne u.termColumn 4294967295 with hlast | hlast
  · have hzero : w32 (u.termColumn + 1) = 0 := by
      rw [w32, hlast]
    exact Or.inl ⟨by simp only [hrow]; omega, by simp only [hzero]; omega⟩
  · have hnext : w32 (u.termColumn + 1) = u.termColumn + 1 := w32_of_lt (by omega)
    exact Or.inr ⟨hrow, by simp only [hnext]; omega, by simp only [hnext]; omega⟩

theorem onRow_putchar (h : OnRow u) (c : UInt8) : OnRow (termPutchar u c) := by
  obtain ⟨hrow, hcol⟩ := h
  rw [termPutchar_moved]
  have hmoved : (moved u c).termRow ≤ 29 ∧ (moved u c).termColumn ≤ 89 := by
    rcases eq_or_ne c 10 with rfl | h10
    · rw [moved_newline]
      simp only [w32]
      omega
    rcases eq_or_ne c 8 with rfl | h8
    · rcases Nat.lt_or_ge u.pmtlen u.termColumn with hk | hk
      · have hback : sub32 u.termColumn 2 ≤ 89 ∨ sub32 u.termColumn 2 = 4294967295 := by
          simp only [sub32, w32]
          omega
        rw [moved_erase hk]
        exact advance_onRow (by simp only [Screen.place, hrow])
          (by simpa only [Screen.place] using hback)
      · rw [moved_kept hk]
        exact advance_onRow hrow (Or.inl hcol)
    · rw [moved_plain h10 h8]
      exact advance_onRow (by simp only [Screen.place, hrow])
        (by simp only [Screen.place, hcol, true_or])
  exact onRow_follow hmoved.1 hmoved.2

/-- Left of the bar, a backspace takes the cursor one column further. -/
theorem leftOf_putchar (h : LeftOf n u) (hn : n < 1073741824) (c : UInt8) :
    OnRow (termPutchar u c) ∨ LeftOf (n + 1) (termPutchar u c) := by
  obtain ⟨hrow, hlow, hhigh⟩ := h
  have hwide : 4294967296 - (n + 1) ≤ u.termColumn := by omega
  have hmoved : OnRow (moved u c) ∨ LeftOf (n + 1) (moved u c) := by
    rcases eq_or_ne c 10 with rfl | h10
    · have hone : w32 (0 + 1) = 1 := w32_of_lt (by omega)
      rw [moved_newline, hrow, hone]
      exact Or.inl ⟨by simp only; omega, by simp only; omega⟩
    rcases eq_or_ne c 8 with rfl | h8
    · rcases Nat.lt_or_ge u.pmtlen u.termColumn with hk | hk
      · have hback : sub32 u.termColumn 2 = u.termColumn - 2 := sub32_of_le (by omega) (by omega)
        have hnext : w32 (u.termColumn - 2 + 1) = u.termColumn - 1 := by
          rw [w32_of_lt (by omega)]
          omega
        rw [moved_erase hk, hback, termAdvance_next (by simp only [Screen.place, hnext]; omega)]
        simp only [Screen.place, hnext]
        exact Or.inr ⟨hrow, by simp only; omega, by simp only; omega⟩
      · rw [moved_kept hk]
        exact advance_leftOf hrow hwide hhigh (by omega)
    · rw [moved_plain h10 h8]
      exact advance_leftOf (by simp only [Screen.place, hrow]) (by simp only [Screen.place]; omega)
        (by simp only [Screen.place]; omega) (by omega)
  have hrow' : (moved u c).termRow ≤ 28 := by
    rcases hmoved with h | h
    · exact h.1
    · rw [h.1]
      omega
  rwa [termPutchar_moved, termFollow_of_le hrow']

theorem stores_onRow (h : OnRow u) (c : UInt8) : Stores u c := by
  obtain ⟨hrow, hcol⟩ := h
  intro _ hkept
  have hcell : ∀ x ≤ 89, Distinct (w32 (u.termRow * vgaWidth + x)) := by
    intro x hx
    rw [vgaWidth, w32_of_lt (by omega)]
    exact ⟨by omega, by omega⟩
  split
  case isTrue h8 =>
    have hpos : ¬ u.termColumn ≤ u.pmtlen := fun h => hkept ⟨h8, h⟩
    rw [sub32_of_le (by omega) (by omega)]
    exact hcell _ (by omega)
  case isFalse => exact hcell _ hcol

theorem stores_leftOf (h : LeftOf n u) (hn : n ≤ 1073741824) (c : UInt8) : Stores u c := by
  obtain ⟨hrow, hlow, hhigh⟩ := h
  intro _ _
  have hcell : ∀ x, 3221225471 ≤ x → x < 4294967296 →
      Distinct (w32 (u.termRow * vgaWidth + x)) := by
    intro x hx hlt
    rw [hrow, Nat.zero_mul, Nat.zero_add, w32_of_lt hlt]
    exact ⟨hlt, by omega⟩
  split
  · rw [sub32_of_le (by omega) (by omega)]
    exact hcell _ (by omega) (by omega)
  · exact hcell _ (by omega) hhigh

end Positions

/-! ### Text -/

section Runs

variable {font : ℕ → UInt8} {t : CardTerminal} {d : Display} {on : Bool}

theorem agrees_termWrite (h : Agrees font t d on) (hrow : OnRow d.term) (data : List UInt8) :
    Agrees font (t.termWrite data) { d with term := termWrite d.term data } on ∧
      OnRow (termWrite d.term data) := by
  induction data generalizing t d with
  | nil => exact ⟨h, hrow⟩
  | cons c data ih =>
      exact ih (agrees_termPutchar h (stores_onRow hrow c)) (onRow_putchar hrow c)

/-- Text that starts left of the bar. -/
theorem agrees_termWrite_leftOf {n : ℕ} (h : Agrees font t d on) (hleft : LeftOf n d.term)
    {data : List UInt8} (hn : n + data.length ≤ 1073741824) :
    Agrees font (t.termWrite data) { d with term := termWrite d.term data } on := by
  induction data generalizing t d n with
  | nil => exact h
  | cons c data ih =>
      rw [List.length_cons] at hn
      have hput := agrees_termPutchar h (stores_leftOf hleft (by omega) c)
      rcases leftOf_putchar hleft (by omega) c with hrow | hleft'
      · exact (agrees_termWrite hput hrow data).1
      · exact ih hput hleft' (by omega)

theorem agrees_prompt (h : Agrees font t d on) (hrow : OnRow d.term) (pmt : List UInt8) :
    Agrees font (t.prompt pmt) { d with term := prompt d.term pmt } on ∧
      OnRow (prompt d.term pmt) := by
  rw [CardTerminal.prompt, Screen.prompt, h.row]
  split
  · obtain ⟨hnew, hrow'⟩ := agrees_termWrite h hrow [10]
    exact agrees_termWrite hnew hrow' pmt
  · exact agrees_termWrite h hrow pmt

/-- The cursor goes to another place. -/
theorem agrees_goTo (h : Agrees font t d on) (y x : ℕ) :
    Agrees font
      { t with lastcol := t.termColumn, lastrow := t.termRow, termRow := y, termColumn := x }
      ⟨{ d.term with termRow := y, termColumn := x }, d.term.termColumn, d.term.termRow⟩ on :=
  ⟨rfl, rfl, h.color, h.scroll, h.pmtlen, h.column, h.row, h.held⟩

/-- The cursor comes back, and the colour of the text with it. -/
theorem agrees_comeBack (h : Agrees font t d on) {color color' : UInt8} (hcolor : color = color') :
    Agrees font { t with termColor := color, termRow := t.lastrow, termColumn := t.lastcol }
      { d with
        term := { d.term with
          termColor := color'
          termRow := d.lastrow
          termColumn := d.lastcol } } on :=
  ⟨h.lastrow, h.lastcol, hcolor, h.scroll, h.pmtlen, h.lastcol, h.lastrow, h.held⟩

/-- The title starts where it ends with the bar, and a long one starts left of the bar. -/
theorem agrees_title (h : Agrees font t d on) {n : ℕ} (hn : n ≤ 536870912) {data : List UInt8}
    (hdata : data.length ≤ n) (hrow : d.term.termRow = 0)
    (hcol : d.term.termColumn = sub32 vgaWidth n) :
    Agrees font (t.termWrite data) { d with term := termWrite d.term data } on := by
  rcases Nat.eq_zero_or_pos n with hzero | hpos
  · have hnil : data = [] := List.eq_nil_of_length_eq_zero (by omega)
    rw [hnil]
    exact h
  rcases Nat.lt_or_ge vgaWidth n with hlong | hshort
  · have hw : w32 n = n := w32_of_lt (by omega)
    rw [sub32, hw, w32] at hcol
    exact agrees_termWrite_leftOf (n := n) h ⟨hrow, by omega, by omega⟩ (by omega)
  · have hsub : sub32 vgaWidth n = vgaWidth - n := sub32_of_le hshort (by rw [vgaWidth]; omega)
    rw [hsub, vgaWidth] at hcol
    exact (agrees_termWrite h ⟨by omega, by omega⟩ data).1

theorem agrees_termSetTitle (h : Agrees font t d on) {str : List UInt8}
    (hstr : strlen str ≤ 536870912) :
    Agrees font (t.termSetTitle str) (termSetTitle d str) on := by
  have htake : (str.take (strlen str)).length ≤ strlen str := by
    rw [List.length_take]
    exact Nat.min_le_left _ _
  have hbar := agrees_goTo h 0 (sub32 vgaWidth (strlen str))
  have hwritten := agrees_title (agrees_setColor hbar (vgaEntryColor 0 7)) hstr htake rfl rfl
  exact agrees_comeBack hwritten h.color

theorem agrees_draw (h : Agrees font t d on) {x y : ℕ} (hcell : Distinct (w32 (y * vgaWidth + x)))
    (color : ℤ) : Agrees font (t.draw x y color) (draw d x y color) on := by
  let dcol := vgaEntryColor (UInt8.ofInt color) (UInt8.ofInt color)
  have hput := agrees_termPutchar (agrees_setColor (agrees_goTo h y x) dcol) (c := 32)
    fun _ _ => by
      rw [if_neg (by decide)]
      exact hcell
  exact agrees_comeBack hput h.color

/-! ### The start -/

/-- The registers behind `write_regs`. -/
theorem mode_programmed (c : Card) : Mode (programmed textMode c).toRegisters where
  misc := rfl
  seq i hi := if_pos hi
  crtc i hi _ := if_pos hi
  gc i hi := if_pos hi
  ac i hi := if_pos hi
  screenOn := show bit 0x20 5 = true by decide

/-- The cursor is on the screen, in front of the bar. -/
theorem cursor_programmed (c : Card) :
    (programmed textMode c).cursor = 0 ∧ (programmed textMode c).cursorOn = true := by
  have hcrtc : ∀ i < 25, (programmed textMode c).crtc.regs i = textMode (6 + i) :=
    fun i hi => if_pos hi
  constructor
  · rw [Registers.cursor, hcrtc 0x0E (by omega), hcrtc 0x0F (by omega)]
    rfl
  · rw [Registers.cursorOn, hcrtc 0x0A (by omega)]
    rfl

theorem holds_mode (font : ℕ → UInt8) (c : Card) :
    Holds font (writeFont font 16 (writeRegs (fun i => g90x30Text.getD i 0) c).2) c.text 0
      true := by
  have hmode := mode_programmed c
  have hregs : (writeRegs (fun i => g90x30Text.getD i 0) c).2 = programmed textMode c := by
    rw [writeRegs_programs _ _ rfl]
    rfl
  rw [hregs, writeFont_stores font (by omega) _ hmode.plain hmode.text.enabled hmode.text.chain]
  refine ⟨⟨hmode.misc, hmode.seq, hmode.crtc, hmode.gc, hmode.ac, hmode.screenOn⟩, fun k _ => ?_,
    fun k hk hrow => ?_, (cursor_programmed c).1, (cursor_programmed c).2⟩
  · have hplane : ∀ p, p ≠ 2 → glyphs font 16 256 c.plane p (2 * k) = c.plane p (2 * k) :=
      fun p hp => if_neg fun h => hp h.1
    change (glyphs font 16 256 c.plane 0 (2 * k)).toUInt16 |||
      (glyphs font 16 256 c.plane 1 (2 * k)).toUInt16 <<< 8 = c.text k
    rw [hplane 0 (by decide), hplane 1 (by decide), Card.text]
  · exact if_pos ⟨rfl, hk, hrow⟩

/-- The variables as the kernel has them from its start, and the card. -/
def atBoot (c : Card) : CardTerminal := ⟨0, 0, 0, true, 1, 0, 0, c⟩

/-- `term_initialize` with a buffer of its own, which has the words in the card. -/
def started (c : Card) : Display :=
  let t := Screen.termCls ⟨0, 0, vgaEntryColor 7 0, true, 1, 0, c.text⟩
  ⟨{ t with termBuffer := clearedBar t.termBuffer }, 0, 0⟩

theorem agrees_started (font : ℕ → UInt8) (c : Card) :
    Agrees font ((atBoot c).termInitialize font) (started c) true := by
  have hstart : Agrees font
      { atBoot c with
        card := writeFont font 16 (writeRegs (fun i => g90x30Text.getD i 0) c).2
        termColor := vgaEntryColor 7 0 }
      ⟨⟨0, 0, vgaEntryColor 7 0, true, 1, 0, c.text⟩, 0, 0⟩ true :=
    ⟨rfl, rfl, rfl, rfl, rfl, rfl, rfl, holds_mode font c⟩
  have hcls := agrees_termCls hstart
  exact agrees_card hcls (holds_statusCls hcls.held)

/-! ### Runs -/

/-- What the rest of the kernel does to the terminal. -/
inductive ScreenOp where
  | putchar (c : UInt8)
  | write (data : List UInt8)
  | prompt (pmt : List UInt8)
  | cls
  | scrolling (enabled : Bool)
  | setcolor (color : UInt8)
  | setprompt (pmtlen : ℕ)
  | title (str : List UInt8)
  | draw (x y : ℕ) (color : ℤ)
  | defaultCursor
  | hidecur

namespace ScreenOp

/-- `term_putchar`, `term_write`, `prompt`, `term_cls`, `term_enable_scroll`, `term_disable_scroll`,
`setcolor`, `setprompt`, `term_set_title`, `draw`, `default_cursor` and `hidecur`. -/
def onCard (t : CardTerminal) : ScreenOp → CardTerminal
  | putchar c => t.termPutchar c
  | write data => t.termWrite data
  | prompt pmt => t.prompt pmt
  | cls => t.termCls
  | scrolling enabled => { t with scrollTerm := enabled }
  | setcolor color => { t with termColor := color }
  | setprompt pmtlen => { t with pmtlen := pmtlen }
  | title str => t.termSetTitle str
  | draw x y color => t.draw x y color
  | defaultCursor => { t with card := Vga.defaultCursor t.card }
  | hidecur => { t with card := Vga.hidecur t.card }

/-- The same with a buffer of its own, and whether the cursor is on the screen. -/
def apply (s : Display × Bool) : ScreenOp → Display × Bool
  | putchar c => ({ s.1 with term := termPutchar s.1.term c }, s.2)
  | write data => ({ s.1 with term := termWrite s.1.term data }, s.2)
  | prompt pmt => ({ s.1 with term := Screen.prompt s.1.term pmt }, s.2)
  | cls => ({ s.1 with term := termCls s.1.term }, s.2)
  | scrolling enabled => ({ s.1 with term := { s.1.term with scrollTerm := enabled } }, s.2)
  | setcolor color => ({ s.1 with term := { s.1.term with termColor := color } }, s.2)
  | setprompt pmtlen => ({ s.1 with term := { s.1.term with pmtlen := pmtlen } }, s.2)
  | title str => (termSetTitle s.1 str, s.2)
  | draw x y color => (Screen.draw s.1 x y color, s.2)
  | defaultCursor => (s.1, true)
  | hidecur => (s.1, false)

/-- A title of at most half a gigabyte, and a drawing that reaches its own cell only. -/
def Fits : ScreenOp → Prop
  | title str => strlen str ≤ 536870912
  | draw x y _ => Distinct (w32 (y * vgaWidth + x))
  | _ => True

end ScreenOp

variable {s : Display × Bool}

theorem onRow_termCls (u : Terminal) : OnRow (termCls u) :=
  ⟨show 1 ≤ 28 by omega, Nat.zero_le _⟩

/-- One step, with one case for each function. -/
theorem agrees_apply (h : Agrees font t s.1 s.2) (hrow : OnRow s.1.term) {op : ScreenOp}
    (hop : op.Fits) : Agrees font (op.onCard t) (op.apply s).1 (op.apply s).2 ∧
      OnRow (op.apply s).1.term := by
  cases op with
  | putchar c => exact ⟨agrees_termPutchar h (stores_onRow hrow c), onRow_putchar hrow c⟩
  | write data => exact agrees_termWrite h hrow data
  | prompt pmt => exact agrees_prompt h hrow pmt
  | cls => exact ⟨agrees_termCls h, onRow_termCls _⟩
  | scrolling enabled =>
      exact ⟨⟨h.row, h.column, h.color, rfl, h.pmtlen, h.lastcol, h.lastrow, h.held⟩, hrow⟩
  | setcolor color => exact ⟨agrees_setColor h color, hrow⟩
  | setprompt pmtlen =>
      exact ⟨⟨h.row, h.column, h.color, h.scroll, rfl, h.lastcol, h.lastrow, h.held⟩, hrow⟩
  | title str => exact ⟨agrees_termSetTitle h hop, hrow⟩
  | draw x y color => exact ⟨agrees_draw h hop color, hrow⟩
  | defaultCursor => exact ⟨agrees_card h (holds_showcur h.held 0 15), hrow⟩
  | hidecur => exact ⟨agrees_card h (holds_hidecur h.held), hrow⟩

theorem agrees_run (h : Agrees font t s.1 s.2) (hrow : OnRow s.1.term) {ops : List ScreenOp}
    (hops : ∀ op ∈ ops, op.Fits) :
    Agrees font (ops.foldl ScreenOp.onCard t) (ops.foldl ScreenOp.apply s).1
      (ops.foldl ScreenOp.apply s).2 := by
  induction ops generalizing t s with
  | nil => exact h
  | cons op ops ih =>
      obtain ⟨h', hrow'⟩ := agrees_apply h hrow (hops op List.mem_cons_self)
      exact ih h' hrow' fun op' hop' => hops op' (List.mem_cons_of_mem _ hop')

end Runs

/-- Whatever the state of the card is, behind `term_initialize` and whatever is done to the terminal
then, the screen is on and has 30 rows of 90 characters, of 16 scan lines each.  The dots of each
character are those of the word in the terminal's buffer, in the font and in the colours of its
style, and the cursor of the card is where the terminal has it. -/
theorem screen_shows (g8x16Font : ℕ → UInt8) (c : Card) (ops : List ScreenOp)
    (hops : ∀ op ∈ ops, op.Fits) :
    let t := ops.foldl ScreenOp.onCard ((atBoot c).termInitialize g8x16Font)
    let s := ops.foldl ScreenOp.apply (started c, true)
    (t.card.on = true ∧ t.card.characters = true ∧ t.card.columns = 90 ∧ t.card.rowHeight = 16 ∧
      t.card.scanLines = 30 * 16) ∧
    (∀ visible, ∀ x < 90, ∀ y < 30, ∀ r < 16, ∀ i < 8,
      t.card.dot visible x y r i = pixel g8x16Font visible (s.1.term.termBuffer (y * 90 + x)) r i) ∧
    t.card.cursor = s.1.term.cursor ∧ t.card.cursorOn = s.2 := by
  intro t s
  have hagrees : Agrees g8x16Font t s.1 s.2 :=
    agrees_run (agrees_started g8x16Font c) ⟨show 1 ≤ 28 by omega, Nat.zero_le _⟩ hops
  have hheld := hagrees.held
  exact ⟨hheld.mode.geometry, fun visible x hx y hy r hr i _ => hheld.dot visible hx hy hr,
    hheld.cursor_eq, hheld.on_eq⟩

/-- A card with zeros in its planes, whose CRT controller is locked. -/
def lockedCard : Card where
  misc := 0
  seq := ⟨0, fun _ => 0⟩
  crtc := ⟨0, fun _ => 0xFF⟩
  gc := ⟨0, fun _ => 0⟩
  ac := ⟨0, true, fun _ => 0⟩
  inputStatus := 0
  plane := fun _ _ => 0
  latch := fun _ => 0

theorem screen_shows_letter :
    let t := [ScreenOp.title [111, 0], .putchar 65, .hidecur].foldl ScreenOp.onCard
      ((atBoot lockedCard).termInitialize fun k => UInt8.ofNat k)
    (∀ r < 16, ∀ i < 8, t.card.dot true 0 1 r i =
      pixel (fun k => UInt8.ofNat k) true (vgaEntry 65 7) r i) ∧
    t.card.cursor = 91 ∧ t.card.cursorOn = false := by
  have hops : ∀ op ∈ [ScreenOp.title [111, 0], .putchar 65, .hidecur], op.Fits := by
    simp [ScreenOp.Fits, strlen]
  obtain ⟨_, hdots, hcursor, hon⟩ := screen_shows (fun k => UInt8.ofNat k) lockedCard
    [ScreenOp.title [111, 0], .putchar 65, .hidecur] hops
  have hword : ([ScreenOp.title [111, 0], .putchar 65, .hidecur].foldl ScreenOp.apply
      (started lockedCard, true)).1.term.termBuffer (1 * 90 + 0) = vgaEntry 65 7 := by
    decide +kernel
  have hpos : ([ScreenOp.title [111, 0], .putchar 65, .hidecur].foldl ScreenOp.apply
      (started lockedCard, true)).1.term.cursor = 91 := by
    decide +kernel
  rw [hpos] at hcursor
  refine ⟨fun r hr i hi => ?_, hcursor, hon⟩
  rw [hdots true 0 (by omega) 1 (by omega) r hr i hi, hword]

end Owmice.Vga
