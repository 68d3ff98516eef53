import Owmice.LineEditor

/-! # The echo of the line

The handler edits the line buffer, and `term_putchar` the screen.  From the prompt on, the cells
up to the cursor are the characters of the line, as long as a backspace finds the cursor to the
right of the columns that `term_putentryat` keeps for the prompt.  In a line that has wrapped,
the first columns of a row are not the prompt's, but are kept all the same: the backspace then
cuts the line, leaves the cell, and moves the cursor to the right.

* `step_echoInv`: one key keeps the cells equal to the line;
* `echo_agrees`: so does a run of keys, and a backspace undoes the key before it exactly if the
  cell held the blank that a backspace leaves. -/

namespace Owmice.Console

open Screen

/-! ### Cells -/

/-- The character of a cell. -/
def glyph (e : UInt16) : UInt8 := e.toUInt8

/-- The characters of `n` cells from `start` on. -/
def glyphs (b : ℕ → UInt16) (start n : ℕ) : List UInt8 :=
  (List.range' start n).map fun k => glyph (b k)

/-- The cell of the cursor. -/
def cellOf (t : Terminal) : ℕ := t.termRow * vgaWidth + t.termColumn

theorem glyph_vgaEntry (c color : UInt8) : glyph (vgaEntry c color) = c := by
  have hhigh : color.toNat <<< 8 % 256 = 0 := by
    rw [Nat.shiftLeft_eq]
    omega
  rw [glyph, vgaEntry, ← UInt8.toNat_inj]
  simp [hhigh]

theorem glyphs_succ (b : ℕ → UInt16) (start n : ℕ) :
    glyphs b start (n + 1) = glyphs b start n ++ [glyph (b (start + n))] := by
  rw [glyphs, List.range'_1_concat, List.map_append]
  rfl

theorem glyphs_congr {b b' : ℕ → UInt16} {start n : ℕ}
    (h : ∀ k, start ≤ k → k < start + n → b' k = b k) : glyphs b' start n = glyphs b start n := by
  apply List.map_congr_left
  intro k hk
  rw [List.mem_range'_1] at hk
  rw [h k hk.1 hk.2]

/-- Cells that have moved one row up. -/
theorem glyphs_moved {b b' : ℕ → UInt16} {start n : ℕ}
    (h : ∀ k, start ≤ k → k < start + n → b' k = b (k + 90)) :
    glyphs b' start n = glyphs b (start + 90) n := by
  induction n with
  | zero => rfl
  | succ n ih =>
      specialize ih fun k hk hkn => h k hk (by omega)
      rw [glyphs_succ, glyphs_succ, ih, h (start + n) (by omega) (by omega), Nat.add_right_comm]

/-! ### The run of keys -/

/-- The keyboard, and the cell in which the line starts. -/
structure EchoState where
  kbd : Keyboard
  start : ℕ

/-- The character that the interrupt of a key sends to the terminal. -/
def echoed (past : UInt8 → UInt8) (k : Keyboard) (d : UInt8) : Option UInt8 :=
  if Erases past k 1 d then some 8
  else if Appends past k 1 d then some (shifted k d (keyboardMapAt past d))
  else none

/-- `term_putchar` moves the text up. -/
def Scrolls (t : Terminal) (c : UInt8) : Prop :=
  t.scrollTerm = true ∧ vgaHeight - 1 <
    (termAdvance (termPutentryat t c t.termColor t.termColumn t.termRow)).termRow

instance (t : Terminal) (c : UInt8) : Decidable (Scrolls t c) := by unfold Scrolls; infer_instance

/-- A key other than Enter.  The line starts one row higher when the text moves up. -/
def EchoState.key (past : UInt8 → UInt8) (s : EchoState) (d : UInt8) : EchoState where
  kbd := keyboardHandlerMain past s.kbd 1 d
  start :=
    if (echoed past s.kbd d).any fun c => decide (Scrolls s.kbd.term c) then s.start - vgaWidth
    else s.start

inductive EchoStep (past : UInt8 → UInt8) : EchoState → UInt8 → EchoState → Prop
  | key (s : EchoState) (d : UInt8) : d ≠ 28 → EchoStep past s d (s.key past d)

/-- The cells from the start of the line up to the cursor, without the blank ones, spell the
line. -/
def EchoState.Agrees (s : EchoState) : Prop :=
  (glyphs s.kbd.term.termBuffer s.start (cellOf s.kbd.term - s.start)).filter (· ≠ 0) =
    cstr s.kbd.conInput

/-- The screen can follow the key: a backspace finds the cursor behind the columns of the
prompt, and a character in the last cell of the screen makes the text move up. -/
def Fits (past : UInt8 → UInt8) (s : EchoState) (d : UInt8) : Prop :=
  (Erases past s.kbd 1 d → s.kbd.term.pmtlen < s.kbd.term.termColumn) ∧
    (Appends past s.kbd 1 d → s.kbd.term.termRow = 28 → s.kbd.term.termColumn = 89 →
      s.kbd.term.scrollTerm = true)

/-! ### The invariant -/

/-- The cursor is on a text row, and the prompt has one character. -/
structure OnText (t : Terminal) : Prop where
  row : 1 ≤ t.termRow ∧ t.termRow ≤ 28
  column : t.termColumn ≤ 89
  pmtlen : t.pmtlen = 1

/-- Inside of a row, the registers of the VGA follow the cursor. -/
structure CursorOk (t : Terminal) : Prop extends OnText t where
  cursor : 1 ≤ t.termColumn → t.cursor = cellOf t

structure EchoInv (s : EchoState) : Prop where
  request : s.kbd.request = kbdString
  cursor : CursorOk s.kbd.term
  count : strlen s.kbd.conInput ≤ s.kbd.bufpos ∧ strlen s.kbd.conInput ≤ inputMaxlen
  start : 90 ≤ s.start ∧ s.start + strlen s.kbd.conInput = cellOf s.kbd.term
  shown : glyphs s.kbd.term.termBuffer s.start (strlen s.kbd.conInput) = cstr s.kbd.conInput

theorem EchoInv.agrees {s : EchoState} (h : EchoInv s) : s.Agrees := by
  have hlen : cellOf s.kbd.term - s.start = strlen s.kbd.conInput := by
    have := h.start.2
    omega
  rw [EchoState.Agrees, hlen, h.shown, List.filter_eq_self]
  intro c hc
  exact decide_eq_true (cstr_ne_zero c hc)

/-! ### Characters -/

section Putchar

variable {t : Terminal}

/-- By how many cells a character moves the text up. -/
def lift (t : Terminal) (c : UInt8) : ℕ := if Scrolls t c then 90 else 0

theorem scrolls_iff {c : UInt8} (h : OnText t) (h10 : c ≠ 10) (h8 : c ≠ 8) :
    Scrolls t c ↔ t.scrollTerm = true ∧ t.termRow = 28 ∧ t.termColumn = 89 := by
  have hrow := h.row
  rw [Scrolls, termAdvance_store h10 h8 ⟨hrow.1, by omega⟩ h.column, vgaHeight]
  apply and_congr_right
  intro _
  simp only [stored]
  split <;> omega

/-- A character goes to the cell of the cursor, the cursor to the next cell, and both may move
up. -/
theorem putchar_plain {c : UInt8} (h : OnText t) (h0 : c ≠ 0) (h10 : c ≠ 10) (h8 : c ≠ 8)
    (hscroll : t.termRow = 28 → t.termColumn = 89 → t.scrollTerm = true) :
    CursorOk (termPutchar t c) ∧ cellOf (termPutchar t c) + lift t c = cellOf t + 1 ∧
      ∀ k, 90 ≤ k → k + lift t c ≤ cellOf t → (termPutchar t c).termBuffer k =
        if k + lift t c = cellOf t then vgaEntry c t.termColor
        else t.termBuffer (k + lift t c) := by
  have hiff := scrolls_iff h h10 h8
  obtain ⟨hrow, hcol, hpmt⟩ := h
  rw [termPutchar_store h10 h8 ⟨hrow.1, by omega⟩ hcol]
  unfold lift cellOf
  by_cases hs : Scrolls t c
  · -- the text moves up by one row
    obtain ⟨hon, h28, h89⟩ := hiff.mp hs
    have hlt : vgaHeight - 1 < (stored t c).termRow := by simp [vgaHeight, stored, h28, h89]
    have hbuf : ∀ k, 90 ≤ k → k < 2610 → (termFollow (stored t c)).termBuffer k =
        (stored t c).termBuffer (k + 90) := by
      intro k hk hk'
      rw [termFollow, if_pos hlt,
        termScroll_apply (t := { stored t c with termRow := (stored t c).termRow - 1 }) hon,
        if_pos ⟨hk, hk'⟩]
    have hfollow : (termFollow (stored t c)).termRow = 28 ∧
        (termFollow (stored t c)).termColumn = 0 ∧ (termFollow (stored t c)).pmtlen = 1 := by
      simp [termFollow, vgaHeight, termScroll, stored, hon, h28, h89, hpmt]
    simp only [if_pos hs]
    refine ⟨⟨⟨by omega, by omega, hfollow.2.2⟩, by omega⟩, ?_, ?_⟩
    · rw [hfollow.1, hfollow.2.1, h28, h89, vgaWidth]
    · intro k hk hk'
      rw [h28, h89, vgaWidth] at hk'
      rw [hbuf k hk (by omega)]
      simp only [stored, Function.update_apply, vgaWidth]
      rfl
  · have hlt : (stored t c).termRow ≤ 28 := by
      simp only [stored]
      split
      case isTrue h89 =>
        by_contra hgt
        exact hs (hiff.mpr ⟨hscroll (by omega) (by omega), by omega, by omega⟩)
      case isFalse => exact hrow.2
    rw [termFollow_of_le hlt, if_neg hs]
    simp only [stored] at hlt ⊢
    refine ⟨⟨⟨⟨?_, hlt⟩, ?_, hpmt⟩, ?_⟩, ?_, ?_⟩
    · simp only
      split <;> omega
    · simp only
      split <;> omega
    · intro hpos
      simp only [cellOf, vgaWidth] at hpos ⊢
      split at hpos
      · omega
      · rename_i hne
        rw [if_neg h0, if_neg hne, if_neg hne]
    · rw [vgaWidth]
      split <;> omega
    · intro k _ _
      simp only [Function.update_apply, vgaWidth, Nat.add_zero]
      rfl

theorem lift_cases {c : UInt8} (h : OnText t) (h10 : c ≠ 10) (h8 : c ≠ 8) :
    lift t c = 0 ∨ lift t c = 90 ∧ cellOf t = 2609 := by
  rw [lift, cellOf, vgaWidth]
  split
  case isTrue hs =>
    obtain ⟨-, h28, h89⟩ := (scrolls_iff h h10 h8).mp hs
    exact .inr ⟨rfl, by rw [h28, h89]⟩
  case isFalse => exact .inl rfl

/-- A backspace blanks the cell before the cursor and goes back to it. -/
theorem putchar_backspace (h : OnText t) (hpmt : t.pmtlen < t.termColumn) :
    CursorOk (termPutchar t 8) ∧ cellOf (termPutchar t 8) + 1 = cellOf t ∧ ¬ Scrolls t 8 ∧
      (termPutchar t 8).termBuffer =
        Function.update t.termBuffer (cellOf t - 1) (vgaEntry 0 t.termColor) := by
  obtain ⟨hrow, hcol, hone⟩ := h
  have hscroll : ¬ Scrolls t 8 := by
    rw [Scrolls, termAdvance_backspace hrow hcol hpmt, vgaHeight]
    simp only [erased]
    omega
  rw [termPutchar_backspace hrow hcol hpmt]
  refine ⟨⟨⟨hrow, by simp only [erased]; omega, hone⟩, fun _ => rfl⟩, ?_, hscroll, ?_⟩
  · simp only [cellOf, erased, vgaWidth]
    omega
  · simp only [cellOf, erased, vgaWidth]
    congr 1
    omega

end Putchar

/-! ### One key -/

theorem echoed_char {past : UInt8 → UInt8} {k : Keyboard} {d : UInt8} (h : Takes past k 1 d) :
    shifted k d (keyboardMapAt past d) ∉ [0, 8, 10] := by
  have h0 := h.char_ne_zero
  obtain ⟨-, hup, h8, -, hne, -⟩ := h
  have hlt := (and_128_eq_zero_iff d).mp hup
  have h14 : d ≠ 14 := fun hd => h8 (keyboardMapAt_eq_8_iff.mpr (.inl hd))
  have hplain : ¬ (d.toNat = 14 ∨ d.toNat = 28) := by
    rintro (hd | hd)
    · exact h14 (UInt8.toNat_inj.mp hd)
    · exact hne (UInt8.toNat_inj.mp hd)
  obtain ⟨hmap, hspecial⟩ := codes_plain d.toNat (UInt8.lt_iff_toNat_lt.mp hlt) hplain
  rw [List.mem_cons, not_or]
  refine ⟨h0, ?_⟩
  unfold shifted
  split
  · exact hspecial
  · rwa [keyboardMapAt_of_lt hlt]

/-- One key keeps the invariant. -/
theorem step_echoInv {past : UInt8 → UInt8} {s s' : EchoState} {d : UInt8} (h : EchoInv s)
    (hfits : Fits past s d) (hs : EchoStep past s d s') : EchoInv s' := by
  cases hs with | key hd
  obtain ⟨hreq, hcursor, ⟨hcount, hlen⟩, ⟨hfirst, hstart⟩, hshown⟩ := h
  have heffect := handler_effect past s.kbd 1 d
  unfold EchoState.key echoed
  generalize keyboardHandlerMain past s.kbd 1 d = k at heffect
  cases heffect with
  | kept keycode keychar shiftDown herase htakes =>
      have happ : ¬ Appends past s.kbd 1 d := fun h => htakes h.1
      rw [if_neg herase, if_neg happ]
      exact ⟨hreq, hcursor, ⟨hcount, hlen⟩, ⟨hfirst, hstart⟩, hshown⟩
  | erased herase =>
      obtain ⟨hok, hcell, hscroll, hbuf⟩ := putchar_backspace hcursor.toOnText (hfits.1 herase)
      have hpos := herase.2.2
      have hcut := cstr_cut s.kbd.conInput
      have hcutlen : strlen (setAt s.kbd.conInput (strlen s.kbd.conInput - 1) 0) =
          strlen s.kbd.conInput - 1 := by
        change (cstr _).length = _
        rw [hcut, List.length_dropLast]
        rfl
      simp only [if_pos herase, Option.any_some, hscroll, decide_false, Bool.false_eq_true, if_false]
      refine ⟨hreq, hok, ⟨?_, ?_⟩, ?_, ?_⟩
      · simp only [hcutlen]
        omega
      · simp only [hcutlen]
        omega
      · simp only [hcutlen]
        exact ⟨hfirst, by omega⟩
      · obtain ⟨n, hn⟩ : ∃ n, strlen s.kbd.conInput = n + 1 := ⟨_, (Nat.succ_pred hpos.ne').symm⟩
        simp only
        rw [hcutlen, hcut, hbuf, ← hshown, hn, glyphs_succ, List.dropLast_concat,
          Nat.add_sub_cancel]
        apply glyphs_congr
        intro k _ hk
        rw [Function.update_of_ne (by omega)]
  | entered _ henter => exact absurd henter hd
  | answered _ hanswer => exact absurd (hreq.symm.trans hanswer) (by decide)
  | appended htakes hno =>
      have happ : Appends past s.kbd 1 d := ⟨htakes, hno⟩
      have herase : ¬ Erases past s.kbd 1 d := fun h => htakes.2.2.1 h.2.1
      have hchar := echoed_char htakes
      set c := shifted s.kbd d (keyboardMapAt past d) with hc
      simp only [List.mem_cons, List.not_mem_nil, or_false, not_or] at hchar
      obtain ⟨hok, hcell, hbuf⟩ := putchar_plain hcursor.toOnText hchar.1 hchar.2.2 hchar.2.1 (hfits.2 happ)
      have hcat := cstr_strcat s.kbd.conInput hchar.1
      have hcatlen := strlen_strcat s.kbd.conInput hchar.1
      have hroom : s.kbd.bufpos < 128 := htakes.2.2.2.2.2.2
      have hlift : (if (some c).any fun c => decide (Scrolls s.kbd.term c) then s.start - vgaWidth
          else s.start) = s.start - lift s.kbd.term c := by
        rw [Option.any_some, lift, vgaWidth]
        by_cases hs : Scrolls s.kbd.term c <;> simp [hs]
      have hcases := lift_cases hcursor.toOnText hchar.2.2 hchar.2.1
      have hcell' : 90 ≤ cellOf s.kbd.term := by
        have := hcursor.row
        rw [cellOf, vgaWidth]
        omega
      rw [if_neg herase, if_pos happ, hlift]
      refine ⟨hreq, hok, ⟨?_, ?_⟩, ?_, ?_⟩
      · simp only [hcatlen]
        omega
      · simp only [hcatlen, inputMaxlen]
        omega
      · simp only [hcatlen]
        exact ⟨by omega, by omega⟩
      · -- the cells of the line have moved with it, and the last one is new
        have hmoved : glyphs (termPutchar s.kbd.term c).termBuffer
            (s.start - lift s.kbd.term c) (strlen s.kbd.conInput) = cstr s.kbd.conInput := by
          rw [← hshown]
          rcases hcases with hl | ⟨hl, hc2609⟩
          · rw [hl] at hbuf ⊢
            apply glyphs_congr
            intro k hk hk'
            rw [hbuf k (by omega) (by omega), if_neg (by omega)]
            rfl
          · rw [hl] at hbuf ⊢
            have hback : s.start - 90 + 90 = s.start := by omega
            rw [glyphs_moved (b := s.kbd.term.termBuffer), hback]
            intro k hk hk'
            rw [hbuf k (by omega) (by omega), if_neg (by omega)]
        have hnew : (termPutchar s.kbd.term c).termBuffer
            (s.start - lift s.kbd.term c + strlen s.kbd.conInput) =
              vgaEntry c s.kbd.term.termColor := by
          rw [hbuf _ (by omega) (by omega), if_pos (by omega)]
        simp only [hcatlen, hcat, glyphs_succ, hmoved, hnew, glyph_vgaEntry]

/-! ### The prompt -/

/-- After a prompt of one character, the line starts at the cursor. -/
theorem prompt_cursorOk {t : Terminal} {p : UInt8} (h : OnText t) (h0 : p ≠ 0) (h10 : p ≠ 10)
    (h8 : p ≠ 8) : CursorOk (prompt t [p]) := by
  unfold prompt termWrite
  simp only [List.foldl_cons, List.foldl_nil]
  by_cases h1 : t.termRow = screenStart
  · rw [if_neg (not_not.mpr h1)]
    rw [screenStart] at h1
    exact (putchar_plain h h0 h10 h8 (by omega)).1
  · rw [if_pos h1, termPutchar_newline h.row.2]
    have hrow := h.row
    have hline : OnText (termFollow { t with termRow := t.termRow + 1, termColumn := 0 }) ∧
        (termFollow { t with termRow := t.termRow + 1, termColumn := 0 }).termColumn = 0 := by
      unfold termFollow termScroll vgaHeight
      split
      · split
        · exact ⟨⟨by simp only; omega, Nat.zero_le _, h.pmtlen⟩, rfl⟩
        · exact ⟨⟨by simp only; omega, Nat.zero_le _, h.pmtlen⟩, rfl⟩
      · exact ⟨⟨by simp only at *; omega, Nat.zero_le _, h.pmtlen⟩, rfl⟩
    exact (putchar_plain hline.1 h0 h10 h8 (by omega)).1

/-! ### A key and a backspace -/

/-- The cursor and all cells are as before. -/
structure Restored (t t' : Terminal) : Prop where
  row : t'.termRow = t.termRow
  column : t'.termColumn = t.termColumn
  cursor : t'.cursor = t.cursor
  cells : ∀ k, t'.termBuffer k = t.termBuffer k

/-- The cell of the cursor holds what a backspace leaves there. -/
def Blank (t : Terminal) : Prop := t.termBuffer (cellOf t) = vgaEntry 0 t.termColor

instance (t : Terminal) : Decidable (Blank t) := by unfold Blank; infer_instance

/-- A key that appends a character and a backspace behind it leave the line as it was, and the
terminal if the cell of the cursor was blank. -/
theorem key_backspace {past : UInt8 → UInt8} {s : EchoState} {d d' : UInt8} (h : EchoInv s)
    (happ : Appends past s.kbd 1 d) (hfits : Fits past s d)
    (herase : Erases past (s.key past d).kbd 1 d') (hfits' : Fits past (s.key past d) d') :
    cstr ((s.key past d).key past d').kbd.conInput = cstr s.kbd.conInput ∧
      (Restored s.kbd.term ((s.key past d).key past d').kbd.term ↔ Blank s.kbd.term) := by
  obtain ⟨-, hcursor, -, -, -⟩ := h
  obtain ⟨⟨hrow, hcol, hone⟩, hreg⟩ := hcursor
  have hchar := echoed_char happ.1
  have hkey : (s.key past d).kbd = keyboardHandlerMain past s.kbd 1 d := rfl
  have hback : ((s.key past d).key past d').kbd =
      keyboardHandlerMain past (s.key past d).kbd 1 d' := rfl
  rw [handler_of_appends happ] at hkey
  rw [handler_of_erases herase] at hback
  have hpmt := hfits'.1 herase
  set c := shifted s.kbd d (keyboardMapAt past d) with hc
  simp only [List.mem_cons, List.not_mem_nil, or_false, not_or] at hchar
  obtain ⟨⟨⟨hrow', hcol', hone'⟩, -⟩, hcell, -⟩ :=
    putchar_plain ⟨hrow, hcol, hone⟩ hchar.1 hchar.2.2 hchar.2.1 (hfits.2 happ)
  have hcases := lift_cases ⟨hrow, hcol, hone⟩ hchar.2.2 hchar.2.1
  have hterm : (s.key past d).kbd.term = termPutchar s.kbd.term c := by rw [hkey]
  rw [hterm] at hpmt
  -- the cursor is still in the row of the key
  have hnext : s.kbd.term.termColumn + 1 ≠ 90 := by
    simp only [cellOf, vgaWidth] at hcell
    omega
  have hstored : termPutchar s.kbd.term c = stored s.kbd.term c := by
    rw [termPutchar_store hchar.2.2 hchar.2.1 ⟨hrow.1, by omega⟩ hcol]
    apply termFollow_of_le
    simp only [stored, hnext, if_false]
    exact hrow.2
  rw [hstored] at hpmt hrow' hcol'
  have hbackspace := termPutchar_backspace hrow' hcol' hpmt
  simp only [stored, hnext, if_false] at hpmt
  refine ⟨?_, ?_⟩
  · rw [hback]
    simp only [hkey, cstr_cut, cstr_strcat _ hchar.1, List.dropLast_concat]
  · rw [hback, hterm, hstored, hbackspace]
    have hcol1 : s.kbd.term.termColumn + 1 - 1 = s.kbd.term.termColumn := Nat.add_sub_cancel _ _
    have hcells : (erased (stored s.kbd.term c)).termBuffer =
        Function.update s.kbd.term.termBuffer (cellOf s.kbd.term)
          (vgaEntry 0 s.kbd.term.termColor) := by
      simp only [erased, stored, hnext, if_false, hcol1, cellOf, vgaWidth, Function.update_idem]
    constructor
    · intro hrestored
      have hcell' := hrestored.cells (cellOf s.kbd.term)
      rw [hcells, Function.update_self] at hcell'
      exact hcell'.symm
    · intro hblank
      refine ⟨?_, ?_, ?_, fun k => ?_⟩
      · simp only [erased, stored, hnext, if_false]
      · simp only [erased, stored, hnext, if_false, hcol1]
      · rw [hreg (by omega)]
        simp only [erased, stored, hnext, if_false, hcol1, cellOf, vgaWidth]
      · rw [hcells, ← hblank, Function.update_eq_self]

/-! ### Runs -/

/-- After a prompt of one character, with an empty line and `kbd_get_string` waiting, every run
of keys other than Enter that the screen can follow keeps the cells from the prompt up to the
cursor equal to the line; and a backspace behind a key restores the line, and the terminal
exactly if the cell of the cursor was blank before. -/
theorem echo_agrees {past : UInt8 → UInt8} {k : Keyboard} {t : Terminal} {p : UInt8}
    {tr : List (EchoState × UInt8)} {s : EchoState} (hp : p ∉ [0, 8, 10]) (ht : OnText t)
    (hterm : k.term = prompt t [p]) (hempty : cstr k.conInput = []) (hpos : k.bufpos = 0)
    (hreq : k.request = kbdString) (hrun : Run (EchoStep past) ⟨k, cellOf k.term⟩ tr s)
    (hfits : ∀ q ∈ tr, Fits past q.1 q.2) :
    ∀ x ∈ visited tr s, x.Agrees ∧ ∀ d d', Appends past x.kbd 1 d → Fits past x d →
      Erases past (x.key past d).kbd 1 d' → Fits past (x.key past d) d' →
      cstr ((x.key past d).key past d').kbd.conInput = cstr x.kbd.conInput ∧
        (Restored x.kbd.term ((x.key past d).key past d').kbd.term ↔ Blank x.kbd.term) := by
  simp only [List.mem_cons, List.not_mem_nil, or_false, not_or] at hp
  have hcursor : CursorOk k.term := by
    rw [hterm]
    exact prompt_cursorOk ht hp.1 hp.2.2 hp.2.1
  have hlen : strlen k.conInput = 0 := by
    change (cstr k.conInput).length = 0
    rw [hempty, List.length_nil]
  have hinv : EchoInv ⟨k, cellOf k.term⟩ := by
    refine ⟨hreq, hcursor, ⟨by simp only [hlen]; omega, by simp only [hlen]; omega⟩, ⟨?_, ?_⟩, ?_⟩
    · have := hcursor.row
      simp only [cellOf, vgaWidth]
      omega
    · simp only [hlen]
      rfl
    · simp only [hlen, hempty]
      rfl
  intro x hx
  have hx' : EchoInv x := hrun.invariant_visited (G := Fits past)
    (fun _ _ _ h hg hs => step_echoInv h hg hs) hinv hfits x hx
  exact ⟨hx'.agrees, fun d d' happ hf herase hf' => key_backspace hx' happ hf herase hf'⟩

instance (past : UInt8 → UInt8) (s : EchoState) (d : UInt8) : Decidable (Fits past s d) := by
  unfold Fits; infer_instance
instance (s : EchoState) : Decidable s.Agrees := by unfold EchoState.Agrees; infer_instance

/-- `kbd_get_string` waits behind the prompt `>` of a screen that `term_cls` has cleared. -/
def clearedKbd : Keyboard :=
  ⟨List.replicate 130 0, 0, kbdString, 97, 0, 0, false, prompt plainScreen [62]⟩

/-- `ab`, a backspace, `cd`, two backspaces and `e`. -/
def someKeys : List UInt8 := [30, 48, 14, 46, 32, 14, 14, 18]

/-- The state before these keys. -/
def clearedEcho : EchoState := ⟨clearedKbd, cellOf clearedKbd.term⟩

/-- The theorem for these keys, which leave the line `ae`. -/
theorem echo_agrees_keys :
    cstr (someKeys.foldl (EchoState.key fun _ => 0) clearedEcho).kbd.conInput = [97, 101] ∧
      ∀ x ∈ visited (traceOf (EchoState.key fun _ => 0) clearedEcho someKeys)
        (someKeys.foldl (EchoState.key fun _ => 0) clearedEcho),
        x.Agrees ∧ ∀ d d', Appends (fun _ => 0) x.kbd 1 d → Fits (fun _ => 0) x d →
          Erases (fun _ => 0) (x.key (fun _ => 0) d).kbd 1 d' →
          Fits (fun _ => 0) (x.key (fun _ => 0) d) d' →
          cstr ((x.key (fun _ => 0) d).key (fun _ => 0) d').kbd.conInput =
              cstr x.kbd.conInput ∧
            (Restored x.kbd.term ((x.key (fun _ => 0) d).key (fun _ => 0) d').kbd.term ↔
              Blank x.kbd.term) := by
  have hkeys : ∀ p ∈ traceOf (EchoState.key fun _ => 0) clearedEcho someKeys, p.2 ≠ 28 := by
    decide +kernel
  have hfits : ∀ p ∈ traceOf (EchoState.key fun _ => 0) clearedEcho someKeys,
      Fits (fun _ => 0) p.1 p.2 := by decide +kernel
  refine ⟨by decide +kernel, ?_⟩
  exact echo_agrees (show (62 : UInt8) ∉ [0, 8, 10] by decide)
    (show OnText plainScreen from ⟨by decide, by decide, rfl⟩) rfl (by decide) rfl rfl
    (.of_events someKeys _ fun p hp => .key p.1 p.2 (hkeys p hp)) hfits

/-! ### A line that wraps -/

/-- A blank screen with text up to column 87 of the first row. -/
def firstRow : Terminal := ⟨1, 87, 7, true, 1, 0, fun _ => vgaEntry 32 7⟩

/-- There `prompt` prints `>`, and `kbd_get_string` waits. -/
def promptedKbd : Keyboard :=
  ⟨List.replicate 130 0, 0, kbdString, 97, 0, 0, false, prompt firstRow [62]⟩

def prompted : EchoState := ⟨promptedKbd, cellOf promptedKbd.term⟩

/-- The keys `a` and `b` fill the first row; the backspace behind them cuts the line, but not the
screen. -/
theorem echo_disagrees :
    ¬ ∀ (past : UInt8 → UInt8) (k : Keyboard) (t : Terminal) (p : UInt8)
      (tr : List (EchoState × UInt8)) (s : EchoState), p ∉ [0, 8, 10] → OnText t →
      k.term = prompt t [p] → cstr k.conInput = [] → k.bufpos = 0 → k.request = kbdString →
      Run (EchoStep past) ⟨k, cellOf k.term⟩ tr s → ∀ x ∈ visited tr s, x.Agrees := by
  intro h
  have h30 : (30 : UInt8) ≠ 28 := by decide
  have h48 : (48 : UInt8) ≠ 28 := by decide
  have h14 : (14 : UInt8) ≠ 28 := by decide
  have hrun := Run.cons (show EchoStep (fun _ => 0) prompted 30 _ from .key prompted 30 h30)
    (.cons (.key _ 48 h48) (.single (.key _ 14 h14)))
  have hempty : cstr promptedKbd.conInput = [] := by decide
  have hagrees := h (fun _ => 0) promptedKbd firstRow 62 _ _ (by decide)
    ⟨by decide, by decide, rfl⟩ rfl hempty rfl rfl hrun _ (List.mem_append_right _
      (List.mem_singleton_self _))
  exact absurd hagrees (by decide +kernel)

end Owmice.Console
