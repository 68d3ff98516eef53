import Owmice.CString
import Owmice.Drawing
import Owmice.TerminalBounds

/-! # The title in the status bar (`term_set_title` in `screen/terminal.h`)

`term_set_title` puts the cursor into row 0, so far to the left of its end as the title has
bytes, and writes the title through `term_putchar`.  A title of more than 90 bytes starts at a
column below 0, which is a position far behind the screen; a new line takes the rest of the title
to row 1, where only backspaces that find the cursor in the prompt's columns leave no trace.

* `inBar_page_iff`, `inBar_row_iff`, `inBar_left_iff`: when text that starts in the text rows, in
  the bar and left of it stays within the bar;
* `termSetTitle_iff`: the titles that change the bar only. -/

namespace Owmice.Screen

open Logged

/-- `write_statusbar`. -/
def writeStatusbar (d : Display) (x : ℕ) : Display where
  term := { d.term with termRow := 0, termColumn := x }
  lastcol := d.term.termColumn
  lastrow := d.term.termRow

/-- `statusbar_rev`. -/
def statusbarRev (d : Display) : Display :=
  { d with term := { d.term with termRow := d.lastrow, termColumn := d.lastcol } }

/-- `term_writestring`. -/
def termWritestring (t : Terminal) (data : List UInt8) : Terminal :=
  termWrite t (data.take (strlen data))

/-- `term_set_title`; the bar's colours are black on `STATUSBAR_BG`, a light grey. -/
def termSetTitle (d : Display) (str : List UInt8) : Display :=
  let d := writeStatusbar d (sub32 vgaWidth (strlen str))
  let color := vgaEntryColor 0 7
  let tmp := d.term.termColor
  let t := termWritestring { d.term with termColor := color } str
  statusbarRev { d with term := { t with termColor := tmp } }

/-! ### The title with its writes -/

def termWritestringM (t : Terminal) (data : List UInt8) : Logged ℕ Terminal :=
  termWriteM t (data.take (strlen data))

/-- `term_set_title`. -/
def termSetTitleM (d : Display) (str : List UInt8) : Logged ℕ Display := do
  let d := writeStatusbar d (sub32 vgaWidth (strlen str))
  let color := vgaEntryColor 0 7
  let tmp := d.term.termColor
  let t ← termWritestringM { d.term with termColor := color } str
  pure (statusbarRev { d with term := { t with termColor := tmp } })

theorem termSetTitleM_val (d : Display) (str : List UInt8) :
    (termSetTitleM d str).val = termSetTitle d str := by
  unfold termSetTitleM termSetTitle
  rw [bind_val, pure_val, termWritestringM, termWriteM_val]
  rfl

/-! ### Cells that are not written -/

section Frames

variable {t : Terminal}

theorem storeM_frames (b : ℕ → UInt16) (index : ℕ) (v : UInt16) :
    Frames b id (storeM b index v) := by
  intro k hk
  rw [storeM_val, id]
  apply Function.update_of_ne
  rintro rfl
  exact hk List.mem_cons_self

theorem termScrollM_frames (t : Terminal) :
    Frames t.termBuffer Terminal.termBuffer (termScrollM t) := by
  unfold termScrollM
  split
  · apply frames_bind id
    · apply frames_foldlM id
      intro b ii
      apply frames_foldlM id
      intro b i
      exact storeM_frames b _ _
    · intro b
      exact frames_pure fun _ => rfl
  · exact frames_pure fun _ => rfl

theorem termPutentryatM_frames (t : Terminal) (c color : UInt8) (x y : ℕ) :
    Frames t.termBuffer Terminal.termBuffer (termPutentryatM t c color x y) := by
  unfold termPutentryatM
  split
  · exact frames_pure fun _ => rfl
  split
  · exact frames_pure fun _ => rfl
  by_cases h8 : c = 8
  · simp only [h8, if_true]
    apply frames_bind _ _ (storeM_frames _ _ _)
    intro b
    apply frames_pure
    intro k
    split
    · rfl
    · rfl
  · simp only [h8, if_false]
    apply frames_bind _ _ (storeM_frames _ _ _)
    intro b
    apply frames_pure
    intro k
    split
    · rfl
    · rfl

theorem termWriteM_frames (t : Terminal) (data : List UInt8) :
    Frames t.termBuffer Terminal.termBuffer (termWriteM t data) := by
  apply frames_foldlM
  intro t c
  apply frames_bind _ _ (termPutentryatM_frames t c _ _ _)
  intro t'
  have hbuf : (termAdvance t').termBuffer = t'.termBuffer := by
    unfold termAdvance
    simp only
    split
    · rfl
    · rfl
  unfold termFollowM
  split
  · intro k hk
    rw [termScrollM_frames _ k hk, ← hbuf]
  · exact frames_pure fun k => congrFun hbuf k

end Frames

/-! ### One character -/

/-- All writes are to the bar. -/
def InBar (x : Logged ℕ Terminal) : Prop := ∀ k ∈ x.log, k < 90

/-- The store of a character in the cell in column `x` of row `y`. -/
def place (t : Terminal) (c color : UInt8) (x y : ℕ) : Terminal :=
  { t with
    cursor := if y = 0 then t.cursor
      else (y * vgaWidth + w32 ((if c = 0 then sub32 x 1 else x) + 1)) % 65536
    termBuffer := Function.update t.termBuffer (w32 (y * vgaWidth + x)) (vgaEntry c color) }

/-- `term_putchar` before the test for the last text row. -/
def moved (t : Terminal) (c : UInt8) : Terminal :=
  termAdvance (termPutentryat t c t.termColor t.termColumn t.termRow)

section Putchar

variable {t : Terminal} {c : UInt8}

theorem termPutchar_moved (t : Terminal) (c : UInt8) :
    termPutchar t c = termFollow (moved t c) := rfl

theorem termAdvance_next (h : w32 (t.termColumn + 1) ≠ 90) :
    termAdvance t = { t with termColumn := w32 (t.termColumn + 1) } := by
  unfold termAdvance vgaWidth
  exact if_neg h

theorem termAdvance_wrap (h : w32 (t.termColumn + 1) = 90) :
    termAdvance t = { t with termColumn := 0, termRow := w32 (t.termRow + 1) } := by
  unfold termAdvance vgaWidth
  exact if_pos h

theorem moved_newline (t : Terminal) :
    moved t 10 = { t with termRow := w32 (t.termRow + 1), termColumn := 0 } := by
  have hnext : w32 (sub32 0 1 + 1) = 0 := by decide +kernel
  unfold moved termPutentryat
  rw [if_pos rfl, termAdvance_next]
  · simp only [hnext]
  · simp only [hnext]
    decide

/-- A backspace in the prompt's columns. -/
theorem moved_kept (h : t.termColumn ≤ t.pmtlen) : moved t 8 = termAdvance t := by
  unfold moved termPutentryat
  rw [if_neg (by decide), if_pos ⟨rfl, h⟩]

/-- A backspace to the right of them. -/
theorem moved_erase (h : t.pmtlen < t.termColumn) :
    moved t 8 = termAdvance (place { t with termColumn := sub32 t.termColumn 2 } 0 t.termColor
      (sub32 t.termColumn 1) t.termRow) := by
  unfold moved termPutentryat place
  rw [if_neg (by decide), if_neg fun hk => absurd hk.2 (by omega)]
  simp only [if_true]
  by_cases hy : t.termRow = 0
  · rw [if_neg (not_not.mpr hy), if_pos hy]
  · rw [if_pos hy, if_neg hy, termMovecur]

theorem moved_plain (h10 : c ≠ 10) (h8 : c ≠ 8) :
    moved t c = termAdvance (place t c t.termColor t.termColumn t.termRow) := by
  unfold moved termPutentryat place
  rw [if_neg h10, if_neg fun h => h8 h.1]
  simp only [h8, if_false]
  by_cases hy : t.termRow = 0
  · rw [if_neg (not_not.mpr hy), if_pos hy]
  · rw [if_pos hy, if_neg hy, termMovecur]

theorem termAdvance_scrollTerm (t : Terminal) : (termAdvance t).scrollTerm = t.scrollTerm := by
  unfold termAdvance
  simp only
  split
  · rfl
  · rfl

theorem moved_scrollTerm (t : Terminal) (c : UInt8) : (moved t c).scrollTerm = t.scrollTerm := by
  by_cases h10 : c = 10
  · rw [h10, moved_newline]
  by_cases h8 : c = 8
  · subst h8
    by_cases hk : t.termColumn ≤ t.pmtlen
    · rw [moved_kept hk, termAdvance_scrollTerm]
    · rw [moved_erase (Nat.lt_of_not_le hk), termAdvance_scrollTerm, place]
  · rw [moved_plain h10 h8, termAdvance_scrollTerm, place]

/-! ### Writes of one character -/

theorem termFollowM_inBar_iff :
    InBar (termFollowM t) ↔ t.termRow ≤ 28 ∨ t.scrollTerm = false := by
  unfold InBar termFollowM vgaHeight
  by_cases hrow : 28 < t.termRow
  · rw [if_pos hrow]
    by_cases hs : t.scrollTerm = true
    · -- the copy of row 2 writes the first cell of row 1
      have hrowlog : ∀ b ii k, k ∈ (copyRowM b ii).log ↔
          ∃ i ∈ List.range vgaWidth, k = ii * vgaWidth + i := by
        intro b ii k
        apply mem_log_foldlM
        intro b' i k'
        rw [storeM, bind_log, access_log, pure_log, List.append_nil, List.mem_singleton]
      have hmem : 90 ∈ (termScrollM { t with termRow := t.termRow - 1 }).log := by
        unfold termScrollM
        rw [if_pos hs, bind_log, List.mem_append, mem_log_foldlM hrowlog]
        exact .inl ⟨1, by decide, 0, by decide, rfl⟩
      constructor
      · intro h
        exact absurd (h 90 hmem) (by decide)
      · rintro (h | h)
        · omega
        · rw [hs] at h
          cases h
    · rw [termScrollM, if_neg hs]
      simp only [Bool.not_eq_true] at hs
      simp [hs]
  · rw [if_neg hrow]
    simp only [pure_log, List.not_mem_nil, false_implies, implies_true, true_iff]
    exact .inl (by omega)

theorem termPutentryatM_log (t : Terminal) (c color : UInt8) (x y : ℕ) :
    (termPutentryatM t c color x y).log =
      if c = 10 ∨ c = 8 ∧ t.termColumn ≤ t.pmtlen then []
      else [w32 (y * 90 + if c = 8 then sub32 x 1 else x)] := by
  unfold termPutentryatM
  by_cases h10 : c = 10
  · rw [if_pos h10, if_pos (.inl h10)]
    rfl
  rw [if_neg h10]
  by_cases hkept : c = 8 ∧ t.termColumn ≤ t.pmtlen
  · rw [if_pos hkept, if_pos (.inr hkept)]
    rfl
  have hneither : ¬ (c = 10 ∨ c = 8 ∧ t.termColumn ≤ t.pmtlen) := by
    rintro (h | h)
    · exact h10 h
    · exact hkept h
  rw [if_neg hkept, if_neg hneither]
  by_cases h8 : c = 8
  · rw [if_pos h8, if_pos h8]
    rfl
  · rw [if_neg h8, if_neg h8]
    rfl

/-- A character writes to the bar only when its own cell is there and nothing is scrolled. -/
theorem inBar_putchar_iff : InBar (termPutcharM t c) ↔
    (¬ (c = 10 ∨ c = 8 ∧ t.termColumn ≤ t.pmtlen) →
        w32 (t.termRow * 90 + if c = 8 then sub32 t.termColumn 1 else t.termColumn) < 90) ∧
      ((moved t c).termRow ≤ 28 ∨ t.scrollTerm = false) := by
  have hfollow := termFollowM_inBar_iff (t := moved t c)
  rw [moved_scrollTerm] at hfollow
  rw [← hfollow]
  unfold InBar termPutcharM
  rw [bind_log, termPutentryatM_val, termPutentryatM_log]
  change (∀ k ∈ _ ++ (termFollowM (moved t c)).log, k < 90) ↔ _
  simp only [List.mem_append, or_imp, forall_and]
  apply and_congr_left
  intro _
  split
  case isTrue h => simp [h]
  case isFalse h => simp [h]

/-- A backspace that leaves no trace. -/
theorem inBar_kept_iff (h : t.termColumn ≤ t.pmtlen) : InBar (termPutcharM t 8) ↔
    (termAdvance t).termRow ≤ 28 ∨ t.scrollTerm = false := by
  rw [inBar_putchar_iff, moved_kept h]
  exact and_iff_right fun hstore => absurd (.inr ⟨rfl, h⟩) hstore

theorem inBar_write_cons {data : List UInt8} : InBar (termWriteM t (c :: data)) ↔
    InBar (termPutcharM t c) ∧ InBar (termWriteM (termPutchar t c) data) := by
  unfold InBar termWriteM
  rw [List.foldlM_cons, bind_log, termPutcharM_val]
  simp only [List.mem_append, or_imp, forall_and]

end Putchar

/-! ### Lines -/

/-- The lines of a text. -/
def lines (text : List UInt8) : List (List UInt8) := text.splitOn 10

/-- Lines that leave no trace: backspaces that all find the cursor in the prompt's columns. -/
def Traceless (pmtlen : ℕ) (ls : List (List UInt8)) : Prop :=
  ∀ l ∈ ls, (∀ c ∈ l, c = 8) ∧ (l.length ≤ pmtlen + 1 ∨ 89 ≤ pmtlen)

/-- The rows that the lines take. -/
def rows (ls : List (List UInt8)) : ℕ := (ls.map fun l => l.length / 90 + 1).sum

/-- Lines behind row `row` that leave no trace and do not scroll the text. -/
def Invisible (pmtlen : ℕ) (scrollTerm : Bool) (row : ℕ) (ls : List (List UInt8)) : Prop :=
  Traceless pmtlen ls ∧ (scrollTerm = false ∨ row + rows ls ≤ 28)

section Lines

variable {pmtlen row : ℕ} {scrollTerm : Bool} {text l : List UInt8} {ls : List (List UInt8)}

theorem lines_newline (text : List UInt8) : lines (10 :: text) = [] :: lines text := by
  have hnil : (10 : UInt8) ∉ ([] : List UInt8) := List.not_mem_nil
  exact List.splitOn_append_cons_self_of_not_mem hnil text

theorem exists_lines (text : List UInt8) : ∃ l ls, lines text = l :: ls :=
  List.exists_cons_of_ne_nil (List.splitOn_ne_nil 10 text)

/-- Characters other than new lines lengthen the first line. -/
theorem lines_append {s : List UInt8} (hs : 10 ∉ s) (h : lines text = l :: ls) :
    lines (s ++ text) = (s ++ l) :: ls := by
  induction s with
  | nil => exact h
  | cons c s ih =>
      rw [List.mem_cons, not_or] at hs
      specialize ih hs.2
      unfold lines at ih ⊢
      rw [List.cons_append, List.splitOn_cons_eq_if_modifyHead, ih, if_neg]
      · rfl
      · rw [beq_iff_eq]
        exact fun h => hs.1 h.symm

theorem lines_cons {c : UInt8} (h10 : c ≠ 10) (h : lines text = l :: ls) :
    lines (c :: text) = (c :: l) :: ls :=
  lines_append (s := [c]) (by simpa using h10.symm) h

@[simp] theorem rows_cons : rows (l :: ls) = l.length / 90 + 1 + rows ls := by
  rw [rows, List.map_cons, List.sum_cons, rows]

theorem invisible_nil (h : row ≤ 28) : Invisible pmtlen scrollTerm row [] :=
  ⟨fun _ h => absurd h List.not_mem_nil, .inr h⟩

/-- A line that is no longer than a row. -/
theorem invisible_cons_iff (hall : ∀ c ∈ l, c = 8) (hlen : l.length ≤ 89)
    (hpmt : l.length ≤ pmtlen + 1 ∨ 89 ≤ pmtlen) :
    Invisible pmtlen scrollTerm row (l :: ls) ↔ Invisible pmtlen scrollTerm (row + 1) ls := by
  have hzero : l.length / 90 = 0 := Nat.div_eq_of_lt (by omega)
  have hhead : (∀ c ∈ l, c = 8) ∧ (l.length ≤ pmtlen + 1 ∨ 89 ≤ pmtlen) := ⟨hall, hpmt⟩
  unfold Invisible Traceless
  rw [List.forall_mem_cons, and_iff_right hhead, rows_cons, hzero, Nat.zero_add, Nat.add_assoc]

/-- A full row of backspaces. -/
theorem invisible_wrap_iff (hpmt : 89 ≤ pmtlen) :
    Invisible pmtlen scrollTerm row ((List.replicate 90 8 ++ l) :: ls) ↔
      Invisible pmtlen scrollTerm (row + 1) (l :: ls) := by
  have hall : (∀ c ∈ List.replicate 90 (8 : UInt8) ++ l, c = 8) ↔ ∀ c ∈ l, c = 8 := by
    rw [List.forall_mem_append]
    exact and_iff_right fun c hc => List.eq_of_mem_replicate hc
  have hrows : (90 + l.length) / 90 = l.length / 90 + 1 := by omega
  unfold Invisible Traceless
  rw [List.forall_mem_cons, List.forall_mem_cons, rows_cons, rows_cons, hall,
    List.length_append, List.length_replicate, hrows]
  simp only [hpmt, or_true, and_true]
  rw [show row + (l.length / 90 + 1 + 1 + rows ls) = row + 1 + (l.length / 90 + 1 + rows ls) by omega]

end Lines

/-! ### Text in the text rows -/

section Text

variable {t : Terminal} {c : UInt8} {data : List UInt8}

/-- The cursor goes to the next row. -/
theorem inBar_next_iff (hrow : 1 ≤ t.termRow ∧ t.termRow ≤ 28)
    (ih : ∀ t' : Terminal, t'.pmtlen = t.pmtlen → t'.scrollTerm = t.scrollTerm →
      1 ≤ t'.termRow ∧ t'.termRow ≤ 28 → t'.termColumn = 0 →
        (InBar (termWriteM t' data) ↔
          Invisible t.pmtlen t.scrollTerm (t'.termRow - 1) (lines data))) :
    ((t.termRow + 1 ≤ 28 ∨ t.scrollTerm = false) ∧
        InBar (termWriteM (termFollow { t with termRow := t.termRow + 1, termColumn := 0 }) data)) ↔
      Invisible t.pmtlen t.scrollTerm t.termRow (lines data) := by
  by_cases hlast : t.termRow + 1 ≤ 28
  · have h := ih { t with termRow := t.termRow + 1, termColumn := 0 } rfl rfl ⟨by simp, hlast⟩ rfl
    rw [termFollow_of_le (t := { t with termRow := t.termRow + 1, termColumn := 0 }) hlast, h]
    simp only [hlast, true_or, true_and, Nat.add_sub_cancel]
  · have h28 : t.termRow = 28 := by omega
    by_cases hs : t.scrollTerm = true
    · -- the text is scrolled, and each line takes a row
      obtain ⟨l, ls, hlines⟩ := exists_lines data
      rw [hlines, Invisible, rows_cons, hs, h28]
      constructor
      · rintro ⟨h | h, -⟩
        · omega
        · cases h
      · rintro ⟨-, h | h⟩
        · cases h
        · omega
    · have hfollow : termFollow { t with termRow := t.termRow + 1, termColumn := 0 } =
          { t with termRow := 28, termColumn := 0 } := by
        simp [termFollow, termScroll, hs, h28, vgaHeight]
      have h := ih { t with termRow := 28, termColumn := 0 } rfl rfl ⟨by simp, by simp⟩ rfl
      simp only [Bool.not_eq_true] at hs
      rw [hfollow, h, Invisible, Invisible, hs]
      simp only [or_true, true_or, true_and]

/-- A store in the text rows leaves the bar. -/
theorem not_inBar_store (hrow : 1 ≤ t.termRow ∧ t.termRow ≤ 28) (hcol : t.termColumn ≤ 89)
    (h10 : c ≠ 10) (hkept : ¬ (c = 8 ∧ t.termColumn ≤ t.pmtlen)) :
    ¬ InBar (termPutcharM t c) := by
  rw [inBar_putchar_iff]
  intro h
  have hidx := h.1 (by rintro (h | h); exacts [h10 h, hkept h])
  by_cases h8 : c = 8
  · have hpos : t.pmtlen < t.termColumn := by
      by_contra hle
      exact hkept ⟨h8, by omega⟩
    rw [if_pos h8, sub32_of_le (by omega) (by omega), w32_of_lt (by omega)] at hidx
    omega
  · rw [if_neg h8, w32_of_lt (by omega)] at hidx
    omega

/-- Text from a cursor in the text rows, before which the row holds backspaces only. -/
theorem inBar_page_iff : ∀ {data : List UInt8} {t : Terminal},
    1 ≤ t.termRow ∧ t.termRow ≤ 28 → t.termColumn ≤ 89 →
    (t.termColumn ≤ t.pmtlen + 1 ∨ 89 ≤ t.pmtlen) →
      (InBar (termWriteM t data) ↔ Invisible t.pmtlen t.scrollTerm (t.termRow - 1)
        (lines (List.replicate t.termColumn 8 ++ data)))
  | [], t, hrow, hcol, hpmt => by
      have hback : (10 : UInt8) ∉ List.replicate t.termColumn 8 := by simp
      have hempty : lines [] = [[]] := rfl
      have hlines := lines_append hback hempty
      have hall : ∀ c ∈ List.replicate t.termColumn (8 : UInt8), c = 8 := fun c hc =>
        List.eq_of_mem_replicate hc
      rw [hlines, List.append_nil, invisible_cons_iff hall (by simpa using hcol) (by simpa using hpmt)]
      constructor
      · intro _
        exact invisible_nil (by omega)
      · intro _ k hk
        cases hk
  | c :: data, t, hrow, hcol, hpmt => by
      have hback : (10 : UInt8) ∉ List.replicate t.termColumn 8 := by simp
      have hall : ∀ c ∈ List.replicate t.termColumn (8 : UInt8), c = 8 := fun c hc =>
        List.eq_of_mem_replicate hc
      have ih := fun t' => @inBar_page_iff data t'
      have hnext := @inBar_next_iff t data hrow fun t' hp hs hr hc => by
        rw [ih t' hr (by omega) (.inl (by omega)), hp, hs, hc]
        rfl
      obtain ⟨l, ls, hl⟩ := exists_lines data
      have hrow' : w32 (t.termRow + 1) = t.termRow + 1 := w32_of_lt (by omega)
      have hrow1 : t.termRow - 1 + 1 = t.termRow := by omega
      rw [inBar_write_cons]
      by_cases h10 : c = 10
      · -- a new line
        subst h10
        have hlines : lines (List.replicate t.termColumn 8 ++ 10 :: data) =
            List.replicate t.termColumn 8 :: lines data :=
          List.splitOn_append_cons_self_of_not_mem hback data
        rw [hlines, invisible_cons_iff hall (by simpa using hcol) (by simpa using hpmt), hrow1, ← hnext,
          inBar_putchar_iff, termPutchar_moved, moved_newline, hrow']
        simp
      by_cases hkept : c = 8 ∧ t.termColumn ≤ t.pmtlen
      · obtain ⟨rfl, hle⟩ := hkept
        rw [inBar_kept_iff hle, termPutchar_moved, moved_kept hle]
        have hshift : List.replicate t.termColumn (8 : UInt8) ++ 8 :: data =
            List.replicate (t.termColumn + 1) 8 ++ data := by
          rw [List.replicate_succ', List.append_assoc, List.singleton_append]
        rw [hshift]
        by_cases hlast : t.termColumn = 89
        · -- the last column, which only a prompt of 89 columns keeps
          have hwrap := termAdvance_wrap (t := t) (by rw [hlast]; exact w32_of_lt (by omega))
          rw [hwrap, hrow', hlast, lines_append (s := List.replicate 90 8) (by simp) hl,
            invisible_wrap_iff (by omega), hrow1, ← hl, ← hnext]
        · have hcol' : w32 (t.termColumn + 1) = t.termColumn + 1 := w32_of_lt (by omega)
          have hadv := termAdvance_next (t := t) (by omega)
          rw [hcol'] at hadv
          rw [hadv, termFollow_of_le (t := { t with termColumn := t.termColumn + 1 }) hrow.2]
          have h := ih { t with termColumn := t.termColumn + 1 } hrow (by simp only; omega)
            (.inl (by simp only; omega))
          simp only at h
          rw [h]
          exact and_iff_right (.inl hrow.2)
      · -- a store, of a character or of a blank
        constructor
        · intro h
          exact absurd h.1 (not_inBar_store hrow hcol h10 hkept)
        · intro h
          have hlines := lines_append hback (lines_cons h10 hl)
          rw [hlines] at h
          obtain ⟨h8, hlen⟩ := h.1 _ List.mem_cons_self
          have hc8 : c = 8 := h8 c (by simp)
          have hpos : t.pmtlen < t.termColumn := by
            by_contra hle
            exact hkept ⟨hc8, by omega⟩
          simp only [List.length_append, List.length_replicate, List.length_cons] at hlen
          omega

/-! ### Text in the bar -/

/-- In the bar, a character other than a new line takes the cursor on by one cell at most. -/
theorem moved_bar (h10 : c ≠ 10) (hrow : t.termRow = 0) (hcol : t.termColumn ≤ 89) :
    (moved t c).pmtlen = t.pmtlen ∧
      ((moved t c).termRow = 0 ∧ (moved t c).termColumn ≤ t.termColumn + 1 ∨
        (moved t c).termRow = 1 ∧ t.termColumn = 89) := by
  have hadvance : ∀ t' : Terminal, t'.pmtlen = t.pmtlen → t'.termRow = 0 →
      w32 (t'.termColumn + 1) ≤ t.termColumn + 1 →
      (termAdvance t').pmtlen = t.pmtlen ∧
        ((termAdvance t').termRow = 0 ∧ (termAdvance t').termColumn ≤ t.termColumn + 1 ∨
          (termAdvance t').termRow = 1 ∧ t.termColumn = 89) := by
    intro t' hp hr hc
    by_cases hw : w32 (t'.termColumn + 1) = 90
    · rw [termAdvance_wrap hw, hr]
      exact ⟨hp, .inr ⟨w32_of_lt (by omega), by omega⟩⟩
    · rw [termAdvance_next hw]
      exact ⟨hp, .inl ⟨hr, hc⟩⟩
  have hplain : w32 (t.termColumn + 1) ≤ t.termColumn + 1 := by
    rw [w32_of_lt (by omega)]
  by_cases h8 : c = 8
  · subst h8
    by_cases hk : t.termColumn ≤ t.pmtlen
    · rw [moved_kept hk]
      exact hadvance t rfl hrow hplain
    · rw [moved_erase (Nat.lt_of_not_le hk)]
      apply hadvance
      · simp only [place]
      · simp only [place, hrow]
      · have hstep : w32 (sub32 t.termColumn 2 + 1) = t.termColumn - 1 := by
          simp only [w32, sub32]
          omega
        simp only [place, hstep]
        omega
  · rw [moved_plain h10 h8]
    apply hadvance
    · simp only [place]
    · simp only [place, hrow]
    · simpa only [place] using hplain

/-- A new line in the bar or left of it. -/
theorem inBar_newline_iff (hrow : t.termRow = 0) :
    InBar (termWriteM t (10 :: data)) ↔ Invisible t.pmtlen t.scrollTerm 0 (lines data) := by
  have hone : w32 (t.termRow + 1) = 1 := by
    rw [hrow]
    exact w32_of_lt (by omega)
  have hfollow := termFollow_of_le (t := { t with termRow := 1, termColumn := 0 }) (by simp)
  have hput : InBar (termPutcharM t 10) := by
    rw [inBar_putchar_iff, moved_newline, hone]
    exact ⟨fun h => absurd (.inl rfl) h, .inl (by simp)⟩
  rw [inBar_write_cons, and_iff_right hput, termPutchar_moved, moved_newline, hone, hfollow,
    inBar_page_iff ⟨le_rfl, by simp⟩ (Nat.zero_le _) (.inl (Nat.zero_le _))]
  rfl

/-- Text that fits into the rest of the bar. -/
theorem inBar_row_iff : ∀ {data : List UInt8} {t : Terminal}, t.termRow = 0 →
    t.termColumn + data.length ≤ 90 →
      (InBar (termWriteM t data) ↔ Invisible t.pmtlen t.scrollTerm 0 (lines data).tail)
  | [], t, _, _ => by
      constructor
      · intro _
        exact invisible_nil (Nat.zero_le _)
      · intro _ k hk
        cases hk
  | c :: data, t, hrow, hlen => by
      rw [List.length_cons] at hlen
      by_cases h10 : c = 10
      · rw [h10, inBar_newline_iff hrow, lines_newline, List.tail_cons]
      obtain ⟨hpmt, hcursor⟩ := moved_bar h10 hrow (t := t) (by omega)
      have hle : (moved t c).termRow ≤ 28 := by omega
      have hput : InBar (termPutcharM t c) := by
        rw [inBar_putchar_iff]
        refine ⟨fun hstore => ?_, .inl hle⟩
        rw [hrow]
        split
        case isTrue h8 =>
          have hpos : t.pmtlen < t.termColumn := by
            by_contra hle
            exact hstore (.inr ⟨h8, by omega⟩)
          rw [sub32_of_le (by omega) (by omega), w32_of_lt (by omega)]
          omega
        case isFalse =>
          rw [w32_of_lt (by omega)]
          omega
      obtain ⟨l, ls, hl⟩ := exists_lines data
      rw [inBar_write_cons, and_iff_right hput, termPutchar_moved, termFollow_of_le hle,
        lines_cons h10 hl, List.tail_cons]
      rcases hcursor with ⟨hr, hc⟩ | ⟨hr, hc⟩
      · rw [inBar_row_iff hr (by omega), hpmt, moved_scrollTerm, hl, List.tail_cons]
      · -- the last column: nothing is left to write
        have hnil : data = [] := List.eq_nil_of_length_eq_zero (by omega)
        subst hnil
        obtain ⟨-, rfl⟩ := List.cons.inj hl
        constructor
        · intro _
          exact invisible_nil (Nat.zero_le _)
        · intro _ k hk
          cases hk

/-! ### Text left of the bar -/

/-- The bytes of the first line that are written `left` cells or fewer left of the bar: none, or
backspaces in the prompt's columns. -/
def LeadsIn (pmtlen left : ℕ) (l : List UInt8) : Prop :=
  l.take left = [] ∨
    (∀ c ∈ l.take left, c = 8) ∧ 4294967296 - left + (l.take left).length ≤ pmtlen + 1

theorem leadsIn_cons_iff {pmtlen left : ℕ} {l : List UInt8} (hpmt : 4294967296 - (left + 1) ≤ pmtlen)
    (hleft : left < 4294967296) :
    LeadsIn pmtlen (left + 1) (8 :: l) ↔ LeadsIn pmtlen left l := by
  unfold LeadsIn
  rw [List.take_succ_cons, List.forall_mem_cons, List.length_cons]
  by_cases hnil : l.take left = []
  · simp only [hnil, List.length_nil, List.not_mem_nil, false_implies, implies_true, true_and,
      reduceCtorEq, false_or, true_or, iff_true]
    omega
  · simp only [hnil, reduceCtorEq, false_or, true_and]
    apply and_congr_right
    intro _
    omega

theorem not_leadsIn {c : UInt8} {pmtlen left : ℕ} {l : List UInt8}
    (h : ¬ (c = 8 ∧ 4294967296 - (left + 1) ≤ pmtlen)) : ¬ LeadsIn pmtlen (left + 1) (c :: l) := by
  unfold LeadsIn
  rw [List.take_succ_cons, List.forall_mem_cons, List.length_cons]
  rintro (hnil | ⟨⟨h8, -⟩, hlen⟩)
  · cases hnil
  · exact h ⟨h8, by omega⟩

/-- Text that starts `left` cells left of the bar, and ends in it if it has no new line. -/
theorem inBar_left_iff : ∀ {data : List UInt8} {left : ℕ} {t : Terminal}, t.termRow = 0 →
    t.termColumn = sub32 0 left → left + 90 < 4294967296 → data.length ≤ left + 90 →
      (InBar (termWriteM t data) ↔ LeadsIn t.pmtlen left ((lines data).headD []) ∧
        Invisible t.pmtlen t.scrollTerm 0 (lines data).tail)
  | data, 0, t, hrow, hcol, _, hlen => by
      have hzero : t.termColumn = 0 := hcol.trans (by decide +kernel)
      rw [inBar_row_iff hrow (by omega)]
      exact (and_iff_right (.inl List.take_zero)).symm
  | [], left + 1, t, _, _, _, _ => by
      constructor
      · intro _
        exact ⟨.inl rfl, invisible_nil (Nat.zero_le _)⟩
      · intro _ k hk
        cases hk
  | c :: data, left + 1, t, hrow, hcol, hover, hlen => by
      have hpos : t.termColumn = 4294967296 - (left + 1) := by
        rw [hcol]
        simp only [sub32, w32]
        omega
      by_cases h10 : c = 10
      · rw [h10, inBar_newline_iff hrow, lines_newline, List.tail_cons, List.headD_cons]
        exact (and_iff_right (.inl rfl)).symm
      obtain ⟨l, ls, hl⟩ := exists_lines data
      rw [inBar_write_cons, lines_cons h10 hl, List.tail_cons, List.headD_cons]
      by_cases hkept : c = 8 ∧ t.termColumn ≤ t.pmtlen
      · obtain ⟨rfl, hle⟩ := hkept
        have hcol' : w32 (t.termColumn + 1) = sub32 0 left := by
          rw [hpos]
          simp only [sub32, w32]
          omega
        have hadv : termAdvance t = { t with termColumn := sub32 0 left } := by
          rw [termAdvance_next, hcol']
          rw [hcol']
          simp only [sub32, w32]
          omega
        have hput : InBar (termPutcharM t 8) := by
          rw [inBar_kept_iff hle, hadv]
          exact .inl (by simp [hrow])
        have hnext := @inBar_left_iff data left { t with termColumn := sub32 0 left } hrow rfl
          (by omega) (by rw [List.length_cons] at hlen; omega)
        rw [and_iff_right hput, termPutchar_moved, moved_kept hle, hadv,
          termFollow_of_le (t := { t with termColumn := sub32 0 left }) (by simp [hrow]), hnext, hl,
          List.headD_cons, List.tail_cons]
        apply and_congr_left
        intro _
        exact (leadsIn_cons_iff (by simp only; omega) (by omega)).symm
      · constructor
        · intro h
          have hidx := (inBar_putchar_iff.mp h.1).1 (by rintro (h | h); exacts [h10 h, hkept h])
          rw [hrow, hpos] at hidx
          split at hidx
          · rw [sub32_of_le (by omega) (by omega), w32_of_lt (by omega)] at hidx
            omega
          · rw [w32_of_lt (by omega)] at hidx
            omega
        · rintro ⟨hlead, -⟩
          rw [hpos] at hkept
          exact absurd hlead (not_leadsIn hkept)

end Text

/-! ### The title -/

variable {d : Display} {str : List UInt8}

/-- `term_set_title` writes to row 0 only and leaves the cursor, the colour and the other rows as
they were. -/
structure BarOnly (d : Display) (str : List UInt8) : Prop where
  writes : ∀ k ∈ (termSetTitleM d str).log, k < vgaWidth
  row : (termSetTitle d str).term.termRow = d.term.termRow
  column : (termSetTitle d str).term.termColumn = d.term.termColumn
  color : (termSetTitle d str).term.termColor = d.term.termColor
  below : ∀ k, vgaWidth ≤ k → (termSetTitle d str).term.termBuffer k = d.term.termBuffer k

/-- The terminal in which the title is written. -/
def titled (d : Display) (str : List UInt8) : Terminal :=
  { d.term with
    termRow := 0
    termColumn := sub32 vgaWidth (strlen str)
    termColor := vgaEntryColor 0 7 }

theorem termSetTitleM_log (d : Display) (str : List UInt8) :
    (termSetTitleM d str).log = (termWriteM (titled d str) (cstr str)).log := by
  unfold termSetTitleM termWritestringM
  rw [bind_log, pure_log, List.append_nil, take_strlen]
  rfl

/-- The writes decide about the rest. -/
theorem barOnly_iff_writes : BarOnly d str ↔ InBar (termWriteM (titled d str) (cstr str)) := by
  constructor
  · intro h k hk
    rw [← termSetTitleM_log] at hk
    exact h.writes k hk
  · intro h
    refine ⟨fun k hk => ?_, rfl, rfl, rfl, fun k hk => ?_⟩
    · rw [termSetTitleM_log] at hk
      exact h k hk
    · have hframe := termWriteM_frames (titled d str) (cstr str) k fun hlog =>
        absurd (h k hlog) (Nat.not_lt_of_le hk)
      rw [termWriteM_val] at hframe
      rw [termSetTitle, termWritestring, take_strlen]
      exact hframe

/-- The titles that change the bar only: the bytes of the first line that do not fit into the bar
are none, or leave no trace, and no other line leaves one. -/
theorem termSetTitle_iff (d : Display) (str : List UInt8) (hstr : strlen str < 4294967296) :
    (termSetTitleM d str).val = termSetTitle d str ∧
      (BarOnly d str ↔
        LeadsIn d.term.pmtlen (strlen str - vgaWidth) ((lines (cstr str)).headD []) ∧
          Invisible d.term.pmtlen d.term.scrollTerm 0 (lines (cstr str)).tail) := by
  have hlen : (cstr str).length = strlen str := rfl
  refine ⟨termSetTitleM_val d str, ?_⟩
  rw [barOnly_iff_writes]
  by_cases hfits : strlen str ≤ 90
  · have hcol : (titled d str).termColumn = 90 - strlen str := sub32_of_le hfits (by decide)
    have hzero : strlen str - vgaWidth = 0 := Nat.sub_eq_zero_of_le hfits
    rw [inBar_row_iff rfl (by omega), hzero]
    exact (and_iff_right (.inl List.take_zero)).symm
  · apply inBar_left_iff rfl
    · change sub32 vgaWidth (strlen str) = _
      simp only [sub32, w32, vgaWidth]
      omega
    · rw [vgaWidth]
      omega
    · rw [vgaWidth]
      omega

/-- The theorem for a short title. -/
theorem termSetTitle_iff_short : BarOnly written [79, 119, 0] :=
  (termSetTitle_iff written [79, 119, 0] (by decide)).2.mpr
    ⟨.inl (by decide), invisible_nil (Nat.zero_le _)⟩

/-- A title of 91 bytes. -/
def longTitle : List UInt8 := List.replicate 91 97 ++ [0]

/-- The first byte of a long title is stored 2 ^ 32 - 1 cells behind the start of the buffer. -/
theorem longTitle_writes : ¬ BarOnly written longTitle := by
  intro h
  have hlog : 4294967295 ∈ (termSetTitleM written longTitle).log := by decide +kernel
  exact absurd (h.writes _ hlog) (by decide)

end Owmice.Screen
