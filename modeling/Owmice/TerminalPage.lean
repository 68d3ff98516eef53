import Owmice.Terminal

/-! # The terminal shows a scrolling page

Text is a list of lines: a line ends at a new line character, and as soon as it holds 90
characters.  The terminal shows the last 28 lines of the text.

* `termPutchar_shows`: one character is one step of the list of lines (`feed`);
* `termWrite_shows`: what is on the screen after `term_cls` and `term_write`. -/

namespace Owmice.Screen

/-- The lines of a text, the first of which starts with `cur`. -/
def breakFrom : List UInt8 → List UInt8 → List (List UInt8)
  | cur, [] => [cur]
  | cur, c :: text =>
      if c = 10 then cur :: breakFrom [] text
      else if cur.length + 1 = 90 then (cur ++ [c]) :: breakFrom [] text
      else breakFrom (cur ++ [c]) text

/-- The lines of a text. -/
def breakLines (text : List UInt8) : List (List UInt8) := breakFrom [] text

/-- One character goes to the last line, `p.2`, which may become complete. -/
def feed (p : List (List UInt8) × List UInt8) (c : UInt8) : List (List UInt8) × List UInt8 :=
  if c = 10 then (p.1 ++ [p.2], [])
  else if p.2.length + 1 = 90 then (p.1 ++ [p.2 ++ [c]], [])
  else (p.1, p.2 ++ [c])

/-- The complete lines and the last one. -/
def allLines (p : List (List UInt8) × List UInt8) : List (List UInt8) := p.1 ++ [p.2]

theorem foldl_feed (text : List UInt8) (p : List (List UInt8) × List UInt8) :
    allLines (text.foldl feed p) = p.1 ++ breakFrom p.2 text := by
  induction text generalizing p with
  | nil => rfl
  | cons c text ih =>
      rw [List.foldl_cons, ih, feed, breakFrom]
      split
      · simp
      · split
        · simp
        · rfl

/-- Row `r` shows the line, padded with blanks. -/
def RowShows (color : UInt8) (b : ℕ → UInt16) (r : ℕ) (cur : List UInt8) : Prop :=
  ∀ x < 90, b (r * 90 + x) = vgaEntry ((cur[x]?).getD 32) color

/-- Rows 1 to 28 show the last 28 lines of `ls`. -/
def PageShows (color : UInt8) (b : ℕ → UInt16) (ls : List (List UInt8)) : Prop :=
  ∀ r < 28, RowShows color b (r + 1) ((ls[ls.length - 28 + r]?).getD [])

/-- The terminal shows the text `ls`; row 29 is blank. -/
structure Shows (color : UInt8) (t : Terminal) (ls : List (List UInt8)) : Prop where
  scroll : t.scrollTerm = true
  color_eq : t.termColor = color
  row : t.termRow = min ls.length 28
  page : PageShows color t.termBuffer ls
  blank : RowShows color t.termBuffer 29 []

theorem termFollow_shows {color : UInt8} {t : Terminal} {ls : List (List UInt8)}
    (hs : t.scrollTerm = true) (hc : t.termColor = color) (hr : t.termRow = min ls.length 28 + 1)
    (hp : PageShows color t.termBuffer ls) (hb : RowShows color t.termBuffer 29 []) :
    Shows color (termFollow t) (ls ++ [[]]) := by
  have hline : ∀ k : ℕ, ((ls ++ [[]])[k]?).getD [] = (ls[k]?).getD [] := by
    intro k
    rw [List.getElem?_append]
    split
    · rfl
    · rw [List.getElem?_eq_none (l := ls) (by omega)]
      cases k - ls.length with
      | zero => rfl
      | succ n => rfl
  unfold termFollow
  split
  case isTrue hlt =>
    simp only [vgaHeight] at hlt
    have hbuf : ∀ k, (termScroll { t with termRow := t.termRow - 1 }).termBuffer k =
        if 90 ≤ k ∧ k < 2610 then t.termBuffer (k + 90) else t.termBuffer k := fun k =>
      termScroll_apply (t := { t with termRow := t.termRow - 1 }) hs k
    refine ⟨?_, ?_, ?_, ?_, ?_⟩
    · simp only [termScroll, hs, if_true]
    · simp only [termScroll, hs, if_true, hc]
    · simp only [termScroll, hs, if_true, List.length_append, List.length_singleton]
      omega
    · intro r hr28 x hx
      rw [hbuf, if_pos (by omega), hline, List.length_append, List.length_singleton]
      by_cases hlast : r = 27
      · -- the last row takes the blank row below
        have hidx : (r + 1) * 90 + x + 90 = 29 * 90 + x := by omega
        rw [hidx, hb x hx, List.getElem?_eq_none (l := ls) (by omega), Option.getD_none]
      · have hrow := hp (r + 1) (by omega) x hx
        have hidx : (r + 1) * 90 + x + 90 = (r + 1 + 1) * 90 + x := by omega
        rw [hidx, hrow, show ls.length + 1 - 28 + r = ls.length - 28 + (r + 1) by omega]
    · intro x hx
      rw [hbuf, if_neg (by omega), hb x hx]
  case isFalse hlt =>
    simp only [vgaHeight] at hlt
    refine ⟨hs, hc, ?_, fun r hr28 => ?_, hb⟩
    · rw [List.length_append, List.length_singleton]
      omega
    · rw [hline, List.length_append, List.length_singleton,
        show ls.length + 1 - 28 = ls.length - 28 by omega]
      exact hp r hr28

/-- A character is stored behind the last line. -/
theorem store_shows {color c : UInt8} {b : ℕ → UInt16} {done : List (List UInt8)}
    {cur : List UInt8} (hp : PageShows color b (done ++ [cur]))
    (hb : RowShows color b 29 []) (hl : cur.length < 90) :
    let b' := Function.update b (min (done.length + 1) 28 * 90 + cur.length) (vgaEntry c color)
    PageShows color b' (done ++ [cur ++ [c]]) ∧ RowShows color b' 29 [] := by
  intro b'
  refine ⟨fun r hr x hx => ?_, fun x hx => ?_⟩
  · have hrow := hp r hr x hx
    rw [List.length_append, List.length_singleton] at hrow ⊢
    by_cases hcur : done.length + 1 - 28 + r = done.length
    · rw [hcur, List.getElem?_concat_length, Option.getD_some] at hrow ⊢
      have hidx : min (done.length + 1) 28 = r + 1 := by omega
      by_cases hxl : x = cur.length
      · simp only [b', hidx, hxl, Function.update_self, List.getElem?_concat_length,
          Option.getD_some]
      · have hother : (r + 1) * 90 + x ≠ min (done.length + 1) 28 * 90 + cur.length := by omega
        simp only [b', Function.update_of_ne hother, hrow]
        congr 2
        rw [List.getElem?_append]
        split
        · rfl
        · rw [List.getElem?_eq_none (by omega), List.getElem?_eq_none (by simp; omega)]
    · have hother : (r + 1) * 90 + x ≠ min (done.length + 1) 28 * 90 + cur.length := by omega
      simp only [b', Function.update_of_ne hother, hrow]
      congr 4
      rw [List.getElem?_append, List.getElem?_append]
      split
      · rfl
      · rw [List.getElem?_eq_none (by simp; omega), List.getElem?_eq_none (by simp; omega)]
  · have hother : 29 * 90 + x ≠ min (done.length + 1) 28 * 90 + cur.length := by omega
    simp only [b', Function.update_of_ne hother]
    exact hb x hx

/-- The terminal shows the lines of `p`, with the cursor at the end of the last one. -/
structure Follows (color : UInt8) (t : Terminal) (p : List (List UInt8) × List UInt8) :
    Prop where
  shows : Shows color t (allLines p)
  column : t.termColumn = p.2.length
  short : p.2.length < 90

/-- One character of output is one step of the list of lines. -/
theorem termPutchar_follows {color c : UInt8} {t : Terminal}
    {p : List (List UInt8) × List UInt8} (h : Follows color t p) (h8 : c ≠ 8) :
    Follows color (termPutchar t c) (feed p c) := by
  obtain ⟨done, cur⟩ := p
  obtain ⟨⟨hs, hcol, hrow, hpage, hblank⟩, hcolumn, hshort⟩ := h
  simp only [allLines] at *
  have hlen : (done ++ [cur]).length = done.length + 1 := by simp
  rw [hlen] at hrow
  unfold feed
  split
  case isTrue h10 =>
    -- the row below is blank already
    subst h10
    rw [termPutchar_newline (by omega)]
    refine ⟨?_, ?_, by simp⟩
    · exact termFollow_shows hs hcol (by rw [hlen]; simp only; omega) hpage hblank
    · simp only [termFollow, termScroll, hs, if_true]
      split <;> rfl
  case isFalse h10 =>
    have hput := termPutchar_store (t := t) h10 h8 (by omega) (by omega)
    obtain ⟨hpage', hblank'⟩ := store_shows hpage hblank hshort
    rw [hput]
    unfold stored
    rw [hrow, hcol, hcolumn]
    have hlen' : (done ++ [cur ++ [c]]).length = done.length + 1 := by simp
    by_cases hw : cur.length + 1 = 90
    · simp only [hw, if_true]
      refine ⟨?_, ?_, by simp⟩
      · exact termFollow_shows hs rfl (by rw [hlen']) hpage' hblank'
      · simp only [termFollow, termScroll, hs, if_true]
        split <;> rfl
    · have hstay : ¬ vgaHeight - 1 < min (done.length + 1) 28 := by
        simp only [vgaHeight]
        omega
      simp only [hw, if_false, termFollow, hstay]
      refine ⟨⟨hs, rfl, by rw [allLines, hlen'], hpage', hblank'⟩, by simp, ?_⟩
      rw [List.length_append, List.length_singleton]
      omega

/-- The cleared terminal shows the empty text. -/
theorem termCls_follows {t : Terminal} (hs : t.scrollTerm = true) :
    Follows t.termColor (termCls t) ([], []) := by
  have hblank : ∀ r < 29, RowShows t.termColor (termCls t).termBuffer (r + 1) [] := by
    intro r hr x hx
    rw [termCls_apply, if_pos (by omega)]
    rfl
  refine ⟨⟨hs, rfl, rfl, fun r hr => ?_, hblank 28 (by omega)⟩, rfl, by simp⟩
  have hnone : ((allLines ([], []))[(allLines ([], [])).length - 28 + r]?).getD [] = [] := by
    cases r with
    | zero => rfl
    | succ r => rfl
  rw [hnone]
  exact hblank r (by omega)

theorem termWrite_follows {color : UInt8} {data : List UInt8} {t : Terminal}
    {p : List (List UInt8) × List UInt8} (h : Follows color t p) (h8 : ∀ c ∈ data, c ≠ 8) :
    Follows color (termWrite t data) (data.foldl feed p) := by
  induction data generalizing t p with
  | nil => exact h
  | cons c data ih =>
      obtain ⟨hc, h8⟩ := List.forall_mem_cons.mp h8
      rw [termWrite, List.foldl_cons, List.foldl_cons]
      exact ih (termPutchar_follows h hc) h8

/-- After `term_cls` and the output of a text without backspaces, the rows 1 to 28 show the
last 28 lines of the text, and the cursor is at the end of the last line. -/
theorem termWrite_shows (t : Terminal) (data : List UInt8) (hs : t.scrollTerm = true)
    (h8 : ∀ c ∈ data, c ≠ 8) :
    (∀ r < 28, RowShows t.termColor (termWrite (termCls t) data).termBuffer (r + 1)
      ((((breakLines data).drop ((breakLines data).length - 28))[r]?).getD [])) ∧
    (termWrite (termCls t) data).termRow = min (breakLines data).length 28 ∧
    (termWrite (termCls t) data).termColumn = ((breakLines data).getLastD []).length := by
  have hlines := foldl_feed data ([], [])
  obtain ⟨hshows, hcolumn, -⟩ := termWrite_follows (termCls_follows hs) h8
  simp only [List.nil_append] at hlines
  change allLines _ = breakLines data at hlines
  have hlast : (breakLines data).getLastD [] = (data.foldl feed ([], [])).2 := by
    rw [← hlines, allLines]
    simp
  rw [hlines] at hshows
  refine ⟨fun r hr => ?_, hshows.row, by rw [hcolumn, hlast]⟩
  rw [List.getElem?_drop]
  exact hshows.page r hr

/-- A screen that is not blank. -/
def oldScreen : Terminal := ⟨7, 3, 15, true, 1, 0, fun _ => 57⟩

/-- The theorem for a word and a new line. -/
theorem termWrite_shows_word :
    RowShows 15 (termWrite (termCls oldScreen) [104, 105, 10]).termBuffer 1 [104, 105] ∧
      (termWrite (termCls oldScreen) [104, 105, 10]).termRow = 2 ∧
      (termWrite (termCls oldScreen) [104, 105, 10]).termColumn = 0 := by
  obtain ⟨hrows, hrow, hcolumn⟩ := termWrite_shows oldScreen [104, 105, 10] rfl (by simp)
  exact ⟨hrows 0 (by decide), hrow, hcolumn⟩

end Owmice.Screen
