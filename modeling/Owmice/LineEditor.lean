import Owmice.Keyboard

/-! # The line editor

What the interrupt handler makes of the keys of a line, compared with a reference editor that
knows which keys are held.  The handler keeps three variables: the line, the counter `bufpos`,
and the flag `shift_down`.  They go wrong in three ways: the release of the right shift key
leaves the flag, a backspace counts up and not down, so that keys are dropped from a line that
has room, and the release of a key may read a backspace behind `keyboard_map`.

* `editorOf_handler`: an interrupt is one step of the three variables (`Editor.key`);
* `line_editor_iff`: when `kbd_get_string` returns the line of the reference editor. -/

namespace Owmice.Console

open Screen

/-! ### The reference editor -/

/-- The line, and which of the shift keys are held. -/
structure RefEditor where
  line : List UInt8
  left : Bool
  right : Bool
deriving DecidableEq

/-- The key is pressed and has a character of its own. -/
def Printable (d : UInt8) : Prop :=
  d < 128 ∧ keyboardMap.getD d.toNat 0 ∉ [0, 8, 15] ++ arrowKeys ∧ d ≠ 28

instance (d : UInt8) : Decidable (Printable d) := by unfold Printable; infer_instance

/-- A key of the first row. -/
def FirstRow (d : UInt8) : Prop := 2 ≤ d ∧ d ≤ 13

instance (d : UInt8) : Decidable (FirstRow d) := by unfold FirstRow; infer_instance

/-- The character of a key, with or without shift. -/
def keyChar (shift : Bool) (d : UInt8) : UInt8 :=
  if shift ∧ FirstRow d then keyboardSpecialchars.getD d.toNat 0 else keyboardMap.getD d.toNat 0

namespace RefEditor

/-- A shift key is held. -/
def held (r : RefEditor) : Bool := r.left || r.right

/-- The event appends a character. -/
def Accepts (r : RefEditor) (d : UInt8) : Prop := Printable d ∧ r.line.length < inputMaxlen

instance (r : RefEditor) (d : UInt8) : Decidable (r.Accepts d) := by unfold Accepts; infer_instance

/-- One event: a character is appended when the line has room, a backspace deletes one, and the
shift keys are followed. -/
def key (r : RefEditor) (d : UInt8) : RefEditor :=
  { line :=
      if d = 14 then r.line.dropLast
      else if r.Accepts d then r.line ++ [keyChar r.held d] else r.line
    left := if d = 42 then true else if d = 170 then false else r.left
    right := if d = 54 then true else if d = 182 then false else r.right }

end RefEditor

/-! ### The variables of the handler -/

/-- The line as a string, `bufpos` and `shift_down`. -/
structure Editor where
  line : List UInt8
  pos : ℕ
  shift : Bool
deriving DecidableEq

def editorOf (k : Keyboard) : Editor := ⟨cstr k.conInput, k.bufpos, k.shiftDown⟩

/-- The release of a key that reads a backspace behind `keyboard_map`. -/
def FalseBackspace (past : UInt8 → UInt8) (d : UInt8) : Prop := 128 ≤ d ∧ past d = 8

instance (past : UInt8 → UInt8) (d : UInt8) : Decidable (FalseBackspace past d) := by
  unfold FalseBackspace; infer_instance

/-- An event that is not Enter, in the variables of the handler. -/
def Editor.key (past : UInt8 → UInt8) (e : Editor) (d : UInt8) : Editor :=
  if d = 14 ∨ FalseBackspace past d then
    { e with line := e.line.dropLast, pos := if e.line = [] then e.pos else e.pos + 1 }
  else if Printable d ∧ e.pos < inputMaxlen then
    { e with line := e.line ++ [keyChar e.shift d], pos := e.pos + 1 }
  else
    { e with shift := if d = 42 ∨ d = 54 then true else if d = 170 then false else e.shift }

/-! ### The codes -/

theorem codes_below : ∀ n < 128,
    (keyboardMap.getD n 0 = 8 ↔ n = 14) ∧ (keyboardMap.getD n 0 = 15 ↔ n = 42 ∨ n = 54) ∧
      (keyboardMap.getD n 0 = 0 ∨ keyboardMap.getD n 0 ∈ arrowKeys → ¬ (2 ≤ n ∧ n ≤ 13)) ∧
      (2 ≤ n ∧ n ≤ 13 → keyboardSpecialchars.getD n 0 ∉ 0 :: arrowKeys ∧
        keyboardSpecialchars.getD n 0 ≠ keyboardMap.getD n 0) := by
  decide +kernel

/-- No other key has the character of the backspace or of Enter. -/
theorem codes_plain : ∀ n < 128, ¬ (n = 14 ∨ n = 28) →
    keyboardMap.getD n 0 ∉ [8, 10] ∧ keyboardSpecialchars.getD n 0 ∉ [8, 10] := by
  decide +kernel

theorem and_128_eq_zero_iff (d : UInt8) : d &&& 128 = 0 ↔ d < 128 := by
  have h : ∀ n < 256, (n &&& 128 = 0 ↔ n < 128) := by decide +kernel
  rw [← UInt8.toNat_inj, UInt8.toNat_and, UInt8.lt_iff_toNat_lt]
  exact h d.toNat d.toNat_lt

section Codes

variable {past : UInt8 → UInt8} {d : UInt8}

theorem keyboardMapAt_eq_8_iff : keyboardMapAt past d = 8 ↔ d = 14 ∨ FalseBackspace past d := by
  unfold FalseBackspace keyboardMapAt
  by_cases h : d < 128
  · have hcode := (codes_below d.toNat (UInt8.lt_iff_toNat_lt.mp h)).1
    rw [if_pos h, hcode, ← UInt8.toNat_inj]
    simp only [UInt8.not_le.mpr h, false_and, or_false]
    rfl
  · have hne : d ≠ 14 := by
      rintro rfl
      exact h (by decide)
    rw [if_neg h]
    simp only [UInt8.not_lt.mp h, hne, true_and, false_or]

theorem map_eq_15_iff (h : d < 128) : keyboardMap.getD d.toNat 0 = 15 ↔ d = 42 ∨ d = 54 := by
  rw [(codes_below d.toNat (UInt8.lt_iff_toNat_lt.mp h)).2.1, ← UInt8.toNat_inj, ← UInt8.toNat_inj]
  rfl

theorem firstRow_iff : FirstRow d ↔ 2 ≤ d.toNat ∧ d.toNat ≤ 13 := by
  rw [FirstRow, UInt8.le_iff_toNat_le, UInt8.le_iff_toNat_le]
  rfl

/-- Shift turns no key without a character into one with a character, or the other way round. -/
theorem keyChar_mem_iff (shift : Bool) (h : d < 128) :
    keyChar shift d ∈ 0 :: arrowKeys ↔ keyboardMap.getD d.toNat 0 ∈ 0 :: arrowKeys := by
  obtain ⟨-, -, hrow, hspecial⟩ := codes_below d.toNat (UInt8.lt_iff_toNat_lt.mp h)
  unfold keyChar
  split
  case isTrue hs =>
    have hs' := firstRow_iff.mp hs.2
    exact iff_of_false (hspecial hs').1 fun hm => hrow (List.mem_cons.mp hm) hs'
  case isFalse => rfl

/-- The character depends on shift exactly in the first row. -/
theorem keyChar_eq_iff {s t : Bool} (h : d < 128) :
    keyChar s d = keyChar t d ↔ s = t ∨ ¬ FirstRow d := by
  have hspecial := (codes_below d.toNat (UInt8.lt_iff_toNat_lt.mp h)).2.2.2
  by_cases hrow : FirstRow d
  · have hne := (hspecial (firstRow_iff.mp hrow)).2
    cases s <;> cases t <;>
      simp only [keyChar, hrow, hne, hne.symm, and_true, if_true, reduceCtorEq, if_false, not_true_eq_false,
        or_false, Bool.false_eq_true]
  · simp [keyChar, hrow]

theorem printable_iff (past : UInt8 → UInt8) (hne : d ≠ 28) : Printable d ↔
    d < 128 ∧ keyboardMapAt past d ≠ 8 ∧ keyboardMapAt past d ≠ 15 ∧
      keyboardMapAt past d ∉ 0 :: arrowKeys := by
  unfold Printable
  by_cases h : d < 128
  · rw [keyboardMapAt_of_lt h]
    simp only [h, hne, List.mem_append, List.mem_cons, List.not_mem_nil, or_false, true_and, ne_eq,
      not_false_eq_true, and_true, not_or]
    tauto
  · simp only [h, false_and]

end Codes

/-- The interrupt of an event other than Enter is one step of the three variables, as long as no
`kbd_get_char` waits. -/
theorem editorOf_handler (past : UInt8 → UInt8) {k : Keyboard} {status d : UInt8}
    (hst : status &&& 1 ≠ 0) (hd : d ≠ 28) (hreq : k.request ≠ kbdChar) :
    editorOf (keyboardHandlerMain past k status d) = (editorOf k).key past d ∧
      (keyboardHandlerMain past k status d).request = k.request := by
  unfold Editor.key
  by_cases h8 : keyboardMapAt past d = 8
  · have hempty : 0 < strlen k.conInput ↔ ¬ cstr k.conInput = [] := by
      rw [← ne_eq, ← List.length_pos_iff_ne_nil]
      rfl
    rw [if_pos (keyboardMapAt_eq_8_iff.mp h8), handler_backspace hst h8]
    by_cases hl : cstr k.conInput = []
    · rw [if_neg (by rw [hempty, not_not]; exact hl)]
      simp [editorOf, hl]
    · rw [if_pos (hempty.mpr hl)]
      simp [editorOf, hl, cstr_cut]
  rw [if_neg (by rwa [← keyboardMapAt_eq_8_iff])]
  have hprint := printable_iff past hd
  by_cases hup : d &&& 128 = 0
  case neg =>
    have hlt : ¬ d < 128 := by rwa [← and_128_eq_zero_iff]
    have h42 : ¬ (d = 42 ∨ d = 54) := by
      rintro (rfl | rfl) <;> exact hlt (by decide)
    rw [if_neg (fun h => hlt h.1.1), handler_release hst h8 hup, if_neg h42]
    exact ⟨rfl, rfl⟩
  have hlt := (and_128_eq_zero_iff d).mp hup
  by_cases h15 : keyboardMapAt past d = 15
  · have hshift : d = 42 ∨ d = 54 := by
      rwa [← map_eq_15_iff hlt, ← keyboardMapAt_of_lt hlt]
    rw [if_neg (fun h => (hprint.mp h.1).2.2.1 h15), handler_shift hst hup h15, if_pos hshift]
    exact ⟨rfl, rfl⟩
  have hshift : ¬ (d = 42 ∨ d = 54) := by
    rwa [← map_eq_15_iff hlt, ← keyboardMapAt_of_lt hlt]
  have h170 : d ≠ 170 := by
    rintro rfl
    exact absurd hlt (by decide)
  have hchar : shifted k d (keyboardMapAt past d) = keyChar k.shiftDown d := by
    rw [keyboardMapAt_of_lt hlt]
    rfl
  have hmem := keyChar_mem_iff k.shiftDown hlt
  rw [List.mem_cons] at hmem
  rw [handler_press hst h8 hup h15, hchar, if_neg hshift, if_neg h170]
  simp only [hd, if_false]
  by_cases hp : keyboardMapAt past d ∈ 0 :: arrowKeys
  · -- the key has no character
    have hno : ¬ (Printable d ∧ (editorOf k).pos < inputMaxlen) := fun h =>
      (hprint.mp h.1).2.2.2 hp
    rw [if_neg hno]
    rw [keyboardMapAt_of_lt hlt, ← hmem] at hp
    rcases hp with h0 | harrow
    · have h0' : keyChar k.shiftDown d ∉ arrowKeys := by
        rw [h0]
        decide
      rw [if_neg h0']
      simp only [pressKey, h0, if_true]
      exact ⟨rfl, trivial⟩
    · rw [if_pos harrow]
      exact ⟨rfl, rfl⟩
  · have hchars : ¬ keyChar k.shiftDown d = 0 ∧ keyChar k.shiftDown d ∉ arrowKeys := by
      rw [keyboardMapAt_of_lt hlt, ← hmem, not_or] at hp
      exact hp
    rw [if_neg hchars.2]
    have hpr : Printable d := hprint.mpr ⟨hlt, h8, h15, hp⟩
    by_cases hpos : inputMaxlen ≤ k.bufpos
    · have hroom : ¬ (editorOf k).pos < inputMaxlen := not_lt.mpr hpos
      simp only [pressKey, hchars.1, hpos, hroom, and_false, if_true, if_false]
      exact ⟨rfl, trivial⟩
    · have hroom : (editorOf k).pos < inputMaxlen := not_le.mp hpos
      simp only [pressKey, hchars.1, hpos, hroom, hreq, hpr, and_self, if_true, if_false]
      simp [editorOf, cstr_strcat _ hchars.1]

/-! ### `kbd_get_string` -/

/-- The interrupts that come while the main thread waits. -/
def interrupts (past : UInt8 → UInt8) (k : Keyboard) (events : List UInt8) : Keyboard :=
  events.foldl (fun k d => keyboardHandlerMain past k 1 d) k

/-- `kbd_get_string` into the buffer `buf`, when `events` are all the interrupts up to the one
that ends the waiting; `none` when the call returns `NULL` or still waits. -/
def kbdGetString (past : UInt8 → UInt8) (k : Keyboard) (buf events : List UInt8) :
    Option (List UInt8 × Keyboard) :=
  if k.request ≠ 0 then none
  else
    let k := interrupts past { k with request := kbdString } events
    if k.request ≠ 0 then none
    else some (strcpy buf k.conInput, { k with conInput := clearchar k.conInput })

theorem interrupts_cons (past : UInt8 → UInt8) (k : Keyboard) (d : UInt8) (events : List UInt8) :
    interrupts past k (d :: events) = interrupts past (keyboardHandlerMain past k 1 d) events := rfl

/-- Interrupts other than Enter are steps of the three variables. -/
theorem editorOf_interrupts (past : UInt8 → UInt8) : ∀ (events : List UInt8) (k : Keyboard),
    28 ∉ events → k.request ≠ kbdChar →
      editorOf (interrupts past k events) = events.foldl (Editor.key past) (editorOf k) ∧
        (interrupts past k events).request = k.request
  | [], _, _, _ => ⟨rfl, rfl⟩
  | d :: events, k, h28, hreq => by
      rw [List.mem_cons, not_or] at h28
      obtain ⟨hed, hrq⟩ := editorOf_handler past (k := k) (show (1 : UInt8) &&& 1 ≠ 0 by decide)
        (Ne.symm h28.1) hreq
      obtain ⟨ih, ihr⟩ := editorOf_interrupts past events (keyboardHandlerMain past k 1 d) h28.2
        (by rwa [hrq])
      rw [interrupts_cons, ih, ihr, hed, hrq]
      exact ⟨rfl, rfl⟩

/-- Enter makes `kbd_get_string` return the line that the interrupts have left. -/
theorem kbdGetString_enter (past : UInt8 → UInt8) {k : Keyboard} (buf events : List UInt8)
    (hreq : k.request = 0) (h28 : 28 ∉ events) :
    ∃ r, kbdGetString past k buf (events ++ [28]) = some r ∧
      cstr r.1 = (events.foldl (Editor.key past) (editorOf k)).line := by
  have hstring : kbdString ≠ kbdChar := by decide
  obtain ⟨hed, -⟩ := editorOf_interrupts past events { k with request := kbdString } h28 hstring
  set w := interrupts past { k with request := kbdString } events with hw
  have hline : cstr w.conInput = (events.foldl (Editor.key past) (editorOf k)).line :=
    congrArg Editor.line hed
  have henter : interrupts past { k with request := kbdString } (events ++ [28]) =
      keyboardHandlerMain past w 1 28 := by
    rw [hw, interrupts, List.foldl_append]
    rfl
  refine ⟨(strcpy buf w.conInput, { keyboardHandlerMain past w 1 28 with
    conInput := clearchar w.conInput }), ?_, ?_⟩
  · rw [kbdGetString, if_neg (not_not.mpr hreq)]
    simp only [henter, handler_enter (show (1 : UInt8) &&& 1 ≠ 0 by decide), ne_eq,
      not_true_eq_false, if_false]
  · rw [cstr_strcpy_cstr]
    exact hline

/-! ### Both editors side by side -/

/-- The handler and the reference editor.  `marks` says for each character of the reference line
whether it was typed while `shift_down` was as the held keys are; `lost` says that, since that
line was last empty, a key has been dropped or a character deleted that should not. -/
structure Session where
  code : Editor
  ref : RefEditor
  marks : List Bool
  lost : Bool

namespace Session

/-- A key is dropped: the counter is used up, but the line has room. -/
def Drops (s : Session) (d : UInt8) : Prop := s.ref.Accepts d ∧ inputMaxlen ≤ s.code.pos

/-- The release of a key deletes a character. -/
def Deletes (past : UInt8 → UInt8) (s : Session) (d : UInt8) : Prop :=
  FalseBackspace past d ∧ s.code.line ≠ []

instance (s : Session) (d : UInt8) : Decidable (s.Drops d) := by unfold Drops; infer_instance
instance (past : UInt8 → UInt8) (s : Session) (d : UInt8) : Decidable (s.Deletes past d) := by
  unfold Deletes; infer_instance

/-- The flag makes the same of the key as the held keys. -/
def Agrees (s : Session) (d : UInt8) : Prop := s.code.shift = s.ref.held ∨ ¬ FirstRow d

instance (s : Session) (d : UInt8) : Decidable (s.Agrees d) := by unfold Agrees; infer_instance

def key (past : UInt8 → UInt8) (s : Session) (d : UInt8) : Session where
  code := s.code.key past d
  ref := s.ref.key d
  marks :=
    if d = 14 then s.marks.dropLast
    else if s.ref.Accepts d then s.marks ++ [decide (s.Agrees d)] else s.marks
  lost := (s.lost || decide (s.Drops d) || decide (s.Deletes past d)) &&
    decide ((s.ref.key d).line ≠ [])

/-- A call with an empty line. -/
def start (shift left right : Bool) : Session := ⟨⟨[], 0, shift⟩, ⟨[], left, right⟩, [], false⟩

/-- Nothing is lost, and every character that is left was typed with the right flag. -/
def Faithful (s : Session) : Prop := s.lost = false ∧ ∀ m ∈ s.marks, m = true

instance (s : Session) : Decidable s.Faithful := by unfold Faithful; infer_instance

/-- As long as nothing is lost, the two lines have the same length and the marks tell where they
agree; afterwards the line of the handler is shorter. -/
structure Inv (s : Session) : Prop where
  room : s.ref.line.length ≤ inputMaxlen
  count : s.ref.line.length ≤ s.code.pos
  marked : s.marks.length = s.ref.line.length
  same : s.lost = false → s.code.line.length = s.ref.line.length ∧
    s.marks = List.zipWith (· == ·) s.code.line s.ref.line
  shorter : s.lost = true → s.code.line.length < s.ref.line.length

end Session

theorem zipWith_dropLast : ∀ {l m : List UInt8}, l.length = m.length →
    (List.zipWith (· == ·) l m).dropLast = List.zipWith (· == ·) l.dropLast m.dropLast
  | [], [], _ => rfl
  | [_], [_], _ => rfl
  | _ :: c :: l, _ :: d :: m, h => by
      have ih := zipWith_dropLast (l := c :: l) (m := d :: m) (by simpa using h)
      simp only [List.zipWith_cons_cons, List.dropLast_cons_cons] at ih ⊢
      rw [ih]

/-- The marks are all set exactly if the lines are the same. -/
theorem zipWith_all_iff : ∀ {l m : List UInt8}, l.length = m.length →
    ((∀ b ∈ List.zipWith (· == ·) l m, b = true) ↔ l = m)
  | [], [], _ => by simp
  | c :: l, d :: m, h => by
      have ih := zipWith_all_iff (l := l) (m := m) (by simpa using h)
      rw [List.zipWith_cons_cons, List.forall_mem_cons, ih, beq_iff_eq, List.cons.injEq]

namespace Session

theorem start_inv (shift left right : Bool) : Inv (start shift left right) where
  room := Nat.zero_le _
  count := le_rfl
  marked := rfl
  same _ := ⟨rfl, rfl⟩
  shorter h := absurd h (by simp [start])

/-- What an event can do to the lines. -/
inductive Changes (s : Session) : Session → Prop
  /-- A backspace. -/
  | backspace (pos : ℕ) (shift left right : Bool) : s.code.pos ≤ pos →
      Changes s ⟨⟨s.code.line.dropLast, pos, shift⟩, ⟨s.ref.line.dropLast, left, right⟩,
        s.marks.dropLast, s.lost && decide (s.ref.line.dropLast ≠ [])⟩
  /-- A release that is taken for a backspace. -/
  | deleted (pos : ℕ) (shift left right : Bool) : s.code.pos ≤ pos →
      Changes s ⟨⟨s.code.line.dropLast, pos, shift⟩, ⟨s.ref.line, left, right⟩, s.marks,
        (s.lost || decide (s.code.line ≠ [])) && decide (s.ref.line ≠ [])⟩
  /-- A key that both editors take. -/
  | typed (c c' : UInt8) (shift left right : Bool) : s.ref.line.length < inputMaxlen →
      Changes s ⟨⟨s.code.line ++ [c], s.code.pos + 1, shift⟩, ⟨s.ref.line ++ [c'], left, right⟩,
        s.marks ++ [c == c'], s.lost⟩
  /-- A key that only the reference editor takes. -/
  | dropped (c : UInt8) (m shift left right : Bool) : s.ref.line.length < inputMaxlen →
      inputMaxlen ≤ s.code.pos →
      Changes s ⟨⟨s.code.line, s.code.pos, shift⟩, ⟨s.ref.line ++ [c], left, right⟩,
        s.marks ++ [m], true⟩
  /-- An event that leaves both lines. -/
  | other (shift left right : Bool) :
      Changes s ⟨⟨s.code.line, s.code.pos, shift⟩, ⟨s.ref.line, left, right⟩, s.marks,
        s.lost && decide (s.ref.line ≠ [])⟩

variable {past : UInt8 → UInt8} {s s' : Session} {d : UInt8}

theorem not_printable_of_backspace (h : d = 14 ∨ FalseBackspace past d) : ¬ Printable d := by
  rintro ⟨hlt, hmap, -⟩
  rcases h with rfl | ⟨hge, -⟩
  · exact hmap (by decide)
  · exact absurd hlt (UInt8.not_lt.mpr hge)

theorem key_changes (past : UInt8 → UInt8) (d : UInt8) (hcount : s.ref.line.length ≤ s.code.pos) :
    Changes s (s.key past d) := by
  unfold key Drops Deletes RefEditor.key Editor.key RefEditor.Accepts
  by_cases hbs : d = 14 ∨ FalseBackspace past d
  · have hpr := not_printable_of_backspace hbs
    have hpos : s.code.pos ≤ if s.code.line = [] then s.code.pos else s.code.pos + 1 := by
      split <;> omega
    rcases hbs with rfl | hfalse
    · have hfalse : ¬ FalseBackspace past 14 := fun h => absurd h.1 (by decide)
      simp only [hpr, hfalse, false_and, true_or, if_true, decide_false, Bool.or_false]
      exact .backspace _ _ _ _ hpos
    · have hne : d ≠ 14 := by
        rintro rfl
        exact absurd hfalse.1 (by decide)
      simp only [hpr, hfalse, hne, false_and, or_true, if_true, if_false, decide_false,
        Bool.or_false, true_and]
      exact .deleted _ _ _ _ hpos
  have hne : d ≠ 14 := fun h => hbs (.inl h)
  have hfalse : ¬ FalseBackspace past d := fun h => hbs (.inr h)
  simp only [hne, hfalse, or_self, if_false, false_and, decide_false, Bool.or_false]
  by_cases hpr : Printable d
  · by_cases hroom : s.ref.line.length < inputMaxlen
    · have hend : s.ref.line ++ [keyChar s.ref.held d] ≠ [] := by simp
      simp only [hpr, hroom, and_self, true_and, if_true, hend, ne_eq, not_false_eq_true,
        decide_true, Bool.and_true]
      by_cases hpos : s.code.pos < inputMaxlen
      · have hmark : decide (s.Agrees d) = (keyChar s.code.shift d == keyChar s.ref.held d) := by
          rw [Bool.eq_iff_iff, decide_eq_true_iff, beq_iff_eq, keyChar_eq_iff hpr.1, Agrees]
        simp only [hpos, if_true, not_le.mpr hpos, decide_false, Bool.or_false, hmark]
        exact .typed _ _ _ _ _ hroom
      · simp only [hpos, if_false, not_lt.mp hpos, decide_true, Bool.or_true]
        exact .dropped _ _ _ _ _ hroom (not_lt.mp hpos)
    · have hpos : ¬ s.code.pos < inputMaxlen := by omega
      simp only [hroom, hpos, and_false, false_and, if_false, decide_false, Bool.or_false]
      exact .other _ _ _
  · simp only [hpr, false_and, if_false, decide_false, Bool.or_false]
    exact .other _ _ _

theorem Changes.inv (h : Inv s) (hs : Changes s s') : Inv s' := by
  obtain ⟨hroom, hcount, hmarked, hsame, hshorter⟩ := h
  have hcode : s.code.line.dropLast.length = s.code.line.length - 1 := List.length_dropLast
  have href : s.ref.line.dropLast.length = s.ref.line.length - 1 := List.length_dropLast
  cases hs with
  | backspace pos shift left right hpos =>
      refine ⟨by simp only; omega, by simp only; omega, ?_, ?_, ?_⟩
      · simp only [List.length_dropLast, hmarked]
      · intro hl
        cases hlost : s.lost with
        | false =>
            obtain ⟨hlen, hmarks⟩ := hsame hlost
            exact ⟨by simp only; omega, by simp only [hmarks, zipWith_dropLast hlen]⟩
        | true =>
            -- the reference line has become empty, and the other line is shorter
            have hnil : s.ref.line.dropLast = [] := by simpa [hlost] using hl
            have hlt := hshorter hlost
            rw [hnil, List.length_nil] at href
            have hcnil : s.code.line.dropLast = [] := by
              rw [← List.length_eq_zero_iff]
              omega
            have hmnil : s.marks.dropLast = [] := by
              rw [← List.length_eq_zero_iff, List.length_dropLast]
              omega
            simp only [hnil, hcnil, hmnil, List.zipWith_nil_left, and_self]
      · intro hl
        simp only [Bool.and_eq_true, decide_eq_true_eq, ne_eq] at hl
        have hlt := hshorter hl.1
        have hpos' := List.length_pos_iff_ne_nil.mpr hl.2
        simp only
        omega
  | deleted pos shift left right hpos =>
      have hnil : s.ref.line ≠ [] → s.lost = false → s.code.line ≠ [] := by
        intro hne hlost hcnil
        have := (hsame hlost).1
        rw [hcnil, List.length_nil, eq_comm, List.length_eq_zero_iff] at this
        exact hne this
      refine ⟨hroom, by simp only; omega, hmarked, ?_, ?_⟩
      · intro hl
        cases hlost : s.lost with
        | false =>
            obtain ⟨hlen, hmarks⟩ := hsame hlost
            have hrnil : s.ref.line = [] := by
              by_contra hne
              simp [hne, hnil hne hlost] at hl
            have hcnil : s.code.line = [] := by
              rw [← List.length_eq_zero_iff, hlen, hrnil, List.length_nil]
            rw [hcnil, hrnil] at hmarks
            simp only [hcnil, hrnil, hmarks, List.dropLast_nil, and_self]
        | true =>
            have hlt := hshorter hlost
            have hrnil : s.ref.line = [] := by simpa [hlost] using hl
            rw [hrnil, List.length_nil] at hlt
            omega
      · intro hl
        simp only [Bool.and_eq_true, decide_eq_true_eq] at hl
        have hpos' := List.length_pos_iff_ne_nil.mpr hl.2
        simp only
        cases hlost : s.lost with
        | false => have := (hsame hlost).1; omega
        | true => have := hshorter hlost; omega
  | typed c c' shift left right hlt =>
      refine ⟨?_, ?_, ?_, ?_, ?_⟩
      · simp only [List.length_append, List.length_singleton]
        omega
      · simp only [List.length_append, List.length_singleton]
        omega
      · simp only [List.length_append, List.length_singleton, hmarked]
      · intro hl
        obtain ⟨hlen, hmarks⟩ := hsame hl
        simp only [List.length_append, List.length_singleton, hlen, hmarks, true_and]
        rw [List.zipWith_append hlen]
        rfl
      · intro hl
        have := hshorter hl
        simpa using this
  | dropped c m shift left right hlt hpos =>
      refine ⟨?_, ?_, ?_, ?_, ?_⟩
      · simp only [List.length_append, List.length_singleton]
        omega
      · simp only [List.length_append, List.length_singleton]
        omega
      · simp only [List.length_append, List.length_singleton, hmarked]
      · intro hl
        exact absurd hl (by simp)
      · intro _
        simp only [List.length_append, List.length_singleton]
        cases hlost : s.lost with
        | false => have := (hsame hlost).1; omega
        | true => have := hshorter hlost; omega
  | other shift left right =>
      have hlost : (s.lost && decide (s.ref.line ≠ [])) = s.lost := by
        cases hlost : s.lost with
        | false => rfl
        | true =>
            have hlt := hshorter hlost
            have hne : s.ref.line ≠ [] := by
              rw [← List.length_pos_iff_ne_nil]
              omega
            simp [hne]
      rw [hlost]
      exact ⟨hroom, hcount, hmarked, hsame, hshorter⟩

theorem foldl_key_inv {events : List UInt8} {s : Session} (h : Inv s) :
    Inv (events.foldl (key past) s) := by
  induction events generalizing s with
  | nil => exact h
  | cons d events ih =>
      rw [List.foldl_cons]
      exact ih (Changes.inv h (key_changes past d h.count))

theorem foldl_key_code (events : List UInt8) (s : Session) :
    (events.foldl (key past) s).code = events.foldl (Editor.key past) s.code := by
  induction events generalizing s with
  | nil => rfl
  | cons d events ih => exact ih _

theorem foldl_key_ref (events : List UInt8) (s : Session) :
    (events.foldl (key past) s).ref = events.foldl RefEditor.key s.ref := by
  induction events generalizing s with
  | nil => rfl
  | cons d events ih => exact ih _

/-- The two lines are the same exactly if nothing is lost and all marks are set. -/
theorem Inv.line_eq_iff (h : Inv s) : s.code.line = s.ref.line ↔ s.Faithful := by
  unfold Faithful
  cases hlost : s.lost with
  | false =>
      obtain ⟨hlen, hmarks⟩ := h.same hlost
      rw [hmarks, zipWith_all_iff hlen]
      simp only [true_and]
  | true =>
      have hlt := h.shorter hlost
      have hne : s.code.line ≠ s.ref.line := fun heq => by
        rw [heq] at hlt
        omega
      simp only [hne, reduceCtorEq, false_and]

end Session

/-- With an empty line, `kbd_get_string` returns the line of the reference editor exactly if
the session of the two editors ends faithfully: no key has been dropped and no character deleted
since the line was last empty, and `shift_down` was right for every character that is left. -/
theorem line_editor_iff (past : UInt8 → UInt8) {k : Keyboard} (buf : List UInt8)
    {events : List UInt8} (left right : Bool) (hempty : cstr k.conInput = [])
    (hpos : k.bufpos = 0) (hreq : k.request = 0) (h28 : 28 ∉ events) :
    ∃ r, kbdGetString past k buf (events ++ [28]) = some r ∧
      (cstr r.1 = (events.foldl RefEditor.key ⟨[], left, right⟩).line ↔
        (events.foldl (Session.key past) (.start k.shiftDown left right)).Faithful) := by
  obtain ⟨r, hr, hline⟩ := kbdGetString_enter past buf events hreq h28
  have hstart : editorOf k = ⟨[], 0, k.shiftDown⟩ := by
    rw [editorOf, hempty, hpos]
  have hinv : Session.Inv (events.foldl (Session.key past) (.start k.shiftDown left right)) :=
    Session.foldl_key_inv (Session.start_inv k.shiftDown left right)
  refine ⟨r, hr, ?_⟩
  rw [hline, hstart, ← hinv.line_eq_iff, Session.foldl_key_code, Session.foldl_key_ref]
  rfl

/-- The theorem for a line that is typed, corrected and finished. -/
theorem line_editor_word : ∃ r, kbdGetString (fun _ => 0) (boot 0 0 plainScreen).kbd []
      ([42, 2, 30, 170, 14, 48] ++ [28]) = some r ∧
    (cstr r.1 = [33, 98] ↔ ([42, 2, 30, 170, 14, 48].foldl (Session.key fun _ => 0)
      (.start false false false)).Faithful) :=
  line_editor_iff (fun _ => 0) [] false false (by decide) rfl rfl (by decide)

/-- After a press and the release of the right shift key, the key `1` gives `!`. -/
theorem line_editor_right_shift :
    ¬ ∀ (past : UInt8 → UInt8) (k : Keyboard) (buf events : List UInt8) (left right : Bool),
      cstr k.conInput = [] → k.bufpos = 0 → k.request = 0 → k.shiftDown = (left || right) →
      28 ∉ events → ∃ r, kbdGetString past k buf (events ++ [28]) = some r ∧
        cstr r.1 = (events.foldl RefEditor.key ⟨[], left, right⟩).line := by
  intro h
  obtain ⟨r, hr, hline⟩ := h (fun _ => 0) (boot 0 0 plainScreen).kbd [] [54, 182, 2] false false
    (by decide) rfl rfl rfl (by decide)
  obtain ⟨r', hr', hline'⟩ := kbdGetString_enter (fun _ => 0) (k := (boot 0 0 plainScreen).kbd) []
    [54, 182, 2] rfl (by decide)
  have heq : r = r' := by rwa [hr, Option.some.injEq] at hr'
  have hcode : ([54, 182, 2].foldl (Editor.key fun _ => 0)
      (editorOf (boot 0 0 plainScreen).kbd)).line = [33] := by decide
  have href : ([54, 182, 2].foldl RefEditor.key ⟨[], false, false⟩).line = [49] := by decide
  rw [heq, hline', hcode, href] at hline
  exact absurd hline (by decide)

end Owmice.Console
