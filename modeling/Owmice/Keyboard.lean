import Owmice.CString
import Owmice.Runs
import Owmice.Terminal

/-! # The keyboard (`io/keyboard.h`)

The interrupt handler collects a line in `con_input`, and the main thread waits for a line or a
key.  The two interleave: the main thread's steps are single loads and stores of the variables
and bytes that they share, and an interrupt may come between any two of them.

`con_input` is bounded only by `bufpos`, which is reset by Enter and by a key that answers
`kbd_get_char`, also when the line keeps its text.

* `handler_effect`: what an interrupt can do to the variables;
* `step_counted`: nothing but such a reset makes the line longer than `bufpos` says;
* `keyboard_bounded`: a run that appends only to lines that `bufpos` counts stays within the
  128 characters;
* `keyboard_overflows`: a run that leaves them. -/

namespace Owmice.Console

open Screen

/-! ### Key codes -/

def chars (cs : List Char) : List UInt8 := cs.map fun c => c.toNat.toUInt8

/-- `keyboard_map`: the characters of the key codes; those not listed are 0. -/
def keyboardMap : List UInt8 :=
  [0, 27] ++ chars ['1', '2', '3', '4', '5', '6', '7', '8', '9', '0', '-', '='] ++ [8, 9] ++
    chars ['q', 'w', 'e', 'r', 't', 'y', 'u', 'i', 'o', 'p', '[', ']'] ++ [10, 0] ++
    chars ['a', 's', 'd', 'f', 'g', 'h', 'j', 'k', 'l', ';'] ++ [39, 96, 15, 92] ++
    chars ['z', 'x', 'c', 'v', 'b', 'n', 'm', ',', '.', '/'] ++ [15, 42, 0, 32, 0] ++
    List.replicate 10 0 ++ [0, 0, 0, 11, 0, 45, 12, 0, 13, 43, 0, 14]

/-- `keyboard_specialchars`: the upper characters of the first row. -/
def keyboardSpecialchars : List UInt8 :=
  [0, 27] ++ chars ['!', '@', '#', '$', '%', '^', '&', '*', '(', ')', '_', '+']

/-- `keyboard_map[(unsigned char) keycode]`: codes from 128 on read the memory behind the table,
`past`. -/
def keyboardMapAt (past : UInt8 → UInt8) (keycode : UInt8) : UInt8 :=
  if keycode < 128 then keyboardMap.getD keycode.toNat 0 else past keycode

/-- `KEY_UP`, `KEY_LEFT`, `KEY_RIGHT` and `KEY_DOWN`. -/
def arrowKeys : List UInt8 := [11, 12, 13, 14]

/-! ### The interrupt handler -/

/-- `INPUT_MAXLEN`. -/
def inputMaxlen : ℕ := 128
/-- `KBD_STRING`. -/
def kbdString : ℕ := 1
/-- `KBD_CHAR`. -/
def kbdChar : ℕ := 2

/-- The variables that the handler and the main thread share.  `charbuffer` is the one
character of the string of that name. -/
structure Keyboard where
  conInput : List UInt8
  bufpos : ℕ
  request : ℕ
  charbuffer : UInt8
  keychar : UInt8
  keycode : UInt8
  shiftDown : Bool
  term : Terminal

/-- The character of a key with the shift key taken into account. -/
def shifted (k : Keyboard) (keycode : UInt8) (c : UInt8) : UInt8 :=
  if k.shiftDown ∧ 2 ≤ keycode ∧ keycode ≤ 13 then keyboardSpecialchars.getD keycode.toNat 0 else c

/-- The end of `keyboard_handler_main`: a key that is pressed and gives a character. -/
def pressKey (k : Keyboard) : Keyboard :=
  if k.keychar = 0 then k
  else if inputMaxlen ≤ k.bufpos then k
  else if k.request = kbdChar then { k with request := 0, bufpos := 0 }
  else
    { k with
      bufpos := k.bufpos + 1
      charbuffer := k.keychar
      conInput := strcat k.conInput [k.keychar]
      term := termPutchar k.term k.keychar }

/-- `keyboard_handler_main`, for what it reads from the status and the data port. -/
def keyboardHandlerMain (past : UInt8 → UInt8) (k : Keyboard) (status data : UInt8) : Keyboard :=
  if status &&& 1 = 0 then k
  else
    let k := { k with keycode := data, keychar := keyboardMapAt past data }
    if k.keychar = 8 then
      if 0 < strlen k.conInput then
        { k with
          conInput := setAt k.conInput (strlen k.conInput - 1) 0
          bufpos := k.bufpos + 1
          term := termPutchar k.term k.keychar }
      else k
    else if k.keycode &&& 128 ≠ 0 then
      { k with shiftDown := if k.keycode = 170 then false else k.shiftDown, keychar := 0 }
    else if k.keychar = 15 then { k with shiftDown := true }
    else
      let k := { k with keychar := shifted k k.keycode k.keychar }
      if k.keychar ∈ arrowKeys then k
      else if k.keycode = 28 then
        { k with term := termPutchar k.term 10, request := 0, bufpos := 0 }
      else pressKey k

/-! ### The handler, key by key -/

section Handler

variable {past : UInt8 → UInt8} {k : Keyboard} {d : UInt8}

theorem keyboardMapAt_of_lt (h : d < 128) : keyboardMapAt past d = keyboardMap.getD d.toNat 0 :=
  if_pos h

theorem keyboardMapAt_enter (past : UInt8 → UInt8) : keyboardMapAt past 28 = 10 :=
  (keyboardMapAt_of_lt (by decide)).trans (by decide)

theorem handler_idle {status : UInt8} (h : status &&& 1 = 0) :
    keyboardHandlerMain past k status d = k := by
  simp only [keyboardHandlerMain, h, if_true]

theorem handler_backspace {status : UInt8} (hst : status &&& 1 ≠ 0) (h : keyboardMapAt past d = 8) :
    keyboardHandlerMain past k status d =
      if 0 < strlen k.conInput then
        { k with
          keycode := d
          keychar := 8
          conInput := setAt k.conInput (strlen k.conInput - 1) 0
          bufpos := k.bufpos + 1
          term := termPutchar k.term 8 }
      else { k with keycode := d, keychar := 8 } := by
  simp only [keyboardHandlerMain, hst, h, if_true, if_false]

/-- The release of a key. -/
theorem handler_release {status : UInt8} (hst : status &&& 1 ≠ 0) (h8 : keyboardMapAt past d ≠ 8)
    (hd : d &&& 128 ≠ 0) :
    keyboardHandlerMain past k status d =
      { k with
        keycode := d
        keychar := 0
        shiftDown := if d = 170 then false else k.shiftDown } := by
  simp only [keyboardHandlerMain, hst, h8, hd, if_true, if_false, ne_eq, not_false_eq_true]

theorem handler_shift {status : UInt8} (hst : status &&& 1 ≠ 0) (hd : d &&& 128 = 0)
    (h15 : keyboardMapAt past d = 15) :
    keyboardHandlerMain past k status d =
      { k with keycode := d, keychar := 15, shiftDown := true } := by
  have h8 : ¬ (15 : UInt8) = 8 := by decide
  simp only [keyboardHandlerMain, hst, h8, hd, h15, if_true, if_false, ne_eq, not_true_eq_false]

/-- A key that is neither a backspace nor a shift key is pressed. -/
theorem handler_press {status : UInt8} (hst : status &&& 1 ≠ 0) (h8 : keyboardMapAt past d ≠ 8)
    (hd : d &&& 128 = 0) (h15 : keyboardMapAt past d ≠ 15) :
    keyboardHandlerMain past k status d =
      let k' := { k with keycode := d, keychar := shifted k d (keyboardMapAt past d) }
      if k'.keychar ∈ arrowKeys then k'
      else if d = 28 then { k' with term := termPutchar k.term 10, request := 0, bufpos := 0 }
      else pressKey k' := by
  have hkey : ¬ d &&& 128 ≠ 0 := not_not.mpr hd
  unfold keyboardHandlerMain
  rw [if_neg hst]
  simp only
  rw [if_neg h8, if_neg hkey, if_neg h15]
  rfl

theorem handler_enter {status : UInt8} (hst : status &&& 1 ≠ 0) :
    keyboardHandlerMain past k status 28 =
      { k with
        keycode := 28
        keychar := 10
        term := termPutchar k.term 10
        request := 0
        bufpos := 0 } := by
  have hmap := keyboardMapAt_enter past
  have hten : shifted k 28 10 = 10 := by
    rw [shifted, if_neg]
    exact fun h => absurd h.2.2 (by decide)
  have harrow : (10 : UInt8) ∉ arrowKeys := by decide
  rw [handler_press hst (by rw [hmap]; decide) (by decide) (by rw [hmap]; decide), hmap, hten]
  simp only [harrow, if_true, if_false]

end Handler

/-! ### What an interrupt can do -/

/-- The interrupt cuts the last character of the line: a backspace, or the release of a key
that reads one. -/
def Erases (past : UInt8 → UInt8) (k : Keyboard) (status data : UInt8) : Prop :=
  status &&& 1 ≠ 0 ∧ keyboardMapAt past data = 8 ∧ 0 < strlen k.conInput

/-- A key with a character is pressed, and `bufpos` allows it. -/
def Takes (past : UInt8 → UInt8) (k : Keyboard) (status data : UInt8) : Prop :=
  status &&& 1 ≠ 0 ∧ data &&& 128 = 0 ∧
    keyboardMapAt past data ≠ 8 ∧ keyboardMapAt past data ≠ 15 ∧ data ≠ 28 ∧
    shifted k data (keyboardMapAt past data) ∉ 0 :: arrowKeys ∧ k.bufpos < inputMaxlen

/-- The interrupt appends a character: the key is not for `kbd_get_char`. -/
def Appends (past : UInt8 → UInt8) (k : Keyboard) (status data : UInt8) : Prop :=
  Takes past k status data ∧ k.request ≠ kbdChar

instance (past : UInt8 → UInt8) (k : Keyboard) (status data : UInt8) :
    Decidable (Erases past k status data) := by unfold Erases; infer_instance
instance (past : UInt8 → UInt8) (k : Keyboard) (status data : UInt8) :
    Decidable (Takes past k status data) := by unfold Takes; infer_instance
instance (past : UInt8 → UInt8) (k : Keyboard) (status data : UInt8) :
    Decidable (Appends past k status data) := by unfold Appends; infer_instance

/-- What an interrupt does to the variables. -/
inductive Effect (past : UInt8 → UInt8) (k : Keyboard) (status data : UInt8) : Keyboard → Prop
  | kept (keycode keychar : UInt8) (shiftDown : Bool) : ¬ Erases past k status data →
      ¬ Takes past k status data → ¬ (status &&& 1 ≠ 0 ∧ data = 28) →
      Effect past k status data
        { k with keycode := keycode, keychar := keychar, shiftDown := shiftDown }
  | erased : Erases past k status data →
      Effect past k status data
        { k with
          keycode := data
          keychar := 8
          conInput := setAt k.conInput (strlen k.conInput - 1) 0
          bufpos := k.bufpos + 1
          term := termPutchar k.term 8 }
  | entered : status &&& 1 ≠ 0 → data = 28 →
      Effect past k status data
        { k with
          keycode := data
          keychar := 10
          term := termPutchar k.term 10
          request := 0
          bufpos := 0 }
  | answered : Takes past k status data → k.request = kbdChar →
      Effect past k status data
        { k with
          keycode := data
          keychar := shifted k data (keyboardMapAt past data)
          request := 0
          bufpos := 0 }
  | appended : Takes past k status data → k.request ≠ kbdChar →
      Effect past k status data
        { k with
          keycode := data
          keychar := shifted k data (keyboardMapAt past data)
          bufpos := k.bufpos + 1
          charbuffer := shifted k data (keyboardMapAt past data)
          conInput := strcat k.conInput [shifted k data (keyboardMapAt past data)]
          term := termPutchar k.term (shifted k data (keyboardMapAt past data)) }

theorem Takes.char_ne_zero {past : UInt8 → UInt8} {k : Keyboard} {status data : UInt8}
    (h : Takes past k status data) : shifted k data (keyboardMapAt past data) ≠ 0 := fun h0 =>
  h.2.2.2.2.2.1 (List.mem_cons.mpr (.inl h0))

theorem handler_effect (past : UInt8 → UInt8) (k : Keyboard) (status data : UInt8) :
    Effect past k status data (keyboardHandlerMain past k status data) := by
  by_cases hst : status &&& 1 = 0
  · rw [handler_idle hst]
    exact .kept k.keycode k.keychar k.shiftDown (fun h => h.1 hst) (fun h => h.1 hst)
      (fun h => h.1 hst)
  by_cases hbs : keyboardMapAt past data = 8
  · rw [handler_backspace hst hbs]
    split
    case isTrue hlen => exact .erased ⟨hst, hbs, hlen⟩
    case isFalse hlen =>
      refine .kept data 8 k.shiftDown (fun h => hlen h.2.2) (fun h => h.2.2.1 hbs) ?_
      rintro ⟨-, rfl⟩
      exact absurd ((keyboardMapAt_enter past).symm.trans hbs) (by decide)
  by_cases hup : data &&& 128 = 0
  case neg =>
    rw [handler_release hst hbs hup]
    refine .kept data 0 _ (fun h => hbs h.2.1) (fun h => hup h.2.1) ?_
    rintro ⟨-, rfl⟩
    exact hup (by decide)
  by_cases hsh : keyboardMapAt past data = 15
  · rw [handler_shift hst hup hsh]
    refine .kept data 15 true (fun h => hbs h.2.1) (fun h => h.2.2.2.1 hsh) ?_
    rintro ⟨-, rfl⟩
    exact absurd ((keyboardMapAt_enter past).symm.trans hsh) (by decide)
  by_cases henter : data = 28
  · subst henter
    rw [handler_enter hst]
    exact .entered hst rfl
  rw [handler_press hst hbs hup hsh]
  simp only [henter, if_false]
  have hkept : ¬ Takes past k status data →
      Effect past k status data
        { k with keycode := data, keychar := shifted k data (keyboardMapAt past data) } := fun h =>
    .kept data _ k.shiftDown (fun h => hbs h.2.1) h (fun h => henter h.2)
  split
  case isTrue harrow => exact hkept fun h => h.2.2.2.2.2.1 (List.mem_cons_of_mem _ harrow)
  case isFalse harrow =>
    unfold pressKey
    simp only
    split
    case isTrue h0 => exact hkept fun h => h.char_ne_zero h0
    case isFalse h0 =>
      split
      case isTrue hpos => exact hkept fun h => absurd h.2.2.2.2.2.2 (not_lt.mpr hpos)
      case isFalse hpos =>
        have htakes : Takes past k status data :=
          ⟨hst, hup, hbs, hsh, henter, by rw [List.mem_cons, not_or]; exact ⟨h0, harrow⟩,
            not_le.mp hpos⟩
        split
        case isTrue hreq => exact .answered htakes hreq
        case isFalse hreq => exact .appended htakes hreq

theorem handler_of_erases {past : UInt8 → UInt8} {k : Keyboard} {status data : UInt8}
    (h : Erases past k status data) :
    keyboardHandlerMain past k status data =
      { k with
        keycode := data
        keychar := 8
        conInput := setAt k.conInput (strlen k.conInput - 1) 0
        bufpos := k.bufpos + 1
        term := termPutchar k.term 8 } := by
  rw [handler_backspace h.1 h.2.1, if_pos h.2.2]

theorem handler_of_appends {past : UInt8 → UInt8} {k : Keyboard} {status data : UInt8}
    (h : Appends past k status data) :
    keyboardHandlerMain past k status data =
      { k with
        keycode := data
        keychar := shifted k data (keyboardMapAt past data)
        bufpos := k.bufpos + 1
        charbuffer := shifted k data (keyboardMapAt past data)
        conInput := strcat k.conInput [shifted k data (keyboardMapAt past data)]
        term := termPutchar k.term (shifted k data (keyboardMapAt past data)) } := by
  have heffect := handler_effect past k status data
  generalize keyboardHandlerMain past k status data = k' at heffect
  cases heffect with
  | kept _ _ _ _ hno => exact absurd h.1 hno
  | erased herase => exact absurd herase.2.1 h.1.2.2.1
  | entered _ henter => exact absurd henter h.1.2.2.2.2.1
  | answered _ hreq => exact absurd hreq h.2
  | appended => rfl

/-! ### The main thread -/

/-- Where the main thread is. -/
inductive MainPc where
  /-- Not in a keyboard call. -/
  | idle
  /-- In `kbd_get_string`, `request` tested but not yet set. -/
  | stringTested
  /-- In the waiting loop of `kbd_get_string`. -/
  | stringWait
  /-- In `strcpy`, at the test of character `i`. -/
  | copy (i : ℕ)
  /-- In `strcpy`, character `i` tested but not yet copied. -/
  | store (i : ℕ)
  /-- In the `strlen` of `clearchar`, at byte `i`. -/
  | measure (i : ℕ)
  /-- In the `memset` of `clearchar` over `n` bytes, at byte `i`. -/
  | clear (i n : ℕ)
  /-- In `kbd_get_char`, `request` tested but not yet set. -/
  | charTested
  /-- In the waiting loop of `kbd_get_char`. -/
  | charWait
  /-- In `kbd_get_char`, before `keychar` is read. -/
  | charRead
deriving DecidableEq

/-- `buf` is the buffer of the last caller of `kbd_get_string`, and `result` what the last
`kbd_get_char` has returned. -/
structure System where
  kbd : Keyboard
  pc : MainPc
  buf : List UInt8
  result : UInt8

/-- One step of the main thread inside a call.  A waiting loop steps when `request` is 0. -/
def mainStep (s : System) : System :=
  match s.pc with
  | .idle => s
  | .stringTested => { s with kbd := { s.kbd with request := kbdString }, pc := .stringWait }
  | .stringWait => if s.kbd.request = 0 then { s with pc := .copy 0 } else s
  | .copy i =>
      if byteAt s.kbd.conInput i ≠ 0 then { s with pc := .store i }
      else { s with buf := setAt s.buf i 0, pc := .measure 0 }
  | .store i => { s with buf := setAt s.buf i (byteAt s.kbd.conInput i), pc := .copy (i + 1) }
  | .measure i =>
      if byteAt s.kbd.conInput i ≠ 0 then { s with pc := .measure (i + 1) }
      else { s with pc := .clear 0 i }
  | .clear i n =>
      if i < n then
        { s with
          kbd := { s.kbd with conInput := setAt s.kbd.conInput i 0 }
          pc := .clear (i + 1) n }
      else { s with pc := .idle }
  | .charTested => { s with kbd := { s.kbd with request := kbdChar }, pc := .charWait }
  | .charWait => if s.kbd.request = 0 then { s with pc := .charRead } else s
  | .charRead => { s with result := s.kbd.keychar, pc := .idle }

inductive KbdEvent where
  | key (status data : UInt8)
  | getString (buf : List UInt8)
  | getChar
  | main
deriving DecidableEq

/-- Interrupts at any time, and calls and steps of the main thread.  A call returns at once
when a request is pending. -/
inductive KbdStep (past : UInt8 → UInt8) : System → KbdEvent → System → Prop
  | key (s : System) (status data : UInt8) :
      KbdStep past s (.key status data)
        { s with kbd := keyboardHandlerMain past s.kbd status data }
  | getString (s : System) (buf : List UInt8) : s.pc = .idle →
      KbdStep past s (.getString buf)
        (if s.kbd.request = 0 then { s with pc := .stringTested, buf := buf } else s)
  | getChar (s : System) : s.pc = .idle →
      KbdStep past s .getChar (if s.kbd.request = 0 then { s with pc := .charTested } else s)
  | main (s : System) : s.pc ≠ .idle → KbdStep past s .main (mainStep s)

/-- The state after the boot: `in_buffer` is 130 zero bytes. -/
def boot (keychar keycode : UInt8) (term : Terminal) : System :=
  ⟨⟨List.replicate 130 0, 0, 0, 97, keychar, keycode, false, term⟩, .idle, [], 0⟩

/-! ### The bound -/

/-- The line has at most 128 characters, nothing behind the 130 bytes of `in_buffer` has been
written, and the caller of `kbd_get_string` has been given at most 129 bytes, the zero byte
included. -/
structure Bounded (s : System) : Prop where
  line : strlen s.kbd.conInput ≤ inputMaxlen
  buffer : s.kbd.conInput.length ≤ 130
  caller : ∀ i, s.pc = .copy i ∨ s.pc = .store i → i + 1 ≤ 129

/-- `bufpos` counts the characters of the line. -/
def Counted (k : Keyboard) : Prop := strlen k.conInput ≤ k.bufpos

/-- A character is appended only to a line that `bufpos` counts. -/
def LineCounted (past : UInt8 → UInt8) (s : System) : KbdEvent → Prop
  | .key status data => Appends past s.kbd status data → Counted s.kbd
  | _ => True

instance (k : Keyboard) : Decidable (Counted k) := by unfold Counted; infer_instance
instance (past : UInt8 → UInt8) (s : System) (e : KbdEvent) : Decidable (LineCounted past s e) := by
  unfold LineCounted
  split <;> infer_instance

/-! ### What makes the counter wrong -/

/-- The interrupt sets `bufpos` back: Enter, or a key that answers `kbd_get_char`. -/
def Resets (past : UInt8 → UInt8) (k : Keyboard) (status data : UInt8) : Prop :=
  status &&& 1 ≠ 0 ∧ (data = 28 ∨ Takes past k status data ∧ k.request = kbdChar)

theorem strlen_setAt_zero (b : List UInt8) (i : ℕ) : strlen (setAt b i 0) ≤ strlen b := by
  rcases le_or_gt (strlen b) i with hle | hlt
  · have hsame : cstr (setAt b i 0) = cstr b := cstr_setAt_of_le hle
    exact (congrArg List.length hsame).le
  · have hzero : byteAt (setAt b i 0) i = 0 := by rw [byteAt_setAt, if_pos rfl]
    exact (strlen_le_of_zero hzero).trans hlt.le

theorem key_counted {past : UInt8 → UInt8} {k : Keyboard} {status data : UInt8} (h : Counted k)
    (hno : ¬ Resets past k status data) : Counted (keyboardHandlerMain past k status data) := by
  have heffect := handler_effect past k status data
  generalize keyboardHandlerMain past k status data = k' at heffect
  unfold Counted at h ⊢
  cases heffect with
  | kept => exact h
  | erased =>
      have hcut := strlen_setAt_zero k.conInput (strlen k.conInput - 1)
      exact hcut.trans (h.trans (Nat.le_succ _))
  | entered hst henter => exact absurd ⟨hst, .inl henter⟩ hno
  | answered htakes hreq => exact absurd ⟨htakes.1, .inr ⟨htakes, hreq⟩⟩ hno
  | appended htakes => simpa only [strlen_strcat _ htakes.char_ne_zero] using Nat.succ_le_succ h

/-- Only an interrupt that sets `bufpos` back can make it smaller than the line. -/
theorem step_counted {past : UInt8 → UInt8} {s s' : System} {e : KbdEvent} (h : Counted s.kbd)
    (hno : ∀ status data, e = .key status data → ¬ Resets past s.kbd status data)
    (hs : KbdStep past s e s') : Counted s'.kbd := by
  cases hs with
  | key status data => exact key_counted h (hno status data rfl)
  | getString => split <;> exact h
  | getChar => split <;> exact h
  | main =>
      unfold mainStep
      cases s.pc with
      | clear i n =>
          simp only
          split
          · exact (strlen_setAt_zero s.kbd.conInput i).trans h
          · exact h
      | stringWait => simp only; split <;> exact h
      | copy => simp only; split <;> exact h
      | measure => simp only; split <;> exact h
      | charWait => simp only; split <;> exact h
      | _ => exact h

/-! ### The invariant -/

/-- The loops of the main thread are inside of a line. -/
def MainPc.InLine : MainPc → Prop
  | copy i => i ≤ inputMaxlen
  | store i => i < inputMaxlen
  | measure i => i ≤ inputMaxlen
  | clear _ n => n ≤ inputMaxlen
  | _ => True

/-- The bytes of `in_buffer` from 128 on are zero, and the loops of the main thread have not
gone past them. -/
structure LineInv (s : System) : Prop where
  size : s.kbd.conInput.length = 130
  zero : ∀ i, inputMaxlen ≤ i → byteAt s.kbd.conInput i = 0
  pc : s.pc.InLine

theorem LineInv.bounded {s : System} (h : LineInv s) : Bounded s where
  line := strlen_le_of_zero (h.zero _ le_rfl)
  buffer := h.size.le
  caller i hi := by
    have hpc := h.pc
    rcases hi with hi | hi
    · rw [hi, MainPc.InLine, inputMaxlen] at hpc
      omega
    · rw [hi, MainPc.InLine, inputMaxlen] at hpc
      omega

theorem boot_lineInv (keychar keycode : UInt8) (term : Terminal) :
    LineInv (boot keychar keycode term) where
  size := by simp [boot]
  zero i _ := by
    simp only [boot, byteAt, List.getD_eq_getElem?_getD, List.getElem?_replicate]
    split <;> rfl
  pc := trivial

/-- A store inside the line keeps the size of the buffer and the zero bytes at its end. -/
theorem setAt_line {b : List UInt8} {i : ℕ} {v : UInt8} (hsize : b.length = 130)
    (hzero : ∀ j, inputMaxlen ≤ j → byteAt b j = 0) (hi : i ≤ inputMaxlen)
    (hv : i < inputMaxlen ∨ v = 0) :
    (setAt b i v).length = 130 ∧ ∀ j, inputMaxlen ≤ j → byteAt (setAt b i v) j = 0 := by
  simp only [inputMaxlen] at *
  constructor
  · rw [length_setAt]
    omega
  · intro j hj
    rw [byteAt_setAt]
    split
    · rcases hv with hv | hv
      · omega
      · exact hv
    · exact hzero j hj

/-- An interrupt keeps the invariant when the line that it appends to is counted: `bufpos` is below
128 then. -/
theorem key_lineInv {past : UInt8 → UInt8} {s : System} {status data : UInt8} (h : LineInv s)
    (hcount : LineCounted past s (.key status data)) :
    LineInv { s with kbd := keyboardHandlerMain past s.kbd status data } := by
  have hlen := h.bounded.line
  have heffect := handler_effect past s.kbd status data
  generalize keyboardHandlerMain past s.kbd status data = k at heffect
  cases heffect with
  | kept => exact ⟨h.size, h.zero, h.pc⟩
  | erased herase =>
      have hpos := herase.2.2
      obtain ⟨h1, h2⟩ := setAt_line h.size h.zero
        (show strlen s.kbd.conInput - 1 ≤ inputMaxlen by omega) (.inr rfl)
      exact ⟨h1, h2, h.pc⟩
  | entered => exact ⟨h.size, h.zero, h.pc⟩
  | answered => exact ⟨h.size, h.zero, h.pc⟩
  | appended htakes hreq =>
      have hlt : strlen s.kbd.conInput < inputMaxlen :=
        (hcount ⟨htakes, hreq⟩).trans_lt htakes.2.2.2.2.2.2
      obtain ⟨h1, h2⟩ := setAt_line h.size h.zero hlen (.inl hlt)
      obtain ⟨h1, h2⟩ := setAt_line h1 h2 (show strlen s.kbd.conInput + 1 ≤ inputMaxlen from hlt)
        (.inr rfl)
      rw [← strcat_single _ htakes.char_ne_zero] at h1 h2
      exact ⟨h1, h2, h.pc⟩

/-- So do the steps of the main thread. -/
theorem mainStep_lineInv {s : System} (h : LineInv s) : LineInv (mainStep s) := by
  have hin := h.pc
  have hpast : ∀ i, byteAt s.kbd.conInput i ≠ 0 → i < inputMaxlen := by
    intro i hi
    by_contra hle
    exact hi (h.zero i (not_lt.mp hle))
  unfold mainStep
  cases hpc : s.pc with
  | idle => exact h
  | stringTested => exact ⟨h.size, h.zero, trivial⟩
  | stringWait =>
      simp only
      split
      · exact ⟨h.size, h.zero, Nat.zero_le _⟩
      · exact h
  | copy i =>
      simp only
      split
      case isTrue hi => exact ⟨h.size, h.zero, hpast i hi⟩
      case isFalse => exact ⟨h.size, h.zero, Nat.zero_le _⟩
  | store i =>
      rw [hpc] at hin
      exact ⟨h.size, h.zero, hin⟩
  | measure i =>
      rw [hpc] at hin
      simp only
      split
      case isTrue hi => exact ⟨h.size, h.zero, hpast i hi⟩
      case isFalse => exact ⟨h.size, h.zero, hin⟩
  | clear i n =>
      rw [hpc] at hin
      have hn : n ≤ inputMaxlen := hin
      simp only
      split
      case isTrue hi =>
        obtain ⟨h1, h2⟩ := setAt_line h.size h.zero (hi.le.trans hn) (.inr rfl)
        exact ⟨h1, h2, hn⟩
      case isFalse => exact ⟨h.size, h.zero, trivial⟩
  | charTested => exact ⟨h.size, h.zero, trivial⟩
  | charWait =>
      simp only
      split
      · exact ⟨h.size, h.zero, trivial⟩
      · exact h
  | charRead => exact ⟨h.size, h.zero, trivial⟩

theorem step_lineInv {past : UInt8 → UInt8} {s s' : System} {e : KbdEvent} (h : LineInv s)
    (hcount : LineCounted past s e) (hs : KbdStep past s e s') : LineInv s' := by
  cases hs with
  | key status data => exact key_lineInv h hcount
  | getString buf =>
      split
      · exact ⟨h.size, h.zero, trivial⟩
      · exact h
  | getChar =>
      split
      · exact ⟨h.size, h.zero, trivial⟩
      · exact h
  | main => exact mainStep_lineInv h

/-- A run from the boot that appends only to lines that `bufpos` counts stays within the buffers. -/
theorem keyboard_bounded {past : UInt8 → UInt8} {keychar keycode : UInt8} {term : Terminal}
    {tr : List (System × KbdEvent)} {s : System}
    (hrun : Run (KbdStep past) (boot keychar keycode term) tr s)
    (hcount : ∀ p ∈ tr, LineCounted past p.1 p.2) : ∀ x ∈ visited tr s, Bounded x := fun x hx =>
  LineInv.bounded (hrun.invariant_visited (G := LineCounted past)
    (fun _ _ _ h hg hs => step_lineInv h hg hs) (boot_lineInv keychar keycode term) hcount x hx)

/-! ### A run with two calls -/

/-- The event can happen: a call outside of a call, and a step inside of one. -/
def KbdEvent.Enabled (s : System) : KbdEvent → Prop
  | key _ _ => True
  | getString _ => s.pc = .idle
  | getChar => s.pc = .idle
  | main => s.pc ≠ .idle

instance (s : System) (e : KbdEvent) : Decidable (e.Enabled s) := by
  unfold KbdEvent.Enabled
  split <;> infer_instance

/-- What an event leads to. -/
def System.handle (past : UInt8 → UInt8) (s : System) : KbdEvent → System
  | .key status data => { s with kbd := keyboardHandlerMain past s.kbd status data }
  | .getString buf => if s.kbd.request = 0 then { s with pc := .stringTested, buf := buf } else s
  | .getChar => if s.kbd.request = 0 then { s with pc := .charTested } else s
  | .main => mainStep s

theorem KbdStep.handle {past : UInt8 → UInt8} {s : System} {e : KbdEvent} (h : e.Enabled s) :
    KbdStep past s e (s.handle past e) := by
  cases e with
  | key status data => exact .key s status data
  | getString buf => exact .getString s buf h
  | getChar => exact .getChar s h
  | main => exact .main s h

/-- A terminal after `term_cls` in a black and white screen. -/
def plainScreen : Terminal := termCls ⟨0, 0, 7, true, 1, 0, fun _ => 0⟩

/-- `ab`, a backspace, `c` and Enter for `kbd_get_string`, which copies and clears the line; then
`d`, `kbd_get_char` with the answer `e`, and a backspace for the `d`. -/
def twoCalls : List KbdEvent :=
  [.key 1 30, .key 1 48, .getString [], .main, .key 1 14, .key 1 46, .key 1 28] ++
    List.replicate 12 .main ++
    [.key 1 32, .getChar, .main, .key 1 18, .main, .main, .key 1 14]

/-- The run of the two calls stays within the buffers; they return `ac` and `e`. -/
theorem keyboard_bounded_calls :
    (twoCalls.foldl (System.handle fun _ => 0) (boot 0 0 plainScreen)).buf = [97, 99, 0] ∧
      (twoCalls.foldl (System.handle fun _ => 0) (boot 0 0 plainScreen)).result = 101 ∧
      ∀ x ∈ visited (traceOf (System.handle fun _ => 0) (boot 0 0 plainScreen) twoCalls)
        (twoCalls.foldl (System.handle fun _ => 0) (boot 0 0 plainScreen)), Bounded x := by
  have henabled : ∀ p ∈ traceOf (System.handle fun _ => 0) (boot 0 0 plainScreen) twoCalls,
      p.2.Enabled p.1 := by decide +kernel
  have hcount : ∀ p ∈ traceOf (System.handle fun _ => 0) (boot 0 0 plainScreen) twoCalls,
      LineCounted (fun _ => 0) p.1 p.2 := by decide +kernel
  refine ⟨by decide +kernel, by decide +kernel, ?_⟩
  exact keyboard_bounded (.of_events twoCalls _ fun p hp => .handle (henabled p hp)) hcount

/-! ### A line that is too long -/

/-- The key `a` in line mode. -/
theorem press_a (past : UInt8 → UInt8) (k : Keyboard) (hshift : k.shiftDown = false)
    (hpos : k.bufpos < inputMaxlen) (hreq : k.request = 0) :
    keyboardHandlerMain past k 1 30 =
      { k with
        keycode := 30
        keychar := 97
        bufpos := k.bufpos + 1
        charbuffer := 97
        conInput := strcat k.conInput [97]
        term := termPutchar k.term 97 } := by
  have hmap : keyboardMapAt past 30 = 97 := (keyboardMapAt_of_lt (by decide)).trans (by decide)
  have hpos' : ¬ inputMaxlen ≤ k.bufpos := by omega
  rw [handler_press (by decide) (by rw [hmap]; decide) (by decide) (by rw [hmap]; decide), hmap]
  simp [shifted, hshift, arrowKeys, pressKey, hpos', hreq, kbdChar]

/-- From a line to which `n` more characters bring 128, a run leads out of the bound: Enter
gives the counter its room back, but leaves the text. -/
theorem overflow_from (past : UInt8 → UInt8) : ∀ (n : ℕ) (s : System),
    strlen s.kbd.conInput + n = inputMaxlen → s.kbd.bufpos + n ≤ inputMaxlen →
      s.kbd.shiftDown = false → s.kbd.request = 0 →
      ∃ tr s', Run (KbdStep past) s tr s' ∧ ¬ Bounded s'
  | 0, s, hlen, _, hshift, _ => by
      have henter : keyboardHandlerMain past s.kbd 1 28 = _ := handler_enter (by decide)
      have hkey := press_a past (keyboardHandlerMain past s.kbd 1 28)
        (by rw [henter]; exact hshift) (by simp only [henter, inputMaxlen]; omega) (by rw [henter])
      have hcat : (keyboardHandlerMain past (keyboardHandlerMain past s.kbd 1 28) 1 30).conInput =
          strcat s.kbd.conInput [97] := by
        rw [hkey]
        simp only [henter]
      refine ⟨_, _, .cons (.key s 1 28) (.single (.key _ 1 30)), fun hb => ?_⟩
      have hline := hb.line
      simp only [hcat, strlen_strcat _ (show (97 : UInt8) ≠ 0 by decide)] at hline
      omega
  | n + 1, s, hlen, hpos, hshift, hreq => by
      have hkey := press_a past s.kbd hshift (by omega) hreq
      obtain ⟨tr, s', hrun, hs'⟩ := overflow_from past n
        { s with kbd := keyboardHandlerMain past s.kbd 1 30 }
        (by simp only [hkey, strlen_strcat _ (show (97 : UInt8) ≠ 0 by decide)]; omega)
        (by simp only [hkey]; omega) (by rw [hkey]; exact hshift) (by rw [hkey]; exact hreq)
      exact ⟨_, s', .cons (.key s 1 30) hrun, hs'⟩

/-- There is a run from the boot that leaves the bound: 128 times the key `a`, Enter, and the
key `a` again. -/
theorem keyboard_overflows :
    ¬ ∀ (past : UInt8 → UInt8) (keychar keycode : UInt8) (term : Terminal)
      (tr : List (System × KbdEvent)) (s : System),
      Run (KbdStep past) (boot keychar keycode term) tr s → ∀ x ∈ visited tr s, Bounded x := by
  intro h
  have hlen : strlen (boot 0 0 plainScreen).kbd.conInput + 128 = inputMaxlen := by
    simp [boot, strlen, inputMaxlen]
  obtain ⟨tr, s, hrun, hs⟩ := overflow_from (fun _ => 0) 128 (boot 0 0 plainScreen) hlen le_rfl
    rfl rfl
  exact hs (h _ 0 0 plainScreen tr s hrun s (by simp [visited]))

end Owmice.Console
