import Owmice.LineEditor

/-! # The hand-over from the handler to the main thread

The answer to `kbd_get_char` waits in `keychar` and the answer to `kbd_get_string` in
`con_input` until the main thread fetches them, and every later interrupt writes to the same
variables.  Three variables beside the system say what should be handed over: the character of
the key that answered, the line as it was at its Enter, and what has been typed since.

* `step_inv`: a step that disturbs no hand-over keeps what the three variables say;
* `handed_over`: in a run of such steps every call returns what it should, and what is typed
  after Enter is kept. -/

namespace Owmice.Console

open Screen

/-! ### What should be handed over -/

/-- The system, with the line at the Enter that answered the last `kbd_get_string`, what has been
typed since, and the character of the key that answered the last `kbd_get_char`. -/
structure Handover where
  sys : System
  line : List UInt8
  after : List UInt8
  answer : UInt8

/-- A key with a character is pressed, whether or not the handler takes it. -/
def Pressed (past : UInt8 → UInt8) (k : Keyboard) (status data : UInt8) : Prop :=
  status &&& 1 ≠ 0 ∧ data &&& 128 = 0 ∧
    keyboardMapAt past data ≠ 8 ∧ keyboardMapAt past data ≠ 15 ∧ data ≠ 28 ∧
    shifted k data (keyboardMapAt past data) ∉ 0 :: arrowKeys

/-- A character is typed for the line: its key answers no `kbd_get_char`. -/
def Typed (past : UInt8 → UInt8) (k : Keyboard) (status data : UInt8) : Prop :=
  Pressed past k status data ∧
    ¬ (k.request = kbdChar ∧ (keyboardHandlerMain past k status data).request = 0)

instance (past : UInt8 → UInt8) (k : Keyboard) (status data : UInt8) :
    Decidable (Pressed past k status data) := by unfold Pressed; infer_instance
instance (past : UInt8 → UInt8) (k : Keyboard) (status data : UInt8) :
    Decidable (Typed past k status data) := by unfold Typed; infer_instance

/-- What an interrupt does to the characters that have been typed. -/
def afterKey (past : UInt8 → UInt8) (k : Keyboard) (status data : UInt8) (after : List UInt8) :
    List UInt8 :=
  if Typed past k status data then after ++ [shifted k data (keyboardMapAt past data)]
  else if status &&& 1 ≠ 0 ∧ keyboardMapAt past data = 8 then after.dropLast
  else after

/-- An interrupt.  One that sets `request` back answers the call. -/
def Handover.key (past : UInt8 → UInt8) (h : Handover) (status data : UInt8) : Handover :=
  let k := h.sys.kbd
  let k' := keyboardHandlerMain past k status data
  { sys := { h.sys with kbd := k' }
    line := if k.request = kbdString ∧ k'.request = 0 then cstr k.conInput else h.line
    after :=
      if k.request = kbdString ∧ k'.request = 0 then [] else afterKey past k status data h.after
    answer :=
      if k.request = kbdChar ∧ k'.request = 0 then shifted k data (keyboardMapAt past data)
      else h.answer }

inductive HandStep (past : UInt8 → UInt8) : Handover → KbdEvent → Handover → Prop
  | key (h : Handover) (status data : UInt8) : HandStep past h (.key status data)
      (h.key past status data)
  | other (h : Handover) (e : KbdEvent) (s : System) : (∀ status data, e ≠ .key status data) →
      KbdStep past h.sys e s → HandStep past h e { h with sys := s }

/-- The three variables only watch. -/
theorem HandStep.kbdStep {past : UInt8 → UInt8} {h h' : Handover} {e : KbdEvent}
    (hs : HandStep past h e h') : KbdStep past h.sys e h'.sys := by
  cases hs with
  | key status data => exact .key h.sys status data
  | other _ _ _ hs => exact hs

/-- And they watch every step. -/
theorem exists_handStep {past : UInt8 → UInt8} (h : Handover) {e : KbdEvent} {s : System}
    (hs : KbdStep past h.sys e s) : ∃ h', HandStep past h e h' ∧ h'.sys = s := by
  cases e with
  | key status data =>
      cases hs
      exact ⟨_, .key h status data, rfl⟩
  | getString buf => exact ⟨_, .other h _ s (by simp) hs, rfl⟩
  | getChar => exact ⟨_, .other h _ s (by simp) hs, rfl⟩
  | main => exact ⟨_, .other h _ s (by simp) hs, rfl⟩

/-- A key has answered `kbd_get_char`, which has not read the answer yet. -/
def Answered (s : System) : Prop := s.pc = .charRead ∨ s.pc = .charWait ∧ s.kbd.request = 0

/-- The answer to `kbd_get_string` is being fetched. -/
def Fetching (s : System) : Prop :=
  match s.pc with
  | .stringWait => s.kbd.request = 0
  | .copy _ | .store _ | .measure _ | .clear _ _ => True
  | _ => False

/-- A call returns what it should, and outside of the fetching the line is what has been typed. -/
structure HandedOver (h : Handover) : Prop where
  char : h.sys.pc = .idle → h.sys.result = h.answer
  string : h.sys.pc = .idle → cstr h.sys.buf = h.line
  kept : ¬ Fetching h.sys → cstr h.sys.kbd.conInput = h.after

/-! ### Interrupts that disturb nothing -/

/-- What an interrupt stores in `keychar`. -/
def keycharOf (past : UInt8 → UInt8) (k : Keyboard) (data : UInt8) : UInt8 :=
  if keyboardMapAt past data = 8 then 8
  else if data &&& 128 ≠ 0 then 0
  else if keyboardMapAt past data = 15 then 15
  else shifted k data (keyboardMapAt past data)

/-- A character may be appended: outside of the fetching, and during the `memset` to what it has
cleared. -/
def MayAppend (s : System) : Prop :=
  match s.pc with
  | .stringWait => s.kbd.request ≠ 0
  | .copy _ | .store _ | .measure _ => False
  | .clear i n => strlen s.kbd.conInput < i ∨ i = n
  | _ => True

/-- The last character may be cut: it has been copied, or nothing is being copied. -/
def MayErase (s : System) : Prop :=
  match s.pc with
  | .stringWait => s.kbd.request ≠ 0
  | .copy i | .store i => strlen s.kbd.conInput ≤ i
  | _ => True

/-- There is room for a character, for `bufpos` as well as in `in_buffer`. -/
def HasRoom (k : Keyboard) : Prop := k.bufpos < inputMaxlen ∧ strlen k.conInput < inputMaxlen

/-- The interrupt disturbs no hand-over, and there is room for what is typed. -/
def Undisturbed (past : UInt8 → UInt8) (h : Handover) : KbdEvent → Prop
  | .key status data =>
      (Answered h.sys → status &&& 1 ≠ 0 →
        keycharOf past h.sys.kbd data = h.sys.kbd.keychar) ∧
      (Typed past h.sys.kbd status data → HasRoom h.sys.kbd ∧ MayAppend h.sys) ∧
      (Erases past h.sys.kbd status data → MayErase h.sys)
  | _ => True

instance (k : Keyboard) : Decidable (HasRoom k) := by unfold HasRoom; infer_instance
instance (s : System) : Decidable (Answered s) := by unfold Answered; infer_instance
instance (s : System) : Decidable (MayAppend s) := by unfold MayAppend; split <;> infer_instance
instance (s : System) : Decidable (MayErase s) := by unfold MayErase; split <;> infer_instance
instance (past : UInt8 → UInt8) (h : Handover) : (e : KbdEvent) → Decidable (Undisturbed past h e)
  | .key _ _ => inferInstanceAs (Decidable (_ ∧ _))
  | .getString _ => inferInstanceAs (Decidable True)
  | .getChar => inferInstanceAs (Decidable True)
  | .main => inferInstanceAs (Decidable True)

/-! ### The invariant -/

/-- `request` is pending only in the waiting loops. -/
def RequestOk (s : System) : Prop :=
  match s.pc with
  | .stringWait => s.kbd.request = 0 ∨ s.kbd.request = kbdString
  | .charWait => s.kbd.request = 0 ∨ s.kbd.request = kbdChar
  | _ => s.kbd.request = 0

/-- `keychar` holds an answer that has not been read. -/
def CharOk (h : Handover) : Prop :=
  (Answered h.sys → h.sys.kbd.keychar = h.answer) ∧
    (¬ Answered h.sys → h.sys.result = h.answer)

/-- The first `i` characters of the line have been copied, and the others are still there. -/
structure Copied (h : Handover) (i : ℕ) : Prop where
  le : i ≤ h.line.length
  text : ∀ c ∈ h.line, c ≠ 0
  copied : ∀ j < i, byteAt h.sys.buf j = byteAt h.line j
  rest : ∀ j, i ≤ j → j ≤ h.line.length → byteAt h.sys.kbd.conInput j = byteAt h.line j
  after : h.after = []

/-- The `memset` over `n` bytes is at byte `i`: the line is what has been typed as soon as its
first byte is cleared. -/
structure Cleared (h : Handover) (i n : ℕ) : Prop where
  le : i ≤ n
  string : cstr h.sys.buf = h.line
  old : i = 0 → i < n → h.after = []
  typed : 0 < i ∨ i = n → cstr h.sys.kbd.conInput = h.after
  short : 0 < i → i < n → strlen h.sys.kbd.conInput ≤ i

/-- Where the line is. -/
def StringOk (h : Handover) : Prop :=
  match h.sys.pc with
  | .stringTested => cstr h.sys.kbd.conInput = h.after
  | .stringWait =>
      (h.sys.kbd.request = 0 → cstr h.sys.kbd.conInput = h.line ∧ h.after = []) ∧
        (h.sys.kbd.request ≠ 0 → cstr h.sys.kbd.conInput = h.after)
  | .copy i => Copied h i
  | .store i => i < h.line.length ∧ Copied h i
  | .measure _ => cstr h.sys.buf = h.line ∧ h.after = []
  | .clear i n => Cleared h i n
  | _ => cstr h.sys.buf = h.line ∧ cstr h.sys.kbd.conInput = h.after

structure HandInv (h : Handover) : Prop where
  request : RequestOk h.sys
  char : CharOk h
  string : StringOk h

theorem HandInv.handedOver {h : Handover} (hi : HandInv h) : HandedOver h where
  char hpc := hi.char.2 (by simp [Answered, hpc])
  string hpc := by
    have hs := hi.string
    rw [StringOk, hpc] at hs
    exact hs.1
  kept hf := by
    have hs := hi.string
    unfold StringOk at hs
    unfold Fetching at hf
    cases hpc : h.sys.pc <;> simp only [hpc] at hs hf
    case stringTested => exact hs
    case stringWait => exact hs.2 hf
    case idle => exact hs.2
    case charTested => exact hs.2
    case charWait => exact hs.2
    case charRead => exact hs.2
    all_goals exact absurd trivial hf

/-! ### Interrupts -/

section Interrupt

variable {past : UInt8 → UInt8} {k : Keyboard} {status data : UInt8}

theorem handler_keychar (hst : status &&& 1 ≠ 0) :
    (keyboardHandlerMain past k status data).keychar = keycharOf past k data := by
  unfold keycharOf
  by_cases h8 : keyboardMapAt past data = 8
  · rw [handler_backspace hst h8, if_pos h8]
    split <;> rfl
  rw [if_neg h8]
  by_cases hup : data &&& 128 = 0
  case neg => rw [handler_release hst h8 hup, if_pos hup]
  by_cases h15 : keyboardMapAt past data = 15
  · rw [handler_shift hst hup h15, if_neg (not_not.mpr hup), if_pos h15]
  rw [handler_press hst h8 hup h15, if_neg (not_not.mpr hup), if_neg h15]
  simp only
  split
  · rfl
  · split
    · rfl
    · unfold pressKey
      split
      · rfl
      · split
        · rfl
        · split <;> rfl

theorem keycharOf_takes (h : Takes past k status data ∨ data = 28) :
    keycharOf past k data = shifted k data (keyboardMapAt past data) := by
  unfold keycharOf
  rcases h with h | rfl
  · rw [if_neg h.2.2.1, if_neg (not_not.mpr h.2.1), if_neg h.2.2.2.1]
  · rw [keyboardMapAt_enter, if_neg (by decide), if_neg (by decide), if_neg (by decide)]

/-- `request` stays or is set back; it is set back by Enter, and by a key for `kbd_get_char`. -/
theorem handler_request (past : UInt8 → UInt8) (k : Keyboard) (status data : UInt8) :
    (keyboardHandlerMain past k status data).request = k.request ∨
      (keyboardHandlerMain past k status data).request = 0 ∧ status &&& 1 ≠ 0 ∧
        (data = 28 ∨ Takes past k status data ∧ k.request = kbdChar) := by
  have heffect := handler_effect past k status data
  generalize keyboardHandlerMain past k status data = k' at heffect
  cases heffect with
  | kept => exact .inl rfl
  | erased => exact .inl rfl
  | entered hst henter => exact .inr ⟨rfl, hst, .inl henter⟩
  | answered htakes hreq => exact .inr ⟨rfl, htakes.1, .inr ⟨htakes, hreq⟩⟩
  | appended => exact .inl rfl

theorem Takes.pressed (h : Takes past k status data) : Pressed past k status data :=
  ⟨h.1, h.2.1, h.2.2.1, h.2.2.2.1, h.2.2.2.2.1, h.2.2.2.2.2.1⟩

theorem Pressed.takes (h : Pressed past k status data) (hpos : k.bufpos < inputMaxlen) :
    Takes past k status data :=
  ⟨h.1, h.2.1, h.2.2.1, h.2.2.2.1, h.2.2.2.2.1, h.2.2.2.2.2, hpos⟩

/-- The handler appends what is typed while `bufpos` is below 128. -/
theorem appends_iff_typed :
    Appends past k status data ↔ Typed past k status data ∧ k.bufpos < inputMaxlen := by
  constructor
  · intro h
    exact ⟨⟨h.1.pressed, fun hno => h.2 hno.1⟩, h.1.2.2.2.2.2.2⟩
  · rintro ⟨⟨hpressed, hno⟩, hpos⟩
    have htakes := hpressed.takes hpos
    refine ⟨htakes, fun hreq => hno ⟨hreq, ?_⟩⟩
    have heffect := handler_effect past k status data
    generalize keyboardHandlerMain past k status data = k' at heffect
    cases heffect with
    | kept _ _ _ _ hnot => exact absurd htakes hnot
    | erased herase => exact absurd herase.2.1 htakes.2.2.1
    | entered => rfl
    | answered => rfl
    | appended _ hne => exact absurd hreq hne

/-- The line follows the characters that have been typed, as long as `bufpos` has room. -/
theorem afterKey_line {after : List UInt8} (h : cstr k.conInput = after)
    (hroom : Typed past k status data → k.bufpos < inputMaxlen) :
    cstr (keyboardHandlerMain past k status data).conInput = afterKey past k status data after := by
  have heffect := handler_effect past k status data
  unfold afterKey
  generalize keyboardHandlerMain past k status data = k' at heffect
  cases heffect with
  | kept _ _ _ herase htakes =>
      rw [if_neg fun htyped => htakes (htyped.1.takes (hroom htyped))]
      split
      case isTrue hback =>
        -- the line is empty
        have hempty : strlen k.conInput = 0 := by
          by_contra hne
          exact herase ⟨hback.1, hback.2, Nat.pos_of_ne_zero hne⟩
        have hnil : cstr k.conInput = [] := List.length_eq_zero_iff.mp hempty
        rw [← h]
        simp only [hnil, List.dropLast_nil]
      case isFalse => exact h
  | erased herase =>
      rw [if_neg fun htyped => htyped.1.2.2.1 herase.2.1, if_pos ⟨herase.1, herase.2.1⟩]
      simp only [cstr_cut, h]
  | entered _ henter =>
      have hmap : keyboardMapAt past data ≠ 8 := by
        rw [henter, keyboardMapAt_enter]
        decide
      rw [if_neg fun htyped => htyped.1.2.2.2.2.1 henter, if_neg fun hback => hmap hback.2]
      exact h
  | answered htakes hreq =>
      have hno : ¬ Typed past k status data := fun htyped =>
        (appends_iff_typed.mpr ⟨htyped, hroom htyped⟩).2 hreq
      rw [if_neg hno, if_neg fun hback => htakes.2.2.1 hback.2]
      exact h
  | appended htakes hreq =>
      rw [if_pos (appends_iff_typed.mp ⟨htakes, hreq⟩).1]
      simp only [cstr_strcat _ htakes.char_ne_zero, h]

theorem afterKey_nil (h : ¬ Typed past k status data) : afterKey past k status data [] = [] := by
  rw [afterKey, if_neg h]
  split <;> rfl

/-- When nothing is typed, only the last character of the line changes. -/
theorem byteAt_handler (h : ¬ Typed past k status data) {i : ℕ}
    (herase : Erases past k status data → strlen k.conInput ≤ i) {j : ℕ} (hj : i ≤ j) :
    byteAt (keyboardHandlerMain past k status data).conInput j = byteAt k.conInput j := by
  have heffect := handler_effect past k status data
  generalize keyboardHandlerMain past k status data = k' at heffect
  cases heffect with
  | kept => rfl
  | erased her =>
      have hle := herase her
      have hpos := her.2.2
      simp only
      rw [byteAt_setAt, if_neg (by omega)]
  | entered => rfl
  | answered => rfl
  | appended htakes hreq => exact absurd (appends_iff_typed.mp ⟨htakes, hreq⟩).1 h

/-- An interrupt that finds no request sets none back. -/
theorem handler_request_zero (h : k.request = 0) :
    (keyboardHandlerMain past k status data).request = 0 := by
  rcases handler_request past k status data with hr | ⟨hr, _⟩
  · rw [hr, h]
  · exact hr

theorem requestOk_key {h : Handover} (hr : RequestOk h.sys) :
    RequestOk (h.key past status data).sys := by
  have hzero : h.sys.kbd.request = 0 →
      (keyboardHandlerMain past h.sys.kbd status data).request = 0 := handler_request_zero
  have hor : ∀ n, h.sys.kbd.request = 0 ∨ h.sys.kbd.request = n →
      (keyboardHandlerMain past h.sys.kbd status data).request = 0 ∨
        (keyboardHandlerMain past h.sys.kbd status data).request = n := by
    intro n hn
    rcases handler_request past h.sys.kbd status data with hr' | ⟨hr', _⟩
    · rwa [hr']
    · exact .inl hr'
  unfold RequestOk at hr ⊢
  unfold Handover.key
  cases hpc : h.sys.pc <;> simp only [hpc] at hr ⊢
  case stringWait => exact hor _ hr
  case charWait => exact hor _ hr
  all_goals exact hzero hr

theorem charOk_key {h : Handover} (hr : RequestOk h.sys) (hc : CharOk h)
    (hu : Undisturbed past h (.key status data)) : CharOk (h.key past status data) := by
  unfold RequestOk at hr
  by_cases ha : Answered h.sys
  · -- `keychar` is not written, or with what it holds
    have hzero : h.sys.kbd.request = 0 := by
      rcases ha with ha | ⟨-, ha⟩
      · rw [ha] at hr
        exact hr
      · exact ha
    have hkeychar :
        (keyboardHandlerMain past h.sys.kbd status data).keychar = h.sys.kbd.keychar := by
      by_cases hst : status &&& 1 = 0
      · rw [handler_idle hst]
      · rw [handler_keychar hst, hu.1 ha hst]
    have hanswer : (h.key past status data).answer = h.answer := by
      simp only [Handover.key, hzero]
      rfl
    refine ⟨fun _ => ?_, fun hno => absurd ?_ hno⟩
    · rw [hanswer, ← hc.1 ha]
      exact hkeychar
    · rcases ha with ha | ⟨ha, _⟩
      · exact .inl ha
      · exact .inr ⟨ha, handler_request_zero hzero⟩
  · have hresult := hc.2 ha
    by_cases hpending : h.sys.pc = .charWait ∧ h.sys.kbd.request = kbdChar
    · obtain ⟨hpc, hreq⟩ := hpending
      rcases handler_request past h.sys.kbd status data with hr' | ⟨hr', hst, hkey⟩
      · -- still waiting
        have hne : (keyboardHandlerMain past h.sys.kbd status data).request ≠ 0 := by
          rw [hr', hreq]
          decide
        refine ⟨fun hno => ?_, fun _ => ?_⟩
        · rcases hno with hno | ⟨-, hno⟩
          · rw [Handover.key, hpc] at hno
            exact absurd hno (by simp)
          · exact absurd hno hne
        · simp only [Handover.key, hne, and_false, if_false]
          exact hresult
      · refine ⟨fun _ => ?_, fun hno => absurd (.inr ⟨hpc, hr'⟩) hno⟩
        simp only [Handover.key, hreq, hr', and_self, if_true]
        rw [handler_keychar hst, keycharOf_takes]
        rcases hkey with hkey | ⟨hkey, _⟩
        · exact .inr hkey
        · exact .inl hkey
    · have hne : h.sys.kbd.request ≠ kbdChar := by
        intro hreq
        cases hpc : h.sys.pc <;> simp only [hpc] at hr
        case charWait => exact hpending ⟨hpc, hreq⟩
        case stringWait =>
          rw [hreq] at hr
          revert hr
          decide
        all_goals
          rw [hreq] at hr
          revert hr
          decide
      have hanswer : (h.key past status data).answer = h.answer := by
        simp only [Handover.key, hne, false_and, if_false]
      refine ⟨fun hyes => absurd ?_ ha, fun _ => ?_⟩
      · rcases hyes with hyes | ⟨hyes, _⟩
        · exact .inl hyes
        · have hpc : h.sys.pc = .charWait := hyes
          rw [hpc] at hr
          exact .inr ⟨hpc, hr.resolve_right hne⟩
      · rw [hanswer]
        exact hresult

theorem strlen_handler_le (past : UInt8 → UInt8) (k : Keyboard) (status data : UInt8) :
    strlen (keyboardHandlerMain past k status data).conInput ≤
      if Appends past k status data then strlen k.conInput + 1 else strlen k.conInput := by
  have heffect := handler_effect past k status data
  generalize keyboardHandlerMain past k status data = k' at heffect
  cases heffect with
  | kept => split <;> simp
  | erased =>
      have hcut := strlen_setAt_zero k.conInput (strlen k.conInput - 1)
      split
      · exact hcut.trans (Nat.le_succ _)
      · exact hcut
  | entered => split <;> simp
  | answered => split <;> simp
  | appended htakes hreq =>
      rw [if_pos ⟨htakes, hreq⟩]
      exact (strlen_strcat _ htakes.char_ne_zero).le

theorem stringOk_key {h : Handover} (hr : RequestOk h.sys) (hs : StringOk h)
    (hu : Undisturbed past h (.key status data)) : StringOk (h.key past status data) := by
  obtain ⟨-, htype, herase⟩ := hu
  have hroom : Typed past h.sys.kbd status data → h.sys.kbd.bufpos < inputMaxlen :=
    fun ht => (htype ht).1.1
  have hmay : Typed past h.sys.kbd status data → MayAppend h.sys := fun ht => (htype ht).2
  -- outside of the waiting loop the interrupt answers no `kbd_get_string`
  have hstay : h.sys.kbd.request ≠ kbdString → (h.key past status data).line = h.line ∧
      (h.key past status data).after = afterKey past h.sys.kbd status data h.after := by
    intro hne
    simp only [Handover.key, hne, false_and, if_false, and_self]
  have hzero : h.sys.kbd.request = 0 → h.sys.kbd.request ≠ kbdString := by
    intro h0
    rw [h0]
    decide
  have hkbd : (h.key past status data).sys.kbd = keyboardHandlerMain past h.sys.kbd status data := rfl
  have hbuf : (h.key past status data).sys.buf = h.sys.buf := rfl
  have hpc' : (h.key past status data).sys.pc = h.sys.pc := rfl
  unfold StringOk at hs ⊢
  unfold RequestOk at hr
  unfold MayAppend at hmay
  unfold MayErase at herase
  rw [hpc']
  cases hpc : h.sys.pc <;> simp only [hpc] at hs hr hmay herase ⊢
  case stringTested =>
    rw [(hstay (hzero hr)).2]
    exact afterKey_line hs hroom
  case stringWait =>
    by_cases h0 : h.sys.kbd.request = 0
    · -- the line waits to be copied
      have hno : ¬ Typed past h.sys.kbd status data := fun ht => hmay ht h0
      obtain ⟨hline, hafter⟩ := hs.1 h0
      rw [(hstay (hzero h0)).1, (hstay (hzero h0)).2, hafter, afterKey_nil hno, hkbd]
      refine ⟨fun _ => ⟨?_, rfl⟩, fun hne => absurd (handler_request_zero h0) hne⟩
      rw [← hline]
      apply cstr_congr
      intro j
      exact byteAt_handler hno (fun he => absurd h0 (herase he)) (Nat.zero_le j)
    · have hreq := hr.resolve_left h0
      have hline := hs.2 h0
      rcases handler_request past h.sys.kbd status data with hr' | ⟨hr', hst, hkey⟩
      · have hne : ¬ (keyboardHandlerMain past h.sys.kbd status data).request = 0 := by rwa [hr']
        refine ⟨fun hno => absurd hno hne, fun _ => ?_⟩
        simp only [Handover.key, hne, and_false, if_false]
        exact afterKey_line hline hroom
      · have h28 : data = 28 := by
          rcases hkey with hkey | ⟨-, hchar⟩
          · exact hkey
          · rw [hreq] at hchar
            exact absurd hchar (by decide)
        refine ⟨fun _ => ?_, fun hne => absurd hr' hne⟩
        simp only [Handover.key, hreq, hr', and_self, if_true, and_true]
        rw [h28, handler_enter hst]
  case copy i =>
    have hno : ¬ Typed past h.sys.kbd status data := fun ht => hmay ht
    obtain ⟨hle, htext, hcopied, hrest, hafter⟩ := hs
    obtain ⟨hl, ha⟩ := hstay (hzero hr)
    refine ⟨by rwa [hl], by rwa [hl], by rwa [hl], ?_, by rw [ha, hafter, afterKey_nil hno]⟩
    rw [hl]
    intro j hj hjl
    exact (byteAt_handler hno herase hj).trans (hrest j hj hjl)
  case store i =>
    have hno : ¬ Typed past h.sys.kbd status data := fun ht => hmay ht
    obtain ⟨hlt, hle, htext, hcopied, hrest, hafter⟩ := hs
    obtain ⟨hl, ha⟩ := hstay (hzero hr)
    refine ⟨by rwa [hl], by rwa [hl], by rwa [hl], by rwa [hl], ?_,
      by rw [ha, hafter, afterKey_nil hno]⟩
    rw [hl]
    intro j hj hjl
    exact (byteAt_handler hno herase hj).trans (hrest j hj hjl)
  case measure i =>
    have hno : ¬ Typed past h.sys.kbd status data := fun ht => hmay ht
    obtain ⟨hl, ha⟩ := hstay (hzero hr)
    rw [hl, ha, hs.2, afterKey_nil hno, hbuf]
    exact ⟨hs.1, rfl⟩
  case clear i n =>
    obtain ⟨hle, hstring, hold, htyped, hshort⟩ := hs
    obtain ⟨hl, ha⟩ := hstay (hzero hr)
    refine ⟨hle, by rwa [hl], fun h0 hlt => ?_, fun hi => ?_, fun h0 hlt => ?_⟩
    · rw [ha, hold h0 hlt]
      apply afterKey_nil
      intro ht
      have := hmay ht
      omega
    · rw [ha]
      exact afterKey_line (htyped hi) hroom
    · have hlen := strlen_handler_le past h.sys.kbd status data
      have hbefore := hshort h0 hlt
      rw [hkbd]
      split at hlen
      case isTrue happ =>
        have := hmay (appends_iff_typed.mp happ).1
        omega
      case isFalse => omega
  all_goals
    obtain ⟨hstring, hkept⟩ := hs
    have hne : h.sys.kbd.request ≠ kbdString := by
      intro hreq
      rw [hreq] at hr
      revert hr
      decide
    obtain ⟨hl, ha⟩ := hstay hne
    rw [hl, ha]
    exact ⟨hstring, afterKey_line hkept hroom⟩

end Interrupt

/-! ### Steps of the main thread -/

/-- The copying starts with a line in the buffer. -/
theorem copied_zero {h : Handover} (hline : cstr h.sys.kbd.conInput = h.line) (hafter : h.after = []) :
    Copied h 0 := by
  obtain ⟨htext, hbytes⟩ := cstr_eq_iff.mp hline
  exact ⟨Nat.zero_le _, htext, by simp, fun j _ hj => hbytes j hj, hafter⟩

/-- It has not reached the end as long as it finds a character. -/
theorem Copied.lt {h : Handover} {i : ℕ} (hc : Copied h i) (hi : byteAt h.sys.kbd.conInput i ≠ 0) :
    i < h.line.length := by
  have hle := hc.le
  have hrest := hc.rest i le_rfl hle
  by_contra hlt
  rw [byteAt_of_le (not_lt.mp hlt)] at hrest
  exact hi hrest

/-- At the zero byte the caller has the line. -/
theorem Copied.done {h : Handover} {i : ℕ} (hc : Copied h i) (hi : byteAt h.sys.kbd.conInput i = 0) :
    cstr (setAt h.sys.buf i 0) = h.line := by
  have hle := hc.le
  have hrest := hc.rest i le_rfl hle
  have hend : i = h.line.length := by
    by_contra hne
    have hlt : i < h.line.length := by omega
    rw [hi, byteAt, List.getD_eq_getElem?_getD, List.getElem?_eq_getElem hlt, Option.getD_some] at hrest
    exact hc.text _ (List.getElem_mem hlt) hrest.symm
  refine cstr_eq_iff.mpr ⟨hc.text, fun k hk => ?_⟩
  rw [byteAt_setAt]
  split
  · rw [byteAt_of_le (by omega)]
  · exact hc.copied k (by omega)

theorem main_inv {h : Handover} (hi : HandInv h) (hpc0 : h.sys.pc ≠ .idle) :
    HandInv { h with sys := mainStep h.sys } := by
  obtain ⟨hr, ⟨hyes, hno⟩, hs⟩ := hi
  unfold mainStep
  unfold RequestOk at hr
  unfold StringOk at hs
  have hanswered : (h.sys.pc ≠ .charRead ∧ h.sys.pc ≠ .charWait) → h.sys.result = h.answer :=
    fun hne => hno fun ha => ha.elim hne.1 fun ha => hne.2 ha.1
  cases hpc : h.sys.pc <;> simp only [hpc] at hr hs ⊢
  case idle => exact absurd hpc hpc0
  case stringTested =>
    refine ⟨.inr rfl, ⟨?_, fun _ => hanswered (by simp [hpc])⟩, ?_⟩
    · simp [Answered]
    · exact ⟨fun h0 => absurd h0 (show kbdString ≠ 0 by decide), fun _ => hs⟩
  case stringWait =>
    by_cases h0 : h.sys.kbd.request = 0
    · simp only [h0, if_true]
      refine ⟨h0, ⟨?_, fun _ => hanswered (by simp [hpc])⟩, ?_⟩
      · simp [Answered]
      · exact copied_zero (hs.1 h0).1 (hs.1 h0).2
    · simp only [h0, if_false]
      refine ⟨?_, ⟨hyes, hno⟩, ?_⟩
      · simp only [RequestOk, hpc]
        exact hr
      · simp only [StringOk, hpc]
        exact hs
  case copy i =>
    by_cases hbyte : byteAt h.sys.kbd.conInput i ≠ 0
    · rw [if_pos hbyte]
      refine ⟨hr, ⟨?_, fun _ => hanswered (by simp [hpc])⟩, hs.lt hbyte, ?_⟩
      · simp [Answered]
      · exact ⟨hs.le, hs.text, hs.copied, hs.rest, hs.after⟩
    · rw [if_neg hbyte]
      refine ⟨hr, ⟨?_, fun _ => hanswered (by simp [hpc])⟩, hs.done (not_not.mp hbyte), hs.after⟩
      simp [Answered]
  case store i =>
    obtain ⟨hlt, hc⟩ := hs
    refine ⟨hr, ⟨?_, fun _ => hanswered (by simp [hpc])⟩, hlt, hc.text, ?_, ?_, hc.after⟩
    · simp [Answered]
    · intro j hj
      simp only
      rw [byteAt_setAt]
      split
      case isTrue heq => rw [heq, hc.rest i le_rfl hlt.le]
      case isFalse hne => exact hc.copied j (by omega)
    · intro j hj
      exact hc.rest j (by omega)
  case measure i =>
    obtain ⟨hstring, hafter⟩ := hs
    by_cases hbyte : byteAt h.sys.kbd.conInput i ≠ 0
    · rw [if_pos hbyte]
      refine ⟨hr, ⟨?_, fun _ => hanswered (by simp [hpc])⟩, hstring, hafter⟩
      simp [Answered]
    · rw [if_neg hbyte]
      refine ⟨hr, ⟨?_, fun _ => hanswered (by simp [hpc])⟩, ?_⟩
      · simp [Answered]
      · refine ⟨Nat.zero_le _, hstring, fun _ _ => hafter, fun h0 => ?_, by simp⟩
        have hi0 : i = 0 := by omega
        rw [hi0, not_not] at hbyte
        rw [hafter]
        exact cstr_of_zero hbyte
  case clear i n =>
    obtain ⟨hle, hstring, hold, htyped, hshort⟩ := hs
    by_cases hlt : i < n
    · rw [if_pos hlt]
      refine ⟨hr, ⟨?_, fun _ => hanswered (by simp [hpc])⟩, ?_⟩
      · simp [Answered]
      have hzero : byteAt (setAt h.sys.kbd.conInput i 0) i = 0 := by rw [byteAt_setAt, if_pos rfl]
      refine ⟨hlt, hstring, by simp, fun _ => ?_, fun _ _ => ?_⟩
      · rcases Nat.eq_zero_or_pos i with rfl | hpos
        · rw [hold rfl hlt]
          exact cstr_of_zero hzero
        · exact (cstr_setAt_of_le (hshort hpos hlt)).trans (htyped (.inl hpos))
      · exact (strlen_le_of_zero hzero).trans (Nat.le_succ i)
    · rw [if_neg hlt]
      refine ⟨hr, ⟨?_, fun _ => hanswered (by simp [hpc])⟩, hstring, htyped (.inr (by omega))⟩
      simp [Answered]
  case charTested =>
    refine ⟨.inr rfl, ⟨?_, fun _ => hanswered (by simp [hpc])⟩, hs⟩
    rintro (hc | ⟨-, hc⟩)
    · exact absurd hc (by simp)
    · exact absurd hc (show kbdChar ≠ 0 by decide)
  case charWait =>
    by_cases h0 : h.sys.kbd.request = 0
    · rw [if_pos h0]
      refine ⟨h0, ⟨fun _ => hyes (.inr ⟨hpc, h0⟩), fun hn => absurd (.inl rfl) hn⟩, hs⟩
    · rw [if_neg h0]
      refine ⟨?_, ⟨hyes, hno⟩, ?_⟩
      · simp only [RequestOk, hpc]
        exact hr
      · simp only [StringOk, hpc]
        exact hs
  case charRead =>
    refine ⟨hr, ⟨?_, fun _ => hyes (.inl hpc)⟩, hs⟩
    simp [Answered]

/-! ### Runs -/

theorem getString_inv {h : Handover} (hi : HandInv h) (hpc : h.sys.pc = .idle) (buf : List UInt8) :
    HandInv { h with
      sys := if h.sys.kbd.request = 0 then { h.sys with pc := .stringTested, buf := buf }
        else h.sys } := by
  obtain ⟨hr, ⟨-, hno⟩, hs⟩ := hi
  unfold RequestOk at hr
  unfold StringOk at hs
  rw [hpc] at hr hs
  rw [if_pos hr]
  exact ⟨hr, ⟨by simp [Answered], fun _ => hno (by simp [Answered, hpc])⟩, hs.2⟩

theorem getChar_inv {h : Handover} (hi : HandInv h) (hpc : h.sys.pc = .idle) :
    HandInv { h with
      sys := if h.sys.kbd.request = 0 then { h.sys with pc := .charTested } else h.sys } := by
  obtain ⟨hr, ⟨-, hno⟩, hs⟩ := hi
  unfold RequestOk at hr
  unfold StringOk at hs
  rw [hpc] at hr hs
  rw [if_pos hr]
  exact ⟨hr, ⟨by simp [Answered], fun _ => hno (by simp [Answered, hpc])⟩, hs⟩

/-- A step that disturbs no hand-over keeps the invariant. -/
theorem step_inv {past : UInt8 → UInt8} {h h' : Handover} {e : KbdEvent} (hi : HandInv h)
    (hu : Undisturbed past h e) (hs : HandStep past h e h') : HandInv h' := by
  cases hs with
  | key status data =>
      exact ⟨requestOk_key hi.request, charOk_key hi.request hi.char hu,
        stringOk_key hi.request hi.string hu⟩
  | other _ s hne hs =>
      cases hs with
      | key status data => exact absurd rfl (hne status data)
      | getString buf hpc => exact getString_inv hi hpc buf
      | getChar hpc => exact getChar_inv hi hpc
      | main hpc => exact main_inv hi hpc

/-- The boot, where nothing has been typed or handed over. -/
def handBoot (keychar keycode : UInt8) (term : Terminal) : Handover :=
  ⟨boot keychar keycode term, [], [], 0⟩

theorem handBoot_inv (keychar keycode : UInt8) (term : Terminal) :
    HandInv (handBoot keychar keycode term) where
  request := rfl
  char := ⟨by simp [Answered, handBoot, boot], fun _ => rfl⟩
  string := ⟨rfl, rfl⟩

/-- In every run from the boot whose interrupts disturb no hand-over, `kbd_get_char` returns the
character of the key that answered it, `kbd_get_string` the line at its Enter, and the line
keeps every character that has been typed since. -/
theorem handed_over {past : UInt8 → UInt8} {keychar keycode : UInt8} {term : Terminal}
    {tr : List (Handover × KbdEvent)} {h : Handover}
    (hrun : Run (HandStep past) (handBoot keychar keycode term) tr h)
    (hu : ∀ p ∈ tr, Undisturbed past p.1 p.2) : ∀ x ∈ visited tr h, HandedOver x := fun x hx =>
  HandInv.handedOver (hrun.invariant_visited (G := Undisturbed past)
    (fun _ _ _ hi hg hs => step_inv hi hg hs) (handBoot_inv keychar keycode term) hu x hx)

/-- What an event leads to. -/
def Handover.handle (past : UInt8 → UInt8) (h : Handover) : KbdEvent → Handover
  | .key status data => h.key past status data
  | e => { h with sys := h.sys.handle past e }

theorem HandStep.handle {past : UInt8 → UInt8} {h : Handover} {e : KbdEvent}
    (henabled : e.Enabled h.sys) : HandStep past h e (h.handle past e) := by
  cases e with
  | key status data => exact .key h status data
  | getString buf => exact .other h _ _ (by simp) (.handle henabled)
  | getChar => exact .other h _ _ (by simp) (.handle henabled)
  | main => exact .other h _ _ (by simp) (.handle henabled)

/-- `kbd_get_string` is given `ac` (with a `b` that is erased); `d` is typed while it ends;
`kbd_get_char` is given `e`, which is released afterwards; and a second `kbd_get_string` is
given the `d`. -/
def threeCalls : List KbdEvent :=
  [.getString [], .main, .key 1 30, .key 1 48, .key 1 14, .key 1 46, .main, .key 1 28] ++
    List.replicate 11 .main ++ [.key 1 32, .main] ++
    [.getChar, .main, .key 1 18, .main, .main, .key 1 146] ++
    [.getString [7, 7, 7], .main, .key 1 28] ++ List.replicate 8 .main

/-- All that the three calls return is as it should be, at the end the `e` and the line `d`. -/
theorem handed_over_calls :
    (threeCalls.foldl (Handover.handle fun _ => 0) (handBoot 0 0 plainScreen)).sys.buf =
        [100, 0, 7] ∧
      (threeCalls.foldl (Handover.handle fun _ => 0) (handBoot 0 0 plainScreen)).sys.result =
        101 ∧
      ∀ x ∈ visited (traceOf (Handover.handle fun _ => 0) (handBoot 0 0 plainScreen) threeCalls)
        (threeCalls.foldl (Handover.handle fun _ => 0) (handBoot 0 0 plainScreen)),
        HandedOver x := by
  have henabled : ∀ p ∈ traceOf (Handover.handle fun _ => 0) (handBoot 0 0 plainScreen) threeCalls,
      p.2.Enabled p.1.sys := by decide +kernel
  have hu : ∀ p ∈ traceOf (Handover.handle fun _ => 0) (handBoot 0 0 plainScreen) threeCalls,
      Undisturbed (fun _ => 0) p.1 p.2 := by decide +kernel
  refine ⟨by decide +kernel, by decide +kernel, ?_⟩
  exact handed_over (.of_events threeCalls _ fun p hp => .handle (henabled p hp)) hu

/-- The main thread waits for a character. -/
def charWaiting : Handover :=
  ⟨{ boot 0 0 plainScreen with
    kbd := { (boot 0 0 plainScreen).kbd with request := kbdChar }
    pc := .charWait }, [], [], 0⟩

/-- The key `a` has been pressed and released. -/
def released : Handover := (charWaiting.key (fun _ => 0) 1 30).key (fun _ => 0) 1 158

/-- A step of the main thread. -/
def Handover.main (h : Handover) : Handover := { h with sys := mainStep h.sys }

theorem HandStep.main {past : UInt8 → UInt8} {h : Handover} (hpc : h.sys.pc ≠ .idle) :
    HandStep past h .main h.main := .other h _ _ (by simp) (.main _ hpc)

/-- A key answers `kbd_get_char` and is released before the main thread runs again: the release
has set `keychar` to 0. -/
theorem answer_lost :
    ¬ ∀ (past : UInt8 → UInt8) (keychar keycode : UInt8) (term : Terminal)
      (tr : List (Handover × KbdEvent)) (h : Handover),
      Run (HandStep past) (handBoot keychar keycode term) tr h →
      ∀ x ∈ visited tr h, HandedOver x := by
  intro hall
  have hcall : HandStep (fun _ => 0) (handBoot 0 0 plainScreen) .getChar
      ⟨{ boot 0 0 plainScreen with pc := .charTested }, [], [], 0⟩ :=
    .other _ _ _ (by simp) (.getChar _ rfl)
  have hset : HandStep (fun _ => 0)
      ⟨{ boot 0 0 plainScreen with pc := .charTested }, [], [], 0⟩ .main charWaiting :=
    .main (by simp)
  have hrun := Run.cons hcall (.cons hset (.cons (.key _ 1 30) (.cons (.key _ 1 158)
    (.cons (.main (h := released) (by decide +kernel))
      (.single (.main (h := released.main) (by decide +kernel)))))))
  have hlast := hall _ 0 0 plainScreen _ _ hrun released.main.main (by simp [visited])
  exact absurd (hlast.char (by decide +kernel)) (by decide +kernel)

end Owmice.Console
