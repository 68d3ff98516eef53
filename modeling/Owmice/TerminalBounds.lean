import Owmice.Logged
import Owmice.Terminal

/-! # The bounds of the screen

The functions of the terminal as instrumented programs that log the index of every write to
`term_buffer`.  Each `XM_val` says that the instrumented program computes `X`; each
`within_XM` bounds its writes and says what it keeps.

* `terminal_bounds`: whatever is written to the terminal after `term_cls`, the cursor stays
  on rows 1 to 28 and every write stays below the status bar and on the screen. -/

namespace Owmice.Screen

open Logged

/-! ### The terminal with its writes -/

/-- `term_buffer[index] = v`. -/
def storeM (b : ℕ → UInt16) (index : ℕ) (v : UInt16) : Logged ℕ (ℕ → UInt16) := do
  access index
  pure (Function.update b index v)

def clsRowM (color : UInt8) (b : ℕ → UInt16) (y : ℕ) : Logged ℕ (ℕ → UInt16) :=
  (List.range vgaWidth).foldlM (fun b x => storeM b (y * vgaWidth + x) (vgaEntry 32 color)) b

/-- `term_cls`. -/
def termClsM (t : Terminal) : Logged ℕ Terminal := do
  let b ← (List.range' screenStart vgaHeight).foldlM (clsRowM t.termColor) t.termBuffer
  pure { t with termRow := screenStart, termColumn := 0, termBuffer := b }

def copyRowM (b : ℕ → UInt16) (ii : ℕ) : Logged ℕ (ℕ → UInt16) :=
  (List.range vgaWidth).foldlM
    (fun b i => storeM b (ii * vgaWidth + i) (b ((ii + 1) * vgaWidth + i))) b

/-- `term_scroll`. -/
def termScrollM (t : Terminal) : Logged ℕ Terminal :=
  if t.scrollTerm then do
    let b ← (List.range' screenStart (vgaHeight - screenStart)).foldlM copyRowM t.termBuffer
    pure { t with termBuffer := b }
  else pure t

/-- `term_putentryat`. -/
def termPutentryatM (t : Terminal) (c color : UInt8) (x y : ℕ) : Logged ℕ Terminal :=
  if c = 10 then
    pure { t with termRow := w32 (t.termRow + 1), termColumn := sub32 0 1 }
  else if c = 8 ∧ t.termColumn ≤ t.pmtlen then pure t
  else do
    let (t, x, c) :=
      if c = 8 then ({ t with termColumn := sub32 t.termColumn 2 }, sub32 x 1, 0) else (t, x, c)
    let index := w32 (y * vgaWidth + x)
    let b ← storeM t.termBuffer index (vgaEntry c color)
    let t := { t with termBuffer := b }
    let x := if c = 0 then sub32 x 1 else x
    pure (if y ≠ 0 then termMovecur t (w32 (x + 1)) y else t)

def termFollowM (t : Terminal) : Logged ℕ Terminal :=
  if vgaHeight - 1 < t.termRow then termScrollM { t with termRow := t.termRow - 1 } else pure t

/-- `term_putchar`. -/
def termPutcharM (t : Terminal) (c : UInt8) : Logged ℕ Terminal := do
  let t ← termPutentryatM t c t.termColor t.termColumn t.termRow
  termFollowM (termAdvance t)

/-- `term_write`. -/
def termWriteM (t : Terminal) (data : List UInt8) : Logged ℕ Terminal := data.foldlM termPutcharM t

/-- `prompt`. -/
def promptM (t : Terminal) (pmt : List UInt8) : Logged ℕ Terminal := do
  let t ← termWriteM t (if t.termRow ≠ screenStart then [10] else [])
  termWriteM t pmt

/-- What the rest of the system does to the terminal. -/
inductive TermOp where
  | putchar (c : UInt8)
  | cls
  | prompt (pmt : List UInt8)
  | enableScroll
  | disableScroll

/-- `term_putchar`, `term_cls`, `prompt`, `term_enable_scroll` and `term_disable_scroll`. -/
def TermOp.apply (t : Terminal) : TermOp → Terminal
  | putchar c => termPutchar t c
  | cls => termCls t
  | prompt pmt => Screen.prompt t pmt
  | enableScroll => { t with scrollTerm := true }
  | disableScroll => { t with scrollTerm := false }

def TermOp.applyM (t : Terminal) : TermOp → Logged ℕ Terminal
  | putchar c => termPutcharM t c
  | cls => termClsM t
  | prompt pmt => promptM t pmt
  | enableScroll => pure { t with scrollTerm := true }
  | disableScroll => pure { t with scrollTerm := false }

/-! ### The instrumented programs compute the functions -/

@[simp] theorem storeM_val (b : ℕ → UInt16) (index : ℕ) (v : UInt16) :
    (storeM b index v).val = Function.update b index v := rfl

theorem termClsM_val (t : Terminal) : (termClsM t).val = termCls t := by
  have hrow : ∀ b y, (clsRowM t.termColor b y).val = clsRow t.termColor b y := fun b y =>
    foldlM_val _ _ (fun _ _ => rfl) _ _
  unfold termClsM termCls
  rw [bind_val, pure_val, foldlM_val _ _ hrow]

theorem termScrollM_val (t : Terminal) : (termScrollM t).val = termScroll t := by
  have hrow : ∀ b ii, (copyRowM b ii).val = copyRow b ii := fun b ii =>
    foldlM_val _ _ (fun _ _ => rfl) _ _
  unfold termScrollM termScroll
  split
  · rw [bind_val, pure_val, foldlM_val _ _ hrow]
  · rfl

theorem termPutentryatM_val (t : Terminal) (c color : UInt8) (x y : ℕ) :
    (termPutentryatM t c color x y).val = termPutentryat t c color x y := by
  unfold termPutentryatM termPutentryat
  split
  · rfl
  · split
    · rfl
    · simp only [bind_val, storeM_val, pure_val]

theorem termFollowM_val (t : Terminal) : (termFollowM t).val = termFollow t := by
  unfold termFollowM termFollow
  split
  · exact termScrollM_val _
  · rfl

theorem termPutcharM_val (t : Terminal) (c : UInt8) : (termPutcharM t c).val = termPutchar t c := by
  rw [termPutcharM, bind_val, termFollowM_val, termPutentryatM_val, termPutchar]

theorem termWriteM_val (t : Terminal) (data : List UInt8) :
    (termWriteM t data).val = termWrite t data :=
  foldlM_val _ _ termPutcharM_val data t

theorem promptM_val (t : Terminal) (pmt : List UInt8) : (promptM t pmt).val = prompt t pmt := by
  rw [promptM, bind_val, termWriteM_val, termWriteM_val, prompt]
  split
  · rfl
  · rfl

theorem TermOp.applyM_val (t : Terminal) : ∀ op : TermOp, (op.applyM t).val = op.apply t
  | putchar c => termPutcharM_val t c
  | cls => termClsM_val t
  | prompt pmt => promptM_val t pmt
  | enableScroll => rfl
  | disableScroll => rfl

/-! ### Bounds -/

/-- A cell of rows 1 to 29. -/
def OnPage (k : ℕ) : Prop := 90 ≤ k ∧ k < 2700

/-- Only cells of rows 1 to 29 differ from `b₀`. -/
def PageOnly (b₀ b : ℕ → UInt16) : Prop := ∀ k, ¬ OnPage k → b k = b₀ k

/-- The cursor is on a text row, and the cells outside the rows 1 to 29 are as in `b₀`. -/
structure OnScreen (b₀ : ℕ → UInt16) (t : Terminal) : Prop where
  row : 1 ≤ t.termRow ∧ t.termRow ≤ 28
  column : t.termColumn ≤ 89
  page : PageOnly b₀ t.termBuffer

/-- The state between `term_putentryat` and the increment of the column: a new line and the
backspace in column 1 have stored `-1`. -/
structure BeforeStep (b₀ : ℕ → UInt16) (t : Terminal) : Prop where
  row : 1 ≤ t.termRow
  column : t.termRow ≤ 28 ∧ t.termColumn ≤ 89 ∨ t.termRow ≤ 29 ∧ t.termColumn = 4294967295
  page : PageOnly b₀ t.termBuffer

variable {b₀ b : ℕ → UInt16} {t : Terminal}

theorem within_storeM {index : ℕ} (v : UInt16) (hb : PageOnly b₀ b) (hi : OnPage index) :
    Within OnPage (PageOnly b₀) (storeM b index v) := by
  apply within_bind (within_access hi)
  intro _ _
  apply within_pure
  intro k hk
  have hne : k ≠ index := by
    rintro rfl
    exact hk hi
  rw [Function.update_of_ne hne]
  exact hb k hk

theorem within_clsRowM (color : UInt8) (hb : PageOnly b₀ b) {y : ℕ} (hy : 1 ≤ y ∧ y ≤ 29) :
    Within OnPage (PageOnly b₀) (clsRowM color b y) := by
  apply within_foldlM hb
  intro x hx b hb
  rw [List.mem_range, vgaWidth] at hx
  apply within_storeM _ hb
  unfold OnPage vgaWidth
  omega

theorem within_copyRowM (hb : PageOnly b₀ b) {ii : ℕ} (hii : 1 ≤ ii ∧ ii ≤ 28) :
    Within OnPage (PageOnly b₀) (copyRowM b ii) := by
  apply within_foldlM hb
  intro i hi b hb
  rw [List.mem_range, vgaWidth] at hi
  apply within_storeM _ hb
  unfold OnPage vgaWidth
  omega

theorem within_termClsM (ht : PageOnly b₀ t.termBuffer) :
    Within OnPage (OnScreen b₀) (termClsM t) := by
  refine within_bind (Q := PageOnly b₀) ?_ ?_
  · apply within_foldlM ht
    intro y hy b hb
    rw [List.mem_range'_1, screenStart, vgaHeight] at hy
    exact within_clsRowM _ hb (by omega)
  · intro b hb
    exact within_pure ⟨⟨le_rfl, by simp [screenStart]⟩, Nat.zero_le _, hb⟩

theorem within_termScrollM (ht : OnScreen b₀ t) : Within OnPage (OnScreen b₀) (termScrollM t) := by
  unfold termScrollM
  split
  · refine within_bind (Q := PageOnly b₀) ?_ ?_
    · apply within_foldlM ht.page
      intro ii hii b hb
      rw [List.mem_range'_1, screenStart, vgaHeight] at hii
      exact within_copyRowM hb (by omega)
    · intro b hb
      exact within_pure ⟨ht.row, ht.column, hb⟩
  · exact within_pure ht

theorem within_termPutentryatM (ht : OnScreen b₀ t) (c color : UInt8) :
    Within OnPage (BeforeStep b₀) (termPutentryatM t c color t.termColumn t.termRow) := by
  obtain ⟨hrow, hcol, hpage⟩ := ht
  have hminus : sub32 0 1 = 4294967295 := by decide +kernel
  unfold termPutentryatM
  split
  · -- a new line
    apply within_pure
    refine ⟨?_, .inr ⟨?_, hminus⟩, hpage⟩ <;> simp only [w32_of_lt (show t.termRow + 1 < _ by omega)]
    · omega
    · omega
  split
  · exact within_pure ⟨hrow.1, .inl ⟨hrow.2, hcol⟩, hpage⟩
  rename_i hback
  have hidx : ∀ x ≤ 89, OnPage (w32 (t.termRow * vgaWidth + x)) := by
    intro x hx
    rw [vgaWidth, w32_of_lt (by omega)]
    unfold OnPage
    omega
  by_cases hc : c = 8
  · -- a backspace behind the prompt, which is not in column 0
    have hpos : 1 ≤ t.termColumn := by
      have : ¬ t.termColumn ≤ t.pmtlen := fun h => hback ⟨hc, h⟩
      omega
    have hx : sub32 t.termColumn 1 = t.termColumn - 1 := sub32_of_le hpos (by omega)
    simp only [hc, if_true, hx]
    apply within_bind (within_storeM _ hpage (hidx _ (by omega)))
    intro b hb
    apply within_pure
    have hstep : BeforeStep b₀ { t with termColumn := sub32 t.termColumn 2, termBuffer := b } := by
      refine ⟨hrow.1, ?_, hb⟩
      simp only [sub32, w32]
      omega
    split
    · exact ⟨hstep.row, hstep.column, hstep.page⟩
    · exact hstep
  · simp only [hc, if_false]
    apply within_bind (within_storeM _ hpage (hidx _ hcol))
    intro b hb
    apply within_pure
    split
    · exact ⟨hrow.1, .inl ⟨hrow.2, hcol⟩, hb⟩
    · exact ⟨hrow.1, .inl ⟨hrow.2, hcol⟩, hb⟩

/-- The row may be behind the text rows, as long as the cell of the cursor is not written. -/
theorem within_termFollowM (hrow : 1 ≤ t.termRow ∧ t.termRow ≤ 29) (hcol : t.termColumn ≤ 89)
    (hpage : PageOnly b₀ t.termBuffer) : Within OnPage (OnScreen b₀) (termFollowM t) := by
  unfold termFollowM
  rw [vgaHeight]
  split
  · apply within_termScrollM
    exact ⟨by simp only; omega, hcol, hpage⟩
  · exact within_pure ⟨by omega, hcol, hpage⟩

theorem within_termPutcharM (ht : OnScreen b₀ t) (c : UInt8) :
    Within OnPage (OnScreen b₀) (termPutcharM t c) := by
  apply within_bind (within_termPutentryatM ht c _)
  intro t ⟨hrow, hcol, hpage⟩
  by_cases hw : w32 (t.termColumn + 1) = 90
  · have hrow' : w32 (t.termRow + 1) = t.termRow + 1 := w32_of_lt (by omega)
    simp only [termAdvance, vgaWidth, hw, if_true, hrow']
    apply within_termFollowM
    · simp only [w32] at hw
      simp only
      omega
    · exact Nat.zero_le _
    · exact hpage
  · simp only [termAdvance, vgaWidth, hw, if_false]
    apply within_termFollowM
    · simp only
      omega
    · simp only [w32] at *
      omega
    · exact hpage

theorem within_termWriteM (ht : OnScreen b₀ t) (data : List UInt8) :
    Within OnPage (OnScreen b₀) (termWriteM t data) :=
  within_foldlM ht fun c _ _ ht => within_termPutcharM ht c

theorem within_applyM (ht : OnScreen b₀ t) : ∀ op : TermOp,
    Within OnPage (OnScreen b₀) (op.applyM t)
  | .putchar c => within_termPutcharM ht c
  | .cls => within_termClsM ht.page
  | .prompt pmt => by
      apply within_bind (within_termWriteM ht _)
      intro t ht
      exact within_termWriteM ht pmt
  | .enableScroll => within_pure ⟨ht.row, ht.column, ht.page⟩
  | .disableScroll => within_pure ⟨ht.row, ht.column, ht.page⟩

/-- `term_cls` and the operations behind it. -/
def runM (t : Terminal) (ops : List TermOp) : Logged ℕ Terminal := do
  let t ← termClsM t
  ops.foldlM TermOp.applyM t

/-- After `term_cls` and any operations, the cursor is on rows 1 to 28 and columns 0 to 89, and
every write was to a cell of rows 1 to 29, so that the status bar is as it was. -/
theorem terminal_bounds (t : Terminal) (ops : List TermOp) :
    let s := ops.foldl TermOp.apply (termCls t)
    (1 ≤ s.termRow ∧ s.termRow ≤ 28) ∧ s.termColumn ≤ 89 ∧
      (∀ k < 90, s.termBuffer k = t.termBuffer k) ∧
      (runM t ops).val = s ∧ ∀ k ∈ (runM t ops).log, 90 ≤ k ∧ k < 30 * 90 := by
  intro s
  have hval : (runM t ops).val = s := by
    rw [runM, bind_val, termClsM_val, foldlM_val _ _ TermOp.applyM_val]
  obtain ⟨hlog, hs⟩ : Within OnPage (OnScreen t.termBuffer) (runM t ops) := by
    apply within_bind (within_termClsM fun _ _ => rfl)
    intro t' ht'
    exact within_foldlM ht' fun op _ _ h => within_applyM h op
  rw [hval] at hs
  refine ⟨hs.row, hs.column, fun k hk => hs.page k ?_, hval, hlog⟩
  unfold OnPage
  omega

end Owmice.Screen
