import Owmice.StatusBar
import Owmice.Vga

/-! # The terminal on the card (`screen/terminal.h`)

The functions of the terminal once more, with every access to `term_buffer` as an access to the
memory of the VGA card and the cursor in the registers of the card.

* `CardTerminal`: the functions;
* `Mode`: the card in the mode of `g_90x30_text`, whatever the registers of the cursor are;
* `Holds`: the card as a buffer of words, with a font and a cursor.  `Holds.dot` is what it shows;
  `Holds.store`, `Holds.load` and `holds_movecur` are the rules for an access. -/

namespace Owmice.Vga

open Screen

/-- The variables of the terminal, and the card. -/
structure CardTerminal where
  termRow : ℕ
  termColumn : ℕ
  termColor : UInt8
  scrollTerm : Bool
  pmtlen : ℕ
  lastcol : ℕ
  lastrow : ℕ
  card : Card

/-! ### The functions -/

/-- The address of `term_buffer[index]`. -/
def termBuffer (index : ℕ) : ℕ := w32 (0xB8000 + 2 * index)

/-- `showcur`. -/
def showcur (cursorStart cursorEnd : UInt8) (c : Card) : Card :=
  let c := c.writePort 0x3D4 0x0A
  let r := c.readPort 0x3D5
  let c := r.2.writePort 0x3D5 ((r.1 &&& 0xC0) ||| cursorStart)
  let c := c.writePort 0x3D4 0x0B
  let r := c.readPort 0x3D5
  r.2.writePort 0x3D5 ((r.1 &&& 0xE0) ||| cursorEnd)

/-- `default_cursor`. -/
def defaultCursor (c : Card) : Card := showcur 0 15 c

/-- `hidecur`. -/
def hidecur (c : Card) : Card := (c.writePort 0x3D4 0x0A).writePort 0x3D5 0x20

/-- `term_movecur`. -/
def movecur (x y : ℕ) (c : Card) : Card :=
  let pos := UInt16.ofNat (y * vgaWidth + x)
  let c := c.writePort 0x3D4 0x0F
  let c := c.writePort 0x3D5 (pos &&& 0xFF).toUInt8
  let c := c.writePort 0x3D4 0x0E
  c.writePort 0x3D5 ((pos >>> 8) &&& 0xFF).toUInt8

/-- `status_cls`. -/
def statusCls (c : Card) : Card :=
  (List.range vgaWidth).foldl
    (fun c x => c.store (termBuffer x) (vgaEntry 32 (vgaEntryColor 7 7))) c

/-- The inner loop of `term_cls`. -/
def clsRow (color : UInt8) (c : Card) (y : ℕ) : Card :=
  (List.range vgaWidth).foldl
    (fun c x => c.store (termBuffer (y * vgaWidth + x)) (vgaEntry 32 color)) c

/-- The inner loop of `term_scroll`. -/
def copyRow (c : Card) (ii : ℕ) : Card :=
  (List.range vgaWidth).foldl (fun c i =>
    let r := c.load (termBuffer ((ii + 1) * vgaWidth + i))
    r.2.store (termBuffer (ii * vgaWidth + i)) r.1) c

namespace CardTerminal

/-- `term_cls`. -/
def termCls (t : CardTerminal) : CardTerminal :=
  { t with
    termRow := screenStart
    termColumn := 0
    card := (List.range' screenStart vgaHeight).foldl (clsRow t.termColor) t.card }

/-- `term_scroll`. -/
def termScroll (t : CardTerminal) : CardTerminal :=
  if t.scrollTerm then
    { t with card := (List.range' screenStart (vgaHeight - screenStart)).foldl copyRow t.card }
  else t

/-- `term_initialize`, with the font `g_8x16_font`. -/
def termInitialize (g8x16Font : ℕ → UInt8) (t : CardTerminal) : CardTerminal :=
  let r := writeRegs (fun i => g90x30Text.getD i 0) t.card
  let t := { t with card := writeFont g8x16Font 16 r.2, termColor := vgaEntryColor 7 0 }
  let t := termCls t
  { t with card := statusCls t.card }

/-- `term_putentryat`. -/
def termPutentryat (t : CardTerminal) (c color : UInt8) (x y : ℕ) : CardTerminal :=
  if c = 10 then
    { t with termRow := w32 (t.termRow + 1), termColumn := sub32 0 1 }
  else if c = 8 ∧ t.termColumn ≤ t.pmtlen then t
  else
    let (t, x, c) :=
      if c = 8 then ({ t with termColumn := sub32 t.termColumn 2 }, sub32 x 1, 0) else (t, x, c)
    let index := w32 (y * vgaWidth + x)
    let t := { t with card := t.card.store (termBuffer index) (vgaEntry c color) }
    let x := if c = 0 then sub32 x 1 else x
    if y ≠ 0 then { t with card := movecur (w32 (x + 1)) y t.card } else t

/-- The increment of the column in `term_putchar`. -/
def termAdvance (t : CardTerminal) : CardTerminal :=
  let t := { t with termColumn := w32 (t.termColumn + 1) }
  if t.termColumn = vgaWidth then { t with termColumn := 0, termRow := w32 (t.termRow + 1) } else t

/-- The end of `term_putchar`. -/
def termFollow (t : CardTerminal) : CardTerminal :=
  if vgaHeight - 1 < t.termRow then termScroll { t with termRow := t.termRow - 1 } else t

/-- `term_putchar`. -/
def termPutchar (t : CardTerminal) (c : UInt8) : CardTerminal :=
  termFollow (termAdvance (termPutentryat t c t.termColor t.termColumn t.termRow))

/-- `term_write`. -/
def termWrite (t : CardTerminal) (data : List UInt8) : CardTerminal := data.foldl termPutchar t

/-- `prompt`. -/
def prompt (t : CardTerminal) (pmt : List UInt8) : CardTerminal :=
  let t := if t.termRow ≠ screenStart then termWrite t [10] else t
  termWrite t pmt

/-- `write_statusbar`. -/
def writeStatusbar (t : CardTerminal) (x : ℕ) : CardTerminal :=
  { t with lastcol := t.termColumn, lastrow := t.termRow, termRow := 0, termColumn := x }

/-- `statusbar_rev`. -/
def statusbarRev (t : CardTerminal) : CardTerminal :=
  { t with termRow := t.lastrow, termColumn := t.lastcol }

/-- `term_set_title`. -/
def termSetTitle (t : CardTerminal) (str : List UInt8) : CardTerminal :=
  let t := writeStatusbar t (sub32 vgaWidth (strlen str))
  let color := vgaEntryColor 0 7
  let tmp := t.termColor
  let t := termWrite { t with termColor := color } (str.take (strlen str))
  statusbarRev { t with termColor := tmp }

/-- `draw`. -/
def draw (t : CardTerminal) (x y : ℕ) (color : ℤ) : CardTerminal :=
  let t := { t with lastcol := t.termColumn, lastrow := t.termRow, termRow := y, termColumn := x }
  let tcolor := t.termColor
  let dcol := vgaEntryColor (UInt8.ofInt color) (UInt8.ofInt color)
  let t := termPutchar { t with termColor := dcol } 32
  { t with termColor := tcolor, termColumn := t.lastcol, termRow := t.lastrow }

end CardTerminal

/-! ### The mode -/

/-- The table behind `write_regs(g_90x30_text)`. -/
def textMode : ℕ → UInt8 := unlocked fun i => g90x30Text.getD i 0

/-- The registers are those of the mode, but for the indices and the cursor. -/
structure Mode (r : Registers) : Prop where
  misc : r.misc = textMode 0
  seq : ∀ i < 5, r.seq.regs i = textMode (1 + i)
  crtc : ∀ i < 25, i ∉ [10, 11, 14, 15] → r.crtc.regs i = textMode (6 + i)
  gc : ∀ i < 9, r.gc.regs i = textMode (31 + i)
  ac : ∀ i < 21, r.ac.regs i = textMode (40 + i)
  screenOn : r.ac.screenOn = true

section Mode

variable {r : Registers} (h : Mode r)

include h

theorem Mode.plain : r.Plain where
  set := (h.gc 1 (by omega)).trans rfl
  function := (h.gc 3 (by omega)).trans rfl
  mode := by
    rw [h.gc 5 (by omega)]
    rfl
  mask := (h.gc 8 (by omega)).trans rfl

theorem Mode.text : r.Text where
  toPlain := h.plain
  enabled := by
    rw [h.misc]
    rfl
  page := by
    rw [h.misc]
    rfl
  map_eq := by
    rw [Registers.map, h.gc 6 (by omega)]
    rfl
  written := (h.seq 2 (by omega)).trans rfl
  pairs := by
    rw [h.seq 4 (by omega)]
    rfl
  chain := by
    rw [h.seq 4 (by omega)]
    rfl
  read := (h.gc 4 (by omega)).trans rfl
  direct := by
    rw [h.gc 5 (by omega)]
    rfl
  readPairs := by
    rw [h.gc 5 (by omega)]
    rfl
  placed := by
    rw [h.gc 6 (by omega)]
    rfl

/-- A screen of 30 rows of 90 characters, of 16 scan lines each. -/
theorem Mode.geometry : r.on = true ∧ r.characters = true ∧ r.columns = 90 ∧ r.rowHeight = 16 ∧
    r.scanLines = 30 * 16 := by
  refine ⟨?_, ?_, ?_, ?_, ?_⟩
  · unfold Registers.on
    rw [h.seq 0 (by omega), h.seq 1 (by omega), h.crtc 0x17 (by omega) (by decide),
      h.screenOn]
    rfl
  · unfold Registers.characters
    rw [h.seq 1 (by omega), h.gc 6 (by omega), h.ac 0x10 (by omega)]
    rfl
  · unfold Registers.columns
    rw [h.crtc 1 (by omega) (by decide)]
    rfl
  · unfold Registers.rowHeight
    rw [h.crtc 9 (by omega) (by decide)]
    rfl
  · unfold Registers.scanLines
    rw [h.crtc 0x12 (by omega) (by decide), h.crtc 7 (by omega) (by decide)]
    rfl

/-- The character in column `x` of row `y` is word `y * 90 + x` of the text. -/
theorem Mode.fetched {x y : ℕ} (hx : x < 90) (hy : y < 30) :
    r.fetched (r.position x y) = 2 * (y * 90 + x) := by
  have hbits : bit (textMode (6 + 0x14)) 6 = false ∧ bit (textMode (6 + 0x17)) 6 = false ∧
      bit (textMode (6 + 0x17)) 5 = true := ⟨rfl, rfl, rfl⟩
  have hposition : r.position x y = y * 90 + x := by
    unfold Registers.position
    rw [h.crtc 0x0C (by omega) (by decide), h.crtc 0x0D (by omega) (by decide),
      h.crtc 0x13 (by omega) (by decide)]
    change 0 * 256 + 0 + y * (2 * 45) + x = y * 90 + x
    omega
  unfold Registers.fetched
  rw [h.crtc 0x14 (by omega) (by decide), h.crtc 0x17 (by omega) (by decide),
    hbits.1, hbits.2.1, hbits.2.2, hposition]
  have hzero : (y * 90 + x) / 32768 = 0 := Nat.div_eq_of_lt (by omega)
  simp only [if_true, if_false, Bool.false_eq_true, hzero]
  omega

theorem Mode.font (style : UInt8) : r.font style = 0 := by
  unfold Registers.font
  rw [h.seq 3 (by omega)]
  split
  · rfl
  · rfl

/-- The palette of the mode. -/
theorem Mode.colour (n : UInt8) : r.colour n = textMode (40 + (n &&& 0x0F).toNat) := by
  have hmask : (n &&& r.ac.regs 0x12 &&& 0x0F) = n &&& 0x0F := by
    rw [h.ac 0x12 (by omega), UInt8.and_assoc]
    rfl
  have hlt : (n &&& 0x0F).toNat < 21 := by
    have hle : (n &&& 0x0F).toNat ≤ 15 := by
      rw [UInt8.toNat_and]
      exact Nat.and_le_right
    omega
  unfold Registers.colour
  rw [hmask, h.ac _ hlt]

theorem Mode.blinks : bit (r.ac.regs 0x10) 3 = true := by
  rw [h.ac 0x10 (by omega)]
  rfl

theorem Mode.colourPorts : bit r.misc 0 = true := by
  rw [h.misc]
  rfl

theorem Mode.unlocked : r.crtc.locked = false := by
  rw [Bank.locked, h.crtc 0x11 (by omega) (by decide)]
  rfl

end Mode

/-- A register of the CRT controller. -/
def setCrtc (n v : UInt8) (c : Card) : Card :=
  { c with crtc := ⟨n, Function.update c.crtc.regs n.toNat v⟩ }

/-- The registers of the cursor are not those of the mode. -/
theorem Mode.setCrtc {c : Card} (h : Mode c.toRegisters) {n : UInt8}
    (hn : n.toNat ∈ [10, 11, 14, 15]) (v : UInt8) : Mode (setCrtc n v c).toRegisters where
  misc := h.misc
  seq := h.seq
  crtc := by
    intro i hi hne
    have hin : i ≠ n.toNat := by
      rintro rfl
      exact hne hn
    exact (Function.update_of_ne hin _ _).trans (h.crtc i hi hne)
  gc := h.gc
  ac := h.ac
  screenOn := h.screenOn

/-- The colour of dot `i` in scan line `r` of a word of the text, in a font of 16 bytes a character:
the ink or the paper of its style.  The ink of a style with bit 7 blinks. -/
def pixel (font : ℕ → UInt8) (visible : Bool) (w : UInt16) (r i : ℕ) : UInt8 :=
  let char := w.toUInt8
  let style := (w >>> 8).toUInt8
  if bit (font (char.toNat * 16 + r)) (7 - i) ∧ (visible ∨ ¬ bit style 7) then
    textMode (40 + (style &&& 0x0F).toNat)
  else textMode (40 + ((style >>> 4) &&& 7).toNat)

/-! ### The card as a buffer -/

/-- The card is in the mode and has the words of `b`, the glyphs of a font, and the cursor at a
position, on the screen or not. -/
structure Holds (font : ℕ → UInt8) (c : Card) (b : ℕ → UInt16) (cursor : ℕ) (on : Bool) : Prop where
  mode : Mode c.toRegisters
  text : ∀ k < 16384, c.text k = b k
  glyphs : ∀ k < 8192, k % 32 < 16 → c.plane 2 k = font (k / 32 * 16 + k % 32)
  cursor_eq : c.cursor = cursor
  on_eq : c.cursorOn = on

section Holds

variable {font : ℕ → UInt8} {c : Card} {b : ℕ → UInt16} {cursor : ℕ} {on : Bool}

/-- The dots on the screen. -/
theorem Holds.dot (h : Holds font c b cursor on) (visible : Bool) {x y r i : ℕ} (hx : x < 90)
    (hy : y < 30) (hr : r < 16) :
    c.dot visible x y r i = pixel font visible (b (y * 90 + x)) r i := by
  have hword := h.text (y * 90 + x) (by omega)
  have hchar : c.plane 0 (2 * (y * 90 + x)) = (b (y * 90 + x)).toUInt8 := by
    rw [← hword, Card.low_text]
  have hstyle : c.plane 1 (2 * (y * 90 + x)) = (b (y * 90 + x) >>> 8).toUInt8 := by
    rw [← hword, Card.high_text]
  have hglyph : ∀ char : UInt8, c.plane 2 (char.toNat * 32 + r) = font (char.toNat * 16 + r) := by
    intro char
    have hchar := char.toNat_lt
    have hdiv : (char.toNat * 32 + r) / 32 = char.toNat := by omega
    have hmod : (char.toNat * 32 + r) % 32 = r := by omega
    rw [h.glyphs _ (by omega) (by omega), hdiv, hmod]
  have hink : ∀ v : UInt8, v &&& 0x0F &&& 0x0F = v &&& 0x0F := fun v => by
    rw [UInt8.and_assoc]
    rfl
  have hpaper : ∀ v : UInt8, v &&& 7 &&& 0x0F = v &&& 7 := fun v => by
    rw [UInt8.and_assoc]
    rfl
  simp only [Card.dot, h.mode.fetched hx hy, hchar, hstyle, Card.ink, h.mode.font, Nat.zero_add,
    hglyph, Registers.paint, h.mode.blinks, h.mode.colour, pixel, true_and, if_true, hink,
    hpaper]

/-- The address of `term_buffer[index]` is not the one of another word of the window. -/
def Distinct (index : ℕ) : Prop :=
  index < 4294967296 ∧ ¬ (2147483648 ≤ index ∧ index < 2147483648 + 16384)

theorem Holds.store (h : Holds font c b cursor on) {index : ℕ} (hi : Distinct index) (w : UInt16) :
    Holds font (c.store (termBuffer index) w) (Function.update b index w) cursor on := by
  obtain ⟨hlt, hdistinct⟩ := hi
  rcases lt_or_ge index 16384 with hin | hout
  · have haddr : termBuffer index = 0xB8000 + 2 * index := by
      rw [termBuffer]
      exact w32_of_lt (by omega)
    obtain ⟨hregs, htext, hfonts⟩ := Card.store_text h.mode.text hin w
    rw [haddr]
    refine ⟨hregs ▸ h.mode, fun k hk => ?_, fun k hk hrow => ?_, ?_, ?_⟩
    · rw [htext]
      rcases eq_or_ne k index with rfl | hne
      · rw [Function.update_self, Function.update_self]
      · rw [Function.update_of_ne hne, Function.update_of_ne hne, h.text k hk]
    · rw [hfonts, h.glyphs k hk hrow]
    · rw [hregs, h.cursor_eq]
    · rw [hregs, h.on_eq]
  · have haddr : termBuffer index + 1 < 0xB8000 ∨ 0xC0000 ≤ termBuffer index := by
      rw [termBuffer, w32]
      omega
    rw [Card.store_outside h.mode.text haddr]
    refine ⟨h.mode, fun k hk => ?_, h.glyphs, h.cursor_eq, h.on_eq⟩
    rw [Function.update_of_ne (by omega), h.text k hk]

theorem Holds.load (h : Holds font c b cursor on) {k : ℕ} (hk : k < 16384) :
    (c.load (termBuffer k)).1 = b k ∧ Holds font (c.load (termBuffer k)).2 b cursor on := by
  have haddr : termBuffer k = 0xB8000 + 2 * k := by
    rw [termBuffer]
    exact w32_of_lt (by omega)
  obtain ⟨latch, hload⟩ := Card.load_text h.mode.text hk
  rw [haddr, hload]
  exact ⟨h.text k hk, h.mode, h.text, h.glyphs, h.cursor_eq, h.on_eq⟩

/-- A write to a register of the CRT controller. -/
theorem write_crtc (h : Mode c.toRegisters) (n v : UInt8) :
    (c.writePort 0x3D4 n).writePort 0x3D5 v = setCrtc n v c := by
  have hopen : (c.crtc.select n).locked = false := h.unlocked
  have hindex := write_crtcIndex n h.colourPorts
  have hdata := write_crtcData (c := { c with crtc := c.crtc.select n }) v h.colourPorts
  rw [vgaCrtcIndex] at hindex
  rw [vgaCrtcData] at hdata
  rw [hindex, hdata, Bank.writeCrtc, hopen]
  simp only [Bool.false_eq_true, false_and, if_false]
  rfl

/-- A register of the CRT controller is read, changed and written. -/
theorem change_crtc (h : Mode c.toRegisters) (n : UInt8) (g : UInt8 → UInt8) :
    (let c := c.writePort 0x3D4 n
     let r := c.readPort 0x3D5
     r.2.writePort 0x3D5 (g r.1)) = setCrtc n (g (c.crtc.regs n.toNat)) c := by
  have hopen : (c.crtc.select n).locked = false := h.unlocked
  refine (modify_crtc h.colourPorts n g).trans ?_
  rw [Bank.writeCrtc, hopen]
  simp only [Bool.false_eq_true, false_and, if_false]
  rfl

theorem Holds.setCrtc (h : Holds font c b cursor on) {n : UInt8} (hn : n.toNat ∈ [10, 11, 14, 15])
    (v : UInt8) :
    Holds font (setCrtc n v c) b (setCrtc n v c).cursor (setCrtc n v c).cursorOn :=
  ⟨h.mode.setCrtc hn v, h.text, h.glyphs, rfl, rfl⟩

theorem holds_movecur (h : Holds font c b cursor on) (x y : ℕ) :
    Holds font (movecur x y c) b ((y * vgaWidth + x) % 65536) on := by
  have hpos : (UInt16.ofNat (y * vgaWidth + x)).toNat = (y * vgaWidth + x) % 65536 :=
    UInt16.toNat_ofNat'
  rw [← hpos, movecur]
  generalize UInt16.ofNat (y * vgaWidth + x) = pos
  have hlow := h.setCrtc (n := 0x0F) (by decide) (pos &&& 0xFF).toUInt8
  have hhigh := hlow.setCrtc (n := 0x0E) (by decide) ((pos >>> 8) &&& 0xFF).toUInt8
  have hbytes : ((pos >>> 8) &&& 0xFF).toUInt8.toNat * 256 + (pos &&& 0xFF).toUInt8.toNat =
      pos.toNat := by
    have hlt := pos.toNat_lt
    rw [toUInt8_and_255, toUInt8_and_255, UInt16.toNat_toUInt8, UInt16.toNat_toUInt8,
      UInt16.toNat_shiftRight, show (8 : UInt16).toNat % 16 = 8 from rfl, Nat.shiftRight_eq_div_pow]
    omega
  rw [write_crtc h.mode, write_crtc hlow.mode]
  refine ⟨hhigh.mode, hhigh.text, hhigh.glyphs, ?_, ?_⟩
  · rw [← hbytes]
    simp [Registers.cursor, setCrtc]
  · rw [← h.on_eq]
    simp [Registers.cursorOn, setCrtc]

theorem holds_showcur (h : Holds font c b cursor on) (start stop : UInt8) :
    Holds font (showcur start stop c) b cursor (!bit start 5) := by
  have hstart := h.setCrtc (n := 0x0A) (by decide) ((c.crtc.regs 10 &&& 0xC0) ||| start)
  have hfirst := change_crtc h.mode 0x0A fun v => (v &&& 0xC0) ||| start
  have hsecond := change_crtc hstart.mode 0x0B fun v => (v &&& 0xE0) ||| stop
  simp only at hfirst hsecond
  rw [showcur, hfirst]
  refine hsecond ▸ ?_
  have hstop := hstart.setCrtc (n := 0x0B) (by decide)
    (((setCrtc 0x0A ((c.crtc.regs 10 &&& 0xC0) ||| start) c).crtc.regs 11 &&& 0xE0) ||| stop)
  refine ⟨hstop.mode, hstop.text, hstop.glyphs, h.cursor_eq, ?_⟩
  simp [Registers.cursorOn, setCrtc, show bit 0xC0 5 = false by decide]

theorem holds_hidecur (h : Holds font c b cursor on) : Holds font (hidecur c) b cursor false := by
  have hhidden := h.setCrtc (n := 0x0A) (by decide) 0x20
  unfold hidecur
  rw [write_crtc h.mode]
  refine ⟨hhidden.mode, hhidden.text, hhidden.glyphs, h.cursor_eq, ?_⟩
  simp [Registers.cursorOn, setCrtc, show bit 0x20 5 = true by decide]

/-! ### The loops -/

theorem holds_foldl {α : Type} {l : List α} {f : Card → α → Card}
    {g : (ℕ → UInt16) → α → ℕ → UInt16} (h : Holds font c b cursor on)
    (hstep : ∀ a ∈ l, ∀ c b, Holds font c b cursor on → Holds font (f c a) (g b a) cursor on) :
    Holds font (l.foldl f c) (l.foldl g b) cursor on :=
  List.foldl_rel (r := fun c b => Holds font c b cursor on) h hstep

theorem holds_clsRow (h : Holds font c b cursor on) (color : UInt8) {y : ℕ} (hy : y ≤ 29) :
    Holds font (clsRow color c y) (Screen.clsRow color b y) cursor on := by
  unfold clsRow Screen.clsRow
  refine holds_foldl h fun x hx c b h => ?_
  rw [List.mem_range, vgaWidth] at hx
  exact h.store ⟨by rw [vgaWidth]; omega, by rw [vgaWidth]; omega⟩ _

theorem holds_copyRow (h : Holds font c b cursor on) {ii : ℕ} (hii : ii ≤ 28) :
    Holds font (copyRow c ii) (Screen.copyRow b ii) cursor on := by
  unfold copyRow Screen.copyRow
  refine holds_foldl h fun x hx c b h => ?_
  rw [List.mem_range, vgaWidth] at hx
  obtain ⟨hword, hload⟩ := h.load (k := (ii + 1) * vgaWidth + x) (by rw [vgaWidth]; omega)
  simp only [hword]
  exact hload.store ⟨by rw [vgaWidth]; omega, by rw [vgaWidth]; omega⟩ _

/-- `status_cls` on a buffer. -/
def clearedBar (b : ℕ → UInt16) : ℕ → UInt16 :=
  (List.range vgaWidth).foldl (fun b x => Function.update b x (vgaEntry 32 (vgaEntryColor 7 7))) b

theorem holds_statusCls (h : Holds font c b cursor on) :
    Holds font (statusCls c) (clearedBar b) cursor on := by
  unfold statusCls clearedBar
  refine holds_foldl h fun x hx c b h => ?_
  rw [List.mem_range, vgaWidth] at hx
  exact h.store ⟨by omega, by omega⟩ _

end Holds

end Owmice.Vga
