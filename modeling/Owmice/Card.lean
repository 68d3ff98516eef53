import Mathlib.Tactic
import Owmice.Words

/-! # A VGA card

The card as a program sees it that drives a text screen: the registers behind the ports, the four
planes of 64 KB behind the window in the memory of the processor, and the dots that it puts on the
screen.  The table of colours behind the attribute controller is not part of it.

* `Bank`, `Attributes`: registers behind ports.  The first registers of the CRT controller can be
  locked (`Bank.writeCrtc`); the one port of the attribute controller takes an index and a value in
  turn;
* `Registers.writePort`, `Registers.readPort`, `Card.writeByte`, `Card.readByte`: what the processor
  does;
* `Card.dot`: what is on the screen;
* `Registers.Flat`, `Registers.Text`: the processor writes to one plane, or the words of a text.
  `writeByte_flat`, `store_text` and `load_text` are the rules. -/

namespace Owmice.Vga

/-- Bit `i` of a register. -/
def bit (v : UInt8) (i : ℕ) : Bool := v.toBitVec.getLsbD i

@[simp] theorem bit_or (v w : UInt8) (i : ℕ) : bit (v ||| w) i = (bit v i || bit w i) := by
  simp [bit]

@[simp] theorem bit_and (v w : UInt8) (i : ℕ) : bit (v &&& w) i = (bit v i && bit w i) := by
  simp [bit]

/-- Registers behind a port for the index and a port for the data. -/
structure Bank where
  index : UInt8
  regs : ℕ → UInt8

namespace Bank

variable (b : Bank) (v : UInt8)

def select : Bank := { b with index := v }

def read : UInt8 := b.regs b.index.toNat

def write : Bank := { b with regs := Function.update b.regs b.index.toNat v }

/-- The registers 0 to 7 of the CRT controller are locked, but for one bit of register 7. -/
def locked : Bool := bit (b.regs 0x11) 7

/-- A write to the CRT controller. -/
def writeCrtc : Bank :=
  if b.locked ∧ b.index.toNat < 7 then b
  else if b.locked ∧ b.index.toNat = 7 then b.write ((b.regs 7 &&& 0xEF) ||| (v &&& 0x10))
  else b.write v

end Bank

/-- The attribute controller.  Bit 5 of the index puts the screen on and locks the palette. -/
structure Attributes where
  index : UInt8
  takesData : Bool
  regs : ℕ → UInt8

namespace Attributes

variable (a : Attributes)

def number : ℕ := (a.index &&& 0x1F).toNat

def screenOn : Bool := bit a.index 5

/-- A write to the port: an index or the data, in turn. -/
def write (v : UInt8) : Attributes :=
  if a.takesData then
    { a with
      takesData := false
      regs := if a.screenOn ∧ a.number < 16 then a.regs else Function.update a.regs a.number v }
  else { a with takesData := true, index := v }

end Attributes

/-- The registers of the card. -/
structure Registers where
  misc : UInt8
  seq : Bank
  crtc : Bank
  gc : Bank
  ac : Attributes
  inputStatus : UInt8

namespace Registers

variable (r : Registers)

/-! ### The ports -/

/-- The CRT controller and the input status have one of two groups of ports. -/
def crtcPort : UInt16 := if bit r.misc 0 then 0x3D4 else 0x3B4

def writePort (port : UInt16) (v : UInt8) : Registers :=
  if port = 0x3C0 then { r with ac := r.ac.write v }
  else if port = 0x3C2 then { r with misc := v }
  else if port = 0x3C4 then { r with seq := r.seq.select v }
  else if port = 0x3C5 then { r with seq := r.seq.write v }
  else if port = 0x3CE then { r with gc := r.gc.select v }
  else if port = 0x3CF then { r with gc := r.gc.write v }
  else if port = r.crtcPort then { r with crtc := r.crtc.select v }
  else if port = r.crtcPort + 1 then { r with crtc := r.crtc.writeCrtc v }
  else r

/-- The value that a port shows. -/
def shows (port : UInt16) : UInt8 :=
  if port = 0x3C0 then r.ac.index
  else if port = 0x3C1 then r.ac.regs r.ac.number
  else if port = 0x3C4 then r.seq.index
  else if port = 0x3C5 then r.seq.read
  else if port = 0x3CC then r.misc
  else if port = 0x3CE then r.gc.index
  else if port = 0x3CF then r.gc.read
  else if port = r.crtcPort then r.crtc.index
  else if port = r.crtcPort + 1 then r.crtc.read
  else if port = r.crtcPort + 6 then r.inputStatus
  else 0xFF

/-- A read of the input status makes the attribute controller wait for an index. -/
def readPort (port : UInt16) : UInt8 × Registers :=
  (r.shows port,
    if port = r.crtcPort + 6 then { r with ac := { r.ac with takesData := false } } else r)

/-! ### The planes in the memory of the processor -/

/-- The choice of a window. -/
def map : UInt8 := (r.gc.regs 6 >>> 2) &&& 3

/-- The start and the size of the window. -/
def window : ℕ × ℕ :=
  if r.map = 0 then (0xA0000, 0x20000)
  else if r.map = 1 then (0xA0000, 0x10000)
  else if r.map = 2 then (0xB0000, 0x8000)
  else (0xB8000, 0x8000)

/-- The place of an address in the window. -/
def locate (a : ℕ) : Option ℕ :=
  if bit r.misc 1 ∧ r.window.1 ≤ a ∧ a < r.window.1 + r.window.2 then some (a - r.window.1)
  else none

/-- The place in a plane: the lowest bits of an address may choose between planes instead. -/
def place (o : ℕ) : ℕ :=
  (if bit (r.seq.regs 4) 3 then o / 4 * 4
  else if bit (r.gc.regs 6) 1 then
    o / 2 * 2 + (if r.map = 0 then o / 65536 else if bit r.misc 5 then 0 else 1)
  else o) % 65536

/-- A write reaches plane `p`. -/
def reaches (o p : ℕ) : Bool :=
  bit (r.seq.regs 2) p &&
    if bit (r.seq.regs 4) 3 then p == o % 4 else bit (r.seq.regs 4) 2 || p % 2 == o % 2

/-- Eight equal bits. -/
def solid (b : Bool) : UInt8 := if b then 0xFF else 0

/-- The operation of the graphics controller on what was in a plane. -/
def combine (v old : UInt8) : UInt8 :=
  let f := (r.gc.regs 3 >>> 3) &&& 3
  if f = 0 then v else if f = 1 then v &&& old else if f = 2 then v ||| old else v ^^^ old

/-- The byte of the processor, rotated to the right. -/
def rotated (v : UInt8) : UInt8 :=
  let n := r.gc.regs 3 &&& 7
  if n = 0 then v else v >>> n ||| v <<< (8 - n)

/-- What a write of `v` makes of a byte of plane `p`, in the four ways to write. -/
def lane (v : UInt8) (p : ℕ) (old : UInt8) : UInt8 :=
  let masked (m w : UInt8) := (r.combine w old &&& m) ||| (old &&& ~~~m)
  let mode := r.gc.regs 5 &&& 3
  if mode = 0 then
    masked (r.gc.regs 8) (if bit (r.gc.regs 1) p then solid (bit (r.gc.regs 0) p) else r.rotated v)
  else if mode = 1 then old
  else if mode = 2 then masked (r.gc.regs 8) (solid (bit v p))
  else masked (r.gc.regs 8 &&& r.rotated v) (solid (bit (r.gc.regs 0) p))

/-- The plane that a read shows. -/
def shown (o : ℕ) : ℕ :=
  if bit (r.seq.regs 4) 3 then o % 4
  else if bit (r.gc.regs 5) 4 then (r.gc.regs 4 &&& 2).toNat + o % 2
  else (r.gc.regs 4 &&& 3).toNat

/-- The bits in which the planes have the colour to compare with. -/
def compared (lanes : ℕ → UInt8) : UInt8 :=
  (List.range 4).foldl (fun v p =>
    if bit (r.gc.regs 7) p then v &&& ~~~(lanes p ^^^ solid (bit (r.gc.regs 2) p)) else v) 0xFF

/-! ### The screen -/

/-- The card is running and the screen is on. -/
def on : Bool :=
  bit (r.seq.regs 0) 0 && bit (r.seq.regs 0) 1 && !bit (r.seq.regs 1) 5 &&
    bit (r.crtc.regs 0x17) 7 && r.ac.screenOn

/-- The screen is one of characters, eight dots wide. -/
def characters : Bool :=
  bit (r.seq.regs 1) 0 && !bit (r.gc.regs 6) 0 && !bit (r.ac.regs 0x10) 0

/-- Characters in a row. -/
def columns : ℕ := (r.crtc.regs 1).toNat + 1

/-- Scan lines of a row. -/
def rowHeight : ℕ := (r.crtc.regs 9 &&& 0x1F).toNat + 1

def scanLines : ℕ :=
  (r.crtc.regs 0x12).toNat + (if bit (r.crtc.regs 7) 1 then 256 else 0) +
    (if bit (r.crtc.regs 7) 6 then 512 else 0) + 1

/-- The number of the character in column `x` of row `y`. -/
def position (x y : ℕ) : ℕ :=
  (r.crtc.regs 0x0C).toNat * 256 + (r.crtc.regs 0x0D).toNat + y * (2 * (r.crtc.regs 0x13).toNat) + x

/-- The place of a character in the planes: its number, rotated when the addresses are words or
doublewords. -/
def fetched (k : ℕ) : ℕ :=
  if bit (r.crtc.regs 0x14) 6 then (k * 4 + k / 4096 % 4) % 65536
  else if bit (r.crtc.regs 0x17) 6 then k % 65536
  else (k * 2 + k / (if bit (r.crtc.regs 0x17) 5 then 32768 else 8192) % 2) % 65536

/-- The place of a font, of which there are eight. -/
def fontAt (low high top : Bool) : ℕ := low.toNat * 16384 + high.toNat * 32768 + top.toNat * 8192

/-- The font for a style: bit 3 of the style chooses one of two. -/
def font (style : UInt8) : ℕ :=
  let s := r.seq.regs 3
  if bit style 3 then fontAt (bit s 2) (bit s 3) (bit s 5) else fontAt (bit s 0) (bit s 1) (bit s 4)

/-- A colour of the palette. -/
def colour (n : UInt8) : UInt8 := r.ac.regs (n &&& r.ac.regs 0x12 &&& 0x0F).toNat

/-- The colour of ink or paper in a style; ink may blink, and is then `visible` or not. -/
def paint (visible : Bool) (style : UInt8) (ink : Bool) : UInt8 :=
  let blinks := bit (r.ac.regs 0x10) 3
  if ink ∧ (visible ∨ ¬ (blinks ∧ bit style 7)) then r.colour (style &&& 0x0F)
  else r.colour (if blinks then (style >>> 4) &&& 7 else style >>> 4)

/-- The position of the cursor. -/
def cursor : ℕ := (r.crtc.regs 0x0E).toNat * 256 + (r.crtc.regs 0x0F).toNat

/-- The cursor is on the screen. -/
def cursorOn : Bool := !bit (r.crtc.regs 0x0A) 5

end Registers

/-- The card: its registers, its planes, and the bytes of the planes that were read last. -/
structure Card extends Registers where
  plane : ℕ → ℕ → UInt8
  latch : ℕ → UInt8

namespace Card

variable (c : Card)

def writePort (port : UInt16) (v : UInt8) : Card :=
  { c with toRegisters := c.toRegisters.writePort port v }

def readPort (port : UInt16) : UInt8 × Card :=
  (c.shows port, { c with toRegisters := (c.toRegisters.readPort port).2 })

/-- A write of the processor. -/
def writeByte (a : ℕ) (v : UInt8) : Card :=
  match c.locate a with
  | none => c
  | some o =>
      { c with plane := fun p k =>
          if k = c.place o ∧ c.reaches o p then c.lane v p (c.latch p) else c.plane p k }

/-- A read of the processor. -/
def readByte (a : ℕ) : UInt8 × Card :=
  match c.locate a with
  | none => (0xFF, c)
  | some o =>
      (if bit (c.gc.regs 5) 3 then c.compared fun p => c.plane p (c.place o)
        else c.plane (c.shown o) (c.place o),
        { c with latch := fun p => c.plane p (c.place o) })

/-- A write of two bytes. -/
def store (a : ℕ) (w : UInt16) : Card :=
  (c.writeByte a w.toUInt8).writeByte (a + 1) (w >>> 8).toUInt8

/-- A read of two bytes. -/
def load (a : ℕ) : UInt16 × Card :=
  let low := c.readByte a
  let high := low.2.readByte (a + 1)
  (low.1.toUInt16 ||| high.1.toUInt16 <<< 8, high.2)

/-- Dot `i` of scan line `r` of a character in the style. -/
def ink (char style : UInt8) (r i : ℕ) : Bool :=
  bit (c.plane 2 (c.font style + char.toNat * 32 + r)) (7 - i)

/-- Dot `i` of scan line `r` of the character in column `x` of row `y`. -/
def dot (visible : Bool) (x y r i : ℕ) : UInt8 :=
  let k := c.fetched (c.position x y)
  c.paint visible (c.plane 1 k) (c.ink (c.plane 0 k) (c.plane 1 k) r i)

end Card

/-! ### The planes of a text screen -/

/-- The processor writes bytes as they are. -/
structure Registers.Plain (r : Registers) : Prop where
  set : r.gc.regs 1 = 0
  function : r.gc.regs 3 = 0
  mode : r.gc.regs 5 &&& 3 = 0
  mask : r.gc.regs 8 = 0xFF

/-- The processor writes to plane `p`, at the addresses of the window. -/
structure Registers.Flat (r : Registers) (p : ℕ) : Prop extends r.Plain where
  enabled : bit r.misc 1 = true
  chain : bit (r.seq.regs 4) 3 = false
  pairs : bit (r.seq.regs 4) 2 = true
  placed : bit (r.gc.regs 6) 1 = false
  written : ∀ q, bit (r.seq.regs 2) q = decide (q = p)

/-- Even addresses behind 0xB8000 are those of plane 0 and odd ones those of plane 1. -/
structure Registers.Text (r : Registers) : Prop extends r.Plain where
  enabled : bit r.misc 1 = true
  page : bit r.misc 5 = true
  map_eq : r.map = 3
  written : r.seq.regs 2 = 3
  pairs : bit (r.seq.regs 4) 2 = false
  chain : bit (r.seq.regs 4) 3 = false
  read : r.gc.regs 4 = 0
  direct : bit (r.gc.regs 5) 3 = false
  readPairs : bit (r.gc.regs 5) 4 = true
  placed : bit (r.gc.regs 6) 1 = true

namespace Registers

variable {r : Registers}

theorem combine_all (v old : UInt8) : (v &&& 0xFF) ||| (old &&& ~~~0xFF) = v := by
  have hnew : v &&& 0xFF = v := UInt8.toBitVec_inj.mp BitVec.and_allOnes
  have hold : old &&& ~~~0xFF = 0 := UInt8.toBitVec_inj.mp BitVec.and_zero
  rw [hnew, hold, UInt8.or_zero]

theorem lane_plain (h : r.Plain) (v : UInt8) (p : ℕ) (old : UInt8) : r.lane v p old = v := by
  have hset : bit 0 p = false := by simp [bit]
  simp [lane, combine, rotated, h.set, h.function, h.mode, h.mask, hset, combine_all]

theorem window_size (r : Registers) : 0x8000 ≤ r.window.2 := by
  rw [window]
  split
  · decide
  split
  · decide
  split
  · decide
  · decide

theorem locate_add {o : ℕ} (h : bit r.misc 1 = true) (ho : o < 32768) :
    r.locate (r.window.1 + o) = some o := by
  have hsize := r.window_size
  rw [locate, if_pos ⟨h, by omega, by omega⟩, Nat.add_sub_cancel_left]

theorem place_flat {p o : ℕ} (h : r.Flat p) (ho : o < 32768) : r.place o = o := by
  rw [place, h.chain, h.placed]
  simp only [if_false, Bool.false_eq_true]
  omega

theorem reaches_flat {p : ℕ} (h : r.Flat p) (o q : ℕ) : r.reaches o q = decide (q = p) := by
  rw [reaches, h.written, h.pairs, h.chain]
  simp

/-- The index of the graphics controller does not matter. -/
theorem Flat.select {p : ℕ} (h : r.Flat p) (v : UInt8) : { r with gc := r.gc.select v }.Flat p where
  set := h.set
  function := h.function
  mode := h.mode
  mask := h.mask
  enabled := h.enabled
  chain := h.chain
  pairs := h.pairs
  placed := h.placed
  written := h.written

theorem window_text (h : r.Text) : r.window = (0xB8000, 0x8000) := by
  rw [window, h.map_eq]
  rfl

theorem locate_text (h : r.Text) {o : ℕ} (ho : o < 32768) : r.locate (0xB8000 + o) = some o := by
  have hlocate := locate_add h.enabled ho
  rwa [window_text h] at hlocate

theorem place_text (h : r.Text) {o : ℕ} (ho : o < 32768) : r.place o = o / 2 * 2 := by
  have hmap : ¬ r.map = 0 := by
    rw [h.map_eq]
    decide
  rw [place, h.chain, h.placed, h.page]
  simp only [hmap, if_true, if_false, Bool.false_eq_true]
  omega

theorem reaches_text (h : r.Text) (o p : ℕ) : r.reaches o p = decide (p = o % 2) := by
  rw [reaches, h.written, h.pairs, h.chain]
  have hthree : bit 3 p = decide (p < 2) := Nat.testBit_two_pow_sub_one 2 p
  rw [hthree]
  rcases lt_or_ge p 2 with hp | hp
  · simp [hp, Nat.mod_eq_of_lt hp, beq_eq_decide]
  · rw [decide_eq_false (by omega), decide_eq_false (by omega), Bool.false_and]

end Registers

namespace Card

variable {c : Card}

/-- Word `k` of the text: a character and its style. -/
def text (c : Card) (k : ℕ) : UInt16 :=
  (c.plane 0 (2 * k)).toUInt16 ||| (c.plane 1 (2 * k)).toUInt16 <<< 8

theorem writeByte_flat {p o : ℕ} (h : c.Flat p) (ho : o < 32768) (v : UInt8) :
    c.writeByte (c.window.1 + o) v =
      { c with plane := fun q k => if k = o ∧ q = p then v else c.plane q k } := by
  rw [writeByte, Registers.locate_add h.enabled ho]
  simp only [Registers.place_flat h ho, Registers.reaches_flat h, Registers.lane_plain h.toPlain,
    decide_eq_true_eq]

theorem writeByte_text (h : c.Text) {o : ℕ} (ho : o < 32768) (v : UInt8) :
    c.writeByte (0xB8000 + o) v =
      { c with plane := fun p k => if k = o / 2 * 2 ∧ p = o % 2 then v else c.plane p k } := by
  rw [writeByte, Registers.locate_text h ho]
  simp only [Registers.place_text h ho, Registers.reaches_text h, Registers.lane_plain h.toPlain,
    decide_eq_true_eq]

/-- A word of the text has been written: what the processor and the screen see of it. -/
structure Stored (c c' : Card) (k : ℕ) (w : UInt16) : Prop where
  registers : c'.toRegisters = c.toRegisters
  text : c'.text = Function.update c.text k w
  fonts : c'.plane 2 = c.plane 2

theorem store_text (h : c.Text) {k : ℕ} (hk : k < 16384) (w : UInt16) :
    Stored c (c.store (0xB8000 + 2 * k) w) k w := by
  have hlow := writeByte_text h (o := 2 * k) (by omega) w.toUInt8
  have hhigh := writeByte_text (c := c.writeByte (0xB8000 + 2 * k) w.toUInt8) (o := 2 * k + 1)
    (by rw [hlow]; exact h) (by omega) (w >>> 8).toUInt8
  have heven : 2 * k / 2 * 2 = 2 * k := by omega
  have hodd : (2 * k + 1) / 2 * 2 = 2 * k := by omega
  have hbits : (2 * k) % 2 = 0 ∧ (2 * k + 1) % 2 = 1 := by omega
  rw [store, Nat.add_assoc, hhigh, hlow, heven, hodd, hbits.1, hbits.2]
  refine ⟨rfl, ?_, ?_⟩
  · funext j
    rcases eq_or_ne j k with rfl | hj
    · rw [Function.update_self, Card.text]
      simp only [and_true, true_and, if_true, Nat.zero_ne_one, and_false, if_false, bytes_word]
    · have hne : ¬ 2 * j = 2 * k := by omega
      simp [Function.update_of_ne hj, Card.text, hne]
  · funext o
    simp

theorem readByte_text (h : c.Text) {o : ℕ} (ho : o < 32768) :
    c.readByte (0xB8000 + o) = (c.plane (o % 2) (o / 2 * 2),
      { c with latch := fun p => c.plane p (o / 2 * 2) }) := by
  have hzero : (0 &&& 2 : UInt8).toNat = 0 := by decide
  rw [readByte, Registers.locate_text h ho]
  simp only [Registers.place_text h ho, Registers.shown, h.direct, h.chain, h.readPairs, h.read,
    hzero, Nat.zero_add, if_true, if_false, Bool.false_eq_true]

theorem store_outside (h : c.Text) {a : ℕ} (ha : a + 1 < 0xB8000 ∨ 0xC0000 ≤ a) (w : UInt16) :
    c.store a w = c := by
  have hnone : ∀ a' v, a' < 0xB8000 ∨ 0xC0000 ≤ a' → c.writeByte a' v = c := by
    intro a' v ha'
    have hlocate : c.locate a' = none := by
      rw [Registers.locate, Registers.window_text h]
      exact if_neg fun hin => by omega
    rw [writeByte, hlocate]
  rw [store, hnone a _ (by omega), hnone (a + 1) _ (by omega)]

/-- The bytes of a word of the text. -/
theorem low_text (k : ℕ) : (c.text k).toUInt8 = c.plane 0 (2 * k) := low_bytes _ _

theorem high_text (k : ℕ) : (c.text k >>> 8).toUInt8 = c.plane 1 (2 * k) := high_bytes _ _

/-- A read of a word of the text. -/
theorem load_text (h : c.Text) {k : ℕ} (hk : k < 16384) :
    ∃ latch, c.load (0xB8000 + 2 * k) = (c.text k, { c with latch := latch }) := by
  have hlow := readByte_text h (o := 2 * k) (by omega)
  have hhigh := readByte_text (c := (c.readByte (0xB8000 + 2 * k)).2) (o := 2 * k + 1)
    (by rw [hlow]; exact h) (by omega)
  have heven : 2 * k / 2 * 2 = 2 * k := by omega
  have hodd : (2 * k + 1) / 2 * 2 = 2 * k := by omega
  have hbits : (2 * k) % 2 = 0 ∧ (2 * k + 1) % 2 = 1 := by omega
  rw [load, Nat.add_assoc, hhigh, hlow, heven, hodd, hbits.1, hbits.2]
  exact ⟨_, rfl⟩

end Card

end Owmice.Vga
