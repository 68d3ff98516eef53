import Owmice.Card

/-! # Modes and fonts (`screen/vga.h`)

`write_regs` programs the card from a table, and `write_font` stores the glyphs of a font in
plane 2.

* `writeRegs_programs`: whatever the state of the card is, its registers are those of the table
  behind `write_regs`, in which the lock of the CRT controller is open;
* `writeFont_stores`: behind `write_font`, plane 2 has the glyphs, and the rest of the planes and
  the registers are as they were. -/

namespace Owmice.Vga

def vgaAcIndex : UInt16 := 0x3C0
def vgaAcWrite : UInt16 := 0x3C0
def vgaMiscWrite : UInt16 := 0x3C2
def vgaSeqIndex : UInt16 := 0x3C4
def vgaSeqData : UInt16 := 0x3C5
def vgaGcIndex : UInt16 := 0x3CE
def vgaGcData : UInt16 := 0x3CF
def vgaCrtcIndex : UInt16 := 0x3D4
def vgaCrtcData : UInt16 := 0x3D5
def vgaInstatRead : UInt16 := 0x3DA
def vgaNumSeqRegs : ℕ := 5
def vgaNumCrtcRegs : ℕ := 25
def vgaNumGcRegs : ℕ := 9
def vgaNumAcRegs : ℕ := 21

/-- `g_90x30_text`. -/
def g90x30Text : List UInt8 :=
  -- MISC
  [0xE7,
  -- SEQ
  0x03, 0x01, 0x03, 0x00, 0x02,
  -- CRTC
  0x6B, 0x59, 0x5A, 0x82, 0x60, 0x8D, 0x0B, 0x3E, 0x00, 0x4F, 0x0D, 0x0E, 0x00, 0x00, 0x00, 0x00,
  0xEA, 0x0C, 0xDF, 0x2D, 0x10, 0xE8, 0x05, 0xA3, 0xFF,
  -- GC
  0x00, 0x00, 0x00, 0x00, 0x00, 0x10, 0x0E, 0x00, 0xFF,
  -- AC
  0x00, 0x01, 0x02, 0x03, 0x04, 0x05, 0x14, 0x07, 0x38, 0x39, 0x3A, 0x3B, 0x3C, 0x3D, 0x3E, 0x3F,
  0x0C, 0x00, 0x0F, 0x08, 0x00]

/-! ### The registers -/

/-- The loops of `write_regs` over a group of registers. -/
def writeGroup (indexPort dataPort : UInt16) (n : ℕ) (regs : ℕ → UInt8) (c : Card) : Card :=
  (List.range n).foldl
    (fun c i => (c.writePort indexPort (UInt8.ofNat i)).writePort dataPort (regs i)) c

/-- The loop of `write_regs` over the attribute controller. -/
def writeAttributes (regs : ℕ → UInt8) (c : Card) : Card :=
  (List.range vgaNumAcRegs).foldl (fun c i =>
    ((c.readPort vgaInstatRead).2.writePort vgaAcIndex (UInt8.ofNat i)).writePort vgaAcWrite
      (regs i)) c

/-- The table in which the CRT controller stays unlocked. -/
def unlocked (regs : ℕ → UInt8) : ℕ → UInt8 :=
  let regs := Function.update regs (6 + 0x03) (regs (6 + 0x03) ||| 0x80)
  Function.update regs (6 + 0x11) (regs (6 + 0x11) &&& ~~~0x80)

/-- `write_regs`, which also changes the table. -/
def writeRegs (regs : ℕ → UInt8) (c : Card) : (ℕ → UInt8) × Card :=
  let c := c.writePort vgaMiscWrite (regs 0)
  let c := writeGroup vgaSeqIndex vgaSeqData vgaNumSeqRegs (fun i => regs (1 + i)) c
  -- the registers 0 to 7 of the CRT controller may be locked
  let c := c.writePort vgaCrtcIndex 0x03
  let r := c.readPort vgaCrtcData
  let c := r.2.writePort vgaCrtcData (r.1 ||| 0x80)
  let c := c.writePort vgaCrtcIndex 0x11
  let r := c.readPort vgaCrtcData
  let c := r.2.writePort vgaCrtcData (r.1 &&& ~~~0x80)
  let regs := unlocked regs
  let c := writeGroup vgaCrtcIndex vgaCrtcData vgaNumCrtcRegs (fun i => regs (6 + i)) c
  let c := writeGroup vgaGcIndex vgaGcData vgaNumGcRegs (fun i => regs (31 + i)) c
  let c := writeAttributes (fun i => regs (40 + i)) c
  -- this puts the screen on
  let c := (c.readPort vgaInstatRead).2.writePort vgaAcIndex 0x20
  (regs, c)

/-! ### The fonts -/

/-- `set_plane`. -/
def setPlane (p : ℕ) (c : Card) : Card :=
  let p := p % 4
  let pmask := UInt8.ofNat (1 <<< p)
  let c := c.writePort vgaGcIndex 4
  let c := c.writePort vgaGcData (UInt8.ofNat p)
  let c := c.writePort vgaSeqIndex 2
  c.writePort vgaSeqData pmask

/-- `get_fb_seg`. -/
def getFbSeg (c : Card) : ℕ × Card :=
  let c := c.writePort vgaGcIndex 6
  let r := c.readPort vgaGcData
  let seg := (r.1 >>> 2) &&& 3
  (if seg = 0 ∨ seg = 1 then 0xA000 else if seg = 2 then 0xB000 else 0xB800, r.2)

/-- `memcpy` into the window of the card. -/
def memcpy (dst : ℕ) (src : ℕ → UInt8) (size : ℕ) (c : Card) : Card :=
  (List.range size).foldl (fun c i => c.writeByte (dst + i) (src i)) c

/-- `vmemwr`. -/
def vmemwr (dstOff : ℕ) (src : ℕ → UInt8) (count : ℕ) (c : Card) : Card :=
  let r := getFbSeg c
  memcpy (r.1 * 16 + dstOff) src count r.2

/-- `write_font`. -/
def writeFont (buf : ℕ → UInt8) (fontHeight : ℕ) (c : Card) : Card :=
  let c := c.writePort vgaSeqIndex 2
  let seq2 := c.readPort vgaSeqData
  let c := seq2.2.writePort vgaSeqIndex 4
  let seq4 := c.readPort vgaSeqData
  let c := seq4.2.writePort vgaSeqData (seq4.1 ||| 0x04)
  let c := c.writePort vgaGcIndex 4
  let gc4 := c.readPort vgaGcData
  let c := gc4.2.writePort vgaGcIndex 5
  let gc5 := c.readPort vgaGcData
  let c := gc5.2.writePort vgaGcData (gc5.1 &&& ~~~0x10)
  let c := c.writePort vgaGcIndex 6
  let gc6 := c.readPort vgaGcData
  let c := gc6.2.writePort vgaGcData (gc6.1 &&& ~~~0x02)
  let c := setPlane 2 c
  let c := (List.range 256).foldl
    (fun c i => vmemwr (i * 32) (fun k => buf (i * fontHeight + k)) fontHeight c) c
  let c := (c.writePort vgaSeqIndex 2).writePort vgaSeqData seq2.1
  let c := (c.writePort vgaSeqIndex 4).writePort vgaSeqData seq4.1
  let c := (c.writePort vgaGcIndex 4).writePort vgaGcData gc4.1
  let c := (c.writePort vgaGcIndex 5).writePort vgaGcData gc5.1
  (c.writePort vgaGcIndex 6).writePort vgaGcData gc6.1

/-! ### The ports of the card -/

section Ports

variable (c : Card) (v : UInt8)

@[simp] theorem write_misc : c.writePort vgaMiscWrite v = { c with misc := v } := rfl

@[simp] theorem write_seqIndex : c.writePort vgaSeqIndex v = { c with seq := c.seq.select v } := rfl

@[simp] theorem write_seqData : c.writePort vgaSeqData v = { c with seq := c.seq.write v } := rfl

@[simp] theorem write_gcIndex : c.writePort vgaGcIndex v = { c with gc := c.gc.select v } := rfl

@[simp] theorem write_gcData : c.writePort vgaGcData v = { c with gc := c.gc.write v } := rfl

@[simp] theorem write_acIndex : c.writePort vgaAcIndex v = { c with ac := c.ac.write v } := rfl

/-- The data ports of the sequencer and the graphics controller are not those of the input
status. -/
theorem crtcPort_ne (port : UInt16) (h : port = vgaSeqData ∨ port = vgaGcData) :
    port ≠ c.crtcPort + 6 := by
  rw [Registers.crtcPort]
  rcases h with rfl | rfl
  · split
    · decide
    · decide
  · split
    · decide
    · decide

@[simp] theorem read_seqData : c.readPort vgaSeqData = (c.seq.read, c) := by
  rw [Card.readPort, Registers.readPort, if_neg (crtcPort_ne c _ (Or.inl rfl))]
  rfl

@[simp] theorem read_gcData : c.readPort vgaGcData = (c.gc.read, c) := by
  rw [Card.readPort, Registers.readPort, if_neg (crtcPort_ne c _ (Or.inr rfl))]
  rfl

variable {c} (h : bit c.misc 0 = true)

include h

theorem crtcPort_eq : c.crtcPort = 0x3D4 := if_pos h

theorem write_crtcIndex : c.writePort vgaCrtcIndex v = { c with crtc := c.crtc.select v } := by
  simp [Card.writePort, Registers.writePort, vgaCrtcIndex, crtcPort_eq h]

theorem write_crtcData : c.writePort vgaCrtcData v = { c with crtc := c.crtc.writeCrtc v } := by
  simp [Card.writePort, Registers.writePort, vgaCrtcData, crtcPort_eq h]

theorem read_crtcData : c.readPort vgaCrtcData = (c.crtc.read, c) := by
  simp [Card.readPort, Registers.readPort, Registers.shows, vgaCrtcData, crtcPort_eq h]

theorem read_instat :
    (c.readPort vgaInstatRead).2 = { c with ac := { c.ac with takesData := false } } := by
  simp [Card.readPort, Registers.readPort, vgaInstatRead, crtcPort_eq h]

end Ports

/-! ### `write_regs` -/

/-- The first `n` registers are those of `f`. -/
def patched (n : ℕ) (f g : ℕ → UInt8) : ℕ → UInt8 := fun i => if i < n then f i else g i

theorem update_patched (n : ℕ) (f g : ℕ → UInt8) :
    Function.update (patched n f g) n (f n) = patched (n + 1) f g := by
  funext i
  rcases eq_or_ne i n with rfl | hi
  · rw [Function.update_self, patched, if_pos (by omega)]
  · simp only [Function.update_of_ne hi, patched, Nat.lt_succ_iff_lt_or_eq, hi, or_false]

/-- A group behind a loop over its first `n` registers. -/
def Bank.filled (b : Bank) (n : ℕ) (f : ℕ → UInt8) : Bank where
  index := if n = 0 then b.index else UInt8.ofNat (n - 1)
  regs := patched n f b.regs

theorem filled_succ (b : Bank) {n : ℕ} (hn : n < 256) (f : ℕ → UInt8) :
    ((b.filled n f).select (UInt8.ofNat n)).write (f n) = b.filled (n + 1) f := by
  have hindex : (UInt8.ofNat n).toNat = n := by
    rw [UInt8.toNat_ofNat']
    omega
  simp only [Bank.select, Bank.write, Bank.filled, hindex, update_patched, Nat.succ_ne_zero,
    if_false, Nat.add_sub_cancel]

/-- A loop over a group, `put` being the card with the group. -/
theorem writeGroup_eq (put : Bank → Card) {indexPort dataPort : UInt16} {n : ℕ} (hn : n ≤ 256)
    {f : ℕ → UInt8} {b : Bank}
    (hput : ∀ k < n,
      ((put (b.filled k f)).writePort indexPort (UInt8.ofNat k)).writePort dataPort (f k) =
      put (((b.filled k f).select (UInt8.ofNat k)).write (f k))) :
    writeGroup indexPort dataPort n f (put b) = put (b.filled n f) := by
  unfold writeGroup
  induction n with
  | zero => rfl
  | succ n ih =>
      rw [List.range_succ, List.foldl_append, ih (by omega) fun k hk => hput k (by omega),
        List.foldl_cons, List.foldl_nil, hput n (by omega), filled_succ b (by omega)]

theorem bit_ofNat_of_lt {n i : ℕ} (h : n < 2 ^ i) : bit (UInt8.ofNat n) i = false := by
  simp [bit, UInt8.toBitVec_ofNat', BitVec.getLsbD_ofNat, Nat.testBit_lt_two_pow h]

/-- A round of the loop over the attribute controller. -/
theorem writeAttribute {c : Card} (h : bit c.misc 0 = true) {n : ℕ} (hn : n < 32) (v : UInt8) :
    ((c.readPort vgaInstatRead).2.writePort vgaAcIndex (UInt8.ofNat n)).writePort vgaAcWrite v =
      { c with ac := ⟨UInt8.ofNat n, false, Function.update c.ac.regs n v⟩ } := by
  have hoff : bit (UInt8.ofNat n) 5 = false := bit_ofNat_of_lt hn
  have hnumber : (UInt8.ofNat n &&& 0x1F).toNat = n := by
    rw [UInt8.toNat_and, UInt8.toNat_ofNat', show (0x1F : UInt8).toNat = 2 ^ 5 - 1 from rfl,
      Nat.and_two_pow_sub_one_eq_mod]
    omega
  rw [read_instat h, write_acIndex]
  change Card.writePort _ vgaAcIndex _ = _
  rw [write_acIndex]
  simp [Attributes.write, Attributes.screenOn, Attributes.number, hoff, hnumber]

theorem writeAttributes_eq (f : ℕ → UInt8) {c : Card} (h : bit c.misc 0 = true) :
    writeAttributes f c = { c with ac := ⟨20, false, patched 21 f c.ac.regs⟩ } := by
  have hloop : ∀ n ≤ 20, (List.range (n + 1)).foldl (fun c i =>
      ((c.readPort vgaInstatRead).2.writePort vgaAcIndex (UInt8.ofNat i)).writePort vgaAcWrite
        (f i)) c = { c with ac := ⟨UInt8.ofNat n, false, patched (n + 1) f c.ac.regs⟩ } := by
    intro n hn
    induction n with
    | zero =>
        exact (writeAttribute h (n := 0) (by omega) (f 0)).trans (by rw [← update_patched]; rfl)
    | succ n ih =>
        have hround := writeAttribute
          (c := { c with ac := ⟨UInt8.ofNat n, false, patched (n + 1) f c.ac.regs⟩ }) h
          (n := n + 1) (by omega) (f (n + 1))
        rw [List.range_succ, List.foldl_append, ih (by omega), List.foldl_cons, List.foldl_nil,
          hround, update_patched]
  exact hloop 20 le_rfl

/-- The accesses that unlock the CRT controller, through its registers 3 and 0x11. -/
def unlock (b : Bank) : Bank :=
  let b := b.select 0x03
  let b := b.writeCrtc (b.read ||| 0x80)
  let b := b.select 0x11
  b.writeCrtc (b.read &&& ~~~0x80)

theorem unlock_spec (b : Bank) :
    (unlock b).locked = false ∧ ∀ i, 25 ≤ i → (unlock b).regs i = b.regs i := by
  have hfirst : ∀ v i, 25 ≤ i → ((b.select 0x03).writeCrtc v).regs i = b.regs i := by
    intro v i hi
    have hne : i ≠ (b.select 0x03).index.toNat := by
      change i ≠ 3
      omega
    rw [Bank.writeCrtc]
    split
    · rfl
    split
    · exact Function.update_of_ne hne _ _
    · exact Function.update_of_ne hne _ _
  -- register 0x11 itself is never locked
  have hlast : ∀ (b : Bank) v,
      ((b.select 0x11).writeCrtc v).regs = Function.update b.regs 0x11 v := by
    intro b v
    rw [Bank.writeCrtc, if_neg (by simp [Bank.select]), if_neg (by simp [Bank.select])]
    rfl
  constructor
  · simp [unlock, Bank.locked, hlast, show bit (~~~0x80) 7 = false by decide]
  · intro i hi
    rw [unlock, hlast, Function.update_of_ne (by omega), hfirst _ i hi]

/-- A register of the CRT controller is read, changed and written. -/
theorem modify_crtc {c : Card} (h : bit c.misc 0 = true) (n : UInt8) (g : UInt8 → UInt8) :
    (let c := c.writePort vgaCrtcIndex n
     let r := c.readPort vgaCrtcData
     r.2.writePort vgaCrtcData (g r.1)) =
      { c with crtc := (c.crtc.select n).writeCrtc (g (c.crtc.select n).read) } := by
  simp only
  rw [write_crtcIndex _ h, read_crtcData (by exact h), write_crtcData _ (by exact h)]

/-- The accesses that unlock the CRT controller of the card. -/
theorem unlock_card {c : Card} (h : bit c.misc 0 = true) :
    (let c := c.writePort vgaCrtcIndex 0x03
     let r := c.readPort vgaCrtcData
     let c := r.2.writePort vgaCrtcData (r.1 ||| 0x80)
     let c := c.writePort vgaCrtcIndex 0x11
     let r := c.readPort vgaCrtcData
     r.2.writePort vgaCrtcData (r.1 &&& ~~~0x80)) = { c with crtc := unlock c.crtc } := by
  have hfirst := modify_crtc h 0x03 (· ||| 0x80)
  simp only at hfirst ⊢
  rw [hfirst]
  exact modify_crtc (by exact h) 0x11 (· &&& ~~~0x80)

/-- The card with the registers of a table. -/
def programmed (regs : ℕ → UInt8) (c : Card) : Card :=
  { c with
    misc := regs 0
    seq := ⟨4, patched 5 (fun i => regs (1 + i)) c.seq.regs⟩
    crtc := ⟨24, patched 25 (fun i => regs (6 + i)) c.crtc.regs⟩
    gc := ⟨8, patched 9 (fun i => regs (31 + i)) c.gc.regs⟩
    ac := ⟨0x20, true, patched 21 (fun i => regs (40 + i)) c.ac.regs⟩ }

theorem writeGroup_crtc {f : ℕ → UInt8} {c : Card} (h : bit c.misc 0 = true)
    (hlocked : c.crtc.locked = false) (hf : bit (f 0x11) 7 = false) :
    writeGroup vgaCrtcIndex vgaCrtcData 25 f c = { c with crtc := c.crtc.filled 25 f } := by
  refine writeGroup_eq (fun b => { c with crtc := b }) (by omega) fun k _ => ?_
  have hopen : ((c.crtc.filled k f).select (UInt8.ofNat k)).locked = false := by
    simp only [Bank.locked, Bank.select, Bank.filled, patched]
    split
    · exact hf
    · exact hlocked
  rw [write_crtcIndex _ (by exact h), write_crtcData _ (by exact h), Bank.writeCrtc, hopen]
  simp

theorem writeGroup_seq (f : ℕ → UInt8) (c : Card) :
    writeGroup vgaSeqIndex vgaSeqData 5 f c = { c with seq := c.seq.filled 5 f } :=
  writeGroup_eq (fun b => { c with seq := b }) (by omega) fun k _ => rfl

theorem writeGroup_gc (f : ℕ → UInt8) (c : Card) :
    writeGroup vgaGcIndex vgaGcData 9 f c = { c with gc := c.gc.filled 9 f } :=
  writeGroup_eq (fun b => { c with gc := b }) (by omega) fun k _ => rfl

theorem patched_congr {n : ℕ} {f f' g g' : ℕ → UInt8} (hf : ∀ i < n, f i = f' i)
    (hg : ∀ i, n ≤ i → g i = g' i) : patched n f g = patched n f' g' := by
  funext i
  rcases lt_or_ge i n with hi | hi
  · rw [patched, patched, if_pos hi, if_pos hi, hf i hi]
  · rw [patched, patched, if_neg (by omega), if_neg (by omega), hg i hi]

theorem unlocked_of_ne {regs : ℕ → UInt8} {i : ℕ} (h9 : i ≠ 9) (h23 : i ≠ 23) :
    unlocked regs i = regs i := by
  rw [unlocked, Function.update_of_ne h23, Function.update_of_ne h9]

/-- Whatever the state of the card is, `write_regs` programs it from the table in which the CRT
controller is unlocked, and leaves that table. -/
theorem writeRegs_programs (regs : ℕ → UInt8) (c : Card) (hcolour : bit (regs 0) 0 = true) :
    writeRegs regs c = (unlocked regs, programmed (unlocked regs) c) := by
  obtain ⟨hopen, hrest⟩ := unlock_spec c.crtc
  have hlock : bit (unlocked regs (6 + 0x11)) 7 = false := by
    simp [unlocked, show bit (~~~0x80) 7 = false by decide]
  have hzero : unlocked regs 0 = regs 0 := unlocked_of_ne (by omega) (by omega)
  have hseq : patched 5 (fun i => regs (1 + i)) c.seq.regs =
      patched 5 (fun i => unlocked regs (1 + i)) c.seq.regs :=
    patched_congr (fun i hi => (unlocked_of_ne (by omega) (by omega)).symm) fun _ _ => rfl
  have hcrtc : patched 25 (fun i => unlocked regs (6 + i)) (unlock c.crtc).regs =
      patched 25 (fun i => unlocked regs (6 + i)) c.crtc.regs :=
    patched_congr (fun _ _ => rfl) hrest
  -- the card behind the accesses that unlock the CRT controller
  let c₁ : Card := { c with misc := regs 0, seq := c.seq.filled 5 fun i => regs (1 + i) }
  let c₂ : Card := { c₁ with crtc := unlock c.crtc }
  let c₃ : Card := { c₂ with crtc := (unlock c.crtc).filled 25 fun i => unlocked regs (6 + i) }
  let c₄ : Card := { c₃ with gc := c.gc.filled 9 fun i => unlocked regs (31 + i) }
  have h₁ : writeGroup vgaSeqIndex vgaSeqData 5 (fun i => regs (1 + i)) { c with misc := regs 0 } =
      c₁ :=
    writeGroup_seq _ _
  have h₃ : writeGroup vgaCrtcIndex vgaCrtcData 25 (fun i => unlocked regs (6 + i)) c₂ = c₃ :=
    writeGroup_crtc hcolour hopen hlock
  have h₄ : writeGroup vgaGcIndex vgaGcData 9 (fun i => unlocked regs (31 + i)) c₃ = c₄ :=
    writeGroup_gc _ _
  have h₅ := writeAttributes_eq (fun i => unlocked regs (40 + i)) (c := c₄) hcolour
  simp only [writeRegs, write_misc, vgaNumSeqRegs, vgaNumCrtcRegs, vgaNumGcRegs, h₁]
  have h₂ := (unlock_card (c := c₁) hcolour).trans (show _ = c₂ from rfl)
  simp only at h₂
  rw [h₂, h₃, h₄, h₅, read_instat (by exact hcolour), write_acIndex]
  simp only [programmed, hzero, ← hseq, ← hcrtc]
  rfl

/-! ### `write_font` -/

/-- `memcpy` stores the first `n` bytes of `src` in plane 2, from `o` on. -/
theorem memcpy_flat {c : Card} (h : c.Flat 2) (src : ℕ → UInt8) {o n : ℕ} (ho : o + n ≤ 32768) :
    memcpy (c.window.1 + o) src n c =
      { c with
        plane := fun p k => if p = 2 ∧ o ≤ k ∧ k < o + n then src (k - o) else c.plane p k } := by
  unfold memcpy
  induction n with
  | zero =>
      have hnone : ∀ p k, ¬ (p = 2 ∧ o ≤ k ∧ k < o + 0) := by omega
      simp only [List.range_zero, List.foldl_nil, hnone, if_false]
  | succ n ih =>
      rw [List.range_succ, List.foldl_append, ih (by omega), List.foldl_cons, List.foldl_nil,
        Nat.add_assoc]
      refine (Card.writeByte_flat (p := 2) (by exact h) (by omega) (src n)).trans ?_
      congr 1
      funext p k
      simp only
      by_cases hk : k = o + n ∧ p = 2
      · rw [if_pos hk, if_pos (by omega), hk.1, Nat.add_sub_cancel_left]
      · have hiff : p = 2 ∧ o ≤ k ∧ k < o + n ↔ p = 2 ∧ o ≤ k ∧ k < o + (n + 1) := by omega
        simp only [if_neg hk, hiff]

theorem getFbSeg_eq (c : Card) :
    (getFbSeg c).1 * 16 = c.window.1 ∧ (getFbSeg c).2 = { c with gc := c.gc.select 6 } := by
  have hcard : (getFbSeg c).2 = { c with gc := c.gc.select 6 } := by
    simp only [getFbSeg, write_gcIndex, read_gcData]
  have hseg : (getFbSeg c).1 =
      if c.map = 0 ∨ c.map = 1 then 0xA000 else if c.map = 2 then 0xB000 else 0xB800 := by
    simp only [getFbSeg, write_gcIndex, read_gcData]
    rfl
  refine ⟨?_, hcard⟩
  rw [hseg, Registers.window]
  rcases eq_or_ne c.map 0 with h0 | h0
  · simp [h0]
  rcases eq_or_ne c.map 1 with h1 | h1
  · simp [h1]
  rcases eq_or_ne c.map 2 with h2 | h2
  · simp [h2]
  · simp [h0, h1, h2]

/-- The planes with the first `n` glyphs in plane 2. -/
def glyphs (buf : ℕ → UInt8) (fontHeight n : ℕ) (plane : ℕ → ℕ → UInt8) : ℕ → ℕ → UInt8 :=
  fun p k =>
    if p = 2 ∧ k < n * 32 ∧ k % 32 < fontHeight then buf (k / 32 * fontHeight + k % 32)
    else plane p k

theorem vmemwr_flat {c : Card} (h : c.Flat 2) (src : ℕ → UInt8) {o n : ℕ} (ho : o + n ≤ 32768) :
    vmemwr o src n c =
      { c with
        gc := c.gc.select 6
        plane := fun p k => if p = 2 ∧ o ≤ k ∧ k < o + n then src (k - o) else c.plane p k } := by
  obtain ⟨hseg, hcard⟩ := getFbSeg_eq c
  rw [vmemwr, hseg, hcard]
  exact memcpy_flat (c := { c with gc := c.gc.select 6 }) (h.select 6) src ho

/-- The loop over the glyphs. -/
theorem foldl_vmemwr {c : Card} (h : c.Flat 2) (buf : ℕ → UInt8) {fontHeight : ℕ}
    (hheight : fontHeight ≤ 32) {n : ℕ} (hn : n ≤ 256) :
    ∃ index, (List.range n).foldl
      (fun c i => vmemwr (i * 32) (fun k => buf (i * fontHeight + k)) fontHeight c) c =
      { c with gc := c.gc.select index, plane := glyphs buf fontHeight n c.plane } := by
  induction n with
  | zero =>
      have hnone : glyphs buf fontHeight 0 c.plane = c.plane := by
        funext p k
        rw [glyphs, if_neg (by omega)]
      exact ⟨c.gc.index, by rw [hnone]; rfl⟩
  | succ n ih =>
      obtain ⟨index, ih⟩ := ih (by omega)
      refine ⟨6, ?_⟩
      rw [List.range_succ, List.foldl_append, ih, List.foldl_cons, List.foldl_nil,
        vmemwr_flat (h.select index) _ (by omega)]
      congr 1
      funext p k
      simp only [glyphs]
      by_cases hk : p = 2 ∧ n * 32 ≤ k ∧ k < n * 32 + fontHeight
      · have hn : k / 32 = n := by omega
        have hrow : k % 32 = k - n * 32 := by omega
        rw [if_pos hk, if_pos (by omega), hn, hrow]
      · have hiff : p = 2 ∧ k < n * 32 ∧ k % 32 < fontHeight ↔
            p = 2 ∧ k < (n + 1) * 32 ∧ k % 32 < fontHeight := by omega
        simp only [if_neg hk, hiff]

/-- The card in the loop of `write_font`: even and odd addresses are not told apart, and plane 2 is
written and read. -/
def opened (c : Card) : Card :=
  let seq := Function.update c.seq.regs 4 (c.seq.regs 4 ||| 0x04)
  let gc := Function.update c.gc.regs 5 (c.gc.regs 5 &&& ~~~0x10)
  let gc := Function.update gc 6 (c.gc.regs 6 &&& ~~~0x02)
  { c with seq := ⟨2, Function.update seq 2 4⟩, gc := ⟨4, Function.update gc 4 2⟩ }

theorem opened_flat {c : Card} (hplain : c.Plain) (henabled : bit c.misc 1 = true)
    (hchain : bit (c.seq.regs 4) 3 = false) : (opened c).Flat 2 where
  set := hplain.set
  function := hplain.function
  mode := by
    change (c.gc.regs 5 &&& ~~~0x10) &&& 3 = 0
    rw [UInt8.and_assoc, show (~~~0x10 &&& 3 : UInt8) = 3 by decide, hplain.mode]
  mask := hplain.mask
  enabled := henabled
  chain := by
    change bit (c.seq.regs 4 ||| 0x04) 3 = false
    rw [bit_or, hchain]
    rfl
  pairs := by
    change bit (c.seq.regs 4 ||| 0x04) 2 = true
    rw [bit_or]
    exact Bool.or_true _
  placed := by
    change bit (c.gc.regs 6 &&& ~~~0x02) 1 = false
    rw [bit_and]
    exact Bool.and_false _
  written := by
    intro q
    have hfour : bit 4 q = decide (2 = q) := Nat.testBit_two_pow (n := 2)
    exact hfour.trans (decide_eq_decide.mpr eq_comm)

/-- The end of `write_font`: the registers of `c` are written back. -/
def restored (c c' : Card) : Card :=
  { c' with
    seq := (((c'.seq.select 2).write (c.seq.regs 2)).select 4).write (c.seq.regs 4)
    gc := (((((c'.gc.select 4).write (c.gc.regs 4)).select 5).write (c.gc.regs 5)).select 6).write
      (c.gc.regs 6) }

theorem writeFont_eq (buf : ℕ → UInt8) (fontHeight : ℕ) (c : Card) :
    writeFont buf fontHeight c = restored c ((List.range 256).foldl
      (fun c i => vmemwr (i * 32) (fun k => buf (i * fontHeight + k)) fontHeight c)
        (opened c)) := by
  simp only [writeFont, write_seqIndex, read_seqData, write_seqData, write_gcIndex, read_gcData,
    write_gcData, setPlane]
  rfl

/-- A register that is changed and written back. -/
theorem update_back {f g : ℕ → UInt8} {n : ℕ} (h : ∀ i, i ≠ n → g i = f i) :
    Function.update g n (f n) = f := by
  funext i
  rcases eq_or_ne i n with rfl | hi
  · rw [Function.update_self]
  · rw [Function.update_of_ne hi, h i hi]

/-- `write_font` stores the glyphs of the font in plane 2; the other bytes of the planes and the
registers are as they were. -/
theorem writeFont_stores (buf : ℕ → UInt8) {fontHeight : ℕ} (hheight : fontHeight ≤ 32) (c : Card)
    (hplain : c.Plain) (henabled : bit c.misc 1 = true) (hchain : bit (c.seq.regs 4) 3 = false) :
    writeFont buf fontHeight c =
      { c with
        seq := c.seq.select 4
        gc := c.gc.select 6
        plane := glyphs buf fontHeight 256 c.plane } := by
  have hflat := opened_flat hplain henabled hchain
  obtain ⟨index, hloop⟩ := foldl_vmemwr hflat buf hheight (n := 256) le_rfl
  let seq := Function.update (Function.update (opened c).seq.regs 2 (c.seq.regs 2)) 4 (c.seq.regs 4)
  let gc := Function.update (Function.update (Function.update (opened c).gc.regs 4 (c.gc.regs 4)) 5
    (c.gc.regs 5)) 6 (c.gc.regs 6)
  have hseq : seq = c.seq.regs := by
    refine update_back fun i h4 => ?_
    rcases eq_or_ne i 2 with rfl | h2
    · exact Function.update_self _ _ _
    · simp [opened, h2, h4]
  have hgc : gc = c.gc.regs := by
    refine update_back fun i h6 => ?_
    rcases eq_or_ne i 5 with rfl | h5
    · exact Function.update_self _ _ _
    rcases eq_or_ne i 4 with rfl | h4
    · simp
    · simp [opened, h4, h5, h6]
  rw [writeFont_eq, hloop]
  change { c with seq := ⟨4, seq⟩, gc := ⟨6, gc⟩, plane := glyphs buf fontHeight 256 c.plane } = _
  rw [hseq, hgc]
  rfl

end Owmice.Vga
