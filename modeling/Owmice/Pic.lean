import Mathlib.Data.BitVec
import Mathlib.Tactic

/-! # An interrupt controller

The 8259 controller with edge-triggered lines and fixed priorities: line 0 comes first.  A program
initialises it with a command word at its command port and two or three more words at its data port;
after that the data port sets the mask, and an end-of-interrupt command ends the interrupt in service
that comes first.

* `Chip.command`, `Chip.data`: the two ports;
* `Chip.Offers n`: line `n` interrupts the processor; `Chip.acknowledge` is the answer;
* `Chip.setup`: what a program has set up, which no interrupt changes (`setup_request`,
  `setup_acknowledge`, `setup_eoi`). -/

namespace Owmice.Pic

/-- A register. -/
abbrev Byte := BitVec 8

/-- The word that the data port waits for; the mask when there is none. -/
inductive Phase where
  | ready
  | icw2 (single icw4 : Bool)
  | icw3 (icw4 : Bool)
  | icw4
deriving DecidableEq, Repr

/-- What a program sets up: the first vector, the mask, the lines that have another controller, and
whether an interrupt ends by itself. -/
structure Setup where
  phase : Phase
  base : Byte
  imr : Byte
  cascade : Byte
  autoEoi : Bool
deriving DecidableEq, Repr

/-- The controller, with the requests and the interrupts in service. -/
structure Chip where
  setup : Setup
  irr : Byte
  isr : Byte
deriving DecidableEq, Repr

/-- The bit of a line. -/
def line (n : Fin 8) : Byte := 1#8 <<< n.val

namespace Chip

/-- An edge on line `n`. -/
def request (c : Chip) (n : Fin 8) : Chip := { c with irr := c.irr ||| line n }

/-- Line `n` is requested and not masked. -/
def Wants (c : Chip) (n : Fin 8) : Prop := c.irr.getLsbD n = true ∧ c.setup.imr.getLsbD n = false

/-- Line `n` interrupts the processor: it comes before all other lines that want to, and no line
that comes before it or is it is in service. -/
def Offers (c : Chip) (n : Fin 8) : Prop :=
  c.Wants n ∧ (∀ k < n, ¬ c.Wants k) ∧ ∀ k ≤ n, c.isr.getLsbD k = false

/-- The processor has taken the interrupt of line `n`. -/
def acknowledge (c : Chip) (n : Fin 8) : Chip :=
  { c with
    irr := c.irr &&& ~~~line n
    isr := if c.setup.autoEoi then c.isr else c.isr ||| line n }

/-- The vector of line `n`. -/
def vector (c : Chip) (n : Fin 8) : Byte := c.setup.base + BitVec.ofNat 8 n.val

/-- The end of the interrupt in service that comes first. -/
def eoi (c : Chip) : Chip := { c with isr := c.isr &&& (c.isr - 1) }

/-- A word at the command port. -/
def command (c : Chip) (v : Byte) : Chip :=
  if v.getLsbD 4 then
    { setup := { c.setup with phase := .icw2 (v.getLsbD 1) (v.getLsbD 0), imr := 0 }
      irr := 0
      isr := 0 }
  else if v = 0x20 then c.eoi
  else c

/-- A word at the data port. -/
def data (c : Chip) (v : Byte) : Chip :=
  match c.setup.phase with
  | .ready => { c with setup := { c.setup with imr := v } }
  | .icw2 single icw4 =>
      let phase := if single then (if icw4 then .icw4 else .ready) else .icw3 icw4
      { c with setup := { c.setup with
          phase := phase, base := v &&& 0xF8, cascade := 0, autoEoi := false } }
  | .icw3 icw4 =>
      let phase := if icw4 then .icw4 else .ready
      { c with setup := { c.setup with phase := phase, cascade := v } }
  | .icw4 =>
      { c with setup := { c.setup with phase := .ready, autoEoi := v.getLsbD 1 } }

section Fields

variable (c : Chip) (n : Fin 8)

@[simp] theorem setup_request : (c.request n).setup = c.setup := rfl

@[simp] theorem setup_acknowledge : (c.acknowledge n).setup = c.setup := rfl

@[simp] theorem setup_eoi : c.eoi.setup = c.setup := rfl

@[simp] theorem isr_request : (c.request n).isr = c.isr := rfl

@[simp] theorem isr_data (v : Byte) : (c.data v).isr = c.isr := by
  rw [data]
  split <;> rfl

@[simp] theorem command_eoi : c.command 0x20 = c.eoi := rfl

/-- A masked line does not interrupt. -/
theorem Offers.unmasked {c : Chip} {n : Fin 8} (h : c.Offers n) :
    c.setup.imr.getLsbD n = false := h.1.2

/-- One interrupt in service ends with one end-of-interrupt command. -/
theorem isr_eoi_acknowledge {c : Chip} (h : c.isr = 0) (hauto : c.setup.autoEoi = false) :
    ((c.acknowledge n).eoi).isr = 0 := by
  have hbit : ∀ k : Fin 8, line k &&& (line k - 1#8) = 0#8 := by decide
  simp [eoi, acknowledge, h, hauto, hbit n]

/-- With nothing in service the end of an interrupt does nothing. -/
theorem isr_eoi_of_zero {c : Chip} (h : c.isr = 0) : c.eoi.isr = 0 := by
  simp [eoi, h]

end Fields

end Chip

end Owmice.Pic
