import Owmice.Memory
import Owmice.Pic
import Owmice.Runs

/-! # Interrupts from the boot on (`io/idt.h`, `io/keyboard.h`, `io/timer.h`)

The kernel initialises the two interrupt controllers, loads the table of handlers and turns
interrupts on before it has a handler; the handlers of the keyboard and the timer follow later, and
each one is put into the table before its line is unmasked.  A device may request an interrupt at
any time, and the processor takes it between any two steps of the kernel. -/

namespace Owmice.Interrupts

open Pic

/-- A step of the code that matters to interrupts: a byte to a port, bytes to memory, the load of
the table, and the interrupt flag; `iret` has the flag that it restores. -/
inductive Op where
  | outb (port : ℕ) (v : Byte)
  | store (a : ℕ) (bs : List UInt8)
  | lidt (p₀ p₁ : ℕ)
  | sti
  | cli
  | iret (flag : Bool)
deriving DecidableEq

/-- The controllers, the interrupt flag, the table register, the memory, the code that is still to
run, the vectors and handlers of the interrupts taken, and whether one of them had no handler. -/
structure Machine where
  master : Chip
  slave : Chip
  interrupts : Bool
  limit : ℕ
  idtr : ℕ
  mem : Mem
  todo : List Op
  taken : List (ℕ × ℕ)
  failed : Bool

/-- The effect of a step of the code; ports of other devices do not matter. -/
def Op.exec : Op → Machine → Machine
  | outb port v, s =>
      if port = 0x20 then { s with master := s.master.command v }
      else if port = 0x21 then { s with master := s.master.data v }
      else if port = 0xA0 then { s with slave := s.slave.command v }
      else if port = 0xA1 then { s with slave := s.slave.data v }
      else s
  | store a bs, s => { s with mem := s.mem.load a bs }
  | lidt p₀ p₁, s => { s with limit := p₀ % 65536, idtr := p₀ / 65536 + 65536 * (p₁ % 65536) }
  | sti, s => { s with interrupts := true }
  | cli, s => { s with interrupts := false }
  | iret flag, s => { s with interrupts := flag }

def execs (l : List Op) (s : Machine) : Machine := l.foldl (fun s o => o.exec s) s

/-! ### The code -/

/-- `EOI`. -/
def eoi : List Op := [.outb 0x20 0x20, .outb 0xA0 0x20]

/-- `int_off`. -/
def intOff : List Op := [.outb 0x21 0xFF]

/-- A 16-bit field. -/
def le16 (v : ℕ) : List UInt8 := [UInt8.ofNat v, UInt8.ofNat (v / 256)]

/-- `irq_map_handler`, with the table `IDT` at `idt`. -/
def irqMapHandler (idt : ℕ) (num : UInt8) (base : ℕ) : List Op :=
  let entry := idt + 8 * num.toNat
  [.store entry (le16 (base % 65536)),
   .store (entry + 6) (le16 (base / 65536)),
   .store (entry + 2) (le16 0x08),
   .store (entry + 4) [0],
   .store (entry + 5) [0x8e]]

/-- `ports_remap`. -/
def portsRemap : List Op :=
  [.outb 0x20 0x11,
   .outb 0xA0 0x11,
   .outb 0x21 0x20,
   .outb 0xA1 0x28,
   .outb 0x21 0x00,
   .outb 0xA1 0x00,
   .outb 0x21 0x01,
   .outb 0xA1 0x01,
   .outb 0x21 0xff,
   .outb 0xA1 0xff]

/-- `idt_init`, with the pointer that `load_idt` loads. -/
def idtInit (idt : ℕ) : List Op :=
  portsRemap ++ [.lidt (8 * 256 + idt % 65536 * 65536) (idt / 65536), .sti]

/-- `kernel_calls_init`. -/
def kernelCallsInit (idt syscall : ℕ) : List Op := irqMapHandler idt 0x99 syscall

/-- `kbd_init`. -/
def kbdInit (idt kbd : ℕ) : List Op :=
  irqMapHandler idt 0x21 kbd ++ [.outb 0x21 0xFD, .outb 0xA1 0xFF]

/-- `timer_init`. -/
def timerInit (idt pit frequency : ℕ) : List Op :=
  let divisor := 1193180 / frequency
  irqMapHandler idt 0x20 pit ++
    [.outb 0x43 0x36,
     .outb 0x40 (BitVec.ofNat 8 divisor),
     .outb 0x40 (BitVec.ofNat 8 (divisor / 256)),
     .outb 0x21 0xFC]

/-- The addresses of the table and of the handlers. -/
structure Layout where
  idt : ℕ
  syscall : ℕ
  kbd : ℕ
  pit : ℕ
  idt_le : idt + 2048 ≤ 4294967296
  syscall_lt : syscall < 4294967296
  kbd_lt : kbd < 4294967296
  pit_lt : pit < 4294967296

/-- The boot, as far as it matters to interrupts: `_start` turns them off, and `kmain` initialises
the table, the calls, the keyboard and the timer. -/
def boot (l : Layout) : List Op :=
  .cli :: (idtInit l.idt ++ kernelCallsInit l.idt l.syscall ++ kbdInit l.idt l.kbd ++
    timerInit l.idt l.pit 100)

/-- What the kernel may run after the boot: `ATA_write28` turns interrupts off and on, `die` turns
the lines off, and every other port belongs to another device. -/
inductive Later : List Op → Prop
  | cli : Later [.cli]
  | sti : Later [.sti]
  | intOff : Later intOff
  | outb {port : ℕ} (v : Byte) (h : port ∉ [0x20, 0x21, 0xA0, 0xA1]) : Later [.outb port v]

/-! ### Taking an interrupt -/

/-- Byte `i` of the entry of vector `v`. -/
def entryByte (s : Machine) (v i : ℕ) : ℕ := (s.mem (s.idtr + 8 * v + i)).toNat

/-- The handler of an entry. -/
def handlerOf (s : Machine) (v : ℕ) : ℕ :=
  entryByte s v 0 + 256 * entryByte s v 1 + 65536 * entryByte s v 6 + 16777216 * entryByte s v 7

/-- Vector `v` has an entry inside the table: an interrupt gate into the code segment. -/
def HasGate (s : Machine) (v : ℕ) : Prop :=
  8 * v + 7 ≤ s.limit ∧ entryByte s v 5 = 0x8e ∧ entryByte s v 2 = 8 ∧ entryByte s v 3 = 0

instance (s : Machine) (v : ℕ) : Decidable (HasGate s v) := by unfold HasGate; infer_instance

/-- The processor goes through the gate of vector `v`: interrupts are off in the handler, which ends
the interrupt and returns.  Without a gate the machine fails. -/
def enter (s : Machine) (v : ℕ) : Machine :=
  if HasGate s v then
    { s with
      interrupts := false
      todo := eoi ++ .iret s.interrupts :: s.todo
      taken := s.taken ++ [(v, handlerOf s v)] }
  else { s with failed := true }

/-- An interrupt of line `n` of the first controller. -/
def interrupt (s : Machine) (n : Fin 8) : Machine :=
  enter { s with master := s.master.acknowledge n } (s.master.vector n).toNat

/-- An interrupt of line `k` of the second controller, behind line `n` of the first one. -/
def interruptSlave (s : Machine) (n k : Fin 8) : Machine :=
  enter { s with master := s.master.acknowledge n, slave := s.slave.acknowledge k }
    (s.slave.vector k).toNat

inductive Event where
  | op
  | work
  | request
  | interrupt
  | later

/-- A step: of the code, of the rest of the kernel, which leaves the table alone, of a device that
requests an interrupt, of the processor that takes one, or the kernel goes on after the boot. -/
inductive Step (idt : ℕ) : Machine → Event → Machine → Prop
  | op {s : Machine} {o : Op} {rest : List Op} (h : s.todo = o :: rest) :
      Step idt s .op (o.exec { s with todo := rest })
  | work {s : Machine} (m : Mem) (h : ∀ i < 2048, m (idt + i) = s.mem (idt + i)) :
      Step idt s .work { s with mem := m }
  | request (s : Machine) (n : Fin 8) :
      Step idt s .request { s with master := s.master.request n }
  | requestSlave (s : Machine) (n : Fin 8) :
      Step idt s .request { s with slave := s.slave.request n }
  | interrupt {s : Machine} {n : Fin 8} (hi : s.interrupts = true) (h : s.master.Offers n)
      (hc : s.master.setup.cascade.getLsbD n = false) :
      Step idt s .interrupt (interrupt s n)
  | interruptSlave {s : Machine} {n k : Fin 8} (hi : s.interrupts = true)
      (h : s.master.Offers n) (hc : s.master.setup.cascade.getLsbD n = true)
      (hk : s.slave.Offers k) : Step idt s .interrupt (interruptSlave s n k)
  | later {s : Machine} {l : List Op} (h : s.todo = []) (hl : Later l) :
      Step idt s .later { s with todo := l }

/-! ### What interrupts leave alone -/

section Interference

variable {idt : ℕ}

/-- The controllers are set up alike, and the processor finds the same table. -/
structure Same (idt : ℕ) (u s : Machine) : Prop where
  master : s.master.setup = u.master.setup
  slave : s.slave.setup = u.slave.setup
  limit : s.limit = u.limit
  idtr : s.idtr = u.idtr
  table : ∀ i < 2048, s.mem (idt + i) = u.mem (idt + i)

variable {u s : Machine}

theorem execs_append (l l' : List Op) (s : Machine) : execs (l ++ l') s = execs l' (execs l s) :=
  List.foldl_append

/-- What a word at a port sets up does not depend on the interrupts. -/
theorem setup_command {c c' : Chip} (h : c'.setup = c.setup) (v : Byte) :
    (c'.command v).setup = (c.command v).setup := by
  rw [Chip.command, Chip.command]
  split
  · rw [h]
  · split
    · exact h
    · exact h

theorem setup_data {c c' : Chip} (h : c'.setup = c.setup) (v : Byte) :
    (c'.data v).setup = (c.data v).setup := by
  rw [Chip.data, Chip.data, h]
  split <;> rfl

theorem Same.exec (h : Same idt u s) (o : Op) : Same idt (o.exec u) (o.exec s) := by
  cases o with
  | outb port v =>
      simp only [Op.exec]
      split
      · exact { h with master := setup_command h.master v }
      split
      · exact { h with master := setup_data h.master v }
      split
      · exact { h with slave := setup_command h.slave v }
      split
      · exact { h with slave := setup_data h.slave v }
      · exact h
  | store a bs =>
      refine { h with table := fun i hi => ?_ }
      simp only [Op.exec, Mem.load, h.table i hi]
  | lidt p₀ p₁ => exact { h with limit := rfl, idtr := rfl }
  | sti => exact { h with }
  | cli => exact { h with }
  | iret flag => exact { h with }

/-- The interrupt flag after a step of the code. -/
theorem interrupts_exec (h : s.interrupts = u.interrupts) (o : Op) :
    (o.exec s).interrupts = (o.exec u).interrupts := by
  cases o with
  | outb port v =>
      simp only [Op.exec]
      split_ifs <;> exact h
  | store a bs => exact h
  | lidt p₀ p₁ => exact h
  | sti => rfl
  | cli => rfl
  | iret flag => rfl

/-- Nothing is in service in either controller. -/
def Idle (s : Machine) : Prop := s.master.isr = 0 ∧ s.slave.isr = 0

theorem isr_command {c : Chip} (h : c.isr = 0) (v : Byte) : (c.command v).isr = 0 := by
  rw [Chip.command]
  split
  · rfl
  · split
    · exact Chip.isr_eoi_of_zero h
    · exact h

theorem Idle.exec (h : Idle s) (o : Op) : Idle (o.exec s) := by
  obtain ⟨hm, hs⟩ := h
  cases o with
  | outb port v =>
      simp only [Op.exec]
      split
      · exact ⟨isr_command hm v, hs⟩
      split
      · exact ⟨(Chip.isr_data _ v).trans hm, hs⟩
      split
      · exact ⟨hm, isr_command hs v⟩
      split
      · exact ⟨hm, (Chip.isr_data _ v).trans hs⟩
      · exact ⟨hm, hs⟩
  | store a bs => exact ⟨hm, hs⟩
  | lidt p₀ p₁ => exact ⟨hm, hs⟩
  | sti => exact ⟨hm, hs⟩
  | cli => exact ⟨hm, hs⟩
  | iret flag => exact ⟨hm, hs⟩

end Interference

/-! ### The boot without interrupts -/

/-- A property of all states on the way through a piece of code. -/
def Always (A : Machine → Prop) (l : List Op) (s : Machine) : Prop :=
  ∀ k, A (execs (l.take k) s)

section Always

variable {A : Machine → Prop} {s : Machine}

theorem Always.first {l : List Op} (h : Always A l s) : A s := h 0

theorem Always.tail {o : Op} {l : List Op} (h : Always A (o :: l) s) : Always A l (o.exec s) :=
  fun k => h (k + 1)

theorem always_nil (h : A s) : Always A [] s := fun k => by
  rw [List.take_nil]
  exact h

theorem always_cons {o : Op} {l : List Op} (h : A s) (ht : Always A l (o.exec s)) :
    Always A (o :: l) s := by
  intro k
  cases k with
  | zero => exact h
  | succ k => exact ht k

theorem always_append {l l' : List Op} (h : Always A l s) (h' : Always A l' (execs l s)) :
    Always A (l ++ l') s := by
  induction l generalizing s with
  | nil => exact h'
  | cons o l ih => exact always_cons h.first (ih h.tail h')

theorem Always.mono {B : Machine → Prop} {l : List Op} (h : Always A l s) (hAB : ∀ s, A s → B s) :
    Always B l s := fun k => hAB _ (h k)

end Always

/-- The entry of vector `v` in the table at `idt` is an interrupt gate to `a`. -/
structure GateAt (m : Mem) (idt v a : ℕ) : Prop where
  low₀ : m (idt + 8 * v) = UInt8.ofNat a
  low₁ : m (idt + 8 * v + 1) = UInt8.ofNat (a / 256)
  selector₀ : m (idt + 8 * v + 2) = 8
  selector₁ : m (idt + 8 * v + 3) = 0
  type : m (idt + 8 * v + 5) = 0x8e
  high₀ : m (idt + 8 * v + 6) = UInt8.ofNat (a / 65536)
  high₁ : m (idt + 8 * v + 7) = UInt8.ofNat (a / 16777216)

theorem load_ite (m : Mem) {a x : ℕ} {bs : List UInt8} (ha : a + bs.length ≤ 4294967296) :
    m.load a bs x = if a ≤ x ∧ x < a + bs.length then bs.getD (x - a) 0 else m x := by
  split
  case isTrue h =>
    obtain ⟨i, rfl⟩ := Nat.exists_eq_add_of_le h.1
    have hi : i < bs.length := by omega
    rw [Mem.load_apply m hi ha, Nat.add_sub_cancel_left]
    simp [List.getD, hi]
  case isFalse h => exact Mem.load_outside m ha (by omega)

theorem ofNat_congr {a b : ℕ} (h : a % 256 = b % 256) : UInt8.ofNat a = UInt8.ofNat b := by
  apply UInt8.toNat_inj.mp
  rw [UInt8.toNat_ofNat', UInt8.toNat_ofNat']
  exact h

/-- `irq_map_handler` makes a gate. -/
theorem gateAt_irqMapHandler {idt a : ℕ} {v : UInt8} (hidt : idt + 2048 ≤ 4294967296)
    (s : Machine) : GateAt (execs (irqMapHandler idt v a) s).mem idt v.toNat a := by
  have hv := v.toNat_lt
  obtain ⟨e, he⟩ : ∃ e, e = idt + 8 * v.toNat := ⟨_, rfl⟩
  have hlt : e + 8 ≤ 4294967296 := by omega
  simp only [irqMapHandler, execs, List.foldl_cons, List.foldl_nil, Op.exec, ← he]
  have h₁ := ofNat_congr (a := a % 65536) (b := a) (by omega)
  have h₂ := ofNat_congr (a := a % 65536 / 256) (b := a / 256) (by omega)
  have h₃ : a / 65536 / 256 = a / 16777216 := by omega
  constructor
  all_goals
    simp (disch := simp [le16]; omega) only [load_ite, le16, ← he]
    simp [h₁, h₂, h₃]

/-- A store to the entry at `e`. -/
def StoresIn (e : ℕ) (o : Op) : Prop :=
  ∃ a bs, o = .store a bs ∧ e ≤ a ∧ a + bs.length ≤ e + 8

theorem storesIn_irqMapHandler (idt : ℕ) (v : UInt8) (a : ℕ) :
    ∀ o ∈ irqMapHandler idt v a, StoresIn (idt + 8 * v.toNat) o := by
  simp only [irqMapHandler, List.forall_mem_cons]
  refine ⟨⟨_, _, rfl, ?_, ?_⟩, ⟨_, _, rfl, ?_, ?_⟩, ⟨_, _, rfl, ?_, ?_⟩, ⟨_, _, rfl, ?_, ?_⟩,
    ⟨_, _, rfl, ?_, ?_⟩, by simp⟩
  all_goals simp [le16]

/-- Stores to an entry leave everything but the entry alone. -/
theorem execs_storesIn {e : ℕ} (he : e + 8 ≤ 4294967296) {l : List Op}
    (hl : ∀ o ∈ l, StoresIn e o) (s : Machine) :
    ∃ m, execs l s = { s with mem := m } ∧ ∀ x, ¬ (e ≤ x ∧ x < e + 8) → m x = s.mem x := by
  induction l generalizing s with
  | nil => exact ⟨s.mem, rfl, fun _ _ => rfl⟩
  | cons o l ih =>
      obtain ⟨a, bs, rfl, ha, hbs⟩ := hl o List.mem_cons_self
      obtain ⟨m, hm, hout⟩ := ih (fun o ho => hl o (List.mem_cons_of_mem _ ho))
        ((Op.store a bs).exec s)
      refine ⟨m, hm, fun x hx => ?_⟩
      rw [hout x hx]
      exact Mem.load_outside s.mem (by omega) (by omega)

/-! ### The stages of the boot -/

section Stages

variable {idt : ℕ} {imr : Byte} {gates : List (ℕ × ℕ)} {s : Machine}

/-- The controllers are initialised with the mask `imr` in the first one and with all lines of the
second one masked, the table is loaded and has the gates `gates`. -/
structure Stage (idt : ℕ) (imr : Byte) (gates : List (ℕ × ℕ)) (s : Machine) : Prop where
  master : s.master.setup = ⟨.ready, 0x20, imr, 0, false⟩
  slave : s.slave.setup = ⟨.ready, 0x28, 0xFF, 0, false⟩
  limit : s.limit = 2048
  idtr : s.idtr = idt
  gate : ∀ g ∈ gates, GateAt s.mem idt g.1 g.2

/-- `idt_init` gives the first stage, whatever was before. -/
theorem stage_idtInit (hidt : idt + 2048 ≤ 4294967296) (s : Machine) :
    Stage idt 0xFF [] (execs (idtInit idt) s) := by
  have hlow : (2048 + idt % 65536 * 65536) % 65536 = 2048 := by omega
  have hhigh : (2048 + idt % 65536 * 65536) / 65536 + 65536 * (idt / 65536 % 65536) = idt := by
    omega
  constructor
  case master => rfl
  case slave => rfl
  case limit => exact hlow
  case idtr => exact hhigh
  case gate => simp

/-- A gate more; the gates of other vectors stay on the way. -/
theorem Stage.irqMapHandler (h : Stage idt imr gates s) (hidt : idt + 2048 ≤ 4294967296)
    {v : UInt8} {a : ℕ} (hv : ∀ g ∈ gates, g.1 ≠ v.toNat) :
    Always (Stage idt imr gates) (irqMapHandler idt v a) s ∧
      Stage idt imr ((v.toNat, a) :: gates) (execs (Interrupts.irqMapHandler idt v a) s) := by
  have hlt := v.toNat_lt
  have hstores := storesIn_irqMapHandler idt v a
  have hstage : ∀ l, (∀ o ∈ l, StoresIn (idt + 8 * v.toNat) o) →
      Stage idt imr gates (execs l s) := by
    intro l hl
    obtain ⟨m, hm, hout⟩ := execs_storesIn (by omega) hl s
    rw [hm]
    refine { h with gate := fun g hg => ?_ }
    have hne := hv g hg
    have hgate := h.gate g hg
    constructor
    case low₀ => exact (hout _ (by omega)).trans hgate.low₀
    case low₁ => exact (hout _ (by omega)).trans hgate.low₁
    case selector₀ => exact (hout _ (by omega)).trans hgate.selector₀
    case selector₁ => exact (hout _ (by omega)).trans hgate.selector₁
    case type => exact (hout _ (by omega)).trans hgate.type
    case high₀ => exact (hout _ (by omega)).trans hgate.high₀
    case high₁ => exact (hout _ (by omega)).trans hgate.high₁
  constructor
  · exact fun k => hstage _ fun o ho => hstores o (List.mem_of_mem_take ho)
  · refine { hstage _ hstores with gate := ?_ }
    rw [List.forall_mem_cons]
    exact ⟨gateAt_irqMapHandler hidt s, (hstage _ hstores).gate⟩

/-- A new mask. -/
theorem Stage.mask (h : Stage idt imr gates s) (v : Byte) :
    Stage idt v gates ((Op.outb 0x21 v).exec s) := by
  refine { h with master := ?_ }
  have hdata : ((s.master.data v)).setup = ⟨.ready, 0x20, v, 0, false⟩ := by
    simp [Chip.data, h.master]
  exact hdata

/-- The second controller stays masked. -/
theorem Stage.maskSlave (h : Stage idt imr gates s) :
    Stage idt imr gates ((Op.outb 0xA1 0xFF).exec s) := by
  refine { h with slave := ?_ }
  have hdata : ((s.slave.data 0xFF)).setup = ⟨.ready, 0x28, 0xFF, 0, false⟩ := by
    simp [Chip.data, h.slave]
  exact hdata

/-- Another device. -/
theorem Stage.outb (h : Stage idt imr gates s) (port : ℕ) (hp : port ∉ [0x20, 0x21, 0xA0, 0xA1])
    (v : Byte) : Stage idt imr gates ((Op.outb port v).exec s) := by
  simp only [List.mem_cons, List.not_mem_nil, or_false, not_or] at hp
  obtain ⟨h₁, h₂, h₃, h₄⟩ := hp
  simp only [Op.exec, h₁, h₂, h₃, h₄, if_false]
  exact h

end Stages

section Boot

variable (l : Layout) {s : Machine}

/-- Every line that is not masked has the gate of its handler. -/
def Covers (imr : Byte) (gates : List (ℕ × ℕ)) : Prop :=
  ∀ n : Fin 8, imr.getLsbD n = false →
    n = 0 ∧ (0x20, l.pit) ∈ gates ∨ n = 1 ∧ (0x21, l.kbd) ∈ gates

/-- When interrupts are on, the kernel is ready for them. -/
def Armed (s : Machine) : Prop :=
  s.interrupts = true → ∃ imr gates, Stage l.idt imr gates s ∧ Covers l imr gates

/-- The gates that the boot makes. -/
def gatesOf : List (ℕ × ℕ) := [(0x20, l.pit), (0x21, l.kbd), (0x99, l.syscall)]

/-- The boot is over: the lines of the timer and the keyboard are open, or all are closed again. -/
def Running (s : Machine) : Prop :=
  ∃ imr, (imr = 0xFC ∨ imr = 0xFF) ∧ Stage l.idt imr (gatesOf l) s

variable {l}

theorem covers_closed (gates : List (ℕ × ℕ)) : Covers l 0xFF gates := by
  intro n hn
  have hnone : ∀ k : Fin 8, (0xFF : Byte).getLsbD k = false → False := by decide
  exact (hnone n hn).elim

theorem covers_keyboard {gates : List (ℕ × ℕ)} (h : (0x21, l.kbd) ∈ gates) :
    Covers l 0xFD gates := by
  intro n hn
  have hone : ∀ k : Fin 8, (0xFD : Byte).getLsbD k = false → k = 1 := by decide
  exact .inr ⟨hone n hn, h⟩

theorem covers_timer {gates : List (ℕ × ℕ)} (ht : (0x20, l.pit) ∈ gates)
    (hk : (0x21, l.kbd) ∈ gates) : Covers l 0xFC gates := by
  intro n hn
  have htwo : ∀ k : Fin 8, (0xFC : Byte).getLsbD k = false → k = 0 ∨ k = 1 := by decide
  rcases htwo n hn with h | h
  · exact .inl ⟨h, ht⟩
  · exact .inr ⟨h, hk⟩

theorem covers_running {imr : Byte} (h : imr = 0xFC ∨ imr = 0xFF) : Covers l imr (gatesOf l) := by
  rcases h with rfl | rfl
  · exact covers_timer (by simp [gatesOf]) (by simp [gatesOf])
  · exact covers_closed _

theorem Stage.armed {imr : Byte} {gates : List (ℕ × ℕ)} (h : Stage l.idt imr gates s)
    (hc : Covers l imr gates) : Armed l s := fun _ => ⟨imr, gates, h, hc⟩

theorem Running.armed (h : Running l s) : Armed l s := by
  obtain ⟨imr, himr, hs⟩ := h
  exact hs.armed (covers_running himr)

/-- Code that does not touch the interrupt flag. -/
theorem always_silent {p : List Op} (hp : ∀ o ∈ p, ∀ s, (o.exec s).interrupts = s.interrupts)
    (hs : s.interrupts = false) : Always (fun s => s.interrupts = false) p s := by
  induction p generalizing s with
  | nil => exact always_nil hs
  | cons o p ih =>
      refine always_cons hs (ih (fun o ho => hp o (List.mem_cons_of_mem _ ho)) ?_)
      rw [hp o List.mem_cons_self, hs]

theorem interrupts_outb (port : ℕ) (v : Byte) (s : Machine) :
    ((Op.outb port v).exec s).interrupts = s.interrupts := by
  simp only [Op.exec]
  split_ifs <;> rfl

/-- While the controllers are initialised, interrupts are off. -/
theorem always_idtInit (hs : s.interrupts = false) : Always (Armed l) (idtInit l.idt) s := by
  obtain ⟨p₀, hp₀⟩ : ∃ p₀, p₀ = 8 * 256 + l.idt % 65536 * 65536 := ⟨_, rfl⟩
  obtain ⟨p, hp⟩ : ∃ p, p = portsRemap ++ [Op.lidt p₀ (l.idt / 65536)] := ⟨_, rfl⟩
  have hsplit : idtInit l.idt = p ++ [Op.sti] := by
    rw [hp, idtInit, ← hp₀, List.append_assoc]
    rfl
  have hsilent : Always (fun s => s.interrupts = false) p s := by
    refine always_silent ?_ hs
    rw [hp]
    simp only [portsRemap, List.cons_append, List.nil_append, List.forall_mem_cons,
      interrupts_outb]
    simp [Op.exec]
  have hoff : Always (Armed l) p s := hsilent.mono fun s hs hon => by
    rw [hs] at hon
    exact absurd hon (by decide)
  rw [hsplit]
  refine always_append hoff (always_cons ?_ (always_nil ?_))
  · have hlast := hoff p.length
    rwa [List.take_length] at hlast
  · have hstage := stage_idtInit l.idt_le s
    rw [hsplit, execs_append] at hstage
    exact Stage.armed hstage (covers_closed [])

/-- The boot with interrupts held off never lets one reach a line without a handler. -/
theorem always_boot (hs : s.interrupts = false) :
    Always (Armed l) (boot l) s ∧ Running l (execs (boot l) s) := by
  have hidt := l.idt_le
  -- the states after each of the five parts
  obtain ⟨s₁, hs₁⟩ : ∃ s₁, s₁ = Op.cli.exec s := ⟨_, rfl⟩
  have hoff : s₁.interrupts = false := by rw [hs₁]; rfl
  have h₂ : Stage l.idt 0xFF [] (execs (idtInit l.idt) s₁) := stage_idtInit hidt s₁
  obtain ⟨a₃, h₃⟩ := h₂.irqMapHandler hidt (v := 0x99) (a := l.syscall) (by simp)
  obtain ⟨a₄, h₄⟩ := h₃.irqMapHandler hidt (v := 0x21) (a := l.kbd) (by simp)
  have h₅ := h₄.mask 0xFD
  have h₆ := h₅.maskSlave
  obtain ⟨a₇, h₇⟩ := h₆.irqMapHandler hidt (v := 0x20) (a := l.pit) (by simp)
  have h₈ := h₇.outb 0x43 (by decide) 0x36
  have h₉ := h₈.outb 0x40 (by decide) (BitVec.ofNat 8 (1193180 / 100))
  have h₁₀ := h₉.outb 0x40 (by decide) (BitVec.ofNat 8 (1193180 / 100 / 256))
  have h₁₁ := h₁₀.mask 0xFC
  have hclosed : ∀ {gates} {s}, Stage l.idt 0xFF gates s → Armed l s :=
    fun h => h.armed (covers_closed _)
  have hkbd : ∀ {gates} {s}, (0x21, l.kbd) ∈ gates → Stage l.idt 0xFD gates s → Armed l s :=
    fun hmem h => h.armed (covers_keyboard hmem)
  have hrunning : Running l (execs (boot l) s) := by
    refine ⟨0xFC, .inl rfl, ?_⟩
    simp only [boot, kernelCallsInit, kbdInit, timerInit, execs, List.foldl_cons,
      List.foldl_append, List.foldl_nil] at h₁₁ ⊢
    rw [hs₁] at h₁₁
    exact h₁₁
  have hboot : boot l = .cli :: (idtInit l.idt ++ (irqMapHandler l.idt 0x99 l.syscall ++
      (irqMapHandler l.idt 0x21 l.kbd ++ (.outb 0x21 0xFD :: .outb 0xA1 0xFF ::
        (irqMapHandler l.idt 0x20 l.pit ++ [.outb 0x43 0x36,
          .outb 0x40 (BitVec.ofNat 8 (1193180 / 100)),
          .outb 0x40 (BitVec.ofNat 8 (1193180 / 100 / 256)), .outb 0x21 0xFC]))))) := by
    simp only [boot, kernelCallsInit, kbdInit, timerInit, List.append_assoc, List.cons_append,
      List.nil_append]
  refine ⟨?_, hrunning⟩
  rw [hboot]
  refine always_cons (fun hon => ?_) ?_
  · rw [hs] at hon
    exact absurd hon (by decide)
  rw [← hs₁]
  refine always_append (always_idtInit hoff) ?_
  refine always_append (a₃.mono fun s => hclosed) ?_
  refine always_append (a₄.mono fun s => hclosed) ?_
  refine always_cons (hclosed h₄) (always_cons (hkbd (by simp) h₅) ?_)
  refine always_append (a₇.mono fun s => hkbd (by simp)) ?_
  refine always_cons (hkbd (by simp) h₇) (always_cons (hkbd (by simp) h₈) ?_)
  refine always_cons (hkbd (by simp) h₉) (always_cons (hkbd (by simp) h₁₀) (always_nil ?_))
  exact h₁₁.armed (covers_timer (by simp) (by simp))

theorem Running.of_mask (h : Running l s) {v : Byte} (hv : v = 0xFC ∨ v = 0xFF) :
    Running l ((Op.outb 0x21 v).exec s) := by
  obtain ⟨imr, -, hs⟩ := h
  exact ⟨v, hv, hs.mask v⟩

/-- What comes after the boot keeps the kernel ready. -/
theorem Running.later {p : List Op} (h : Running l s) (hp : Later p) :
    Always (Armed l) p s ∧ Running l (execs p s) := by
  have hone : ∀ o, Running l (o.exec s) → Always (Armed l) [o] s ∧ Running l (execs [o] s) :=
    fun o ho => ⟨always_cons h.armed (always_nil ho.armed), ho⟩
  obtain ⟨imr, himr, hs⟩ := id h
  cases hp with
  | cli => exact hone .cli ⟨imr, himr, { hs with }⟩
  | sti => exact hone .sti ⟨imr, himr, { hs with }⟩
  | intOff => exact hone (.outb 0x21 0xFF) (h.of_mask (.inr rfl))
  | outb v hport => exact hone (.outb _ v) ⟨imr, himr, hs.outb _ hport v⟩

end Boot

/-! ### The boot with interrupts -/

section Interleaving

variable {l : Layout} {s s' : Machine} {tr : List (Machine × Event)}

/-- What is left of the handler of an interrupt, or nothing; `flag` is the interrupt flag of the
code that was interrupted. -/
inductive Handling (flag : Bool) : List Op → Machine → Prop
  | main {s : Machine} (hflag : s.interrupts = flag) (h : Idle s) : Handling flag [] s
  | entered {s : Machine} (hoff : s.interrupts = false) (hm : s.master.eoi.isr = 0)
      (hs : s.slave.isr = 0) : Handling flag (eoi ++ [.iret flag]) s
  | master {s : Machine} (hoff : s.interrupts = false) (h : Idle s) :
      Handling flag [.outb 0xA0 0x20, .iret flag] s
  | returning {s : Machine} (hoff : s.interrupts = false) (h : Idle s) :
      Handling flag [.iret flag] s

/-- With interrupts on, no handler is on its way. -/
theorem Handling.main_of_on {flag : Bool} {handler : List Op} (h : Handling flag handler s)
    (hon : s.interrupts = true) : handler = [] ∧ flag = true ∧ Idle s := by
  cases h with
  | main hflag hidle => exact ⟨rfl, hflag.symm.trans hon, hidle⟩
  | entered hoff => simp [hon] at hoff
  | master hoff => simp [hon] at hoff
  | returning hoff => simp [hon] at hoff

/-- Requests and work leave the handler where it is. -/
theorem Handling.congr {flag : Bool} {handler : List Op} (h : Handling flag handler s)
    (hi : s'.interrupts = s.interrupts) (hm : s'.master.isr = s.master.isr)
    (hs : s'.slave.isr = s.slave.isr) : Handling flag handler s' := by
  have hidle : Idle s → Idle s' := fun h => ⟨hm.trans h.1, hs.trans h.2⟩
  cases h with
  | main hflag h => exact .main (hi.trans hflag) (hidle h)
  | entered hoff hmaster hslave =>
      refine .entered (hi.trans hoff) ?_ (hs.trans hslave)
      simpa [Chip.eoi, hm] using hmaster
  | master hoff h => exact .master (hi.trans hoff) (hidle h)
  | returning hoff h => exact .returning (hi.trans hoff) (hidle h)

/-- The interrupted code `rest` is where it would be without the interrupts, in the state `u`. -/
structure Ready (l : Layout) (u : Machine) (handler rest : List Op) (s : Machine) : Prop where
  todo : s.todo = handler ++ rest
  same : Same l.idt u s
  handling : Handling u.interrupts handler s
  armed : Always (Armed l) rest u
  running : Running l (execs rest u)
  failed : s.failed = false
  taken : ∀ g ∈ s.taken, g = (0x20, l.pit) ∨ g = (0x21, l.kbd)

/-- A step of the handler. -/
theorem Ready.handler_op {u : Machine} {o : Op} {handler rest : List Op}
    (h : Ready l u (o :: handler) rest s) :
    Ready l u handler rest (o.exec { s with todo := handler ++ rest }) := by
  obtain ⟨-, hsame, hhandling, harmed, hrunning, hfailed, htaken⟩ := h
  cases hhandling with
  | entered hoff hm hs =>
      exact ⟨rfl, { hsame with master := hsame.master }, .master hoff ⟨hm, hs⟩, harmed, hrunning,
        hfailed, htaken⟩
  | master hoff hidle =>
      exact ⟨rfl, { hsame with slave := hsame.slave },
        .returning hoff ⟨hidle.1, Chip.isr_eoi_of_zero hidle.2⟩, harmed, hrunning, hfailed,
        htaken⟩
  | returning hoff hidle =>
      exact ⟨rfl, { hsame with }, .main rfl hidle, harmed, hrunning, hfailed, htaken⟩

theorem exec_record (o : Op) (s : Machine) : (o.exec s).todo = s.todo ∧
    (o.exec s).failed = s.failed ∧ (o.exec s).taken = s.taken := by
  cases o with
  | outb port v =>
      simp only [Op.exec]
      split_ifs <;> exact ⟨rfl, rfl, rfl⟩
  | store a bs => exact ⟨rfl, rfl, rfl⟩
  | lidt p₀ p₁ => exact ⟨rfl, rfl, rfl⟩
  | sti => exact ⟨rfl, rfl, rfl⟩
  | cli => exact ⟨rfl, rfl, rfl⟩
  | iret flag => exact ⟨rfl, rfl, rfl⟩

/-- A step of the code itself. -/
theorem Ready.code_op {u : Machine} {o : Op} {rest : List Op} (h : Ready l u [] (o :: rest) s) :
    Ready l (o.exec u) [] rest (o.exec { s with todo := rest }) := by
  obtain ⟨-, hsame, hhandling, harmed, hrunning, hfailed, htaken⟩ := h
  obtain ⟨hflag, hidle⟩ : s.interrupts = u.interrupts ∧ Idle s := by
    cases hhandling with
    | main hflag hidle => exact ⟨hflag, hidle⟩
  obtain ⟨htodo', hfailed', htaken'⟩ := exec_record o { s with todo := rest }
  have hflag' : ({ s with todo := rest } : Machine).interrupts = u.interrupts := hflag
  have hsame' : Same l.idt u { s with todo := rest } := { hsame with }
  have hidle' : Idle { s with todo := rest } := hidle
  refine ⟨htodo', hsame'.exec o, .main ?_ (hidle'.exec o), harmed.tail, hrunning,
    hfailed'.trans hfailed, ?_⟩
  · exact interrupts_exec hflag' o
  · rw [htaken']
    exact htaken

/-- A gate in the table is a gate for the processor. -/
theorem GateAt.hasGate {v a : ℕ} (h : GateAt s.mem s.idtr v a) (hlimit : s.limit = 2048)
    (hv : v < 256) (ha : a < 4294967296) : HasGate s v ∧ handlerOf s v = a := by
  constructor
  · refine ⟨by omega, ?_, ?_, ?_⟩
    · simp [entryByte, h.type]
    · simp [entryByte, h.selector₀]
    · simp [entryByte, h.selector₁]
  · simp only [handlerOf, entryByte, h.low₀, h.low₁, h.high₀, h.high₁, Nat.add_zero,
      UInt8.toNat_ofNat']
    omega

/-- The gates of a stage stay in the table while the memory around it changes. -/
theorem Same.gateAt {u : Machine} (h : Same l.idt u s) {v a : ℕ} (hv : v < 256)
    (hg : GateAt u.mem l.idt v a) : GateAt s.mem l.idt v a := by
  have hbyte : ∀ i < 8, s.mem (l.idt + 8 * v + i) = u.mem (l.idt + 8 * v + i) := by
    intro i hi
    rw [Nat.add_assoc]
    exact h.table _ (by omega)
  exact ⟨(hbyte 0 (by decide)).trans hg.low₀, (hbyte 1 (by decide)).trans hg.low₁,
    (hbyte 2 (by decide)).trans hg.selector₀, (hbyte 3 (by decide)).trans hg.selector₁,
    (hbyte 5 (by decide)).trans hg.type, (hbyte 6 (by decide)).trans hg.high₀,
    (hbyte 7 (by decide)).trans hg.high₁⟩

/-- The handler of a line. -/
def lineHandler (l : Layout) (n : Fin 8) : ℕ := if n = 0 then l.pit else l.kbd

/-- An interrupt is one of the timer or the keyboard, and the processor finds its handler. -/
theorem Ready.interrupt_eq {u : Machine} {handler rest : List Op} (h : Ready l u handler rest s)
    (hon : s.interrupts = true) {n : Fin 8} (ho : s.master.Offers n) :
    (n = 0 ∨ n = 1) ∧ s.master.setup.autoEoi = false ∧ s.master.setup.cascade = 0 ∧
      interrupt s n = { s with
        master := s.master.acknowledge n
        interrupts := false
        todo := eoi ++ .iret true :: rest
        taken := s.taken ++ [(0x20 + n.val, lineHandler l n)] } := by
  obtain ⟨rfl, hu, -⟩ := h.handling.main_of_on hon
  obtain ⟨imr, gates, hstage, hcovers⟩ := h.armed.first hu
  have hsetup := h.same.master.trans hstage.master
  have hopen : imr.getLsbD n = false := by
    have := ho.unmasked
    rwa [hsetup] at this
  obtain ⟨hn, hgate⟩ : (n = 0 ∨ n = 1) ∧ (0x20 + n.val, lineHandler l n) ∈ gates := by
    rcases hcovers n hopen with ⟨rfl, hg⟩ | ⟨rfl, hg⟩
    · exact ⟨.inl rfl, hg⟩
    · exact ⟨.inr rfl, hg⟩
  have hlt : 0x20 + n.val < 256 := by omega
  have hvector : (s.master.vector n).toNat = 0x20 + n.val := by
    rw [Chip.vector, hsetup]
    have hall : ∀ k : Fin 8, ((0x20 : Byte) + BitVec.ofNat 8 k.val).toNat = 0x20 + k.val := by
      decide
    exact hall n
  have hhandler : lineHandler l n < 4294967296 := by
    rw [lineHandler]
    split
    · exact l.pit_lt
    · exact l.kbd_lt
  obtain ⟨t, ht⟩ : ∃ t, t = { s with master := s.master.acknowledge n } := ⟨_, rfl⟩
  have hfound : HasGate t (0x20 + n.val) ∧ handlerOf t (0x20 + n.val) = lineHandler l n := by
    have hg := h.same.gateAt hlt (hstage.gate _ hgate)
    rw [ht]
    refine GateAt.hasGate ?_ (h.same.limit.trans hstage.limit) hlt hhandler
    rw [show s.idtr = l.idt from h.same.idtr.trans hstage.idtr]
    exact hg
  refine ⟨hn, by rw [hsetup], by rw [hsetup], ?_⟩
  rw [interrupt, hvector, ← ht, enter, if_pos hfound.1, hfound.2, ht, h.todo, hon]
  rfl

/-- After an interrupt the handler of the timer or of the keyboard runs. -/
theorem Ready.interrupt {u : Machine} {handler rest : List Op} (h : Ready l u handler rest s)
    (hon : s.interrupts = true) {n : Fin 8} (ho : s.master.Offers n) :
    Ready l u (eoi ++ [.iret true]) rest (interrupt s n) := by
  obtain ⟨hn, hauto, -, heq⟩ := h.interrupt_eq hon ho
  obtain ⟨-, hu, hidle⟩ := h.handling.main_of_on hon
  rw [heq]
  refine ⟨by simp, { h.same with }, ?_, h.armed, h.running, h.failed, ?_⟩
  · rw [hu]
    exact .entered rfl (Chip.isr_eoi_acknowledge n hidle.1 hauto) hidle.2
  · intro g hg
    rcases List.mem_append.mp hg with hg | hg
    · exact h.taken g hg
    · rw [List.mem_singleton.mp hg]
      rcases hn with rfl | rfl
      · exact .inl rfl
      · exact .inr rfl

/-- Every step keeps the kernel ready. -/
theorem Ready.step {u : Machine} {handler rest : List Op} (h : Ready l u handler rest s)
    {e : Event} (hs : Step l.idt s e s') : ∃ u handler rest, Ready l u handler rest s' := by
  cases hs with
  | @op o rest' htodo =>
      cases handler with
      | nil =>
          have hrest : rest = o :: rest' := h.todo.symm.trans htodo
          subst hrest
          exact ⟨_, _, _, h.code_op⟩
      | cons o' handler =>
          obtain ⟨rfl, rfl⟩ := List.cons.inj (h.todo.symm.trans htodo)
          exact ⟨_, _, _, h.handler_op⟩
  | work m hm =>
      have hsame : Same l.idt u { s with mem := m } :=
        { h.same with table := fun i hi => (hm i hi).trans (h.same.table i hi) }
      exact ⟨u, handler, rest, h.todo, hsame, h.handling.congr rfl rfl rfl, h.armed, h.running,
        h.failed, h.taken⟩
  | request n =>
      exact ⟨u, handler, rest, h.todo, { h.same with master := h.same.master },
        h.handling.congr rfl rfl rfl, h.armed, h.running, h.failed, h.taken⟩
  | requestSlave n =>
      exact ⟨u, handler, rest, h.todo, { h.same with slave := h.same.slave },
        h.handling.congr rfl rfl rfl, h.armed, h.running, h.failed, h.taken⟩
  | interrupt hon ho hc => exact ⟨_, _, _, h.interrupt hon ho⟩
  | interruptSlave hon ho hc hk =>
      -- no line of the first controller has the second one behind it
      obtain ⟨-, -, hcascade, -⟩ := h.interrupt_eq hon ho
      rw [hcascade] at hc
      simp at hc
  | @later p htodo hp =>
      rw [h.todo, List.append_eq_nil_iff] at htodo
      obtain ⟨rfl, rfl⟩ := htodo
      obtain ⟨harmed, hrunning⟩ := Running.later h.running hp
      exact ⟨u, [], p, rfl, { h.same with }, h.handling.congr rfl rfl rfl, harmed, hrunning,
        h.failed, h.taken⟩

/-- In every run from the start of the kernel it stays ready. -/
theorem ready_run (hr : Run (Step l.idt) s tr s') (htodo : s.todo = boot l)
    (hoff : s.interrupts = false) (hidle : Idle s) (hfailed : s.failed = false)
    (htaken : s.taken = []) : ∃ u handler rest, Ready l u handler rest s' := by
  have hstart : ∃ u handler rest, Ready l u handler rest s := by
    obtain ⟨harmed, hrunning⟩ := always_boot (l := l) hoff
    refine ⟨s, [], boot l, htodo, ⟨rfl, rfl, rfl, rfl, fun _ _ => rfl⟩, .main rfl hidle, harmed,
      hrunning, hfailed, ?_⟩
    simp [htaken]
  refine hr.invariant (I := fun s => ∃ u handler rest, Ready l u handler rest s)
    (G := fun _ _ => True) ?_ hstart fun _ _ => trivial
  rintro s e s' ⟨u, handler, rest, h⟩ - hs
  exact h.step hs

/-- No interrupt ever finds the table without its handler, whatever the devices request and whenever
the processor takes it, only the handlers of the timer and of the keyboard are entered, and they do
not interrupt each other. -/
theorem interrupts_handled (hr : Run (Step l.idt) s tr s') (htodo : s.todo = boot l)
    (hoff : s.interrupts = false) (hidle : Idle s) (hfailed : s.failed = false)
    (htaken : s.taken = []) :
    s'.failed = false ∧ (∀ g ∈ s'.taken, g = (0x20, l.pit) ∨ g = (0x21, l.kbd)) ∧
      (s'.interrupts = true → Idle s') := by
  obtain ⟨u, handler, rest, h⟩ := ready_run hr htodo hoff hidle hfailed htaken
  exact ⟨h.failed, h.taken, fun hon => (h.handling.main_of_on hon).2.2⟩

/-- A request that the interrupt has served. -/
def served (l : Layout) (s : Machine) (n : Fin 8) : Machine :=
  { s with
    master := { s.master with irr := s.master.irr &&& ~~~line n }
    taken := s.taken ++ [(0x20 + n.val, lineHandler l n)] }

/-- The handler runs to its end, and the interrupted code goes on. -/
theorem Ready.run_handler {u : Machine} {handler rest : List Op} (h : Ready l u handler rest s)
    (hon : s.interrupts = true) {n : Fin 8} (ho : s.master.Offers n) :
    ∃ tr, Run (Step l.idt) s tr (served l s n) ∧
      tr.map Prod.snd = [.interrupt, .op, .op, .op] := by
  obtain ⟨-, hauto, hcascade, heq⟩ := h.interrupt_eq hon ho
  obtain ⟨rfl, -, hmaster, hslave⟩ := h.handling.main_of_on hon
  have htake : Step l.idt s .interrupt (Interrupts.interrupt s n) := by
    refine .interrupt hon ho ?_
    rw [hcascade]
    simp
  have hend : (s.master.acknowledge n).eoi =
      { s.master with irr := s.master.irr &&& ~~~line n } := by
    have hisr := Chip.isr_eoi_acknowledge n hmaster hauto
    rw [← hmaster] at hisr
    exact congrArg (fun i => (⟨s.master.setup, s.master.irr &&& ~~~line n, i⟩ : Chip)) hisr
  have hquiet : s.slave.eoi = s.slave := by
    have hisr := Chip.isr_eoi_of_zero hslave
    rw [← hslave] at hisr
    exact congrArg (fun i => (⟨s.slave.setup, s.slave.irr, i⟩ : Chip)) hisr
  -- the states on the way
  obtain ⟨t, ht⟩ : ∃ t, t = Interrupts.interrupt s n := ⟨_, rfl⟩
  have htodo : t.todo = .outb 0x20 0x20 :: .outb 0xA0 0x20 :: .iret true :: rest := by
    rw [ht, heq]
    rfl
  obtain ⟨t₁, ht₁⟩ : ∃ t₁, t₁ = (Op.outb 0x20 0x20).exec
      { t with todo := .outb 0xA0 0x20 :: .iret true :: rest } := ⟨_, rfl⟩
  obtain ⟨t₂, ht₂⟩ : ∃ t₂, t₂ = (Op.outb 0xA0 0x20).exec { t₁ with todo := .iret true :: rest } :=
    ⟨_, rfl⟩
  have hlast : (Op.iret true).exec { t₂ with todo := rest } = served l s n := by
    rw [ht₂, ht₁, ht, heq]
    simp only [Op.exec, served, hon, h.todo, List.nil_append, if_true, if_false,
      (by decide : ¬ 0xA0 = 0x20), (by decide : ¬ 0xA0 = 0x21), Machine.mk.injEq, and_true]
    exact ⟨hend, hquiet⟩
  have h₀ : Step l.idt s .interrupt t := ht ▸ htake
  have h₁ : Step l.idt t .op t₁ := ht₁ ▸ .op htodo
  have h₂ : Step l.idt t₁ .op t₂ := ht₂ ▸ .op (by rw [ht₁]; rfl)
  have h₃ : Step l.idt t₂ .op (served l s n) := hlast ▸ .op (by rw [ht₂]; rfl)
  exact ⟨_, .cons h₀ (.cons h₁ (.cons h₂ (.single h₃))), rfl⟩

/-- With interrupts on, the first request that is not masked is served. -/
theorem Ready.run_request {u : Machine} {handler rest : List Op} (h : Ready l u handler rest s)
    (hon : s.interrupts = true) {n : Fin 8} (hn : s.master.Wants n)
    (hfirst : ∀ k < n, ¬ s.master.Wants k) :
    ∃ tr, Run (Step l.idt) s tr (served l s n) ∧
      tr.map Prod.snd = [.interrupt, .op, .op, .op] := by
  obtain ⟨-, -, hisr, -⟩ := h.handling.main_of_on hon
  exact h.run_handler hon ⟨hn, hfirst, fun k _ => by rw [hisr]; simp⟩

/-- At any point of the kernel with interrupts on, the first request that is not masked is served,
and then the kernel goes on where it was, with nothing but the request changed. -/
theorem interrupt_served (hr : Run (Step l.idt) s tr s') (htodo : s.todo = boot l)
    (hoff : s.interrupts = false) (hidle : Idle s) (hfailed : s.failed = false)
    (htaken : s.taken = []) (hon : s'.interrupts = true) {n : Fin 8} (hn : s'.master.Wants n)
    (hfirst : ∀ k < n, ¬ s'.master.Wants k) :
    ∃ tr', Run (Step l.idt) s' tr' (served l s' n) ∧
      tr'.map Prod.snd = [.interrupt, .op, .op, .op] := by
  obtain ⟨u, handler, rest, h⟩ := ready_run hr htodo hoff hidle hfailed htaken
  exact h.run_request hon hn hfirst

theorem exec_todo (o : Op) (s : Machine) (p : List Op) :
    o.exec { s with todo := p } = { o.exec s with todo := p } := by
  cases o with
  | outb port v =>
      simp only [Op.exec]
      split_ifs <;> rfl
  | store a bs => rfl
  | lidt p₀ p₁ => rfl
  | sti => rfl
  | cli => rfl
  | iret flag => rfl

theorem execs_todo (q : List Op) (s : Machine) (p : List Op) :
    execs q { s with todo := p } = { execs q s with todo := p } := by
  induction q generalizing s with
  | nil => rfl
  | cons o q ih =>
      have hcons : ∀ s, execs (o :: q) s = execs q (o.exec s) := fun _ => rfl
      rw [hcons, hcons, exec_todo, ih]

/-- Code that runs without an interrupt. -/
theorem run_execs (p : List Op) {rest : List Op} (h : s.todo = p ++ rest) :
    ∃ tr, Run (Step l.idt) s tr { execs p s with todo := rest } := by
  induction p generalizing s with
  | nil =>
      obtain rfl : rest = s.todo := h.symm
      exact ⟨[], .nil s⟩
  | cons o p ih =>
      have hstep : Step l.idt s .op { o.exec s with todo := p ++ rest } := by
        rw [← exec_todo]
        exact .op h
      obtain ⟨tr, htr⟩ := ih (s := { o.exec s with todo := p ++ rest }) rfl
      rw [execs_todo] at htr
      exact ⟨_, .cons hstep htr⟩

end Interleaving

/-! ### A run with a timer interrupt -/

/-- Addresses as in the linked kernel. -/
def linked : Layout where
  idt := 0x20B000
  syscall := 0x100040
  kbd := 0x100029
  pit := 0x200069
  idt_le := by decide
  syscall_lt := by decide
  kbd_lt := by decide
  pit_lt := by decide

/-- The start of the kernel. -/
def start : Machine where
  master := ⟨⟨.ready, 0x08, 0xB8, 0x04, false⟩, 0, 0⟩
  slave := ⟨⟨.ready, 0x70, 0x8F, 0x02, false⟩, 0, 0⟩
  interrupts := false
  limit := 0
  idtr := 0
  mem := fun _ => 0
  todo := boot linked
  taken := []
  failed := false

/-- After the boot the timer requests an interrupt. -/
def requested : Machine :=
  { execs (boot linked) start with
    todo := []
    master := (execs (boot linked) start).master.request 0 }

theorem run_requested : ∃ tr, Run (Step linked.idt) start tr requested := by
  have htodo : start.todo = boot linked ++ [] := (List.append_nil _).symm
  obtain ⟨tr, htr⟩ := run_execs (l := linked) (boot linked) htodo
  have hreq : Step linked.idt { execs (boot linked) start with todo := [] } .request requested :=
    .request _ 0
  exact ⟨_, htr.append (.single hreq)⟩

/-- The timer interrupt has been served, and the keyboard requests one. -/
def requestedAgain : Machine :=
  { served linked requested 0 with master := (served linked requested 0).master.request 1 }

/-- Both interrupts are taken and served. -/
theorem run_served : ∃ tr, Run (Step linked.idt) start tr (served linked requestedAgain 1) := by
  obtain ⟨tr, htr⟩ := run_requested
  obtain ⟨u, handler, rest, h⟩ := ready_run htr rfl rfl ⟨rfl, rfl⟩ rfl rfl
  obtain ⟨tr₁, htr₁, -⟩ := h.run_request rfl (n := 0) ⟨rfl, rfl⟩ fun k hk =>
    absurd hk (Fin.not_lt_zero k)
  have hreq : Step linked.idt (served linked requested 0) .request requestedAgain := .request _ 1
  have hagain := (htr.append htr₁).append (.single hreq)
  obtain ⟨u', handler', rest', h'⟩ := ready_run hagain rfl rfl ⟨rfl, rfl⟩ rfl rfl
  have hfirst : ∀ k < 1, ¬ requestedAgain.master.Wants k := by
    intro k hk hwants
    obtain rfl : k = 0 := by
      ext
      exact Nat.lt_one_iff.mp hk
    cases hwants.1
  obtain ⟨tr₂, htr₂, -⟩ := h'.run_request rfl (n := 1) ⟨rfl, rfl⟩ hfirst
  exact ⟨_, hagain.append htr₂⟩

/-- The theorem for a run that takes the interrupts of the timer and of the keyboard. -/
theorem interrupts_handled_served :
    (served linked requestedAgain 1).taken = [(0x20, linked.pit), (0x21, linked.kbd)] ∧
      (served linked requestedAgain 1).failed = false ∧
      (∀ g ∈ (served linked requestedAgain 1).taken,
        g = (0x20, linked.pit) ∨ g = (0x21, linked.kbd)) ∧
        ((served linked requestedAgain 1).interrupts = true →
          Idle (served linked requestedAgain 1)) := by
  obtain ⟨tr, htr⟩ := run_served
  exact ⟨rfl, interrupts_handled htr rfl rfl ⟨rfl, rfl⟩ rfl rfl⟩

theorem interrupt_served_requested :
    ∃ tr', Run (Step linked.idt) requested tr' (served linked requested 0) ∧
      tr'.map Prod.snd = [.interrupt, .op, .op, .op] := by
  obtain ⟨tr, htr⟩ := run_requested
  refine interrupt_served htr rfl rfl ⟨rfl, rfl⟩ rfl rfl rfl ⟨rfl, rfl⟩ ?_
  intro k hk
  exact absurd hk (Fin.not_lt_zero k)

end Owmice.Interrupts
