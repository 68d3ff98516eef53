import Mathlib.Tactic

/-! # Two drives on a cable

ATA drives that a program reads and writes one sector at a time through the registers of the
cable, with 28-bit addresses of sectors.  Both drives latch the registers; commands, status and data
belong to the one that is selected.  After a command, and after the last word of a sector, a drive is
busy for a number of reads of its status that the program does not know (`delays`), and in that time
it takes no command.  What a drive does with a command that it cannot carry out, and what its data
register gives outside of a transfer, is left open (`refused`, `noise`).

* `Drive.status`, `Drive.readWord`, `Drive.writeWord`, `Cable.command`: the registers;
* `Drive.Seen`: what a program knows after a read of the status;
* `writeWords_sector`, `readWords_words`: a whole sector. -/

namespace Owmice

/-- What a drive does with the words of the data register. -/
inductive Transfer where
  | none
  | toHost (words : List UInt16)
  | toDrive (lba : ℕ) (words : List UInt16)
  | failed (status : UInt8)

/-- A drive: its sectors, the reads of the status for which it is still busy, the transfer under way,
the delays to come, and what is left open. -/
structure Drive where
  capacity : ℕ
  identity : ℕ → UInt16
  sectors : ℕ → ℕ → UInt16
  busy : ℕ
  transfer : Transfer
  delays : ℕ → ℕ
  refused : UInt8 → Transfer
  noise : UInt16

/-- The status of a drive that is not busy: ready, with DRQ in a transfer. -/
def Transfer.status : Transfer → UInt8
  | none => 0x50
  | toHost _ => 0x58
  | toDrive _ _ => 0x58
  | failed status => status

namespace Drive

/-- A read of the status. -/
def status (d : Drive) : UInt8 × Drive :=
  if 0 < d.busy then (0x80, { d with busy := d.busy - 1 }) else (d.transfer.status, d)

/-- A transfer begins, after a delay. -/
def start (d : Drive) (t : Transfer) : Drive :=
  { d with transfer := t, busy := d.delays 0, delays := fun n => d.delays (n + 1) }

/-- A word from the data register. -/
def readWord (d : Drive) : UInt16 × Drive :=
  match d.transfer with
  | .toHost (w :: ws) =>
      if 0 < d.busy then (d.noise, d)
      else (w, { d with transfer := if ws.isEmpty then .none else .toHost ws })
  | _ => (d.noise, d)

/-- A word to the data register; the last one of a sector stores the sector. -/
def writeWord (d : Drive) (w : UInt16) : Drive :=
  match d.transfer with
  | .toDrive lba ws =>
      if 0 < d.busy then d
      else if ws.length + 1 = 256 then
        { d.start .none with
          sectors := Function.update d.sectors lba fun k => (ws ++ [w]).getD k 0 }
      else { d with transfer := .toDrive lba (ws ++ [w]) }
  | _ => d

end Drive

/-- The registers and the two drives. -/
structure Cable where
  count : UInt8
  low : UInt8
  mid : UInt8
  hi : UInt8
  device : UInt8
  drive : Bool → Drive

namespace Cable

/-- The drive that is selected. -/
def selected (c : Cable) : Bool := c.device &&& 0x10 ≠ 0

/-- The address of a sector. -/
def lba (c : Cable) : ℕ :=
  c.low.toNat + 256 * c.mid.toNat + 65536 * c.hi.toNat + 16777216 * (c.device.toNat % 16)

/-- The selected drive changes. -/
def put (c : Cable) (d : Drive) : Cable := { c with drive := Function.update c.drive c.selected d }

/-- The registers name one sector of the selected drive. -/
def Addresses (c : Cable) : Prop :=
  c.count = 1 ∧ c.device &&& 0x40 ≠ 0 ∧ c.lba < (c.drive c.selected).capacity

instance (c : Cable) : Decidable c.Addresses := by unfold Addresses; infer_instance

/-- The transfer that a command begins: READ SECTORS, WRITE SECTORS, FLUSH CACHE and IDENTIFY
DEVICE. -/
def transferOf (c : Cable) (v : UInt8) : Transfer :=
  let d := c.drive c.selected
  if v = 0x20 then
    if c.Addresses then .toHost ((List.range 256).map (d.sectors c.lba)) else d.refused v
  else if v = 0x30 then if c.Addresses then .toDrive c.lba [] else d.refused v
  else if v = 0xE7 then .none
  else if v = 0xEC then .toHost ((List.range 256).map d.identity)
  else d.refused v

/-- A command. -/
def command (c : Cable) (v : UInt8) : Cable :=
  let d := c.drive c.selected
  if 0 < d.busy then c else c.put (d.start (c.transferOf v))

end Cable

/-! ### The selected drive -/

section Put

variable (c : Cable) (d : Drive)

@[simp] theorem selected_put : (c.put d).selected = c.selected := rfl

@[simp] theorem drive_put_selected : (c.put d).drive c.selected = d := Function.update_self ..

@[simp] theorem put_put (d' : Drive) : (c.put d).put d' = c.put d' := by
  simp only [Cable.put, Cable.mk.injEq, true_and]
  exact Function.update_idem ..

@[simp] theorem put_self : c.put (c.drive c.selected) = c := by
  simp only [Cable.put, Function.update_eq_self]

end Put

/-! ### The status -/

namespace Drive

variable {d : Drive}

/-- The drive has been busy for long enough. -/
def settled (d : Drive) : Drive := { d with busy := 0 }

/-- `s` is the status that the last read of the drive has given. -/
def Seen (d : Drive) (s : UInt8) : Prop := s = 0x80 ∨ s = d.transfer.status ∧ d.busy = 0

theorem status_of_busy (h : 0 < d.busy) : d.status = (0x80, { d with busy := d.busy - 1 }) := by
  rw [status, if_pos h]

theorem status_of_settled (h : d.busy = 0) : d.status = (d.transfer.status, d) := by
  rw [status, if_neg (by omega)]

/-- A read changes nothing but the time for which the drive is busy. -/
theorem seen_status (d : Drive) : ∃ n ≤ d.busy, d.status.2 = { d with busy := n } ∧
    Seen d.status.2 d.status.1 := by
  rcases Nat.eq_zero_or_pos d.busy with h | h
  · rw [status_of_settled h]
    exact ⟨d.busy, le_rfl, rfl, .inr ⟨rfl, h⟩⟩
  · rw [status_of_busy h]
    exact ⟨d.busy - 1, by omega, rfl, .inl rfl⟩

/-! ### A sector -/

/-- Words to the data register, one after the other. -/
def writeWords (d : Drive) (ws : List UInt16) : Drive := ws.foldl writeWord d

/-- The words of a sector are stored in it, and the drive is busy again. -/
theorem writeWords_sector {lba : ℕ} (ws : List UInt16) {ws' : List UInt16} (hd : d.busy = 0)
    (ht : d.transfer = .toDrive lba ws') (hlen : ws'.length + ws.length = 256) (hne : ws ≠ []) :
    d.writeWords ws = { d.start .none with
      sectors := Function.update d.sectors lba fun k => (ws' ++ ws).getD k 0 } := by
  induction ws generalizing d ws' with
  | nil => exact absurd rfl hne
  | cons w ws ih =>
      have hstep : d.writeWords (w :: ws) = (d.writeWord w).writeWords ws := rfl
      rw [hstep]
      rw [List.length_cons] at hlen
      rcases List.eq_nil_or_concat ws with rfl | ⟨_, _, hws⟩
      · have hlast : ws'.length + 1 = 256 := by simpa using hlen
        simp only [writeWord, ht, hd, hlast, if_true, Nat.lt_irrefl, if_false]
        rfl
      · have hws : ws ≠ [] := by simp [hws]
        have hlast : ws'.length + 1 ≠ 256 := by
          have := List.length_pos_of_ne_nil hws
          omega
        have hone : d.writeWord w = { d with transfer := .toDrive lba (ws' ++ [w]) } := by
          simp only [writeWord, ht, hd, hlast, Nat.lt_irrefl, if_false]
        have hlen' : (ws' ++ [w]).length + ws.length = 256 := by
          rw [List.length_append, List.length_singleton]
          omega
        rw [hone, @ih { d with transfer := .toDrive lba (ws' ++ [w]) } (ws' ++ [w]) hd rfl hlen' hws,
          List.append_assoc]
        rfl

/-- Words from the data register. -/
def readWords : ℕ → Drive → List UInt16 × Drive
  | 0, d => ([], d)
  | n + 1, d =>
      let r := d.readWord
      let q := readWords n r.2
      (r.1 :: q.1, q.2)

theorem length_readWords (n : ℕ) (d : Drive) : (readWords n d).1.length = n := by
  induction n generalizing d with
  | zero => rfl
  | succ n ih => rw [readWords, List.length_cons, ih]

/-- All words of a transfer are read, and it is over. -/
theorem readWords_words (ws : List UInt16) (hd : d.busy = 0) (ht : d.transfer = .toHost ws)
    (hne : ws ≠ []) : readWords ws.length d = (ws, { d with transfer := .none }) := by
  induction ws generalizing d with
  | nil => exact absurd rfl hne
  | cons w ws ih =>
      have hone : d.readWord =
          (w, { d with transfer := if ws.isEmpty then .none else .toHost ws }) := by
        simp only [readWord, ht, hd, Nat.lt_irrefl, if_false]
      rw [List.length_cons, readWords, hone]
      cases ws with
      | nil => rfl
      | cons w' ws =>
          have hrest := ih (d := { d with transfer := .toHost (w' :: ws) }) hd rfl (by simp)
          simp only [List.isEmpty_cons, Bool.false_eq_true, if_false, hrest]

end Drive

end Owmice
