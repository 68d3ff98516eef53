import Owmice.Ata
import Owmice.Drive
import Owmice.Memory
import Owmice.Words

/-! # The disk driver and the drives (`io/ATA.h`)

The functions of the driver over any kind of ports and memory: `ATA_identify`, `ATA_read28` and
`ATA_write28`.  Over the stream of answers of the model before, `ATA_write28` is the function that it
was (`ataWrite28_streamBus`); over two drives on a cable the driver is a store of sectors
(`performs_run`), however long the drives take and whatever `malloc` gives. -/

namespace Owmice.Ata

/-- The ports, the interrupt flag, and the memory. -/
structure Bus (σ : Type) where
  readPort : UInt16 → σ → UInt8 × σ
  writePort : UInt16 → UInt8 → σ → σ
  readPort16 : UInt16 → σ → UInt16 × σ
  portWrite16 : UInt16 → UInt16 → σ → σ
  cli : σ → σ
  sti : σ → σ
  malloc : ℕ → σ → ℕ × σ
  store : ℕ → UInt8 → σ → σ

/-! ### The driver -/

namespace Bus

variable {σ : Type} (B : Bus σ) (iface : Interface)

/-- `n` reads of the status, of which the last one counts. -/
def readStatus : ℕ → UInt8 → σ → UInt8 × σ
  | 0, status, s => (status, s)
  | n + 1, _, s =>
      let r := B.readPort iface.commandPort s
      readStatus n r.1 r.2

/-- The loop `while (busy(status)) status = read_port(..)`. -/
def pollWhile (busy : UInt8 → Bool) : ℕ → UInt8 → σ → Option (UInt8 × σ)
  | 0, _, _ => none
  | fuel + 1, status, s =>
      if busy status then
        let r := B.readPort iface.commandPort s
        pollWhile busy fuel r.1 r.2
      else some (status, s)

/-- The drive select. -/
def selectDrive (sector : UInt32) (s : σ) : σ :=
  B.writePort iface.devicePort
    ((if iface.master ≠ 0 then (0xE0 : UInt8) else 0xF0) |||
      ((sector &&& 0x0F000000) >>> 24).toUInt8) s

/-- The registers of a command on a sector, and the command. -/
def sendCommand (sector : UInt32) (command : UInt8) (s : σ) : σ :=
  let s := B.writePort iface.errorPort 0 s
  let s := B.writePort iface.sectorCountPort 1 s
  let s := B.writePort iface.lbaLowPort (sector &&& 0x000000FF).toUInt8 s
  let s := B.writePort iface.lbaMidPort ((sector &&& 0x0000FF00) >>> 8).toUInt8 s
  let s := B.writePort iface.lbaHiPort ((sector &&& 0x00FF0000) >>> 16).toUInt8 s
  B.writePort iface.commandPort command s

/-- The loop that sends the data. -/
def sendData (contents : ℕ → UInt8) (s : σ) : σ :=
  (List.range 256).foldl (fun s k => B.portWrite16 iface.dataPort
    ((contents (2 * k)).toUInt16 ||| (contents (2 * k + 1)).toUInt16 <<< 8) s) s

/-- The loop that reads `n` words of data and drops them. -/
def dropData : ℕ → σ → σ
  | 0, s => s
  | n + 1, s => dropData n (B.readPort16 iface.dataPort s).2

/-- The loop that receives `n` words of data, from `ret[i]` on. -/
def receiveData (ret : ℕ) : ℕ → ℕ → σ → σ
  | 0, _, s => s
  | n + 1, i, s =>
      let r := B.readPort16 iface.dataPort s
      let s := B.store (ret + i) (r.1 &&& 0xFF).toUInt8 r.2
      let s := B.store (ret + (i + 1)) ((r.1 >>> 8) &&& 0xFF).toUInt8 s
      receiveData ret n (i + 2) s

/-- `ATA_identify`. -/
def ataIdentify (fuel : ℕ) (s : σ) : Option (UInt8 × σ) :=
  let select : UInt8 := if iface.master ≠ 0 then 0xA0 else 0xB0
  let s := B.writePort iface.devicePort select s
  let s := B.writePort iface.controlPort 0 s
  let s := B.writePort iface.devicePort 0xA0 s
  let r := B.readPort iface.commandPort s
  if r.1 = 0xFF then some (1, r.2)
  else
    let s := B.writePort iface.devicePort select r.2
    let s := B.writePort iface.sectorCountPort 0 s
    let s := B.writePort iface.lbaLowPort 0 s
    let s := B.writePort iface.lbaMidPort 0 s
    let s := B.writePort iface.lbaHiPort 0 s
    let s := B.writePort iface.commandPort 0xEC s
    let r := B.readPort iface.commandPort s
    if r.1 = 0 then some (1, r.2)
    else do
      let r ← B.pollWhile iface working fuel r.1 r.2
      if r.1 &&& 0x01 ≠ 0 then some (1, r.2)
      else some (0, B.dropData iface 256 r.2)

/-- `ATA_read28`: the pointer to the bytes of the sector. -/
def ataRead28 (fuel : ℕ) (sector : UInt32) (s : σ) : Option (ℕ × σ) :=
  if 0x0FFFFFFF < sector then some (0, s)
  else
    let s := B.selectDrive iface sector s
    let r := B.readStatus iface 5 0 s
    if r.1 = 0xFF then some (0, r.2)
    else do
      let s := B.sendCommand iface sector 0x20 r.2
      let r := B.readPort iface.commandPort s
      let r ← B.pollWhile iface working fuel r.1 r.2
      let ret := B.malloc 512 r.2
      some (ret.1, B.receiveData iface ret.1 256 0 ret.2)

/-- `ATA_write28` behind its first polling loop. -/
def transfer (fuel : ℕ) (contents : ℕ → UInt8) (status : UInt8) (s : σ) : Option (UInt8 × σ) :=
  if status &&& lor 0x01 0x20 ≠ 0 then some (2, s)
  else
    let s := B.sendData iface contents s
    let s := B.writePort iface.commandPort 0xE7 s
    let r := B.readStatus iface 5 status s
    if r.1 = 0 then some (3, r.2)
    else do
      let r ← B.pollWhile iface working fuel r.1 r.2
      some (0, B.sti r.2)

/-- `ATA_write28`. -/
def ataWrite28 (fuel : ℕ) (sector : UInt32) (contents : ℕ → UInt8) (s : σ) : Option (UInt8 × σ) :=
  if 0x0FFFFFFF < sector then some (1, s)
  else
    let s := B.selectDrive iface sector (B.cli s)
    let r := B.readStatus iface 5 0 s
    if r.1 = 0xFF then some (1, r.2)
    else do
      let s := B.sendCommand iface sector 0x30 r.2
      let r ← B.pollWhile iface notReady fuel r.1 s
      B.transfer iface fuel contents r.1 r.2

end Bus

/-! ### The stream of answers -/

section Stream

/-- The ports of the model with a stream of answers; `ATA_write28` asks for no memory. -/
def streamBus (st : ℕ → UInt8) : Bus Machine where
  readPort := readPort st
  writePort port data m := m.writePort port data
  readPort16 _ m := (0, m)
  portWrite16 port value m := m.portWrite16 port value
  cli := Machine.cli
  sti := Machine.sti
  malloc _ m := (0, m)
  store _ _ m := m

/-- The machine without the record of the polling loops. -/
def Machine.bare (m : Machine) : Machine := { m with polls := [] }

variable (st : ℕ → UInt8) (fuel : ℕ) (iface : Interface)

theorem readStatus_streamBus (n : ℕ) (status : UInt8) (m : Machine) :
    (streamBus st).readStatus iface n status m.bare =
      ((readStatus st iface n status m).1, (readStatus st iface n status m).2.bare) := by
  induction n generalizing status m with
  | zero => rfl
  | succ n ih => exact ih (readPort st iface.commandPort m).1 (readPort st iface.commandPort m).2

theorem pollWhile_streamBus (busy : UInt8 → Bool) (status : UInt8) (m : Machine) :
    (streamBus st).pollWhile iface busy fuel status m.bare =
      (pollWhile busy st iface fuel status m).map fun r => (r.1, r.2.bare) := by
  induction fuel generalizing status m with
  | zero => rfl
  | succ fuel ih =>
      rw [Bus.pollWhile, pollWhile]
      split
      · exact ih (readPort st iface.commandPort m).1 (readPort st iface.commandPort m).2
      · rfl

theorem sendData_streamBus (contents : ℕ → UInt8) (m : Machine) :
    (streamBus st).sendData iface contents m.bare = (sendData iface contents m).bare := by
  rw [Bus.sendData, sendData]
  generalize List.range 256 = l
  induction l generalizing m with
  | nil => rfl
  | cons k l ih => exact ih (m.portWrite16 iface.dataPort _)

theorem transfer_streamBus (contents : ℕ → UInt8) (status : UInt8) (m : Machine) :
    (streamBus st).transfer iface fuel contents status m.bare =
      (transfer st fuel iface contents status m).map fun r => (r.1, r.2.bare) := by
  have hflush : ∀ m : Machine, (streamBus st).writePort iface.commandPort 0xE7 m.bare =
      (m.writePort iface.commandPort 0xE7).bare := fun _ => rfl
  simp only [Bus.transfer, transfer, sendData_streamBus, hflush, readStatus_streamBus,
    pollWhile_streamBus]
  obtain ⟨r, hr⟩ : ∃ r, readStatus st iface 5 status
      ((sendData iface contents m).writePort iface.commandPort 0xE7) = r := ⟨_, rfl⟩
  rw [hr]
  split
  · rfl
  split
  · rfl
  · cases pollWhile working st iface fuel r.1 r.2 <;> rfl

/-- Over a stream of answers this is `ATA_write28` of the model before. -/
theorem ataWrite28_streamBus (sector : UInt32) (contents : ℕ → UInt8) (m : Machine) :
    (streamBus st).ataWrite28 iface fuel sector contents m.bare =
      (ataWrite28 st fuel iface sector contents m).map fun r => (r.1, r.2.bare) := by
  rw [Bus.ataWrite28, ataWrite28]
  split
  · rfl
  have hselect : (streamBus st).selectDrive iface sector ((streamBus st).cli m.bare) =
      (selectDrive iface sector m.cli).bare := rfl
  have hcommand : ∀ m : Machine, (streamBus st).sendCommand iface sector 0x30 m.bare =
    (sendCommand iface sector 0x30 m).bare := fun _ => rfl
  simp only [hselect, hcommand, readStatus_streamBus, pollWhile_streamBus]
  split
  · rfl
  · cases pollWhile notReady st iface fuel _ _ with
    | none => rfl
    | some r => exact transfer_streamBus st fuel iface contents r.1 r.2

end Stream

/-! ### The ports of the cable -/

/-- Two drives, the interrupt flag and the memory. -/
structure Pc where
  cable : Cable
  interrupts : Bool
  mem : Mem

namespace Pc

/-- The selected drive. -/
def current (s : Pc) : Drive := s.cable.drive s.cable.selected

def put (s : Pc) (d : Drive) : Pc := { s with cable := s.cable.put d }

end Pc

/-- The registers of the cable are the ports from `base` on.  All that `malloc` knows is in memory. -/
def cableBus (malloc : ℕ → Mem → ℕ × Mem) (base : UInt16) : Bus Pc where
  readPort port s :=
    if port - base = 7 then (s.current.status.1, s.put s.current.status.2) else (0xFF, s)
  writePort port v s :=
    if port - base = 2 then { s with cable := { s.cable with count := v } }
    else if port - base = 3 then { s with cable := { s.cable with low := v } }
    else if port - base = 4 then { s with cable := { s.cable with mid := v } }
    else if port - base = 5 then { s with cable := { s.cable with hi := v } }
    else if port - base = 6 then { s with cable := { s.cable with device := v } }
    else if port - base = 7 then { s with cable := s.cable.command v }
    else s
  readPort16 port s :=
    if port - base = 0 then (s.current.readWord.1, s.put s.current.readWord.2) else (0xFFFF, s)
  portWrite16 port w s := if port - base = 0 then s.put (s.current.writeWord w) else s
  cli s := { s with interrupts := false }
  sti s := { s with interrupts := true }
  malloc size s := ((malloc size s.mem).1, { s with mem := (malloc size s.mem).2 })
  store a v s := { s with mem := Function.update s.mem (w32 a) v }

section Cable

variable (malloc : ℕ → Mem → ℕ × Mem) (base : UInt16) (master : UInt8) (s : Pc) (d : Drive)

@[simp] theorem current_put : (s.put d).current = d := drive_put_selected s.cable d

@[simp] theorem Pc.put_put (d' : Drive) : (s.put d).put d' = s.put d' := by
  simp only [Pc.put, Owmice.put_put]

@[simp] theorem put_current : s.put s.current = s := by
  simp only [Pc.put, Pc.current, Owmice.put_self]

theorem port_sub (base k : UInt16) : base + k - base = k := by
  rw [UInt16.add_comm, UInt16.add_sub_cancel]

/-- The status register. -/
theorem readPort_put : (cableBus malloc base).readPort (newATA master base).commandPort (s.put d) =
    (d.status.1, s.put d.status.2) := by
  have hport : (newATA master base).commandPort - base = 7 := port_sub base 0x7
  simp only [cableBus, hport, if_true, current_put, Pc.put_put]

/-- The data register. -/
theorem readPort16_put : (cableBus malloc base).readPort16 (newATA master base).dataPort (s.put d) =
    (d.readWord.1, s.put d.readWord.2) := by
  have hport : (newATA master base).dataPort - base = 0 := UInt16.sub_self base
  simp only [cableBus, hport, if_true, current_put, Pc.put_put]

theorem portWrite16_put (w : UInt16) :
    (cableBus malloc base).portWrite16 (newATA master base).dataPort w (s.put d) =
      s.put (d.writeWord w) := by
  have hport : (newATA master base).dataPort - base = 0 := UInt16.sub_self base
  simp only [cableBus, hport, if_true, current_put, Pc.put_put]

/-- The command register. -/
theorem command_put (v : UInt8) :
    (cableBus malloc base).writePort (newATA master base).commandPort v (s.put d) =
      s.put (if 0 < d.busy then d else d.start ((s.cable.put d).transferOf v)) := by
  have hport : (newATA master base).commandPort - base = 7 := port_sub base 0x7
  simp only [cableBus, hport, if_true, Cable.command]
  simp [Pc.put]
  split <;> rfl

end Cable

/-! ### Reads of the status -/

section Status

variable (malloc : ℕ → Mem → ℕ × Mem) (base : UInt16) (master : UInt8) (s : Pc) {d : Drive}
  {busy : UInt8 → Bool}

/-- Reads of the status of a drive that is not busy. -/
theorem readStatus_settled (n : ℕ) (status : UInt8) (h : d.busy = 0) :
    (cableBus malloc base).readStatus (newATA master base) (n + 1) status (s.put d) =
      (d.transfer.status, s.put d) := by
  induction n generalizing status with
  | zero => rw [Bus.readStatus, readPort_put, Drive.status_of_settled h]; rfl
  | succ n ih => rw [Bus.readStatus, readPort_put, Drive.status_of_settled h, ih]

/-- Reads of the status of any drive. -/
theorem readStatus_seen (n : ℕ) (status : UInt8) (d : Drive) :
    ∃ x k, k ≤ d.busy ∧ Drive.Seen { d with busy := k } x ∧
      (cableBus malloc base).readStatus (newATA master base) (n + 1) status (s.put d) =
        (x, s.put { d with busy := k }) := by
  induction n generalizing status d with
  | zero =>
      obtain ⟨k, hk, hd, hseen⟩ := d.seen_status
      rw [hd] at hseen
      refine ⟨_, k, hk, hseen, ?_⟩
      rw [Bus.readStatus, readPort_put, hd]
      rfl
  | succ n ih =>
      obtain ⟨k, hk, hd, -⟩ := d.seen_status
      obtain ⟨x, k', hk', hseen, hrun⟩ := ih d.status.1 { d with busy := k }
      refine ⟨x, k', hk'.trans hk, hseen, ?_⟩
      rw [Bus.readStatus, readPort_put, hd, hrun]

/-- The loop that waits for a drive, from a status with which it goes on. -/
theorem pollWhile_busy (fuel : ℕ) {x : UInt8} (hx : busy x = true) (hbusy : busy 0x80 = true)
    (hdone : busy d.transfer.status = false) (hfuel : d.busy + 2 ≤ fuel) :
    (cableBus malloc base).pollWhile (newATA master base) busy fuel x (s.put d) =
      some (d.transfer.status, s.put d.settled) := by
  induction fuel generalizing d x with
  | zero => omega
  | succ fuel ih =>
      rw [Bus.pollWhile, if_pos hx, readPort_put]
      rcases Nat.eq_zero_or_pos d.busy with h | h
      · obtain ⟨fuel, rfl⟩ : ∃ k, fuel = k + 1 := ⟨fuel - 1, by omega⟩
        have hsettled : d.settled = d := by rw [Drive.settled, ← h]
        rw [Drive.status_of_settled h, Bus.pollWhile, if_neg (by simp [hdone]), hsettled]
      · rw [Drive.status_of_busy h]
        exact ih (d := { d with busy := d.busy - 1 }) hbusy hdone (by simp only; omega)

/-- The same from a status that has been read. -/
theorem pollWhile_seen (fuel : ℕ) {x : UInt8} (hx : d.Seen x) (hbusy : busy 0x80 = true)
    (hdone : busy d.transfer.status = false) (hfuel : d.busy + 2 ≤ fuel) :
    (cableBus malloc base).pollWhile (newATA master base) busy fuel x (s.put d) =
      some (d.transfer.status, s.put d.settled) := by
  rcases hx with rfl | ⟨rfl, h⟩
  · exact pollWhile_busy malloc base master s fuel hbusy hbusy hdone hfuel
  · obtain ⟨fuel, rfl⟩ : ∃ k, fuel = k + 1 := ⟨fuel - 1, by omega⟩
    have hsettled : d.settled = d := by rw [Drive.settled, ← h]
    rw [Bus.pollWhile, if_neg (by simp [hdone]), hsettled]

end Status

/-! ### The data and the registers -/

section Data

variable {malloc : ℕ → Mem → ℕ × Mem} {base : UInt16} {master : UInt8} {s : Pc} {d : Drive}

/-- Word `k` of the contents of a sector. -/
def word (contents : ℕ → UInt8) (k : ℕ) : UInt16 :=
  (contents (2 * k)).toUInt16 ||| (contents (2 * k + 1)).toUInt16 <<< 8

/-- The bytes of words, as `ATA_read28` stores them. -/
def bytesOf : List UInt16 → List UInt8
  | [] => []
  | w :: ws => (w &&& 0xFF).toUInt8 :: ((w >>> 8) &&& 0xFF).toUInt8 :: bytesOf ws

/-- The two bytes of a word. -/
theorem low_word (contents : ℕ → UInt8) (k : ℕ) :
    (word contents k &&& 0xFF).toUInt8 = contents (2 * k) := by
  rw [toUInt8_and_255]
  exact low_bytes _ _

theorem high_word (contents : ℕ → UInt8) (k : ℕ) :
    ((word contents k >>> 8) &&& 0xFF).toUInt8 = contents (2 * k + 1) := by
  rw [toUInt8_and_255]
  exact high_bytes _ _

/-- The words of a sector and their bytes. -/
theorem bytesOf_word (contents : ℕ → UInt8) (n : ℕ) :
    bytesOf ((List.range n).map (word contents)) = (List.range (2 * n)).map contents := by
  have happend : ∀ ws w, bytesOf (ws ++ [w]) =
      bytesOf ws ++ [(w &&& 0xFF).toUInt8, ((w >>> 8) &&& 0xFF).toUInt8] := by
    intro ws w
    induction ws with
    | nil => rfl
    | cons w' ws ih => simp only [List.cons_append, bytesOf, ih]
  induction n with
  | zero => rfl
  | succ n ih =>
      have hdouble : 2 * (n + 1) = 2 * n + 1 + 1 := by ring
      rw [List.range_succ, List.map_append, List.map_singleton, happend, ih, hdouble,
        List.range_succ, List.range_succ, low_word, high_word]
      simp

/-- The loop that sends the data. -/
theorem sendData_put (contents : ℕ → UInt8) :
    (cableBus malloc base).sendData (newATA master base) contents (s.put d) =
      s.put (d.writeWords ((List.range 256).map (word contents))) := by
  rw [Bus.sendData]
  generalize List.range 256 = l
  induction l generalizing d with
  | nil => rfl
  | cons k l ih =>
      rw [List.foldl_cons, portWrite16_put]
      exact ih

/-- The loop that drops it. -/
theorem dropData_put (n : ℕ) :
    (cableBus malloc base).dropData (newATA master base) n (s.put d) = s.put (d.readWords n).2 := by
  induction n generalizing d with
  | zero => rfl
  | succ n ih =>
      rw [Bus.dropData, readPort16_put]
      simp only [ih, Drive.readWords]

theorem length_bytesOf (ws : List UInt16) : (bytesOf ws).length = 2 * ws.length := by
  induction ws with
  | nil => rfl
  | cons w ws ih =>
      simp only [bytesOf, List.length_cons, ih]
      omega

/-- The loop that receives it. -/
theorem receiveData_put (ret : ℕ) {n : ℕ} (hn : n ≤ 256) (i : ℕ) :
    (cableBus malloc base).receiveData (newATA master base) ret n i (s.put d) =
      { s.put (d.readWords n).2 with mem := s.mem.load (ret + i) (bytesOf (d.readWords n).1) } := by
  induction n generalizing s d i with
  | zero =>
      have hnil : s.mem.load (ret + i) [] = s.mem := by
        funext x
        simp [Mem.load]
      simp only [Bus.receiveData, Drive.readWords, bytesOf, hnil]
      rfl
  | succ n ih =>
      have hlen : (bytesOf (Drive.readWords n d.readWord.2).1).length = 2 * n := by
        rw [length_bytesOf, Drive.length_readWords]
      rw [Bus.receiveData, readPort16_put]
      simp only [Drive.readWords, bytesOf]
      rw [Mem.load_cons _ _ _ (by simp only [List.length_cons, hlen]; omega),
        Mem.load_cons _ _ _ (by omega)]
      exact ih (s := { s with
        mem := Function.update (Function.update s.mem (w32 (ret + i)) (d.readWord.1 &&& 0xFF).toUInt8)
          (w32 (ret + (i + 1))) ((d.readWord.1 >>> 8) &&& 0xFF).toUInt8 }) (by omega) (i + 2)

end Data

section Registers

variable {malloc : ℕ → Mem → ℕ × Mem} {base : UInt16} {master : UInt8} {sector : UInt32}
  {s : Pc} {d : Drive}

/-- The drive that an interface selects. -/
def slave (master : UInt8) : Bool := master = 0

/-- The value of the device register. -/
def deviceOf (master : UInt8) (sector : UInt32) : UInt8 :=
  (if master ≠ 0 then (0xE0 : UInt8) else 0xF0) ||| ((sector &&& 0x0F000000) >>> 24).toUInt8

theorem deviceOf_bits (master : UInt8) (hsector : sector.toNat < 268435456) :
    decide (deviceOf master sector &&& 0x10 ≠ 0) = slave master ∧
      deviceOf master sector &&& 0x40 ≠ 0 ∧
      (deviceOf master sector).toNat % 16 = sector.toNat / 16777216 := by
  obtain ⟨x, hx⟩ : ∃ x, ((sector &&& 0x0F000000) >>> 24).toUInt8 = x := ⟨_, rfl⟩
  have hnat : x.toNat = sector.toNat / 16777216 := by
    rw [← hx, UInt32.toNat_toUInt8, UInt32.toNat_shiftRight, UInt32.toNat_and,
      show (24 : UInt32).toNat % 32 = 24 from rfl, Nat.shiftRight_and_distrib,
      show (0x0F000000 : UInt32).toNat >>> 24 = 2 ^ 4 - 1 from rfl, Nat.and_two_pow_sub_one_eq_mod,
      Nat.shiftRight_eq_div_pow]
    omega
  have hlt : x.toNat < 16 := by omega
  have hfin : x = UInt8.ofNat (Fin.mk x.toNat hlt).val := (UInt8.ofNat_toNat).symm
  have hfirst : ∀ k : Fin 16, (0xE0 ||| UInt8.ofNat k.val) &&& 0x10 = 0 ∧
      (0xE0 ||| UInt8.ofNat k.val) &&& 0x40 ≠ 0 ∧
      (0xE0 ||| UInt8.ofNat k.val).toNat % 16 = k.val := by decide
  have hsecond : ∀ k : Fin 16, (0xF0 ||| UInt8.ofNat k.val) &&& 0x10 ≠ 0 ∧
      (0xF0 ||| UInt8.ofNat k.val) &&& 0x40 ≠ 0 ∧
      (0xF0 ||| UInt8.ofNat k.val).toNat % 16 = k.val := by decide
  rw [deviceOf, hx, slave]
  rcases eq_or_ne master 0 with hmaster | hmaster
  · obtain ⟨h₁, h₂, h₃⟩ := hsecond ⟨x.toNat, hlt⟩
    rw [← hfin] at h₁ h₂ h₃
    rw [if_neg (not_not.mpr hmaster)]
    exact ⟨by simp [h₁, hmaster], h₂, h₃.trans hnat⟩
  · obtain ⟨h₁, h₂, h₃⟩ := hfirst ⟨x.toNat, hlt⟩
    rw [← hfin] at h₁ h₂ h₃
    rw [if_pos hmaster]
    exact ⟨by simp [h₁, hmaster], h₂, h₃.trans hnat⟩

/-- The bytes of the number of a sector. -/
theorem toNat_low (sector : UInt32) :
    (sector &&& 0x000000FF).toUInt8.toNat = sector.toNat % 256 := by
  rw [UInt32.toNat_toUInt8, UInt32.toNat_and, show (0x000000FF : UInt32).toNat = 2 ^ 8 - 1 from rfl,
    Nat.and_two_pow_sub_one_eq_mod]
  omega

theorem toNat_mid (sector : UInt32) :
    ((sector &&& 0x0000FF00) >>> 8).toUInt8.toNat = sector.toNat / 256 % 256 := by
  rw [UInt32.toNat_toUInt8, UInt32.toNat_shiftRight, UInt32.toNat_and,
    show (8 : UInt32).toNat % 32 = 8 from rfl, Nat.shiftRight_and_distrib,
    show (0x0000FF00 : UInt32).toNat >>> 8 = 2 ^ 8 - 1 from rfl, Nat.and_two_pow_sub_one_eq_mod,
    Nat.shiftRight_eq_div_pow]
  omega

theorem toNat_hi (sector : UInt32) :
    ((sector &&& 0x00FF0000) >>> 16).toUInt8.toNat = sector.toNat / 65536 % 256 := by
  rw [UInt32.toNat_toUInt8, UInt32.toNat_shiftRight, UInt32.toNat_and,
    show (16 : UInt32).toNat % 32 = 16 from rfl, Nat.shiftRight_and_distrib,
    show (0x00FF0000 : UInt32).toNat >>> 16 = 2 ^ 8 - 1 from rfl, Nat.and_two_pow_sub_one_eq_mod,
    Nat.shiftRight_eq_div_pow]
  omega

/-- The drive select. -/
theorem selectDrive_eq (s : Pc) : (cableBus malloc base).selectDrive (newATA master base) sector s =
    { s with cable := { s.cable with device := deviceOf master sector } } := by
  have hport : (newATA master base).devicePort - base = 6 := port_sub base 0x6
  rw [Bus.selectDrive]
  simp only [cableBus, hport]
  rfl

/-- The registers name a sector. -/
def addressed (master : UInt8) (sector : UInt32) (s : Pc) : Pc :=
  { s with
    cable := { s.cable with
      device := deviceOf master sector
      count := 1
      low := (sector &&& 0x000000FF).toUInt8
      mid := ((sector &&& 0x0000FF00) >>> 8).toUInt8
      hi := ((sector &&& 0x00FF0000) >>> 16).toUInt8 } }

/-- The registers in front of a command. -/
theorem sendCommand_eq (command : UInt8) (s : Pc) :
    (cableBus malloc base).sendCommand (newATA master base) sector command
      { s with cable := { s.cable with device := deviceOf master sector } } =
      (cableBus malloc base).writePort (newATA master base).commandPort command
        (addressed master sector s) := by
  have herr : (newATA master base).errorPort - base = 1 := port_sub base 0x1
  have hcount : (newATA master base).sectorCountPort - base = 2 := port_sub base 0x2
  have hlow : (newATA master base).lbaLowPort - base = 3 := port_sub base 0x3
  have hmid : (newATA master base).lbaMidPort - base = 4 := port_sub base 0x4
  have hhi : (newATA master base).lbaHiPort - base = 5 := port_sub base 0x5
  rw [Bus.sendCommand]
  simp only [cableBus, herr, hcount, hlow, hmid, hhi]
  rfl

theorem selected_addressed (s : Pc) (hsector : sector.toNat < 268435456) :
    (addressed master sector s).cable.selected = slave master :=
  (deviceOf_bits master hsector).1

/-- The drive sees the number of the sector. -/
theorem lba_addressed (s : Pc) (hsector : sector.toNat < 268435456) :
    (addressed master sector s).cable.lba = sector.toNat := by
  have hdevice := (deviceOf_bits master hsector).2.2
  simp only [addressed, Cable.lba, toNat_low, toNat_mid, toNat_hi, hdevice]
  omega

theorem current_addressed (master : UInt8) (s : Pc) (hsector : sector.toNat < 268435456) :
    (addressed master sector s).current = s.cable.drive (slave master) := by
  rw [Pc.current, selected_addressed s hsector]
  rfl

theorem addresses_addressed (s : Pc) (hsector : sector.toNat < 268435456)
    (hcap : sector.toNat < (s.cable.drive (slave master)).capacity) :
    (addressed master sector s).cable.Addresses := by
  refine ⟨rfl, (deviceOf_bits master hsector).2.1, ?_⟩
  rw [lba_addressed s hsector]
  have hcurrent := current_addressed master s hsector
  rw [Pc.current] at hcurrent
  rw [hcurrent]
  exact hcap

/-- The select and the reads of the status behind it. -/
theorem select_ready (malloc : ℕ → Mem → ℕ × Mem) (base : UInt16) (s : Pc)
    (hsector : sector.toNat < 268435456)
    (hbusy : (s.cable.drive (slave master)).busy = 0)
    (htransfer : (s.cable.drive (slave master)).transfer = .none) :
    (cableBus malloc base).readStatus (newATA master base) 5 0
      ((cableBus malloc base).selectDrive (newATA master base) sector s) =
      (0x50, { s with cable := { s.cable with device := deviceOf master sector } }) := by
  rw [selectDrive_eq]
  obtain ⟨t, ht⟩ : ∃ t : Pc,
      { s with cable := { s.cable with device := deviceOf master sector } } = t := ⟨_, rfl⟩
  have hcurrent : t.current = s.cable.drive (slave master) := by
    rw [← ht]
    exact congrArg s.cable.drive (deviceOf_bits master hsector).1
  rw [ht, ← put_current t, hcurrent, readStatus_settled malloc base master t 4 0 hbusy, htransfer]
  rfl

end Registers

/-! ### The driver as a store -/

/-- What the sectors of the two drives hold, byte by byte. -/
abbrev Store := Bool → ℕ → ℕ → UInt8

/-- A drive that is not busy and holds these sectors. -/
structure DriveHolds (capacity : ℕ) (sectors : ℕ → ℕ → UInt8) (d : Drive) : Prop where
  capacity : d.capacity = capacity
  busy : d.busy = 0
  transfer : d.transfer = .none
  sectors : ∀ lba, ∀ k < 256, d.sectors lba k = word (sectors lba) k

/-- Both drives hold the sectors of the store, and interrupts are on. -/
structure Holds (capacity : Bool → ℕ) (st : Store) (s : Pc) : Prop where
  interrupts : s.interrupts = true
  drive : ∀ b, DriveHolds (capacity b) (st b) (s.cable.drive b)

section Operations

variable {capacity : Bool → ℕ} {st : Store} {base : UInt16} {master : UInt8} {sector : UInt32}
  {s : Pc}

/-- Only the drive of an operation has changed. -/
theorem Holds.update {d : Drive} {sectors : ℕ → ℕ → UInt8} {b : Bool}
    (h : Holds capacity st s) (s' : Pc) (hi : s'.interrupts = true)
    (hs : s'.cable.drive = Function.update s.cable.drive b d)
    (hd : DriveHolds (capacity b) sectors d) :
    Holds capacity (Function.update st b sectors) s' := by
  refine ⟨hi, fun b' => ?_⟩
  rw [hs]
  rcases eq_or_ne b' b with rfl | hb
  · rw [Function.update_self, Function.update_self]
    exact hd
  · rw [Function.update_of_ne hb, Function.update_of_ne hb]
    exact h.drive b'

theorem toNat_lt_of_not_lt (h : ¬ 0x0FFFFFFF < sector) : sector.toNat < 268435456 := by
  have hle := UInt32.not_lt.mp h
  rw [UInt32.le_iff_toNat_le] at hle
  exact Nat.lt_succ_of_le hle

/-- The commands on the sector that the registers name. -/
theorem transferOf_read (h : DriveHolds (capacity (slave master)) (st (slave master))
    (s.cable.drive (slave master))) (hlt : sector.toNat < 268435456)
    (hcap : sector.toNat < capacity (slave master)) :
    (addressed master sector s).cable.transferOf 0x20 =
      .toHost ((List.range 256).map (word (st (slave master) sector.toNat))) := by
  have hcurrent := current_addressed master s hlt
  rw [Pc.current] at hcurrent
  rw [Cable.transferOf, if_pos rfl, if_pos (addresses_addressed s hlt (h.capacity ▸ hcap)),
    hcurrent, lba_addressed s hlt]
  congr 1
  exact List.map_congr_left fun k hk => h.sectors _ k (List.mem_range.mp hk)

theorem transferOf_write (h : DriveHolds (capacity (slave master)) (st (slave master))
    (s.cable.drive (slave master))) (hlt : sector.toNat < 268435456)
    (hcap : sector.toNat < capacity (slave master)) :
    (addressed master sector s).cable.transferOf 0x30 = .toDrive sector.toNat [] := by
  rw [Cable.transferOf, if_neg (by decide), if_pos rfl,
    if_pos (addresses_addressed s hlt (h.capacity ▸ hcap)), lba_addressed s hlt]

/-- A command on a sector starts its transfer in the drive. -/
theorem sendCommand_start (malloc : ℕ → Mem → ℕ × Mem) (base : UInt16) {t : Transfer}
    {command : UInt8} (hlt : sector.toNat < 268435456)
    (hbusy : (s.cable.drive (slave master)).busy = 0)
    (ht : (addressed master sector s).cable.transferOf command = t) :
    (cableBus malloc base).sendCommand (newATA master base) sector command
      { s with cable := { s.cable with device := deviceOf master sector } } =
      (addressed master sector s).put ((s.cable.drive (slave master)).start t) := by
  have hcurrent := current_addressed master s hlt
  rw [sendCommand_eq]
  obtain ⟨a, ha⟩ : ∃ a, addressed master sector s = a := ⟨_, rfl⟩
  rw [ha] at ht hcurrent ⊢
  have hself : a.put (s.cable.drive (slave master)) = a := by rw [← hcurrent, put_current]
  have hcommand := command_put malloc base master a (s.cable.drive (slave master)) command
  have hcable : a.cable.put (s.cable.drive (slave master)) = a.cable :=
    congrArg Pc.cable hself
  rw [hself, hcable, ht, hbusy, if_neg (Nat.lt_irrefl 0)] at hcommand
  exact hcommand

/-- After a command that sends words, the driver waits for the drive, which then gives them. -/
theorem receive_transfer (malloc : ℕ → Mem → ℕ × Mem) (base : UInt16) (master : UInt8) (t : Pc)
    {d : Drive} {ws : List UInt16}
    (ht : d.transfer = .toHost ws) (hlength : ws.length = 256) :
    ∃ x k, x ≠ 0 ∧
      (cableBus malloc base).readPort (newATA master base).commandPort (t.put d) =
        (x, t.put { d with busy := k }) ∧
      (∀ fuel ≥ k + 2, (cableBus malloc base).pollWhile (newATA master base) working fuel x
        (t.put { d with busy := k }) = some (0x58, t.put d.settled)) ∧
      d.settled.readWords 256 = (ws, { d with busy := 0, transfer := .none }) := by
  obtain ⟨k, -, hstatus, hseen⟩ := d.seen_status
  rw [hstatus] at hseen
  have hready : ({ d with busy := k } : Drive).transfer.status = 0x58 := by
    simp only [ht]
    rfl
  have hdone : working ({ d with busy := k } : Drive).transfer.status = false := by
    rw [hready]
    decide
  have hpoll := fun fuel => pollWhile_seen malloc base master t fuel hseen (by decide) hdone
  have hwords := Drive.readWords_words (d := d.settled) ws rfl ht
    (by intro hnil; simp [hnil] at hlength)
  rw [hlength] at hwords
  refine ⟨d.status.1, k, ?_, by rw [readPort_put, hstatus], fun fuel hfuel => ?_, hwords⟩
  · rcases hseen with hx | ⟨hx, -⟩
    · rw [hx]
      decide
    · rw [hx, hready]
      decide
  · rw [hpoll fuel hfuel, hready]
    rfl

/-- `ATA_read28` stores the bytes of the sector where `malloc` has made room for them, and changes
no sector. -/
theorem holds_ataRead28 (h : Holds capacity st s) (malloc : ℕ → Mem → ℕ × Mem) (base : UInt16)
    (hsector : ¬ 0x0FFFFFFF < sector) (hcap : sector.toNat < capacity (slave master)) :
    ∃ n s', Holds capacity st s' ∧
      s'.mem = (malloc 512 s.mem).2.load (malloc 512 s.mem).1
        ((List.range 512).map (st (slave master) sector.toNat)) ∧
      ∀ fuel ≥ n, (cableBus malloc base).ataRead28 (newATA master base) fuel sector s =
        some ((malloc 512 s.mem).1, s') := by
  have hlt := toNat_lt_of_not_lt hsector
  have hdrive := h.drive (slave master)
  have hready := select_ready malloc base s hlt hdrive.busy hdrive.transfer
  have hcommand := sendCommand_start malloc base hlt hdrive.busy (transferOf_read hdrive hlt hcap)
  obtain ⟨ws, hws⟩ : ∃ ws, (List.range 256).map (word (st (slave master) sector.toNat)) = ws :=
    ⟨_, rfl⟩
  have hlength : ws.length = 256 := by rw [← hws]; simp
  rw [hws] at hcommand
  obtain ⟨d, hd⟩ : ∃ d, (s.cable.drive (slave master)).start (.toHost ws) = d := ⟨_, rfl⟩
  have htransfer : d.transfer = .toHost ws := by rw [← hd]; rfl
  rw [hd] at hcommand
  obtain ⟨t, ht⟩ : ∃ t, addressed master sector s = t := ⟨_, rfl⟩
  rw [ht] at hcommand
  obtain ⟨x, k, -, hread, hpoll, hwords⟩ := receive_transfer malloc base master t htransfer hlength
  have hbytes : bytesOf ws = (List.range 512).map (st (slave master) sector.toNat) := by
    rw [← hws, bytesOf_word]
  obtain ⟨r, hr⟩ : ∃ r, malloc 512 s.mem = r := ⟨_, rfl⟩
  have hmalloc : (cableBus malloc base).malloc 512 (t.put d.settled) =
      (r.1, ({ t with mem := r.2 } : Pc).put d.settled) := by
    rw [← hr, ← ht]
    rfl
  refine ⟨k + 2, { t.put { d with busy := 0, transfer := .none } with
    mem := r.2.load r.1 (bytesOf ws) }, ?_, by rw [hbytes, hr], fun fuel hfuel => ?_⟩
  · have hdrive' : DriveHolds (capacity (slave master)) (st (slave master))
        { d with busy := 0, transfer := .none } := by
      rw [← hd]
      exact ⟨hdrive.capacity, rfl, rfl, hdrive.sectors⟩
    have hupdate := h.update ({ t.put { d with busy := 0, transfer := .none } with
        mem := r.2.load r.1 (bytesOf ws) })
      (by rw [← ht]; exact h.interrupts)
      (by rw [← ht]; exact congrArg (Function.update s.cable.drive · _) (selected_addressed s hlt))
      hdrive'
    rwa [Function.update_eq_self] at hupdate
  · rw [Bus.ataRead28, if_neg hsector]
    simp only [hready, hcommand, hread]
    rw [if_neg (by decide), hpoll fuel hfuel]
    simp only [Option.bind_eq_bind, Option.bind_some, hmalloc,
      receiveData_put (s := { t with mem := r.2 }) (d := d.settled) r.1 (le_refl 256) 0, hwords, hr,
      Nat.add_zero]
    rfl

/-- `ATA_write28` changes the bytes of the sector and nothing else. -/
theorem holds_ataWrite28 (h : Holds capacity st s) (malloc : ℕ → Mem → ℕ × Mem) (base : UInt16)
    (hsector : ¬ 0x0FFFFFFF < sector) (hcap : sector.toNat < capacity (slave master))
    (contents : ℕ → UInt8) :
    ∃ n s', Holds capacity (Function.update st (slave master)
        (Function.update (st (slave master)) sector.toNat contents)) s' ∧ s'.mem = s.mem ∧
      ∀ fuel ≥ n, (cableBus malloc base).ataWrite28 (newATA master base) fuel sector contents s =
        some (0, s') := by
  have hlt := toNat_lt_of_not_lt hsector
  obtain ⟨s₁, hs₁⟩ : ∃ s₁, (cableBus malloc base).cli s = s₁ := ⟨_, rfl⟩
  have hcable : s₁.cable = s.cable := by rw [← hs₁]; rfl
  have hdrive : DriveHolds (capacity (slave master)) (st (slave master))
      (s₁.cable.drive (slave master)) := by
    rw [hcable]
    exact h.drive (slave master)
  have hready := select_ready malloc base s₁ hlt hdrive.busy hdrive.transfer
  have hcommand := sendCommand_start malloc base hlt hdrive.busy (transferOf_write hdrive hlt hcap)
  obtain ⟨d, hd⟩ : ∃ d, (s₁.cable.drive (slave master)).start (.toDrive sector.toNat []) = d :=
    ⟨_, rfl⟩
  have htransfer : d.transfer = .toDrive sector.toNat [] := by rw [← hd]; rfl
  rw [hd] at hcommand
  obtain ⟨t, ht⟩ : ∃ t, addressed master sector s₁ = t := ⟨_, rfl⟩
  rw [ht] at hcommand
  -- the drive gets ready for the data
  have hdone : notReady d.transfer.status = false := by
    simp only [htransfer]
    exact (by decide : notReady 0x58 = false)
  have hpoll := fun fuel => pollWhile_busy malloc base master t fuel (x := 0x50) (by decide)
    (by decide) hdone
  obtain ⟨ws, hws⟩ : ∃ ws, (List.range 256).map (word contents) = ws := ⟨_, rfl⟩
  have hlength : ws.length = 256 := by rw [← hws]; simp
  have hstored := Drive.writeWords_sector (d := d.settled) ws rfl htransfer (by simp [hlength])
    (by intro hnil; simp [hnil] at hlength)
  rw [List.nil_append] at hstored
  obtain ⟨d₁, hd₁⟩ : ∃ d₁, d.settled.writeWords ws = d₁ := ⟨_, rfl⟩
  rw [hd₁] at hstored
  -- the flush, which the drive may be too busy to take
  have hflush := command_put malloc base master t d₁ 0xE7
  obtain ⟨d₂, hd₂⟩ : ∃ d₂, (if 0 < d₁.busy then d₁
      else d₁.start ((t.cable.put d₁).transferOf 0xE7)) = d₂ := ⟨_, rfl⟩
  rw [hd₂] at hflush
  obtain ⟨hnone, hcapacity, hsectors⟩ : d₂.transfer = .none ∧ d₂.capacity = d.capacity ∧
      d₂.sectors = Function.update d.sectors sector.toNat fun k => ws.getD k 0 := by
    rw [← hd₂]
    split
    · rw [hstored]
      exact ⟨rfl, rfl, rfl⟩
    · rw [hstored]
      exact ⟨rfl, rfl, rfl⟩
  obtain ⟨x, k, -, hseen, hread⟩ := readStatus_seen malloc base master t 4 d.transfer.status d₂
  have hx : x ≠ 0 := by
    rcases hseen with rfl | ⟨rfl, -⟩
    · decide
    · simp only [hnone]
      exact (by decide : (0x50 : UInt8) ≠ 0)
  have hdone₂ : working ({ d₂ with busy := k } : Drive).transfer.status = false := by
    simp only [hnone]
    exact (by decide : working 0x50 = false)
  have hpoll₂ := fun fuel => pollWhile_seen malloc base master t fuel hseen (by decide) hdone₂
  have herr : ¬ d.transfer.status &&& lor 0x01 0x20 ≠ 0 := by
    simp only [htransfer]
    exact (by decide : ¬ (0x58 : UInt8) &&& lor 0x01 0x20 ≠ 0)
  refine ⟨max (d.busy + 2) (k + 2),
    (cableBus malloc base).sti (t.put ({ d₂ with busy := k } : Drive).settled), ?_,
    by rw [← ht, ← hs₁]; rfl, fun fuel hfuel => ?_⟩
  · have hholds : DriveHolds (capacity (slave master))
        (Function.update (st (slave master)) sector.toNat contents)
        ({ d₂ with busy := k } : Drive).settled := by
      refine ⟨hcapacity.trans (by rw [← hd]; exact hdrive.capacity), rfl, hnone, fun lba i hi => ?_⟩
      simp only [Drive.settled, hsectors]
      rcases eq_or_ne lba sector.toNat with rfl | hne
      · rw [Function.update_self, Function.update_self, ← hws]
        simp [hi]
      · rw [Function.update_of_ne hne, Function.update_of_ne hne, ← hd]
        exact hdrive.sectors lba i hi
    refine h.update _ rfl ?_ hholds
    rw [← ht, ← hcable]
    exact congrArg (Function.update s₁.cable.drive · _) (selected_addressed s₁ hlt)
  · rw [Bus.ataWrite28, if_neg hsector]
    simp only [hs₁, hready, hcommand]
    rw [if_neg (by decide), hpoll fuel (le_of_max_le_left hfuel)]
    simp only [Option.bind_eq_bind, Option.bind_some, Bus.transfer, herr, if_false, sendData_put,
      hws, hd₁, hflush, hread, hx, hpoll₂ fuel (le_of_max_le_right hfuel)]

/-- The registers in front of IDENTIFY DEVICE. -/
def identified (master : UInt8) (s : Pc) : Pc :=
  { s with
    cable := { s.cable with
      device := if master ≠ 0 then 0xA0 else 0xB0
      count := 0
      low := 0
      mid := 0
      hi := 0 } }

theorem selected_identified (s : Pc) : (identified master s).cable.selected = slave master := by
  rw [Cable.selected, identified, slave]
  rcases eq_or_ne master 0 with h | h
  · simp only [h, ne_eq, not_true_eq_false, if_false, decide_true]
    decide
  · simp only [h, ne_eq, not_false_eq_true, if_true, decide_false]
    decide

/-- `ATA_identify` finds the drive and changes nothing. -/
theorem holds_ataIdentify (h : Holds capacity st s) (malloc : ℕ → Mem → ℕ × Mem) (base : UInt16)
    (master : UInt8) :
    ∃ n s', Holds capacity st s' ∧ s'.mem = s.mem ∧ ∀ fuel ≥ n,
      (cableBus malloc base).ataIdentify (newATA master base) fuel s = some (0, s') := by
  have hdevice : (newATA master base).devicePort - base = 6 := port_sub base 0x6
  have hcontrol : (newATA master base).controlPort - base = 0x206 := port_sub base 0x206
  have hcount : (newATA master base).sectorCountPort - base = 2 := port_sub base 0x2
  have hlow : (newATA master base).lbaLowPort - base = 3 := port_sub base 0x3
  have hmid : (newATA master base).lbaMidPort - base = 4 := port_sub base 0x4
  have hhi : (newATA master base).lbaHiPort - base = 5 := port_sub base 0x5
  -- the first drive answers
  obtain ⟨s₀, hs₀⟩ : ∃ s₀ : Pc, { s with cable := { s.cable with device := 0xA0 } } = s₀ := ⟨_, rfl⟩
  have hprobe : ∀ v, (cableBus malloc base).writePort (newATA master base).devicePort 0xA0
      ((cableBus malloc base).writePort (newATA master base).controlPort 0
        ((cableBus malloc base).writePort (newATA master base).devicePort v s)) = s₀ := by
    intro v
    rw [← hs₀]
    simp only [cableBus, hdevice, hcontrol]
    rfl
  have hfirst : s₀.current = s.cable.drive false := by
    have hbit : ¬ (0xA0 : UInt8) &&& 0x10 ≠ 0 := by decide
    have hselected : s₀.cable.selected = false := by
      rw [← hs₀]
      exact decide_eq_false hbit
    rw [Pc.current, hselected, ← hs₀]
  have hanswer :
      (cableBus malloc base).readPort (newATA master base).commandPort s₀ = (0x50, s₀) := by
    rw [← put_current s₀, hfirst, readPort_put, Drive.status_of_settled (h.drive false).busy,
      (h.drive false).transfer]
    rfl
  -- the command
  have hdrive := h.drive (slave master)
  obtain ⟨t, ht⟩ : ∃ t, identified master s = t := ⟨_, rfl⟩
  have hregs : (cableBus malloc base).writePort (newATA master base).lbaHiPort 0
      ((cableBus malloc base).writePort (newATA master base).lbaMidPort 0
        ((cableBus malloc base).writePort (newATA master base).lbaLowPort 0
          ((cableBus malloc base).writePort (newATA master base).sectorCountPort 0
            ((cableBus malloc base).writePort (newATA master base).devicePort
              (if (newATA master base).master ≠ 0 then 0xA0 else 0xB0) s₀)))) = t := by
    rw [← ht, ← hs₀]
    simp only [cableBus, hdevice, hcount, hlow, hmid, hhi]
    rfl
  have hcurrent : t.current = s.cable.drive (slave master) := by
    rw [Pc.current, ← ht, selected_identified]
    rfl
  have hself : t.put (s.cable.drive (slave master)) = t := by rw [← hcurrent, put_current]
  obtain ⟨ws, hws⟩ : ∃ ws, (List.range 256).map (s.cable.drive (slave master)).identity = ws :=
    ⟨_, rfl⟩
  have hlength : ws.length = 256 := by rw [← hws]; simp
  have htransferOf : t.cable.transferOf 0xEC = .toHost ws := by
    rw [Cable.transferOf, if_neg (by decide), if_neg (by decide), if_neg (by decide),
      if_pos rfl, ← hws, ← hcurrent]
    rfl
  have hcommand := command_put malloc base master t (s.cable.drive (slave master)) 0xEC
  obtain ⟨d, hd⟩ : ∃ d, (s.cable.drive (slave master)).start (.toHost ws) = d := ⟨_, rfl⟩
  have hcable : t.cable.put (s.cable.drive (slave master)) = t.cable := congrArg Pc.cable hself
  rw [hself, hcable, htransferOf, hdrive.busy, if_neg (Nat.lt_irrefl 0), hd] at hcommand
  have htransfer : d.transfer = .toHost ws := by rw [← hd]; rfl
  obtain ⟨x, k, hx, hread, hpoll, hwords⟩ := receive_transfer malloc base master t htransfer hlength
  refine ⟨k + 2, t.put { d with busy := 0, transfer := .none }, ?_, by rw [← ht]; rfl,
    fun fuel hfuel => ?_⟩
  · have hdrive' : DriveHolds (capacity (slave master)) (st (slave master))
        { d with busy := 0, transfer := .none } := by
      rw [← hd]
      exact ⟨hdrive.capacity, rfl, rfl, hdrive.sectors⟩
    have hupdate := h.update (t.put { d with busy := 0, transfer := .none })
      (by rw [← ht]; exact h.interrupts)
      (by rw [← ht]; exact congrArg (Function.update s.cable.drive · _) (selected_identified s))
      hdrive'
    rwa [Function.update_eq_self] at hupdate
  · rw [Bus.ataIdentify]
    simp only [hprobe, hanswer, hregs, hcommand, hread, hx, if_false]
    rw [if_neg (by decide), hpoll fuel hfuel]
    simp only [Option.bind_eq_bind, Option.bind_some, dropData_put, hwords]
    rw [if_neg (by decide)]

/-- A call of the driver, for the drive that `newATA` gives for `master`; `buf` is where the
contents of a sector are. -/
inductive Op where
  | identify (master : UInt8)
  | read (master : UInt8) (sector : UInt32)
  | write (master : UInt8) (sector : UInt32) (buf : ℕ)

/-- What a call returns: a code, or a pointer. -/
inductive Answer where
  | code (c : UInt8)
  | pointer (p : ℕ)

/-- A call. -/
def Op.perform (malloc : ℕ → Mem → ℕ × Mem) (base : UInt16) (fuel : ℕ) :
    Op → Pc → Option (Answer × Pc)
  | identify m, s =>
      ((cableBus malloc base).ataIdentify (newATA m base) fuel s).map fun r => (.code r.1, r.2)
  | read m sector, s =>
      ((cableBus malloc base).ataRead28 (newATA m base) fuel sector s).map fun r =>
        (.pointer r.1, r.2)
  | write m sector buf, s =>
      ((cableBus malloc base).ataWrite28 (newATA m base) fuel sector
        (fun i => s.mem (w32 (buf + i))) s).map fun r => (.code r.1, r.2)

/-- The same call as an operation on the store and the memory. -/
def Op.run (malloc : ℕ → Mem → ℕ × Mem) : Op → Store × Mem → Answer × Store × Mem
  | identify _, (st, m) => (.code 0, st, m)
  | read d sector, (st, m) =>
      if 0x0FFFFFFF < sector then (.pointer 0, st, m)
      else (.pointer (malloc 512 m).1, st, (malloc 512 m).2.load (malloc 512 m).1
        ((List.range 512).map (st (slave d) sector.toNat)))
  | write d sector buf, (st, m) =>
      if 0x0FFFFFFF < sector then (.code 1, st, m)
      else (.code 0, Function.update st (slave d)
        (Function.update (st (slave d)) sector.toNat fun i => m (w32 (buf + i))), m)

/-- The sector of a call is one that the drive has, or one that no drive has. -/
def Op.Fits (capacity : Bool → ℕ) : Op → Prop
  | identify _ => True
  | read m sector => 0x0FFFFFFF < sector ∨ sector.toNat < capacity (slave m)
  | write m sector _ => 0x0FFFFFFF < sector ∨ sector.toNat < capacity (slave m)

/-- A call does on the drives and the memory what it does on the store. -/
theorem holds_perform (h : Holds capacity st s) (malloc : ℕ → Mem → ℕ × Mem) (base : UInt16) {o : Op}
    (ho : o.Fits capacity) :
    ∃ n s', Holds capacity (o.run malloc (st, s.mem)).2.1 s' ∧
      s'.mem = (o.run malloc (st, s.mem)).2.2 ∧
      ∀ fuel ≥ n, o.perform malloc base fuel s = some ((o.run malloc (st, s.mem)).1, s') := by
  cases o with
  | identify m =>
      obtain ⟨n, s', hs, hmem, hrun⟩ := holds_ataIdentify h malloc base m
      exact ⟨n, s', hs, hmem, fun fuel hfuel => by rw [Op.perform, hrun fuel hfuel]; rfl⟩
  | read m sector =>
      rcases em (0x0FFFFFFF < sector) with hsector | hsector
      · rw [Op.run, if_pos hsector]
        refine ⟨0, s, h, rfl, fun fuel _ => ?_⟩
        rw [Op.perform, Bus.ataRead28, if_pos hsector]
        rfl
      · obtain ⟨n, s', hs, hmem, hrun⟩ := holds_ataRead28 h malloc base hsector
          (ho.resolve_left hsector)
        rw [Op.run, if_neg hsector]
        refine ⟨n, s', hs, hmem, fun fuel hfuel => ?_⟩
        rw [Op.perform, hrun fuel hfuel]
        rfl
  | write m sector buf =>
      rcases em (0x0FFFFFFF < sector) with hsector | hsector
      · rw [Op.run, if_pos hsector]
        refine ⟨0, s, h, rfl, fun fuel _ => ?_⟩
        rw [Op.perform, Bus.ataWrite28, if_pos hsector]
        rfl
      · obtain ⟨n, s', hs, hmem, hrun⟩ := holds_ataWrite28 h malloc base hsector
          (ho.resolve_left hsector) fun i => s.mem (w32 (buf + i))
        rw [Op.run, if_neg hsector]
        refine ⟨n, s', hs, hmem, fun fuel hfuel => ?_⟩
        rw [Op.perform, hrun fuel hfuel]
        rfl

/-- Calls, one after the other. -/
def performs (malloc : ℕ → Mem → ℕ × Mem) (base : UInt16) (fuel : ℕ) :
    List Op → Pc → Option (List Answer × Pc)
  | [], s => some ([], s)
  | o :: ops, s => do
      let r ← o.perform malloc base fuel s
      let q ← performs malloc base fuel ops r.2
      some (r.1 :: q.1, q.2)

def runs (malloc : ℕ → Mem → ℕ × Mem) : List Op → Store × Mem → List Answer × Store × Mem
  | [], st => ([], st)
  | o :: ops, st =>
      let r := o.run malloc st
      let q := runs malloc ops r.2
      (r.1 :: q.1, q.2)

/-- Any sequence of calls, on any of the two drives and for sectors that the drive has or that cannot
be addressed, behaves as on a store of sectors, however long the drives take for each command and
whatever `malloc` gives: a read asks for 512 bytes, stores there what the last write of the sector
has written (also at 0, when `malloc` gives 0) and returns the pointer; a sector that cannot be
addressed is refused; and interrupts are on again after each call. -/
theorem performs_run (malloc : ℕ → Mem → ℕ × Mem) (base : UInt16) {ops : List Op}
    (h : Holds capacity st s) (hops : ∀ o ∈ ops, o.Fits capacity) :
    ∃ n s', Holds capacity (runs malloc ops (st, s.mem)).2.1 s' ∧
      s'.mem = (runs malloc ops (st, s.mem)).2.2 ∧
      ∀ fuel ≥ n, performs malloc base fuel ops s = some ((runs malloc ops (st, s.mem)).1, s') := by
  induction ops generalizing st s with
  | nil => exact ⟨0, s, h, rfl, fun _ _ => rfl⟩
  | cons o ops ih =>
      obtain ⟨n, s₁, h₁, hmem, hrun⟩ := holds_perform h malloc base (hops o List.mem_cons_self)
      obtain ⟨n', s', hs, hmem', hruns⟩ := ih h₁ fun o ho => hops o (List.mem_cons_of_mem _ ho)
      rw [hmem] at hs hmem' hruns
      refine ⟨max n n', s', hs, hmem', fun fuel hfuel => ?_⟩
      rw [performs, hrun fuel (le_of_max_le_left hfuel)]
      simp only [Option.bind_eq_bind, Option.bind_some, hruns fuel (le_of_max_le_right hfuel)]
      rfl

/-- A read behind a write of the same sector gives the bytes that have been written. -/
theorem read_write (malloc : ℕ → Mem → ℕ × Mem) (st : Store) (m : Mem) (master : UInt8)
    {sector : UInt32} (buf : ℕ) (hsector : ¬ 0x0FFFFFFF < sector)
    (hfits : (malloc 512 m).1 + 512 ≤ 4294967296) :
    (runs malloc [.write master sector buf, .read master sector] (st, m)).2.2.bytes
      (malloc 512 m).1 512 = m.bytes buf 512 := by
  have hlen : (m.bytes buf 512).length = 512 := Mem.length_bytes m buf 512
  have hload := Mem.bytes_load (malloc 512 m).2 (hlen.symm ▸ hfits)
  rw [hlen] at hload
  simp only [runs, Op.run, hsector, if_false, Function.update_self]
  exact hload

/-- A drive of a hundred empty sectors that takes three reads of its status for everything. -/
def emptyDrive : Drive where
  capacity := 100
  identity := fun _ => 0
  sectors := fun _ _ => 0
  busy := 0
  transfer := .none
  delays := fun _ => 3
  refused := fun _ => .failed 0x51
  noise := 0

/-- Two such drives. -/
def emptyPc : Pc := ⟨⟨0, 0, 0, 0, 0, fun _ => emptyDrive⟩, true, fun a => UInt8.ofNat a⟩

theorem holds_emptyPc : Holds (fun _ => 100) (fun _ _ _ => 0) emptyPc :=
  ⟨rfl, fun _ => ⟨rfl, rfl, rfl, fun _ _ _ => by simp [emptyPc, emptyDrive, word]⟩⟩

/-- Blocks one behind the other; the address of the next one is at `0x500`. -/
def bumpMalloc (size : ℕ) (m : Mem) : ℕ × Mem :=
  (m.read32 0x500, m.write32 0x500 (w32 (m.read32 0x500 + size)))

/-- A sector is written and read back, the buffer is written to the other drive and read from there,
and a sector is asked for that cannot be addressed. -/
def copySector : List Op :=
  [.identify 0, .write 1 7 0x1000, .read 1 7, .write 0 9 0x03020100, .read 0 9, .read 1 0x10000000]

theorem performs_run_copySector :
    ∃ n s', Holds (fun _ => 100) (runs bumpMalloc copySector (fun _ _ _ => 0, emptyPc.mem)).2.1 s' ∧
      s'.mem = (runs bumpMalloc copySector (fun _ _ _ => 0, emptyPc.mem)).2.2 ∧
      ∀ fuel ≥ n, performs bumpMalloc 0x1F0 fuel copySector emptyPc =
        some ((runs bumpMalloc copySector (fun _ _ _ => 0, emptyPc.mem)).1, s') := by
  refine performs_run bumpMalloc 0x1F0 holds_emptyPc ?_
  simp only [copySector, List.forall_mem_cons, Op.Fits]
  exact ⟨trivial, .inr (by decide), .inr (by decide), .inr (by decide), .inr (by decide),
    .inl (by decide), by simp⟩

end Operations

end Owmice.Ata
