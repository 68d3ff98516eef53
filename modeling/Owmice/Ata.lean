import Mathlib.Tactic

/-! # Writing a sector to the disk (`io/ATA.h`)

`ATA_write28` turns interrupts off, selects the drive, waits for it, sends the 512 bytes and
flushes them.  The device answers every status read with a value of its own choice, so that the
model takes the whole stream of answers as a parameter; the loops that wait for an answer may not
end, and have fuel.

* `pollWhile_run`, `pollWhile_ends`: a polling loop ends at the first answer that it waits for;
* `ataWrite28_cases`: the five ways in which `ATA_write28` returns;
* `ataWrite28_sound_iff`: the answers after which interrupts are on again and success is success. -/

namespace Owmice.Ata

/-- `struct ATA_INTERFACE`. -/
structure Interface where
  master : UInt8
  dataPort : UInt16
  errorPort : UInt16
  sectorCountPort : UInt16
  lbaLowPort : UInt16
  lbaMidPort : UInt16
  lbaHiPort : UInt16
  devicePort : UInt16
  commandPort : UInt16
  controlPort : UInt16

/-- `newATA`. -/
def newATA (master : UInt8) (portBase : UInt16) : Interface where
  master := master
  dataPort := portBase
  errorPort := portBase + 0x1
  sectorCountPort := portBase + 0x2
  lbaLowPort := portBase + 0x3
  lbaMidPort := portBase + 0x4
  lbaHiPort := portBase + 0x5
  devicePort := portBase + 0x6
  commandPort := portBase + 0x7
  controlPort := portBase + 0x206

/-- An access to a port. -/
inductive Access where
  | readPort (port : UInt16)
  | writePort (port : UInt16) (data : UInt8)
  | portWrite16 (port value : UInt16)

/-- The interrupt flag, how many status reads the device has answered, the accesses made so far and
the status with which each polling loop has ended. -/
structure Machine where
  interrupts : Bool
  reads : ℕ
  io : List Access
  polls : List UInt8

namespace Machine

/-- `cli`. -/
def cli (m : Machine) : Machine := { m with interrupts := false }

/-- `sti`. -/
def sti (m : Machine) : Machine := { m with interrupts := true }

/-- `write_port`. -/
def writePort (m : Machine) (port : UInt16) (data : UInt8) : Machine :=
  { m with io := m.io ++ [.writePort port data] }

/-- `port_write16`. -/
def portWrite16 (m : Machine) (port value : UInt16) : Machine :=
  { m with io := m.io ++ [.portWrite16 port value] }

/-- A polling loop has ended with this status. -/
def polled (m : Machine) (status : UInt8) : Machine := { m with polls := m.polls ++ [status] }

end Machine

/-- `read_port` on the command port: the answers of the device are `st`. -/
def readPort (st : ℕ → UInt8) (port : UInt16) (m : Machine) : UInt8 × Machine :=
  (st m.reads, { m with reads := m.reads + 1, io := m.io ++ [.readPort port] })

/-- `n` reads, of which the last one counts. -/
def readStatus (st : ℕ → UInt8) (iface : Interface) : ℕ → UInt8 → Machine → UInt8 × Machine
  | 0, status, m => (status, m)
  | n + 1, _, m =>
      let r := readPort st iface.commandPort m
      readStatus st iface n r.1 r.2

/-- The loop `while (busy(status)) status = read_port(..)`. -/
def pollWhile (busy : UInt8 → Bool) (st : ℕ → UInt8) (iface : Interface) :
    ℕ → UInt8 → Machine → Option (UInt8 × Machine)
  | 0, _, _ => none
  | fuel + 1, status, m =>
      if busy status then
        let r := readPort st iface.commandPort m
        pollWhile busy st iface fuel r.1 r.2
      else some (status, m.polled status)

/-- The condition of the loop that waits for BSY = 0 and DRQ = 1. -/
def notReady (status : UInt8) : Bool := status &&& 0x80 ≠ 0 || status &&& 0x08 = 0

/-- The condition of the loop that waits for the end of a command. -/
def working (status : UInt8) : Bool := status &&& 0x80 ≠ 0 && status &&& 0x01 = 0

/-- The operator `||` of the language, as a number. -/
def lor (a b : UInt8) : UInt8 := if a ≠ 0 ∨ b ≠ 0 then 1 else 0

/-- The drive select. -/
def selectDrive (iface : Interface) (sector : UInt32) (m : Machine) : Machine :=
  m.writePort iface.devicePort
    ((if iface.master ≠ 0 then (0xE0 : UInt8) else 0xF0) |||
      ((sector &&& 0x0F000000) >>> 24).toUInt8)

/-- The registers of a command on a sector, and the command. -/
def sendCommand (iface : Interface) (sector : UInt32) (command : UInt8) (m : Machine) : Machine :=
  let m := m.writePort iface.errorPort 0
  let m := m.writePort iface.sectorCountPort 1
  let m := m.writePort iface.lbaLowPort (sector &&& 0x000000FF).toUInt8
  let m := m.writePort iface.lbaMidPort ((sector &&& 0x0000FF00) >>> 8).toUInt8
  let m := m.writePort iface.lbaHiPort ((sector &&& 0x00FF0000) >>> 16).toUInt8
  m.writePort iface.commandPort command

/-- The loop that sends the data. -/
def sendData (iface : Interface) (contents : ℕ → UInt8) (m : Machine) : Machine :=
  (List.range 256).foldl (fun m k => m.portWrite16 iface.dataPort
    ((contents (2 * k)).toUInt16 ||| (contents (2 * k + 1)).toUInt16 <<< 8)) m

/-- `ATA_write28` behind its first polling loop. -/
def transfer (st : ℕ → UInt8) (fuel : ℕ) (iface : Interface) (contents : ℕ → UInt8)
    (status : UInt8) (m : Machine) : Option (UInt8 × Machine) :=
  if status &&& lor 0x01 0x20 ≠ 0 then some (2, m)
  else
    let m := sendData iface contents m
    let m := m.writePort iface.commandPort 0xE7
    let r := readStatus st iface 5 status m
    if r.1 = 0 then some (3, r.2)
    else do
      let r ← pollWhile working st iface fuel r.1 r.2
      pure (0, r.2.sti)

/-- `ATA_write28`: the result, and the machine afterwards. -/
def ataWrite28 (st : ℕ → UInt8) (fuel : ℕ) (iface : Interface) (sector : UInt32)
    (contents : ℕ → UInt8) (m : Machine) : Option (UInt8 × Machine) :=
  if 0x0FFFFFFF < sector then some (1, m)
  else
    let m := selectDrive iface sector m.cli
    let r := readStatus st iface 5 0 m
    if r.1 = 0xFF then some (1, r.2)
    else do
      let m := sendCommand iface sector 0x30 r.2
      let r ← pollWhile notReady st iface fuel r.1 m
      transfer st fuel iface contents r.1 r.2

/-! ### Accesses that leave the flag alone -/

section Fields

variable (st : ℕ → UInt8) (iface : Interface) (m : Machine)

@[simp] theorem reads_selectDrive (sector : UInt32) :
    (selectDrive iface sector m).reads = m.reads :=
  rfl

@[simp] theorem interrupts_selectDrive (sector : UInt32) :
    (selectDrive iface sector m).interrupts = m.interrupts := rfl

@[simp] theorem polls_selectDrive (sector : UInt32) :
    (selectDrive iface sector m).polls = m.polls :=
  rfl

@[simp] theorem reads_sendCommand (sector : UInt32) (command : UInt8) :
    (sendCommand iface sector command m).reads = m.reads := rfl

@[simp] theorem interrupts_sendCommand (sector : UInt32) (command : UInt8) :
    (sendCommand iface sector command m).interrupts = m.interrupts := rfl

@[simp] theorem polls_sendCommand (sector : UInt32) (command : UInt8) :
    (sendCommand iface sector command m).polls = m.polls := rfl

/-- Nothing but the log of the accesses changes while the data are sent. -/
theorem sendData_eq (contents : ℕ → UInt8) :
    ∃ io, sendData iface contents m = { m with io := io } := by
  rw [sendData]
  generalize List.range 256 = l
  induction l generalizing m with
  | nil => exact ⟨m.io, rfl⟩
  | cons k l ih =>
      obtain ⟨io, hio⟩ := ih (m.portWrite16 iface.dataPort
        ((contents (2 * k)).toUInt16 ||| (contents (2 * k + 1)).toUInt16 <<< 8))
      exact ⟨io, hio⟩

/-- After `n + 1` reads the status is the last answer. -/
theorem readStatus_succ (n : ℕ) (status : UInt8) (m : Machine) :
    ∃ io, readStatus st iface (n + 1) status m =
      (st (m.reads + n), { m with reads := m.reads + n + 1, io := io }) := by
  induction n generalizing status m with
  | zero => exact ⟨_, rfl⟩
  | succ n ih =>
      obtain ⟨io, hio⟩ := ih (readPort st iface.commandPort m).1
        (readPort st iface.commandPort m).2
      refine ⟨io, ?_⟩
      rw [readStatus, hio]
      simp only [readPort, Nat.add_assoc, Nat.add_comm 1]

end Fields

/-! ### Polling -/

/-- The polling loop that starts with answer `k` ends with answer `i`. -/
structure EndsAt (busy : UInt8 → Bool) (st : ℕ → UInt8) (k i : ℕ) : Prop where
  le : k ≤ i
  ends : busy (st i) = false
  before : ∀ l, k ≤ l → l < i → busy (st l)

section Polling

variable {busy : UInt8 → Bool} {st : ℕ → UInt8}

/-- A polling loop with enough fuel ends where it should. -/
theorem pollWhile_run (iface : Interface) (fuel : ℕ) {k i : ℕ} {m : Machine}
    (h : EndsAt busy st k i) (hm : m.reads = k + 1) (hfuel : i < k + fuel) :
    ∃ io, pollWhile busy st iface fuel (st k) m =
      some (st i, ({ m with reads := i + 1, io := io } : Machine).polled (st i)) := by
  induction fuel generalizing k m with
  | zero => exact absurd (h.le.trans_lt hfuel) (Nat.lt_irrefl k)
  | succ fuel ih =>
      by_cases hk : k = i
      · refine ⟨m.io, ?_⟩
        rw [hk, pollWhile, h.ends, ← hk, ← hm]
        rfl
      · have hle := h.le
        have hbusy : busy (st k) = true := h.before k le_rfl (by omega)
        obtain ⟨io, hrun⟩ := ih (k := k + 1) (m := (readPort st iface.commandPort m).2)
          ⟨by omega, h.ends, fun l hl => h.before l (by omega)⟩ (by simp only [readPort, hm])
          (show i < k + 1 + fuel by omega)
        refine ⟨io, ?_⟩
        rw [pollWhile, if_pos hbusy]
        simp only [readPort, hm] at hrun ⊢
        exact hrun

/-- A polling loop that returns has ended there. -/
theorem pollWhile_ends {iface : Interface} {fuel k : ℕ} {m : Machine} {r : UInt8 × Machine}
    (h : pollWhile busy st iface fuel (st k) m = some r) (hm : m.reads = k + 1) :
    ∃ i, EndsAt busy st k i ∧ i < k + fuel := by
  induction fuel generalizing k m with
  | zero => cases h
  | succ fuel ih =>
      rw [pollWhile] at h
      split at h
      case isTrue hbusy =>
        simp only [readPort, hm] at h
        obtain ⟨i, hi, hfuel⟩ := ih h rfl
        have hle := hi.le
        refine ⟨i, ⟨by omega, hi.ends, fun l hl hli => ?_⟩, by omega⟩
        rcases Nat.eq_or_lt_of_le hl with rfl | hl
        · exact hbusy
        · exact hi.before l hl hli
      case isFalse hbusy =>
        exact ⟨k, ⟨le_rfl, eq_false_of_ne_true hbusy, fun l hl hlk => absurd hlk (by omega)⟩,
          by omega⟩

end Polling

/-! ### The ways in which `ATA_write28` returns -/

section Write

variable {st : ℕ → UInt8} {fuel : ℕ} {iface : Interface} {sector : UInt32} {contents : ℕ → UInt8}

/-- Interrupts are on, and the device has not been asked anything. -/
def entry : Machine := { interrupts := true, reads := 0, io := [], polls := [] }

/-- The mask of the check is an expression that has the value of its first bit. -/
theorem lor_eq : lor 0x01 0x20 = 1 := rfl

/-- Behind the first polling loop: an error, no answer to the flush, or the end. -/
theorem transfer_eq (st : ℕ → UInt8) (fuel : ℕ) (iface : Interface) (contents : ℕ → UInt8)
    (status : UInt8) {m : Machine} {i : ℕ} (hm : m.reads = i + 1) :
    ∃ io, transfer st fuel iface contents status m =
      if status &&& 1 ≠ 0 then some (2, m)
      else if st (i + 5) = 0 then some (3, { m with reads := i + 6, io := io })
      else (pollWhile working st iface fuel (st (i + 5)) { m with reads := i + 6, io := io }).map
        fun r => (0, r.2.sti) := by
  obtain ⟨io, hdata⟩ := sendData_eq iface m contents
  obtain ⟨io', hread⟩ := readStatus_succ st iface 4 status
    ((sendData iface contents m).writePort iface.commandPort 0xE7)
  refine ⟨io', ?_⟩
  simp only [Machine.writePort, hdata, hm, Nat.add_assoc, Nat.reduceAdd] at hread
  rw [transfer, lor_eq]
  simp only [Machine.writePort, hdata, hm, hread]
  split
  · rfl
  split
  · rfl
  · cases pollWhile working st iface fuel (st (i + 5)) { m with reads := i + 6, io := io' } <;> rfl

/-- In front of it: no such sector, no drive, or the loop. -/
theorem ataWrite28_eq (st : ℕ → UInt8) (fuel : ℕ) (iface : Interface) (sector : UInt32)
    (contents : ℕ → UInt8) : ∃ io io', ataWrite28 st fuel iface sector contents entry =
    if 0x0FFFFFFF < sector then some (1, entry)
    else if st 4 = 0xFF then some (1, { interrupts := false, reads := 5, io := io, polls := [] })
    else (pollWhile notReady st iface fuel (st 4)
      { interrupts := false, reads := 5, io := io', polls := [] }).bind fun r =>
        transfer st fuel iface contents r.1 r.2 := by
  obtain ⟨io, hread⟩ := readStatus_succ st iface 4 0 (selectDrive iface sector entry.cli)
  refine ⟨io, (sendCommand iface sector 0x30 { entry with io := io }).io, ?_⟩
  rw [ataWrite28]
  simp only [hread, reads_selectDrive]
  rfl

/-- The machine after the polling loop, with interrupts off. -/
theorem pollWhile_off {busy : UInt8 → Bool} {k : ℕ} {io : List Access} {polls : List UInt8}
    {r : UInt8 × Machine} (h : pollWhile busy st iface fuel (st k)
      { interrupts := false, reads := k + 1, io := io, polls := polls } = some r) :
    ∃ i io', EndsAt busy st k i ∧ r = (st i,
      { interrupts := false, reads := i + 1, io := io', polls := polls ++ [st i] }) := by
  obtain ⟨i, hi, hfuel⟩ := pollWhile_ends h rfl
  obtain ⟨io', hrun⟩ := pollWhile_run iface fuel
    (m := { interrupts := false, reads := k + 1, io := io, polls := polls }) hi rfl hfuel
  rw [h] at hrun
  exact ⟨i, io', hi, Option.some.inj hrun⟩

/-- The five ways in which `ATA_write28` returns. -/
theorem ataWrite28_cases {r : UInt8} {m' : Machine}
    (h : ataWrite28 st fuel iface sector contents entry = some (r, m')) :
    (0x0FFFFFFF < sector ∧ r = 1 ∧ m'.interrupts = true) ∨
    (¬ 0x0FFFFFFF < sector ∧ st 4 = 0xFF ∧ r = 1 ∧ m'.interrupts = false) ∨
    (¬ 0x0FFFFFFF < sector ∧ st 4 ≠ 0xFF ∧ ∃ i, EndsAt notReady st 4 i ∧
      ((st i &&& 1 ≠ 0 ∧ r = 2 ∧ m'.interrupts = false) ∨
      (st i &&& 1 = 0 ∧ st (i + 5) = 0 ∧ r = 3 ∧ m'.interrupts = false) ∨
      (st i &&& 1 = 0 ∧ st (i + 5) ≠ 0 ∧ ∃ j, EndsAt working st (i + 5) j ∧
        r = 0 ∧ m'.interrupts = true ∧ m'.polls = [st i, st j]))) := by
  obtain ⟨io, io', heq⟩ := ataWrite28_eq st fuel iface sector contents
  rw [heq] at h
  split at h
  case isTrue hsector =>
    cases h
    exact .inl ⟨hsector, rfl, rfl⟩
  case isFalse hsector =>
    right
    split at h
    case isTrue hdrive =>
      cases h
      exact .inl ⟨hsector, hdrive, rfl, rfl⟩
    case isFalse hdrive =>
      obtain ⟨q, hpoll, htransfer⟩ := Option.bind_eq_some_iff.mp h
      obtain ⟨i, io₁, hi, rfl⟩ := pollWhile_off hpoll
      refine .inr ⟨hsector, hdrive, i, hi, ?_⟩
      obtain ⟨io₂, heq⟩ := transfer_eq st fuel iface contents (st i)
        (m := { interrupts := false, reads := i + 1, io := io₁, polls := [] ++ [st i] }) rfl
      rw [heq] at htransfer
      split at htransfer
      case isTrue herr =>
        cases htransfer
        exact .inl ⟨herr, rfl, rfl⟩
      case isFalse herr =>
        rw [not_not] at herr
        split at htransfer
        case isTrue hflush =>
          cases htransfer
          exact .inr (.inl ⟨herr, hflush, rfl, rfl⟩)
        case isFalse hflush =>
          obtain ⟨q, hpoll, hq⟩ := Option.map_eq_some_iff.mp htransfer
          obtain ⟨j, io₃, hj, rfl⟩ := pollWhile_off hpoll
          cases hq
          exact .inr (.inr ⟨herr, hflush, j, hj, rfl, rfl, rfl⟩)

/-- When the drive gets ready, the data are sent. -/
theorem ataWrite28_ready (fuel : ℕ) (iface : Interface) (contents : ℕ → UInt8) {i : ℕ}
    (hsector : ¬ 0x0FFFFFFF < sector) (hdrive : st 4 ≠ 0xFF) (hi : EndsAt notReady st 4 i)
    (hfuel : i < 4 + fuel) :
    ∃ io, ataWrite28 st fuel iface sector contents entry =
      if st i &&& 1 ≠ 0 then
        some (2, { interrupts := false, reads := i + 1, io := io, polls := [st i] })
      else if st (i + 5) = 0 then
        some (3, { interrupts := false, reads := i + 6, io := io, polls := [st i] })
      else (pollWhile working st iface fuel (st (i + 5))
        { interrupts := false, reads := i + 6, io := io, polls := [st i] }).map
          fun r => (0, r.2.sti) := by
  obtain ⟨io, io', heq⟩ := ataWrite28_eq st fuel iface sector contents
  obtain ⟨io₁, hpoll⟩ := pollWhile_run iface fuel
    (m := { interrupts := false, reads := 5, io := io', polls := [] }) hi rfl hfuel
  obtain ⟨io₂, htransfer⟩ := transfer_eq st fuel iface contents (st i)
    (m := { interrupts := false, reads := i + 1, io := io₁, polls := [st i] }) rfl
  rw [heq, if_neg hsector, if_neg hdrive, hpoll]
  by_cases herr : st i &&& 1 ≠ 0
  · refine ⟨io₁, ?_⟩
    rw [if_pos herr] at htransfer ⊢
    exact htransfer
  · refine ⟨io₂, ?_⟩
    rw [if_neg herr] at htransfer ⊢
    exact htransfer

/-- Whenever `ATA_write28` returns, interrupts are on, as they were on entry, and it returns 0 only
if neither ERR nor DF was set in a status with which a polling loop ended. -/
def Sound (st : ℕ → UInt8) (iface : Interface) (sector : UInt32) (contents : ℕ → UInt8) : Prop :=
  ∀ fuel r m', ataWrite28 st fuel iface sector contents entry = some (r, m') →
    m'.interrupts = true ∧ (r = 0 → ∀ status ∈ m'.polls, status &&& 0x21 = 0)

/-- The drive is there, it gets ready (if it ever does) without ERR, it answers the flush, and if
the flush ends then neither the status at which the drive got ready nor the one at the end has ERR
or DF set. -/
def GoodAnswers (st : ℕ → UInt8) : Prop :=
  st 4 ≠ 0xFF ∧ ∀ i, EndsAt notReady st 4 i → st i &&& 0x01 = 0 ∧ st (i + 5) ≠ 0 ∧
    ∀ j, EndsAt working st (i + 5) j → st i &&& 0x21 = 0 ∧ st j &&& 0x21 = 0

theorem goodAnswers_of_sound (h : Sound st iface sector contents)
    (hsector : ¬ 0x0FFFFFFF < sector) : GoodAnswers st := by
  have hdrive : st 4 ≠ 0xFF := by
    intro hnone
    obtain ⟨io, io', heq⟩ := ataWrite28_eq st 0 iface sector contents
    rw [if_neg hsector, if_pos hnone] at heq
    exact Bool.false_ne_true (h _ _ _ heq).1
  refine ⟨hdrive, fun i hi => ?_⟩
  have herr : ¬ st i &&& 0x01 ≠ 0 := by
    intro herr
    obtain ⟨io, heq⟩ := ataWrite28_ready (i + 1) iface contents hsector hdrive hi
      (by omega)
    rw [if_pos herr] at heq
    exact Bool.false_ne_true (h _ _ _ heq).1
  have hflush : st (i + 5) ≠ 0 := by
    intro hflush
    obtain ⟨io, heq⟩ := ataWrite28_ready (i + 1) iface contents hsector hdrive hi
      (by omega)
    rw [if_neg herr, if_pos hflush] at heq
    exact Bool.false_ne_true (h _ _ _ heq).1
  refine ⟨not_not.mp herr, hflush, fun j hj => ?_⟩
  have hle := hj.le
  obtain ⟨io, heq⟩ := ataWrite28_ready (j + 1) iface contents hsector hdrive hi
    (by omega)
  obtain ⟨io', hpoll⟩ := pollWhile_run iface (j + 1)
    (m := { interrupts := false, reads := i + 6, io := io, polls := [st i] }) hj rfl (by omega)
  rw [if_neg herr, if_neg hflush, hpoll] at heq
  have hpolls := (h _ _ _ heq).2 rfl
  exact ⟨hpolls _ List.mem_cons_self, hpolls _ (List.mem_cons_of_mem _ List.mem_cons_self)⟩

theorem sound_of_goodAnswers (hgood : ¬ 0x0FFFFFFF < sector → GoodAnswers st) :
    Sound st iface sector contents := by
  intro fuel r m' h
  rcases ataWrite28_cases h with ⟨-, rfl, hon⟩ | ⟨hsector, hdrive, -⟩ | ⟨hsector, -, i, hi, hrest⟩
  · exact ⟨hon, fun h0 => absurd h0 (by decide)⟩
  · exact absurd hdrive (hgood hsector).1
  · obtain ⟨herr, hflush, hends⟩ := (hgood hsector).2 i hi
    rcases hrest with ⟨herr', -⟩ | ⟨-, hflush', -⟩ | ⟨-, -, j, hj, -, hon, hpolls⟩
    · exact absurd herr herr'
    · exact absurd hflush' hflush
    · refine ⟨hon, fun _ status hstatus => ?_⟩
      rw [hpolls] at hstatus
      obtain ⟨hi0, hj0⟩ := hends j hj
      rcases List.mem_pair.mp hstatus with rfl | rfl
      · exact hi0
      · exact hj0

/-- The answers for which `ATA_write28` leaves interrupts as it found them and reports a failure as
one. -/
theorem ataWrite28_sound_iff (st : ℕ → UInt8) (iface : Interface) (sector : UInt32)
    (contents : ℕ → UInt8) :
    Sound st iface sector contents ↔ 0x0FFFFFFF < sector ∨ GoodAnswers st := by
  constructor
  · intro h
    by_cases hsector : 0x0FFFFFFF < sector
    · exact .inl hsector
    · exact .inr (goodAnswers_of_sound h hsector)
  · rintro (hsector | hgood)
    · exact sound_of_goodAnswers fun h => absurd hsector h
    · exact sound_of_goodAnswers fun _ => hgood

/-- No drive: every read gives `0xFF`, and `ATA_write28` returns with interrupts off. -/
theorem ataWrite28_no_drive : ¬ Sound (fun _ => 0xFF) (newATA 1 0x1F0) 0 (fun _ => 0) := by
  intro h
  exact (goodAnswers_of_sound h (by decide)).1 rfl

end Write

end Owmice.Ata
