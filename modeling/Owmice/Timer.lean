import Owmice.Runs

/-! # Sleeping (`io/timer.h`)

`sleep` counts down on the ticks of the timer: it looks at `sleep_amt` and halts the processor until
the next interrupt.  A tick that comes between the look and the halt is not noticed before the
interrupt after it, and one that comes when `sleep` is awake already makes no look come earlier. -/

namespace Owmice.Timer

/-- Where `sleep` is: in front of the condition, in front of `hlt`, in `hlt`, or done. -/
inductive SleepPc where
  | check
  | halt
  | waiting
  | returned
deriving DecidableEq, Repr

/-- The variables of the timer, with the place of `sleep`. -/
structure Clock where
  kticks : BitVec 64
  sleepAmt : BitVec 32
  pc : SleepPc

/-- An interrupt ends `hlt`. -/
def Clock.wake (c : Clock) : Clock :=
  match c.pc with
  | .waiting => { c with pc := .check }
  | _ => c

/-- `pit_handler_main`. -/
def Clock.pitHandlerMain (c : Clock) : Clock :=
  let c := { c with kticks := c.kticks + 1 }
  if 0 < c.sleepAmt.toInt then { c with sleepAmt := c.sleepAmt - 10 } else c

/-- The call of `sleep`. -/
def Clock.sleep (c : Clock) (msec : BitVec 32) : Clock := { c with sleepAmt := msec, pc := .check }

inductive Event where
  | main
  | tick
  | other
deriving DecidableEq, Repr

/-- A step of `sleep`, a tick of the timer, or an interrupt of another device. -/
inductive Step : Clock → Event → Clock → Prop
  | sleeps {c : Clock} (h : c.pc = .check) (hs : 0 < c.sleepAmt.toInt) :
      Step c .main { c with pc := .halt }
  | returns {c : Clock} (h : c.pc = .check) (hs : c.sleepAmt.toInt ≤ 0) :
      Step c .main { c with pc := .returned }
  | halts {c : Clock} (h : c.pc = .halt) : Step c .main { c with pc := .waiting }
  | tick (c : Clock) : Step c .tick c.pitHandlerMain.wake
  | other (c : Clock) : Step c .other c.wake

/-- The ticks of a run. -/
def ticks (tr : List (Clock × Event)) : ℕ := tr.countP fun p => p.2 = .tick

/-- The ticks that come while `sleep` is awake: in front of a look at `sleep_amt`, or between a look
and the halt. -/
def raced (tr : List (Clock × Event)) : ℕ :=
  tr.countP fun p => p.2 = .tick ∧ (p.1.pc = .check ∨ p.1.pc = .halt)

/-- The ticks for which `sleep` waits; none for a number of milliseconds that is negative as an
`int32_t`. -/
def due (msec : BitVec 32) : ℕ := (msec.toInt.toNat + 9) / 10

section Sleep

variable {msec : BitVec 32} {c c' : Clock} {tr : List (Clock × Event)}

/-- What holds after `n` ticks, of which `r` were raced. -/
structure Counting (msec : BitVec 32) (ticks₀ : BitVec 64) (n r : ℕ) (c : Clock) : Prop where
  kticks : c.kticks = ticks₀ + BitVec.ofNat 64 n
  sleepAmt : c.sleepAmt.toInt = msec.toInt - 10 * min n (due msec)
  check : c.pc = .check → n ≤ due msec + r
  halt : c.pc = .halt ∨ c.pc = .waiting → n < due msec + r
  returned : c.pc = .returned → due msec ≤ n

theorem sleepAmt_pos_iff {ticks₀ : BitVec 64} {n r : ℕ} (h : Counting msec ticks₀ n r c) :
    0 < c.sleepAmt.toInt ↔ n < due msec := by
  rw [h.sleepAmt, due]
  omega

/-- A tick counts down while there is something to count. -/
theorem sleepAmt_tick {ticks₀ : BitVec 64} {n r : ℕ} (h : Counting msec ticks₀ n r c) :
    c.pitHandlerMain.sleepAmt.toInt = msec.toInt - 10 * min (n + 1) (due msec) := by
  have hpos := sleepAmt_pos_iff h
  have hamt := h.sleepAmt
  have hlt := c.sleepAmt.toInt_lt
  rw [Clock.pitHandlerMain]
  simp only
  split
  case isTrue hs =>
    have hsub : (c.sleepAmt - 10).toInt = c.sleepAmt.toInt - 10 := by
      rw [BitVec.toInt_sub, show (10 : BitVec 32).toInt = 10 from rfl]
      exact Int.bmod_eq_of_le (by omega) (by omega)
    have hn := hpos.mp hs
    simp only [hsub, hamt]
    omega
  case isFalse hs =>
    have hn := mt hpos.mpr hs
    simp only [hamt]
    omega

@[simp] theorem kticks_wake (c : Clock) : c.wake.kticks = c.kticks := by
  rw [Clock.wake]
  split <;> rfl

@[simp] theorem sleepAmt_wake (c : Clock) : c.wake.sleepAmt = c.sleepAmt := by
  rw [Clock.wake]
  split <;> rfl

theorem pc_wake (c : Clock) :
    c.wake.pc = if c.pc = .waiting then .check else c.pc := by
  rw [Clock.wake]
  split
  case h_1 h => rw [if_pos h]
  case h_2 h => rw [if_neg h]

@[simp] theorem pc_pitHandlerMain (c : Clock) : c.pitHandlerMain.pc = c.pc := by
  rw [Clock.pitHandlerMain]
  simp only
  split <;> rfl

@[simp] theorem kticks_pitHandlerMain (c : Clock) : c.pitHandlerMain.kticks = c.kticks + 1 := by
  rw [Clock.pitHandlerMain]
  simp only
  split <;> rfl

section Steps

variable {ticks₀ : BitVec 64} {n r : ℕ}

/-- A step of `sleep`. -/
theorem Counting.main (h : Counting msec ticks₀ n r c) (hs : Step c .main c') :
    Counting msec ticks₀ n r c' := by
  cases hs with
  | sleeps hpc hpos =>
      have hn := (sleepAmt_pos_iff h).mp hpos
      exact ⟨h.kticks, h.sleepAmt, nofun, fun _ => by omega, nofun⟩
  | returns hpc hle =>
      have hn := mt (sleepAmt_pos_iff h).mpr (by omega)
      exact ⟨h.kticks, h.sleepAmt, nofun, by simp, fun _ => by omega⟩
  | halts hpc => exact ⟨h.kticks, h.sleepAmt, nofun, fun _ => h.halt (.inl hpc), nofun⟩

/-- An interrupt of another device. -/
theorem Counting.wake (h : Counting msec ticks₀ n r c) : Counting msec ticks₀ n r c.wake := by
  refine ⟨(kticks_wake c).trans h.kticks, by rw [sleepAmt_wake, h.sleepAmt], fun hpc => ?_,
    fun hpc => ?_, fun hpc => ?_⟩
  · rw [pc_wake] at hpc
    split at hpc
    case isTrue hw => exact (h.halt (.inr hw)).le
    case isFalse hw => exact h.check hpc
  · rw [pc_wake] at hpc
    split at hpc
    case isTrue hw => simp at hpc
    case isFalse hw => exact h.halt hpc
  · rw [pc_wake] at hpc
    split at hpc
    case isTrue hw => simp at hpc
    case isFalse hw => exact h.returned hpc

/-- A tick, raced or not. -/
theorem Counting.tick (h : Counting msec ticks₀ n r c) :
    Counting msec ticks₀ (n + 1) (r + if c.pc = .check ∨ c.pc = .halt then 1 else 0)
      c.pitHandlerMain.wake := by
  have hkticks : c.kticks + 1 = ticks₀ + BitVec.ofNat 64 (n + 1) := by
    rw [h.kticks, BitVec.add_assoc, BitVec.ofNat_add]
    rfl
  refine ⟨by simpa using hkticks, ?_, fun hpc => ?_, fun hpc => ?_, fun hpc => ?_⟩
  · rw [sleepAmt_wake, sleepAmt_tick h]
  · rw [pc_wake, pc_pitHandlerMain] at hpc
    split at hpc
    case isTrue hw =>
      have hlt := h.halt (.inr hw)
      omega
    case isFalse hw =>
      have hle := h.check hpc
      rw [if_pos (.inl hpc)]
      omega
  · rw [pc_wake, pc_pitHandlerMain] at hpc
    split at hpc
    case isTrue hw => simp at hpc
    case isFalse hw =>
      have hlt := h.halt hpc
      rw [if_pos (.inr (hpc.resolve_right hw))]
      omega
  · rw [pc_wake, pc_pitHandlerMain] at hpc
    split at hpc
    case isTrue hw => simp at hpc
    case isFalse hw => exact (h.returned hpc).trans (Nat.le_succ n)

/-- A whole run. -/
theorem Counting.run (hr : Run Step c tr c') (h : Counting msec ticks₀ n r c) :
    Counting msec ticks₀ (n + ticks tr) (r + raced tr) c' := by
  induction hr generalizing n r with
  | nil c => exact h
  | @cons c c₁ c' e tr hs hr ih =>
      cases hs with
      | tick =>
          have hrest := ih h.tick
          have hticks : ticks ((c, .tick) :: tr) = ticks tr + 1 := by
            simp [ticks]
          have hraced : raced ((c, .tick) :: tr) =
              raced tr + if c.pc = .check ∨ c.pc = .halt then 1 else 0 := by
            simp [raced, List.countP_cons]
          rw [hticks, hraced, Nat.add_comm (ticks tr), ← Nat.add_assoc, Nat.add_comm (raced tr),
            ← Nat.add_assoc]
          exact hrest
      | other => exact ih h.wake
      | sleeps hpc hpos => exact ih (h.main (.sleeps hpc hpos))
      | returns hpc hle => exact ih (h.main (.returns hpc hle))
      | halts hpc => exact ih (h.main (.halts hpc))

end Steps

/-- In every run of `sleep(msec)`, whatever interrupts come in between: when it returns, the timer has
ticked at least as often as `msec` milliseconds need, and at most once more for each tick that came
while `sleep` was awake. -/
theorem sleep_ticks (msec : BitVec 32) {c₁ : Clock} (hr : Run Step (c.sleep msec) tr c₁)
    (hwaiting : c₁.pc = .check) (hret : Step c₁ .main c') (hpc : c'.pc = .returned) :
    c'.kticks = c.kticks + BitVec.ofNat 64 (ticks tr) ∧ due msec ≤ ticks tr ∧
      ticks tr ≤ due msec + raced tr := by
  have hstart : Counting msec c.kticks 0 0 (c.sleep msec) := by
    refine ⟨by simp [Clock.sleep], by simp [Clock.sleep], fun _ => Nat.zero_le _, ?_, ?_⟩
    · simp [Clock.sleep]
    · simp [Clock.sleep]
  have hend := hstart.run hr
  rw [Nat.zero_add, Nat.zero_add] at hend
  exact ⟨(hend.main hret).kticks, (hend.main hret).returned hpc, hend.check hwaiting⟩

end Sleep

/-! ### A run with a tick in front of the halt -/

/-- Before a call of `sleep(20)`. -/
def idle : Clock := ⟨7, 0, .returned⟩

theorem sleep_ticks_idle : (10 : BitVec 64) = 7 + BitVec.ofNat 64 3 ∧ due 20 ≤ 3 ∧ 3 ≤ due 20 + 1 := by
  -- the second tick comes when `sleep` is in front of `hlt`
  have h₁ : Step (idle.sleep 20) .main ⟨7, 20, .halt⟩ := .sleeps rfl (by decide)
  have h₂ : Step ⟨7, 20, .halt⟩ .main ⟨7, 20, .waiting⟩ := .halts rfl
  have h₃ : Step ⟨7, 20, .waiting⟩ .tick ⟨8, 10, .check⟩ := .tick _
  have h₄ : Step ⟨8, 10, .check⟩ .main ⟨8, 10, .halt⟩ := .sleeps rfl (by decide)
  have h₅ : Step ⟨8, 10, .halt⟩ .tick ⟨9, 0, .halt⟩ := .tick _
  have h₆ : Step ⟨9, 0, .halt⟩ .main ⟨9, 0, .waiting⟩ := .halts rfl
  have h₇ : Step ⟨9, 0, .waiting⟩ .tick ⟨10, 0, .check⟩ := .tick _
  have h₈ : Step ⟨10, 0, .check⟩ .main ⟨10, 0, .returned⟩ := .returns rfl (by decide)
  exact sleep_ticks 20 (.cons h₁ (.cons h₂ (.cons h₃ (.cons h₄ (.cons h₅ (.cons h₆
    (.single h₇))))))) rfl h₈ rfl

end Owmice.Timer
