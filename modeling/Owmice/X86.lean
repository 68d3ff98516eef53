import Mathlib.Data.BitVec
import Mathlib.Tactic
import Owmice.Memory

/-! # A 32-bit processor

The instructions of the x86 that move words between the registers, the stack and the memory, call
and return.  Words are `BitVec 32`, so that the stack pointer and every address wrap exactly where
the processor wraps; segments are flat and paging is off.

* `Instr.exec`: the effect of an instruction; `eip` already points behind it;
* `Apart`: two ranges of addresses that do not meet, modulo `2 ^ 32`, with the rules to read a word
  behind a write (`get_set_self`, `get_set_apart`) and a byte (`set_apply`);
* `Eventually`: every run comes to a state of a given kind, however the environment behaves, with
  `Eventually.bind` and `Eventually.invariant`;
* `Step`, `Placed`: code in memory, with functions of an environment at some addresses, and the
  rule that lets a straight piece of code run (`eventually_execs`). -/

namespace Owmice.X86

/-- A machine word. -/
abbrev Word := BitVec 32

/-! ### Words in memory -/

/-- The word at `a`. -/
def get (m : Mem) (a : Word) : Word := BitVec.ofNat 32 (m.read32 a.toNat)

/-- A store of the word `v` at `a`. -/
def set (m : Mem) (a v : Word) : Mem := m.write32 a.toNat v.toNat

/-- Byte `x` lies among the `n` bytes from `a` on. -/
def In (a : Word) (n : ℕ) (x : Word) : Prop := (x - a).toNat < n

/-- The `n` bytes from `a` on and the `k` bytes from `b` on do not meet. -/
def Apart (a : Word) (n : ℕ) (b : Word) (k : ℕ) : Prop :=
  n ≤ (b - a).toNat ∧ k ≤ (a - b).toNat

instance (a : Word) (n : ℕ) (b : Word) (k : ℕ) : Decidable (Apart a n b k) := by
  unfold Apart
  infer_instance

instance (a : Word) (n : ℕ) (x : Word) : Decidable (In a n x) := by
  unfold In
  infer_instance

theorem Apart.symm {a b : Word} {n k : ℕ} (h : Apart a n b k) : Apart b k a n := ⟨h.2, h.1⟩

theorem In.mono {a x : Word} {n k : ℕ} (h : In a n x) (hk : n ≤ k) : In a k x := lt_of_lt_of_le h hk

/-- Parts of ranges that do not meet do not meet. -/
theorem Apart.part {a b : Word} {n k : ℕ} (h : Apart a n b k) {i j : Word} {n' k' : ℕ}
    (hi : i.toNat + n' ≤ n) (hj : j.toNat + k' ≤ k) (hn : 0 < n') (hk : 0 < k') :
    Apart (a + i) n' (b + j) k' := by
  obtain ⟨h₁, h₂⟩ := h
  constructor <;> bv_omega

/-- The same of one byte. -/
theorem Apart.not_in {a b : Word} {n k : ℕ} (h : Apart a n b k) {x : Word} (hx : In b k x) :
    ¬ In a n x := by
  obtain ⟨h₁, h₂⟩ := h
  simp only [In] at hx ⊢
  bv_omega

theorem inWord_toNat {a x : Word} : InWord a.toNat x.toNat ↔ In a 4 x := by
  simp only [InWord, In, w32]
  constructor <;> intro h <;> bv_omega

@[simp] theorem get_set_self (m : Mem) (a v : Word) : get (set m a v) a = v := by
  rw [get, set, Mem.read32_write32, w32_of_lt v.isLt, BitVec.ofNat_toNat, BitVec.setWidth_eq]

theorem get_set_apart (m : Mem) {a b : Word} (v : Word) (h : Apart a 4 b 4) :
    get (set m a v) b = get m b := by
  rw [get, get, set, Mem.read32_congr]
  intro x hx
  apply Mem.write32_of_not_inWord
  obtain ⟨h₁, h₂⟩ := h
  simp only [InWord, w32] at hx ⊢
  bv_omega

/-- A store in one of two ranges that do not meet, and a word in the other one. -/
theorem get_set_part {a b : Word} {n k : ℕ} (h : Apart a n b k) (m : Mem) (v : Word) {i j : Word}
    (hi : i.toNat + 4 ≤ n) (hj : j.toNat + 4 ≤ k) :
    get (set m (a + i) v) (b + j) = get m (b + j) :=
  get_set_apart m v (h.part hi hj (by norm_num) (by norm_num))

/-- Two words at distances from one address. -/
theorem get_set_off (m : Mem) (a v : Word) {i j : Word} (h : Apart i 4 j 4) :
    get (set m (a + i) v) (a + j) = get m (a + j) := by
  apply get_set_apart
  obtain ⟨h₁, h₂⟩ := h
  constructor <;> bv_omega

theorem set_apply (m : Mem) {a x : Word} (v : Word) (h : ¬ In a 4 x) :
    set m a v x.toNat = m x.toNat :=
  Mem.write32_of_not_inWord m v.toNat (fun hx => h (inWord_toNat.mp hx))

/-- A store in a range leaves the bytes outside the range alone. -/
theorem set_apply_part {a x : Word} {n : ℕ} (hx : ¬ In a n x) (m : Mem) (v : Word) {i : Word}
    (hi : i.toNat + 4 ≤ n) : set m (a + i) v x.toNat = m x.toNat := by
  apply set_apply
  simp only [In] at hx ⊢
  bv_omega

@[simp] theorem set_set (m : Mem) (a v w : Word) : set (set m a v) a w = set m a w :=
  Mem.write32_write32 m a.toNat v.toNat w.toNat

/-- A word whose bytes are those of another memory. -/
theorem get_congr {m m' : Mem} {a : Word} (h : ∀ x, In a 4 x → m' x.toNat = m x.toNat) :
    get m' a = get m a := by
  rw [get, get, Mem.read32_congr]
  intro x hx
  have hlt : x < 4294967296 := by
    simp only [InWord, w32] at hx
    omega
  have hx' : (BitVec.ofNat 32 x).toNat = x := by
    rw [BitVec.toNat_ofNat, Nat.mod_eq_of_lt hlt]
  rw [← hx'] at hx ⊢
  exact h _ (inWord_toNat.mp hx)

/-! ### The processor -/

/-- The general registers. -/
inductive Reg where
  | eax | ecx | edx | ebx | esp | ebp | esi | edi
deriving DecidableEq, Repr

/-- The registers and the memory. -/
structure Cpu where
  eax : Word
  ecx : Word
  edx : Word
  ebx : Word
  esp : Word
  ebp : Word
  esi : Word
  edi : Word
  eip : Word
  eflags : Word
  cr3 : Word
  mem : Mem

/-- The instructions; an operand in memory is a register and a displacement. -/
inductive Instr where
  | push (r : Reg)
  | pushImm (v : Word)
  | pushMem (base : Reg) (d : Word)
  | pop (r : Reg)
  | pusha
  | pushf
  | popf
  | mov (dst src : Reg)
  | movImm (dst : Reg) (v : Word)
  | load (dst base : Reg) (d : Word)
  | store (base : Reg) (d : Word) (src : Reg)
  | addImm (dst : Reg) (v : Word)
  | movFromCr3 (dst : Reg)
  | movToCr3 (src : Reg)
  | xchg (base r : Reg)
  | call (target : Word)
  | callMem (a : Word)
  | ret
deriving DecidableEq

/-- The flags that `popf` loads in kernel mode. -/
def flagsMask : Word := 0x00247FD5

/-- The flags of the arithmetic. -/
def arithMask : Word := 0x000008D5

/-- The flags `f` with those of the mask taken from `v`. -/
def mergeFlags (mask f v : Word) : Word := (f &&& ~~~mask) ||| (v &&& mask)

/-- Carry, parity, adjust, zero, sign and overflow of the sum of two words. -/
def sumFlags (a b : Word) : Word :=
  let s := a + b
  let flag (c : Bool) (i : ℕ) : Word := if c then 1#32 <<< i else 0#32
  flag (decide (4294967296 ≤ a.toNat + b.toNat)) 0 |||
    flag (((List.range 8).filter s.getLsbD).length % 2 == 0) 2 |||
    flag (decide (16 ≤ a.toNat % 16 + b.toNat % 16)) 4 ||| flag (s == 0#32) 6 |||
    flag s.msb 7 ||| flag (a.msb == b.msb && s.msb != a.msb) 11

/-- Flags of a smaller mask do not matter to a bigger one. -/
theorem mergeFlags_mergeFlags {mask big : Word} (h : mask &&& ~~~big = 0#32) (f v w : Word) :
    mergeFlags big (mergeFlags mask f v) w = mergeFlags big f w := by
  ext i hi
  have hbit : (mask &&& ~~~big)[i] = false := by
    rw [h]
    exact BitVec.getElem_zero hi
  rw [BitVec.getElem_and, BitVec.getElem_not] at hbit
  simp only [mergeFlags, BitVec.getElem_or, BitVec.getElem_and, BitVec.getElem_not]
  revert hbit
  cases mask[i] <;> cases big[i] <;> simp

namespace Cpu

def get (c : Cpu) : Reg → Word
  | .eax => c.eax
  | .ecx => c.ecx
  | .edx => c.edx
  | .ebx => c.ebx
  | .esp => c.esp
  | .ebp => c.ebp
  | .esi => c.esi
  | .edi => c.edi

def set (c : Cpu) (v : Word) : Reg → Cpu
  | .eax => { c with eax := v }
  | .ecx => { c with ecx := v }
  | .edx => { c with edx := v }
  | .ebx => { c with ebx := v }
  | .esp => { c with esp := v }
  | .ebp => { c with ebp := v }
  | .esi => { c with esi := v }
  | .edi => { c with edi := v }

/-- A word goes on top of the stack. -/
def push (c : Cpu) (v : Word) : Cpu := { c with esp := c.esp - 4, mem := X86.set c.mem (c.esp - 4) v }

/-- The word on top of the stack. -/
def top (c : Cpu) : Word := X86.get c.mem c.esp

end Cpu

/-- The effect of an instruction. -/
def Instr.exec : Instr → Cpu → Cpu
  | push r, c => c.push (c.get r)
  | pushImm v, c => c.push v
  | pushMem base d, c => c.push (X86.get c.mem (c.get base + d))
  | pop r, c => { c with esp := c.esp + 4 }.set c.top r
  | pusha, c =>
      (((((((c.push c.eax).push c.ecx).push c.edx).push c.ebx).push c.esp).push c.ebp).push
        c.esi).push c.edi
  | pushf, c => c.push c.eflags
  | popf, c => { c with esp := c.esp + 4, eflags := mergeFlags flagsMask c.eflags c.top }
  | mov dst src, c => c.set (c.get src) dst
  | movImm dst v, c => c.set v dst
  | load dst base d, c => c.set (X86.get c.mem (c.get base + d)) dst
  | store base d src, c => { c with mem := X86.set c.mem (c.get base + d) (c.get src) }
  | addImm dst v, c =>
      { c with eflags := mergeFlags arithMask c.eflags (sumFlags (c.get dst) v) }.set
        (c.get dst + v) dst
  | movFromCr3 dst, c => c.set c.cr3 dst
  | movToCr3 src, c => { c with cr3 := c.get src }
  | xchg base r, c =>
      { c with mem := X86.set c.mem (c.get base) (c.get r) }.set (X86.get c.mem (c.get base)) r
  | call target, c => { c.push c.eip with eip := target }
  | callMem a, c => { c.push c.eip with eip := X86.get c.mem a }
  | ret, c => { c with esp := c.esp + 4, eip := c.top }

/-- The instructions of a straight piece of code, one after the other. -/
def execs (is : List Instr) (c : Cpu) : Cpu := is.foldl (fun c i => i.exec c) c

@[simp] theorem execs_nil (c : Cpu) : execs [] c = c := rfl

@[simp] theorem execs_cons (i : Instr) (is : List Instr) (c : Cpu) :
    execs (i :: is) c = execs is (i.exec c) := rfl

theorem execs_append (is js : List Instr) (c : Cpu) :
    execs (is ++ js) c = execs js (execs is c) := List.foldl_append

/-- The instructions that go on behind themselves. -/
def Instr.Straight : Instr → Prop
  | call _ => False
  | callMem _ => False
  | ret => False
  | _ => True

instance : DecidablePred Instr.Straight := fun i => by
  cases i <;> unfold Instr.Straight <;> infer_instance

@[simp] theorem Cpu.get_eip (c : Cpu) (a : Word) (r : Reg) : { c with eip := a }.get r = c.get r := by
  cases r <;> rfl

theorem Cpu.push_eip (c : Cpu) (a v : Word) :
    { c with eip := a }.push v = { c.push v with eip := a } := rfl

/-- A straight instruction does not look at the instruction pointer. -/
theorem Instr.exec_eip {i : Instr} (h : i.Straight) (c : Cpu) (a : Word) :
    i.exec { c with eip := a } = { i.exec c with eip := a } := by
  cases i with
  | call target => exact h.elim
  | callMem a => exact h.elim
  | ret => exact h.elim
  | push r => cases r <;> rfl
  | pushImm v => rfl
  | pushMem base d => cases base <;> rfl
  | pop r => cases r <;> rfl
  | pusha => simp only [exec, Cpu.push_eip]
  | pushf => rfl
  | popf => rfl
  | mov dst src => cases dst <;> cases src <;> rfl
  | movImm dst v => cases dst <;> rfl
  | load dst base d => cases dst <;> cases base <;> rfl
  | store base d src => cases base <;> cases src <;> rfl
  | addImm dst v => cases dst <;> rfl
  | movFromCr3 dst => cases dst <;> rfl
  | movToCr3 src => cases src <;> rfl
  | xchg base r => cases base <;> cases r <;> rfl

theorem execs_eip {is : List Instr} (h : ∀ i ∈ is, i.Straight) (c : Cpu) (a : Word) :
    execs is { c with eip := a } = { execs is c with eip := a } := by
  induction is generalizing c with
  | nil => rfl
  | cons i is ih =>
      rw [execs_cons, execs_cons, i.exec_eip (h i List.mem_cons_self)]
      exact ih (fun j hj => h j (List.mem_cons_of_mem i hj)) (i.exec c)

/-! ### What every run comes to -/

section Eventually

variable {σ : Type} {step : σ → σ → Prop} {P Q : σ → Prop}

/-- Every run from a state comes to a state that satisfies `P`. -/
inductive Eventually (step : σ → σ → Prop) (P : σ → Prop) : σ → Prop
  | now {s : σ} : P s → Eventually step P s
  | later {s : σ} : (∃ s', step s s') → (∀ s', step s s' → Eventually step P s') →
      Eventually step P s

theorem Eventually.bind {s : σ} (h : Eventually step P s)
    (hPQ : ∀ s, P s → Eventually step Q s) : Eventually step Q s := by
  induction h with
  | now hP => exact hPQ _ hP
  | later hex _ ih => exact .later hex ih

theorem Eventually.mono {s : σ} (h : Eventually step P s) (hPQ : ∀ s, P s → Q s) :
    Eventually step Q s := h.bind fun s hP => .now (hPQ s hP)

end Eventually

/-! ### Code in memory -/

section Code

variable {κ : Type} (code : Word → Option (Instr × Word))
  (host : Cpu × κ → Cpu × κ → Prop)

/-- One step of a machine whose code at an address is an instruction and the address behind it; at
an address without code the environment `host`, which has a state of its own, takes over. -/
inductive Step : Cpu × κ → Cpu × κ → Prop
  | instr {c : Cpu} {w : κ} {i : Instr} {next : Word} (h : code c.eip = some (i, next)) :
      Step (c, w) (i.exec { c with eip := next }, w)
  | host {c c' : Cpu} {w w' : κ} (h : code c.eip = none) (hh : host (c, w) (c', w')) :
      Step (c, w) (c', w')

/-- The instructions `is` lie at the addresses from `a` up to `b`. -/
inductive Placed : Word → List Instr → Word → Prop
  | nil (a : Word) : Placed a [] a
  | cons {a b n : Word} {i : Instr} {is : List Instr} (h : code a = some (i, n))
      (ht : Placed n is b) : Placed a (i :: is) b

/-- A piece of code that lies at `base`, with one address for each instruction. -/
def codeAt (base : Word) (is : List Instr) (a : Word) : Option (Instr × Word) :=
  is[(a - base).toNat]?.map fun i => (i, a + 1)

theorem placed_codeAt (base : Word) (is js : List Instr)
    (h : is.length + js.length < 4294967296) :
    Placed (codeAt base (is ++ js)) (base + BitVec.ofNat 32 is.length) js
      (base + BitVec.ofNat 32 (is.length + js.length)) := by
  induction js generalizing is with
  | nil => exact .nil _
  | cons j js ih =>
      have hat : (base + BitVec.ofNat 32 is.length - base).toNat = is.length := by bv_omega
      have hnext : base + BitVec.ofNat 32 is.length + 1 =
          base + BitVec.ofNat 32 (is ++ [j]).length := by
        rw [List.length_append, List.length_singleton]
        bv_omega
      have hrest := ih (is ++ [j]) (by simpa [Nat.add_assoc, Nat.add_comm 1] using h)
      rw [List.append_assoc, List.singleton_append, ← hnext, List.length_append,
        List.length_singleton, Nat.add_assoc, Nat.add_comm 1] at hrest
      refine .cons (n := base + BitVec.ofNat 32 is.length + 1) ?_ hrest
      rw [codeAt, hat, List.getElem?_append_right le_rfl, Nat.sub_self]
      rfl

variable {code host} {P : Cpu × κ → Prop}

theorem Placed.append {is js : List Instr} {a b : Word} (h : Placed code a (is ++ js) b) :
    ∃ mid, Placed code a is mid ∧ Placed code mid js b := by
  induction is generalizing a with
  | nil => exact ⟨a, .nil a, h⟩
  | cons i is ih =>
      cases h with
      | cons h ht =>
          obtain ⟨mid, h₁, h₂⟩ := ih ht
          exact ⟨mid, .cons h h₁, h₂⟩

/-- An instruction of the code runs. -/
theorem eventually_instr {c : Cpu} {w : κ} {i : Instr} {next : Word}
    (h : code c.eip = some (i, next))
    (hP : Eventually (Step code host) P (i.exec { c with eip := next }, w)) :
    Eventually (Step code host) P (c, w) := by
  refine .later ⟨_, .instr h⟩ ?_
  intro s hs
  cases hs with
  | instr h' =>
      obtain ⟨rfl, rfl⟩ := Prod.mk.inj (Option.some.inj (h.symm.trans h'))
      exact hP
  | host h' _ => exact absurd (h.symm.trans h') (by simp)

/-- A straight piece of code runs from its begin to its end. -/
theorem eventually_execs {is : List Instr} (hs : ∀ i ∈ is, i.Straight) {c : Cpu} {w : κ} {b : Word}
    (hp : Placed code c.eip is b)
    (hP : Eventually (Step code host) P ({ execs is c with eip := b }, w)) :
    Eventually (Step code host) P (c, w) := by
  obtain ⟨a, ha⟩ : ∃ a, a = c.eip := ⟨_, rfl⟩
  rw [← ha] at hp
  induction hp generalizing c with
  | nil a =>
      rw [ha] at hP
      exact hP
  | @cons a b next i is h ht ih =>
      have hi := hs i List.mem_cons_self
      rw [ha] at h
      apply eventually_instr h
      rw [i.exec_eip hi]
      refine ih (fun j hj => hs j (List.mem_cons_of_mem i hj)) ?_ rfl
      rw [execs_eip fun j hj => hs j (List.mem_cons_of_mem i hj)]
      exact hP

/-- The environment runs, whatever it does. -/
theorem eventually_host {c : Cpu} {w : κ} (h : code c.eip = none)
    (hex : ∃ s, host (c, w) s)
    (hP : ∀ s, host (c, w) s → Eventually (Step code host) P s) :
    Eventually (Step code host) P (c, w) := by
  obtain ⟨⟨c', w'⟩, hh⟩ := hex
  refine .later ⟨_, .host h hh⟩ ?_
  intro s hs
  cases hs with
  | instr h' => exact absurd (h.symm.trans h') (by simp)
  | host _ hh => exact hP _ hh

end Code

end Owmice.X86
