import Owmice.X86

/-! # Switching tasks (`task_switch` of `system/task.h`)

`task_switch` is written in assembly.  It saves the registers of the processor in the `task_regs_t`
of the task that it leaves, with the stack pointer and the address with which its own `ret` would go
on, and loads them from the other one. -/

namespace Owmice.X86

/-- `task_regs_t`, as the eleven words that it holds. -/
@[ext] structure Context where
  eax : Word
  ebx : Word
  ecx : Word
  edx : Word
  esi : Word
  edi : Word
  esp : Word
  ebp : Word
  eip : Word
  eflags : Word
  cr3 : Word
deriving DecidableEq

/-- The `task_regs_t` at `a`. -/
def readContext (m : Mem) (a : Word) : Context where
  eax := get m (a + 0)
  ebx := get m (a + 4)
  ecx := get m (a + 8)
  edx := get m (a + 12)
  esi := get m (a + 16)
  edi := get m (a + 20)
  esp := get m (a + 24)
  ebp := get m (a + 28)
  eip := get m (a + 32)
  eflags := get m (a + 36)
  cr3 := get m (a + 40)

/-- The first half of `task_switch`: the registers go to the task at `44(%esp)`. -/
def taskSave : List Instr :=
  [.pusha,
   .pushf,
   .movFromCr3 .eax,
   .push .eax,
   .load .eax .esp 44,
   .store .eax 4 .ebx,
   .store .eax 8 .ecx,
   .store .eax 12 .edx,
   .store .eax 16 .esi,
   .store .eax 20 .edi,
   .load .ebx .esp 36,
   .load .ecx .esp 40,
   .load .edx .esp 20,
   .addImm .edx 4,
   .load .esi .esp 16,
   .load .edi .esp 4,
   .store .eax 0 .ebx,
   .store .eax 24 .edx,
   .store .eax 28 .esi,
   .store .eax 32 .ecx,
   .store .eax 36 .edi,
   .pop .ebx,
   .store .eax 40 .ebx,
   .push .ebx]

/-- The second half: the registers come from the task at `48(%esp)`. -/
def taskLoad : List Instr :=
  [.load .eax .esp 48,
   .load .ebx .eax 4,
   .load .ecx .eax 8,
   .load .edx .eax 12,
   .load .esi .eax 16,
   .load .edi .eax 20,
   .load .ebp .eax 28,
   .push .eax,
   .load .eax .eax 36,
   .push .eax,
   .popf,
   .pop .eax,
   .load .esp .eax 24,
   .push .eax,
   .load .eax .eax 40,
   .movToCr3 .eax,
   .pop .eax,
   .push .eax,
   .load .eax .eax 32,
   .xchg .esp .eax,
   .load .eax .eax 0]

/-- `task_switch`. -/
def taskSwitch : List Instr := taskSave ++ taskLoad

/-- What a task is to find when `task_switch` returns to it: the registers as they are when it
calls, behind the return address. -/
def callerContext (c : Cpu) : Context where
  eax := c.eax
  ebx := c.ebx
  ecx := c.ecx
  edx := c.edx
  esi := c.esi
  edi := c.edi
  esp := c.esp + 4
  ebp := c.ebp
  eip := c.top
  eflags := c.eflags
  cr3 := c.cr3

/-- The stores of `task_switch` to the `task_regs_t` at `a`, in their order. -/
def writeContext (m : Mem) (a : Word) (x : Context) : Mem :=
  let m := set (set (set m (a + 4) x.ebx) (a + 8) x.ecx) (a + 12) x.edx
  let m := set (set (set m (a + 16) x.esi) (a + 20) x.edi) (a + 0) x.eax
  let m := set (set (set m (a + 24) x.esp) (a + 28) x.ebp) (a + 32) x.eip
  set (set m (a + 36) x.eflags) (a + 40) x.cr3

/-- The ten words that `task_switch` pushes; the last one lies at `s`. -/
def pushedMem (c : Cpu) (s : Word) : Mem :=
  let m := set (set (set c.mem (s + 36) c.eax) (s + 32) c.ecx) (s + 28) c.edx
  let m := set (set (set m (s + 24) c.ebx) (s + 20) c.esp) (s + 16) c.ebp
  set (set (set (set m (s + 12) c.esi) (s + 8) c.edi) (s + 4) c.eflags) (s + 0) c.cr3

/-- The processor with the registers of a context; of the flags it takes those that `popf` loads. -/
def Context.resume (x : Context) (c : Cpu) (m : Mem) : Cpu where
  eax := x.eax
  ecx := x.ecx
  edx := x.edx
  ebx := x.ebx
  esp := x.esp
  ebp := x.ebp
  esi := x.esi
  edi := x.edi
  eip := x.eip
  eflags := mergeFlags flagsMask c.eflags x.eflags
  cr3 := x.cr3
  mem := m

/-- A context depends on the bytes of its `task_regs_t` only. -/
theorem readContext_congr {m m' : Mem} {a : Word}
    (h : ∀ x, In a 44 x → m' x.toNat = m x.toNat) : readContext m' a = readContext m a := by
  have hget : ∀ i : Word, i.toNat + 4 ≤ 44 → get m' (a + i) = get m (a + i) := by
    intro i hi
    apply get_congr
    intro x hx
    apply h
    simp only [In] at hx ⊢
    bv_omega
  simp (disch := decide) only [readContext, hget]

theorem readContext_writeContext (m : Mem) (a : Word) (x : Context) :
    readContext (writeContext m a x) a = x := by
  simp (disch := decide) only [readContext, writeContext, get_set_self, get_set_off]

/-! ### The two halves -/

section Halves

variable {c : Cpu} {s a b : Word}

theorem execs_taskSave (hs : c.esp = s + 40#32) (ha : get c.mem (s + 44#32) = a)
    (h : Apart a 44 s 52) :
    execs taskSave c =
      { c with
        eax := a
        ebx := c.cr3
        ecx := c.top
        edx := c.esp + 4
        esi := c.ebp
        edi := c.eflags
        esp := s + 0#32
        eflags := mergeFlags arithMask c.eflags (sumFlags c.esp 4)
        mem := set (writeContext (pushedMem c s) a (callerContext c)) (s + 0#32) c.cr3 } := by
  simp (disch := decide) only [taskSave, execs_cons, execs_nil, Instr.exec, Cpu.push, Cpu.get,
    Cpu.set, Cpu.top, hs, sub_eq_add_neg, add_assoc, BitVec.reduceNeg, BitVec.reduceAdd,
    BitVec.ofNat_eq_ofNat, get_set_self, get_set_off, get_set_part h, ha, writeContext,
    pushedMem, callerContext]

/-- The task at `b` is loaded: while its words are read, two words of the old stack and then the word
below its own stack are written. -/
theorem execs_taskLoad {r : Word} (hs : c.esp = s + 8#32) (hb : get c.mem (s + 56#32) = b)
    (hr : get c.mem (b + 24#32) = r + 4#32) (h : Apart b 44 s 8) (hslot : Apart b 44 r 4) :
    execs taskLoad c =
      { (readContext c.mem b).resume c
          (set (set (set c.mem (s + 4) b) (s + 0) (get c.mem (b + 36))) (r + 0)
            (get c.mem (b + 32))) with
        esp := r + 0
        eip := c.eip } := by
  simp (disch := decide) only [taskLoad, execs_cons, execs_nil, Instr.exec, Cpu.push, Cpu.get,
    Cpu.set, Cpu.top, hs, hr, sub_eq_add_neg, add_assoc, BitVec.reduceNeg, BitVec.reduceAdd,
    BitVec.ofNat_eq_ofNat, get_set_self, get_set_off, get_set_part h.symm, get_set_part hslot.symm,
    hb, set_set, Context.resume, readContext]

/-- What the first half writes: the `task_regs_t` and ten words of the stack. -/
theorem taskSave_outside {x : Word} (ha : ¬ In a 44 x) (hs : ¬ In s 40 x) (y : Context) (v : Word) :
    set (writeContext (pushedMem c s) a y) (s + 0#32) v x.toNat = c.mem x.toNat := by
  simp (disch := decide) only [writeContext, pushedMem, set_apply_part ha, set_apply_part hs]

end Halves

/-! ### The whole function -/

section Whole

variable {c : Cpu} {a b : Word}

/-- What the task that is entered finds: when it is the one that is left, its registers are saved
before they are loaded. -/
def nextContext (c : Cpu) (a b : Word) : Context :=
  if a = b then callerContext c else readContext c.mem b

/-- `task_switch` has been called with the tasks `a` and `b`, and neither `task_regs_t` overlaps the
words of the two stacks that it writes, or the other one. -/
structure SwitchOk (c : Cpu) (a b : Word) : Prop where
  leaves : get c.mem (c.esp + 4) = a
  enters : get c.mem (c.esp + 8) = b
  leaves_stack : Apart a 44 (c.esp - 48) 60
  enters_stack : Apart b 44 (c.esp - 48) 60
  leaves_slot : Apart a 44 ((nextContext c a b).esp - 4) 4
  enters_slot : Apart b 44 ((nextContext c a b).esp - 4) 4
  apart : a ≠ b → Apart a 44 b 44

/-- The bytes that `task_switch` may write: the `task_regs_t` of the task that is left, the stack
below its caller and one word below the stack of the other task. -/
def Written (c : Cpu) (a b x : Word) : Prop :=
  In a 44 x ∨ In (c.esp - 48) 48 x ∨ In ((nextContext c a b).esp - 4) 4 x

/-- The processor when `task_switch` has returned. -/
structure Switched (c : Cpu) (a b : Word) (c' : Cpu) : Prop where
  cpu : c' = (nextContext c a b).resume c c'.mem
  saved : readContext c'.mem a = callerContext c
  outside : ∀ x, ¬ Written c a b x → c'.mem x.toNat = c.mem x.toNat

/-- The first half leaves the words of the caller's stack and saves its context. -/
structure Saved (c : Cpu) (s a : Word) (c₁ : Cpu) : Prop where
  esp : c₁.esp = s
  eflags : ∀ v, mergeFlags flagsMask c₁.eflags v = mergeFlags flagsMask c.eflags v
  context : readContext c₁.mem a = callerContext c
  arg : get c₁.mem (s + 48) = get c.mem (s + 48)
  outside : ∀ x, ¬ In a 44 x → ¬ In s 40 x → c₁.mem x.toNat = c.mem x.toNat

theorem saved_taskSave {s : Word} (hs : c.esp = s + 40#32) (ha : get c.mem (s + 44#32) = a)
    (h : Apart a 44 s 52) : Saved c s a (execs taskSave c) := by
  rw [execs_taskSave hs ha h]
  constructor
  case esp => exact BitVec.add_zero s
  case eflags =>
    intro v
    exact mergeFlags_mergeFlags (by decide) _ _ _
  case context =>
    refine Eq.trans (readContext_congr ?_) (readContext_writeContext (pushedMem c s) a _)
    intro x hx
    exact set_apply_part (h.symm.not_in hx) _ _ (by decide)
  case arg =>
    simp (disch := decide) only [writeContext, pushedMem, BitVec.ofNat_eq_ofNat, get_set_off,
      get_set_part h]
  case outside =>
    intro x hxa hxs
    exact taskSave_outside hxa hxs _ _

/-- After the first half, the other task is as the second half is to find it. -/
theorem Saved.nextContext {s : Word} {c₁ : Cpu} (h : Saved c s a c₁) (hb : Apart b 44 s 40)
    (hab : a ≠ b → Apart a 44 b 44) : readContext c₁.mem b = nextContext c a b := by
  rw [X86.nextContext]
  split
  case isTrue hab => rw [← hab, h.context]
  case isFalse hne =>
    apply readContext_congr
    intro x hx
    exact h.outside x ((hab hne).not_in hx) (hb.symm.not_in hx)

theorem switched_taskSwitch (h : SwitchOk c a b) :
    Switched c a b (Instr.ret.exec (execs taskSwitch c)) := by
  -- the stack below the caller: ten words at `s`, and two more at `s'` for the second half
  obtain ⟨s, hs⟩ : ∃ s, c.esp = s + 40#32 := ⟨c.esp - 40#32, by bv_omega⟩
  obtain ⟨s', hs'⟩ : ∃ s', s = s' + 8#32 := ⟨s - 8#32, by bv_omega⟩
  obtain ⟨x, hx⟩ : ∃ x, nextContext c a b = x := ⟨_, rfl⟩
  obtain ⟨r, hr⟩ : ∃ r, x.esp = r + 4#32 := ⟨x.esp - 4#32, by bv_omega⟩
  obtain ⟨c₁, hc₁⟩ : ∃ c₁, execs taskSave c = c₁ := ⟨_, rfl⟩
  have hbelow : c.esp - 48 = s' := by bv_omega
  have hslot : x.esp - 4 = r := by bv_omega
  obtain ⟨hleaves, henters, hA, hB, hAr, hBr, hab⟩ := h
  rw [hx, hslot] at hAr hBr
  rw [hbelow] at hA hB
  have hA52 : Apart a 44 s 52 := by
    rw [hs', ← BitVec.add_zero a]
    exact hA.part (by decide) (by decide) (by norm_num) (by norm_num)
  have hB40 : Apart b 44 s 40 := by
    rw [hs', ← BitVec.add_zero b]
    exact hB.part (by decide) (by decide) (by norm_num) (by norm_num)
  have hB8 : Apart b 44 s' 8 := ⟨by have := hB.1; omega, by have := hB.2; omega⟩
  have hsave : Saved c s a c₁ := by
    rw [← hc₁]
    refine saved_taskSave hs ?_ hA52
    rw [← hleaves, hs, add_assoc]
    rfl
  have hctx : readContext c₁.mem b = x := by rw [hsave.nextContext hB40 hab, hx]
  have hto : get c₁.mem (s' + 56#32) = b := by
    have harg : s' + 56#32 = s + 48 := by bv_omega
    have hesp : s + 48 = c.esp + 8 := by bv_omega
    rw [harg, hsave.arg, hesp, henters]
  have hread : get c₁.mem (b + 24#32) = r + 4#32 := by
    rw [← hr, ← hctx]
    rfl
  have hload := execs_taskLoad (hsave.esp.trans hs') hto hread hB8 hBr
  obtain ⟨m, hm⟩ : ∃ m, set (set (set c₁.mem (s' + 4) b) (s' + 0) (get c₁.mem (b + 36))) (r + 0)
    (get c₁.mem (b + 32)) = m := ⟨_, rfl⟩
  rw [hm, hctx] at hload
  -- the bytes behind the first half
  have hkept : ∀ y, ¬ In s' 8 y → ¬ In r 4 y → m y.toNat = c₁.mem y.toNat := by
    intro y hy hyr
    rw [← hm]
    simp (disch := decide) only [set_apply_part hy, set_apply_part hyr]
  have heip : get m r = x.eip := by
    have hzero : r + 0 = r := BitVec.add_zero r
    rw [← hm, hzero, get_set_self, ← hctx]
    rfl
  rw [taskSwitch, execs_append, hc₁, hload]
  constructor
  case cpu =>
    simp only [Instr.exec, Cpu.top, Context.resume, hx, hr, BitVec.add_zero, hsave.eflags, heip,
      BitVec.ofNat_eq_ofNat]
  case saved =>
    rw [← hsave.context]
    apply readContext_congr
    intro y hy
    refine hkept y (fun hy' => ?_) (hAr.symm.not_in hy)
    exact hA.not_in (In.mono hy' (by norm_num)) hy
  case outside =>
    intro y hy
    simp only [Written, hx, hslot, hbelow, not_or] at hy
    obtain ⟨hya, hys, hyr⟩ := hy
    have hys8 : ¬ In s' 8 y := fun hy' => hys (In.mono hy' (by norm_num))
    have hys40 : ¬ In s 40 y := by
      simp only [In, hs'] at hys ⊢
      bv_omega
    have hload : m y.toNat = c.mem y.toNat := by
      rw [hkept y hys8 hyr, hsave.outside y hya hys40]
    exact hload

theorem straight_taskSwitch : ∀ i ∈ taskSwitch, i.Straight := by decide

/-- Wherever its code lies, every run of a call of `task_switch` returns into the other task, which
finds the registers with which it was left, and leaves nothing but the saved context behind. -/
theorem eventually_taskSwitch {κ : Type} {code : Word → Option (Instr × Word)}
    {host : Cpu × κ → Cpu × κ → Prop} {w : κ} {d : Word}
    (hp : Placed code c.eip (taskSwitch ++ [.ret]) d) (h : SwitchOk c a b) :
    Eventually (Step code host) (fun s => Switched c a b s.1 ∧ s.2 = w) (c, w) := by
  have hsw := switched_taskSwitch h
  obtain ⟨mid, hbody, hret⟩ := hp.append
  apply eventually_execs straight_taskSwitch hbody
  obtain ⟨c₁, hc₁⟩ : ∃ c₁, execs taskSwitch c = c₁ := ⟨_, rfl⟩
  rw [hc₁] at hsw ⊢
  cases hret with
  | cons hcode _ =>
      apply eventually_instr hcode
      exact .now ⟨hsw, rfl⟩

/-- A processor that calls `task_switch` with the tasks at 2000 and 3000. -/
def calling : Cpu where
  eax := 1
  ecx := 2
  edx := 3
  ebx := 4
  esp := 1000
  ebp := 5
  esi := 6
  edi := 7
  eip := 0
  eflags := 0x202
  cr3 := 0
  mem :=
    let m := set (set (set (fun _ => 0) 1000 77) 1004 2000) 1008 3000
    set (set (set m 3024 5000) 3036 0x202) 2036 0x202

theorem eventually_taskSwitch_calling :
    Eventually (Step (codeAt 0 (taskSwitch ++ [.ret])) fun _ _ => False)
      (fun s : Cpu × Unit => Switched calling 2000 3000 s.1 ∧ s.2 = ()) (calling, ()) :=
  eventually_taskSwitch (placed_codeAt 0 [] (taskSwitch ++ [.ret]) (by decide))
    ⟨by decide +kernel, by decide +kernel, by decide +kernel, by decide +kernel,
      by decide +kernel, by decide +kernel, by decide +kernel⟩

end Whole

end Owmice.X86
