import Owmice.X86

/-! # System calls (`bootstrap.asm`, `system/kernel_call.h`, `programs/*.asm`)

A program calls the kernel through the entry `syscall`, whose address it finds in its own image, with
the number of the call and the arguments on the stack; `syscall` passes them on to `kcall_handle`,
which runs the function of the table.  The kernel's functions follow the calling convention of C and
the assembly in between is executed. -/

namespace Owmice.X86

/-! ### The table -/

/-- The functions that programs may call. -/
inductive KernelFunc where
  | die | termPutchar | termWritestring | termCls | kbdGetString | today | getMem | malloc | free
  | lsInitrd | catInitrd | prompt | termSetTitle | execInitrd | kbdGetChar | getTicks | readInitrd
  | draw | termDisableScroll | termEnableScroll | now | statusCls | sleep | kbdCurrentChar
deriving DecidableEq, Repr

/-- `syscalls`. -/
def syscalls : List KernelFunc :=
  [.die, .termPutchar, .termWritestring, .termCls, .kbdGetString, .today, .getMem, .malloc, .free,
    .lsInitrd, .catInitrd, .prompt, .termSetTitle, .execInitrd, .kbdGetChar, .getTicks,
    .readInitrd, .draw, .termDisableScroll, .termEnableScroll, .now, .statusCls, .sleep,
    .kbdCurrentChar]

/-- The kernel's functions and its `printf` of the number of an invalid call, as relations between
its states; a function has three arguments and a result. -/
structure Kernel (κ : Type) where
  run : KernelFunc → Word → Word → Word → κ → Word → κ → Prop
  printInvalid : Word → κ → κ → Prop

/-- `kcall_handle`. -/
inductive KcallHandle {κ : Type} (K : Kernel κ) (call arg1 arg2 arg3 : Word) (w : κ) :
    Word → κ → Prop
  | invalid {w' : κ} (h : syscalls[call.toNat]? = none) (hp : K.printInvalid call w w') :
      KcallHandle K call arg1 arg2 arg3 w (-1) w'
  | func {f : KernelFunc} {r : Word} {w' : κ} (h : syscalls[call.toNat]? = some f)
      (hr : K.run f arg1 arg2 arg3 w r w') : KcallHandle K call arg1 arg2 arg3 w r w'

/-! ### The calling convention -/

/-- A function that was called with the processor `c` has returned: the caller's registers are back
and the stack up to `top` is as before, but for the first `n` bytes, which belong to the callee.
`ebx` is in a clause of its own. -/
structure Returned (top : Word) (n : Word) (c c' : Cpu) : Prop where
  eip : c'.eip = c.top
  esp : c'.esp = c.esp + 4
  ebp : c'.ebp = c.ebp
  esi : c'.esi = c.esi
  edi : c'.edi = c.edi
  stack : ∀ x, In (c.esp + n) (top - (c.esp + n)).toNat x → c'.mem x.toNat = c.mem x.toNat

/-- `kcall_handle` at the address `entry`, as a C compiler makes it: its arguments lie behind the
return address, and it may write to them. -/
structure KcallCompiled {κ : Type} (K : Kernel κ) (top entry : Word) (s s' : Cpu × κ) : Prop where
  eip : s.1.eip = entry
  handle : KcallHandle K (get s.1.mem (s.1.esp + 4)) (get s.1.mem (s.1.esp + 8))
    (get s.1.mem (s.1.esp + 12)) (get s.1.mem (s.1.esp + 16)) s.2 s'.1.eax s'.2
  returned : Returned top 20 s.1 s'.1
  ebx : s'.1.ebx = s.1.ebx

/-! ### The code -/

/-- `syscall`, with `kcall_handle` at `entry`. -/
def syscallBody : List Instr :=
  [.push .ebp,
   .mov .ebp .esp,
   .pushMem .ebp 20,
   .pushMem .ebp 16,
   .pushMem .ebp 12,
   .pushMem .ebp 8]

def syscall (entry : Word) : List Instr :=
  syscallBody ++ [.call entry, .addImm .esp 16, .pop .ebp, .ret]

/-- `syscall0`, with `syscall_base` at `base`. -/
def syscall0 (base : Word) : List Instr :=
  [.pushImm 0, .pushImm 0, .push .eax, .callMem base, .addImm .esp 12, .ret]

/-- `syscall1`. -/
def syscall1 (base : Word) : List Instr :=
  [.pushImm 0, .push .ebx, .push .eax, .callMem base, .addImm .esp 12, .ret]

/-- `syscall2`. -/
def syscall2 (base : Word) : List Instr :=
  [.push .ecx, .push .ebx, .push .eax, .callMem base, .addImm .esp 12, .ret]

/-! ### The entry of the kernel -/

section Entry

variable {κ : Type} {K : Kernel κ} {top entry base stub : Word} {c c' : Cpu} {w : κ}
  {code : Word → Option (Instr × Word)}

/-- The stack reaches from below `k` more bytes up to `top`, and holds the return address. -/
structure Room (top : Word) (k : ℕ) (c : Cpu) : Prop where
  above : 4 ≤ (top - c.esp).toNat
  below : (top - c.esp).toNat + k ≤ 4294967296

/-- A word that the callee has left alone. -/
theorem Returned.get_eq {n : Word} (h : Returned top n c c') {a : Word}
    (ha : (a - (c.esp + n)).toNat + 4 ≤ (top - (c.esp + n)).toNat) :
    get c'.mem a = get c.mem a := by
  apply get_congr
  intro x hx
  apply h.stack
  simp only [In] at hx ⊢
  bv_omega

/-- What `syscall` pushes below the stack pointer `s + 24`. -/
def syscallMem (c : Cpu) (s ret : Word) : Mem :=
  let m := set (set c.mem (s + 20) c.ebp) (s + 16) (get c.mem (s + 40))
  let m := set (set m (s + 12) (get c.mem (s + 36))) (s + 8) (get c.mem (s + 32))
  set (set m (s + 4) (get c.mem (s + 28))) (s + 0) ret

/-- The processor at the entry of `kcall_handle`. -/
def atKcall (c : Cpu) (s ret entry : Word) : Cpu :=
  { c with ebp := s + 20#32, esp := s + 0#32, eip := entry, mem := syscallMem c s ret }

theorem exec_syscallBody {s : Word} (hs : c.esp = s + 24#32) (entry next : Word) :
    (Instr.call entry).exec { execs syscallBody c with eip := next } =
      atKcall c s next entry := by
  simp (disch := decide) only [syscallBody, execs_cons, execs_nil, Instr.exec, Cpu.push, Cpu.get,
    Cpu.set, hs, sub_eq_add_neg, add_assoc, BitVec.reduceNeg, BitVec.reduceAdd,
    BitVec.ofNat_eq_ofNat, get_set_off, syscallMem, atKcall]

/-- The words that `syscallMem` writes are six; it leaves the others alone. -/
theorem syscallMem_apply {s ret x : Word} (hx : ¬ In s 24 x) :
    syscallMem c s ret x.toNat = c.mem x.toNat := by
  simp (disch := decide) only [syscallMem, set_apply_part hx]

/-- The arguments have come along. -/
theorem args_atKcall {s : Word} (hs : c.esp = s + 24#32) (entry next a : Word)
    (ha : a ∈ [4, 8, 12, 16]) :
    get (atKcall c s next entry).mem ((atKcall c s next entry).esp + a) =
      get c.mem (c.esp + a) := by
  simp only [List.mem_cons, List.not_mem_nil, or_false] at ha
  rcases ha with rfl | rfl | rfl | rfl
  all_goals
    simp (disch := decide) only [atKcall, syscallMem, hs, add_assoc, BitVec.reduceAdd,
      BitVec.ofNat_eq_ofNat, get_set_off, get_set_self]

/-- The way back from `kcall_handle`. -/
theorem returned_syscall {s next : Word} (hs : c.esp = s + 24#32) (hroom : Room top 24 c)
    (hr : Returned top 20 (atKcall c s next entry) c') :
    Returned top 0 c (Instr.ret.exec (execs [.addImm .esp 16, .pop .ebp] c')) := by
  obtain ⟨habove, hbelow⟩ := hroom
  rw [hs] at habove hbelow
  have hesp : c'.esp = s + 4#32 := hr.esp.trans (by simp only [atKcall]; bv_omega)
  -- the caller's frame pointer and the return address
  have hebp : get c'.mem (s + 20#32) = c.ebp := by
    rw [hr.get_eq (by simp only [atKcall]; bv_omega)]
    simp (disch := decide) only [atKcall, syscallMem, get_set_off, get_set_self, BitVec.ofNat_eq_ofNat]
  have hret : get c'.mem (s + 24#32) = c.top := by
    rw [hr.get_eq (by simp only [atKcall]; bv_omega), Cpu.top, hs]
    simp (disch := decide) only [atKcall, syscallMem, get_set_off, BitVec.ofNat_eq_ofNat]
  have hend : Instr.ret.exec (execs [.addImm .esp 16, .pop .ebp] c') =
      { c' with
        eflags := mergeFlags arithMask c'.eflags (sumFlags c'.esp 16)
        ebp := c.ebp
        esp := s + 28#32
        eip := c.top } := by
    simp only [execs_cons, execs_nil, Instr.exec, Cpu.get, Cpu.set, Cpu.top, hesp, add_assoc,
      BitVec.reduceAdd, BitVec.ofNat_eq_ofNat, hebp, hret]
  rw [hend]
  constructor
  case eip => rfl
  case esp =>
    simp only [hs]
    bv_omega
  case ebp => rfl
  case esi => exact hr.esi
  case edi => exact hr.edi
  case stack =>
    intro x hx
    have hout : ¬ In s 24 x := by
      simp only [In, hs] at hx ⊢
      bv_omega
    refine Eq.trans (hr.stack x ?_) (syscallMem_apply hout)
    simp only [In, hs, atKcall] at hx ⊢
    bv_omega

/-- Every call of `syscall` with the number of a call and three arguments on the stack makes one
call of `kcall_handle` with them, and comes back with its result. -/
theorem eventually_syscall {d : Word} (hp : Placed code c.eip (syscall entry) d)
    (hentry : code entry = none) (hroom : Room top 24 c)
    (hret : ∃ r w', KcallHandle K (get c.mem (c.esp + 4)) (get c.mem (c.esp + 8))
      (get c.mem (c.esp + 12)) (get c.mem (c.esp + 16)) w r w') :
    Eventually (Step code (KcallCompiled K top entry)) (fun s =>
      Returned top 0 c s.1 ∧ s.1.ebx = c.ebx ∧
        KcallHandle K (get c.mem (c.esp + 4)) (get c.mem (c.esp + 8)) (get c.mem (c.esp + 12))
          (get c.mem (c.esp + 16)) w s.1.eax s.2) (c, w) := by
  obtain ⟨s, hs⟩ : ∃ s, c.esp = s + 24#32 := ⟨c.esp - 24#32, by bv_omega⟩
  obtain ⟨mid, hbody, hrest⟩ := hp.append
  apply eventually_execs (by decide) hbody
  cases hrest with
  | @cons _ _ next _ _ hcall hback =>
  apply eventually_instr hcall
  have hexec := exec_syscallBody hs entry next
  simp only at hexec ⊢
  rw [hexec]
  have hargs := args_atKcall hs entry next
  have hnext : (atKcall c s next entry).top = next := by
    simp only [Cpu.top, atKcall, syscallMem, BitVec.ofNat_eq_ofNat, get_set_self]
  obtain ⟨c₁, hc₁⟩ : ∃ c₁, atKcall c s next entry = c₁ := ⟨_, rfl⟩
  have heip : c₁.eip = entry := by rw [← hc₁]; rfl
  rw [hc₁] at hargs hnext ⊢
  rw [← hargs 4 (by simp), ← hargs 8 (by simp), ← hargs 12 (by simp), ← hargs 16 (by simp)]
    at hret ⊢
  apply eventually_host (by rw [heip]; exact hentry)
  · obtain ⟨r, w', hkcall⟩ := hret
    exact ⟨({ c₁ with eax := r, eip := c₁.top, esp := c₁.esp + 4 }, w'),
      heip, hkcall, ⟨rfl, rfl, rfl, rfl, rfl, fun _ _ => rfl⟩, rfl⟩
  · rintro ⟨c', w'⟩ hhost
    have hback' : Placed code c'.eip ([.addImm .esp 16, .pop .ebp] ++ [.ret]) d := by
      rw [hhost.returned.eip, hnext]
      exact hback
    obtain ⟨mid', htail, hlast⟩ := hback'.append
    apply eventually_execs (by decide) htail
    have hreturned := hhost.returned
    rw [← hc₁] at hreturned
    have hend := returned_syscall hs hroom hreturned
    have hebx : (execs [.addImm .esp 16, .pop .ebp] c').ebx = c.ebx :=
      hhost.ebx.trans (by rw [← hc₁]; rfl)
    have heax : (execs [.addImm .esp 16, .pop .ebp] c').eax = c'.eax := rfl
    obtain ⟨c₂, hc₂⟩ : ∃ c₂, execs [.addImm .esp 16, .pop .ebp] c' = c₂ := ⟨_, rfl⟩
    rw [hc₂] at hend hebx heax ⊢
    cases hlast with
    | cons hcode _ =>
        apply eventually_instr hcode
        have hkcall := hhost.handle
        simp only [← heax] at hkcall
        exact .now ⟨hend, hebx, hkcall⟩

/-- What a call through `syscall_base` pushes below the stack pointer `s + 16`. -/
def callMem (c : Cpu) (s arg2 arg1 ret : Word) : Mem :=
  set (set (set (set c.mem (s + 12) arg2) (s + 8) arg1) (s + 4) c.eax) (s + 0) ret

/-- The processor at `syscall`. -/
def atSyscall (c : Cpu) (s arg2 arg1 ret stub : Word) : Cpu :=
  { c with esp := s + 0#32, eip := stub, mem := callMem c s arg2 arg1 ret }

/-- The three pushes of `syscall0`, `syscall1` and `syscall2`, and the call. -/
theorem exec_pushes {s : Word} (hs : c.esp = s + 16#32) (hbase : get c.mem base = stub)
    (hapart : Apart s 16 base 4) (arg2 arg1 next : Word) :
    (Instr.callMem base).exec { ((c.push arg2).push arg1).push c.eax with eip := next } =
      atSyscall c s arg2 arg1 next stub := by
  have hzero : base = base + 0#32 := (BitVec.add_zero base).symm
  rw [hzero] at hbase ⊢
  simp (disch := decide) only [Instr.exec, Cpu.push, hs, sub_eq_add_neg, add_assoc,
    BitVec.reduceNeg, BitVec.reduceAdd, BitVec.ofNat_eq_ofNat, get_set_part hapart, hbase,
    atSyscall, callMem]

/-- The way back from `syscall`. -/
theorem returned_pushes {s arg2 arg1 next : Word} (hs : c.esp = s + 16#32) (hroom : Room top 20 c)
    (hr : Returned top 0 (atSyscall c s arg2 arg1 next stub) c') :
    Returned top 0 c (Instr.ret.exec (execs [.addImm .esp 12] c')) := by
  obtain ⟨habove, hbelow⟩ := hroom
  rw [hs] at habove hbelow
  have hesp : c'.esp = s + 4#32 := hr.esp.trans (by simp only [atSyscall]; bv_omega)
  have hret : get c'.mem (s + 16#32) = c.top := by
    rw [hr.get_eq (by simp only [atSyscall]; bv_omega), Cpu.top, hs]
    simp (disch := decide) only [atSyscall, callMem, get_set_off, BitVec.ofNat_eq_ofNat]
  have hend : Instr.ret.exec (execs [.addImm .esp 12] c') =
      { c' with
        eflags := mergeFlags arithMask c'.eflags (sumFlags c'.esp 12)
        esp := s + 20#32
        eip := c.top } := by
    simp only [execs_cons, execs_nil, Instr.exec, Cpu.get, Cpu.set, Cpu.top, hesp, add_assoc,
      BitVec.reduceAdd, BitVec.ofNat_eq_ofNat, hret]
  rw [hend]
  constructor
  case eip => rfl
  case esp =>
    simp only [hs]
    bv_omega
  case ebp => exact hr.ebp
  case esi => exact hr.esi
  case edi => exact hr.edi
  case stack =>
    intro x hx
    have hout : ¬ In s 16 x := by
      simp only [In, hs] at hx ⊢
      bv_omega
    have hcall : callMem c s arg2 arg1 next x.toNat = c.mem x.toNat := by
      simp (disch := decide) only [callMem, set_apply_part hout]
    refine Eq.trans (hr.stack x ?_) hcall
    simp only [In, hs, atSyscall] at hx ⊢
    bv_omega

/-- `syscall0`, `syscall1` and `syscall2` call the kernel with the number in `eax` and the arguments
that they push; the third argument is the word above them, the return address. -/
theorem eventually_pushes (body : List Instr) (arg2 arg1 : Word) {d d' : Word}
    (hp : Placed code c.eip (body ++ [.callMem base, .addImm .esp 12, .ret]) d)
    (hstraight : ∀ i ∈ body, i.Straight)
    (hbody : execs body c = ((c.push arg2).push arg1).push c.eax)
    (hstub : Placed code stub (syscall entry) d') (hentry : code entry = none)
    (hbase : get c.mem base = stub) (hapart : Apart (c.esp - 16) 16 base 4)
    (hroom : Room top 40 c)
    (hret : ∃ r w', KcallHandle K c.eax arg1 arg2 c.top w r w') :
    Eventually (Step code (KcallCompiled K top entry)) (fun s =>
      Returned top 0 c s.1 ∧ s.1.ebx = c.ebx ∧
        KcallHandle K c.eax arg1 arg2 c.top w s.1.eax s.2) (c, w) := by
  obtain ⟨s, hs⟩ : ∃ s, c.esp = s + 16#32 := ⟨c.esp - 16#32, by bv_omega⟩
  have hbelow : c.esp - 16 = s := by bv_omega
  rw [hbelow] at hapart
  have habove := hroom.above
  have hfits := hroom.below
  obtain ⟨mid, hpushes, hrest⟩ := hp.append
  apply eventually_execs hstraight hpushes
  cases hrest with
  | @cons _ _ next _ _ hcall hback =>
  apply eventually_instr hcall
  rw [hbody]
  have hexec := exec_pushes hs hbase hapart arg2 arg1 next
  simp only at hexec ⊢
  rw [hexec]
  obtain ⟨c₁, hc₁⟩ : ∃ c₁, atSyscall c s arg2 arg1 next stub = c₁ := ⟨_, rfl⟩
  obtain ⟨h₁, h₂, h₃, h₄, hnext⟩ : get c₁.mem (c₁.esp + 4) = c.eax ∧
      get c₁.mem (c₁.esp + 8) = arg1 ∧ get c₁.mem (c₁.esp + 12) = arg2 ∧
      get c₁.mem (c₁.esp + 16) = c.top ∧ c₁.top = next := by
    rw [← hc₁]
    simp (disch := decide) only [atSyscall, callMem, Cpu.top, hs, add_assoc, BitVec.reduceAdd,
      BitVec.ofNat_eq_ofNat, get_set_off, get_set_self, and_self]
  have hroom₁ : Room top 24 c₁ := by
    rw [hs] at habove hfits
    rw [← hc₁]
    constructor
    · simp only [atSyscall]
      bv_omega
    · simp only [atSyscall]
      bv_omega
  have hstub₁ : Placed code c₁.eip (syscall entry) d' := by
    rw [← hc₁]
    exact hstub
  have hcalls := eventually_syscall (K := K) (w := w) hstub₁ hentry hroom₁
  rw [h₁, h₂, h₃, h₄] at hcalls
  rw [hc₁]
  refine (hcalls hret).bind ?_
  rintro ⟨c', w'⟩ ⟨hreturned, hebx, hkcall⟩
  have hback' : Placed code c'.eip ([.addImm .esp 12] ++ [.ret]) d := by
    rw [hreturned.eip, hnext]
    exact hback
  obtain ⟨mid', htail, hlast⟩ := hback'.append
  apply eventually_execs (by decide) htail
  rw [← hc₁] at hreturned hebx
  have hend := returned_pushes hs ⟨habove, by omega⟩ hreturned
  have hebx' : (execs [.addImm .esp 12] c').ebx = c.ebx := hebx
  have heax : (execs [.addImm .esp 12] c').eax = c'.eax := rfl
  obtain ⟨c₂, hc₂⟩ : ∃ c₂, execs [.addImm .esp 12] c' = c₂ := ⟨_, rfl⟩
  rw [hc₂] at hend hebx' heax ⊢
  cases hlast with
  | cons hcode _ =>
      apply eventually_instr hcode
      simp only [← heax] at hkcall
      exact .now ⟨hend, hebx', hkcall⟩

end Entry

/-! ### The programs in assembly -/

/-- The programs of the ramdisk that are written in assembly. -/
inductive Program where
  | catrd | cls | die | echo | lsrd | mem | time
deriving DecidableEq, Repr

namespace Program

/-- The code of a program, with `syscall0` and `syscall1` at `a₀` and `a₁`. -/
def code (a₀ a₁ : Word) : Program → List Instr
  | catrd =>
      [.push .ebp,
       .mov .ebp .esp,
       .load .ebx .ebp 8,
       .movImm .eax 10,
       .call a₁,
       .pop .ebp,
       .ret]
  | cls => [.movImm .eax 3, .call a₀, .ret]
  | die => [.movImm .eax 0, .movImm .ebx 0xDEAD, .call a₁, .ret]
  | echo =>
      [.push .ebp,
       .mov .ebp .esp,
       .load .ecx .ebp 12,
       .load .ebx .ebp 8,
       .movImm .eax 2,
       .call a₁,
       .pop .ebp,
       .ret]
  | lsrd => [.movImm .eax 9, .call a₀, .ret]
  | mem => [.movImm .eax 6, .call a₀, .ret]
  | time => [.movImm .eax 5, .call a₀, .ret]

/-- The function of the kernel that a program is for. -/
def func : Program → KernelFunc
  | catrd => .catInitrd
  | cls => .termCls
  | die => .die
  | echo => .termWritestring
  | lsrd => .lsInitrd
  | mem => .getMem
  | time => .today

/-- Its argument: `catrd` and `echo` pass on their own first one. -/
def arg (c : Cpu) : Program → Word
  | catrd => get c.mem (c.esp + 4)
  | die => 0xDEAD
  | echo => get c.mem (c.esp + 4)
  | _ => 0

end Program

section Programs

variable {κ : Type} {K : Kernel κ} {top entry base stub target : Word} {c c' : Cpu} {w : κ}
  {code : Word → Option (Instr × Word)} {n v arg : Word}

/-- At `target` lies a function that makes the call of the number in `eax`, which is `n`, with the
argument `arg`, when `v` is in `ebx`. -/
def CallsKernel (K : Kernel κ) (top entry base stub target : Word)
    (code : Word → Option (Instr × Word)) (w : κ) (n v arg : Word) : Prop :=
  ∀ c : Cpu, c.eip = target → get c.mem base = stub → Apart (c.esp - 16) 16 base 4 →
    Room top 40 c → c.eax = n → c.ebx = v →
    (∃ r w', KcallHandle K n arg 0 c.top w r w') →
    Eventually (Step code (KcallCompiled K top entry)) (fun s =>
      Returned top 0 c s.1 ∧ KcallHandle K n arg 0 c.top w s.1.eax s.2) (c, w)

theorem callsKernel_syscall0 {d d' : Word} (hp : Placed code target (syscall0 base) d)
    (hstub : Placed code stub (syscall entry) d') (hentry : code entry = none) :
    CallsKernel K top entry base stub target code w n v 0 := by
  intro c heip hbase hapart hroom heax hebx hret
  subst heip heax
  have hcalls := eventually_pushes [.pushImm 0, .pushImm 0, .push .eax] 0 0 hp (by decide) rfl
    hstub hentry hbase hapart hroom hret
  exact hcalls.mono fun s hs => ⟨hs.1, hs.2.2⟩

theorem callsKernel_syscall1 {d d' : Word} (hp : Placed code target (syscall1 base) d)
    (hstub : Placed code stub (syscall entry) d') (hentry : code entry = none) :
    CallsKernel K top entry base stub target code w n v v := by
  intro c heip hbase hapart hroom heax hebx hret
  subst heip heax hebx
  have hcalls := eventually_pushes [.pushImm 0, .push .ebx, .push .eax] 0 c.ebx hp (by decide) rfl
    hstub hentry hbase hapart hroom hret
  exact hcalls.mono fun s hs => ⟨hs.1, hs.2.2⟩

/-- A call instruction has come back to `next`. -/
structure Back (top next : Word) (c c' : Cpu) : Prop where
  eip : c'.eip = next
  esp : c'.esp = c.esp
  ebp : c'.ebp = c.ebp
  esi : c'.esi = c.esi
  edi : c'.edi = c.edi
  stack : ∀ x, In c.esp (top - c.esp).toNat x → c'.mem x.toNat = c.mem x.toNat

theorem Back.get_eq {next : Word} (h : Back top next c c') {a : Word}
    (ha : (a - c.esp).toNat + 4 ≤ (top - c.esp).toNat) : get c'.mem a = get c.mem a := by
  apply get_congr
  intro x hx
  apply h.stack
  simp only [In] at hx ⊢
  bv_omega

/-- The call of such a function. -/
theorem CallsKernel.eventually_call {next : Word}
    (h : CallsKernel K top entry base stub target code w n v arg)
    (hcode : code c.eip = some (.call target, next)) (hbase : get c.mem base = stub)
    (hapart : Apart (c.esp - 20) 20 base 4) (hroom : Room top 44 c) (heax : c.eax = n)
    (hebx : c.ebx = v) (hret : ∃ r w', KcallHandle K n arg 0 next w r w') :
    Eventually (Step code (KcallCompiled K top entry)) (fun s =>
      Back top next c s.1 ∧ KcallHandle K n arg 0 next w s.1.eax s.2) (c, w) := by
  obtain ⟨habove, hbelow⟩ := hroom
  obtain ⟨s, hs⟩ : ∃ s, c.esp = s + 20#32 := ⟨c.esp - 20#32, by bv_omega⟩
  have hlow : c.esp - 20 = s := by bv_omega
  rw [hlow] at hapart
  rw [hs] at habove hbelow
  apply eventually_instr hcode
  obtain ⟨c₁, hc₁⟩ : ∃ c₁, (Instr.call target).exec { c with eip := next } = c₁ := ⟨_, rfl⟩
  rw [hc₁]
  have hesp : c₁.esp = s + 16#32 := by
    rw [← hc₁]
    simp only [Instr.exec, Cpu.push, hs]
    bv_omega
  have hmem : c₁.mem = set c.mem (s + 16#32) next := by
    rw [← hc₁]
    simp only [Instr.exec, Cpu.push, hs]
    congr 1
    bv_omega
  have htop : c₁.top = next := by rw [Cpu.top, hesp, hmem, get_set_self]
  have hbase₁ : get c₁.mem base = stub := by
    have hzero : base = base + 0#32 := (BitVec.add_zero base).symm
    rw [hmem, hzero, get_set_part hapart _ _ (by decide) (by decide), ← hzero, hbase]
  have hapart₁ : Apart (c₁.esp - 16) 16 base 4 := by
    have hzero : base = base + 0#32 := (BitVec.add_zero base).symm
    have hlow₁ : c₁.esp - 16 = s + 0#32 := by rw [hesp]; bv_omega
    rw [hlow₁, hzero]
    exact hapart.part (by decide) (by decide) (by norm_num) (by norm_num)
  have hroom₁ : Room top 40 c₁ := by
    constructor
    · rw [hesp]; bv_omega
    · rw [hesp]; bv_omega
  have hcalls := h c₁ (by rw [← hc₁]; rfl) hbase₁ hapart₁ hroom₁ (by rw [← hc₁]; exact heax)
    (by rw [← hc₁]; exact hebx) (by rw [htop]; exact hret)
  refine hcalls.mono ?_
  rintro ⟨c', w'⟩ ⟨hr, hkcall⟩
  rw [htop] at hkcall
  refine ⟨⟨hr.eip.trans htop, ?_, ?_, ?_, ?_, ?_⟩, hkcall⟩
  · rw [hr.esp, hesp, hs]
    bv_omega
  · exact hr.ebp.trans (by rw [← hc₁]; rfl)
  · exact hr.esi.trans (by rw [← hc₁]; rfl)
  · exact hr.edi.trans (by rw [← hc₁]; rfl)
  · intro x hx
    have hout : ¬ In (s + 16#32) 4 x := by
      simp only [In, hs] at hx ⊢
      bv_omega
    have hsame : c₁.mem x.toNat = c.mem x.toNat := by rw [hmem, set_apply _ _ hout]
    refine Eq.trans (hr.stack x ?_) hsame
    simp only [In, hs, hesp] at hx ⊢
    bv_omega

/-- A program without a frame. -/
theorem eventually_plain (pre : List Instr) {d : Word}
    (hp : Placed code c.eip (pre ++ [.call target, .ret]) d) (hstraight : ∀ i ∈ pre, i.Straight)
    (hpre : execs pre c = { c with eax := n, ebx := v })
    (h : CallsKernel K top entry base stub target code w n v arg) (hbase : get c.mem base = stub)
    (hapart : Apart (c.esp - 20) 20 base 4) (hroom : Room top 44 c)
    (hret : ∀ x, ∃ r w', KcallHandle K n arg 0 x w r w') :
    Eventually (Step code (KcallCompiled K top entry)) (fun s =>
      Returned top 0 c s.1 ∧ ∃ x, KcallHandle K n arg 0 x w s.1.eax s.2) (c, w) := by
  obtain ⟨mid, hbody, hrest⟩ := hp.append
  apply eventually_execs hstraight hbody
  rw [hpre]
  cases hrest with
  | @cons _ _ next _ _ hcode hback =>
  have hcall := h.eventually_call (c := { c with eax := n, ebx := v, eip := mid }) hcode hbase
    hapart ⟨hroom.above, hroom.below⟩ rfl rfl (hret next)
  refine hcall.bind ?_
  rintro ⟨c', w'⟩ ⟨hb, hkcall⟩
  have htop : c'.top = c.top := by
    rw [Cpu.top, hb.esp]
    exact hb.get_eq (by simpa using hroom.above)
  cases hback with
  | cons hlast _ =>
      rw [← hb.eip] at hlast
      apply eventually_instr hlast
      refine .now ⟨⟨htop, ?_, hb.ebp, hb.esi, hb.edi, fun x hx => ?_⟩, next, hkcall⟩
      · exact congrArg (· + 4) hb.esp
      · have hesp : c.esp + 0 = c.esp := BitVec.add_zero _
        rw [hesp] at hx
        exact hb.stack x hx

/-- The processor after `push ebp` and `mov ebp, esp`. -/
def framed (c : Cpu) : Cpu :=
  { c with esp := c.esp - 4, ebp := c.esp - 4, mem := set c.mem (c.esp - 4) c.ebp }

/-- Its own first argument, as the program finds it. -/
theorem arg_framed (c : Cpu) :
    get (framed c).mem ((framed c).ebp + 8) = get c.mem (c.esp + 4) := by
  obtain ⟨s, hs⟩ : ∃ s, c.esp = s + 4#32 := ⟨c.esp - 4#32, by bv_omega⟩
  simp (disch := decide) only [framed, hs, sub_eq_add_neg, add_assoc, BitVec.reduceNeg,
    BitVec.reduceAdd, BitVec.ofNat_eq_ofNat, get_set_off]

/-- A program with a frame. -/
theorem eventually_framed (pre : List Instr) {e d : Word}
    (hp : Placed code c.eip
      ([.push .ebp, .mov .ebp .esp] ++ pre ++ [.call target, .pop .ebp, .ret]) d)
    (hstraight : ∀ i ∈ pre, i.Straight)
    (hpre : execs pre (framed c) = { framed c with eax := n, ebx := v, ecx := e })
    (h : CallsKernel K top entry base stub target code w n v arg) (hbase : get c.mem base = stub)
    (hapart : Apart (c.esp - 24) 24 base 4) (hroom : Room top 48 c)
    (hret : ∀ x, ∃ r w', KcallHandle K n arg 0 x w r w') :
    Eventually (Step code (KcallCompiled K top entry)) (fun s =>
      Returned top 0 c s.1 ∧ ∃ x, KcallHandle K n arg 0 x w s.1.eax s.2) (c, w) := by
  obtain ⟨habove, hbelow⟩ := hroom
  obtain ⟨s, hs⟩ : ∃ s, c.esp = s + 24#32 := ⟨c.esp - 24#32, by bv_omega⟩
  have hlow : c.esp - 24 = s := by bv_omega
  have hzero : base = base + 0#32 := (BitVec.add_zero base).symm
  have hesp : c.esp - 4 = s + 20#32 := by bv_omega
  rw [hlow] at hapart
  rw [hs] at habove hbelow
  obtain ⟨mid, hbody, hrest⟩ := hp.append
  have hprologue : ∀ i ∈ [Instr.push .ebp, .mov .ebp .esp], i.Straight := by decide
  apply eventually_execs (List.forall_mem_append.mpr ⟨hprologue, hstraight⟩) hbody
  have hframe : execs ([.push .ebp, .mov .ebp .esp] ++ pre) c =
      { framed c with eax := n, ebx := v, ecx := e } := by
    rw [execs_append, ← hpre]
    rfl
  rw [hframe]
  cases hrest with
  | @cons _ _ next _ _ hcode hback =>
  obtain ⟨c₁, hc₁⟩ : ∃ c₁, ({ framed c with eax := n, ebx := v, ecx := e, eip := mid } : Cpu) = c₁ :=
    ⟨_, rfl⟩
  have hesp₁ : c₁.esp = s + 20#32 := by rw [← hc₁, ← hesp]; rfl
  have hmem₁ : c₁.mem = set c.mem (s + 20#32) c.ebp := by rw [← hc₁, ← hesp]; rfl
  have hbase₁ : get c₁.mem base = stub := by
    rw [hmem₁, hzero, get_set_part hapart _ _ (by decide) (by decide), ← hzero, hbase]
  have hapart₁ : Apart (c₁.esp - 20) 20 base 4 := by
    have hlow₁ : c₁.esp - 20 = s + 0#32 := by rw [hesp₁]; bv_omega
    rw [hlow₁, hzero]
    exact hapart.part (by decide) (by decide) (by norm_num) (by norm_num)
  have hroom₁ : Room top 44 c₁ := by
    constructor
    · rw [hesp₁]; bv_omega
    · rw [hesp₁]; bv_omega
  have hcall := h.eventually_call (by rw [← hc₁]; exact hcode) hbase₁ hapart₁ hroom₁
    (by rw [← hc₁]) (by rw [← hc₁]) (hret next)
  rw [show ({ framed c with eax := n, ebx := v, ecx := e, eip := mid } : Cpu) = c₁ from hc₁]
  refine hcall.bind ?_
  rintro ⟨c', w'⟩ ⟨hb, hkcall⟩
  have hesp' : c'.esp = s + 20#32 := hb.esp.trans hesp₁
  have hebp : get c'.mem (s + 20#32) = c.ebp := by
    rw [hb.get_eq (by rw [hesp₁]; bv_omega), hmem₁, get_set_self]
  have htop : get c'.mem (s + 24#32) = c.top := by
    rw [hb.get_eq (by rw [hesp₁]; bv_omega), hmem₁, Cpu.top, hs]
    simp (disch := decide) only [get_set_off]
  have hback' : Placed code c'.eip ([.pop .ebp] ++ [.ret]) d := by
    rw [hb.eip]
    exact hback
  obtain ⟨mid', htail, hlast⟩ := hback'.append
  apply eventually_execs (by decide) htail
  have hpop : execs [.pop .ebp] c' = { c' with ebp := c.ebp, esp := s + 24#32 } := by
    simp only [execs_cons, execs_nil, Instr.exec, Cpu.set, Cpu.top, hesp', add_assoc,
      BitVec.reduceAdd, BitVec.ofNat_eq_ofNat, hebp]
  rw [hpop]
  cases hlast with
  | cons hlast _ =>
      apply eventually_instr hlast
      refine .now ⟨⟨htop, ?_, rfl, ?_, ?_, fun x hx => ?_⟩, next, hkcall⟩
      · exact congrArg (· + 4) hs.symm
      · exact hb.esi.trans (by rw [← hc₁]; rfl)
      · exact hb.edi.trans (by rw [← hc₁]; rfl)
      · have hout : ¬ In (s + 20#32) 4 x := by
          simp only [In, hs] at hx ⊢
          bv_omega
        have hsame : c₁.mem x.toNat = c.mem x.toNat := by rw [hmem₁, set_apply _ _ hout]
        refine Eq.trans (hb.stack x ?_) hsame
        simp only [In, hs, hesp₁] at hx ⊢
        bv_omega

/-- The function of a call that the table has. -/
theorem kcallHandle_iff {call arg1 arg2 arg3 r : Word} {w' : κ} {f : KernelFunc}
    (h : syscalls[call.toNat]? = some f) :
    KcallHandle K call arg1 arg2 arg3 w r w' ↔ K.run f arg1 arg2 arg3 w r w' := by
  constructor
  · intro hk
    cases hk with
    | invalid hnone _ => exact absurd (h.symm.trans hnone) (by simp)
    | func hsome hr =>
        obtain rfl := Option.some.inj (h.symm.trans hsome)
        exact hr
  · exact .func h

/-- The image of a program in memory and the kernel's entry that it finds there. -/
structure Loaded (code : Word → Option (Instr × Word)) (p : Program) (start base stub entry : Word) :
    Prop where
  program : ∃ a₀ a₁ d d₀ d₁, Placed code start (p.code a₀ a₁) d ∧
    Placed code a₀ (syscall0 base) d₀ ∧ Placed code a₁ (syscall1 base) d₁
  stub : ∃ d, Placed code stub (syscall entry) d
  entry : code entry = none

/-- Each of the programs calls the function that it is for, once, with its own first argument where
it has one, and returns its result with the caller's stack and registers as they were (`ebx` apart). -/
theorem eventually_program (p : Program) (hload : Loaded code p c.eip base stub entry)
    (hbase : get c.mem base = stub) (hapart : Apart (c.esp - 24) 24 base 4) (hroom : Room top 48 c)
    (hret : ∀ x, ∃ r w', K.run p.func (p.arg c) 0 x w r w') :
    Eventually (Step code (KcallCompiled K top entry)) (fun s =>
      Returned top 0 c s.1 ∧ ∃ x, K.run p.func (p.arg c) 0 x w s.1.eax s.2) (c, w) := by
  obtain ⟨⟨a₀, a₁, d, d₀, d₁, hp, h₀, h₁⟩, ⟨d', hstub⟩, hentry⟩ := hload
  have hapart' : Apart (c.esp - 20) 20 base 4 := by
    have hzero : base = base + 0#32 := (BitVec.add_zero base).symm
    have hlow : c.esp - 20 = c.esp - 24 + 4#32 := by bv_omega
    rw [hlow, hzero]
    exact hapart.part (by decide) (by decide) (by norm_num) (by norm_num)
  have hroom' : Room top 44 c := ⟨hroom.above, by have := hroom.below; omega⟩
  -- the two ways from the calls of `kcall_handle` to those of the function
  have hto : ∀ n f a, syscalls[n.toNat]? = some f → (∀ x, ∃ r w', K.run f a 0 x w r w') →
      ∀ x, ∃ r w', KcallHandle K n a 0 x w r w' := by
    intro n f a hf h x
    obtain ⟨r, w', hrun⟩ := h x
    exact ⟨r, w', .func hf hrun⟩
  have hfrom : ∀ n f a, syscalls[n.toNat]? = some f →
      Eventually (Step code (KcallCompiled K top entry)) (fun s =>
        Returned top 0 c s.1 ∧ ∃ x, KcallHandle K n a 0 x w s.1.eax s.2) (c, w) →
      Eventually (Step code (KcallCompiled K top entry)) (fun s =>
        Returned top 0 c s.1 ∧ ∃ x, K.run f a 0 x w s.1.eax s.2) (c, w) := by
    intro n f a hf h
    refine h.mono ?_
    rintro s ⟨hr, x, hk⟩
    exact ⟨hr, x, (kcallHandle_iff hf).mp hk⟩
  cases p with
  | catrd =>
      have hpre : execs [.load .ebx .ebp 8, .movImm .eax 10] (framed c) =
          { framed c with eax := 10, ebx := get c.mem (c.esp + 4), ecx := c.ecx } := by
        rw [← arg_framed c]
        rfl
      exact hfrom 10 _ _ rfl (eventually_framed [.load .ebx .ebp 8, .movImm .eax 10] hp (by decide)
        hpre (callsKernel_syscall1 h₁ hstub hentry) hbase hapart hroom (hto 10 _ _ rfl hret))
  | cls =>
      exact hfrom 3 _ _ rfl (eventually_plain [.movImm .eax 3] hp (by decide) rfl
        (callsKernel_syscall0 h₀ hstub hentry) hbase hapart' hroom' (hto 3 _ _ rfl hret))
  | die =>
      exact hfrom 0 _ _ rfl (eventually_plain [.movImm .eax 0, .movImm .ebx 0xDEAD] hp (by decide)
        rfl (callsKernel_syscall1 h₁ hstub hentry) hbase hapart' hroom' (hto 0 _ _ rfl hret))
  | echo =>
      have hpre : execs [.load .ecx .ebp 12, .load .ebx .ebp 8, .movImm .eax 2] (framed c) =
          { framed c with
            eax := 2
            ebx := get c.mem (c.esp + 4)
            ecx := get (framed c).mem ((framed c).ebp + 12) } := by
        rw [← arg_framed c]
        rfl
      exact hfrom 2 _ _ rfl (eventually_framed _ hp (by decide) hpre
        (callsKernel_syscall1 h₁ hstub hentry) hbase hapart hroom (hto 2 _ _ rfl hret))
  | lsrd =>
      exact hfrom 9 _ _ rfl (eventually_plain [.movImm .eax 9] hp (by decide) rfl
        (callsKernel_syscall0 h₀ hstub hentry) hbase hapart' hroom' (hto 9 _ _ rfl hret))
  | mem =>
      exact hfrom 6 _ _ rfl (eventually_plain [.movImm .eax 6] hp (by decide) rfl
        (callsKernel_syscall0 h₀ hstub hentry) hbase hapart' hroom' (hto 6 _ _ rfl hret))
  | time =>
      exact hfrom 5 _ _ rfl (eventually_plain [.movImm .eax 5] hp (by decide) rfl
        (callsKernel_syscall0 h₀ hstub hentry) hbase hapart' hroom' (hto 5 _ _ rfl hret))

/-- A kernel that keeps a record of the calls. -/
def recording : Kernel (List (KernelFunc × Word)) where
  run f arg1 _ _ w r w' := r = 0 ∧ w' = w ++ [(f, arg1)]
  printInvalid _ w w' := w' = w

/-- `echo` with `syscall` and the two functions behind it, an address for each instruction. -/
def echoCode (a : Word) : Option (Instr × Word) :=
  (codeAt 0x100040 (syscall 0x101000) a).or
    (codeAt 0x100060 (Program.echo.code 0x100068 0x10006E ++ syscall0 0x100080 ++
      syscall1 0x100080) a)

/-- The shell calls `echo` with a string at `0x300000`. -/
def callingEcho : Cpu where
  eax := 1
  ecx := 2
  edx := 3
  ebx := 4
  esp := 0x205000
  ebp := 5
  esi := 6
  edi := 7
  eip := 0x100060
  eflags := 0x202
  cr3 := 0
  mem := set (set (set (fun _ => 0) 0x100080 0x100040) 0x205000 0x102000) 0x205004 0x300000

theorem loaded_echo : Loaded echoCode .echo 0x100060 0x100080 0x100040 0x101000 := by
  constructor
  case program =>
    refine ⟨0x100068, 0x10006E, 0x100068, 0x10006E, 0x100074, ?_, ?_, ?_⟩
    all_goals repeat first | exact .nil _ | refine .cons rfl ?_
  case stub =>
    refine ⟨0x10004A, ?_⟩
    repeat first | exact .nil _ | refine .cons rfl ?_
  case entry => rfl

theorem eventually_program_echo :
    Eventually (Step echoCode (KcallCompiled recording 0x206000 0x101000)) (fun s =>
      Returned 0x206000 0 callingEcho s.1 ∧
        ∃ x, recording.run .termWritestring 0x300000 0 x [] s.1.eax s.2) (callingEcho, []) := by
  have harg : Program.arg callingEcho .echo = 0x300000 := by decide +kernel
  rw [← harg]
  exact eventually_program .echo loaded_echo (by decide +kernel) (by decide)
    ⟨by decide, by decide⟩ fun x => ⟨0, _, rfl, rfl⟩

end Programs

end Owmice.X86
