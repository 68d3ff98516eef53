import Owmice.Runs
import Owmice.TaskSwitch
import Owmice.Tasks

/-! # One processor for many tasks

The tasks share a processor; each of them is known by the address of its `task_regs_t`.  The running
task works, and from time to time it calls `task_switch` with the `task_regs_t` of another task.

* `OwnStep`: the tasks as they are meant, each with a processor of its own;
* `processors`: the running task has the processor of the machine, and every other task has what its
  `task_regs_t` holds;
* `run_processors`: whatever the tasks do and in whatever order they run, the machine behaves like
  the processors of the tasks;
* `task_resumes`: so a task that has been switched away from finds its registers again;
* `taskSwitch_refines`: the assembly does to the memory what the model of the scheduler says. -/

namespace Owmice.X86

/-- The context that the processor holds. -/
def cpuContext (c : Cpu) : Context where
  eax := c.eax
  ebx := c.ebx
  ecx := c.ecx
  edx := c.edx
  esi := c.esi
  edi := c.edi
  esp := c.esp
  ebp := c.ebp
  eip := c.eip
  eflags := c.eflags
  cr3 := c.cr3

/-- A context as it looks when it is loaded into a processor with the flags `f`. -/
def Context.loaded (x : Context) (f : Word) : Context :=
  { x with eflags := mergeFlags flagsMask f x.eflags }

/-- A context whose task has returned to the address `r` on top of its stack. -/
def Context.returned (x : Context) (r : Word) : Context := { x with esp := x.esp + 4, eip := r }

theorem mergeFlags_self (mask f : Word) : mergeFlags mask f f = f := by
  ext i hi
  simp only [mergeFlags, BitVec.getElem_or, BitVec.getElem_and, BitVec.getElem_not]
  cases mask[i] <;> simp

variable {ι : Type} [DecidableEq ι]

/-- The machine, and the task that runs on it. -/
structure TaskSys (ι : Type) where
  cpu : Cpu
  running : ι

inductive TaskEvent (ι : Type) where
  | work
  | switch (t : ι)

section System

variable (tcb : ι → Word)

/-- A step of the machine.  The work of a task leaves the `task_regs_t` of the others alone, and no
instruction changes the flags that `popf` does not load. -/
inductive TaskStep : TaskSys ι → TaskEvent ι → TaskSys ι → Prop
  | work {s : TaskSys ι} {c' : Cpu}
      (hkeep : ∀ t, t ≠ s.running → ∀ x, In (tcb t) 44 x → c'.mem x.toNat = s.cpu.mem x.toNat)
      (hflags : ∀ v, mergeFlags flagsMask c'.eflags v = mergeFlags flagsMask s.cpu.eflags v) :
      TaskStep s .work ⟨c', s.running⟩
  | switch {s : TaskSys ι} {t : ι} :
      TaskStep s (.switch t) ⟨Instr.ret.exec (execs taskSwitch s.cpu), t⟩

/-- The `task_regs_t` at `d` lies apart from what a switch from `a` to `b` writes. -/
structure Clear (c : Cpu) (a b d : Word) : Prop where
  regs : Apart d 44 a 44
  stack : Apart d 44 (c.esp - 48) 48
  slot : Apart d 44 ((nextContext c a b).esp - 4) 4

/-- The call of `task_switch` names the two tasks, and neither of the two stacks runs into a
`task_regs_t`. -/
def SwitchGood (s : TaskSys ι) : TaskEvent ι → Prop
  | .work => True
  | .switch t => SwitchOk s.cpu (tcb s.running) (tcb t) ∧
      ∀ u, u ≠ s.running → Clear s.cpu (tcb s.running) (tcb t) (tcb u)

/-- A step of tasks that have a processor each: a task that works changes its own one in any way,
and a call of `task_switch` does no more than return. -/
inductive OwnStep : (ι → Context) × ι → TaskEvent ι → (ι → Context) × ι → Prop
  | work {ctx : ι → Context} {u : ι} (x : Context) :
      OwnStep (ctx, u) .work (Function.update ctx u x, u)
  | switch {ctx : ι → Context} {u t : ι} (r : Word) :
      OwnStep (ctx, u) (.switch t) (Function.update ctx u ((ctx u).returned r), t)

/-- The processors of the tasks, as the machine shows them. -/
def processors (s : TaskSys ι) (t : ι) : Context :=
  if t = s.running then cpuContext s.cpu
  else (readContext s.cpu.mem (tcb t)).loaded s.cpu.eflags

end System

variable {tcb : ι → Word} {s s' : TaskSys ι}

theorem callerContext_eq (c : Cpu) : callerContext c = (cpuContext c).returned c.top := rfl

/-- The context that is left is loaded as it is. -/
theorem callerContext_loaded (c : Cpu) : (callerContext c).loaded c.eflags = callerContext c := by
  have h : (callerContext c).eflags = c.eflags := rfl
  rw [Context.loaded, h, mergeFlags_self, ← h]

section Switched

variable {c c' : Cpu} {a b : Word}

theorem Switched.context (h : Switched c a b c') :
    cpuContext c' = (nextContext c a b).loaded c.eflags := by
  rw [h.cpu]
  rfl

/-- The flags that `popf` does not load are those of before. -/
theorem Switched.flags (h : Switched c a b c') (v : Word) :
    mergeFlags flagsMask c'.eflags v = mergeFlags flagsMask c.eflags v := by
  have hf : c'.eflags = mergeFlags flagsMask c.eflags (nextContext c a b).eflags :=
    congrArg Context.eflags h.context
  rw [hf]
  exact mergeFlags_mergeFlags (by decide) _ _ _

/-- The task that is left waits with the context of its call. -/
theorem Switched.saved_loaded (h : Switched c a b c') :
    (readContext c'.mem a).loaded c'.eflags = callerContext c := by
  rw [h.saved, Context.loaded, h.flags]
  exact callerContext_loaded c

theorem Clear.ne {d : Word} (hd : Clear c a b d) : d ≠ a := by
  rintro rfl
  have hregs := hd.regs.1
  rw [BitVec.sub_self] at hregs
  exact absurd hregs (by decide)

/-- A `task_regs_t` that lies apart is not written. -/
theorem Clear.kept {d : Word} (hd : Clear c a b d) (h : Switched c a b c') :
    readContext c'.mem d = readContext c.mem d := by
  apply readContext_congr
  intro x hx
  apply h.outside
  rintro (hx' | hx' | hx')
  · exact hd.regs.not_in hx' hx
  · exact hd.stack.not_in hx' hx
  · exact hd.slot.not_in hx' hx

/-- A task whose `task_regs_t` is not written goes on waiting. -/
theorem Switched.other_loaded (h : Switched c a b c') {d : Word} (hd : Clear c a b d) :
    (readContext c'.mem d).loaded c'.eflags = (readContext c.mem d).loaded c.eflags := by
  rw [hd.kept h, Context.loaded, Context.loaded, h.flags]

end Switched

theorem processors_running (s : TaskSys ι) :
    processors tcb s s.running = cpuContext s.cpu := if_pos rfl

theorem processors_waiting {t : ι} (ht : t ≠ s.running) :
    processors tcb s t = (readContext s.cpu.mem (tcb t)).loaded s.cpu.eflags := if_neg ht

/-- The context of a call, as its task finds it behind the return. -/
theorem returned_running (s : TaskSys ι) :
    (processors tcb s s.running).returned s.cpu.top = callerContext s.cpu := by
  rw [processors_running, callerContext_eq]

/-- Switching to another task saves the context of the call and brings the waiting one back. -/
theorem processors_switched {c' : Cpu} {t : ι} (hok : SwitchGood tcb s (.switch t))
    (h : Switched s.cpu (tcb s.running) (tcb t) c') :
    processors tcb ⟨c', t⟩ =
      Function.update (processors tcb s) s.running (callerContext s.cpu) := by
  obtain ⟨_, hother⟩ := hok
  funext v
  rcases eq_or_ne v t with rfl | hv
  · rw [processors_running ⟨c', v⟩, h.context]
    rcases eq_or_ne v s.running with rfl | hvu
    · rw [Function.update_self, nextContext, if_pos rfl, callerContext_loaded]
    · rw [Function.update_of_ne hvu, nextContext, if_neg (hother v hvu).ne.symm,
        processors_waiting hvu]
  · rw [processors_waiting (s := ⟨c', t⟩) hv]
    rcases eq_or_ne v s.running with rfl | hvu
    · rw [Function.update_self]
      exact h.saved_loaded
    · rw [Function.update_of_ne hvu, processors_waiting hvu]
      exact h.other_loaded (hother v hvu)

/-- The processors of the tasks follow a step of the machine. -/
theorem step_processors {e : TaskEvent ι} (hg : SwitchGood tcb s e) (hs : TaskStep tcb s e s') :
    OwnStep (processors tcb s, s.running) e (processors tcb s', s'.running) := by
  cases hs with
  | @work c' hkeep hflags =>
      have hupdate : processors tcb ⟨c', s.running⟩ =
          Function.update (processors tcb s) s.running (cpuContext c') := by
        funext t
        rcases eq_or_ne t s.running with rfl | ht
        · rw [Function.update_self]
          exact processors_running ⟨c', s.running⟩
        · rw [Function.update_of_ne ht, processors_waiting ht,
            processors_waiting (s := ⟨c', s.running⟩) ht, readContext_congr (hkeep t ht)]
          simp only [Context.loaded, hflags]
      rw [hupdate]
      exact .work _
  | @switch t =>
      rw [processors_switched hg (switched_taskSwitch hg.1), ← returned_running]
      exact .switch s.cpu.top

/-- Whatever the tasks do and in whatever order they are switched to, the machine behaves as if each
of them had a processor of its own. -/
theorem run_processors {tr : List (TaskSys ι × TaskEvent ι)} (hr : Run (TaskStep tcb) s tr s')
    (hg : ∀ p ∈ tr, SwitchGood tcb p.1 p.2) :
    Run OwnStep (processors tcb s, s.running)
      (tr.map fun p => ((processors tcb p.1, p.1.running), p.2))
      (processors tcb s', s'.running) :=
  hr.map (fun s => (processors tcb s, s.running)) (fun _ _ _ hg hs => step_processors hg hs) hg

/-- A task that does not run keeps its processor as it is. -/
theorem own_run_waiting {ctx ctx' : ι → Context} {u u' t : ι}
    {tr : List (((ι → Context) × ι) × TaskEvent ι)} (hr : Run OwnStep (ctx, u) tr (ctx', u'))
    (ht : ∀ p ∈ tr, p.1.2 ≠ t) : ctx' t = ctx t := by
  refine Run.invariant (I := fun s => s.1 t = ctx t) (G := fun s _ => s.2 ≠ t) ?_ hr rfl ht
  intro s e s' hI hne hs
  cases hs with
  | work x => exact (Function.update_of_ne hne.symm _ _).trans hI
  | switch r => exact (Function.update_of_ne hne.symm _ _).trans hI

/-- A task that calls `task_switch` goes on behind the call with the registers that it had, however
many other tasks have run in between. -/
theorem task_resumes {u : ι} {tr : List (TaskSys ι × TaskEvent ι)}
    (hr : Run (TaskStep tcb) s ((s, .switch u) :: tr) s')
    (hg : ∀ p ∈ (s, .switch u) :: tr, SwitchGood tcb p.1 p.2)
    (haway : ∀ p ∈ tr, p.1.running ≠ s.running) (hback : s'.running = s.running) :
    cpuContext s'.cpu = callerContext s.cpu := by
  cases hr with
  | @cons _ s₁ _ _ _ h₁ hrest =>
      have hgu := hg _ List.mem_cons_self
      have hleft : processors tcb s₁ s.running = callerContext s.cpu := by
        cases h₁ with
        | switch =>
            rw [processors_switched hgu (switched_taskSwitch hgu.1), Function.update_self]
      have hrun := run_processors hrest fun p hp => hg p (List.mem_cons_of_mem _ hp)
      have hkept := own_run_waiting (t := s.running) hrun ?_
      · rw [← processors_running s', hback, hkept, hleft]
      · intro p hp
        obtain ⟨q, hq, rfl⟩ := List.mem_map.mp hp
        exact haway q hq

/-! ### The model of the scheduler -/

/-- The registers as the model of the scheduler has them. -/
def Context.regs (x : Context) : TaskRegs where
  eax := ⟨x.eax⟩
  ebx := ⟨x.ebx⟩
  ecx := ⟨x.ecx⟩
  edx := ⟨x.edx⟩
  esi := ⟨x.esi⟩
  edi := ⟨x.edi⟩
  esp := ⟨x.esp⟩
  ebp := ⟨x.ebp⟩
  eip := ⟨x.eip⟩
  eflags := ⟨x.eflags⟩
  cr3 := ⟨x.cr3⟩

/-- The address of the field `regs` of the task at `t`. -/
def regsOf (t : ℕ) : Word := BitVec.ofNat 32 (t + 8)

/-- The machine, about to switch, holds what the model says of the processor and of the registers of
the tasks, of which the flags are loaded as they are. -/
structure Holds (tasks : Set ℕ) (c : Cpu) (s : Sched) : Prop where
  cpu : s.cpu = (callerContext c).regs
  regs : ∀ t ∈ tasks, (s.task t).regs = (readContext c.mem (regsOf t)).regs
  flags : ∀ t ∈ tasks, (readContext c.mem (regsOf t)).loaded c.eflags =
    readContext c.mem (regsOf t)

/-- The machine after a switch, seen from the task that goes on. -/
structure HoldsAfter (tasks : Set ℕ) (c : Cpu) (s : Sched) : Prop where
  cpu : s.cpu = (cpuContext c).regs
  regs : ∀ t ∈ tasks, (s.task t).regs = (readContext c.mem (regsOf t)).regs

/-- The assembly of `task_switch` does what the model of the scheduler says. -/
theorem taskSwitch_refines {tasks : Set ℕ} {c c' : Cpu} {s : Sched} {src dst : ℕ}
    (h : Holds tasks c s) (hdst : dst ∈ tasks)
    (hsw : Switched c (regsOf src) (regsOf dst) c')
    (hother : ∀ t ∈ tasks, t ≠ src → Clear c (regsOf src) (regsOf dst) (regsOf t)) :
    HoldsAfter tasks c' (s.taskSwitch src dst) := by
  have hregs : ∀ t ∈ tasks, ((s.taskSwitch src dst).task t).regs =
      (readContext c'.mem (regsOf t)).regs := by
    intro t ht
    rcases eq_or_ne t src with rfl | hne
    · rw [hsw.saved, ← h.cpu]
      simp [Sched.taskSwitch, Sched.setRegs, Sched.write]
    · rw [(hother t ht hne).kept hsw, ← h.regs t ht]
      simp [Sched.taskSwitch, Sched.setRegs, Sched.write, hne]
  refine ⟨?_, hregs⟩
  have hcpu : (s.taskSwitch src dst).cpu = ((s.taskSwitch src dst).task dst).regs := rfl
  rw [hcpu, hregs dst hdst, hsw.context, nextContext]
  rcases eq_or_ne dst src with rfl | hne
  · rw [if_pos rfl, hsw.saved, callerContext_loaded]
  · rw [if_neg (hother dst hdst hne).ne.symm, (hother dst hdst hne).kept hsw, h.flags dst hdst]

/-! ### An example -/

/-- Two tasks, of which the first one is about to switch to the second one. -/
def pair : TaskSys Bool := ⟨calling, false⟩

def pairTcb : Bool → Word
  | false => 2000
  | true => 3000

/-- The second task runs. -/
def pair₁ : TaskSys Bool := ⟨Instr.ret.exec (execs taskSwitch calling), true⟩

/-- The processor with a call of `task_switch` by the second task. -/
def callingBack (c : Cpu) : Cpu :=
  { c with
    esp := 4900
    mem := set (set (set c.mem (4900 + 0) 88) (4900 + 4) 3000) (4900 + 8) 2000 }

/-- The second task calls `task_switch`. -/
def pair₂ : TaskSys Bool := ⟨callingBack pair₁.cpu, true⟩

/-- The first task runs again. -/
def pair₃ : TaskSys Bool := ⟨Instr.ret.exec (execs taskSwitch pair₂.cpu), false⟩

theorem step_callingBack (c : Cpu) : TaskStep pairTcb ⟨c, true⟩ .work ⟨callingBack c, true⟩ := by
  refine .work ?_ fun _ => rfl
  intro t ht x hx
  have hstack : ¬ In (4900 : Word) 12 x := by
    cases t with
    | false => exact Apart.not_in (show Apart 4900 12 2000 44 by decide) hx
    | true => exact absurd rfl ht
  simp (disch := decide) only [callingBack, set_apply_part hstack]

theorem run_pair : Run (TaskStep pairTcb) pair
    [(pair, .switch true), (pair₁, .work), (pair₂, .switch false)] pair₃ :=
  .cons .switch (.cons (step_callingBack pair₁.cpu) (.cons .switch (.nil pair₃)))

theorem switchGood_pair : SwitchGood pairTcb pair (.switch true) := by
  refine ⟨⟨by decide +kernel, by decide +kernel, by decide +kernel, by decide +kernel,
    by decide +kernel, by decide +kernel, by decide +kernel⟩, ?_⟩
  intro u hu
  cases u with
  | false => exact absurd rfl hu
  | true => exact ⟨by decide +kernel, by decide +kernel, by decide +kernel⟩

theorem switchGood_pair₂ : SwitchGood pairTcb pair₂ (.switch false) := by
  refine ⟨⟨by decide +kernel, by decide +kernel, by decide +kernel, by decide +kernel,
    by decide +kernel, by decide +kernel, by decide +kernel⟩, ?_⟩
  intro u hu
  cases u with
  | false => exact ⟨by decide +kernel, by decide +kernel, by decide +kernel⟩
  | true => exact absurd rfl hu

theorem run_processors_pair : Run OwnStep (processors pairTcb pair, false)
    [((processors pairTcb pair, false), .switch true), ((processors pairTcb pair₁, true), .work),
      ((processors pairTcb pair₂, true), .switch false)] (processors pairTcb pair₃, false) :=
  run_processors run_pair (by simp [switchGood_pair, switchGood_pair₂, SwitchGood.eq_1])

theorem task_resumes_pair : cpuContext pair₃.cpu = callerContext calling :=
  task_resumes run_pair (by simp [switchGood_pair, switchGood_pair₂, SwitchGood.eq_1])
    (by simp [pair, pair₁, pair₂]) rfl

/-- The two tasks as the model of the scheduler has them. -/
def pairSched : Sched where
  task t := { (default : Task) with regs := (readContext calling.mem (regsOf t)).regs }
  current := 1992
  last := 2992
  lid := 1
  skip := false
  cpu := (callerContext calling).regs
  regdump := default

theorem taskSwitch_refines_pair :
    HoldsAfter {1992, 2992} pair₁.cpu (pairSched.taskSwitch 1992 2992) := by
  have hsw := switched_taskSwitch switchGood_pair.1
  refine @taskSwitch_refines {1992, 2992} calling _ pairSched 1992 2992
    ⟨rfl, fun t _ => rfl, ?_⟩ (.inr rfl) hsw ?_
  · rintro t (rfl | rfl) <;> decide +kernel
  · rintro t (rfl | rfl) hne
    · exact absurd rfl hne
    · exact switchGood_pair.2 true (by decide)

end Owmice.X86
