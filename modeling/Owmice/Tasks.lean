import Owmice.Links
import Owmice.Memory
import Owmice.Runs

/-! # The tasks (`system/task.h`)

The tasks are a doubly linked ring with the kernel thread `task_main` as its head, and a pointer
to the last task.  A task is known by its address; the memory of a task that is not in the ring
belongs to its owner.  `task_switch` is a function that returns to its caller, when the caller is
switched to again: what it does to the state is to save the registers of the processor and to load
others.

* `view_taskSpawn`, `view_taskKill`: the links, ids and pointers after a task has been spawned or
  killed; every other call leaves them alone. -/

namespace Owmice

/-- `task_regs_t`. -/
structure TaskRegs where
  eax : UInt32
  ebx : UInt32
  ecx : UInt32
  edx : UInt32
  esi : UInt32
  edi : UInt32
  esp : UInt32
  ebp : UInt32
  eip : UInt32
  eflags : UInt32
  cr3 : UInt32
deriving DecidableEq, Inhabited

/-- `task_t`. -/
structure Task where
  id : ℕ
  sleeptime : ℕ
  regs : TaskRegs
  entrypoint : UInt32
  next : ℕ
  prev : ℕ
deriving DecidableEq, Inhabited

/-- The tasks in memory, `task_current`, `task_last`, `lid`, `skip`, the registers of the processor
and the fields of `regdump` that `get_regs` writes. -/
structure Sched where
  task : ℕ → Task
  current : ℕ
  last : ℕ
  lid : ℕ
  skip : Bool
  cpu : TaskRegs
  regdump : TaskRegs

namespace Sched

/-- A write to the task at `t`. -/
def write (s : Sched) (t : ℕ) (f : Task → Task) : Sched :=
  { s with task := Function.update s.task t (f (s.task t)) }

def setId (s : Sched) (t n : ℕ) : Sched := s.write t fun k => { k with id := n }

def setNext (s : Sched) (t n : ℕ) : Sched := s.write t fun k => { k with next := n }

def setPrev (s : Sched) (t n : ℕ) : Sched := s.write t fun k => { k with prev := n }

def setSleeptime (s : Sched) (t n : ℕ) : Sched := s.write t fun k => { k with sleeptime := n }

def setRegs (s : Sched) (t : ℕ) (regs : TaskRegs) : Sched :=
  s.write t fun k => { k with regs := regs }

def setEntrypoint (s : Sched) (t : ℕ) (entry : UInt32) : Sched :=
  s.write t fun k => { k with entrypoint := entry }

def setCurrent (s : Sched) (t : ℕ) : Sched := { s with current := t }

def setLast (s : Sched) (t : ℕ) : Sched := { s with last := t }

def setLid (s : Sched) (n : ℕ) : Sched := { s with lid := n }

def setSkip (s : Sched) (skip : Bool) : Sched := { s with skip := skip }

/-- The links as functions. -/
def next (s : Sched) (t : ℕ) : ℕ := (s.task t).next

def prev (s : Sched) (t : ℕ) : ℕ := (s.task t).prev

/-- `get_regs`. -/
def getRegs (s : Sched) : Sched :=
  { s with regdump := { s.cpu with eflags := s.regdump.eflags, cr3 := s.regdump.cr3 } }

/-- `save_task_state`. -/
def saveTaskState (s : Sched) : Sched :=
  let s := s.getRegs
  s.setRegs s.current { (s.task s.current).regs with
    eax := s.regdump.eax, ebx := s.regdump.ebx, ecx := s.regdump.ecx, edx := s.regdump.edx
    esi := s.regdump.esi, edi := s.regdump.edi, esp := s.regdump.esp }

/-- `task_switch` between two tasks. -/
def taskSwitch (s : Sched) (src dst : ℕ) : Sched :=
  let s := s.setRegs src s.cpu
  { s with cpu := (s.task dst).regs }

/-- `tasking_pause`; `main` is the address of `task_main`. -/
def taskingPause (main : ℕ) (s : Sched) : Sched :=
  let s := (s.setSkip true).saveTaskState
  s.taskSwitch s.current main

/-- `tasking_resume`. -/
def taskingResume (s : Sched) : Sched := s.setSkip false

/-- `task_yield`. -/
def taskYield (s : Sched) : Sched :=
  if s.skip then s
  else if s.next s.current = s.current then s
  else
    let s := s.saveTaskState
    let last := s.current
    let s := s.setCurrent (s.next s.current)
    let s := if 0 < (s.task s.current).sleeptime then
        (s.setSleeptime s.current ((s.task s.current).sleeptime - 1)).setCurrent last
      else s
    s.taskSwitch last s.current

/-- `task_spawn` of the task at `t`; `amalloc` has returned `stack`. -/
def taskSpawn (main t : ℕ) (entry flags stack : UInt32) (s : Sched) : Sched :=
  let s := s.taskingPause main
  let s := s.setLid (w32 (s.lid + 1))
  let s := s.setId t s.lid
  let s := s.setNext s.last t
  let s := s.setPrev t s.last
  let s := s.setLast t
  let s := s.setRegs t { (s.task t).regs with
    eax := 0, ebx := 0, ecx := 0, edx := 0, esi := 0, cr3 := (s.task main).regs.cr3, edi := 0
    eflags := flags, eip := entry }
  let s := s.setEntrypoint t (s.task t).regs.eip
  let s := s.setRegs t { (s.task t).regs with esp := stack }
  let s := s.setNext t main
  let s := s.setPrev main t
  s.taskingResume.taskYield

/-- `task_sleep`. -/
def taskSleep (t ticks : ℕ) (s : Sched) : Sched := s.setSleeptime t ticks

/-- `task_self_sleep`. -/
def taskSelfSleep (ticks : ℕ) (s : Sched) : Sched := taskSleep s.current ticks s

/-- `task_kill`. -/
def taskKill (main t : ℕ) (s : Sched) : Sched :=
  let s := s.taskingPause main
  let s := if t = s.last then s.setLast (s.prev t) else s
  let s := s.setNext (s.prev t) (s.next t)
  let s := s.setPrev (s.next t) (s.prev t)
  (s.setCurrent main).taskingResume

/-- The loop of `task_kill_pid` at the task `tmp`. -/
def taskKillPidLoop (main pid : ℕ) : ℕ → Bool → ℕ → Sched → Option (Bool × Sched)
  | 0, _, _, _ => none
  | fuel + 1, lst, tmp, s =>
      if lst ∨ tmp ≠ main then
        if (s.task tmp).id = pid then some (true, taskKill main tmp s)
        else taskKillPidLoop main pid fuel false (s.next tmp) s
      else some (false, s)

/-- `task_kill_pid`. -/
def taskKillPid (main pid fuel : ℕ) (s : Sched) : Option (Bool × Sched) :=
  taskKillPidLoop main pid fuel true main s

/-- What `task_list` prints of a task. -/
def listed (s : Sched) (t : ℕ) : ℕ × UInt32 × ℕ :=
  ((s.task t).id, (s.task t).entrypoint, (s.task t).sleeptime)

/-- The loop of `task_list` at the task `tmp`. -/
def taskListLoop (main : ℕ) : ℕ → Bool → ℕ → Sched → Option (List (ℕ × UInt32 × ℕ))
  | 0, _, _, _ => none
  | fuel + 1, lst, tmp, s =>
      if lst ∨ tmp ≠ main then do
        let rest ← taskListLoop main fuel false (s.next tmp) s
        some (s.listed tmp :: rest)
      else some []

/-- `task_list`. -/
def taskList (main fuel : ℕ) (s : Sched) : Option (List (ℕ × UInt32 × ℕ)) :=
  taskListLoop main fuel true main s

/-- `tasking_init`; `kmain` is the address of the function. -/
def taskingInit (main : ℕ) (kmain : UInt32) (s : Sched) : Sched :=
  let s := s.setRegs main { (s.task main).regs with cr3 := s.cpu.cr3, eflags := s.cpu.eflags }
  let s := s.getRegs
  let s := s.setEntrypoint main kmain
  let s := s.setRegs main { (s.task main).regs with
    esp := s.regdump.esp, eip := s.regdump.eip, eax := s.regdump.eax, ebx := s.regdump.ebx
    ecx := s.regdump.ecx, edx := s.regdump.edx, esi := s.regdump.esi, edi := s.regdump.edi }
  let s := s.setSleeptime main 0
  let s := s.setLast main
  let s := s.setId main s.lid
  let s := s.setNext main main
  s.setCurrent main

/-! ### What a call does to the ring -/

/-- What the ring is made of. -/
@[ext] structure RingView where
  next : ℕ → ℕ
  prev : ℕ → ℕ
  id : ℕ → ℕ
  last : ℕ
  lid : ℕ

def view (s : Sched) : RingView :=
  { next := s.next, prev := s.prev, id := fun t => (s.task t).id, last := s.last, lid := s.lid }

section Views

variable (s : Sched) (t n : ℕ)

theorem view_write (f : Task → Task) : (s.write t f).view =
    { s.view with
      next := Function.update s.next t (f (s.task t)).next
      prev := Function.update s.prev t (f (s.task t)).prev
      id := Function.update s.view.id t (f (s.task t)).id } := by
  have hnext : (s.write t f).next = Function.update s.next t (f (s.task t)).next :=
    Function.comp_update Task.next s.task t _
  have hprev : (s.write t f).prev = Function.update s.prev t (f (s.task t)).prev :=
    Function.comp_update Task.prev s.task t _
  have hid : (s.write t f).view.id = Function.update s.view.id t (f (s.task t)).id :=
    Function.comp_update Task.id s.task t _
  rw [← hnext, ← hprev, ← hid]
  rfl

@[simp] theorem view_setNext :
    (s.setNext t n).view = { s.view with next := Function.update s.view.next t n } := by
  rw [setNext, view_write]
  have hid := Function.update_eq_self t s.view.id
  exact RingView.ext rfl (Function.update_eq_self t s.prev) hid rfl rfl

@[simp] theorem view_setPrev :
    (s.setPrev t n).view = { s.view with prev := Function.update s.view.prev t n } := by
  rw [setPrev, view_write]
  have hid := Function.update_eq_self t s.view.id
  exact RingView.ext (Function.update_eq_self t s.next) rfl hid rfl rfl

@[simp] theorem view_setId :
    (s.setId t n).view = { s.view with id := Function.update s.view.id t n } := by
  rw [setId, view_write]
  exact RingView.ext (Function.update_eq_self t s.next) (Function.update_eq_self t s.prev) rfl rfl
    rfl

/-- A write to other fields of a task. -/
theorem view_write_other {f : Task → Task} (hnext : (f (s.task t)).next = (s.task t).next)
    (hprev : (f (s.task t)).prev = (s.task t).prev) (hid : (f (s.task t)).id = (s.task t).id) :
    (s.write t f).view = s.view := by
  rw [view_write, hnext, hprev, hid]
  exact RingView.ext (Function.update_eq_self t s.next) (Function.update_eq_self t s.prev)
    (Function.update_eq_self t s.view.id) rfl rfl

@[simp] theorem view_setSleeptime : (s.setSleeptime t n).view = s.view :=
  view_write_other s t rfl rfl rfl

@[simp] theorem view_setRegs (regs : TaskRegs) : (s.setRegs t regs).view = s.view :=
  view_write_other s t rfl rfl rfl

@[simp] theorem view_setEntrypoint (entry : UInt32) : (s.setEntrypoint t entry).view = s.view :=
  view_write_other s t rfl rfl rfl

@[simp] theorem view_setCurrent : (s.setCurrent t).view = s.view := rfl

@[simp] theorem view_setSkip (skip : Bool) : (s.setSkip skip).view = s.view := rfl

@[simp] theorem view_setLast : (s.setLast t).view = { s.view with last := t } := rfl

@[simp] theorem view_setLid : (s.setLid n).view = { s.view with lid := n } := rfl

@[simp] theorem view_getRegs : s.getRegs.view = s.view := rfl

theorem last_eq : s.last = s.view.last := rfl

theorem lid_eq : s.lid = s.view.lid := rfl

theorem next_eq : s.next = s.view.next := rfl

theorem prev_eq : s.prev = s.view.prev := rfl

@[simp] theorem view_saveTaskState : s.saveTaskState.view = s.view := by
  rw [saveTaskState, view_setRegs, view_getRegs]

@[simp] theorem view_taskSwitch (src dst : ℕ) : (s.taskSwitch src dst).view = s.view :=
  view_setRegs s src s.cpu

@[simp] theorem view_taskingPause (main : ℕ) : (s.taskingPause main).view = s.view := by
  rw [taskingPause, view_taskSwitch, view_saveTaskState, view_setSkip]

@[simp] theorem view_taskingResume : s.taskingResume.view = s.view := rfl

@[simp] theorem view_taskYield : s.taskYield.view = s.view := by
  rw [taskYield]
  split
  · rfl
  split
  · rfl
  rw [view_taskSwitch]
  split
  · rw [view_setCurrent, view_setSleeptime, view_setCurrent, view_saveTaskState]
  · rw [view_setCurrent, view_saveTaskState]

@[simp] theorem view_taskSleep (ticks : ℕ) : (taskSleep t ticks s).view = s.view :=
  view_setSleeptime s t ticks

/-- The ring after a task has been spawned. -/
theorem view_taskSpawn (main : ℕ) (entry flags stack : UInt32) :
    (taskSpawn main t entry flags stack s).view =
      { next := Function.update (Function.update s.next s.last t) t main
        prev := Function.update (Function.update s.prev t s.last) main t
        id := Function.update s.view.id t (w32 (s.lid + 1))
        last := t
        lid := w32 (s.lid + 1) } := by
  simp only [taskSpawn, last_eq, lid_eq, next_eq, prev_eq, view_taskYield, view_taskingResume,
    view_setPrev, view_setNext, view_setRegs, view_setEntrypoint, view_setLast, view_setId,
    view_setLid, view_taskingPause]

/-- The ring after a task has been killed. -/
theorem view_taskKill (main : ℕ) (h : s.prev t ≠ t) :
    (taskKill main t s).view =
      { next := Function.update s.next (s.prev t) (s.next t)
        prev := Function.update s.prev (s.next t) (s.prev t)
        id := s.view.id
        last := if t = s.last then s.prev t else s.last
        lid := s.lid } := by
  obtain ⟨p, hp⟩ : ∃ p, p = s.taskingPause main := ⟨_, rfl⟩
  have hview : p.view = s.view := by rw [hp, view_taskingPause]
  have hlast : p.last = s.last := congrArg RingView.last hview
  have hprev : p.prev = s.prev := congrArg RingView.prev hview
  obtain ⟨q, hq⟩ : ∃ q, q = if t = p.last then p.setLast (p.prev t) else p := ⟨_, rfl⟩
  have hq' : q.view = { s.view with last := if t = s.last then s.prev t else s.last } := by
    rw [hq, hlast, hprev]
    split
    case isTrue ht => rw [view_setLast, hview]
    case isFalse ht => exact hview
  rw [taskKill]
  simp only [← hp, ← hq]
  simp only [next_eq, prev_eq, view_taskingResume, view_setCurrent, view_setPrev, view_setNext, hq']
  rw [Function.update_of_ne (show t ≠ s.view.prev t from h.symm)]
  rfl

end Views

end Sched

end Owmice
