import Owmice.Tasks

/-! # The ring of tasks over whole runs

The abstract scheduler is the list of the live tasks in the order in which they were spawned, each
with the number of its spawn.

* `TasksOf`: the state of the scheduler for a list of live tasks, kept by every call
  (`tasksOf_step`);
* `taskKillPid_eq`, `taskList_eq`: the two traversals of the ring end;
* `intact_of_run`: the ring after every sequence of calls;
* `taskYield_awake_iff`: when the task that `task_yield` chooses is awake. -/

namespace Owmice

/-- How many tasks have been spawned, and the live ones: address and number. -/
structure Live where
  spawned : ℕ
  tasks : List (ℕ × ℕ)

namespace Live

def addresses (a : Live) : List ℕ := a.tasks.map Prod.fst

def ids (a : Live) : List ℕ := a.tasks.map Prod.snd

def spawn (a : Live) (t : ℕ) : Live :=
  { spawned := a.spawned + 1, tasks := a.tasks ++ [(t, a.spawned + 1)] }

def kill (a : Live) (t : ℕ) : Live := { a with tasks := a.tasks.eraseP fun x => x.1 = t }

/-- Kill the task that has this number, if there is one. -/
def killPid (a : Live) (pid : ℕ) : Live :=
  match a.tasks.find? fun x => x.2 = pid with
  | some x => a.kill x.1
  | none => a

@[simp] theorem spawned_kill (a : Live) (t : ℕ) : (a.kill t).spawned = a.spawned := rfl

@[simp] theorem addresses_spawn (a : Live) (t : ℕ) :
    (a.spawn t).addresses = a.addresses ++ [t] := by
  simp [addresses, spawn]

@[simp] theorem ids_spawn (a : Live) (t : ℕ) : (a.spawn t).ids = a.ids ++ [a.spawned + 1] := by
  simp [ids, spawn]

@[simp] theorem addresses_kill (a : Live) (t : ℕ) : (a.kill t).addresses = a.addresses.erase t := by
  rw [addresses, kill, addresses, List.erase_eq_eraseP', List.eraseP_map]
  rfl

theorem mem_tasks_of_kill {a : Live} {t : ℕ} {x : ℕ × ℕ} (h : x ∈ (a.kill t).tasks) : x ∈ a.tasks :=
  List.mem_of_mem_eraseP h

theorem ids_kill_nodup {a : Live} (h : a.ids.Nodup) (t : ℕ) : (a.kill t).ids.Nodup :=
  h.sublist (List.eraseP_sublist.map Prod.snd)

end Live

open Sched

/-- The state of the scheduler for a list of live tasks. -/
structure TasksOf (main : ℕ) (s : Sched) (a : Live) : Prop where
  ring : (a.spawned = 0 ∧ a.addresses = [] ∧ s.next main = main) ∨
    (0 < a.spawned ∧ Ring s.next s.prev main a.addresses)
  last : s.last = (main :: a.addresses).getLast (List.cons_ne_nil _ _)
  lid : s.lid = a.spawned
  bound : a.spawned < 4294967296
  mainId : (s.task main).id = 0
  ids : ∀ x ∈ a.tasks, (s.task x.1).id = x.2 ∧ 0 < x.2 ∧ x.2 ≤ a.spawned
  distinct : a.ids.Nodup

/-- The calls. -/
inductive Call where
  | spawn (t : ℕ) (entry flags stack : UInt32)
  | kill (t : ℕ)
  | killPid (pid : ℕ)
  | yield
  | sleep (t ticks : ℕ)

/-- One call, on the scheduler and on the list of live tasks.  A task is spawned that is not in the
ring, fewer than `2 ^ 32` are, a live one is killed, and the kernel thread is not. -/
inductive Step (main : ℕ) : Sched × Live → Call → Sched × Live → Prop
  | spawn {s : Sched} {a : Live} {t : ℕ} (entry flags stack : UInt32) (ht : t ∉ main :: a.addresses)
      (hcount : a.spawned + 1 < 4294967296) :
      Step main (s, a) (.spawn t entry flags stack)
        (taskSpawn main t entry flags stack s, a.spawn t)
  | kill {s : Sched} {a : Live} {t : ℕ} (ht : t ∈ a.addresses) :
      Step main (s, a) (.kill t) (taskKill main t s, a.kill t)
  | killPid {s s' : Sched} {a : Live} {pid fuel : ℕ} {found : Bool} (hpid : pid ≠ (s.task main).id)
      (h : taskKillPid main pid fuel s = some (found, s')) :
      Step main (s, a) (.killPid pid) (s', a.killPid pid)
  | yield {s : Sched} {a : Live} : Step main (s, a) .yield (s.taskYield, a)
  | sleep {s : Sched} {a : Live} (t ticks : ℕ) :
      Step main (s, a) (.sleep t ticks) (taskSleep t ticks s, a)

/-! ### Every call keeps the ring -/

section Invariant

variable {main : ℕ} {s s' : Sched} {a : Live} {t : ℕ}

theorem TasksOf.nodup (h : TasksOf main s a) : (main :: a.addresses).Nodup := by
  rcases h.ring with ⟨-, hnil, -⟩ | ⟨-, hring⟩
  · rw [hnil]
    exact List.nodup_singleton main
  · exact hring.nodup

/-- The links forward, with or without a task. -/
theorem TasksOf.forward (h : TasksOf main s a) :
    (main :: (a.addresses ++ [main])).IsChain fun x y => s.next x = y := by
  rcases h.ring with ⟨-, hnil, hmain⟩ | ⟨-, hring⟩
  · rw [hnil]
    exact List.isChain_pair.mpr hmain
  · exact hring.linked.forward

/-- The links without the way back to the kernel thread. -/
theorem TasksOf.linked (h : TasksOf main s a) : Linked s.next s.prev (main :: a.addresses) := by
  rcases h.ring with ⟨-, hnil, -⟩ | ⟨-, hring⟩
  · rw [hnil]
    exact .singleton main
  · have hlinked := hring.linked
    rw [← List.cons_append] at hlinked
    exact List.IsChain.left_of_append hlinked

theorem TasksOf.ring_of_mem (h : TasksOf main s a) (ht : t ∈ a.addresses) :
    0 < a.spawned ∧ Ring s.next s.prev main a.addresses := by
  rcases h.ring with ⟨-, hnil, -⟩ | hring
  · rw [hnil] at ht
    cases ht
  · exact hring

/-- The state depends on the view alone. -/
theorem TasksOf.congr (h : TasksOf main s a) (hview : s'.view = s.view) : TasksOf main s' a := by
  have hnext : s'.next = s.next := congrArg RingView.next hview
  have hprev : s'.prev = s.prev := congrArg RingView.prev hview
  have hid : ∀ x, (s'.task x).id = (s.task x).id := congrFun (congrArg RingView.id hview)
  have hlast : s'.last = s.last := congrArg RingView.last hview
  have hlid : s'.lid = s.lid := congrArg RingView.lid hview
  refine ⟨?_, hlast.trans h.last, hlid.trans h.lid, h.bound, ?_, ?_, h.distinct⟩
  · rw [hnext, hprev]
    exact h.ring
  · rw [hid]
    exact h.mainId
  · intro x hx
    rw [hid]
    exact h.ids x hx

theorem tasksOf_init (kmain : UInt32) {s : Sched} (hlid : s.lid = 0) :
    TasksOf main (taskingInit main kmain s) { spawned := 0, tasks := [] } := by
  have hview : (taskingInit main kmain s).view =
      { next := Function.update s.next main main, prev := s.prev
        id := Function.update s.view.id main s.lid, last := main, lid := s.lid } := by
    simp only [taskingInit, lid_eq, next_eq, prev_eq, view_setCurrent, view_setNext, view_setId,
      view_setLast, view_setSleeptime, view_setRegs, view_setEntrypoint, view_getRegs]
  refine ⟨.inl ⟨rfl, rfl, ?_⟩, congrArg RingView.last hview,
    (congrArg RingView.lid hview).trans hlid, by norm_num, ?_,
    fun x hx => absurd hx List.not_mem_nil, List.nodup_nil⟩
  · have hnext := congrFun (congrArg RingView.next hview) main
    exact hnext.trans (Function.update_self _ _ _)
  · have hid := congrFun (congrArg RingView.id hview) main
    exact hid.trans ((Function.update_self _ _ _).trans hlid)

theorem tasksOf_spawn (h : TasksOf main s a) (ht : t ∉ main :: a.addresses)
    (hcount : a.spawned + 1 < 4294967296) (entry flags stack : UInt32) :
    TasksOf main (taskSpawn main t entry flags stack s) (a.spawn t) := by
  have hview := view_taskSpawn s t main entry flags stack
  have hnumber : w32 (s.lid + 1) = a.spawned + 1 := by rw [h.lid, w32_of_lt hcount]
  rw [hnumber] at hview
  have hid : ∀ x ≠ t, ((taskSpawn main t entry flags stack s).task x).id = (s.task x).id := by
    intro x hx
    have hid := congrFun (congrArg RingView.id hview) x
    exact hid.trans (Function.update_of_ne hx _ _)
  refine ⟨.inr ⟨Nat.succ_pos _, ?_⟩, ?_, congrArg RingView.lid hview, hcount, ?_, ?_, ?_⟩
  · rw [next_eq, prev_eq, hview, Live.addresses_spawn]
    exact ring_snoc h.linked h.nodup ht h.last
  · rw [last_eq, hview]
    simp
  · rw [hid main (fun he => ht (he ▸ List.mem_cons_self))]
    exact h.mainId
  · intro x hx
    rcases List.mem_append.mp hx with hold | hnew
    · have hxt : x.1 ≠ t := by
        rintro rfl
        exact ht (List.mem_cons_of_mem _ (List.mem_map_of_mem hold))
      obtain ⟨hxid, hpos, hle⟩ := h.ids x hold
      rw [hid x.1 hxt]
      exact ⟨hxid, hpos, Nat.le_succ_of_le hle⟩
    · rw [List.mem_singleton.mp hnew]
      have hid := congrFun (congrArg RingView.id hview) t
      exact ⟨hid.trans (Function.update_self _ _ _), Nat.succ_pos _, le_rfl⟩
  · rw [Live.ids_spawn]
    refine h.distinct.append (List.nodup_singleton _) ?_
    intro n hn hnew
    obtain ⟨x, hx, rfl⟩ := List.mem_map.mp hn
    have hle := (h.ids x hx).2.2
    rw [List.mem_singleton.mp hnew] at hle
    omega

theorem tasksOf_kill (h : TasksOf main s a) (ht : t ∈ a.addresses) :
    TasksOf main (taskKill main t s) (a.kill t) := by
  obtain ⟨hpos, hring⟩ := h.ring_of_mem ht
  have hview := view_taskKill s t main (hring.prev_ne ht)
  have hid : ∀ x, ((taskKill main t s).task x).id = (s.task x).id :=
    congrFun (congrArg RingView.id hview)
  refine ⟨.inr ⟨hpos, ?_⟩, ?_, (congrArg RingView.lid hview).trans h.lid, h.bound, ?_, ?_,
    Live.ids_kill_nodup h.distinct t⟩
  · rw [next_eq, prev_eq, hview, Live.addresses_kill]
    exact hring.erase ht
  · rw [last_eq, hview]
    simp only [Live.addresses_kill]
    rw [hring.getLast_erase ht, h.last]
  · rw [hid]
    exact h.mainId
  · intro x hx
    rw [hid]
    exact h.ids x (Live.mem_tasks_of_kill hx)

end Invariant

/-! ### The traversals -/

section Traversals

variable {main pid : ℕ} {s : Sched} {a : Live}

/-- The loop of `task_kill_pid` on what is left of the ring. -/
theorem taskKillPidLoop_eq : ∀ {l : List ℕ} {fuel tmp : ℕ}, l.length < fuel →
    (∀ x ∈ l, x ≠ main) → ((l ++ [main]).IsChain fun x y => s.next x = y) →
      (l ++ [main]).head? = some tmp →
        taskKillPidLoop main pid fuel false tmp s =
          some ((l.find? fun x => (s.task x).id = pid).elim (false, s)
            fun x => (true, taskKill main x s))
  | _, 0, _, hfuel, _, _, _ => absurd hfuel (Nat.not_lt_zero _)
  | [], fuel + 1, tmp, _, _, _, hhead => by
      obtain rfl : main = tmp := Option.some.inj hhead
      rw [taskKillPidLoop, if_neg (by simp)]
      rfl
  | x :: l, fuel + 1, tmp, hfuel, hne, hchain, hhead => by
      obtain rfl : x = tmp := Option.some.inj hhead
      obtain ⟨y, rest, hy⟩ := List.exists_cons_of_ne_nil (show l ++ [main] ≠ [] by simp)
      rw [List.cons_append, hy] at hchain
      obtain ⟨hxy, hchain⟩ := List.isChain_cons_cons.mp hchain
      rw [taskKillPidLoop, if_pos (.inr (hne x List.mem_cons_self))]
      by_cases hid : (s.task x).id = pid
      · rw [if_pos hid, List.find?_cons_of_pos (by simpa using hid)]
        rfl
      · rw [if_neg hid, List.find?_cons_of_neg (by simpa using hid), hxy]
        refine taskKillPidLoop_eq (Nat.lt_of_succ_lt_succ hfuel) ?_ (by rwa [hy]) (by rw [hy]; rfl)
        exact fun z hz => hne z (List.mem_cons_of_mem _ hz)

/-- The loop of `task_list` on what is left of the ring. -/
theorem taskListLoop_eq : ∀ {l : List ℕ} {fuel tmp : ℕ}, l.length < fuel →
    (∀ x ∈ l, x ≠ main) → ((l ++ [main]).IsChain fun x y => s.next x = y) →
      (l ++ [main]).head? = some tmp →
        taskListLoop main fuel false tmp s = some (l.map s.listed)
  | _, 0, _, hfuel, _, _, _ => absurd hfuel (Nat.not_lt_zero _)
  | [], fuel + 1, tmp, _, _, _, hhead => by
      obtain rfl : main = tmp := Option.some.inj hhead
      rw [taskListLoop, if_neg (by simp)]
      rfl
  | x :: l, fuel + 1, tmp, hfuel, hne, hchain, hhead => by
      obtain rfl : x = tmp := Option.some.inj hhead
      obtain ⟨y, rest, hy⟩ := List.exists_cons_of_ne_nil (show l ++ [main] ≠ [] by simp)
      rw [List.cons_append, hy] at hchain
      obtain ⟨hxy, hchain⟩ := List.isChain_cons_cons.mp hchain
      rw [taskListLoop, if_pos (.inr (hne x List.mem_cons_self)), hxy,
        taskListLoop_eq (Nat.lt_of_succ_lt_succ hfuel)
          (fun z hz => hne z (List.mem_cons_of_mem _ hz)) (by rwa [hy]) (by rw [hy]; rfl)]
      rfl

/-- The kernel thread comes first, and is not asked for its id again. -/
theorem TasksOf.traversed (h : TasksOf main s a) :
    (∀ x ∈ a.addresses, x ≠ main) ∧ ((a.addresses ++ [main]).IsChain fun x y => s.next x = y) ∧
      (a.addresses ++ [main]).head? = some (s.next main) := by
  have hchain := h.forward
  have hnodup := h.nodup
  obtain ⟨y, rest, hy⟩ := List.exists_cons_of_ne_nil (show a.addresses ++ [main] ≠ [] by simp)
  rw [hy, List.isChain_cons_cons] at hchain
  rw [hy, hchain.1]
  refine ⟨?_, hchain.2, rfl⟩
  rintro x hx rfl
  exact (List.nodup_cons.mp hnodup).1 hx

/-- The live task that has an id, in the list of live tasks. -/
theorem TasksOf.find_eq (h : TasksOf main s a) (pid : ℕ) :
    (a.addresses.find? fun x => (s.task x).id = pid) =
      (a.tasks.find? fun x => x.2 = pid).map Prod.fst := by
  rw [Live.addresses, List.find?_map]
  congr 1
  apply List.find?_congr
  intro x hx
  simp only [Function.comp_apply, (h.ids x hx).1]

/-- `task_kill_pid` kills the live task that has the id, if there is one. -/
theorem taskKillPid_eq (h : TasksOf main s a) (hpid : pid ≠ (s.task main).id) {fuel : ℕ}
    (hfuel : a.addresses.length + 1 < fuel) :
    taskKillPid main pid fuel s =
      some ((a.tasks.find? fun x => x.2 = pid).elim (false, s)
        fun x => (true, taskKill main x.1 s)) := by
  obtain ⟨hne, hchain, hhead⟩ := h.traversed
  obtain ⟨fuel, rfl⟩ : ∃ n, fuel = n + 1 := ⟨fuel - 1, by omega⟩
  rw [taskKillPid, taskKillPidLoop, if_pos (.inl rfl), if_neg hpid.symm,
    taskKillPidLoop_eq (by omega) hne hchain hhead, h.find_eq]
  cases a.tasks.find? fun x => x.2 = pid <;> rfl

/-- More rounds do not change a result. -/
theorem taskKillPidLoop_mono {fuel : ℕ} {lst : Bool} {tmp : ℕ} {r : Bool × Sched}
    (h : taskKillPidLoop main pid fuel lst tmp s = some r) (n : ℕ) :
    taskKillPidLoop main pid (fuel + n) lst tmp s = some r := by
  induction fuel generalizing lst tmp with
  | zero => cases h
  | succ fuel ih =>
      rw [taskKillPidLoop] at h
      rw [Nat.add_right_comm, taskKillPidLoop]
      split_ifs at h ⊢ with hmore hid
      · exact h
      · exact ih h
      · exact h

theorem taskKillPid_cases (h : TasksOf main s a) (hpid : pid ≠ (s.task main).id) {fuel : ℕ}
    {found : Bool} {s' : Sched} (hrun : taskKillPid main pid fuel s = some (found, s')) :
    (found, s') = (a.tasks.find? fun x => x.2 = pid).elim (false, s)
      fun x => (true, taskKill main x.1 s) := by
  have hmore := taskKillPidLoop_mono hrun (a.addresses.length + 2)
  have heq := taskKillPid_eq h hpid (show a.addresses.length + 1 <
    fuel + (a.addresses.length + 2) by omega)
  exact Option.some.inj (hmore.symm.trans heq)

theorem tasksOf_killPid (h : TasksOf main s a) (pid : ℕ) :
    TasksOf main ((a.tasks.find? fun x => x.2 = pid).elim (false, s)
      fun x => (true, taskKill main x.1 s)).2 (a.killPid pid) := by
  rw [Live.killPid]
  cases hfind : a.tasks.find? fun x => x.2 = pid with
  | none => exact h
  | some x => exact tasksOf_kill h (List.mem_map_of_mem (List.mem_of_find?_eq_some hfind))

/-- `task_list` prints the kernel thread and every live task. -/
theorem taskList_eq (h : TasksOf main s a) {fuel : ℕ} (hfuel : a.addresses.length + 1 < fuel) :
    taskList main fuel s = some ((main :: a.addresses).map s.listed) := by
  obtain ⟨hne, hchain, hhead⟩ := h.traversed
  obtain ⟨fuel, rfl⟩ : ∃ n, fuel = n + 1 := ⟨fuel - 1, by omega⟩
  rw [taskList, taskListLoop, if_pos (.inl rfl), taskListLoop_eq (by omega) hne hchain hhead]
  rfl

end Traversals

/-! ### Runs -/

section Runs

variable {main : ℕ} {s : Sched} {a : Live}

theorem tasksOf_step {p p' : Sched × Live} {e : Call} (h : TasksOf main p.1 p.2)
    (hstep : Step main p e p') : TasksOf main p'.1 p'.2 := by
  cases hstep with
  | spawn entry flags stack ht hcount => exact tasksOf_spawn h ht hcount entry flags stack
  | kill ht => exact tasksOf_kill h ht
  | @killPid s s' a pid fuel found hpid hrun =>
      have hresult := tasksOf_killPid h pid
      rw [← taskKillPid_cases h hpid hrun] at hresult
      exact hresult
  | yield => exact h.congr (view_taskYield _)
  | sleep t ticks => exact h.congr (view_taskSleep _ t ticks)

theorem tasksOf_of_run {s₀ : Sched} (hlid : s₀.lid = 0) (kmain : UInt32)
    {tr : List ((Sched × Live) × Call)} {p : Sched × Live}
    (h : Run (Step main) (taskingInit main kmain s₀, ⟨0, []⟩) tr p) :
    TasksOf main p.1 p.2 :=
  h.invariant (I := fun p => TasksOf main p.1 p.2) (G := fun _ _ => True)
    (fun _ _ _ hI _ hstep => tasksOf_step hI hstep) (tasksOf_init kmain hlid) fun _ _ => trivial

/-- Following `next` from `main` visits it and the tasks `l` once each, in this order, and
returns. -/
structure Visits (main : ℕ) (s : Sched) (l : List ℕ) : Prop where
  visits : ∀ (i : ℕ) (hi : i < (main :: l).length), s.next^[i] main = (main :: l)[i]
  returns : s.next^[(main :: l).length] main = main
  once : (main :: l).Nodup

/-- The ring is intact: its links, the last task, the ids, and the two traversals. -/
structure Intact (main : ℕ) (s : Sched) (a : Live) : Prop where
  visits : Visits main s a.addresses
  inverse : 0 < a.spawned → ∀ t ∈ main :: a.addresses, s.prev (s.next t) = t ∧ s.next (s.prev t) = t
  last : s.last = (main :: a.addresses).getLast (List.cons_ne_nil _ _)
  ids : ∀ x ∈ a.tasks, (s.task x.1).id = x.2
  distinct : a.ids.Nodup
  killPid : ∀ pid, pid ≠ (s.task main).id → ∀ fuel, a.addresses.length + 1 < fuel →
    ∃ found s', taskKillPid main pid fuel s = some (found, s') ∧
      (found = true ↔ ∃ t ∈ a.addresses, (s.task t).id = pid) ∧
      Visits main s' (a.killPid pid).addresses
  list : ∀ fuel, a.addresses.length + 1 < fuel →
    taskList main fuel s = some ((main :: a.addresses).map s.listed)

theorem TasksOf.visits (h : TasksOf main s a) : Visits main s a.addresses where
  visits i hi := by
    have hwalk := iterate_of_isChain h.forward i (by simp at hi ⊢; omega)
    rw [hwalk]
    exact List.getElem_append_left (show i < (main :: a.addresses).length from hi)
  returns := by
    have hwalk := iterate_of_isChain h.forward (main :: a.addresses).length (by simp)
    rw [hwalk]
    simp
  once := h.nodup

theorem TasksOf.intact (h : TasksOf main s a) : Intact main s a where
  visits := h.visits
  inverse hpos t ht := by
    rcases h.ring with ⟨hzero, -⟩ | ⟨-, hring⟩
    · omega
    · exact hring.inverse ht
  last := h.last
  ids x hx := (h.ids x hx).1
  distinct := h.distinct
  killPid pid hpid fuel hfuel := by
    refine ⟨_, _, taskKillPid_eq h hpid hfuel, ?_, (tasksOf_killPid h pid).visits⟩
    have hlive : (∃ t ∈ a.addresses, (s.task t).id = pid) ↔
        (a.tasks.find? fun x => x.2 = pid).isSome := by
      rw [← Option.isSome_map (f := Prod.fst), ← h.find_eq, List.find?_isSome]
      simp only [decide_eq_true_eq]
    rw [hlive]
    cases a.tasks.find? fun x => x.2 = pid with
    | none => exact iff_of_false Bool.false_ne_true Bool.false_ne_true
    | some x => exact iff_of_true rfl rfl
  list _ hfuel := taskList_eq h hfuel

/-- After `tasking_init`, every sequence of calls leaves the ring intact. -/
theorem intact_of_run {s₀ : Sched} (hlid : s₀.lid = 0) {kmain : UInt32}
    {tr : List ((Sched × Live) × Call)}
    (h : Run (Step main) (taskingInit main kmain s₀, ⟨0, []⟩) tr (s, a)) : Intact main s a :=
  (tasksOf_of_run hlid kmain h).intact

/-- The static data before `tasking_init`. -/
def blank : Sched where
  task _ := default
  current := 0
  last := 0
  lid := 0
  skip := false
  cpu := default
  regdump := default

/-- What a call leads to, when it returns. -/
def Call.next (main : ℕ) (x : Sched × Live) : Call → Sched × Live
  | .spawn t entry flags stack => (taskSpawn main t entry flags stack x.1, x.2.spawn t)
  | .kill t => (taskKill main t x.1, x.2.kill t)
  | .killPid pid => (((taskKillPid main pid 9 x.1).map Prod.snd).getD x.1, x.2.killPid pid)
  | .yield => (x.1.taskYield, x.2)
  | .sleep t ticks => (taskSleep t ticks x.1, x.2)

/-- The call is one that the scheduler is made for, and returns. -/
def Call.Enabled (main : ℕ) (x : Sched × Live) : Call → Prop
  | .spawn t _ _ _ => t ∉ main :: x.2.addresses ∧ x.2.spawned + 1 < 4294967296
  | .kill t => t ∈ x.2.addresses
  | .killPid pid => pid ≠ (x.1.task main).id ∧ (taskKillPid main pid 9 x.1).isSome
  | _ => True

instance (main : ℕ) (x : Sched × Live) : (c : Call) → Decidable (c.Enabled main x)
  | .spawn _ _ _ _ => inferInstanceAs (Decidable (_ ∧ _))
  | .kill t => inferInstanceAs (Decidable (t ∈ x.2.addresses))
  | .killPid _ => inferInstanceAs (Decidable (_ ∧ _))
  | .yield => inferInstanceAs (Decidable True)
  | .sleep _ _ => inferInstanceAs (Decidable True)

theorem Step.next {x : Sched × Live} {c : Call} (h : c.Enabled main x) :
    Step main x c (c.next main x) := by
  cases c with
  | spawn t entry flags stack => exact .spawn entry flags stack h.1 h.2
  | kill t => exact .kill h
  | killPid pid =>
      obtain ⟨⟨found, s'⟩, hs⟩ := Option.isSome_iff_exists.mp h.2
      simp only [Call.next, hs]
      exact .killPid h.1 hs
  | yield => exact .yield
  | sleep t ticks => exact .sleep t ticks

/-- Five tasks are spawned; the first one, one in the middle, and with its number the last one
are killed, and the first one is spawned again. -/
def spawnsAndKills : List Call :=
  [.spawn 200 0 0 0, .spawn 300 0 0 0, .spawn 400 0 0 0, .spawn 500 0 0 0, .spawn 600 0 0 0,
    .yield, .kill 200, .sleep 300 5, .kill 400, .yield, .killPid 5, .spawn 200 0 0 0]

/-- The theorem for these calls. -/
theorem intact_of_run_calls :
    (spawnsAndKills.foldl (Call.next 100) (taskingInit 100 0 blank, ⟨0, []⟩)).2.tasks =
        [(300, 2), (500, 4), (200, 6)] ∧
      Intact 100
        (spawnsAndKills.foldl (Call.next 100) (taskingInit 100 0 blank, ⟨0, []⟩)).1
        (spawnsAndKills.foldl (Call.next 100) (taskingInit 100 0 blank, ⟨0, []⟩)).2 := by
  have henabled : ∀ p ∈ traceOf (Call.next 100) (taskingInit 100 0 blank, ⟨0, []⟩)
      spawnsAndKills, p.2.Enabled 100 p.1 := by decide +kernel
  have hrun : Run (Step 100) (taskingInit 100 0 blank, ⟨0, []⟩) _
      (spawnsAndKills.foldl (Call.next 100) (taskingInit 100 0 blank, ⟨0, []⟩)) :=
    .of_events spawnsAndKills _ fun p hp => Step.next (henabled p hp)
  refine ⟨by decide +kernel, ?_⟩
  obtain ⟨⟨s, a⟩, hend⟩ : ∃ x, x =
    spawnsAndKills.foldl (Call.next 100) (taskingInit 100 0 blank, ⟨0, []⟩) := ⟨_, rfl⟩
  rw [← hend] at hrun ⊢
  exact intact_of_run (show blank.lid = 0 from rfl) hrun

end Runs

/-! ### The choice of the scheduler -/

section Yield

/-- Registers and sleep times are apart. -/
@[simp] theorem sleeptime_setRegs (s : Sched) (t x : ℕ) (regs : TaskRegs) :
    ((s.setRegs t regs).task x).sleeptime = (s.task x).sleeptime := by
  rw [setRegs, write]
  rcases eq_or_ne x t with rfl | hx
  · simp only [Function.update_self]
  · simp only [Function.update_of_ne hx]

@[simp] theorem sleeptime_saveTaskState (s : Sched) (x : ℕ) :
    (s.saveTaskState.task x).sleeptime = (s.task x).sleeptime :=
  sleeptime_setRegs s.getRegs _ x _

@[simp] theorem sleeptime_taskSwitch (s : Sched) (src dst x : ℕ) :
    ((s.taskSwitch src dst).task x).sleeptime = (s.task x).sleeptime :=
  sleeptime_setRegs s src x _

theorem sleeptime_setSleeptime_of_ne (s : Sched) {t x : ℕ} (n : ℕ) (h : x ≠ t) :
    ((s.setSleeptime t n).task x).sleeptime = (s.task x).sleeptime := by
  rw [setSleeptime, write]
  simp only [Function.update_of_ne h]

@[simp] theorem current_saveTaskState (s : Sched) : s.saveTaskState.current = s.current := rfl

@[simp] theorem current_taskSwitch (s : Sched) (src dst : ℕ) :
    (s.taskSwitch src dst).current = s.current := rfl

@[simp] theorem current_setCurrent (s : Sched) (t : ℕ) : (s.setCurrent t).current = t := rfl

@[simp] theorem task_setCurrent (s : Sched) (t : ℕ) : (s.setCurrent t).task = s.task := rfl

/-- `task_yield` looks at the next task, and falls back to the current one: after it the current
task is awake exactly if one of these two was. -/
theorem taskYield_awake_iff (s : Sched) (hskip : s.skip = false) :
    (s.taskYield.task s.taskYield.current).sleeptime = 0 ↔
      (s.task s.current).sleeptime = 0 ∨ (s.task (s.next s.current)).sleeptime = 0 := by
  rw [taskYield, hskip, if_neg Bool.false_ne_true]
  by_cases hself : s.next s.current = s.current
  · rw [if_pos hself, hself, or_self]
  rw [if_neg hself]
  have hnext : s.saveTaskState.next = s.next := congrArg RingView.next (view_saveTaskState s)
  simp only [hnext, sleeptime_taskSwitch, current_saveTaskState, current_taskSwitch,
    current_setCurrent, task_setCurrent]
  split
  case isTrue hasleep =>
    -- the next task sleeps, and the current one goes on
    rw [sleeptime_saveTaskState] at hasleep
    rw [current_setCurrent, task_setCurrent, sleeptime_setSleeptime_of_ne _ _ (Ne.symm hself),
      task_setCurrent, sleeptime_saveTaskState, or_iff_left hasleep.ne']
  case isFalse hawake =>
    rw [sleeptime_saveTaskState, Nat.pos_iff_ne_zero, not_not] at hawake
    rw [current_setCurrent, task_setCurrent, sleeptime_saveTaskState]
    exact iff_of_true hawake (.inr hawake)

/-- Two tasks: the kernel thread sleeps, and the one at 200 runs. -/
def sleeper : Sched := taskSleep 100 3 (taskSpawn 100 200 0 0 0 (taskingInit 100 0 blank))

/-- The theorem for these two. -/
theorem taskYield_awake_iff_two :
    (sleeper.taskYield.task sleeper.taskYield.current).sleeptime = 0 ↔
      (sleeper.task sleeper.current).sleeptime = 0 ∨
        (sleeper.task (sleeper.next sleeper.current)).sleeptime = 0 :=
  taskYield_awake_iff sleeper (by decide +kernel)

/-- Three tasks: the kernel thread sleeps, the task at 200 does not, and the running one at 300 has
put itself to sleep. -/
def sleepers : Sched :=
  taskSelfSleep 5 (taskSleep 100 3
    (taskSpawn 100 300 0 0 0 (taskSpawn 100 200 0 0 0 (taskingInit 100 0 blank))))

/-- It goes on running. -/
theorem taskYield_sleepers : Visits 100 sleepers [200, 300] ∧ sleepers.current = 300 ∧
    sleepers.skip = false ∧ (sleepers.task 200).sleeptime = 0 ∧ sleepers.taskYield.current = 300 ∧
      (sleepers.taskYield.task 300).sleeptime = 5 := by
  have hinit : TasksOf 100 (taskingInit 100 0 blank) ⟨0, []⟩ := tasksOf_init 0 rfl
  have hone := tasksOf_spawn (t := 200) hinit (by decide) (by norm_num) 0 0 0
  have htwo := tasksOf_spawn (t := 300) hone (by decide) (by decide) 0 0 0
  refine ⟨((htwo.congr (view_taskSleep _ 100 3)).congr (view_taskSleep _ _ 5)).visits, ?_⟩
  decide +kernel

end Yield

end Owmice
