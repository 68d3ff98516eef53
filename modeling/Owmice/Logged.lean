import Mathlib.Tactic

/-! # Programs that log their accesses

An instrumented program: a value together with the list of places, of any type `ι`, that were
accessed on the way to it.  A definition is re-implemented in this monad with `access` in front
of every access; that the value is still the one of the definition is a theorem about `val`, and
what the accesses have in common is a theorem about `Within`.

* `Within P Q x`: every access of `x` satisfies `P` and its value satisfies `Q`, with one rule
  for each construct (`within_pure`, `within_access`, `within_bind`, `within_foldlM`);
* `Frames g read x`: what is read from the value of `x` at a place that was not accessed is as in
  `g` (`frames_pure`, `frames_bind`, `frames_foldlM`);
* `foldlM_val`: a loop of instrumented rounds computes the loop of the rounds;
* `mem_log_foldlM`: what a loop accesses, when this does not depend on the values;
* `findSomeM?_val`, `forall_log_findSomeM?`: a search that ends at its first result, and what all
  its accesses have in common;
* `run_bind_some`: programs that may not end. -/

namespace Owmice

/-- A value and the accesses made on the way to it. -/
structure Logged (ι α : Type) where
  val : α
  log : List ι

namespace Logged

variable {ι α β : Type}

/-- Access the place `i`. -/
def access (i : ι) : Logged ι Unit := ⟨(), [i]⟩

instance : Monad (Logged ι) where
  pure a := ⟨a, []⟩
  bind x f := ⟨(f x.val).val, x.log ++ (f x.val).log⟩

@[simp] theorem pure_val (a : α) : (pure a : Logged ι α).val = a := rfl

@[simp] theorem pure_log (a : α) : (pure a : Logged ι α).log = [] := rfl

@[simp] theorem bind_val (x : Logged ι α) (f : α → Logged ι β) :
    (x >>= f).val = (f x.val).val := rfl

@[simp] theorem bind_log (x : Logged ι α) (f : α → Logged ι β) :
    (x >>= f).log = x.log ++ (f x.val).log := rfl

@[simp] theorem access_log (i : ι) : (access i).log = [i] := rfl

theorem foldlM_val (f : β → α → Logged ι β) (g : β → α → β) (h : ∀ b a, (f b a).val = g b a)
    (l : List α) (b : β) : (l.foldlM f b).val = l.foldl g b := by
  induction l generalizing b with
  | nil => rfl
  | cons a l ih => rw [List.foldlM_cons, bind_val, h, ih, List.foldl_cons]

/-- A loop whose rounds access places that depend on the round alone. -/
theorem mem_log_foldlM {f : β → α → Logged ι β} {T : α → ι → Prop}
    (h : ∀ b a i, i ∈ (f b a).log ↔ T a i) {i : ι} {l : List α} {b : β} :
    i ∈ (l.foldlM f b).log ↔ ∃ a ∈ l, T a i := by
  induction l generalizing b with
  | nil => simp
  | cons a l ih =>
      rw [List.foldlM_cons, bind_log, List.mem_append, h, ih]
      simp

/-- All accesses satisfy `P`, and the value satisfies `Q`. -/
def Within (P : ι → Prop) (Q : α → Prop) (x : Logged ι α) : Prop := (∀ i ∈ x.log, P i) ∧ Q x.val

variable {P : ι → Prop} {Q : α → Prop} {R : β → Prop}

theorem within_pure {a : α} (h : Q a) : Within P Q (pure a) := ⟨by simp, h⟩

theorem within_access {i : ι} (h : P i) : Within P (fun _ => True) (access i) := by
  refine ⟨?_, trivial⟩
  simpa using h

theorem within_bind {x : Logged ι α} {f : α → Logged ι β} (hx : Within P Q x)
    (hf : ∀ a, Q a → Within P R (f a)) : Within P R (x >>= f) := by
  obtain ⟨hlog, hval⟩ := hx
  obtain ⟨hlog', hval'⟩ := hf x.val hval
  refine ⟨fun i hi => ?_, hval'⟩
  rcases List.mem_append.mp hi with hi | hi
  · exact hlog i hi
  · exact hlog' i hi

/-- A loop keeps what each of its rounds keeps. -/
theorem within_foldlM {f : β → α → Logged ι β} {l : List α} {b : β} (hb : R b)
    (hf : ∀ a ∈ l, ∀ b, R b → Within P R (f b a)) : Within P R (l.foldlM f b) := by
  induction l generalizing b with
  | nil => exact within_pure hb
  | cons a l ih =>
      rw [List.foldlM_cons]
      apply within_bind (hf a List.mem_cons_self b hb)
      intro b' hb'
      exact ih hb' fun a' ha' => hf a' (List.mem_cons_of_mem a ha')

section Frames

variable {γ : Type} {g : ι → γ} (read : α → ι → γ) (read' : β → ι → γ)

/-- The places that are not accessed read as in `g` in the value. -/
def Frames (g : ι → γ) (read : α → ι → γ) (x : Logged ι α) : Prop :=
  ∀ i, i ∉ x.log → read x.val i = g i

variable {read read'}

theorem frames_pure {a : α} (h : ∀ i, read a i = g i) : Frames g read (pure a) := fun i _ => h i

variable (read read')

theorem frames_bind {x : Logged ι α} {f : α → Logged ι β} (hx : Frames g read x)
    (hf : ∀ a, Frames (read a) read' (f a)) : Frames g read' (x >>= f) := by
  intro i hi
  rw [bind_log, List.mem_append, not_or] at hi
  rw [bind_val, hf x.val i hi.2, hx i hi.1]

/-- A loop frames what each of its rounds frames. -/
theorem frames_foldlM {f : β → α → Logged ι β} (hf : ∀ b a, Frames (read' b) read' (f b a))
    {l : List α} {b : β} : Frames (read' b) read' (l.foldlM f b) := by
  induction l generalizing b with
  | nil => exact frames_pure fun _ => rfl
  | cons a l ih =>
      rw [List.foldlM_cons]
      exact frames_bind read' read' (hf b a) fun _ => ih

end Frames

section Search

theorem findSomeM?_val (f : α → Logged ι (Option β)) (l : List α) :
    (l.findSomeM? f).val = l.findSome? fun a => (f a).val := by
  induction l with
  | nil => rfl
  | cons a l ih =>
      rw [List.findSomeM?_cons, bind_val, List.findSome?_cons]
      cases (f a).val with
      | none => exact ih
      | some b => rfl

/-- The second half of a list is searched when there is no result in the first. -/
theorem findSomeM?_log_append (f : α → Logged ι (Option β)) (m l : List α) :
    ((l ++ m).findSomeM? f).log = (l.findSomeM? f).log ++
      if ∀ a ∈ l, (f a).val = none then (m.findSomeM? f).log else [] := by
  induction l with
  | nil => simp
  | cons a l ih =>
      rw [List.cons_append, List.findSomeM?_cons, List.findSomeM?_cons, bind_log, bind_log]
      cases h : (f a).val with
      | none =>
          simp only [ih, List.append_assoc, List.forall_mem_cons, h, true_and]
      | some b =>
          simp only [pure_log, List.append_nil, List.forall_mem_cons, h, reduceCtorEq, false_and,
            if_false]

/-- A search over `0` to `n - 1` comes to `a` when there is no result before it. -/
theorem forall_log_findSomeM? {f : ℕ → Logged ι (Option β)} {P : ι → Prop} {n : ℕ} :
    (∀ i ∈ ((List.range n).findSomeM? f).log, P i) ↔
      ∀ a < n, (∀ b < a, (f b).val = none) → ∀ i ∈ (f a).log, P i := by
  induction n with
  | zero => simp
  | succ n ih =>
      rw [List.range_succ, findSomeM?_log_append, Nat.forall_lt_succ_right, ← ih]
      simp only [List.mem_append, or_imp, forall_and, List.mem_range]
      apply and_congr_right
      intro _
      have hlast : ([n].findSomeM? f).log = (f n).log := by
        rw [List.findSomeM?_cons, bind_log]
        cases (f n).val with
        | none => simp
        | some b => simp
      rw [hlast]
      by_cases h : ∀ b < n, (f b).val = none
      · rw [if_pos h]
        exact ⟨fun hlog _ => hlog, fun hlog => hlog h⟩
      · rw [if_neg h]
        simp [h]

end Search

section Ending

/-! A program that may not end, `OptionT (Logged ι) α`, keeps the accesses that it has made. -/

theorem run_bind_some {x : OptionT (Logged ι) α} {a : α} {l : List ι} (h : x.run = ⟨some a, l⟩)
    (f : α → OptionT (Logged ι) β) : (x >>= f).run = ⟨(f a).run.val, l ++ (f a).run.log⟩ := by
  rw [OptionT.run_bind, Option.elimM, h]
  rfl

theorem mem_log_run_bind {x : OptionT (Logged ι) α} {i : ι} (h : i ∈ x.run.log)
    (f : α → OptionT (Logged ι) β) : i ∈ (x >>= f).run.log := by
  rw [OptionT.run_bind, Option.elimM, bind_log]
  exact List.mem_append_left _ h

theorem run_bind_pure_log (x : OptionT (Logged ι) α) (g : α → β) :
    (x >>= fun a => pure (g a)).run.log = x.run.log := by
  rw [OptionT.run_bind, Option.elimM, bind_log]
  cases x.run.val with
  | none => exact List.append_nil _
  | some a => exact List.append_nil _

end Ending

end Logged

end Owmice
