import Mathlib.Tactic

/-! # Runs of a labelled transition system

A transition relation `step : σ → ε → σ → Prop` and its finite runs.  `Run step s tr s'`
leads from `s` to `s'`; its trace `tr` lists every step as the state it started from and the
event that happened, so that a condition on the steps of a run is a condition on the members
of `tr`, and `visited tr s'` are the states of the run in order.

* `Run.invariant`: what every step under a guard `G` preserves holds at the end of every run
  whose steps all meet `G`;
* `Run.map`: runs of one system seen as runs of another one;
* `Run.forall_visited_iff`: when a step keeps the property `A` exactly if it meets `G`, a run
  stays in `A` exactly if all its steps meet `G`;
* `Run.of_events`: the run of a list of events, where each leads to the state that `next` says. -/

namespace Owmice

variable {σ ε : Type}

/-- Finite runs, with the list of steps taken. -/
inductive Run (step : σ → ε → σ → Prop) : σ → List (σ × ε) → σ → Prop
  | nil (s : σ) : Run step s [] s
  | cons {s s₁ s' : σ} {e : ε} {tr : List (σ × ε)} :
      step s e s₁ → Run step s₁ tr s' → Run step s ((s, e) :: tr) s'

/-- The states of a run with trace `tr` that ends in `s'`. -/
def visited (tr : List (σ × ε)) (s' : σ) : List σ := tr.map Prod.fst ++ [s']

@[simp] theorem visited_nil (s : σ) : visited ([] : List (σ × ε)) s = [s] := rfl

@[simp] theorem visited_cons (p : σ × ε) (tr : List (σ × ε)) (s : σ) :
    visited (p :: tr) s = p.1 :: visited tr s := rfl

/-- The trace of the events `es` from `s` on, each leading to the state that `next` says. -/
def traceOf (next : σ → ε → σ) : σ → List ε → List (σ × ε)
  | _, [] => []
  | s, e :: es => (s, e) :: traceOf next (next s e) es

namespace Run

variable {step : σ → ε → σ → Prop} {s s' : σ} {tr : List (σ × ε)}

theorem single {e : ε} (h : step s e s') : Run step s [(s, e)] s' := .cons h (.nil s')

/-- Two runs, one after the other. -/
theorem append {s₁ : σ} {tr' : List (σ × ε)} (h : Run step s tr s₁) (h' : Run step s₁ tr' s') :
    Run step s (tr ++ tr') s' := by
  induction h with
  | nil s => exact h'
  | cons h₁ _ ih => exact .cons h₁ (ih h')

/-- Listed events are a run if each of them is a step. -/
theorem of_events {next : σ → ε → σ} : ∀ (es : List ε) (s : σ),
    (∀ p ∈ traceOf next s es, step p.1 p.2 (next p.1 p.2)) →
      Run step s (traceOf next s es) (es.foldl next s)
  | [], s, _ => .nil s
  | e :: es, s, h =>
      .cons (h (s, e) List.mem_cons_self)
        (of_events es (next s e) fun p hp => h p (List.mem_cons_of_mem _ hp))

/-- A run visits the state it starts from. -/
theorem start_mem_visited (h : Run step s tr s') : s ∈ visited tr s' := by
  cases h with
  | nil s => simp
  | cons h₁ _ => simp

/-- A property that every guarded step preserves holds at the end of every guarded run. -/
theorem invariant {I : σ → Prop} {G : σ → ε → Prop}
    (hstep : ∀ s e s', I s → G s e → step s e s' → I s') (h : Run step s tr s') (hs : I s)
    (hg : ∀ p ∈ tr, G p.1 p.2) : I s' := by
  induction h with
  | nil s => exact hs
  | cons h₁ _ ih =>
      refine ih (hstep _ _ _ hs (hg _ List.mem_cons_self) h₁) ?_
      exact fun p hp => hg p (List.mem_cons_of_mem _ hp)

/-- It also holds in every state on the way. -/
theorem invariant_visited {I : σ → Prop} {G : σ → ε → Prop}
    (hstep : ∀ s e s', I s → G s e → step s e s' → I s') (h : Run step s tr s') (hs : I s)
    (hg : ∀ p ∈ tr, G p.1 p.2) : ∀ x ∈ visited tr s', I x := by
  induction h with
  | nil s => simpa using hs
  | cons h₁ _ ih =>
      intro x hx
      rcases List.mem_cons.mp hx with rfl | hx
      · exact hs
      · refine ih (hstep _ _ _ hs (hg _ List.mem_cons_self) h₁) ?_ x hx
        exact fun p hp => hg p (List.mem_cons_of_mem _ hp)

/-- A function that maps every guarded step to a step maps guarded runs to runs. -/
theorem map {τ : Type} {step' : τ → ε → τ → Prop} {G : σ → ε → Prop} (f : σ → τ)
    (hf : ∀ s e s', G s e → step s e s' → step' (f s) e (f s')) (h : Run step s tr s')
    (hg : ∀ p ∈ tr, G p.1 p.2) : Run step' (f s) (tr.map fun p => (f p.1, p.2)) (f s') := by
  induction h with
  | nil s => exact .nil (f s)
  | cons h₁ _ ih =>
      refine .cons (hf _ _ _ (hg _ List.mem_cons_self) h₁) (ih ?_)
      exact fun p hp => hg p (List.mem_cons_of_mem _ hp)

/-- A run stays inside `A` exactly when each of its steps meets the guard that decides, from
the state before the step, whether the step stays inside `A`. -/
theorem forall_visited_iff {I A : σ → Prop} {G : σ → ε → Prop}
    (hiff : ∀ s e s', I s → A s → step s e s' → (A s' ↔ G s e))
    (hstep : ∀ s e s', I s → A s → G s e → step s e s' → I s')
    (h : Run step s tr s') (hI : I s) (hA : A s) :
    (∀ x ∈ visited tr s', A x) ↔ ∀ p ∈ tr, G p.1 p.2 := by
  induction h with
  | nil s => simpa using hA
  | @cons s s₁ s' e tr h₁ h₂ ih =>
      simp only [visited_cons, List.forall_mem_cons]
      constructor
      · rintro ⟨_, hrest⟩
        have hA₁ : A s₁ := hrest _ h₂.start_mem_visited
        have hG := (hiff _ _ _ hI hA h₁).mp hA₁
        exact ⟨hG, (ih (hstep _ _ _ hI hA hG h₁) hA₁).mp hrest⟩
      · rintro ⟨hG, hrest⟩
        have hA₁ := (hiff _ _ _ hI hA h₁).mpr hG
        exact ⟨hA, (ih (hstep _ _ _ hI hA hG h₁) hA₁).mpr hrest⟩

end Run

end Owmice
