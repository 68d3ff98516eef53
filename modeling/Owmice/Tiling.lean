import Mathlib.Tactic

/-! # Segments laid end to end

A list of segments placed one after the other from a start address, the shape of every
region that is walked by "header, plus its length, is the next header".  Segments are of any
type `α`, with a length function `len : α → ℕ`.

* `placed len a cs` pairs every segment with its address, `stop len a cs` is the address
  behind the last one;
* `placed_append`, `stop_append`: a list cut in two is placed in two parts;
* `placed_separate`: segments at different addresses do not overlap;
* `exists_split_of_mem_placed`: the address of a segment is the end of what precedes it;
* `sum_lengths_le`: stretches without a common address have no more room than all addresses. -/

namespace Owmice.Tiling

variable {α : Type} (len : α → ℕ)

/-- The address behind the last segment. -/
def stop : ℕ → List α → ℕ
  | a, [] => a
  | a, c :: cs => stop (a + len c) cs

/-- Every segment with the address it starts at. -/
def placed : ℕ → List α → List (ℕ × α)
  | _, [] => []
  | a, c :: cs => (a, c) :: placed (a + len c) cs

@[simp] theorem stop_nil (a : ℕ) : stop len a [] = a := rfl

@[simp] theorem stop_cons (a : ℕ) (c : α) (cs : List α) :
    stop len a (c :: cs) = stop len (a + len c) cs := rfl

@[simp] theorem placed_nil (a : ℕ) : placed len a [] = [] := rfl

@[simp] theorem placed_cons (a : ℕ) (c : α) (cs : List α) :
    placed len a (c :: cs) = (a, c) :: placed len (a + len c) cs := rfl

theorem stop_append (a : ℕ) (cs ds : List α) :
    stop len a (cs ++ ds) = stop len (stop len a cs) ds := by
  induction cs generalizing a with
  | nil => rfl
  | cons c cs ih => exact ih _

theorem placed_append (a : ℕ) (cs ds : List α) :
    placed len a (cs ++ ds) = placed len a cs ++ placed len (stop len a cs) ds := by
  induction cs generalizing a with
  | nil => rfl
  | cons c cs ih => simp [ih]

theorem le_stop (a : ℕ) (cs : List α) : a ≤ stop len a cs := by
  induction cs generalizing a with
  | nil => exact le_rfl
  | cons c cs ih => exact (Nat.le_add_right a (len c)).trans (ih _)

/-- A placed segment lies between the start and the end of the list. -/
theorem placed_bounds {a x : ℕ} {c : α} {cs : List α} (h : (x, c) ∈ placed len a cs) :
    a ≤ x ∧ x + len c ≤ stop len a cs := by
  induction cs generalizing a with
  | nil => simp at h
  | cons d ds ih =>
      rcases List.mem_cons.mp h with h | h
      · cases h
        exact ⟨le_rfl, le_stop len _ ds⟩
      · have := ih h
        exact ⟨by omega, this.2⟩

theorem exists_split_of_mem_placed {a x : ℕ} {c : α} {cs : List α}
    (h : (x, c) ∈ placed len a cs) :
    ∃ pre post, cs = pre ++ c :: post ∧ x = stop len a pre := by
  induction cs generalizing a with
  | nil => simp at h
  | cons d ds ih =>
      rcases List.mem_cons.mp h with h | h
      · cases h
        exact ⟨[], ds, rfl, rfl⟩
      · obtain ⟨pre, post, rfl, rfl⟩ := ih h
        exact ⟨d :: pre, post, rfl, rfl⟩

theorem mem_placed_of_split (a : ℕ) (pre : List α) (c : α) (post : List α) :
    (stop len a pre, c) ∈ placed len a (pre ++ c :: post) := by
  simp [placed_append]

/-- Two placed segments at different addresses do not overlap. -/
theorem placed_separate {a x y : ℕ} {c d : α} {cs : List α} (hx : (x, c) ∈ placed len a cs)
    (hy : (y, d) ∈ placed len a cs) (hne : x ≠ y) : x + len c ≤ y ∨ y + len d ≤ x := by
  obtain ⟨pre, post, rfl, rfl⟩ := exists_split_of_mem_placed len hx
  rw [placed_append, List.mem_append, placed_cons, List.mem_cons] at hy
  rcases hy with hy | hy | hy
  · exact .inr (placed_bounds len hy).2
  · cases hy
    exact absurd rfl hne
  · exact .inl (placed_bounds len hy).1

/-- Segments of positive length are determined by their address. -/
theorem placed_unique (hpos : ∀ c, 0 < len c) {a x : ℕ} {c d : α} {cs : List α}
    (hx : (x, c) ∈ placed len a cs) (hy : (x, d) ∈ placed len a cs) : c = d := by
  obtain ⟨pre, post, rfl, rfl⟩ := exists_split_of_mem_placed len hx
  rw [placed_append, List.mem_append, placed_cons, List.mem_cons] at hy
  rcases hy with hy | hy | hy
  · have := (placed_bounds len hy).2
    have := hpos d
    omega
  · cases hy
    rfl
  · have := (placed_bounds len hy).1
    have := hpos c
    omega

/-- Segments outside a stretch that is replaced by one of the same extent stay where they are. -/
theorem mem_placed_replace {a : ℕ} {p : ℕ × α} {pre mid mid' post : List α}
    (hp : p ∈ placed len a (pre ++ (mid ++ post))) (hmid : p ∉ placed len (stop len a pre) mid)
    (hstop : stop len (stop len a pre) mid' = stop len (stop len a pre) mid) :
    p ∈ placed len a (pre ++ (mid' ++ post)) := by
  simp only [placed_append, List.mem_append] at hp ⊢
  rw [hstop]
  tauto

/-- Stretches of addresses below `N`, given by start and length, that share no address have
together at most `N` of them. -/
theorem sum_lengths_le {N : ℕ} {l : List (ℕ × ℕ)}
    (hdis : l.Pairwise fun b c => ∀ y, b.1 ≤ y ∧ y < b.1 + b.2 → ¬ (c.1 ≤ y ∧ y < c.1 + c.2))
    (hN : ∀ b ∈ l, b.1 + b.2 ≤ N) : (l.map Prod.snd).sum ≤ N := by
  -- the addresses of the stretches, as a finite set
  have hset : ∃ F : Finset ℕ, F.card = (l.map Prod.snd).sum ∧
      ∀ y ∈ F, ∃ b ∈ l, b.1 ≤ y ∧ y < b.1 + b.2 := by
    induction l with
    | nil => exact ⟨∅, rfl, by simp⟩
    | cons b l ih =>
        obtain ⟨hb, hdis⟩ := List.pairwise_cons.mp hdis
        obtain ⟨F, hcard, hF⟩ := ih hdis fun c hc => hN c (List.mem_cons_of_mem _ hc)
        have hd : Disjoint (Finset.Ico b.1 (b.1 + b.2)) F := by
          refine Finset.disjoint_left.mpr fun y hy hy' => ?_
          obtain ⟨c, hc, hyc⟩ := hF y hy'
          exact hb c hc y (Finset.mem_Ico.mp hy) hyc
        refine ⟨Finset.Ico b.1 (b.1 + b.2) ∪ F, ?_, fun y hy => ?_⟩
        · rw [Finset.card_union_of_disjoint hd, Nat.card_Ico, hcard, List.map_cons, List.sum_cons]
          omega
        · rcases Finset.mem_union.mp hy with hy | hy
          · exact ⟨b, List.mem_cons_self, Finset.mem_Ico.mp hy⟩
          · obtain ⟨c, hc, hyc⟩ := hF y hy
            exact ⟨c, List.mem_cons_of_mem _ hc, hyc⟩
  obtain ⟨F, hcard, hF⟩ := hset
  have hsub : F ⊆ Finset.range N := fun y hy => by
    obtain ⟨b, hb, hyb⟩ := hF y hy
    have := hN b hb
    exact Finset.mem_range.mpr (by omega)
  rw [← hcard]
  exact (Finset.card_le_card hsub).trans (Finset.card_range N).le

end Owmice.Tiling
