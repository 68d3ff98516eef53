import Mathlib.Tactic

/-! # Doubly linked rings

The links of a ring are two functions, `next` and `prev`; the ring itself is a list, from its head
on.  A task, a block or a node of any type may be linked, and what is inserted or removed is
described by the list.

* `Linked next prev l`: neighbours in `l` point at each other;
* `Ring next prev head l`: from `head` through `l` and back to `head`;
* `ring_snoc`, `Ring.erase`: the four assignments that insert an element in front of the head, and
  the two that remove one;
* `iterate_of_isChain`: following `next`. -/

namespace Owmice

variable {α : Type} {next prev next' prev' : α → α} {head last t : α} {l : List α}

/-- Neighbours in `l` point at each other. -/
def Linked (next prev : α → α) (l : List α) : Prop := l.IsChain fun x y => next x = y ∧ prev y = x

theorem Linked.forward (h : Linked next prev l) : l.IsChain fun x y => next x = y :=
  h.imp fun _ _ hxy => hxy.1

/-- The last `next` and the first `prev` do not count. -/
theorem Linked.congr : ∀ {l : List α}, Linked next prev l → (∀ x ∈ l.dropLast, next' x = next x) →
    (∀ y ∈ l.tail, prev' y = prev y) → Linked next' prev' l
  | [], _, _, _ => .nil
  | [x], _, _, _ => .singleton x
  | x :: y :: l, h, hnext, hprev => by
      obtain ⟨⟨hxy, hyx⟩, h⟩ := List.isChain_cons_cons.mp h
      rw [List.dropLast_cons_cons] at hnext
      refine List.isChain_cons_cons.mpr ⟨⟨?_, ?_⟩, Linked.congr h ?_ ?_⟩
      · rw [hnext x List.mem_cons_self, hxy]
      · rw [hprev y List.mem_cons_self, hyx]
      · exact fun z hz => hnext z (List.mem_cons_of_mem _ hz)
      · exact fun z hz => hprev z (List.mem_cons_of_mem _ hz)

/-- `i` steps along a list that is linked forwards. -/
theorem iterate_of_isChain : ∀ {x : α} {l : List α}, ((x :: l).IsChain fun x y => next x = y) →
    ∀ (i : ℕ) (hi : i < (x :: l).length), next^[i] x = (x :: l)[i]
  | _, _, _, 0, _ => rfl
  | x, [], _, i + 1, hi => absurd hi (by simp)
  | x, y :: l, h, i + 1, hi => by
      obtain ⟨hxy, h⟩ := List.isChain_cons_cons.mp h
      rw [Function.iterate_succ_apply, hxy]
      exact iterate_of_isChain h i (by simpa using hi)

/-- From `head` through `l` and back. -/
structure Ring (next prev : α → α) (head : α) (l : List α) : Prop where
  linked : Linked next prev (head :: (l ++ [head]))
  nodup : (head :: l).Nodup

/-- A list and its head are a list and its last element. -/
theorem exists_concat (head : α) (l : List α) :
    ∃ init, head :: l = init ++ [(head :: l).getLast (List.cons_ne_nil head l)] :=
  ⟨_, (List.dropLast_append_getLast (List.cons_ne_nil head l)).symm⟩

theorem Linked.prev_next : ∀ {l : List α}, Linked next prev l → ∀ x ∈ l.dropLast, prev (next x) = x
  | [], _, x, hx => absurd hx List.not_mem_nil
  | [_], _, x, hx => absurd hx List.not_mem_nil
  | a :: b :: l, h, x, hx => by
      obtain ⟨⟨hab, hba⟩, h⟩ := List.isChain_cons_cons.mp h
      rcases List.mem_cons.mp hx with rfl | hx
      · rw [hab, hba]
      · exact Linked.prev_next h x hx

theorem Linked.next_prev : ∀ {l : List α}, Linked next prev l → ∀ y ∈ l.tail, next (prev y) = y
  | [], _, y, hy => absurd hy List.not_mem_nil
  | [_], _, y, hy => absurd hy List.not_mem_nil
  | a :: b :: l, h, y, hy => by
      obtain ⟨⟨hab, hba⟩, h⟩ := List.isChain_cons_cons.mp h
      rcases List.mem_cons.mp hy with rfl | hy
      · rw [hba, hab]
      · exact Linked.next_prev h y hy

/-- In a ring the two links are inverse to each other. -/
theorem Ring.inverse (h : Ring next prev head l) {x : α} (hx : x ∈ head :: l) :
    prev (next x) = x ∧ next (prev x) = x := by
  refine ⟨h.linked.prev_next x ?_, h.linked.next_prev x ?_⟩
  · rw [← List.cons_append, List.dropLast_concat]
    exact hx
  · rw [List.tail_cons]
    rcases List.mem_cons.mp hx with rfl | hx
    · exact List.mem_append_right _ List.mem_cons_self
    · exact List.mem_append_left _ hx

/-- The element in front of the head is the last one. -/
theorem Ring.prev_head (h : Ring next prev head l) :
    prev head = (head :: l).getLast (List.cons_ne_nil head l) := by
  obtain ⟨init, hinit⟩ := exists_concat head l
  obtain ⟨last, hlast⟩ : ∃ last, last = (head :: l).getLast (List.cons_ne_nil head l) := ⟨_, rfl⟩
  rw [← hlast] at hinit ⊢
  have hsplit : head :: (l ++ [head]) = init ++ last :: head :: [] := by
    rw [← List.cons_append, hinit, List.append_assoc]
    rfl
  have hlinked := h.linked
  rw [Linked, hsplit, List.isChain_append_cons_cons] at hlinked
  exact hlinked.2.1.2

/-- An element and its neighbours. -/
theorem Ring.exists_neighbours (h : Ring next prev head l) (ht : t ∈ l) :
    ∃ u v A B, l = u ++ t :: v ∧ head :: u = A ++ [prev t] ∧ v ++ [head] = next t :: B ∧
      Linked next prev (A ++ [prev t]) ∧ Linked next prev (next t :: B) := by
  obtain ⟨u, v, rfl⟩ := List.append_of_mem ht
  obtain ⟨A, hA⟩ := exists_concat head u
  obtain ⟨n, B, hB⟩ := List.exists_cons_of_ne_nil (show v ++ [head] ≠ [] by simp)
  obtain ⟨p, hp⟩ : ∃ p, p = (head :: u).getLast (List.cons_ne_nil head u) := ⟨_, rfl⟩
  rw [← hp] at hA
  have hlinked := h.linked
  have hsplit : head :: (u ++ t :: v ++ [head]) = A ++ p :: t :: n :: B := by
    rw [List.append_assoc, List.cons_append, hB, ← List.cons_append, hA, List.append_assoc]
    rfl
  rw [Linked, hsplit, List.isChain_append_cons_cons, List.isChain_cons_cons] at hlinked
  obtain ⟨hleft, ⟨-, hpt⟩, ⟨htn, -⟩, hright⟩ := hlinked
  rw [← hpt] at hA hleft
  rw [← htn] at hB hright
  exact ⟨u, v, A, B, rfl, hA, hB, hleft, hright⟩

/-- No element of a ring follows itself. -/
theorem Ring.prev_ne (h : Ring next prev head l) (ht : t ∈ l) : prev t ≠ t := by
  obtain ⟨u, v, A, B, hl, hA, -⟩ := h.exists_neighbours ht
  have hnodup := h.nodup
  rw [hl, ← List.cons_append, List.nodup_append] at hnodup
  have hp : prev t ∈ head :: u := by
    rw [hA]
    exact List.mem_append_right _ List.mem_cons_self
  exact hnodup.2.2 _ hp t List.mem_cons_self

section Surgery

variable [DecidableEq α]

/-- A new element behind the last one. -/
theorem ring_snoc (h : Linked next prev (head :: l)) (hnodup : (head :: l).Nodup)
    (ht : t ∉ head :: l) (hlast : last = (head :: l).getLast (List.cons_ne_nil head l)) :
    Ring (Function.update (Function.update next last t) t head)
      (Function.update (Function.update prev t last) head t) head (l ++ [t]) := by
  obtain ⟨init, hinit⟩ := exists_concat head l
  rw [← hlast] at hinit
  have hth : t ≠ head := fun he => ht (he ▸ List.mem_cons_self)
  have htl : t ≠ last := by
    rintro rfl
    exact ht (hlast ▸ List.getLast_mem _)
  refine ⟨?_, ?_⟩
  · have hsplit : head :: (l ++ [t] ++ [head]) = init ++ last :: t :: [head] := by
      rw [List.append_assoc, ← List.cons_append, hinit, List.append_assoc]
      rfl
    rw [Linked, hsplit, List.isChain_append_cons_cons, ← hinit]
    refine ⟨h.congr ?_ ?_, ⟨?_, ?_⟩, List.isChain_pair.mpr ⟨?_, ?_⟩⟩
    · intro x hx
      rw [hinit] at hx hnodup ht
      rw [List.dropLast_concat] at hx
      have hxl : x ≠ last := by
        rintro rfl
        exact List.disjoint_of_nodup_append hnodup hx List.mem_cons_self
      have hxt : x ≠ t := by
        rintro rfl
        exact ht (List.mem_append_left _ hx)
      rw [Function.update_of_ne hxt, Function.update_of_ne hxl]
    · intro y hy
      have hyh : y ≠ head := by
        rintro rfl
        exact (List.nodup_cons.mp hnodup).1 hy
      have hyt : y ≠ t := by
        rintro rfl
        exact ht (List.mem_cons_of_mem _ hy)
      rw [Function.update_of_ne hyh, Function.update_of_ne hyt]
    · rw [Function.update_of_ne htl.symm, Function.update_self]
    · rw [Function.update_of_ne hth, Function.update_self]
    · exact Function.update_self _ _ _
    · exact Function.update_self _ _ _
  · rw [← List.cons_append]
    exact hnodup.append (List.nodup_singleton t) (by simpa using ht)

/-- An element is removed when its neighbours are linked to each other. -/
theorem Ring.erase (h : Ring next prev head l) (ht : t ∈ l) :
    Ring (Function.update next (prev t) (next t)) (Function.update prev (next t) (prev t)) head
      (l.erase t) := by
  obtain ⟨u, v, A, B, hl, hA, hB, hleft, hright⟩ := h.exists_neighbours ht
  have hnodup := h.nodup
  rw [hl, ← List.cons_append, List.nodup_append] at hnodup
  obtain ⟨hu, htv, hapart⟩ := hnodup
  have hv : v.Nodup := (List.nodup_cons.mp htv).2
  have htu : t ∉ u := fun hmem =>
    hapart t (List.mem_cons_of_mem _ hmem) t List.mem_cons_self rfl
  have hheadv : head ∉ v := fun hmem =>
    hapart head List.mem_cons_self head (List.mem_cons_of_mem _ hmem) rfl
  have hp : prev t ∈ head :: u := by
    rw [hA]
    exact List.mem_append_right _ List.mem_cons_self
  have hn : next t ∈ v ++ [head] := by
    rw [hB]
    exact List.mem_cons_self
  have herase : l.erase t = u ++ v := by
    rw [hl, List.erase_append_right _ htu, List.erase_cons_head]
  refine ⟨?_, ?_⟩
  · have hsplit : head :: (u ++ v ++ [head]) = A ++ prev t :: next t :: B := by
      rw [List.append_assoc, hB, ← List.cons_append, hA, List.append_assoc]
      rfl
    rw [herase, Linked, hsplit, List.isChain_append_cons_cons]
    refine ⟨hleft.congr ?_ ?_, ⟨?_, ?_⟩, hright.congr ?_ ?_⟩
    · intro x hx
      rw [List.dropLast_concat] at hx
      apply Function.update_of_ne
      rintro rfl
      rw [hA] at hu
      exact List.disjoint_of_nodup_append hu hx List.mem_cons_self
    · intro y hy
      rw [← hA, List.tail_cons] at hy
      apply Function.update_of_ne
      rintro rfl
      rcases List.mem_append.mp hn with hn | hn
      · exact hapart _ (List.mem_cons_of_mem _ hy) _ (List.mem_cons_of_mem _ hn) rfl
      · rw [List.mem_singleton.mp hn] at hy
        exact (List.nodup_cons.mp hu).1 hy
    · exact Function.update_self _ _ _
    · exact Function.update_self _ _ _
    · intro x hx
      rw [← hB, List.dropLast_concat] at hx
      apply Function.update_of_ne
      rintro rfl
      exact hapart _ hp _ (List.mem_cons_of_mem _ hx) rfl
    · intro y hy
      apply Function.update_of_ne
      rintro rfl
      have hnb : (next t :: B).Nodup := by
        rw [← hB]
        exact hv.append (List.nodup_singleton head) (by simpa using hheadv)
      exact (List.nodup_cons.mp hnb).1 hy
  · exact h.nodup.sublist (List.Sublist.cons_cons _ List.erase_sublist)

/-- The last element after one has been removed. -/
theorem Ring.getLast_erase (h : Ring next prev head l) (ht : t ∈ l) :
    (head :: l.erase t).getLast (List.cons_ne_nil _ _) =
      if t = (head :: l).getLast (List.cons_ne_nil _ _) then prev t
      else (head :: l).getLast (List.cons_ne_nil _ _) := by
  rw [← (h.erase ht).prev_head, ← h.prev_head, Function.update_apply]
  refine if_congr ⟨fun hn => ?_, fun hp => ?_⟩ rfl rfl
  · rw [hn, (h.inverse (List.mem_cons_of_mem _ ht)).1]
  · rw [hp, (h.inverse List.mem_cons_self).2]

end Surgery

end Owmice
