import FunctorCalls.CallGraph.Query

namespace FunctorCalls.CallGraph

section

variable {α β : Type} [Ord β] {f : α → β} {l : List α}

theorem mem_sortOn {a : α} : a ∈ sortOn f l ↔ a ∈ l := List.mem_mergeSort

variable [Std.TransOrd β]

theorem pairwise_isLE_sortOn (f : α → β) (l : List α) :
    (sortOn f l).Pairwise fun a b ↦ (compare (f a) (f b)).isLE = true := by
  have total (a b : α) : ((compare (f a) (f b)).isLE || (compare (f b) (f a)).isLE) = true := by
    have hs : compare (f b) (f a) = (compare (f a) (f b)).swap := Std.OrientedCmp.eq_swap
    rw [hs]
    cases compare (f a) (f b) <;> rfl
  exact List.pairwise_mergeSort (fun _ _ _ ↦ Std.TransCmp.isLE_trans) total l

variable [Std.LawfulEqOrd β]

omit [Std.TransOrd β] in
theorem compare_eq_lt_of_isLE {a b : β} (h : (compare a b).isLE = true) (hne : a ≠ b) :
    compare a b = .lt := by
  cases hc : compare a b with
  | lt => rfl
  | eq => exact absurd (Std.LawfulEqOrd.eq_of_compare hc) hne
  | gt => simp [hc] at h

theorem pairwise_sortOn (h : l.Pairwise fun a b ↦ f a ≠ f b) :
    (sortOn f l).Pairwise fun a b ↦ compare (f a) (f b) = .lt := by
  have hne : (sortOn f l).Pairwise fun a b ↦ f a ≠ f b :=
    h.perm (List.mergeSort_perm l _).symm fun hab ↦ Ne.symm hab
  exact (pairwise_isLE_sortOn f l).imp₂ (fun _ _ ↦ compare_eq_lt_of_isLE) hne

end

section

variable {α : Type} [DecidableEq α]

theorem eraseReps_cons_cons (a b : α) (l : List α) :
    (a :: b :: l).eraseReps =
      if a = b then (b :: l).eraseReps else a :: (b :: l).eraseReps := by
  have loop (c : α) (l read : List α) : List.eraseRepsBy.loop (· == ·) c l read =
      read.reverse ++ List.eraseRepsBy.loop (· == ·) c l [] := by
    induction l generalizing c read with
    | nil => simp [List.eraseRepsBy.loop]
    | cons d l ih =>
      simp only [List.eraseRepsBy.loop]
      split
      · exact ih c read
      · rw [ih d (c :: read), ih d [c]]
        simp
  by_cases h : a = b
  · subst h
    simp [List.eraseReps, List.eraseRepsBy, List.eraseRepsBy.loop]
  · have hb : (a == b) = false := beq_false_of_ne h
    simp [List.eraseReps, List.eraseRepsBy, List.eraseRepsBy.loop, h, hb, loop b l [a]]

theorem mem_eraseReps {l : List α} {x : α} : x ∈ l.eraseReps ↔ x ∈ l := by
  induction l with
  | nil => rfl
  | cons a l ih =>
    cases l with
    | nil => rfl
    | cons b l =>
      rw [eraseReps_cons_cons]
      split
      · next h => simp [ih, h]
      · rw [List.mem_cons, ih, ← List.mem_cons]

variable [Ord α] [Std.TransOrd α] [Std.LawfulEqOrd α]

theorem pairwise_eraseReps {l : List α} (h : l.Pairwise fun a b ↦ (compare a b).isLE = true) :
    l.eraseReps.Pairwise fun a b ↦ compare a b = .lt := by
  induction l with
  | nil => exact .nil
  | cons a l ih =>
    obtain ⟨ha, hl⟩ := List.pairwise_cons.1 h
    cases l with
    | nil => exact List.pairwise_singleton _ a
    | cons b l =>
      rw [eraseReps_cons_cons]
      split
      · exact ih hl
      · next hab =>
        refine List.pairwise_cons.2 ⟨fun x hx ↦ ?_, ih hl⟩
        have hlt : compare a b = .lt := compare_eq_lt_of_isLE (ha b List.mem_cons_self) hab
        rcases List.mem_cons.1 (mem_eraseReps.1 hx) with rfl | hx
        · exact hlt
        · exact Std.TransCmp.lt_of_lt_of_isLE hlt ((List.pairwise_cons.1 hl).1 x hx)

theorem eraseReps_sortOn_id (l : List α) : (sortOn id l).eraseReps = (OrdSet.ofList l).toList := by
  refine OrdSet.eq_of_sorted (pairwise_eraseReps (pairwise_isLE_sortOn id l))
    (OrdSet.ofList l).sorted fun x ↦ ?_
  rw [mem_eraseReps, mem_sortOn]
  exact OrdSet.mem_ofList.symm

end

end FunctorCalls.CallGraph
