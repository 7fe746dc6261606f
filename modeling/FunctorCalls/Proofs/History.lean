import FunctorCalls.CallGraph.History

namespace FunctorCalls

open Change

theorem Builder.graph_visitSpecialization (b : Builder) (s : Specialization) :
    (b.visitSpecialization s).graph =
      (bodyReferences s).foldl (fun g p ↦ g.record p.1 p.2) b.graph := by
  rw [visitSpecialization, bodyReferences]
  cases s.implementation.body? with
  | none => rfl
  | some body =>
    simp only [List.foldl_map]
    rfl

namespace CallGraph

theorem apply_eq_foldl (g : CallGraph) {c : Change} (hc : c.isTrim = false) :
    g.apply c = c.recorded.foldl (fun g p ↦ g.record p.1 p.2) g := by
  cases c with
  | add caller callee => rfl
  | reference caller callable typeArgs c =>
    rw [recorded, List.foldl_map]
    rfl
  | walk caller f =>
    rw [recorded, List.foldl_map]
    rfl
  | visitScope s => rfl
  | visitSpecialization s => exact Builder.graph_visitSpecialization ⟨g, none, 0⟩ s
  | visitProgram p =>
    have h (b : Builder) (ss : List Specialization) :
        (ss.foldl Builder.visitSpecialization b).graph =
          (ss.flatMap bodyReferences).foldl (fun g p ↦ g.record p.1 p.2) b.graph := by
      induction ss generalizing b with
      | nil => rfl
      | cons s ss ih =>
        rw [List.foldl_cons, ih, Builder.graph_visitSpecialization, List.flatMap_cons,
          List.foldl_append]
    exact h ⟨g, none, 0⟩ p.specializations
  | trim points => cases hc

/-- What holds of the empty graph and is kept by every step holds of the graph with a history. A
history without a trim has only the one kind of step. -/
theorem after_induction {P : CallGraph → Prop} {cs : List Change} (hempty : P empty)
    (hrecord : ∀ g, ∀ p ∈ cs.flatMap recorded, P g → P (g.record p.1 p.2))
    (htrim : (∃ c ∈ cs, c.isTrim = true) → ∀ g points, P g → P (g.trim points)) :
    P (after cs) := by
  have hfold (pairs : List (Instance × Instance)) (h : ∀ p ∈ pairs, p ∈ cs.flatMap recorded)
      (g : CallGraph) (hg : P g) : P (pairs.foldl (fun g p ↦ g.record p.1 p.2) g) := by
    induction pairs generalizing g with
    | nil => exact hg
    | cons p pairs ih =>
      exact ih (fun q hq ↦ h q (List.mem_cons_of_mem p hq)) _
        (hrecord g p (h p List.mem_cons_self) hg)
  have hrun (cs' : List Change) (h : ∀ c ∈ cs', c ∈ cs) (g : CallGraph) (hg : P g) :
      P (cs'.foldl apply g) := by
    induction cs' generalizing g with
    | nil => exact hg
    | cons c cs' ih =>
      refine ih (fun d hd ↦ h d (List.mem_cons_of_mem c hd)) _ ?_
      have hc : c ∈ cs := h c List.mem_cons_self
      cases ht : c.isTrim with
      | false =>
        rw [apply_eq_foldl g ht]
        exact hfold c.recorded (fun p hp ↦ List.mem_flatMap.2 ⟨c, hc, hp⟩) g hg
      | true =>
        cases c with
        | trim points => exact htrim ⟨_, hc, ht⟩ g points hg
        | _ => cases ht
  exact hrun cs (fun _ ↦ id) empty hempty

end CallGraph

end FunctorCalls
