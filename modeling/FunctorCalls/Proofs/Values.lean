import FunctorCalls.CallGraph
import FunctorCalls.Proofs.Parts
import FunctorCalls.Values
import Mathlib.Logic.Basic

namespace FunctorCalls

namespace CallableValue

/-- What a value refers to in a context: the functors of the context are applied to it last. -/
def instances (v : CallableValue) (c : Context) : List Instance :=
  (Context.mk c.inCall (v.adjoint ^^ c.adjoint) (v.controlled || c.controlled)).references
    v.callable v.typeArgs

theorem instances_applyAdjoint (v : CallableValue) (c : Context) :
    v.applyAdjoint.instances c = v.instances c.underAdjoint := by
  simp [instances, applyAdjoint, Context.underAdjoint]

theorem instances_applyControlled (v : CallableValue) (c : Context) :
    v.applyControlled.instances c = v.instances c.underControlled := by
  simp [instances, applyControlled, Context.underControlled]

theorem mem_instances_called {v : CallableValue} {a k : Bool} {i : Instance} :
    i ∈ v.instances ⟨true, a, k⟩ ↔
      i = ⟨v.callable, .ofFunctors (v.adjoint ^^ a) (v.controlled || k), v.typeArgs⟩ := by
  simp [instances, Context.references, Context.variants]

theorem mem_instances_value {v : CallableValue} {a k : Bool} {i : Instance} :
    i ∈ v.instances ⟨false, a, k⟩ ↔ ∃ variant, ⟨v.callable, variant, v.typeArgs⟩ = i := by
  simp [instances, Context.references, Context.variants, Variant.mem_all]

end CallableValue

namespace Expr

theorem mem_references_iff {e : Expr} {c : Context} {i : Instance} : i ∈ e.references c ↔
    i ∈ e.values.flatMap (·.instances c) ∨ i ∈ e.bystanders.flatMap (·.references .value) := by
  induction e using partsInduction generalizing c with
  | h e ih =>
    obtain ⟨kind, ty, span⟩ := e
    cases kind with
    | identifier symbol typeArgs =>
      cases symbol <;>
        simp [references, ExprKind.references, values, bystanders, CallableValue.instances]
    | adjoint e =>
      simpa [references, ExprKind.references, values, bystanders,
        CallableValue.instances_applyAdjoint, List.flatMap_map] using
        ih .adjoint e List.mem_cons_self (c := c.underAdjoint)
    | controlled e =>
      simpa [references, ExprKind.references, values, bystanders,
        CallableValue.instances_applyControlled, List.flatMap_map] using
        ih .controlled e List.mem_cons_self (c := c.underControlled)
    | tuple es =>
      rcases es with _ | ⟨e, _ | ⟨e', es⟩⟩
      · simp [references, ExprKind.references, values, bystanders]
      · simpa [references, ExprKind.references, values, bystanders] using
          ih .soleItem e List.mem_cons_self (c := c)
      · simp [references, ExprKind.references, values, bystanders]
    | array es =>
      have h e (he : e ∈ es) := ih .arrayItem e (List.mem_map_of_mem he) (c := c)
      simp only [references, ExprKind.references, values, bystanders, itemsReferences_eq_flatMap,
        itemsValues_eq_flatMap, itemsBystanders_eq_flatMap, List.flatMap_assoc]
      rw [List.mem_flatMap, List.mem_flatMap, List.mem_flatMap, ← exists_or]
      exact exists_congr fun e ↦ by rw [← and_or_left, and_congr_right (h e)]
    | item array index =>
      have h := ih .indexed array List.mem_cons_self (c := c)
      simp only [references, ExprKind.references, values, bystanders, List.flatMap_append,
        List.flatMap_singleton, List.mem_append, h, or_assoc]
    | conditional condition ifTrue ifFalse =>
      have h₁ := ih .branch ifTrue (by simp [Node.parts]) (c := c)
      have h₂ := ih .branch ifFalse (by simp [Node.parts]) (c := c)
      simp only [references, ExprKind.references, values, bystanders, List.flatMap_append,
        List.flatMap_cons, List.mem_append, h₁, h₂]
      grind
    | _ => simp [references, ExprKind.references, values, bystanders]

end Expr

namespace CallGraph

theorem mem_edges_walk_iff_instances {g : CallGraph} {caller : Instance} {e : Expr} {c : Context}
    {edge : Edge} : edge ∈ (g.walk caller (.expr e c)).edges ↔ edge ∈ g.edges ∨
      (∃ v ∈ e.values, ∃ i ∈ v.instances c, edge = ⟨caller.key, i.key⟩) ∨
      ∃ x ∈ e.bystanders, edge ∈ (empty.walk caller (.expr x .value)).edges := by
  simp only [mem_edges_walk_empty]
  rw [walk, mem_edges_recordAll]
  refine or_congr_right ⟨?_, ?_⟩
  · intro ⟨i, hi, he⟩
    obtain hi | hi := Expr.mem_references_iff.1 hi
    · obtain ⟨v, hv, hi⟩ := List.mem_flatMap.1 hi
      exact .inl ⟨v, hv, i, hi, he⟩
    · obtain ⟨x, hx, hi⟩ := List.mem_flatMap.1 hi
      exact .inr ⟨x, hx, i, hi, he⟩
  · rintro (⟨v, hv, i, hi, he⟩ | ⟨x, hx, i, hi, he⟩)
    · exact ⟨i, Expr.mem_references_iff.2 (.inl (List.mem_flatMap.2 ⟨v, hv, hi⟩)), he⟩
    · exact ⟨i, Expr.mem_references_iff.2 (.inr (List.mem_flatMap.2 ⟨x, hx, hi⟩)), he⟩

/-- In the place of a callee a walk adds an edge for each value, to the variant for the functors of
the value and those of the context together: it is adjoint if they have an odd number of adjoints,
and controlled if they have a control. In the place of a value a walk adds an edge to each variant.
All other edges are those of the bystanders. -/
theorem mem_edges_walk_iff_values (g : CallGraph) (caller : Instance) (e : Expr) (edge : Edge) :
    (∀ a k, edge ∈ (g.walk caller (.expr e ⟨true, a, k⟩)).edges ↔ edge ∈ g.edges ∨
      (∃ v ∈ e.values, ∃ variant : Variant,
        variant = .ofFunctors (v.adjoint ^^ a) (v.controlled || k) ∧
        variant.isAdjoint = (v.adjoint ^^ a) ∧ variant.isControlled = (v.controlled || k) ∧
        edge = ⟨caller.key, Instance.key ⟨v.callable, variant, v.typeArgs⟩⟩) ∨
      ∃ x ∈ e.bystanders, edge ∈ (empty.walk caller (.expr x .value)).edges) ∧
    ∀ a k, edge ∈ (g.walk caller (.expr e ⟨false, a, k⟩)).edges ↔ edge ∈ g.edges ∨
      (∃ v ∈ e.values, ∃ variant,
        edge = ⟨caller.key, Instance.key ⟨v.callable, variant, v.typeArgs⟩⟩) ∨
      ∃ x ∈ e.bystanders, edge ∈ (empty.walk caller (.expr x .value)).edges := by
  constructor <;> intro a k <;> rw [mem_edges_walk_iff_instances]
  · simp only [CallableValue.mem_instances_called, exists_eq_left, Variant.isAdjoint_ofFunctors,
      Variant.isControlled_ofFunctors, true_and]
  · simp only [CallableValue.mem_instances_value, exists_exists_eq_and]

end CallGraph

end FunctorCalls
