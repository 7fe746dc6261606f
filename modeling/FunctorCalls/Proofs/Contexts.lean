import FunctorCalls.Proofs.FunctorLaws
import FunctorCalls.Proofs.Occurrence

namespace FunctorCalls

open Change

namespace Place

theorem exists_mem_variants (c : Context) (path : List Place) : ∃ v, v ∈ variants c path := by
  rw [variants]
  split
  · exact ⟨_, List.mem_singleton_self _⟩
  · exact ⟨.body, Variant.mem_all .body⟩
  · split
    · exact ⟨_, List.mem_singleton_self _⟩
    · exact ⟨.body, Variant.mem_all .body⟩

/-- The context counts only where no place of the path decides, and there a value stands for all
variants. -/
theorem mem_variants_value {c : Context} {path : List Place} {v : Variant}
    (h : v ∈ variants c path) : v ∈ variants .value path := by
  rw [variants] at h ⊢
  cases hl : landing path with
  | none => exact Variant.mem_all v
  | some p =>
    rw [hl] at h
    cases p <;> exact h

end Place

structure AddsVariants (is js : List Instance) : Prop where
  mem : ∀ i ∈ is, i ∈ js
  exists_variant : ∀ j ∈ js, ∃ v, ⟨j.callable, v, j.typeArgs⟩ ∈ is

theorem AddsVariants.append {is js : List Instance} (h : AddsVariants is js)
    (before behind : List Instance) :
    AddsVariants (before ++ is ++ behind) (before ++ js ++ behind) := by
  constructor
  · intro i hi
    simp only [List.mem_append] at hi ⊢
    exact hi.imp_left (Or.imp_right (h.mem i))
  · intro j hj
    simp only [List.mem_append] at hj ⊢
    rcases hj with (hj | hj) | hj
    · exact ⟨j.variant, .inl (.inl hj)⟩
    · obtain ⟨v, hv⟩ := h.exists_variant j hj
      exact ⟨v, .inl (.inr hv)⟩
    · exact ⟨j.variant, .inr hj⟩

namespace Node

variable {c : Context} {n : Node}

theorem mem_references_iff_variants {i : Instance} : i ∈ n.references c ↔
    ∃ path, Occurs i.callable i.typeArgs path n ∧ i.variant ∈ Place.variants c path := by
  rw [mem_references_iff_occurs]
  constructor
  · intro ⟨name, typeArgs, path, ho, hi⟩
    obtain ⟨v, hv, rfl⟩ := List.mem_map.1 hi
    exact ⟨path, ho, Place.variants_foldr_context c path ▸ hv⟩
  · intro ⟨path, ho, hv⟩
    refine ⟨_, _, path, ho, List.mem_map.2 ⟨i.variant, ?_, rfl⟩⟩
    rwa [Place.variants_foldr_context]

theorem exists_mem_references_iff {name : Name} {typeArgs : Option (List Ty)} :
    (∃ v, ⟨name, v, typeArgs⟩ ∈ n.references c) ↔ ∃ path, Occurs name typeArgs path n := by
  simp only [mem_references_iff_variants]
  constructor
  · intro ⟨_, path, ho, _⟩
    exact ⟨path, ho⟩
  · intro ⟨path, ho⟩
    obtain ⟨v, hv⟩ := Place.exists_mem_variants c path
    exact ⟨v, path, ho, hv⟩

theorem addsVariants_value (n : Node) (c : Context) :
    AddsVariants (n.references c) (n.references .value) where
  mem i hi := by
    obtain ⟨path, ho, hv⟩ := mem_references_iff_variants.1 hi
    exact mem_references_iff_variants.2 ⟨path, ho, Place.mem_variants_value hv⟩
  exists_variant j hj := by
    obtain ⟨path, ho, -⟩ := mem_references_iff_variants.1 hj
    exact exists_mem_references_iff.2 ⟨path, ho⟩

/-- A call gives way to code of the same two parts, in any order and any number of times, in which
what was called is a value. -/
inductive Unapplies : Node → Node → Prop
  | call {e f a : Expr} {n : Node} : e.kind = .call f a →
      (∀ p, p ∈ n.parts ↔ p = (.other, .expr f) ∨ p = (.other, .expr a)) → Unapplies (.expr e) n

theorem ownReferences_eq_nil_of_mem_parts {p : Place × Node} (h : p ∈ n.parts) :
    n.ownReferences c = [] := by
  rw [List.eq_nil_iff_forall_not_mem]
  intro i hi
  obtain ⟨name, typeArgs, ty, span, rfl⟩ := eq_identifier_of_mem_ownReferences hi
  cases h

theorem Unapplies.addsVariants {m n : Node} (h : m.Unapplies n) (c : Context) :
    AddsVariants (m.references c) (n.references c) := by
  obtain @⟨e, f, a, n, he, hn⟩ := h
  have hm (i : Instance) : i ∈ (expr e).references c ↔
      i ∈ (expr f).references .callee ∨ i ∈ (expr a).references .value := by
    rw [references, e.references_kind, he, ExprKind.references, List.mem_append]
    rfl
  have hv (i : Instance) : i ∈ n.references c ↔
      i ∈ (expr f).references .value ∨ i ∈ (expr a).references .value := by
    have ho : n.ownReferences c = [] := ownReferences_eq_nil_of_mem_parts ((hn _).2 (.inl rfl))
    rw [references_eq, ho, List.nil_append, List.mem_flatMap]
    simp [hn, or_and_right, exists_or, Place.context]
  have hf := addsVariants_value (expr f) .callee
  constructor
  · intro i hi
    exact (hv i).2 (((hm i).1 hi).imp_left (hf.mem i))
  · intro j hj
    simp only [hm]
    rcases (hv j).1 hj with hj | hj
    · obtain ⟨v, hv⟩ := hf.exists_variant j hj
      exact ⟨v, .inl hv⟩
    · exact ⟨j.variant, .inr hj⟩

end Node

/-- The edges of one graph, and edges from the same callers to other variants of their callees. -/
structure CallGraph.GainsVariants (g g' : CallGraph) : Prop where
  edges : ∀ e ∈ g.edges, e ∈ g'.edges
  exists_variant : ∀ e ∈ g'.edges,
    ∃ v, ⟨e.caller, ⟨e.callee.callable, v, e.callee.typeArgs⟩⟩ ∈ g.edges

theorem CallGraph.gainsVariants_walk (g : CallGraph) (caller : Instance) (e : Expr) (c : Context) :
    (g.walk caller (.expr e c)).GainsVariants (g.walk caller (.expr e .value)) := by
  have h := (Node.expr e).addsVariants_value c
  constructor
  · intro edge he
    rw [walk, mem_edges_recordAll] at he ⊢
    rcases he with he | ⟨i, hi, he⟩
    · exact .inl he
    · exact .inr ⟨i, h.mem i hi, he⟩
  · intro edge he
    rw [walk, mem_edges_recordAll] at he
    simp only [walk, mem_edges_recordAll]
    rcases he with he | ⟨i, hi, rfl⟩
    · exact ⟨edge.callee.variant, .inl he⟩
    · obtain ⟨v, hv⟩ := h.exists_variant i hi
      exact ⟨v, .inr ⟨_, hv, rfl⟩⟩

section

variable {R : Node → Node → Prop}
  (hR : ∀ m n, R m n → ∀ c, AddsVariants (m.references c) (n.references c))

include hR

theorem Specialization.Changes.addsVariants {s t : Specialization} (h : s.Changes R t) :
    ∃ is js, AddsVariants is js ∧ bodyReferences s = is.map (fun i ↦ (s.id, i)) ∧
      bodyReferences t = js.map fun j ↦ (s.id, j) := by
  obtain @⟨body, body', i, argument, h⟩ := h
  refine ⟨body.references, body'.references, ?_, rfl, rfl⟩
  exact h.references (fun before _ _ behind h ↦ h.append before behind) hR .value

theorem Program.Changes.gainsVariants {p q : Program} (h : p.Changes R q) :
    p.callGraph.GainsVariants q.callGraph := by
  have hs := h.specializations.sameUpTo
  constructor
  · intro e he
    obtain ⟨s, hsp, r, hr, rfl⟩ := mem_edges_callGraph_iff.1 he
    obtain ⟨t, htq, rfl | hst⟩ := hs.1 s hsp
    · exact mem_edges_callGraph_iff.2 ⟨s, htq, r, hr, rfl⟩
    · obtain ⟨is, js, hv, his, hjs⟩ := hst.addsVariants hR
      obtain ⟨i, hi, rfl⟩ := List.mem_map.1 (his ▸ hr)
      refine mem_edges_callGraph_iff.2 ⟨t, htq, (s.id, i), ?_, rfl⟩
      exact hjs ▸ List.mem_map_of_mem (hv.mem i hi)
  · intro e he
    obtain ⟨t, htq, r, hr, rfl⟩ := mem_edges_callGraph_iff.1 he
    obtain ⟨s, hsp, rfl | hst⟩ := hs.2 t htq
    · exact ⟨r.2.variant, mem_edges_callGraph_iff.2 ⟨s, hsp, r, hr, rfl⟩⟩
    · obtain ⟨is, js, hv, his, hjs⟩ := hst.addsVariants hR
      obtain ⟨j, hj, rfl⟩ := List.mem_map.1 (hjs ▸ hr)
      obtain ⟨v, hi⟩ := hv.exists_variant j hj
      have hr : (s.id, ⟨j.callable, v, j.typeArgs⟩) ∈ bodyReferences s :=
        his ▸ List.mem_map_of_mem hi
      exact ⟨v, mem_edges_callGraph_iff.2 ⟨s, hsp, _, hr, rfl⟩⟩

end

/-- Of all contexts that of a value has the most edges, and yet no context leaves out a callee: each
has, for every occurrence of a callable in the expression, an edge to some variant of it at the type
arguments given there. So a callee that becomes a value, anywhere in a program, only adds
variants. -/
theorem CallGraph.value_context_adds_variants (g : CallGraph) (caller : Instance) (e : Expr) :
    (∀ c, (g.walk caller (.expr e c)).GainsVariants (g.walk caller (.expr e .value))) ∧
    (∀ c name typeArgs, (∃ v, ⟨name, v, typeArgs⟩ ∈ e.references c) ↔
      ∃ path, Occurs name typeArgs path (.expr e)) ∧
    ∀ p q : Program, p.Changes Node.Unapplies q → p.callGraph.GainsVariants q.callGraph :=
  ⟨g.gainsVariants_walk caller e, fun _ _ _ ↦ Node.exists_mem_references_iff (n := .expr e),
    fun _ _ h ↦ h.gainsVariants fun _ _ h ↦ h.addsVariants⟩

namespace Program

namespace Sample

def pairing (f : Expr) : Program := evaluating (.ofKind (.tuple [f, .unit]) (.base .unit))

theorem calling_changes_pairing (f : Expr) :
    (calling f).Changes Node.Unapplies (pairing f) := by
  have hpair : Node.Unapplies (.expr (.call f .unit (.base .unit)))
      (.expr (.ofKind (.tuple [f, .unit]) (.base .unit))) :=
    .call rfl fun p ↦ by simp [Expr.ofKind, Node.parts]
  exact evaluating_changes (.here hpair)

end Sample

theorem value_context_adds_variants_pairing :
    (Sample.calling (Sample.global "F")).callGraph.GainsVariants
      (Sample.pairing (Sample.global "F")).callGraph ∧
    (Sample.calling (Sample.global "F")).callGraph.edgeCount = 1 ∧
    (Sample.pairing (Sample.global "F")).callGraph.edgeCount = 4 := by
  obtain ⟨-, -, h⟩ := CallGraph.value_context_adds_variants .empty ⟨⟨"App", "Main"⟩, .body, none⟩
    (Sample.global "F")
  exact ⟨h _ _ (Sample.calling_changes_pairing _), by decide +kernel, by decide +kernel⟩

end Program

end FunctorCalls
