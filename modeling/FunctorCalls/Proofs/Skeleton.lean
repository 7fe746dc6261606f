import FunctorCalls.Proofs.FunctorLaws
import FunctorCalls.Skeleton

namespace FunctorCalls

open Change

namespace Node

def skeleton : Node → Node
  | expr e => expr e.skeleton
  | stmt s => stmt s.skeleton
  | scope s => scope s.skeleton
  | init i => init i.skeleton

theorem parts_skeleton (n : Node) :
    n.skeleton.parts = n.parts.map fun p ↦ (p.1, p.2.skeleton) := by
  cases n with
  | expr e =>
    obtain ⟨kind, ty, span⟩ := e
    cases kind with
    | tuple es =>
      rcases es with _ | ⟨e, _ | ⟨e', es⟩⟩ <;>
        simp [skeleton, parts, Expr.skeleton, ExprKind.skeleton, Expr.itemsSkeleton,
          Expr.itemsSkeleton_eq_map]
    | array es =>
      simp [skeleton, parts, Expr.skeleton, ExprKind.skeleton, Expr.itemsSkeleton_eq_map]
    | identifier symbol typeArgs => cases symbol <;> rfl
    | range start step stop => cases step <;> rfl
    | _ => rfl
  | stmt s =>
    cases s with
    | conditional branches default =>
      cases default <;> simp [skeleton, parts, Stmt.skeleton, Scope.branchesSkeleton_eq_map,
        Scope.optionSkeleton, List.flatMap_map, List.map_flatMap]
    | qubits source binding i body => cases body <;> rfl
    | _ => rfl
  | scope s =>
    obtain ⟨ss⟩ := s
    simp [skeleton, parts, Scope.skeleton, Stmt.itemsSkeleton_eq_map]
  | init i =>
    cases i <;> simp [skeleton, parts, QubitInit.skeleton, QubitInit.itemsSkeleton_eq_map]

theorem ownReferences_skeleton (n : Node) (c : Context) :
    n.skeleton.ownReferences c = n.ownReferences c := by
  cases n with
  | expr e =>
    obtain ⟨kind, ty, span⟩ := e
    cases kind with
    | identifier symbol typeArgs => cases symbol <;> rfl
    | _ => rfl
  | _ => rfl

theorem references_skeleton (n : Node) (c : Context) :
    n.skeleton.references c = n.references c := by
  induction n using partsInduction generalizing c with
  | h n ih =>
    rw [references_eq, references_eq c n, ownReferences_skeleton, parts_skeleton, List.flatMap_map,
      List.flatMap_def, List.flatMap_def]
    exact congrArg (n.ownReferences c ++ List.flatten ·)
      (List.map_congr_left fun p hp ↦ ih p hp (p.1.context c))

end Node

namespace Implementation

theorem map_references_body?_skeleton (m : Implementation) :
    m.skeleton.body?.map Scope.references = m.body?.map Scope.references := by
  cases m with
  | provided argument body => exact congrArg some (Node.references_skeleton (.scope body) .value)
  | _ => rfl

end Implementation

/-- Implementations of one instance that differ in nothing that a skeleton has. -/
structure Specialization.Resembles (s t : Specialization) : Prop where
  id : s.id = t.id
  skeleton : s.implementation.skeleton = t.implementation.skeleton

namespace Specialization.Resembles

variable {s t : Specialization}

theorem map_references_body? (h : s.Resembles t) :
    s.implementation.body?.map Scope.references = t.implementation.body?.map Scope.references := by
  rw [← Implementation.map_references_body?_skeleton, h.skeleton,
    Implementation.map_references_body?_skeleton]

theorem bodyReferences_eq (h : s.Resembles t) : bodyReferences s = bodyReferences t := by
  have hm (s : Specialization) : bodyReferences s =
      ((s.implementation.body?.map Scope.references).getD []).map fun i ↦ (s.id, i) := by
    rw [bodyReferences]
    cases s.implementation.body? <;> rfl
  rw [hm, hm, h.id, h.map_references_body?]

theorem hasBody_eq (h : s.Resembles t) : Builder.hasBody s = Builder.hasBody t := by
  have hb := congrArg Option.isSome h.map_references_body?
  rwa [Option.isSome_map, Option.isSome_map] at hb

end Specialization.Resembles

theorem map_eq_of_forall₂ {α β : Type} {R : α → α → Prop} {as bs : List α}
    (h : List.Forall₂ R as bs) {f : α → β} (hf : ∀ a b, R a b → f a = f b) :
    as.map f = bs.map f := by
  rw [← List.forall₂_eq_eq_eq, List.forall₂_map_left_iff, List.forall₂_map_right_iff]
  exact h.imp hf

namespace Program

variable {p q : Program}

section

variable (h : List.Forall₂ Specialization.Resembles p.specializations q.specializations)

include h

theorem recorded_eq_of_resembles : (visitProgram p).recorded = (visitProgram q).recorded := by
  rw [recorded, recorded, List.flatMap_def, List.flatMap_def,
    map_eq_of_forall₂ h fun _ _ ↦ Specialization.Resembles.bodyReferences_eq]

theorem visitProgram_eq_of_resembles :
    Builder.empty.visitProgram p = Builder.empty.visitProgram q := by
  have hc (p : Program) : p.specializations.countP Builder.hasBody =
      (p.specializations.map Builder.hasBody).countP id := by
    rw [List.countP_map, Function.id_comp]
  have hr := recorded_eq_of_resembles h
  rw [recorded, recorded] at hr
  rw [Builder.visitProgram, Builder.visitProgram, Builder.foldl_visitSpecialization rfl,
    Builder.foldl_visitSpecialization rfl, hr, hc, hc,
    map_eq_of_forall₂ h fun _ _ ↦ Specialization.Resembles.hasBody_eq]

end

/-- Programs whose specializations, one by one, are of the same instances and have the same
skeletons are read alike: the graphs have the same nodes and edges and the same table of types, with
numbers and without, and so have the graphs for any options. Nothing else of a program comes into
it, neither its callables nor its namespaces nor where it keeps them. -/
theorem skeletons_decide_callGraph
    (h : List.Forall₂ Specialization.Resembles p.specializations q.specializations) :
    Builder.empty.visitProgram p = Builder.empty.visitProgram q ∧ p.callGraph = q.callGraph ∧
      p.store = q.store ∧ ∀ o, p.callGraphWith o = q.callGraphWith o := by
  obtain ⟨hg, hs⟩ := callGraph_eq_of_recorded (recorded_eq_of_resembles h)
  refine ⟨visitProgram_eq_of_resembles h, hg, hs, fun o ↦ ?_⟩
  rw [callGraphWith, callGraphWith, hg]

namespace Sample

def looping : Scope :=
  let bound : Stmt := .letIn "n" (.ofKind (.binary .add (.int 1) (.bool true)) (.base .int))
  let items : Expr := .ofKind (.range (.int 0) none (.localVar "n" (.base .int))) (.base .range)
  let step : Stmt := .expr (.call (.generic ⟨"Lib", "Apply"⟩ [.base .int] (.base .unit))
    (.ofKind (.unary .negate (.localVar "i" (.base .int))) (.base .int)) (.base .unit))
  ⟨[bound, .forLoop (.declare "i") (.base .int) items ⟨[step]⟩]⟩

def gathered : Program := ⟨⟨[("App", app [main looping, mainAdjoint])], by simp⟩⟩

def relabelled : Scope :=
  let bound : Stmt := .bind .mutable (.tuple [.discard])
    (.withSpan (.ofKind (.binary .eq .unit (.missing (.base .qubit))) (.base .bool)) ⟨3, 7⟩)
  let items : Expr := .ofKind (.range (.localVar "a" (.base .bigInt)) none
    (.ofKind (.identifier .invalid (some [.base .bool])) (.base .pauli))) (.array (.base .int))
  let step : Stmt := .expr (.call (.generic ⟨"Lib", "Apply"⟩ [.base .int] (.base .range))
    (.ofKind (.unary .bitwiseNot (.ofKind (.literal (.string "i")) (.base .string))) (.tuple []))
    (.base .bool))
  ⟨[bound, .forLoop .discard (.base .qubit) items ⟨[step]⟩]⟩

def scattered : Program :=
  let body : Specialization := ⟨⟨"App", "Main"⟩, .body, none, .provided (.declare "x") relabelled⟩
  let adjoint : Specialization := ⟨⟨"App", "Main"⟩, .adjoint, none, .intrinsic⟩
  let first : Callable := ⟨⟨"Other", "f"⟩, .function, .base .int, [body]⟩
  let second : Callable := ⟨⟨"", "g"⟩, .typeConstructor, .base .bool, [adjoint]⟩
  ⟨⟨[("Lib", ⟨"Old", ⟨[("h", first)], by simp⟩⟩), ("App", ⟨"New", ⟨[("k", second)], by simp⟩⟩)],
    by decide⟩⟩

end Sample

theorem skeletons_decide_callGraph_scattered :
    List.Forall₂ Specialization.Resembles Sample.gathered.specializations
      Sample.scattered.specializations ∧
    Sample.gathered.callGraph = Sample.scattered.callGraph ∧
    Sample.gathered.store = Sample.scattered.store := by
  have h : List.Forall₂ Specialization.Resembles Sample.gathered.specializations
      Sample.scattered.specializations := .cons ⟨rfl, rfl⟩ (.cons ⟨rfl, rfl⟩ .nil)
  obtain ⟨-, hg, hs, -⟩ := skeletons_decide_callGraph h
  exact ⟨h, hg, hs⟩

end Program

end FunctorCalls
