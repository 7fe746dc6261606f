import FunctorCalls.References

namespace FunctorCalls

/-- What a part is to the code that it is directly part of. -/
inductive Place
  | adjoint
  | controlled
  | soleItem
  | arrayItem
  | indexed
  | branch
  | callee
  /-- Any other place of an expression, and every place of a statement or a scope. -/
  | other
  deriving DecidableEq

inductive Node
  | expr (e : Expr)
  | stmt (s : Stmt)
  | scope (s : Scope)
  | init (i : QubitInit)

namespace Node

def parts : Node → List (Place × Node)
  | expr ⟨.unit, _, _⟩ => []
  | expr ⟨.literal _, _, _⟩ => []
  | expr ⟨.identifier _ _, _, _⟩ => []
  | expr ⟨.call callee argument, _, _⟩ => [(.callee, expr callee), (.other, expr argument)]
  | expr ⟨.adjoint e, _, _⟩ => [(.adjoint, expr e)]
  | expr ⟨.controlled e, _, _⟩ => [(.controlled, expr e)]
  | expr ⟨.tuple [e], _, _⟩ => [(.soleItem, expr e)]
  | expr ⟨.tuple es, _, _⟩ => es.map fun e ↦ (.other, expr e)
  | expr ⟨.array es, _, _⟩ => es.map fun e ↦ (.arrayItem, expr e)
  | expr ⟨.filledArray value size, _, _⟩ => [(.other, expr value), (.other, expr size)]
  | expr ⟨.newArray _ length, _, _⟩ => [(.other, expr length)]
  | expr ⟨.item array index, _, _⟩ => [(.indexed, expr array), (.other, expr index)]
  | expr ⟨.field record _, _, _⟩ => [(.other, expr record)]
  | expr ⟨.range start step stop, _, _⟩ =>
    (.other, expr start) :: step.toList.map (fun e ↦ (.other, expr e)) ++ [(.other, expr stop)]
  | expr ⟨.unary _ e, _, _⟩ => [(.other, expr e)]
  | expr ⟨.binary _ lhs rhs, _, _⟩ => [(.other, expr lhs), (.other, expr rhs)]
  | expr ⟨.conditional condition ifTrue ifFalse, _, _⟩ =>
    [(.other, expr condition), (.branch, expr ifTrue), (.branch, expr ifFalse)]
  | expr ⟨.update value accessor part, _, _⟩ =>
    [(.other, expr value), (.other, expr accessor), (.other, expr part)]
  | expr ⟨.missing, _, _⟩ => []
  | stmt (.expr e) | stmt (.ret e) | stmt (.fail e) => [(.other, expr e)]
  | stmt (.bind _ _ rhs) => [(.other, expr rhs)]
  | stmt (.assign lhs rhs) => [(.other, expr lhs), (.other, expr rhs)]
  | stmt (.conditional branches default) =>
    branches.flatMap (fun b ↦ [(.other, expr b.1), (.other, scope b.2)]) ++
      default.toList.map fun s ↦ (.other, scope s)
  | stmt (.forLoop _ _ iterable body) => [(.other, expr iterable), (.other, scope body)]
  | stmt (.whileLoop condition body) => [(.other, expr condition), (.other, scope body)]
  | stmt (.repeatUntil body condition fixup) =>
    [(.other, scope body), (.other, expr condition), (.other, scope fixup)]
  | stmt (.conjugate outer inner) => [(.other, scope outer), (.other, scope inner)]
  | stmt (.qubits _ _ i body) => (.other, init i) :: body.toList.map fun s ↦ (.other, scope s)
  | stmt (.block s) => [(.other, scope s)]
  | scope ⟨ss⟩ => ss.map fun s ↦ (.other, stmt s)
  | init .single => []
  | init (.register size) => [(.other, expr size)]
  | init (.tuple is) => is.map fun i ↦ (.other, init i)

def references (c : Context) : Node → List Instance
  | expr e => e.references c
  | stmt s => s.references
  | scope s => s.references
  | init i => i.references

def ownReferences (c : Context) : Node → List Instance
  | expr ⟨.identifier (.callable name) typeArgs, _, _⟩ => c.references name typeArgs
  | _ => []

end Node

def Place.context : Place → Context → Context
  | adjoint, c => c.underAdjoint
  | controlled, c => c.underControlled
  | soleItem, c | arrayItem, c | indexed, c | branch, c => c
  | callee, _ => .callee
  | other, _ => .value

namespace Node

theorem references_eq (c : Context) (n : Node) :
    n.references c =
      n.ownReferences c ++ n.parts.flatMap fun p ↦ p.2.references (p.1.context c) := by
  cases n with
  | expr e =>
    obtain ⟨kind, ty, span⟩ := e
    cases kind with
    | tuple es =>
      rcases es with _ | ⟨e, _ | ⟨e', es⟩⟩ <;>
        simp [references, ownReferences, parts, Expr.references, ExprKind.references,
          Expr.itemsReferences_eq_flatMap, Place.context, List.flatMap_map]
    | identifier symbol typeArgs =>
      cases symbol <;>
        simp [references, ownReferences, parts, Expr.references, ExprKind.references]
    | _ =>
      simp [references, ownReferences, parts, Expr.references, ExprKind.references,
        Expr.itemsReferences_eq_flatMap, Expr.optionReferences_eq_flatMap, Place.context,
        List.flatMap_map]
  | stmt s =>
    cases s <;>
      simp [references, ownReferences, parts, Stmt.references, Place.context,
        Scope.optionReferences_eq_flatMap, Scope.branchesReferences_eq_flatMap, List.flatMap_map,
        List.flatMap_assoc]
  | scope s =>
    obtain ⟨ss⟩ := s
    simp [references, ownReferences, parts, Scope.references, Place.context,
      Stmt.itemsReferences_eq_flatMap, List.flatMap_map]
  | init i =>
    cases i <;>
      simp [references, ownReferences, parts, QubitInit.references, Place.context,
        QubitInit.itemsReferences_eq_flatMap, List.flatMap_map]

theorem sizeOf_lt_of_mem_parts (n : Node) : ∀ p ∈ n.parts, sizeOf p.2 < sizeOf n := by
  cases n with
  | expr e =>
    obtain ⟨kind, ty, span⟩ := e
    cases kind with
    | tuple es =>
      rcases es with _ | ⟨e, _ | ⟨e', es⟩⟩
      · simp [parts]
      · simp [parts]
        omega
      · intro p hp
        obtain ⟨e'', he, rfl⟩ := List.mem_map.1 hp
        have h := List.sizeOf_lt_of_mem he
        simp at h ⊢
        omega
    | array es =>
      intro p hp
      obtain ⟨e, he, rfl⟩ := List.mem_map.1 hp
      have h := List.sizeOf_lt_of_mem he
      simp
      omega
    | range start step stop => cases step <;> simp [parts] <;> omega
    | _ => simp [parts] <;> omega
  | stmt s =>
    cases s with
    | conditional branches default =>
      intro p hp
      rcases List.mem_append.1 hp with hp | hp
      · obtain ⟨⟨condition, body⟩, hb, hp⟩ := List.mem_flatMap.1 hp
        have h := List.sizeOf_lt_of_mem hb
        simp at h hp
        rcases hp with rfl | rfl <;> simp <;> omega
      · obtain ⟨body, hb, rfl⟩ := List.mem_map.1 hp
        obtain rfl := Option.mem_toList.1 hb
        simp
        omega
    | qubits source binding i body =>
      cases body <;> simp [parts]
      all_goals omega
    | _ => simp [parts] <;> omega
  | scope s =>
    obtain ⟨ss⟩ := s
    intro p hp
    obtain ⟨s, hs, rfl⟩ := List.mem_map.1 hp
    have h := List.sizeOf_lt_of_mem hs
    simp
    omega
  | init i =>
    cases i with
    | single => simp [parts]
    | register size => simp [parts]
    | tuple is =>
      intro p hp
      obtain ⟨i, hi, rfl⟩ := List.mem_map.1 hp
      have h := List.sizeOf_lt_of_mem hi
      simp
      omega

theorem partsInduction {motive : Node → Prop}
    (h : ∀ n, (∀ p ∈ n.parts, motive p.2) → motive n) (n : Node) : motive n :=
  h n fun p _ ↦ partsInduction h p.2
termination_by sizeOf n
decreasing_by exact sizeOf_lt_of_mem_parts n p ‹_›

end Node

theorem Expr.partsInduction {motive : Expr → Prop}
    (h : ∀ e, (∀ p x, (p, Node.expr x) ∈ (Node.expr e).parts → motive x) → motive e) (e : Expr) :
    motive e :=
  h e fun p x hx ↦
    have := Node.sizeOf_lt_of_mem_parts _ _ hx
    partsInduction h x
termination_by sizeOf e
decreasing_by simpa using this

end FunctorCalls
