import FunctorCalls.Program

namespace FunctorCalls

mutual

/-- What is left of code are the callables that it names with their type arguments, and where these
names stand. -/
def Expr.skeleton : Expr → Expr
  | ⟨kind, _, _⟩ => ⟨kind.skeleton, .base .unit, none⟩

/-- All that names no callable and has no parts is taken for the unit value. Operators, the names of
fields and the types of new items are fixed. -/
def ExprKind.skeleton : ExprKind → ExprKind
  | .unit => .unit
  | .literal _ => .unit
  | .identifier (.callable name) typeArgs => .identifier (.callable name) typeArgs
  | .identifier (.localVar _) _ => .unit
  | .identifier .invalid _ => .unit
  | .call callee argument => .call callee.skeleton argument.skeleton
  | .adjoint e => .adjoint e.skeleton
  | .controlled e => .controlled e.skeleton
  | .tuple es => .tuple (Expr.itemsSkeleton es)
  | .array es => .array (Expr.itemsSkeleton es)
  | .filledArray value size => .filledArray value.skeleton size.skeleton
  | .newArray _ length => .newArray (.base .unit) length.skeleton
  | .item array index => .item array.skeleton index.skeleton
  | .field record _ => .field record.skeleton ""
  | .range start step stop => .range start.skeleton (Expr.optionSkeleton step) stop.skeleton
  | .unary _ e => .unary .negate e.skeleton
  | .binary _ lhs rhs => .binary .add lhs.skeleton rhs.skeleton
  | .conditional condition ifTrue ifFalse =>
    .conditional condition.skeleton ifTrue.skeleton ifFalse.skeleton
  | .update value accessor part => .update value.skeleton accessor.skeleton part.skeleton
  | .missing => .unit

def Expr.itemsSkeleton : List Expr → List Expr
  | [] => []
  | e :: es => e.skeleton :: Expr.itemsSkeleton es

def Expr.optionSkeleton : Option Expr → Option Expr
  | none => none
  | some e => some e.skeleton

end

mutual

def QubitInit.skeleton : QubitInit → QubitInit
  | .single => .single
  | .register size => .register size.skeleton
  | .tuple is => .tuple (QubitInit.itemsSkeleton is)

def QubitInit.itemsSkeleton : List QubitInit → List QubitInit
  | [] => []
  | i :: is => i.skeleton :: QubitInit.itemsSkeleton is

end

mutual

/-- Nothing is bound by name, all bindings are of one kind, and all qubits are allocated. -/
def Stmt.skeleton : Stmt → Stmt
  | .expr e => .expr e.skeleton
  | .ret e => .ret e.skeleton
  | .fail e => .fail e.skeleton
  | .bind _ _ rhs => .bind .immutable .discard rhs.skeleton
  | .assign lhs rhs => .assign lhs.skeleton rhs.skeleton
  | .conditional branches default =>
    .conditional (Scope.branchesSkeleton branches) (Scope.optionSkeleton default)
  | .forLoop _ _ iterable body => .forLoop .discard (.base .unit) iterable.skeleton body.skeleton
  | .whileLoop condition body => .whileLoop condition.skeleton body.skeleton
  | .repeatUntil body condition fixup =>
    .repeatUntil body.skeleton condition.skeleton fixup.skeleton
  | .conjugate outer inner => .conjugate outer.skeleton inner.skeleton
  | .qubits _ _ init body => .qubits .allocate .discard init.skeleton (Scope.optionSkeleton body)
  | .block scope => .block scope.skeleton

def Scope.skeleton : Scope → Scope
  | ⟨statements⟩ => ⟨Stmt.itemsSkeleton statements⟩

def Stmt.itemsSkeleton : List Stmt → List Stmt
  | [] => []
  | s :: ss => s.skeleton :: Stmt.itemsSkeleton ss

def Scope.branchesSkeleton : List (Expr × Scope) → List (Expr × Scope)
  | [] => []
  | (condition, body) :: branches =>
    (condition.skeleton, body.skeleton) :: Scope.branchesSkeleton branches

def Scope.optionSkeleton : Option Scope → Option Scope
  | none => none
  | some s => some s.skeleton

end

def Implementation.skeleton : Implementation → Implementation
  | .provided _ body => .provided .discard body.skeleton
  | .intrinsic => .intrinsic
  | .external => .intrinsic
  | .generated _ => .intrinsic

theorem Expr.itemsSkeleton_eq_map (es : List Expr) :
    Expr.itemsSkeleton es = es.map Expr.skeleton := by
  induction es with
  | nil => rfl
  | cons e es ih => rw [itemsSkeleton, ih, List.map_cons]

theorem QubitInit.itemsSkeleton_eq_map (is : List QubitInit) :
    QubitInit.itemsSkeleton is = is.map QubitInit.skeleton := by
  induction is with
  | nil => rfl
  | cons i is ih => rw [itemsSkeleton, ih, List.map_cons]

theorem Stmt.itemsSkeleton_eq_map (ss : List Stmt) :
    Stmt.itemsSkeleton ss = ss.map Stmt.skeleton := by
  induction ss with
  | nil => rfl
  | cons s ss ih => rw [itemsSkeleton, ih, List.map_cons]

theorem Scope.branchesSkeleton_eq_map (branches : List (Expr × Scope)) :
    Scope.branchesSkeleton branches = branches.map fun b ↦ (b.1.skeleton, b.2.skeleton) := by
  induction branches with
  | nil => rfl
  | cons b branches ih => rw [branchesSkeleton, ih, List.map_cons]

end FunctorCalls
