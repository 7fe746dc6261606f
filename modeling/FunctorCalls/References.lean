import FunctorCalls.Context
import FunctorCalls.Specialization

namespace FunctorCalls

def Context.references (c : Context) (callable : Name) (typeArgs : Option (List Ty)) :
    List Instance :=
  c.variants.map fun v ↦ ⟨callable, v, typeArgs⟩

mutual

def Expr.references (c : Context) : Expr → List Instance
  | ⟨kind, _, _⟩ => kind.references c

/-- Functors change the context of their operand. A tuple of one item, an array, an item of an array
and a conditional hand it on to the parts that their value may come from. -/
def ExprKind.references (c : Context) : ExprKind → List Instance
  | .unit => []
  | .literal _ => []
  | .identifier (.callable name) typeArgs => c.references name typeArgs
  | .identifier _ _ => []
  | .call callee argument => callee.references .callee ++ argument.references .value
  | .adjoint e => e.references c.underAdjoint
  | .controlled e => e.references c.underControlled
  | .tuple [e] => e.references c
  | .tuple es => Expr.itemsReferences .value es
  | .array es => Expr.itemsReferences c es
  | .filledArray value size => value.references .value ++ size.references .value
  | .newArray _ length => length.references .value
  | .item array index => array.references c ++ index.references .value
  | .field record _ => record.references .value
  | .range start step stop =>
    start.references .value ++ Expr.optionReferences .value step ++ stop.references .value
  | .unary _ e => e.references .value
  | .binary _ lhs rhs => lhs.references .value ++ rhs.references .value
  | .conditional condition ifTrue ifFalse =>
    condition.references .value ++ ifTrue.references c ++ ifFalse.references c
  | .update value accessor part =>
    value.references .value ++ accessor.references .value ++ part.references .value
  | .missing => []

def Expr.itemsReferences (c : Context) : List Expr → List Instance
  | [] => []
  | e :: es => e.references c ++ Expr.itemsReferences c es

def Expr.optionReferences (c : Context) : Option Expr → List Instance
  | none => []
  | some e => e.references c

end

mutual

def QubitInit.references : QubitInit → List Instance
  | .single => []
  | .register size => size.references .value
  | .tuple is => itemsReferences is

def QubitInit.itemsReferences : List QubitInit → List Instance
  | [] => []
  | i :: is => i.references ++ itemsReferences is

end

mutual

def Stmt.references : Stmt → List Instance
  | .expr e => e.references .value
  | .ret e => e.references .value
  | .fail e => e.references .value
  | .bind _ _ rhs => rhs.references .value
  | .assign lhs rhs => lhs.references .value ++ rhs.references .value
  | .conditional branches default =>
    Scope.branchesReferences branches ++ Scope.optionReferences default
  | .forLoop _ _ iterable body => iterable.references .value ++ body.references
  | .whileLoop condition body => condition.references .value ++ body.references
  | .repeatUntil body condition fixup =>
    body.references ++ condition.references .value ++ fixup.references
  | .conjugate outer inner => outer.references ++ inner.references
  | .qubits _ _ init body => init.references ++ Scope.optionReferences body
  | .block scope => scope.references

def Scope.references : Scope → List Instance
  | ⟨statements⟩ => Stmt.itemsReferences statements

def Stmt.itemsReferences : List Stmt → List Instance
  | [] => []
  | s :: ss => s.references ++ Stmt.itemsReferences ss

def Scope.branchesReferences : List (Expr × Scope) → List Instance
  | [] => []
  | (condition, body) :: branches =>
    condition.references .value ++ body.references ++ Scope.branchesReferences branches

def Scope.optionReferences : Option Scope → List Instance
  | none => []
  | some s => s.references

end

theorem Expr.itemsReferences_eq_flatMap (c : Context) (es : List Expr) :
    Expr.itemsReferences c es = es.flatMap (·.references c) := by
  induction es with
  | nil => rfl
  | cons e es ih => simp [Expr.itemsReferences, ih]

theorem Expr.optionReferences_eq_flatMap (c : Context) (e : Option Expr) :
    Expr.optionReferences c e = e.toList.flatMap (·.references c) := by
  cases e <;> simp [Expr.optionReferences]

theorem QubitInit.itemsReferences_eq_flatMap (is : List QubitInit) :
    QubitInit.itemsReferences is = is.flatMap QubitInit.references := by
  induction is with
  | nil => rfl
  | cons i is ih => simp [QubitInit.itemsReferences, ih]

theorem Stmt.itemsReferences_eq_flatMap (ss : List Stmt) :
    Stmt.itemsReferences ss = ss.flatMap Stmt.references := by
  induction ss with
  | nil => rfl
  | cons s ss ih => simp [Stmt.itemsReferences, ih]

theorem Scope.optionReferences_eq_flatMap (s : Option Scope) :
    Scope.optionReferences s = s.toList.flatMap Scope.references := by
  cases s <;> simp [Scope.optionReferences]

theorem Scope.branchesReferences_eq_flatMap (branches : List (Expr × Scope)) :
    Scope.branchesReferences branches =
      branches.flatMap fun b ↦ b.1.references .value ++ b.2.references := by
  induction branches with
  | nil => rfl
  | cons b branches ih => simp [Scope.branchesReferences, ih]

inductive Fragment
  | scope (s : Scope)
  | stmt (s : Stmt)
  | expr (e : Expr) (c : Context)

def Fragment.references : Fragment → List Instance
  | scope s => s.references
  | stmt s => s.references
  | expr e c => e.references c

end FunctorCalls
