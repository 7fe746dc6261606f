import FunctorCalls.Expr

namespace FunctorCalls

inductive Pattern
  | declare (name : String)
  | tuple (items : List Pattern)
  | discard

inductive Mutability
  | immutable
  | mutable
  deriving DecidableEq

inductive QubitSource
  | allocate
  | borrow
  deriving DecidableEq

inductive QubitInit
  | single
  | register (size : Expr)
  | tuple (items : List QubitInit)

mutual

inductive Stmt
  | expr (e : Expr)
  | ret (e : Expr)
  | fail (e : Expr)
  | bind (mutability : Mutability) (lhs : Pattern) (rhs : Expr)
  | assign (lhs rhs : Expr)
  | conditional (branches : List (Expr × Scope)) (default : Option Scope)
  | forLoop (item : Pattern) (itemTy : Ty) (iterable : Expr) (body : Scope)
  | whileLoop (condition : Expr) (body : Scope)
  /-- The body runs until the condition holds, with the fixup between two runs. -/
  | repeatUntil (body : Scope) (condition : Expr) (fixup : Scope)
  /-- The outer scope, the inner one, and the adjoint of the outer one. -/
  | conjugate (outer inner : Scope)
  /-- Without a body the qubits live to the end of the enclosing scope. -/
  | qubits (source : QubitSource) (binding : Pattern) (init : QubitInit) (body : Option Scope)
  | block (scope : Scope)

structure Scope where
  statements : List Stmt

end

namespace Stmt

def letIn (name : String) (rhs : Expr) : Stmt := bind .immutable (.declare name) rhs

end Stmt

end FunctorCalls
