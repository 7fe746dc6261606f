import FunctorCalls.Ty

namespace FunctorCalls

/-- A range of bytes of the text that an expression came from. -/
structure Span where
  start : UInt32
  stop : UInt32
  deriving DecidableEq

inductive Symbol
  | localVar (name : String)
  | callable (name : Name)
  /-- Nothing: an earlier phase has reported it. -/
  | invalid
  deriving DecidableEq

inductive Pauli
  | i
  | x
  | y
  | z
  deriving DecidableEq

inductive Literal
  | int (value : Int64)
  | bigInt (text : String)
  | double (value : Float)
  | bool (value : Bool)
  | string (value : String)
  /-- A measurement result; `true` is One. -/
  | result (one : Bool)
  | pauli (value : Pauli)

inductive UnaryOp
  | negate
  | logicalNot
  | bitwiseNot
  deriving DecidableEq

inductive BinaryOp
  | add
  | sub
  | mul
  | div
  | mod
  | pow
  | eq
  | neq
  | lt
  | lte
  | gt
  | gte
  | and
  | or
  | bitAnd
  | bitOr
  | bitXor
  | shl
  | shr
  deriving DecidableEq

mutual

structure Expr where
  kind : ExprKind
  ty : Ty
  span : Option Span

inductive ExprKind
  | unit
  | literal (value : Literal)
  /-- A symbol with the type arguments given to it; `none` where it takes no such list at all. -/
  | identifier (symbol : Symbol) (typeArgs : Option (List Ty))
  | call (callee argument : Expr)
  | adjoint (inner : Expr)
  | controlled (inner : Expr)
  /-- A tuple of one item is an expression in parentheses. -/
  | tuple (items : List Expr)
  | array (items : List Expr)
  | filledArray (value size : Expr)
  | newArray (item : Ty) (length : Expr)
  | item (array index : Expr)
  | field (record : Expr) (name : String)
  | range (start : Expr) (step : Option Expr) (stop : Expr)
  | unary (op : UnaryOp) (operand : Expr)
  | binary (op : BinaryOp) (lhs rhs : Expr)
  | conditional (condition ifTrue ifFalse : Expr)
  | update (value accessor part : Expr)
  /-- A place left open in a partial application. -/
  | missing

end

namespace Expr

def ofKind (kind : ExprKind) (ty : Ty) : Expr := ⟨kind, ty, none⟩

def withSpan (e : Expr) (span : Span) : Expr := { e with span := some span }

def unit : Expr := ofKind .unit (.base .unit)

def int (value : Int64) : Expr := ofKind (.literal (.int value)) (.base .int)

def bool (value : Bool) : Expr := ofKind (.literal (.bool value)) (.base .bool)

def localVar (name : String) (ty : Ty) : Expr := ofKind (.identifier (.localVar name) none) ty

def callable (name : Name) (ty : Ty) : Expr := ofKind (.identifier (.callable name) none) ty

def generic (name : Name) (typeArgs : List Ty) (ty : Ty) : Expr :=
  ofKind (.identifier (.callable name) (some typeArgs)) ty

def call (callee argument : Expr) (ty : Ty) : Expr := ofKind (.call callee argument) ty

def adjoint (inner : Expr) : Expr := ofKind (.adjoint inner) inner.ty

/-- The type is that of the operand: the register of controls is left out of it. -/
def controlled (inner : Expr) : Expr := ofKind (.controlled inner) inner.ty

def tupleTy : List Expr → Ty
  | [] => .base .unit
  | [e] => e.ty
  | es => .tuple (es.map ty)

def tuple (items : List Expr) : Expr := ofKind (.tuple items) (tupleTy items)

def missing (ty : Ty) : Expr := ofKind .missing ty

mutual

def hasMissing : Expr → Bool
  | ⟨.missing, _, _⟩ => true
  | ⟨.tuple items, _, _⟩ => anyMissing items
  | _ => false

def anyMissing : List Expr → Bool
  | [] => false
  | e :: es => hasMissing e || anyMissing es

end

def isPartial (e : Expr) : Bool :=
  match e.kind with
  | .call _ argument => argument.hasMissing
  | _ => false

end Expr

end FunctorCalls
