import FunctorCalls.OrderedMap
import FunctorCalls.Specialization

namespace FunctorCalls

inductive CallableKind
  | function
  | operation
  | typeConstructor
  deriving DecidableEq

structure Callable where
  name : Name
  kind : CallableKind
  signature : Ty
  specializations : List Specialization

/-- Callables under their simple names. A key need not agree with the name of what it stands for. -/
structure Namespace where
  name : String
  callables : OrderedMap Callable

structure Program where
  namespaces : OrderedMap Namespace

inductive ProgramError
  | duplicateCallable (name : Name)
  | unknownCallable (name : Name)
  | duplicateSpecialization (name : Name) (variant : Variant)

namespace ProgramError

def message : ProgramError → String
  | duplicateCallable name => "duplicate callable: '" ++ name.display ++ "'"
  | unknownCallable name => "unknown callable: '" ++ name.display ++ "'"
  | duplicateSpecialization name variant =>
    "duplicate " ++ variant.display ++ " specialization for '" ++ name.display ++ "'"

end ProgramError

namespace Callable

def declare (name : Name) (kind : CallableKind) (signature : Ty) : Callable :=
  ⟨name, kind, signature, []⟩

/-- The first specialization of a variant, whatever its type arguments. -/
def specialization? (c : Callable) (variant : Variant) : Option Specialization :=
  c.specializations.find? (·.variant = variant)

end Callable

namespace Program

def empty : Program := ⟨.empty⟩

def callable? (p : Program) (name : Name) : Option Callable :=
  (p.namespaces.find? name.space).bind (·.callables.find? name.base)

def callables (p : Program) : List Callable :=
  p.namespaces.values.flatMap (·.callables.values)

def specializations (p : Program) : List Specialization :=
  p.callables.flatMap (·.specializations)

def callableCount (p : Program) : Nat :=
  p.namespaces.values.foldr (·.callables.size + ·) 0

def addCallable (p : Program) (c : Callable) : Except ProgramError Program :=
  let space := (p.namespaces.find? c.name.space).getD ⟨c.name.space, .empty⟩
  if (space.callables.find? c.name.base).isSome then .error (.duplicateCallable c.name)
  else
    let space := { space with callables := space.callables.insert c.name.base c }
    .ok ⟨p.namespaces.insert c.name.space space⟩

def modifyCallable (p : Program) (name : Name) (f : Callable → Callable) : Program :=
  ⟨p.namespaces.modify name.space fun space ↦
    { space with callables := space.callables.modify name.base f }⟩

def addSpecialization (p : Program) (s : Specialization) : Except ProgramError Program :=
  match p.callable? s.parent with
  | none => .error (.unknownCallable s.parent)
  | some c =>
    if c.specializations.any fun t ↦ t.variant = s.variant ∧ t.typeArgs = s.typeArgs then
      .error (.duplicateSpecialization s.parent s.variant)
    else
      .ok (p.modifyCallable s.parent fun c ↦ { c with specializations := c.specializations ++ [s] })

end Program

end FunctorCalls
