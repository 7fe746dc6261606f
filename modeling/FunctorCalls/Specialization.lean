import FunctorCalls.Stmt
import FunctorCalls.Variant

namespace FunctorCalls

/-- `typeArgs` is `none` where there is no list of type arguments at all. -/
structure Instance where
  callable : Name
  variant : Variant
  typeArgs : Option (List Ty)
  deriving DecidableEq

/-- How the compiler derives a specialization from another one. -/
inductive Directive
  | selfInverse
  | invert
  | distribute
  deriving DecidableEq

inductive Implementation
  | provided (argument : Pattern) (body : Scope)
  | intrinsic
  | external
  | generated (directive : Directive)

structure Specialization where
  parent : Name
  variant : Variant
  typeArgs : Option (List Ty)
  implementation : Implementation

namespace Instance

def displayTypeArgs : Option (List Ty) → String
  | none => ""
  | some ts => "<" ++ Ty.displayItems ts ++ ">"

def display (i : Instance) : String :=
  i.callable.display ++ displayTypeArgs i.typeArgs ++ " [" ++ i.variant.display ++ "]"

end Instance

namespace Implementation

def body? : Implementation → Option Scope
  | provided _ body => some body
  | _ => none

end Implementation

namespace Specialization

def id (s : Specialization) : Instance := ⟨s.parent, s.variant, s.typeArgs⟩

def ofBody (i : Instance) (body : Scope) : Specialization :=
  ⟨i.callable, i.variant, i.typeArgs, .provided .discard body⟩

end Specialization

end FunctorCalls
