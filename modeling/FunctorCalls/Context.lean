import FunctorCalls.Variant

namespace FunctorCalls

/-- Whether the value of an expression is called, and with which functors around it. -/
structure Context where
  inCall : Bool
  adjoint : Bool
  controlled : Bool
  deriving DecidableEq

namespace Context

/-- A place where the value is used in some other way than by a call. -/
def value : Context := ⟨false, false, false⟩

def callee : Context := ⟨true, false, false⟩

def underAdjoint (c : Context) : Context := { c with adjoint := !c.adjoint }

def underControlled (c : Context) : Context := { c with controlled := true }

/-- The variants of a callable that it stands for here. Any functor may be applied to a value later,
so outside a call it stands for all of them. -/
def variants (c : Context) : List Variant :=
  if c.inCall then [.ofFunctors c.adjoint c.controlled] else Variant.all

end Context

end FunctorCalls
