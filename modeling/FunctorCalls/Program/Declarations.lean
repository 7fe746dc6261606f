import FunctorCalls.Program

namespace FunctorCalls

inductive Declaration
  | callable (c : Callable)
  | specialization (s : Specialization)

namespace Declaration

def callable? : Declaration → Option Callable
  | callable c => some c
  | specialization _ => none

def specialization? : Declaration → Option Specialization
  | callable _ => none
  | specialization s => some s

end Declaration

namespace Program

def declare (p : Program) : Declaration → Except ProgramError Program
  | .callable c => p.addCallable c
  | .specialization s => p.addSpecialization s

def apply (p : Program) (d : Declaration) : Program :=
  match p.declare d with
  | .ok q => q
  | .error _ => p

def after (ds : List Declaration) : Program := ds.foldl apply empty

end Program

end FunctorCalls
