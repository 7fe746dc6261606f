import FunctorCalls.CallGraph.History

namespace FunctorCalls

inductive Visit
  | program (p : Program)
  | specialization (s : Specialization)
  | scope (s : Scope)

namespace Visit

def specializations : Visit → List Specialization
  | program p => p.specializations
  | specialization s => [s]
  | scope _ => []

def change : Visit → Change
  | program p => .visitProgram p
  | specialization s => .visitSpecialization s
  | scope s => .visitScope s

def visited (vs : List Visit) : List Specialization := vs.flatMap specializations

end Visit

namespace Builder

def visit (b : Builder) : Visit → Builder
  | .program p => b.visitProgram p
  | .specialization s => b.visitSpecialization s
  | .scope s => b.visitScope s

def after (vs : List Visit) : Builder := vs.foldl visit empty

end Builder

end FunctorCalls
