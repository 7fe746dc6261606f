import FunctorCalls.CallGraph.Trim
import FunctorCalls.Options

namespace FunctorCalls

/-- A graph under construction, the instance whose body is being read, and the number of bodies
read. -/
structure Builder where
  graph : CallGraph
  current : Option Instance
  walked : Nat

namespace Builder

def empty : Builder := ⟨.empty, none, 0⟩

/-- Reads a scope for the current instance; without one there is nothing to record it for. -/
def visitScope (b : Builder) (s : Scope) : Builder :=
  match b.current with
  | none => b
  | some caller => { b with graph := b.graph.walk caller (.scope s) }

def visitSpecialization (b : Builder) (s : Specialization) : Builder :=
  match s.implementation.body? with
  | none => b
  | some body =>
    let b := { b with current := some s.id }.visitScope body
    { b with current := none, walked := b.walked + 1 }

def visitProgram (b : Builder) (p : Program) : Builder :=
  p.specializations.foldl visitSpecialization b

end Builder

namespace Program

def callGraph (p : Program) : CallGraph := (Builder.empty.visitProgram p).graph

def callGraphWith (p : Program) (o : Options) : CallGraph :=
  if o.entryPoints = [] then p.callGraph else p.callGraph.trim o.entryPoints

end Program

end FunctorCalls
