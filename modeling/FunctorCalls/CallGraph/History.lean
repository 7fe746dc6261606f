import FunctorCalls.Build

namespace FunctorCalls

inductive Change
  | add (caller callee : Instance)
  | reference (caller : Instance) (callable : Name) (typeArgs : Option (List Ty)) (c : Context)
  | walk (caller : Instance) (f : Fragment)
  | visitScope (s : Scope)
  | visitSpecialization (s : Specialization)
  | visitProgram (p : Program)
  | trim (points : List Name)

namespace Change

def isTrim : Change → Bool
  | trim _ => true
  | _ => false

def bodyReferences (s : Specialization) : List (Instance × Instance) :=
  match s.implementation.body? with
  | none => []
  | some body => body.references.map fun i ↦ (s.id, i)

def recorded : Change → List (Instance × Instance)
  | add caller callee => [(caller, callee)]
  | reference caller callable typeArgs c => (c.references callable typeArgs).map fun i ↦ (caller, i)
  | walk caller f => f.references.map fun i ↦ (caller, i)
  | visitScope _ => []
  | visitSpecialization s => bodyReferences s
  | visitProgram p => p.specializations.flatMap bodyReferences
  | trim _ => []

def instances (cs : List Change) : List Instance :=
  (cs.flatMap recorded).flatMap fun (caller, callee) ↦ [caller, callee]

def types (cs : List Change) : List Ty := (instances cs).flatMap fun i ↦ i.typeArgs.getD []

end Change

namespace CallGraph

def apply (g : CallGraph) : Change → CallGraph
  | .add caller callee => (g.add caller callee).1
  | .reference caller callable typeArgs c => g.recordCallable caller callable typeArgs c
  | .walk caller f => g.walk caller f
  | .visitScope s => (Builder.visitScope ⟨g, none, 0⟩ s).graph
  | .visitSpecialization s => (Builder.visitSpecialization ⟨g, none, 0⟩ s).graph
  | .visitProgram p => (Builder.visitProgram ⟨g, none, 0⟩ p).graph
  | .trim points => g.trim points

def after (cs : List Change) : CallGraph := cs.foldl apply empty

end CallGraph

end FunctorCalls
