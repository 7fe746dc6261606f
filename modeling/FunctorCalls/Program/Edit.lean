import FunctorCalls.Program.Declarations

namespace FunctorCalls

/-- A change of a program in place. One that fails stops where it is, and the program keeps what was
done to it by then. -/
abbrev Edit := EStateM ProgramError Program

namespace Program

def openNamespace (p : Program) (key : String) : Program :=
  if key ∈ p.namespaces.keys then p else ⟨p.namespaces.insert key ⟨key, .empty⟩⟩

def enterCallable (p : Program) (c : Callable) : Program :=
  ⟨p.namespaces.modify c.name.space fun space ↦
    { space with callables := space.callables.insert c.name.base c }⟩

end Program

namespace Edit

/-- The namespace is opened before anything is known of what goes into it. -/
def addCallable (c : Callable) : Edit Unit := do
  modify fun p ↦ p.openNamespace c.name.space
  if ((← get).callable? c.name).isSome then throw (.duplicateCallable c.name)
  modify fun p ↦ p.enterCallable c

def addSpecialization (s : Specialization) : Edit Unit := do
  match (← get).callable? s.parent with
  | none => throw (.unknownCallable s.parent)
  | some c =>
    if c.specializations.any fun t ↦ t.variant = s.variant ∧ t.typeArgs = s.typeArgs then
      throw (.duplicateSpecialization s.parent s.variant)
    modify fun p ↦ p.modifyCallable s.parent fun c ↦
      { c with specializations := c.specializations ++ [s] }

def declare : Declaration → Edit Unit
  | .callable c => addCallable c
  | .specialization s => addSpecialization s

end Edit

/-- A program that is edited, and the declarations that did not fail, in their order. -/
structure Journal where
  program : Program
  accepted : List Declaration

namespace Journal

def empty : Journal := ⟨.empty, []⟩

def add (j : Journal) (d : Declaration) : Journal :=
  match (Edit.declare d).run j.program with
  | .ok () q => ⟨q, j.accepted ++ [d]⟩
  | .error _ q => ⟨q, j.accepted⟩

def after (ds : List Declaration) : Journal := ds.foldl add empty

def callables (j : Journal) : List Callable := j.accepted.filterMap Declaration.callable?

def specializations (j : Journal) : List Specialization :=
  j.accepted.filterMap Declaration.specialization?

end Journal

end FunctorCalls
