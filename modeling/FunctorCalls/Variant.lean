namespace FunctorCalls

inductive Variant
  | body
  | adjoint
  | controlled
  | controlledAdjoint
  deriving DecidableEq

namespace Variant

def all : List Variant := [body, adjoint, controlled, controlledAdjoint]

theorem mem_all (v : Variant) : v ∈ all := by
  cases v <;> decide

/-- The variant for a parity of adjoints, and for whether there was a control. -/
def ofFunctors : (adjoint controlled : Bool) → Variant
  | false, false => body
  | true, false => adjoint
  | false, true => controlled
  | true, true => controlledAdjoint

def isAdjoint : Variant → Bool
  | adjoint | controlledAdjoint => true
  | body | controlled => false

def isControlled : Variant → Bool
  | controlled | controlledAdjoint => true
  | body | adjoint => false

theorem isAdjoint_ofFunctors (adjoint controlled : Bool) :
    (ofFunctors adjoint controlled).isAdjoint = adjoint := by
  cases adjoint <;> cases controlled <;> rfl

theorem isControlled_ofFunctors (adjoint controlled : Bool) :
    (ofFunctors adjoint controlled).isControlled = controlled := by
  cases adjoint <;> cases controlled <;> rfl

theorem ofFunctors_isAdjoint_isControlled (v : Variant) :
    ofFunctors v.isAdjoint v.isControlled = v := by
  cases v <;> rfl

theorem eq_ofFunctors_iff {v : Variant} {adjoint controlled : Bool} :
    v = ofFunctors adjoint controlled ↔ v.isAdjoint = adjoint ∧ v.isControlled = controlled := by
  constructor
  · rintro rfl
    exact ⟨isAdjoint_ofFunctors _ _, isControlled_ofFunctors _ _⟩
  · rintro ⟨rfl, rfl⟩
    exact v.ofFunctors_isAdjoint_isControlled.symm

def display : Variant → String
  | body => "body"
  | adjoint => "adjoint"
  | controlled => "controlled"
  | controlledAdjoint => "controlled adjoint"

def index : Variant → Nat
  | body => 0
  | adjoint => 1
  | controlled => 2
  | controlledAdjoint => 3

instance : Ord Variant where
  compare := compareOn index

instance : Std.TransOrd Variant := inferInstanceAs (Std.TransCmp (compareOn index))

instance : Std.LawfulEqOrd Variant where
  eq_of_compare {a b} h := by
    have h : a.index = b.index := Std.LawfulEqOrd.eq_of_compare h
    cases a <;> cases b <;> simp_all [index]

end Variant

end FunctorCalls
