import FunctorCalls.Json

namespace FunctorCalls.Json

def Number.alike (a b : Number) : Bool := a == b || (a.isZero && b.isZero)

mutual

/-- Documents that stand for equal values: the order of the fields of an object and the sign of a
zero do not count. Names in an object are taken to be distinct. -/
def alike : Json → Json → Bool
  | null, null => true
  | bool a, bool b => a == b
  | number a, number b => a.alike b
  | string a, string b => a == b
  | array as, array bs => itemsAlike as bs
  | object as, object bs => as.length == bs.length && fieldsAlike as bs
  | illFormed, illFormed => true
  | _, _ => false

def itemsAlike : List Json → List Json → Bool
  | [], [] => true
  | a :: as, b :: bs => alike a b && itemsAlike as bs
  | _, _ => false

def fieldsAlike : List (String × Json) → List (String × Json) → Bool
  | [], _ => true
  | (name, a) :: as, bs =>
    (match bs.lookup name with
      | some b => alike a b
      | none => false) && fieldsAlike as bs

end

end FunctorCalls.Json
