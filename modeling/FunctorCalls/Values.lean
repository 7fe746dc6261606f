import FunctorCalls.References

namespace FunctorCalls

/-- A callable with functors applied to it: whether the adjoints are odd in number, and whether
there is a control. -/
structure CallableValue where
  callable : Name
  typeArgs : Option (List Ty)
  adjoint : Bool
  controlled : Bool
  deriving DecidableEq

namespace CallableValue

def applyAdjoint (v : CallableValue) : CallableValue := { v with adjoint := !v.adjoint }

def applyControlled (v : CallableValue) : CallableValue := { v with controlled := true }

end CallableValue

mutual

/-- A tuple of one item has the values of the item, an array those of its items, and an item of an
array those of the array. -/
def Expr.values : Expr → List CallableValue
  | ⟨.identifier (.callable name) typeArgs, _, _⟩ => [⟨name, typeArgs, false, false⟩]
  | ⟨.adjoint e, _, _⟩ => e.values.map .applyAdjoint
  | ⟨.controlled e, _, _⟩ => e.values.map .applyControlled
  | ⟨.tuple [e], _, _⟩ => e.values
  | ⟨.array es, _, _⟩ => Expr.itemsValues es
  | ⟨.item array _, _, _⟩ => array.values
  | ⟨.conditional _ ifTrue ifFalse, _, _⟩ => ifTrue.values ++ ifFalse.values
  | _ => []

def Expr.itemsValues : List Expr → List CallableValue
  | [] => []
  | e :: es => e.values ++ Expr.itemsValues es

end

mutual

/-- The expressions at which the search for values ends without one: the conditions and indices on
the way, and the first expressions that are neither identifiers nor hand on the values of a part. -/
def Expr.bystanders : Expr → List Expr
  | ⟨.identifier _ _, _, _⟩ => []
  | ⟨.adjoint e, _, _⟩ => e.bystanders
  | ⟨.controlled e, _, _⟩ => e.bystanders
  | ⟨.tuple [e], _, _⟩ => e.bystanders
  | ⟨.array es, _, _⟩ => Expr.itemsBystanders es
  | ⟨.item array index, _, _⟩ => array.bystanders ++ [index]
  | ⟨.conditional condition ifTrue ifFalse, _, _⟩ =>
    condition :: (ifTrue.bystanders ++ ifFalse.bystanders)
  | e => [e]

def Expr.itemsBystanders : List Expr → List Expr
  | [] => []
  | e :: es => e.bystanders ++ Expr.itemsBystanders es

end

theorem Expr.itemsValues_eq_flatMap (es : List Expr) :
    Expr.itemsValues es = es.flatMap Expr.values := by
  induction es with
  | nil => rfl
  | cons e es ih => rw [itemsValues, ih, List.flatMap_cons]

theorem Expr.itemsBystanders_eq_flatMap (es : List Expr) :
    Expr.itemsBystanders es = es.flatMap Expr.bystanders := by
  induction es with
  | nil => rfl
  | cons e es ih => rw [itemsBystanders, ih, List.flatMap_cons]

end FunctorCalls
