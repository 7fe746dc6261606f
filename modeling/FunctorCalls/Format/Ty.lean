import FunctorCalls.Format
import FunctorCalls.Ty
import FunctorCalls.Variant

namespace FunctorCalls

open Format (requiredField optionalField)
open Json (Shape)

instance : Format Name where
  shape := .record [requiredField "namespace" .verbatim, requiredField "name" .verbatim]
  toJson n := .object [("namespace", .string n.space), ("name", .string n.base)]
  ofJson? | .object [("namespace", .string space), ("name", .string base)] => some ⟨space, base⟩
          | _ => none

instance : Tagged Variant where
  all := Variant.all
  tag | .body => "Body"
      | .adjoint => "Adjoint"
      | .controlled => "Controlled"
      | .controlledAdjoint => "ControlledAdjoint"

instance : Format Functors where
  shape := .record [requiredField "adjointable" .verbatim, requiredField "controllable" .verbatim]
  toJson f := .object [("adjointable", .bool f.adjointable), ("controllable", .bool f.controllable)]
  ofJson? | .object [("adjointable", .bool a), ("controllable", .bool c)] => some ⟨a, c⟩
          | _ => none

instance : Tagged Base where
  all := Base.all
  tag := Base.display

namespace Ty

def shape : Shape Form :=
  .cases <| Tagged.cases Base ++
    [("Array", some (.named .ty)),
     ("Tuple", some (.list (.named .ty))),
     ("UserDefined", some (Format.shape Name)),
     ("TypeParameter", some (.record [requiredField "origin" (Format.shape Name),
       requiredField "name" .verbatim])),
     ("Function", some (.record [requiredField "input" (.named .ty),
       requiredField "output" (.named .ty)])),
     ("Operation", some (.record [requiredField "input" (.named .ty),
       requiredField "output" (.named .ty),
       requiredField "characteristics" (Format.shape Functors)]))]

mutual

def toJson : Ty → Json
  | base b => Format.toJson b
  | array t => .object [("Array", toJson t)]
  | tuple ts => .object [("Tuple", .array (itemsToJson ts))]
  | userDefined n => .object [("UserDefined", Format.toJson n)]
  | parameter o n =>
    .object [("TypeParameter", .object [("origin", Format.toJson o), ("name", .string n)])]
  | function i o => .object [("Function", .object [("input", toJson i), ("output", toJson o)])]
  | operation i o f =>
    .object [("Operation", .object [("input", toJson i), ("output", toJson o),
      ("characteristics", Format.toJson f)])]

def itemsToJson : List Ty → List Json
  | [] => []
  | t :: ts => toJson t :: itemsToJson ts

end

mutual

def ofJson? : Json → Option Ty
  | .string s => (Tagged.ofTag? s).map base
  | .object [("Array", t)] => return array (← ofJson? t)
  | .object [("Tuple", .array ts)] => return tuple (← itemsOfJson? ts)
  | .object [("UserDefined", n)] => return userDefined (← Format.ofJson? n)
  | .object [("TypeParameter", .object [("origin", o), ("name", .string n)])] =>
    return parameter (← Format.ofJson? o) n
  | .object [("Function", .object [("input", i), ("output", o)])] =>
    return function (← ofJson? i) (← ofJson? o)
  | .object [("Operation", .object [("input", i), ("output", o), ("characteristics", f)])] =>
    return operation (← ofJson? i) (← ofJson? o) (← Format.ofJson? f)
  | _ => none

def itemsOfJson? : List Json → Option (List Ty)
  | [] => some []
  | j :: js => return (← ofJson? j) :: (← itemsOfJson? js)

end

instance : Format Ty where
  shape := .named .ty
  toJson := toJson
  ofJson? := ofJson?

end Ty

end FunctorCalls
