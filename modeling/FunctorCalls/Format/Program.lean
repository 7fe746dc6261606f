import FunctorCalls.Format.Stmt
import FunctorCalls.Program

namespace FunctorCalls

open Format (requiredField optionalField)

instance : Tagged Directive where
  all := [.selfInverse, .invert, .distribute]
  tag | .selfInverse => "SelfInverse"
      | .invert => "Invert"
      | .distribute => "Distribute"

instance : Format Implementation where
  shape := .cases
    [("Provided", some (.record [requiredField "argument" (Format.shape Pattern),
       requiredField "body" (Format.shape Scope)])),
     ("Intrinsic", none),
     ("External", none),
     ("Generated", some (Format.shape Directive))]
  toJson
    | .provided a b =>
      .object [("Provided", .object [("argument", Format.toJson a), ("body", Format.toJson b)])]
    | .intrinsic => .string "Intrinsic"
    | .external => .string "External"
    | .generated d => .object [("Generated", Format.toJson d)]
  ofJson?
    | .object [("Provided", .object [("argument", a), ("body", b)])] =>
      return .provided (← Format.ofJson? a) (← Format.ofJson? b)
    | .string "Intrinsic" => some .intrinsic
    | .string "External" => some .external
    | .object [("Generated", d)] => return .generated (← Format.ofJson? d)
    | _ => none

instance : Format Specialization where
  shape := .record [requiredField "parent" (Format.shape Name),
    requiredField "kind" (Format.shape Variant),
    optionalField "type_arguments" (Format.shape (List Ty)),
    requiredField "implementation" (Format.shape Implementation)]
  toJson s := .object [("parent", Format.toJson s.parent), ("kind", Format.toJson s.variant),
    ("type_arguments", Format.toJson s.typeArgs),
    ("implementation", Format.toJson s.implementation)]
  ofJson?
    | .object [("parent", p), ("kind", v), ("type_arguments", ts), ("implementation", i)] =>
      return ⟨← Format.ofJson? p, ← Format.ofJson? v, ← Format.ofJson? ts, ← Format.ofJson? i⟩
    | _ => none

instance : Format Instance where
  shape := .record [requiredField "callable" (Format.shape Name),
    requiredField "kind" (Format.shape Variant),
    optionalField "type_arguments" (Format.shape (List Ty))]
  toJson i := .object [("callable", Format.toJson i.callable), ("kind", Format.toJson i.variant),
    ("type_arguments", Format.toJson i.typeArgs)]
  ofJson?
    | .object [("callable", c), ("kind", v), ("type_arguments", ts)] =>
      return ⟨← Format.ofJson? c, ← Format.ofJson? v, ← Format.ofJson? ts⟩
    | _ => none

instance : Tagged CallableKind where
  all := [.function, .operation, .typeConstructor]
  tag | .function => "Function"
      | .operation => "Operation"
      | .typeConstructor => "TypeConstructor"

instance : Format Callable where
  shape := .record [requiredField "name" (Format.shape Name),
    requiredField "kind" (Format.shape CallableKind),
    requiredField "signature" (Format.shape Ty),
    requiredField "specializations" (Format.shape (List Specialization))]
  toJson c := .object [("name", Format.toJson c.name), ("kind", Format.toJson c.kind),
    ("signature", Format.toJson c.signature),
    ("specializations", Format.toJson c.specializations)]
  ofJson?
    | .object [("name", n), ("kind", k), ("signature", t), ("specializations", ss)] =>
      return ⟨← Format.ofJson? n, ← Format.ofJson? k, ← Format.ofJson? t, ← Format.ofJson? ss⟩
    | _ => none

instance : Format Namespace where
  shape := .record [requiredField "name" .verbatim,
    requiredField "callables" (Format.shape (OrderedMap Callable))]
  toJson n := .object [("name", .string n.name), ("callables", Format.toJson n.callables)]
  ofJson?
    | .object [("name", .string n), ("callables", cs)] => return ⟨n, ← Format.ofJson? cs⟩
    | _ => none

instance : Format Program where
  shape := .record [requiredField "namespaces" (Format.shape (OrderedMap Namespace))]
  toJson p := .object [("namespaces", Format.toJson p.namespaces)]
  ofJson?
    | .object [("namespaces", ns)] => return ⟨← Format.ofJson? ns⟩
    | _ => none

end FunctorCalls
