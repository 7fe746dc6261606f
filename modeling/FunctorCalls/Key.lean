import FunctorCalls.Digest
import FunctorCalls.Format.Program

namespace FunctorCalls

/-- An instance with digests in place of its type arguments. In the order of keys no list at all
comes before every list. -/
structure Key where
  callable : Name
  variant : Variant
  typeArgs : Option (List Digest)
  deriving DecidableEq

namespace Key

instance : Ord Key where
  compare := compareLex (compareOn callable) (compareLex (compareOn variant) (compareOn typeArgs))

instance : Std.TransOrd Key :=
  inferInstanceAs (Std.TransCmp
    (compareLex (compareOn callable) (compareLex (compareOn variant) (compareOn typeArgs))))

instance : Std.LawfulEqOrd Key where
  eq_of_compare {a b} h := by
    obtain ⟨hc, h⟩ := Ordering.then_eq_eq.1 h
    obtain ⟨hv, ht⟩ := Ordering.then_eq_eq.1 h
    have hc : a.callable = b.callable := Std.LawfulEqOrd.eq_of_compare hc
    have hv : a.variant = b.variant := Std.LawfulEqOrd.eq_of_compare hv
    have ht : a.typeArgs = b.typeArgs := Std.LawfulEqOrd.eq_of_compare ht
    cases a
    cases b
    simp_all

def digests (k : Key) : List Digest := k.typeArgs.getD []

def displayTypeArgs : Option (List Digest) → String
  | none => ""
  | some ds => "<" ++ ", ".intercalate (ds.map Digest.short) ++ ">"

def display (k : Key) : String :=
  k.callable.display ++ displayTypeArgs k.typeArgs ++ " [" ++ k.variant.display ++ "]"

instance : Format Key where
  shape := .record [Format.requiredField "callable" (Format.shape Name),
    Format.requiredField "kind" (Format.shape Variant),
    Format.optionalField "type_arguments" (Format.shape (List Digest))]
  toJson k := .object [("callable", Format.toJson k.callable), ("kind", Format.toJson k.variant),
    ("type_arguments", Format.toJson k.typeArgs)]
  ofJson?
    | .object [("callable", c), ("kind", v), ("type_arguments", ds)] =>
      return ⟨← Format.ofJson? c, ← Format.ofJson? v, ← Format.ofJson? ds⟩
    | _ => none

end Key

def Instance.key (i : Instance) : Key :=
  ⟨i.callable, i.variant, i.typeArgs.map (·.map Ty.digest)⟩

/-- What stands for an instance. A specialization stands for the instance that it implements. -/
class Identity (α : Type) where
  toInstance : α → Instance

namespace Identity

instance : Identity Instance := ⟨fun i ↦ i⟩

instance : Identity Specialization := ⟨Specialization.id⟩

def key {α : Type} [Identity α] (x : α) : Key := (toInstance x).key

end Identity

end FunctorCalls
