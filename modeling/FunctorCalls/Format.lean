import FunctorCalls.Json.Number.Double
import FunctorCalls.Json.Shape
import FunctorCalls.OrderedMap

namespace FunctorCalls

inductive Form
  | ty
  | expr
  | exprKind
  | pattern
  | qubitInit
  | stmt
  | scope

/-- A format gives the canonical document of a value, reads a value back from its canonical
document, and says by a shape how else the document may be presented. -/
class Format (α : Type) where
  shape : Json.Shape Form
  toJson : α → Json
  ofJson? : Json → Option α

class Tagged (α : Type) where
  all : List α
  tag : α → String

namespace Tagged

def ofTag? {α : Type} [Tagged α] (t : String) : Option α := (all (α := α)).find? (tag · == t)

def cases (α : Type) [Tagged α] : List (String × Option (Json.Shape Form)) :=
  (all (α := α)).map fun a ↦ (tag a, none)

end Tagged

namespace Format

open Json (Presence Shape)

def requiredField (name : String) (shape : Shape Form) : String × Presence × Shape Form :=
  (name, .required, shape)

/-- A field that is null when it is left out. -/
def optionalField (name : String) (shape : Shape Form) : String × Presence × Shape Form :=
  (name, .optional, .nullable shape)

instance : Format Bool where
  shape := .verbatim
  toJson := .bool
  ofJson? | .bool b => some b
          | _ => none

instance : Format String where
  shape := .verbatim
  toJson := .string
  ofJson? | .string s => some s
          | _ => none

instance : Format Int64 where
  shape := .verbatim
  toJson n := .number (.ofInt n.toInt)
  ofJson? | .number n => do
            let i ← n.int?
            if (Int64.ofInt i).toInt = i then some (.ofInt i) else none
          | _ => none

def below? (bound : Nat) : Json → Option Nat
  | .number n => match n.int? with
    | some (.ofNat i) => if i < bound then some i else none
    | _ => none
  | _ => none

instance : Format UInt32 where
  shape := .verbatim
  toJson n := .number (.ofInt n.toNat)
  ofJson? j := (below? UInt32.size j).map .ofNat

instance : Format UInt8 where
  shape := .verbatim
  toJson n := .number (.ofInt n.toNat)
  ofJson? j := (below? UInt8.size j).map .ofNat

/-- Integers are read as well; what is written always has a fraction or an exponent. -/
instance : Format Float where
  shape := .verbatim
  toJson x := .number (.ofFloat x)
  ofJson? | .number n => n.toFloat?
          | _ => none

variable {α : Type}

instance [Format α] : Format (List α) where
  shape := .list (shape α)
  toJson as := .array (as.map toJson)
  ofJson? | .array js => js.mapM ofJson?
          | _ => none

instance [Format α] : Format (Option α) where
  shape := .nullable (shape α)
  toJson | none => .null
         | some a => toJson a
  ofJson? | .null => some none
          | j => (ofJson? j).map some

def entry? [Format α] (e : String × Json) : Option (String × α) := (ofJson? e.2).map (e.1, ·)

instance [Format α] : Format (OrderedMap α) where
  shape := .map (shape α)
  toJson m := .object (m.entries.map fun (key, a) ↦ (key, toJson a))
  ofJson? | .object fields => (fields.mapM entry?).map .ofList
          | _ => none

instance (priority := low) [Tagged α] : Format α where
  shape := .cases (Tagged.cases α)
  toJson a := .string (Tagged.tag a)
  ofJson? | .string s => Tagged.ofTag? s
          | _ => none

end Format

end FunctorCalls
