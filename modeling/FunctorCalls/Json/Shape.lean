import FunctorCalls.Json

namespace FunctorCalls.Json

inductive Presence
  | required
  /-- It is null; in an array it has to be given all the same. -/
  | optional
  /-- It has this value; at the end of an array it may be left out too. -/
  | defaulted (value : Json)

namespace Presence

def inObject? : Presence → Option Json
  | required => none
  | optional => some .null
  | defaulted value => some value

def inArray? : Presence → Option Json
  | required | optional => none
  | defaulted value => some value

end Presence

/-- The shape of a document. Recursive shapes refer to themselves by a name of type `ι`. -/
inductive Shape (ι : Type)
  | verbatim
  | named (i : ι)
  | nullable (shape : Shape ι)
  | list (item : Shape ι)
  | tuple (items : List (Shape ι))
  | map (item : Shape ι)
  | record (fields : List (String × Presence × Shape ι))
  /-- A choice between tags. A plain case has no shape; another one holds a document of its own. -/
  | cases (cases : List (String × Option (Shape ι)))

namespace Shape

variable {ι : Type}

def isNullable : Shape ι → Bool
  | nullable _ => true
  | _ => false

/-- The shape of a document other than null. Definitions are looked up once: they are not names. -/
def head (definition : ι → Shape ι) : Shape ι → Shape ι
  | named i => definition i
  | nullable (named i) => definition i
  | nullable shape => shape
  | shape => shape

/-- The fields in declared order. A field may not be given twice. -/
def arrange? (given : List (String × Json)) :
    List (String × Presence × Shape ι) → Option (List (String × Json))
  | [] => some []
  | (name, presence, _) :: fields => do
    let value ← match given.filter (·.1 == name) with
      | [] => presence.inObject?
      | [(_, j)] => some j
      | _ => none
    return (name, value) :: (← arrange? given fields)

def remaining? : List (String × Presence × Shape ι) → Option (List (String × Json))
  | [] => some []
  | (name, presence, _) :: fields => return (name, ← presence.inArray?) :: (← remaining? fields)

mutual

/-- The canonical document that a document presents, if it has the shape. A record may come with its
fields in any order and among others, without the fields that may be left out, or as the array of
its fields; a plain case may come as an object that holds null. -/
def canonical? (definition : ι → Shape ι) (shape : Shape ι) : Json → Option Json
  | .null =>
    if shape.isNullable then some .null
    else match shape.head definition with
      | verbatim => some .null
      | _ => none
  | .string s => match shape.head definition with
    | verbatim => some (.string s)
    | cases cs => match cs.lookup s with
      | some none => some (.string s)
      | _ => none
    | _ => none
  | .array js => match shape.head definition with
    | verbatim => some (.array js)
    | list item => return .array (← canonicalItems? definition item js)
    | tuple items => return .array (← canonicalEach? definition items js)
    | record declared => return .object (← canonicalPlaces? definition declared js)
    | _ => none
  | .object fields => match shape.head definition with
    | verbatim => some (.object fields)
    | map item => return .object (← canonicalFields? definition (fun _ ↦ some item) fields)
    | record declared => do
      let given ← canonicalFields? definition (fun name ↦ (declared.lookup name).map (·.2)) fields
      return .object (← arrange? given declared)
    | cases cs => canonicalCase? definition cs fields
    | _ => none
  | j => match shape.head definition with
    | verbatim => some j
    | _ => none

def canonicalItems? (definition : ι → Shape ι) (item : Shape ι) : List Json → Option (List Json)
  | [] => some []
  | j :: js => return (← canonical? definition item j) :: (← canonicalItems? definition item js)

def canonicalEach? (definition : ι → Shape ι) : List (Shape ι) → List Json → Option (List Json)
  | [], [] => some []
  | item :: items, j :: js =>
    return (← canonical? definition item j) :: (← canonicalEach? definition items js)
  | _, _ => none

def canonicalPlaces? (definition : ι → Shape ι) :
    List (String × Presence × Shape ι) → List Json → Option (List (String × Json))
  | declared, [] => remaining? declared
  | (name, _, shape) :: declared, j :: js =>
    return (name, ← canonical? definition shape j) :: (← canonicalPlaces? definition declared js)
  | [], _ :: _ => none

/-- Fields of names without a shape are left out. -/
def canonicalFields? (definition : ι → Shape ι) (shape? : String → Option (Shape ι)) :
    List (String × Json) → Option (List (String × Json))
  | [] => some []
  | (name, j) :: fields => match shape? name with
    | none => canonicalFields? definition shape? fields
    | some shape =>
      return (name, ← canonical? definition shape j) ::
        (← canonicalFields? definition shape? fields)

def canonicalCase? (definition : ι → Shape ι) (cs : List (String × Option (Shape ι))) :
    List (String × Json) → Option Json
  | [(tag, content)] => match cs.lookup tag with
    | some (some shape) => return .object [(tag, ← canonical? definition shape content)]
    | some none => match content with
      | .null => some (.string tag)
      | _ => none
    | none => none
  | _ => none

end

end Shape

end FunctorCalls.Json
