import FunctorCalls.Json
import FunctorCalls.Json.Token

namespace FunctorCalls.Json

def ofFields (fields : List (Option String × Json)) : Json :=
  match fields.mapM fun (name, j) ↦ name.map (·, j) with
  | some fields => .object fields
  | none => .illFormed

/-- An open array or object that waits for its next item. What it already holds comes last first. -/
inductive Frame
  | array (items : List Json)
  | object (fields : List (Option String × Json)) (name : Option String)

inductive Reader
  /-- A value has to follow. -/
  | value (stack : List Frame)
  /-- An array was opened: an item or its end has to follow. -/
  | item (stack : List Frame)
  /-- An object was opened: a name or its end has to follow. -/
  | field (stack : List Frame)
  /-- A comma stood in an object: a name has to follow. -/
  | name (fields : List (Option String × Json)) (stack : List Frame)
  | colon (fields : List (Option String × Json)) (name : Option String) (stack : List Frame)
  /-- A value is complete: a comma, an end, or the end of the text has to follow. -/
  | done (value : Json) (stack : List Frame)

namespace Reader

def first? (stack : List Frame) : Token → Option Reader
  | .mark .openArray => some (item stack)
  | .mark .openObject => some (field stack)
  | .mark _ => none
  | .null => some (done .null stack)
  | .bool b => some (done (.bool b) stack)
  | .number n => some (done (.number n) stack)
  | .string (some s) => some (done (.string s) stack)
  | .string none => some (done .illFormed stack)

def step? : Reader → Token → Option Reader
  | value stack, t => first? stack t
  | item stack, .mark .closeArray => some (done (.array []) stack)
  | item stack, t => first? (.array [] :: stack) t
  | field stack, .mark .closeObject => some (done (.object []) stack)
  | field stack, .string s => some (colon [] s stack)
  | name fields stack, .string s => some (colon fields s stack)
  | colon fields s stack, .mark .colon => some (value (.object fields s :: stack))
  | done v (.array items :: stack), .mark .comma => some (value (.array (v :: items) :: stack))
  | done v (.array items :: stack), .mark .closeArray =>
    some (done (.array (v :: items).reverse) stack)
  | done v (.object fields s :: stack), .mark .comma => some (name ((s, v) :: fields) stack)
  | done v (.object fields s :: stack), .mark .closeObject =>
    some (done (ofFields ((s, v) :: fields).reverse) stack)
  | _, _ => none

def run? (r : Reader) (ts : List Token) : Option Reader := ts.foldlM step? r

def result? : Reader → Option Json
  | done v [] => some v
  | _ => none

end Reader

def ofTokens? (ts : List Token) : Option Json := ((Reader.value []).run? ts).bind Reader.result?

def ofChars? (cs : List Char) : Option Json := (Token.scan? cs).bind ofTokens?

def parse? (text : String) : Option Json := ofChars? text.toList

end FunctorCalls.Json
