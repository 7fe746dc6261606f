import FunctorCalls.Json.Number

namespace FunctorCalls

/-- Objects keep the order of their fields and may hold a name twice. -/
inductive Json
  | null
  | bool (b : Bool)
  | number (n : Json.Number)
  | string (s : String)
  | array (items : List Json)
  | object (fields : List (String × Json))
  /-- A string that holds one half of a surrogate pair, or an object with such a name. It stands for
  no value, and may occur where a document is skipped. -/
  | illFormed

end FunctorCalls
