import FunctorCalls.Json.Token

namespace FunctorCalls.Json

structure Style where
  /-- What stands before each item of an array or object, and before its end, at a depth. -/
  line : Nat → List Char
  afterColon : List Char

namespace Style

def compact : Style := ⟨fun _ ↦ [], []⟩

def indented : Style := ⟨fun depth ↦ '\n' :: List.replicate (2 * depth) ' ', [' ']⟩

end Style

mutual

/-- The tokens of a document, each with the blanks before it; `lead` stands before the first. -/
def spaced (style : Style) (depth : Nat) (lead : List Char) : Json → List (List Char × Token)
  | null => [(lead, .null)]
  | bool b => [(lead, .bool b)]
  | number n => [(lead, .number n)]
  | string s => [(lead, .string (some s))]
  | array [] => [(lead, .mark .openArray), ([], .mark .closeArray)]
  | array (j :: js) =>
    (lead, .mark .openArray) ::
      (spaced style (depth + 1) (style.line (depth + 1)) j ++ spacedItems style (depth + 1) js ++
        [(style.line depth, .mark .closeArray)])
  | object [] => [(lead, .mark .openObject), ([], .mark .closeObject)]
  | object ((name, j) :: fields) =>
    (lead, .mark .openObject) :: (style.line (depth + 1), .string (some name)) ::
      ([], .mark .colon) ::
        (spaced style (depth + 1) style.afterColon j ++ spacedFields style (depth + 1) fields ++
          [(style.line depth, .mark .closeObject)])
  | illFormed => [(lead, .string none)]

def spacedItems (style : Style) (depth : Nat) : List Json → List (List Char × Token)
  | [] => []
  | j :: js =>
    ([], .mark .comma) :: (spaced style depth (style.line depth) j ++ spacedItems style depth js)

def spacedFields (style : Style) (depth : Nat) : List (String × Json) → List (List Char × Token)
  | [] => []
  | (name, j) :: fields =>
    ([], .mark .comma) :: (style.line depth, .string (some name)) :: ([], .mark .colon) ::
      (spaced style depth style.afterColon j ++ spacedFields style depth fields)

end

def tokens (j : Json) : List Token := (j.spaced .compact 0 []).map Prod.snd

def chars (style : Style) (j : Json) : List Char :=
  (j.spaced style 0 []).flatMap fun (blanks, t) ↦ blanks ++ t.chars

def print (style : Style) (j : Json) : String := .ofList (j.chars style)

def compact (j : Json) : String := j.print .compact

end FunctorCalls.Json
