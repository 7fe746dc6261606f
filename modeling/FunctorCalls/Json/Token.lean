import FunctorCalls.Json.Number
import FunctorCalls.Json.Text

namespace FunctorCalls.Json

inductive Mark
  | openArray
  | closeArray
  | openObject
  | closeObject
  | comma
  | colon
  deriving DecidableEq

inductive Token
  | mark (m : Mark)
  | null
  | bool (b : Bool)
  | number (n : Number)
  /-- There is no text where one half of a surrogate pair stands alone. -/
  | string (s : Option String)

namespace Mark

def char : Mark → Char
  | openArray => '['
  | closeArray => ']'
  | openObject => '\x7b'
  | closeObject => '\x7d'
  | comma => ','
  | colon => ':'

def ofChar? (c : Char) : Option Mark :=
  [openArray, closeArray, openObject, closeObject, comma, colon].find? (·.char == c)

end Mark

/-- A piece of the text: a mark, the inside of a quoted string as written, or a run of other
characters. -/
inductive Lexeme
  | mark (m : Mark)
  | quoted (cs : List Char)
  | word (cs : List Char)

namespace Lexeme

def isBlank (c : Char) : Bool := c == ' ' || c == '\t' || c == '\n' || c == '\r'

/-- Where in the text the reader stands. The characters read of a word or string come last first. -/
inductive Place
  | outside
  | inWord (read : List Char)
  | inString (read : List Char)
  | afterBackslash (read : List Char)

def cutFrom? : Place → List Char → Option (List Lexeme)
  | .outside, [] => some []
  | .inWord read, [] => some [.word read.reverse]
  | .inString _, [] => none
  | .afterBackslash _, [] => none
  | .outside, c :: cs =>
    if isBlank c then cutFrom? .outside cs
    else if c = '"' then cutFrom? (.inString []) cs
    else match Mark.ofChar? c with
      | some m => return .mark m :: (← cutFrom? .outside cs)
      | none => cutFrom? (.inWord [c]) cs
  | .inWord read, c :: cs =>
    if isBlank c then return .word read.reverse :: (← cutFrom? .outside cs)
    else if c = '"' then return .word read.reverse :: (← cutFrom? (.inString []) cs)
    else match Mark.ofChar? c with
      | some m => return .word read.reverse :: .mark m :: (← cutFrom? .outside cs)
      | none => cutFrom? (.inWord (c :: read)) cs
  | .inString read, c :: cs =>
    if c = '"' then return .quoted read.reverse :: (← cutFrom? .outside cs)
    else if c = '\\' then cutFrom? (.afterBackslash read) cs
    else cutFrom? (.inString (c :: read)) cs
  | .afterBackslash read, c :: cs => cutFrom? (.inString (c :: '\\' :: read)) cs

def cut? (cs : List Char) : Option (List Lexeme) := cutFrom? .outside cs

end Lexeme

namespace Token

def chars : Token → List Char
  | mark m => [m.char]
  | null => ['n', 'u', 'l', 'l']
  | bool true => ['t', 'r', 'u', 'e']
  | bool false => ['f', 'a', 'l', 's', 'e']
  | number n => n.chars
  | string none => ['"', '\\', 'u', 'd', '8', '0', '0', '"']
  | string (some s) => '"' :: Text.escape s.toList ++ ['"']

def ofLexeme? : Lexeme → Option Token
  | .mark m => some (mark m)
  | .quoted cs => (Text.pieces? cs).map fun ps ↦ string ((Text.join? none ps).map .ofList)
  | .word ['n', 'u', 'l', 'l'] => some null
  | .word ['t', 'r', 'u', 'e'] => some (bool true)
  | .word ['f', 'a', 'l', 's', 'e'] => some (bool false)
  | .word cs => (Number.ofChars? cs).map number

def scan? (cs : List Char) : Option (List Token) := (Lexeme.cut? cs).bind (·.mapM ofLexeme?)

end Token

end FunctorCalls.Json
