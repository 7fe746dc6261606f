import FunctorCalls.Json

namespace FunctorCalls.Json.Text

def escapeChar (c : Char) : List Char :=
  match c with
  | '"' => ['\\', '"']
  | '\\' => ['\\', '\\']
  | '\x08' => ['\\', 'b']
  | '\x0c' => ['\\', 'f']
  | '\n' => ['\\', 'n']
  | '\r' => ['\\', 'r']
  | '\t' => ['\\', 't']
  | c =>
    if c.toNat < 0x20 then
      ['\\', 'u', '0', '0', Nat.digitChar (c.toNat / 16), Nat.digitChar (c.toNat % 16)]
    else [c]

def escape (cs : List Char) : List Char := cs.flatMap escapeChar

def hexDigit? (c : Char) : Option Nat :=
  if c.isDigit then some (c.toNat - '0'.toNat)
  else if 'a' ≤ c ∧ c ≤ 'f' then some (c.toNat - 'a'.toNat + 10)
  else if 'A' ≤ c ∧ c ≤ 'F' then some (c.toNat - 'A'.toNat + 10)
  else none

def hex? (cs : List Char) : Option Nat :=
  cs.foldlM (fun n c ↦ (hexDigit? c).map (16 * n + ·)) 0

inductive Piece
  | char (c : Char)
  | unit (n : Nat)

def escaped? : Char → Option Char
  | '"' => some '"'
  | '\\' => some '\\'
  | '/' => some '/'
  | 'b' => some '\x08'
  | 'f' => some '\x0c'
  | 'n' => some '\n'
  | 'r' => some '\r'
  | 't' => some '\t'
  | _ => none

/-- The units of UTF-16 behind `\u` are read one by one; `join?` puts them together. -/
def pieces? : List Char → Option (List Piece)
  | [] => some []
  | '\\' :: 'u' :: a :: b :: c :: d :: cs => return .unit (← hex? [a, b, c, d]) :: (← pieces? cs)
  | '\\' :: c :: cs => return .char (← escaped? c) :: (← pieces? cs)
  | c :: cs => if c.toNat < 0x20 || c == '\\' then none else return .char c :: (← pieces? cs)

def isHigh (unit : Nat) : Bool := 0xD800 ≤ unit && unit < 0xDC00

def isLow (unit : Nat) : Bool := 0xDC00 ≤ unit && unit < 0xE000

/-- The text that the pieces stand for; `high` is a first half that waits for the second. A half
without the other stands for no text. -/
def join? : (high : Option Nat) → List Piece → Option (List Char)
  | none, [] => some []
  | none, .char c :: ps => return c :: (← join? none ps)
  | none, .unit n :: ps =>
    if isHigh n then join? (some n) ps
    else if isLow n then none
    else return .ofNat n :: (← join? none ps)
  | some high, .unit n :: ps =>
    if isLow n then
      return .ofNat (0x10000 + 0x400 * (high - 0xD800) + (n - 0xDC00)) :: (← join? none ps)
    else none
  | some _, _ => none

end FunctorCalls.Json.Text
