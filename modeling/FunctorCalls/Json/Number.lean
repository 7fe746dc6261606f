namespace FunctorCalls

/-- An empty fraction stands for no fraction at all. -/
structure Json.Number where
  negative : Bool
  whole : Nat
  fraction : List (Fin 10)
  exponent : Option Int
  deriving DecidableEq

namespace Json.Number

def ofInt : Int → Number
  | .ofNat n => ⟨false, n, [], none⟩
  | .negSucc n => ⟨true, n + 1, [], none⟩

/-- A number without a fraction and without an exponent is an integer, `-0` excepted. -/
def int? : Number → Option Int
  | ⟨false, n, [], none⟩ => some (.ofNat n)
  | ⟨true, n + 1, [], none⟩ => some (.negSucc n)
  | _ => none

def isZero (n : Number) : Bool := n.whole == 0 && n.fraction.all (· == 0)

def lastDigit (n : Nat) : Fin 10 := Fin.ofNat 10 n

def digitChar (d : Fin 10) : Char := Nat.digitChar d

def exponentChars (e : Int) : List Char :=
  'e' :: (if e < 0 then '-' else '+') :: Nat.toDigits 10 e.natAbs

def chars (n : Number) : List Char :=
  (if n.negative then ['-'] else []) ++ Nat.toDigits 10 n.whole ++
    (if n.fraction.isEmpty then [] else '.' :: n.fraction.map digitChar) ++
    (n.exponent.map exponentChars).getD []

def cut (mark : Char → Bool) (cs : List Char) : List Char × Option (List Char) :=
  (cs.takeWhile (!mark ·), (cs.dropWhile (!mark ·)).tail?)

def digit? (c : Char) : Option (Fin 10) :=
  if c.isDigit then some (lastDigit (c.toNat - '0'.toNat)) else none

def digits? (cs : List Char) : Option (List (Fin 10)) :=
  if cs.isEmpty then none else cs.mapM digit?

def natural? (cs : List Char) : Option Nat :=
  (digits? cs).map fun _ ↦ Nat.ofDigitChars 10 cs 0

/-- Leading zeros are allowed in exponents. -/
def exponent? : List Char → Option Int
  | '+' :: cs => (natural? cs).map Int.ofNat
  | '-' :: cs => (natural? cs).map Int.negOfNat
  | cs => (natural? cs).map Int.ofNat

def unsigned? (negative : Bool) (cs : List Char) : Option Number := do
  let (mantissa, exponent) := cut (fun c ↦ c == 'e' || c == 'E') cs
  let (whole, fraction) := cut (· == '.') mantissa
  if whole.length ≠ 1 ∧ whole.head? = some '0' then none
  let n ← natural? whole
  let digits ← fraction.mapM digits?
  return ⟨negative, n, digits.getD [], ← exponent.mapM exponent?⟩

def ofChars? : List Char → Option Number
  | '-' :: cs => unsigned? true cs
  | cs => unsigned? false cs

end Json.Number

end FunctorCalls
