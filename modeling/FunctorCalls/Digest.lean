import FunctorCalls.Digest.Blake3
import FunctorCalls.Format.Ty
import FunctorCalls.Json.Printer

namespace FunctorCalls

structure Digest where
  bytes : List UInt8
  length_bytes : bytes.length = 32
  deriving DecidableEq

namespace Digest

instance : Ord Digest where
  compare := compareOn bytes

instance : Std.TransOrd Digest := inferInstanceAs (Std.TransCmp (compareOn bytes))

instance : Std.LawfulEqOrd Digest where
  eq_of_compare {a b} h := by
    have h : a.bytes = b.bytes := Std.LawfulEqOrd.eq_of_compare h
    cases a
    cases b
    simp_all

def ofBytes? (bytes : List UInt8) : Option Digest :=
  if h : bytes.length = 32 then some ⟨bytes, h⟩ else none

def hexByte (b : UInt8) : List Char := [Nat.digitChar (b.toNat / 16), Nat.digitChar (b.toNat % 16)]

def hex (d : Digest) : String := .ofList (d.bytes.flatMap hexByte)

def short (d : Digest) : String := .ofList ((d.bytes.take 4).flatMap hexByte)

def bytesOfHex? : List Char → Option (List UInt8)
  | [] => some []
  | a :: b :: cs => return .ofNat (← Json.Text.hex? [a, b]) :: (← bytesOfHex? cs)
  | [_] => none

def ofHex? (text : String) : Option Digest := (bytesOfHex? text.toList).bind ofBytes?

instance : Format Digest where
  shape := .verbatim
  toJson d := .array (d.bytes.map Format.toJson)
  ofJson? | .array js => (js.mapM Format.ofJson?).bind ofBytes?
          | _ => none

end Digest

namespace Ty

def text (t : Ty) : String := t.toJson.compact

/-- Types are hashed by their canonical texts. -/
def digest (t : Ty) : Digest :=
  ⟨Blake3.hash t.text.toUTF8.toList, Blake3.length_hash _⟩

end Ty

end FunctorCalls
