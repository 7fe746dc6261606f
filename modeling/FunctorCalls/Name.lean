namespace FunctorCalls

/-- A simple name in a namespace. The namespace may be empty, and either part may hold dots. -/
@[ext]
structure Name where
  space : String
  base : String
  deriving DecidableEq

namespace Name

instance : Ord Name where
  compare := compareLex (compareOn space) (compareOn base)

instance : Std.TransOrd Name :=
  inferInstanceAs (Std.TransCmp (compareLex (compareOn space) (compareOn base)))

instance : Std.LawfulEqOrd Name where
  eq_of_compare {a b} h := by
    obtain ⟨hs, hb⟩ := Ordering.then_eq_eq.1 h
    have hs : a.space = b.space := Std.LawfulEqOrd.eq_of_compare hs
    have hb : a.base = b.base := Std.LawfulEqOrd.eq_of_compare hb
    cases a
    cases b
    simp_all

def display (n : Name) : String := if n.space = "" then n.base else n.space ++ "." ++ n.base

def splitLastDot? : List Char → Option (List Char × List Char)
  | [] => none
  | c :: cs => match splitLastDot? cs with
    | some (before, behind) => some (c :: before, behind)
    | none => if c = '.' then some ([], cs) else none

/-- Divides a text at its last dot. Without a dot the namespace is empty. -/
def parse (full : String) : Name :=
  match splitLastDot? full.toList with
  | some (before, behind) => ⟨.ofList before, .ofList behind⟩
  | none => ⟨"", full⟩

end Name

end FunctorCalls
