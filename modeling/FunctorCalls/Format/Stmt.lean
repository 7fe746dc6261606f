import FunctorCalls.Format.Expr
import FunctorCalls.Stmt

namespace FunctorCalls

open Format (requiredField optionalField)
open Json (Shape)

def Pattern.shape : Shape Form :=
  .cases [("Declaration", some .verbatim), ("Tuple", some (.list (.named .pattern))),
    ("Discarded", none)]

mutual

def Pattern.toJson : Pattern → Json
  | .declare n => .object [("Declaration", .string n)]
  | .tuple ps => .object [("Tuple", .array (itemsToJson ps))]
  | .discard => .string "Discarded"

def Pattern.itemsToJson : List Pattern → List Json
  | [] => []
  | p :: ps => p.toJson :: itemsToJson ps

end

mutual

def Pattern.ofJson? : Json → Option Pattern
  | .object [("Declaration", .string n)] => some (.declare n)
  | .object [("Tuple", .array ps)] => return .tuple (← itemsOfJson? ps)
  | .string "Discarded" => some .discard
  | _ => none

def Pattern.itemsOfJson? : List Json → Option (List Pattern)
  | [] => some []
  | j :: js => return (← ofJson? j) :: (← itemsOfJson? js)

end

instance : Format Pattern where
  shape := .named .pattern
  toJson := Pattern.toJson
  ofJson? := Pattern.ofJson?

instance : Tagged Mutability where
  all := [.immutable, .mutable]
  tag | .immutable => "Immutable"
      | .mutable => "Mutable"

instance : Tagged QubitSource where
  all := [.allocate, .borrow]
  tag | .allocate => "Allocate"
      | .borrow => "Borrow"

def QubitInit.shape : Shape Form :=
  .cases [("Single", none), ("Register", some (.named .expr)),
    ("Tuple", some (.list (.named .qubitInit)))]

mutual

def QubitInit.toJson : QubitInit → Json
  | .single => .string "Single"
  | .register e => .object [("Register", e.toJson)]
  | .tuple is => .object [("Tuple", .array (itemsToJson is))]

def QubitInit.itemsToJson : List QubitInit → List Json
  | [] => []
  | i :: is => i.toJson :: itemsToJson is

end

mutual

def QubitInit.ofJson? : Json → Option QubitInit
  | .string "Single" => some .single
  | .object [("Register", e)] => return .register (← Expr.ofJson? e)
  | .object [("Tuple", .array is)] => return .tuple (← itemsOfJson? is)
  | _ => none

def QubitInit.itemsOfJson? : List Json → Option (List QubitInit)
  | [] => some []
  | j :: js => return (← ofJson? j) :: (← itemsOfJson? js)

end

instance : Format QubitInit where
  shape := .named .qubitInit
  toJson := QubitInit.toJson
  ofJson? := QubitInit.ofJson?

def Scope.shape : Shape Form := .record [requiredField "statements" (.list (.named .stmt))]

def Stmt.shape : Shape Form :=
  let expr : Shape Form := .named .expr
  let pattern : Shape Form := .named .pattern
  let scope : Shape Form := .named .scope
  .cases
    [("Expression", some expr),
     ("Return", some expr),
     ("Fail", some expr),
     ("Binding", some (.record [requiredField "kind" (Format.shape Mutability),
       requiredField "lhs" pattern, requiredField "rhs" expr])),
     ("ValueUpdate", some (.record [requiredField "lhs" expr, requiredField "rhs" expr])),
     ("Conditional", some (.record [requiredField "branches" (.list (.tuple [expr, scope])),
       optionalField "default" scope])),
     ("ForLoop", some (.record [requiredField "item" pattern,
       requiredField "item_type" (.named .ty), requiredField "iterable" expr,
       requiredField "body" scope])),
     ("WhileLoop", some (.record [requiredField "condition" expr, requiredField "body" scope])),
     ("Repeat", some (.record [requiredField "body" scope, requiredField "condition" expr,
       requiredField "fixup" scope])),
     ("Conjugation", some (.record [requiredField "outer" scope, requiredField "inner" scope])),
     ("QubitScope", some (.record [requiredField "kind" (Format.shape QubitSource),
       requiredField "binding" pattern, requiredField "initializer" (.named .qubitInit),
       optionalField "body" scope])),
     ("Block", some scope)]

mutual

def Stmt.toJson : Stmt → Json
  | .expr e => .object [("Expression", e.toJson)]
  | .ret e => .object [("Return", e.toJson)]
  | .fail e => .object [("Fail", e.toJson)]
  | .bind m l r =>
    .object [("Binding", .object [("kind", Format.toJson m), ("lhs", l.toJson), ("rhs", r.toJson)])]
  | .assign l r => .object [("ValueUpdate", .object [("lhs", l.toJson), ("rhs", r.toJson)])]
  | .conditional bs d =>
    .object [("Conditional", .object [("branches", .array (Scope.branchesToJson bs)),
      ("default", Scope.optionToJson d)])]
  | .forLoop i t e b =>
    .object [("ForLoop", .object [("item", i.toJson), ("item_type", t.toJson),
      ("iterable", e.toJson), ("body", b.toJson)])]
  | .whileLoop c b => .object [("WhileLoop", .object [("condition", c.toJson), ("body", b.toJson)])]
  | .repeatUntil b c f =>
    .object [("Repeat", .object [("body", b.toJson), ("condition", c.toJson), ("fixup", f.toJson)])]
  | .conjugate o i =>
    .object [("Conjugation", .object [("outer", o.toJson), ("inner", i.toJson)])]
  | .qubits s p i b =>
    .object [("QubitScope", .object [("kind", Format.toJson s), ("binding", p.toJson),
      ("initializer", i.toJson), ("body", Scope.optionToJson b)])]
  | .block s => .object [("Block", s.toJson)]

def Scope.toJson : Scope → Json
  | ⟨statements⟩ => .object [("statements", .array (Stmt.itemsToJson statements))]

def Stmt.itemsToJson : List Stmt → List Json
  | [] => []
  | s :: ss => s.toJson :: Stmt.itemsToJson ss

def Scope.branchesToJson : List (Expr × Scope) → List Json
  | [] => []
  | (c, s) :: bs => .array [c.toJson, s.toJson] :: Scope.branchesToJson bs

def Scope.optionToJson : Option Scope → Json
  | none => .null
  | some s => s.toJson

end

mutual

def Stmt.ofJson? : Json → Option Stmt
  | .object [("Expression", e)] => return .expr (← Expr.ofJson? e)
  | .object [("Return", e)] => return .ret (← Expr.ofJson? e)
  | .object [("Fail", e)] => return .fail (← Expr.ofJson? e)
  | .object [("Binding", .object [("kind", m), ("lhs", l), ("rhs", r)])] =>
    return .bind (← Format.ofJson? m) (← Pattern.ofJson? l) (← Expr.ofJson? r)
  | .object [("ValueUpdate", .object [("lhs", l), ("rhs", r)])] =>
    return .assign (← Expr.ofJson? l) (← Expr.ofJson? r)
  | .object [("Conditional", .object [("branches", .array bs), ("default", .null)])] =>
    return .conditional (← Scope.branchesOfJson? bs) none
  | .object [("Conditional", .object [("branches", .array bs), ("default", d)])] =>
    return .conditional (← Scope.branchesOfJson? bs) (some (← Scope.ofJson? d))
  | .object [("ForLoop", .object [("item", i), ("item_type", t), ("iterable", e), ("body", b)])] =>
    return .forLoop (← Pattern.ofJson? i) (← Ty.ofJson? t) (← Expr.ofJson? e) (← Scope.ofJson? b)
  | .object [("WhileLoop", .object [("condition", c), ("body", b)])] =>
    return .whileLoop (← Expr.ofJson? c) (← Scope.ofJson? b)
  | .object [("Repeat", .object [("body", b), ("condition", c), ("fixup", f)])] =>
    return .repeatUntil (← Scope.ofJson? b) (← Expr.ofJson? c) (← Scope.ofJson? f)
  | .object [("Conjugation", .object [("outer", o), ("inner", i)])] =>
    return .conjugate (← Scope.ofJson? o) (← Scope.ofJson? i)
  | .object [("QubitScope", .object [("kind", s), ("binding", p), ("initializer", i),
      ("body", .null)])] =>
    return .qubits (← Format.ofJson? s) (← Pattern.ofJson? p) (← QubitInit.ofJson? i) none
  | .object [("QubitScope", .object [("kind", s), ("binding", p), ("initializer", i),
      ("body", b)])] =>
    return .qubits (← Format.ofJson? s) (← Pattern.ofJson? p) (← QubitInit.ofJson? i)
      (some (← Scope.ofJson? b))
  | .object [("Block", s)] => return .block (← Scope.ofJson? s)
  | _ => none

def Scope.ofJson? : Json → Option Scope
  | .object [("statements", .array ss)] => return ⟨← Stmt.itemsOfJson? ss⟩
  | _ => none

def Stmt.itemsOfJson? : List Json → Option (List Stmt)
  | [] => some []
  | j :: js => return (← Stmt.ofJson? j) :: (← Stmt.itemsOfJson? js)

def Scope.branchesOfJson? : List Json → Option (List (Expr × Scope))
  | [] => some []
  | .array [c, s] :: js =>
    return (← Expr.ofJson? c, ← Scope.ofJson? s) :: (← Scope.branchesOfJson? js)
  | _ => none

end

instance : Format Scope where
  shape := .named .scope
  toJson := Scope.toJson
  ofJson? := Scope.ofJson?

instance : Format Stmt where
  shape := .named .stmt
  toJson := Stmt.toJson
  ofJson? := Stmt.ofJson?

end FunctorCalls
