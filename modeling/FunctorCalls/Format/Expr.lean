import FunctorCalls.Expr
import FunctorCalls.Format.Ty

namespace FunctorCalls

open Format (requiredField optionalField)
open Json (Shape)

instance : Format Span where
  shape := .record [requiredField "start" .verbatim, requiredField "end" .verbatim]
  toJson s := .object [("start", Format.toJson s.start), ("end", Format.toJson s.stop)]
  ofJson? | .object [("start", a), ("end", b)] =>
            return ⟨← Format.ofJson? a, ← Format.ofJson? b⟩
          | _ => none

instance : Format Symbol where
  shape := .cases [("Local", some .verbatim), ("GlobalCallable", some (Format.shape Name)),
    ("Invalid", none)]
  toJson | .localVar n => .object [("Local", .string n)]
         | .callable n => .object [("GlobalCallable", Format.toJson n)]
         | .invalid => .string "Invalid"
  ofJson? | .object [("Local", .string n)] => some (.localVar n)
          | .object [("GlobalCallable", n)] => (Format.ofJson? n).map .callable
          | .string "Invalid" => some .invalid
          | _ => none

instance : Tagged Pauli where
  all := [.i, .x, .y, .z]
  tag | .i => "I"
      | .x => "X"
      | .y => "Y"
      | .z => "Z"

instance : Format Literal where
  shape := .cases [("Int", some .verbatim), ("BigInt", some .verbatim), ("Double", some .verbatim),
    ("Bool", some .verbatim), ("String", some .verbatim), ("Result", some .verbatim),
    ("Pauli", some (Format.shape Pauli))]
  toJson | .int n => .object [("Int", Format.toJson n)]
         | .bigInt s => .object [("BigInt", .string s)]
         | .double x => .object [("Double", Format.toJson x)]
         | .bool b => .object [("Bool", .bool b)]
         | .string s => .object [("String", .string s)]
         | .result b => .object [("Result", .bool b)]
         | .pauli p => .object [("Pauli", Format.toJson p)]
  ofJson? | .object [("Int", n)] => (Format.ofJson? n).map .int
          | .object [("BigInt", .string s)] => some (.bigInt s)
          | .object [("Double", x)] => (Format.ofJson? x).map .double
          | .object [("Bool", .bool b)] => some (.bool b)
          | .object [("String", .string s)] => some (.string s)
          | .object [("Result", .bool b)] => some (.result b)
          | .object [("Pauli", p)] => (Format.ofJson? p).map .pauli
          | _ => none

instance : Tagged UnaryOp where
  all := [.negate, .logicalNot, .bitwiseNot]
  tag | .negate => "Negate"
      | .logicalNot => "LogicalNot"
      | .bitwiseNot => "BitwiseNot"

instance : Tagged BinaryOp where
  all := [.add, .sub, .mul, .div, .mod, .pow, .eq, .neq, .lt, .lte, .gt, .gte, .and, .or, .bitAnd,
    .bitOr, .bitXor, .shl, .shr]
  tag | .add => "Add"
      | .sub => "Sub"
      | .mul => "Mul"
      | .div => "Div"
      | .mod => "Mod"
      | .pow => "Pow"
      | .eq => "Eq"
      | .neq => "Neq"
      | .lt => "Lt"
      | .lte => "Lte"
      | .gt => "Gt"
      | .gte => "Gte"
      | .and => "And"
      | .or => "Or"
      | .bitAnd => "BitAnd"
      | .bitOr => "BitOr"
      | .bitXor => "BitXor"
      | .shl => "Shl"
      | .shr => "Shr"

def Expr.shape : Shape Form :=
  .record [requiredField "kind" (.named .exprKind), requiredField "ty" (.named .ty),
    optionalField "span" (Format.shape Span)]

def ExprKind.shape : Shape Form :=
  let expr : Shape Form := .named .expr
  .cases
    [("UnitValue", none),
     ("Literal", some (Format.shape Literal)),
     ("Identifier", some (.record [requiredField "symbol" (Format.shape Symbol),
       optionalField "type_arguments" (.list (.named .ty))])),
     ("Call", some (.record [requiredField "callee" expr, requiredField "argument" expr])),
     ("AdjointApplication", some expr),
     ("ControlledApplication", some expr),
     ("Tuple", some (.list expr)),
     ("ValueArray", some (.list expr)),
     ("SizedArray", some (.record [requiredField "value" expr, requiredField "size" expr])),
     ("NewArray", some (.record [requiredField "item_type" (.named .ty),
       requiredField "length" expr])),
     ("ArrayItem", some (.record [requiredField "array" expr, requiredField "index" expr])),
     ("NamedItem", some (.record [requiredField "record" expr, requiredField "item" .verbatim])),
     ("Range", some (.record [requiredField "start" expr, optionalField "step" expr,
       requiredField "end" expr])),
     ("UnaryOp", some (.record [requiredField "op" (Format.shape UnaryOp),
       requiredField "operand" expr])),
     ("BinaryOp", some (.record [requiredField "op" (Format.shape BinaryOp),
       requiredField "lhs" expr, requiredField "rhs" expr])),
     ("Conditional", some (.record [requiredField "condition" expr, requiredField "if_true" expr,
       requiredField "if_false" expr])),
     ("CopyAndUpdate", some (.record [requiredField "original" expr, requiredField "accessor" expr,
       requiredField "value" expr])),
     ("MissingArgument", none)]

mutual

def Expr.toJson : Expr → Json
  | ⟨kind, ty, span⟩ =>
    .object [("kind", kind.toJson), ("ty", ty.toJson), ("span", Format.toJson span)]

def ExprKind.toJson : ExprKind → Json
  | .unit => .string "UnitValue"
  | .literal v => .object [("Literal", Format.toJson v)]
  | .identifier s ts =>
    .object [("Identifier", .object [("symbol", Format.toJson s),
      ("type_arguments", Format.toJson ts)])]
  | .call c a => .object [("Call", .object [("callee", c.toJson), ("argument", a.toJson)])]
  | .adjoint e => .object [("AdjointApplication", e.toJson)]
  | .controlled e => .object [("ControlledApplication", e.toJson)]
  | .tuple es => .object [("Tuple", .array (Expr.itemsToJson es))]
  | .array es => .object [("ValueArray", .array (Expr.itemsToJson es))]
  | .filledArray v s => .object [("SizedArray", .object [("value", v.toJson), ("size", s.toJson)])]
  | .newArray t l =>
    .object [("NewArray", .object [("item_type", t.toJson), ("length", l.toJson)])]
  | .item a i => .object [("ArrayItem", .object [("array", a.toJson), ("index", i.toJson)])]
  | .field r n => .object [("NamedItem", .object [("record", r.toJson), ("item", .string n)])]
  | .range a s b =>
    .object [("Range", .object [("start", a.toJson), ("step", Expr.optionToJson s),
      ("end", b.toJson)])]
  | .unary op e => .object [("UnaryOp", .object [("op", Format.toJson op), ("operand", e.toJson)])]
  | .binary op l r =>
    .object [("BinaryOp", .object [("op", Format.toJson op), ("lhs", l.toJson), ("rhs", r.toJson)])]
  | .conditional c t f =>
    .object [("Conditional", .object [("condition", c.toJson), ("if_true", t.toJson),
      ("if_false", f.toJson)])]
  | .update v a p =>
    .object [("CopyAndUpdate", .object [("original", v.toJson), ("accessor", a.toJson),
      ("value", p.toJson)])]
  | .missing => .string "MissingArgument"

def Expr.itemsToJson : List Expr → List Json
  | [] => []
  | e :: es => e.toJson :: Expr.itemsToJson es

def Expr.optionToJson : Option Expr → Json
  | none => .null
  | some e => e.toJson

end

mutual

def Expr.ofJson? : Json → Option Expr
  | .object [("kind", k), ("ty", t), ("span", s)] =>
    return ⟨← ExprKind.ofJson? k, ← Ty.ofJson? t, ← Format.ofJson? s⟩
  | _ => none

def ExprKind.ofJson? : Json → Option ExprKind
  | .string "UnitValue" => some .unit
  | .string "MissingArgument" => some .missing
  | .object [("Literal", v)] => return .literal (← Format.ofJson? v)
  | .object [("Identifier", .object [("symbol", s), ("type_arguments", ts)])] =>
    return .identifier (← Format.ofJson? s) (← Format.ofJson? ts)
  | .object [("Call", .object [("callee", c), ("argument", a)])] =>
    return .call (← Expr.ofJson? c) (← Expr.ofJson? a)
  | .object [("AdjointApplication", e)] => return .adjoint (← Expr.ofJson? e)
  | .object [("ControlledApplication", e)] => return .controlled (← Expr.ofJson? e)
  | .object [("Tuple", .array es)] => return .tuple (← Expr.itemsOfJson? es)
  | .object [("ValueArray", .array es)] => return .array (← Expr.itemsOfJson? es)
  | .object [("SizedArray", .object [("value", v), ("size", s)])] =>
    return .filledArray (← Expr.ofJson? v) (← Expr.ofJson? s)
  | .object [("NewArray", .object [("item_type", t), ("length", l)])] =>
    return .newArray (← Ty.ofJson? t) (← Expr.ofJson? l)
  | .object [("ArrayItem", .object [("array", a), ("index", i)])] =>
    return .item (← Expr.ofJson? a) (← Expr.ofJson? i)
  | .object [("NamedItem", .object [("record", r), ("item", .string n)])] =>
    return .field (← Expr.ofJson? r) n
  | .object [("Range", .object [("start", a), ("step", .null), ("end", b)])] =>
    return .range (← Expr.ofJson? a) none (← Expr.ofJson? b)
  | .object [("Range", .object [("start", a), ("step", s), ("end", b)])] =>
    return .range (← Expr.ofJson? a) (some (← Expr.ofJson? s)) (← Expr.ofJson? b)
  | .object [("UnaryOp", .object [("op", op), ("operand", e)])] =>
    return .unary (← Format.ofJson? op) (← Expr.ofJson? e)
  | .object [("BinaryOp", .object [("op", op), ("lhs", l), ("rhs", r)])] =>
    return .binary (← Format.ofJson? op) (← Expr.ofJson? l) (← Expr.ofJson? r)
  | .object [("Conditional", .object [("condition", c), ("if_true", t), ("if_false", f)])] =>
    return .conditional (← Expr.ofJson? c) (← Expr.ofJson? t) (← Expr.ofJson? f)
  | .object [("CopyAndUpdate", .object [("original", v), ("accessor", a), ("value", p)])] =>
    return .update (← Expr.ofJson? v) (← Expr.ofJson? a) (← Expr.ofJson? p)
  | _ => none

def Expr.itemsOfJson? : List Json → Option (List Expr)
  | [] => some []
  | j :: js => return (← Expr.ofJson? j) :: (← Expr.itemsOfJson? js)

end

instance : Format Expr where
  shape := .named .expr
  toJson := Expr.toJson
  ofJson? := Expr.ofJson?

instance : Format ExprKind where
  shape := .named .exprKind
  toJson := ExprKind.toJson
  ofJson? := ExprKind.ofJson?

end FunctorCalls
