import FunctorCalls.Format.Stmt
import FunctorCalls.Json.Alike
import FunctorCalls.Json.Printer
import FunctorCalls.Json.Reader

namespace FunctorCalls

def Form.definition : Form → Json.Shape Form
  | ty => Ty.shape
  | expr => Expr.shape
  | exprKind => ExprKind.shape
  | pattern => Pattern.shape
  | qubitInit => QubitInit.shape
  | stmt => Stmt.shape
  | scope => Scope.shape

namespace Format

variable {α : Type} [Format α]

def decode? (j : Json) : Option α := ((shape α).canonical? Form.definition j).bind ofJson?

/-- A value is read from any text of any presentation of its document. -/
def read? (text : String) : Option α := (Json.parse? text).bind decode?

def text (a : α) : String := (toJson a).compact

/-- Whether two values are equal: all zeros are, and the order of map entries does not count. -/
def same (a b : α) : Bool := (toJson a).alike (toJson b)

end Format

end FunctorCalls
