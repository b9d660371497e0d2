import Intreccio.Foundation.FloatText
import Intreccio.Query.Ast

/-! The text of an expression (`query/ast/format.go`), which names a column without alias. -/

namespace Intreccio.Ast

def UnaryOp.text : UnaryOp → Str
  | .not => lit "NOT"
  | .minus => lit "-"
  | .isNull => lit "IS NULL"
  | .isNotNull => lit "IS NOT NULL"

def BinaryOp.text : BinaryOp → Str
  | .add => lit "+"
  | .sub => lit "-"
  | .mul => lit "*"
  | .div => lit "/"
  | .mod => lit "%"
  | .eq => lit "="
  | .ne => lit "<>"
  | .lt => lit "<"
  | .le => lit "<="
  | .gt => lit ">"
  | .ge => lit ">="
  | .and => lit "AND"
  | .or => lit "OR"
  | .matches => lit "=~"
  | .startsWith => lit "STARTS WITH"
  | .endsWith => lit "ENDS WITH"
  | .contains => lit "CONTAINS"
  | .inList => lit "IN"

def QuantifierKind.text : QuantifierKind → Str
  | .any => lit "any"
  | .all => lit "all"
  | .none => lit "none"
  | .single => lit "single"

def formatLiteral : Scalar → Str
  | .null => lit "null"
  | .str s => lit "'" ++ s ++ lit "'"
  | .bool b => lit (toString b)
  | .int i => lit (toString i.toInt)
  | .float f => lit f.text

/-- `strings.Join`. -/
def joinStr (sep : Str) : List Str → Str
  | [] => []
  | [s] => s
  | s :: rest => s ++ sep ++ joinStr sep rest

mutual
def format : Expr → Str
  | .var name => name
  | .propertyAccess target key => format target ++ lit "." ++ key
  | .param name => lit "$" ++ name
  | .literal value => formatLiteral value
  | .unary op e => (if op = .not then lit "NOT " else op.text) ++ format e
  | .binary op l r => format l ++ lit " " ++ op.text ++ lit " " ++ format r
  | .labelsPredicate e labels => format e ++ lit ":" ++ joinStr (lit ":") labels
  | .listLiteral elements => lit "[" ++ joinStr (lit ", ") (formatAll elements) ++ lit "]"
  | .mapLiteral entries =>
    let parts := (formatEntries entries).insertionSort (fun a b => a.1 ≤ b.1)
    lit "\x7b" ++ joinStr (lit ", ") (parts.map (fun e => e.1 ++ lit ": " ++ e.2)) ++ lit "\x7d"
  | .caseOf operand whens otherwise =>
    lit "CASE" ++ formatOpt (lit " ") operand ++ formatWhens whens
      ++ formatOpt (lit " ELSE ") otherwise ++ lit " END"
  | .functionCall name distinct star args =>
    name ++ lit "(" ++ (if distinct then lit "DISTINCT " else []) ++ (if star then lit "*" else [])
      ++ joinStr (lit ", ") (formatAll args) ++ lit ")"
  | .listComprehension loopVar list cond map =>
    lit "[" ++ loopVar ++ lit " IN " ++ format list ++ formatOpt (lit " WHERE ") cond
      ++ formatOpt (lit " | ") map ++ lit "]"
  | .quantifier kind loopVar list cond =>
    kind.text ++ lit "(" ++ loopVar ++ lit " IN " ++ format list ++ lit " WHERE " ++ format cond
      ++ lit ")"
  | .subscript target index => format target ++ lit "[" ++ format index ++ lit "]"
  | .slice target lower upper =>
    format target ++ lit "[" ++ formatOpt [] lower ++ lit ".." ++ formatOpt [] upper ++ lit "]"
termination_by structural e => e

def formatOpt (before : Str) : Option Expr → Str
  | none => []
  | some e => before ++ format e
termination_by structural e => e

def formatAll : List Expr → List Str
  | [] => []
  | e :: rest => format e :: formatAll rest
termination_by structural l => l

def formatEntries : List (Str × Expr) → List (Str × Str)
  | [] => []
  | (k, e) :: rest => (k, format e) :: formatEntries rest
termination_by structural l => l

def formatWhens : List (Expr × Expr) → Str
  | [] => []
  | (cond, result) :: rest =>
    lit " WHEN " ++ format cond ++ lit " THEN " ++ format result ++ formatWhens rest
termination_by structural l => l
end

end Intreccio.Ast
