import Intreccio.Exec.Functions

/-! Evaluation of expressions against a row (`internal/exec/eval.go`). -/

namespace Intreccio.Exec

open Kv Words Graph Ast

def unboundVariable (name : Str) : Err := .text (lit "exec: unbound variable " ++ name)

def missingParameter (name : Str) : Err :=
  .text (lit "exec: parameter $" ++ name ++ lit " not provided")

/-- A property by name: a name without an ID is a property that nothing has. -/
def propValue (props : List (UInt32 × Val)) (key : Str) : Txn Val := do
  match ← Catalog.lookupKey key with
  | none => return .null
  | some keyID => return (OrderedMap.find keyID props).getD .null

def accessProperty (target : Val) (key : Str) : Txn Val :=
  match target with
  | .null => return .null
  | .node n => propValue n.props key
  | .edge e => propValue e.props key
  | .map entries => return (OrderedMap.find key entries).getD .null
  | v => throw (.plain ("exec: property access on a non-node/edge/map value (" ++ v.typeName ++ ")"))

/-- A list element, counted from the end when negative; null outside of the list. -/
def listElement (items : List Val) (index : Val) : Except Err Val :=
  match normalize index with
  | .int i =>
    let i := if i < 0 then i + Int64.ofNat items.length else i
    if i < 0 then .ok .null else .ok (items.getD i.toInt.toNat .null)
  | _ => .error (.plain ("exec: list index must be an integer, got " ++ index.typeName))

def accessElement (target index : Val) : Txn Val := do
  if isNull target || isNull index then return .null
  match target, index with
  | .list items, _ => Program.ofExcept (listElement items index)
  | .map entries, .str key => return (OrderedMap.find key entries).getD .null
  | .node n, .str key => propValue n.props key
  | .edge e, .str key => propValue e.props key
  | .map _, v | .node _, v | .edge _, v =>
    throw (.plain ("exec: map key must be a string, got " ++ v.typeName))
  | v, _ => throw (.plain ("exec: cannot index a " ++ v.typeName))

/-- A bound of a slice of `n` elements; none for null. -/
def sliceBound (n : Nat) (v : Val) : Except Err (Option Nat) :=
  match normalize v with
  | .null => .ok none
  | .int i =>
    let i := if i < 0 then i.toInt + n else i.toInt
    .ok (some (min i.toNat n))
  | _ => .error (.plain ("exec: slice bound must be an integer, got " ++ v.typeName))

def sliceItems (items : List Val) (lower upper : Option Nat) : Val :=
  match lower, upper with
  | some i, some j => .list ((items.take j).drop i)
  | _, _ => .null

def hasLabel (n : NodeOf Val) (labelID : UInt32) : Bool := labelID ∈ n.labels

def hasLabels (n : NodeOf Val) : List Str → Txn Bool
  | [] => return true
  | name :: rest => do
      match ← Catalog.lookupLabel name with
      | none => return false
      | some id => if hasLabel n id then hasLabels n rest else return false

def testLabels (target : Val) (labels : List Str) : Txn Val :=
  match target with
  | .node n => do
      let all ← hasLabels n labels
      return .bool all
  | _ => return .bool false

def applyUnary (op : UnaryOp) (v : Val) : Except Err Val :=
  match op, v with
  | .not, .null => .ok .null
  | .not, .bool b => .ok (.bool (!b))
  | .not, v => .error (.plain ("exec: NOT requires a boolean, got " ++ v.typeName))
  | .minus, .int n => Val.int <$> negateInt n
  | .minus, .float f => .ok (.float f.neg)
  | .minus, v => .error (.plain ("exec: unary minus requires a number, got " ++ v.typeName))
  | .isNull, v => .ok (.bool (isNull v))
  | .isNotNull, v => .ok (.bool (!isNull v))

/-- AND, or OR when `isOr`: the deciding value wins over null, and what is neither null nor
true counts as false.
-/
def boolOp (isOr : Bool) (l r : Val) : Val :=
  if (!isNull l && truthy l = isOr) || (!isNull r && truthy r = isOr) then .bool isOr
  else if isNull l || isNull r then .null
  else .bool (!isOr)

/-- The whole string must match; null unless both sides are strings. -/
def regexMatch (ctx : Context) (l r : Val) : Except Err Val :=
  match l, r with
  | .str s, .str pattern =>
    match ctx.lib.regexp pattern with
    | .ok accepts => .ok (.bool (accepts s))
    | .error reason =>
      .error (.wrap (lit "exec: invalid regular expression " ++ ctx.lib.quote pattern) (.text reason))
  | _, _ => .ok .null

def applyBinary (ctx : Context) (op : BinaryOp) (l r : Val) : Except Err Val :=
  match op with
  | .and => .ok (boolOp false l r)
  | .or => .ok (boolOp true l r)
  | .eq => .ok (equalityOp l r false)
  | .ne => .ok (equalityOp l r true)
  | .lt => .ok (compareOp Ordering.isLT l r)
  | .le => .ok (compareOp Ordering.isLE l r)
  | .gt => .ok (compareOp Ordering.isGT l r)
  | .ge => .ok (compareOp Ordering.isGE l r)
  | .add => arithmetic .add l r
  | .sub => arithmetic .sub l r
  | .mul => arithmetic .mul l r
  | .div => arithmetic .div l r
  | .mod => arithmetic .mod l r
  | .matches => regexMatch ctx l r
  | .startsWith => .ok (stringPredicate (fun s p => p.isPrefixOf s) l r)
  | .endsWith => .ok (stringPredicate (fun s p => p.isSuffixOf s) l r)
  | .contains => .ok (stringPredicate containsStr l r)
  | .inList => inList l r

/-- The list that a comprehension or a quantifier goes through; none for null. -/
def iterList (v : Val) : Except Err (Option (List Val)) :=
  match v with
  | .null => .ok none
  | .list items => .ok (some items)
  | v => .error (.plain ("exec: IN requires a list, got " ++ v.typeName))

def comprehend (body : Val → Choices → Txn (Option Val)) : List Val → Choices → Txn (List Val)
  | [], _ => return []
  | v :: rest, c => do
      let r ← body v c.now
      let more ← comprehend body rest c.later
      return r.toList ++ more

/-- How often the predicate of a quantifier was true, false and null. -/
structure Tally where
  trues : Nat
  falses : Nat
  unknowns : Nat

def Tally.count (t : Tally) (v : Val) : Tally :=
  if isNull v then { t with unknowns := t.unknowns + 1 }
  else if truthy v then { t with trues := t.trues + 1 }
  else { t with falses := t.falses + 1 }

/-- The elements seen so far decide the answer. -/
def Tally.decided (t : Tally) : QuantifierKind → Bool
  | .any | .none => 0 < t.trues
  | .all => 0 < t.falses
  | .single => 1 < t.trues

def tally (kind : QuantifierKind) (test : Val → Choices → Txn Val)
    : List Val → Tally → Choices → Txn Tally
  | [], t, _ => return t
  | v :: rest, t, c => do
      let r ← test v c.now
      let t := t.count r
      if t.decided kind then return t else tally kind test rest t c.later

def Tally.answer (t : Tally) : QuantifierKind → Val
  | .any => if 0 < t.trues then .bool true else if 0 < t.unknowns then .null else .bool false
  | .none => if 0 < t.trues then .bool false else if 0 < t.unknowns then .null else .bool true
  | .all => if 0 < t.falses then .bool false else if 0 < t.unknowns then .null else .bool true
  | .single =>
    if 1 < t.trues then .bool false
    else if t.unknowns = 0 then .bool (t.trues = 1)
    else .null

def runEntries : List (Str × Txn Val) → Txn (List (Str × Val))
  | [] => return []
  | (k, p) :: rest => do
      let v ← p
      let more ← runEntries rest
      return (k, v) :: more

def buildMap (entries : List (Str × Val)) : List (Str × Val) :=
  entries.foldl (fun m e => OrderedMap.insertEntry e.1 e.2 m) []

/-- An aggregate or an unknown name is refused before the arguments are evaluated. -/
def findFunction (name : Str) : Except Err ScalarFunc :=
  if isAggregate name then
    .error (.text (lit "exec: aggregate " ++ name ++ lit " used outside aggregation context"))
  else
    match scalarFunc name with
    | some f => .ok f
    | none => .error (.text (lit "exec: unknown function " ++ name))

mutual
def eval (ctx : Context) (e : Expr) (b : Row) (c : Choices) : Txn Val :=
  match e with
  | .literal value => return value.toVal
  | .param name =>
    match ctx.params.get name with
    | some v => return normalize v
    | none => throw (missingParameter name)
  | .var name =>
    match b.get name with
    | some v => return v
    | none => throw (unboundVariable name)
  | .propertyAccess target key => do
      let t ← eval ctx target b (c.sub 0)
      accessProperty t key
  | .listComprehension loopVar list cond map => do
      let l ← eval ctx list b (c.sub 0)
      match ← Program.ofExcept (iterList l) with
      | none => return .null
      | some items =>
        let out ← comprehend (fun item c => do
          let row := b.set loopVar item
          let keep ← evalOpt ctx cond (.bool true) row (c.sub 0)
          if truthy keep then
            let v ← evalOpt ctx map item row (c.sub 1)
            return some v
          else return none) items (c.sub 1)
        return .list out
  | .quantifier kind loopVar list cond => do
      let l ← eval ctx list b (c.sub 0)
      match ← Program.ofExcept (iterList l) with
      | none => return .null
      | some items =>
        let t ← tally kind (fun item c => eval ctx cond (b.set loopVar item) c) items ⟨0, 0, 0⟩ (c.sub 1)
        return t.answer kind
  | .subscript target index => do
      let t ← eval ctx target b (c.sub 0)
      let i ← eval ctx index b (c.sub 1)
      accessElement t i
  | .slice target lower upper => do
      let t ← eval ctx target b (c.sub 0)
      match t with
      | .null => return .null
      | .list items => do
          let lo ← evalOpt ctx lower (.int 0) b (c.sub 1)
          match ← Program.ofExcept (sliceBound items.length lo) with
          | none => return .null
          | some i => do
              let hi ← evalOpt ctx upper (length64 items) b (c.sub 2)
              let j ← Program.ofExcept (sliceBound items.length hi)
              return sliceItems items (some i) j
      | v => throw (.plain ("exec: cannot slice a " ++ v.typeName))
  | .unary op e => do
      let v ← eval ctx e b (c.sub 0)
      Program.ofExcept (applyUnary op v)
  | .binary op left right => do
      let l ← eval ctx left b (c.sub 0)
      let r ← eval ctx right b (c.sub 1)
      Program.ofExcept (applyBinary ctx op l r)
  | .labelsPredicate e labels => do
      let v ← eval ctx e b (c.sub 0)
      testLabels v labels
  | .listLiteral elements => do
      let vs ← evalAll ctx elements b c
      return .list vs
  | .mapLiteral entries => do
      let vs ← runEntries (c.range (evalEntries ctx entries b (c.sub 0)))
      return .map (buildMap vs)
  | .caseOf operand whens otherwise =>
    match operand with
    | some e => do
        let v ← eval ctx e b (c.sub 0)
        evalWhens ctx (some v) whens (evalOpt ctx otherwise .null b (c.sub 1)) b (c.sub 2)
    | none => evalWhens ctx none whens (evalOpt ctx otherwise .null b (c.sub 1)) b (c.sub 2)
  | .functionCall name _ _ args => do
      let f ← Program.ofExcept (findFunction name)
      let vs ← evalAll ctx args b (c.sub 0)
      f ctx (c.sub 1) vs
termination_by structural e

/-- An optional part, with the value it stands for when absent. -/
def evalOpt (ctx : Context) (e : Option Expr) (absent : Val) (b : Row) (c : Choices) : Txn Val :=
  match e with
  | none => return absent
  | some e => eval ctx e b c
termination_by structural e

def evalAll (ctx : Context) (l : List Expr) (b : Row) (c : Choices) : Txn (List Val) :=
  match l with
  | [] => return []
  | e :: rest => do
      let v ← eval ctx e b c.now
      let more ← evalAll ctx rest b c.later
      return v :: more
termination_by structural l

/-- The computations of the entries of a map, to be run in any order. -/
def evalEntries (ctx : Context) (l : List (Str × Expr)) (b : Row) (c : Choices)
    : List (Str × Txn Val) :=
  match l with
  | [] => []
  | (k, e) :: rest => (k, eval ctx e b c.now) :: evalEntries ctx rest b c.later
termination_by structural l

/-- The branches of a case: a condition equal to the operand, or true without one. -/
def evalWhens (ctx : Context) (operand : Option Val) (l : List (Expr × Expr)) (otherwise : Txn Val)
    (b : Row) (c : Choices) : Txn Val :=
  match l with
  | [] => otherwise
  | (cond, result) :: rest => do
      let v ← eval ctx cond b c.now
      if operand.elim (truthy v) (equals · v) then eval ctx result b (c.sub 2)
      else evalWhens ctx operand rest otherwise b c.later
termination_by structural l
end

end Intreccio.Exec
