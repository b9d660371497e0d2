import Intreccio.Foundation.OrderedMap
import Intreccio.Foundation.Words
import Intreccio.Foundation.Binary64

/-! The values the database works with, and the errors it returns.
`Val` stands for Go's `any`: property values, the entities a row binds, and the types that no
record can hold. Go strings are byte strings.
-/

namespace Intreccio

open Kv Words

abbrev Str := Bytes

def lit (s : String) : Str := s.toByteArray.data.toList

/-- A node as a row holds it: its ID, label IDs and properties by key ID. -/
structure NodeOf (α : Type) where
  id : UInt64
  labels : List UInt32
  props : List (UInt32 × α)

structure EdgeOf (α : Type) where
  id : UInt64
  type : UInt32
  src : UInt64
  dst : UInt64
  props : List (UInt32 × α)

/-- Go's `any` as it occurs in the engine. `goInt` is an `int` that was not yet normalized,
`edges` is the Go type `[]graph.Edge`, and `other` any type the engine does not store.
-/
inductive Val where
  | null
  | bool (b : Bool)
  | int (i : Int64)
  | goInt (i : Int64)
  | float (f : Binary64)
  | str (s : Str)
  | list (items : List Val)
  | map (entries : List (Str × Val))
  | node (n : NodeOf Val)
  | edge (e : EdgeOf Val)
  | edges (items : List (EdgeOf Val))
  | path (nodes : List (NodeOf Val)) (rels : List (EdgeOf Val))
  | other (type : String)
deriving Inhabited

/-- Go's `%T`. -/
def Val.typeName : Val → String
  | .null => "<nil>"
  | .bool _ => "bool"
  | .int _ => "int64"
  | .goInt _ => "int"
  | .float _ => "float64"
  | .str _ => "string"
  | .list _ => "[]interface \x7b\x7d"
  | .map _ => "map[string]interface \x7b\x7d"
  | .node _ => "graph.Node"
  | .edge _ => "graph.Edge"
  | .edges _ => "[]graph.Edge"
  | .path _ _ => "graph.Path"
  | .other type => type

/-- The scalars, which are the values an index can hold. -/
inductive Scalar where
  | null
  | bool (b : Bool)
  | int (i : Int64)
  | float (f : Binary64)
  | str (s : Str)
deriving DecidableEq, Inhabited

def Scalar.toVal : Scalar → Val
  | .null => .null
  | .bool b => .bool b
  | .int i => .int i
  | .float f => .float f
  | .str s => .str s

def Val.scalar? : Val → Option Scalar
  | .null => some .null
  | .bool b => some (.bool b)
  | .int i => some (.int i)
  | .float f => some (.float f)
  | .str s => some (.str s)
  | _ => none

@[simp] theorem Scalar.scalar?_toVal (c : Scalar) : c.toVal.scalar? = some c := by
  cases c <;> rfl

theorem Val.scalar?_eq_some {v : Val} {c : Scalar} : v.scalar? = some c ↔ v = c.toVal := by
  constructor
  · intro h
    cases v <;> simp only [Val.scalar?, Option.some.injEq, reduceCtorEq] at h <;> subst h <;> rfl
  · rintro rfl
    exact c.scalar?_toVal

/-- Errors: the sentinels that callers test for, plain messages, and wrapped errors. A
constraint violation names the label, the property and the value it prints.
-/
inductive Err where
  | notFound
  | nodeNotFound
  | edgeNotFound
  | nodeHasEdges
  | constraintViolation (label key : Str) (value : Scalar)
  | shortBuffer
  | formatVersion
  /-- A loop still runs when the rounds that the model grants it are used up. -/
  | endless
  | text (message : Str)
  | wrap (message : Str) (cause : Err)
deriving DecidableEq, Inhabited

def Err.plain (message : String) : Err := .text (lit message)

/-- `fmt.Errorf("<message>: %w", cause)`. -/
def Err.because (message : String) (cause : Err) : Err := .wrap (lit message) cause

theorem bind_eq_ok {α β : Type} {x : Except Err α} {f : α → Except Err β} {b : β}
    : (x >>= f) = .ok b ↔ ∃ a, x = .ok a ∧ f a = .ok b := by
  cases x with
  | error e => simp [bind, Except.bind]
  | ok a => simp [bind, Except.bind]

/-- Go's `%02x` of a byte. -/
def hexByte (c : UInt8) : String :=
  String.ofList [Nat.digitChar (c.toNat / 16), Nat.digitChar (c.toNat % 16)]

end Intreccio
