import StackCalculus.Inspect

/-!
# Values

Concrete values for stacks, 64-bit integers and texts, and the rules that function terms over them
can use. Every rule is total; arithmetic wraps, and a text counts as 0 in it.
-/

namespace StackCalculus

/-- An integer of 64 bits, or a text. -/
inductive Value where
  | int (n : Int64)
  | text (s : String)
deriving DecidableEq

namespace Value

/-- The number that arithmetic takes a value for. -/
def toInt64 : Value → Int64
  | int n => n
  | text _ => 0

instance : ToString Value where
  toString
    | int n => toString n.toInt
    | text s => s

instance : Inspect Value where
  inspect
    | int n => "Int(" ++ toString n.toInt ++ ")"
    | text s => "Str(" ++ inspect s ++ ")"

end Value

/-- The named rules of function terms. -/
inductive Rule where
  | sum
  | mul
  | neg
  | concat
  | first
  | last
  | count
  | eq
deriving DecidableEq

namespace Rule

/-- The name of a rule. -/
def name : Rule → String
  | sum => "sum"
  | mul => "mul"
  | neg => "neg"
  | concat => "concat"
  | first => "first"
  | last => "last"
  | count => "count"
  | eq => "eq"

/-- All rules. -/
def all : List Rule := [sum, mul, neg, concat, first, last, count, eq]

/-- The rule of a name. -/
def ofName? (name : String) : Option Rule := all.find? fun rule => rule.name == name

/-- What a rule makes of the values of the arguments. -/
def apply : Rule → List Value → Value
  | sum, args => .int (args.foldl (fun acc v => acc + v.toInt64) 0)
  | mul, args => .int (args.foldl (fun acc v => acc * v.toInt64) 1)
  | neg, args => .int (-(args.head?.map Value.toInt64).getD 0)
  | concat, args => .text (String.join (args.map toString))
  | first, args => args.head?.getD (.text "")
  | last, args => args.getLast?.getD (.text "")
  | count, args => .int (Int64.ofNat args.length)
  | eq, args => .int (if args.all fun v => some v == args.head? then 1 else 0)

end Rule

end StackCalculus
