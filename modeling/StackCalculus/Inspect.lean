import StackCalculus.Program.Basic
import StackCalculus.Stack

/-!
# Structure dumps

The constructor-by-constructor text of terms, programs and stacks on one line, for looking at how a
value is built rather than what it means.
-/

namespace StackCalculus

/-- Values whose structure can be shown. -/
class Inspect (α : Type) where
  inspect : α → String

export Inspect (inspect)

/-- A character inside quotes. Control characters without a letter of their own are written by their
number in base 16. -/
def escaped : Char → String
  | '"' => "\\\""
  | '\\' => "\\\\"
  | '\n' => "\\n"
  | '\r' => "\\r"
  | '\t' => "\\t"
  | '\x00' => "\\0"
  | c =>
    if c.toNat < 32 || c.toNat == 127 then
      "\\u\x7b" ++ String.ofList (Nat.toDigits 16 c.toNat) ++ "\x7d"
    else c.toString

instance : Inspect String := ⟨fun s => "\"" ++ String.join (s.toList.map escaped) ++ "\""⟩

instance : Inspect Bool := ⟨fun b => if b then "true" else "false"⟩

instance {α : Type} [Inspect α] : Inspect (List α) :=
  ⟨fun items => "[" ++ String.intercalate ", " (items.map inspect) ++ "]"⟩

instance : Inspect Var :=
  ⟨fun x => "Var \x7b name: " ++ inspect x.name ++ ", local: " ++ inspect x.isLocal ++ " \x7d"⟩

instance {V : Type} [Inspect V] : Inspect (Cell V) where
  inspect
    | .value v => "Value(" ++ inspect v ++ ")"
    | .ref x => "Ref(" ++ inspect x ++ ")"

instance {V : Type} [Inspect V] : Inspect (Stack V) := ⟨fun stack => inspect stack.toList⟩

variable {V : Type}

mutual

/-- The structure of a term, without the rules of its nodes. -/
def Term.outline : Term V → String
  | .var x => "Var(" ++ inspect x.name ++ ")"
  | .func label arity args _ =>
    "FuncTerm \x7b label: " ++ inspect label ++ ", arity: " ++ toString arity ++ ", arguments: [" ++
      String.intercalate ", " (Term.outlines args) ++ "] \x7d"

/-- The structures of the terms of a list. -/
def Term.outlines : List (Term V) → List String
  | [] => []
  | t :: ts => t.outline :: Term.outlines ts

end

instance : Inspect (Term V) := ⟨Term.outline⟩

/-- The structure of a program. -/
def Program.outline (p : Program V) : String :=
  p.kind.name ++
    match p with
    | .skip | .fail => ""
    | .seq p q | .branch p q => "(" ++ p.outline ++ ", " ++ q.outline ++ ")"
    | .iterate p => "(" ++ p.outline ++ ")"
    | .push t location | .pop t location => "(" ++ inspect t ++ ", " ++ inspect location ++ ")"
    | .scope x p => "(" ++ inspect x ++ ", " ++ p.outline ++ ")"

instance : Inspect (Program V) := ⟨Program.outline⟩

end StackCalculus
