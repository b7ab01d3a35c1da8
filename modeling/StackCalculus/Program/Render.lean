import StackCalculus.Program.Basic

/-!
# Texts of programs

`Program.render` writes a program on one line, fully bracketed. `Program.pretty` writes one step of a
sequence to a line and sets the alternatives of a branch and the body of a scope one level in; below
an iteration it falls back to the one-line form.
-/

namespace StackCalculus.Program

variable {V : Type}

/-- The program on one line. -/
def render : Program V → String
  | skip => "★"
  | fail => "𝟎"
  | seq p q => "(" ++ p.render ++ ";" ++ q.render ++ ")"
  | branch p q => "(" ++ p.render ++ " + " ++ q.render ++ ")"
  | iterate p => "(" ++ p.render ++ ")*"
  | push t location => "[" ++ t.render ++ "]" ++ location
  | pop t location => location ++ "<" ++ t.render ++ ">"
  | scope x p => "∃" ++ x.name ++ ".(" ++ p.render ++ ")"

instance : ToString (Program V) := ⟨render⟩

/-- The blanks in front of a line at a level. -/
def margin (level : Nat) : String := String.ofList (List.replicate (2 * level) ' ')

/-- The program with one step to a line, from a line that already has the margin of its level. -/
def prettyAt (level : Nat) : Program V → String
  | seq p q => p.prettyAt level ++ ";\n" ++ margin level ++ q.prettyAt level
  | branch p q =>
    "  " ++ p.prettyAt (level + 1) ++ "\n" ++ margin level ++ "+\n" ++ margin (level + 1) ++
      q.prettyAt (level + 1)
  | scope x p => "∃" ++ x.name ++ ".\n" ++ margin (level + 1) ++ p.prettyAt (level + 1)
  | p => p.render

/-- The program with one step to a line. -/
def pretty (p : Program V) : String := p.prettyAt 0

end StackCalculus.Program
