import StackCalculus.Machine.Exec

/-!
# Sample programs

A few programs over the locations `a` and `b`, and the transcript that shows each of them with its
input and its outcome.
-/

namespace StackCalculus

/-- A program with a title and the values that the stack `a` holds at first, bottom to top. -/
structure Sample where
  title : String
  program : Program String
  stack : List String

namespace Sample

/-- Pops `a` into the variables in turn, then pushes variables to `a` in turn. -/
def rearrange (popped pushed : List String) : Program String :=
  .sequence (popped.map (.popVar · "a") ++ pushed.map (.pushVar · "a"))

/-- Moves any number of cells from `a` to `b`, then marks `b`. -/
def moveSome : Program String :=
  .seq (.iterate (.scope ⟨"x", false⟩ (.seq (.popVar "x" "a") (.pushVar "x" "b"))))
    (.push (.constant "done") "b")

/-- Pops one particular value, or pops anything and fails. -/
def either : Program String :=
  .branch (.pop (.constant "c") "a") (.seq (.popVar "x" "a") .fail)

/-- The samples in the order in which they are shown. -/
def all : List Sample := [
  ⟨"permutation", rearrange ["x", "y", "z"] ["x", "z", "y"], ["e", "d", "c"]⟩,
  ⟨"consistent match", rearrange ["x", "x"] ["x"], ["c", "c"]⟩,
  ⟨"inconsistent match", rearrange ["x", "x"] ["x"], ["d", "c"]⟩,
  ⟨"iterated move", moveSome, ["e", "d", "c"]⟩,
  ⟨"branch", either, ["d", "c"]⟩]

/-- The initial state of a sample. -/
def initial (sample : Sample) : Except Fault (State String) :=
  (State.ofAlphabet ["a", "b"]).withValues "a" sample.stack

/-- The line that shows how a run ended. -/
def outcomeLine : Except Fault (Configuration String) → String
  | .error fault => "Error: " ++ fault.message ++ "\n"
  | .ok outcome =>
    if outcome.isEmpty then "output:  no successful outcome\n" else s!"output:  {outcome}\n"

/-- A sample with its program, input and outcome. -/
def transcript (machine : Machine) (sample : Sample) : String :=
  s!"=== {sample.title} ===\n" ++
    match sample.initial with
    | .error fault => outcomeLine (.error fault)
    | .ok state =>
      s!"program: {sample.program}\ninput:   {state}\n" ++ outcomeLine (machine.run sample.program state)

end Sample

/-- The lines above the samples. -/
def banner : String :=
  "Push/Pop Calculus v0.1.0\nSet RUST_LOG=push_pop_calculus=trace to follow every step\n\n"

/-- All samples, run by the default machine, with a blank line behind each. -/
def sampleTranscript : String :=
  banner ++ String.join (Sample.all.map fun sample => sample.transcript {} ++ "\n")

end StackCalculus
