import StackCalculus.Samples

/-!
# Command line

Prints the sample programs with their outcomes.
-/

/-- Prints the transcript of the samples. -/
def main : IO Unit := IO.print StackCalculus.sampleTranscript
