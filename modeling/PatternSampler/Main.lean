/-
# The program

Hands the arguments, the environment and a random seed to `CommandLine.run` and prints what it says.
-/
import PatternSampler.CommandLine

namespace PatternSampler.CommandLine

/-- The variables that stand in for options, as far as they are set. -/
def readEnvironment : IO (List (String × String)) := do
  let names := Field.all.map Field.variableName
  let values ← names.mapM fun name => return (← IO.getEnv name).map (name, ·)
  return values.filterMap fun value => value

/-- A number that is different each time. -/
def readEntropy : IO UInt64 :=
  return (← IO.getRandomBytes 8).foldl (fun n byte => n * 256 + byte.toUInt64) 0

end PatternSampler.CommandLine

open PatternSampler CommandLine

/-- Runs the program. -/
def main (arguments : List String) : IO UInt32 := do
  let environment ← readEnvironment
  let outcome := run arguments (environment.lookup ·) (← readEntropy)
  (← IO.getStdout).putStr outcome.output
  (← IO.getStderr).putStr outcome.diagnostics
  return outcome.code.toUInt32
