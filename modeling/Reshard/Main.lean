import Reshard.Simulation

/-!
The command line program: it reads its arguments, tells the first check that fails, and ends
with the status that belongs to it.
-/

open Reshard

/-- The variables of the environment that stand in for options. -/
def environmentOf (names : List String) : IO (String → Option String) := do
  let found ← names.filterMapM fun name => do return (← IO.getEnv name).map (name, ·)
  return fun name => found.lookup name

def main (args : List String) : IO UInt32 := do
  let env ← environmentOf (Settings.options.filterMap (·.envName))
  let outcome := RunOutcome.ofArguments env args
  if outcome matches .help then
    IO.println "Usage: run [OPTIONS]"
    for option in RunSettings.options do
      IO.println ("  --" ++ option.name)
  if let some message := outcome.message? then
    IO.eprintln ("Error: " ++ message)
  return (outcome.status?.getD 134).toUInt32
