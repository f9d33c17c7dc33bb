import ScoredChaining.CommandLine.Perform

/-!
The program: reads the files that its arguments name, and prints what `perform` says.
-/

namespace ScoredChaining.CommandLine

/-- The paths of the files that are read. -/
def Request.paths : Request → List String
  | .help _ => []
  | .version => []
  | .perform config command =>
    config.toList ++
      match command with
      | .run options => [options.facts, options.rules]
      | .rules facts rules => [facts, rules]
      | .config => []

/-- What a failure to read a file is called. -/
def systemError (e : IO.Error) : SystemError :=
  match e with
  | .noFileOrDirectory _ _ _ => .missing
  | .permissionDenied _ number _ => ⟨"Permission denied", some number.toNat⟩
  | .inappropriateType _ number _ =>
    if some number.toNat = SystemError.notDirectory.number then .notDirectory else .isDirectory
  | other => ⟨toString other, none⟩

/-- Reads a file. -/
def readFile (path : String) : IO (Except SystemError String) := do
  try
    return .ok (← IO.FS.readFile path)
  catch e => return .error (systemError e)

/-- Reads the files with these paths. -/
def readFiles (paths : List String) : IO FileReader := do
  let contents ← paths.mapM fun path => return (path, ← readFile path)
  return fun path => (contents.lookup path).getD (.error .missing)

/-- What is told about an ending other than success. -/
def Ending.explain : Ending → Option Diagnostic
  | .done => none
  | .misused _ => some ⟨"usage", "the arguments are not understood",
      "Ask for help with `--help`."⟩
  | .failed error => some error.diagnostic
  | .unprintable => some ⟨"settings", Settings.noText, "Choose a smaller number."⟩
  | .outOfFuel => some ⟨"run", "the run does not end", "Set a limit with `--max-pops`."⟩

/-- More candidates than any run takes. -/
def mainFuel : Nat := Nat.pow 2 62

end ScoredChaining.CommandLine

section

open ScoredChaining ScoredChaining.CommandLine

/-- Does what the arguments ask for. -/
def main (arguments : List String) : IO UInt32 := do
  let paths :=
    match Request.read arguments with
    | .ok request => request.paths
    | .error _ => []
  let result := CommandLine.perform (← readFiles paths) mainFuel arguments
  IO.print result.output
  match result.ending.explain with
  | none => pure ()
  | some d => IO.eprintln ("Error: " ++ d.code ++ "\n\n  " ++ d.message ++ "\n  help: " ++ d.help)
  return UInt32.ofNat result.ending.code

end
