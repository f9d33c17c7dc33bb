import ScoredChaining.Document.Line
import ScoredChaining.Files.Path
import ScoredChaining.Rule.Reader
import ScoredChaining.Settings.Error
import ScoredChaining.Settings.Text

/-!
Files of facts, rules and settings. How a file is read and written is up to the caller.
-/

namespace ScoredChaining

/-- Reads the file with a path as text. -/
abbrev FileReader := String → Except SystemError String

/-- What writing a file takes. -/
structure FileWriter (m : Type → Type) where
  /-- Creates a directory and those that it lies in, as far as they are missing. -/
  createDirectories : String → m (Except SystemError Unit)
  /-- Writes a text to the file with a path. -/
  write : (path text : String) → m (Except SystemError Unit)

/-- Reads a fact file. -/
def FactLine.ofFile (files : FileReader) (path : String) : Except DocumentError (List FactLine) :=
  match files path with
  | .error cause => .error (.unreadable path cause)
  | .ok text => readMany text

/-- Reads a rule file. -/
def Rule.ofFile (files : FileReader) (path : String) : Except RuleError (List Rule) :=
  match files path with
  | .error cause => .error (.unreadable path cause)
  | .ok text => readMany text

namespace Settings

/-- What is reported of a text that does not hold settings. -/
def notSettings : String := "not a document of settings"

/-- What is reported of settings that have no text. -/
def noText : String := "a number is out of range"

/-- Reads a settings file. -/
def ofFile (files : FileReader) (path : String) : Except SettingsError Settings :=
  match files path with
  | .error cause => .error (.unreadable path cause)
  | .ok text =>
    match ofText? text with
    | none => .error (.malformed path notSettings)
    | some s => .ok s

/-- Writes a settings file, in a directory that is created if it is missing. -/
def toFile {m : Type → Type} [Monad m] (files : FileWriter m) (s : Settings) (path : String) :
    m (Except SettingsError Unit) := do
  match s.text? with
  | none => return .error (.malformed path noText)
  | some text =>
    let directory : String × Except SystemError Unit ←
      match Path.parent? path with
      | none => pure ("", .ok ())
      | some parent => do pure (parent, ← files.createDirectories parent)
    match directory with
    | (parent, .error cause) => return .error (.unwritable parent cause)
    | (_, .ok ()) =>
      match ← files.write path text with
      | .error cause => return .error (.unwritable path cause)
      | .ok () => return .ok ()

end Settings

end ScoredChaining
