import ScoredChaining.Agenda.Priority
import ScoredChaining.Diagnostic

/-!
Failures of settings.
-/

namespace ScoredChaining

/-- Failures of reading, writing and using settings. -/
inductive SettingsError where
  | unreadable (path : String) (cause : SystemError)
  | unwritable (path : String) (cause : SystemError)
  /-- The text is not that of settings, or the settings have no text. -/
  | malformed (path problem : String)
  | priority (error : PriorityError)
  deriving DecidableEq

/-- The wording of a settings failure. -/
def SettingsError.diagnostic : SettingsError → Diagnostic
  | .unreadable path cause =>
    .of "config" "read" ("failed to read config " ++ path ++ ": " ++ cause.message)
      "Check that the config file exists and is readable."
  | .unwritable path cause =>
    .of "config" "write" ("failed to write config " ++ path ++ ": " ++ cause.message)
      "Check that the target directory is writable."
  | .malformed path problem =>
    .of "config" "parse" ("invalid config " ++ path ++ ": " ++ problem)
      "The config file must be valid TOML matching UbertsConfig's fields."
  | .priority error => error.diagnostic

instance : Explained SettingsError := ⟨SettingsError.diagnostic⟩

end ScoredChaining
