/-!
What a failure tells the user. Every area of the library has an inductive type of its failures,
one constructor per cause; the wording of each cause is one function to `Diagnostic`.
-/

namespace ScoredChaining

/-- A stable code, a sentence, and advice. -/
structure Diagnostic where
  code : String
  message : String
  help : String
  deriving Repr, DecidableEq

/-- Failures that can be shown to the user. -/
class Explained (ε : Type) where
  diagnostic : ε → Diagnostic

/-- A diagnostic whose code names the area and the kind of failure. -/
def Diagnostic.of (area kind message help : String) : Diagnostic :=
  ⟨"uberts::" ++ area ++ "::" ++ kind, message, help⟩

/-- A failure to reach a file. -/
structure SystemError where
  /-- The system's own wording. -/
  text : String
  /-- The system's number for the failure, if the system was asked at all. -/
  number : Option Nat
  deriving Repr, DecidableEq

namespace SystemError

def missing : SystemError := ⟨"No such file or directory", some 2⟩

def alreadyThere : SystemError := ⟨"File exists", some 17⟩

def notDirectory : SystemError := ⟨"Not a directory", some 20⟩

def isDirectory : SystemError := ⟨"Is a directory", some 21⟩

def nameTooLong : SystemError := ⟨"File name too long", some 36⟩

/-- A path with a null character is not passed on to the system. -/
def nullCharacter : SystemError := ⟨"file name contained an unexpected NUL byte", none⟩

/-- The wording, with the number if there is one. -/
def message (e : SystemError) : String :=
  match e.number with
  | some number => e.text ++ " (os error " ++ toString number ++ ")"
  | none => e.text

end SystemError

end ScoredChaining
