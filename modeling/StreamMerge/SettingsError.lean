import StreamMerge.Json.Lexeme
import StreamMerge.Text.Quoted

/-!
# What can go wrong with stored settings
-/
namespace StreamMerge

/-- Why settings could not be read or written. -/
inductive SettingsError where
  /-- A profile must not have this name. -/
  | invalidProfile (name : String)
  /-- Reading or writing failed, with these words. -/
  | io (problem : String)
  /-- What is stored under this name is not a settings document. -/
  | malformed (profile : String) (fault : Json.Fault)
  /-- There is no place to store settings. -/
  | unavailable (reason : String)
  deriving DecidableEq, Repr

/-- The wording of an error; that of a malformed document leaves the place in the document open. -/
def SettingsError.message : SettingsError → String
  | .invalidProfile name => s!"invalid profile name {Text.quoted name}"
  | .io problem => s!"config io failed: {problem}"
  | .malformed profile _ => s!"profile {profile} is malformed: "
  | .unavailable reason => s!"config store unavailable: {reason}"

end StreamMerge
