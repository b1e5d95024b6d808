import StreamMerge.Settings.Document
import StreamMerge.SettingsError

/-!
# Profiles

Settings are kept under names, one document for each, in some backend. A name has only letters, digits, hyphens
and underscores, so that it can serve as a file name anywhere; with any other name the backend is not even
asked. An empty document counts as not saved.
-/
namespace StreamMerge

/-- A place with the contents of `S` that keeps a sequence of bytes under each name. -/
structure Backend (S : Type) where
  /-- What is kept under a name, if anything is. -/
  read : String → S → Except SettingsError (Option Bytes) × S
  /-- Keeps bytes under a name. -/
  write : String → Bytes → S → Except SettingsError Unit × S

namespace Profiles

/-- An ASCII letter or digit, a hyphen or an underscore. -/
def isNameChar (c : Char) : Bool := c.isAlphanum || c = '-' || c = '_'

/-- A profile may have this name. -/
def isName (name : String) : Bool := !name.isEmpty && name.toList.all isNameChar

variable {S : Type}

/-- The settings saved under a name, if any are. -/
def load (b : Backend S) (profile : String) (s : S) : Except SettingsError (Option Settings) × S :=
  if !isName profile then (.error (.invalidProfile profile), s)
  else
    match b.read profile s with
    | (.error e, s) => (.error e, s)
    | (.ok none, s) | (.ok (some []), s) => (.ok none, s)
    | (.ok (some document), s) =>
      match Settings.decode document with
      | .ok settings => (.ok (some settings), s)
      | .error fault => (.error (.malformed profile fault), s)

/-- Saves settings under a name. -/
def save (b : Backend S) (profile : String) (settings : Settings) (s : S) : Except SettingsError Unit × S :=
  if !isName profile then (.error (.invalidProfile profile), s)
  else b.write profile settings.encode s

/-- The settings saved under a name; if none are, the standard ones, which are then saved. -/
def loadOrCreate (b : Backend S) (profile : String) (s : S) : Except SettingsError Settings × S :=
  match load b profile s with
  | (.error e, s) => (.error e, s)
  | (.ok (some settings), s) => (.ok settings, s)
  | (.ok none, s) =>
    match save b profile .standard s with
    | (.ok _, s) => (.ok .standard, s)
    | (.error e, s) => (.error e, s)

end Profiles
end StreamMerge
