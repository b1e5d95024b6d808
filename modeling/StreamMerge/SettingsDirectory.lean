import StreamMerge.FileTree
import StreamMerge.Preferences
import StreamMerge.Profiles

/-!
# The settings directory

Where the program keeps its preferences, in one file, and its profiles, each in a file of its own in a
directory of profiles.
-/
namespace StreamMerge.SettingsDirectory

/-- The directory of the profiles. -/
def profilesPath : Path := ["profiles"]

/-- The file of a profile. -/
def profilePath (profile : String) : Path := ["profiles", profile ++ ".json"]

/-- The file of the preferences. -/
def preferencesPath : Path := ["prefs.json"]

/-- A problem with a file as an error with settings. -/
def ofProblem (problem : FileProblem) : SettingsError := .io problem.message

/-- Prepares a directory for settings. -/
def prepare (t : FileTree) : Except SettingsError Unit × FileTree :=
  match t.makeDirectories [] profilesPath with
  | .ok t => (.ok (), t)
  | .error e => (.error (ofProblem e), t)

/-- The contents of a file, or nothing when there is none. -/
def readIfPresent (t : FileTree) (p : Path) : Except SettingsError (Option Bytes) :=
  match t.read p with
  | .ok contents => .ok (some contents)
  | .error .missing => .ok none
  | .error e => .error (ofProblem e)

/-- Writes a file. -/
def writeFile (t : FileTree) (p : Path) (contents : Bytes) : Except SettingsError Unit × FileTree :=
  match t.write p contents with
  | .ok t => (.ok (), t)
  | .error e => (.error (ofProblem e), t)

/-- The preferences that were saved, if any were. -/
def loadPreferences (t : FileTree) : Except SettingsError (Option Preferences) :=
  match readIfPresent t preferencesPath with
  | .error e => .error e
  | .ok none => .ok none
  | .ok (some document) =>
    match Preferences.decode document with
    | .ok p => .ok (some p)
    | .error fault => .error (.malformed "prefs" fault)

/-- Saves preferences. -/
def savePreferences (p : Preferences) (t : FileTree) : Except SettingsError Unit × FileTree :=
  writeFile t preferencesPath p.encode

/-- The profiles of a settings directory. -/
def profiles : Backend FileTree where
  read profile t := (readIfPresent t (profilePath profile), t)
  write profile document t := writeFile t (profilePath profile) document

end StreamMerge.SettingsDirectory
