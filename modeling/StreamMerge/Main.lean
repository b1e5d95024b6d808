import StreamMerge.LogFilter
import StreamMerge.Program

/-!
# The executable

Runs the program with the arguments, the environment and the settings directory it is called with. Of the
settings directory only the two files that the program looks at are read, and those that it changed are written.
-/
namespace StreamMerge.Program

/-- The settings directory: in the user's configuration directory, if there is one. -/
def locate : IO (Option String) := do
  let configured ← IO.getEnv "XDG_CONFIG_HOME"
  let home ← IO.getEnv "HOME"
  let parent := (configured.filter (·.startsWith "/")) <|>
    (home.filter (!·.isEmpty)).map (· ++ "/.config")
  return parent.map (· ++ "/echo-merge")

/-- A path below the directory `root`. -/
def place (root : String) (p : Path) : String := "/".intercalate (root :: p)

/-- Adds the file at `p` to a tree. One that is there and cannot be read is added as a directory, so that it is
neither read nor written. -/
def readFile (root : String) (p : Path) (t : FileTree) : IO FileTree := do
  try
    return t.put p (.file (← IO.FS.readBinFile (place root p)).toList)
  catch
    | .noFileOrDirectory .. => return t
    | _ => return t.put p .directory

/-- Reads what an invocation needs of the settings directory at `root`, after creating it if it is not there. -/
def readDirectory (root : String) (i : Invocation) : IO (Option FileTree) := do
  try
    IO.FS.createDirAll (place root SettingsDirectory.profilesPath)
  catch _ => return none
  let t := FileTree.empty.put SettingsDirectory.profilesPath .directory
  let t ← readFile root SettingsDirectory.preferencesPath t
  let profile := profileOf i (preferences (some t))
  if Profiles.isName profile then readFile root (SettingsDirectory.profilePath profile) t else return t

/-- Writes the files that `after` has other than `before`, as far as possible. -/
def writeChanges (root : String) (before after : FileTree) : IO Unit := do
  for (p, e) in after.entries do
    match e with
    | .directory => pure ()
    | .file contents =>
      if before.entry? p ≠ some e then
        try IO.FS.writeBinFile (place root p) ⟨contents.toArray⟩
        catch _ => pure ()

/-- Prints what the program has to say. -/
def report : Ending → IO Unit
  | .printed lines => lines.forM IO.println
  | .failed message => IO.eprintln s!"Error: {message}"
  | .usage => CommandLine.usage.forM IO.eprintln

end StreamMerge.Program

/-- Merges the inputs given as arguments and prints the result. -/
def main (args : List String) : IO UInt32 := do
  let root ← StreamMerge.Program.locate
  let before ← match root, StreamMerge.CommandLine.parse args with
    | some root, some (.run i) => StreamMerge.Program.readDirectory root i
    | _, _ => pure none
  let filter ← IO.getEnv "RUST_LOG"
  let (ending, after) := StreamMerge.Program.run ⟨StreamMerge.LogFilter.isValid, filter, before⟩ args
  match root, before, after with
  | some root, some before, some after => StreamMerge.Program.writeChanges root before after
  | _, _, _ => pure ()
  StreamMerge.Program.report ending
  return ending.code.toUInt32
