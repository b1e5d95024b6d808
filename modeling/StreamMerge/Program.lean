import StreamMerge.CommandLine
import StreamMerge.Session
import StreamMerge.SettingsDirectory
import StreamMerge.Strategy.Alternate
import StreamMerge.Strategy.Interleave
import StreamMerge.Strategy.Pairing

/-!
# The program

Merges inputs that are written on the command line and prints the result, an element a line. Each input is a
list divided by commas. The program keeps its preferences and profiles in a settings directory; where it cannot,
it goes by the standard ones.
-/
namespace StreamMerge.Program

/-- What the program finds around it. -/
structure Surroundings where
  /-- Which texts are log filters. -/
  isFilter : String → Bool
  /-- The log filter of the environment, if there is one. -/
  filter : Option String
  /-- The settings directory, unless there can be none. -/
  directory : Option FileTree

/-- How the program ends. -/
inductive Ending where
  /-- Well, after printing these lines. -/
  | printed (lines : List String)
  /-- With an error, whose message is given. -/
  | failed (message : String)
  /-- Because the command line is not a proper one. -/
  | usage
  deriving DecidableEq, Repr

/-- The exit code of an ending. -/
def Ending.code : Ending → Nat
  | .printed _ => 0
  | .failed _ => 1
  | .usage => 2

/-! ## Merging -/

/-- The elements of an input: its parts between commas, trimmed, without the empty ones. -/
def elements (input : String) : List String :=
  ((Text.splitCommas input.toList).map fun part => String.ofList (Text.trim part)).filter (!·.isEmpty)

section

variable {α β : Type}

/-- Merges `sources` under `L` and collects everything in batches. Lists are sources that always have an answer,
so that the collector has its result when nothing is left to do. -/
def merged (L : Strategy α β) (u : Source α) (answers? : u.State → Option Nat) (settings : Settings)
    (batch : Nat) (sources : List u.State) : Except MergeError (List β) :=
  match Merge.setUp L u settings sources with
  | .error (e, _) => .error e
  | .ok m =>
    let s := Session.start m
    let fuel := fun s => Session.fuel answers? s
    match (s.collect fuel (fuel s) batch).1 with
    | .ended r => r
    | _ => .ok []

/-- Merges lists of elements. -/
def mergedLists (L : Strategy α β) (settings : Settings) (batch : Nat) (inputs : List (List α)) :
    Except MergeError (List β) :=
  merged L (scripted α) Script.remaining? settings batch (inputs.map Script.ofList)

end

/-- A pair as it is printed. -/
def showPair (p : String × String) : String := s!"({p.1}, {p.2})"

/-- Merges the inputs of a command, and gives the lines to print. -/
def carryOut (command : Command) (settings : Settings) (batch : Nat) (inputs : List String) :
    Except MergeError (List String) :=
  let lists := inputs.map elements
  match command with
  | .fair => mergedLists (Strategy.fair String) settings batch lists
  | .roundRobin => mergedLists (Strategy.alternate String) settings batch lists
  | .preferred => mergedLists (Strategy.preferred String) settings batch lists
  | .zip =>
    let sides : List (List (Side String String)) := match lists with
      | [] => []
      | first :: others => first.map .left :: others.map (·.map .right)
    (mergedLists (Strategy.zip String String) settings batch sides).map (·.map showPair)

/-! ## Settings -/

/-- The settings directory as the program uses it, if it can. -/
def openDirectory (around : Surroundings) : Option FileTree :=
  around.directory.bind fun t =>
    match SettingsDirectory.prepare t with
    | (.ok _, t) => some t
    | (.error _, _) => none

/-- The preferences: those saved, or the standard ones where there are none or they cannot be read. -/
def preferences (t : Option FileTree) : Preferences :=
  match t.map SettingsDirectory.loadPreferences with
  | some (.ok (some p)) => p
  | _ => .standard

/-- The log filter in force is a proper one. The environment's counts first, but only if it is proper. -/
def filterAccepted (around : Surroundings) (filter : String) : Bool :=
  around.filter.any around.isFilter || around.isFilter filter

/-- The settings of a profile, which is created if it is not there; one that cannot be used gives the standard
settings, but a wrong name is an error. -/
def settingsOf (profile : String) (t : FileTree) : Except SettingsError Settings × FileTree :=
  match Profiles.loadOrCreate SettingsDirectory.profiles profile t with
  | (.error (.invalidProfile name), t) => (.error (.invalidProfile name), t)
  | (.error _, t) => (.ok .standard, t)
  | (.ok settings, t) => (.ok settings, t)

/-! ## The whole program -/

/-- The profile whose settings an invocation uses. -/
def profileOf (i : Invocation) (p : Preferences) : String := i.options.profile.getD p.profile

/-- What the program works with once the command line is read: preferences, and settings or why there are
none, with the settings directory as it is left. -/
def arrange (around : Surroundings) (i : Invocation) :
    Preferences × Except String Settings × Option FileTree :=
  let t := openDirectory around
  let p := preferences t
  let t := t.map fun t => (SettingsDirectory.savePreferences p t).2
  if !filterAccepted around (i.options.log.getD p.logFilter) then (p, .error "invalid log filter", t)
  else
    match t with
    | none => (p, .ok .standard, none)
    | some t =>
      match settingsOf (profileOf i p) t with
      | (.error e, t) => (p, .error e.message, some t)
      | (.ok settings, t) => (p, .ok settings, some t)

/-- Runs an invocation; the settings directory afterwards is that of `arrange`, or the one found where it cannot
be used. -/
def perform (around : Surroundings) (i : Invocation) : Ending × Option FileTree :=
  match arrange around i with
  | (p, settings, t) =>
    let left := t <|> around.directory
    match settings with
    | .error message => (.failed message, left)
    | .ok settings =>
      let settings := { settings with tracing := i.options.trace || settings.tracing }
      match carryOut i.command settings (i.options.batch.getD p.batch) i.inputs with
      | .ok lines => (.printed lines, left)
      | .error e => (.failed e.message, left)

/-- Runs the program with the arguments `args`. -/
def run (around : Surroundings) (args : List String) : Ending × Option FileTree :=
  match CommandLine.parse args with
  | none => (.usage, around.directory)
  | some .information => (.printed CommandLine.usage, around.directory)
  | some (.run i) => perform around i

end StreamMerge.Program
