import StreamMerge.Text.Blank

/-!
# The command line

    [options] (fair | round-robin | zip | preferred) [options] input...

Options may stand before and after the command: `--batch`, `--log` and `--profile` with a value, which follows
as the next argument or behind an equals sign, and `--trace` without one. None may be given twice in the same
place; behind the command it overrides what stands before it. After `--` everything is an input. An argument
that begins with a hyphen and is none of these is an error, and so is a command without an input.
-/
namespace StreamMerge

/-- What options can say. -/
structure Options where
  batch : Option Nat
  trace : Bool
  log : Option String
  profile : Option String
  deriving DecidableEq, Repr

/-- A command. -/
inductive Command where
  | fair
  | roundRobin
  | zip
  | preferred
  deriving DecidableEq, Repr

/-- A complete command line. -/
structure Invocation where
  options : Options
  command : Command
  inputs : List String
  deriving DecidableEq, Repr

/-- What a command line asks for. -/
inductive Instructions where
  | run (i : Invocation)
  /-- Help, or the version. -/
  | information
  deriving DecidableEq, Repr

namespace Options

/-- No option is given. -/
def none : Options := ⟨.none, false, .none, .none⟩

/-- The options `inner`, and where they say nothing `outer`. -/
def overriding (inner outer : Options) : Options where
  batch := inner.batch <|> outer.batch
  trace := inner.trace || outer.trace
  log := inner.log <|> outer.log
  profile := inner.profile <|> outer.profile

/-- A decimal number of at most 64 bits, possibly with a plus sign. -/
def number? (s : String) : Option Nat :=
  let digits := match s.toList with
    | '+' :: cs => cs
    | cs => cs
  if digits.isEmpty || !digits.all Char.isDigit then .none
  else
    let n := digits.foldl (fun n c => 10 * n + (c.toNat - '0'.toNat)) 0
    if n < UInt64.size then some n else .none

/-- Adds an option with a value, unless it is unknown, its value is wrong, or it is there already. -/
def set? (o : Options) (name value : String) : Option Options :=
  match name with
  | "batch" =>
    match o.batch, number? value with
    | .none, some n => some { o with batch := some n }
    | _, _ => .none
  | "log" => if o.log.isSome then .none else some { o with log := some value }
  | "profile" => if o.profile.isSome then .none else some { o with profile := some value }
  | _ => .none

end Options

namespace CommandLine

/-- An argument by its outer form. -/
inductive Form where
  /-- Two hyphens alone. -/
  | divider
  /-- Two hyphens and a name, possibly with an equals sign and a value. -/
  | long (name : String) (value : Option String)
  /-- One hyphen and letters. -/
  | short (first : Char)
  /-- Anything else. -/
  | word
  deriving DecidableEq, Repr

/-- The outer form of an argument. -/
def form (arg : String) : Form :=
  match arg.toList with
  | ['-', '-'] => .divider
  | '-' :: '-' :: cs =>
    let name := String.ofList (cs.takeWhile (· ≠ '='))
    match cs.dropWhile (· ≠ '=') with
    | [] => .long name none
    | _ :: value => .long name (some (String.ofList value))
  | '-' :: c :: _ => .short c
  | _ => .word

/-- What was read at one level of a command line: before the command, or after it. -/
inductive Reading where
  /-- It is not a proper command line. -/
  | wrong
  /-- It asks for help, or for the version. -/
  | information
  /-- Its end was reached. -/
  | ended (o : Options) (inputs : List String)
  /-- A word before any command, and what follows it. -/
  | command (name : String) (o : Options) (rest : List String)
  deriving DecidableEq, Repr

/-- Reads arguments: behind the command (`inside`) words are inputs, before it the first word is the command. -/
def read (inside : Bool) (o : Options) (inputs : List String) : List String → Reading
  | [] => .ended o inputs
  | arg :: rest =>
    match form arg with
    | .divider =>
      if inside then .ended o (inputs ++ rest) else if rest.isEmpty then .ended o inputs else .wrong
    | .word => if inside then read inside o (inputs ++ [arg]) rest else .command arg o rest
    | .short c => if c = 'h' || (c = 'V' && !inside) then .information else .wrong
    | .long "trace" none => if o.trace then .wrong else read inside { o with trace := true } inputs rest
    | .long "help" none => .information
    | .long "version" none => if inside then .wrong else .information
    | .long name (some value) =>
      match o.set? name value with
      | some o => read inside o inputs rest
      | none => .wrong
    | .long name none =>
      match rest with
      | [] => .wrong
      | value :: rest =>
        match form value, o.set? name value with
        | .word, some o => read inside o inputs rest
        | _, _ => .wrong

/-- The command of a name. -/
def command? : String → Option Command
  | "fair" => some .fair
  | "round-robin" => some .roundRobin
  | "zip" => some .zip
  | "preferred" => some .preferred
  | _ => none

/-- How to call the program. One text serves for help, for the version and for a wrong command line, and no other
result depends on it. -/
def usage : List String := [
  "Run Echo merge strategies over literal inputs",
  "",
  "Usage: echo-merge [OPTIONS] <COMMAND>",
  "",
  "Commands:",
  "  fair         Interleave any number of inputs without starving any of them",
  "  round-robin  Alternate strictly between two inputs, then drain the longer one",
  "  zip          Pair the elements of two inputs until either ends",
  "  preferred    Serve the first input whenever it has elements, the rest fairly",
  "  help         Print this message or the help of the given subcommand(s)",
  "",
  "Options:",
  "      --batch <BATCH>      Elements requested per demand signal (defaults to the saved preference)",
  "      --trace              Log every merge transition at debug level",
  "      --log <LOG>          Log filter used when RUST_LOG is unset (defaults to the saved preference)",
  "      --profile <PROFILE>  Saved merge profile to run with (defaults to the saved preference)",
  "  -h, --help               Print help",
  "  -V, --version            Print version"]

/-- What a command line asks for, if it is a proper one. -/
def parse (args : List String) : Option Instructions :=
  match read false .none [] args with
  | .wrong => none
  | .information => some .information
  | .ended _ _ => none
  | .command "help" _ rest =>
    match rest with
    | [] => some .information
    | [name] => if name = "help" || (command? name).isSome then some .information else none
    | _ => none
  | .command name outer rest =>
    match command? name, read true .none [] rest with
    | none, _ => none
    | _, .information => some .information
    | some command, .ended inner inputs =>
      if inputs.isEmpty then none else some (.run ⟨inner.overriding outer, command, inputs⟩)
    | _, _ => none

end CommandLine
end StreamMerge
