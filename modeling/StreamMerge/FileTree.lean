import StreamMerge.Text.Utf8

/-!
# File trees

Files and directories below one directory, and what can go wrong when they are read, written or created. A path
is followed from the top: what it goes through has to be there and to be a directory.
-/
namespace StreamMerge

/-- A path as the names it consists of. -/
abbrev Path := List String

/-- What is at a path. -/
inductive FileEntry where
  | file (contents : Bytes)
  | directory
  deriving DecidableEq, Repr

/-- What can go wrong with files. -/
inductive FileProblem where
  /-- A directory was found where a file is needed. -/
  | isDirectory
  /-- Something that a path goes through is not a directory. -/
  | notDirectory
  /-- There is a file where a directory was to be created. -/
  | alreadyExists
  /-- There is nothing. -/
  | missing
  /-- A name has more than 255 bytes. -/
  | nameTooLong
  deriving DecidableEq, Repr

/-- The wording of a problem, with its customary number. -/
def FileProblem.message : FileProblem → String
  | .isDirectory => "Is a directory (os error 21)"
  | .notDirectory => "Not a directory (os error 20)"
  | .alreadyExists => "File exists (os error 17)"
  | .missing => "No such file or directory (os error 2)"
  | .nameTooLong => "File name too long (os error 36)"

/-- Everything below one directory, each entry under its path. -/
structure FileTree where
  entries : List (Path × FileEntry)
  deriving DecidableEq, Repr

namespace FileTree

/-- An empty directory. -/
def empty : FileTree := ⟨[]⟩

/-- What is at a path; at the empty path there is the directory itself. -/
def entry? (t : FileTree) : Path → Option FileEntry
  | [] => some .directory
  | p => t.entries.lookup p

/-- Follows the names `rest` from the path `above`: what is there in the end, if anything is, or why that place
cannot be reached. -/
def follow (t : FileTree) (above : Path) : (rest : List String) → Except FileProblem (Option FileEntry)
  | [] => .ok (t.entry? above)
  | name :: rest =>
    match t.entry? above with
    | none => .error .missing
    | some (.file _) => .error .notDirectory
    | some .directory =>
      if 255 < name.utf8ByteSize then .error .nameTooLong else t.follow (above ++ [name]) rest

/-- Puts an entry at a path in place of what was there. -/
def put (t : FileTree) (p : Path) (e : FileEntry) : FileTree :=
  ⟨(p, e) :: t.entries.filter (·.1 ≠ p)⟩

/-- Removes whatever is at a path or below it. -/
def remove (t : FileTree) (p : Path) : FileTree := ⟨t.entries.filter fun e => !p.isPrefixOf e.1⟩

/-- The contents of the file at a path. -/
def read (t : FileTree) (p : Path) : Except FileProblem Bytes :=
  match t.follow [] p with
  | .error e => .error e
  | .ok none => .error .missing
  | .ok (some .directory) => .error .isDirectory
  | .ok (some (.file contents)) => .ok contents

/-- Writes a file at a path, in place of the file that was there. -/
def write (t : FileTree) (p : Path) (contents : Bytes) : Except FileProblem FileTree :=
  match t.follow [] p with
  | .error e => .error e
  | .ok (some .directory) => .error .isDirectory
  | .ok _ => .ok (t.put p (.file contents))

/-- Creates the directories `rest` one inside the other, from the directory `above` on, as far as they are not
there yet. -/
def makeDirectories (t : FileTree) (above : Path) : (rest : List String) → Except FileProblem FileTree
  | [] => .ok t
  | name :: rest =>
    let here := above ++ [name]
    match t.follow [] here with
    | .error e => .error e
    | .ok none => (t.put here .directory).makeDirectories here rest
    | .ok (some .directory) => t.makeDirectories here rest
    | .ok (some (.file _)) => .error (if rest.isEmpty then .alreadyExists else .notDirectory)

end FileTree
end StreamMerge
