import StreamMerge.Profiles

/-!
# Profiles in memory

A backend that keeps its documents in memory and a list of the calls made to it. It can be told to fail.
-/
namespace StreamMerge

/-- A call of a backend. -/
inductive BackendCall where
  | read (name : String)
  | write (name : String) (document : Bytes)
  deriving DecidableEq, Repr

/-- Documents in memory. -/
structure MemoryStore where
  documents : List (String × Bytes)
  /-- How the next call to read will fail. -/
  readFailure : Option SettingsError
  /-- How the next call to write will fail. -/
  writeFailure : Option SettingsError
  /-- The calls so far, oldest first. -/
  calls : List BackendCall

namespace MemoryStore

/-- Nothing is kept and nothing will fail. -/
def empty : MemoryStore := ⟨[], none, none, []⟩

/-- What is kept under a name. -/
def get? (m : MemoryStore) (name : String) : Option Bytes := m.documents.lookup name

/-- Keeps a document under a name in place of what was there. -/
def put (m : MemoryStore) (name : String) (document : Bytes) : MemoryStore :=
  { m with documents := (name, document) :: m.documents.filter (·.1 ≠ name) }

/-- The backend of documents in memory. -/
def backend : Backend MemoryStore where
  read name m :=
    let called := { m with calls := m.calls ++ [BackendCall.read name] }
    match m.readFailure with
    | some e => (.error e, { called with readFailure := none })
    | none => (.ok (m.get? name), called)
  write name document m :=
    let called := { m with calls := m.calls ++ [BackendCall.write name document] }
    match m.writeFailure with
    | some e => (.error e, { called with writeFailure := none })
    | none => (.ok (), called.put name document)

end MemoryStore
end StreamMerge
