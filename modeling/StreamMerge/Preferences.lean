import StreamMerge.Json.Document

/-!
# Preferences

What the program uses where its command line says nothing, and the written form of it.
-/
namespace StreamMerge

/-- What is used where the command line says nothing. -/
structure Preferences where
  /-- How many elements are requested at a time. -/
  batch : Nat
  /-- Which records of the log are shown. -/
  logFilter : String
  /-- The profile whose settings are used. -/
  profile : String
  deriving DecidableEq, Repr

namespace Preferences

/-- The preferences of somebody who has not saved any. -/
def standard : Preferences := ⟨16, "info", "default"⟩

/-- The members of a preferences document. -/
def members : List (Json.Member Preferences) := [
  .of "batch" Json.readNatural fun batch p => { p with batch },
  .of "log_filter" Json.readString fun logFilter p => { p with logFilter },
  .of "profile" Json.readString fun profile p => { p with profile }]

/-- Reads a preferences document. -/
def decode (bs : Bytes) : Except Json.Fault Preferences := Json.decode members standard bs

/-- Writes a preferences document. -/
def encode (p : Preferences) : Bytes := Json.layout [
  ("batch", Json.writeNatural p.batch),
  ("log_filter", Json.quote p.logFilter),
  ("profile", Json.quote p.profile)]

end Preferences
end StreamMerge
