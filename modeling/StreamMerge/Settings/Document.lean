import StreamMerge.Json.Document
import StreamMerge.Settings

/-!
# Settings as a document

The written form of the settings of a merge.
-/
namespace StreamMerge.Settings

/-- The members of a settings document. -/
def members : List (Json.Member Settings) := [
  .of "name" Json.readOptionalString fun name s => { s with name },
  .of "trace_transitions" Json.readBool fun tracing s => { s with tracing }]

/-- Reads a settings document. -/
def decode (bs : Bytes) : Except Json.Fault Settings := Json.decode members standard bs

/-- Writes a settings document. -/
def encode (s : Settings) : Bytes := Json.layout [
  ("name", Json.writeOptionalString s.name),
  ("trace_transitions", Json.writeBool s.tracing)]

end StreamMerge.Settings
