import Tsconfig.Json.Printer
import Tsconfig.Log.Format

/-! What can be logged: events of five levels, each from a source and within spans of work. -/
namespace Tsconfig.Log

/-- How much an event matters, most first. -/
inductive Level
  | error
  | warn
  | info
  | debug
  | trace
  deriving DecidableEq, Repr

namespace Level

def rank (level : Level) : Nat := level.ctorIdx + 1

def name : Level → String
  | error => "ERROR"
  | warn => "WARN"
  | info => "INFO"
  | debug => "DEBUG"
  | trace => "TRACE"

end Level

/-- A stretch of work that has a name. -/
structure Span where
  level : Level
  source : String
  name : String
  /-- What the work is about: texts that have names. -/
  fields : List (String × String) := []
  deriving DecidableEq, Repr

structure Event where
  level : Level
  source : String
  message : String
  /-- The names of all that the event tells, the message among them. -/
  fields : List String
  /-- The work that was under way. -/
  spans : List Span := []
  deriving DecidableEq, Repr

namespace Event

def inside (span : Span) (event : Event) : Event := { event with spans := span :: event.spans }

def line (format : Format) (event : Event) : String :=
  match format with
  | .text => s!"{event.level.name} {event.source}: {event.message}"
  | .tree => String.join (event.spans.map fun _ => "  ") ++
      s!"{event.level.name} {event.source} {event.message}"
  | .json => (Json.Value.obj [("level", .str event.level.name),
      ("target", .str event.source), ("message", .str event.message)]).compact

end Event
end Tsconfig.Log
