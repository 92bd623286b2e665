import Tsconfig.Log.Directive

/-!
Which events are logged. A filter is a list of directives between commas. Those about sources, and about
fields that events have, decide together: the one with the longest source counts. A directive about a
span, or about a field of spans, lets through what happens within the span.
-/
namespace Tsconfig.Log
open Text

namespace Subject

def coversSource (subject : Subject) (source : String) : Bool :=
  subject.source.all fun start => start.toList.isPrefixOf source.toList

/-- Whether spans can be what the subject is about. -/
def concernsSpans (subject : Subject) : Bool := subject.span.isSome || subject.field.isSome

/-- Whether events can be what the subject is about. Of their fields only the names are known. -/
def concernsEvents (subject : Subject) : Bool :=
  subject.span.isNone && subject.field.all (·.value.isNone)

def coversSpan (subject : Subject) (span : Span) : Bool :=
  subject.concernsSpans && subject.coversSource span.source && subject.span.all (· = span.name) &&
    subject.field.all fun test => (OrderedMap.find? test.name span.fields).any test.accepts

def coversEvent (subject : Subject) (event : Event) : Bool :=
  subject.concernsEvents && subject.coversSource event.source &&
    subject.field.all (·.name ∈ event.fields)

/-- How much a subject says about sources; one that says nothing comes last. -/
def detail (subject : Subject) : Nat := (subject.source.map (·.length + 1)).getD 0

/-- The name of the field of a subject; one that names none comes first. -/
def fieldName (subject : Subject) : List (List Char) := (subject.field.map (·.name.toList)).toList

/-- Whether a subject is preferred to another: it says more about sources, or as much and has a field,
or a field that comes later in the order of names. -/
def precedes (first second : Subject) : Bool :=
  second.detail < first.detail ||
    (first.detail = second.detail && second.fieldName < first.fieldName)

end Subject

/-- The directives in force, and the texts that are none. -/
structure Filter where
  /-- No two of them are about the same. -/
  directives : List Directive
  ignored : List String
  /-- The rank of the last level that is looked at. -/
  reach : Nat

namespace Filter

/-- A directive behind others. It takes the place of one that is about the same. -/
def put (directive : Directive) (directives : List Directive) : List Directive :=
  directives.filter (·.subject ≠ directive.subject) ++ [directive]

/-- The level up to which directives look at anything: the last that one of them lets through, but
everything if the text of a field has to be known. -/
def reachOf (directives : List Directive) : Nat :=
  if directives.any fun directive => directive.subject.field.any (·.value.isSome) then unlimited
  else (directives.map (·.limit)).foldl max 0

/-- The filter that is written. Of the pieces between commas, empty ones say nothing. There is no
filter if a directive divides a character. -/
def parse? (text : String) : Option Filter := do
  let pieces := (splitOn ',' text.toList).filter (· ≠ [])
  let read := pieces.map fun piece => (piece, Directive.parse piece)
  if read.any fun (_, directive) => directive matches .error .dividesCharacter then none
  else
    let directives := read.filterMap (·.2.toOption)
    some {
      directives := directives.foldl (fun done directive => put directive done) []
      ignored := (read.filter (·.2 matches .error _)).map (String.ofList ·.1)
      reach := reachOf directives }

/-- Whether a directive for spans lets an event through. Nothing is known of spans of levels that are
not looked at. -/
def passesSpan (filter : Filter) (event : Event) (span : Span) : Bool :=
  span.level.rank ≤ filter.reach && filter.directives.any fun directive =>
    directive.subject.coversSpan span && event.level.rank ≤ directive.limit

/-- The directive that decides about an event, unless a span does. -/
def deciding? (filter : Filter) (event : Event) : Option Directive :=
  (filter.directives.filter (·.subject.coversEvent event)).foldl (fun found directive =>
    match found with
    | some other => if other.subject.precedes directive.subject then found else some directive
    | none => some directive) none

def passes (filter : Filter) (event : Event) : Bool :=
  event.spans.any (filter.passesSpan event) ||
    (filter.deciding? event).any fun directive => event.level.rank ≤ directive.limit

def ignoredLine (text : String) : String := "ignoring \x60" ++ text ++ "\x60: invalid filter directive"

end Filter
end Tsconfig.Log
