import Mathlib.Data.BitVec
import Mathlib.Data.List.Basic

/-!
# Spans and the records they leave

An open span's state, how it is annotated, and the record it is turned into when
it closes; and the record of a log message. Values and enrichment are only carried
along.
-/

namespace RustSak

namespace O11y

abbrev TraceId := BitVec 128

abbrev SpanId := BitVec 64

/-- Key/value pairs, in the order they were written. -/
abbrev Fields (υ : Type) := List (String × υ)

inductive Status where
  | unset
  | error (message : String)
  deriving DecidableEq

structure SpanEvent (υ : Type) where
  timeUnixNano : ℕ
  name : String
  attributes : Fields υ
  deriving DecidableEq

/-- Severities. -/
inductive Level where
  | debug
  | info
  | warn
  | error
  deriving DecidableEq

structure LogRecord (υ η : Type) where
  timeUnixNano : ℕ
  level : Level
  body : String
  fields : Fields υ
  enrichment : η
  traceId : Option TraceId
  spanId : Option SpanId

structure SpanContext where
  traceId : TraceId
  spanId : SpanId
  deriving DecidableEq

/-- One finished span. -/
structure SpanRecord (υ η : Type) where
  traceId : TraceId
  spanId : SpanId
  parentSpanId : Option SpanId
  name : String
  startUnixNano : ℕ
  endUnixNano : ℕ
  attributes : Fields υ
  events : List (SpanEvent υ)
  links : List SpanContext
  status : Status
  enrichment : η
  deriving DecidableEq

/-- An open span. -/
structure SpanState (υ η : Type) where
  traceId : TraceId
  spanId : SpanId
  parentSpanId : Option SpanId
  name : String
  startUnixNano : ℕ
  attributes : Fields υ
  events : List (SpanEvent υ)
  links : List SpanContext
  status : Status
  enrichment : η
  deriving DecidableEq

namespace SpanState

variable {υ η : Type} (span : SpanState υ η)

/-- `SpanState::open`, at `now` and with the id that was drawn. -/
def opened (traceId : TraceId) (spanId : SpanId) (parentSpanId : Option SpanId)
    (name : String) (attributes : Fields υ) (enrichment : η) (now : ℕ) :
    SpanState υ η where
  traceId := traceId
  spanId := spanId
  parentSpanId := parentSpanId
  name := name
  startUnixNano := now
  attributes := attributes
  events := []
  links := []
  status := .unset
  enrichment := enrichment

def context : SpanContext := ⟨span.traceId, span.spanId⟩

def finish (endUnixNano : ℕ) : SpanRecord υ η where
  traceId := span.traceId
  spanId := span.spanId
  parentSpanId := span.parentSpanId
  name := span.name
  startUnixNano := span.startUnixNano
  endUnixNano := endUnixNano
  attributes := span.attributes
  events := span.events
  links := span.links
  status := span.status
  enrichment := span.enrichment

/-- The value under a key is replaced where it stands, or added at the end. -/
def setField (key : String) (value : υ) : Fields υ → Fields υ
  | [] => [(key, value)]
  | (existing, old) :: rest =>
      if existing = key then (existing, value) :: rest
      else (existing, old) :: setField key value rest

def setAttribute (key : String) (value : υ) : SpanState υ η :=
  { span with attributes := setField key value span.attributes }

def addEvent (name : String) (attributes : Fields υ) (now : ℕ) : SpanState υ η :=
  { span with events := span.events ++ [⟨now, name, attributes⟩] }

def fail (message : String) : SpanState υ η :=
  { span with status := .error message }

/-- `text` is how a message becomes a value. -/
def setError (text : String → υ) (message : String) (now : ℕ) : SpanState υ η :=
  (span.addEvent "exception" [("exception.message", text message)] now).fail message

end SpanState

end O11y

end RustSak
