import RustSak.O11y.Spans
import RustSak.O11y.Fields

/-!
# Forwarding `tracing`

The layer that turns events into log records and spans into spans. What it keeps
is in the extensions of the registry's open spans; the rest of what it reads is a
thread's: the stack of spans open on it, and the remote context set on it. Both
gates are open. A callback carries the layer as its hooks behave in that callback,
so that nothing is assumed of a hook from one callback to the next.
-/

namespace RustSak

namespace O11y

namespace Tracing

open Library

/-! ## Values -/

/-- `δ` are the doubles. -/
inductive Value (δ : Type) where
  | bool (flag : Bool)
  | int (number : ℤ)
  | double (number : δ)
  | string (text : String)
  | bytes (bytes : List UInt8)
  | list (values : List (Value δ))
  | map (entries : List (String × Value δ))

/-- How doubles are displayed, and any value for debugging. -/
class Formats (δ : Type) where
  display : δ → String
  debug : Value δ → String

variable {θ δ η : Type}

/-- A value as the text of a status message. -/
def Value.describe [Formats δ] : Value δ → String
  | .string text => text
  | .int number => toString number
  | .double number => Formats.display number
  | .bool flag => toString flag
  | other => Formats.debug other

/-- What a callsite hands to a visitor; `debug` and `error` are shown already. -/
inductive Visited (δ : Type) where
  | i64 (value : ℤ)
  | u64 (value : ℕ)
  | f64 (value : δ)
  | bool (value : Bool)
  | str (value : String)
  | error (shown : String)
  | debug (shown : String)

/-- An unsigned number too large is kept exact, as a string. -/
def Visited.value : Visited δ → Value δ
  | .i64 value => .int value
  | .u64 value => if value < 2 ^ 63 then .int value else .string (toString value)
  | .f64 value => .double value
  | .bool value => .bool value
  | .str value => .string value
  | .error shown => .string shown
  | .debug shown => .string shown

/-- The fields one callback hands over, each name once. -/
structure Values (δ : Type) where
  fields : List (String × Visited δ)
  nodup : (fields.map Prod.fst).Nodup

structure Collect (δ : Type) where
  messageIsBody : Bool
  message : Option String
  fields : Fields (Value δ)

namespace Collect

def event : Collect δ := ⟨true, none, []⟩

def span : Collect δ := { event with messageIsBody := false }

/-- Keeps one field, diverting the message to the body where that applies. -/
def keep (collected : Collect δ) (name : String) (value : Value δ) : Collect δ :=
  match value with
  | .string text =>
      if collected.messageIsBody ∧ name = "message" then
        { collected with message := some text }
      else { collected with fields := collected.fields ++ [(name, .string text)] }
  | value => { collected with fields := collected.fields ++ [(name, value)] }

def record (collected : Collect δ) (values : List (String × Visited δ)) : Collect δ :=
  values.foldl (fun collected field => collected.keep field.1 field.2.value) collected

end Collect

/-! ## The layer -/

/-- The levels of `tracing`. -/
inductive Severity where
  | error
  | warn
  | info
  | debug
  | trace
  deriving DecidableEq

def levelOf : Severity → Level
  | .error => .error
  | .warn => .warn
  | .info => .info
  | .debug => .debug
  | .trace => .debug

structure Metadata where
  name : String
  target : String
  level : Severity

/-- The two hooks, where they are installed. A call that is `none` panics. -/
structure Layer (δ : Type) where
  mapField : Option (String → Value δ → Option (Option (Value δ)))
  foldSpans : Option (Metadata → Option Bool)

namespace Layer

variable (layer : Layer δ)

/-- One field on its way out: a map that panics drops it. -/
def mapOne (field : String × Value δ) : Option (String × Value δ) :=
  match layer.mapField with
  | none => some field
  | some map => (map field.1 field.2).join.map fun mapped => (field.1, mapped)

/-- The fields as they leave, and the message of the error if there was one before
the map ran. -/
def mapFields [Formats δ] (fields : Fields (Value δ)) :
    Fields (Value δ) × Option String :=
  let failed := fields.any (·.1 == "error")
  let fields := fields.filterMap layer.mapOne
  let error :=
    if failed then some (((fields.lookup "error").map Value.describe).getD "")
    else none
  (fields, error)

def folds (metadata : Metadata) : Bool :=
  layer.foldSpans.any fun fold => (fold metadata).getD false

end Layer

/-! ## The registry -/

abbrev Id := ℕ

/-- What the layer keeps in a span's extensions. -/
inductive Extension (δ η : Type) where
  | exported (owned : SpanState (Value δ) η)
  | folded (fields : Fields (Value δ))

def Extension.context : Extension δ η → Option SpanContext
  | .exported owned => some owned.context
  | .folded _ => none

/-- An open span of the registry. -/
structure Span (δ η : Type) where
  id : Id
  parent : Option Id
  extension : Extension δ η

/-- The span and those above it, the innermost first, among the open spans, of
which the youngest comes first: a parent is older than its child. -/
def scope : List (Span δ η) → Option Id → List (Span δ η)
  | [], _ => []
  | span :: older, id =>
      if id = some span.id then span :: scope older span.parent else scope older id

/-- The context of the nearest exported span. -/
def nearestExported (scope : List (Span δ η)) : Option SpanContext :=
  scope.findSome? (·.extension.context)

/-- `saved` are the contexts that the running `with_parent`s put back, the innermost
first; `logs` and `records` are what was handed to the pipeline, the last first. -/
structure State (θ δ η : Type) where
  spans : List (Span δ η)
  stack : θ → Stack (Value δ) η
  remote : θ → Option SpanContext
  saved : θ → List (Option SpanContext)
  logs : List (LogRecord (Value δ) η)
  records : List (SpanRecord (Value δ) η)

def State.empty : State θ δ η :=
  ⟨[], fun _ => [], fun _ => none, fun _ => [], [], []⟩

/-! ## The callbacks -/

/-- A span opens on a thread; the parent is its parent in the registry. The last
four are drawn and read. -/
structure Attributes (θ δ η : Type) where
  thread : θ
  layer : Layer δ
  id : Id
  parent : Option Id
  metadata : Metadata
  values : Values δ
  traceId : TraceId
  spanId : SpanId
  now : ℕ
  enrichment : η

structure Record (δ : Type) where
  layer : Layer δ
  id : Id
  values : Values δ

/-- An event, and the span it is in by the registry. The last two are read. -/
structure Event (θ δ η : Type) where
  thread : θ
  layer : Layer δ
  metadata : Metadata
  values : Values δ
  span : Option Id
  now : ℕ
  enrichment : η

/-- A callback, or what else changes what the callbacks read. -/
inductive Callback (θ δ η : Type) where
  | newSpan (attributes : Attributes θ δ η)
  | record (values : Record δ)
  | followsFrom (id follows : Id)
  | event (event : Event θ δ η)
  | close (id : Id) (now : ℕ)
  /-- `with_parent` starts on the thread. -/
  | withParent (t : θ) (context : SpanContext)
  /-- The innermost `with_parent` of the thread returns or unwinds. -/
  | restore (t : θ)
  /-- Guards and futures leave the thread with this stack. -/
  | stack (t : θ) (stack : Stack (Value δ) η)

inductive Parent where
  | current
  | context (context : SpanContext)
  | root

/-- `trace::start`, with what is drawn and read. -/
def start (stack : Stack (Value δ) η) (name : String) (parent : Parent)
    (fields : Fields (Value δ)) (a : Attributes θ δ η) : SpanState (Value δ) η :=
  let placed :=
    match parent with
    | .current => stack.inherit a.traceId
    | .context context => (context.traceId, some context.spanId)
    | .root => (a.traceId, none)
  SpanState.opened placed.1 a.spanId placed.2 name fields a.enrichment a.now

/-- Marks the span failed if there is a message. -/
def failIf (error : Option String) (owned : SpanState (Value δ) η) :
    SpanState (Value δ) η :=
  match error with
  | some message => owned.fail message
  | none => owned

namespace Attributes

variable [Formats δ] (a : Attributes θ δ η)

def mapped : Fields (Value δ) × Option String :=
  a.layer.mapFields (Collect.span.record a.values.fields).fields

/-- What is put in the new span's extensions. -/
def extension (s : State θ δ η) : Extension δ η :=
  if a.layer.folds a.metadata then .folded a.mapped.1
  else
    let parent :=
      ((nearestExported (scope s.spans a.parent)).or (s.remote a.thread)).elim
        Parent.current Parent.context
    .exported
      (failIf a.mapped.2
        (start (s.stack a.thread) a.metadata.name parent a.mapped.1 a))

end Attributes

def Record.mapped [Formats δ] (r : Record δ) : Fields (Value δ) × Option String :=
  r.layer.mapFields (Collect.span.record r.values.fields).fields

namespace Extension

/-- Fields recorded later. -/
def record (fields : Fields (Value δ)) (error : Option String) :
    Extension δ η → Extension δ η
  | .exported owned =>
      .exported (failIf error
        (fields.foldl (fun owned field => owned.setAttribute field.1 field.2) owned))
  | .folded kept => .folded (Fields.setAll fields kept)

def addLink (link : SpanContext) : Extension δ η → Extension δ η
  | .exported owned => .exported { owned with links := owned.links ++ [link] }
  | .folded kept => .folded kept

def fail (message : String) : Extension δ η → Extension δ η
  | .exported owned => .exported (owned.fail message)
  | .folded kept => .folded kept

end Extension

/-- Changes the extensions of the span, if it is open. -/
def visit (id : Id) (change : Extension δ η → Extension δ η) (span : Span δ η) :
    Span δ η :=
  if span.id = id then { span with extension := change span.extension } else span

namespace Event

variable [Formats δ] (e : Event θ δ η)

def collected : Collect δ := Collect.event.record e.values.fields

def mapped : Fields (Value δ) := (e.layer.mapFields e.collected.fields).1

def body : String := e.collected.message.getD e.metadata.name

def level : Level := levelOf e.metadata.level

end Event

/-- One span of an event's scope is met: a folded one adds the fields that are not
there yet, and the first exported one is where the event belongs. -/
def meet (found : Fields (Value δ) × Option (Id × SpanContext)) (span : Span δ η) :
    Fields (Value δ) × Option (Id × SpanContext) :=
  match span.extension with
  | .folded folded => (Fields.addMissing folded found.1, found.2)
  | .exported owned => (found.1, found.2.or (some (span.id, owned.context)))

def addTarget (target : String) (fields : Fields (Value δ)) : Fields (Value δ) :=
  if fields.any (·.1 == "target") then fields
  else fields ++ [("target", .string target)]

namespace State

variable (s : State θ δ η)

def touch (id : Id) (change : Extension δ η → Extension δ η) : State θ δ η :=
  { s with spans := s.spans.map (visit id change) }

section Hooks

variable [Formats δ]

def newSpan (a : Attributes θ δ η) : State θ δ η :=
  { s with spans := ⟨a.id, a.parent, a.extension s⟩ :: s.spans }

def record (r : Record δ) : State θ δ η :=
  s.touch r.id (Extension.record r.mapped.1 r.mapped.2)

omit [Formats δ] in
def followsFrom (id follows : Id) : State θ δ η :=
  match nearestExported (scope s.spans (some follows)) with
  | some link => s.touch id (Extension.addLink link)
  | none => s

/-- `log::emit`, or `log::emit_in` where a context was found. -/
def emit (e : Event θ δ η) (context : Option SpanContext)
    (fields : Fields (Value δ)) : State θ δ η :=
  let context := context.or (s.stack e.thread).currentContext
  let record :=
    { timeUnixNano := e.now, level := e.level, body := e.body, fields := fields,
      enrichment := e.enrichment, traceId := context.map SpanContext.traceId,
      spanId := context.map SpanContext.spanId }
  { s with logs := record :: s.logs }

def event (e : Event θ δ η) : State θ δ η :=
  let found := (scope s.spans e.span).foldl meet (e.mapped, none)
  let fields := addTarget e.metadata.target found.1
  match found.2 with
  | some (id, context) =>
      let s := if e.level = .error then s.touch id (Extension.fail e.body) else s
      s.emit e (some context) fields
  | none => s.emit e none fields

end Hooks

/-- The exported span is dropped, which ends it; then the registry forgets the
span. -/
def close (id : Id) (now : ℕ) : State θ δ η :=
  let record :=
    match s.spans.find? (·.id == id) with
    | some ⟨_, _, .exported owned⟩ => some (owned.finish now)
    | _ => none
  { s with
    spans := s.spans.filter (·.id != id)
    records := record.toList ++ s.records }

end State

/-- A span's id is not in use when it opens and its parent is open; a span closes
after those below it. -/
def Enabled (s : State θ δ η) : Callback θ δ η → Prop
  | .newSpan a => (∀ span ∈ s.spans, span.id ≠ a.id) ∧
      ∀ parent ∈ a.parent, ∃ span ∈ s.spans, span.id = parent
  | .close id _ => ∀ span ∈ s.spans, span.parent ≠ some id
  | .restore t => s.saved t ≠ []
  | _ => True

instance Enabled.decidable (s : State θ δ η) :
    ∀ callback, Decidable (Enabled s callback)
  | .newSpan a => inferInstanceAs (Decidable ((∀ span ∈ s.spans, span.id ≠ a.id) ∧
      ∀ parent ∈ a.parent, ∃ span ∈ s.spans, span.id = parent))
  | .close id _ => inferInstanceAs (Decidable (∀ span ∈ s.spans, span.parent ≠ some id))
  | .restore t => decidable_of_iff (¬ (s.saved t).isEmpty = true) (by simp [Enabled])
  | .record _ => .isTrue trivial
  | .followsFrom _ _ => .isTrue trivial
  | .event _ => .isTrue trivial
  | .withParent _ _ => .isTrue trivial
  | .stack _ _ => .isTrue trivial

def next [DecidableEq θ] [Formats δ] (s : State θ δ η) :
    Callback θ δ η → State θ δ η
  | .newSpan a => s.newSpan a
  | .record r => s.record r
  | .followsFrom id follows => s.followsFrom id follows
  | .event e => s.event e
  | .close id now => s.close id now
  | .withParent t context =>
      { s with
        remote := Function.update s.remote t (some context)
        saved := Function.update s.saved t (s.remote t :: s.saved t) }
  | .restore t =>
      { s with
        remote := Function.update s.remote t (s.saved t).head?.join
        saved := Function.update s.saved t (s.saved t).tail }
  | .stack t stack => { s with stack := Function.update s.stack t stack }

def machine [DecidableEq θ] [Formats δ] :
    Machine (State θ δ η) (Callback θ δ η) :=
  .guarded (fun s => s = .empty) Enabled next

end Tracing

end O11y

end RustSak
