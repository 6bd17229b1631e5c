import RustSak.O11y.Tracing

/-!
# Spans that belong to a value

An owned span is on no stack: the handle holds its state, and any thread annotates
or ends it. Together with the spans of guards and futures these are all the spans
there are. Handles started while tracing is off have no span and are left out.
-/

namespace RustSak

namespace O11y

open Library

variable {θ υ η : Type}

/-- `start`: the thread's stack is read, not changed. -/
def Opening.start (opening : Opening υ η) (stack : Stack υ η) (parent : Tracing.Parent) :
    SpanState υ η :=
  let placed :=
    match parent with
    | .current => stack.inherit opening.traceId
    | .context context => (context.traceId, some context.spanId)
    | .root => (opening.traceId, none)
  SpanState.opened placed.1 opening.id placed.2 opening.name opening.attributes
    opening.enrichment opening.now

/-- The layer starts its spans so, too. -/
theorem Tracing.start_eq {δ : Type} (stack : Stack (Tracing.Value δ) η) (name : String)
    (parent : Tracing.Parent) (fields : Fields (Tracing.Value δ))
    (a : Tracing.Attributes θ δ η) :
    Tracing.start stack name parent fields a =
      Opening.start ⟨a.spanId, a.traceId, name, fields, a.enrichment, a.now⟩ stack
        parent := rfl

/-- The handle of an id. -/
inductive OwnedSpan (υ η : Type) where
  | unstarted
  | live (state : SpanState υ η)
  | ended

/-- The state behind a handle. -/
def OwnedSpan.state : OwnedSpan υ η → Option (SpanState υ η)
  | .live state => some state
  | _ => none

/-- `with_state`. -/
def OwnedSpan.withState (visit : SpanState υ η → SpanState υ η) :
    OwnedSpan υ η → OwnedSpan υ η
  | .live state => .live (visit state)
  | handle => handle

/-- All spans; what owned ones record is among the records of the threads. -/
structure Spans (θ υ η : Type) where
  threads : State θ υ η
  owned : SpanId → OwnedSpan υ η

def Spans.empty : Spans θ υ η := ⟨.empty, fun _ => .unstarted⟩

inductive Call (θ υ η : Type) where
  | thread (event : Event θ υ η)
  | start (t : θ) (parent : Tracing.Parent) (opening : Opening υ η)
  | annotate (id : SpanId) (note : Note υ) (now : ℕ)
  | addLink (id : SpanId) (context : SpanContext)
  | fail (id : SpanId) (message : String)
  /-- The handle is dropped, with tracing on or off by then. -/
  | close (id : SpanId) (now : ℕ) (enabled : Bool)

namespace Spans

/-- The id has not been drawn yet. -/
def Fresh (s : Spans θ υ η) (id : SpanId) : Prop :=
  s.threads.owner id = .unborn ∧ s.owned id = .unstarted

def Enabled (s : Spans θ υ η) : Call θ υ η → Prop
  | .thread (.enter _ opening) => s.Fresh opening.id
  | .thread event => O11y.Enabled s.threads event
  | .start _ _ opening => s.Fresh opening.id
  | .annotate id .. | .addLink id _ | .fail id _ | .close id .. =>
      (s.owned id).state.isSome

variable (s : Spans θ υ η)

def withHandle (id : SpanId) (handle : OwnedSpan υ η) : Spans θ υ η :=
  { s with owned := Function.update s.owned id handle }

def visit (id : SpanId) (change : SpanState υ η → SpanState υ η) : Spans θ υ η :=
  s.withHandle id ((s.owned id).withState change)

/-- The span is recorded if tracing is still on. -/
def close (id : SpanId) (now : ℕ) (enabled : Bool) : Spans θ υ η :=
  let record := if enabled then (s.owned id).state.map (·.finish now) else none
  { s.withHandle id .ended with threads := s.threads.record record }

def next [DecidableEq θ] (text : String → υ) : Call θ υ η → Spans θ υ η
  | .thread event => { s with threads := O11y.next s.threads text event }
  | .start t parent opening =>
      s.withHandle opening.id (.live (opening.start (s.threads.stack t) parent))
  | .annotate id note now => s.visit id (note.visit text now)
  | .addLink id context =>
      s.visit id fun state => { state with links := state.links ++ [context] }
  | .fail id message => s.visit id (·.fail message)
  | .close id now enabled => s.close id now enabled

def machine [DecidableEq θ] (text : String → υ) :
    Machine (Spans θ υ η) (Call θ υ η) :=
  .guarded (fun s => s = .empty) Enabled (fun s => s.next text)

end Spans

end O11y

end RustSak
