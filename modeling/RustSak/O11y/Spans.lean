import RustSak.O11y.Record
import RustSak.Library.Machine

/-!
# Guards, futures and the stack of a thread

Every thread has a stack of open spans. A guard owns an entry of the stack of the
thread that opened it, and may be dropped or detached anywhere; a future that is
instrumented owns a span that is on a stack only while the future is polled. A
future is polled by one thread at a time, and not dropped meanwhile. Spans are
told apart by their ids, which are taken to be drawn without collision.
-/

namespace RustSak

namespace O11y

open Library

/-- The spans open on a thread, the innermost first. -/
abbrev Stack (υ η : Type) := List (SpanState υ η)

namespace Stack

variable {υ η : Type} (stack : Stack υ η)

/-- Takes the span out, wherever it sits. -/
def remove (id : SpanId) : Option (SpanState υ η) × Stack υ η :=
  (stack.find? (·.spanId == id), stack.eraseP (·.spanId == id))

def currentContext : Option SpanContext := stack.head?.map SpanState.context

/-- The trace and the parent a span opened now would have; `traceId` is drawn for
a root. -/
def inherit (traceId : TraceId) : TraceId × Option SpanId :=
  match stack.currentContext with
  | some parent => (parent.traceId, some parent.spanId)
  | none => (traceId, none)

/-- Visits the innermost span, if there is one. -/
def withCurrent (visit : SpanState υ η → SpanState υ η) : Stack υ η :=
  match stack with
  | [] => []
  | span :: rest => visit span :: rest

end Stack

/-- A span lifted off the stack: its id until it is finished, and its state while
it is not on a stack. -/
structure PendingSpan (υ η : Type) where
  id : Option SpanId
  state : Option (SpanState υ η)
  deriving DecidableEq

namespace PendingSpan

variable {υ η : Type} (pending : PendingSpan υ η) (stack : Stack υ η)

def enter : PendingSpan υ η × Stack υ η :=
  match pending.state with
  | some state => ({ pending with state := none }, state :: stack)
  | none => (pending, stack)

/-- Whatever the stack has under the id becomes the state, also nothing. -/
def exit : PendingSpan υ η × Stack υ η :=
  match pending.id with
  | some id =>
      let removed := stack.remove id
      ({ pending with state := removed.1 }, removed.2)
  | none => (pending, stack)

/-- What is recorded, the pending span that is left, and the stack. -/
def finish (now : ℕ) : Option (SpanRecord υ η) × PendingSpan υ η × Stack υ η :=
  let exited := pending.exit stack
  (exited.1.state.map (·.finish now), ⟨none, none⟩, exited.2)

end PendingSpan

/-- Who owns a span. -/
inductive Owner (θ υ η : Type) where
  | unborn
  /-- A guard, of the thread that opened the span. -/
  | guard (thread : θ)
  /-- A future, and the thread that polls it. -/
  | future (pending : PendingSpan υ η) (polled : Option θ)
  | gone
  deriving DecidableEq

/-- `records` are what was handed to `record_span`, the last first. -/
structure State (θ υ η : Type) where
  stack : θ → Stack υ η
  owner : SpanId → Owner θ υ η
  records : List (SpanRecord υ η)

def State.empty {θ υ η : Type} : State θ υ η := ⟨fun _ => [], fun _ => .unborn, []⟩

/-- What is drawn and read when a span opens. -/
structure Opening (υ η : Type) where
  id : SpanId
  traceId : TraceId
  name : String
  attributes : Fields υ
  enrichment : η
  now : ℕ

/-- What `current()` offers. -/
inductive Note (υ : Type) where
  | attribute (key : String) (value : υ)
  | event (name : String) (attributes : Fields υ)
  | error (message : String)

inductive Event (θ υ η : Type) where
  | enter (t : θ) (opening : Opening υ η)
  | drop (t : θ) (id : SpanId) (now : ℕ)
  | detach (t : θ) (id : SpanId)
  | poll (t : θ) (id : SpanId)
  /-- A poll returns, or panics, and is not ready. -/
  | yields (t : θ) (id : SpanId)
  | ready (t : θ) (id : SpanId) (now : ℕ)
  | dropFuture (t : θ) (id : SpanId) (now : ℕ)
  | annotate (t : θ) (note : Note υ) (now : ℕ)

variable {θ υ η : Type}

def Note.visit (text : String → υ) (note : Note υ) (now : ℕ)
    (span : SpanState υ η) : SpanState υ η :=
  match note with
  | .attribute key value => span.setAttribute key value
  | .event name attributes => span.addEvent name attributes now
  | .error message => span.setError text message now

def Enabled (s : State θ υ η) : Event θ υ η → Prop
  | .enter _ opening => s.owner opening.id = .unborn
  | .drop _ id _ => ∃ t', s.owner id = .guard t'
  | .detach _ id => ∃ t', s.owner id = .guard t'
  | .poll _ id => ∃ pending, s.owner id = .future pending none
  | .yields t id => ∃ pending, s.owner id = .future pending (some t)
  | .ready t id _ => ∃ pending, s.owner id = .future pending (some t)
  | .dropFuture _ id _ => ∃ pending, s.owner id = .future pending none
  | .annotate .. => True

/-- The span a future carries. -/
def State.pending (s : State θ υ η) (id : SpanId) : PendingSpan υ η :=
  match s.owner id with
  | .future pending _ => pending
  | _ => ⟨none, none⟩

section Next

variable [DecidableEq θ] (s : State θ υ η)

def State.withStack (t : θ) (stack : Stack υ η) : State θ υ η :=
  { s with stack := Function.update s.stack t stack }

omit [DecidableEq θ] in
def State.withOwner (id : SpanId) (owner : Owner θ υ η) : State θ υ η :=
  { s with owner := Function.update s.owner id owner }

omit [DecidableEq θ] in
/-- `record_span`, if there is a record. -/
def State.record (record : Option (SpanRecord υ η)) : State θ υ η :=
  { s with records := record.toList ++ s.records }

def next (text : String → υ) : Event θ υ η → State θ υ η
  | .enter t opening =>
      let (traceId, parent) := (s.stack t).inherit opening.traceId
      let span := SpanState.opened traceId opening.id parent opening.name
        opening.attributes opening.enrichment opening.now
      (s.withStack t (span :: s.stack t)).withOwner opening.id (.guard t)
  | .drop t id now =>
      let removed := (s.stack t).remove id
      ((s.withStack t removed.2).withOwner id .gone).record
        (removed.1.map (·.finish now))
  | .detach t id =>
      let removed := (s.stack t).remove id
      (s.withStack t removed.2).withOwner id (.future ⟨some id, removed.1⟩ none)
  | .poll t id =>
      let entered := (s.pending id).enter (s.stack t)
      (s.withStack t entered.2).withOwner id (.future entered.1 (some t))
  | .yields t id =>
      let exited := (s.pending id).exit (s.stack t)
      (s.withStack t exited.2).withOwner id (.future exited.1 none)
  | .ready t id now =>
      let exited := (s.pending id).exit (s.stack t)
      let finished := exited.1.finish exited.2 now
      ((s.withStack t finished.2.2).withOwner id
        (.future finished.2.1 none)).record finished.1
  | .dropFuture t id now =>
      let finished := (s.pending id).finish (s.stack t) now
      ((s.withStack t finished.2.2).withOwner id .gone).record finished.1
  | .annotate t note now =>
      s.withStack t ((s.stack t).withCurrent (note.visit text now))

end Next

def machine [DecidableEq θ] (text : String → υ) :
    Machine (State θ υ η) (Event θ υ η) :=
  .guarded (fun s => s = .empty) Enabled (fun s => next s text)

/-! ## What is on a stack -/

namespace Stack

variable (stack : Stack υ η) (id : SpanId)

theorem map_remove :
    (stack.remove id).2.map SpanState.spanId =
      (stack.map SpanState.spanId).erase id := by
  rw [List.erase_eq_eraseP', List.eraseP_map]
  rfl

theorem remove_of_mem (h : id ∈ stack.map SpanState.spanId) :
    ∃ state, (stack.remove id).1 = some state ∧ state.spanId = id := by
  obtain ⟨state, hmem, hid⟩ := List.mem_map.mp h
  have hsome : (stack.find? (·.spanId == id)).isSome = true :=
    List.find?_isSome.mpr ⟨state, hmem, by simp [hid]⟩
  obtain ⟨found, hfound⟩ := Option.isSome_iff_exists.mp hsome
  have hprop := List.find?_some hfound
  exact ⟨found, hfound, by simpa using hprop⟩

theorem remove_of_not_mem (h : id ∉ stack.map SpanState.spanId) :
    stack.remove id = (none, stack) := by
  have hnot : ∀ state ∈ stack, ¬ (state.spanId == id) = true := by
    intro state hmem heq
    exact h (List.mem_map.mpr ⟨state, hmem, by simpa using heq⟩)
  rw [remove, List.find?_eq_none.mpr hnot, List.eraseP_of_forall_not hnot]

theorem map_withCurrent (visit : SpanState υ η → SpanState υ η)
    (hvisit : ∀ span, (visit span).spanId = span.spanId) :
    (stack.withCurrent visit).map SpanState.spanId =
      stack.map SpanState.spanId := by
  cases stack with
  | nil => rfl
  | cons span rest => simp [withCurrent, hvisit]

end Stack

theorem spanId_visit (text : String → υ) (note : Note υ) (now : ℕ)
    (span : SpanState υ η) : (note.visit text now span).spanId = span.spanId := by
  cases note <;> rfl

end O11y

end RustSak
