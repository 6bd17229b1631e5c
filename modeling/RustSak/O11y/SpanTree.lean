import RustSak.O11y.Tracing

/-!
# The span tree of a history

What the callbacks so far, the newest first, say by themselves: which spans an open
span is in, what was last recorded on each, and from it what every event's record
and every exported span's record ought to be.
-/

namespace RustSak

namespace O11y

namespace Tracing

open Library

variable {θ δ η : Type}

/-- A span's opening, with what came before it. -/
abbrev Opening (θ δ η : Type) := Attributes θ δ η × List (Callback θ δ η)

def Attributes.folded (a : Attributes θ δ η) : Bool := a.layer.folds a.metadata

/-- The open span and those it is in, the innermost first. -/
def around : List (Callback θ δ η) → Option Id → List (Opening θ δ η)
  | [], _ => []
  | .newSpan a :: past, id =>
      if id = some a.id then (a, past) :: around past a.parent else around past id
  | .close id' _ :: past, id => if id = some id' then [] else around past id
  | _ :: past, id => around past id

/-- The nearest exported span. -/
def nearestId (past : List (Callback θ δ η)) (id : Option Id) : Option Id :=
  ((around past id).find? (!·.1.folded)).map (·.1.id)

def foldedAround (past : List (Callback θ δ η)) (id : Option Id) : List Id :=
  ((around past id).filter (·.1.folded)).map (·.1.id)

/-- The events, each with what came before it, the last first. -/
def events : List (Callback θ δ η) → List (Event θ δ η × List (Callback θ δ η))
  | [] => []
  | .event e :: past => (e, past) :: events past
  | _ :: past => events past

/-- An exported span closes: its opening, what came before the close, and when. -/
structure Closing (θ δ η : Type) where
  opening : Opening θ δ η
  past : List (Callback θ δ η)
  now : ℕ

def opened (past : List (Callback θ δ η)) (id : Id) : Option (Opening θ δ η) :=
  (around past (some id)).head?

/-- The closings of exported spans, the last first. -/
def closings : List (Callback θ δ η) → List (Closing θ δ η)
  | [] => []
  | .close id now :: past =>
      (((opened past id).filter (!·.1.folded)).map (⟨·, past, now⟩)).toList ++
        closings past
  | _ :: past => closings past

/-! ## Where a span belongs -/

section Threads

variable [DecidableEq θ]

/-- The contexts of the `with_parent`s that run on the thread, the innermost
first. -/
def remotes : List (Callback θ δ η) → θ → List SpanContext
  | [], _ => []
  | .withParent t' context :: past, t =>
      if t = t' then context :: remotes past t else remotes past t
  | .restore t' :: past, t =>
      if t = t' then (remotes past t).tail else remotes past t
  | _ :: past, t => remotes past t

def stackOn : List (Callback θ δ η) → θ → Stack (Value δ) η
  | [], _ => []
  | .stack t' stack :: past, t => if t = t' then stack else stackOn past t
  | _ :: past, t => stackOn past t

/-- The trace and the parent of a span: those of the exported span above it, else
of the remote context, else of the top of the thread's stack, else a new trace. -/
def placed (past : List (Callback θ δ η)) (a : Attributes θ δ η)
    (above : Option SpanContext) : TraceId × Option SpanId :=
  match (above.or (remotes past a.thread).head?).or
    (stackOn past a.thread).currentContext with
  | some parent => (parent.traceId, some parent.spanId)
  | none => (a.traceId, none)

/-- The context of the nearest exported span, from an open span up. -/
def nearest : List (Callback θ δ η) → Option Id → Option SpanContext
  | [], _ => none
  | .newSpan a :: past, id =>
      if id = some a.id then
        if a.folded then nearest past a.parent
        else some ⟨(placed past a (nearest past a.parent)).1, a.spanId⟩
      else nearest past id
  | .close id' _ :: past, id => if id = some id' then none else nearest past id
  | _ :: past, id => nearest past id

/-- Where an event belongs: to the nearest exported span it is in, else to the top
of the thread's stack. -/
def Event.context (past : List (Callback θ δ η)) (e : Event θ δ η) :
    Option SpanContext :=
  (nearest past e.span).or (stackOn past e.thread).currentContext

end Threads

/-! ## What is on a span -/

section Fields

variable [Formats δ]

/-- The value last recorded on the span under the key. -/
def lastRecorded : List (Callback θ δ η) → Id → String → Option (Value δ)
  | [], _, _ => none
  | .newSpan a :: past, id, key =>
      if a.id = id then a.mapped.1.lookup key else lastRecorded past id key
  | .record r :: past, id, key =>
      if r.id = id then (r.mapped.1.lookup key).or (lastRecorded past id key)
      else lastRecorded past id key
  | _ :: past, id, key => lastRecorded past id key

/-- The value last recorded under the key on the innermost folded span that has
it. -/
def inherited (past : List (Callback θ δ η)) (id : Option Id) (key : String) :
    Option (Value δ) :=
  (foldedAround past id).findSome? fun id => lastRecorded past id key

/-- Failed with the message, if there is one. -/
def failedOr (message : Option String) (otherwise : Status) : Status :=
  (message.map Status.error).getD otherwise

/-- A span fails by an error field, or by an error event that belongs to it. -/
def status : List (Callback θ δ η) → Id → Status
  | [], _ => .unset
  | .newSpan a :: past, id =>
      if a.id = id then failedOr a.mapped.2 .unset else status past id
  | .record r :: past, id =>
      if r.id = id then failedOr r.mapped.2 (status past id) else status past id
  | .event e :: past, id =>
      if e.level = .error ∧ nearestId past e.span = some id then .error e.body
      else status past id
  | _ :: past, id => status past id

end Fields

variable [DecidableEq θ]

/-- What the span follows from, as long as that was open. -/
def links : List (Callback θ δ η) → Id → List SpanContext
  | [], _ => []
  | .newSpan a :: past, id => if a.id = id then [] else links past id
  | .followsFrom id' follows :: past, id =>
      if id' = id then links past id ++ (nearest past (some follows)).toList
      else links past id
  | _ :: past, id => links past id

/-! ## The records -/

variable [Formats δ]

/-- The record of an event. -/
structure Logged (past : List (Callback θ δ η)) (e : Event θ δ η)
    (log : LogRecord (Value δ) η) : Prop where
  time : log.timeUnixNano = e.now
  level : log.level = e.level
  body : log.body = e.body
  enrichment : log.enrichment = e.enrichment
  traceId : log.traceId = (e.context past).map SpanContext.traceId
  spanId : log.spanId = (e.context past).map SpanContext.spanId
  /-- The event's own fields, then what the folded spans around it add, then the
  target. -/
  fields : ∃ extra target, log.fields = e.mapped ++ extra ++ target ∧
    (∀ key, extra.lookup key =
      if key ∈ e.mapped.keys then none else inherited past e.span key) ∧
    target = if "target" ∈ Fields.keys (e.mapped ++ extra) then []
      else [("target", .string e.metadata.target)]
  nodup : log.fields.keys.Nodup

/-- An exported span as it stands after the history. -/
structure Stands (past : List (Callback θ δ η)) (opening : Opening θ δ η)
    (owned : SpanState (Value δ) η) : Prop where
  placed : (owned.traceId, owned.parentSpanId) =
    placed opening.2 opening.1 (nearest opening.2 opening.1.parent)
  spanId : owned.spanId = opening.1.spanId
  name : owned.name = opening.1.metadata.name
  start : owned.startUnixNano = opening.1.now
  enrichment : owned.enrichment = opening.1.enrichment
  nodup : owned.attributes.keys.Nodup
  attributes : ∀ key, owned.attributes.lookup key =
    lastRecorded past opening.1.id key
  events : owned.events = []
  links : owned.links = links past opening.1.id
  status : owned.status = status past opening.1.id

/-- The record of an exported span. -/
def Closing.Recorded (closing : Closing θ δ η) (record : SpanRecord (Value δ) η) :
    Prop :=
  ∃ owned, Stands closing.past closing.opening owned ∧
    record = owned.finish closing.now

/-! ## No span closes twice -/

omit [DecidableEq θ] [Formats δ]

theorem opened_newSpan (past : List (Callback θ δ η)) (a : Attributes θ δ η)
    (id : Id) :
    opened (.newSpan a :: past) id =
      if id = a.id then some (a, past) else opened past id := by
  rw [opened, around, if_congr Option.some_inj rfl rfl]
  split
  · rfl
  · rfl

theorem opened_close (past : List (Callback θ δ η)) (id' : Id) (now : ℕ) (id : Id) :
    opened (.close id' now :: past) id = if id = id' then none else opened past id := by
  rw [opened, around, if_congr Option.some_inj rfl rfl]
  split
  · rfl
  · rfl

/-- The openings that a history still has open, or has closed, came at different
times. -/
structure Apart (es : List (Callback θ δ η)) : Prop where
  opened_lt : ∀ id opening, opened es id = some opening →
    opening.2.length < es.length
  closed_lt : ∀ closing ∈ closings es, closing.opening.2.length < es.length
  opened_inj : ∀ id id' opening opening', opened es id = some opening →
    opened es id' = some opening' → opening.2.length = opening'.2.length → id = id'
  opened_ne : ∀ id opening, opened es id = some opening →
    ∀ closing ∈ closings es, closing.opening.2.length ≠ opening.2.length
  nodup : ((closings es).map (·.opening.2.length)).Nodup

theorem Apart.same {es : List (Callback θ δ η)} {callback : Callback θ δ η}
    (h : Apart es) (hopened : ∀ id, opened (callback :: es) id = opened es id)
    (hclosings : closings (callback :: es) = closings es) :
    Apart (callback :: es) where
  opened_lt id opening hopen :=
    Nat.lt_succ_of_lt (h.opened_lt id opening (hopened id ▸ hopen))
  closed_lt closing hclosing :=
    Nat.lt_succ_of_lt (h.closed_lt closing (hclosings ▸ hclosing))
  opened_inj id id' opening opening' hopen hopen' :=
    h.opened_inj id id' opening opening' (hopened id ▸ hopen) (hopened id' ▸ hopen')
  opened_ne id opening hopen closing hclosing :=
    h.opened_ne id opening (hopened id ▸ hopen) closing (hclosings ▸ hclosing)
  nodup := hclosings ▸ h.nodup

theorem Apart.newSpan {es : List (Callback θ δ η)} (h : Apart es)
    (a : Attributes θ δ η) : Apart (.newSpan a :: es) := by
  refine ⟨fun id opening hopen => ?_, fun closing hclosing => ?_,
    fun id id' opening opening' hopen hopen' heq => ?_,
    fun id opening hopen closing hclosing => ?_, h.nodup⟩
  · rw [opened_newSpan] at hopen
    split at hopen
    · cases hopen
      exact Nat.lt_succ_self _
    · exact Nat.lt_succ_of_lt (h.opened_lt id opening hopen)
  · exact Nat.lt_succ_of_lt (h.closed_lt closing hclosing)
  · rw [opened_newSpan] at hopen hopen'
    split at hopen
    · rename_i hid
      split at hopen'
      · rename_i hid'
        exact hid.trans hid'.symm
      · cases hopen
        exact absurd heq.symm (h.opened_lt id' opening' hopen').ne
    · split at hopen'
      · cases hopen'
        exact absurd heq (h.opened_lt id opening hopen).ne
      · exact h.opened_inj id id' opening opening' hopen hopen' heq
  · rw [opened_newSpan] at hopen
    split at hopen
    · cases hopen
      exact (h.closed_lt closing hclosing).ne
    · exact h.opened_ne id opening hopen closing hclosing

theorem mem_closings_close {es : List (Callback θ δ η)} {id : Id} {now : ℕ}
    {closing : Closing θ δ η} (h : closing ∈ closings (.close id now :: es)) :
    opened es id = some closing.opening ∨ closing ∈ closings es := by
  rw [closings, List.mem_append] at h
  refine h.imp_left fun hnew => ?_
  rw [Option.mem_toList, Option.map_eq_some_iff] at hnew
  obtain ⟨opening, hfilter, rfl⟩ := hnew
  exact (Option.filter_eq_some_iff.mp hfilter).1

theorem Apart.close {es : List (Callback θ δ η)} (h : Apart es) (id' : Id) (now : ℕ) :
    Apart (.close id' now :: es) := by
  have hopened : ∀ id opening, opened (.close id' now :: es) id = some opening →
      id ≠ id' ∧ opened es id = some opening := by
    intro id opening hopen
    rw [opened_close] at hopen
    split at hopen
    · cases hopen
    · rename_i hne
      exact ⟨hne, hopen⟩
  refine ⟨fun id opening hopen => ?_, fun closing hclosing => ?_,
    fun id id' opening opening' hopen hopen' heq => ?_,
    fun id opening hopen closing hclosing heq => ?_, ?_⟩
  · exact Nat.lt_succ_of_lt (h.opened_lt id opening (hopened id opening hopen).2)
  · rcases mem_closings_close hclosing with hopen | hold
    · exact Nat.lt_succ_of_lt (h.opened_lt _ _ hopen)
    · exact Nat.lt_succ_of_lt (h.closed_lt closing hold)
  · exact h.opened_inj id id' opening opening' (hopened _ _ hopen).2
      (hopened _ _ hopen').2 heq
  · obtain ⟨hne, hopen⟩ := hopened id opening hopen
    rcases mem_closings_close hclosing with hclosed | hold
    · exact hne (h.opened_inj _ _ _ _ hopen hclosed heq.symm)
    · exact h.opened_ne id opening hopen closing hold heq
  · rw [closings, List.map_append]
    cases hnew : (opened es id').filter (!·.1.folded) with
    | none => exact h.nodup
    | some opening =>
        have hopen := (Option.filter_eq_some_iff.mp hnew).1
        refine List.nodup_cons.mpr ⟨fun hmem => ?_, h.nodup⟩
        obtain ⟨closing, hclosing, heq⟩ := List.mem_map.mp hmem
        exact h.opened_ne id' opening hopen closing hclosing heq

theorem apart (es : List (Callback θ δ η)) : Apart es := by
  induction es with
  | nil =>
      have hnone : ∀ id opening,
          opened ([] : List (Callback θ δ η)) id ≠ some opening := by
        intro id opening h
        cases h
      exact ⟨fun id opening h => absurd h (hnone id opening),
        fun _ h => absurd h List.not_mem_nil,
        fun id _ opening _ h => absurd h (hnone id opening),
        fun id opening h => absurd h (hnone id opening), List.nodup_nil⟩
  | cons callback es ih =>
      cases callback with
      | newSpan a => exact ih.newSpan a
      | close id now => exact ih.close id now
      | record r => exact ih.same (fun _ => rfl) rfl
      | followsFrom id follows => exact ih.same (fun _ => rfl) rfl
      | event e => exact ih.same (fun _ => rfl) rfl
      | withParent t context => exact ih.same (fun _ => rfl) rfl
      | restore t => exact ih.same (fun _ => rfl) rfl
      | stack t stack => exact ih.same (fun _ => rfl) rfl

/-- No span is closed twice. -/
theorem nodup_closings (es : List (Callback θ δ η)) :
    ((closings es).map (·.opening)).Nodup := by
  have hlength := (apart es).nodup
  rw [← Function.comp_def (fun opening : Opening θ δ η => opening.2.length),
    ← List.map_map] at hlength
  exact hlength.of_map

end Tracing

end O11y

end RustSak
