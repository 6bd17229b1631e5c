import RustSak.O11y.Spans
import Mathlib.Data.List.Basic
import Mathlib.Logic.Function.Basic

/-!
# The instrument attribute

`#[instrument]` is a transformation of functions: it reads its arguments and the signature, and
puts the body inside a span. Code of functions with the attribute is given two meanings, as it is
run after the expansion, with a stack of open spans, and as it is written, where a span is the
call that it is for. Only the expansion of functions that are not `async` is here.
-/

namespace RustSak

namespace O11y

namespace Instrument

/-! ## The expansion -/

inductive FnArg where
  | receiver
  | ident (name : String)
  | pattern
  deriving DecidableEq

structure Signature where
  ident : String
  inputs : List FnArg
  deriving DecidableEq

inductive MetaValue where
  | str (text : String)
  | other
  deriving DecidableEq

/-- An argument of the attribute; the names in a list may not parse. -/
inductive Meta where
  | path (path : List String)
  | list (path : List String) (names : Except String (List String))
  | nameValue (path : List String) (value : MetaValue)

structure Options where
  name : Option String
  skip : List String
  skipAll : Bool
  deriving DecidableEq

namespace Options

def default : Options := ⟨none, [], false⟩

/-- The options once one more argument is read. -/
def take (options : Options) : Meta → Except (List String) Options
  | .nameValue ["name"] (.str text) => .ok { options with name := some text }
  | .nameValue ["name"] .other => .error ["`name` expects a string literal"]
  | .list ["skip"] (.ok names) => .ok { options with skip := options.skip ++ names }
  | .list ["skip"] (.error error) => .error [error]
  | .path ["skip_all"] => .ok { options with skipAll := true }
  | _ => .error ["expected `name = \"...\"`, `skip(..)` or `skip_all`"]

/-- The arguments may not parse as a list of them. -/
def parse (args : Except String (List Meta)) : Except (List String) Options :=
  match args with
  | .error error => .error [error]
  | .ok args => args.foldlM Options.take default

end Options

def FnArg.name? : FnArg → Option String
  | .ident name => some name
  | _ => none

/-- An error for every name to skip that is no parameter. -/
def checkSkips (signature : Signature) (options : Options) : Except (List String) Unit :=
  let unknown := options.skip.filter fun skipped =>
    !(signature.inputs.filterMap FnArg.name?).contains skipped
  if unknown = [] then .ok ()
  else .error (unknown.map fun skipped => "no parameter named `" ++ skipped ++ "` to skip")

/-- The parameters a span is opened with. -/
def capturedFields (signature : Signature) (options : Options) : List String :=
  if options.skipAll then []
  else signature.inputs.filterMap fun argument =>
    match argument with
    | .ident name => if options.skip.contains name then none else some name
    | _ => none

/-- The span that the body is put inside. -/
structure Opened where
  name : String
  fields : List String
  deriving DecidableEq

/-- The item may be no function. -/
def tryExpand (args : Except String (List Meta)) (item : Except String Signature) :
    Except (List String) Opened :=
  match Options.parse args with
  | .error errors => .error errors
  | .ok options =>
      match item with
      | .error error => .error [error]
      | .ok signature =>
          match checkSkips signature options with
          | .error errors => .error errors
          | .ok () => .ok ⟨options.name.getD signature.ident, capturedFields signature options⟩

/-! ## Code -/

/-- A function as it is called: with the attribute and its arguments, or without. -/
structure Callee where
  signature : Signature
  marked : Option (Except String (List Meta))

/-- Code over a state `σ`, with values `α`; what it returns is `none` if it panics. A call goes on
with whatever its body returns, and so does a block that holds a span. -/
inductive Code (σ α υ : Type) : Type where
  | ret (result : Option α)
  | act (f : σ → σ × α) (k : α → Code σ α υ)
  | annotate (note : Note υ) (k : Code σ α υ)
  | span (name : String) (fields : Fields υ) (body : Code σ α υ) (k : Option α → Code σ α υ)
  | call (function : Callee) (args : List α) (body : Code σ α υ) (k : Option α → Code σ α υ)

variable {σ α υ η : Type}

/-- The value of a parameter, by its name. -/
def Signature.value (signature : Signature) (args : List α) (name : String) : Option α :=
  (signature.inputs.zip args).lookup (.ident name)

/-- What the fields of a span hold in a call. -/
def Opened.bind (opened : Opened) (toValue : α → υ) (signature : Signature) (args : List α) :
    Fields υ :=
  opened.fields.filterMap fun name =>
    (signature.value args name).map fun value => (name, toValue value)

/-- The span of a call whose function is expanded. -/
def Callee.opened (function : Callee) : Option Opened :=
  function.marked.bind fun args => (tryExpand args (.ok function.signature)).toOption

/-- The code with every attribute expanded. A function whose attribute is at fault stays as it
is. -/
def expand (toValue : α → υ) : Code σ α υ → Code σ α υ
  | .ret result => .ret result
  | .act f k => .act f fun value => expand toValue (k value)
  | .annotate note k => .annotate note (expand toValue k)
  | .span name fields body k =>
      .span name fields (expand toValue body) fun result => expand toValue (k result)
  | .call function args body k =>
      let bare : Callee := { function with marked := none }
      match function.opened with
      | some opened =>
          .call bare args (.span opened.name (opened.bind toValue function.signature args)
            (expand toValue body) .ret) fun result => expand toValue (k result)
      | none => .call bare args (expand toValue body) fun result => expand toValue (k result)

/-! ## As it is run -/

/-- What is read where a span opens or a note is made: whether tracing is on, what is drawn for
the span, and the time. -/
structure Reading (η : Type) where
  enabled : Bool
  id : SpanId
  traceId : TraceId
  enrichment : η
  now : ℕ

/-- A thread as it runs code: what it works on, its open spans, the records it has handed over,
the last first, and how much it has read. -/
structure Thread (σ υ η : Type) where
  user : σ
  stack : Stack υ η
  records : List (SpanRecord υ η)
  reads : ℕ

variable (read : ℕ → Reading η) (text : String → υ)

/-- `span!`, and what its guard owns. -/
def enter (name : String) (fields : Fields υ) (s : Thread σ υ η) :
    Option SpanId × Thread σ υ η :=
  let reading := read s.reads
  if reading.enabled then
    let (traceId, parent) := s.stack.inherit reading.traceId
    let opened := SpanState.opened traceId reading.id parent name fields reading.enrichment
      reading.now
    (some reading.id, { s with stack := opened :: s.stack, reads := s.reads + 1 })
  else (none, { s with reads := s.reads + 1 })

/-- The guard is dropped. -/
def close (guard : Option SpanId) (s : Thread σ υ η) : Thread σ υ η :=
  match guard with
  | none => s
  | some id =>
      let removed := s.stack.remove id
      { s with
        stack := removed.2
        records := (removed.1.map (·.finish (read s.reads).now)).toList ++ s.records
        reads := s.reads + 1 }

/-- Code as it is run; attributes do nothing any more. -/
def exec : Code σ α υ → Thread σ υ η → Option α × Thread σ υ η
  | .ret result, s => (result, s)
  | .act f k, s => exec (k (f s.user).2) { s with user := (f s.user).1 }
  | .annotate note k, s =>
      exec k { s with
        stack := s.stack.withCurrent (note.visit text (read s.reads).now)
        reads := s.reads + 1 }
  | .span name fields body k, s =>
      let entered := enter read name fields s
      let ended := exec body entered.2
      exec (k ended.1) (close read entered.1 ended.2)
  | .call _ _ body k, s =>
      let ended := exec body s
      exec (k ended.1) ended.2

/-! ## As it is written -/

/-- What code comes to as it is written: what it returns, what it works on, how much it has read,
the notes it makes on the span around it, and the records of the spans in it, the last first. -/
structure Meant (σ α υ η : Type) where
  result : Option α
  user : σ
  reads : ℕ
  notes : List (Note υ × ℕ)
  records : List (SpanRecord υ η)

/-- A span with notes made on it, the first first. -/
def noted (notes : List (Note υ × ℕ)) (span : SpanState υ η) : SpanState υ η :=
  notes.foldl (fun span made => made.1.visit text made.2 span) span

/-- The span that is opened in a reading, below `parent` or as a root. -/
def Reading.spanBelow (reading : Reading η) (parent : Option SpanContext) (name : String)
    (fields : Fields υ) : SpanState υ η :=
  SpanState.opened ((parent.map SpanContext.traceId).getD reading.traceId) reading.id
    (parent.map SpanContext.spanId) name fields reading.enrichment reading.now

namespace Meant

/-- What comes after code, put together with it. -/
def andThen (first : Meant σ α υ η) (later : Meant σ α υ η) : Meant σ α υ η :=
  { later with
    notes := first.notes ++ later.notes
    records := later.records ++ first.records }

/-- A block in a span of its own. -/
def within (parent : Option SpanContext) (name : String) (fields : Fields υ) (reads : ℕ)
    (body : Option SpanContext → ℕ → Meant σ α υ η) : Meant σ α υ η :=
  if (read reads).enabled then
    let opened := (read reads).spanBelow parent name fields
    let inner := body (some opened.context) (reads + 1)
    { inner with
      reads := inner.reads + 1
      notes := []
      records := (noted text inner.notes opened).finish (read inner.reads).now :: inner.records }
  else body parent (reads + 1)

end Meant

/-- What code means below a span of which `parent` is the context, if there is one: a call of a
function with the attribute is in a span, whose parent is the innermost around the call. -/
def meaning (toValue : α → υ) :
    Code σ α υ → Option SpanContext → σ → ℕ → Meant σ α υ η
  | .ret result, _, user, reads => ⟨result, user, reads, [], []⟩
  | .act f k, parent, user, reads => meaning toValue (k (f user).2) parent (f user).1 reads
  | .annotate note k, parent, user, reads =>
      let later := meaning toValue k parent user (reads + 1)
      { later with notes := (note, (read reads).now) :: later.notes }
  | .span name fields body k, parent, user, reads =>
      let first := Meant.within read text parent name fields reads fun inner reads =>
        meaning toValue body inner user reads
      first.andThen (meaning toValue (k first.result) parent first.user first.reads)
  | .call function args body k, parent, user, reads =>
      let first := match function.opened with
        | some opened => Meant.within read text parent opened.name
            (opened.bind toValue function.signature args) reads fun inner reads =>
              meaning toValue body inner user reads
        | none => meaning toValue body parent user reads
      first.andThen (meaning toValue (k first.result) parent first.user first.reads)

/-! ## The expansion means what is written -/

theorem noted_append (notes later : List (Note υ × ℕ)) (span : SpanState υ η) :
    noted text (notes ++ later) span = noted text later (noted text notes span) :=
  List.foldl_append

theorem context_visit (note : Note υ) (now : ℕ) (span : SpanState υ η) :
    (note.visit text now span).context = span.context := by
  cases note <;> rfl

theorem context_noted (notes : List (Note υ × ℕ)) (span : SpanState υ η) :
    (noted text notes span).context = span.context := by
  induction notes generalizing span with
  | nil => rfl
  | cons note notes ih => exact (ih _).trans (context_visit text note.1 note.2 span)

theorem currentContext_noted (notes : List (Note υ × ℕ)) (stack : Stack υ η) :
    (stack.withCurrent (noted text notes)).currentContext = stack.currentContext := by
  cases stack with
  | nil => rfl
  | cons span rest => exact congrArg some (context_noted text notes span)

theorem withCurrent_withCurrent (visit later : SpanState υ η → SpanState υ η)
    (stack : Stack υ η) :
    (stack.withCurrent visit).withCurrent later =
      stack.withCurrent fun span => later (visit span) := by
  cases stack <;> rfl

/-- A thread on which code of this meaning has run. -/
def Meant.on (m : Meant σ α υ η) (s : Thread σ υ η) : Option α × Thread σ υ η :=
  (m.result, ⟨m.user, s.stack.withCurrent (noted text m.notes), m.records ++ s.records, m.reads⟩)

theorem Meant.on_andThen (first later : Meant σ α υ η) (s : Thread σ υ η) :
    (first.andThen later).on text s = later.on text (first.on text s).2 := by
  have hstack : s.stack.withCurrent (noted text (first.notes ++ later.notes)) =
      (s.stack.withCurrent (noted text first.notes)).withCurrent (noted text later.notes) := by
    rw [withCurrent_withCurrent]
    exact congrArg s.stack.withCurrent (funext (noted_append text first.notes later.notes))
  simp only [Meant.on, Meant.andThen, hstack, List.append_assoc]

theorem enter_of_disabled {name : String} {fields : Fields υ} {s : Thread σ υ η}
    (h : (read s.reads).enabled = false) :
    enter read name fields s = (none, { s with reads := s.reads + 1 }) := by
  unfold enter
  dsimp only
  rw [h, if_neg Bool.false_ne_true]

theorem enter_of_enabled {name : String} {fields : Fields υ} {s : Thread σ υ η}
    (h : (read s.reads).enabled = true) :
    enter read name fields s = (some (read s.reads).id, { s with
      stack := (read s.reads).spanBelow s.stack.currentContext name fields :: s.stack
      reads := s.reads + 1 }) := by
  unfold enter Stack.inherit
  dsimp only
  rw [h, if_pos rfl]
  cases hcontext : s.stack.currentContext <;> rfl

theorem remove_top {id : SpanId} {span : SpanState υ η} (stack : Stack υ η)
    (hid : span.spanId = id) : Stack.remove (span :: stack) id = (some span, stack) := by
  have hfound : (span.spanId == id) = true := beq_iff_eq.mpr hid
  have hfind : (span :: stack).find? (·.spanId == id) = some span := List.find?_cons_of_pos hfound
  have herase : (span :: stack).eraseP (·.spanId == id) = stack := List.eraseP_cons_of_pos hfound
  rw [Stack.remove, hfind, herase]

theorem withCurrent_noted_nil (stack : Stack υ η) : stack.withCurrent (noted text []) = stack := by
  cases stack <;> rfl

/-- A block in a span takes its own span off again, which is on top with the notes made in it,
whatever the block returns. -/
theorem Meant.on_within {name : String} {fields : Fields υ} {s : Thread σ υ η}
    {body : Option SpanContext → ℕ → Meant σ α υ η} {run : Option α × Thread σ υ η}
    (hrun : run = (body (enter read name fields s).2.stack.currentContext
      (enter read name fields s).2.reads).on text (enter read name fields s).2) :
    (run.1, close read (enter read name fields s).1 run.2) =
      (Meant.within read text s.stack.currentContext name fields s.reads body).on text s := by
  cases henabled : (read s.reads).enabled with
  | false =>
      rw [enter_of_disabled read henabled] at hrun ⊢
      rw [hrun, Meant.within, henabled]
      rfl
  | true =>
      rw [enter_of_enabled read henabled] at hrun ⊢
      rw [hrun, Meant.within, henabled, if_pos rfl]
      have hid : ∀ notes : List (Note υ × ℕ), (noted text notes
          ((read s.reads).spanBelow s.stack.currentContext name fields)).spanId =
            (read s.reads).id := fun notes =>
        congrArg SpanContext.spanId (context_noted text notes _)
      have hnoted : ∀ notes : List (Note υ × ℕ), Stack.withCurrent
          ((read s.reads).spanBelow s.stack.currentContext name fields :: s.stack)
          (noted text notes) = noted text notes
            ((read s.reads).spanBelow s.stack.currentContext name fields) :: s.stack :=
        fun _ => rfl
      simp only [Meant.on, close, hnoted, remove_top s.stack (hid _), withCurrent_noted_nil]
      rfl

theorem user_enter (name : String) (fields : Fields υ) (s : Thread σ υ η) :
    (enter read name fields s).2.user = s.user := by
  cases henabled : (read s.reads).enabled with
  | false => rw [enter_of_disabled read henabled]
  | true => rw [enter_of_enabled read henabled]

/-- What code and what comes after it mean, one after the other. -/
abbrev Meaning (σ α υ η : Type) := Option SpanContext → σ → ℕ → Meant σ α υ η

/-- Code is run as it is meant. -/
def RunsAs (code : Code σ α υ) (m : Meaning σ α υ η) : Prop :=
  ∀ s : Thread σ υ η, exec read text code s =
    (m s.stack.currentContext s.user s.reads).on text s

variable {read text}

theorem RunsAs.andThen {k : Option α → Code σ α υ} {later : Option α → Meaning σ α υ η}
    (hk : ∀ result, RunsAs read text (k result) (later result)) {s : Thread σ υ η}
    {first : Meant σ α υ η} {ended : Option α × Thread σ υ η} (hended : ended = first.on text s) :
    exec read text (k ended.1) ended.2 =
      (first.andThen (later first.result s.stack.currentContext first.user first.reads)).on text
        s := by
  have hcontext : (first.on text s).2.stack.currentContext = s.stack.currentContext :=
    currentContext_noted text first.notes s.stack
  rw [hended, hk, hcontext, Meant.on_andThen]
  rfl

theorem RunsAs.span {body : Code σ α υ} {k : Option α → Code σ α υ} {m : Meaning σ α υ η}
    {later : Option α → Meaning σ α υ η} (hbody : RunsAs read text body m)
    (hk : ∀ result, RunsAs read text (k result) (later result)) (name : String)
    (fields : Fields υ) :
    RunsAs read text (.span name fields body k) fun parent user reads =>
      let first := Meant.within read text parent name fields reads fun inner reads =>
        m inner user reads
      first.andThen (later first.result parent first.user first.reads) := by
  intro s
  refine RunsAs.andThen hk (Meant.on_within read text ?_)
  rw [hbody, user_enter]

theorem RunsAs.call {body : Code σ α υ} {k : Option α → Code σ α υ} {m : Meaning σ α υ η}
    {later : Option α → Meaning σ α υ η} (hbody : RunsAs read text body m)
    (hk : ∀ result, RunsAs read text (k result) (later result)) (function : Callee)
    (args : List α) :
    RunsAs read text (.call function args body k) fun parent user reads =>
      let first := m parent user reads
      first.andThen (later first.result parent first.user first.reads) :=
  fun s => RunsAs.andThen hk (hbody s)

/-- The expanded code is run as the code is meant. -/
theorem runsAs_expand (toValue : α → υ) (code : Code σ α υ) :
    RunsAs read text (expand toValue code) (meaning read text toValue code) := by
  induction code with
  | ret result =>
      intro s
      simp only [expand, exec, meaning, Meant.on, withCurrent_noted_nil, List.nil_append]
  | act f k ih => exact fun s => ih (f s.user).2 { s with user := (f s.user).1 }
  | annotate note k ih =>
      intro s
      have hlater := ih { s with
        stack := s.stack.withCurrent (note.visit text (read s.reads).now)
        reads := s.reads + 1 }
      have hcontext : (s.stack.withCurrent (note.visit text (read s.reads).now)).currentContext =
          s.stack.currentContext :=
        currentContext_noted text [(note, (read s.reads).now)] s.stack
      dsimp only at hlater
      rw [hcontext] at hlater
      refine hlater.trans ?_
      simp only [Meant.on, meaning, withCurrent_withCurrent]
      rfl
  | span name fields body k ihbody ih => exact ihbody.span ih name fields
  | call function args body k ihbody ih =>
      cases hopened : function.opened with
      | none =>
          simp only [expand, meaning, hopened]
          exact ihbody.call ih _ args
      | some opened =>
          simp only [expand, meaning, hopened]
          have hspan : RunsAs read text (.span opened.name
              (opened.bind toValue function.signature args) (expand toValue body) .ret)
              fun parent user reads => Meant.within read text parent opened.name
                (opened.bind toValue function.signature args) reads fun inner reads =>
                  meaning read text toValue body inner user reads := by
            intro s
            refine Meant.on_within read text ?_
            rw [ihbody, user_enter]
          exact hspan.call ih _ args

/-! ## Tracing aside -/

/-- What code does to what it works on, and what it returns, were there no tracing. -/
def eval : Code σ α υ → σ → Option α × σ
  | .ret result, user => (result, user)
  | .act f k, user => eval (k (f user).2) (f user).1
  | .annotate _ k, user => eval k user
  | .span _ _ body k, user => eval (k (eval body user).1) (eval body user).2
  | .call _ _ body k, user => eval (k (eval body user).1) (eval body user).2

theorem user_close (guard : Option SpanId) (s : Thread σ υ η) :
    (close read guard s).user = s.user := by
  cases guard <;> rfl

theorem eval_exec (code : Code σ α υ) (s : Thread σ υ η) :
    ((exec read text code s).1, (exec read text code s).2.user) = eval code s.user := by
  induction code generalizing s with
  | ret result => rfl
  | act f k ih => exact ih (f s.user).2 { s with user := (f s.user).1 }
  | annotate note k ih => exact ih _
  | span name fields body k ihbody ih =>
      have hbody := ihbody (enter read name fields s).2
      rw [user_enter] at hbody
      have hrest := ih (exec read text body (enter read name fields s).2).1
        (close read (enter read name fields s).1
          (exec read text body (enter read name fields s).2).2)
      rw [user_close] at hrest
      rw [eval, ← hbody]
      exact hrest
  | call function args body k ihbody ih =>
      rw [eval, ← ihbody s]
      exact ih _ _

theorem eval_expand (toValue : α → υ) (code : Code σ α υ) (user : σ) :
    eval (expand toValue code) user = eval code user := by
  induction code generalizing user with
  | ret result => rfl
  | act f k ih => exact ih _ _
  | annotate note k ih => exact ih _
  | span name fields body k ihbody ih =>
      simp only [expand, eval, ihbody]
      exact ih _ _
  | call function args body k ihbody ih =>
      cases hopened : function.opened <;> simp only [expand, hopened, eval, ihbody]
      · exact ih _ _
      · exact ih _ _

/-- Whenever tracing goes on and off, expanded code returns, or panics, and does what the code as
it stands does. It leaves the thread's spans as they were but for the notes made on the innermost,
and what it records are the calls of functions with the attribute, each below the one around it. -/
theorem expand_preserves (read : ℕ → Reading η) (text : String → υ) (toValue : α → υ)
    (code : Code σ α υ) (s : Thread σ υ η) :
    (exec read text (expand toValue code) s).1 = (exec read text code s).1 ∧
    (exec read text (expand toValue code) s).2.user = (exec read text code s).2.user ∧
    (exec read text (expand toValue code) s).2.stack =
      s.stack.withCurrent (noted text (meaning read text toValue code s.stack.currentContext
        s.user s.reads).notes) ∧
    (exec read text (expand toValue code) s).2.records =
      (meaning read text toValue code s.stack.currentContext s.user s.reads).records ++
        s.records := by
  have hsame : ((exec read text (expand toValue code) s).1,
      (exec read text (expand toValue code) s).2.user) =
      ((exec read text code s).1, (exec read text code s).2.user) := by
    rw [eval_exec, eval_exec, eval_expand]
  obtain ⟨hresult, huser⟩ := Prod.mk.inj hsame
  refine ⟨hresult, huser, ?_, ?_⟩
  · rw [runsAs_expand]
    rfl
  · rw [runsAs_expand]
    rfl

/-! ## What is captured -/

/-- The values of the parameters that are neither skipped nor without a name of their own. -/
def Callee.SameCaptured (function : Callee) (args args' : List α) : Prop :=
  ∀ marked options, function.marked = some marked → Options.parse marked = .ok options →
    options.skipAll = false → ∀ name, name ∉ options.skip →
      function.signature.value args name = function.signature.value args' name

/-- Code that is the same but for arguments that are not captured. -/
inductive Alike : Code σ α υ → Code σ α υ → Prop
  | ret (result : Option α) : Alike (.ret result) (.ret result)
  | act (f : σ → σ × α) {k k' : α → Code σ α υ} (hk : ∀ value, Alike (k value) (k' value)) :
      Alike (.act f k) (.act f k')
  | annotate (note : Note υ) {k k' : Code σ α υ} (hk : Alike k k') :
      Alike (.annotate note k) (.annotate note k')
  | span (name : String) (fields : Fields υ) {body body' : Code σ α υ}
      {k k' : Option α → Code σ α υ} (hbody : Alike body body')
      (hk : ∀ result, Alike (k result) (k' result)) :
      Alike (.span name fields body k) (.span name fields body' k')
  | call (function : Callee) {args args' : List α} {body body' : Code σ α υ}
      {k k' : Option α → Code σ α υ} (hargs : function.SameCaptured args args')
      (hbody : Alike body body') (hk : ∀ result, Alike (k result) (k' result)) :
      Alike (.call function args body k) (.call function args' body' k')

theorem mem_capturedFields {signature : Signature} {options : Options} {name : String} :
    name ∈ capturedFields signature options ↔
      options.skipAll = false ∧ .ident name ∈ signature.inputs ∧ name ∉ options.skip := by
  unfold capturedFields
  cases hskipAll : options.skipAll with
  | true => simp
  | false =>
      rw [if_neg Bool.false_ne_true, List.mem_filterMap]
      constructor
      · rintro ⟨argument, hargument, hname⟩
        cases argument with
        | ident captured =>
            obtain ⟨hskip, rfl⟩ : captured ∉ options.skip ∧ captured = name := by
              simpa using hname
            exact ⟨rfl, hargument, hskip⟩
        | _ => cases hname
      · rintro ⟨_, hinput, hskip⟩
        exact ⟨.ident name, hinput, if_neg fun h => hskip (List.contains_iff_mem.mp h)⟩

theorem mem_names {signature : Signature} {name : String} :
    name ∈ signature.inputs.filterMap FnArg.name? ↔ .ident name ∈ signature.inputs := by
  rw [List.mem_filterMap]
  constructor
  · rintro ⟨argument, hargument, hname⟩
    cases argument with
    | ident other =>
        obtain rfl := Option.some.inj hname
        exact hargument
    | _ => cases hname
  · exact fun hinput => ⟨.ident name, hinput, rfl⟩

/-- All names to skip that are no parameters are reported, and none goes unreported. -/
theorem tryExpand_of_options {args : Except String (List Meta)} {signature : Signature}
    {options : Options} (h : Options.parse args = .ok options) :
    tryExpand args (.ok signature) =
      if options.skip.filter (fun skipped => .ident skipped ∉ signature.inputs) = [] then
        .ok ⟨options.name.getD signature.ident, capturedFields signature options⟩
      else
        .error ((options.skip.filter fun skipped => .ident skipped ∉ signature.inputs).map
          fun skipped => "no parameter named `" ++ skipped ++ "` to skip") := by
  have hunknown : (options.skip.filter fun skipped =>
      !(signature.inputs.filterMap FnArg.name?).contains skipped) =
        options.skip.filter fun skipped => .ident skipped ∉ signature.inputs := by
    refine List.filter_congr fun skipped _ => ?_
    rw [Bool.eq_iff_iff, Bool.not_eq_true', decide_eq_true_iff, ← mem_names,
      ← Bool.not_eq_true, List.contains_iff_mem]
  unfold tryExpand
  simp only [h, checkSkips, hunknown]
  by_cases hnone : options.skip.filter
      (fun skipped => decide (FnArg.ident skipped ∉ signature.inputs)) = []
  · rw [if_pos hnone, if_pos hnone]
  · rw [if_neg hnone, if_neg hnone]

theorem bind_congr {function : Callee} {opened : Opened} {args args' : List α}
    (toValue : α → υ) (h : function.SameCaptured args args')
    (hopened : function.opened = some opened) :
    opened.bind toValue function.signature args = opened.bind toValue function.signature args' := by
  obtain ⟨marked, hmarked, hexpand⟩ := Option.bind_eq_some_iff.mp hopened
  have hok : tryExpand marked (.ok function.signature) = .ok opened := by
    cases hresult : tryExpand marked (.ok function.signature) with
    | error errors =>
        rw [hresult] at hexpand
        cases hexpand
    | ok other =>
        rw [hresult] at hexpand
        rw [Option.some.inj hexpand]
  cases hoptions : Options.parse marked with
  | error errors =>
      rw [tryExpand, hoptions] at hok
      cases hok
  | ok options =>
      rw [tryExpand_of_options hoptions] at hok
      split at hok
      · refine List.filterMap_congr fun name hname => ?_
        rw [← Except.ok.inj hok] at hname
        obtain ⟨hskipAll, _, hskip⟩ := mem_capturedFields.mp hname
        rw [h marked options hmarked hoptions hskipAll name hskip]
      · cases hok

/-- Arguments that are skipped, or have no name of their own, make no difference to anything that
is recorded; and a name to skip that is no parameter fails the expansion, with an error for each. -/
theorem skipped_unrecorded (read : ℕ → Reading η) (text : String → υ) (toValue : α → υ)
    {code code' : Code σ α υ} (h : Alike code code') :
    (∀ s : Thread σ υ η, exec read text (expand toValue code) s =
      exec read text (expand toValue code') s) ∧
    ∀ args signature options, Options.parse args = .ok options →
      tryExpand args (.ok signature) =
        if options.skip.filter (fun skipped => .ident skipped ∉ signature.inputs) = [] then
          .ok ⟨options.name.getD signature.ident, capturedFields signature options⟩
        else
          .error ((options.skip.filter fun skipped => .ident skipped ∉ signature.inputs).map
            fun skipped => "no parameter named `" ++ skipped ++ "` to skip") := by
  refine ⟨fun s => ?_, fun args signature options => tryExpand_of_options⟩
  induction h generalizing s with
  | ret result => rfl
  | act f hk ih => exact ih _ _
  | annotate note hk ih => exact ih _
  | span name fields hbody hk ihbody ih =>
      simp only [expand, exec, ihbody]
      exact ih _ _
  | call function hargs hbody hk ihbody ih =>
      cases hopened : function.opened with
      | none =>
          simp only [expand, hopened, exec, ihbody]
          exact ih _ _
      | some opened =>
          simp only [expand, hopened, exec, ihbody, bind_congr toValue hargs hopened]
          exact ih _ _

/-- A login with the password skipped, as it is called. -/
def login (password : String) : Code (List String) String String :=
  .call ⟨⟨"login", [.ident "user", .ident "password"]⟩,
      some (.ok [.list ["skip"] (.ok ["password"])])⟩
    ["ann", password]
    (.act (fun users => ("ann" :: users, "welcome")) fun value => .ret (some value)) .ret

/-- What is recorded of a login. -/
def recorded (password : String) : List (SpanRecord String Unit) :=
  (exec (fun n => ⟨true, 0, 0, (), n⟩) id (expand id (login password)) ⟨[], [], [], 0⟩).2.records

theorem skipped_unrecorded_login : recorded "hunter2" = recorded "swordfish" ∧
    (recorded "swordfish").map (·.attributes) = [[("user", "ann")]] := by
  have halike : Alike (login "hunter2") (login "swordfish") := by
    refine .call _ ?_ (.act _ fun _ => .ret _) fun _ => .ret _
    rintro _ options ⟨⟩ hoptions _ name hname
    obtain rfl : (⟨none, ["password"], false⟩ : Options) = options := Except.ok.inj hoptions
    have hother : (FnArg.ident name == FnArg.ident "password") = false := by
      rw [beq_eq_false_iff_ne]
      exact fun heq => hname (List.mem_singleton.mpr (FnArg.ident.inj heq))
    simp only [Signature.value, List.zip_cons_cons, List.zip_nil_right, List.lookup_cons, hother]
  have hsame := (skipped_unrecorded (fun n => (⟨true, 0, 0, (), n⟩ : Reading Unit)) id id halike).1
    ⟨[], [], [], 0⟩
  exact ⟨congrArg (fun ran => ran.2.records) hsame, rfl⟩

end Instrument

end O11y

end RustSak
