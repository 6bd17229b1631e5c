import RustSak.Library.Machine
import RustSak.O11y.Endpoint
import RustSak.O11y.Otlp

/-!
# Starting and stopping

Telemetry is started once in a process. The first call of `init` that gets past its checks
claims the process, starts the export thread and the location lookup, publishes the pipeline,
and opens the gates last; a thread that cannot start gives the claim back. A call of `shutdown`
closes the gates first. The export thread closes them too, whatever it ends of.
-/

namespace RustSak

namespace O11y

open Library

namespace Lifecycle

/-! ## Calls of `init` -/

/-- What of a configuration decides what is started. The headers stand as they are visited. -/
structure Config where
  endpoint : List Char
  headers : List (String × String)
  minLevel : Level
  enabled : Bool
  geolocation : Bool

inductive O11yError where
  | invalidEndpoint (endpoint : List Char) (reason : String)
  | invalidHeader (name : String)
  | alreadyInitialized
  | io
  deriving DecidableEq

/-- What is asked of a text before it is sent: why an endpoint is no URL, and whether a header
can be sent. -/
structure Rules where
  refuses : List Char → Option String
  sendable : String × String → Bool

def validateEndpoint (rules : Rules) (endpoint : List Char) : Option O11yError :=
  (rules.refuses endpoint).map (.invalidEndpoint (redactEndpoint endpoint))

def validateHeaders (rules : Rules) (headers : List (String × String)) : Option O11yError :=
  (headers.find? fun header => !rules.sendable header).map fun header => .invalidHeader header.1

def validate (rules : Rules) (config : Config) : Option O11yError :=
  (validateEndpoint rules config.endpoint).or (validateHeaders rules config.headers)

/-- Where a call of `init` is. -/
inductive Init where
  | idle
  | claiming (config : Config)
  | spawning (config : Config)
  | locating (config : Config)
  | publishing (config : Config)
  | opening (config : Config)
  | tracing (config : Config)
  | returned (error : Option O11yError)

/-- How far a call that holds the claim has come. -/
def Init.stage : Init → ℕ
  | .idle => 0
  | .claiming _ => 0
  | .spawning _ => 1
  | .locating _ => 2
  | .publishing _ => 3
  | .opening _ => 4
  | .tracing _ => 5
  | .returned (some _) => 0
  | .returned none => 6

/-- The configuration of a call that has come past the switch. -/
def Init.config? : Init → Option Config
  | .spawning config => some config
  | .locating config => some config
  | .publishing config => some config
  | .opening config => some config
  | .tracing config => some config
  | _ => none

/-! ## The process -/

/-- The export thread of a pipeline. -/
inductive Worker where
  | none
  | running
  | closing
  | stopped
  deriving DecidableEq

/-- Where a call of `shutdown` is. -/
inductive Shutdown where
  | idle
  | closing
  | looking
  | taking
  | joining
  | returned
  deriving DecidableEq

/-- The globals, the pipelines, each under the number of the call that made it, and the callers.
`pipeline` is what was published, `lookups` the lookups that were started. -/
structure Process where
  initialized : Bool
  pipeline : Option (ℕ × Config)
  handle : Bool
  threshold : Option Level
  tracing : Bool
  workers : ℕ → Worker
  asked : ℕ → Bool
  lookups : List (ℕ × Config)
  inits : ℕ → Init
  shutdowns : ℕ → Shutdown

inductive Event where
  | call (k : ℕ) (config : Config)
  | claim (k : ℕ)
  | spawn (k : ℕ) (starts : Bool)
  | locate (k : ℕ) (starts : Bool)
  | publish (k : ℕ)
  | openThreshold (k : ℕ)
  | openTracing (k : ℕ)
  | shutdown (j : ℕ)
  | closeTracing (j : ℕ)
  | look (j : ℕ)
  | take (j : ℕ)
  | join (j : ℕ)
  /-- The export thread finds the flag and leaves its loop. -/
  | exit (k : ℕ)
  | panic (k : ℕ)
  | closed (k : ℕ)

namespace Process

def new : Process where
  initialized := false
  pipeline := none
  handle := false
  threshold := none
  tracing := false
  workers _ := .none
  asked _ := false
  lookups := []
  inits _ := .idle
  shutdowns _ := .idle

/-- `gate::enabled`. -/
def admits (s : Process) (level : Level) : Bool :=
  s.threshold.any fun threshold => Otlp.severityNumber threshold ≤ Otlp.severityNumber level

/-- `running`, which decides what `is_enabled`, `session_id` and `machine_id` answer. -/
def running (s : Process) : Option (ℕ × Config) := s.pipeline.filter fun _ => s.tracing

def Enabled (s : Process) : Event → Prop
  | .call k _ => s.inits k = .idle
  | .claim k => ∃ config, s.inits k = .claiming config
  | .spawn k _ => ∃ config, s.inits k = .spawning config
  | .locate k _ => ∃ config, s.inits k = .locating config
  | .publish k => ∃ config, s.inits k = .publishing config
  | .openThreshold k => ∃ config, s.inits k = .opening config
  | .openTracing k => ∃ config, s.inits k = .tracing config
  | .shutdown j => s.shutdowns j = .idle
  | .closeTracing j => s.shutdowns j = .closing
  | .look j => s.shutdowns j = .looking
  | .take j => s.shutdowns j = .taking
  | .join j => s.shutdowns j = .joining ∧
      ∃ k config, s.pipeline = some (k, config) ∧ s.workers k = .stopped
  | .exit k => s.workers k = .running ∧ s.asked k = true
  | .panic k => s.workers k = .running
  | .closed k => s.workers k = .closing

def goto (s : Process) (k : ℕ) (init : Init) : Process :=
  { s with inits := Function.update s.inits k init }

def withShutdown (s : Process) (j : ℕ) (shutdown : Shutdown) : Process :=
  { s with shutdowns := Function.update s.shutdowns j shutdown }

def withWorker (s : Process) (k : ℕ) (worker : Worker) : Process :=
  { s with workers := Function.update s.workers k worker }

/-- Publishes a pipeline, unless there is one. -/
def set (s : Process) (k : ℕ) (config : Config) : Process :=
  match s.pipeline with
  | some _ => s
  | none => { s with pipeline := some (k, config), handle := true }

def next (rules : Rules) (s : Process) : Event → Process
  | .call k config => s.goto k <|
      match validate rules config with
      | some error => .returned (some error)
      | none => .claiming config
  | .claim k =>
      match s.inits k with
      | .claiming config =>
          if s.initialized then s.goto k (.returned (some .alreadyInitialized))
          else if config.enabled then { s.goto k (.spawning config) with initialized := true }
          else { s.goto k (.returned none) with initialized := true }
      | _ => s
  | .spawn k starts =>
      match s.inits k with
      | .spawning config =>
          if starts then (s.goto k (.locating config)).withWorker k .running
          else { s.goto k (.returned (some .io)) with initialized := false }
      | _ => s
  | .locate k starts =>
      match s.inits k with
      | .locating config =>
          if config.geolocation && starts then
            { s.goto k (.publishing config) with lookups := (k, config) :: s.lookups }
          else s.goto k (.publishing config)
      | _ => s
  | .publish k =>
      match s.inits k with
      | .publishing config => (s.goto k (.opening config)).set k config
      | _ => s
  | .openThreshold k =>
      match s.inits k with
      | .opening config =>
          { s.goto k (.tracing config) with threshold := some config.minLevel }
      | _ => s
  | .openTracing k => { s.goto k (.returned none) with tracing := true }
  | .shutdown j => { s.withShutdown j .closing with threshold := none }
  | .closeTracing j => { s.withShutdown j .looking with tracing := false }
  | .look j =>
      match s.pipeline with
      | none => s.withShutdown j .returned
      | some (k, _) =>
          { s.withShutdown j .taking with asked := Function.update s.asked k true }
  | .take j =>
      if s.handle then { s.withShutdown j .joining with handle := false }
      else s.withShutdown j .returned
  | .join j => s.withShutdown j .returned
  | .exit k => { s.withWorker k .closing with threshold := none }
  | .panic k => { s.withWorker k .closing with threshold := none }
  | .closed k => { s.withWorker k .stopped with tracing := false }

def machine (rules : Rules) : Machine Process Event :=
  .guarded (· = new) Enabled (next rules)

/-! ## The invariant -/

/-- At most one call holds the claim, and it is held while the flag is up. -/
structure Claims (s : Process) : Prop where
  claimed : s.initialized = true ↔ ∃ k, 0 < (s.inits k).stage
  alone : ∀ k k', 0 < (s.inits k).stage → 0 < (s.inits k').stage → k = k'
  enabled : ∀ k config, (s.inits k).config? = some config → config.enabled = true

structure Inv (s : Process) : Prop where
  claims : Claims s
  /-- Only a call that has come so far has a thread. -/
  started : ∀ k, s.workers k ≠ .none → 2 ≤ (s.inits k).stage
  spawned : ∀ k config, (s.inits k).config? = some config → 2 ≤ (s.inits k).stage →
    s.workers k ≠ .none
  published : ∀ k config, s.pipeline = some (k, config) →
    4 ≤ (s.inits k).stage ∧ s.workers k ≠ .none
  opening : ∀ k config, (s.inits k).config? = some config → 4 ≤ (s.inits k).stage →
    s.pipeline = some (k, config)
  threshold : ∀ level, s.threshold = some level →
    ∃ k config, s.pipeline = some (k, config) ∧ config.minLevel = level
  tracing : s.tracing = true → ∃ k config, s.pipeline = some (k, config)
  located : s.lookups = [] ∨ ∃ k config, s.lookups = [(k, config)] ∧
    3 ≤ (s.inits k).stage ∧ config.enabled = true ∧ config.geolocation = true
  asked : ∀ j, s.shutdowns j = .taking ∨ s.shutdowns j = .joining →
    ∃ k config, s.pipeline = some (k, config) ∧ s.asked k = true

theorem inits_goto (s : Process) (k : ℕ) (init : Init) (k' : ℕ) :
    (s.goto k init).inits k' = if k' = k then init else s.inits k' :=
  Function.update_apply ..

theorem shutdowns_withShutdown (s : Process) (j : ℕ) (shutdown : Shutdown) (j' : ℕ) :
    (s.withShutdown j shutdown).shutdowns j' = if j' = j then shutdown else s.shutdowns j' :=
  Function.update_apply ..

theorem workers_withWorker (s : Process) (k : ℕ) (worker : Worker) (k' : ℕ) :
    (s.withWorker k worker).workers k' = if k' = k then worker else s.workers k' :=
  Function.update_apply ..

section Steps

variable {s s' : Process} {k : ℕ} {init : Init}

/-- One call goes on, and the others do not hold the claim if it does. -/
theorem Claims.goto (h : Claims s)
    (hinits : ∀ k', s'.inits k' = if k' = k then init else s.inits k')
    (hothers : 0 < init.stage → ∀ k', k' ≠ k → (s.inits k').stage = 0)
    (hclaimed : s'.initialized = true ↔
      0 < init.stage ∨ ∃ k', k' ≠ k ∧ 0 < (s.inits k').stage)
    (henabled : ∀ config, init.config? = some config → config.enabled = true) : Claims s' := by
  refine ⟨hclaimed.trans ⟨?_, ?_⟩, fun i j hi hj => ?_, fun i config hi => ?_⟩
  · rintro (hpos | ⟨k', hne, hpos⟩)
    · exact ⟨k, by rwa [hinits, if_pos rfl]⟩
    · exact ⟨k', by rwa [hinits, if_neg hne]⟩
  · rintro ⟨k', hpos⟩
    rw [hinits] at hpos
    split at hpos
    · exact .inl hpos
    · rename_i hne
      exact .inr ⟨k', hne, hpos⟩
  · rw [hinits] at hi hj
    by_cases hik : i = k
    · by_cases hjk : j = k
      · rw [hik, hjk]
      · rw [if_pos hik] at hi
        rw [if_neg hjk, hothers hi j hjk] at hj
        cases hj
    · rw [if_neg hik] at hi
      by_cases hjk : j = k
      · rw [if_pos hjk] at hj
        rw [hothers hj i hik] at hi
        cases hi
      · rw [if_neg hjk] at hj
        exact h.alone i j hi hj
  · rw [hinits] at hi
    split at hi
    · exact henabled config hi
    · exact h.enabled i config hi

/-- The call that holds the claim goes on with it. -/
theorem Claims.advance (h : Claims s)
    (hinits : ∀ k', s'.inits k' = if k' = k then init else s.inits k')
    (hinitialized : s'.initialized = s.initialized) (hpos : 0 < (s.inits k).stage)
    (hinit : 0 < init.stage)
    (hconfig : ∀ config, init.config? = some config → (s.inits k).config? = some config) :
    Claims s' := by
  refine h.goto hinits (fun _ k' hne => ?_) ?_ fun config hi =>
    h.enabled k config (hconfig config hi)
  · by_contra hother
    exact hne (h.alone k' k (Nat.pos_of_ne_zero hother) hpos)
  · rw [hinitialized, h.claimed]
    exact ⟨fun _ => .inl hinit, fun _ => ⟨k, hpos⟩⟩

theorem stage_le_goto (hinits : ∀ k', s'.inits k' = if k' = k then init else s.inits k')
    (hle : (s.inits k).stage ≤ init.stage) (k' : ℕ) :
    (s.inits k').stage ≤ (s'.inits k').stage := by
  rw [hinits]
  split
  · rename_i heq
    rwa [heq]
  · exact Nat.le_refl _

/-- A call goes on, and nothing else changes but the flag. -/
theorem Inv.goto (h : Inv s) (initialized : Bool) (hle : (s.inits k).stage ≤ init.stage)
    (hclaims : Claims { s.goto k init with initialized := initialized })
    (hspawned : ∀ config, init.config? = some config → 2 ≤ init.stage → s.workers k ≠ .none)
    (hopening : ∀ config, init.config? = some config → 4 ≤ init.stage →
      s.pipeline = some (k, config)) :
    Inv { s.goto k init with initialized := initialized } := by
  have hinits := inits_goto s k init
  have hmono : ∀ k', (s.inits k').stage ≤ ((s.goto k init).inits k').stage :=
    stage_le_goto hinits hle
  refine ⟨hclaims, fun k' hk' => (h.started k' hk').trans (hmono k'), fun k' config hi hstage => ?_,
    fun k' config hp => ?_, fun k' config hi hstage => ?_, h.threshold, h.tracing, ?_, h.asked⟩
  · change ((s.goto k init).inits k').config? = some config at hi
    change 2 ≤ ((s.goto k init).inits k').stage at hstage
    rw [hinits] at hi hstage
    split at hi
    · rename_i heq
      rw [if_pos heq] at hstage
      rw [heq]
      exact hspawned config hi hstage
    · rename_i hne
      rw [if_neg hne] at hstage
      exact h.spawned k' config hi hstage
  · have hold := h.published k' config hp
    exact ⟨hold.1.trans (hmono k'), hold.2⟩
  · change ((s.goto k init).inits k').config? = some config at hi
    change 4 ≤ ((s.goto k init).inits k').stage at hstage
    rw [hinits] at hi hstage
    split at hi
    · rename_i heq
      rw [if_pos heq] at hstage
      rw [heq]
      exact hopening config hi hstage
    · rename_i hne
      rw [if_neg hne] at hstage
      exact h.opening k' config hi hstage
  · rcases h.located with hnone | ⟨k', config, hone, hstage, hboth⟩
    · exact .inl hnone
    · exact .inr ⟨k', config, hone, hstage.trans (hmono k'), hboth⟩

theorem Inv.not_initialized (h : Inv s) (hfree : s.initialized = false) (k : ℕ) :
    (s.inits k).stage = 0 := by
  by_contra hpos
  rw [h.claims.claimed.mpr ⟨k, Nat.pos_of_ne_zero hpos⟩] at hfree
  cases hfree

/-- A call comes to an end, or to the switch, without the claim. -/
theorem Inv.pass (h : Inv s) (hk : (s.inits k).stage = 0) (hinit : init.stage = 0)
    (hconfig : init.config? = none) : Inv (s.goto k init) := by
  refine h.goto s.initialized (by rw [hk, hinit]) (h.claims.goto (inits_goto s k init)
    (fun hpos => ?_) ?_ fun config hi => ?_) (fun config hi => ?_) fun config hi => ?_
  · rw [hinit] at hpos
    cases hpos
  · refine h.claims.claimed.trans ⟨fun ⟨k', hpos⟩ => .inr ⟨k', fun heq => ?_, hpos⟩, ?_⟩
    · rw [heq, hk] at hpos
      cases hpos
    · rintro (hpos | ⟨k', _, hpos⟩)
      · rw [hinit] at hpos
        cases hpos
      · exact ⟨k', hpos⟩
  · rw [hconfig] at hi
    cases hi
  · rw [hconfig] at hi
    cases hi
  · rw [hconfig] at hi
    cases hi

/-- A call takes the claim. -/
theorem Inv.claim (h : Inv s) (hfree : s.initialized = false) (hinit : 0 < init.stage)
    (hfirst : ∀ config, init.config? = some config →
      config.enabled = true ∧ init.stage = 1) :
    Inv { s.goto k init with initialized := true } := by
  have hnone := h.not_initialized hfree
  refine h.goto true (by rw [hnone]; exact Nat.zero_le _) (h.claims.goto (inits_goto s k init)
    (fun _ k' _ => hnone k') (iff_of_true rfl (.inl hinit))
    fun config hi => (hfirst config hi).1) (fun config hi hstage => ?_) fun config hi hstage => ?_
  · rw [(hfirst config hi).2] at hstage
    omega
  · rw [(hfirst config hi).2] at hstage
    omega

variable {config : Config}

/-- The thread does not start, and the claim is given back. -/
theorem Inv.release (h : Inv s) (hk : s.inits k = .spawning config) :
    Inv { s.goto k (.returned (some .io)) with initialized := false } := by
  have hpos : 0 < (s.inits k).stage := by
    rw [hk]
    exact Nat.one_pos
  have hothers : ∀ k', k' ≠ k → (s.inits k').stage = 0 := by
    intro k' hne
    by_contra hother
    exact hne (h.claims.alone k' k (Nat.pos_of_ne_zero hother) hpos)
  have hle : ∀ k', (s.inits k').stage ≤ 1 := by
    intro k'
    by_cases heq : k' = k
    · rw [heq, hk]
      exact Nat.le_refl 1
    · rw [hothers k' heq]
      exact Nat.zero_le 1
  have hinits := inits_goto s k (.returned (some .io))
  refine ⟨h.claims.goto hinits (fun hinit => absurd hinit (Nat.lt_irrefl 0)) ?_ ?_,
    fun k' hk' => ?_, fun k' config' hi hstage => ?_, fun k' config' hp => ?_,
    fun k' config' hi hstage => ?_, h.threshold, h.tracing, ?_, h.asked⟩
  · refine iff_of_false Bool.false_ne_true ?_
    rintro (hinit | ⟨k', hne, hother⟩)
    · exact absurd hinit (Nat.lt_irrefl 0)
    · rw [hothers k' hne] at hother
      exact absurd hother (Nat.lt_irrefl 0)
  · rintro _ ⟨⟩
  · have hstage := (h.started k' hk').trans (hle k')
    omega
  · change 2 ≤ ((s.goto k _).inits k').stage at hstage
    rw [hinits] at hstage
    split at hstage
    · cases hstage
    · have hsmall := hle k'
      omega
  · have hstage := (h.published k' config' hp).1.trans (hle k')
    omega
  · change 4 ≤ ((s.goto k _).inits k').stage at hstage
    rw [hinits] at hstage
    split at hstage
    · cases hstage
    · have hsmall := hle k'
      omega
  · rcases h.located with hnone | ⟨k', config', _, hstage, _⟩
    · exact .inl hnone
    · have hsmall := hstage.trans (hle k')
      omega

theorem Inv.spawn (h : Inv s) (hk : s.inits k = .spawning config) :
    Inv ((s.goto k (.locating config)).withWorker k .running) := by
  have hpos : 0 < (s.inits k).stage := by
    rw [hk]
    exact Nat.one_pos
  have hinits := inits_goto s k (.locating config)
  have hworkers := workers_withWorker (s.goto k (.locating config)) k .running
  have hmono : ∀ k', (s.inits k').stage ≤ ((s.goto k (.locating config)).inits k').stage :=
    stage_le_goto hinits (by rw [hk]; exact Nat.le_succ 1)
  refine ⟨h.claims.advance hinits rfl hpos (Nat.succ_pos 1) (fun _ hi => by rw [hk]; exact hi),
    fun k' hk' => ?_, fun k' config' hi hstage => ?_, fun k' config' hp => ?_,
    fun k' config' hi hstage => ?_, h.threshold, h.tracing, ?_, h.asked⟩
  · rw [hworkers] at hk'
    change 2 ≤ ((s.goto k (.locating config)).inits k').stage
    split at hk'
    · rename_i heq
      rw [hinits, if_pos heq]
      exact Nat.le_refl 2
    · exact (h.started k' hk').trans (hmono k')
  · rw [hworkers]
    split
    · exact nofun
    · rename_i hne
      change ((s.goto k (.locating config)).inits k').config? = some config' at hi
      change 2 ≤ ((s.goto k (.locating config)).inits k').stage at hstage
      rw [hinits, if_neg hne] at hi hstage
      exact h.spawned k' config' hi hstage
  · have hold := h.published k' config' hp
    refine ⟨hold.1.trans (hmono k'), ?_⟩
    rw [hworkers]
    split
    · exact nofun
    · exact hold.2
  · change ((s.goto k (.locating config)).inits k').config? = some config' at hi
    change 4 ≤ ((s.goto k (.locating config)).inits k').stage at hstage
    rw [hinits] at hi hstage
    split at hi
    · rename_i heq
      rw [if_pos heq] at hstage
      exact absurd hstage (by simp [Init.stage])
    · rename_i hne
      rw [if_neg hne] at hstage
      exact h.opening k' config' hi hstage
  · rcases h.located with hnone | ⟨k', config', hone, hstage, hboth⟩
    · exact .inl hnone
    · exact .inr ⟨k', config', hone, hstage.trans (hmono k'), hboth⟩

/-- A call that holds the claim goes on from where its thread has started. -/
theorem Inv.advance (h : Inv s) {before after : Init} (hk : s.inits k = before)
    (hbefore : 2 ≤ before.stage) (hle : before.stage ≤ after.stage)
    (hconfig : ∀ config, after.config? = some config → before.config? = some config)
    (hopening : 4 ≤ after.stage → 4 ≤ before.stage) : Inv (s.goto k after) := by
  subst hk
  refine h.goto s.initialized hle (h.claims.advance (inits_goto s k after) rfl (by omega)
    (by omega) hconfig) (fun config hi _ => h.spawned k config (hconfig config hi) hbefore)
    fun config hi hstage => h.opening k config (hconfig config hi) (hopening hstage)

theorem Inv.locate (h : Inv s) (hk : s.inits k = .locating config)
    (hgeolocation : config.geolocation = true) :
    Inv { s.goto k (.publishing config) with lookups := (k, config) :: s.lookups } := by
  have hadvanced : Inv (s.goto k (.publishing config)) :=
    h.advance hk (Nat.le_refl 2) (Nat.le_succ 2) (fun _ hi => hi) fun hstage =>
      absurd hstage (by simp [Init.stage])
  have hnone : s.lookups = [] := by
    rcases h.located with hnone | ⟨k', config', _, hstage, _⟩
    · exact hnone
    · have halone := h.claims.alone k' k (by omega) (by rw [hk]; exact Nat.succ_pos 1)
      rw [halone, hk] at hstage
      exact absurd hstage (by simp [Init.stage])
  refine ⟨⟨hadvanced.claims.claimed, hadvanced.claims.alone, hadvanced.claims.enabled⟩,
    hadvanced.started, hadvanced.spawned, hadvanced.published,
    hadvanced.opening, hadvanced.threshold, hadvanced.tracing, .inr ⟨k, config, ?_, ?_, ?_,
    hgeolocation⟩, hadvanced.asked⟩
  · rw [hnone]
  · change 3 ≤ ((s.goto k (.publishing config)).inits k).stage
    rw [inits_goto, if_pos rfl]
    exact Nat.le_refl 3
  · exact h.claims.enabled k config (by rw [hk]; rfl)

/-- Only the call that holds the claim has published a pipeline. -/
theorem Inv.not_published (h : Inv s) (hk : s.inits k = .publishing config) :
    s.pipeline = none := by
  cases hp : s.pipeline with
  | none => rfl
  | some entry =>
      have hstage := (h.published entry.1 entry.2 hp).1
      have halone := h.claims.alone entry.1 k (by omega) (by rw [hk]; exact Nat.succ_pos 2)
      rw [halone, hk] at hstage
      exact absurd hstage (by simp [Init.stage])

theorem Inv.publish (h : Inv s) (hk : s.inits k = .publishing config) :
    Inv ((s.goto k (.opening config)).set k config) := by
  have hnone := h.not_published hk
  have hset : (s.goto k (.opening config)).set k config =
      { s.goto k (.opening config) with pipeline := some (k, config), handle := true } := by
    have hpipeline : (s.goto k (.opening config)).pipeline = none := hnone
    rw [set, hpipeline]
  have hinits := inits_goto s k (.opening config)
  have hmono : ∀ k', (s.inits k').stage ≤ ((s.goto k (.opening config)).inits k').stage :=
    stage_le_goto hinits (by rw [hk]; exact Nat.le_succ 3)
  have hpos : 0 < (s.inits k).stage := by
    rw [hk]
    exact Nat.succ_pos 2
  have hspawned := h.spawned k config (by rw [hk]; rfl) (by rw [hk]; exact Nat.le_succ 2)
  rw [hset]
  refine ⟨h.claims.advance hinits rfl hpos (Nat.succ_pos 3) (fun _ hi => by rw [hk]; exact hi),
    fun k' hk' => (h.started k' hk').trans (hmono k'), fun k' config' hi hstage => ?_,
    fun k' config' hp => ?_, fun k' config' hi hstage => ?_, fun level hlevel => ?_,
    fun _ => ⟨k, config, rfl⟩, ?_, fun j hj => ?_⟩
  · by_cases heq : k' = k
    · rw [heq]
      exact hspawned
    · change ((s.goto k (.opening config)).inits k').config? = some config' at hi
      change 2 ≤ ((s.goto k (.opening config)).inits k').stage at hstage
      rw [hinits, if_neg heq] at hi hstage
      exact h.spawned k' config' hi hstage
  · cases hp
    refine ⟨?_, hspawned⟩
    change 4 ≤ ((s.goto k (.opening config)).inits k).stage
    rw [hinits, if_pos rfl]
    exact Nat.le_refl 4
  · change ((s.goto k (.opening config)).inits k').config? = some config' at hi
    change 4 ≤ ((s.goto k (.opening config)).inits k').stage at hstage
    rw [hinits] at hi hstage
    split at hi
    · rename_i heq
      cases hi
      rw [heq]
    · rename_i hne
      rw [if_neg hne] at hstage
      have hold := h.opening k' config' hi hstage
      rw [hnone] at hold
      cases hold
  · obtain ⟨k', config', hold, _⟩ := h.threshold level hlevel
    rw [hnone] at hold
    cases hold
  · rcases h.located with hempty | ⟨k', config', hone, hstage, hboth⟩
    · exact .inl hempty
    · exact .inr ⟨k', config', hone, hstage.trans (hmono k'), hboth⟩
  · obtain ⟨k', config', hold, _⟩ := h.asked j hj
    rw [hnone] at hold
    cases hold

/-- The gates are stored to. -/
theorem Inv.withGates (h : Inv s) (threshold : Option Level) (tracing : Bool)
    (hthreshold : ∀ level, threshold = some level →
      ∃ k config, s.pipeline = some (k, config) ∧ config.minLevel = level)
    (htracing : tracing = true → ∃ k config, s.pipeline = some (k, config)) :
    Inv { s with threshold := threshold, tracing := tracing } :=
  ⟨⟨h.claims.claimed, h.claims.alone, h.claims.enabled⟩, h.started, h.spawned, h.published,
    h.opening, hthreshold, htracing, h.located, h.asked⟩

theorem Inv.closeThreshold (h : Inv s) : Inv { s with threshold := none } :=
  h.withGates none s.tracing nofun h.tracing

theorem Inv.closeTracing (h : Inv s) : Inv { s with tracing := false } :=
  h.withGates s.threshold false h.threshold nofun

theorem Inv.withShutdown (h : Inv s) (j : ℕ) {shutdown : Shutdown}
    (hshutdown : shutdown = .taking ∨ shutdown = .joining →
      ∃ k config, s.pipeline = some (k, config) ∧ s.asked k = true) :
    Inv (s.withShutdown j shutdown) := by
  refine ⟨⟨h.claims.claimed, h.claims.alone, h.claims.enabled⟩, h.started, h.spawned,
    h.published, h.opening, h.threshold, h.tracing, h.located, fun j' hj' => ?_⟩
  rw [shutdowns_withShutdown] at hj'
  split at hj'
  · exact hshutdown hj'
  · exact h.asked j' hj'

theorem Inv.withWorker (h : Inv s) (hk : s.workers k ≠ .none) {worker : Worker}
    (hworker : worker ≠ .none) : Inv (s.withWorker k worker) := by
  have hworkers := workers_withWorker s k worker
  have hnone : ∀ k', (s.withWorker k worker).workers k' ≠ .none ↔ s.workers k' ≠ .none := by
    intro k'
    rw [hworkers]
    split
    · rename_i heq
      rw [heq]
      exact iff_of_true hworker hk
    · exact Iff.rfl
  exact ⟨⟨h.claims.claimed, h.claims.alone, h.claims.enabled⟩,
    fun k' hk' => h.started k' ((hnone k').mp hk'),
    fun k' config hi hstage => (hnone k').mpr (h.spawned k' config hi hstage),
    fun k' config hp => ⟨(h.published k' config hp).1, (hnone k').mpr (h.published k' config hp).2⟩,
    h.opening, h.threshold, h.tracing, h.located, h.asked⟩

/-- The flag of the pipeline goes up before its thread is waited for. -/
theorem Inv.look (h : Inv s) (j : ℕ) (hp : s.pipeline = some (k, config)) :
    Inv { s.withShutdown j .taking with asked := Function.update s.asked k true } := by
  refine ⟨⟨h.claims.claimed, h.claims.alone, h.claims.enabled⟩, h.started, h.spawned,
    h.published, h.opening, h.threshold, h.tracing, h.located, fun j' hj' => ⟨k, config, hp, ?_⟩⟩
  exact Function.update_self ..

theorem Inv.next (h : Inv s) {rules : Rules} {e : Event} (he : s.Enabled e) :
    Inv (s.next rules e) := by
  cases e with
  | call k config =>
      have hk : s.inits k = .idle := he
      have hstage : (s.inits k).stage = 0 := by
        rw [hk]
        rfl
      rw [Process.next]
      cases validate rules config with
      | some error => exact h.pass hstage rfl rfl
      | none => exact h.pass hstage rfl rfl
  | claim k =>
      obtain ⟨config, hk⟩ := he
      simp only [Process.next, hk]
      split
      · exact h.pass (by rw [hk]; rfl) rfl rfl
      · rename_i hfree
        rw [Bool.not_eq_true] at hfree
        split
        · rename_i henabled
          refine h.claim hfree Nat.one_pos fun config' hi => ?_
          cases hi
          exact ⟨henabled, rfl⟩
        · exact h.claim hfree (Nat.succ_pos 5) nofun
  | spawn k starts =>
      obtain ⟨config, hk⟩ := he
      simp only [Process.next, hk]
      split
      · exact h.spawn hk
      · exact h.release hk
  | locate k starts =>
      obtain ⟨config, hk⟩ := he
      simp only [Process.next, hk]
      split
      · rename_i hboth
        exact h.locate hk (Bool.and_eq_true_iff.mp hboth).1
      · exact h.advance hk (Nat.le_refl 2) (Nat.le_succ 2) (fun _ hi => hi) fun hstage =>
          absurd hstage (by simp [Init.stage])
  | publish k =>
      obtain ⟨config, hk⟩ := he
      simp only [Process.next, hk]
      exact h.publish hk
  | openThreshold k =>
      obtain ⟨config, hk⟩ := he
      simp only [Process.next, hk]
      have hp := h.opening k config (by rw [hk]; rfl) (by rw [hk]; exact Nat.le_refl 4)
      have hadvanced : Inv (s.goto k (.tracing config)) :=
        h.advance hk (by simp [Init.stage]) (Nat.le_succ 4) (fun _ hi => hi) fun _ => Nat.le_refl 4
      refine hadvanced.withGates (some config.minLevel) s.tracing (fun level hlevel => ?_) h.tracing
      cases hlevel
      exact ⟨k, config, hp, rfl⟩
  | openTracing k =>
      obtain ⟨config, hk⟩ := he
      have hp := h.opening k config (by rw [hk]; rfl) (by rw [hk]; exact Nat.le_succ 4)
      have hadvanced : Inv (s.goto k (.returned none)) :=
        h.advance hk (by simp [Init.stage]) (Nat.le_succ 5) nofun fun _ => Nat.le_succ 4
      exact hadvanced.withGates s.threshold true h.threshold fun _ => ⟨k, config, hp⟩
  | shutdown j => exact (h.withShutdown j (by simp)).closeThreshold
  | closeTracing j => exact (h.withShutdown j (by simp)).closeTracing
  | look j =>
      rw [Process.next]
      cases hp : s.pipeline with
      | none => exact h.withShutdown j (by simp)
      | some entry => exact h.look j hp
  | take j =>
      have hj : s.shutdowns j = .taking := he
      have hasked := h.asked j (.inl hj)
      rw [Process.next]
      split
      · have hjoining : Inv (s.withShutdown j .joining) := h.withShutdown j fun _ => hasked
        exact ⟨⟨hjoining.claims.claimed, hjoining.claims.alone, hjoining.claims.enabled⟩,
          hjoining.started, hjoining.spawned, hjoining.published, hjoining.opening,
          hjoining.threshold, hjoining.tracing, hjoining.located, hjoining.asked⟩
      · exact h.withShutdown j (by simp)
  | join j => exact h.withShutdown j (by simp)
  | exit k =>
      have hk : s.workers k ≠ .none := by
        rw [he.1]
        exact nofun
      have hworker : Worker.closing ≠ .none := nofun
      exact (h.withWorker hk hworker).closeThreshold
  | panic k =>
      have hk : s.workers k ≠ .none := by
        rw [show s.workers k = .running from he]
        exact nofun
      have hworker : Worker.closing ≠ .none := nofun
      exact (h.withWorker hk hworker).closeThreshold
  | closed k =>
      have hk : s.workers k ≠ .none := by
        rw [show s.workers k = .closing from he]
        exact nofun
      have hworker : Worker.stopped ≠ .none := nofun
      exact (h.withWorker hk hworker).closeTracing

theorem inv_of_reachable {rules : Rules} (hr : (machine rules).Reachable s) : Inv s := by
  refine hr.invariant ?_ ?_
  · rintro _ rfl
    exact ⟨⟨iff_of_false Bool.false_ne_true fun ⟨_, hpos⟩ => absurd hpos (Nat.lt_irrefl 0),
      fun _ _ hpos => absurd hpos (Nat.lt_irrefl 0), nofun⟩, fun _ hk => absurd rfl hk, nofun,
      nofun, nofun, nofun, nofun, .inl rfl, fun _ hj => by simp [new] at hj⟩
  · rintro s e _ h ⟨he, rfl⟩
    exact h.next he

/-- Telemetry has been started, and the gates are closed. -/
structure Closed (k : ℕ) (s : Process) : Prop where
  returned : s.inits k = .returned none
  threshold : s.threshold = none
  tracing : s.tracing = false

/-- Once a call has returned well, no other comes to the gates. -/
theorem Inv.alone_returned (h : Inv s) (hk : s.inits k = .returned none) {k' : ℕ}
    (hpos : 0 < (s.inits k').stage) : s.inits k' = .returned none := by
  rw [h.claims.alone k' k hpos (by rw [hk]; exact Nat.succ_pos 5), hk]

theorem Closed.goto {initialized : Bool} {k' : ℕ} (h : Closed k s) (hne : k' ≠ k) :
    Closed k { s.goto k' init with initialized := initialized } :=
  ⟨(inits_goto s k' init k).trans ((if_neg hne.symm).trans h.returned), h.threshold, h.tracing⟩

theorem Closed.next (hclosed : Closed k s) (h : Inv s) {rules : Rules} {e : Event}
    (he : s.Enabled e) : Closed k (s.next rules e) := by
  have hother : ∀ {k' init}, s.inits k' = init → init ≠ .returned none → k' ≠ k := by
    rintro k' init hk' hne rfl
    exact hne (hk'.symm.trans hclosed.returned)
  have hnever : ∀ {k' init}, s.inits k' = init → init ≠ .returned none → ¬0 < init.stage := by
    rintro k' init rfl hne hpos
    exact hne (h.alone_returned hclosed.returned hpos)
  cases e with
  | call k' config => exact hclosed.goto (hother he nofun)
  | claim k' =>
      obtain ⟨config, hk'⟩ := he
      have hinitialized : s.initialized = true :=
        h.claims.claimed.mpr ⟨k, by rw [hclosed.returned]; exact Nat.succ_pos 5⟩
      simp only [Process.next, hk', hinitialized, if_true]
      exact hclosed.goto (hother hk' nofun)
  | spawn k' starts =>
      obtain ⟨config, hk'⟩ := he
      exact absurd Nat.one_pos (hnever hk' nofun)
  | locate k' starts =>
      obtain ⟨config, hk'⟩ := he
      exact absurd (Nat.succ_pos 1) (hnever hk' nofun)
  | publish k' =>
      obtain ⟨config, hk'⟩ := he
      exact absurd (Nat.succ_pos 2) (hnever hk' nofun)
  | openThreshold k' =>
      obtain ⟨config, hk'⟩ := he
      exact absurd (Nat.succ_pos 3) (hnever hk' nofun)
  | openTracing k' =>
      obtain ⟨config, hk'⟩ := he
      exact absurd (Nat.succ_pos 4) (hnever hk' nofun)
  | shutdown j => exact ⟨hclosed.returned, rfl, hclosed.tracing⟩
  | closeTracing j => exact ⟨hclosed.returned, hclosed.threshold, rfl⟩
  | look j =>
      rw [Process.next]
      split
      · exact ⟨hclosed.returned, hclosed.threshold, hclosed.tracing⟩
      · exact ⟨hclosed.returned, hclosed.threshold, hclosed.tracing⟩
  | take j =>
      rw [Process.next]
      split
      · exact ⟨hclosed.returned, hclosed.threshold, hclosed.tracing⟩
      · exact ⟨hclosed.returned, hclosed.threshold, hclosed.tracing⟩
  | join j => exact ⟨hclosed.returned, hclosed.threshold, hclosed.tracing⟩
  | exit k' => exact ⟨hclosed.returned, rfl, hclosed.tracing⟩
  | panic k' => exact ⟨hclosed.returned, rfl, hclosed.tracing⟩
  | closed k' => exact ⟨hclosed.returned, hclosed.threshold, rfl⟩

/-- However calls of `init` and `shutdown` and the end of the export thread fall together: one
thread is started at most and one call succeeds; as long as none holds the claim, none is refused
for it. A record that is let through finds a pipeline behind the gate, and one whose level lets it
through. No location is looked up but once, where collection is on and it was opted into. -/
theorem started_once {rules : Rules} (hr : (machine rules).Reachable s) :
    (∀ k k', s.workers k ≠ .none → s.workers k' ≠ .none → k = k') ∧
    (∀ k k', s.inits k = .returned none → s.inits k' = .returned none → k = k') ∧
    ((∀ k, (s.inits k).stage = 0) → s.initialized = false) ∧
    (∀ level, s.admits level = true → ∃ k config, s.pipeline = some (k, config) ∧
      Otlp.severityNumber config.minLevel ≤ Otlp.severityNumber level) ∧
    (s.tracing = true → s.running = s.pipeline ∧ s.pipeline ≠ none) ∧
    s.lookups.length ≤ 1 ∧
    ∀ entry ∈ s.lookups, entry.2.enabled = true ∧ entry.2.geolocation = true := by
  have h := inv_of_reachable hr
  refine ⟨fun k k' hk hk' => ?_, fun k k' hk hk' => ?_, fun hnone => ?_,
    fun level hadmits => ?_, fun htracing => ?_, ?_⟩
  · have hstage := h.started k hk
    have hstage' := h.started k' hk'
    exact h.claims.alone k k' (by omega) (by omega)
  · exact h.claims.alone k k' (by rw [hk]; exact Nat.succ_pos 5) (by rw [hk']; exact Nat.succ_pos 5)
  · rw [← Bool.not_eq_true, h.claims.claimed]
    rintro ⟨k, hpos⟩
    rw [hnone] at hpos
    exact absurd hpos (Nat.lt_irrefl 0)
  · obtain ⟨threshold, hthreshold, hle⟩ := (Option.any_eq_true ..).mp hadmits
    obtain ⟨k, config, hp, hlevel⟩ := h.threshold threshold hthreshold
    refine ⟨k, config, hp, ?_⟩
    rw [hlevel]
    exact of_decide_eq_true hle
  · obtain ⟨k, config, hp⟩ := h.tracing htracing
    rw [running, hp, htracing]
    exact ⟨rfl, nofun⟩
  · rcases h.located with hempty | ⟨k, config, hone, _, hboth⟩
    · rw [hempty]
      exact ⟨Nat.zero_le 1, nofun⟩
    · rw [hone]
      exact ⟨Nat.le_refl 1, fun entry hentry => List.mem_singleton.mp hentry ▸ hboth⟩

/-- After a call of `init` has returned well, gates that are closed stay closed, whatever is
called from then on; and no call of `shutdown` waits for a thread that would not end. -/
theorem stays_closed {rules : Rules} (hr : (machine rules).Reachable s) :
    (∀ k, s.inits k = .returned none → s.threshold = none → s.tracing = false →
      ∀ s', (machine rules).Later s s' → s'.threshold = none ∧ s'.running = none) ∧
    ∀ j, s.shutdowns j = .joining → ∃ k config, s.pipeline = some (k, config) ∧
      (s.Enabled (.exit k) ∨ s.Enabled (.closed k) ∨ s.Enabled (.join j)) := by
  have h := inv_of_reachable hr
  refine ⟨fun k hk hthreshold htracing s' hlater => ?_, fun j hj => ?_⟩
  · have hclosed : Closed k s' := by
      refine Machine.Later.invariant ?_ hr hlater ⟨hk, hthreshold, htracing⟩
      rintro t e _ ht hclosed ⟨he, rfl⟩
      exact Closed.next hclosed (inv_of_reachable ht) he
    refine ⟨hclosed.threshold, ?_⟩
    rw [running, hclosed.tracing]
    cases s'.pipeline with
    | none => rfl
    | some entry => rfl
  · obtain ⟨k, config, hp, hasked⟩ := h.asked j (.inr hj)
    refine ⟨k, config, hp, ?_⟩
    cases hworker : s.workers k with
    | none => exact absurd hworker (h.published k config hp).2
    | running => exact .inl ⟨hworker, hasked⟩
    | closing => exact .inr (.inl hworker)
    | stopped => exact .inr (.inr ⟨hj, k, config, hp, hworker⟩)

end Steps

/-! ## A start that fails, and one that does not -/

def anyRules : Rules := ⟨fun _ => none, fun _ => true⟩

def located : Config := ⟨"http://localhost".toList, [], .info, true, true⟩

/-- The first thread does not start; the call made meanwhile is refused, a later one succeeds. -/
def restarted : List Event :=
  [.call 0 located, .claim 0, .call 1 located, .claim 1, .spawn 0 false, .call 2 located,
    .claim 2, .spawn 2 true, .locate 2 true, .publish 2, .openThreshold 2, .openTracing 2]

theorem legal_restarted : Machine.Legal Enabled (next anyRules) new restarted :=
  ⟨rfl, ⟨_, rfl⟩, rfl, ⟨_, rfl⟩, ⟨_, rfl⟩, rfl, ⟨_, rfl⟩, ⟨_, rfl⟩, ⟨_, rfl⟩, ⟨_, rfl⟩, ⟨_, rfl⟩,
    ⟨_, rfl⟩, trivial⟩

theorem reachable_restarted :
    (machine anyRules).Reachable (restarted.foldl (next anyRules) new) :=
  (Machine.Reachable.start rfl).legal legal_restarted

theorem started_once_restarted : ∃ k config,
    (restarted.foldl (next anyRules) new).pipeline = some (k, config) ∧
      Otlp.severityNumber config.minLevel ≤ Otlp.severityNumber .warn :=
  (started_once reachable_restarted).2.2.2.1 .warn rfl

/-- It is then stopped, and what is called afterwards opens nothing. -/
def stopped : List Event :=
  restarted ++ [.shutdown 0, .closeTracing 0, .look 0, .take 0]

theorem stays_closed_stopped : ∃ k config,
    (stopped.foldl (next anyRules) new).pipeline = some (k, config) ∧
    ((stopped.foldl (next anyRules) new).Enabled (.exit k) ∨
      (stopped.foldl (next anyRules) new).Enabled (.closed k) ∨
      (stopped.foldl (next anyRules) new).Enabled (.join 0)) := by
  have hlegal : Machine.Legal Enabled (next anyRules) (restarted.foldl (next anyRules) new)
      [.shutdown 0, .closeTracing 0, .look 0, .take 0] := ⟨rfl, rfl, rfl, rfl, trivial⟩
  have hr := reachable_restarted.legal hlegal
  exact (stays_closed hr).2 0 rfl

end Process

end Lifecycle

end O11y

end RustSak
