import RustSak.Ai.Tuning

/-!
# Falling down the ladder

A session is built on the first rung of its ladder that works, and ends on the CPU. What the
runtime, the file system and the driver answer is left open: any call may fail, answer
differently the next time, and log records on the way. The records that the building thread
logs are counted as they are handed on, which is how a failed rung is told to have run out of
memory.
-/

namespace RustSak

namespace Ai

namespace Sessions

/-- The hardware that a provider attaches, if it is any. -/
def Accelerator.of : ExecutionProvider → Option Accelerator
  | .auto | .cpu => none
  | .coreMl => some .coreMl
  | .cuda => some .cuda
  | .tensorRt => some .tensorRt
  | .webGpu => some .webGpu

def Accelerator.provider : Accelerator → ExecutionProvider
  | .coreMl => .coreMl
  | .cuda => .cuda
  | .tensorRt => .tensorRt
  | .webGpu => .webGpu

/-- A rung of accelerators alone loses nothing on the way to the hardware and back. -/
theorem map_provider_filterMap_of {rung : List ExecutionProvider}
    (h : ∀ provider ∈ rung, provider.isAccelerator = true) :
    (rung.filterMap Accelerator.of).map Accelerator.provider = rung := by
  induction rung with
  | nil => rfl
  | cons provider rung ih =>
      have hrest := ih fun other hother => h other (List.mem_cons_of_mem _ hother)
      have hhead := h provider List.mem_cons_self
      cases provider with
      | auto => exact absurd hhead (by decide)
      | cpu => exact absurd hhead (by decide)
      | _ => simpa [Accelerator.of, Accelerator.provider] using hrest

/-- What a session builder has been told, each provider with its options in attach order. -/
structure Builder where
  attached : List (Accelerator × List (String × String))
  parallel : Option Bool
  memPattern : Option Bool
  disabledOptimizers : Option String

/-- An answer, the records logged on the way to it, and the world after it. -/
abbrev Call (σ α : Type) := σ → Except String α × List String × σ

/-- What the runtime, the file system and the driver answer. -/
structure Calls (φ σ τ : Type) where
  loaded : σ → Bool
  toStr : φ → Option String
  display : φ → String
  createDirAll : φ → σ → Except String Unit × σ
  emptyDir : φ → σ → σ
  firstDeviceMemory : σ → Option ℕ
  builder : Call σ Unit
  webgpuDevice : σ → Bool
  accept : Builder → Call σ Unit
  commit : Builder → φ → Call σ τ

/-- The building thread: the world, the device memory once it is probed, how many
out-of-memory records the thread has seen, and the records handed on so far. -/
structure Process (σ : Type) where
  world : σ
  deviceMemory : Option (Option ℕ)
  outOfMemory : BitVec 64
  records : List String

/-- Whether `text` holds `part`. -/
def contains (part text : String) : Bool := decide (part.toList <:+: text.toList)

/-- Whether a record reports a device allocation that failed. -/
def isOutOfMemoryRecord (message : String) : Bool :=
  contains "OutOfMemory" message || contains "out of memory" message

/-- Whether a runtime error's message is a failed device allocation. -/
def saysOutOfMemory (message : String) : Bool :=
  let message := String.ofList (message.toList.map Char.toLower)
  contains "out of memory" message || contains "outofmemory" message ||
    contains "failed to allocate" message

variable {φ σ τ α β : Type}

/-- The logger: it counts, and hands the record on. -/
def Process.log (s : Process σ) (message : String) : Process σ where
  world := s.world
  deviceMemory := s.deviceMemory
  outOfMemory := if isOutOfMemoryRecord message then s.outOfMemory + 1 else s.outOfMemory
  records := s.records ++ [message]

/-- What a build does on its thread: it ends with a value or a reason. -/
abbrev Run (σ α : Type) := ExceptT String (StateM (Process σ)) α

/-- Asks the runtime. Its records are logged before it answers. -/
def ask (call : Call σ α) : Run σ α := fun s =>
  let (answer, messages, world) := call s.world
  (answer, messages.foldl Process.log { s with world := world })

/-- What a session is built from. -/
structure SessionRequest (φ : Type) where
  model : φ
  providers : List ExecutionProvider
  supported : Supported
  tuning : Tuning
  cache : CachePaths φ

variable (calls : Calls φ σ τ) (request : SessionRequest φ)

/-- The builder with one more call made on it, if the runtime accepts that. -/
def configured (builder : Builder) : Run σ Builder := do
  ask (calls.accept builder)
  pure builder

/-- The options that an accelerator is attached with. A plugin's are prefixed with its name. -/
def attachment (deviceMemory : Option ℕ) (accelerator : Accelerator) :
    Accelerator × List (String × String) :=
  let options := (providerOptions request.tuning calls.display request.cache
    accelerator.provider deviceMemory).toList
  match accelerator with
  | .webGpu =>
      (.webGpu, options.map fun (key, value) => ("WebGpuExecutionProvider." ++ key, value))
  | _ => (accelerator, options)

/-- The build ends with `reason` unless the condition holds. -/
def ensure (condition : Bool) (reason : String) : Run σ Unit :=
  if condition then pure () else throw reason

/-- The plugin is attached through its first device. -/
def ensureDevice (accelerator : Accelerator) : Run σ Unit := fun s =>
  ensure (accelerator != .webGpu || calls.webgpuDevice s.world)
    "the WebGPU plugin offers no device" s

def attachAll (memory : Option ℕ) : List Accelerator → Builder → Run σ Builder
  | [], builder => pure builder
  | accelerator :: rung, builder => do
      ensureDevice calls accelerator
      let builder ← configured calls
        { builder with
          attached := builder.attached ++ [attachment calls request memory accelerator] }
      attachAll memory rung builder

/-- The session-level settings, the disabled optimizers only if there are any. -/
def settle (settings : SessionSettings) (builder : Builder) : Run σ Builder := do
  let builder ← configured calls { builder with parallel := some settings.parallel }
  let builder ← configured calls { builder with memPattern := some settings.memPattern }
  match settings.disabledOptimizers with
  | some disabled => configured calls { builder with disabledOptimizers := some disabled }
  | none => pure builder

/-- The rung attached in order, the tuning's session settings, and the model committed. -/
def buildRung (rung : List Accelerator) (memory : Option ℕ) : Run σ τ := do
  ask calls.builder
  let builder ← attachAll calls request memory rung ⟨[], none, none, none⟩
  let builder ← settle calls (SessionSettings.of request.tuning) builder
  ask (calls.commit builder request.model)

def createFolder (folder : φ) : Run σ Unit := fun s =>
  let (answer, world) := calls.createDirAll folder s.world
  (answer.mapError ("its cache folder could not be created: " ++ ·), { s with world := world })

/-- Creates the folders the rung's providers compile into, up to the first that fails. -/
def createFolders : List φ → Run σ Unit
  | [] => pure ()
  | folder :: folders => do
      createFolder calls folder
      createFolders folders

/-- The first device's memory, probed once, by the first rung that attaches TensorRT. -/
def deviceMemory (rung : List Accelerator) : Run σ (Option ℕ) := fun s =>
  if rung.contains .tensorRt then
    let memory := s.deviceMemory.getD (calls.firstDeviceMemory s.world)
    (.ok memory, { s with deviceMemory := some memory })
  else
    (.ok none, s)

/-- The providers take their folders as text. -/
def ensureText (folders : List φ) : Run σ Unit :=
  match folders.find? fun folder => (calls.toStr folder).isNone with
  | some folder => throw ("its cache folder is not valid UTF-8: " ++ calls.display folder)
  | none => pure ()

/-- One attempt on `rung`, with the runtime's reason when it fails. -/
def attempt (rung : List Accelerator) : Run σ τ := do
  fun s => ensure (calls.loaded s.world) "the ONNX Runtime is not loaded" s
  ensureText calls (written request.cache rung)
  createFolders calls (written request.cache rung)
  let memory ← deviceMemory calls rung
  buildRung calls request rung memory

/-- Why a session could not be built on one rung. -/
structure RungError where
  providers : List ExecutionProvider
  reason : String
  outOfMemory : Bool
  deriving DecidableEq

/-- The error for a failed attempt on `providers`. -/
def rungError (providers : List ExecutionProvider) (reason : String) (outOfMemorySince : Bool) :
    RungError where
  providers := providers
  reason := reason
  outOfMemory := !providers.isEmpty && (outOfMemorySince || saysOutOfMemory reason)

/-- Builds on exactly `rung`. A failed build that attaches TensorRT empties the timing folder. -/
def build (rung : List ExecutionProvider) (s : Process σ) : Except RungError τ × Process σ :=
  let rung := rung.filterMap Accelerator.of
  let providers := rung.map Accelerator.provider
  let mark := s.outOfMemory
  match attempt calls request rung s with
  | (.ok session, s') => (.ok session, s')
  | (.error reason, s') =>
      (.error (rungError providers reason (s'.outOfMemory != mark)),
        if rung.contains .tensorRt then
          { s' with world := calls.emptyDir request.cache.timing s'.world }
        else
          s')

/-- The providers of `rung` as a reader sees them. -/
def names (rung : List ExecutionProvider) : String :=
  if rung.isEmpty then ExecutionProvider.cpu.asStr
  else ", ".intercalate (rung.map ExecutionProvider.asStr)

/-- What is logged of a rung that failed. -/
structure Warning (φ : Type) where
  model : φ
  providers : String
  reason : String

/-- Why a session could not be built on any rung. -/
structure SessionError (φ : Type) where
  model : φ
  reason : String

/-- Tries the rungs in order, with the last reason so far, until one works. -/
def walk (model : φ) (tryRung : List ExecutionProvider → σ → Except String τ × σ) :
    List (List ExecutionProvider) → String → σ →
      Except (SessionError φ) (τ × List ExecutionProvider) × σ × List (Warning φ)
  | [], last, s => (.error ⟨model, last⟩, s, [])
  | rung :: rungs, _, s =>
      match tryRung rung s with
      | (.ok built, s') => (.ok (built, rung), s', [])
      | (.error reason, s') =>
          let (result, s'', warnings) := walk model tryRung rungs reason s'
          (result, s'', ⟨model, names rung, reason⟩ :: warnings)

/-- One rung with `build`, of whose error only the reason is kept. -/
def tryRung (rung : List ExecutionProvider) (s : Process σ) : Except String τ × Process σ :=
  match build calls request rung s with
  | (.ok session, s') => (.ok session, s')
  | (.error error, s') => (.error error.reason, s')

/-- Builds a session on the first rung of its ladder that works. -/
def session (s : Process σ) :
    Except (SessionError φ) (τ × List ExecutionProvider) × Process σ × List (Warning φ) :=
  walk request.model (tryRung calls request) (ladder request.providers request.supported)
    "the ladder has no rung" s

section Threads

variable {x : Run σ α} {f : α → Run σ β} {s s' : Process σ}

theorem bind_apply (x : Run σ α) (f : α → Run σ β) (s : Process σ) :
    (x >>= f) s =
      match x s with
      | (.ok a, s') => f a s'
      | (.error reason, s') => (.error reason, s') := by
  simp only [bind, ExceptT.bind, ExceptT.mk, StateT.bind, ExceptT.bindCont]
  cases x s with
  | mk answer s' => cases answer <;> rfl

theorem bind_eq_ok {b : β} (h : (x >>= f) s = (.ok b, s')) :
    ∃ a mid, x s = (.ok a, mid) ∧ f a mid = (.ok b, s') := by
  rw [bind_apply] at h
  cases hx : x s with
  | mk answer mid =>
      rw [hx] at h
      cases answer with
      | ok a => exact ⟨a, mid, rfl, h⟩
      | error reason => cases h

theorem bind_eq_error {reason : String} (h : (x >>= f) s = (.error reason, s')) :
    x s = (.error reason, s') ∨ ∃ a mid, x s = (.ok a, mid) ∧ f a mid = (.error reason, s') := by
  rw [bind_apply] at h
  cases hx : x s with
  | mk answer mid =>
      rw [hx] at h
      cases answer with
      | ok a => exact .inr ⟨a, mid, rfl, h⟩
      | error reason' =>
          change ((.error reason', mid) : Except String β × Process σ) = _ at h
          cases h
          exact .inl rfl

/-- The thread has counted the out-of-memory records among those that `x` had logged. -/
def Counted (x : Run σ α) : Prop :=
  ∀ s, ∃ new, (x s).2.records = s.records ++ new ∧
    (x s).2.outOfMemory = s.outOfMemory + BitVec.ofNat 64 (new.countP isOutOfMemoryRecord)

theorem counted_of_same
    (h : ∀ s, (x s).2.records = s.records ∧ (x s).2.outOfMemory = s.outOfMemory) : Counted x :=
  fun s => ⟨[], by simpa using (h s).1, by simpa using (h s).2⟩

theorem counted_pure (a : α) : Counted (pure a : Run σ α) := counted_of_same fun _ => ⟨rfl, rfl⟩

theorem counted_throw (reason : String) : Counted (throw reason : Run σ α) :=
  counted_of_same fun _ => ⟨rfl, rfl⟩

theorem Counted.bind (hx : Counted x) (hf : ∀ a, Counted (f a)) : Counted (x >>= f) := by
  intro s
  obtain ⟨first, hrecords, hcount⟩ := hx s
  rw [bind_apply]
  cases hxs : x s with
  | mk answer mid =>
      rw [hxs] at hrecords hcount
      cases answer with
      | error reason => exact ⟨first, hrecords, hcount⟩
      | ok a =>
          obtain ⟨second, hrecords', hcount'⟩ := hf a mid
          refine ⟨first ++ second, ?_, ?_⟩
          · change (f a mid).2.records = _
            rw [hrecords', hrecords, List.append_assoc]
          · change (f a mid).2.outOfMemory = _
            rw [hcount', hcount, List.countP_append, BitVec.ofNat_add, BitVec.add_assoc]

theorem records_foldl_log (messages : List String) (s : Process σ) :
    (messages.foldl Process.log s).records = s.records ++ messages ∧
      (messages.foldl Process.log s).outOfMemory =
        s.outOfMemory + BitVec.ofNat 64 (messages.countP isOutOfMemoryRecord) := by
  induction messages generalizing s with
  | nil => simp
  | cons message messages ih =>
      obtain ⟨hrecords, hcount⟩ := ih (s.log message)
      rw [List.foldl_cons, hrecords, hcount, List.countP_cons]
      refine ⟨by simp [Process.log], ?_⟩
      by_cases hmessage : isOutOfMemoryRecord message = true
      · simp only [Process.log, hmessage, if_true, BitVec.ofNat_add]
        rw [BitVec.add_assoc, BitVec.add_comm 1]
        rfl
      · simp [Process.log, hmessage]

theorem counted_ask (call : Call σ α) : Counted (ask call) := fun s =>
  ⟨_, records_foldl_log _ { s with world := (call s.world).2.2 }⟩

end Threads

theorem counted_configured (builder : Builder) : Counted (configured calls builder) :=
  (counted_ask _).bind fun _ => counted_pure builder

theorem counted_ensure (condition : Bool) (reason : String) :
    Counted (ensure condition reason : Run σ Unit) := by
  unfold ensure
  split
  · exact counted_pure ()
  · exact counted_throw reason

theorem counted_ensureDevice (accelerator : Accelerator) :
    Counted (ensureDevice calls accelerator) := fun s => counted_ensure _ _ s

theorem counted_attachAll (memory : Option ℕ) (rung : List Accelerator) (builder : Builder) :
    Counted (attachAll calls request memory rung builder) := by
  induction rung generalizing builder with
  | nil => exact counted_pure builder
  | cons accelerator rung ih =>
      exact (counted_ensureDevice calls accelerator).bind fun _ =>
        (counted_configured calls _).bind ih

theorem counted_settle (settings : SessionSettings) (builder : Builder) :
    Counted (settle calls settings builder) := by
  refine (counted_configured calls _).bind fun builder =>
    (counted_configured calls _).bind fun builder => ?_
  cases settings.disabledOptimizers with
  | none => exact counted_pure builder
  | some disabled => exact counted_configured calls _

theorem counted_buildRung (rung : List Accelerator) (memory : Option ℕ) :
    Counted (buildRung calls request rung memory) :=
  (counted_ask _).bind fun _ => (counted_attachAll calls request memory rung _).bind fun _ =>
    (counted_settle calls _ _).bind fun _ => counted_ask _

theorem counted_createFolders (folders : List φ) : Counted (createFolders calls folders) := by
  induction folders with
  | nil => exact counted_pure ()
  | cons folder folders ih =>
      have hfolder : Counted (createFolder calls folder) := counted_of_same fun _ => ⟨rfl, rfl⟩
      exact hfolder.bind fun _ => ih

theorem counted_deviceMemory (rung : List Accelerator) : Counted (deviceMemory calls rung) := by
  refine counted_of_same fun s => ?_
  unfold deviceMemory
  split <;> exact ⟨rfl, rfl⟩

theorem counted_ensureText (folders : List φ) : Counted (ensureText calls folders) := by
  unfold ensureText
  split
  · exact counted_throw _
  · exact counted_pure ()

theorem counted_attempt (rung : List Accelerator) : Counted (attempt calls request rung) := by
  have hloaded : Counted (fun s =>
      ensure (calls.loaded s.world) "the ONNX Runtime is not loaded" s : Run σ Unit) :=
    fun s => counted_ensure _ _ s
  exact hloaded.bind fun _ => (counted_ensureText calls _).bind fun _ =>
    (counted_createFolders calls _).bind fun _ => (counted_deviceMemory calls rung).bind fun _ =>
      counted_buildRung calls request rung _

/-- Fewer than 2^64 records move the count just if there are any. -/
theorem marked_iff {before after : BitVec 64} {n : ℕ}
    (h : after = before + BitVec.ofNat 64 n) (hn : n < 2 ^ 64) : after ≠ before ↔ 0 < n := by
  rw [h]
  bv_omega

/-- A rung's error says that the device ran out of memory exactly if the rung attaches one and
its reason or a record that the thread logged in this build says so. -/
theorem build_out_of_memory (rung : List ExecutionProvider) (s s' : Process σ)
    (error : RungError) (h : build calls request rung s = (.error error, s')) :
    error.providers = (rung.filterMap Accelerator.of).map Accelerator.provider ∧
    ∃ new, s'.records = s.records ++ new ∧
      (new.countP isOutOfMemoryRecord < 2 ^ 64 →
        (error.outOfMemory = true ↔ error.providers ≠ [] ∧
          (saysOutOfMemory error.reason = true ∨
            ∃ message ∈ new, isOutOfMemoryRecord message = true))) := by
  obtain ⟨new, hrecords, hcount⟩ := counted_attempt calls request (rung.filterMap Accelerator.of) s
  cases hattempt : attempt calls request (rung.filterMap Accelerator.of) s with
  | mk answer mid =>
      rw [hattempt] at hrecords hcount
      simp only [build, hattempt] at h
      cases answer with
      | ok session => cases h
      | error reason =>
          simp only [Prod.mk.injEq, Except.error.injEq] at h
          obtain ⟨herror, hs'⟩ := h
          have hrecords' : s'.records = s.records ++ new := by
            rw [← hs']
            split <;> exact hrecords
          refine ⟨herror ▸ rfl, new, hrecords', fun hfew => ?_⟩
          have hmarked : (mid.outOfMemory != s.outOfMemory) = true ↔
              ∃ message ∈ new, isOutOfMemoryRecord message = true := by
            rw [bne_iff_ne, ← List.countP_pos_iff]
            exact marked_iff hcount hfew
          rw [← herror]
          simp only [rungError, Bool.and_eq_true, Bool.or_eq_true, hmarked]
          simp [or_comm]

section Examples

/-- A device with no memory left: the runtime logs so, and only says that it has no engine. -/
def fullDevice : Calls ℕ Unit Unit where
  loaded _ := true
  toStr _ := some ""
  display _ := ""
  createDirAll _ _ := (.ok (), ())
  emptyDir _ _ := ()
  firstDeviceMemory _ := none
  builder _ := (.error "no engine", ["Error Code 2: OutOfMemory"], ())
  webgpuDevice _ := false
  accept _ _ := (.ok (), [], ())
  commit _ _ _ := (.ok (), [], ())

def oneModel : SessionRequest ℕ where
  model := 0
  providers := [.auto]
  supported := ⟨true, false, true, false, false⟩
  tuning := ⟨.all, .default, .parallel, false, [], false, ∅, false, []⟩
  cache := ⟨1, 2, 3⟩

theorem build_out_of_memory_fullDevice :
    [ExecutionProvider.cuda] = ([ExecutionProvider.cuda].filterMap Accelerator.of).map
      Accelerator.provider ∧
    ∃ new, ["Error Code 2: OutOfMemory"] = [] ++ new ∧
      (new.countP isOutOfMemoryRecord < 2 ^ 64 →
        (true = true ↔ [ExecutionProvider.cuda] ≠ [] ∧
          (saysOutOfMemory "no engine" = true ∨
            ∃ message ∈ new, isOutOfMemoryRecord message = true))) :=
  build_out_of_memory fullDevice oneModel [.cuda] ⟨(), none, 0, []⟩
    ⟨(), none, 1, ["Error Code 2: OutOfMemory"]⟩ ⟨[.cuda], "no engine", true⟩ rfl

end Examples

/-- The rungs of `failures` fail one after another, each with the reason beside it. -/
inductive Failed {σ τ : Type} (tryRung : List ExecutionProvider → σ → Except String τ × σ) :
    List (List ExecutionProvider × String) → σ → σ → Prop
  | nil {s : σ} : Failed tryRung [] s s
  | cons {rung : List ExecutionProvider} {reason : String} {s mid s' : σ}
      {failures : List (List ExecutionProvider × String)}
      (h : tryRung rung s = (.error reason, mid)) (hrest : Failed tryRung failures mid s') :
      Failed tryRung ((rung, reason) :: failures) s s'

theorem Failed.last {σ τ : Type} {tryRung : List ExecutionProvider → σ → Except String τ × σ}
    {failures : List (List ExecutionProvider × String)}
    {failure : List ExecutionProvider × String} {s s' : σ}
    (h : Failed tryRung (failures ++ [failure]) s s') :
    ∃ mid, tryRung failure.1 mid = (.error failure.2, s') := by
  induction failures generalizing s with
  | nil =>
      cases h with
      | cons h hrest =>
          cases hrest
          exact ⟨s, h⟩
  | cons first failures ih =>
      cases h with
      | cons h hrest => exact ih hrest

def warned (model : φ) (failure : List ExecutionProvider × String) : Warning φ :=
  ⟨model, names failure.1, failure.2⟩

section Walk

variable {tryRung : List ExecutionProvider → σ → Except String τ × σ} {model : φ}

/-- What a walk comes to: the first rung that works, or the last one's reason. -/
theorem walk_cases (rungs : List (List ExecutionProvider)) (last : String) (s : σ) :
    (∃ failures rung after built mid s', rungs = failures.map Prod.fst ++ rung :: after ∧
      Failed tryRung failures s mid ∧ tryRung rung mid = (.ok built, s') ∧
      walk model tryRung rungs last s =
        (.ok (built, rung), s', failures.map (warned model))) ∨
    ∃ failures s', rungs = failures.map Prod.fst ∧ Failed tryRung failures s s' ∧
      walk model tryRung rungs last s =
        (.error ⟨model, (failures.map Prod.snd).getLastD last⟩, s',
          failures.map (warned model)) := by
  induction rungs generalizing last s with
  | nil => exact .inr ⟨[], s, rfl, .nil, rfl⟩
  | cons rung rungs ih =>
      cases hrung : tryRung rung s with
      | mk answer mid =>
          cases answer with
          | ok built =>
              exact .inl ⟨[], rung, rungs, built, s, mid, rfl, .nil, hrung, by simp [walk, hrung]⟩
          | error reason =>
              obtain hworks | hfails := ih reason mid
              · obtain ⟨failures, works, after, built, before, s', hrungs, hfailed, hworks,
                  hwalk⟩ := hworks
                refine .inl ⟨(rung, reason) :: failures, works, after, built, before, s',
                  by rw [hrungs]; rfl, .cons hrung hfailed, hworks, ?_⟩
                simp [walk, hrung, hwalk, warned]
              · obtain ⟨failures, s', hrungs, hfailed, hwalk⟩ := hfails
                refine .inr ⟨(rung, reason) :: failures, s', by rw [hrungs]; rfl,
                  .cons hrung hfailed, ?_⟩
                simp only [walk, hrung, hwalk, warned, List.map_cons, List.getLastD_cons]

end Walk

/-- From any of its tails on, the tails of a list are the tails of that tail. -/
theorem tails_from {before after : List (List ExecutionProvider)}
    {chain rung : List ExecutionProvider} (h : chain.tails = before ++ rung :: after) :
    rung <:+ chain ∧ rung :: after = rung.tails := by
  induction chain generalizing before with
  | nil =>
      cases before with
      | nil =>
          cases h
          exact ⟨List.suffix_rfl, rfl⟩
      | cons first before => simp at h
  | cons provider chain ih =>
      cases before with
      | nil =>
          rw [List.tails_cons, List.nil_append] at h
          cases h
          exact ⟨List.suffix_rfl, by rw [List.tails_cons]⟩
      | cons first before =>
          rw [List.tails_cons, List.cons_append] at h
          obtain ⟨hsuffix, htails⟩ := ih (List.cons.inj h).2
          exact ⟨hsuffix.trans (List.suffix_cons provider chain), htails⟩

section Committed

variable {calls request} {rung : List Accelerator} {memory : Option ℕ} {builder builder' : Builder}
  {s s' : Process σ}

theorem ask_eq {call : Call σ α} {answer : Except String α} (h : ask call s = (answer, s')) :
    (call s.world).1 = answer :=
  congrArg Prod.fst h

theorem eq_of_configured (h : configured calls builder s = (.ok builder', s')) :
    builder' = builder := by
  obtain ⟨_, mid, _, hpure⟩ := bind_eq_ok h
  cases hpure
  rfl

theorem attached_of_attachAll
    (h : attachAll calls request memory rung builder s = (.ok builder', s')) :
    builder' = { builder with
      attached := builder.attached ++ rung.map (attachment calls request memory) } := by
  induction rung generalizing builder s with
  | nil =>
      cases h
      rw [List.map_nil, List.append_nil]
  | cons accelerator rung ih =>
      obtain ⟨_, first, _, h⟩ := bind_eq_ok h
      obtain ⟨told, second, htold, h⟩ := bind_eq_ok h
      rw [ih h, eq_of_configured htold, List.map_cons]
      simp

theorem attached_of_settle {settings : SessionSettings}
    (h : settle calls settings builder s = (.ok builder', s')) :
    builder' = { attached := builder.attached
                 parallel := some settings.parallel
                 memPattern := some settings.memPattern
                 disabledOptimizers :=
                   settings.disabledOptimizers.or builder.disabledOptimizers } := by
  obtain ⟨parallel, first, hparallel, h⟩ := bind_eq_ok h
  obtain ⟨pattern, second, hpattern, h⟩ := bind_eq_ok h
  have htold := eq_of_configured hpattern
  rw [eq_of_configured hparallel] at htold
  cases hdisabled : settings.disabledOptimizers with
  | none =>
      rw [hdisabled] at h
      cases h
      rw [htold, Option.none_or]
  | some disabled =>
      rw [hdisabled] at h
      rw [eq_of_configured h, htold, Option.some_or]

/-- What the runtime is told before it commits a model: the rung in order, each accelerator
with its options, and the tuning's settings. -/
def told (calls : Calls φ σ τ) (request : SessionRequest φ) (rung : List Accelerator)
    (memory : Option ℕ) : Builder where
  attached := rung.map (attachment calls request memory)
  parallel := some (SessionSettings.of request.tuning).parallel
  memPattern := some (SessionSettings.of request.tuning).memPattern
  disabledOptimizers := (SessionSettings.of request.tuning).disabledOptimizers

theorem committed_of_buildRung {answer : τ}
    (h : buildRung calls request rung memory s = (.ok answer, s')) :
    ∃ world, (calls.commit (told calls request rung memory) request.model world).1 =
      .ok answer := by
  obtain ⟨_, first, _, h⟩ := bind_eq_ok h
  obtain ⟨attached, second, hattached, h⟩ := bind_eq_ok h
  obtain ⟨settled, third, hsettled, h⟩ := bind_eq_ok h
  have htold : settled = told calls request rung memory := by
    rw [attached_of_settle hsettled, attached_of_attachAll hattached]
    simp [told]
  exact ⟨third.world, htold ▸ ask_eq h⟩

theorem committed_of_attempt {answer : τ} (h : attempt calls request rung s = (.ok answer, s')) :
    ∃ memory world, (calls.commit (told calls request rung memory) request.model world).1 =
      .ok answer := by
  obtain ⟨_, first, _, h⟩ := bind_eq_ok h
  obtain ⟨_, second, _, h⟩ := bind_eq_ok h
  obtain ⟨_, third, _, h⟩ := bind_eq_ok h
  obtain ⟨memory, fourth, _, h⟩ := bind_eq_ok h
  exact ⟨memory, committed_of_buildRung h⟩

/-- The runtime itself turned a build down to which nothing was attached. -/
def RefusedBare (calls : Calls φ σ τ) (model : φ) (reason : String) : Prop :=
  ∃ world, (calls.builder world).1 = .error reason ∨
    ∃ builder : Builder, builder.attached = [] ∧
      ((calls.accept builder world).1 = .error reason ∨
        (calls.commit builder model world).1 = .error reason)

theorem refused_of_configured {model : φ} {reason : String} (hbare : builder.attached = [])
    (h : configured calls builder s = (.error reason, s')) : RefusedBare calls model reason := by
  obtain hask | ⟨_, mid, _, hpure⟩ := bind_eq_error h
  · exact ⟨s.world, .inr ⟨builder, hbare, .inl (ask_eq hask)⟩⟩
  · cases hpure

theorem refused_of_settle {settings : SessionSettings} {model : φ} {reason : String}
    (hbare : builder.attached = []) (h : settle calls settings builder s = (.error reason, s')) :
    RefusedBare calls model reason := by
  obtain h | ⟨parallel, first, hparallel, h⟩ := bind_eq_error h
  · exact refused_of_configured (by exact hbare) h
  rw [eq_of_configured hparallel] at h
  obtain h | ⟨pattern, second, hpattern, h⟩ := bind_eq_error h
  · exact refused_of_configured (by exact hbare) h
  rw [eq_of_configured hpattern] at h
  cases hdisabled : settings.disabledOptimizers with
  | none =>
      rw [hdisabled] at h
      cases h
  | some disabled =>
      rw [hdisabled] at h
      exact refused_of_configured (by exact hbare) h

/-- The CPU fails only if the runtime is not loaded or turns the bare build down. -/
theorem refused_of_attempt_nil {reason : String}
    (h : attempt calls request [] s = (.error reason, s')) :
    reason = "the ONNX Runtime is not loaded" ∨ RefusedBare calls request.model reason := by
  obtain h | ⟨_, first, _, h⟩ := bind_eq_error h
  · left
    simp only [ensure] at h
    split at h
    · cases h
    · cases h
      rfl
  right
  obtain h | ⟨_, second, _, h⟩ := bind_eq_error h
  · cases h
  obtain h | ⟨_, third, _, h⟩ := bind_eq_error h
  · cases h
  obtain h | ⟨memory, fourth, _, h⟩ := bind_eq_error h
  · cases h
  obtain h | ⟨_, fifth, _, h⟩ := bind_eq_error h
  · exact ⟨fourth.world, .inl (ask_eq h)⟩
  obtain h | ⟨attached, sixth, hattached, h⟩ := bind_eq_error h
  · cases h
  have hbare : attached.attached = [] := by rw [attached_of_attachAll hattached]; rfl
  obtain h | ⟨settled, seventh, hsettled, h⟩ := bind_eq_error h
  · exact refused_of_settle hbare h
  have hstill : settled.attached = [] := by rw [attached_of_settle hsettled, hbare]
  exact ⟨seventh.world, .inr ⟨settled, hstill, .inr (ask_eq h)⟩⟩

end Committed

theorem build_of_tryRung {calls : Calls φ σ τ} {request : SessionRequest φ}
    {rung : List ExecutionProvider} {s s' : Process σ} {built : τ}
    (h : tryRung calls request rung s = (.ok built, s')) :
    build calls request rung s = (.ok built, s') := by
  unfold tryRung at h
  cases hbuild : build calls request rung s with
  | mk answer mid =>
      rw [hbuild] at h
      cases answer with
      | ok session =>
          cases h
          rfl
      | error error => cases h

theorem attempt_of_build {calls : Calls φ σ τ} {request : SessionRequest φ}
    {rung : List ExecutionProvider} {s s' : Process σ} {built : τ}
    (h : build calls request rung s = (.ok built, s')) :
    attempt calls request (rung.filterMap Accelerator.of) s = (.ok built, s') := by
  cases hattempt : attempt calls request (rung.filterMap Accelerator.of) s with
  | mk answer mid =>
      simp only [build, hattempt] at h
      cases answer with
      | ok session =>
          cases h
          rfl
      | error reason => cases h

theorem attempt_of_tryRung {calls : Calls φ σ τ} {request : SessionRequest φ}
    {rung : List ExecutionProvider} {s s' : Process σ} {reason : String}
    (h : tryRung calls request rung s = (.error reason, s')) :
    ∃ mid, attempt calls request (rung.filterMap Accelerator.of) s = (.error reason, mid) := by
  cases hattempt : attempt calls request (rung.filterMap Accelerator.of) s with
  | mk answer mid =>
      simp only [tryRung, build, hattempt] at h
      cases answer with
      | ok session => cases h
      | error reason' =>
          cases h
          exact ⟨mid, rfl⟩

/-- Whatever fails on the way, a session is built on the longest tail of the wanted
accelerators that works, told of just these, after a warning about each longer one; and none
is built only if the bare build on the CPU fails as well. -/
theorem session_fell (s : Process σ) :
    ∃ chain, Library.Firsts
        ((accelerators request.providers).filter request.supported.supports) chain ∧
      ∃ failures : List (List ExecutionProvider × String),
        (session calls request s).2.2 = failures.map (warned request.model) ∧
        match (session calls request s).1 with
        | .ok (built, providers) => providers <:+ chain ∧
            chain.tails = failures.map Prod.fst ++ providers.tails ∧
            (∃ mid, Failed (tryRung calls request) failures s mid ∧
              build calls request providers mid = (.ok built, (session calls request s).2.1)) ∧
            ∃ rung memory world, rung.map Accelerator.provider = providers ∧
              (calls.commit (told calls request rung memory) request.model world).1 = .ok built
        | .error error => chain.tails = failures.map Prod.fst ∧
            Failed (tryRung calls request) failures s (session calls request s).2.1 ∧
            (failures.map Prod.snd).getLast? = some error.reason ∧
            (error.reason = "the ONNX Runtime is not loaded" ∨
              RefusedBare calls request.model error.reason) := by
  have hladder := ladder_eq_tails request.providers request.supported
  refine ⟨_, firsts_chain request.supported request.providers, ?_⟩
  obtain hworks | hfails := walk_cases (ladder request.providers request.supported)
    "the ladder has no rung" s
  · obtain ⟨failures, rung, after, built, mid, s', hrungs, hfailed, hbuilt, hwalk⟩ := hworks
    have hsession : session calls request s =
        (.ok (built, rung), s', failures.map (warned request.model)) := hwalk
    obtain ⟨hsuffix, hafter⟩ := tails_from (hladder.symm.trans hrungs)
    have hbuild : build calls request rung mid = (.ok built, s') := build_of_tryRung hbuilt
    refine ⟨failures, by rw [hsession], ?_⟩
    rw [hsession]
    refine ⟨hsuffix, ?_, ⟨mid, hfailed, hbuild⟩, rung.filterMap Accelerator.of, ?_⟩
    · rw [← hladder, hrungs, hafter]
    · obtain ⟨memory, world, hcommit⟩ := committed_of_attempt (attempt_of_build hbuild)
      refine ⟨memory, world, map_provider_filterMap_of ?_, hcommit⟩
      intro provider hprovider
      exact (isAccelerator_of_mem_chain (hsuffix.subset hprovider)).1
  · obtain ⟨failures, s', hrungs, hfailed, hwalk⟩ := hfails
    have hsession : session calls request s =
        (.error ⟨request.model, (failures.map Prod.snd).getLastD "the ladder has no rung"⟩, s',
          failures.map (warned request.model)) := hwalk
    have htails := hladder.symm.trans hrungs
    -- The ladder ends on the CPU, so the last failure is the CPU's.
    obtain ⟨before, cpu, hlast, _, hcpu⟩ := List.map_eq_append_iff.mp hrungs.symm
    obtain ⟨last, rfl, hbare⟩ := List.map_eq_singleton_iff.mp hcpu
    refine ⟨failures, by rw [hsession], ?_⟩
    rw [hsession]
    refine ⟨htails, hfailed, ?_, ?_⟩
    · rw [hlast]
      simp
    · rw [hlast] at hfailed
      obtain ⟨mid, hcpu⟩ := hfailed.last
      rw [hbare] at hcpu
      obtain ⟨mid', hattempt⟩ := attempt_of_tryRung hcpu
      have hreason : (failures.map Prod.snd).getLastD "the ladder has no rung" = last.2 := by
        rw [hlast]
        simp
      rw [hreason]
      exact refused_of_attempt_nil hattempt

end Sessions

end Ai

end RustSak
