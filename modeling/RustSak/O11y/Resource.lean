import RustSak.O11y.Enrichment
import RustSak.O11y.Fields

/-!
# What describes the process

Every payload describes the process by attributes made of the configuration, followed by those
of an enrichment. Callers of the builder add attributes of their own among the first; what the
module reports itself is not theirs to change.
-/

namespace RustSak

namespace O11y

open Library

namespace Resource

variable {υ : Type}

/-! ## The configuration -/

inductive Environment where
  | development
  | production
  | custom (name : String)
  deriving DecidableEq

def Environment.display : Environment → String
  | .development => "development"
  | .production => "production"
  | .custom name => name

/-- What of a configuration describes the process. -/
structure Config (υ : Type) where
  serviceName : String
  serviceVersion : String
  environment : Environment
  resource : Fields υ

/-- A call of the builder. -/
inductive Setter (υ : Type) where
  | serviceName (name : String)
  | serviceVersion (version : String)
  | environment (environment : Environment)
  | resourceAttribute (key : String) (value : υ)

def Config.builder : Config υ := ⟨"", "", .development, []⟩

def Config.set (config : Config υ) : Setter υ → Config υ
  | .serviceName name => { config with serviceName := name }
  | .serviceVersion version => { config with serviceVersion := version }
  | .environment environment => { config with environment := environment }
  | .resourceAttribute key value =>
      { config with resource := SpanState.setField key value config.resource }

/-- What the builder has after these calls. -/
def configured (calls : List (Setter υ)) : Config υ := calls.foldl Config.set .builder

def reservedPrefixes : List String :=
  ["service.", "telemetry.sdk.", "machine.", "location.", "deployment.environment."]

/-- A key the module sets itself. -/
def isReserved (key : String) : Bool :=
  key == "session.id" ||
    reservedPrefixes.any fun start => start.toList.isPrefixOf key.toList

section Attributes

-- a text as a value
variable (text : String → υ)

/-- The pairs that are not the caller's. -/
def builtIn (config : Config υ) : Fields υ :=
  [("service.name", text config.serviceName)] ++
    (if config.serviceVersion = "" then []
      else [("service.version", text config.serviceVersion)]) ++
    [("deployment.environment.name", text config.environment.display),
      ("telemetry.sdk.name", text "rust-sak"), ("telemetry.sdk.language", text "rust")]

def resourceAttributes (config : Config υ) : Fields υ :=
  builtIn text config ++ config.resource.filter fun entry => !isReserved entry.1

end Attributes

/-! ## What the calls come to -/

/-- The attributes a caller gave, in the order of the calls. -/
def given (calls : List (Setter υ)) : Fields υ :=
  calls.filterMap fun
    | .resourceAttribute key value => some (key, value)
    | _ => none

/-- The calls that add no attribute. -/
def ownCalls (calls : List (Setter υ)) : List (Setter υ) :=
  calls.filter fun
    | .resourceAttribute _ _ => false
    | _ => true

theorem resource_foldl (calls : List (Setter υ)) (config : Config υ) :
    (calls.foldl Config.set config).resource = Fields.setAll (given calls) config.resource := by
  induction calls generalizing config with
  | nil => rfl
  | cons call calls ih =>
      rw [List.foldl_cons, ih]
      cases call with
      | serviceName name => rfl
      | serviceVersion version => rfl
      | environment environment => rfl
      | resourceAttribute key value => rfl

theorem resource_configured (calls : List (Setter υ)) :
    (configured calls).resource = Fields.setAll (given calls) [] :=
  resource_foldl calls .builder

/-- The configuration with nothing added. -/
def Config.bare (config : Config υ) : Config υ := { config with resource := [] }

/-- Adding attributes changes nothing else. -/
theorem bare_foldl (calls : List (Setter υ)) (config : Config υ) :
    (calls.foldl Config.set config).bare = (ownCalls calls).foldl Config.set config.bare := by
  induction calls generalizing config with
  | nil => rfl
  | cons call calls ih =>
      rw [List.foldl_cons, ih]
      cases call with
      | serviceName name => rfl
      | serviceVersion version => rfl
      | environment environment => rfl
      | resourceAttribute key value => rfl

theorem given_ownCalls (calls : List (Setter υ)) : given (ownCalls calls) = [] := by
  refine List.filterMap_eq_nil_iff.mpr fun call hcall => ?_
  have hown := (List.mem_filter.mp hcall).2
  cases call with
  | resourceAttribute key value => cases hown
  | serviceName name => rfl
  | serviceVersion version => rfl
  | environment environment => rfl

variable {text : String → υ}

theorem builtIn_ownCalls (calls : List (Setter υ)) :
    builtIn text (configured (ownCalls calls)) = builtIn text (configured calls) :=
  (congrArg (builtIn text) (bare_foldl calls .builder)).symm

/-! ## The keys -/

theorem nodup_builtIn (config : Config υ) : (Fields.keys (builtIn text config)).Nodup := by
  rw [builtIn, Fields.keys]
  split
  · simp
  · simp

def builtInKeys : List String :=
  ["service.name", "service.version", "deployment.environment.name", "telemetry.sdk.name",
    "telemetry.sdk.language"]

def enrichmentKeys : List String :=
  ["machine.id", "machine.os", "machine.arch"] ++ Enrichment.locationKeys ++ ["session.id"]

theorem isReserved_of_mem : ∀ key ∈ builtInKeys ++ enrichmentKeys, isReserved key = true := by
  simp only [builtInKeys, enrichmentKeys, Enrichment.locationKeys, List.cons_append,
    List.nil_append, List.forall_mem_cons]
  decide

theorem keys_builtIn (config : Config υ) :
    Fields.keys (builtIn text config) ⊆ builtInKeys := by
  rw [builtIn, Fields.keys, builtInKeys]
  split
  · simp
  · simp

theorem keys_render {base : Fields υ} (h : Enrichment.Keyed base) (sessionId : String) :
    Fields.keys (Enrichment.render text base sessionId) ⊆ enrichmentKeys := by
  rw [Fields.keys, Enrichment.render, List.map_append, enrichmentKeys]
  exact List.append_subset.mpr ⟨fun key hkey => List.mem_append_left _ (h.2 key hkey),
    List.subset_append_right _ _⟩

/-- What the caller added does not come under a key of the module. -/
theorem not_isReserved_of_mem {config : Config υ} {key : String}
    (h : key ∈ Fields.keys (config.resource.filter fun entry => !isReserved entry.1)) :
    isReserved key = false := by
  obtain ⟨entry, hentry, rfl⟩ := List.mem_map.mp h
  simpa using (List.mem_filter.mp hentry).2

theorem nodup_resourceAttributes (calls : List (Setter υ)) :
    (Fields.keys (resourceAttributes text (configured calls))).Nodup := by
  have hresource : (Fields.keys (configured calls).resource).Nodup := by
    rw [resource_configured]
    exact Fields.nodup_setAll _ List.nodup_nil
  rw [resourceAttributes, Fields.keys, List.map_append]
  refine List.Nodup.append (nodup_builtIn _) (hresource.sublist (List.filter_sublist.map _)) ?_
  intro key hbuiltIn hadded
  have hreserved := isReserved_of_mem key
    (List.mem_append_left _ (keys_builtIn _ hbuiltIn))
  rw [not_isReserved_of_mem hadded] at hreserved
  cases hreserved

theorem disjoint_resourceAttributes (config : Config υ) {key : String}
    (h : key ∈ Fields.keys (resourceAttributes text config)) : key ∉ enrichmentKeys := by
  intro henrichment
  rw [Fields.keys, resourceAttributes, List.map_append, List.mem_append] at h
  rcases h with h | h
  · have hdisjoint : ∀ key ∈ builtInKeys, key ∉ enrichmentKeys := by decide
    exact hdisjoint key (keys_builtIn _ h) henrichment
  · have hreserved := isReserved_of_mem key (List.mem_append_right _ henrichment)
    rw [not_isReserved_of_mem h] at hreserved
    cases hreserved

theorem lookup_filter (fields : Fields υ) (key : String) :
    List.lookup key (fields.filter fun entry => !isReserved entry.1) =
      if isReserved key then none else fields.lookup key := by
  induction fields with
  | nil => simp
  | cons field fields ih =>
      obtain ⟨existing, value⟩ := field
      rw [List.filter_cons, Fields.lookup_cons]
      cases hreserved : isReserved existing with
      | true =>
          rw [if_neg (by simp), ih]
          by_cases hk : key = existing
          · rw [hk, hreserved, if_pos rfl, if_pos rfl]
          · rw [if_neg hk]
      | false =>
          rw [if_pos (by simp), Fields.lookup_cons, ih]
          by_cases hk : key = existing
          · rw [hk, hreserved, if_pos rfl, if_pos rfl, if_neg Bool.false_ne_true]
          · rw [if_neg hk, if_neg hk]

theorem lookup_resourceAttributes (calls : List (Setter υ)) (key : String) :
    (resourceAttributes text (configured calls)).lookup key =
      ((builtIn text (configured (ownCalls calls))).lookup key).or
        (if isReserved key then none else (given calls).reverse.lookup key) := by
  rw [resourceAttributes, List.lookup_append, builtIn_ownCalls, lookup_filter,
    resource_configured, Fields.lookup_setAll_last, List.lookup_nil, Option.or_none]

/-- In what describes the process no key comes twice. A key of the module is reported as if the
caller had added no attribute at all, and any other as the caller gave it last. -/
theorem reported_once {s : Enrichment.State υ} (hr : (Enrichment.machine text).Reachable s)
    (calls : List (Setter υ)) {emission : Enrichment.Emission υ}
    (hemission : emission ∈ s.emitted) :
    (Fields.keys (resourceAttributes text (configured calls) ++ emission.attributes)).Nodup ∧
    ∀ key, (resourceAttributes text (configured calls) ++ emission.attributes).lookup key =
      if isReserved key then
        (resourceAttributes text (configured (ownCalls calls)) ++
          emission.attributes).lookup key
      else (given calls).reverse.lookup key := by
  have h := Enrichment.inv_of_reachable hr
  obtain ⟨⟨_, pair, hpair, hattributes⟩, _⟩ := h.emitted emission hemission
  have hkeyed := h.keyed pair (List.mem_of_getElem? hpair)
  have henrichment : Fields.keys emission.attributes ⊆ enrichmentKeys := by
    rw [hattributes]
    exact keys_render hkeyed _
  refine ⟨?_, fun key => ?_⟩
  · rw [Fields.keys, List.map_append]
    refine List.Nodup.append (nodup_resourceAttributes calls) ?_ fun key hkey hrendered => ?_
    · rw [hattributes]
      exact hkeyed.render _
    · have hother := disjoint_resourceAttributes (configured calls) hkey
      exact hother (henrichment hrendered)
  · rw [List.lookup_append, List.lookup_append, lookup_resourceAttributes,
      lookup_resourceAttributes, given_ownCalls, builtIn_ownCalls, builtIn_ownCalls,
      builtIn_ownCalls]
    cases hreserved : isReserved key with
    | true => simp
    | false =>
        have hown : ∀ key ∈ builtInKeys ++ enrichmentKeys, isReserved key = true :=
          isReserved_of_mem
        have hbuiltIn : (builtIn text (configured calls)).lookup key = none := by
          refine Fields.lookup_eq_none.mpr fun hkey => ?_
          rw [hown key (List.mem_append_left _ (keys_builtIn _ hkey))] at hreserved
          cases hreserved
        have hrendered : emission.attributes.lookup key = none := by
          refine Fields.lookup_eq_none.mpr fun hkey => ?_
          rw [hown key (List.mem_append_right _ (henrichment hkey))] at hreserved
          cases hreserved
        rw [hbuiltIn, hrendered]
        simp

/-- Calls of which one would rename the service, and two give one key. -/
def shadowing : List (Setter String) :=
  [.serviceName "checkout", .resourceAttribute "gpu" "none",
    .resourceAttribute "service.name" "other", .resourceAttribute "gpu" "integrated"]

/-- The service keeps its name, and the key its last value. -/
theorem reported_once_shadowing : ∃ attributes : Fields String,
    (resourceAttributes id (configured shadowing) ++ attributes).lookup "service.name" =
      some "checkout" ∧
    (resourceAttributes id (configured shadowing) ++ attributes).lookup "gpu" =
      some "integrated" := by
  have hlegal : Machine.Legal Enrichment.Enabled (Enrichment.next id)
      (Enrichment.new id (Enrichment.gathered id none "linux" "x86_64") "first") [.emit] :=
    ⟨trivial, trivial⟩
  have hr := (Machine.Reachable.start (M := Enrichment.machine id) ⟨none, "linux", "x86_64",
    "first", rfl⟩).legal hlegal
  have hreported := (reported_once hr shadowing List.mem_cons_self).2
  exact ⟨_, (hreported "service.name").trans (by decide), (hreported "gpu").trans (by decide)⟩

end Resource

end O11y

end RustSak
