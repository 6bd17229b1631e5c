import RustSak.Library.Grouping
import RustSak.O11y.Base64
import RustSak.O11y.Metric.Instruments
import RustSak.O11y.Tracing

/-!
# The payloads of logs and spans

A batch is cut into groups of records that share one enrichment snapshot, and each group
becomes a resource block of its own: `groupByEnrichment` is the grouping by that snapshot
of `Library.Grouping`. What is read back out of a payload is every record of the batch
once, under the resource of the snapshot it was emitted with.
-/

namespace RustSak

namespace O11y

open Library

namespace Otlp

/-! ## Snapshots -/

/-- A handle to what is shared at an address, which does not change while it is shared. -/
@[ext] structure Arc {β : Type*} (shared : ℕ → β) where
  address : ℕ

namespace Arc

variable {β : Type*} {shared : ℕ → β} {a b : Arc shared}

instance : DecidableEq (Arc shared) := fun _ _ => decidable_of_iff _ Arc.ext_iff.symm

/-- What it derefs to. -/
def get (a : Arc shared) : β := shared a.address

def ptrEq (a b : Arc shared) : Bool := a.address == b.address

@[simp] theorem ptrEq_iff : a.ptrEq b = true ↔ a = b := by
  rw [ptrEq, beq_iff_eq, Arc.ext_iff]

end Arc

variable {α τ : Type}

/-- One rendered attribute list, shared by the records emitted while it was current. -/
abbrev Attributes (shared : ℕ → Fields (Tracing.Value (Metric.F64 α))) := Arc shared

variable {shared : ℕ → Fields (Tracing.Value (Metric.F64 α))}

/-- One turn of the loop: the record joins the first group of its snapshot, or begins one. -/
def group (enrichmentOf : τ → Attributes shared) (record : τ) :
    List (Attributes shared × List τ) → List (Attributes shared × List τ)
  | [] => [(enrichmentOf record, [record])]
  | (attributes, members) :: groups =>
      if attributes.ptrEq (enrichmentOf record) then (attributes, members ++ [record]) :: groups
      else (attributes, members) :: group enrichmentOf record groups

def groupByEnrichment (records : List τ) (enrichmentOf : τ → Attributes shared) :
    List (Attributes shared × List τ) :=
  records.foldl (fun groups record => group enrichmentOf record groups) []

/-! ## The groups -/

variable {enrichmentOf : τ → Attributes shared} {record : τ}
  {groups : List (Attributes shared × List τ)}

theorem group_of_notMem (h : enrichmentOf record ∉ groups.map Prod.fst) :
    group enrichmentOf record groups = groups ++ [(enrichmentOf record, [record])] := by
  induction groups with
  | nil => rfl
  | cons first groups ih =>
    rw [List.map_cons, List.mem_cons, not_or] at h
    have hother : ¬first.1.ptrEq (enrichmentOf record) = true := by
      rw [Arc.ptrEq_iff]
      exact fun heq => h.1 heq.symm
    rw [group, if_neg hother, ih h.2, List.cons_append]

/-- No two groups have one snapshot, so the first of its snapshot is the only one. -/
theorem group_of_mem (hnodup : (groups.map Prod.fst).Nodup)
    (h : enrichmentOf record ∈ groups.map Prod.fst) : group enrichmentOf record groups =
      groups.map fun entry =>
        if entry.1 = enrichmentOf record then (entry.1, entry.2 ++ [record]) else entry := by
  induction groups with
  | nil => exact absurd h List.not_mem_nil
  | cons first groups ih =>
    rw [List.map_cons, List.nodup_cons] at hnodup
    rw [group, List.map_cons]
    by_cases hfirst : first.1 = enrichmentOf record
    · have hrest : ∀ entry ∈ groups, (if entry.1 = enrichmentOf record
          then (entry.1, entry.2 ++ [record]) else entry) = entry := by
        intro entry hentry
        refine if_neg fun heq => hnodup.1 ?_
        rw [hfirst, ← heq]
        exact List.mem_map_of_mem hentry
      rw [if_pos (Arc.ptrEq_iff.mpr hfirst), if_pos hfirst, List.map_congr_left hrest, List.map_id']
    · have hmem := (List.mem_cons.mp h).resolve_left (Ne.symm hfirst)
      rw [if_neg (mt Arc.ptrEq_iff.mp hfirst), if_neg hfirst, ih hnodup.2 hmem]

/-- The loop groups by the snapshot. -/
theorem groupByEnrichment_eq (records : List τ) (enrichmentOf : τ → Attributes shared) :
    groupByEnrichment records enrichmentOf = Grouping.groups enrichmentOf records := by
  induction records using List.reverseRecOn with
  | nil => rfl
  | append_singleton records record ih =>
    have hkeys := Grouping.map_fst_groups enrichmentOf records
    have hturn : groupByEnrichment (records ++ [record]) enrichmentOf =
        group enrichmentOf record (groupByEnrichment records enrichmentOf) := List.foldl_concat ..
    rw [hturn, ih]
    by_cases h : enrichmentOf record ∈ Grouping.keys enrichmentOf records
    · rw [Grouping.groups_concat_of_mem h]
      exact group_of_mem (hkeys ▸ Grouping.nodup_keys enrichmentOf records) (hkeys ▸ h)
    · rw [Grouping.groups_concat_of_notMem h]
      exact group_of_notMem (hkeys ▸ h)

/-- Each record is in one group, the records of a group stand in their order, two are in one
group if and only if they carry one snapshot, and no group is empty. -/
theorem groupByEnrichment_partitions (records : List τ) (enrichmentOf : τ → Attributes shared) :
    Grouping.Partitions (fun a b => enrichmentOf a = enrichmentOf b) records
      ((groupByEnrichment records enrichmentOf).map Prod.snd) := by
  rw [groupByEnrichment_eq]
  exact Grouping.groups_partitions enrichmentOf records

/-- A snapshot that comes up again joins its group. -/
example : (groupByEnrichment [0, 1, 2] fun n => (⟨n % 2⟩ : Attributes shared)) =
    [(⟨0⟩, [0, 2]), (⟨1⟩, [1])] := rfl

/-! ## Encoding -/

/-- JSON values, with doubles from `α`. -/
inductive Json (α : Type) where
  | bool (flag : Bool)
  | number (n : ℕ)
  | double (x : α)
  | string (text : String)
  | array (elements : List (Json α))
  | object (fields : List (String × Json α))

/-- 64-bit integers are strings in OTLP. -/
def bigInt (value : ℕ) : Json α := .string (toString value)

/-- The values that are not finite have no number in JSON and are spelled out. -/
def double : Metric.F64 α → Json α
  | .finite x => .double x
  | .infinite negative => .string (if negative then "-Infinity" else "Infinity")
  | .nan => .string "NaN"

mutual

def anyValue : Tracing.Value (Metric.F64 α) → Json α
  | .bool inner => .object [("boolValue", .bool inner)]
  | .int inner => .object [("intValue", .string (toString inner))]
  | .double inner => .object [("doubleValue", double inner)]
  | .string inner => .object [("stringValue", .string inner)]
  | .bytes inner => .object [("bytesValue", .string (.ofList (base64 inner)))]
  | .list inner => .object [("arrayValue", .object [("values", .array (listValues inner))])]
  | .map inner => .object [("kvlistValue", .object [("values", .array (mapValues inner))])]

def listValues : List (Tracing.Value (Metric.F64 α)) → List (Json α)
  | [] => []
  | value :: rest => anyValue value :: listValues rest

def mapValues : List (String × Tracing.Value (Metric.F64 α)) → List (Json α)
  | [] => []
  | (key, value) :: rest =>
      .object [("key", .string key), ("value", anyValue value)] :: mapValues rest

end

def keyValues (attributes : List (String × Json α)) : Json α :=
  .array (attributes.map fun (key, value) => .object [("key", .string key), ("value", value)])

def fieldValues (fields : Fields (Tracing.Value (Metric.F64 α))) : Json α :=
  keyValues (fields.map fun (key, value) => (key, anyValue value))

/-- What describes the process, and what the snapshot holds. -/
def resource (base : Fields (Tracing.Value (Metric.F64 α))) (enrichment : Attributes shared) :
    Json α :=
  .object [("attributes", fieldValues (base ++ enrichment.get))]

def scope : Json α :=
  .object [("name", .string "rust-sak/o11y"), ("version", .string "26.11.1")]

def severityNumber : Level → ℕ
  | .debug => 5
  | .info => 9
  | .warn => 13
  | .error => 17

def severityText : Level → String
  | .debug => "DEBUG"
  | .info => "INFO"
  | .warn => "WARN"
  | .error => "ERROR"

section Records

-- the codec's encoder of ids, whose digits are in lower case
variable (encode : (n : ℕ) → BitVec (8 * n) → List Char)

def traceIdHex (id : TraceId) : Json α := .string (.ofList (encode 16 id))

def spanIdHex (id : SpanId) : Json α := .string (.ofList (encode 8 id))

def logRecord (record : LogRecord (Tracing.Value (Metric.F64 α)) (Attributes shared)) : Json α :=
  .object ([("timeUnixNano", bigInt record.timeUnixNano),
    ("observedTimeUnixNano", bigInt record.timeUnixNano),
    ("severityNumber", .number (severityNumber record.level)),
    ("severityText", .string (severityText record.level)),
    ("body", .object [("stringValue", .string record.body)]),
    ("attributes", fieldValues record.fields)] ++
    match record.traceId, record.spanId with
    | some traceId, some spanId =>
        [("traceId", traceIdHex encode traceId), ("spanId", spanIdHex encode spanId)]
    | _, _ => [])

def spanEvent (event : SpanEvent (Tracing.Value (Metric.F64 α))) : Json α :=
  .object [("timeUnixNano", bigInt event.timeUnixNano), ("name", .string event.name),
    ("attributes", fieldValues event.attributes)]

def spanLink (link : SpanContext) : Json α :=
  .object [("traceId", traceIdHex encode link.traceId), ("spanId", spanIdHex encode link.spanId)]

def spanRecord (record : SpanRecord (Tracing.Value (Metric.F64 α)) (Attributes shared)) :
    Json α :=
  .object ([("traceId", traceIdHex encode record.traceId),
    ("spanId", spanIdHex encode record.spanId), ("name", .string record.name),
    ("kind", .number 1), ("startTimeUnixNano", bigInt record.startUnixNano),
    ("endTimeUnixNano", bigInt record.endUnixNano),
    ("attributes", fieldValues record.attributes),
    ("events", .array (record.events.map spanEvent))] ++
    (record.parentSpanId.elim [] fun parent => [("parentSpanId", spanIdHex encode parent)]) ++
    (if record.links.isEmpty then []
      else [("links", .array (record.links.map (spanLink encode)))]) ++
    match record.status with
    | .unset => []
    | .error message => [("status", .object [("code", .number 2), ("message", .string message)])])

end Records

/-- A payload with a resource block for each group. -/
def payload (resources scopes items : String) (encodeRecord : τ → Json α)
    (enrichmentOf : τ → Attributes shared) (records : List τ)
    (base : Fields (Tracing.Value (Metric.F64 α))) : Json α :=
  .object [(resources, .array ((groupByEnrichment records enrichmentOf).map
    fun (enrichment, records) => .object [("resource", resource base enrichment),
      (scopes, .array [.object [("scope", scope), (items, .array (records.map encodeRecord))]])]))]

def logs (encode : (n : ℕ) → BitVec (8 * n) → List Char)
    (records : List (LogRecord (Tracing.Value (Metric.F64 α)) (Attributes shared)))
    (base : Fields (Tracing.Value (Metric.F64 α))) : Json α :=
  payload "resourceLogs" "scopeLogs" "logRecords" (logRecord encode) (·.enrichment) records base

def traces (encode : (n : ℕ) → BitVec (8 * n) → List Char)
    (records : List (SpanRecord (Tracing.Value (Metric.F64 α)) (Attributes shared)))
    (base : Fields (Tracing.Value (Metric.F64 α))) : Json α :=
  payload "resourceSpans" "scopeSpans" "spans" (spanRecord encode) (·.enrichment) records base

/-! ## Reading a payload -/

namespace Json

/-- The value of a field, if it is an object that has the field. -/
def field? (name : String) : Json α → Option (Json α)
  | .object fields => fields.lookup name
  | _ => none

/-- The elements of a field that is an array. -/
def elements (name : String) (json : Json α) : List (Json α) :=
  match json.field? name with
  | some (.array elements) => elements
  | _ => []

/-- The items of a payload, each with the resource it is under. -/
def reported (resources scopes items : String) (json : Json α) :
    List (Option (Json α) × Json α) :=
  (json.elements resources).flatMap fun block =>
    (block.elements scopes).flatMap fun scope =>
      (scope.elements items).map fun item => (block.field? "resource", item)

end Json

variable {resources scopes items : String} {encodeRecord : τ → Json α}

theorem reported_payload (hscopes : scopes ≠ "resource") (hitems : items ≠ "scope")
    (records : List τ) (base : Fields (Tracing.Value (Metric.F64 α))) :
    (payload resources scopes items encodeRecord enrichmentOf records base).reported
      resources scopes items = (groupByEnrichment records enrichmentOf).flatMap
        fun (enrichment, records) =>
          records.map fun record => (some (resource base enrichment), encodeRecord record) := by
  have hscopes' : (scopes == "resource") = false := beq_false_of_ne hscopes
  have hitems' : (items == "scope") = false := beq_false_of_ne hitems
  simp [payload, Json.reported, Json.elements, Json.field?, List.lookup_cons, hscopes', hitems',
    List.flatMap_map, Function.comp_def]

/-- Every record is reported once, under the resource of its own snapshot. -/
theorem reported_payload_perm (hscopes : scopes ≠ "resource") (hitems : items ≠ "scope")
    (records : List τ) (base : Fields (Tracing.Value (Metric.F64 α))) :
    ((payload resources scopes items encodeRecord enrichmentOf records base).reported
      resources scopes items).Perm (records.map fun record =>
        (some (resource base (enrichmentOf record)), encodeRecord record)) := by
  rw [reported_payload hscopes hitems, groupByEnrichment_eq]
  have hown : ∀ entry ∈ Grouping.groups enrichmentOf records,
      entry.2.map (fun record => (some (resource base entry.1), encodeRecord record)) =
        entry.2.map fun record => (some (resource base (enrichmentOf record)),
          encodeRecord record) := by
    intro entry hentry
    refine List.map_congr_left fun record hrecord => ?_
    rw [Grouping.key_of_mem hentry hrecord]
  have hflat := (Grouping.flatMap_groups_perm enrichmentOf records).map fun record =>
    (some (resource base (enrichmentOf record)), encodeRecord record)
  rw [List.map_flatMap] at hflat
  rw [List.flatMap_congr hown]
  exact hflat

theorem reported_logs (encode : (n : ℕ) → BitVec (8 * n) → List Char)
    (records : List (LogRecord (Tracing.Value (Metric.F64 α)) (Attributes shared)))
    (base : Fields (Tracing.Value (Metric.F64 α))) :
    ((logs encode records base).reported "resourceLogs" "scopeLogs" "logRecords").Perm
      (records.map fun record => (some (resource base record.enrichment),
        logRecord encode record)) :=
  reported_payload_perm (by decide) (by decide) records base

theorem reported_traces (encode : (n : ℕ) → BitVec (8 * n) → List Char)
    (records : List (SpanRecord (Tracing.Value (Metric.F64 α)) (Attributes shared)))
    (base : Fields (Tracing.Value (Metric.F64 α))) :
    ((traces encode records base).reported "resourceSpans" "scopeSpans" "spans").Perm
      (records.map fun record => (some (resource base record.enrichment),
        spanRecord encode record)) :=
  reported_payload_perm (by decide) (by decide) records base

end Otlp

end O11y

end RustSak
