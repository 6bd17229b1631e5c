import RustSak.Library.Hex
import RustSak.O11y.Otlp
import Std.Data.String.ToInt

/-!
# Nothing is lost in a payload

Two values that differ are written differently, and so are two records. With what a reader finds
in a payload, every record under its resource, batches that come to the same payload are batches
of the same records.
-/

namespace RustSak

namespace O11y

open Library

namespace Otlp

variable {α : Type}

/-! ## Values -/

theorem bigInt_injective : Function.Injective (bigInt : ℕ → Json α) := by
  intro m n h
  exact Nat.repr_injective (Json.string.inj h)

theorem double_injective : Function.Injective (double : Metric.F64 α → Json α) := by
  intro x y h
  cases x with
  | finite x =>
      cases y with
      | finite y => rw [Json.double.inj h]
      | infinite negative => cases h
      | nan => cases h
  | infinite negative =>
      cases y with
      | finite y => cases h
      | infinite negative' =>
          cases negative <;> cases negative' <;> simp [double] at h ⊢
      | nan => cases negative <;> simp [double] at h
  | nan =>
      cases y with
      | finite y => cases h
      | infinite negative => cases negative <;> simp [double] at h
      | nan => rfl

theorem base64_injective {a b : List UInt8} (h : base64 a = base64 b) : a = b := by
  have hdecode := decode_base64 a
  rw [h, decode_base64] at hdecode
  exact (Option.some.inj hdecode).symm

mutual

theorem anyValue_inj : ∀ (v w : Tracing.Value (Metric.F64 α)), anyValue v = anyValue w → v = w
  | .bool inner, w, h => by
      cases w with
      | bool inner' =>
          simp only [anyValue, Json.object.injEq, List.cons.injEq, Prod.mk.injEq, true_and,
            and_true] at h
          rw [Json.bool.inj h]
      | _ => simp [anyValue] at h
  | .int inner, w, h => by
      cases w with
      | int inner' =>
          simp only [anyValue, Json.object.injEq, List.cons.injEq, Prod.mk.injEq, true_and,
            and_true] at h
          rw [Int.repr_injective (Json.string.inj h)]
      | _ => simp [anyValue] at h
  | .double inner, w, h => by
      cases w with
      | double inner' =>
          simp only [anyValue, Json.object.injEq, List.cons.injEq, Prod.mk.injEq, true_and,
            and_true] at h
          rw [double_injective h]
      | _ => simp [anyValue] at h
  | .string inner, w, h => by
      cases w with
      | string inner' =>
          simp only [anyValue, Json.object.injEq, List.cons.injEq, Prod.mk.injEq, true_and,
            and_true] at h
          rw [Json.string.inj h]
      | _ => simp [anyValue] at h
  | .bytes inner, w, h => by
      cases w with
      | bytes inner' =>
          simp only [anyValue, Json.object.injEq, List.cons.injEq, Prod.mk.injEq, true_and,
            and_true] at h
          rw [base64_injective (String.ofList_injective (Json.string.inj h))]
      | _ => simp [anyValue] at h
  | .list inner, w, h => by
      cases w with
      | list inner' =>
          simp only [anyValue, Json.object.injEq, List.cons.injEq, Prod.mk.injEq, true_and,
            and_true, Json.array.injEq] at h
          rw [listValues_inj _ _ h]
      | _ => simp [anyValue] at h
  | .map inner, w, h => by
      cases w with
      | map inner' =>
          simp only [anyValue, Json.object.injEq, List.cons.injEq, Prod.mk.injEq, true_and,
            and_true, Json.array.injEq] at h
          rw [mapValues_inj _ _ h]
      | _ => simp [anyValue] at h

theorem listValues_inj : ∀ (vs ws : List (Tracing.Value (Metric.F64 α))),
    listValues vs = listValues ws → vs = ws
  | [], [], _ => rfl
  | [], _ :: _, h => by simp [listValues] at h
  | _ :: _, [], h => by simp [listValues] at h
  | v :: vs, w :: ws, h => by
      rw [listValues, listValues, List.cons.injEq] at h
      rw [anyValue_inj v w h.1, listValues_inj vs ws h.2]

theorem mapValues_inj : ∀ (vs ws : List (String × Tracing.Value (Metric.F64 α))),
    mapValues vs = mapValues ws → vs = ws
  | [], [], _ => rfl
  | [], _ :: _, h => by simp [mapValues] at h
  | _ :: _, [], h => by simp [mapValues] at h
  | (key, v) :: vs, (key', w) :: ws, h => by
      simp only [mapValues, List.cons.injEq, Json.object.injEq, Prod.mk.injEq, Json.string.injEq,
        true_and, and_true] at h
      rw [h.1.1, anyValue_inj v w h.1.2, mapValues_inj vs ws h.2]

end

theorem keyValues_inj {xs ys : List (String × Json α)} (h : keyValues xs = keyValues ys) :
    xs = ys := by
  refine List.map_injective_iff.mpr (fun x y hxy => ?_) (Json.array.inj h)
  simp only [Json.object.injEq, List.cons.injEq, Prod.mk.injEq, Json.string.injEq, true_and,
    and_true] at hxy
  exact Prod.ext hxy.1 hxy.2

theorem fieldValues_inj {xs ys : Fields (Tracing.Value (Metric.F64 α))}
    (h : fieldValues xs = fieldValues ys) : xs = ys := by
  refine List.map_injective_iff.mpr (fun x y hxy => ?_) (keyValues_inj h)
  rw [Prod.mk.injEq] at hxy
  exact Prod.ext hxy.1 (anyValue_inj _ _ hxy.2)

variable {shared : ℕ → Fields (Tracing.Value (Metric.F64 α))}

theorem resource_inj {base : Fields (Tracing.Value (Metric.F64 α))} {a b : Attributes shared}
    (h : resource base a = resource base b) : a.get = b.get := by
  simp only [resource, Json.object.injEq, List.cons.injEq, Prod.mk.injEq, true_and,
    and_true] at h
  exact List.append_cancel_left (fieldValues_inj h)

/-! ## Batches -/

/-- Lists that agree up to order in what another thing depends on agree in it up to order. -/
theorem perm_map_of_factorsThrough {τ β γ : Type} {f : τ → β} {g : τ → γ}
    (hg : Function.FactorsThrough g f) {l l' : List τ} (h : (l.map f).Perm (l'.map f)) :
    (l.map g).Perm (l'.map g) := by
  cases l with
  | nil => rw [List.map_eq_nil_iff.mp (List.perm_nil.mp h.symm)]
  | cons first rest =>
      have hextend : Function.extend f g (fun _ => g first) ∘ f = g :=
        funext (hg.extend_apply fun _ => g first)
      have hmap := h.map (Function.extend f g fun _ => g first)
      rwa [List.map_map, List.map_map, hextend] at hmap

/-- Batches that come to one payload hold the same of their records, where a record and its
resource settle what it holds. -/
theorem payload_inj {τ γ : Type} {resources scopes items : String} {encodeRecord : τ → Json α}
    {enrichmentOf : τ → Attributes shared} {content : τ → γ}
    (hscopes : scopes ≠ "resource") (hitems : items ≠ "scope")
    {base : Fields (Tracing.Value (Metric.F64 α))}
    (hcontent : ∀ r r', (enrichmentOf r).get = (enrichmentOf r').get →
      encodeRecord r = encodeRecord r' → content r = content r')
    {records records' : List τ}
    (h : payload resources scopes items encodeRecord enrichmentOf records base =
      payload resources scopes items encodeRecord enrichmentOf records' base) :
    (records.map content).Perm (records'.map content) := by
  refine perm_map_of_factorsThrough (f := fun record =>
    (some (resource base (enrichmentOf record)), encodeRecord record)) (fun r r' heq => ?_) ?_
  · rw [Prod.mk.injEq, Option.some.injEq] at heq
    exact hcontent r r' (resource_inj heq.1) heq.2
  · have hreported := @reported_payload_perm α τ shared enrichmentOf resources scopes items
      encodeRecord hscopes hitems records base
    rw [h] at hreported
    exact hreported.symm.trans (reported_payload_perm hscopes hitems records' base)

/-! ## Logs and spans -/

/-- What is sent of a record, its ids only where it has both. -/
def sentLog (record : LogRecord (Tracing.Value (Metric.F64 α)) (Attributes shared)) :
    LogRecord (Tracing.Value (Metric.F64 α)) (Fields (Tracing.Value (Metric.F64 α))) where
  timeUnixNano := record.timeUnixNano
  level := record.level
  body := record.body
  fields := record.fields
  enrichment := record.enrichment.get
  traceId := record.spanId.bind fun _ => record.traceId
  spanId := record.traceId.bind fun _ => record.spanId

def sentSpan (record : SpanRecord (Tracing.Value (Metric.F64 α)) (Attributes shared)) :
    SpanRecord (Tracing.Value (Metric.F64 α)) (Fields (Tracing.Value (Metric.F64 α))) :=
  { record with enrichment := record.enrichment.get }

theorem severityNumber_injective : Function.Injective severityNumber := by
  intro a b h
  cases a <;> cases b <;> first | rfl | cases h

/-- What is left out of a span that has none of it. -/
def optional (encode : (n : ℕ) → BitVec (8 * n) → List Char) (parent : Option SpanId)
    (links : List SpanContext) (status : Status) : List (String × Json α) :=
  (parent.elim [] fun parent => [("parentSpanId", spanIdHex encode parent)]) ++
    ((if links.isEmpty then [] else [("links", .array (links.map (spanLink encode)))]) ++
    match status with
    | .unset => []
    | .error message => [("status", .object [("code", .number 2), ("message", .string message)])])

theorem lookup_optional (encode : (n : ℕ) → BitVec (8 * n) → List Char)
    (parent : Option SpanId) (links : List SpanContext) (status : Status) :
    (optional (α := α) encode parent links status).lookup "parentSpanId" =
      parent.map (spanIdHex encode) ∧
    (optional (α := α) encode parent links status).lookup "links" =
      (if links.isEmpty then none else some (.array (links.map (spanLink encode)))) ∧
    (optional (α := α) encode parent links status).lookup "status" =
      (match status with
      | .unset => none
      | .error message => some (.object [("code", .number 2), ("message", .string message)])) := by
  cases parent <;> cases links <;> cases status <;> simp [optional, List.lookup_cons]

section Records

variable {encode : (n : ℕ) → BitVec (8 * n) → List Char}
  (hencode : ∀ n, Function.Injective (encode n))

include hencode

theorem traceIdHex_inj {a b : TraceId} :
    traceIdHex (α := α) encode a = traceIdHex encode b ↔ a = b :=
  ⟨fun h => hencode 16 (String.ofList_injective (Json.string.inj h)), congrArg _⟩

theorem spanIdHex_inj {a b : SpanId} :
    spanIdHex (α := α) encode a = spanIdHex encode b ↔ a = b :=
  ⟨fun h => hencode 8 (String.ofList_injective (Json.string.inj h)), congrArg _⟩

theorem logRecord_inj
    {r r' : LogRecord (Tracing.Value (Metric.F64 α)) (Attributes shared)}
    (henrichment : r.enrichment.get = r'.enrichment.get)
    (h : logRecord encode r = logRecord encode r') : sentLog r = sentLog r' := by
  simp only [logRecord, Json.object.injEq, List.cons_append, List.nil_append, List.cons.injEq,
    Prod.mk.injEq, Json.number.injEq, Json.string.injEq, true_and, and_true] at h
  obtain ⟨htime, _, hlevel, _, hbody, hfields, hids⟩ := h
  have hboth : (r.spanId.bind fun _ => r.traceId) = (r'.spanId.bind fun _ => r'.traceId) ∧
      (r.traceId.bind fun _ => r.spanId) = (r'.traceId.bind fun _ => r'.spanId) := by
    revert hids
    generalize r.traceId = t, r.spanId = i, r'.traceId = t', r'.spanId = i'
    cases t <;> cases i <;> cases t' <;> cases i' <;>
      simp [traceIdHex_inj hencode, spanIdHex_inj hencode]
  rw [sentLog, sentLog, bigInt_injective htime, severityNumber_injective hlevel, hbody,
    fieldValues_inj hfields, henrichment, hboth.1, hboth.2]

omit hencode in
theorem spanEvent_injective :
    Function.Injective (spanEvent (α := α)) := by
  rintro ⟨time, name, attributes⟩ ⟨time', name', attributes'⟩ h
  simp only [spanEvent, Json.object.injEq, List.cons.injEq, Prod.mk.injEq, Json.string.injEq,
    true_and, and_true] at h
  rw [bigInt_injective h.1, h.2.1, fieldValues_inj h.2.2]

theorem spanLink_injective : Function.Injective (spanLink (α := α) encode) := by
  rintro ⟨traceId, spanId⟩ ⟨traceId', spanId'⟩ h
  simp only [spanLink, Json.object.injEq, List.cons.injEq, Prod.mk.injEq, true_and, and_true,
    traceIdHex_inj hencode, spanIdHex_inj hencode] at h
  rw [h.1, h.2]

theorem optional_inj {parent parent' : Option SpanId} {links links' : List SpanContext}
    {status status' : Status}
    (h : optional (α := α) encode parent links status = optional encode parent' links' status') :
    parent = parent' ∧ links = links' ∧ status = status' := by
  obtain ⟨hparent, hlinks, hstatus⟩ := lookup_optional (α := α) encode parent links status
  obtain ⟨hparent', hlinks', hstatus'⟩ := lookup_optional (α := α) encode parent' links' status'
  rw [h] at hparent hlinks hstatus
  have hspanId : Function.Injective (spanIdHex (α := α) encode) :=
    fun _ _ => (spanIdHex_inj hencode).mp
  refine ⟨Option.map_injective hspanId (hparent.symm.trans hparent'), ?_, ?_⟩
  · have hboth := hlinks.symm.trans hlinks'
    cases links with
    | nil =>
        cases links' with
        | nil => rfl
        | cons link rest => cases hboth
    | cons link rest =>
        cases links' with
        | nil => cases hboth
        | cons link' rest' =>
            have harray := Json.array.inj (Option.some.inj hboth)
            exact List.map_injective_iff.mpr (spanLink_injective hencode) harray
  · have hboth := hstatus.symm.trans hstatus'
    cases status with
    | unset =>
        cases status' with
        | unset => rfl
        | error message => cases hboth
    | error message =>
        cases status' with
        | unset => cases hboth
        | error message' =>
            simp only [Option.some.injEq, Json.object.injEq, List.cons.injEq, Prod.mk.injEq,
              Json.string.injEq, true_and, and_true] at hboth
            rw [hboth]

theorem spanRecord_inj
    {r r' : SpanRecord (Tracing.Value (Metric.F64 α)) (Attributes shared)}
    (henrichment : r.enrichment.get = r'.enrichment.get)
    (h : spanRecord encode r = spanRecord encode r') : sentSpan r = sentSpan r' := by
  simp only [spanRecord, Json.object.injEq, List.cons_append, List.nil_append, List.append_assoc,
    List.cons.injEq, Prod.mk.injEq, Json.string.injEq, Json.array.injEq, true_and,
    traceIdHex_inj hencode, spanIdHex_inj hencode] at h
  obtain ⟨htrace, hspan, hname, hstart, hend, hattributes, hevents, hrest⟩ := h
  obtain ⟨hparent, hlinks, hstatus⟩ := optional_inj hencode hrest
  rw [sentSpan, sentSpan]
  simp only [htrace, hspan, hname, bigInt_injective hstart, bigInt_injective hend,
    fieldValues_inj hattributes, List.map_injective_iff.mpr spanEvent_injective hevents,
    hparent, hlinks, hstatus, henrichment]

end Records

end Otlp

end O11y

end RustSak
