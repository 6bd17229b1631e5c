import RustSak.O11y.Lossless

/-!
# The payload of metrics, and the three together

One resource block holds every metric there is, each with its points. As with logs and spans
nothing of them is lost: snapshots that differ are written differently, but for the bounds of a
histogram that has no point yet.
-/

namespace RustSak

namespace O11y

open Library

namespace Otlp

variable {α : Type} {shared : ℕ → Fields (Tracing.Value (Metric.F64 α))}

/-! ## Encoding -/

/-- Tag values are always strings. -/
def tagValues (tags : Metric.Tags) : Json α :=
  keyValues (tags.map fun (key, value) => (key, .object [("stringValue", .string value)]))

/-- `AGGREGATION_TEMPORALITY_CUMULATIVE`. -/
def cumulative : Json α := .number 2

def sumPoint (start now : ℕ) (point : Metric.SumPoint) : Json α :=
  .object [("attributes", tagValues point.tags), ("startTimeUnixNano", bigInt start),
    ("timeUnixNano", bigInt now), ("asInt", .string (toString point.value.toNat))]

def gaugePoint (now : ℕ) (point : Metric.GaugePoint α) : Json α :=
  .object [("attributes", tagValues point.tags), ("timeUnixNano", bigInt now),
    ("asDouble", double point.value)]

def histogramPoint (bounds : List α) (start now : ℕ) (point : Metric.HistogramPoint α) : Json α :=
  .object [("attributes", tagValues point.tags), ("startTimeUnixNano", bigInt start),
    ("timeUnixNano", bigInt now), ("count", bigInt point.count.toNat), ("sum", double point.sum),
    ("explicitBounds", .array (bounds.map .double)),
    ("bucketCounts", .array (point.bucketCounts.map fun count => bigInt count.toNat))]

def metricData (start now : ℕ) : Metric.MetricData α → String × Json α
  | .sum points => ("sum", .object [("aggregationTemporality", cumulative),
      ("isMonotonic", .bool true), ("dataPoints", .array (points.map (sumPoint start now)))])
  | .gauge points => ("gauge", .object [("dataPoints", .array (points.map (gaugePoint now)))])
  | .histogram bounds points => ("histogram", .object [("aggregationTemporality", cumulative),
      ("dataPoints", .array (points.map (histogramPoint bounds start now)))])

def metric (start now : ℕ) (snapshot : Metric.MetricSnapshot α) : Json α :=
  .object [metricData start now snapshot.data, ("name", .string snapshot.name)]

def metrics (snapshots : List (Metric.MetricSnapshot α))
    (base : Fields (Tracing.Value (Metric.F64 α))) (enrichment : Attributes shared)
    (start now : ℕ) : Json α :=
  .object [("resourceMetrics", .array [.object [("resource", resource base enrichment),
    ("scopeMetrics", .array [.object [("scope", scope),
      ("metrics", .array (snapshots.map (metric start now)))]])]])]

/-! ## Nothing lost -/

theorem tagValues_injective : Function.Injective (tagValues : Metric.Tags → Json α) := by
  intro a b h
  refine List.map_injective_iff.mpr (fun x y hxy => ?_) (keyValues_inj h)
  simp only [Prod.mk.injEq, Json.object.injEq, List.cons.injEq, Json.string.injEq, true_and,
    and_true] at hxy
  exact Prod.ext hxy.1 hxy.2

theorem sumPoint_injective (start now : ℕ) :
    Function.Injective (sumPoint start now : Metric.SumPoint → Json α) := by
  rintro ⟨tags, value⟩ ⟨tags', value'⟩ h
  simp only [sumPoint, Json.object.injEq, List.cons.injEq, Prod.mk.injEq, Json.string.injEq,
    true_and, and_true] at h
  rw [tagValues_injective h.1, UInt64.toNat_inj.mp (Nat.repr_injective h.2)]

theorem gaugePoint_injective (now : ℕ) :
    Function.Injective (gaugePoint now : Metric.GaugePoint α → Json α) := by
  rintro ⟨tags, value⟩ ⟨tags', value'⟩ h
  simp only [gaugePoint, Json.object.injEq, List.cons.injEq, Prod.mk.injEq, true_and,
    and_true] at h
  rw [tagValues_injective h.1, double_injective h.2]

theorem histogramPoint_inj {bounds bounds' : List α} {start now : ℕ}
    {point point' : Metric.HistogramPoint α}
    (h : histogramPoint bounds start now point = histogramPoint bounds' start now point') :
    bounds = bounds' ∧ point = point' := by
  obtain ⟨tags, count, sum, bucketCounts⟩ := point
  obtain ⟨tags', count', sum', bucketCounts'⟩ := point'
  simp only [histogramPoint, Json.object.injEq, List.cons.injEq, Prod.mk.injEq,
    Json.array.injEq, true_and, and_true] at h
  obtain ⟨htags, hcount, hsum, hbounds, hcounts⟩ := h
  have hbucket : Function.Injective fun count : UInt64 => (bigInt count.toNat : Json α) :=
    fun _ _ heq => UInt64.toNat_inj.mp (bigInt_injective heq)
  rw [tagValues_injective htags, UInt64.toNat_inj.mp (bigInt_injective hcount),
    double_injective hsum, List.map_injective_iff.mpr hbucket hcounts]
  exact ⟨List.map_injective_iff.mpr (fun _ _ => Json.double.inj) hbounds, rfl⟩

/-- What is sent of a metric. Bounds are sent with the points. -/
def sentData : Metric.MetricData α → Metric.MetricData α
  | .histogram _ [] => .histogram [] []
  | data => data

theorem metricData_inj {start now : ℕ} {data data' : Metric.MetricData α}
    (h : metricData start now data = metricData start now data') :
    sentData data = sentData data' := by
  cases data with
  | sum points =>
      cases data' with
      | sum points' =>
          simp only [metricData, Prod.mk.injEq, Json.object.injEq, List.cons.injEq,
            Json.array.injEq, true_and, and_true] at h
          rw [List.map_injective_iff.mpr (sumPoint_injective start now) h]
      | gauge points' => simp [metricData] at h
      | histogram bounds' points' => simp [metricData] at h
  | gauge points =>
      cases data' with
      | sum points' => simp [metricData] at h
      | gauge points' =>
          simp only [metricData, Prod.mk.injEq, Json.object.injEq, List.cons.injEq,
            Json.array.injEq, true_and, and_true] at h
          rw [List.map_injective_iff.mpr (gaugePoint_injective now) h]
      | histogram bounds' points' => simp [metricData] at h
  | histogram bounds points =>
      cases data' with
      | sum points' => simp [metricData] at h
      | gauge points' => simp [metricData] at h
      | histogram bounds' points' =>
          simp only [metricData, Prod.mk.injEq, Json.object.injEq, List.cons.injEq,
            Json.array.injEq, true_and, and_true] at h
          cases points with
          | nil => rw [List.map_eq_nil_iff.mp h.symm]; rfl
          | cons point points =>
              cases points' with
              | nil => cases h
              | cons point' points' =>
                  rw [List.map_cons, List.map_cons, List.cons.injEq] at h
                  obtain ⟨hbounds, hpoint⟩ := histogramPoint_inj h.1
                  subst hbounds
                  have hpoints : Function.Injective (histogramPoint bounds start now) :=
                    fun _ _ heq => (histogramPoint_inj heq).2
                  rw [hpoint, List.map_injective_iff.mpr hpoints h.2]

theorem metrics_inj {snapshots snapshots' : List (Metric.MetricSnapshot α)}
    {base : Fields (Tracing.Value (Metric.F64 α))} {enrichment enrichment' : Attributes shared}
    {start now : ℕ}
    (h : metrics snapshots base enrichment start now =
      metrics snapshots' base enrichment' start now) :
    enrichment.get = enrichment'.get ∧
      snapshots.map (fun snapshot => (snapshot.name, sentData snapshot.data)) =
        snapshots'.map fun snapshot => (snapshot.name, sentData snapshot.data) := by
  simp only [metrics, Json.object.injEq, List.cons.injEq, Prod.mk.injEq, Json.array.injEq,
    true_and, and_true] at h
  refine ⟨resource_inj h.1, ?_⟩
  have hsnapshots := h.2
  clear h
  induction snapshots generalizing snapshots' with
  | nil => rw [List.map_eq_nil_iff.mp hsnapshots.symm]
  | cons snapshot snapshots ih =>
      cases snapshots' with
      | nil => cases hsnapshots
      | cons snapshot' snapshots' =>
          rw [List.map_cons, List.map_cons, List.cons.injEq] at hsnapshots
          obtain ⟨hfirst, hrest⟩ := hsnapshots
          simp only [metric, Json.object.injEq, List.cons.injEq, Prod.mk.injEq,
            Json.string.injEq, true_and, and_true] at hfirst
          rw [List.map_cons, List.map_cons, hfirst.2, metricData_inj hfirst.1, ih hrest]

/-- What the exporter posts has all there was: batches of logs that come to one payload are the
same records up to order, each with its attributes, so are batches of spans, and what was read of
the metrics is the same, in its order. -/
theorem posted_lossless {encode : (n : ℕ) → BitVec (8 * n) → List Char}
    (hencode : ∀ n, Function.Injective (encode n))
    (base : Fields (Tracing.Value (Metric.F64 α))) :
    (∀ records records' : List (LogRecord (Tracing.Value (Metric.F64 α)) (Attributes shared)),
      logs encode records base = logs encode records' base →
        (records.map sentLog).Perm (records'.map sentLog)) ∧
    (∀ records records' : List (SpanRecord (Tracing.Value (Metric.F64 α)) (Attributes shared)),
      traces encode records base = traces encode records' base →
        (records.map sentSpan).Perm (records'.map sentSpan)) ∧
    ∀ (snapshots snapshots' : List (Metric.MetricSnapshot α))
      (enrichment enrichment' : Attributes shared) (start now : ℕ),
      metrics snapshots base enrichment start now =
        metrics snapshots' base enrichment' start now →
      enrichment.get = enrichment'.get ∧
        snapshots.map (fun snapshot => (snapshot.name, sentData snapshot.data)) =
          snapshots'.map fun snapshot => (snapshot.name, sentData snapshot.data) :=
  ⟨fun _ _ h => payload_inj (by decide) (by decide) (fun _ _ => logRecord_inj hencode) h,
    fun _ _ h => payload_inj (by decide) (by decide) (fun _ _ => spanRecord_inj hencode) h,
    fun _ _ _ _ _ _ h => metrics_inj h⟩

theorem encode_injective (n : ℕ) : Function.Injective (Hex.encode n) := by
  intro a b h
  have hdecode := Hex.codec.decode_encode n a
  rw [h, Hex.codec.decode_encode] at hdecode
  exact (Option.some.inj hdecode).symm

/-- The attributes of one session and of another. -/
def sessions (n : ℕ) : Fields (Tracing.Value (Metric.F64 ℕ)) := [("session.id", .int n)]

def session : Attributes sessions := ⟨0⟩

/-- A record inside a span, with a nested field, and one of another session outside any. -/
def nested (size : ℤ) :
    List (LogRecord (Tracing.Value (Metric.F64 ℕ)) (Attributes sessions)) :=
  [⟨1, .info, "begun", [("read", .list [.int size, .bytes [0, 255]])], session, some 1, some 2⟩,
    ⟨2, .error, "ended", [], ⟨1⟩, none, none⟩]

/-- A span that failed and has a link, and a span below it. -/
def linked (id : SpanId) :
    List (SpanRecord (Tracing.Value (Metric.F64 ℕ)) (Attributes sessions)) :=
  [⟨1, 2, none, "load", 1, 4, [], [⟨2, "read", [("row", .map [("size", .int 4)])]⟩], [⟨1, id⟩],
      .error "torn", session⟩,
    ⟨1, 3, some 2, "parse", 2, 3, [], [], [], .unset, session⟩]

def measured (count : UInt64) : List (Metric.MetricSnapshot ℕ) :=
  [⟨"latency", .histogram [1, 5] [⟨[("route", "/")], 3, .finite 7, [count, 0, 2]⟩]⟩,
    ⟨"orders", .sum [⟨[], 3⟩]⟩]

theorem posted_lossless_nested :
    logs Hex.encode (nested 1) [] ≠ logs Hex.encode (nested 2) [] ∧
    traces Hex.encode (linked 8) [] ≠ traces Hex.encode (linked 9) [] ∧
    metrics (measured 0) [] session 1 2 ≠ metrics (measured 1) [] session 1 2 := by
  obtain ⟨hlogs, hspans, hmetrics⟩ :=
    posted_lossless encode_injective ([] : Fields (Tracing.Value (Metric.F64 ℕ)))
  refine ⟨fun h => ?_, fun h => ?_, fun h => ?_⟩
  · have hmem := (hlogs _ _ h).mem_iff.mp List.mem_cons_self
    simp [nested, sentLog] at hmem
  · have hmem := (hspans _ _ h).mem_iff.mp List.mem_cons_self
    simp [linked, sentSpan] at hmem
  · have hread := (hmetrics _ _ _ _ _ _ h).2
    simp [measured, sentData] at hread

end Otlp

end O11y

end RustSak
