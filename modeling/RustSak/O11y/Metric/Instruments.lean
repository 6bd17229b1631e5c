import RustSak.O11y.Metric.Tags
import Mathlib.Data.List.Destutter
import Mathlib.Data.List.Sort
import Mathlib.Algebra.Ring.Nat

/-!
# Counters, gauges and histograms

Each instrument holds an untagged series on its own, the tagged ones in a `TagMap`,
and one series for what the map refuses. The functions here are whole calls: one
recording or one reading with no other thread in between.

Floating-point numbers are the finite ones, an ordered type left open, and those that
are not. Counts and the amounts of a counter have 64 bits and wrap.
-/

namespace RustSak

namespace O11y

namespace Metric

inductive F64 (α : Type*) where
  | finite (x : α)
  | infinite (negative : Bool)
  | nan
  deriving DecidableEq

namespace F64

variable {α : Type*}

def finite? : F64 α → Option α
  | finite x => some x
  | infinite _ => none
  | nan => none

end F64

/-- What is used of the floating-point numbers beyond the order of the finite ones:
the integers, which are exact up to `2 ^ 53`, and the rounded addition. -/
class FloatArith (α : Type*) [LinearOrder α] where
  ofNat : ℕ → α
  ofNat_lt : ∀ m n, m < n → n ≤ 2 ^ 53 → ofNat m < ofNat n
  add : F64 α → F64 α → F64 α

section Points

structure SumPoint where
  tags : Tags
  value : UInt64

structure GaugePoint (α : Type*) where
  tags : Tags
  value : F64 α

structure HistogramPoint (α : Type*) where
  tags : Tags
  count : UInt64
  sum : F64 α
  bucketCounts : List UInt64

/-- The data points of one instrument. -/
inductive MetricData (α : Type*) where
  | sum (points : List SumPoint)
  | gauge (points : List (GaugePoint α))
  | histogram (bounds : List α) (points : List (HistogramPoint α))

structure MetricSnapshot (α : Type*) where
  name : String
  data : MetricData α

/-- The tags of the points, in their order. -/
def MetricData.tags {α : Type*} : MetricData α → List Tags
  | sum points => points.map (·.tags)
  | gauge points => points.map (·.tags)
  | histogram _ points => points.map (·.tags)

end Points

variable {hashPair : Tag → UInt64} {α : Type*}

section Counter

structure Counter (hashPair : Tag → UInt64) where
  name : String
  untagged : UInt64
  untaggedSet : Bool
  tagged : TagMap hashPair UInt64
  overflow : UInt64

def counter (hashPair : Tag → UInt64) (name : String) : Counter hashPair where
  name := name
  untagged := 0
  untaggedSet := false
  tagged := TagMap.empty
  overflow := 0

namespace Counter

def increment (c : Counter hashPair) (amount : UInt64) : Counter hashPair :=
  { c with untagged := c.untagged + amount, untaggedSet := true }

def addWithTags (c : Counter hashPair) (amount : UInt64) (tags : Tags) :
    Counter hashPair :=
  match c.tagged.withTags tags 0 fun series => series + amount with
  | some tagged => { c with tagged := tagged }
  | none => { c with overflow := c.overflow + amount }

def value (c : Counter hashPair) (tags : Tags) : UInt64 :=
  if tags.isEmpty then c.untagged
  else (c.tagged.get tags).getD 0

def points (c : Counter hashPair) : List SumPoint :=
  (if c.untaggedSet then [⟨[], c.untagged⟩] else []) ++
    c.tagged.each.map (fun s => ⟨s.1, s.2⟩) ++
    if 0 < c.overflow then [⟨overflowTags, c.overflow⟩] else []

def snapshot (c : Counter hashPair) : MetricSnapshot α := ⟨c.name, .sum c.points⟩

end Counter

end Counter

section Gauge

variable [LinearOrder α] [FloatArith α]

/-- A gauge's cells start at the bit pattern of zero. -/
def zero : F64 α := .finite (FloatArith.ofNat 0)

structure Gauge (hashPair : Tag → UInt64) (α : Type*) where
  name : String
  untagged : F64 α
  untaggedSet : Bool
  tagged : TagMap hashPair (F64 α)
  overflow : F64 α
  overflowSet : Bool

def gauge (hashPair : Tag → UInt64) (name : String) : Gauge hashPair α where
  name := name
  untagged := zero
  untaggedSet := false
  tagged := TagMap.empty
  overflow := zero
  overflowSet := false

namespace Gauge

omit [LinearOrder α] [FloatArith α]

def set (g : Gauge hashPair α) (value : F64 α) : Gauge hashPair α :=
  { g with untagged := value, untaggedSet := true }

def setWithTags (g : Gauge hashPair α) (value : F64 α) (tags : Tags) :
    Gauge hashPair α :=
  match g.tagged.withTags tags value fun _ => value with
  | some tagged => { g with tagged := tagged }
  | none => { g with overflow := value, overflowSet := true }

def value (g : Gauge hashPair α) (tags : Tags) : Option (F64 α) :=
  if tags.isEmpty then if g.untaggedSet then some g.untagged else none
  else g.tagged.get tags

def points (g : Gauge hashPair α) : List (GaugePoint α) :=
  (if g.untaggedSet then [⟨[], g.untagged⟩] else []) ++
    g.tagged.each.map (fun s => ⟨s.1, s.2⟩) ++
    if g.overflowSet then [⟨overflowTags, g.overflow⟩] else []

def snapshot (g : Gauge hashPair α) : MetricSnapshot α := ⟨g.name, .gauge g.points⟩

end Gauge

end Gauge

section Histogram

variable [LinearOrder α] [FloatArith α]

/-- The bounds used when `withBuckets` was never called. -/
def defaultBounds : List α :=
  [0, 5, 10, 25, 50, 75, 100, 250, 500, 750, 1000, 2500, 5000, 7500, 10000].map
    FloatArith.ofNat

/-- One series of a histogram. -/
structure Buckets (α : Type*) where
  counts : List UInt64
  count : UInt64
  sum : F64 α

namespace Buckets

def new (boundCount : ℕ) : Buckets α where
  counts := List.replicate (boundCount + 1) 0
  count := 0
  sum := zero

/-- The first bucket whose bound is not exceeded, else the last one. -/
def index (bounds : List α) (value : α) : ℕ :=
  bounds.findIdx fun bound => decide (value ≤ bound)

def record (bounds : List α) (value : α) (b : Buckets α) : Buckets α where
  counts := b.counts.modify (index bounds value) (· + 1)
  count := b.count + 1
  sum := FloatArith.add b.sum (.finite value)

/-- The exported count is the sum of the buckets as read, not the separate counter. -/
def snapshot (b : Buckets α) (tags : Tags) : HistogramPoint α where
  tags := tags
  count := b.counts.sum
  sum := b.sum
  bucketCounts := b.counts

end Buckets

structure Layout (α : Type*) where
  bounds : List α
  untagged : Buckets α

def Layout.new (bounds : List α) : Layout α := ⟨bounds, .new bounds.length⟩

structure Histogram (hashPair : Tag → UInt64) (α : Type*) where
  name : String
  layout : Option (Layout α)
  tagged : TagMap hashPair (Buckets α)
  overflow : Option (Buckets α)

def histogram (hashPair : Tag → UInt64) (name : String) : Histogram hashPair α where
  name := name
  layout := none
  tagged := TagMap.empty
  overflow := none

namespace Histogram

/-- The finite bounds, sorted, each once. -/
def normalise (bounds : List (F64 α)) : List α :=
  ((bounds.filterMap F64.finite?).mergeSort fun a b => decide (a ≤ b)).destutter (· ≠ ·)

/-- Only the first call sets the layout. -/
def withBuckets (h : Histogram hashPair α) (bounds : List (F64 α)) :
    Histogram hashPair α :=
  match h.layout with
  | some _ => h
  | none => { h with layout := some (.new (normalise bounds)) }

def getLayout (h : Histogram hashPair α) : Layout α :=
  h.layout.getD (.new defaultBounds)

def record (h : Histogram hashPair α) (value : F64 α) : Histogram hashPair α :=
  match value.finite? with
  | none => h
  | some x =>
      let layout := h.getLayout
      let untagged := layout.untagged.record layout.bounds x
      { h with layout := some { layout with untagged := untagged } }

def recordWithTags (h : Histogram hashPair α) (value : F64 α) (tags : Tags) :
    Histogram hashPair α :=
  match value.finite? with
  | none => h
  | some x =>
      let layout := h.getLayout
      let make := Buckets.new layout.bounds.length
      match h.tagged.withTags tags make (Buckets.record layout.bounds x) with
      | some tagged => { h with layout := some layout, tagged := tagged }
      | none =>
          { h with
            layout := some layout
            overflow := some ((h.overflow.getD make).record layout.bounds x) }

def read (h : Histogram hashPair α) (tags : Tags) : Option (Buckets α) :=
  if tags.isEmpty then h.layout.map (·.untagged) else h.tagged.get tags

def count (h : Histogram hashPair α) (tags : Tags) : UInt64 :=
  ((h.read tags).map (·.count)).getD 0

def sum (h : Histogram hashPair α) (tags : Tags) : F64 α :=
  ((h.read tags).map (·.sum)).getD zero

def points (h : Histogram hashPair α) (layout : Layout α) : List (HistogramPoint α) :=
  (if 0 < layout.untagged.count then [layout.untagged.snapshot []] else []) ++
    h.tagged.each.map (fun s => s.2.snapshot s.1) ++
    (h.overflow.map (·.snapshot overflowTags)).toList

def snapshot (h : Histogram hashPair α) : MetricSnapshot α :=
  match h.layout with
  | none => ⟨h.name, .histogram [] []⟩
  | some layout => ⟨h.name, .histogram layout.bounds (h.points layout)⟩

end Histogram

end Histogram

end Metric

end O11y

end RustSak
