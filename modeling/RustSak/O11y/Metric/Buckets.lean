import RustSak.O11y.Metric.ReadBack

/-!
# Histogram buckets

The kept bounds are the finite ones given, in strictly increasing order, so the
buckets cut the finite values into intervals that are open below and closed above.
Every value that is recorded is in a series, and is counted there in the one bucket it
lies in; the counts of a series add up to the number of its values. Counts have 64 bits.
-/

namespace RustSak

namespace O11y

namespace Metric

namespace Histogram

variable {α : Type*}

section Recordings

/-- A call that changes a histogram. -/
inductive Call (α : Type*) where
  | withBuckets (bounds : List (F64 α))
  | record (r : Recording (F64 α))

/-- The recordings of finite values among the calls. -/
def recordings (calls : List (Call α)) : List (Recording α) :=
  calls.filterMap fun
    | .withBuckets _ => none
    | .record r => r.finite?

theorem recordings_withBuckets (bounds : List (F64 α)) (calls : List (Call α)) :
    recordings (.withBuckets bounds :: calls) = recordings calls := rfl

theorem recordings_of_some {r : Recording (F64 α)} {r' : Recording α}
    (h : r.finite? = some r') (calls : List (Call α)) :
    recordings (.record r :: calls) = r' :: recordings calls :=
  List.filterMap_cons_some h

theorem recordings_of_none {r : Recording (F64 α)} (h : r.finite? = none)
    (calls : List (Call α)) : recordings (.record r :: calls) = recordings calls :=
  List.filterMap_cons_none h

end Recordings

variable [LinearOrder α]

section Bounds

/-- Sorted, and no neighbours equal, is strictly increasing. -/
theorem pairwise_lt_of_isChain_ne {l : List α} (hle : l.Pairwise (· ≤ ·))
    (hne : l.IsChain (· ≠ ·)) : l.Pairwise (· < ·) := by
  rw [← List.isChain_iff_pairwise]
  induction hne with
  | nil => exact .nil
  | singleton a => exact .singleton a
  | cons_cons hab _ ih =>
      obtain ⟨hhead, htail⟩ := List.pairwise_cons.mp hle
      exact .cons_cons (lt_of_le_of_ne (hhead _ List.mem_cons_self) hab) (ih htail)

theorem pairwise_normalise (bounds : List (F64 α)) :
    (normalise bounds).Pairwise (· < ·) := by
  have hsorted := List.pairwise_mergeSort' (· ≤ ·) (bounds.filterMap F64.finite?)
  exact pairwise_lt_of_isChain_ne (hsorted.sublist (List.destutter_sublist _ _))
    (List.isChain_destutter _ _)

theorem mem_destutter'_ne {l : List α} {a x : α} :
    x ∈ l.destutter' (· ≠ ·) a ↔ x ∈ a :: l := by
  induction l generalizing a with
  | nil => rfl
  | cons b l ih =>
      by_cases h : a ≠ b
      · rw [List.destutter'_cons_pos _ h, List.mem_cons, ih, List.mem_cons (b := a)]
      · rw [List.destutter'_cons_neg _ h, ih, not_not.mp h]
        simp

theorem mem_destutter_ne {l : List α} {x : α} :
    x ∈ l.destutter (· ≠ ·) ↔ x ∈ l := by
  cases l with
  | nil => rfl
  | cons a l => exact mem_destutter'_ne

/-- The bounds kept are the finite ones given. -/
theorem mem_normalise {bounds : List (F64 α)} {x : α} :
    x ∈ normalise bounds ↔ .finite x ∈ bounds := by
  rw [normalise, mem_destutter_ne, List.mem_mergeSort, List.mem_filterMap]
  constructor
  · rintro ⟨v, hv, hx⟩
    cases v with
    | finite y =>
        rw [F64.finite?, Option.some.injEq] at hx
        rwa [← hx]
    | infinite negative => exact absurd hx (Option.some_ne_none x).symm
    | nan => exact absurd hx (Option.some_ne_none x).symm
  · intro h
    exact ⟨_, h, rfl⟩

theorem pairwise_defaultBounds [FloatArith α] :
    (defaultBounds : List α).Pairwise (· < ·) := by
  have hnat : [0, 5, 10, 25, 50, 75, 100, 250, 500, 750, 1000, 2500, 5000, 7500,
      10000].Pairwise fun m n => m < n ∧ n ≤ 2 ^ 53 := by decide
  rw [defaultBounds, List.pairwise_map]
  exact hnat.imp fun h => FloatArith.ofNat_lt _ _ h.1 h.2

end Bounds

section Index

/-- The bound a bucket lies above; the first has none. -/
def lower (bounds : List α) : ℕ → Option α
  | 0 => none
  | i + 1 => bounds[i]?

/-- The values of a bucket: above the bound before it, and up to its own. -/
def InBucket (bounds : List α) (i : ℕ) (v : α) : Prop :=
  i ≤ bounds.length ∧ (∀ bound ∈ lower bounds i, bound < v) ∧
    ∀ bound ∈ bounds[i]?, v ≤ bound

instance (bounds : List α) (i : ℕ) (v : α) : Decidable (InBucket bounds i v) :=
  inferInstanceAs (Decidable (_ ∧ _ ∧ _))

/-- The bounds before the bucket of a value are exceeded. -/
theorem lt_of_lt_index {bounds : List α} {v : α} {i : ℕ}
    (h : i < Buckets.index bounds v) : ∀ bound ∈ bounds[i]?, bound < v := by
  intro bound hbound
  obtain ⟨hlt, hget⟩ := List.getElem?_eq_some_iff.mp hbound
  have hnot := List.not_of_lt_findIdx h
  rw [hget] at hnot
  exact lt_of_not_ge (by simpa using hnot)

theorem le_of_index {bounds : List α} {v : α} :
    ∀ bound ∈ bounds[Buckets.index bounds v]?, v ≤ bound := by
  intro bound hbound
  have hat := List.findIdx_of_getElem?_eq_some hbound
  exact of_decide_eq_true hat

theorem inBucket_index (bounds : List α) (v : α) :
    InBucket bounds (Buckets.index bounds v) v := by
  refine ⟨List.findIdx_le_length, fun bound hbound => ?_, le_of_index⟩
  cases hindex : Buckets.index bounds v with
  | zero =>
      rw [hindex] at hbound
      exact absurd hbound (Option.not_mem_none bound)
  | succ i =>
      rw [hindex] at hbound
      exact lt_of_lt_index (by omega) bound hbound

/-- No other bucket holds the value. -/
theorem inBucket_iff {bounds : List α} (h : bounds.Pairwise (· < ·)) (i : ℕ) (v : α) :
    InBucket bounds i v ↔ i = Buckets.index bounds v := by
  have hlength : Buckets.index bounds v ≤ bounds.length := List.findIdx_le_length
  constructor
  · rintro ⟨hle, hlower, hupper⟩
    rcases Nat.lt_trichotomy i (Buckets.index bounds v) with hlt | heq | hgt
    · have hi : i < bounds.length := by omega
      have hmem : bounds[i] ∈ bounds[i]? := List.getElem?_eq_getElem hi
      have habove := hupper _ hmem
      have hbelow := lt_of_lt_index hlt _ hmem
      exact absurd hbelow (not_lt_of_ge habove)
    · exact heq
    · obtain ⟨j, rfl⟩ : ∃ j, i = j + 1 := ⟨i - 1, by omega⟩
      have hj : j < bounds.length := by omega
      have hfirst : Buckets.index bounds v < bounds.length := by omega
      have hbelow : bounds[j] < v :=
        hlower _ (List.getElem?_eq_getElem hj)
      have habove : v ≤ bounds[Buckets.index bounds v] :=
        le_of_index _ (List.getElem?_eq_getElem hfirst)
      have hsorted : bounds[Buckets.index bounds v] ≤ bounds[j] :=
        h.sortedLT.sortedLE.getElem_le_getElem_of_le (by omega)
      exact absurd hbelow (not_lt_of_ge (habove.trans hsorted))
  · rintro rfl
    exact inBucket_index bounds v

theorem existsUnique_inBucket {bounds : List α} (h : bounds.Pairwise (· < ·)) (v : α) :
    ∃! i, InBucket bounds i v :=
  ⟨Buckets.index bounds v, inBucket_index bounds v, fun i => (inBucket_iff h i v).mp⟩

end Index

section Counts

variable [FloatArith α]

/-- What the buckets of a series say of its values. -/
structure Counts (bounds vs : List α) (b : Buckets α) : Prop where
  length : b.counts.length = bounds.length + 1
  bucket : ∀ i ≤ bounds.length,
    b.counts[i]? = some (.ofNat (vs.countP fun v => decide (InBucket bounds i v)))
  count : b.count = .ofNat vs.length
  exported : ∀ tags, (b.snapshot tags).count = (b.snapshot tags).bucketCounts.sum ∧
    (b.snapshot tags).count = .ofNat vs.length

theorem counts_new (bounds : List α) : Counts bounds [] (Buckets.new bounds.length) where
  length := List.length_replicate
  bucket i hi := by
    rw [List.countP_nil]
    exact List.getElem?_replicate_of_lt (by omega)
  count := rfl
  exported tags := by
    refine ⟨rfl, ?_⟩
    have hzeros : ∀ n, (List.replicate n (0 : UInt64)).sum = 0 := by
      intro n
      induction n with
      | zero => rfl
      | succ n ih => rw [List.replicate_succ, List.sum_cons, ih, UInt64.add_zero]
    exact hzeros _

theorem sum_modify_succ {l : List UInt64} {i : ℕ} (h : i < l.length) :
    (l.modify i (· + 1)).sum = l.sum + 1 := by
  induction l generalizing i with
  | nil => exact absurd h (Nat.not_lt_zero i)
  | cons n l ih =>
      cases i with
      | zero =>
          rw [List.modify_zero_cons, List.sum_cons, List.sum_cons, UInt64.add_assoc,
            UInt64.add_comm 1, UInt64.add_assoc]
      | succ i =>
          rw [List.modify_succ_cons, List.sum_cons, List.sum_cons,
            ih (Nat.lt_of_succ_lt_succ h), UInt64.add_assoc]

/-- One value is counted in its bucket and in no other. -/
theorem Counts.record {bounds vs : List α} {b : Buckets α}
    (hsorted : bounds.Pairwise (· < ·)) (h : Counts bounds vs b) (v : α) :
    Counts bounds (vs ++ [v]) (b.record bounds v) := by
  have hindex : Buckets.index bounds v ≤ bounds.length := List.findIdx_le_length
  have hsum : (b.record bounds v).counts.sum = .ofNat (vs.length + 1) := by
    rw [Buckets.record, sum_modify_succ (by rw [h.length]; omega), UInt64.ofNat_add]
    exact congrArg (· + 1) (h.exported []).2
  constructor
  · rw [Buckets.record, List.length_modify, h.length]
  · intro i hi
    rw [Buckets.record, List.getElem?_modify, h.bucket i hi, Option.map_eq_map,
      Option.map_some, List.countP_append, List.countP_singleton]
    by_cases hin : InBucket bounds i v
    · have heq := (inBucket_iff hsorted i v).mp hin
      rw [if_pos heq.symm, if_pos (decide_eq_true hin), UInt64.ofNat_add]
      rfl
    · have hne := mt (inBucket_iff hsorted i v).mpr hin
      rw [if_neg (Ne.symm hne), if_neg (by simpa using hin), Nat.add_zero]
  · rw [Buckets.record, h.count, List.length_append, List.length_singleton, UInt64.ofNat_add]
    rfl
  · intro tags
    rw [List.length_append, List.length_singleton]
    exact ⟨rfl, hsum⟩

theorem counts_ofValues {bounds : List α} (hsorted : bounds.Pairwise (· < ·))
    (vs : List α) : Counts bounds vs (Buckets.ofValues bounds vs) := by
  induction vs using List.reverseRecOn with
  | nil => exact counts_new bounds
  | append_singleton vs v ih =>
      rw [Buckets.ofValues_concat]
      exact ih.record hsorted v

end Counts

section Calls

variable [FloatArith α] {hashPair : Tag → UInt64}

def call (h : Histogram hashPair α) : Call α → Histogram hashPair α
  | .withBuckets bounds => h.withBuckets bounds
  | .record r => h.enter r

/-- The first call that sets bounds or records a finite value fixes the bounds. -/
def boundsOf : List (Call α) → List α
  | [] => defaultBounds
  | .withBuckets bounds :: _ => normalise bounds
  | .record r :: calls => if r.finite?.isSome then defaultBounds else boundsOf calls

theorem pairwise_boundsOf (calls : List (Call α)) :
    (boundsOf calls).Pairwise (· < ·) := by
  induction calls with
  | nil => exact pairwise_defaultBounds
  | cons c calls ih =>
      cases c with
      | withBuckets bounds => exact pairwise_normalise bounds
      | record r =>
          rw [boundsOf]
          split
          · exact pairwise_defaultBounds
          · exact ih

theorem withBuckets_of_layout {h : Histogram hashPair α}
    (hlayout : h.layout.isSome = true) (bounds : List (F64 α)) :
    h.withBuckets bounds = h := by
  obtain ⟨layout, hsome⟩ := Option.isSome_iff_exists.mp hlayout
  rw [withBuckets, hsome]

/-- A recording of a finite value leaves a layout behind. -/
theorem isSome_layout_enter (h : Histogram hashPair α) (r : Recording (F64 α)) :
    (h.enter r).layout.isSome = (h.layout.isSome || r.finite?.isSome) := by
  cases r with
  | untagged value =>
      cases value with
      | finite x => exact (Bool.or_true _).symm
      | infinite negative => exact (Bool.or_false _).symm
      | nan => exact (Bool.or_false _).symm
  | tagged value tags =>
      cases value with
      | finite x =>
          have hsome : (h.recordWithTags (.finite x) tags).layout.isSome = true := by
            unfold recordWithTags
            simp only [F64.finite?]
            split
            · rfl
            · rfl
          rw [enter, hsome]
          exact (Bool.or_true _).symm
      | infinite negative => exact (Bool.or_false _).symm
      | nan => exact (Bool.or_false _).symm

theorem enter_of_none {h : Histogram hashPair α} {r : Recording (F64 α)}
    (hr : r.finite? = none) : h.enter r = h := by
  cases r with
  | untagged value =>
      cases value with
      | finite x => exact absurd hr (Option.some_ne_none _)
      | infinite negative => rfl
      | nan => rfl
  | tagged value tags =>
      cases value with
      | finite x => exact absurd hr (Option.some_ne_none _)
      | infinite negative => rfl
      | nan => rfl

/-- Once there is a layout, later bounds change nothing. -/
theorem run_of_layout {h : Histogram hashPair α} (hlayout : h.layout.isSome = true)
    (calls : List (Call α)) {bounds : List α} {l : Ledger α} (ha : Agrees bounds h l) :
    Agrees bounds (calls.foldl call h) ((recordings calls).foldl Ledger.enter l) := by
  induction calls generalizing h l with
  | nil => exact ha
  | cons c calls ih =>
      cases c with
      | withBuckets bounds' =>
          rw [List.foldl_cons, call, withBuckets_of_layout hlayout, recordings_withBuckets]
          exact ih hlayout ha
      | record r =>
          have hkept := ha.enter r
          have hlayout' : (h.enter r).layout.isSome = true := by
            rw [isSome_layout_enter, hlayout, Bool.true_or]
          cases hr : r.finite? with
          | none =>
              rw [hr] at hkept
              rw [List.foldl_cons, call, recordings_of_none hr]
              exact ih hlayout' hkept
          | some r' =>
              rw [hr] at hkept
              rw [List.foldl_cons, call, recordings_of_some hr, List.foldl_cons]
              exact ih hlayout' hkept

/-- Setting the bounds before anything was recorded. -/
theorem Agrees.withBuckets {h : Histogram hashPair α} (hlayout : h.layout = none)
    (ha : Agrees defaultBounds h ⟨[], []⟩) (bounds : List (F64 α)) :
    Agrees (normalise bounds) (h.withBuckets bounds) ⟨[], []⟩ := by
  have hrun : h.withBuckets bounds = { h with layout := some (.new (normalise bounds)) } := by
    rw [Histogram.withBuckets, hlayout]
  rw [hrun]
  exact {
    tagged := fun k => ha.tagged k
    layoutBounds := rfl
    untagged := rfl
    overflow := ha.overflow
    unset := fun _ => rfl }

theorem agrees_calls {h : Histogram hashPair α} (hlayout : h.layout = none)
    (ha : Agrees defaultBounds h ⟨[], []⟩) (calls : List (Call α)) :
    Agrees (boundsOf calls) (calls.foldl call h) (.of (recordings calls)) := by
  induction calls with
  | nil => exact ha
  | cons c calls ih =>
      cases c with
      | withBuckets bounds =>
          apply run_of_layout _ calls (ha.withBuckets hlayout bounds)
          rw [withBuckets, hlayout]
          rfl
      | record r =>
          cases hr : r.finite? with
          | none =>
              rw [List.foldl_cons, call, enter_of_none hr, recordings_of_none hr, boundsOf, hr]
              exact ih
          | some r' =>
              have hkept := ha.enter r
              have hset : (h.enter r).layout.isSome = true := by
                rw [isSome_layout_enter, hr, Option.isSome_some, Bool.or_true]
              rw [hr] at hkept
              rw [boundsOf, hr, recordings_of_some hr]
              exact run_of_layout hset calls hkept

end Calls

end Histogram

section Main

variable {hashPair : Tag → UInt64} {α : Type*} [LinearOrder α] [FloatArith α]

/-- The sets that have a series are those that are known. -/
theorem exists_series_iff {T : Type*} (m : TagMap hashPair T) (k : Multiset Tag) :
    (∃ s ∈ m.each, Multiset.ofList s.1 = k) ↔ k ∈ m.known := by
  change _ ↔ k ∈ m.sets
  rw [TagMap.sets, List.mem_map]

/-- Whatever bounds are given and whatever is recorded, in any order: the bounds kept
are strictly increasing, they cut the values into buckets of which each value lies in
one, and the untagged, the tagged and the overflow series count their values so. Every
set that something was recorded under has its one series, and what was refused, if
anything was, is in the overflow. -/
theorem Histogram.counts_partition (name : String) (calls : List (Call α)) :
    let h := calls.foldl call (histogram hashPair name)
    let l := Ledger.of (recordings calls)
    let bounds := h.getLayout.bounds
    bounds = boundsOf calls ∧ bounds.Pairwise (· < ·) ∧
      (∀ v, ∃! i, InBucket bounds i v) ∧
      Counts bounds l.untagged h.getLayout.untagged ∧
      (h.tagged.each.map fun s => Multiset.ofList s.1).Nodup ∧
      (∀ k, (∃ s ∈ h.tagged.each, Multiset.ofList s.1 = k) ↔ k ∈ l.known) ∧
      (∀ s ∈ h.tagged.each, Counts bounds (l.tagged s.1) s.2) ∧
      (h.overflow.isSome = true ↔ l.refused ≠ []) ∧
      ∀ b ∈ h.overflow, Counts bounds l.refused b := by
  intro h l bounds
  have ha : Agrees (boundsOf calls) h l :=
    agrees_calls rfl (agrees_histogram name) calls
  have hbounds : bounds = boundsOf calls := ha.layoutBounds
  have hsorted : bounds.Pairwise (· < ·) := by
    rw [hbounds]
    exact pairwise_boundsOf calls
  refine ⟨hbounds, hsorted, existsUnique_inBucket hsorted, ?_, h.tagged.sets_nodup, fun k => ?_,
    fun s hs => ?_, ?_, fun b hb => ?_⟩
  · rw [ha.untagged, ← hbounds]
    exact counts_ofValues hsorted _
  · rw [exists_series_iff, ha.tagged.known]
  · have hseries := h.tagged.seriesOf_eq_some.mpr ⟨s.1, hs, rfl⟩
    rw [ha.tagged, ← hbounds, Buckets.accumulate_eq] at hseries
    obtain ⟨-, hsome⟩ := Option.ite_none_left_eq_some.mp hseries
    rw [← Option.some.inj hsome]
    exact counts_ofValues hsorted _
  · rw [ha.overflow, isSome_accumulate]
  · have hover := ha.overflow
    rw [Option.mem_def.mp hb, ← hbounds, Buckets.accumulate_eq] at hover
    obtain ⟨-, hsome⟩ := Option.ite_none_left_eq_some.mp hover.symm
    rw [← Option.some.inj hsome]
    exact counts_ofValues hsorted _

end Main

end Metric

end O11y

end RustSak
