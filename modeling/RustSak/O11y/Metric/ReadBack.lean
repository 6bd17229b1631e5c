import RustSak.O11y.Metric.Instruments
import Mathlib.Algebra.BigOperators.Group.List.Basic

/-!
# Reading back what was recorded

A `Ledger` is what the recordings amount to when tags are sets with multiplicity and
the untagged series is the one of no tags: which of them were taken, in their order,
and what was refused. The tagged series of an instrument agree with it. The untagged
series is kept apart, so the instruments agree with it as long as nothing is recorded
under an empty tag slice, and likewise for the overflow series and its tags.
-/

namespace RustSak

namespace O11y

namespace Metric

section Ledger

inductive Recording (V : Type*) where
  | untagged (value : V)
  | tagged (value : V) (tags : Tags)

namespace Recording

variable {V : Type*}

def value : Recording V → V
  | untagged value => value
  | tagged value _ => value

def key : Recording V → Multiset Tag
  | untagged _ => 0
  | tagged _ tags => Multiset.ofList tags

def isTagged : Recording V → Bool
  | untagged _ => false
  | tagged _ _ => true

end Recording

/-- The recordings taken, in their order, and the values refused. -/
structure Ledger (V : Type*) where
  taken : List (Recording V)
  refused : List V

namespace Ledger

variable {V : Type*} (l : Ledger V)

/-- The values recorded under a set of tags. -/
def values (k : Multiset Tag) : List V :=
  (l.taken.filter fun r => decide (r.key = k)).map Recording.value

def untagged : List V := (l.taken.filter fun r => !r.isTagged).map Recording.value

/-- The values recorded under tags that are the set. -/
def tagged (k : Multiset Tag) : List V :=
  (l.taken.filter fun r => r.isTagged && decide (r.key = k)).map Recording.value

/-- The sets something was recorded under. -/
def known : Finset (Multiset Tag) :=
  ((l.taken.filter Recording.isTagged).map Recording.key).toFinset

/-- Whether a recording is taken when those in the ledger have been made. -/
def takes (r : Recording V) : Bool :=
  match r with
  | .untagged _ => true
  | .tagged _ tags => decide (Admits l.known tags)

def enter (l : Ledger V) (r : Recording V) : Ledger V :=
  if l.takes r then { l with taken := l.taken ++ [r] }
  else { l with refused := l.refused ++ [r.value] }

/-- The ledger of recordings made one after the other. -/
def of (rs : List (Recording V)) : Ledger V := rs.foldl enter ⟨[], []⟩

variable {l}

theorem mem_known {k : Multiset Tag} : k ∈ l.known ↔ l.tagged k ≠ [] := by
  rw [known, List.mem_toFinset, tagged, ne_eq, List.map_eq_nil_iff,
    List.filter_eq_nil_iff]
  simp only [List.mem_map, List.mem_filter, Bool.and_eq_true, decide_eq_true_eq, not_forall,
    not_not, exists_prop, and_assoc]

/-- Something was taken under a set when it was under its tags, or it is the set of no
tags and something was untagged. -/
theorem taken_key {k : Multiset Tag} :
    (∃ r ∈ l.taken, r.key = k) ↔ k ∈ l.known ∨ k = 0 ∧ l.untagged ≠ [] := by
  rw [known, List.mem_toFinset, untagged, ne_eq, List.map_eq_nil_iff,
    List.filter_eq_nil_iff]
  simp only [List.mem_map, List.mem_filter, Bool.not_eq_true', not_forall, exists_prop,
    Bool.not_eq_false]
  constructor
  · rintro ⟨r, hr, rfl⟩
    cases r with
    | untagged value => exact .inr ⟨rfl, .untagged value, hr, by simp [Recording.isTagged]⟩
    | tagged value tags => exact .inl ⟨_, ⟨hr, rfl⟩, rfl⟩
  · rintro (⟨r, ⟨hr, -⟩, hkey⟩ | ⟨rfl, r, hr, hnot⟩)
    · exact ⟨r, hr, hkey⟩
    · cases r with
      | untagged value => exact ⟨_, hr, rfl⟩
      | tagged value tags => simp [Recording.isTagged] at hnot

/-- Away from the set of no tags, only tagged recordings count. -/
theorem values_eq_tagged {k : Multiset Tag} (h : k ≠ 0) : l.values k = l.tagged k := by
  unfold values tagged
  congr 1
  apply List.filter_congr
  intro r _
  cases r with
  | untagged value => simp [Recording.key, Recording.isTagged, h.symm]
  | tagged value tags => simp [Recording.isTagged]

/-- Without a recording under an empty slice, the values of no tags are the untagged
ones. -/
theorem values_zero_of_tagged_nil (h : l.tagged 0 = []) : l.values 0 = l.untagged := by
  rw [tagged, List.map_eq_nil_iff, List.filter_eq_nil_iff] at h
  unfold values untagged
  congr 1
  apply List.filter_congr
  intro r hr
  have hr := h r hr
  cases r with
  | untagged value => simp [Recording.key, Recording.isTagged]
  | tagged value tags => simpa [Recording.isTagged] using hr

theorem perm_values_zero : (l.values 0).Perm (l.untagged ++ l.tagged 0) := by
  have hsplit := List.filter_append_perm (fun r : Recording V => !r.isTagged)
    (l.taken.filter fun r => decide (r.key = 0))
  have huntagged : (l.taken.filter fun r => decide (r.key = 0)).filter
      (fun r => !r.isTagged) = l.taken.filter fun r => !r.isTagged := by
    rw [List.filter_filter]
    apply List.filter_congr
    intro r _
    cases r with
    | untagged value => simp [Recording.key]
    | tagged value tags => simp [Recording.isTagged]
  rw [huntagged, List.filter_filter] at hsplit
  simp only [Bool.not_not] at hsplit
  unfold values untagged tagged
  rw [← List.map_append]
  exact (hsplit.map Recording.value).symm

theorem enter_of_takes {r : Recording V} (h : l.takes r = true) :
    l.enter r = { l with taken := l.taken ++ [r] } := if_pos h

theorem enter_of_not {r : Recording V} (h : l.takes r = false) :
    l.enter r = { l with refused := l.refused ++ [r.value] } :=
  if_neg (Bool.eq_false_iff.mp h)

theorem length_taken_of_le (rs : List (Recording V)) : (of rs).taken.length ≤ rs.length := by
  induction rs using List.reverseRecOn with
  | nil => exact le_rfl
  | append_singleton rs r ih =>
      rw [of, List.foldl_concat, ← of, enter, List.length_append, List.length_singleton]
      split
      · rw [List.length_append, List.length_singleton]
        exact Nat.succ_le_succ ih
      · exact ih.trans (Nat.le_succ _)

theorem enter_untagged (v : V) : l.enter (.untagged v) =
    { l with taken := l.taken ++ [.untagged v] } := enter_of_takes rfl

theorem untagged_enter_untagged (v : V) :
    (l.enter (.untagged v)).untagged = l.untagged ++ [v] := by
  simp [enter_untagged, untagged, Recording.isTagged, Recording.value]

theorem tagged_enter_untagged (v : V) (k : Multiset Tag) :
    (l.enter (.untagged v)).tagged k = l.tagged k := by
  simp [enter_untagged, tagged, Recording.isTagged]

theorem untagged_enter_tagged (v : V) (tags : Tags) :
    (l.enter (.tagged v tags)).untagged = l.untagged := by
  unfold enter
  split
  · simp [untagged, Recording.isTagged]
  · rfl

theorem enter_of_admits {tags : Tags} (h : Admits l.known tags) (v : V) :
    l.enter (.tagged v tags) = { l with taken := l.taken ++ [.tagged v tags] } :=
  enter_of_takes (decide_eq_true h)

theorem tagged_enter_of_admits {tags : Tags} (h : Admits l.known tags) (v : V)
    (k : Multiset Tag) : (l.enter (.tagged v tags)).tagged k =
      l.tagged k ++ if k = Multiset.ofList tags then [v] else [] := by
  rw [enter_of_admits h]
  by_cases hkey : Multiset.ofList tags = k
  · simp [tagged, Recording.isTagged, Recording.key, Recording.value, hkey]
  · have hkey' : k ≠ Multiset.ofList tags := Ne.symm hkey
    simp [tagged, Recording.isTagged, Recording.key, hkey, hkey']

theorem refused_enter_untagged (v : V) :
    (l.enter (.untagged v)).refused = l.refused := by
  rw [enter_untagged]

theorem refused_enter_of_admits {tags : Tags} (h : Admits l.known tags) (v : V) :
    (l.enter (.tagged v tags)).refused = l.refused := by
  rw [enter_of_admits h]

theorem enter_of_not_admits {tags : Tags} (h : ¬Admits l.known tags) (v : V) :
    l.enter (.tagged v tags) = { l with refused := l.refused ++ [v] } :=
  enter_of_not (decide_eq_false h)

end Ledger

end Ledger

section Series

variable {V T : Type*} {hashPair : Tag → UInt64}

/-- What the values of one series come to: the first makes it, each is used on it. -/
def accumulate (make : V → T) (use : V → T → T) (vs : List V) : Option T :=
  vs.foldl (fun series v => some (use v (series.getD (make v)))) none

theorem accumulate_concat (make : V → T) (use : V → T → T) (vs : List V) (v : V) :
    accumulate make use (vs ++ [v]) =
      some (use v ((accumulate make use vs).getD (make v))) := by
  unfold accumulate
  rw [List.foldl_concat]

theorem isSome_accumulate (make : V → T) (use : V → T → T) (vs : List V) :
    (accumulate make use vs).isSome = true ↔ vs ≠ [] := by
  cases vs using List.reverseRecOn with
  | nil => simp [accumulate]
  | append_singleton vs v => simp [accumulate_concat]

/-- Each set has the series its values come to. -/
def Keeps (m : TagMap hashPair T) (make : V → T) (use : V → T → T) (l : Ledger V) :
    Prop := ∀ k, m.seriesOf k = accumulate make use (l.tagged k)

variable {m : TagMap hashPair T} {make : V → T} {use : V → T → T} {l : Ledger V}

theorem Keeps.known (h : Keeps m make use l) : m.known = l.known := by
  apply Finset.ext
  intro k
  rw [m.mem_known, h k, isSome_accumulate, Ledger.mem_known]

theorem Keeps.untagged (h : Keeps m make use l) (v : V) :
    Keeps m make use (l.enter (.untagged v)) := by
  intro k
  rw [h k, Ledger.tagged_enter_untagged]

/-- Tags that the ledger takes the map takes too. -/
theorem Keeps.taken (h : Keeps m make use l) {tags : Tags} (ha : Admits l.known tags)
    (v : V) : ∃ m', m.withTags tags (make v) (use v) = some m' ∧
      Keeps m' make use (l.enter (.tagged v tags)) := by
  rw [← h.known] at ha
  obtain ⟨m', hwith, hseries⟩ := m.withTags_of_admits ha (make v) (use v)
  refine ⟨m', hwith, fun k => ?_⟩
  rw [h.known] at ha
  rw [hseries k, Ledger.tagged_enter_of_admits ha]
  split
  case isTrue heq => rw [accumulate_concat, h k]
  case isFalse => rw [List.append_nil, h k]

theorem Keeps.refused (h : Keeps m make use l) {tags : Tags}
    (ha : ¬Admits l.known tags) (v : V) :
    m.withTags tags (make v) (use v) = none ∧
      Keeps m make use (l.enter (.tagged v tags)) := by
  constructor
  · apply m.withTags_of_not_admits
    rwa [h.known]
  · rw [Ledger.enter_of_not_admits ha]
    exact h

end Series

section Points

variable {V : Type*} {hashPair : Tag → UInt64}

/-- How many points have the tags of a set. -/
def pointsOf (points : List Tags) (k : Multiset Tag) : ℕ :=
  points.countP fun tags => decide (Multiset.ofList tags = k)

/-- Each set something was taken under has one point. No other set has any, but for
the overflow series. -/
structure OnePointEach (points : List Tags) (l : Ledger V) : Prop where
  taken : ∀ r ∈ l.taken, pointsOf points r.key = 1
  others : ∀ k, (∀ r ∈ l.taken, r.key ≠ k) → k ≠ Multiset.ofList overflowTags →
    pointsOf points k = 0
  overflow : pointsOf points (Multiset.ofList overflowTags) ≤ 1

/-- The points of the three kinds of series, as every instrument lists them. -/
def pointTags {T : Type*} (untagged overflow : Bool) (m : TagMap hashPair T) :
    List Tags :=
  (if untagged then [[]] else []) ++ m.each.map Prod.fst ++
    if overflow then [overflowTags] else []

/-- The tags of points listed that way. -/
theorem map_tags_parts {T P : Type*} (tagsOf : P → Tags) (untagged overflow : Prop)
    [Decidable untagged] [Decidable overflow] {p q : P} {f : Tags × T → P}
    (m : TagMap hashPair T) (hp : tagsOf p = []) (hf : ∀ s, tagsOf (f s) = s.1)
    (hq : tagsOf q = overflowTags) :
    ((if untagged then [p] else []) ++ m.each.map f ++
      if overflow then [q] else []).map tagsOf =
        pointTags (decide untagged) (decide overflow) m := by
  have htagged : (m.each.map f).map tagsOf = m.each.map Prod.fst := by
    rw [List.map_map]
    exact List.map_congr_left fun s _ => hf s
  rw [List.map_append, List.map_append, htagged, pointTags]
  congr 1
  · congr 1
    by_cases h : untagged
    · simp [h, hp]
    · simp [h]
  · by_cases h : overflow
    · simp [h, hq]
    · simp [h]

theorem pointsOf_each {T : Type*} (m : TagMap hashPair T) (k : Multiset Tag) :
    pointsOf (m.each.map Prod.fst) k = if k ∈ m.known then 1 else 0 := by
  have hcount : pointsOf (m.each.map Prod.fst) k = m.sets.count k := by
    rw [pointsOf, List.countP_map, List.count, TagMap.sets, List.countP_map]
    apply List.countP_congr
    intro s _
    simp
  rw [hcount, m.sets_nodup.count]
  rfl

theorem overflowTags_ne_zero : Multiset.ofList overflowTags ≠ 0 := by decide

theorem pointsOf_singleton (tags : Tags) (k : Multiset Tag) :
    pointsOf [tags] k = if k = Multiset.ofList tags then 1 else 0 := by
  by_cases h : k = Multiset.ofList tags
  · simp [pointsOf, h]
  · simp [pointsOf, h, Ne.symm h]

theorem pointsOf_pointTags {T : Type*} (untagged overflow : Bool)
    (m : TagMap hashPair T) (k : Multiset Tag) :
    pointsOf (pointTags untagged overflow m) k =
      (if untagged = true ∧ k = 0 then 1 else 0) + (if k ∈ m.known then 1 else 0) +
        if overflow = true ∧ k = Multiset.ofList overflowTags then 1 else 0 := by
  have happend (p q : List Tags) : pointsOf (p ++ q) k = pointsOf p k + pointsOf q k :=
    List.countP_append
  rw [pointTags, happend, happend, pointsOf_each]
  congr 1
  · congr 1
    cases untagged with
    | true =>
        rw [if_pos rfl, pointsOf_singleton]
        by_cases hk : k = 0
        · simp [hk]
        · simp [hk]
    | false => simp [pointsOf]
  · cases overflow with
    | true =>
        rw [if_pos rfl, pointsOf_singleton]
        by_cases hk : k = Multiset.ofList overflowTags
        · simp [hk]
        · simp [hk]
    | false => simp [pointsOf]

/-- One point each comes down to this: nothing was recorded both without tags and under
an empty slice, nor under the overflow's tags beside the overflow itself. -/
theorem onePointEach_iff {T : Type*} {untagged : Bool} (overflow : Bool)
    {m : TagMap hashPair T} {l : Ledger V} (hm : m.known = l.known)
    (hu : untagged = true ↔ l.untagged ≠ []) :
    OnePointEach (pointTags untagged overflow m) l ↔
      (l.untagged = [] ∨ l.tagged 0 = []) ∧
        (overflow = false ∨ l.tagged (Multiset.ofList overflowTags) = []) := by
  have hknown (k : Multiset Tag) : k ∈ m.known ↔ l.tagged k ≠ [] := by
    rw [hm, Ledger.mem_known]
  constructor
  · intro h
    constructor
    · by_contra hboth
      obtain ⟨hnot, hempty⟩ := not_or.mp hboth
      obtain ⟨r, hr, hkey⟩ := Ledger.taken_key.mpr (.inr ⟨rfl, hnot⟩)
      have hone := h.taken r hr
      rw [hkey, pointsOf_pointTags, if_pos ⟨hu.mpr hnot, rfl⟩,
        if_pos ((hknown 0).mpr hempty)] at hone
      omega
    · by_contra hboth
      obtain ⟨hover, htags⟩ := not_or.mp hboth
      have hone := h.overflow
      rw [pointsOf_pointTags, if_pos ((hknown _).mpr htags)] at hone
      have hset : (overflow = true ∧ Multiset.ofList overflowTags =
          Multiset.ofList overflowTags) := ⟨Bool.eq_true_of_not_eq_false hover, rfl⟩
      rw [if_pos hset] at hone
      omega
  · rintro ⟨hempty, hover⟩
    have hcount (k : Multiset Tag) := pointsOf_pointTags untagged overflow m k
    have hapart (k : Multiset Tag) : ¬((untagged = true ∧ k = 0) ∧ k ∈ m.known) := by
      rintro ⟨⟨hset, rfl⟩, hmem⟩
      exact (hknown 0).mp hmem (hempty.resolve_left (hu.mp hset))
    have hapart' (k : Multiset Tag) : ¬((overflow = true ∧
        k = Multiset.ofList overflowTags) ∧ k ∈ m.known) := by
      rintro ⟨⟨hset, rfl⟩, hmem⟩
      refine (hknown _).mp hmem (hover.resolve_left ?_)
      rw [hset]
      exact Bool.noConfusion
    have hzero (k : Multiset Tag) : ¬(k = 0 ∧ k = Multiset.ofList overflowTags) :=
      fun h => overflowTags_ne_zero (h.2.symm.trans h.1)
    refine ⟨fun r hr => ?_, fun k hnone hk => ?_, ?_⟩
    · have hkey := Ledger.taken_key.mp ⟨r, hr, rfl⟩
      have h₁ := hapart r.key
      have h₂ := hapart' r.key
      have h₃ := hzero r.key
      rw [← hm, ← hu] at hkey
      rw [hcount r.key]
      grind
    · have hkey : ¬(k ∈ l.known ∨ k = 0 ∧ l.untagged ≠ []) :=
        fun h => (Ledger.taken_key.mpr h).elim fun r hr => hnone r hr.1 hr.2
      rw [← hm, ← hu] at hkey
      rw [hcount k]
      grind
    · have h₂ := hapart' (Multiset.ofList overflowTags)
      have h₃ := overflowTags_ne_zero
      rw [hcount]
      grind

end Points

section Counter

variable {hashPair : Tag → UInt64}

namespace Counter

/-- One recording on a counter. -/
def enter (c : Counter hashPair) : Recording UInt64 → Counter hashPair
  | .untagged amount => c.increment amount
  | .tagged amount tags => c.addWithTags amount tags

/-- What the fields of a counter say of the recordings made on it. -/
structure Agrees (c : Counter hashPair) (l : Ledger UInt64) : Prop where
  tagged : Keeps c.tagged (fun _ => 0) (fun amount series => series + amount) l
  untagged : c.untagged = l.untagged.sum
  untaggedSet : c.untaggedSet = true ↔ l.untagged ≠ []
  overflow : c.overflow = l.refused.sum

theorem agrees_counter (name : String) : Agrees (counter hashPair name) ⟨[], []⟩ where
  tagged := fun _ => rfl
  untagged := rfl
  untaggedSet := by simp [counter, Ledger.untagged]
  overflow := rfl

theorem Agrees.enter {c : Counter hashPair} {l : Ledger UInt64} (h : Agrees c l)
    (r : Recording UInt64) : Agrees (c.enter r) (l.enter r) := by
  cases r with
  | untagged amount =>
      exact {
        tagged := h.tagged.untagged amount
        untagged := by
          rw [Ledger.untagged_enter_untagged, List.sum_append, List.sum_singleton,
            ← h.untagged]
          rfl
        untaggedSet := by simp [Counter.enter, increment, Ledger.untagged_enter_untagged]
        overflow := by
          rw [Ledger.refused_enter_untagged]
          exact h.overflow }
  | tagged amount tags =>
      rw [Counter.enter, addWithTags]
      by_cases ha : Admits l.known tags
      · obtain ⟨m, hwith, hkeeps⟩ := h.tagged.taken ha amount
        rw [hwith]
        exact {
          tagged := hkeeps
          untagged := by
            rw [Ledger.untagged_enter_tagged]
            exact h.untagged
          untaggedSet := by
            rw [Ledger.untagged_enter_tagged]
            exact h.untaggedSet
          overflow := by
            rw [Ledger.refused_enter_of_admits ha]
            exact h.overflow }
      · obtain ⟨hwith, hkeeps⟩ := h.tagged.refused ha amount
        rw [hwith]
        exact {
          tagged := hkeeps
          untagged := by
            rw [Ledger.untagged_enter_tagged]
            exact h.untagged
          untaggedSet := by
            rw [Ledger.untagged_enter_tagged]
            exact h.untaggedSet
          overflow := by
            rw [Ledger.enter_of_not_admits ha]
            simp [h.overflow] }

/-- The recordings of a run, on the counter and in the ledger. -/
theorem agrees_run (name : String) (rs : List (Recording UInt64)) :
    Agrees (rs.foldl enter (counter hashPair name)) (.of rs) :=
  List.foldl_rel (agrees_counter name) fun r _ _ _ h => h.enter r

theorem accumulate_sum (vs : List UInt64) :
    (accumulate (fun _ => 0) (fun amount series => series + amount) vs).getD 0 =
      vs.sum := by
  induction vs using List.reverseRecOn with
  | nil => rfl
  | append_singleton vs v ih =>
      rw [accumulate_concat, ih, List.sum_append, List.sum_singleton, Option.getD_some]

theorem Agrees.value_nil {c : Counter hashPair} {l : Ledger UInt64} (h : Agrees c l) :
    c.value [] = l.untagged.sum := h.untagged

theorem Agrees.value_of_ne {c : Counter hashPair} {l : Ledger UInt64}
    (h : Agrees c l) {tags : Tags} (hne : tags ≠ []) :
    c.value tags = (l.values tags).sum := by
  have hkey : Multiset.ofList tags ≠ 0 := by simpa using hne
  rw [value, if_neg (by simpa using hne), TagMap.get_eq_seriesOf, h.tagged,
    accumulate_sum, Ledger.values_eq_tagged hkey]

/-- Reading by tags gives the total of what was recorded under their set, and the
snapshot has one point for each set. -/
structure ReadsBack (α : Type*) (c : Counter hashPair) (l : Ledger UInt64) : Prop where
  value : ∀ tags, c.value tags = (l.values tags).sum
  points : OnePointEach (c.snapshot : MetricSnapshot α).data.tags l

/-- The amounts recorded under an empty slice come to nothing and no untagged amount
was recorded beside them; what was refused comes to nothing, or nothing was recorded
under the tags of the overflow. -/
def Apart (l : Ledger UInt64) : Prop :=
  (l.tagged 0).sum = 0 ∧ (l.untagged = [] ∨ l.tagged 0 = []) ∧
    (l.refused.sum = 0 ∨ l.tagged (Multiset.ofList overflowTags) = [])

theorem tags_snapshot (α : Type*) (c : Counter hashPair) :
    (c.snapshot : MetricSnapshot α).data.tags =
      pointTags c.untaggedSet (decide (0 < c.overflow)) c.tagged := by
  have hparts := map_tags_parts SumPoint.tags (c.untaggedSet = true) (0 < c.overflow)
    (p := ⟨[], c.untagged⟩) (q := ⟨overflowTags, c.overflow⟩)
    (f := fun s => ⟨s.1, s.2⟩) c.tagged rfl (fun _ => rfl) rfl
  rw [Bool.decide_eq_true] at hparts
  exact hparts

theorem Agrees.readsBack_iff (α : Type*) {c : Counter hashPair} {l : Ledger UInt64}
    (h : Agrees c l) : ReadsBack α c l ↔ Apart l := by
  have hpoints := onePointEach_iff (decide (0 < c.overflow)) h.tagged.known h.untaggedSet
  rw [← tags_snapshot α c, h.overflow] at hpoints
  have hpos : decide (0 < l.refused.sum) = false ↔ l.refused.sum = 0 := by
    rw [decide_eq_false_iff_not, UInt64.not_lt, UInt64.le_zero_iff]
  have hzero : c.value [] = (l.values 0).sum ↔ (l.tagged 0).sum = 0 := by
    rw [h.value_nil, Ledger.perm_values_zero.sum_eq, List.sum_append]
    exact left_eq_add
  rw [hpos] at hpoints
  constructor
  · rintro ⟨hvalue, heach⟩
    exact ⟨hzero.mp (hvalue []), hpoints.mp heach⟩
  · rintro ⟨hempty, hapart⟩
    refine ⟨fun tags => ?_, hpoints.mpr hapart⟩
    by_cases hne : tags = []
    · rw [hne]
      exact hzero.mpr hempty
    · exact h.value_of_ne hne

end Counter

end Counter

/-- Nothing was taken under an empty slice; nothing was refused, or nothing was
recorded under the tags of the overflow. -/
def Ledger.Apart {V : Type*} (l : Ledger V) : Prop :=
  l.tagged 0 = [] ∧
    (l.refused = [] ∨ l.tagged (Multiset.ofList overflowTags) = [])

section Gauge

variable {hashPair : Tag → UInt64} {α : Type*}

namespace Gauge

/-- One recording on a gauge. -/
def enter (g : Gauge hashPair α) : Recording (F64 α) → Gauge hashPair α
  | .untagged value => g.set value
  | .tagged value tags => g.setWithTags value tags

/-- What the fields of a gauge say of the recordings made on it. -/
structure Agrees (g : Gauge hashPair α) (l : Ledger (F64 α)) : Prop where
  tagged : Keeps g.tagged (fun value => value) (fun value _ => value) l
  untagged : (if g.untaggedSet then some g.untagged else none) = l.untagged.getLast?
  overflow : (if g.overflowSet then some g.overflow else none) = l.refused.getLast?

theorem agrees_gauge [LinearOrder α] [FloatArith α] (name : String) :
    Agrees (gauge hashPair name : Gauge hashPair α) ⟨[], []⟩ where
  tagged := fun _ => rfl
  untagged := rfl
  overflow := rfl

theorem Agrees.enter {g : Gauge hashPair α} {l : Ledger (F64 α)} (h : Agrees g l)
    (r : Recording (F64 α)) : Agrees (g.enter r) (l.enter r) := by
  cases r with
  | untagged value =>
      exact {
        tagged := h.tagged.untagged value
        untagged := by simp [Gauge.enter, set, Ledger.untagged_enter_untagged]
        overflow := by
          rw [Ledger.refused_enter_untagged]
          exact h.overflow }
  | tagged value tags =>
      rw [Gauge.enter, setWithTags]
      by_cases ha : Admits l.known tags
      · obtain ⟨m, hwith, hkeeps⟩ := h.tagged.taken ha value
        rw [hwith]
        exact {
          tagged := hkeeps
          untagged := by
            rw [Ledger.untagged_enter_tagged]
            exact h.untagged
          overflow := by
            rw [Ledger.refused_enter_of_admits ha]
            exact h.overflow }
      · obtain ⟨hwith, hkeeps⟩ := h.tagged.refused ha value
        rw [hwith]
        exact {
          tagged := hkeeps
          untagged := by
            rw [Ledger.untagged_enter_tagged]
            exact h.untagged
          overflow := by simp [Ledger.enter_of_not_admits ha] }

/-- The recordings of a run, on the gauge and in the ledger. -/
theorem agrees_run [LinearOrder α] [FloatArith α] (name : String)
    (rs : List (Recording (F64 α))) :
    Agrees (rs.foldl enter (gauge hashPair name)) (.of rs) :=
  List.foldl_rel (agrees_gauge name) fun r _ _ _ h => h.enter r

theorem accumulate_last (vs : List (F64 α)) :
    accumulate (fun value => value) (fun value _ => value) vs = vs.getLast? := by
  cases vs using List.reverseRecOn with
  | nil => rfl
  | append_singleton vs v => rw [accumulate_concat, List.getLast?_concat]

theorem Agrees.value_nil {g : Gauge hashPair α} {l : Ledger (F64 α)}
    (h : Agrees g l) : g.value [] = l.untagged.getLast? := h.untagged

theorem Agrees.value_of_ne {g : Gauge hashPair α} {l : Ledger (F64 α)}
    (h : Agrees g l) {tags : Tags} (hne : tags ≠ []) :
    g.value tags = (l.values tags).getLast? := by
  have hkey : Multiset.ofList tags ≠ 0 := by simpa using hne
  rw [value, if_neg (by simpa using hne), TagMap.get_eq_seriesOf, h.tagged,
    accumulate_last, Ledger.values_eq_tagged hkey]

/-- Reading by tags gives the value last recorded under their set, and the snapshot has
one point for each set. -/
structure ReadsBack (g : Gauge hashPair α) (l : Ledger (F64 α)) : Prop where
  value : ∀ tags, g.value tags = (l.values tags).getLast?
  points : OnePointEach g.snapshot.data.tags l

theorem tags_snapshot (g : Gauge hashPair α) :
    g.snapshot.data.tags = pointTags g.untaggedSet g.overflowSet g.tagged := by
  have hparts := map_tags_parts (GaugePoint.tags (α := α)) (g.untaggedSet = true)
    (g.overflowSet = true) (p := ⟨[], g.untagged⟩) (q := ⟨overflowTags, g.overflow⟩)
    (f := fun s => ⟨s.1, s.2⟩) g.tagged rfl (fun _ => rfl) rfl
  rw [Bool.decide_eq_true, Bool.decide_eq_true] at hparts
  exact hparts

theorem set_iff {set : Bool} {v : F64 α} {vs : List (F64 α)}
    (h : (if set then some v else none) = vs.getLast?) : set = true ↔ vs ≠ [] := by
  rw [ne_eq, ← List.getLast?_eq_none_iff, ← h]
  cases set with
  | true => simp
  | false => simp

theorem Agrees.readsBack_iff {g : Gauge hashPair α} {l : Ledger (F64 α)}
    (h : Agrees g l) : ReadsBack g l ↔ l.Apart := by
  have hpoints := onePointEach_iff g.overflowSet h.tagged.known (set_iff h.untagged)
  have hover : g.overflowSet = false ↔ l.refused = [] := by
    rw [← Bool.not_eq_true, set_iff h.overflow, not_not]
  rw [← tags_snapshot g, hover] at hpoints
  constructor
  · rintro ⟨hvalue, heach⟩
    obtain ⟨hempty, hapart⟩ := hpoints.mp heach
    refine ⟨hempty.elim (fun hnil => ?_) id, hapart⟩
    have hlast := hvalue []
    rw [h.value_nil, hnil, List.getLast?_nil, eq_comm, List.getLast?_eq_none_iff] at hlast
    have hperm := Ledger.perm_values_zero (l := l)
    change l.values 0 = [] at hlast
    rw [hlast] at hperm
    exact (List.append_eq_nil_iff.mp hperm.nil_eq.symm).2
  · rintro ⟨hempty, hapart⟩
    refine ⟨fun tags => ?_, hpoints.mpr ⟨.inr hempty, hapart⟩⟩
    by_cases hne : tags = []
    · rw [hne, h.value_nil]
      exact congrArg List.getLast? (Ledger.values_zero_of_tagged_nil hempty).symm
    · exact h.value_of_ne hne

end Gauge

end Gauge

section Histogram

variable {hashPair : Tag → UInt64} {α : Type*}

/-- The recording a histogram makes of a call, none if the value is not finite. -/
def Recording.finite? : Recording (F64 α) → Option (Recording α)
  | .untagged value => value.finite?.map .untagged
  | .tagged value tags => value.finite?.map fun x => .tagged x tags

variable [LinearOrder α] [FloatArith α]

namespace Buckets

/-- The buckets the values of one series come to. -/
def ofValues (bounds : List α) (vs : List α) : Buckets α :=
  vs.foldl (fun b v => b.record bounds v) (new bounds.length)

theorem ofValues_concat (bounds vs : List α) (v : α) :
    ofValues bounds (vs ++ [v]) = (ofValues bounds vs).record bounds v := by
  unfold ofValues
  rw [List.foldl_concat]

theorem count_ofValues (bounds vs : List α) :
    (ofValues bounds vs).count = .ofNat vs.length := by
  induction vs using List.reverseRecOn with
  | nil => rfl
  | append_singleton vs v ih =>
      rw [ofValues_concat, record, ih, List.length_append, List.length_singleton,
        UInt64.ofNat_add]
      rfl

theorem sum_ofValues (bounds vs : List α) : (ofValues bounds vs).sum =
    vs.foldl (fun sum v => FloatArith.add sum (.finite v)) zero := by
  induction vs using List.reverseRecOn with
  | nil => rfl
  | append_singleton vs v ih => rw [ofValues_concat, record, ih, List.foldl_concat]

theorem getD_accumulate (bounds vs : List α) :
    (accumulate (fun _ => new bounds.length) (fun v b => b.record bounds v) vs).getD
      (new bounds.length) = ofValues bounds vs := by
  induction vs using List.reverseRecOn with
  | nil => rfl
  | append_singleton vs v ih =>
      rw [accumulate_concat, ih, ofValues_concat, Option.getD_some]

theorem accumulate_eq (bounds vs : List α) :
    accumulate (fun _ => new bounds.length) (fun v b => b.record bounds v) vs =
      if vs = [] then none else some (ofValues bounds vs) := by
  cases vs using List.reverseRecOn with
  | nil => rfl
  | append_singleton vs v =>
      rw [accumulate_concat, getD_accumulate, ofValues_concat,
        if_neg (List.append_ne_nil_of_right_ne_nil vs (List.cons_ne_nil v []))]

end Buckets

namespace Histogram

/-- One recording on a histogram. -/
def enter (h : Histogram hashPair α) : Recording (F64 α) → Histogram hashPair α
  | .untagged value => h.record value
  | .tagged value tags => h.recordWithTags value tags

/-- What the fields of a histogram with these bounds say of the recordings made on
it. -/
structure Agrees (bounds : List α) (h : Histogram hashPair α) (l : Ledger α) : Prop where
  tagged : Keeps h.tagged (fun _ => Buckets.new bounds.length)
    (fun v b => b.record bounds v) l
  layoutBounds : h.getLayout.bounds = bounds
  untagged : h.getLayout.untagged = Buckets.ofValues bounds l.untagged
  overflow : h.overflow = accumulate (fun _ => Buckets.new bounds.length)
    (fun v b => b.record bounds v) l.refused
  unset : h.layout = none → l = ⟨[], []⟩

theorem agrees_histogram (name : String) :
    Agrees defaultBounds (histogram hashPair name : Histogram hashPair α) ⟨[], []⟩ where
  tagged := fun _ => rfl
  layoutBounds := rfl
  untagged := rfl
  overflow := rfl
  unset := fun _ => rfl

theorem agrees_withBuckets (name : String) (bounds : List (F64 α)) :
    Agrees (normalise bounds)
      ((histogram hashPair name : Histogram hashPair α).withBuckets bounds) ⟨[], []⟩ where
  tagged := fun _ => rfl
  layoutBounds := rfl
  untagged := rfl
  overflow := rfl
  unset := fun _ => rfl

theorem Agrees.enter_untagged {bounds : List α} {h : Histogram hashPair α} {l : Ledger α}
    (ha : Agrees bounds h l) (v : α) :
    Agrees bounds (h.record (.finite v)) (l.enter (.untagged v)) where
  tagged := ha.tagged.untagged v
  layoutBounds := ha.layoutBounds
  untagged := by
    rw [Ledger.untagged_enter_untagged, Buckets.ofValues_concat, ← ha.untagged,
      ← ha.layoutBounds]
    rfl
  overflow := by
    rw [Ledger.refused_enter_untagged]
    exact ha.overflow
  unset := fun hnone => absurd hnone (Option.some_ne_none _)

theorem Agrees.enter_tagged {bounds : List α} {h : Histogram hashPair α} {l : Ledger α}
    (ha : Agrees bounds h l) (v : α) (tags : Tags) :
    Agrees bounds (h.recordWithTags (.finite v) tags) (l.enter (.tagged v tags)) := by
  by_cases hadmits : Admits l.known tags
  · obtain ⟨m, hwith, hkeeps⟩ := ha.tagged.taken hadmits v
    have hrun : h.recordWithTags (.finite v) tags =
        { h with layout := some h.getLayout, tagged := m } := by
      rw [← ha.layoutBounds] at hwith
      simp only [Histogram.recordWithTags, F64.finite?, hwith]
    rw [hrun]
    exact {
      tagged := hkeeps
      layoutBounds := ha.layoutBounds
      untagged := by
        rw [Ledger.untagged_enter_tagged]
        exact ha.untagged
      overflow := by
        rw [Ledger.refused_enter_of_admits hadmits]
        exact ha.overflow
      unset := fun hnone => absurd hnone (Option.some_ne_none _) }
  · obtain ⟨hwith, hkeeps⟩ := ha.tagged.refused hadmits v
    have hrun : h.recordWithTags (.finite v) tags =
        { h with
          layout := some h.getLayout
          overflow := some
            ((h.overflow.getD (Buckets.new bounds.length)).record bounds v) } := by
      rw [← ha.layoutBounds] at hwith ⊢
      simp only [Histogram.recordWithTags, F64.finite?, hwith]
    rw [hrun]
    exact {
      tagged := hkeeps
      layoutBounds := ha.layoutBounds
      untagged := by
        rw [Ledger.untagged_enter_tagged]
        exact ha.untagged
      overflow := by
        rw [Ledger.enter_of_not_admits hadmits, accumulate_concat, ← ha.overflow]
      unset := fun hnone => absurd hnone (Option.some_ne_none _) }

theorem Agrees.enter {bounds : List α} {h : Histogram hashPair α} {l : Ledger α}
    (ha : Agrees bounds h l) (r : Recording (F64 α)) :
    Agrees bounds (h.enter r) (r.finite?.elim l l.enter) := by
  cases r with
  | untagged value =>
      cases value with
      | finite x => exact ha.enter_untagged x
      | infinite negative => exact ha
      | nan => exact ha
  | tagged value tags =>
      cases value with
      | finite x => exact ha.enter_tagged x tags
      | infinite negative => exact ha
      | nan => exact ha

/-- The recordings of a run, on the histogram and, the finite ones, in the ledger. -/
theorem Agrees.run {bounds : List α} {h : Histogram hashPair α}
    (h₀ : Agrees bounds h ⟨[], []⟩) (rs : List (Recording (F64 α))) :
    Agrees bounds (rs.foldl Histogram.enter h) (.of (rs.filterMap Recording.finite?)) := by
  rw [Ledger.of, List.foldl_filterMap]
  apply List.foldl_rel h₀
  intro r _ h l ha
  cases hfinite : r.finite? with
  | none =>
      have hkept := ha.enter r
      rwa [hfinite] at hkept
  | some r' =>
      have hkept := ha.enter r
      rwa [hfinite] at hkept

omit [LinearOrder α] [FloatArith α] in
theorem read_nil (h : Histogram hashPair α) :
    h.read [] = h.layout.map (·.untagged) := rfl

theorem Agrees.getD_read_nil {bounds : List α} {h : Histogram hashPair α} {l : Ledger α}
    (ha : Agrees bounds h l) :
    (h.read []).getD (Buckets.new bounds.length) =
      Buckets.ofValues bounds l.untagged := by
  have huntagged := ha.untagged
  have hbounds := ha.layoutBounds
  cases hlayout : h.layout with
  | none =>
      rw [getLayout, hlayout] at huntagged hbounds
      rw [read_nil, hlayout, ← huntagged, ← hbounds]
      rfl
  | some layout =>
      rw [getLayout, hlayout] at huntagged
      rw [read_nil, hlayout]
      exact huntagged

theorem Agrees.getD_read_of_ne {bounds : List α} {h : Histogram hashPair α} {l : Ledger α}
    (ha : Agrees bounds h l) {tags : Tags} (hne : tags ≠ []) :
    (h.read tags).getD (Buckets.new bounds.length) =
      Buckets.ofValues bounds (l.values tags) := by
  have hkey : Multiset.ofList tags ≠ 0 := by simpa using hne
  rw [read, if_neg (by simpa using hne), TagMap.get_eq_seriesOf, ha.tagged,
    Buckets.getD_accumulate, Ledger.values_eq_tagged hkey]

theorem count_eq (h : Histogram hashPair α) (tags : Tags) (n : ℕ) :
    h.count tags = ((h.read tags).getD (Buckets.new n)).count := by
  unfold count
  cases h.read tags with
  | none => rfl
  | some b => rfl

theorem sum_eq (h : Histogram hashPair α) (tags : Tags) (n : ℕ) :
    h.sum tags = ((h.read tags).getD (Buckets.new n)).sum := by
  unfold sum
  cases h.read tags with
  | none => rfl
  | some b => rfl

/-- The floating-point sum of the values, in their order. -/
def total (vs : List α) : F64 α :=
  vs.foldl (fun sum v => FloatArith.add sum (.finite v)) zero

/-- Reading by tags gives the number and the sum of the values recorded under their
set, and the snapshot has one point for each set. -/
structure ReadsBack (h : Histogram hashPair α) (l : Ledger α) : Prop where
  count : ∀ tags, (h.count tags).toNat = (l.values tags).length
  sum : ∀ tags, h.sum tags = total (l.values tags)
  points : OnePointEach h.snapshot.data.tags l

theorem Agrees.tags_snapshot {bounds : List α} {h : Histogram hashPair α} {l : Ledger α}
    (ha : Agrees bounds h l) : h.snapshot.data.tags =
      pointTags (decide (0 < h.getLayout.untagged.count)) h.overflow.isSome h.tagged := by
  cases hlayout : h.layout with
  | none =>
      -- Nothing was recorded: no series of any kind is there to be listed.
      have hempty := ha.unset hlayout
      have hover := ha.overflow
      have huntagged := ha.untagged
      have hknown := ha.tagged.known
      rw [hempty] at hover huntagged hknown
      have heach : h.tagged.each = [] := by
        have hsets : h.tagged.sets = [] := by
          rw [← Multiset.coe_eq_zero]
          exact congrArg Finset.val hknown
        exact List.map_eq_nil_iff.mp hsets
      rw [snapshot, hlayout, huntagged, hover, pointTags, heach]
      rfl
  | some layout =>
      have hgot : h.getLayout = layout := by rw [getLayout, hlayout, Option.getD_some]
      rw [snapshot, hlayout, hgot]
      cases hover : h.overflow with
      | none =>
          have hparts := map_tags_parts (HistogramPoint.tags (α := α))
            (0 < layout.untagged.count) False (p := layout.untagged.snapshot [])
            (q := layout.untagged.snapshot overflowTags)
            (f := fun s => s.2.snapshot s.1) h.tagged rfl (fun _ => rfl) rfl
          rw [MetricData.tags, points, hover]
          exact hparts
      | some b =>
          have hparts := map_tags_parts (HistogramPoint.tags (α := α))
            (0 < layout.untagged.count) True (p := layout.untagged.snapshot [])
            (q := b.snapshot overflowTags)
            (f := fun s => s.2.snapshot s.1) h.tagged rfl (fun _ => rfl) rfl
          rw [MetricData.tags, points, hover]
          exact hparts

/-- The count of fewer than `2 ^ 64` values is their number. -/
theorem toNat_count_ofValues (bounds : List α) {vs : List α} (h : vs.length < 2 ^ 64) :
    (Buckets.ofValues bounds vs).count.toNat = vs.length := by
  rw [Buckets.count_ofValues, UInt64.toNat_ofNat_of_lt' h]

theorem Agrees.readsBack_iff {bounds : List α} {h : Histogram hashPair α} {l : Ledger α}
    (ha : Agrees bounds h l) (hfew : l.taken.length < 2 ^ 64) : ReadsBack h l ↔ l.Apart := by
  have hlengthUntagged : l.untagged.length < 2 ^ 64 := by
    rw [Ledger.untagged, List.length_map]
    exact (List.length_filter_le _ _).trans_lt hfew
  have hlengthValues (k : Multiset Tag) : (l.values k).length < 2 ^ 64 := by
    rw [Ledger.values, List.length_map]
    exact (List.length_filter_le _ _).trans_lt hfew
  have huntagged : decide (0 < h.getLayout.untagged.count) = true ↔ l.untagged ≠ [] := by
    rw [ha.untagged, decide_eq_true_eq, UInt64.lt_iff_toNat_lt,
      toNat_count_ofValues bounds hlengthUntagged]
    exact List.length_pos_iff
  have hover : h.overflow.isSome = false ↔ l.refused = [] := by
    rw [← Bool.not_eq_true, ha.overflow, isSome_accumulate, not_not]
  have hpoints := onePointEach_iff h.overflow.isSome ha.tagged.known huntagged
  rw [← ha.tags_snapshot, hover] at hpoints
  have hcount : (h.count []).toNat = l.untagged.length := by
    rw [count_eq h [] bounds.length, ha.getD_read_nil,
      toNat_count_ofValues bounds hlengthUntagged]
  constructor
  · rintro ⟨hread, -, heach⟩
    refine ⟨?_, (hpoints.mp heach).2⟩
    have hzero := hread []
    have hlength := (Ledger.perm_values_zero (l := l)).length_eq
    rw [List.length_append] at hlength
    change (h.count []).toNat = (l.values 0).length at hzero
    apply List.eq_nil_of_length_eq_zero
    omega
  · rintro ⟨hempty, hapart⟩
    have hvalues (tags : Tags) : (h.read tags).getD (Buckets.new bounds.length) =
        Buckets.ofValues bounds (l.values tags) := by
      by_cases hne : tags = []
      · rw [hne, ha.getD_read_nil]
        exact congrArg _ (Ledger.values_zero_of_tagged_nil hempty).symm
      · exact ha.getD_read_of_ne hne
    refine ⟨fun tags => ?_, fun tags => ?_, hpoints.mpr ⟨.inr hempty, hapart⟩⟩
    · rw [count_eq h tags bounds.length, hvalues, toNat_count_ofValues bounds (hlengthValues _)]
    · rw [sum_eq h tags bounds.length, hvalues, Buckets.sum_ofValues]
      rfl

end Histogram

end Histogram

/-- Whatever is recorded and whatever the hash of a pair is, an instrument reads back
what was recorded, with one point for each set of tags, exactly when the series it
keeps apart were not also reached by tags. A histogram counts in 64 bits, which fewer
than `2 ^ 64` recordings do not exceed. -/
theorem reads_back_iff (hashPair : Tag → UInt64) (α : Type*) [LinearOrder α]
    [FloatArith α] (name : String) :
    (∀ rs : List (Recording UInt64),
      (rs.foldl Counter.enter (counter hashPair name)).ReadsBack α (.of rs) ↔
        Counter.Apart (.of rs)) ∧
    (∀ rs : List (Recording (F64 α)),
      (rs.foldl Gauge.enter (gauge hashPair name)).ReadsBack (.of rs) ↔
        (Ledger.of rs).Apart) ∧
    ∀ (bounds : Option (List (F64 α))) (rs : List (Recording (F64 α))),
      rs.length < 2 ^ 64 → ((rs.foldl Histogram.enter
        (bounds.elim (histogram hashPair name) (histogram hashPair name).withBuckets)
        ).ReadsBack (.of (rs.filterMap Recording.finite?)) ↔
          (Ledger.of (rs.filterMap Recording.finite?)).Apart) := by
  refine ⟨fun rs => (Counter.agrees_run name rs).readsBack_iff α,
    fun rs => (Gauge.agrees_run name rs).readsBack_iff, fun bounds rs hfew => ?_⟩
  have htaken : (Ledger.of (rs.filterMap Recording.finite?)).taken.length < 2 ^ 64 :=
    (Ledger.length_taken_of_le _).trans_lt ((List.length_filterMap_le _ _).trans_lt hfew)
  cases bounds with
  | none => exact ((Histogram.agrees_histogram name).run rs).readsBack_iff htaken
  | some bounds => exact ((Histogram.agrees_withBuckets name bounds).run rs).readsBack_iff htaken

section Example

/-- Whole numbers, which doubles add exactly as long as they are small. -/
local instance wholeNumbers : FloatArith ℤ where
  ofNat n := n
  ofNat_lt _ _ h _ := Int.ofNat_lt.mpr h
  add
    | .finite x, .finite y => .finite (x + y)
    | .finite _, y => y
    | x, .finite _ => x
    | .infinite x, .infinite y => if x = y then .infinite x else .nan
    | _, _ => .nan

/-- A request without tags, two of one route, and one whose time is not a number. -/
def latencies : List (Recording (F64 ℤ)) :=
  [.untagged (.finite 3), .tagged (.finite 5) [("route", "/"), ("method", "GET")],
    .tagged .nan [], .tagged (.finite 8) [("method", "GET"), ("route", "/")]]

theorem reads_back_iff_latencies :
    (latencies.foldl Histogram.enter (histogram (fun _ => 0) "latency")).ReadsBack
      (.of (latencies.filterMap Recording.finite?)) := by
  refine ((reads_back_iff (fun _ => 0) ℤ "latency").2.2 none latencies (by decide)).mpr ?_
  have hapart : (Ledger.of (latencies.filterMap Recording.finite?)).tagged 0 = [] ∧
      (Ledger.of (latencies.filterMap Recording.finite?)).refused = [] := by decide +kernel
  exact ⟨hapart.1, .inl hapart.2⟩

/-- An amount added under an empty slice is not in the series that `&[]` reads. -/
theorem empty_slice_not_read_back :
    ¬([Recording.tagged 5 []].foldl Counter.enter
      (counter (fun _ => 0) "orders_total")).ReadsBack ℕ (.of [.tagged 5 []]) := by
  intro h
  have hvalue := h.value []
  revert hvalue
  decide

end Example

end Metric

end O11y

end RustSak
