import RustSak.O11y.Metric.ReadBack
import RustSak.Library.Machine

/-!
# The series cap under concurrency

Calls on one counter take their steps in any order: each section under a lock and
each atomic access is one step. A call loads the counter of series before it looks
its tags up, and what it loaded decides whether it may add a series later, under the
write lock. No two series ever have the same tags and no amount is lost. The number
of series stays within the cap exactly as long as no call adds a series to a full map.
-/

namespace RustSak

namespace O11y

namespace Metric

open Library

variable {hashPair : Tag → UInt64}

section Calls

/-- How far a call on a counter has come. -/
inductive Call where
  | incrementing (amount : UInt64)
  | flagging
  | arriving (amount : UInt64) (tags : Tags)
  /-- The counter of series is loaded; the read lock comes next. -/
  | reading (amount : UInt64) (tags : Narrow) (atCapacity : Bool)
  | writing (amount : UInt64) (tags : Narrow)
  | overflowing (amount : UInt64)
  | returned
  deriving DecidableEq

namespace Call

def start : Recording UInt64 → Call
  | .untagged amount => incrementing amount
  | .tagged amount tags => arriving amount tags

/-- The next step of a call. -/
def step (c : Counter hashPair) : Call → Counter hashPair × Call
  | incrementing amount => ({ c with untagged := c.untagged + amount }, flagging)
  | flagging => ({ c with untaggedSet := true }, returned)
  | arriving amount tags =>
      if h : tags.length ≤ maskBits then
        (c, reading amount ⟨tags, h⟩ (decide (maxSeries ≤ c.tagged.series)))
      else (c, overflowing amount)
  | reading amount tags atCapacity =>
      if holds (c.tagged.bucketOf tags) tags then
        ({ c with tagged := c.tagged.useHeld tags (· + amount) }, returned)
      else if atCapacity then (c, overflowing amount)
      else (c, writing amount tags)
  | writing amount tags =>
      ({ c with tagged := c.tagged.useOrPush tags 0 (· + amount) }, returned)
  | overflowing amount => ({ c with overflow := c.overflow + amount }, returned)
  | returned => (c, returned)

/-- What a call has yet to add. -/
def pending : Call → UInt64
  | incrementing amount => amount
  | flagging => 0
  | arriving amount _ => amount
  | reading amount _ _ => amount
  | writing amount _ => amount
  | overflowing amount => amount
  | returned => 0

end Call

/-- A counter, the calls made on it and the amounts they were made with. -/
structure Recorder (hashPair : Tag → UInt64) where
  counter : Counter hashPair
  calls : List Call
  recorded : List UInt64

namespace Recorder

inductive Event where
  | call (r : Recording UInt64)
  /-- The call made as the `i`-th takes its next step. -/
  | step (i : ℕ)

def enabled (s : Recorder hashPair) : Event → Prop
  | .call _ => True
  | .step i => i < s.calls.length

instance (s : Recorder hashPair) : ∀ e, Decidable (s.enabled e)
  | .call _ => .isTrue trivial
  | .step i => inferInstanceAs (Decidable (i < s.calls.length))

def next (s : Recorder hashPair) : Event → Recorder hashPair
  | .call r =>
      { s with calls := s.calls ++ [.start r], recorded := s.recorded ++ [r.value] }
  | .step i =>
      match s.calls[i]? with
      | none => s
      | some call =>
          { s with
            counter := (call.step s.counter).1
            calls := s.calls.set i (call.step s.counter).2 }

/-- Every interleaving of the steps of any calls on one counter. -/
def machine (hashPair : Tag → UInt64) : Machine (Recorder hashPair) Event :=
  .guarded (fun s => ∃ name, s = ⟨Metric.counter hashPair name, [], []⟩) enabled next

end Recorder

end Calls

section Total

/-- What a counter holds in all its series. -/
def Counter.total (c : Counter hashPair) : UInt64 :=
  c.untagged + (c.tagged.each.map Prod.snd).sum + c.overflow

theorem sum_useHeld (m : TagMap hashPair UInt64) {tags : Narrow}
    (h : holds (m.bucketOf tags) tags = true) (amount : UInt64) :
    ((m.useHeld tags (· + amount)).each.map Prod.snd).sum =
      (m.each.map Prod.snd).sum + amount := by
  obtain ⟨stored, series, rest, -, hbefore, hafter⟩ := m.each_useHeld (· + amount) h
  rw [(hafter.map Prod.snd).sum_eq, (hbefore.map Prod.snd).sum_eq, List.map_cons,
    List.map_cons, List.sum_cons, List.sum_cons]
  change series + amount + _ = series + _ + amount
  ac_rfl

theorem sum_useOrPush (m : TagMap hashPair UInt64) (tags : Narrow) (amount : UInt64) :
    ((m.useOrPush tags 0 (· + amount)).each.map Prod.snd).sum =
      (m.each.map Prod.snd).sum + amount := by
  cases h : holds (m.bucketOf tags) tags with
  | true => rw [m.useOrPush_of_holds tags h, sum_useHeld m h]
  | false =>
      rw [m.useOrPush_of_not tags h, ((m.each_push _ h).map Prod.snd).sum_eq,
        List.map_cons, List.sum_cons]
      ac_rfl

/-- A step adds to the counter what it takes off what the call has yet to add. -/
theorem Call.total_step (c : Counter hashPair) (call : Call) :
    (call.step c).1.total + (call.step c).2.pending = c.total + call.pending := by
  cases call with
  | incrementing amount =>
      simp only [Call.step, Counter.total, Call.pending]
      ac_rfl
  | flagging => rfl
  | arriving amount tags =>
      rw [Call.step]
      split
      · rfl
      · rfl
  | reading amount tags atCapacity =>
      rw [Call.step]
      split
      case isTrue h =>
        simp only [Counter.total, Call.pending, sum_useHeld _ h]
        ac_rfl
      case isFalse =>
        split
        · rfl
        · rfl
  | writing amount tags =>
      simp only [Call.step, Counter.total, Call.pending, sum_useOrPush]
      ac_rfl
  | overflowing amount =>
      simp only [Call.step, Counter.total, Call.pending]
      ac_rfl
  | returned => rfl

theorem Call.untagged_step (c : Counter hashPair) {call : Call}
    (hadds : ∀ amount, call ≠ .incrementing amount) (hflags : call ≠ .flagging) :
    (call.step c).1.untagged = c.untagged ∧
      (call.step c).1.untaggedSet = c.untaggedSet := by
  cases call with
  | incrementing amount => exact absurd rfl (hadds amount)
  | flagging => exact absurd rfl hflags
  | arriving amount tags =>
      rw [Call.step]
      split
      · exact ⟨rfl, rfl⟩
      · exact ⟨rfl, rfl⟩
  | reading amount tags atCapacity =>
      rw [Call.step]
      split
      · exact ⟨rfl, rfl⟩
      · split
        · exact ⟨rfl, rfl⟩
        · exact ⟨rfl, rfl⟩
  | writing amount tags => exact ⟨rfl, rfl⟩
  | overflowing amount => exact ⟨rfl, rfl⟩
  | returned => exact ⟨rfl, rfl⟩

end Total

section Conservation

/-- Replacing one element replaces its part of a sum. -/
theorem sum_set {β : Type*} (f : β → UInt64) {l : List β} {i : ℕ} {a : β}
    (h : l[i]? = some a) (b : β) :
    ((l.set i b).map f).sum + f a = (l.map f).sum + f b := by
  induction l generalizing i with
  | nil => simp at h
  | cons x l ih =>
      cases i with
      | zero =>
          rw [List.getElem?_cons_zero, Option.some.injEq] at h
          rw [List.set_cons_zero, List.map_cons, List.map_cons, List.sum_cons,
            List.sum_cons, h]
          ac_rfl
      | succ i =>
          rw [List.getElem?_cons_succ] at h
          rw [List.set_cons_succ, List.map_cons, List.map_cons, List.sum_cons,
            List.sum_cons, UInt64.add_assoc, ih h, UInt64.add_assoc]

/-- What is taken from one part and put to the other leaves the whole. -/
theorem add_eq_of_transfer {a a' b b' c c' : UInt64} (h : a' + c' = a + c)
    (h' : b' + c = b + c') : a' + b' = a + b := by
  have hsum : a' + b' + (c + c') = a + b + (c + c') :=
    calc a' + b' + (c + c') = (a' + c') + (b' + c) := by ac_rfl
      _ = (a + c) + (b + c') := by rw [h, h']
      _ = a + b + (c + c') := by ac_rfl
  exact (UInt64.add_left_inj _).mp hsum

theorem mem_set_of_ne {β : Type*} {l : List β} {i : ℕ} {a b : β} (h : a ∈ l)
    (hi : l[i]? = some b) (hne : a ≠ b) (c : β) : a ∈ l.set i c := by
  obtain ⟨j, hj⟩ := List.mem_iff_getElem?.mp h
  have hij : i ≠ j := by
    rintro rfl
    exact hne (Option.some.inj (hj.symm.trans hi))
  exact List.mem_iff_getElem?.mpr ⟨j, by rw [List.getElem?_set_ne hij, hj]⟩

namespace Recorder

/-- What the calls under way have yet to add. -/
def pending (s : Recorder hashPair) : UInt64 := (s.calls.map Call.pending).sum

theorem next_step {s : Recorder hashPair} {i : ℕ} {call : Call}
    (h : s.calls[i]? = some call) :
    s.next (.step i) = { s with
      counter := (call.step s.counter).1
      calls := s.calls.set i (call.step s.counter).2 } := by
  rw [next, h]

/-- What is in the series and what is yet to be added make up what was recorded. -/
theorem conserved_next (s : Recorder hashPair) (e : Event)
    (h : s.counter.total + s.pending = s.recorded.sum) :
    (s.next e).counter.total + (s.next e).pending = (s.next e).recorded.sum := by
  cases e with
  | call r =>
      have hstart : (Call.start r).pending = r.value := by
        cases r with
        | untagged amount => rfl
        | tagged amount tags => rfl
      change s.counter.total + ((s.calls ++ [Call.start r]).map Call.pending).sum =
        (s.recorded ++ [r.value]).sum
      rw [List.map_append, List.sum_append, List.sum_append, ← h, List.map_singleton,
        List.sum_singleton, List.sum_singleton, hstart, UInt64.add_assoc]
      rfl
  | step i =>
      cases hcall : s.calls[i]? with
      | none =>
          rw [next, hcall]
          exact h
      | some call =>
          have htotal := call.total_step s.counter
          have hpending := sum_set Call.pending hcall (call.step s.counter).2
          rw [next_step hcall]
          change (call.step s.counter).1.total + _ = s.recorded.sum
          rw [← h]
          exact add_eq_of_transfer htotal hpending

/-- While the untagged series holds anything its flag is set, or is about to be. -/
def Flagged (s : Recorder hashPair) : Prop :=
  s.counter.untaggedSet = true ∨ Call.flagging ∈ s.calls ∨ s.counter.untagged = 0

theorem flagged_next (s : Recorder hashPair) (e : Event) (h : s.Flagged) :
    (s.next e).Flagged := by
  cases e with
  | call r =>
      rcases h with hset | hmem | hzero
      · exact .inl hset
      · exact .inr (.inl (List.mem_append_left _ hmem))
      · exact .inr (.inr hzero)
  | step i =>
      cases hcall : s.calls[i]? with
      | none =>
          rw [next, hcall]
          exact h
      | some call =>
          rw [next_step hcall]
          by_cases hadds : ∃ amount, call = .incrementing amount
          · obtain ⟨amount, rfl⟩ := hadds
            have hlt := (List.getElem?_eq_some_iff.mp hcall).1
            exact .inr (.inl (List.mem_set hlt _))
          · by_cases hflags : call = .flagging
            · rw [hflags]
              exact .inl rfl
            · -- Every other step leaves the untagged series as it is.
              have hkept : (call.step s.counter).1.untagged = s.counter.untagged ∧
                  (call.step s.counter).1.untaggedSet = s.counter.untaggedSet :=
                Call.untagged_step s.counter (not_exists.mp hadds) hflags
              rcases h with hset | hmem | hzero
              · exact .inl (hkept.2.trans hset)
              · exact .inr (.inl (mem_set_of_ne hmem hcall (Ne.symm hflags) _))
              · exact .inr (.inr (hkept.1.trans hzero))

end Recorder

end Conservation

section Cap

/-- Whether the next step of a call adds a series. -/
def Call.adds (c : Counter hashPair) : Call → Bool
  | .writing _ tags => !holds (c.tagged.bucketOf tags) tags
  | _ => false

theorem Call.series_step (c : Counter hashPair) (call : Call) :
    (call.step c).1.tagged.series =
      c.tagged.series + if call.adds c then 1 else 0 := by
  cases call with
  | incrementing amount => rfl
  | flagging => rfl
  | arriving amount tags =>
      rw [Call.step]
      split
      · rfl
      · rfl
  | reading amount tags atCapacity =>
      rw [Call.step]
      split
      · rfl
      · split
        · rfl
        · rfl
  | writing amount tags =>
      cases h : holds (c.tagged.bucketOf tags) tags with
      | true =>
          rw [Call.step, Call.adds, h, c.tagged.useOrPush_of_holds tags h]
          rfl
      | false =>
          rw [Call.step, Call.adds, h, c.tagged.useOrPush_of_not tags h]
          rfl
  | overflowing amount => rfl
  | returned => rfl

namespace Recorder

/-- A call that is about to add a series finds room for it. -/
def Roomy (s : Recorder hashPair) : Event → Prop
  | .call _ => True
  | .step i => ∀ call ∈ s.calls[i]?, call.adds s.counter = true →
      s.counter.tagged.series < maxSeries

instance (s : Recorder hashPair) : ∀ e, Decidable (s.Roomy e)
  | .call _ => .isTrue trivial
  | .step i => inferInstanceAs (Decidable (∀ call ∈ s.calls[i]?,
      call.adds s.counter = true → s.counter.tagged.series < maxSeries))

/-- A step leaves the map within the cap when it was and the step had room. -/
theorem series_next_le_iff (s : Recorder hashPair) (e : Event) :
    (s.next e).counter.tagged.series ≤ maxSeries ↔
      s.counter.tagged.series ≤ maxSeries ∧ s.Roomy e := by
  cases e with
  | call r => exact (and_iff_left trivial).symm
  | step i =>
      cases hcall : s.calls[i]? with
      | none => simp [next, Roomy, hcall]
      | some call =>
          have hseries := call.series_step s.counter
          have hroomy : s.Roomy (.step i) ↔ (call.adds s.counter = true →
              s.counter.tagged.series < maxSeries) := by
            simp [Roomy, hcall]
          rw [next_step hcall, hroomy]
          cases hadds : call.adds s.counter with
          | true =>
              rw [hadds, if_pos rfl] at hseries
              simp only [forall_const, hseries]
              omega
          | false =>
              rw [hadds, if_neg Bool.false_ne_true, Nat.add_zero] at hseries
              simp [hseries]

theorem series_le_of_roomy {es : List Event} {s : Recorder hashPair}
    (hr : ((machine hashPair).restrict Roomy).Run es s) :
    s.counter.tagged.series ≤ maxSeries := by
  apply hr.invariant (I := fun _ s => s.counter.tagged.series ≤ maxSeries)
  · rintro s ⟨name, rfl⟩
    exact Nat.zero_le _
  · rintro es e s s' - hle ⟨hroomy, -, rfl⟩
    exact (series_next_le_iff s e).mpr ⟨hle, hroomy⟩

theorem roomy_of_series_le {es : List Event} {s : Recorder hashPair}
    (hr : (machine hashPair).Run es s) (hle : s.counter.tagged.series ≤ maxSeries) :
    ((machine hashPair).restrict Roomy).Run es s := by
  induction hr with
  | start hs => exact .start hs
  | @next es e s s' _ h ih =>
      obtain ⟨henabled, rfl⟩ := h
      obtain ⟨hbefore, hroomy⟩ := (series_next_le_iff s e).mp hle
      exact (ih hbefore).next ⟨hroomy, henabled, rfl⟩

end Recorder

end Cap

section Exported

/-- The sum of the points of a snapshot. -/
def Counter.exported (c : Counter hashPair) : UInt64 := (c.points.map SumPoint.value).sum

theorem Counter.exported_eq (c : Counter hashPair) : c.exported =
    (if c.untaggedSet then c.untagged else 0) + (c.tagged.each.map Prod.snd).sum +
      c.overflow := by
  have htagged : (c.tagged.each.map fun s => (⟨s.1, s.2⟩ : SumPoint)).map
      SumPoint.value = c.tagged.each.map Prod.snd := by
    rw [List.map_map]
    rfl
  have hover : ((if 0 < c.overflow then [(⟨overflowTags, c.overflow⟩ : SumPoint)]
      else []).map SumPoint.value).sum = c.overflow := by
    split
    case isTrue => simp
    case isFalse h =>
      rw [UInt64.not_lt, UInt64.le_zero_iff] at h
      rw [h]
      rfl
  rw [exported, points, List.map_append, List.map_append, List.sum_append,
    List.sum_append, htagged, hover]
  congr 2
  cases c.untaggedSet with
  | true => simp
  | false => rfl

namespace Recorder

/-- What was recorded and is not exported yet: amounts to be added, and an untagged
series whose flag is still to be set. -/
def outstanding (s : Recorder hashPair) : UInt64 :=
  s.pending + if s.counter.untaggedSet then 0 else s.counter.untagged

/-- The series are few enough and apart, and what is exported and what is outstanding
make up what was recorded; once every call has returned nothing is outstanding. -/
structure SeriesKept (s : Recorder hashPair) : Prop where
  capped : s.counter.tagged.each.length ≤ maxSeries
  distinct : s.counter.tagged.each.Pairwise fun a b => ¬a.1.Perm b.1
  conserved : s.counter.exported + s.outstanding = s.recorded.sum
  settled : (∀ call ∈ s.calls, call = .returned) →
    s.counter.exported = s.recorded.sum

theorem length_each (m : TagMap hashPair UInt64) : m.each.length = m.series := by
  rw [m.counted, Entries.keys, List.length_map]
  rfl

theorem exported_add_outstanding (s : Recorder hashPair) :
    s.counter.exported + s.outstanding = s.counter.total + s.pending := by
  rw [Counter.exported_eq, outstanding, Counter.total]
  cases s.counter.untaggedSet with
  | true =>
      rw [if_pos rfl, if_pos rfl, UInt64.add_zero]
  | false =>
      rw [if_neg Bool.false_ne_true, if_neg Bool.false_ne_true, UInt64.zero_add]
      ac_rfl

theorem run_conserved {es : List Event} {s : Recorder hashPair}
    (hr : (machine hashPair).Run es s) :
    s.counter.total + s.pending = s.recorded.sum ∧ s.Flagged := by
  apply hr.invariant (I := fun _ s =>
    s.counter.total + s.pending = s.recorded.sum ∧ s.Flagged)
  · rintro s ⟨name, rfl⟩
    exact ⟨rfl, .inr (.inr rfl)⟩
  · rintro es e s s' - ⟨hsum, hflagged⟩ ⟨-, rfl⟩
    exact ⟨s.conserved_next e hsum, s.flagged_next e hflagged⟩

theorem outstanding_eq_zero {s : Recorder hashPair} (h : s.Flagged)
    (hall : ∀ call ∈ s.calls, call = .returned) : s.outstanding = 0 := by
  have hpending : s.pending = 0 := by
    apply List.sum_eq_zero
    intro amount hmem
    obtain ⟨call, hcall, rfl⟩ := List.mem_map.mp hmem
    rw [hall call hcall]
    rfl
  rw [outstanding, hpending, UInt64.zero_add]
  rcases h with hset | hmem | hzero
  · rw [hset, if_pos rfl]
  · exact absurd (hall _ hmem) Call.noConfusion
  · rw [hzero, ite_self]

/-- Along every interleaving the series stay apart and no amount is lost, and the cap is
kept as long as no call adds a series to a full map. -/
theorem seriesKept_iff {es : List Event} {s : Recorder hashPair}
    (hr : (machine hashPair).Run es s) :
    s.SeriesKept ↔ ((machine hashPair).restrict Roomy).Run es s := by
  have hlength := length_each s.counter.tagged
  constructor
  · intro h
    apply roomy_of_series_le hr
    rw [← hlength]
    exact h.capped
  · intro h
    obtain ⟨hsum, hflagged⟩ := run_conserved hr
    have hconserved : s.counter.exported + s.outstanding = s.recorded.sum :=
      s.exported_add_outstanding.trans hsum
    refine ⟨hlength ▸ series_le_of_roomy h, List.pairwise_map.mp s.counter.tagged.distinct,
      hconserved, fun hall => ?_⟩
    rw [outstanding_eq_zero hflagged hall, UInt64.add_zero] at hconserved
    exact hconserved

/-- Two calls for one new set of tags, which find it missing both and then write one after the
other. -/
def meeting : List Event :=
  [.call (.tagged 3 [("region", "eu")]), .call (.tagged 4 [("region", "eu")]), .step 0, .step 1,
    .step 0, .step 1, .step 0, .step 1]

theorem seriesKept_meeting :
    (meeting.foldl next (⟨Metric.counter (fun _ => 0) "orders_total", [], []⟩ :
        Recorder fun _ => 0)).SeriesKept := by
  have hstart : ((machine fun _ => 0).restrict Roomy).Run []
      ⟨Metric.counter (fun _ => 0) "orders_total", [], []⟩ := .start ⟨_, rfl⟩
  have hlegal : Machine.Legal (fun t e => Roomy t e ∧ enabled t e) next
      (⟨Metric.counter (fun _ => 0) "orders_total", [], []⟩ : Recorder fun _ => 0)
      meeting := by decide
  have hrun : ((machine fun _ => 0).restrict Roomy).Run _ _ :=
    Machine.Run.legal_restrict hstart hlegal
  exact (seriesKept_iff hrun.of_restrict).mpr hrun

end Recorder

end Exported

section Overlap

namespace Recorder

/-- One step of the call that stands between the others. -/
theorem reachable_step {s : Recorder hashPair} (hr : (machine hashPair).Reachable s)
    (call : Call) {before after : List Call} (h : s.calls = before ++ call :: after) :
    (machine hashPair).Reachable ⟨(call.step s.counter).1,
      before ++ (call.step s.counter).2 :: after, s.recorded⟩ := by
  have hat : s.calls[before.length]? = some call := by simp [h]
  have hlt : before.length < s.calls.length := by simp [h]
  have hnext := next_step hat
  rw [h, List.set_append_right _ _ (Nat.le_refl _), Nat.sub_self, List.set_cons_zero]
    at hnext
  exact hr.next (e := .step before.length) ⟨hlt, hnext.symm⟩

theorem reachable_call {s : Recorder hashPair} (hr : (machine hashPair).Reachable s)
    (r : Recording UInt64) : (machine hashPair).Reachable
      ⟨s.counter, s.calls ++ [.start r], s.recorded ++ [r.value]⟩ :=
  hr.next (e := .call r) ⟨trivial, rfl⟩

/-- A call for tags of its own that runs up to its write section while there is room. -/
theorem reachable_writing {s : Recorder hashPair}
    (hr : (machine hashPair).Reachable s) (tags : Narrow)
    (hroom : s.counter.tagged.series < maxSeries)
    (hnew : holds (s.counter.tagged.bucketOf tags) tags = false) :
    (machine hashPair).Reachable
      ⟨s.counter, s.calls ++ [.writing 1 tags], s.recorded ++ [1]⟩ := by
  have harrive := reachable_call hr (.tagged 1 tags.1)
  have hload := reachable_step harrive (.arriving 1 tags.1) rfl
  have hloaded : (Call.arriving 1 tags.1).step s.counter =
      (s.counter, .reading 1 tags false) := by
    rw [Call.step, dif_pos tags.2, decide_eq_false (Nat.not_le_of_lt hroom)]
  rw [hloaded] at hload
  have hread := reachable_step hload (.reading 1 tags false) rfl
  have hmissed : (Call.reading 1 tags false).step s.counter =
      (s.counter, .writing 1 tags) := by
    rw [Call.step, hnew]
    rfl
  rwa [hmissed] at hread

/-- The write section of a call for tags that still have no series. -/
theorem reachable_added {s : Recorder hashPair} (hr : (machine hashPair).Reachable s)
    (before after : List Call) {tags : Narrow}
    (h : s.calls = before ++ .writing 1 tags :: after)
    (hnew : s.counter.tagged.seriesOf tags.1 = none) :
    ∃ s', (machine hashPair).Reachable s' ∧ s'.calls = before ++ .returned :: after ∧
      s'.counter.tagged.series = s.counter.tagged.series + 1 ∧
      ∀ k, k ≠ Multiset.ofList tags.1 →
        s'.counter.tagged.seriesOf k = s.counter.tagged.seriesOf k := by
  refine ⟨_, reachable_step hr (.writing 1 tags) h, rfl, ?_, fun k hk => ?_⟩
  · have hadds : (Call.writing 1 tags).adds s.counter = true := by
      have hnot := mt (s.counter.tagged.holds_iff_seriesOf tags).mp
      rw [hnew] at hnot
      exact Bool.not_eq_true' _ |>.mpr (Bool.eq_false_iff.mpr (hnot Bool.false_ne_true))
    rw [Call.series_step, hadds, if_pos rfl]
  · exact (s.counter.tagged.seriesOf_useOrPush tags 0 _ k).trans (if_neg hk)

/-- A tag set of its own for each number. -/
def tagsOf (n : ℕ) : Narrow :=
  ⟨[("index", String.ofList (List.replicate n '0'))], Nat.le_add_left 1 63⟩

theorem tagsOf_ne {m n : ℕ} (h : m ≠ n) :
    Multiset.ofList (tagsOf m).1 ≠ Multiset.ofList (tagsOf n).1 := by
  intro heq
  have hperm := List.perm_singleton.mp (Multiset.coe_eq_coe.mp heq)
  have hvalue := congrArg Prod.snd (List.singleton_inj.mp hperm)
  have hlength := congrArg List.length (String.ofList_injective hvalue)
  rw [List.length_replicate, List.length_replicate] at hlength
  exact h hlength

theorem holds_tagsOf {m : TagMap hashPair UInt64} {n : ℕ}
    (h : m.seriesOf (tagsOf n).1 = none) :
    holds (m.bucketOf (tagsOf n)) (tagsOf n) = false := by
  rw [Bool.eq_false_iff, ne_eq, m.holds_iff_seriesOf, h]
  exact Bool.false_ne_true

/-- Calls one after the other fill the map up. -/
theorem reachable_filled (hashPair : Tag → UInt64) {n : ℕ} (hn : n ≤ maxSeries) :
    ∃ s, (machine hashPair).Reachable s ∧ s.counter.tagged.series = n ∧
      ∀ k, n ≤ k → s.counter.tagged.seriesOf (tagsOf k).1 = none := by
  induction n with
  | zero => exact ⟨_, .start ⟨"orders_total", rfl⟩, rfl, fun k _ => rfl⟩
  | succ n ih =>
      obtain ⟨s, hr, hseries, hnew⟩ := ih (Nat.le_of_succ_le hn)
      have hroom : s.counter.tagged.series < maxSeries := by omega
      have hwriting := reachable_writing hr (tagsOf n) hroom
        (holds_tagsOf (hnew n (Nat.le_refl n)))
      obtain ⟨s', hr', -, hseries', hothers⟩ :=
        reachable_added hwriting s.calls [] rfl (hnew n (Nat.le_refl n))
      refine ⟨s', hr', hseries'.trans (congrArg (· + 1) hseries), fun k hk => ?_⟩
      rw [hothers _ (tagsOf_ne (by omega))]
      exact hnew k (by omega)

/-- Two calls that both loaded the counter below the cap add one series too many. -/
theorem cap_exceeded : ∃ es s, (machine fun _ => 0).Run es s ∧
    s.counter.tagged.each.length = 1025 ∧ ¬s.SeriesKept := by
  obtain ⟨s, hr, hseries, hnew⟩ :=
    reachable_filled (fun _ => 0) (n := 1023) (by decide)
  have hroom : s.counter.tagged.series < maxSeries := by
    rw [hseries]
    decide
  have hnew₁ := hnew 1023 (by omega)
  have hnew₂ := hnew 1024 (by omega)
  have hfirst := reachable_writing hr (tagsOf 1023) hroom (holds_tagsOf hnew₁)
  have hboth := reachable_writing hfirst (tagsOf 1024) hroom (holds_tagsOf hnew₂)
  obtain ⟨t, ht, hcalls, hseries₁, hothers⟩ :=
    reachable_added hboth s.calls [.writing 1 (tagsOf 1024)]
      (List.append_assoc _ _ _) hnew₁
  have hstill : t.counter.tagged.seriesOf (tagsOf 1024).1 = none := by
    rw [hothers _ (tagsOf_ne (by omega))]
    exact hnew₂
  obtain ⟨u, ⟨es, hu⟩, -, hseries₂, -⟩ :=
    reachable_added ht (s.calls ++ [.returned]) []
      (hcalls.trans (List.append_cons _ _ _)) hstill
  have hlength : u.counter.tagged.each.length = 1025 := by
    rw [length_each, hseries₂, hseries₁]
    change s.counter.tagged.series + 1 + 1 = 1025
    rw [hseries]
  refine ⟨es, u, hu, hlength, fun h => ?_⟩
  have hcapped := h.capped
  rw [hlength] at hcapped
  exact absurd hcapped (by decide)

end Recorder

end Overlap

end Metric

end O11y

end RustSak
