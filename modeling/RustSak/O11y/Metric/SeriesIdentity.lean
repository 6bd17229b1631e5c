import RustSak.O11y.Metric.SeriesCap

/-!
# Which series a recording reaches

A series is known by the tags it was stored with: no two series of a map have the
same set of them, and none is ever removed. The series a recording reaches is the
first of its bucket that `sameTags` finds, so two recordings that are each given a
series reach the same one exactly when their tags are permutations of each other. A
recording that is refused at the cap goes to the overflow series instead, which it
shares with every other.
-/

namespace RustSak

namespace O11y

namespace Metric

open Library

variable {hashPair : Tag → UInt64}

namespace TagMap

variable {T : Type*} (m : TagMap hashPair T)

/-- The stored tags of the series that is found for these. -/
def reached (tags : Tags) : Option Tags :=
  ((m.bucketOf tags).find? fun s => sameTags s.1 tags).map Prod.fst

/-- The tags the series are stored with. -/
def keys : List Tags := m.each.map Prod.fst

theorem perm_of_reached {tags key : Tags} (h : m.reached tags = some key) :
    key ∈ m.keys ∧ key.Perm tags := by
  obtain ⟨s, hfound, rfl⟩ := Option.map_eq_some_iff.mp h
  have hmem := List.mem_of_find?_eq_some hfound
  have hsame := List.find?_some hfound
  exact ⟨List.mem_map_of_mem (Entries.mem_all_of_mem_bucket hmem),
    (sameTags_eq_true hsame).2⟩

theorem holds_of_reached {tags key : Tags} (h : m.reached tags = some key) :
    holds (m.bucketOf tags) tags = true := by
  have hsome : (m.reached tags).isSome = true := Option.isSome_of_eq_some h
  rw [reached, Option.isSome_map, List.find?_isSome] at hsome
  exact List.any_eq_true.mpr hsome

theorem reached_isSome {tags : Narrow} (h : holds (m.bucketOf tags) tags = true) :
    ∃ key, m.reached tags = some key := by
  rw [← Option.isSome_iff_exists, reached, Option.isSome_map, List.find?_isSome]
  exact List.any_eq_true.mp h

/-- Stored tags that are the same set are the same series. -/
theorem eq_of_perm {key key' : Tags} (h : key ∈ m.keys) (h' : key' ∈ m.keys)
    (hperm : key.Perm key') : key = key' := by
  obtain ⟨s, hs, rfl⟩ := List.mem_map.mp h
  obtain ⟨s', hs', rfl⟩ := List.mem_map.mp h'
  have hsets : Multiset.ofList s.1 = Multiset.ofList s'.1 :=
    Multiset.coe_eq_coe.mpr hperm
  rw [List.inj_on_of_nodup_map m.sets_nodup hs hs' hsets]

theorem keys_useHeld {tags : Narrow} (use : T → T) :
    (m.useHeld tags use).keys.Perm m.keys := m.keys_use_perm tags use

theorem keys_push {tags : Narrow} (series : T)
    (h : holds (m.bucketOf tags) tags = false) :
    (m.push tags series h).keys.Perm (tags.1 :: m.keys) :=
  (m.each_push series h).map Prod.fst

/-- No series is removed under the write lock. -/
theorem keys_subset_useOrPush (tags : Narrow) (make : T) (use : T → T) :
    m.keys ⊆ (m.useOrPush tags make use).keys := by
  cases h : holds (m.bucketOf tags) tags with
  | true =>
      rw [m.useOrPush_of_holds tags h]
      exact (m.keys_useHeld use).symm.subset
  | false =>
      rw [m.useOrPush_of_not tags h]
      intro key hkey
      exact (m.keys_push (use make) h).symm.subset (List.mem_cons_of_mem _ hkey)

/-- Stored tags with the set of these are the ones that are found. -/
theorem reached_eq_some {tags : Narrow} {key : Tags} (hkey : key ∈ m.keys)
    (hperm : key.Perm tags.1) : m.reached tags = some key := by
  have hseries : (m.seriesOf tags.1).isSome = true := by
    obtain ⟨s, hs, rfl⟩ := List.mem_map.mp hkey
    rw [Option.isSome_iff_exists]
    exact ⟨s.2, m.seriesOf_eq_some.mpr ⟨s.1, hs, Multiset.coe_eq_coe.mpr hperm⟩⟩
  obtain ⟨key', hreached⟩ := m.reached_isSome ((m.holds_iff_seriesOf tags).mpr hseries)
  obtain ⟨hkey', hperm'⟩ := m.perm_of_reached hreached
  rw [hreached, m.eq_of_perm hkey hkey' (hperm.trans hperm'.symm)]

/-- The series that is used is the one that is reached. -/
theorem each_useHeld_reached {tags : Narrow} (use : T → T)
    (h : holds (m.bucketOf tags) tags = true) :
    ∃ key series rest, m.reached tags = some key ∧
      m.each.Perm ((key, series) :: rest) ∧
      (m.useHeld tags use).each.Perm ((key, use series) :: rest) := by
  obtain ⟨key, series, rest, hperm, hbefore, hafter⟩ := m.each_useHeld use h
  have hkey : key ∈ m.keys :=
    (hbefore.map Prod.fst).symm.subset List.mem_cons_self
  exact ⟨key, series, rest, m.reached_eq_some hkey hperm, hbefore, hafter⟩

/-- A new series is reached by its own tags. -/
theorem reached_push {tags : Narrow} (series : T)
    (h : holds (m.bucketOf tags) tags = false) :
    (m.push tags series h).reached tags = some tags.1 :=
  reached_eq_some _ ((m.keys_push series h).symm.subset List.mem_cons_self) (.refl _)

end TagMap

section Reaching

/-- The stored tags of the series that the next step of a call uses. -/
def Call.reaches (c : Counter hashPair) : Call → Option Tags
  | .reading _ tags _ => c.tagged.reached tags
  | .writing amount tags => (c.tagged.useOrPush tags 0 (· + amount)).reached tags
  | _ => none

/-- The tags a call that is looking for its series was made with. -/
def Call.sought : Call → Option Narrow
  | .reading _ tags _ => some tags
  | .writing _ tags => some tags
  | _ => none

/-- What is added to the series that is reached, which may be new, and to nothing
else. -/
def AddsTo (key : Tags) (amount : UInt64) (m m' : TagMap hashPair UInt64) : Prop :=
  ∃ value rest, (m.each.Perm ((key, value) :: rest) ∨ value = 0 ∧ m.each.Perm rest) ∧
    m'.each.Perm ((key, value + amount) :: rest)

theorem addsTo_useHeld {m : TagMap hashPair UInt64} {tags : Narrow} {key : Tags}
    (hreached : m.reached tags = some key) (amount : UInt64) :
    AddsTo key amount m (m.useHeld tags (· + amount)) := by
  obtain ⟨key', value, rest, hkey', hbefore, hafter⟩ :=
    m.each_useHeld_reached (· + amount) (m.holds_of_reached hreached)
  obtain rfl := Option.some.inj (hreached.symm.trans hkey')
  exact ⟨value, rest, .inl hbefore, hafter⟩

/-- The next step of a call adds its amount to the series it reaches. -/
theorem Call.adds_of_reaches {c : Counter hashPair} {call : Call} {tags : Narrow}
    {key : Tags} (htags : call.sought = some tags) (h : call.reaches c = some key) :
    key ∈ (call.step c).1.tagged.keys ∧ key.Perm tags.1 ∧
      AddsTo key call.pending c.tagged (call.step c).1.tagged := by
  cases call with
  | incrementing amount => exact absurd h (by simp [Call.reaches])
  | flagging => exact absurd h (by simp [Call.reaches])
  | arriving amount tags => exact absurd h (by simp [Call.reaches])
  | overflowing amount => exact absurd h (by simp [Call.reaches])
  | returned => exact absurd h (by simp [Call.reaches])
  | reading amount tags' atCapacity =>
      obtain rfl := Option.some.inj htags
      have hheld := c.tagged.holds_of_reached h
      obtain ⟨hkey, hperm⟩ := c.tagged.perm_of_reached h
      have hstep : ((Call.reading amount tags' atCapacity).step c).1.tagged =
          c.tagged.useHeld tags' (· + amount) := by
        rw [Call.step, if_pos hheld]
      rw [hstep]
      exact ⟨(c.tagged.keys_useHeld _).symm.subset hkey, hperm, addsTo_useHeld h amount⟩
  | writing amount tags' =>
      obtain rfl := Option.some.inj htags
      obtain ⟨hkey, hperm⟩ := TagMap.perm_of_reached _ h
      refine ⟨hkey, hperm, ?_⟩
      change AddsTo key amount c.tagged (c.tagged.useOrPush tags' 0 (· + amount))
      rw [Call.reaches] at h
      cases hheld : holds (c.tagged.bucketOf tags') tags' with
      | true =>
          obtain ⟨key', hreached⟩ := c.tagged.reached_isSome hheld
          obtain ⟨hkey', hperm'⟩ := c.tagged.perm_of_reached hreached
          have hsame : key' = key :=
            TagMap.eq_of_perm _ (c.tagged.keys_subset_useOrPush tags' 0 _ hkey') hkey
              (hperm'.trans hperm.symm)
          rw [c.tagged.useOrPush_of_holds tags' hheld, ← hsame]
          exact addsTo_useHeld hreached amount
      | false =>
          rw [c.tagged.useOrPush_of_not tags' hheld] at h ⊢
          rw [c.tagged.reached_push _ hheld] at h
          obtain rfl := Option.some.inj h
          exact ⟨0, c.tagged.each, .inr ⟨rfl, .refl _⟩, c.tagged.each_push _ hheld⟩

/-- A call whose next step uses no series leaves them all as they are. -/
theorem Call.kept_of_not_reaches {c : Counter hashPair} {call : Call}
    (h : call.reaches c = none) : (call.step c).1.tagged = c.tagged := by
  cases call with
  | incrementing amount => rfl
  | flagging => rfl
  | arriving amount tags =>
      rw [Call.step]
      split
      · rfl
      · rfl
  | reading amount tags atCapacity =>
      have hnot : ¬holds (c.tagged.bucketOf tags) tags = true := by
        intro hheld
        obtain ⟨key, hreached⟩ := c.tagged.reached_isSome hheld
        exact absurd (hreached.symm.trans h) (Option.some_ne_none key)
      rw [Call.step, if_neg hnot]
      split
      · rfl
      · rfl
  | writing amount tags =>
      rw [Call.reaches] at h
      cases hheld : holds (c.tagged.bucketOf tags) tags with
      | true =>
          obtain ⟨key, hreached⟩ := c.tagged.reached_isSome hheld
          obtain ⟨hkey, hperm⟩ := c.tagged.perm_of_reached hreached
          have hkept := c.tagged.keys_subset_useOrPush tags 0 (· + amount) hkey
          rw [TagMap.reached_eq_some _ hkept hperm] at h
          exact absurd h (Option.some_ne_none key)
      | false =>
          rw [c.tagged.useOrPush_of_not tags hheld, c.tagged.reached_push _ hheld] at h
          exact absurd h (Option.some_ne_none _)
  | overflowing amount => rfl
  | returned => rfl

/-- No step removes a series. -/
theorem Call.keys_subset_step (c : Counter hashPair) (call : Call) :
    c.tagged.keys ⊆ (call.step c).1.tagged.keys := by
  cases call with
  | incrementing amount => exact List.Subset.refl _
  | flagging => exact List.Subset.refl _
  | arriving amount tags =>
      rw [Call.step]
      split
      · exact List.Subset.refl _
      · exact List.Subset.refl _
  | reading amount tags atCapacity =>
      rw [Call.step]
      split
      · exact (c.tagged.keys_useHeld _).symm.subset
      · split
        · exact List.Subset.refl _
        · exact List.Subset.refl _
  | writing amount tags => exact c.tagged.keys_subset_useOrPush tags 0 _
  | overflowing amount => exact List.Subset.refl _
  | returned => exact List.Subset.refl _

namespace Recorder

theorem keys_subset_next (s : Recorder hashPair) (e : Event) :
    s.counter.tagged.keys ⊆ (s.next e).counter.tagged.keys := by
  cases e with
  | call r => exact List.Subset.refl _
  | step i =>
      cases hcall : s.calls[i]? with
      | none =>
          rw [next, hcall]
          exact List.Subset.refl _
      | some call =>
          rw [next_step hcall]
          exact call.keys_subset_step s.counter

theorem keys_subset_later {s s' : Recorder hashPair}
    (h : (machine hashPair).Later s s') :
    s.counter.tagged.keys ⊆ s'.counter.tagged.keys := by
  induction h with
  | refl => exact List.Subset.refl _
  | tail _ hstep ih =>
      obtain ⟨e, -, rfl⟩ := hstep
      exact List.Subset.trans ih (keys_subset_next _ e)

/-- `s.Reaches i tags key`: the next step of the `i`-th call, made with `tags`, uses the
series stored as `key`. -/
def Reaches (s : Recorder hashPair) (i : ℕ) (tags : Narrow) (key : Tags) : Prop :=
  ∃ call, s.calls[i]? = some call ∧ call.sought = some tags ∧
    call.reaches s.counter = some key

theorem Reaches.stored {s : Recorder hashPair} {i : ℕ} {tags : Narrow} {key : Tags}
    (h : s.Reaches i tags key) :
    key ∈ (s.next (.step i)).counter.tagged.keys ∧ key.Perm tags.1 := by
  obtain ⟨call, hcall, htags, hreaches⟩ := h
  obtain ⟨hkey, hperm, -⟩ := Call.adds_of_reaches htags hreaches
  rw [next_step hcall]
  exact ⟨hkey, hperm⟩

end Recorder

/-- The hash does not depend on the order and `sameTags` decides whether two sets are
the same. The step of a recording that reaches a series adds its amount to that one
alone, any other step leaves all of them as they are, and of two recordings that are
each given a series, at any two moments of any interleaving, both reach the same one
exactly when their tags are the same set. -/
theorem same_series_iff (hashPair : Tag → UInt64) (tags tags' : Narrow) :
    (tags.1.Perm tags'.1 → hashTags hashPair tags = hashTags hashPair tags') ∧
      (sameTags tags.1 tags'.1 = true ↔ tags.1.Perm tags'.1) ∧
      (∀ (c : Counter hashPair) (call : Call), call.sought = some tags →
        (∀ key, call.reaches c = some key →
          AddsTo key call.pending c.tagged (call.step c).1.tagged) ∧
        (call.reaches c = none → (call.step c).1.tagged = c.tagged)) ∧
      ∀ (s s' : Recorder hashPair) (i j : ℕ) (key key' : Tags),
        s.Reaches i tags key →
        (Recorder.machine hashPair).Later (s.next (.step i)) s' →
        s'.Reaches j tags' key' →
        (key = key' ↔ tags.1.Perm tags'.1) := by
  refine ⟨hashTags_perm hashPair, sameTags_iff tags'.2, fun c call htags => ?_, ?_⟩
  · exact ⟨fun key h => (Call.adds_of_reaches htags h).2.2, Call.kept_of_not_reaches⟩
  · intro s s' i j key key' hreaches hlater hreaches'
    obtain ⟨hkey, hperm⟩ := hreaches.stored
    obtain ⟨hkey', hperm'⟩ := hreaches'.stored
    have hkept : key ∈ (s'.next (.step j)).counter.tagged.keys :=
      Recorder.keys_subset_next s' _ (Recorder.keys_subset_later hlater hkey)
    constructor
    · rintro rfl
      exact hperm.symm.trans hperm'
    · intro hsame
      exact TagMap.eq_of_perm _ hkept hkey' (hperm.trans (hsame.trans hperm'.symm))

/-- Two orders of the same tags, under a hash that tells no tags apart. -/
theorem same_series_two_orders :
    ([("a", "1"), ("b", "2")] : Tags) = [("a", "1"), ("b", "2")] ↔
      ([("a", "1"), ("b", "2")] : Tags).Perm [("b", "2"), ("a", "1")] := by
  let s : Recorder fun _ => 0 :=
    ⟨counter _ "orders_total", [.writing 1 ⟨[("a", "1"), ("b", "2")], by decide⟩,
      .writing 1 ⟨[("b", "2"), ("a", "1")], by decide⟩], [1, 1]⟩
  exact (same_series_iff (fun _ => 0) ⟨_, by decide⟩ ⟨_, by decide⟩).2.2.2
    s (s.next (.step 0)) 0 1 _ _ ⟨_, rfl, rfl, by decide⟩ .refl ⟨_, rfl, rfl, by decide⟩

/-- At the cap two sets of tags that are not the same both go to the overflow series. -/
theorem overflow_shared : ∃ s, (Recorder.machine fun _ => 0).Reachable s ∧
    ¬(Recorder.tagsOf 1024).1.Perm (Recorder.tagsOf 1025).1 ∧
    ∀ tags ∈ [Recorder.tagsOf 1024, Recorder.tagsOf 1025],
      s.counter.addWithTags 1 tags.1 =
        { s.counter with overflow := s.counter.overflow + 1 } := by
  obtain ⟨s, hr, hseries, hnew⟩ :=
    Recorder.reachable_filled (fun _ => 0) (n := 1024) (by decide)
  have hrefused : ∀ k, 1024 ≤ k →
      s.counter.tagged.withTags (Recorder.tagsOf k).1 0 (· + 1) = none := by
    intro k hk
    apply s.counter.tagged.withTags_of_not_admits
    rintro ⟨-, hknown | hroom⟩
    · rw [TagMap.mem_known, hnew k hk] at hknown
      exact absurd hknown Bool.false_ne_true
    · rw [TagMap.card_known, hseries] at hroom
      exact absurd hroom (by decide)
  refine ⟨s, hr, fun hperm => ?_, fun tags htags => ?_⟩
  · exact Recorder.tagsOf_ne (by decide) (Multiset.coe_eq_coe.mpr hperm)
  · rcases List.mem_pair.mp htags with rfl | rfl
    · rw [Counter.addWithTags, hrefused 1024 (by decide)]
    · rw [Counter.addWithTags, hrefused 1025 (by decide)]

end Reaching

end Metric

end O11y

end RustSak
