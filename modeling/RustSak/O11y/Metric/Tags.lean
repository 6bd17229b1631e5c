import RustSak.Library.Table
import Mathlib.Data.List.Perm.Basic
import Mathlib.Data.List.Nodup
import Mathlib.Data.UInt

/-!
# Series by tag set

One instrument keeps a series for each tag set it has seen. The map is keyed by a
hash that does not depend on the order of the tags; the sets that share a hash stand
side by side in a bucket and are told apart by `sameTags`. A map carries what its
operations rely on: every series stands in the bucket of its own hash, no set is
wider than the comparison can handle, no two sets are permutations of each other, and
the counter says how many there are.
-/

namespace RustSak

namespace O11y

namespace Metric

open Library

abbrev Tag := String × String

abbrev Tags := List Tag

/-- The most distinct tag sets one instrument tracks. -/
def maxSeries : ℕ := 1024

/-- How many tags `sameTags` can compare: the width of its claim mask. -/
def maskBits : ℕ := 64

def overflowTags : Tags := [("o11y.series_overflow", "true")]

/-- The hash of each pair, `hashPair`, is the standard library's and left open. -/
def hashTags (hashPair : Tag → UInt64) (tags : Tags) : UInt64 :=
  tags.foldl (fun combined tag => combined ^^^ hashPair tag) 0

theorem hashTags_perm (hashPair : Tag → UInt64) {tags tags' : Tags}
    (h : tags.Perm tags') : hashTags hashPair tags = hashTags hashPair tags' := by
  apply h.foldl_eq'
  intro x _ y _ z
  rw [UInt64.xor_assoc, UInt64.xor_assoc, UInt64.xor_comm (hashPair x)]

section SameTags

/-- The first pair of the probe that is not claimed yet and is the stored one. -/
def findUnclaimed (probe : Tags) (claimed : BitVec 64) (tag : Tag) : Option ℕ :=
  (List.range probe.length).find? fun index =>
    claimed &&& (1#64 <<< index) == 0#64 && probe[index]? == some tag

/-- Every stored pair claims a pair of the probe. -/
def claimAll (probe : Tags) : BitVec 64 → Tags → Bool
  | _, [] => true
  | claimed, tag :: stored =>
      match findUnclaimed probe claimed tag with
      | some index => claimAll probe (claimed ||| (1#64 <<< index)) stored
      | none => false

def sameTags (stored probe : Tags) : Bool :=
  if stored.length ≠ probe.length ∨ maskBits < probe.length then false
  else claimAll probe 0#64 stored

/-- The pairs of the probe that are still to be claimed. -/
def unclaimed (probe : Tags) (claimed : BitVec 64) : Tags :=
  ((List.range probe.length).filter fun index => !claimed.getLsbD index).filterMap
    (probe[·]?)

theorem and_bit_eq_zero {claimed : BitVec 64} {index : ℕ} (h : index < 64) :
    (claimed &&& (1#64 <<< index) == 0#64) = !claimed.getLsbD index := by
  rw [Bool.eq_iff_iff, beq_iff_eq, Bool.not_eq_true']
  constructor
  · intro hzero
    have hbit := congrArg (fun w : BitVec 64 => w.getLsbD index) hzero
    simpa [h] using hbit
  · intro hbit
    apply BitVec.eq_of_getLsbD_eq
    intro i hi
    by_cases heq : i = index
    · simp [heq, hbit]
    · have hne : ¬(index ≤ i ∧ i - index = 0) := by omega
      simp only [BitVec.getLsbD_and, BitVec.getLsbD_shiftLeft, BitVec.getLsbD_one]
      by_cases hlt : i < index
      · simp [hlt]
      · have hpos : i - index ≠ 0 := by omega
        simp [hpos]

theorem getLsbD_or_bit {claimed : BitVec 64} {index i : ℕ} (hi : i < 64) :
    (claimed ||| (1#64 <<< index)).getLsbD i = (claimed.getLsbD i || i == index) := by
  rw [BitVec.getLsbD_or]
  congr 1
  rw [BitVec.getLsbD_shiftLeft, BitVec.getLsbD_one, Bool.eq_iff_iff]
  simp only [hi, decide_true, Bool.true_and, Bool.and_eq_true, Bool.not_eq_true',
    decide_eq_false_iff_not, decide_eq_true_eq, beq_iff_eq]
  omega

theorem findUnclaimed_eq_some {probe : Tags} {claimed : BitVec 64} {tag : Tag}
    {index : ℕ} (hwide : probe.length ≤ maskBits)
    (h : findUnclaimed probe claimed tag = some index) :
    index < probe.length ∧ claimed.getLsbD index = false ∧
      probe[index]? = some tag := by
  have hmem := List.mem_range.mp (List.mem_of_find?_eq_some h)
  have hfound := List.find?_some h
  rw [and_bit_eq_zero (lt_of_lt_of_le hmem hwide), Bool.and_eq_true,
    Bool.not_eq_true', beq_iff_eq] at hfound
  exact ⟨hmem, hfound⟩

/-- What is left to claim loses the claimed pair. -/
theorem unclaimed_perm {probe : Tags} {claimed : BitVec 64} {tag : Tag} {index : ℕ}
    (hwide : probe.length ≤ maskBits) (hindex : index < probe.length)
    (hfree : claimed.getLsbD index = false) (htag : probe[index]? = some tag) :
    (unclaimed probe claimed).Perm
      (tag :: unclaimed probe (claimed ||| (1#64 <<< index))) := by
  have hrest : (List.range probe.length).filter
        (fun i => !(claimed ||| (1#64 <<< index)).getLsbD i) =
      ((List.range probe.length).filter fun i => !claimed.getLsbD i).erase index := by
    rw [(List.nodup_range.filter _).erase_eq_filter, List.filter_filter]
    apply List.filter_congr
    intro i hi
    have hi64 : i < 64 := lt_of_lt_of_le (List.mem_range.mp hi) hwide
    rw [getLsbD_or_bit hi64, Bool.not_or, Bool.and_comm]
    rfl
  have hmem : index ∈ (List.range probe.length).filter fun i => !claimed.getLsbD i := by
    rw [List.mem_filter, List.mem_range, hfree]
    exact ⟨hindex, rfl⟩
  have hperm := (List.perm_cons_erase hmem).filterMap (probe[·]?)
  rw [List.filterMap_cons_some htag, ← hrest] at hperm
  exact hperm

theorem findUnclaimed_eq_none {probe : Tags} {claimed : BitVec 64} {tag : Tag}
    (hwide : probe.length ≤ maskBits) (h : findUnclaimed probe claimed tag = none) :
    tag ∉ unclaimed probe claimed := by
  intro hmem
  obtain ⟨index, hindex, htag⟩ := List.mem_filterMap.mp hmem
  obtain ⟨hrange, hfree⟩ := List.mem_filter.mp hindex
  have hnone := List.find?_eq_none.mp h index hrange
  rw [and_bit_eq_zero (lt_of_lt_of_le (List.mem_range.mp hrange) hwide), hfree] at hnone
  simp [htag] at hnone

theorem claimAll_eq_true {probe : Tags} (hwide : probe.length ≤ maskBits)
    (claimed : BitVec 64) (stored : Tags) :
    claimAll probe claimed stored = true ↔ stored.Subperm (unclaimed probe claimed) := by
  induction stored generalizing claimed with
  | nil => simp [claimAll]
  | cons tag stored ih =>
      rw [claimAll]
      cases hfound : findUnclaimed probe claimed tag with
      | some index =>
          obtain ⟨hindex, hfree, htag⟩ := findUnclaimed_eq_some hwide hfound
          have hperm := unclaimed_perm hwide hindex hfree htag
          rw [hperm.subperm_left, List.subperm_cons]
          exact ih _
      | none =>
          have hnot := findUnclaimed_eq_none hwide hfound
          simp only [Bool.false_eq_true, false_iff]
          intro hsub
          exact hnot (hsub.subset List.mem_cons_self)

theorem filterMap_getElem?_range {α : Type*} (l : List α) :
    (List.range l.length).filterMap (l[·]?) = l := by
  induction l with
  | nil => rfl
  | cons a l ih =>
      have htail : ((List.range l.length).map Nat.succ).filterMap ((a :: l)[·]?) = l := by
        rw [List.filterMap_map]
        exact ih
      simp only [List.length_cons, List.range_succ_eq_map, List.filterMap_cons,
        List.getElem?_cons_zero, htail]

theorem unclaimed_zero (probe : Tags) : unclaimed probe 0#64 = probe := by
  have hall : (List.range probe.length).filter
      (fun index => !(0#64).getLsbD index) = List.range probe.length := by
    rw [List.filter_eq_self]
    simp
  rw [unclaimed, hall, filterMap_getElem?_range]

/-- Two sets no wider than the mask are the same exactly when each is a permutation
of the other. -/
theorem sameTags_iff {stored probe : Tags} (hwide : probe.length ≤ maskBits) :
    sameTags stored probe = true ↔ stored.Perm probe := by
  unfold sameTags
  split
  case isTrue h =>
    have hlen : stored.length ≠ probe.length := h.resolve_right (by omega)
    simp only [Bool.false_eq_true, false_iff]
    exact fun hperm => hlen hperm.length_eq
  case isFalse h =>
    rw [claimAll_eq_true hwide, unclaimed_zero]
    constructor
    · intro hsub
      exact hsub.perm_of_length_le (by omega)
    · exact List.Perm.subperm

theorem sameTags_eq_true {stored probe : Tags} (h : sameTags stored probe = true) :
    probe.length ≤ maskBits ∧ stored.Perm probe := by
  have hwide : probe.length ≤ maskBits := by
    by_contra hnot
    simp [sameTags, Nat.lt_of_not_le hnot] at h
  exact ⟨hwide, (sameTags_iff hwide).mp h⟩

end SameTags

section Entries

/-- The buckets by the hash their sets share. -/
abbrev Entries (T : Type*) := Table UInt64 (List (Tags × T))

namespace Entries

variable {T : Type*}

/-- Every series, in some order. -/
def all (m : Entries T) : List (Tags × T) := m.entries.flatMap (·.2)

def keys (m : Entries T) : List Tags := (all m).map Prod.fst

def bucket (m : Entries T) (hash : UInt64) : List (Tags × T) := (m.lookup hash).getD []

theorem all_insert (m : Entries T) (hash : UInt64) (b : List (Tags × T)) :
    all (m.insert hash b) = b ++ all (m.erase hash) := rfl

theorem all_perm (m : Entries T) (hash : UInt64) :
    (all m).Perm (bucket m hash ++ all (m.erase hash)) := by
  unfold bucket
  cases hlookup : m.lookup hash with
  | none =>
      have herase : m.erase hash = m := by
        apply AList.ext
        exact List.kerase_of_notMem_keys (AList.lookup_eq_none.mp hlookup)
      rw [Option.getD_none, List.nil_append, herase]
  | some b =>
      have hperm := (Table.entries_perm hlookup).flatMap_right (·.2)
      rwa [List.flatMap_cons] at hperm

theorem bucket_insert (m : Entries T) (hash hash' : UInt64) (b : List (Tags × T)) :
    bucket (m.insert hash b) hash' = if hash' = hash then b else bucket m hash' := by
  unfold bucket
  rw [Table.lookup_insert]
  split
  · rfl
  · rfl

theorem mem_all_of_mem_bucket {m : Entries T} {hash : UInt64} {s : Tags × T}
    (h : s ∈ bucket m hash) : s ∈ all m :=
  (all_perm m hash).mem_iff.mpr (List.mem_append_left _ h)

/-- Every series stands in some bucket. -/
theorem mem_bucket_of_mem_all {m : Entries T} {s : Tags × T} (h : s ∈ all m) :
    ∃ hash, s ∈ bucket m hash := by
  obtain ⟨e, he, hs⟩ := List.mem_flatMap.mp h
  refine ⟨e.1, ?_⟩
  have hlookup : m.lookup e.1 = some e.2 := AList.mem_lookup_iff.mpr he
  rw [bucket, hlookup]
  exact hs

end Entries

end Entries

/-- A tag set narrow enough to be compared. -/
abbrev Narrow := { tags : Tags // tags.length ≤ maskBits }

section Bucket

variable {T : Type*}

def holds (bucket : List (Tags × T)) (tags : Tags) : Bool :=
  bucket.any fun s => sameTags s.1 tags

/-- Uses the first series of the bucket that has the tags. -/
def useFirst (tags : Tags) (use : T → T) : List (Tags × T) → List (Tags × T)
  | [] => []
  | s :: bucket =>
      if sameTags s.1 tags then (s.1, use s.2) :: bucket
      else s :: useFirst tags use bucket

theorem holds_iff {bucket : List (Tags × T)} {tags : Narrow} :
    holds bucket tags = true ↔ ∃ s ∈ bucket, s.1.Perm tags := by
  unfold holds
  simp only [List.any_eq_true, sameTags_iff tags.2]

theorem keys_useFirst (tags : Tags) (use : T → T) (bucket : List (Tags × T)) :
    (useFirst tags use bucket).map Prod.fst = bucket.map Prod.fst := by
  induction bucket with
  | nil => rfl
  | cons s bucket ih =>
      rw [useFirst]
      split
      · rfl
      · rw [List.map_cons, List.map_cons, ih]

/-- One series with the tags changes, the others stay. -/
theorem useFirst_spec {bucket : List (Tags × T)} {tags : Narrow} (use : T → T)
    (h : holds bucket tags = true) :
    ∃ before s after, bucket = before ++ s :: after ∧ s.1.Perm tags ∧
      useFirst tags use bucket = before ++ (s.1, use s.2) :: after := by
  induction bucket with
  | nil => simp [holds] at h
  | cons s bucket ih =>
      cases hsame : sameTags s.1 tags with
      | true =>
          refine ⟨[], s, bucket, rfl, (sameTags_iff tags.2).mp hsame, ?_⟩
          simp [useFirst, hsame]
      | false =>
          have hrest : holds bucket tags = true := by
            simpa [holds, hsame] using h
          obtain ⟨before, s', after, hbucket, hperm, huse⟩ := ih hrest
          refine ⟨s :: before, s', after, ?_, hperm, ?_⟩
          · rw [hbucket, List.cons_append]
          · simp [useFirst, hsame, huse]

end Bucket

/-- Tags are taken when the sets `known` have a series: they can be compared, and they
have a series or may still get one. -/
def Admits (known : Finset (Multiset Tag)) (tags : Tags) : Prop :=
  tags.length ≤ maskBits ∧
    (Multiset.ofList tags ∈ known ∨ known.card < maxSeries)

instance (known : Finset (Multiset Tag)) (tags : Tags) :
    Decidable (Admits known tags) :=
  inferInstanceAs (Decidable (_ ∧ _))

/-- The series of one instrument by tag set. -/
structure TagMap (hashPair : Tag → UInt64) (T : Type*) where
  entries : Entries T
  series : ℕ
  hashed : ∀ hash, ∀ s ∈ Entries.bucket entries hash, hashTags hashPair s.1 = hash
  narrow : ∀ tags ∈ Entries.keys entries, tags.length ≤ maskBits
  distinct : (Entries.keys entries).Pairwise fun tags tags' => ¬tags.Perm tags'
  counted : series = (Entries.keys entries).length

namespace TagMap

variable {hashPair : Tag → UInt64} {T : Type*}

def empty : TagMap hashPair T where
  entries := ∅
  series := 0
  hashed := by simp [Entries.bucket]
  narrow := by simp [Entries.keys, Entries.all]
  distinct := by simp [Entries.keys, Entries.all]
  counted := by simp [Entries.keys, Entries.all]

section Operations

variable (m : TagMap hashPair T)

def bucketOf (tags : Tags) : List (Tags × T) :=
  Entries.bucket m.entries (hashTags hashPair tags)

/-- The series as the exporter visits them. -/
def each : List (Tags × T) := Entries.all m.entries

def get (tags : Tags) : Option T :=
  ((m.bucketOf tags).find? fun s => sameTags s.1 tags).map (·.2)

theorem keys_use_perm (tags : Tags) (use : T → T) :
    (Entries.keys (m.entries.insert (hashTags hashPair tags)
      (useFirst tags use (m.bucketOf tags)))).Perm (Entries.keys m.entries) := by
  unfold Entries.keys
  rw [Entries.all_insert, List.map_append, keys_useFirst, ← List.map_append]
  exact ((Entries.all_perm m.entries _).map Prod.fst).symm

theorem all_push_perm (tags : Tags) (series : T) :
    (Entries.all (m.entries.insert (hashTags hashPair tags)
      (m.bucketOf tags ++ [(tags, series)]))).Perm
        ((tags, series) :: Entries.all m.entries) := by
  rw [Entries.all_insert, List.append_assoc, List.singleton_append]
  exact List.perm_middle.trans ((Entries.all_perm m.entries _).symm.cons _)

/-- Tags that match no series of their bucket match none at all. -/
theorem not_perm_of_holds_false {tags : Narrow}
    (hnew : holds (m.bucketOf tags) tags = false) :
    ∀ tags' ∈ Entries.keys m.entries, ¬tags.1.Perm tags' := by
  intro tags' hmem hperm
  obtain ⟨s, hs, rfl⟩ := List.mem_map.mp hmem
  obtain ⟨hash, hbucket⟩ := Entries.mem_bucket_of_mem_all hs
  have hhash : hash = hashTags hashPair tags := by
    rw [← m.hashed hash s hbucket, hashTags_perm hashPair hperm]
  subst hhash
  have hheld : holds (m.bucketOf tags) tags = true :=
    holds_iff.mpr ⟨s, hbucket, hperm.symm⟩
  rw [hnew] at hheld
  exact Bool.false_ne_true hheld

theorem hashed_insert {hash : UInt64} {b : List (Tags × T)}
    (h : ∀ s ∈ b, hashTags hashPair s.1 = hash) (hash' : UInt64) :
    ∀ s ∈ Entries.bucket (m.entries.insert hash b) hash',
      hashTags hashPair s.1 = hash' := by
  intro s hs
  rw [Entries.bucket_insert] at hs
  split at hs
  case isTrue heq => rw [heq, h s hs]
  case isFalse => exact m.hashed hash' s hs

/-- `use` is run on the series the tags already have. -/
def useHeld (tags : Tags) (use : T → T) : TagMap hashPair T where
  entries := m.entries.insert (hashTags hashPair tags)
    (useFirst tags use (m.bucketOf tags))
  series := m.series
  hashed := by
    apply m.hashed_insert
    intro s hs
    have hkey := List.mem_map_of_mem (f := Prod.fst) hs
    rw [keys_useFirst] at hkey
    obtain ⟨s', hs', heq⟩ := List.mem_map.mp hkey
    rw [← heq, m.hashed _ s' hs']
  narrow := by
    intro tags' htags
    exact m.narrow tags' ((m.keys_use_perm tags use).mem_iff.mp htags)
  distinct := by
    refine ((m.keys_use_perm tags use).pairwise_iff ?_).mpr m.distinct
    exact fun hnot hsymm => hnot hsymm.symm
  counted := by
    rw [m.counted, (m.keys_use_perm tags use).length_eq]

/-- A series is added for tags that have none. -/
def push (tags : Narrow) (series : T) (hnew : holds (m.bucketOf tags) tags = false) :
    TagMap hashPair T where
  entries := m.entries.insert (hashTags hashPair tags)
    (m.bucketOf tags ++ [(tags.1, series)])
  series := m.series + 1
  hashed := by
    apply m.hashed_insert
    intro s hs
    rcases List.mem_append.mp hs with hs | hs
    · exact m.hashed _ s hs
    · rw [List.mem_singleton.mp hs]
  narrow := by
    intro tags' htags
    have hkeys := (m.all_push_perm tags.1 series).map Prod.fst
    rcases List.mem_cons.mp (hkeys.mem_iff.mp htags) with rfl | htags
    · exact tags.2
    · exact m.narrow tags' htags
  distinct := by
    have hkeys := (m.all_push_perm tags.1 series).map Prod.fst
    refine (hkeys.pairwise_iff ?_).mpr
      (List.pairwise_cons.mpr ⟨m.not_perm_of_holds_false hnew, m.distinct⟩)
    exact fun hnot hsymm => hnot hsymm.symm
  counted := by
    have hkeys := (m.all_push_perm tags.1 series).map Prod.fst
    rw [m.counted, Entries.keys, Entries.keys, hkeys.length_eq, List.map_cons,
      List.length_cons]

/-- What happens under the write lock, where the tags are looked up again. -/
def useOrPush (tags : Narrow) (make : T) (use : T → T) : TagMap hashPair T :=
  if h : holds (m.bucketOf tags) tags = true then m.useHeld tags use
  else m.push tags (use make) (Bool.eq_false_iff.mpr h)

/-- The whole call without another thread in between; `none` when the sample is
refused. -/
def withTags (tags : Tags) (make : T) (use : T → T) : Option (TagMap hashPair T) :=
  if h : tags.length ≤ maskBits then
    if holds (m.bucketOf tags) tags then some (m.useHeld tags use)
    else if maxSeries ≤ m.series then none
    else some (m.useOrPush ⟨tags, h⟩ make use)
  else none

@[simp] theorem series_useHeld (tags : Tags) (use : T → T) :
    (m.useHeld tags use).series = m.series := rfl

/-- Exactly one series is used, and it is one with these tags. -/
theorem each_useHeld {tags : Narrow} (use : T → T)
    (h : holds (m.bucketOf tags) tags = true) :
    ∃ stored series rest, stored.Perm tags.1 ∧
      m.each.Perm ((stored, series) :: rest) ∧
      (m.useHeld tags use).each.Perm ((stored, use series) :: rest) := by
  obtain ⟨before, s, after, hbucket, hperm, huse⟩ := useFirst_spec use h
  refine ⟨s.1, s.2, before ++ after ++ Entries.all
    (m.entries.erase (hashTags hashPair tags)), hperm, ?_, ?_⟩
  · have hall := Entries.all_perm m.entries (hashTags hashPair tags)
    change (Entries.all m.entries).Perm (m.bucketOf tags ++ _) at hall
    rw [hbucket, List.append_assoc, List.cons_append] at hall
    rw [List.append_assoc]
    exact hall.trans List.perm_middle
  · have hall : (m.useHeld tags use).each = useFirst tags use (m.bucketOf tags) ++
        Entries.all (m.entries.erase (hashTags hashPair tags)) :=
      Entries.all_insert ..
    rw [hall, huse, List.append_assoc, List.cons_append, List.append_assoc]
    exact List.perm_middle

theorem each_push {tags : Narrow} (series : T)
    (h : holds (m.bucketOf tags) tags = false) :
    (m.push tags series h).each.Perm ((tags.1, series) :: m.each) :=
  m.all_push_perm tags.1 series

theorem useOrPush_of_holds (tags : Narrow) {make : T} {use : T → T}
    (h : holds (m.bucketOf tags) tags = true) :
    m.useOrPush tags make use = m.useHeld tags use := dif_pos h

theorem useOrPush_of_not (tags : Narrow) {make : T} {use : T → T}
    (h : holds (m.bucketOf tags) tags = false) :
    m.useOrPush tags make use = m.push tags (use make) h :=
  dif_neg (Bool.eq_false_iff.mp h)

end Operations

/-- The series of a set of tags in a list of them. -/
def seriesIn (k : Multiset Tag) (l : List (Tags × T)) : Option T :=
  (l.find? fun s => Multiset.ofList s.1 = k).map (·.2)

theorem seriesIn_cons (k : Multiset Tag) (s : Tags × T) (l : List (Tags × T)) :
    seriesIn k (s :: l) =
      if k = Multiset.ofList s.1 then some s.2 else seriesIn k l := by
  unfold seriesIn
  by_cases h : k = Multiset.ofList s.1
  · simp [h]
  · rw [List.find?_cons_of_neg (by simpa using Ne.symm h), if_neg h]

theorem seriesIn_eq_some {k : Multiset Tag} {series : T} {l : List (Tags × T)}
    (hnodup : (l.map fun s => Multiset.ofList s.1).Nodup) :
    seriesIn k l = some series ↔
      ∃ stored, (stored, series) ∈ l ∧ Multiset.ofList stored = k := by
  induction l with
  | nil => simp [seriesIn]
  | cons s l ih =>
      obtain ⟨hnot, hnodup⟩ := List.nodup_cons.mp hnodup
      rw [seriesIn_cons]
      split
      case isTrue heq =>
        rw [Option.some.injEq]
        constructor
        · rintro rfl
          exact ⟨s.1, List.mem_cons_self, heq.symm⟩
        · rintro ⟨stored, hmem, hkey⟩
          rcases List.mem_cons.mp hmem with hs | hmem
          · exact (congrArg Prod.snd hs).symm
          · exact absurd (List.mem_map.mpr ⟨_, hmem, hkey.trans heq⟩) hnot
      case isFalse hne =>
        rw [ih hnodup]
        constructor
        · rintro ⟨stored, hmem, hkey⟩
          exact ⟨stored, List.mem_cons_of_mem _ hmem, hkey⟩
        · rintro ⟨stored, hmem, hkey⟩
          rcases List.mem_cons.mp hmem with hs | hmem
          · rw [← hs] at hne
            exact absurd hkey.symm hne
          · exact ⟨stored, hmem, hkey⟩

section Abstract

variable (m : TagMap hashPair T)

/-- The sets of the series, as they are visited. -/
def sets : List (Multiset Tag) := m.each.map fun s => Multiset.ofList s.1

theorem sets_nodup : m.sets.Nodup := by
  have hkeys : m.sets = (Entries.keys m.entries).map Multiset.ofList := by
    rw [Entries.keys, List.map_map]
    rfl
  rw [hkeys, List.nodup_iff_pairwise_ne, List.pairwise_map]
  exact m.distinct.imp fun h heq => h (Multiset.coe_eq_coe.mp heq)

/-- The series of a set of tags, in whatever order they are written. -/
def seriesOf (k : Multiset Tag) : Option T := seriesIn k m.each

theorem seriesOf_eq_some {k : Multiset Tag} {series : T} :
    m.seriesOf k = some series ↔
      ∃ stored, (stored, series) ∈ m.each ∧ Multiset.ofList stored = k :=
  seriesIn_eq_some m.sets_nodup

/-- The order of the visit does not matter. -/
theorem seriesOf_of_perm {l : List (Tags × T)} (h : m.each.Perm l) (k : Multiset Tag) :
    m.seriesOf k = seriesIn k l := by
  have hnodup : (l.map fun s => Multiset.ofList s.1).Nodup :=
    (h.map _).nodup_iff.mp m.sets_nodup
  apply Option.ext
  intro series
  simp only [seriesOf_eq_some, seriesIn_eq_some hnodup, h.mem_iff]

/-- Reading by tags reads the series of their set. -/
theorem get_eq_seriesOf (tags : Tags) : m.get tags = m.seriesOf tags := by
  cases hget : (m.bucketOf tags).find? fun s => sameTags s.1 tags with
  | some s =>
      have hs := List.mem_of_find?_eq_some hget
      have hfound := List.find?_some hget
      have hsame := sameTags_eq_true hfound
      have hseries : m.seriesOf tags = some s.2 :=
        m.seriesOf_eq_some.mpr ⟨s.1, Entries.mem_all_of_mem_bucket hs,
          Multiset.coe_eq_coe.mpr hsame.2⟩
      rw [get, hget, hseries]
      rfl
  | none =>
      rw [get, hget, eq_comm, Option.map_none, Option.eq_none_iff_forall_not_mem]
      intro series hseries
      obtain ⟨stored, hmem, hkey⟩ := m.seriesOf_eq_some.mp hseries
      have hperm : stored.Perm tags := Multiset.coe_eq_coe.mp hkey
      have hwide : tags.length ≤ maskBits := by
        rw [← hperm.length_eq]
        exact m.narrow stored (List.mem_map_of_mem (f := Prod.fst) hmem)
      obtain ⟨hash, hbucket⟩ := Entries.mem_bucket_of_mem_all hmem
      have hhash : hash = hashTags hashPair tags := by
        rw [← m.hashed hash _ hbucket, hashTags_perm hashPair hperm]
      subst hhash
      exact List.find?_eq_none.mp hget _ hbucket ((sameTags_iff hwide).mpr hperm)

theorem holds_iff_seriesOf (tags : Narrow) :
    holds (m.bucketOf tags) tags = true ↔ (m.seriesOf tags.1).isSome = true := by
  rw [← m.get_eq_seriesOf, get, Option.isSome_map, List.find?_isSome, holds,
    List.any_eq_true]

/-- The sets that have a series. -/
def known : Finset (Multiset Tag) :=
  ⟨m.sets, m.sets_nodup⟩

theorem card_known : m.known.card = m.series := by
  rw [m.counted, Entries.keys, List.length_map]
  exact List.length_map _

theorem mem_known {k : Multiset Tag} : k ∈ m.known ↔ (m.seriesOf k).isSome = true := by
  rw [Option.isSome_iff_exists]
  constructor
  · intro h
    obtain ⟨s, hs, hkey⟩ := List.mem_map.mp h
    exact ⟨s.2, m.seriesOf_eq_some.mpr ⟨s.1, hs, hkey⟩⟩
  · rintro ⟨series, h⟩
    obtain ⟨stored, hmem, hkey⟩ := m.seriesOf_eq_some.mp h
    exact List.mem_map.mpr ⟨_, hmem, hkey⟩

theorem seriesOf_useHeld {tags : Narrow} (use : T → T)
    (h : holds (m.bucketOf tags) tags = true) (k : Multiset Tag) :
    (m.useHeld tags use).seriesOf k =
      if k = Multiset.ofList tags.1 then (m.seriesOf k).map use
      else m.seriesOf k := by
  obtain ⟨stored, series, rest, hperm, hbefore, hafter⟩ := m.each_useHeld use h
  have hkey : Multiset.ofList stored = Multiset.ofList tags.1 :=
    Multiset.coe_eq_coe.mpr hperm
  rw [seriesOf_of_perm _ hafter, seriesOf_of_perm _ hbefore, seriesIn_cons,
    seriesIn_cons, hkey]
  split
  · rfl
  · rfl

theorem seriesOf_push {tags : Narrow} (series : T)
    (h : holds (m.bucketOf tags) tags = false) (k : Multiset Tag) :
    (m.push tags series h).seriesOf k =
      if k = Multiset.ofList tags.1 then some series else m.seriesOf k := by
  rw [seriesOf_of_perm _ (m.each_push series h), seriesIn_cons]
  rfl

/-- Under the write lock the series of the tags is used, made first if need be. -/
theorem seriesOf_useOrPush (tags : Narrow) (make : T) (use : T → T)
    (k : Multiset Tag) :
    (m.useOrPush tags make use).seriesOf k =
      if k = Multiset.ofList tags.1 then some (use ((m.seriesOf k).getD make))
      else m.seriesOf k := by
  cases h : holds (m.bucketOf tags) tags with
  | true =>
      rw [m.useOrPush_of_holds tags h, seriesOf_useHeld m use h]
      split
      case isTrue heq =>
        obtain ⟨series, hseries⟩ :=
          Option.isSome_iff_exists.mp ((m.holds_iff_seriesOf tags).mp h)
        rw [heq, hseries]
        rfl
      case isFalse => rfl
  | false =>
      rw [m.useOrPush_of_not tags h, seriesOf_push m (use make) h]
      split
      case isTrue heq =>
        have hnone : m.seriesOf tags.1 = none := by
          rw [← Option.not_isSome_iff_eq_none, ← m.holds_iff_seriesOf tags, h]
          exact Bool.false_ne_true
        rw [heq, hnone]
        rfl
      case isFalse => rfl

/-- A call whose tags are taken uses their series, made first if need be. -/
theorem withTags_of_admits {tags : Tags} (h : Admits m.known tags) (make : T)
    (use : T → T) :
    ∃ m', m.withTags tags make use = some m' ∧ ∀ k, m'.seriesOf k =
      if k = Multiset.ofList tags then some (use ((m.seriesOf k).getD make))
      else m.seriesOf k := by
  obtain ⟨hwide, hroom⟩ := h
  refine ⟨m.useOrPush ⟨tags, hwide⟩ make use, ?_, m.seriesOf_useOrPush ⟨tags, hwide⟩ make use⟩
  rw [withTags, dif_pos hwide]
  cases hheld : holds (m.bucketOf tags) tags with
  | true =>
      rw [if_pos rfl, m.useOrPush_of_holds ⟨tags, hwide⟩ hheld]
  | false =>
      have hunknown : Multiset.ofList tags ∉ m.known := by
        rw [mem_known, ← m.holds_iff_seriesOf ⟨tags, hwide⟩, hheld]
        exact Bool.false_ne_true
      have hcard := hroom.resolve_left hunknown
      rw [m.card_known] at hcard
      rw [if_neg Bool.false_ne_true, if_neg (Nat.not_le_of_lt hcard)]

theorem withTags_of_not_admits {tags : Tags} (h : ¬Admits m.known tags) (make : T)
    (use : T → T) : m.withTags tags make use = none := by
  by_cases hwide : tags.length ≤ maskBits
  · have hunknown : Multiset.ofList tags ∉ m.known := fun hmem => h ⟨hwide, .inl hmem⟩
    have hfull : ¬m.known.card < maxSeries := fun hlt => h ⟨hwide, .inr hlt⟩
    rw [m.card_known] at hfull
    have hheld : ¬holds (m.bucketOf tags) tags = true := by
      rwa [m.holds_iff_seriesOf ⟨tags, hwide⟩, ← mem_known]
    rw [withTags, dif_pos hwide, if_neg hheld, if_pos (Nat.le_of_not_lt hfull)]
  · rw [withTags, dif_neg hwide]

end Abstract

end TagMap

end Metric

end O11y

end RustSak
