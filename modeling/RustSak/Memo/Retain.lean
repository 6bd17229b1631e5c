import RustSak.Memo.CompositeStore
import RustSak.Memo.Agreement
import Mathlib.Data.List.Nodup

/-!
# What a retain asks

`keep` is a `FnMut`: what it says of a key may depend on every key it was asked
about before. A pass over the disk tier asks it about the live records, one after
the other; the memory tier is then told what it said. So a key that only memory
serves is dropped without being asked about.
-/

namespace RustSak

namespace Memo

open Library

/-- A predicate with a memory: the keys it was asked about before, the newest
first, and the key in question. -/
abbrev Predicate := List Key → Key → Bool

/-- The verdicts of one pass. -/
abbrev Asked := List (Key × Bool)

/-- The keys it was asked about. -/
def Asked.keys (asked : Asked) : List Key := asked.map Prod.fst

/-- Whether the pass accepted the key. -/
def Asked.accepts (asked : Asked) (key : Key) : Bool := asked.contains (key, true)

def Asked.refused (asked : Asked) : ℕ := asked.countP fun a => !a.2

namespace DiskStore

/-- The verdicts on the records that are live, in the order of the table. -/
def ask (keep : Predicate) (now : SystemTime) :
    List Key → List (Sigma fun _ : Key => Bytes) → Asked
  | _, [] => []
  | before, e :: es =>
      if isLive e.2 now then
        (e.1, keep before e.1) :: ask keep now (e.1 :: before) es
      else
        ask keep now before es

/-- `retain` with a predicate that remembers, and the verdicts it gave. -/
def retainMut (s : DiskStore) (keep : Predicate) (now : Now) (redb : Redb) :
    DiskStore × StoreResult ℕ × Asked :=
  match s.db.openTable redb with
  | .table t =>
      let asked := ask keep now.wall [] t.entries
      let dropped := t.entries.countP fun e => !kept asked.accepts now.wall e.1 e.2
      if dropped = 0 then
        (s, .ok 0, asked)
      else
        (s.commitDurably (.retain (kept asked.accepts now.wall)) now.instant,
          .ok asked.refused, asked)
  | .doesNotExist => (s, .ok 0, [])
  | .error => (s, .error .storage, [])

/-! ## The pass -/

/-- The verdicts on keys one after another. -/
def verdicts (keep : Predicate) : List Key → List Key → Asked
  | _, [] => []
  | before, key :: keys => (key, keep before key) :: verdicts keep (key :: before) keys

theorem keys_verdicts (keep : Predicate) (before keys : List Key) :
    (verdicts keep before keys).keys = keys := by
  induction keys generalizing before with
  | nil => rfl
  | cons key keys ih => exact congrArg (key :: ·) (ih (key :: before))

theorem verdicts_forgetful (keep : Key → Bool) (before keys : List Key) :
    verdicts (fun _ k => keep k) before keys = keys.map fun key => (key, keep key) := by
  induction keys generalizing before with
  | nil => rfl
  | cons key keys ih => exact congrArg ((key, keep key) :: ·) (ih (key :: before))

/-- A pass asks about the keys of the live records, and depends on no other. -/
theorem ask_eq_verdicts (keep : Predicate) (now : SystemTime) (before : List Key)
    (es : List (Sigma fun _ : Key => Bytes)) :
    ask keep now before es =
      verdicts keep before ((es.filter fun e => isLive e.2 now).map Sigma.fst) := by
  induction es generalizing before with
  | nil => rfl
  | cons e es ih =>
      unfold ask
      cases hlive : isLive e.2 now with
      | true =>
          rw [if_pos rfl, List.filter_cons_of_pos (by simpa using hlive),
            List.map_cons, ih (e.1 :: before)]
          rfl
      | false =>
          rw [if_neg Bool.false_ne_true, List.filter_cons_of_neg (by simp [hlive]),
            ih before]

theorem keys_ask (keep : Predicate) (now : SystemTime) (before : List Key)
    (es : List (Sigma fun _ : Key => Bytes)) :
    (ask keep now before es).keys =
      (es.filter fun e => isLive e.2 now).map Sigma.fst := by
  rw [ask_eq_verdicts, keys_verdicts]

theorem nodup_keys_ask (keep : Predicate) (now : SystemTime) (t : Table Key Bytes) :
    (ask keep now [] t.entries).keys.Nodup := by
  rw [keys_ask]
  exact List.Nodup.sublist (List.filter_sublist.map Sigma.fst) t.nodupKeys

/-- The keys asked about are those of live records. -/
theorem mem_keys_ask (keep : Predicate) (now : SystemTime) (t : Table Key Bytes)
    (key : Key) :
    key ∈ (ask keep now [] t.entries).keys ↔
      ∃ record, t.lookup key = some record ∧ isLive record now = true := by
  rw [keys_ask, List.mem_map]
  constructor
  · rintro ⟨⟨k, record⟩, hmem, rfl⟩
    obtain ⟨hin, hlive⟩ := List.mem_filter.mp hmem
    exact ⟨record, AList.mem_lookup_iff.mpr hin, hlive⟩
  · rintro ⟨record, hr, hlive⟩
    exact ⟨⟨key, record⟩, List.mem_filter.mpr ⟨AList.mem_lookup_iff.mp hr, hlive⟩, rfl⟩

/-- What a `retainMut` that returned `Ok` has done: it asked about the live
records, counted those it refused, and left the rest. -/
theorem retainMut_ok {s s' : DiskStore} {keep : Predicate} {now : Now} {redb : Redb}
    {n : ℕ} {asked : Asked} (h : s.retainMut keep now redb = (s', .ok n, asked)) :
    asked = ask keep now.wall [] s.db.records.entries ∧ n = asked.refused ∧
      s'.db.records = Table.retain (kept asked.accepts now.wall) s.db.records := by
  cases ho : s.db.openTable redb with
  | table t =>
      obtain rfl := Database.openTable_eq_table ho
      simp only [retainMut, ho] at h
      split at h
      · rename_i hd
        rw [List.countP_eq_zero] at hd
        cases h
        refine ⟨rfl, ?_, (Table.retain_eq_self _ _ fun k v hv => ?_).symm⟩
        · symm
          rw [Asked.refused, List.countP_eq_zero]
          rintro ⟨k, verdict⟩ hmem
          have hkey : k ∈ (ask keep now.wall [] s.db.records.entries).keys :=
            List.mem_map_of_mem hmem
          obtain ⟨record, hr, hlive⟩ := (mem_keys_ask _ _ _ _).mp hkey
          have hkept := hd ⟨k, record⟩ (AList.mem_lookup_iff.mp hr)
          rw [Bool.not_eq_true, Bool.not_eq_false', kept, hlive, Bool.true_and,
            Asked.accepts, List.contains_iff_mem] at hkept
          have hsame := List.inj_on_of_nodup_map (nodup_keys_ask keep now.wall _) hmem
            hkept rfl
          rw [hsame]
          exact Bool.false_ne_true
        · simpa using hd ⟨k, v⟩ (AList.mem_lookup_iff.mp hv)
      · cases h
        exact ⟨rfl, rfl, rfl⟩
  | doesNotExist =>
      simp only [retainMut, ho] at h
      cases h
      rw [records_of_doesNotExist ho]
      exact ⟨rfl, rfl, rfl⟩
  | error =>
      simp only [retainMut, ho] at h
      cases h

/-! ## Predicates without a memory -/

theorem ask_forgetful (keep : Key → Bool) (now : SystemTime) (before : List Key)
    (es : List (Sigma fun _ : Key => Bytes)) :
    ask (fun _ k => keep k) now before es =
      (es.filter fun e => isLive e.2 now).map fun e => (e.1, keep e.1) := by
  rw [ask_eq_verdicts, verdicts_forgetful, List.map_map]
  rfl

/-- A key is accepted when its record is live and `keep` keeps it. -/
theorem accepts_forgetful (keep : Key → Bool) (now : SystemTime) (t : Table Key Bytes)
    (key : Key) :
    (ask (fun _ k => keep k) now [] t.entries).accepts key =
      (t.lookup key).any (kept keep now key) := by
  rw [Bool.eq_iff_iff, Asked.accepts, List.contains_iff_mem, ask_forgetful,
    List.mem_map, Option.any_eq_true]
  constructor
  · rintro ⟨⟨k, record⟩, hmem, heq⟩
    obtain ⟨hin, hlive⟩ := List.mem_filter.mp hmem
    obtain ⟨rfl, hkeep⟩ := Prod.mk.inj heq
    refine ⟨record, AList.mem_lookup_iff.mpr hin, ?_⟩
    rw [kept, hlive, hkeep]
    rfl
  · rintro ⟨record, hr, hkept⟩
    rw [kept, Bool.and_eq_true] at hkept
    refine ⟨⟨key, record⟩, List.mem_filter.mpr ⟨AList.mem_lookup_iff.mp hr, hkept.1⟩, ?_⟩
    rw [hkept.2]

theorem kept_accepts_forgetful {keep : Key → Bool} {now : SystemTime}
    {t : Table Key Bytes} {e : Sigma fun _ : Key => Bytes} (he : e ∈ t.entries) :
    kept (ask (fun _ k => keep k) now [] t.entries).accepts now e.1 e.2 =
      kept keep now e.1 e.2 := by
  rw [kept, accepts_forgetful, AList.mem_lookup_iff.mpr he, Option.any_some, kept]
  cases isLive e.2 now <;> rfl

/-- For a predicate that forgets what it was asked, the pass is `retain`. -/
theorem retainMut_forgetful (s : DiskStore) (keep : Key → Bool) (now : Now)
    (redb : Redb) :
    (s.retainMut (fun _ k => keep k) now redb).2.1 = (s.retain keep now redb).2 ∧
      (s.retainMut (fun _ k => keep k) now redb).1.db.records =
        (s.retain keep now redb).1.db.records := by
  cases ho : s.db.openTable redb with
  | table t =>
      obtain rfl := Database.openTable_eq_table ho
      have hdropped : (s.db.records.entries.countP fun e =>
          !kept (ask (fun _ k => keep k) now.wall [] s.db.records.entries).accepts
            now.wall e.1 e.2) =
          s.db.records.entries.countP fun e => !kept keep now.wall e.1 e.2 := by
        refine List.countP_congr fun e he => ?_
        rw [kept_accepts_forgetful he]
      have hrefused : (ask (fun _ k => keep k) now.wall [] s.db.records.entries).refused =
          s.db.records.entries.countP fun e => isLive e.2 now.wall && !keep e.1 := by
        rw [Asked.refused, ask_forgetful, List.countP_map, List.countP_filter]
        exact List.countP_congr fun e _ => by
          rw [Function.comp_apply, Bool.and_comm]
      have htable : Table.retain (kept
            (ask (fun _ k => keep k) now.wall [] s.db.records.entries).accepts now.wall)
            s.db.records = Table.retain (kept keep now.wall) s.db.records := by
        apply AList.ext
        rw [Table.entries_retain, Table.entries_retain]
        exact List.filter_congr fun e he => kept_accepts_forgetful he
      simp only [retainMut, retain, ho, hdropped]
      split
      · exact ⟨rfl, rfl⟩
      · exact ⟨congrArg Except.ok hrefused, htable⟩
  | doesNotExist => simp [retainMut, retain, ho]
  | error => simp [retainMut, retain, ho]

end DiskStore

namespace CompositeStore

/-- The disk tier alone asks `keep`; memory then keeps exactly the keys it
accepted. -/
def retainMut (s : CompositeStore) (keep : Predicate) (now : Now) (redb : Redb) :
    CompositeStore × StoreResult ℕ × Asked :=
  match s.disk.retainMut keep now redb with
  | (disk, .ok removed, asked) =>
      ({ s with memory := (s.memory.retain asked.accepts now.instant).1, disk := disk },
        .ok removed, asked)
  | (disk, .error err, asked) => ({ s with disk := disk }, .error err, asked)

/-- What a `get` answers while redb works. -/
def answers (s : CompositeStore) (key : Key) (now : Now) : Option Entry :=
  match s.memory.get key now.instant with
  | some entry => some entry
  | none => s.disk.serves key now.wall

/-- Every live key is asked about once, the refused ones are counted, and from
then on the accepted ones are answered as they would have been. -/
structure AsksOnce (s s' : CompositeStore) (now : Now) (n : ℕ) (asked : Asked) :
    Prop where
  once : asked.keys.Nodup
  live : ∀ key, key ∈ asked.keys ↔ (s.answers key now).isSome = true
  count : n = asked.refused
  after : ∀ key later, now ≤ later → s'.answers key later =
    if asked.accepts key = true then s.answers key later else none

theorem get_eq_answers (P : Platform) (s : CompositeStore) (key : Key)
    (now later : Now) :
    (s.get P key now later .works).2 = .ok (s.answers key now) := by
  unfold get answers
  cases s.memory.get key now.instant with
  | some entry => rfl
  | none =>
      have hdisk : s.disk.get key now.wall .works = .ok (s.disk.serves key now.wall) :=
        rfl
      simp only [hdisk]
      cases s.disk.serves key now.wall <;> rfl

theorem retainMut_ok {s s' : CompositeStore} {keep : Predicate} {now : Now}
    {redb : Redb} {n : ℕ} {asked : Asked}
    (h : s.retainMut keep now redb = (s', .ok n, asked)) :
    ∃ disk, s.disk.retainMut keep now redb = (disk, .ok n, asked) ∧
      s' = { s with
        memory := (s.memory.retain asked.accepts now.instant).1, disk := disk } := by
  unfold retainMut at h
  split at h
  · rename_i disk removed asked' heq
    cases h
    exact ⟨disk, heq, rfl⟩
  · cases h

/-- A read of memory after the pass. -/
theorem memory_get_retain (s : MemoryStore) (keep : Key → Bool) (key : Key)
    {now later : Instant} (hle : now ≤ later) :
    (s.retain keep now).1.get key later =
      if keep key = true then s.get key later else none := by
  apply Option.ext
  intro entry
  have hlookup := MemoryStore.lookup_retain s keep now key
  rw [MemoryStore.get_eq_some_iff]
  split
  · rename_i hkeep
    rw [MemoryStore.get_eq_some_iff]
    simp only [hlookup, hkeep, implies_true, and_true]
  · rename_i hkeep
    simp only [hlookup, reduceCtorEq, iff_false]
    rintro ⟨e, ⟨_, hlive⟩, hrem, _⟩
    have hlater : e.isLive later = true := by simp [MemoryEntry.isLive, hrem]
    exact hkeep (hlive (MemoryEntry.isLive_mono hle hlater))

/-- A read of disk after the pass. -/
theorem serves_retain {s s' : DiskStore} {said : Key → Bool} {now later : SystemTime}
    (h : s'.db.records = Table.retain (DiskStore.kept said now) s.db.records)
    (key : Key) (hle : now ≤ later) :
    s'.serves key later = if said key = true then s.serves key later else none := by
  apply Option.ext
  intro entry
  rw [DiskStore.serves, h, Option.bind_eq_some_iff]
  simp only [← Option.mem_def, Table.mem_lookup_retain, DiskStore.kept,
    Bool.and_eq_true]
  split
  · rename_i hsaid
    rw [DiskStore.serves, Option.mem_def, Option.bind_eq_some_iff]
    constructor
    · rintro ⟨record, ⟨hr, _⟩, hserve⟩
      exact ⟨record, hr, hserve⟩
    · rintro ⟨record, hr, hserve⟩
      have hlive : isLive record later = true := by simp [isLive, hserve]
      exact ⟨record, ⟨hr, isLive_mono hle hlive, hsaid⟩, hserve⟩
  · rename_i hsaid
    constructor
    · rintro ⟨record, ⟨_, _, hyes⟩, _⟩
      exact absurd hyes hsaid
    · intro hno
      cases hno

theorem answers_after {s s' : CompositeStore} {keep : Predicate} {now : Now}
    {redb : Redb} {n : ℕ} {asked : Asked}
    (h : s.retainMut keep now redb = (s', .ok n, asked)) (key : Key) {later : Now}
    (hle : now ≤ later) :
    s'.answers key later =
      if asked.accepts key = true then s.answers key later else none := by
  obtain ⟨disk, hdisk, rfl⟩ := retainMut_ok h
  obtain ⟨_, _, hrecords⟩ := DiskStore.retainMut_ok hdisk
  unfold answers
  dsimp only
  rw [memory_get_retain s.memory asked.accepts key hle.1, serves_retain hrecords key hle.2]
  by_cases haccepts : asked.accepts key = true
  · rw [if_pos haccepts, if_pos haccepts, if_pos haccepts]
  · rw [if_neg haccepts, if_neg haccepts, if_neg haccepts]

theorem isSome_answers_iff (s : CompositeStore) (key : Key) (now : Now) :
    (s.answers key now).isSome = true ↔
      (s.memory.get key now.instant).isSome = true ∨
        ∃ record, s.disk.db.records.lookup key = some record ∧
          isLive record now.wall = true := by
  have hserves : (s.disk.serves key now.wall).isSome = true ↔
      ∃ record, s.disk.db.records.lookup key = some record ∧
        isLive record now.wall = true := by
    unfold DiskStore.serves isLive
    cases s.disk.db.records.lookup key with
    | none => simp
    | some record => simp
  unfold answers
  cases s.memory.get key now.instant with
  | some entry => simp
  | none => simpa using hserves

/-- A `retain` that returns `Ok` asks about every live key once, counts what is
refused and keeps exactly what is accepted, unless memory serves a key that has no
live record on disk. -/
theorem retain_asks_once_iff {s s' : CompositeStore} {keep : Predicate} {now : Now}
    {redb : Redb} {n : ℕ} {asked : Asked}
    (h : s.retainMut keep now redb = (s', .ok n, asked)) :
    AsksOnce s s' now n asked ↔
      ∀ key, (s.memory.get key now.instant).isSome = true →
        ∃ record, s.disk.db.records.lookup key = some record ∧
          isLive record now.wall = true := by
  obtain ⟨disk, hdisk, _⟩ := retainMut_ok h
  obtain ⟨hasked, hcount, _⟩ := DiskStore.retainMut_ok hdisk
  have hkeys : ∀ key, key ∈ asked.keys ↔
      ∃ record, s.disk.db.records.lookup key = some record ∧
        isLive record now.wall = true := by
    intro key
    rw [hasked]
    exact DiskStore.mem_keys_ask keep now.wall s.disk.db.records key
  constructor
  · intro honce key hmem
    exact (hkeys key).mp ((honce.live key).mpr
      ((isSome_answers_iff s key now).mpr (.inl hmem)))
  · intro hboth
    refine ⟨?_, fun key => ?_, hcount, fun key later hle => answers_after h key hle⟩
    · rw [hasked]
      exact DiskStore.nodup_keys_ask keep now.wall s.disk.db.records
    · rw [hkeys, isSome_answers_iff]
      constructor
      · exact .inr
      · rintro (hmem | hlive)
        · exact hboth key hmem
        · exact hlive

/-! ## A set that only memory took -/

/-- The store after the calls, one after another. -/
def played (P : Platform) (s : CompositeStore) (calls : List Call) : CompositeStore :=
  calls.foldl (fun s c => (s.exec P c).1) s

/-- A new store over an empty file. -/
def opened : CompositeStore :=
  withDisk (.openOn none .new 0) .new 10

def longLived : Platform := ⟨2 ^ 64, 2 ^ 64⟩

def atSecond (n : ℕ) : Now := ⟨n * 1000000000, n * 1000000000⟩

/-- The sets of `a` and `b` land in both tiers, in which they then stand in the order of their keys;
`b` is refused. -/
def landed : CompositeStore :=
  played longLived opened
    [.set "b" [2] 60000000000 (atSecond 1) .works,
      .set "a" [1] 60000000000 (atSecond 2) .works]

theorem retain_asks_once_landed :
    AsksOnce landed (landed.retainMut (fun _ k => k == "a") (atSecond 3) .works).1
      (atSecond 3) 1 [("a", true), ("b", false)] := by
  have hret : landed.retainMut (fun _ k => k == "a") (atSecond 3) .works =
      ((landed.retainMut (fun _ k => k == "a") (atSecond 3) .works).1, .ok 1,
        [("a", true), ("b", false)]) := by
    have hsnd : (landed.retainMut (fun _ k => k == "a") (atSecond 3) .works).2 =
        (.ok 1, [("a", true), ("b", false)]) := by decide +kernel
    rw [← hsnd]
  refine (retain_asks_once_iff hret).mpr fun key hkey => ?_
  obtain ⟨entry, hget⟩ := Option.isSome_iff_exists.mp hkey
  obtain ⟨e, he, _⟩ := (MemoryStore.get_eq_some_iff _ _ _ _).mp hget
  have hmem : key ∈ landed.memory.cache :=
    AList.lookup_isSome.mp (Option.isSome_iff_exists.mpr ⟨e, he⟩)
  have hkeys : landed.memory.cache.keys = ["a", "b"] := by decide +kernel
  rw [AList.mem_keys, hkeys, List.mem_cons, List.mem_singleton] at hmem
  refine (Option.any_eq_true (fun record => isLive record (atSecond 3).wall) _).mp ?_
  rcases hmem with rfl | rfl
  · decide +kernel
  · decide +kernel

/-- The disk write of `a` fails and the memory write succeeds: the set is `Ok`,
`a` is answered, and no `retain` asks about it. -/
theorem not_retain_asks_once :
    ¬ ∀ (calls : List Call) (keep : Predicate) (now : Now) (s' : CompositeStore) (n : ℕ)
      (asked : Asked), (played longLived opened calls).retainMut keep now .works =
        (s', .ok n, asked) → AsksOnce (played longLived opened calls) s' now n asked := by
  intro h
  have honce := h [.set "a" [1] 60000000000 (atSecond 1) .fails] (fun _ _ => true)
    (atSecond 2) _ _ _ rfl
  have hlive := (honce.live "a").mpr (by decide +kernel)
  cases hlive

end CompositeStore

end Memo

end RustSak
