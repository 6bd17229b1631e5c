import RustSak.Memo.Store

/-!
# The memory tier

A moka cache whose entries carry their own deadline on the monotonic clock.
moka may drop any entry at any time, so eviction is an operation of its own
here, with the dropped keys as its argument; a read re-checks the deadline, so
it does not matter when moka reaps an expired entry.
-/

namespace RustSak

namespace Memo

open Library

structure MemoryEntry where
  value : Bytes
  expiresAt : Option Instant
  deriving DecidableEq

structure MemoryStore where
  cache : Table Key MemoryEntry
  maxCapacity : ℕ

namespace MemoryEntry

/-- How much longer the entry may be served: `none` once its deadline has
passed. -/
def remaining (e : MemoryEntry) (now : Instant) : Option (Option Duration) :=
  match e.expiresAt with
  | none => some none
  | some at' => if now < at' then some (some (at' - now)) else none

def isLive (e : MemoryEntry) (now : Instant) : Bool := (e.remaining now).isSome

theorem isLive_iff (e : MemoryEntry) (now : Instant) :
    e.isLive now = true ↔ ∀ at' ∈ e.expiresAt, now < at' := by
  unfold isLive remaining
  cases e.expiresAt with
  | none => simp
  | some at' =>
      by_cases h : now < at'
      · simp [h]
      · simp [h]

/-- An entry that is served at one time was live at every earlier one. -/
theorem isLive_mono {e : MemoryEntry} {now now' : Instant} (hle : now ≤ now')
    (h : e.isLive now' = true) : e.isLive now = true := by
  rw [isLive_iff] at h ⊢
  intro at' hat
  exact lt_of_le_of_lt hle (h at' hat)

end MemoryEntry

namespace MemoryStore

def new (opts : CacheOpts) : MemoryStore where
  cache := ∅
  maxCapacity := opts.maxCapacity

def get (s : MemoryStore) (key : Key) (now : Instant) : Option Entry :=
  (s.cache.lookup key).bind fun e =>
    (e.remaining now).map fun remaining => ⟨e.value, remaining⟩

/-- Whether a write is taken at all: a zero TTL expires the instant it lands,
and a value over the whole budget would be evicted at once. -/
def admits (s : MemoryStore) (value : Bytes) (ttl : Duration) : Bool :=
  !(ttl == 0 || decide (s.maxCapacity < value.length))

def set (P : Platform) (s : MemoryStore) (key : Key) (value : Bytes)
    (ttl : Duration) (now : Instant) : MemoryStore × StoreResult Unit :=
  if s.admits value ttl then
    ({ s with cache := s.cache.insert key ⟨value, P.instantAdd now ttl⟩ }, .ok ())
  else
    (s, .error .notAdmitted)

def remove (s : MemoryStore) (key : Key) (now : Instant) : MemoryStore × Bool :=
  ({ s with cache := s.cache.erase key },
    (s.cache.lookup key).any fun e => e.isLive now)

/-- moka's iterator skips expired entries, so only live ones are shown to
`keep`. -/
def retain (s : MemoryStore) (keep : Key → Bool) (now : Instant) :
    MemoryStore × ℕ :=
  ({ s with cache := Table.retain (fun k e => !e.isLive now || keep k) s.cache },
    s.cache.entries.countP fun e => e.2.isLive now && !keep e.1)

/-- moka drops the entries under the `doomed` keys. -/
def evict (s : MemoryStore) (doomed : Key → Bool) : MemoryStore :=
  { s with cache := Table.retain (fun k _ => !doomed k) s.cache }

theorem get_eq_some_iff (s : MemoryStore) (key : Key) (now : Instant)
    (entry : Entry) :
    s.get key now = some entry ↔ ∃ e, s.cache.lookup key = some e ∧
      e.remaining now = some entry.remaining ∧ e.value = entry.value := by
  obtain ⟨value, remaining⟩ := entry
  simp [get, Option.bind_eq_some_iff, and_comm]

/-- A read serves an entry exactly when the cache holds a live one. -/
theorem exists_get_iff (s : MemoryStore) (key : Key) (now : Instant)
    (value : Bytes) :
    (∃ entry, s.get key now = some entry ∧ entry.value = value) ↔
      ∃ e, s.cache.lookup key = some e ∧ e.isLive now = true ∧
        e.value = value := by
  constructor
  · rintro ⟨entry, hget, rfl⟩
    obtain ⟨e, he, hrem, hv⟩ := (get_eq_some_iff s key now entry).mp hget
    refine ⟨e, he, ?_, hv⟩
    simp [MemoryEntry.isLive, hrem]
  · rintro ⟨e, he, hlive, rfl⟩
    obtain ⟨remaining, hrem⟩ := Option.isSome_iff_exists.mp hlive
    exact ⟨⟨e.value, remaining⟩,
      (get_eq_some_iff s key now _).mpr ⟨e, he, hrem, rfl⟩, rfl⟩

theorem lookup_set (P : Platform) (s : MemoryStore) (key : Key) (value : Bytes)
    (ttl : Duration) (now : Instant) (k : Key) :
    (s.set P key value ttl now).1.cache.lookup k =
      if s.admits value ttl = true ∧ k = key then
        some ⟨value, P.instantAdd now ttl⟩
      else s.cache.lookup k := by
  unfold set
  by_cases h : s.admits value ttl
  · simp [h, Table.lookup_insert]
  · simp [h]

theorem set_result (P : Platform) (s : MemoryStore) (key : Key) (value : Bytes)
    (ttl : Duration) (now : Instant) :
    (s.set P key value ttl now).2 =
      if s.admits value ttl then .ok () else .error .notAdmitted := by
  unfold set
  split <;> rfl

theorem lookup_remove (s : MemoryStore) (key : Key) (now : Instant) (k : Key) :
    (s.remove key now).1.cache.lookup k =
      if k = key then none else s.cache.lookup k :=
  Table.lookup_erase _ _ _

theorem lookup_retain (s : MemoryStore) (keep : Key → Bool) (now : Instant)
    (k : Key) (e : MemoryEntry) :
    (s.retain keep now).1.cache.lookup k = some e ↔
      s.cache.lookup k = some e ∧ (e.isLive now = true → keep k = true) := by
  have h := Table.mem_lookup_retain
    (fun k (e : MemoryEntry) => !e.isLive now || keep k) s.cache k e
  simp only [Option.mem_def] at h
  change (Table.retain (fun k (e : MemoryEntry) => !e.isLive now || keep k)
    s.cache).lookup k = some e ↔ _
  rw [h]
  cases e.isLive now <;> simp

theorem lookup_evict (s : MemoryStore) (doomed : Key → Bool) (k : Key)
    (e : MemoryEntry) :
    (s.evict doomed).cache.lookup k = some e ↔
      s.cache.lookup k = some e ∧ doomed k = false := by
  have h := Table.mem_lookup_retain
    (fun k (_ : MemoryEntry) => !doomed k) s.cache k e
  simp only [Option.mem_def] at h
  change (Table.retain (fun k (_ : MemoryEntry) => !doomed k) s.cache).lookup k
    = some e ↔ _
  rw [h]
  simp

end MemoryStore

end Memo

end RustSak
