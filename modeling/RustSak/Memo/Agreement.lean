import RustSak.Memo.CompositeStore

/-!
# Tiers that agree with what was written

A tier agrees with `written` at a time when every entry it would still serve
then holds the value `written` gives for its key. Serving is monotone in time,
so agreement survives the clock, evictions and sweeps; what each call does to
it is one lemma a tier, and `CompositeStore.exec_agrees` puts the two tiers
together.
-/

namespace RustSak

namespace Memo

open Library

/-! ## The memory tier -/

namespace MemoryStore

def Agrees (s : MemoryStore) (written : Key → Option Bytes) (now : Instant) :
    Prop :=
  ∀ key e, s.cache.lookup key = some e → e.isLive now = true →
    written key = some e.value

theorem agrees_new (opts : CacheOpts) (written : Key → Option Bytes)
    (now : Instant) : (new opts).Agrees written now := by
  intro key e he
  simp [new] at he

theorem Agrees.mono {s : MemoryStore} {written : Key → Option Bytes}
    {now now' : Instant} (h : s.Agrees written now) (hle : now ≤ now') :
    s.Agrees written now' :=
  fun key e he hlive => h key e he (MemoryEntry.isLive_mono hle hlive)

/-- What a tier that agrees serves is what was written. -/
theorem Agrees.get {s : MemoryStore} {written : Key → Option Bytes}
    {now : Instant} (h : s.Agrees written now) {key : Key} {entry : Entry}
    (hget : s.get key now = some entry) : written key = some entry.value := by
  obtain ⟨e, he, hlive, hv⟩ :=
    (exists_get_iff s key now entry.value).mp ⟨entry, hget, rfl⟩
  rw [h key e he hlive, hv]

/-- It is enough that what the tier serves was written. -/
theorem agrees_of_get {s : MemoryStore} {written : Key → Option Bytes}
    {now : Instant} (h : ∀ key entry, s.get key now = some entry →
      written key = some entry.value) : s.Agrees written now := by
  intro key e he hlive
  obtain ⟨entry, hget, hv⟩ :=
    (exists_get_iff s key now e.value).mpr ⟨e, he, hlive, rfl⟩
  rw [h key entry hget, hv]

theorem Agrees.evict {s : MemoryStore} {written : Key → Option Bytes}
    {now : Instant} (h : s.Agrees written now) (doomed : Key → Bool) :
    (s.evict doomed).Agrees written now :=
  fun key e he hlive => h key e ((lookup_evict s doomed key e).mp he).1 hlive

theorem Agrees.set {s : MemoryStore} {written : Key → Option Bytes}
    {now : Instant} (h : s.Agrees written now) (P : Platform) (key : Key)
    (value : Bytes) (ttl : Duration) (at' : Instant)
    (hadm : s.admits value ttl = true) :
    (s.set P key value ttl at').1.Agrees
      (Function.update written key (some value)) now := by
  intro k e he hlive
  rw [lookup_set] at he
  rw [Function.update_apply]
  by_cases hk : k = key
  · rw [if_pos ⟨hadm, hk⟩, Option.some.injEq] at he
    rw [if_pos hk, ← he]
  · rw [if_neg fun hand => hk hand.2] at he
    rw [if_neg hk]
    exact h k e he hlive

theorem set_declined {s : MemoryStore} {value : Bytes} {ttl : Duration}
    (hadm : s.admits value ttl = false) (P : Platform) (key : Key)
    (now : Instant) : (s.set P key value ttl now).1 = s := by
  simp [MemoryStore.set, hadm]

/-- A value already written is copied into the tier without changing what it
agrees with. -/
theorem Agrees.set_written {s : MemoryStore} {written : Key → Option Bytes}
    {now : Instant} (h : s.Agrees written now) (P : Platform) (key : Key)
    {value : Bytes} (ttl : Duration) (at' : Instant)
    (hw : written key = some value) :
    (s.set P key value ttl at').1.Agrees written now := by
  by_cases hadm : s.admits value ttl = true
  · have hset := h.set P key value ttl at' hadm
    rwa [← hw, Function.update_eq_self] at hset
  · rw [set_declined (by simpa using hadm)]
    exact h

theorem Agrees.remove {s : MemoryStore} {written : Key → Option Bytes}
    {now : Instant} (h : s.Agrees written now) (key : Key) (at' : Instant)
    (value : Option Bytes) :
    (s.remove key at').1.Agrees
      (Function.update written key value) now := by
  intro k e he hlive
  rw [lookup_remove] at he
  by_cases hk : k = key
  · rw [if_pos hk] at he
    cases he
  · rw [if_neg hk] at he
    rw [Function.update_of_ne hk]
    exact h k e he hlive

theorem Agrees.retain {s : MemoryStore} {written : Key → Option Bytes}
    {now : Instant} (h : s.Agrees written now) {kept keep : Key → Bool}
    (hkept : ∀ key, kept key = true → keep key = true) :
    (s.retain kept now).1.Agrees
      (fun k => if keep k then written k else none) now := by
  intro k e he hlive
  rw [lookup_retain] at he
  simp only [hkept k (he.2 hlive), if_true]
  exact h k e he.1 hlive

end MemoryStore

/-! ## The disk tier -/

namespace DiskStore

def Agrees (s : DiskStore) (written : Key → Option Bytes) (now : SystemTime) :
    Prop :=
  ∀ key record, s.db.records.lookup key = some record →
    isLive record now = true → (split record).map Prod.snd = written key

theorem Agrees.mono {s : DiskStore} {written : Key → Option Bytes}
    {now now' : SystemTime} (h : s.Agrees written now) (hle : now ≤ now') :
    s.Agrees written now' :=
  fun key record hr hlive => h key record hr (isLive_mono hle hlive)

/-- The value a cache file holds under a key, whatever its deadline. -/
def valueIn (base : Option (Table Key Bytes)) (key : Key) : Option Bytes :=
  ((base.getD ∅).lookup key).bind fun record => (split record).map Prod.snd

theorem agrees_openOn (base : Option (Table Key Bytes)) (opts : CacheOpts)
    (at' : Instant) (now : SystemTime) :
    (openOn base opts at').Agrees (valueIn base) now := by
  intro key record hr _
  have hbase : (base.getD ∅).lookup key = some record := hr
  rw [valueIn, hbase]
  rfl

/-- What a `get` finds when redb works. -/
def serves (s : DiskStore) (key : Key) (now : SystemTime) : Option Entry :=
  (s.db.records.lookup key).bind fun record => serve record now

theorem get_ok {s : DiskStore} {key : Key} {now : SystemTime} {redb : Redb}
    {entry : Entry} (h : s.get key now redb = .ok (some entry)) :
    s.serves key now = some entry := by
  unfold get at h
  split at h
  · rename_i t ht
    rw [Database.openTable_eq_table ht] at h
    exact Except.ok.inj h
  · cases h
  · cases h

theorem Agrees.serves {s : DiskStore} {written : Key → Option Bytes}
    {now : SystemTime} (h : s.Agrees written now) {key : Key} {entry : Entry}
    (hget : s.serves key now = some entry) : written key = some entry.value := by
  obtain ⟨record, hr, hserve⟩ := Option.bind_eq_some_iff.mp hget
  rw [← h key record hr (by simp [isLive, hserve]), serve_value hserve]

theorem agrees_of_serves {s : DiskStore} {written : Key → Option Bytes}
    {now : SystemTime} (h : ∀ key entry, s.serves key now = some entry →
      written key = some entry.value) : s.Agrees written now := by
  intro key record hr hlive
  obtain ⟨entry, hserve⟩ := Option.isSome_iff_exists.mp hlive
  have hget : s.serves key now = some entry := by
    rw [DiskStore.serves, hr]
    exact hserve
  rw [h key entry hget, serve_value hserve]

/-- Whether a `set` commits: it is not a write that is lost at once, and redb
takes it. -/
def accepts (s : DiskStore) (ttl : Duration) (redb : Redb) : Bool :=
  !(ttl == 0) && match s.db.openTable redb with
    | .table _ => true
    | _ => false

theorem set_cases (P : Platform) (s : DiskStore) (key : Key) (value : Bytes)
    (ttl : Duration) (now : Now) (redb : Redb) :
    (s.accepts ttl redb = true ∧
      ∃ durable, s.set P key value ttl now redb =
        (⟨s.db.commit (.set key (encodeRecord P now.wall ttl value)) durable,
          s.cadence.committed durable now.instant⟩, .ok ()) ∧
        durable = s.cadence.nextIsDurable now.instant) ∨
    (s.accepts ttl redb = false ∧
      ∃ err, s.set P key value ttl now redb = (s, .error err)) := by
  by_cases ht : ttl = 0
  · exact .inr ⟨by simp [accepts, ht], _, if_pos ht⟩
  · cases ho : s.db.openTable redb with
    | table t => exact .inl ⟨by simp [accepts, ht, ho], _, by simp [set, ht, ho], rfl⟩
    | doesNotExist =>
        exact .inr ⟨by simp [accepts, ho], _, by simp [set, ht, ho]; rfl⟩
    | error => exact .inr ⟨by simp [accepts, ho], _, by simp [set, ht, ho]; rfl⟩

theorem records_of_doesNotExist {s : DiskStore} {redb : Redb}
    (h : s.db.openTable redb = .doesNotExist) : s.db.records = ∅ := by
  rw [Database.records, Database.openTable_eq_doesNotExist h]
  rfl

theorem remove_cases (s : DiskStore) (key : Key) (now : Now) (redb : Redb) :
    (∃ b, (s.remove key now redb).2 = .ok b ∧
      (s.remove key now redb).1.db.records = s.db.records.erase key) ∨
    (s.db.openTable redb = .error ∧
      s.remove key now redb = (s, .error .storage)) := by
  cases ho : s.db.openTable redb with
  | table t =>
      have hresult : (s.remove key now redb).2 =
          .ok ((t.lookup key).any fun record => isLive record now.wall) := by
        simp only [remove, ho]
      exact .inl ⟨_, hresult, by simp [remove, ho, commitDurably]⟩
  | doesNotExist =>
      refine .inl ⟨false, by simp [remove, ho], ?_⟩
      rw [remove, ho, records_of_doesNotExist ho]
      rfl
  | error => exact .inr ⟨rfl, by simp [remove, ho]⟩

theorem retain_cases (s : DiskStore) (keep : Key → Bool) (now : Now)
    (redb : Redb) :
    (∃ n, (s.retain keep now redb).2 = .ok n ∧
      (s.retain keep now redb).1.db.records =
        Table.retain (kept keep now.wall) s.db.records) ∨
    (s.db.openTable redb = .error ∧
      s.retain keep now redb = (s, .error .storage)) := by
  cases ho : s.db.openTable redb with
  | table t =>
      obtain rfl := Database.openTable_eq_table ho
      by_cases hd : (s.db.records.entries.countP fun e =>
          !kept keep now.wall e.1 e.2) = 0
      · refine .inl ⟨0, by simp only [retain, ho, hd, if_true], ?_⟩
        simp only [retain, ho, hd, if_true]
        refine (Table.retain_eq_self _ _ ?_).symm
        intro k v hv
        rw [List.countP_eq_zero] at hd
        simpa using hd ⟨k, v⟩ (AList.mem_lookup_iff.mp hv)
      · refine .inl ⟨_, by simp only [retain, ho, if_neg hd]; rfl, ?_⟩
        simp only [retain, ho, if_neg hd]
        rfl
  | doesNotExist =>
      refine .inl ⟨0, by simp [retain, ho], ?_⟩
      simp only [retain, ho, records_of_doesNotExist ho]
      rfl
  | error => exact .inr ⟨rfl, by simp [retain, ho]⟩

theorem records_flush (s : DiskStore) (now : Instant) (redb : Redb) :
    (s.flush now redb).1.db.records = s.db.records := by
  unfold flush
  split
  · rfl
  · split <;> rfl

/-- A sweep keeps records as they are or drops them. -/
theorem lookup_cleanup {s : DiskStore} {now : SystemTime} {redb : Redb}
    {busy compacts : Bool} {key : Key} {record : Bytes}
    (h : (s.cleanup now redb busy compacts).1.db.records.lookup key =
      some record) : s.db.records.lookup key = some record := by
  unfold cleanup sweep at h
  split at h
  · exact h
  · cases ho : s.db.openTable redb with
    | table t =>
        simp only [ho, Database.records_commit_retain] at h
        exact ((Table.mem_lookup_retain _ _ _ _).mp h).1
    | doesNotExist => simpa [ho] using h
    | error => simpa [ho] using h

theorem Agrees.set {s : DiskStore} {written : Key → Option Bytes}
    {now : SystemTime} (h : s.Agrees written now) (P : Platform) (key : Key)
    (value : Bytes) (ttl : Duration) (at' : Now) {redb : Redb}
    (hacc : s.accepts ttl redb = true) :
    (s.set P key value ttl at' redb).1.Agrees
      (Function.update written key (some value)) now := by
  rcases set_cases P s key value ttl at' redb with ⟨_, durable, heq, _⟩ | ⟨hno, _⟩
  · rw [heq]
    intro k record hr hlive
    rw [Database.records_commit_set, Table.lookup_insert] at hr
    rw [Function.update_apply]
    by_cases hk : k = key
    · rw [if_pos hk, Option.some.injEq] at hr
      rw [if_pos hk, ← hr, value_encodeRecord]
    · rw [if_neg hk] at hr ⊢
      exact h k record hr hlive
  · rw [hacc] at hno
    cases hno

theorem Agrees.remove {s : DiskStore} {written : Key → Option Bytes}
    {now : SystemTime} (h : s.Agrees written now) (key : Key) (at' : Now)
    (redb : Redb) :
    (s.remove key at' redb).1.Agrees
      (leaves (.remove key at' redb) (.removed (s.remove key at' redb).2)
        written) now := by
  rcases remove_cases s key at' redb with ⟨b, hok, hrec⟩ | ⟨_, heq⟩
  · intro k record hr hlive
    rw [hrec, Table.lookup_erase] at hr
    rw [hok]
    by_cases hk : k = key
    · rw [if_pos hk] at hr
      cases hr
    · rw [if_neg hk] at hr
      simp only [leaves, Function.update_of_ne hk]
      exact h k record hr hlive
  · rw [heq]
    exact h

theorem Agrees.retain {s : DiskStore} {written : Key → Option Bytes}
    {now : SystemTime} (h : s.Agrees written now) (keep : Key → Bool)
    (at' : Now) (redb : Redb) :
    (s.retain keep at' redb).1.Agrees
      (leaves (.retain keep at' redb) (.retained (s.retain keep at' redb).2)
        written) now := by
  rcases retain_cases s keep at' redb with ⟨n, hok, hrec⟩ | ⟨_, heq⟩
  · intro k record hr hlive
    rw [hrec] at hr
    have hmem := (Table.mem_lookup_retain _ _ _ _).mp hr
    have hkeep : keep k = true := by
      have := hmem.2
      simp only [kept, Bool.and_eq_true] at this
      exact this.2
    rw [hok]
    simp only [leaves, hkeep, if_true]
    exact h k record hmem.1 hlive
  · rw [heq]
    exact h

theorem Agrees.cleanup {s : DiskStore} {written : Key → Option Bytes}
    {now : SystemTime} (h : s.Agrees written now) (at' : SystemTime)
    (redb : Redb) (busy compacts : Bool) :
    (s.cleanup at' redb busy compacts).1.Agrees written now :=
  fun key record hr hlive => h key record (lookup_cleanup hr) hlive

theorem Agrees.flush {s : DiskStore} {written : Key → Option Bytes}
    {now : SystemTime} (h : s.Agrees written now) (at' : Instant)
    (redb : Redb) : (s.flush at' redb).1.Agrees written now := by
  intro key record hr hlive
  rw [records_flush] at hr
  exact h key record hr hlive

/-- Every call of a disk store leaves it agreeing with what the call leaves. -/
theorem exec_agrees (P : Platform) {s : DiskStore}
    {written : Key → Option Bytes} {c : Call} {now : SystemTime}
    (h : s.Agrees written now) :
    (s.exec P c).1.Agrees (leaves c (s.exec P c).2 written) now := by
  cases c with
  | get key at' later redb => exact h
  | set key value ttl at' redb =>
      rcases set_cases P s key value ttl at' redb with
        ⟨hacc, _, heq, _⟩ | ⟨_, err, heq⟩
      · have hset := h.set P key value ttl at' hacc
        simp only [exec, heq, leaves] at hset ⊢
        exact hset
      · simp only [exec, heq, leaves]
        exact h
  | remove key at' redb => exact h.remove key at' redb
  | retain keep at' redb => exact h.retain keep at' redb
  | cleanup at' redb busy compacts => exact h.cleanup at'.wall redb busy compacts
  | flush at' redb => exact h.flush at'.instant redb

end DiskStore

end Memo

end RustSak
