import RustSak.Memo.Session
import Mathlib.Tactic.Linarith

/-!
# No entry outlives its TTL

Disk keeps a wall-clock deadline rounded down to the millisecond, memory a
deadline on the monotonic clock that a promotion derives from the time the disk
record has left. Each copy is followed back to its origin here: the `set` that
wrote the bytes, or the record the cache file held when it was opened. `track`
records the origins beside the store without touching it, and what a copy's
deadline owes to its origin is an invariant of each tier.
-/

namespace RustSak

namespace Memo

open Library

/-! ## A store of any kind -/

/-- One call of the memory tier on its own. It has nothing to clean up and
nothing to flush. -/
def MemoryStore.exec (P : Platform) (s : MemoryStore) : Call → MemoryStore × Reply
  | .get key now _ _ => (s, .got (.ok (s.get key now.instant)))
  | .set key value ttl now _ =>
      let r := s.set P key value ttl now.instant
      (r.1, .done r.2)
  | .remove key now _ =>
      let r := s.remove key now.instant
      (r.1, .removed (.ok r.2))
  | .retain keep now _ =>
      let r := s.retain keep now.instant
      (r.1, .retained (.ok r.2))
  | .cleanup _ _ _ _ => (s, .done (.ok ()))
  | .flush _ _ => (s, .done (.ok ()))

/-- What a `Memo` holds behind its `dyn Store`. -/
inductive AnyStore where
  | memory (s : MemoryStore)
  | disk (s : DiskStore)
  | composite (s : CompositeStore)

namespace AnyStore

def exec (P : Platform) : AnyStore → Call → AnyStore × Reply
  | .memory s, c => ((.memory (s.exec P c).1), (s.exec P c).2)
  | .disk s, c => ((.disk (s.exec P c).1), (s.exec P c).2)
  | .composite s, c => ((.composite (s.exec P c).1), (s.exec P c).2)

def evict : AnyStore → (Key → Bool) → AnyStore
  | .memory s, doomed => .memory (s.evict doomed)
  | .disk s, _ => .disk s
  | .composite s, doomed => .composite (s.evict doomed)

def memory? : AnyStore → Option MemoryStore
  | .memory s => some s
  | .disk _ => none
  | .composite s => some s.memory

def disk? : AnyStore → Option DiskStore
  | .memory _ => none
  | .disk s => some s
  | .composite s => some s.disk

end AnyStore

/-! ## Origins -/

/-- Where the bytes of a copy come from: a `set`, or a record the cache file
held when it was opened. -/
inductive Origin where
  | set (value : Bytes) (at' : Now) (ttl : Duration)
  | file (value : Bytes) (expiresAt : Option SystemTime)

namespace Origin

def value : Origin → Bytes
  | set value _ _ => value
  | file value _ => value

/-- When the bytes are to expire, on the wall clock. -/
def deadline : Origin → Option SystemTime
  | set _ at' ttl => some (at'.wall + ttl)
  | file _ expiresAt => expiresAt

/-- The origin is a call of the history, or a record of the file. -/
def From (base : Option (Table Key Bytes)) (past : List (Event Unit))
    (key : Key) : Origin → Prop
  | set value at' ttl =>
      ∃ redb reply, .call () (.set key value ttl at' redb) reply ∈ past
  | file value expiresAt =>
      ∃ record, (base.getD ∅).lookup key = some record ∧
        split record = some (expiresAt, value)

theorem From.later {base : Option (Table Key Bytes)} {past : List (Event Unit)}
    {key : Key} {o : Origin} (h : o.From base past key) (e : Event Unit) :
    o.From base (e :: past) key := by
  cases o with
  | set value at' ttl =>
      obtain ⟨redb, reply, hmem⟩ := h
      exact ⟨redb, reply, List.mem_cons_of_mem _ hmem⟩
  | file value expiresAt => exact h

end Origin

/-- The origin of the copy each tier holds of a key, and whether memory's was
put there by a promotion. -/
structure Origins where
  memory : Key → Option Origin
  promoted : Key → Bool
  disk : Key → Option Origin

/-- The origins in a store opened on a file that holds `base`. -/
def Origins.opened (base : Option (Table Key Bytes)) : Origins where
  memory _ := none
  promoted _ := false
  disk key := ((base.getD ∅).lookup key).bind fun record =>
    (split record).map fun r => .file r.2 r.1

/-- Whether a `get` copies what it finds on disk into memory. -/
def CompositeStore.promotes (s : CompositeStore) (key : Key) (now : Now)
    (redb : Redb) : Bool :=
  match s.memory.get key now.instant, s.disk.get key now.wall redb with
  | none, .ok (some entry) =>
      !(s.promoteTtl == 0) && s.memory.admits entry.value
        (entry.remaining.elim s.promoteTtl (min s.promoteTtl))
  | _, _ => false

def AnyStore.promotes (key : Key) (now : Now) (redb : Redb) : AnyStore → Bool
  | .composite s => s.promotes key now redb
  | _ => false

/-- The origins after a call: a tier that takes a `set` holds its bytes, and a
promoted copy has the origin of the disk record it was made from. -/
def AnyStore.track (s : AnyStore) (o : Origins) : Call → Origins
  | .set key value ttl now redb =>
      let origin := some (.set value now ttl)
      let inMemory := s.memory?.any fun m => m.admits value ttl
      let onDisk := s.disk?.any fun d => d.accepts ttl redb
      { memory := if inMemory then Function.update o.memory key origin else o.memory
        promoted :=
          if inMemory then Function.update o.promoted key false else o.promoted
        disk := if onDisk then Function.update o.disk key origin else o.disk }
  | .get key now _ redb =>
      if s.promotes key now redb then
        { o with
          memory := Function.update o.memory key (o.disk key)
          promoted := Function.update o.promoted key true }
      else o
  | _ => o

/-- A store with the origins of its copies. -/
structure Tracked where
  store : AnyStore
  origins : Origins

namespace Tracked

def tiers (P : Platform) : Tiers Unit Tracked where
  exec _ s c :=
    let r := s.store.exec P c
    (⟨r.1, s.store.track s.origins c⟩, r.2)
  evict _ s doomed := { s with store := s.store.evict doomed }

/-- A store of any kind, freshly opened on a file that holds `base`. -/
def Opened (base : Option (Table Key Bytes)) (s : Tracked) : Prop :=
  s.origins = .opened base ∧ ∃ opts at' promoteTtl,
    s.store = .memory (.new opts) ∨
    s.store = .disk (.openOn base opts at') ∨
    s.store = .composite (.withDisk (.openOn base opts at') opts promoteTtl)

def machine (P : Platform) (base : Option (Table Key Bytes)) :
    Machine (Session Tracked) (Event Unit) :=
  sessions (tiers P) (Opened base)

/-- The origin of what a `get` finds: memory's copy while memory serves one. -/
def origin (s : Tracked) (key : Key) (now : Now) : Option Origin :=
  if s.store.memory?.any fun m => (m.get key now.instant).isSome then
    s.origins.memory key
  else
    s.origins.disk key

end Tracked

/-- A reading of both clocks at one time, `shift` apart and at least a
millisecond after the epoch. -/
def Now.At (shift : ℤ) (now : Now) : Prop :=
  now.wall = now.instant + shift ∧ (nanosPerMilli : ℤ) ≤ now.wall

/-- Each call takes one reading. -/
def OneReading (shift : ℤ) (_ : Session Tracked) : Event Unit → Prop
  | .call _ c _ => c.finish = c.start ∧ c.start.At shift
  | .evict _ _ => True

/-! ## What a deadline owes to its origin -/

/-- The deadline memory keeps for a copy of `o`, made at or before the time it
is read. A promoted copy never outlives the disk record, so the wall clock has
a say in it. -/
structure Origin.BoundsMemory (P : Platform) (shift : ℤ) (o : Origin)
    (promoted : Bool) (expiresAt : Option Instant) : Prop where
  within : ∀ u, o.deadline = some u → (promoted = true → u ≤ P.systemTimeMax) →
    u ≤ P.instantMax + shift → ∃ at', expiresAt = some at' ∧ at' + shift ≤ u
  endless : promoted = false → ∀ u, o.deadline = some u →
    P.instantMax + shift < u → expiresAt = none

/-- The deadline a disk record of `o` carries. -/
structure Origin.BoundsDisk (P : Platform) (o : Origin)
    (expiresAt : Option SystemTime) : Prop where
  within : ∀ u, o.deadline = some u → u ≤ P.systemTimeMax →
    ∃ at', expiresAt = some at' ∧ at' ≤ u
  endless : ∀ value at' ttl, o = .set value at' ttl →
    P.systemTimeMax < at'.wall + ttl → expiresAt = none

/-- Every copy in memory has an origin that bounds its deadline. -/
def MemoryStore.Dated (P : Platform) (shift : ℤ) (s : MemoryStore)
    (os : Origins) : Prop :=
  ∀ key e, s.cache.lookup key = some e → ∃ o, os.memory key = some o ∧
    o.value = e.value ∧ o.BoundsMemory P shift (os.promoted key) e.expiresAt

/-- Every readable record on disk has an origin that bounds its deadline. -/
def DiskStore.Dated (P : Platform) (s : DiskStore) (os : Origins) : Prop :=
  ∀ key record expiresAt value, s.db.records.lookup key = some record →
    split record = some (expiresAt, value) → ∃ o, os.disk key = some o ∧
      o.value = value ∧ o.BoundsDisk P expiresAt

theorem deadlineMillis_eq_zero {P : Platform} {now : SystemTime}
    {ttl : Duration} (h : P.systemTimeMax < now + ttl) :
    deadlineMillis P now ttl = 0 := by
  have hno : ¬ now + ttl ≤ P.systemTimeMax := not_le.mpr h
  simp [deadlineMillis, Platform.systemTimeAdd, hno]

/-- The stored deadline is rounded down, and a millisecond after the epoch it
is not rounded down to "never". -/
theorem deadlineMillis_bounds {P : Platform} {now : ℤ} {ttl : Duration}
    (h : now + ttl ≤ P.systemTimeMax) (hepoch : (nanosPerMilli : ℤ) ≤ now) :
    deadlineMillis P now ttl ≠ 0 ∧
      ((deadlineMillis P now ttl * nanosPerMilli : ℕ) : ℤ) ≤ now + ttl := by
  obtain ⟨n, hn⟩ : ∃ n : ℕ, now + ttl = n := ⟨(now + ttl).toNat, by omega⟩
  have hneg : ¬ now + (ttl : ℤ) < 0 := by omega
  have heq : deadlineMillis P now ttl = min (n / nanosPerMilli) u64Max := by
    unfold deadlineMillis Platform.systemTimeAdd
    rw [if_pos h]
    simp only [if_neg hneg]
    rw [hn, Int.toNat_natCast]
  have hone : 1 ≤ n / nanosPerMilli := by
    rw [Nat.one_le_div_iff (by decide)]
    omega
  have hmul : n / nanosPerMilli * nanosPerMilli ≤ n := Nat.div_mul_le_self _ _
  have hmin : min (n / nanosPerMilli) u64Max * nanosPerMilli ≤
      n / nanosPerMilli * nanosPerMilli :=
    Nat.mul_le_mul_right _ (Nat.min_le_left _ _)
  rw [heq, hn]
  have hmax : 1 ≤ u64Max := by decide
  have hpos : 1 ≤ min (n / nanosPerMilli) u64Max := le_min hone hmax
  exact ⟨by omega, by exact_mod_cast hmin.trans hmul⟩

theorem Platform.instantAdd_within {P : Platform} {now d : ℕ} {shift u : ℤ}
    (hle : (now : ℤ) + d + shift ≤ u) (hmax : u ≤ P.instantMax + shift) :
    ∃ at', P.instantAdd now d = some at' ∧ at' + shift ≤ u := by
  have hfits : now + d ≤ P.instantMax := by omega
  refine ⟨now + d, if_pos hfits, ?_⟩
  push_cast
  exact hle

theorem Platform.instantAdd_beyond {P : Platform} {now d : ℕ} {shift u : ℤ}
    (hle : u ≤ (now : ℤ) + d + shift) (hmax : P.instantMax + shift < u) :
    P.instantAdd now d = none := by
  have hbeyond : ¬ now + d ≤ P.instantMax := by omega
  exact if_neg hbeyond

/-- The record of a `set` is bounded by it. -/
theorem Origin.BoundsDisk.set {P : Platform} {now : Now}
    (hepoch : (nanosPerMilli : ℤ) ≤ now.wall) (value : Bytes) (ttl : Duration) :
    (Origin.set value now ttl).BoundsDisk P
      (if deadlineMillis P now.wall ttl = 0 then none
        else some ↑(deadlineMillis P now.wall ttl * nanosPerMilli)) where
  within := by
    intro u hu hmax
    rw [Origin.deadline, Option.some.injEq] at hu
    subst hu
    obtain ⟨hne, hle⟩ := deadlineMillis_bounds hmax hepoch
    exact ⟨_, if_neg hne, hle⟩
  endless := by
    intro v at' d heq hmax
    injection heq with _ hat hd
    subst hat hd
    rw [if_pos (deadlineMillis_eq_zero hmax)]

/-- The entry of a `set` is bounded by it. -/
theorem Origin.BoundsMemory.set (P : Platform) {shift : ℤ} {now : Now}
    (hat : now.At shift) (value : Bytes) (ttl : Duration) :
    (Origin.set value now ttl).BoundsMemory P shift false
      (P.instantAdd now.instant ttl) where
  within := by
    intro u hu _ hmax
    rw [Origin.deadline, Option.some.injEq] at hu
    have hle : (now.instant : ℤ) + ttl + shift = u := by
      rw [← hu, hat.1, add_right_comm]
    exact Platform.instantAdd_within hle.le hmax
  endless := by
    intro _ u hu hmax
    rw [Origin.deadline, Option.some.injEq] at hu
    have hle : (now.instant : ℤ) + ttl + shift = u := by
      rw [← hu, hat.1, add_right_comm]
    exact Platform.instantAdd_beyond hle.ge hmax

theorem promoted_le {shift wall at' : ℤ} {now promoteTtl : ℕ}
    (hwall : wall = now + shift) (hlt : wall < at') :
    (now : ℤ) + (min promoteTtl (at' - wall).toNat : ℕ) + shift ≤ at' := by
  have hmin := Nat.min_le_right promoteTtl (at' - wall).toNat
  omega

/-- A promoted copy lives no longer than the record it was made from. -/
theorem Origin.BoundsMemory.promote {P : Platform} {shift : ℤ} {now : Now}
    (hat : now.At shift) {o : Origin} {expiresAt : Option SystemTime}
    (hdisk : o.BoundsDisk P expiresAt) {left : Option Duration}
    (hleft : remaining expiresAt now.wall = some left) (promoteTtl : Duration) :
    o.BoundsMemory P shift true
      (P.instantAdd now.instant (left.elim promoteTtl (min promoteTtl))) where
  within := by
    intro u hu hmax hrep
    obtain ⟨at', rfl, hle⟩ := hdisk.within u hu (hmax rfl)
    by_cases hlt : now.wall < at'
    · rw [remaining, if_pos hlt, Option.some.injEq] at hleft
      subst hleft
      refine Platform.instantAdd_within ?_ hrep
      exact (promoted_le hat.1 hlt).trans hle
    · rw [remaining, if_neg hlt] at hleft
      cases hleft
  endless := by
    intro h
    cases h

/-! ## Each call keeps the bounds -/

namespace MemoryStore

variable {P : Platform} {shift : ℤ} {s : MemoryStore} {os os' : Origins}

theorem Dated.sub (h : s.Dated P shift os) {s' : MemoryStore}
    (hsub : ∀ k e, s'.cache.lookup k = some e → s.cache.lookup k = some e) :
    s'.Dated P shift os :=
  fun key e he => h key e (hsub key e he)

theorem Dated.congr (h : s.Dated P shift os) (hmemory : os'.memory = os.memory)
    (hpromoted : os'.promoted = os.promoted) : s.Dated P shift os' := by
  intro key e he
  rw [hmemory, hpromoted]
  exact h key e he

/-- An entry written under one key is bounded by its origin, the others as
before. -/
theorem Dated.insert (h : s.Dated P shift os) {key : Key} {e : MemoryEntry}
    {o : Origin} {promoted : Bool} (hv : o.value = e.value)
    (hb : o.BoundsMemory P shift promoted e.expiresAt)
    (hmemory : os'.memory = Function.update os.memory key (some o))
    (hpromoted : os'.promoted = Function.update os.promoted key promoted) :
    MemoryStore.Dated P shift { s with cache := s.cache.insert key e } os' := by
  intro k e' he'
  rw [Table.lookup_insert] at he'
  rw [hmemory, hpromoted, Function.update_apply, Function.update_apply]
  by_cases hk : k = key
  · rw [if_pos hk, Option.some.injEq] at he'
    subst he'
    rw [if_pos hk, if_pos hk]
    exact ⟨o, rfl, hv, hb⟩
  · rw [if_neg hk] at he'
    rw [if_neg hk, if_neg hk]
    exact h k e' he'

theorem Dated.set (h : s.Dated P shift os) {now : Now} (hat : now.At shift)
    {key : Key} {value : Bytes} {ttl : Duration}
    (hmemory : os'.memory = if s.admits value ttl = true then
      Function.update os.memory key (some (.set value now ttl)) else os.memory)
    (hpromoted : os'.promoted = if s.admits value ttl = true then
      Function.update os.promoted key false else os.promoted) :
    (s.set P key value ttl now.instant).1.Dated P shift os' := by
  unfold MemoryStore.set
  by_cases hadm : s.admits value ttl = true
  · rw [if_pos hadm] at hmemory hpromoted ⊢
    exact h.insert rfl (Origin.BoundsMemory.set P hat value ttl) hmemory hpromoted
  · rw [if_neg hadm] at hmemory hpromoted ⊢
    exact h.congr hmemory hpromoted

theorem Dated.remove (h : s.Dated P shift os) (key : Key) (now : Instant) :
    (s.remove key now).1.Dated P shift os := by
  refine h.sub fun k e he => ?_
  rw [lookup_remove] at he
  by_cases hk : k = key
  · rw [if_pos hk] at he
    cases he
  · rwa [if_neg hk] at he

theorem Dated.retain (h : s.Dated P shift os) (keep : Key → Bool)
    (now : Instant) : (s.retain keep now).1.Dated P shift os :=
  h.sub fun k e he => ((lookup_retain s keep now k e).mp he).1

theorem Dated.evict (h : s.Dated P shift os) (doomed : Key → Bool) :
    (s.evict doomed).Dated P shift os :=
  h.sub fun k e he => ((lookup_evict s doomed k e).mp he).1

end MemoryStore

namespace DiskStore

variable {P : Platform} {s : DiskStore} {os os' : Origins}

theorem Dated.sub (h : s.Dated P os) {s' : DiskStore}
    (hsub : ∀ k r, s'.db.records.lookup k = some r →
      s.db.records.lookup k = some r) : s'.Dated P os :=
  fun key record expiresAt value hr => h key record expiresAt value (hsub _ _ hr)

theorem Dated.congr (h : s.Dated P os) (hdisk : os'.disk = os.disk) :
    s.Dated P os' := by
  intro key record expiresAt value hr hsplit
  rw [hdisk]
  exact h key record expiresAt value hr hsplit

theorem Dated.set (h : s.Dated P os) {now : Now}
    (hepoch : (nanosPerMilli : ℤ) ≤ now.wall) {key : Key} {value : Bytes}
    {ttl : Duration} {redb : Redb}
    (hdisk : os'.disk = if s.accepts ttl redb = true then
      Function.update os.disk key (some (.set value now ttl)) else os.disk) :
    (s.set P key value ttl now redb).1.Dated P os' := by
  rcases set_cases P s key value ttl now redb with
    ⟨hacc, durable, heq, _⟩ | ⟨hacc, err, heq⟩
  · rw [if_pos hacc] at hdisk
    rw [heq]
    intro k record expiresAt v hr hsplit
    rw [Database.records_commit_set, Table.lookup_insert] at hr
    rw [hdisk, Function.update_apply]
    by_cases hk : k = key
    · rw [if_pos hk, Option.some.injEq] at hr
      rw [← hr, split_encodeRecord, Option.some.injEq, Prod.mk.injEq] at hsplit
      rw [if_pos hk, ← hsplit.1]
      exact ⟨_, rfl, hsplit.2, Origin.BoundsDisk.set hepoch value ttl⟩
    · rw [if_neg hk] at hr ⊢
      exact h k record expiresAt v hr hsplit
  · rw [hacc, if_neg Bool.false_ne_true] at hdisk
    rw [heq]
    exact h.congr hdisk

theorem Dated.remove (h : s.Dated P os) (key : Key) (now : Now)
    (redb : Redb) : (s.remove key now redb).1.Dated P os := by
  rcases remove_cases s key now redb with ⟨b, _, hrec⟩ | ⟨_, heq⟩
  · refine h.sub fun k r hr => ?_
    rw [hrec, Table.lookup_erase] at hr
    by_cases hk : k = key
    · rw [if_pos hk] at hr
      cases hr
    · rwa [if_neg hk] at hr
  · rwa [heq]

theorem Dated.retain (h : s.Dated P os) (keep : Key → Bool) (now : Now)
    (redb : Redb) : (s.retain keep now redb).1.Dated P os := by
  rcases retain_cases s keep now redb with ⟨n, _, hrec⟩ | ⟨_, heq⟩
  · refine h.sub fun k r hr => ?_
    rw [hrec] at hr
    exact ((Table.mem_lookup_retain _ _ _ _).mp hr).1
  · rwa [heq]

theorem Dated.cleanup (h : s.Dated P os) (now : SystemTime) (redb : Redb)
    (busy compacts : Bool) :
    (s.cleanup now redb busy compacts).1.Dated P os :=
  h.sub fun _ _ hr => lookup_cleanup hr

theorem Dated.flush (h : s.Dated P os) (now : Instant) (redb : Redb) :
    (s.flush now redb).1.Dated P os := by
  refine h.sub fun k r hr => ?_
  rwa [records_flush] at hr

/-- What a `get` finds on disk has an origin that bounds its deadline. -/
theorem Dated.serves (h : s.Dated P os) {key : Key} {now : SystemTime}
    {entry : Entry} (hs : s.serves key now = some entry) :
    ∃ o expiresAt, os.disk key = some o ∧ o.value = entry.value ∧
      o.BoundsDisk P expiresAt ∧
      remaining expiresAt now = some entry.remaining := by
  obtain ⟨record, hr, hs⟩ := Option.bind_eq_some_iff.mp hs
  obtain ⟨⟨expiresAt, value⟩, hsplit, hs⟩ := Option.bind_eq_some_iff.mp hs
  obtain ⟨left, hleft, rfl⟩ := Option.map_eq_some_iff.mp hs
  obtain ⟨o, ho, hv, hb⟩ := h key record expiresAt value hr hsplit
  exact ⟨o, expiresAt, ho, hv, hb, hleft⟩

end DiskStore

/-- A `get` copies what it found on disk into memory, or changes nothing. -/
theorem CompositeStore.promotes_cases (P : Platform) (s : CompositeStore)
    (key : Key) (now later : Now) (redb : Redb) :
    (s.promotes key now redb = true ∧ ∃ entry,
      s.disk.get key now.wall redb = .ok (some entry) ∧
      (s.get P key now later redb).1 =
        { s with memory := { s.memory with
          cache := s.memory.cache.insert key ⟨entry.value, P.instantAdd
            later.instant (entry.remaining.elim s.promoteTtl (min s.promoteTtl))⟩ } }) ∨
    (s.promotes key now redb = false ∧ (s.get P key now later redb).1 = s) := by
  unfold promotes get
  cases hm : s.memory.get key now.instant with
  | some entry => exact .inr ⟨rfl, rfl⟩
  | none =>
      cases hd : s.disk.get key now.wall redb with
      | error err => exact .inr ⟨rfl, rfl⟩
      | ok found =>
          cases found with
          | none => exact .inr ⟨rfl, rfl⟩
          | some entry =>
              by_cases hz : s.promoteTtl = 0
              · exact .inr ⟨by simp [hz], by simp only [promote, if_pos hz]⟩
              · cases hadm : s.memory.admits entry.value
                    (entry.remaining.elim s.promoteTtl (min s.promoteTtl)) with
                | false =>
                    exact .inr ⟨by simp [hadm],
                      by simp [promote, hz, MemoryStore.set, hadm]⟩
                | true =>
                    exact .inl ⟨by simp [hz, hadm], entry, rfl,
                      by simp [promote, hz, MemoryStore.set, hadm]⟩

namespace AnyStore

/-- Both tiers keep deadlines that their origins bound, and without a disk tier
nothing is promoted. -/
def Dated (P : Platform) (shift : ℤ) (s : AnyStore) (os : Origins) : Prop :=
  (∀ m, s.memory? = some m → m.Dated P shift os) ∧
    (∀ d, s.disk? = some d → d.Dated P os) ∧
    (s.disk? = none → ∀ key, os.promoted key = false)

variable {P : Platform} {shift : ℤ} {os os' : Origins}

theorem dated_memory {m : MemoryStore} :
    (AnyStore.memory m).Dated P shift os ↔
      m.Dated P shift os ∧ ∀ key, os.promoted key = false := by
  simp [Dated, memory?, disk?]

theorem dated_disk {d : DiskStore} :
    (AnyStore.disk d).Dated P shift os ↔ d.Dated P os := by
  simp [Dated, memory?, disk?]

theorem dated_composite {s : CompositeStore} :
    (AnyStore.composite s).Dated P shift os ↔
      s.memory.Dated P shift os ∧ s.disk.Dated P os := by
  simp [Dated, memory?, disk?]

/-- The promoted copy is bounded by the origin of the disk record. -/
theorem get_dated {s : CompositeStore} {key : Key} {now later : Now}
    {redb : Redb} (hlater : later = now) (hat : now.At shift)
    (h : (composite s).Dated P shift os) :
    (composite (s.get P key now later redb).1).Dated P shift
      ((composite s).track os (.get key now later redb)) := by
  subst hlater
  rw [dated_composite] at h ⊢
  rcases s.promotes_cases P key later later redb with
    ⟨hp, entry, hget, heq⟩ | ⟨hp, heq⟩
  · obtain ⟨o, expiresAt, ho, hv, hb, hleft⟩ :=
      h.2.serves (DiskStore.get_ok hget)
    have htrack : (composite s).track os (.get key later later redb) =
        { os with
          memory := Function.update os.memory key (os.disk key)
          promoted := Function.update os.promoted key true } := if_pos hp
    rw [heq, htrack]
    refine ⟨?_, h.2.congr rfl⟩
    exact h.1.insert hv (Origin.BoundsMemory.promote hat hb hleft s.promoteTtl)
      (by rw [ho]) rfl
  · have htrack : (composite s).track os (.get key later later redb) = os :=
      if_neg (by simp [promotes, hp])
    rw [heq, htrack]
    exact h

/-- Every call keeps the deadlines of both tiers bounded by their origins. -/
theorem exec_dated {s : AnyStore} {c : Call} (hone : c.finish = c.start)
    (hat : c.start.At shift) (h : s.Dated P shift os) :
    (s.exec P c).1.Dated P shift (s.track os c) := by
  cases s with
  | memory m =>
      rw [dated_memory] at h
      obtain ⟨h, hp⟩ := h
      refine dated_memory.mpr ?_
      cases c with
      | get key now later redb => exact ⟨h, hp⟩
      | set key value ttl now redb =>
          refine ⟨h.set hat rfl rfl, fun k => ?_⟩
          dsimp only [track]
          split
          · rw [Function.update_apply, hp, ite_self]
          · exact hp k
      | remove key now redb => exact ⟨h.remove key now.instant, hp⟩
      | retain keep now redb => exact ⟨h.retain keep now.instant, hp⟩
      | cleanup now redb busy compacts => exact ⟨h, hp⟩
      | flush now redb => exact ⟨h, hp⟩
  | disk d =>
      rw [dated_disk] at h
      refine dated_disk.mpr ?_
      cases c with
      | get key now later redb => exact h
      | set key value ttl now redb => exact h.set hat.2 rfl
      | remove key now redb => exact h.remove key now redb
      | retain keep now redb => exact h.retain keep now redb
      | cleanup now redb busy compacts => exact h.cleanup now.wall redb busy compacts
      | flush now redb => exact h.flush now.instant redb
  | composite s =>
      cases c with
      | get key now later redb => exact get_dated hone hat h
      | set key value ttl now redb =>
          rw [dated_composite] at h
          refine dated_composite.mpr ⟨h.1.set hat rfl rfl, h.2.set hat.2 rfl⟩
      | remove key now redb =>
          rw [dated_composite] at h
          exact dated_composite.mpr
            ⟨h.1.remove key now.instant, h.2.remove key now redb⟩
      | retain keep now redb =>
          rw [dated_composite] at h
          refine dated_composite.mpr ?_
          have hd := h.2.retain keep now redb
          simp only [CompositeStore.exec, CompositeStore.retain]
          split
          · rename_i d n heq
            rw [heq] at hd
            exact ⟨h.1.retain _ now.instant, hd⟩
          · rename_i d err heq
            rw [heq] at hd
            exact ⟨h.1, hd⟩
      | cleanup now redb busy compacts =>
          rw [dated_composite] at h
          exact dated_composite.mpr ⟨h.1, h.2.cleanup now.wall redb busy compacts⟩
      | flush now redb =>
          rw [dated_composite] at h
          exact dated_composite.mpr ⟨h.1, h.2.flush now.instant redb⟩

theorem evict_dated {s : AnyStore} (doomed : Key → Bool)
    (h : s.Dated P shift os) : (s.evict doomed).Dated P shift os := by
  cases s with
  | memory m =>
      have hm := dated_memory.mp h
      exact dated_memory.mpr ⟨hm.1.evict doomed, hm.2⟩
  | disk d => exact h
  | composite s =>
      have hs := dated_composite.mp h
      exact dated_composite.mpr ⟨hs.1.evict doomed, hs.2⟩

end AnyStore

/-! ## Whole sessions -/

namespace Origins

/-- Every origin is a call of the history or a record of the file. -/
def From (base : Option (Table Key Bytes)) (past : List (Event Unit))
    (os : Origins) : Prop :=
  (∀ key o, os.memory key = some o → o.From base past key) ∧
    ∀ key o, os.disk key = some o → o.From base past key

variable {base : Option (Table Key Bytes)} {past : List (Event Unit)}

theorem From.later {os : Origins} (h : os.From base past) (e : Event Unit) :
    os.From base (e :: past) :=
  ⟨fun key o ho => (h.1 key o ho).later e, fun key o ho => (h.2 key o ho).later e⟩

theorem from_opened (past : List (Event Unit)) :
    (opened base).From base past := by
  refine ⟨fun key o ho => (Option.some_ne_none o ho.symm).elim, fun key o ho => ?_⟩
  obtain ⟨record, hr, ho⟩ := Option.bind_eq_some_iff.mp ho
  obtain ⟨r, hsplit, rfl⟩ := Option.map_eq_some_iff.mp ho
  exact ⟨record, hr, hsplit⟩

theorem from_update {f : Key → Option Origin} {key : Key} {o : Option Origin}
    (h : ∀ k o, f k = some o → o.From base past k)
    (hkey : ∀ o', o = some o' → o'.From base past key) :
    ∀ k o', Function.update f key o k = some o' → o'.From base past k := by
  intro k o' ho'
  rw [Function.update_apply] at ho'
  by_cases hk : k = key
  · rw [if_pos hk] at ho'
    exact hk ▸ hkey o' ho'
  · rw [if_neg hk] at ho'
    exact h k o' ho'

theorem From.track {os : Origins} (h : os.From base past) (s : AnyStore)
    (c : Call) (reply : Reply) :
    (s.track os c).From base (.call () c reply :: past) := by
  have hlater := h.later (.call () c reply)
  cases c with
  | get key now later redb =>
      unfold AnyStore.track
      by_cases hp : s.promotes key now redb = true
      · simp only [if_pos hp]
        exact ⟨from_update hlater.1 (hlater.2 key), hlater.2⟩
      · simp only [if_neg hp]
        exact hlater
  | set key value ttl now redb =>
      have hset : ∀ o, some (Origin.set value now ttl) = some o →
          o.From base (.call () (.set key value ttl now redb) reply :: past) key := by
        rintro _ ⟨⟩
        exact ⟨redb, reply, List.mem_cons_self⟩
      unfold AnyStore.track
      constructor
      · dsimp only
        split
        · exact from_update hlater.1 hset
        · exact hlater.1
      · dsimp only
        split
        · exact from_update hlater.2 hset
        · exact hlater.2
  | remove key now redb => exact hlater
  | retain keep now redb => exact hlater
  | cleanup now redb busy compacts => exact hlater
  | flush now redb => exact hlater

end Origins

namespace Tracked

variable {P : Platform} {shift : ℤ} {base : Option (Table Key Bytes)}

theorem opened_dated {s : Tracked} (h : Opened base s) :
    s.store.Dated P shift s.origins := by
  obtain ⟨horigins, opts, at', promoteTtl, hs⟩ := h
  have hmemory : (MemoryStore.new opts).Dated P shift s.origins := by
    intro key e he
    simp [MemoryStore.new] at he
  have hdisk : (DiskStore.openOn base opts at').Dated P s.origins := by
    intro key record expiresAt value hr hsplit
    have hr : (base.getD ∅).lookup key = some record := hr
    refine ⟨.file value expiresAt, ?_, rfl, ?_, ?_⟩
    · simp only [horigins, Origins.opened, hr, hsplit, Option.bind_some,
        Option.map_some]
    · intro u hu _
      exact ⟨u, hu, le_rfl⟩
    · intro v at' d heq
      cases heq
  rcases hs with hs | hs | hs
  · rw [hs]
    exact AnyStore.dated_memory.mpr ⟨hmemory, fun _ => by rw [horigins]; rfl⟩
  · rw [hs]
    exact AnyStore.dated_disk.mpr hdisk
  · rw [hs]
    exact AnyStore.dated_composite.mpr ⟨hmemory, hdisk⟩

/-- In every session the copies keep to the deadlines of their origins. -/
theorem run_dated {past : List (Event Unit)} {s : Session Tracked}
    (hr : ((machine P base).restrict (OneReading shift)).Run past s) :
    s.store.store.Dated P shift s.store.origins ∧
      s.store.origins.From base past := by
  refine hr.invariant (I := fun past s =>
    s.store.store.Dated P shift s.store.origins ∧
      s.store.origins.From base past) ?_ ?_
  · intro s hs
    have hopened : Opened base s.store := hs
    refine ⟨opened_dated hopened, ?_⟩
    rw [hopened.1]
    exact Origins.from_opened []
  · intro past e s s' _ ⟨hb, hfrom⟩ ⟨hc, hstep⟩
    cases e with
    | call u c reply =>
        obtain ⟨_, _, hexec, _⟩ := hstep
        have hs' : s'.store = ⟨(s.store.store.exec P c).1,
            s.store.store.track s.store.origins c⟩ := (congrArg Prod.fst hexec).symm
        rw [hs']
        exact ⟨AnyStore.exec_dated hc.1 hc.2 hb,
          hfrom.track s.store.store c reply⟩
    | evict u doomed =>
        rw [show s' = _ from hstep]
        exact ⟨AnyStore.evict_dated doomed hb, hfrom.later _⟩

/-- The clocks of the store's tiers can represent the time `u`: memory's
monotonic one, disk's wall clock. -/
def Represents (P : Platform) (shift : ℤ) (s : Tracked) (u : ℤ) : Prop :=
  (s.store.memory?.isSome = true → u ≤ P.instantMax + shift) ∧
    (s.store.disk?.isSome = true → u ≤ P.systemTimeMax)

/-- A tier holds what a `set` gave it whose deadline the tier's clock cannot
represent. -/
inductive Unending (P : Platform) (shift : ℤ) (s : Tracked) (key : Key) : Prop where
  | memory {m : MemoryStore} {e : MemoryEntry} {value : Bytes} {at' : Now}
      {ttl : Duration} (hm : s.store.memory? = some m)
      (he : m.cache.lookup key = some e)
      (ho : s.origins.memory key = some (.set value at' ttl))
      (hp : s.origins.promoted key = false)
      (hu : P.instantMax + shift < at'.wall + ttl)
  | disk {d : DiskStore} {record : Bytes} {r : Option SystemTime × Bytes}
      {value : Bytes} {at' : Now} {ttl : Duration} (hd : s.store.disk? = some d)
      (hr : d.db.records.lookup key = some record) (hsplit : split record = some r)
      (ho : s.origins.disk key = some (.set value at' ttl))
      (hu : P.systemTimeMax < at'.wall + ttl)

/-- What memory serves has an origin, and is served before its deadline and for
no longer than until then. -/
theorem memory_get_dated {m : MemoryStore} {os : Origins}
    (h : m.Dated P shift os) {key : Key} {now : Now} (hat : now.At shift)
    {entry : Entry} (hget : m.get key now.instant = some entry) :
    ∃ o, os.memory key = some o ∧ o.value = entry.value ∧
      ∀ u, o.deadline = some u → (os.promoted key = true → u ≤ P.systemTimeMax) →
        u ≤ P.instantMax + shift → now.wall < u ∧
          ∃ left, entry.remaining = some left ∧ now.wall + left ≤ u := by
  obtain ⟨e, he, hleft, hv⟩ :=
    (MemoryStore.get_eq_some_iff m key now.instant entry).mp hget
  obtain ⟨o, ho, hvalue, hb⟩ := h key e he
  refine ⟨o, ho, hvalue.trans hv, fun u hu hmax hrep => ?_⟩
  obtain ⟨at', hexp, hle⟩ := hb.within u hu hmax hrep
  unfold MemoryEntry.remaining at hleft
  rw [hexp] at hleft
  by_cases hlt : now.instant < at'
  · simp only [if_pos hlt, Option.some.injEq] at hleft
    have hwall : now.wall = (now.instant : ℤ) + shift := hat.1
    have hsum : ((at' - now.instant : ℕ) : ℤ) = at' - now.instant :=
      Int.ofNat_sub hlt.le
    have hlt' : (now.instant : ℤ) < at' := by exact_mod_cast hlt
    refine ⟨?_, at' - now.instant, hleft.symm, ?_⟩
    · rw [hwall]
      linarith
    · rw [hwall, hsum]
      linarith
  · simp only [if_neg hlt] at hleft
    cases hleft

/-- The same for disk. -/
theorem disk_get_dated {d : DiskStore} {os : Origins} (h : d.Dated P os)
    {key : Key} {now : SystemTime} {redb : Redb} {entry : Entry}
    (hget : d.get key now redb = .ok (some entry)) :
    ∃ o, os.disk key = some o ∧ o.value = entry.value ∧
      ∀ u, o.deadline = some u → u ≤ P.systemTimeMax → now < u ∧
        ∃ left, entry.remaining = some left ∧ now + left ≤ u := by
  obtain ⟨o, expiresAt, ho, hv, hb, hleft⟩ := h.serves (DiskStore.get_ok hget)
  refine ⟨o, ho, hv, fun u hu hmax => ?_⟩
  obtain ⟨at', rfl, hle⟩ := hb.within u hu hmax
  by_cases hlt : now < at'
  · rw [remaining, if_pos hlt, Option.some.injEq] at hleft
    have hsum : (((at' - now).toNat : ℕ) : ℤ) = at' - now :=
      Int.toNat_of_nonneg (sub_nonneg.mpr hlt.le)
    refine ⟨hlt.trans_le hle, (at' - now).toNat, hleft.symm, ?_⟩
    rw [hsum]
    linarith
  · rw [remaining, if_neg hlt] at hleft
    cases hleft

/-- What a `get` finds has an origin, and is found before the deadline of that
origin and served for no longer than until then. -/
theorem get_dated {s : Tracked}
    (h : s.store.Dated P shift s.origins) {key : Key} {now : Now}
    (hat : now.At shift) {redb : Redb} {entry : Entry}
    (hget : (s.store.exec P (.get key now now redb)).2 = .got (.ok (some entry))) :
    ∃ o, s.origin key now = some o ∧ o.value = entry.value ∧
      ∀ u, o.deadline = some u → s.Represents P shift u → now.wall < u ∧
        ∃ left, entry.remaining = some left ∧ now.wall + left ≤ u := by
  obtain ⟨store, os⟩ := s
  cases store with
  | memory m =>
      have hget : m.get key now.instant = some entry :=
        Except.ok.inj (Reply.got.inj hget)
      obtain ⟨o, ho, hv, hu⟩ :=
        memory_get_dated (AnyStore.dated_memory.mp h).1 hat hget
      refine ⟨o, ?_, hv, fun u hd hrep => hu u hd ?_ (hrep.1 rfl)⟩
      · simpa [origin, AnyStore.memory?, hget] using ho
      · intro hp
        rw [(AnyStore.dated_memory.mp h).2 key] at hp
        cases hp
  | disk d =>
      have hget : d.get key now.wall redb = .ok (some entry) := Reply.got.inj hget
      obtain ⟨o, ho, hv, hu⟩ := disk_get_dated (AnyStore.dated_disk.mp h) hget
      refine ⟨o, ?_, hv, fun u hd hrep => hu u hd (hrep.2 rfl)⟩
      simpa [origin, AnyStore.memory?] using ho
  | composite s =>
      have hs := AnyStore.dated_composite.mp h
      have hget : (s.get P key now now redb).2 = .ok (some entry) :=
        Reply.got.inj hget
      cases hm : s.memory.get key now.instant with
      | some e =>
          simp only [CompositeStore.get, hm, Except.ok.injEq,
            Option.some.injEq] at hget
          subst hget
          obtain ⟨o, ho, hv, hu⟩ := memory_get_dated hs.1 hat hm
          refine ⟨o, ?_, hv, fun u hd hrep =>
            hu u hd (fun _ => hrep.2 rfl) (hrep.1 rfl)⟩
          simpa [origin, AnyStore.memory?, hm] using ho
      | none =>
          have hdisk : s.disk.get key now.wall redb = .ok (some entry) := by
            simp only [CompositeStore.get, hm] at hget
            split at hget
            · cases hget
            · cases hget
            · rename_i found hd
              rw [hd]
              exact hget
          obtain ⟨o, ho, hv, hu⟩ := disk_get_dated hs.2 hdisk
          refine ⟨o, ?_, hv, fun u hd hrep => hu u hd (hrep.2 rfl)⟩
          simpa [origin, AnyStore.memory?, hm] using ho

theorem memory_get_of_endless {m : MemoryStore} {key : Key} {e : MemoryEntry}
    (he : m.cache.lookup key = some e) (hexp : e.expiresAt = none)
    (now : Instant) : m.get key now = some ⟨e.value, none⟩ := by
  simp [MemoryStore.get, he, MemoryEntry.remaining, hexp]

theorem disk_get_of_endless {d : DiskStore} {key : Key} {record value : Bytes}
    (hr : d.db.records.lookup key = some record)
    (hsplit : split record = some (none, value)) (now : SystemTime) :
    d.get key now .works = .ok (some ⟨value, none⟩) := by
  simp [DiskStore.get, Database.openTable, hr, serve, hsplit, remaining]

/-- A `get` finds what memory or disk finds, whenever redb works. -/
theorem exists_get {s : AnyStore} {key : Key} {now : Now} {entry : Entry}
    (h : (∃ m, s.memory? = some m ∧ m.get key now.instant = some entry) ∨
      ∃ d, s.disk? = some d ∧ d.get key now.wall .works = .ok (some entry)) :
    ∃ found, (s.exec P (.get key now now .works)).2 = .got (.ok (some found)) := by
  cases s with
  | memory m =>
      rcases h with ⟨m', hm, hget⟩ | ⟨d, hd, _⟩
      · cases hm
        exact ⟨entry, by simp [AnyStore.exec, MemoryStore.exec, hget]⟩
      · cases hd
  | disk d =>
      rcases h with ⟨m, hm, _⟩ | ⟨d', hd, hget⟩
      · cases hm
      · cases hd
        exact ⟨entry, by simp [AnyStore.exec, DiskStore.exec, hget]⟩
  | composite s =>
      cases hfront : s.memory.get key now.instant with
      | some found =>
          exact ⟨found, by
            simp [AnyStore.exec, CompositeStore.exec, CompositeStore.get, hfront]⟩
      | none =>
          rcases h with ⟨m, hm, hget⟩ | ⟨d, hd, hget⟩
          · cases hm
            rw [hfront] at hget
            cases hget
          · cases hd
            exact ⟨entry, by
              simp [AnyStore.exec, CompositeStore.exec, CompositeStore.get,
                hfront, hget]⟩

/-- What a tier holds without an end is found at any time. -/
theorem Unending.get {s : Tracked} (h : s.store.Dated P shift s.origins)
    {key : Key} (hu : Unending P shift s key) (now : Now) :
    ∃ entry, (s.store.exec P (.get key now now .works)).2 =
      .got (.ok (some entry)) := by
  cases hu with
  | memory hm he ho hp hu =>
      obtain ⟨o, ho', _, hb⟩ := h.1 _ hm key _ he
      rw [ho, Option.some.injEq] at ho'
      subst ho'
      rw [hp] at hb
      have hexp := hb.endless rfl _ rfl hu
      exact exists_get (.inl ⟨_, hm, memory_get_of_endless he hexp now.instant⟩)
  | @disk d record r value at' ttl hd hr hsplit ho hu =>
      obtain ⟨expiresAt, v⟩ := r
      obtain ⟨o, ho', _, hb⟩ := h.2.1 _ hd key _ expiresAt v hr hsplit
      rw [ho, Option.some.injEq] at ho'
      subst ho'
      rw [hb.endless _ _ _ rfl hu] at hsplit
      exact exists_get (.inr ⟨_, hd, disk_get_of_endless hr hsplit now.wall⟩)

/-- In every session that takes one clock reading a call, what a `get` returns
goes back to a `set` of the key, or a record the file held, whose deadline has
not been reached, unless the clocks cannot represent it; and what cannot expire
is found at any time. -/
theorem no_entry_outlives_ttl {past : List (Event Unit)} {s : Session Tracked}
    (hr : ((machine P base).restrict (OneReading shift)).Run past s) :
    (∀ key now redb entry, now.At shift →
      (s.store.store.exec P (.get key now now redb)).2 =
        .got (.ok (some entry)) →
      ∃ o, s.store.origin key now = some o ∧ o.From base past key ∧
        o.value = entry.value ∧
        ∀ u, o.deadline = some u → s.store.Represents P shift u → now.wall < u ∧
          ∃ left, entry.remaining = some left ∧ now.wall + left ≤ u) ∧
    ∀ key, Unending P shift s.store key → ∀ now, ∃ entry,
      (s.store.store.exec P (.get key now now .works)).2 =
        .got (.ok (some entry)) := by
  obtain ⟨hb, hfrom⟩ := run_dated hr
  refine ⟨fun key now redb entry hat hget => ?_,
    fun key hu now => hu.get hb now⟩
  obtain ⟨o, ho, hv, hbound⟩ := get_dated hb hat hget
  refine ⟨o, ho, ?_, hv, hbound⟩
  unfold Tracked.origin at ho
  split at ho
  · exact hfrom.1 key o ho
  · exact hfrom.2 key o ho

/-- A composite store with a value set for two hundred milliseconds. -/
def setOnce : List (Unit × Call) :=
  [((), .set "k" [1] 200000000 ⟨0, 1000000⟩ .works)]

/-- Memory has dropped the value, and a read promotes it again. -/
def getOnce : List (Unit × Call) :=
  [((), .get "k" ⟨100000000, 101000000⟩ ⟨100000000, 101000000⟩ .works)]

/-- The read twenty milliseconds later is served by the promoted copy, whose
time is counted from the `set`. -/
theorem no_entry_outlives_ttl_repromoted :
    ∃ past s, ((machine ⟨10 ^ 18, 10 ^ 18⟩ none).restrict
        (OneReading 1000000)).Run past s ∧
      ∃ left, (s.store.store.exec ⟨10 ^ 18, 10 ^ 18⟩
          (.get "k" ⟨120000000, 121000000⟩ ⟨120000000, 121000000⟩ .fails)).2 =
            .got (.ok (some ⟨[1], some left⟩)) ∧
        (121000000 : ℤ) + left ≤ 1000000 + 200000000 := by
  have hstart : (machine ⟨10 ^ 18, 10 ^ 18⟩ none).Run []
      ⟨⟨.composite (.withDisk (.openOn none .new 0) .new 50000000),
        .opened none⟩, ⟨0, 1000000⟩⟩ :=
    .start ⟨rfl, .new, 0, 50000000, .inr (.inr rfl)⟩
  have hset := run_playing hstart setOnce
    (by simp [InOrder, setOnce, Call.start, Call.finish, Now.le_def])
  have hdropped := run_evicting hset () fun _ => true
  have hget := run_playing hdropped getOnce
    (by simp [InOrder, getOnce, setOnce, playing, Call.start, Call.finish,
      Now.le_def])
  have hone := hget.restrict (C := OneReading 1000000)
    (by simp [playing, getOnce, setOnce, OneReading, Call.start, Call.finish,
      Now.At, nanosPerMilli])
  have hat : Now.At 1000000 ⟨120000000, 121000000⟩ := by
    constructor <;> decide
  obtain ⟨o, ho, _, _, hu⟩ := (no_entry_outlives_ttl hone).1 "k"
    ⟨120000000, 121000000⟩ .fails ⟨[1], some 30000000⟩ hat (by decide)
  cases (Option.some.inj ho : Origin.set [1] ⟨0, 1000000⟩ 200000000 = o)
  obtain ⟨_, left, hleft, hle⟩ := hu _ rfl ⟨fun _ => by decide, fun _ => by decide⟩
  exact ⟨_, _, hone, 30000000, by decide, Option.some.inj hleft ▸ hle⟩

end Tracked

end Memo

end RustSak
