import RustSak.Memo.Session

/-!
# A composite store reads its own writes

A `set` that one tier takes and the other refuses returns `Ok` and leaves the
older value where it was. It does harm in two ways only: disk took the write
and memory, whose budget the value exceeds, still serves an older one; or the
disk write failed and memory took it, while disk still holds an older record
that memory's next eviction uncovers. `Lands` rules out exactly these, and
under it the tiers agree with what was written after every call.
-/

namespace RustSak

namespace Memo

open Library

namespace CompositeStore

def Agrees (s : CompositeStore) (written : Key → Option Bytes) (now : Now) :
    Prop :=
  s.memory.Agrees written now.instant ∧ s.disk.Agrees written now.wall

/-- No tier that refuses a `set` the other one takes serves another value of
the key. -/
def Lands (s : CompositeStore) : Call → Prop
  | .set key value ttl now redb =>
      (s.disk.accepts ttl redb = true → s.memory.admits value ttl = false →
        s.memory.get key now.instant = none) ∧
      (s.disk.accepts ttl redb = false → s.memory.admits value ttl = true →
        ∀ entry, s.disk.serves key now.wall = some entry → entry.value = value)
  | _ => True

theorem get_cases (P : Platform) (s : CompositeStore) (key : Key)
    (now later : Now) (redb : Redb) :
    (∃ entry, s.memory.get key now.instant = some entry ∧
      s.get P key now later redb = (s, .ok (some entry))) ∨
    (∃ entry, s.disk.get key now.wall redb = .ok (some entry) ∧
      s.get P key now later redb =
        ({ s with memory := s.promote P key entry later.instant },
          .ok (some entry))) ∨
    (∃ result, (∀ entry, result ≠ .ok (some entry)) ∧
      s.get P key now later redb = (s, result)) := by
  cases hm : s.memory.get key now.instant with
  | some entry => exact .inl ⟨entry, rfl, by simp [get, hm]⟩
  | none =>
      cases hd : s.disk.get key now.wall redb with
      | error err => exact .inr (.inr ⟨.error err, by simp, by simp [get, hm, hd]⟩)
      | ok found =>
          cases found with
          | none => exact .inr (.inr ⟨.ok none, by simp, by simp [get, hm, hd]⟩)
          | some entry => exact .inr (.inl ⟨entry, rfl, by simp [get, hm, hd]⟩)

theorem Agrees.get {P : Platform} {s : CompositeStore}
    {written : Key → Option Bytes} {now later : Now} (h : s.Agrees written now)
    {key : Key} {redb : Redb} {entry : Entry}
    (hget : (s.get P key now later redb).2 = .ok (some entry)) :
    written key = some entry.value := by
  rcases get_cases P s key now later redb with
    ⟨e, hm, heq⟩ | ⟨e, hd, heq⟩ | ⟨result, hno, heq⟩
  · rw [heq, Except.ok.injEq, Option.some.injEq] at hget
    rw [← hget]
    exact h.1.get hm
  · rw [heq, Except.ok.injEq, Option.some.injEq] at hget
    rw [← hget]
    exact h.2.serves (DiskStore.get_ok hd)
  · rw [heq] at hget
    exact absurd hget (hno entry)

theorem Agrees.promote {P : Platform} {s : CompositeStore}
    {written : Key → Option Bytes} {now : Now} (h : s.Agrees written now)
    {key : Key} {entry : Entry} (at' : Instant)
    (hw : written key = some entry.value) :
    (s.promote P key entry at').Agrees written now.instant := by
  unfold CompositeStore.promote
  split
  · exact h.1
  · exact h.1.set_written P key _ at' hw

theorem get_agrees {P : Platform} {s : CompositeStore}
    {written : Key → Option Bytes} {now later : Now} {redb : Redb} {key : Key}
    (h : s.Agrees written now) :
    (s.get P key now later redb).1.Agrees written now := by
  rcases get_cases P s key now later redb with
    ⟨e, hm, heq⟩ | ⟨e, hd, heq⟩ | ⟨result, hno, heq⟩
  · rwa [heq]
  · have hw := h.2.serves (DiskStore.get_ok hd)
    rw [heq]
    exact ⟨h.promote later.instant hw, h.2⟩
  · rwa [heq]

theorem set_agrees {P : Platform} {s : CompositeStore}
    {written : Key → Option Bytes} {key : Key} {value : Bytes}
    {ttl : Duration} {now : Now} {redb : Redb} (h : s.Agrees written now)
    (hlands : s.Lands (.set key value ttl now redb)) :
    (s.set P key value ttl now redb).1.Agrees
      (leaves (.set key value ttl now redb)
        (.done (s.set P key value ttl now redb).2) written) now := by
  obtain ⟨hmemory, hdisk⟩ := hlands
  have hm := MemoryStore.set_result P s.memory key value ttl now.instant
  -- which of the two tiers takes the write
  rcases DiskStore.set_cases P s.disk key value ttl now redb with
    ⟨hacc, durable, heq, _⟩ | ⟨hacc, err, heq⟩ <;>
    cases hadm : s.memory.admits value ttl
  · have hget := hmemory hacc hadm
    have hset := h.2.set P key value ttl now hacc
    rw [heq] at hset
    simp only [CompositeStore.set, heq, leaves,
      MemoryStore.set_declined hadm]
    refine ⟨MemoryStore.agrees_of_get fun k entry hk => ?_, hset⟩
    have hne : k ≠ key := fun hkey => by simp [hkey, hget] at hk
    rw [Function.update_of_ne hne]
    exact h.1.get hk
  · have hset := h.2.set P key value ttl now hacc
    rw [heq] at hset
    simp only [CompositeStore.set, heq, leaves]
    exact ⟨h.1.set P key value ttl now.instant hadm, hset⟩
  · rw [hadm] at hm
    simp only [CompositeStore.set, heq, hm, MemoryStore.set_declined hadm]
    exact h
  · rw [hadm] at hm
    simp only [CompositeStore.set, heq, hm, leaves, if_true]
    refine ⟨h.1.set P key value ttl now.instant hadm,
      DiskStore.agrees_of_serves fun k entry hk => ?_⟩
    by_cases hkey : k = key
    · subst hkey
      rw [Function.update_self, hdisk hacc hadm entry hk]
    · rw [Function.update_of_ne hkey]
      exact h.2.serves hk

theorem remove_agrees {s : CompositeStore} {written : Key → Option Bytes}
    {key : Key} {now : Now} {redb : Redb} (h : s.Agrees written now) :
    (s.remove key now redb).1.Agrees
      (leaves (.remove key now redb) (.removed (s.remove key now redb).2)
        written) now := by
  have hd := h.2.remove key now redb
  rcases DiskStore.remove_cases s.disk key now redb with
    ⟨b, hok, _⟩ | ⟨_, heq⟩
  · simp only [CompositeStore.remove, hok, leaves] at hd ⊢
    exact ⟨h.1.remove key now.instant none, hd⟩
  · have hm := h.1.remove key now.instant (written key)
    rw [Function.update_eq_self] at hm
    simp only [CompositeStore.remove, heq, leaves]
    exact ⟨hm, h.2⟩

theorem keep_of_keptKeys {s : CompositeStore} {keep : Key → Bool}
    {now : SystemTime} {redb : Redb} {key : Key}
    (h : s.keptKeys keep now redb key = true) : keep key = true := by
  unfold keptKeys at h
  split at h
  · rename_i t _
    cases hl : t.lookup key with
    | none => simp [hl] at h
    | some record =>
        simp only [hl, Option.any_some, DiskStore.kept, Bool.and_eq_true] at h
        exact h.2
  · cases h
  · cases h

theorem retain_agrees {s : CompositeStore} {written : Key → Option Bytes}
    {keep : Key → Bool} {now : Now} {redb : Redb} (h : s.Agrees written now) :
    (s.retain keep now redb).1.Agrees
      (leaves (.retain keep now redb) (.retained (s.retain keep now redb).2)
        written) now := by
  have hd := h.2.retain keep now redb
  rcases DiskStore.retain_cases s.disk keep now redb with
    ⟨n, hok, _⟩ | ⟨_, heq⟩
  · have hpair : s.disk.retain keep now redb =
        ((s.disk.retain keep now redb).1, .ok n) := by rw [← hok]
    rw [hok] at hd
    rw [CompositeStore.retain, hpair]
    exact ⟨h.1.retain fun key => keep_of_keptKeys, hd⟩
  · simp only [CompositeStore.retain, heq, leaves]
    exact h

/-- Every call that lands leaves the tiers agreeing with what it leaves. -/
theorem exec_agrees (P : Platform) {s : CompositeStore}
    {written : Key → Option Bytes} {c : Call} (hlands : s.Lands c)
    (h : s.Agrees written c.start) :
    (s.exec P c).1.Agrees (leaves c (s.exec P c).2 written) c.start := by
  cases c with
  | get key now later redb => exact get_agrees h
  | set key value ttl now redb => exact set_agrees h hlands
  | remove key now redb => exact remove_agrees h
  | retain keep now redb => exact retain_agrees h
  | cleanup now redb busy compacts =>
      exact ⟨h.1, h.2.cleanup now.wall redb busy compacts⟩
  | flush now redb => exact ⟨h.1, h.2.flush now.instant redb⟩

/-- A composite store as its one handle calls it. -/
def tiers (P : Platform) : Tiers Unit CompositeStore where
  exec _ s c := s.exec P c
  evict _ s doomed := s.evict doomed

/-- A composite store freshly opened on a file that holds `base`. -/
def Opened (base : Option (Table Key Bytes)) (opts : CacheOpts)
    (promoteTtl : Duration) (s : CompositeStore) : Prop :=
  ∃ at', s = withDisk (.openOn base opts at') opts promoteTtl

/-- All sessions of one composite store. -/
def machine (P : Platform) (base : Option (Table Key Bytes)) (opts : CacheOpts)
    (promoteTtl : Duration) : Machine (Session CompositeStore) (Event Unit) :=
  sessions (tiers P) (Opened base opts promoteTtl)

/-- The step condition: the call, if the event is one, lands. -/
def LandsAt (s : Session CompositeStore) : Event Unit → Prop
  | .call _ c _ => s.store.Lands c
  | .evict _ _ => True

def coherence (P : Platform) (base : Option (Table Key Bytes))
    (opts : CacheOpts) (promoteTtl : Duration) :
    Coherence (tiers P) (Opened base opts promoteTtl) LandsAt
      (DiskStore.valueIn base) where
  Agrees := Agrees
  mono _ _ _ _ hle h := ⟨h.1.mono hle.1, h.2.mono hle.2⟩
  start := by
    rintro _ now ⟨at', rfl⟩
    exact ⟨MemoryStore.agrees_new opts _ _, DiskStore.agrees_openOn _ _ _ _⟩
  evict _ _ doomed _ _ h := ⟨h.1.evict doomed, h.2⟩
  exec _ _ _ _ hc h := exec_agrees P hc h
  get _ _ _ _ _ _ _ _ h hget := h.get (Reply.got.inj hget)

/-- In every session whose sets all land, a `get` returns what was last
written. -/
theorem readsYourWrites_of_lands (P : Platform)
    (base : Option (Table Key Bytes)) (opts : CacheOpts)
    (promoteTtl : Duration) :
    ReadsYourWrites ((machine P base opts promoteTtl).restrict LandsAt)
      (DiskStore.valueIn base) :=
  (coherence P base opts promoteTtl).readsYourWrites

/-- A value over the one-byte budget is written while memory has nothing under
its key, and a byte over it. -/
def withinBudget : List (Unit × Call) :=
  [((), .set "k" [1, 2] 100 ⟨0, 0⟩ .works), ((), .get "k" ⟨1, 1⟩ ⟨1, 1⟩ .works),
    ((), .set "k" [3] 100 ⟨2, 2⟩ .works), ((), .get "k" ⟨3, 3⟩ ⟨3, 3⟩ .works)]

theorem readsYourWrites_of_lands_withinBudget :
    let s : Session CompositeStore := ⟨withDisk (.openOn none .new 0)
      (CacheOpts.new.withMaxCapacity 1) 10, ⟨0, 0⟩⟩
    lastWritten (DiskStore.valueIn none) (playing (tiers ⟨1000, 1000⟩) s withinBudget).2.tail
      "k" = some [3] := by
  intro s
  have hstart : ((machine ⟨1000, 1000⟩ none (CacheOpts.new.withMaxCapacity 1)
      10).restrict LandsAt).Run [] s := .start ⟨0, rfl⟩
  have hmeeting : Meeting (tiers ⟨1000, 1000⟩) LandsAt s withinBudget :=
    ⟨⟨by decide, fun h => absurd h (by decide)⟩, trivial,
      ⟨by decide, fun h => absurd h (by decide)⟩, trivial, trivial⟩
  have hrun := run_meeting hstart withinBudget
    (by simp [InOrder, withinBudget, s, Call.start, Call.finish, Now.le_def]) hmeeting
  exact readsYourWrites_of_lands ⟨1000, 1000⟩ none (CacheOpts.new.withMaxCapacity 1) 10 _ _ ()
    "k" ⟨3, 3⟩ ⟨3, 3⟩ .works ⟨[3], some 99⟩ hrun

/-- A byte is cached, then a value over the one-byte budget is written and read
back. -/
def overBudget : List (Unit × Call) :=
  [((), .set "k" [1] 100 ⟨0, 0⟩ .works),
    ((), .set "k" [1, 2] 100 ⟨1, 1⟩ .works),
    ((), .get "k" ⟨2, 2⟩ ⟨2, 2⟩ .works)]

/-- Without the condition an older value is served: the large value reaches
disk only, and memory goes on serving the byte. -/
theorem not_readsYourWrites :
    ¬ ∀ P base opts promoteTtl,
      ReadsYourWrites (machine P base opts promoteTtl)
        (DiskStore.valueIn base) := by
  intro h
  have hread := h ⟨1000, 1000⟩ none (CacheOpts.new.withMaxCapacity 1) 10
  have hstart : (machine ⟨1000, 1000⟩ none (CacheOpts.new.withMaxCapacity 1)
      10).Run [] ⟨withDisk (.openOn none .new 0)
        (CacheOpts.new.withMaxCapacity 1) 10, ⟨0, 0⟩⟩ := .start ⟨0, rfl⟩
  have hrun := run_playing hstart overBudget
    (by simp [InOrder, overBudget, Call.start, Call.finish, Now.le_def])
  have hstale := hread _ _ () "k" ⟨2, 2⟩ ⟨2, 2⟩ .works ⟨[1], some 98⟩ hrun
  exact absurd hstale (by decide)

end CompositeStore

end Memo

end RustSak
