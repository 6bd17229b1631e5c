import RustSak.Memo.ReadYourWrites

/-!
# Several handles on one cache file

Handles opened on one file share one disk store, but each `memory_disk` handle
builds a memory tier of its own, which no call through another handle reaches.
A handle therefore serves an old value for as long as its memory tier keeps a
copy that another handle has overwritten or removed; `Reaches` rules that out,
and under it all handles agree with what was last written through any of them.
-/

namespace RustSak

namespace Memo

open Library

/-- What was asked for when a handle was opened: `none` for a handle on the
disk store alone. -/
abbrev HandleOpts := Option (CacheOpts × Duration)

/-- The handles on one file: the disk store they share, and the memory tier and
`promote_ttl` of each handle that has one. -/
structure Handles (η : Type*) where
  disk : DiskStore
  tier : η → Option (MemoryStore × Duration)

/-- What a call must find in a memory tier it does not reach. -/
def Call.Spares (memory : MemoryStore) : Call → Prop
  | .set key value _ now _ =>
      ∀ entry, memory.get key now.instant = some entry → entry.value = value
  | .remove key now _ => memory.get key now.instant = none
  | .retain keep now _ =>
      ∀ key entry, memory.get key now.instant = some entry → keep key = true
  | _ => True

theorem MemoryStore.Agrees.spared {memory : MemoryStore}
    {written : Key → Option Bytes} {c : Call}
    (h : memory.Agrees written c.start.instant) (hspares : c.Spares memory)
    (reply : Reply) : memory.Agrees (leaves c reply written) c.start.instant := by
  refine MemoryStore.agrees_of_get fun key entry hget => ?_
  have hw := h.get hget
  unfold leaves
  split
  · rename_i k value ttl now redb u
    by_cases hk : key = k
    · subst hk
      rw [Function.update_self, hspares entry hget]
    · rwa [Function.update_of_ne hk]
  · rename_i k now redb b
    have hne : key ≠ k := by
      rintro rfl
      have hnone : memory.get key now.instant = none := hspares
      rw [Call.start, hnone] at hget
      cases hget
    rwa [Function.update_of_ne hne]
  · rename_i keep now redb n
    rwa [if_pos (hspares key entry hget)]
  · exact hw

namespace Handles

variable {η : Type*} [DecidableEq η]

/-- One call through the handle `h`. -/
def exec (P : Platform) (h : η) (s : Handles η) (c : Call) : Handles η × Reply :=
  match s.tier h with
  | none =>
      let r := s.disk.exec P c
      ({ s with disk := r.1 }, r.2)
  | some (memory, promoteTtl) =>
      let r := CompositeStore.exec P ⟨memory, s.disk, promoteTtl⟩ c
      ({ disk := r.1.disk
         tier := Function.update s.tier h (some (r.1.memory, promoteTtl)) }, r.2)

def evict (h : η) (s : Handles η) (doomed : Key → Bool) : Handles η :=
  { s with
    tier := Function.update s.tier h
      ((s.tier h).map fun t => (t.1.evict doomed, t.2)) }

def tiers (P : Platform) : Tiers η (Handles η) where
  exec := exec P
  evict := evict

/-- The handles as they are opened, in any order, on a file that holds
`base`. -/
def Opened (base : Option (Table Key Bytes)) (opened : η → HandleOpts)
    (s : Handles η) : Prop :=
  (∃ opts at', s.disk = .openOn base opts at') ∧
    ∀ h, s.tier h = (opened h).map fun o => (MemoryStore.new o.1, o.2)

/-- All sessions of the handles. -/
def machine (P : Platform) (base : Option (Table Key Bytes))
    (opened : η → HandleOpts) : Machine (Session (Handles η)) (Event η) :=
  sessions (tiers P) (Opened base opened)

/-- Whether a write through `h` returns `Ok`. -/
def lands (s : Handles η) (h : η) : Call → Bool
  | .set _ value ttl _ redb =>
      s.disk.accepts ttl redb || (s.tier h).any fun t => t.1.admits value ttl
  | .remove _ _ redb =>
      match s.disk.db.openTable redb with
      | .error => false
      | _ => true
  | .retain _ _ redb =>
      match s.disk.db.openTable redb with
      | .error => false
      | _ => true
  | _ => false

/-- The call lands in the tiers of its own handle, and no other handle's memory
tier still serves what it overwrites or removes. -/
def Reaches (s : Handles η) (h : η) (c : Call) : Prop :=
  (∀ t, s.tier h = some t → CompositeStore.Lands ⟨t.1, s.disk, t.2⟩ c) ∧
    (s.lands h c = true →
      ∀ h' t, h' ≠ h → s.tier h' = some t → c.Spares t.1)

def ReachesAt (s : Session (Handles η)) : Event η → Prop
  | .call h c _ => s.store.Reaches h c
  | .evict _ _ => True

def Agrees (s : Handles η) (written : Key → Option Bytes) (now : Now) : Prop :=
  s.disk.Agrees written now.wall ∧
    ∀ h t, s.tier h = some t → t.1.Agrees written now.instant

/-- A write that does not land leaves what was written before. -/
theorem leaves_of_not_lands (P : Platform) {s : Handles η} {h : η} {c : Call}
    (hno : s.lands h c = false) (written : Key → Option Bytes) :
    leaves c (s.exec P h c).2 written = written := by
  unfold exec
  cases c with
  | get key now later redb => cases s.tier h <;> rfl
  | set key value ttl now redb =>
      simp only [lands, Bool.or_eq_false_iff] at hno
      obtain ⟨hacc, hadm⟩ := hno
      rcases DiskStore.set_cases P s.disk key value ttl now redb with
        ⟨hyes, _⟩ | ⟨_, err, heq⟩
      · rw [hacc] at hyes
        cases hyes
      · cases ht : s.tier h with
        | none => simp only [DiskStore.exec, heq, leaves]
        | some t =>
            have hdecl : t.1.admits value ttl = false := by simpa [ht] using hadm
            have hm := MemoryStore.set_result P t.1 key value ttl now.instant
            rw [hdecl] at hm
            simp [CompositeStore.exec, CompositeStore.set, heq, hm, leaves]
  | remove key now redb =>
      rcases DiskStore.remove_cases s.disk key now redb with
        ⟨b, hok, _⟩ | ⟨_, heq⟩
      · cases ho : s.disk.db.openTable redb with
        | table t => simp [lands, ho] at hno
        | doesNotExist => simp [lands, ho] at hno
        | error => simp [DiskStore.remove, ho] at hok
      · cases s.tier h with
        | none => simp only [DiskStore.exec, heq, leaves]
        | some t => simp only [CompositeStore.exec, CompositeStore.remove, heq, leaves]
  | retain keep now redb =>
      rcases DiskStore.retain_cases s.disk keep now redb with
        ⟨n, hok, _⟩ | ⟨_, heq⟩
      · cases ho : s.disk.db.openTable redb with
        | table t => simp [lands, ho] at hno
        | doesNotExist => simp [lands, ho] at hno
        | error => simp [DiskStore.retain, ho] at hok
      · cases s.tier h with
        | none => simp only [DiskStore.exec, heq, leaves]
        | some t => simp only [CompositeStore.exec, CompositeStore.retain, heq, leaves]
  | cleanup now redb busy compacts => cases s.tier h <;> rfl
  | flush now redb => cases s.tier h <;> rfl

/-- The memory tiers a call does not reach agree with what it leaves. -/
theorem Agrees.others (P : Platform) {s : Handles η}
    {written : Key → Option Bytes} {h : η} {c : Call}
    (hagree : s.Agrees written c.start) (hreach : s.Reaches h c) {h' : η}
    {t : MemoryStore × Duration} (hne : h' ≠ h) (ht : s.tier h' = some t) :
    t.1.Agrees (leaves c (s.exec P h c).2 written) c.start.instant := by
  have hold := hagree.2 h' t ht
  cases hlands : s.lands h c with
  | false => rwa [leaves_of_not_lands P hlands]
  | true => exact hold.spared (hreach.2 hlands h' t hne ht) _

/-- Every call that reaches leaves the handles agreeing with what it leaves. -/
theorem exec_agrees (P : Platform) {s : Handles η}
    {written : Key → Option Bytes} {h : η} {c : Call}
    (hreach : s.Reaches h c) (hagree : s.Agrees written c.start) :
    (s.exec P h c).1.Agrees (leaves c (s.exec P h c).2 written) c.start := by
  have hothers := fun (h' : η) (t : MemoryStore × Duration) (hne : h' ≠ h)
    (ht : s.tier h' = some t) => hagree.others P hreach hne ht
  cases htier : s.tier h with
  | none =>
      simp only [exec, htier] at hothers ⊢
      refine ⟨DiskStore.exec_agrees P hagree.1, fun h' t ht => ?_⟩
      have hne : h' ≠ h := by
        rintro rfl
        rw [show s.tier h' = some t from ht] at htier
        cases htier
      exact hothers h' t hne ht
  | some tier =>
      obtain ⟨memory, promoteTtl⟩ := tier
      have hown := CompositeStore.exec_agrees P (hreach.1 _ htier)
        ⟨hagree.2 h _ htier, hagree.1⟩
      simp only [exec, htier] at hothers ⊢
      refine ⟨hown.2, fun h' t ht => ?_⟩
      by_cases hh : h' = h
      · subst hh
        simp only [Function.update_self, Option.some.injEq] at ht
        subst ht
        exact hown.1
      · simp only [Function.update_of_ne hh] at ht
        exact hothers h' t hh ht

theorem Agrees.get (P : Platform) {s : Handles η}
    {written : Key → Option Bytes} {h : η} {key : Key} {now later : Now}
    {redb : Redb} {entry : Entry} (hagree : s.Agrees written now)
    (hget : (s.exec P h (.get key now later redb)).2 =
      .got (.ok (some entry))) : written key = some entry.value := by
  unfold exec at hget
  cases htier : s.tier h with
  | none =>
      simp only [htier, DiskStore.exec, Reply.got.injEq] at hget
      exact hagree.1.serves (DiskStore.get_ok hget)
  | some tier =>
      have hown : CompositeStore.Agrees ⟨tier.1, s.disk, tier.2⟩ written now :=
        ⟨hagree.2 h _ htier, hagree.1⟩
      simp only [htier, CompositeStore.exec, Reply.got.injEq] at hget
      exact hown.get hget

theorem Agrees.evict {s : Handles η} {written : Key → Option Bytes} {now : Now}
    (hagree : s.Agrees written now) (h : η) (doomed : Key → Bool) :
    (Handles.evict h s doomed).Agrees written now := by
  refine ⟨hagree.1, fun h' t ht => ?_⟩
  by_cases hh : h' = h
  · subst hh
    simp only [Handles.evict, Function.update_self] at ht
    obtain ⟨t₀, ht₀, rfl⟩ := Option.map_eq_some_iff.mp ht
    exact (hagree.2 h' t₀ ht₀).evict doomed
  · simp only [Handles.evict, Function.update_of_ne hh] at ht
    exact hagree.2 h' t ht

def coherence (P : Platform) (base : Option (Table Key Bytes))
    (opened : η → HandleOpts) :
    Coherence (tiers P) (Opened base opened) (ReachesAt (η := η))
      (DiskStore.valueIn base) where
  Agrees := Agrees
  mono _ _ _ _ hle h := ⟨h.1.mono hle.2, fun h' t ht => (h.2 h' t ht).mono hle.1⟩
  start := by
    rintro s now ⟨⟨opts, at', hdisk⟩, htier⟩
    refine ⟨hdisk ▸ DiskStore.agrees_openOn _ _ _ _, fun h t ht => ?_⟩
    rw [htier] at ht
    obtain ⟨o, _, rfl⟩ := Option.map_eq_some_iff.mp ht
    exact MemoryStore.agrees_new o.1 _ _
  evict h _ doomed _ _ hagree := hagree.evict h doomed
  exec _ _ _ _ hc hagree := exec_agrees P hc hagree
  get _ _ _ _ _ _ _ _ hagree hget := hagree.get P hget

/-- In every session whose writes all reach, a `get` through any handle returns
what was last written through any handle. -/
theorem readsYourWrites_of_reaches (P : Platform)
    (base : Option (Table Key Bytes)) (opened : η → HandleOpts) :
    ReadsYourWrites ((machine P base opened).restrict ReachesAt)
      (DiskStore.valueIn base) :=
  (coherence P base opened).readsYourWrites

/-- Two `memory_disk` handles: one caches a value, the other finds it on disk and
writes it again; it removes another key, which neither has in memory, and the
first is asked for the value. -/
def inTurns : List (Bool × Call) :=
  [(false, .set "k" [1] 100 ⟨0, 0⟩ .works), (true, .get "k" ⟨1, 1⟩ ⟨1, 1⟩ .works),
    (true, .set "k" [1] 100 ⟨2, 2⟩ .works), (true, .remove "j" ⟨3, 3⟩ .works),
    (false, .get "k" ⟨4, 4⟩ ⟨4, 4⟩ .works)]

theorem readsYourWrites_of_reaches_inTurns :
    let s : Session (Handles Bool) :=
      ⟨⟨.openOn none .new 0, fun _ => some (.new .new, 10)⟩, ⟨0, 0⟩⟩
    lastWritten (DiskStore.valueIn none) (playing (tiers ⟨1000, 1000⟩) s inTurns).2.tail
      "k" = some [1] := by
  intro s
  have hstart : ((machine ⟨1000, 1000⟩ none fun _ : Bool => some (.new, 10)).restrict
      ReachesAt).Run [] s := .start ⟨⟨.new, 0, rfl⟩, fun _ => rfl⟩
  have hmeeting : Meeting (tiers ⟨1000, 1000⟩) ReachesAt s inTurns := by
    refine ⟨⟨?_, ?_⟩, ⟨fun _ _ => trivial, fun hlands => by cases hlands⟩, ⟨?_, ?_⟩,
      ⟨fun _ _ => trivial, ?_⟩, ⟨fun _ _ => trivial, fun hlands => by cases hlands⟩, trivial⟩
    · rintro t ⟨⟩
      exact ⟨by decide, fun h => absurd h (by decide)⟩
    · rintro _ h' t hne ⟨⟩ entry hentry
      cases hentry
    · rintro t ⟨⟩
      exact ⟨by decide, fun h => absurd h (by decide)⟩
    · intro _ h' t hne ht entry hentry
      cases h' with
      | true => exact absurd rfl hne
      | false =>
          cases ht
          exact (congrArg Entry.value (Option.some.inj hentry)).symm
    · intro _ h' t hne ht
      cases h' with
      | true => exact absurd rfl hne
      | false =>
          cases ht
          rfl
  have hrun := run_meeting hstart inTurns
    (by simp [InOrder, inTurns, s, Call.start, Call.finish, Now.le_def]) hmeeting
  exact readsYourWrites_of_reaches ⟨1000, 1000⟩ none (fun _ => some (.new, 10)) _ _ false
    "k" ⟨4, 4⟩ ⟨4, 4⟩ .works ⟨[1], some 96⟩ hrun

/-- Two `memory_disk` handles: one caches a value, the other overwrites it, and
the first is asked for it. -/
def overwritten : List (Bool × Call) :=
  [(false, .set "k" [1] 100 ⟨0, 0⟩ .works),
    (true, .set "k" [2] 100 ⟨1, 1⟩ .works),
    (false, .get "k" ⟨2, 2⟩ ⟨2, 2⟩ .works)]

/-- Without the condition a handle serves what another one has overwritten. -/
theorem handles_disagree :
    ¬ ∀ P base (opened : Bool → HandleOpts),
      ReadsYourWrites (machine P base opened) (DiskStore.valueIn base) := by
  intro h
  have hread := h ⟨1000, 1000⟩ none fun _ => some (.new, 10)
  have hstart : (machine ⟨1000, 1000⟩ none fun _ : Bool => some (.new, 10)).Run
      [] ⟨⟨.openOn none .new 0, fun _ => some (.new .new, 10)⟩, ⟨0, 0⟩⟩ :=
    .start ⟨⟨.new, 0, rfl⟩, fun _ => rfl⟩
  have hrun := run_playing hstart overwritten
    (by simp [InOrder, overwritten, Call.start, Call.finish, Now.le_def])
  have hstale := hread _ _ false "k" ⟨2, 2⟩ ⟨2, 2⟩ .works ⟨[1], some 98⟩ hrun
  exact absurd hstale (by decide)

end Handles

end Memo

end RustSak
