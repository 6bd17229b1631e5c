import RustSak.Memo.Durability

/-!
# Dropping the last handle

The store's own `Drop` makes the deferred writes durable, and it runs wherever
the last `Arc` happens to go. Opening a store starts a thread that holds a
`Weak`: when it upgrades it, sweeps, and lets go again, it owns an `Arc` in
between. The steps below are those of the users of one store and of that thread,
from the moment the store was registered; every commit succeeds.
-/

namespace RustSak

namespace Memo

open Library

namespace Teardown

/-- Where the thread that sweeps on open stands. -/
inductive Sweeper where
  | waiting
  | upgraded
  | swept
  | gone
  deriving DecidableEq

inductive Owner where
  | user
  | sweeper
  deriving DecidableEq

/-- Whether the store's `Drop` has run, and on whose thread. -/
inductive Life where
  | live
  | closing (owner : Owner)
  | closed (owner : Owner)
  deriving DecidableEq

structure State where
  store : DiskStore
  handles : ℕ
  sweeper : Sweeper
  life : Life

inductive Event where
  | call (c : Call)
  | clone
  /-- `open_file` found the store in the registry. -/
  | reopen
  | drop
  | upgrade
  | sweep (now : SystemTime) (redb : Redb) (busy compacts : Bool)
  | release
  /-- What `Drop` commits. -/
  | flush (now : Instant)

def Sweeper.arcs : Sweeper → ℕ
  | waiting => 0
  | upgraded => 1
  | swept => 1
  | gone => 0

/-- The strong count. -/
def State.strong (s : State) : ℕ := s.handles + s.sweeper.arcs

/-- Runs `Drop` on `owner`'s thread if the count has reached zero. -/
def State.released (s : State) (owner : Owner) : State :=
  if s.strong = 0 then { s with life := .closing owner } else s

/-- Whether every commit of the call succeeds. -/
def Commits : Call → Bool
  | .get _ _ _ redb => redb ≠ .fails
  | .set _ _ _ _ redb => redb ≠ .fails
  | .remove _ _ redb => redb ≠ .fails
  | .retain _ _ redb => redb ≠ .fails
  | .cleanup _ redb _ _ => redb ≠ .fails
  | .flush _ redb => redb ≠ .fails

def next (P : Platform) (s : State) : Event → Option State
  | .call c =>
      if 0 < s.handles ∧ Commits c = true then
        some { s with store := (s.store.exec P c).1 }
      else
        none
  | .clone =>
      if 0 < s.handles then some { s with handles := s.handles + 1 } else none
  | .reopen =>
      if 0 < s.strong then some { s with handles := s.handles + 1 } else none
  | .drop =>
      if 0 < s.handles then
        some ({ s with handles := s.handles - 1 }.released .user)
      else
        none
  | .upgrade =>
      if s.sweeper = .waiting then
        some { s with sweeper := if 0 < s.strong then .upgraded else .gone }
      else
        none
  | .sweep now redb busy compacts =>
      if s.sweeper = .upgraded ∧ redb ≠ .fails then
        some { s with
          store := (s.store.cleanup now redb busy compacts).1
          sweeper := .swept }
      else
        none
  | .release =>
      if s.sweeper = .swept then
        some ({ s with sweeper := .gone }.released .sweeper)
      else
        none
  | .flush now =>
      match s.life with
      | .closing owner =>
          some { s with
            store := (s.store.flush now .works).1
            life := .closed owner }
      | _ => none

/-- A store just registered, whose one handle `open_file` returns. -/
def opened (base : Option (Table Key Bytes)) (opts : CacheOpts)
    (now : Instant) : State where
  store := .openOn base opts now
  handles := 1
  sweeper := .waiting
  life := .live

def machine (P : Platform) (base : Option (Table Key Bytes))
    (opts : CacheOpts) : Machine State Event :=
  .ofPartial (fun s => ∃ now, s = opened base opts now) (next P)

/-- No user holds a handle, and no user's drop is still running. -/
def LastDropReturned (s : State) : Prop :=
  s.handles = 0 ∧ s.life ≠ .closing .user

def Settled (s : State) : Prop := CommitLog.undurable s.store.db.log = []

/-- The drop of the last handle finds the sweep thread without an `Arc`, or
nothing left to make durable. -/
def OwnsFlush (s : State) : Event → Prop
  | .drop => s.handles = 1 → s.sweeper.arcs = 0 ∨ Settled s
  | _ => True

/-! ## One step -/

@[simp] theorem handles_released (s : State) (owner : Owner) :
    (s.released owner).handles = s.handles := by
  unfold State.released
  split <;> rfl

@[simp] theorem store_released (s : State) (owner : Owner) :
    (s.released owner).store = s.store := by
  unfold State.released
  split <;> rfl

/-- The flush in `Drop` leaves nothing undurable. -/
theorem settled_flush {store : DiskStore} (h : store.Bounded) (now : Instant) :
    CommitLog.undurable (store.flush now .works).1.db.log = [] := by
  by_cases hp : store.cadence.pending = 0
  · have hle := h.undurable_le
    rw [hp, Nat.le_zero, List.length_eq_zero_iff] at hle
    simpa [DiskStore.flush, hp] using hle
  · simp [DiskStore.flush, hp, DiskStore.commitDurably, Database.commit]

/-- A sweep leaves a settled store settled. -/
theorem settled_cleanup {store : DiskStore}
    (h : CommitLog.undurable store.db.log = []) (now : SystemTime) (redb : Redb)
    (busy compacts : Bool) :
    CommitLog.undurable (store.cleanup now redb busy compacts).1.db.log = [] := by
  cases busy with
  | true => exact h
  | false =>
      cases ho : store.db.openTable redb with
      | table t => simp [DiskStore.cleanup, DiskStore.sweep, ho, Database.commit]
      | doesNotExist => simpa [DiskStore.cleanup, DiskStore.sweep, ho] using h
      | error => simpa [DiskStore.cleanup, DiskStore.sweep, ho] using h

/-- What every run keeps: the store is bounded, and `Drop` runs only at a strong
count of zero. -/
structure Inv (s : State) : Prop where
  bounded : s.store.Bounded
  strong : s.life ≠ .live → s.strong = 0

theorem inv_opened (base : Option (Table Key Bytes)) (opts : CacheOpts)
    (now : Instant) : Inv (opened base opts now) where
  bounded := DiskStore.bounded_openOn base opts now
  strong h := absurd rfl h

theorem Inv.live {s : State} (h : Inv s) (hpos : 0 < s.strong) :
    s.life = .live := by
  by_contra hne
  exact Nat.ne_of_gt hpos (h.strong hne)

theorem Inv.of_live {s : State} (hb : s.store.Bounded) (hl : s.life = .live) :
    Inv s := ⟨hb, fun hne => absurd hl hne⟩

theorem Inv.released {s : State} (h : Inv s) (owner : Owner) :
    Inv (s.released owner) := by
  by_cases hz : s.strong = 0
  · rw [State.released, if_pos hz]
    exact ⟨h.bounded, fun _ => hz⟩
  · rwa [State.released, if_neg hz]

theorem Inv.next {P : Platform} {s s' : State} {e : Event} (h : Inv s)
    (hs : next P s e = some s') : Inv s' := by
  cases e with
  | call c =>
      rw [Teardown.next, Option.ite_none_right_eq_some, Option.some.injEq] at hs
      obtain ⟨_, rfl⟩ := hs
      exact ⟨h.bounded.exec P c, h.strong⟩
  | clone =>
      rw [Teardown.next, Option.ite_none_right_eq_some, Option.some.injEq] at hs
      obtain ⟨hpos, rfl⟩ := hs
      exact .of_live h.bounded (h.live (Nat.add_pos_left hpos _))
  | reopen =>
      rw [Teardown.next, Option.ite_none_right_eq_some, Option.some.injEq] at hs
      obtain ⟨hpos, rfl⟩ := hs
      exact .of_live h.bounded (h.live hpos)
  | drop =>
      rw [Teardown.next, Option.ite_none_right_eq_some, Option.some.injEq] at hs
      obtain ⟨hpos, rfl⟩ := hs
      have hlive := h.live (Nat.add_pos_left hpos _)
      have hinv : Inv { s with handles := s.handles - 1 } :=
        .of_live h.bounded hlive
      exact hinv.released .user
  | upgrade =>
      rw [Teardown.next, Option.ite_none_right_eq_some, Option.some.injEq] at hs
      obtain ⟨hwaiting, rfl⟩ := hs
      refine ⟨h.bounded, fun hne => ?_⟩
      have hz := h.strong hne
      simp only [State.strong, hwaiting, Sweeper.arcs] at hz ⊢
      simp [hz]
  | sweep now redb busy compacts =>
      rw [Teardown.next, Option.ite_none_right_eq_some, Option.some.injEq] at hs
      obtain ⟨⟨hup, _⟩, rfl⟩ := hs
      refine .of_live (h.bounded.exec P (.cleanup ⟨0, now⟩ redb busy compacts)) ?_
      exact h.live (by simp [State.strong, hup, Sweeper.arcs])
  | release =>
      rw [Teardown.next, Option.ite_none_right_eq_some, Option.some.injEq] at hs
      obtain ⟨hswept, rfl⟩ := hs
      have hlive := h.live (by simp [State.strong, hswept, Sweeper.arcs])
      have hinv : Inv { s with sweeper := .gone } := .of_live h.bounded hlive
      exact hinv.released .sweeper
  | flush now =>
      cases hlife : s.life with
      | live => simp [Teardown.next, hlife] at hs
      | closed owner => simp [Teardown.next, hlife] at hs
      | closing owner =>
          simp only [Teardown.next, hlife, Option.some.injEq] at hs
          subst hs
          exact ⟨h.bounded.exec P (.flush ⟨now, 0⟩ .works),
            fun _ => h.strong (by simp [hlife])⟩

/-- A drop of the last handle that does not own the flush returns at once. -/
theorem Inv.drop_returned {P : Platform} {s s' : State} (h : Inv s)
    (hone : s.handles = 1) (harcs : s.sweeper.arcs ≠ 0)
    (hs : Teardown.next P s .drop = some s') :
    s' = { s with handles := 0 } ∧ LastDropReturned s' := by
  rw [Teardown.next, Option.ite_none_right_eq_some, Option.some.injEq] at hs
  obtain ⟨hpos, rfl⟩ := hs
  have hstays : { s with handles := s.handles - 1 }.released .user =
      { s with handles := 0 } := by
    rw [hone]
    exact if_neg (by simp [State.strong, harcs])
  rw [hstays]
  refine ⟨rfl, rfl, ?_⟩
  change s.life ≠ .closing .user
  rw [h.live (Nat.add_pos_left hpos _)]
  exact Life.noConfusion

/-- A drop that leaves no handle and is not inside `Drop` found the sweep
thread's `Arc`. -/
theorem arcs_of_drop_returned {s : State} (hone : s.handles = 1)
    (hlast : LastDropReturned ({ s with handles := s.handles - 1 }.released .user)) :
    s.sweeper.arcs ≠ 0 := by
  intro hz
  refine hlast.2 ?_
  simp [State.released, State.strong, hone, hz]

/-- A step whose drop of the last handle owns the flush leaves a store without
users settled, if the step before did. -/
theorem Inv.settles {P : Platform} {s s' : State} {e : Event} (h : Inv s)
    (hset : LastDropReturned s → Settled s) (howns : OwnsFlush s e)
    (hs : Teardown.next P s e = some s') : LastDropReturned s' → Settled s' := by
  intro hlast
  cases e with
  | call c =>
      rw [Teardown.next, Option.ite_none_right_eq_some, Option.some.injEq] at hs
      obtain ⟨⟨hpos, _⟩, rfl⟩ := hs
      exact absurd hlast.1 (Nat.ne_of_gt hpos)
  | clone =>
      rw [Teardown.next, Option.ite_none_right_eq_some, Option.some.injEq] at hs
      obtain ⟨_, rfl⟩ := hs
      exact absurd hlast.1 (Nat.succ_ne_zero _)
  | reopen =>
      rw [Teardown.next, Option.ite_none_right_eq_some, Option.some.injEq] at hs
      obtain ⟨_, rfl⟩ := hs
      exact absurd hlast.1 (Nat.succ_ne_zero _)
  | drop =>
      rw [Teardown.next, Option.ite_none_right_eq_some, Option.some.injEq] at hs
      obtain ⟨hpos, rfl⟩ := hs
      have hone : s.handles = 1 := by
        have hzero := hlast.1
        rw [handles_released] at hzero
        change s.handles - 1 = 0 at hzero
        omega
      rcases howns hone with harcs | hsettled
      · exact absurd harcs (arcs_of_drop_returned hone hlast)
      · simpa [Settled] using hsettled
  | upgrade =>
      rw [Teardown.next, Option.ite_none_right_eq_some, Option.some.injEq] at hs
      obtain ⟨_, rfl⟩ := hs
      exact hset hlast
  | sweep now redb busy compacts =>
      rw [Teardown.next, Option.ite_none_right_eq_some, Option.some.injEq] at hs
      obtain ⟨_, rfl⟩ := hs
      exact settled_cleanup (hset hlast) now redb busy compacts
  | release =>
      rw [Teardown.next, Option.ite_none_right_eq_some, Option.some.injEq] at hs
      obtain ⟨hswept, rfl⟩ := hs
      have hlive := h.live (by simp [State.strong, hswept, Sweeper.arcs])
      have hbefore : LastDropReturned s := by
        refine ⟨by simpa using hlast.1, ?_⟩
        rw [hlive]
        exact Life.noConfusion
      simpa [Settled] using hset hbefore
  | flush now =>
      cases hlife : s.life with
      | live => simp [Teardown.next, hlife] at hs
      | closed owner => simp [Teardown.next, hlife] at hs
      | closing owner =>
          simp only [Teardown.next, hlife, Option.some.injEq] at hs
          subst hs
          exact settled_flush h.bounded now

/-! ## Runs -/

theorem reachable_inv {P : Platform} {base : Option (Table Key Bytes)}
    {opts : CacheOpts} {s : State} (hs : (machine P base opts).Reachable s) :
    Inv s := by
  refine hs.invariant ?_ fun _ _ _ h hstep => h.next hstep
  rintro _ ⟨now, rfl⟩
  exact inv_opened base opts now

/-- In a run whose drops of the last handle find the sweep thread without an
`Arc`, or nothing to make durable, everything is durable whenever such a drop
has returned; and a drop that finds neither returns at once, with the deferred
writes still undurable. -/
theorem lastDrop_settles (P : Platform) (base : Option (Table Key Bytes))
    (opts : CacheOpts) :
    (∀ s, ((machine P base opts).restrict OwnsFlush).Reachable s →
      LastDropReturned s → Settled s) ∧
    (∀ s s', (machine P base opts).Reachable s → next P s .drop = some s' →
      ¬ OwnsFlush s .drop → LastDropReturned s' ∧ ¬ Settled s') := by
  constructor
  · intro s hs
    have hkept : Inv s ∧ (LastDropReturned s → Settled s) := by
      refine hs.invariant (I := fun s => Inv s ∧ (LastDropReturned s → Settled s))
        ?_ ?_
      · rintro _ ⟨now, rfl⟩
        exact ⟨inv_opened base opts now, fun _ => rfl⟩
      · rintro t e t' ⟨hinv, hset⟩ ⟨howns, hstep⟩
        exact ⟨hinv.next hstep, hinv.settles hset howns hstep⟩
    exact hkept.2
  · intro s s' hs hstep howns
    obtain ⟨hone, hnot⟩ := Classical.not_imp.mp howns
    rw [not_or] at hnot
    obtain ⟨rfl, hlast⟩ := (reachable_inv hs).drop_returned hone hnot.1 hstep
    exact ⟨hlast, hnot.2⟩

/-- With a cadence of 64, a user sets a key and clones the handle while the sweep
thread has an `Arc`, and both handles are dropped once it has let go of it. -/
theorem lastDrop_settles_swept : ∃ s,
    Machine.replay (next ⟨1000, 1000⟩) (opened none (CacheOpts.new.withFlushEvery 64) 0)
      [.upgrade, .call (.set "k" [1] 10 ⟨0, 0⟩ .works), .clone, .drop, .sweep 0 .works false false,
        .release, .call (.set "j" [2] 10 ⟨1, 1⟩ .works), .drop, .flush 2] = some s ∧
      LastDropReturned s ∧ Settled s := by
  have hstart : ((machine ⟨1000, 1000⟩ none (CacheOpts.new.withFlushEvery 64)).restrict
      OwnsFlush).Reachable (opened none (CacheOpts.new.withFlushEvery 64) 0) := .start ⟨0, rfl⟩
  have hset := ((hstart.next (e := Event.upgrade) ⟨trivial, rfl⟩).next
    (e := Event.call (.set "k" [1] 10 ⟨0, 0⟩ .works)) ⟨trivial, rfl⟩).next
    (e := Event.clone) ⟨trivial, rfl⟩
  have hreleased := ((hset.next (e := Event.drop) ⟨fun hone => absurd hone (by decide), rfl⟩).next
    (e := Event.sweep 0 .works false false) ⟨trivial, rfl⟩).next (e := Event.release) ⟨trivial, rfl⟩
  have hdropped := (hreleased.next (e := Event.call (.set "j" [2] 10 ⟨1, 1⟩ .works))
    ⟨trivial, rfl⟩).next (e := Event.drop) ⟨fun _ => .inl rfl, rfl⟩
  have hflushed := hdropped.next (e := Event.flush 2) ⟨trivial, rfl⟩
  have hlast := (lastDrop_settles ⟨1000, 1000⟩ none (CacheOpts.new.withFlushEvery 64)).1 _ hflushed
  exact ⟨_, rfl, ⟨rfl, by decide⟩, hlast ⟨rfl, by decide⟩⟩

/-- With a cadence of 64, the sweep thread upgrades, the user sets a key and
drops the handle: the drop returns with the set still deferred. -/
theorem lastDrop_leaves_undurable :
    ¬ ∀ (P : Platform) (base : Option (Table Key Bytes)) (opts : CacheOpts)
        (s : State), (machine P base opts).Reachable s →
        LastDropReturned s → Settled s := by
  intro h
  let P : Platform := ⟨1000, 1000⟩
  let opts := CacheOpts.new.withFlushEvery 64
  let events : List Event :=
    [.upgrade, .call (.set "k" [1] 10 ⟨0, 0⟩ .works), .drop]
  have hrun : ∃ s, Machine.replay (next P) (opened none opts 0) events = some s ∧
      LastDropReturned s ∧ ¬ Settled s := by
    exact ⟨_, rfl, ⟨rfl, by decide⟩, List.cons_ne_nil _ _⟩
  obtain ⟨s, hs, hlast, hnot⟩ := hrun
  exact hnot (h P none opts s ⟨_, Machine.run_of_replay ⟨0, rfl⟩ hs⟩ hlast)

end Teardown

end Memo

end RustSak
