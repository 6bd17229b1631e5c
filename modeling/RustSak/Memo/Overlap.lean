import RustSak.Memo.Agreement
import RustSak.Library.Machine

/-!
# Calls that overlap

A call of a two-tier store is two or three operations on single tiers, and no
lock spans them. Here every such operation is a step of its own, of any number
of callers; no tier fails and every write is admitted. Writers whose two
operations land in opposite orders leave the tiers apart for good
(`tiers_diverge`). They agree in every run that is `InStep`: when a call reaches
memory, the disk still holds what the call has put or found there, or the call
that has replaced it has its own memory operation still to come.
-/

namespace RustSak

namespace Memo

open Library

namespace Overlap

/-- What is left of a call that has begun. -/
inductive InFlight where
  | getting (key : Key)
  | promoting (key : Key) (entry : Entry)
  | setting (key : Key) (value : Bytes) (ttl : Duration)
  | removing (key : Key)
  deriving DecidableEq

variable {ι : Type}

structure State (ι : Type) where
  store : CompositeStore
  callers : ι → Option InFlight

inductive Event (ι : Type) where
  | memoryGet (p : ι) (key : Key) (now : Instant)
  | diskGet (p : ι) (key : Key) (now : SystemTime)
  | promote (p : ι) (key : Key) (entry : Entry) (now : Instant)
  | diskSet (p : ι) (key : Key) (value : Bytes) (ttl : Duration) (now : Now)
  | memorySet (p : ι) (key : Key) (value : Bytes) (ttl : Duration) (now : Instant)
  | diskRemove (p : ι) (key : Key) (now : Now)
  | memoryRemove (p : ι) (key : Key) (now : Instant)
  | evict (doomed : Key → Bool)

def State.move [DecidableEq ι] (s : State ι) (p : ι) (w : Option InFlight) :
    State ι :=
  { s with callers := Function.update s.callers p w }

def State.withMemory (s : State ι) (memory : MemoryStore) : State ι :=
  { s with store := { s.store with memory := memory } }

def State.withDisk (s : State ι) (disk : DiskStore) : State ι :=
  { s with store := { s.store with disk := disk } }

def Enabled (s : State ι) : Event ι → Prop
  | .memoryGet p _ _ => s.callers p = none
  | .diskGet p key _ => s.callers p = some (.getting key)
  | .promote p key entry _ => s.callers p = some (.promoting key entry)
  | .diskSet p _ _ ttl _ => s.callers p = none ∧ ttl ≠ 0
  | .memorySet p key value ttl _ =>
      s.callers p = some (.setting key value ttl) ∧
        s.store.memory.admits value ttl = true
  | .diskRemove p _ _ => s.callers p = none
  | .memoryRemove p key _ => s.callers p = some (.removing key)
  | .evict _ => True

instance (s : State ι) (e : Event ι) : Decidable (Enabled s e) :=
  match e with
  | .memoryGet .. | .diskGet .. | .promote .. | .diskRemove ..
  | .memoryRemove .. => inferInstanceAs (Decidable (_ = _))
  | .diskSet .. => inferInstanceAs (Decidable (_ = _ ∧ ¬_ = _))
  | .memorySet .. => inferInstanceAs (Decidable (_ = _ ∧ _ = _))
  | .evict _ => inferInstanceAs (Decidable True)

def next [DecidableEq ι] (P : Platform) (s : State ι) : Event ι → State ι
  | .memoryGet p key now =>
      s.move p (if (s.store.memory.get key now).isSome then none
        else some (.getting key))
  | .diskGet p key now =>
      s.move p (match s.store.disk.get key now .works with
        | .ok (some entry) =>
            if s.store.promoteTtl = 0 then none else some (.promoting key entry)
        | _ => none)
  | .promote p key entry now =>
      (s.withMemory (s.store.promote P key entry now)).move p none
  | .diskSet p key value ttl now =>
      (s.withDisk (s.store.disk.set P key value ttl now .works).1).move p
        (some (.setting key value ttl))
  | .memorySet p key value ttl now =>
      (s.withMemory (s.store.memory.set P key value ttl now).1).move p none
  | .diskRemove p key now =>
      (s.withDisk (s.store.disk.remove key now .works).1).move p
        (some (.removing key))
  | .memoryRemove p key now =>
      (s.withMemory (s.store.memory.remove key now).1).move p none
  | .evict doomed => s.withMemory (s.store.memory.evict doomed)

def machine [DecidableEq ι] (P : Platform) (base : Option (Table Key Bytes))
    (opts : CacheOpts) (promoteTtl : Duration) : Machine (State ι) (Event ι) :=
  .guarded
    (fun s => (∃ at', s.store =
      .withDisk (.openOn base opts at') opts promoteTtl) ∧
      ∀ p, s.callers p = none)
    Enabled (next P)

/-- What the disk holds under a key: nothing, or a record and the value in
it. -/
def State.onDisk (s : State ι) (key : Key) : Option (Option Bytes) :=
  (s.store.disk.db.records.lookup key).map fun record =>
    (split record).map Prod.snd

/-- The key whose memory operation is still to come, and what the call has left
on disk under it. -/
def InFlight.owes : InFlight → Option (Key × Option (Option Bytes))
  | setting key value _ => some (key, some (some value))
  | removing key => some (key, none)
  | _ => none

/-- The call that put on disk what is there now has yet to reach memory. -/
def State.Owed (s : State ι) (q : ι) (key : Key) : Prop :=
  ∃ w, s.callers q = some w ∧ w.owes = some (key, s.onDisk key)

/-- A call that reaches memory finds on disk what it has put or found there, or
what a call that has yet to reach memory has put there. -/
def InStep (s : State ι) : Event ι → Prop
  | .promote p key entry _ =>
      s.onDisk key = some (some entry.value) ∨ ∃ q, q ≠ p ∧ s.Owed q key
  | .memorySet p key value _ _ =>
      s.onDisk key = some (some value) ∨ ∃ q, q ≠ p ∧ s.Owed q key
  | .memoryRemove p key _ =>
      s.onDisk key = none ∨ ∃ q, q ≠ p ∧ s.Owed q key
  | _ => True

/-- Whether, of the `set` and `remove` calls of the key, the one that completed
last was a `remove`. -/
def removedLast : List (Event ι) → Key → Prop
  | [], _ => False
  | .memorySet _ key _ _ _ :: past, k => k ≠ key ∧ removedLast past k
  | .memoryRemove _ key _ :: past, k => k = key ∨ removedLast past k
  | _ :: past, k => removedLast past k

/-- The memory entry is what the disk holds, and a key removed last is not on
disk. -/
structure Settled (es : List (Event ι)) (s : State ι) (key : Key) : Prop where
  memory : ∀ e, s.store.memory.cache.lookup key = some e →
    s.onDisk key = some (some e.value)
  removed : removedLast es key → s.onDisk key = none

/-! ## One step -/

section Fields

variable [DecidableEq ι] (s : State ι) (p : ι) (w : Option InFlight)

@[simp] theorem onDisk_move (key : Key) :
    (s.move p w).onDisk key = s.onDisk key := rfl

theorem callers_move_of_ne {q : ι} (h : q ≠ p) :
    (s.move p w).callers q = s.callers q := Function.update_of_ne h ..

end Fields

theorem onDisk_diskSet (P : Platform) (s : State ι) (key : Key) (value : Bytes)
    {ttl : Duration} (httl : ttl ≠ 0) (now : Now) (k : Key) :
    (s.withDisk (s.store.disk.set P key value ttl now .works).1).onDisk k =
      if k = key then some (some value) else s.onDisk k := by
  simp only [State.onDisk, State.withDisk, DiskStore.set, if_neg httl,
    Database.openTable, Database.records_commit_set, Table.lookup_insert]
  split
  · simp [value_encodeRecord]
  · rfl

theorem onDisk_diskRemove (s : State ι) (key : Key) (now : Now) (k : Key) :
    (s.withDisk (s.store.disk.remove key now .works).1).onDisk k =
      if k = key then none else s.onDisk k := by
  simp only [State.onDisk, State.withDisk, DiskStore.remove,
    Database.openTable, DiskStore.commitDurably, Database.records_commit_remove,
    Table.lookup_erase]
  split <;> rfl

theorem State.Owed.of_callers {s s' : State ι} {q : ι} {key : Key} (h : s.Owed q key)
    (hcallers : s'.callers q = s.callers q)
    (hdisk : s'.onDisk key = s.onDisk key) : s'.Owed q key := by
  obtain ⟨w, hw, howes⟩ := h
  exact ⟨w, hcallers.trans hw, by rw [hdisk, howes]⟩

/-- What holds of one key. -/
def Good (es : List (Event ι)) (s : State ι) (key : Key) : Prop :=
  Settled es s key ∨ ∃ q, s.Owed q key

/-- A step that leaves the disk alone under a key, adds nothing to memory there
and lets no debtor go keeps what holds of the key. -/
theorem Good.frame {es es' : List (Event ι)} {s s' : State ι} {key : Key}
    (h : Good es s key)
    (hmemory : ∀ e, s'.store.memory.cache.lookup key = some e →
      s.store.memory.cache.lookup key = some e)
    (hdisk : s'.onDisk key = s.onDisk key)
    (hremoved : removedLast es' key → removedLast es key)
    (howed : ∀ q, s.Owed q key → s'.callers q = s.callers q) :
    Good es' s' key := by
  rcases h with h | ⟨q, hq⟩
  · refine .inl ⟨fun e he => ?_, fun hr => ?_⟩
    · rw [hdisk]
      exact h.memory e (hmemory e he)
    · rw [hdisk]
      exact h.removed (hremoved hr)
  · exact .inr ⟨q, hq.of_callers (howed q hq) hdisk⟩

/-- A caller that owes nothing under a key is none of its debtors. -/
theorem State.Owed.ne {s : State ι} {p q : ι} {key : Key} (h : s.Owed q key)
    (hp : ∀ w, s.callers p = some w → ∀ v, w.owes ≠ some (key, v)) : q ≠ p := by
  rintro rfl
  obtain ⟨w, hw, howes⟩ := h
  exact hp w hw _ howes

/-- A step of one caller that touches no tier under a key, where that caller
owes nothing. -/
theorem Good.step [DecidableEq ι] {es es' : List (Event ι)} {s s' : State ι}
    {key : Key} {p : ι} {w : Option InFlight} (h : Good es s key)
    (hp : ∀ w, s.callers p = some w → ∀ v, w.owes ≠ some (key, v))
    (hmemory : ∀ e, s'.store.memory.cache.lookup key = some e →
      s.store.memory.cache.lookup key = some e)
    (hdisk : s'.onDisk key = s.onDisk key)
    (hremoved : removedLast es' key → removedLast es key)
    (hcallers : s'.callers = s.callers) : Good es' (s'.move p w) key := by
  refine h.frame hmemory hdisk hremoved fun q hq => ?_
  rw [callers_move_of_ne s' p w (hq.ne hp), hcallers]

/-- Somebody else's debt outlives a caller's return. -/
theorem good_of_owed [DecidableEq ι] {es : List (Event ι)} {s s' : State ι}
    {key : Key} {p q : ι} (hq : s.Owed q key) (hne : q ≠ p)
    (hdisk : s'.onDisk key = s.onDisk key) (hcallers : s'.callers = s.callers) :
    Good es (s'.move p none) key := by
  refine .inr ⟨q, hq.of_callers ?_ hdisk⟩
  rw [callers_move_of_ne s' p none hne, hcallers]

theorem lookup_promote {P : Platform} {s : CompositeStore} {key k : Key}
    {entry : Entry} {now : Instant} {e : MemoryEntry}
    (h : (s.promote P key entry now).cache.lookup k = some e) :
    (k = key ∧ e.value = entry.value) ∨ s.memory.cache.lookup k = some e := by
  unfold CompositeStore.promote at h
  split at h
  · exact .inr h
  · rw [MemoryStore.lookup_set] at h
    split at h
    · rename_i hk
      rw [Option.some.injEq] at h
      exact .inl ⟨hk.2, by rw [← h]⟩
    · exact .inr h

section Steps

variable [DecidableEq ι] {P : Platform} {es : List (Event ι)} {s : State ι}
  {key : Key}

theorem Good.promote (h : Good es s key) {p : ι} {k : Key} {entry : Entry}
    {now : Instant} (hp : s.callers p = some (.promoting k entry))
    (hin : InStep s (.promote p k entry now)) :
    Good (.promote p k entry now :: es) (next P s (.promote p k entry now)) key := by
  by_cases hk : key = k
  · subst hk
    rcases hin with hdisk | ⟨q, hne, hq⟩
    · rcases h with h | ⟨q, hq⟩
      · refine .inl ⟨fun e he => ?_, h.removed⟩
        rcases lookup_promote he with ⟨_, hv⟩ | he
        · rw [hv]
          exact hdisk
        · exact h.memory e he
      · exact good_of_owed hq (hq.ne (by simp [hp, InFlight.owes])) rfl rfl
    · exact good_of_owed hq hne rfl rfl
  · refine h.step (by simp [hp, InFlight.owes]) (fun e he => ?_) rfl
      (fun hr => hr) rfl
    rcases lookup_promote he with ⟨hk', _⟩ | he
    · exact absurd hk' hk
    · exact he

theorem Good.diskSet (h : Good es s key) {p : ι} {k : Key} {value : Bytes}
    {ttl : Duration} {now : Now} (hp : s.callers p = none) (httl : ttl ≠ 0) :
    Good (.diskSet p k value ttl now :: es)
      (next P s (.diskSet p k value ttl now)) key := by
  have hdisk := onDisk_diskSet P s k value httl now key
  by_cases hk : key = k
  · -- the caller now owes what it has just put on disk
    refine .inr ⟨p, .setting k value ttl, Function.update_self .., ?_⟩
    rw [if_pos hk] at hdisk
    rw [next, onDisk_move, hdisk, hk]
    rfl
  · rw [if_neg hk] at hdisk
    exact h.step (by simp [hp]) (fun _ he => he) hdisk (fun hr => hr) rfl

theorem Good.memorySet (h : Good es s key) {p : ι} {k : Key} {value : Bytes}
    {ttl : Duration} {now : Instant}
    (hp : s.callers p = some (.setting k value ttl))
    (hadm : s.store.memory.admits value ttl = true)
    (hin : InStep s (.memorySet p k value ttl now)) :
    Good (.memorySet p k value ttl now :: es)
      (next P s (.memorySet p k value ttl now)) key := by
  have hlookup := MemoryStore.lookup_set P s.store.memory k value ttl now key
  by_cases hk : key = k
  · rw [if_pos ⟨hadm, hk⟩] at hlookup
    subst hk
    rcases hin with hdisk | ⟨q, hne, hq⟩
    · refine .inl ⟨fun e he => ?_, fun hr => absurd rfl hr.1⟩
      obtain rfl := Option.some.inj (hlookup.symm.trans he)
      exact hdisk
    · exact good_of_owed hq hne rfl rfl
  · rw [if_neg fun hand => hk hand.2] at hlookup
    refine h.step ?_ (fun e he => hlookup.symm.trans he) rfl (fun hr => hr.2) rfl
    simp [hp, InFlight.owes, Ne.symm hk]

theorem Good.diskRemove (h : Good es s key) {p : ι} {k : Key} {now : Now}
    (hp : s.callers p = none) :
    Good (.diskRemove p k now :: es) (next P s (.diskRemove p k now)) key := by
  have hdisk := onDisk_diskRemove s k now key
  by_cases hk : key = k
  · refine .inr ⟨p, .removing k, Function.update_self .., ?_⟩
    rw [if_pos hk] at hdisk
    rw [next, onDisk_move, hdisk, hk]
    rfl
  · rw [if_neg hk] at hdisk
    exact h.step (by simp [hp]) (fun _ he => he) hdisk (fun hr => hr) rfl

theorem Good.memoryRemove (h : Good es s key) {p : ι} {k : Key} {now : Instant}
    (hp : s.callers p = some (.removing k))
    (hin : InStep s (.memoryRemove p k now)) :
    Good (.memoryRemove p k now :: es) (next P s (.memoryRemove p k now)) key := by
  have hlookup := MemoryStore.lookup_remove s.store.memory k now key
  by_cases hk : key = k
  · rw [if_pos hk] at hlookup
    subst hk
    rcases hin with hdisk | ⟨q, hne, hq⟩
    · refine .inl ⟨fun e he => ?_, fun _ => hdisk⟩
      cases hlookup.symm.trans he
    · exact good_of_owed hq hne rfl rfl
  · rw [if_neg hk] at hlookup
    refine h.step ?_ (fun e he => hlookup.symm.trans he) rfl
      (fun hr => hr.resolve_left hk) rfl
    simp [hp, InFlight.owes, Ne.symm hk]

theorem Good.next (h : Good es s key) {e : Event ι} (he : Enabled s e)
    (hin : InStep s e) : Good (e :: es) (Overlap.next P s e) key := by
  cases e with
  | memoryGet p k now =>
      have hp : s.callers p = none := he
      exact h.step (by simp [hp]) (fun _ he => he) rfl (fun hr => hr) rfl
  | diskGet p k now =>
      have hp : s.callers p = some (.getting k) := he
      exact h.step (by simp [hp, InFlight.owes]) (fun _ he => he) rfl
        (fun hr => hr) rfl
  | promote p k entry now => exact h.promote he hin
  | diskSet p k value ttl now => exact h.diskSet he.1 he.2
  | memorySet p k value ttl now => exact h.memorySet he.1 he.2 hin
  | diskRemove p k now => exact h.diskRemove he
  | memoryRemove p k now => exact h.memoryRemove he hin
  | evict doomed =>
      refine h.frame (fun e he => ?_) rfl (fun hr => hr) fun _ _ => rfl
      exact ((MemoryStore.lookup_evict _ _ _ _).mp he).1

end Steps

/-! ## Runs -/

/-- No call is in flight. -/
def State.Quiet (s : State ι) : Prop := ∀ p, s.callers p = none

/-- In a run whose calls are in step, whenever no call is in flight, a memory
entry holds the value of the disk record under its key, and a key whose `set`
and `remove` calls ended with a `remove` is in neither tier. -/
theorem tiers_agree_of_inStep [DecidableEq ι] (P : Platform)
    (base : Option (Table Key Bytes)) (opts : CacheOpts) (promoteTtl : Duration)
    {es : List (Event ι)} {s : State ι}
    (hr : ((machine P base opts promoteTtl).restrict InStep).Run es s)
    (hquiet : s.Quiet) (key : Key) :
    (∀ e, s.store.memory.cache.lookup key = some e →
      ∃ record, s.store.disk.db.records.lookup key = some record ∧
        (split record).map Prod.snd = some e.value) ∧
    (removedLast es key → s.store.memory.cache.lookup key = none ∧
      s.store.disk.db.records.lookup key = none) := by
  have hgood : Good es s key := by
    refine hr.invariant (I := fun es s => Good es s key) ?_ ?_
    · rintro s ⟨⟨at', hstore⟩, _⟩
      refine .inl ⟨fun e he => ?_, fun hr => hr.elim⟩
      rw [hstore] at he
      cases he
    · rintro es e s _ _ hgood ⟨hin, he, rfl⟩
      exact hgood.next he hin
  rcases hgood with h | ⟨q, w, hw, _⟩
  · constructor
    · intro e he
      exact Option.map_eq_some_iff.mp (h.memory e he)
    · intro hremoved
      have hnone := h.removed hremoved
      refine ⟨?_, Option.map_eq_none_iff.mp hnone⟩
      cases he : s.store.memory.cache.lookup key with
      | none => rfl
      | some e => cases hnone.symm.trans (h.memory e he)
  · rw [hquiet q] at hw
    cases hw

/-- A value is set and leaves the memory tier. A reader finds it on disk, and puts it back in memory
after a writer has put another one on disk and before that writer reaches memory. -/
def promotedMeanwhile : List (Event ℕ) :=
  [.diskSet 1 "k" [1] 10000000 ⟨0, 0⟩, .memorySet 1 "k" [1] 10000000 0, .evict fun _ => true,
    .memoryGet 2 "k" 0, .diskGet 2 "k" 0, .diskSet 3 "k" [2] 10000000 ⟨0, 0⟩,
    .promote 2 "k" ⟨[1], some 10000000⟩ 0, .memorySet 3 "k" [2] 10000000 0]

theorem tiers_agree_of_inStep_promotedMeanwhile :
    let P : Platform := ⟨1000000000, 1000000000⟩
    let s : State ℕ := ⟨.withDisk (.openOn none .new 0) .new 5000000, fun _ => none⟩
    let s' := promotedMeanwhile.foldl (next P) s
    (∃ e, s'.store.memory.cache.lookup "k" = some e) ∧
      ∀ e, s'.store.memory.cache.lookup "k" = some e →
        ∃ record, s'.store.disk.db.records.lookup "k" = some record ∧
          (split record).map Prod.snd = some e.value := by
  intro P s s'
  have hstart : ((machine P none .new 5000000).restrict InStep).Run [] s :=
    .start ⟨⟨0, rfl⟩, fun _ => rfl⟩
  have hlegal : Machine.Legal (fun t e => InStep t e ∧ Enabled t e) (next P) s
      promotedMeanwhile := by
    refine ⟨⟨trivial, by decide⟩, ⟨.inl rfl, by decide⟩, ⟨trivial, trivial⟩, ⟨trivial, by decide⟩,
      ⟨trivial, by decide⟩, ⟨trivial, by decide⟩, ⟨.inr ⟨3, by decide, _, rfl, rfl⟩, by decide⟩,
      ⟨.inl rfl, by decide⟩, trivial⟩
  have hrun := Machine.Run.legal_restrict hstart hlegal
  refine ⟨⟨_, rfl⟩, (tiers_agree_of_inStep P none .new 5000000 hrun ?_ "k").1⟩
  intro p
  simp only [promotedMeanwhile, s, next, State.move, List.foldl_cons, List.foldl_nil,
    State.withDisk, State.withMemory, Function.update_apply]
  split_ifs <;> rfl

/-- Two writers: the second reaches both tiers between the two operations of the
first. -/
theorem tiers_diverge :
    ¬ ∀ (P : Platform) (base : Option (Table Key Bytes)) (opts : CacheOpts)
        (promoteTtl : Duration) (s : State ℕ),
        (machine P base opts promoteTtl).Reachable s → s.Quiet →
        ∀ key (now : Now) entry entry',
          s.store.memory.get key now.instant = some entry →
          s.store.disk.serves key now.wall = some entry' →
            entry.value = entry'.value := by
  intro h
  let P : Platform := ⟨1000000000, 1000000000⟩
  let start : State ℕ := ⟨.withDisk (.openOn none .new 0) .new 0, fun _ => none⟩
  let ttl : Duration := 10 * nanosPerMilli
  let events : List (Event ℕ) :=
    [.diskSet 1 "k" [1] ttl ⟨0, 0⟩, .diskSet 2 "k" [2] ttl ⟨0, 0⟩,
      .memorySet 2 "k" [2] ttl 0, .memorySet 1 "k" [1] ttl 0]
  have hr : (machine P none .new 0).Reachable (events.foldl (next P) start) :=
    Machine.Reachable.legal (.start ⟨⟨0, rfl⟩, fun _ => rfl⟩) (by decide)
  have hquiet : (events.foldl (next P) start).Quiet := by
    intro p
    simp only [events, start, next, State.move, List.foldl_cons, List.foldl_nil,
      State.withDisk, State.withMemory, Function.update_apply]
    split_ifs <;> rfl
  exact absurd (h P none .new 0 _ hr hquiet "k" ⟨0, 0⟩ ⟨[1], some ttl⟩
    ⟨[2], some ttl⟩ (by decide) (by decide)) (by decide)

end Overlap

end Memo

end RustSak
