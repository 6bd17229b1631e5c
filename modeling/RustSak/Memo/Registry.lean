import RustSak.Library.Machine
import Mathlib.Logic.Function.Basic

/-!
# One live store per cache file

The process keeps the disk stores it has open in a registry, under a lock, keyed
by the canonicalized path. The steps below are those of any number of threads
inside `open_file` and of the `Drop` of any number of stores; clones, weak
upgrades and releases only move a strong count. A path names a file through
`fileOf`, and two paths may name the same one: what excludes two databases on a
file is redb's own lock on it, which another process may hold as well.
-/

namespace RustSak

namespace Memo

open Library

namespace Registry

def openAttempts : ℕ := 25

/-- Where a store stands. From `flushing` on its `Drop` runs; from `evicting` to
`unlocking` that thread holds the registry's lock. -/
inductive Phase where
  | live
  | flushing
  | evicting
  | closing
  | unlocking
  | gone
  deriving DecidableEq

/-- The database is closed by leaving `closing`. -/
def Phase.isOpen : Phase → Bool
  | live | flushing | evicting | closing => true
  | unlocking | gone => false

/-- `Drop` has yet to look at the registry. -/
def Phase.unevicted : Phase → Bool
  | live | flushing | evicting => true
  | closing | unlocking | gone => false

def Phase.locksRegistry : Phase → Bool
  | evicting | closing | unlocking => true
  | live | flushing | gone => false

variable {κ φ : Type}

structure Store (κ : Type) where
  file : κ
  generation : UInt64
  strong : ℕ
  phase : Phase
  deriving DecidableEq

/-- Where a thread stands in `open_file`. From `created` on it holds an open
database; in `registering` and `inserting` it holds the registry's lock. -/
inductive Opener (κ : Type) where
  | idle
  | looking (file : κ) (attempt : ℕ)
  | creating (file : κ) (attempt : ℕ)
  | created (file : κ)
  | registering (file : κ)
  | inserting (file : κ) (id : ℕ)
  | discarding (file : κ)
  deriving DecidableEq

/-- The file whose database the thread itself holds open. -/
def Opener.holds : Opener κ → Option κ
  | created file => some file
  | registering file => some file
  | discarding file => some file
  | _ => none

inductive Holder where
  | opener (thread : ℕ)
  | store (id : ℕ)
  /-- Another process. -/
  | other
  deriving DecidableEq

structure State (κ φ : Type) where
  registry : κ → Option (UInt64 × ℕ)
  generation : UInt64
  stores : ℕ → Option (Store κ)
  openers : ℕ → Opener κ
  /-- The registry's lock. -/
  mutex : Option Holder
  /-- redb's lock on each file. -/
  locks : φ → Option Holder

def State.empty : State κ φ where
  registry _ := none
  generation := 0
  stores _ := none
  openers _ := .idle
  mutex := none
  locks _ := none

inductive Event (κ φ : Type) where
  | openFile (t : ℕ) (file : κ)
  | registered (t : ℕ) (file : κ) (attempt : ℕ)
  | create (t : ℕ) (file : κ) (attempt : ℕ)
  | alreadyOpen (t : ℕ) (file : κ) (attempt : ℕ)
  | createFails (t : ℕ) (file : κ) (attempt : ℕ)
  | lock (t : ℕ) (file : κ)
  | register (t : ℕ) (file : κ) (id : ℕ)
  | insert (t : ℕ) (file : κ) (id : ℕ) (store : Store κ)
  | discard (t : ℕ) (file : κ)
  | clone (id : ℕ) (store : Store κ)
  | release (id : ℕ) (store : Store κ)
  | flush (id : ℕ) (store : Store κ)
  | evict (id : ℕ) (store : Store κ)
  | close (id : ℕ) (store : Store κ)
  | unlock (id : ℕ) (store : Store κ)
  | otherLocks (file : φ)
  | otherUnlocks (file : φ)

/-- The store that the registry's entry for `file` can still be upgraded to. -/
def State.upgrade (s : State κ φ) (file : κ) : Option (ℕ × Store κ) :=
  (s.registry file).bind fun entry =>
    (s.stores entry.2).bind fun store =>
      if 0 < store.strong then some (entry.2, store) else none

def State.move (s : State κ φ) (t : ℕ) (o : Opener κ) : State κ φ :=
  { s with openers := Function.update s.openers t o }

def State.put (s : State κ φ) (id : ℕ) (store : Store κ) : State κ φ :=
  { s with stores := Function.update s.stores id (some store) }

def State.hold [DecidableEq φ] (s : State κ φ) (file : φ) (h : Option Holder) :
    State κ φ :=
  { s with locks := Function.update s.locks file h }

def State.entry [DecidableEq κ] (s : State κ φ) (file : κ)
    (e : Option (UInt64 × ℕ)) : State κ φ :=
  { s with registry := Function.update s.registry file e }

def State.withMutex (s : State κ φ) (h : Option Holder) : State κ φ :=
  { s with mutex := h }

/-- When a step may be taken. -/
def Enabled (fileOf : κ → φ) (s : State κ φ) : Event κ φ → Prop
  | .openFile t _ => s.openers t = .idle
  | .registered t file attempt =>
      s.openers t = .looking file attempt ∧ s.mutex = none
  | .create t file attempt =>
      s.openers t = .creating file attempt ∧ s.locks (fileOf file) = none
  | .alreadyOpen t file attempt =>
      s.openers t = .creating file attempt ∧ s.locks (fileOf file) ≠ none
  | .createFails t file attempt => s.openers t = .creating file attempt
  | .lock t file => s.openers t = .created file ∧ s.mutex = none
  | .register t file id =>
      s.openers t = .registering file ∧ s.stores id = none
  | .insert t file id store =>
      s.openers t = .inserting file id ∧ s.stores id = some store
  | .discard t file => s.openers t = .discarding file
  | .clone id store => s.stores id = some store ∧ 0 < store.strong
  | .release id store => s.stores id = some store ∧ 0 < store.strong
  | .flush id store =>
      s.stores id = some store ∧ store.phase = .flushing ∧ s.mutex = none
  | .evict id store => s.stores id = some store ∧ store.phase = .evicting
  | .close id store => s.stores id = some store ∧ store.phase = .closing
  | .unlock id store => s.stores id = some store ∧ store.phase = .unlocking
  | .otherLocks file => s.locks file = none
  | .otherUnlocks file => s.locks file = some .other

instance [DecidableEq κ] [DecidableEq φ] (fileOf : κ → φ) (s : State κ φ)
    (e : Event κ φ) : Decidable (Enabled fileOf s e) :=
  match e with
  | .openFile .. | .createFails .. | .discard .. | .otherLocks _
  | .otherUnlocks _ => inferInstanceAs (Decidable (_ = _))
  | .flush .. => inferInstanceAs (Decidable (_ = _ ∧ _ = _ ∧ _ = _))
  | .clone .. | .release .. => inferInstanceAs (Decidable (_ = _ ∧ _ < _))
  | .alreadyOpen .. => inferInstanceAs (Decidable (_ = _ ∧ ¬_ = _))
  | .registered .. | .create .. | .lock .. | .register .. | .insert ..
  | .evict .. | .close .. | .unlock .. =>
      inferInstanceAs (Decidable (_ = _ ∧ _ = _))

def next [DecidableEq κ] [DecidableEq φ] (fileOf : κ → φ) (s : State κ φ) :
    Event κ φ → State κ φ
  | .openFile t file => s.move t (.looking file 0)
  | .registered t file attempt =>
      match s.upgrade file with
      | some (id, store) =>
          (s.put id { store with strong := store.strong + 1 }).move t .idle
      | none => (s.entry file none).move t (.creating file attempt)
  | .create t file _ =>
      (s.hold (fileOf file) (some (.opener t))).move t (.created file)
  | .alreadyOpen t file attempt =>
      s.move t (if attempt + 1 < openAttempts then
        .looking file (attempt + 1) else .idle)
  | .createFails t _ _ => s.move t .idle
  | .lock t file =>
      (s.withMutex (some (.opener t))).move t (.registering file)
  | .register t file id =>
      match s.upgrade file with
      | some (other, store) =>
          -- Someone finished opening this path first.
          ((s.put other { store with strong := store.strong + 1 }).withMutex
            none).move t (.discarding file)
      | none =>
          (({ s with generation := s.generation + 1 }.put id
            ⟨file, s.generation, 1, .live⟩).hold (fileOf file)
              (some (.store id))).move t (.inserting file id)
  | .insert t file id store =>
      ((s.entry file (some (store.generation, id))).withMutex none).move t .idle
  | .discard t file => (s.hold (fileOf file) none).move t .idle
  | .clone id store => s.put id { store with strong := store.strong + 1 }
  | .release id store =>
      s.put id { store with
        strong := store.strong - 1
        phase := if store.strong = 1 then .flushing else store.phase }
  | .flush id store =>
      (s.withMutex (some (.store id))).put id { store with phase := .evicting }
  | .evict id store =>
      (if (s.registry store.file).any fun e => e.1 == store.generation then
        s.entry store.file none else s).put id { store with phase := .closing }
  | .close id store =>
      (s.hold (fileOf store.file) none).put id { store with phase := .unlocking }
  | .unlock id store =>
      (s.withMutex none).put id { store with phase := .gone }
  | .otherLocks file => s.hold file (some .other)
  | .otherUnlocks file => s.hold file none

def machine [DecidableEq κ] [DecidableEq φ] (fileOf : κ → φ) :
    Machine (State κ φ) (Event κ φ) :=
  .guarded (fun s => s = .empty) (Enabled fileOf) (next fileOf)

/-- What holds at every intermediate state. -/
structure Inv (fileOf : κ → φ) (s : State κ φ) : Prop where
  opener_holds : ∀ t file, (s.openers t).holds = some file →
    s.locks (fileOf file) = some (.opener t)
  store_holds : ∀ id store, s.stores id = some store →
    store.phase.isOpen = true → s.locks (fileOf store.file) = some (.store id)
  strong_live : ∀ id store, s.stores id = some store →
    0 < store.strong → store.phase = .live
  store_mutex : ∀ id store, s.stores id = some store →
    store.phase.locksRegistry = true → s.mutex = some (.store id)
  inserting_mutex : ∀ t file id, s.openers t = .inserting file id →
    s.mutex = some (.opener t)
  inserting_store : ∀ t file id, s.openers t = .inserting file id →
    ∃ store, s.stores id = some store ∧ store.file = file ∧
      store.phase.unevicted = true
  registering_mutex : ∀ t file, s.openers t = .registering file →
    s.mutex = some (.opener t)
  entry_store : ∀ file g id, s.registry file = some (g, id) →
    ∃ store, s.stores id = some store ∧ store.file = file ∧
      store.generation = g ∧ store.phase.unevicted = true

theorem isOpen_of_unevicted {p : Phase} (h : p.unevicted = true) :
    p.isOpen = true := by
  cases p <;> first | rfl | cases h

/-! ## What keeps the invariant -/

section Fields

variable (s : State κ φ)

@[simp] theorem openers_move_self (t : ℕ) (o : Opener κ) :
    (s.move t o).openers t = o := Function.update_self ..

theorem openers_move_of_ne {t t' : ℕ} (h : t' ≠ t) (o : Opener κ) :
    (s.move t o).openers t' = s.openers t' := Function.update_of_ne h ..

@[simp] theorem stores_put_self (id : ℕ) (store : Store κ) :
    (s.put id store).stores id = some store := Function.update_self ..

theorem stores_put_of_ne {id id' : ℕ} (h : id' ≠ id) (store : Store κ) :
    (s.put id store).stores id' = s.stores id' := Function.update_of_ne h ..

@[simp] theorem locks_hold_self [DecidableEq φ] (f : φ) (holder : Option Holder) :
    (s.hold f holder).locks f = holder := Function.update_self ..

theorem locks_hold_of_ne [DecidableEq φ] {f f' : φ} (h : f' ≠ f)
    (holder : Option Holder) :
    (s.hold f holder).locks f' = s.locks f' := Function.update_of_ne h ..

@[simp] theorem registry_entry_self [DecidableEq κ] (file : κ)
    (e : Option (UInt64 × ℕ)) : (s.entry file e).registry file = e :=
  Function.update_self ..

theorem registry_entry_of_ne [DecidableEq κ] {file file' : κ} (h : file' ≠ file)
    (e : Option (UInt64 × ℕ)) :
    (s.entry file e).registry file' = s.registry file' :=
  Function.update_of_ne h ..

variable {s}

theorem openers_move_cases {t t' : ℕ} {o x : Opener κ}
    (h : (s.move t o).openers t' = x) :
    (t' = t ∧ o = x) ∨ s.openers t' = x := by
  by_cases heq : t' = t
  · rw [heq, openers_move_self] at h
    exact .inl ⟨heq, h⟩
  · rw [openers_move_of_ne s heq] at h
    exact .inr h

theorem stores_put_cases {id id' : ℕ} {store st : Store κ}
    (h : (s.put id store).stores id' = some st) :
    (id' = id ∧ store = st) ∨ s.stores id' = some st := by
  by_cases heq : id' = id
  · rw [heq, stores_put_self, Option.some.injEq] at h
    exact .inl ⟨heq, h⟩
  · rw [stores_put_of_ne s heq] at h
    exact .inr h

end Fields

section Frame

variable {fileOf : κ → φ} {s : State κ φ}

theorem inv_empty (fileOf : κ → φ) : Inv fileOf (State.empty : State κ φ) := by
  constructor <;> simp [State.empty, Opener.holds]

/-- A thread moves: what it now holds it must hold, and the rest is about other
threads. -/
theorem Inv.move (h : Inv fileOf s) {t : ℕ} {o : Opener κ}
    (hholds : ∀ file, o.holds = some file →
      s.locks (fileOf file) = some (.opener t))
    (hreg : ∀ file, o = .registering file → s.mutex = some (.opener t))
    (hins : ∀ file id, o = .inserting file id → s.mutex = some (.opener t) ∧
      ∃ store, s.stores id = some store ∧ store.file = file ∧
        store.phase.unevicted = true) : Inv fileOf (s.move t o) where
  opener_holds t' file ht := by
    obtain ⟨x, hx⟩ : ∃ x, (s.move t o).openers t' = x := ⟨_, rfl⟩
    rw [hx] at ht
    rcases openers_move_cases hx with ⟨rfl, rfl⟩ | rfl
    · exact hholds file ht
    · exact h.opener_holds t' file ht
  store_holds := h.store_holds
  strong_live := h.strong_live
  store_mutex := h.store_mutex
  inserting_mutex t' file id ht := by
    rcases openers_move_cases ht with ⟨rfl, ho⟩ | ht
    · exact (hins file id ho).1
    · exact h.inserting_mutex t' file id ht
  inserting_store t' file id ht := by
    rcases openers_move_cases ht with ⟨rfl, ho⟩ | ht
    · exact (hins file id ho).2
    · exact h.inserting_store t' file id ht
  registering_mutex t' file ht := by
    rcases openers_move_cases ht with ⟨rfl, ho⟩ | ht
    · exact hreg file ho
    · exact h.registering_mutex t' file ht
  entry_store := h.entry_store

/-- A thread moves to where it holds nothing. -/
theorem Inv.moveFree (h : Inv fileOf s) {t : ℕ} {o : Opener κ}
    (hholds : o.holds = none) (hins : ∀ file id, o ≠ .inserting file id) :
    Inv fileOf (s.move t o) := by
  refine h.move (fun file hf => ?_) (fun file ho => ?_)
    fun file id ho => absurd ho (hins file id)
  · rw [hholds] at hf
    cases hf
  · subst ho
    cases hholds

/-- The lock on a file that nobody here holds changes hands. -/
theorem Inv.hold [DecidableEq φ] (h : Inv fileOf s) (f : φ)
    (holder : Option Holder)
    (hopeners : ∀ t, s.locks f = some (.opener t) → 
      ∀ file, (s.openers t).holds = some file → fileOf file ≠ f)
    (hstores : ∀ id, s.locks f = some (.store id) → ∀ store,
      s.stores id = some store → store.phase.isOpen = true →
        fileOf store.file ≠ f) :
    Inv fileOf (s.hold f holder) where
  opener_holds t file ht := by
    have hlock := h.opener_holds t file ht
    by_cases heq : fileOf file = f
    · rw [heq] at hlock
      exact absurd heq (hopeners t hlock file ht)
    · rwa [locks_hold_of_ne s heq]
  store_holds id store hid hopen := by
    have hlock := h.store_holds id store hid hopen
    by_cases heq : fileOf store.file = f
    · rw [heq] at hlock
      exact absurd heq (hstores id hlock store hid hopen)
    · rwa [locks_hold_of_ne s heq]
  strong_live := h.strong_live
  store_mutex := h.store_mutex
  inserting_mutex := h.inserting_mutex
  inserting_store := h.inserting_store
  registering_mutex := h.registering_mutex
  entry_store := h.entry_store

/-- A thread that holds no database any more lets go of the file it opened. -/
theorem Inv.unhold [DecidableEq φ] (h : Inv fileOf s) {f : φ} {t : ℕ}
    (hlock : s.locks f = some (.opener t)) (ht : (s.openers t).holds = none)
    (holder : Option Holder) : Inv fileOf (s.hold f holder) := by
  refine h.hold f holder (fun t' ht' => ?_) fun id hid => ?_
  · obtain rfl : t = t' := by simpa using hlock.symm.trans ht'
    simp [ht]
  · cases hlock.symm.trans hid

/-- The registry's lock changes hands while nobody is inside. -/
theorem Inv.withMutex (h : Inv fileOf s) (holder : Option Holder)
    (hopeners : ∀ t, s.mutex = some (.opener t) → ∀ file,
      s.openers t ≠ .registering file ∧ ∀ id, s.openers t ≠ .inserting file id)
    (hstores : ∀ id, s.mutex = some (.store id) → ∀ store,
      s.stores id = some store → store.phase.locksRegistry = false) :
    Inv fileOf (s.withMutex holder) where
  opener_holds := h.opener_holds
  store_holds := h.store_holds
  strong_live := h.strong_live
  store_mutex id store hid hlocks := by
    have hmutex := h.store_mutex id store hid hlocks
    rw [hstores id hmutex store hid] at hlocks
    cases hlocks
  inserting_mutex t file id ht :=
    absurd ht ((hopeners t (h.inserting_mutex t file id ht) file).2 id)
  inserting_store := h.inserting_store
  registering_mutex t file ht :=
    absurd ht (hopeners t (h.registering_mutex t file ht) file).1
  entry_store := h.entry_store

/-- A thread that is outside gives the registry's lock back. -/
theorem Inv.exit (h : Inv fileOf s) {t : ℕ} (hmutex : s.mutex = some (.opener t))
    (hreg : ∀ file, s.openers t ≠ .registering file)
    (hins : ∀ file id, s.openers t ≠ .inserting file id) :
    Inv fileOf (s.withMutex none) := by
  refine h.withMutex none (fun t' ht' file => ?_) fun id hid => ?_
  · obtain rfl : t = t' := by simpa using hmutex.symm.trans ht'
    exact ⟨hreg file, hins file⟩
  · cases hmutex.symm.trans hid

/-- How one store may change: a step of its own `Drop`, or its strong count. -/
structure Store.Moves (s : State κ φ) (id : ℕ) (store store' : Store κ) :
    Prop where
  file : store'.file = store.file
  generation : store'.generation = store.generation
  isOpen : store'.phase.isOpen = true → store.phase.isOpen = true
  strong : 0 < store'.strong → store'.phase = .live
  mutex : store'.phase.locksRegistry = true → s.mutex = some (.store id)
  unevicted : store.phase.unevicted = true → store'.phase.unevicted = true ∨
    (∀ g, s.registry store.file ≠ some (g, id)) ∧
      ∀ t, s.openers t ≠ .inserting store.file id

theorem Inv.put (h : Inv fileOf s) {id : ℕ} {store store' : Store κ}
    (hid : s.stores id = some store) (hm : Store.Moves s id store store') :
    Inv fileOf (s.put id store') where
  opener_holds := h.opener_holds
  store_holds id' st hst hopen := by
    rcases stores_put_cases hst with ⟨rfl, rfl⟩ | hst
    · rw [hm.file]
      exact h.store_holds id' store hid (hm.isOpen hopen)
    · exact h.store_holds id' st hst hopen
  strong_live id' st hst hpos := by
    rcases stores_put_cases hst with ⟨rfl, rfl⟩ | hst
    · exact hm.strong hpos
    · exact h.strong_live id' st hst hpos
  store_mutex id' st hst hlocks := by
    rcases stores_put_cases hst with ⟨rfl, rfl⟩ | hst
    · exact hm.mutex hlocks
    · exact h.store_mutex id' st hst hlocks
  inserting_mutex := h.inserting_mutex
  inserting_store t file id' ht := by
    obtain ⟨st, hst, hfile, hun⟩ := h.inserting_store t file id' ht
    by_cases heq : id' = id
    · subst heq
      obtain rfl := Option.some.inj (hid.symm.trans hst)
      rcases hm.unevicted hun with hun' | ⟨_, hne⟩
      · exact ⟨store', stores_put_self .., hm.file.trans hfile, hun'⟩
      · rw [hfile] at hne
        exact absurd ht (hne t)
    · refine ⟨st, ?_, hfile, hun⟩
      rwa [stores_put_of_ne s heq]
  registering_mutex := h.registering_mutex
  entry_store file g id' hentry := by
    obtain ⟨st, hst, hfile, hgen, hun⟩ := h.entry_store file g id' hentry
    by_cases heq : id' = id
    · subst heq
      obtain rfl := Option.some.inj (hid.symm.trans hst)
      rcases hm.unevicted hun with hun' | ⟨hne, _⟩
      · exact ⟨store', stores_put_self .., hm.file.trans hfile,
          hm.generation.trans hgen, hun'⟩
      · rw [hfile] at hne
        exact absurd hentry (hne g)
    · refine ⟨st, ?_, hfile, hgen, hun⟩
      rwa [stores_put_of_ne s heq]

/-- An entry may be removed, or set to a store that `Drop` has not evicted. -/
theorem Inv.entry [DecidableEq κ] (h : Inv fileOf s) {file : κ}
    {e : Option (UInt64 × ℕ)}
    (he : ∀ g id, e = some (g, id) → ∃ store, s.stores id = some store ∧
      store.file = file ∧ store.generation = g ∧
        store.phase.unevicted = true) : Inv fileOf (s.entry file e) where
  opener_holds := h.opener_holds
  store_holds := h.store_holds
  strong_live := h.strong_live
  store_mutex := h.store_mutex
  inserting_mutex := h.inserting_mutex
  inserting_store := h.inserting_store
  registering_mutex := h.registering_mutex
  entry_store file' g id hentry := by
    by_cases heq : file' = file
    · subst heq
      rw [registry_entry_self] at hentry
      exact he g id hentry
    · rw [registry_entry_of_ne s heq] at hentry
      exact h.entry_store file' g id hentry

theorem Inv.putNew (h : Inv fileOf s) (id : ℕ) (store : Store κ)
    (hid : s.stores id = none) (hlive : store.phase = .live)
    (hlock : s.locks (fileOf store.file) = some (.store id)) :
    Inv fileOf (s.put id store) where
  opener_holds := h.opener_holds
  store_holds id' st hst hopen := by
    rcases stores_put_cases hst with ⟨rfl, rfl⟩ | hst
    · exact hlock
    · exact h.store_holds id' st hst hopen
  strong_live id' st hst hpos := by
    rcases stores_put_cases hst with ⟨rfl, rfl⟩ | hst
    · exact hlive
    · exact h.strong_live id' st hst hpos
  store_mutex id' st hst hlocks := by
    rcases stores_put_cases hst with ⟨rfl, rfl⟩ | hst
    · rw [hlive] at hlocks
      cases hlocks
    · exact h.store_mutex id' st hst hlocks
  inserting_mutex := h.inserting_mutex
  inserting_store t file id' ht := by
    obtain ⟨st, hst, hfile, hun⟩ := h.inserting_store t file id' ht
    have hne : id' ≠ id := by
      rintro rfl
      simp [hid] at hst
    exact ⟨st, (stores_put_of_ne s hne store).trans hst, hfile, hun⟩
  registering_mutex := h.registering_mutex
  entry_store file g id' hentry := by
    obtain ⟨st, hst, hfile, hgen, hun⟩ := h.entry_store file g id' hentry
    have hne : id' ≠ id := by
      rintro rfl
      simp [hid] at hst
    exact ⟨st, (stores_put_of_ne s hne store).trans hst, hfile, hgen, hun⟩

theorem Inv.count (h : Inv fileOf s) (g : UInt64) :
    Inv fileOf { s with generation := g } :=
  ⟨h.opener_holds, h.store_holds, h.strong_live, h.store_mutex,
    h.inserting_mutex, h.inserting_store, h.registering_mutex, h.entry_store⟩

/-- A store that is allocated takes over the database its thread had opened. -/
theorem Inv.alloc [DecidableEq φ] (h : Inv fileOf s) {t id : ℕ} {file : κ}
    (ht : s.openers t = .registering file) (hid : s.stores id = none) :
    Inv fileOf ((({ s with generation := s.generation + 1 }.put id
      ⟨file, s.generation, 1, .live⟩).hold (fileOf file)
        (some (.store id))).move t (.inserting file id)) := by
  have hlock := h.opener_holds t file (by rw [ht]; rfl)
  have hmutex := h.registering_mutex t file ht
  -- the thread lets go of the file, and the store takes the lock over
  have hlet := (h.count (s.generation + 1)).moveFree (t := t) (o := .idle) rfl
    fun _ _ => by simp
  have htaken : Inv fileOf
      (({ s with generation := s.generation + 1 }.move t .idle).hold
        (fileOf file) (some (.store id))) :=
    hlet.unhold hlock (by simp [Opener.holds]) _
  have hnew := htaken.putNew id ⟨file, s.generation, 1, .live⟩ hid rfl
    (locks_hold_self ..)
  have hmoved := hnew.move (t := t) (o := .inserting file id)
    (by simp [Opener.holds]) (by simp) fun file' id' heq => by
      obtain ⟨rfl, rfl⟩ := by simpa using heq
      exact ⟨hmutex, _, stores_put_self .., rfl, rfl⟩
  simpa [State.move, State.put, State.hold] using hmoved

end Frame

theorem upgrade_eq_some {s : State κ φ} {file : κ} {id : ℕ} {store : Store κ}
    (h : s.upgrade file = some (id, store)) :
    (∃ g, s.registry file = some (g, id)) ∧ s.stores id = some store ∧
      0 < store.strong := by
  obtain ⟨⟨g, id'⟩, hentry, h⟩ := Option.bind_eq_some_iff.mp h
  obtain ⟨st, hst, h⟩ := Option.bind_eq_some_iff.mp h
  rw [Option.ite_none_right_eq_some, Option.some.injEq, Prod.mk.injEq] at h
  obtain ⟨hpos, rfl, rfl⟩ := h
  exact ⟨⟨g, hentry⟩, hst, hpos⟩

/-- A strong count that is positive may grow. -/
theorem Inv.grow {fileOf : κ → φ} {s : State κ φ} (h : Inv fileOf s) {id : ℕ}
    {store : Store κ} (hid : s.stores id = some store) (hpos : 0 < store.strong) :
    Inv fileOf (s.put id { store with strong := store.strong + 1 }) :=
  h.put hid
    { file := rfl
      generation := rfl
      isOpen := fun hopen => hopen
      strong := fun _ => h.strong_live id store hid hpos
      mutex := h.store_mutex id store hid
      unevicted := .inl }

/-- A step of `Drop` from one phase to another. No handle is left. -/
theorem Inv.drops {fileOf : κ → φ} {s : State κ φ} (h : Inv fileOf s) {id : ℕ}
    {store : Store κ} (hid : s.stores id = some store)
    (hphase : store.phase ≠ .live) {phase : Phase}
    (hopen : phase.isOpen = true → store.phase.isOpen = true)
    (hmutex : phase.locksRegistry = true → s.mutex = some (.store id))
    (hevicts : store.phase.unevicted = true → phase.unevicted = true ∨
      (∀ g, s.registry store.file ≠ some (g, id)) ∧
        ∀ t, s.openers t ≠ .inserting store.file id) :
    Inv fileOf (s.put id { store with phase := phase }) :=
  h.put hid
    { file := rfl
      generation := rfl
      isOpen := hopen
      strong := fun hpos => absurd (h.strong_live id store hid hpos) hphase
      mutex := hmutex
      unevicted := hevicts }

theorem Inv.release {fileOf : κ → φ} {s : State κ φ} (h : Inv fileOf s)
    {id : ℕ} {store : Store κ} (hid : s.stores id = some store)
    (hpos : 0 < store.strong) :
    Inv fileOf (s.put id { store with
      strong := store.strong - 1
      phase := if store.strong = 1 then .flushing else store.phase }) := by
  have hlive := h.strong_live id store hid hpos
  refine h.put hid
    { file := rfl, generation := rfl, isOpen := fun _ => by rw [hlive]; rfl,
      strong := fun hleft => ?_, mutex := fun hlocks => ?_,
      unevicted := fun _ => .inl ?_ }
  · change 0 < store.strong - 1 at hleft
    exact (if_neg (by omega)).trans hlive
  · change (if store.strong = 1 then _ else store.phase).locksRegistry = true
      at hlocks
    rw [hlive] at hlocks
    split at hlocks <;> cases hlocks
  · change (if store.strong = 1 then _ else store.phase).unevicted = true
    rw [hlive]
    split <;> rfl

theorem Inv.evict [DecidableEq κ] {fileOf : κ → φ} {s : State κ φ}
    (h : Inv fileOf s) {id : ℕ} {store : Store κ}
    (hid : s.stores id = some store) (hphase : store.phase = .evicting) :
    Inv fileOf ((if (s.registry store.file).any fun e =>
        e.1 == store.generation then s.entry store.file none else s).put id
      { store with phase := .closing }) := by
  have hmutex := h.store_mutex id store hid (by rw [hphase]; rfl)
  have hdead : store.phase ≠ .live := by simp [hphase]
  have hopen : store.phase.isOpen = true := by rw [hphase]; rfl
  have hnot : ∀ t, s.openers t ≠ .inserting store.file id := fun t ht => by
    cases hmutex.symm.trans (h.inserting_mutex t _ _ ht)
  split
  · have hgone : Inv fileOf (s.entry store.file none) := h.entry (by simp)
    exact hgone.drops hid hdead (fun _ => hopen) (fun _ => hmutex)
      fun _ => .inr ⟨by simp, hnot⟩
  · rename_i hother
    have hnone : ∀ g, s.registry store.file ≠ some (g, id) := by
      intro g hentry
      obtain ⟨st, hst, _, rfl, _⟩ := h.entry_store _ g id hentry
      obtain rfl := Option.some.inj (hid.symm.trans hst)
      simp [hentry] at hother
    exact h.drops hid hdead (fun _ => hopen) (fun _ => hmutex)
      fun _ => .inr ⟨hnone, hnot⟩

theorem Inv.close [DecidableEq φ] {fileOf : κ → φ} {s : State κ φ}
    (h : Inv fileOf s) {id : ℕ} {store : Store κ}
    (hid : s.stores id = some store) (hphase : store.phase = .closing) :
    Inv fileOf ((s.hold (fileOf store.file) none).put id
      { store with phase := .unlocking }) := by
  have hlock := h.store_holds id store hid (by rw [hphase]; rfl)
  have hmutex := h.store_mutex id store hid (by rw [hphase]; rfl)
  have hput : Inv fileOf (s.put id { store with phase := .unlocking }) := by
    refine h.drops hid (by simp [hphase]) (fun hopen => ?_) (fun _ => hmutex)
      fun hun => ?_
    · cases hopen
    · rw [hphase] at hun
      cases hun
  refine hput.hold _ none (fun t ht => ?_) fun id' hid' st hst hopen => ?_
  · cases hlock.symm.trans ht
  · obtain rfl : id = id' := by simpa using hlock.symm.trans hid'
    rw [stores_put_self, Option.some.injEq] at hst
    subst hst
    cases hopen

theorem Inv.unlock {fileOf : κ → φ} {s : State κ φ} (h : Inv fileOf s)
    {id : ℕ} {store : Store κ} (hid : s.stores id = some store)
    (hphase : store.phase = .unlocking) :
    Inv fileOf ((s.withMutex none).put id { store with phase := .gone }) := by
  have hmutex := h.store_mutex id store hid (by rw [hphase]; rfl)
  have hput : Inv fileOf (s.put id { store with phase := .gone }) := by
    refine h.drops hid (by simp [hphase]) (fun hopen => ?_) (fun hlocks => ?_)
      fun hun => ?_
    · cases hopen
    · cases hlocks
    · rw [hphase] at hun
      cases hun
  refine hput.withMutex none (fun t ht => ?_) fun id' hid' st hst => ?_
  · cases hmutex.symm.trans ht
  · obtain rfl : id = id' := by simpa using hmutex.symm.trans hid'
    rw [stores_put_self, Option.some.injEq] at hst
    subst hst
    rfl

theorem Inv.insert [DecidableEq κ] {fileOf : κ → φ} {s : State κ φ}
    (h : Inv fileOf s) {t id : ℕ} {file : κ} {store : Store κ}
    (ht : s.openers t = .inserting file id) (hid : s.stores id = some store) :
    Inv fileOf (((s.entry file (some (store.generation, id))).withMutex
      none).move t .idle) := by
  have hmutex := h.inserting_mutex t file id ht
  have hentered : Inv fileOf (s.entry file (some (store.generation, id))) := by
    refine h.entry fun g id' heq => ?_
    obtain ⟨st, hst, hfile, hun⟩ := h.inserting_store t file id ht
    obtain rfl := Option.some.inj (hid.symm.trans hst)
    obtain ⟨rfl, rfl⟩ := by simpa using heq
    exact ⟨store, hid, hfile, rfl, hun⟩
  have hmoved := hentered.moveFree (t := t) (o := .idle) rfl fun _ _ => by simp
  exact hmoved.exit hmutex (by simp) (by simp)

theorem Inv.register [DecidableEq κ] [DecidableEq φ] {fileOf : κ → φ}
    {s : State κ φ} (h : Inv fileOf s) {t id : ℕ} {file : κ}
    (ht : s.openers t = .registering file) (hfresh : s.stores id = none) :
    Inv fileOf (Registry.next fileOf s (.register t file id)) := by
  rw [Registry.next]
  split
  · rename_i other store hup
    obtain ⟨_, hid, hpos⟩ := upgrade_eq_some hup
    have hmoved := (h.grow hid hpos).move (t := t) (o := .discarding file)
      (fun file' hf => h.opener_holds t file' (by rw [ht]; exact hf))
      (by simp) (by simp)
    exact hmoved.exit (h.registering_mutex t file ht) (by simp) (by simp)
  · exact h.alloc ht hfresh

theorem Inv.next [DecidableEq κ] [DecidableEq φ] {fileOf : κ → φ}
    {s : State κ φ} {e : Event κ φ} (h : Inv fileOf s)
    (he : Enabled fileOf s e) : Inv fileOf (Registry.next fileOf s e) := by
  cases e with
  | openFile t file => exact h.moveFree rfl fun _ _ => by simp
  | registered t file attempt =>
      rw [Registry.next]
      split
      · rename_i id store hup
        obtain ⟨_, hid, hpos⟩ := upgrade_eq_some hup
        exact (h.grow hid hpos).moveFree rfl fun _ _ => by simp
      · exact (h.entry (by simp)).moveFree rfl fun _ _ => by simp
  | create t file attempt =>
      obtain ⟨_, hfree⟩ := he
      have hheld := h.hold (fileOf file) (some (.opener t))
        (by simp [hfree]) (by simp [hfree])
      refine hheld.move (fun file' hf => ?_) (by simp) (by simp)
      obtain rfl : file = file' := by simpa [Opener.holds] using hf
      exact locks_hold_self ..
  | alreadyOpen t file attempt =>
      rw [Registry.next]
      split
      · exact h.moveFree rfl fun _ _ => by simp
      · exact h.moveFree rfl fun _ _ => by simp
  | createFails t file attempt => exact h.moveFree rfl fun _ _ => by simp
  | lock t file =>
      obtain ⟨ht, hfree⟩ := he
      have hin := h.withMutex (some (.opener t)) (by simp [hfree])
        (by simp [hfree])
      refine hin.move (fun file' hf => ?_) (fun _ _ => rfl) (by simp)
      exact h.opener_holds t file' (by rw [ht]; exact hf)
  | register t file id => exact h.register he.1 he.2
  | insert t file id store => exact h.insert he.1 he.2
  | discard t file =>
      have hlock := h.opener_holds t file (by rw [he]; rfl)
      have hmoved := h.moveFree (t := t) (o := .idle) rfl fun _ _ => by simp
      exact hmoved.unhold hlock (by simp [Opener.holds]) none
  | clone id store => exact h.grow he.1 he.2
  | release id store => exact h.release he.1 he.2
  | flush id store =>
      obtain ⟨hid, hphase, hfree⟩ := he
      have hin := h.withMutex (some (.store id)) (by simp [hfree])
        (by simp [hfree])
      exact hin.drops hid (by simp [hphase]) (fun _ => by rw [hphase]; rfl)
        (fun _ => rfl) fun _ => .inl rfl
  | evict id store => exact h.evict he.1 he.2
  | close id store => exact h.close he.1 he.2
  | unlock id store => exact h.unlock he.1 he.2
  | otherLocks file =>
      have hfree : s.locks file = none := he
      exact h.hold _ _ (by simp [hfree]) (by simp [hfree])
  | otherUnlocks file =>
      have hother : s.locks file = some .other := he
      exact h.hold _ _ (by simp [hother]) (by simp [hother])

/-! ## Runs -/

/-- Some handle is left, or `Drop` has not closed the database yet. -/
def Store.Live (store : Store κ) : Prop :=
  0 < store.strong ∨ store.phase.isOpen = true

theorem Inv.live_holds {fileOf : κ → φ} {s : State κ φ} (h : Inv fileOf s)
    {id : ℕ} {store : Store κ} (hid : s.stores id = some store)
    (hlive : store.Live) : s.locks (fileOf store.file) = some (.store id) := by
  refine h.store_holds id store hid ?_
  rcases hlive with hpos | hopen
  · rw [h.strong_live id store hid hpos]
    rfl
  · exact hopen

/-- An entry that `Drop` finds under its own generation is its own: whoever the
entry is for still holds the file, and so does the store being dropped. -/
theorem Inv.registry_evict [DecidableEq κ] [DecidableEq φ] {fileOf : κ → φ}
    {s : State κ φ} (h : Inv fileOf s) {id id' : ℕ} {store : Store κ} {file : κ}
    {g : UInt64} (he : Enabled fileOf s (.evict id store))
    (hentry : s.registry file = some (g, id')) (hne : id' ≠ id) :
    (Registry.next fileOf s (.evict id store)).registry file =
      some (g, id') := by
  obtain ⟨hid, hphase⟩ := he
  have hlock := h.store_holds id store hid (by rw [hphase]; rfl)
  have hother : file ≠ store.file := by
    rintro rfl
    obtain ⟨st, hst, hfile, _, hun⟩ := h.entry_store _ g id' hentry
    have hlock' := h.store_holds id' st hst (isOpen_of_unevicted hun)
    rw [hfile, hlock, Option.some.injEq, Holder.store.injEq] at hlock'
    exact hne hlock'.symm
  rw [Registry.next]
  split
  · exact (registry_entry_of_ne s hother none).trans hentry
  · exact hentry

theorem reachable_inv [DecidableEq κ] [DecidableEq φ] {fileOf : κ → φ}
    {s : State κ φ} (hs : (machine fileOf).Reachable s) : Inv fileOf s := by
  refine hs.invariant ?_ ?_
  · rintro _ rfl
    exact inv_empty fileOf
  · rintro t e _ hinv ⟨he, rfl⟩
    exact hinv.next he

/-- At every reachable state: two live stores are on different files; an entry
that can be upgraded is for the store that holds the file's database; and the
`Drop` of one store leaves the entry of every other store in place. -/
theorem one_store_per_file [DecidableEq κ] [DecidableEq φ] (fileOf : κ → φ)
    {s : State κ φ} (hs : (machine fileOf).Reachable s) :
    (∀ a b sa sb, s.stores a = some sa → s.stores b = some sb →
      sa.Live → sb.Live → fileOf sa.file = fileOf sb.file → a = b) ∧
    (∀ file id store, s.upgrade file = some (id, store) →
      store.file = file ∧ store.Live ∧
        s.locks (fileOf file) = some (.store id)) ∧
    (∀ id store, Enabled fileOf s (.evict id store) →
      ∀ file g id', s.registry file = some (g, id') → id' ≠ id →
        (next fileOf s (.evict id store)).registry file = some (g, id')) := by
  have h := reachable_inv hs
  refine ⟨?_, ?_, ?_⟩
  · intro a b sa sb ha hb hla hlb hfile
    have hlock := h.live_holds ha hla
    rw [hfile, h.live_holds hb hlb, Option.some.injEq, Holder.store.injEq] at hlock
    exact hlock.symm
  · intro file id store hup
    obtain ⟨⟨g, hentry⟩, hid, hpos⟩ := upgrade_eq_some hup
    obtain ⟨st, hst, hfile, _, _⟩ := h.entry_store file g id hentry
    obtain rfl := Option.some.inj (hid.symm.trans hst)
    refine ⟨hfile, .inl hpos, ?_⟩
    rw [← hfile]
    exact h.live_holds hid (.inl hpos)
  · intro id store he file g id' hentry hne
    exact h.registry_evict he hentry hne

/-- One thread opens a file, and its store is being dropped while another one opens the file anew,
and a third thread then finds that store. -/
def reopened : List (Event String String) :=
  [.openFile 0 "memo.redb", .registered 0 "memo.redb" 0, .create 0 "memo.redb" 0,
    .lock 0 "memo.redb", .register 0 "memo.redb" 7,
    .insert 0 "memo.redb" 7 ⟨"memo.redb", 0, 1, .live⟩,
    .release 7 ⟨"memo.redb", 0, 1, .live⟩, .openFile 1 "memo.redb", .registered 1 "memo.redb" 0,
    .alreadyOpen 1 "memo.redb" 0, .flush 7 ⟨"memo.redb", 0, 0, .flushing⟩,
    .evict 7 ⟨"memo.redb", 0, 0, .evicting⟩, .close 7 ⟨"memo.redb", 0, 0, .closing⟩,
    .unlock 7 ⟨"memo.redb", 0, 0, .unlocking⟩, .registered 1 "memo.redb" 1,
    .create 1 "memo.redb" 1, .lock 1 "memo.redb", .register 1 "memo.redb" 8,
    .insert 1 "memo.redb" 8 ⟨"memo.redb", 1, 1, .live⟩, .openFile 2 "memo.redb",
    .registered 2 "memo.redb" 0]

/-- What the registry has can be upgraded, and holds the file. -/
theorem one_store_per_file_reopened :
    let s := reopened.foldl (next fun file => file) .empty
    s.upgrade "memo.redb" = some (8, ⟨"memo.redb", 1, 2, .live⟩) ∧
      s.locks "memo.redb" = some (.store 8) := by
  have hrun : (machine (κ := String) (φ := String) fun file => file).Reachable
      (reopened.foldl (next fun file => file) .empty) := by
    refine Machine.Reachable.legal (Machine.Reachable.start rfl) ?_
    decide
  have hup : (reopened.foldl (next fun file => file) .empty).upgrade "memo.redb" =
      some (8, ⟨"memo.redb", 1, 2, .live⟩) := by decide
  exact ⟨hup, ((one_store_per_file _ hrun).2.1 "memo.redb" _ _ hup).2.2⟩

end Registry

end Memo

end RustSak
