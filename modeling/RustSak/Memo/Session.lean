import RustSak.Memo.Agreement
import RustSak.Library.Machine

/-!
# Sessions: calls one after another

A session is a store reached through handles, together with the last clock
reading. Its events are calls, whose clock readings never go back, and
evictions from a handle's memory tier. What the calls so far have left under a
key is `lastWritten`, read off the history; a session reads its own writes when
no `get` ever returns anything else.
-/

namespace RustSak

namespace Memo

open Library

/-- Stores that handles call into. -/
structure Tiers (η σ : Type*) where
  exec : η → σ → Call → σ × Reply
  evict : η → σ → (Key → Bool) → σ

structure Session (σ : Type*) where
  store : σ
  now : Now

inductive Event (η : Type*) where
  | call (h : η) (c : Call) (reply : Reply)
  | evict (h : η) (doomed : Key → Bool)

/-- The value the events so far, the newest first, have left under each key:
that of the most recent `set` that returned `Ok`, unless a `remove` of the key
or a `retain` that refused it has returned `Ok` since. `initial` is what the
cache file held before. -/
def lastWritten {η : Type*} (initial : Key → Option Bytes) :
    List (Event η) → Key → Option Bytes
  | [] => initial
  | .call _ c reply :: past => leaves c reply (lastWritten initial past)
  | .evict _ _ :: past => lastWritten initial past

/-- The sessions of `T` from the stores that meet `init`. -/
def sessions {η σ : Type*} (T : Tiers η σ) (init : σ → Prop) :
    Machine (Session σ) (Event η) where
  init s := init s.store
  step s e s' :=
    match e with
    | .call h c reply =>
        s.now ≤ c.start ∧ c.start ≤ c.finish ∧
          T.exec h s.store c = (s'.store, reply) ∧ s'.now = c.finish
    | .evict h doomed => s' = { s with store := T.evict h s.store doomed }

/-- The session that makes `calls` one after another, with its events, the
newest first. -/
def playing {η σ : Type*} (T : Tiers η σ) :
    Session σ → List (η × Call) → Session σ × List (Event η)
  | s, [] => (s, [])
  | s, (h, c) :: calls =>
      let r := T.exec h s.store c
      let rest := playing T ⟨r.1, c.finish⟩ calls
      (rest.1, rest.2 ++ [.call h c r.2])

/-- No call reads an earlier clock than the ones before it. -/
def InOrder {η : Type*} : Now → List (η × Call) → Prop
  | _, [] => True
  | now, (_, c) :: calls =>
      now ≤ c.start ∧ c.start ≤ c.finish ∧ InOrder c.finish calls

theorem run_playing {η σ : Type*} {T : Tiers η σ} {init : σ → Prop}
    {es : List (Event η)} {s : Session σ} (hr : (sessions T init).Run es s)
    (calls : List (η × Call)) (horder : InOrder s.now calls) :
    (sessions T init).Run ((playing T s calls).2 ++ es) (playing T s calls).1 := by
  induction calls generalizing es s with
  | nil => exact hr
  | cons hc calls ih =>
      obtain ⟨h, c⟩ := hc
      obtain ⟨hnow, hle, horder⟩ := horder
      have hnext : (sessions T init).Run
          (.call h c (T.exec h s.store c).2 :: es)
          ⟨(T.exec h s.store c).1, c.finish⟩ :=
        hr.next ⟨hnow, hle, rfl, rfl⟩
      have hrun := ih hnext horder
      rw [playing, List.append_assoc]
      exact hrun

/-- Every call meets `C` where it is made. -/
def Meeting {η σ : Type*} (T : Tiers η σ) (C : Session σ → Event η → Prop) :
    Session σ → List (η × Call) → Prop
  | _, [] => True
  | s, (h, c) :: calls =>
      C s (.call h c (T.exec h s.store c).2) ∧
        Meeting T C ⟨(T.exec h s.store c).1, c.finish⟩ calls

theorem run_meeting {η σ : Type*} {T : Tiers η σ} {init : σ → Prop}
    {C : Session σ → Event η → Prop} {es : List (Event η)} {s : Session σ}
    (hr : ((sessions T init).restrict C).Run es s) (calls : List (η × Call))
    (horder : InOrder s.now calls) (hmeeting : Meeting T C s calls) :
    ((sessions T init).restrict C).Run ((playing T s calls).2 ++ es)
      (playing T s calls).1 := by
  induction calls generalizing es s with
  | nil => exact hr
  | cons hc calls ih =>
      obtain ⟨h, c⟩ := hc
      obtain ⟨hnow, hle, horder⟩ := horder
      have hnext : ((sessions T init).restrict C).Run
          (.call h c (T.exec h s.store c).2 :: es)
          ⟨(T.exec h s.store c).1, c.finish⟩ :=
        hr.next ⟨hmeeting.1, hnow, hle, rfl, rfl⟩
      have hrun := ih hnext horder hmeeting.2
      rw [playing, List.append_assoc]
      exact hrun

theorem run_evicting {η σ : Type*} {T : Tiers η σ} {init : σ → Prop}
    {es : List (Event η)} {s : Session σ} (hr : (sessions T init).Run es s) (h : η)
    (doomed : Key → Bool) :
    (sessions T init).Run (.evict h doomed :: es)
      { s with store := T.evict h s.store doomed } := hr.next rfl

/-- Whenever a `get` returns bytes, they are the bytes last written. -/
def ReadsYourWrites {η σ : Type*} (M : Machine (Session σ) (Event η))
    (initial : Key → Option Bytes) : Prop :=
  ∀ past s h key now later redb entry,
    M.Run (.call h (.get key now later redb) (.got (.ok (some entry))) :: past) s →
      lastWritten initial past key = some entry.value

/-- What a session needs to read its own writes: an agreement between the store
and what was written that every call meeting `C` restores. -/
structure Coherence {η σ : Type*} (T : Tiers η σ) (init : σ → Prop)
    (C : Session σ → Event η → Prop) (initial : Key → Option Bytes) where
  Agrees : σ → (Key → Option Bytes) → Now → Prop
  mono : ∀ s w now now', now ≤ now' → Agrees s w now → Agrees s w now'
  start : ∀ s now, init s → Agrees s initial now
  evict : ∀ h s doomed w now, Agrees s w now → Agrees (T.evict h s doomed) w now
  exec : ∀ h s c w, C s (.call h c (T.exec h s.store c).2) →
    Agrees s.store w c.start →
      Agrees (T.exec h s.store c).1 (leaves c (T.exec h s.store c).2 w) c.start
  get : ∀ h s key now later redb w entry, Agrees s w now →
    (T.exec h s (.get key now later redb)).2 = .got (.ok (some entry)) →
      w key = some entry.value

namespace Coherence

variable {η σ : Type*} {T : Tiers η σ} {init : σ → Prop}
  {C : Session σ → Event η → Prop} {initial : Key → Option Bytes}

theorem run_agrees (K : Coherence T init C initial) {es : List (Event η)}
    {s : Session σ} (hr : ((sessions T init).restrict C).Run es s) :
    K.Agrees s.store (lastWritten initial es) s.now := by
  refine hr.invariant
    (I := fun es s => K.Agrees s.store (lastWritten initial es) s.now) ?_ ?_
  · intro s hs
    exact K.start s.store s.now hs
  · intro es e s s' _ hi ⟨hc, hstep⟩
    cases e with
    | call h c reply =>
        obtain ⟨hnow, hle, hexec, hnow'⟩ := hstep
        have hreply : reply = (T.exec h s.store c).2 := by rw [hexec]
        have hstore : s'.store = (T.exec h s.store c).1 := by rw [hexec]
        subst hreply
        have hstart := K.mono _ _ _ _ hnow hi
        rw [hnow', hstore]
        exact K.mono _ _ _ _ hle (K.exec h s c _ hc hstart)
    | evict h doomed =>
        rw [show s' = _ from hstep]
        exact K.evict h _ doomed _ _ hi

theorem readsYourWrites (K : Coherence T init C initial) :
    ReadsYourWrites ((sessions T init).restrict C) initial := by
  intro past s h key now later redb entry hr
  cases hr with
  | next hr hstep =>
      rename_i s₀
      obtain ⟨_, hnow, _, hexec, _⟩ := hstep
      have hagree := K.mono _ _ _ _ hnow (K.run_agrees hr)
      refine K.get h s₀.store key now later redb _ entry hagree ?_
      rw [hexec]

end Coherence

end Memo

end RustSak
