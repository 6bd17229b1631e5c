import RustSak.Memo.Store
import RustSak.Library.Machine

/-!
# Single flight

One computation a key at a time: the caller that finds no call registered under
its key installs one and leads it, the others follow. A call has a slot for its
outcome, a condition variable for the threads that wait on it and a list of
wakers for the tasks that do. The steps below are those of any number of
callers, each one invocation; what a leader does between its operations is its
own affair, so it may publish and it may be dropped, by a panic or a cancelled
future, whenever it is not inside `publish` or `drop`.

A step is what happens under one acquisition of a lock, except that taking the
wakers is part of setting the slot: the list is locked inside the slot's lock
only. Condition variables may wake a thread for no reason, and a task may poll a
future whenever it likes.
-/

namespace RustSak

namespace Memo

open Library

/-- What a finished computation hands to everyone waiting on it. -/
inductive Outcome (ε π : Type) where
  | ready (bytes : Bytes)
  | compute (err : ε)
  | encode (err : π)
  | abandoned
  deriving DecidableEq

/-- Turns everything but a successful result into the error the caller sees. -/
def Outcome.intoError {ε π : Type} : Outcome ε π → Option (MemoError ε π)
  | ready _ => none
  | compute err => some (.compute err)
  | encode err => some (.encode err)
  | abandoned => some .computeAbandoned

/-- Wakers, the task each of them wakes, and `Waker::will_wake`: it answers
`true` only for wakers of one task. -/
structure Wakers (W τ : Type) where
  task : W → τ
  willWake : W → W → Bool
  task_eq : ∀ a b, willWake a b = true → task a = task b

namespace Flight

/-- One in-flight computation. -/
structure CallState (ε π W : Type) where
  outcome : Option (Outcome ε π)
  wakers : List W

/-- How far a leader is inside `publish`: not at all; the slot is set and the
condition variable is next; or the wakers taken are being woken. -/
inductive Stage (W : Type) where
  | running
  | notifying (wakers : List W)
  | waking (wakers : List W)
  deriving DecidableEq

/-- The right to compute one key. It is `dropping` once its drop has removed the
call from the table. -/
structure Leader (W : Type) where
  key : Key
  call : ℕ
  published : Bool
  stage : Stage W
  dropping : Bool
  deriving DecidableEq

/-- Where a caller stands. A thread that follows is `checking` the slot or
`parked` on the condition variable; a future is to be polled, or `pending` with
a waker of the task that polled it. -/
inductive Phase (ε π W τ : Type) where
  | idle
  | leading (leader : Leader W)
  | checking (call : ℕ)
  | parked (call : ℕ)
  | polling (call : ℕ)
  | pending (call : ℕ) (task : τ)
  | returned (call : ℕ) (outcome : Outcome ε π)
  | gone
  deriving DecidableEq

variable {ι ε π W τ : Type}

/-- `calls` is the table; the call a number stands for is `call`, and `fresh` is
the next number. -/
structure State (ι ε π W τ : Type) where
  calls : Key → Option ℕ
  call : ℕ → CallState ε π W
  fresh : ℕ
  phase : ι → Phase ε π W τ

def State.empty : State ι ε π W τ where
  calls _ := none
  call _ := ⟨none, []⟩
  fresh := 0
  phase _ := .idle

inductive Event (ι ε π W : Type) where
  | join (p : ι) (key : Key) (call : ℕ) (async : Bool)
  | lead (p : ι) (key : Key)
  | settle (p : ι) (leader : Leader W) (outcome : Outcome ε π)
  | ignore (p : ι) (leader : Leader W)
  | notify (p : ι) (leader : Leader W) (wakers : List W)
  | wake (p : ι) (leader : Leader W) (waker : W) (wakers : List W)
  | woken (p : ι) (leader : Leader W)
  | deregister (p : ι) (leader : Leader W)
  | finish (p : ι) (leader : Leader W)
  | check (p : ι) (call : ℕ)
  | spurious (p : ι) (call : ℕ)
  | poll (p : ι) (call : ℕ) (roused : Bool) (waker : W)
  | cancel (p : ι) (call : ℕ) (roused : Bool)

/-- The call a future waits on, and whether its task has been woken to poll it. -/
def Phase.awaits : Phase ε π W τ → Option (ℕ × Bool)
  | polling c => some (c, true)
  | pending c _ => some (c, false)
  | _ => none

section Updates

variable [DecidableEq ι] (s : State ι ε π W τ)

def State.move (p : ι) (x : Phase ε π W τ) : State ι ε π W τ :=
  { s with phase := Function.update s.phase p x }

omit [DecidableEq ι] in
def State.setCall (c : ℕ) (x : CallState ε π W) : State ι ε π W τ :=
  { s with call := Function.update s.call c x }

omit [DecidableEq ι] in
def State.setKey (key : Key) (c : Option ℕ) : State ι ε π W τ :=
  { s with calls := Function.update s.calls key c }

omit [DecidableEq ι] in
/-- `notify_all`. -/
def State.unpark (c : ℕ) : State ι ε π W τ :=
  { s with phase := fun q =>
      match s.phase q with
      | .parked c' => if c' = c then .checking c' else .parked c'
      | x => x }

omit [DecidableEq ι] in
/-- The task is woken, and polls what it waits for. -/
def State.rouse [DecidableEq τ] (t : τ) : State ι ε π W τ :=
  { s with phase := fun q =>
      match s.phase q with
      | .pending c t' => if t' = t then .polling c else .pending c t'
      | x => x }

end Updates

/-- Where a caller goes when its `publish` is over. -/
def Leader.afterPublish (l : Leader W) : Phase ε π W τ :=
  if l.dropping then .gone
  else .leading { l with published := true, stage := .running }

/-- `Drop` publishes only for a leader that has not published, and then only
`abandoned`. -/
def Leader.mayPublish (l : Leader W) (outcome : Outcome ε π) : Prop :=
  l.dropping = true → l.published = false ∧ outcome = .abandoned

def Enabled (s : State ι ε π W τ) : Event ι ε π W → Prop
  | .join p key c _ => s.phase p = .idle ∧ s.calls key = some c
  | .lead p key => s.phase p = .idle ∧ s.calls key = none
  | .settle p l outcome =>
      s.phase p = .leading l ∧ l.stage = .running ∧
        (s.call l.call).outcome = none ∧ l.mayPublish outcome
  | .ignore p l =>
      s.phase p = .leading l ∧ l.stage = .running ∧
        (s.call l.call).outcome ≠ none ∧ (l.dropping = true → l.published = false)
  | .notify p l wakers => s.phase p = .leading l ∧ l.stage = .notifying wakers
  | .wake p l waker wakers =>
      s.phase p = .leading l ∧ l.stage = .waking (waker :: wakers)
  | .woken p l => s.phase p = .leading l ∧ l.stage = .waking []
  | .deregister p l =>
      s.phase p = .leading l ∧ l.stage = .running ∧ l.dropping = false
  | .finish p l =>
      s.phase p = .leading l ∧ l.stage = .running ∧ l.dropping = true ∧
        l.published = true
  | .check p c => s.phase p = .checking c
  | .spurious p c => s.phase p = .parked c
  | .poll p c roused _ => (s.phase p).awaits = some (c, roused)
  | .cancel p c roused => (s.phase p).awaits = some (c, roused)

instance [DecidableEq ε] [DecidableEq π] (l : Leader W) (o : Outcome ε π) :
    Decidable (l.mayPublish o) :=
  inferInstanceAs (Decidable (_ → _ ∧ _))

instance [DecidableEq ε] [DecidableEq π] [DecidableEq W] [DecidableEq τ]
    (s : State ι ε π W τ) (e : Event ι ε π W) : Decidable (Enabled s e) :=
  match e with
  | .settle .. => inferInstanceAs (Decidable (_ ∧ _ ∧ _ ∧ Leader.mayPublish _ _))
  | .ignore .. => inferInstanceAs (Decidable (_ = _ ∧ _ = _ ∧ ¬_ = _ ∧ (_ → _)))
  | .finish .. => inferInstanceAs (Decidable (_ = _ ∧ _ = _ ∧ _ = _ ∧ _ = _))
  | .deregister .. => inferInstanceAs (Decidable (_ = _ ∧ _ = _ ∧ _ = _))
  | .join .. | .lead .. | .notify .. | .wake .. | .woken .. =>
      inferInstanceAs (Decidable (_ = _ ∧ _ = _))
  | .check .. | .spurious .. | .poll .. | .cancel .. =>
      inferInstanceAs (Decidable (_ = _))

/-- `Call::poll` with no outcome yet: a waker that would wake the same task is
not added again. -/
def CallState.park (K : Wakers W τ) (x : CallState ε π W) (waker : W) :
    CallState ε π W :=
  if x.wakers.any (K.willWake · waker) then x
  else { x with wakers := x.wakers ++ [waker] }

def next [DecidableEq ι] [DecidableEq τ] (K : Wakers W τ)
    (s : State ι ε π W τ) : Event ι ε π W → State ι ε π W τ
  | .join p _ c async => s.move p (if async then .polling c else .checking c)
  | .lead p key =>
      { (s.setCall s.fresh ⟨none, []⟩).setKey key (some s.fresh) with
        fresh := s.fresh + 1 }.move p (.leading ⟨key, s.fresh, false, .running, false⟩)
  | .settle p l outcome =>
      (s.setCall l.call ⟨some outcome, []⟩).move p
        (.leading { l with stage := .notifying (s.call l.call).wakers })
  | .ignore p l => s.move p l.afterPublish
  | .notify p l wakers =>
      (s.unpark l.call).move p (.leading { l with stage := .waking wakers })
  | .wake p l waker wakers =>
      (s.rouse (K.task waker)).move p (.leading { l with stage := .waking wakers })
  | .woken p l => s.move p l.afterPublish
  | .deregister p l =>
      (s.setKey l.key none).move p (.leading { l with dropping := true })
  | .finish p _ => s.move p .gone
  | .check p c =>
      s.move p (match (s.call c).outcome with
        | some outcome => .returned c outcome
        | none => .parked c)
  | .spurious p c => s.move p (.checking c)
  | .poll p c _ waker =>
      match (s.call c).outcome with
      | some outcome => s.move p (.returned c outcome)
      | none =>
          (s.setCall c ((s.call c).park K waker)).move p
            (.pending c (K.task waker))
  | .cancel p _ _ => s.move p .gone

def machine [DecidableEq ι] [DecidableEq τ] (K : Wakers W τ) :
    Machine (State ι ε π W τ) (Event ι ε π W) :=
  .guarded (fun s => s = .empty) Enabled (next K)

/-! ## Reading the updates -/

section Fields

variable (s : State ι ε π W τ)

theorem phase_move [DecidableEq ι] (p q : ι) (x : Phase ε π W τ) :
    (s.move p x).phase q = if q = p then x else s.phase q :=
  Function.update_apply ..

theorem call_setCall (c c' : ℕ) (x : CallState ε π W) :
    (s.setCall c x).call c' = if c' = c then x else s.call c' :=
  Function.update_apply ..

theorem calls_setKey (key key' : Key) (c : Option ℕ) :
    (s.setKey key c).calls key' = if key' = key then c else s.calls key' :=
  Function.update_apply ..

theorem phase_unpark_cases {c : ℕ} {q : ι} {x : Phase ε π W τ}
    (h : (s.unpark c).phase q = x) :
    (s.phase q = x ∧ x ≠ .parked c) ∨ (s.phase q = .parked c ∧ x = .checking c) := by
  subst h
  cases hq : s.phase q with
  | parked c' =>
      by_cases hc : c' = c
      · subst hc
        exact .inr ⟨rfl, by simp [State.unpark, hq]⟩
      · exact .inl (by simp [State.unpark, hq, hc])
  | _ => exact .inl (by simp [State.unpark, hq])

theorem phase_unpark_leading {c : ℕ} {q : ι} {l : Leader W} :
    (s.unpark c).phase q = .leading l ↔ s.phase q = .leading l := by
  constructor
  · intro h
    rcases phase_unpark_cases s h with ⟨h, _⟩ | ⟨_, h⟩
    · exact h
    · cases h
  · intro h
    simp [State.unpark, h]

theorem phase_rouse_cases [DecidableEq τ] {t : τ} {q : ι} {x : Phase ε π W τ}
    (h : (s.rouse t).phase q = x) :
    (s.phase q = x ∧ ∀ c, x ≠ .pending c t) ∨
      ∃ c, s.phase q = .pending c t ∧ x = .polling c := by
  subst h
  cases hq : s.phase q with
  | pending c t' =>
      by_cases ht : t' = t
      · subst ht
        exact .inr ⟨c, rfl, by simp [State.rouse, hq]⟩
      · exact .inl (by simp [State.rouse, hq, ht])
  | _ => exact .inl (by simp [State.rouse, hq])

theorem phase_rouse_leading [DecidableEq τ] {t : τ} {q : ι} {l : Leader W} :
    (s.rouse t).phase q = .leading l ↔ s.phase q = .leading l := by
  constructor
  · intro h
    rcases phase_rouse_cases s h with ⟨h, _⟩ | ⟨_, _, h⟩
    · exact h
    · cases h
  · intro h
    simp [State.rouse, h]

end Fields

/-- The caller that takes the step. -/
def Event.caller : Event ι ε π W → ι
  | join p _ _ _ => p
  | lead p _ => p
  | settle p _ _ => p
  | ignore p _ => p
  | notify p _ _ => p
  | wake p _ _ _ => p
  | woken p _ => p
  | deregister p _ => p
  | finish p _ => p
  | check p _ => p
  | spurious p _ => p
  | poll p _ _ _ => p
  | cancel p _ _ => p

/-- The call a follower still waits for. -/
def Phase.waitsFor : Phase ε π W τ → Option ℕ
  | .checking c => some c
  | .parked c => some c
  | .polling c => some c
  | .pending c _ => some c
  | _ => none

/-- A step moves other callers only between checking and parked, or polling and
pending. -/
theorem phase_next_of_ne [DecidableEq ι] [DecidableEq τ] {K : Wakers W τ}
    {s : State ι ε π W τ} (e : Event ι ε π W) {q : ι} (hq : q ≠ e.caller) :
    (next K s e).phase q = s.phase q ∨
      ∃ c, (s.phase q).waitsFor = some c ∧
        ((next K s e).phase q).waitsFor = some c := by
  have hmove : ∀ (t : State ι ε π W τ) (p : ι) x, q ≠ p →
      (t.move p x).phase q = t.phase q := fun t p x hne => by
    rw [phase_move, if_neg hne]
  cases e with
  | notify p l wakers =>
      rw [next, hmove _ p _ hq]
      rcases phase_unpark_cases (c := l.call) (q := q) s rfl with
        ⟨heq, _⟩ | ⟨heq, hx⟩
      · exact .inl heq.symm
      · exact .inr ⟨l.call, by rw [heq]; rfl, by rw [hx]; rfl⟩
  | wake p l waker wakers =>
      rw [next, hmove _ p _ hq]
      rcases phase_rouse_cases (t := K.task waker) (q := q) s rfl with
        ⟨heq, _⟩ | ⟨c, heq, hx⟩
      · exact .inl heq.symm
      · exact .inr ⟨c, by rw [heq]; rfl, by rw [hx]; rfl⟩
  | poll p c roused waker =>
      refine .inl ?_
      rw [next]
      split <;> exact hmove _ p _ hq
  | _ => exact .inl (hmove _ _ _ hq)

end Flight

end Memo

end RustSak
