import RustSak.Memo.FlightSafety
import RustSak.Memo.Header

/-!
# Get or compute

Any number of callers ask for one key and one type. Each looks into the store,
enters the flight, and either waits for another's outcome or leads: it looks
again, computes, encodes, stores, publishes and leaves. The flight is a part of
the state and takes its own steps (`flies`), so what holds of every flight holds
here. A caller may be cancelled while it waits, and a leader may be cancelled or
panic before it publishes; a write already handed to another thread then still
lands.
-/

namespace RustSak

namespace Memo

open Library

/-- What all the callers of one key and one type share, and what each of their
computations would give. -/
structure Job (ι ε π V W τ : Type) where
  postcard : Postcard V π
  fingerprint : UInt64
  key : Key
  computation : ι → Except ε V
  wakers : Wakers W τ

namespace Job

variable {ι ε π V W τ : Type}

/-- Where a caller stands in `get_or_compute`. While it follows, and while it
publishes and leaves, the flight knows the rest. -/
inductive Pc (ε π V : Type) where
  | start
  | entering
  | waiting
  | rechecking
  | computing
  | storing (value : V) (bytes : Bytes)
  | finishing (outcome : Outcome ε π) (result : Except (MemoError ε π) V)
  | returned (result : Except (MemoError ε π) V)
  | aborting (write : Option Bytes)

structure State (ι ε π V W τ : Type) where
  flight : Flight.State ι ε π W τ
  stored : Option Bytes
  pc : ι → Pc ε π V

inductive Event (ι ε π V W : Type) where
  | load (p : ι)
  | join (p : ι) (call : ℕ) (async : Bool)
  | lead (p : ι)
  | recheck (p : ι)
  | compute (p : ι) (call : ℕ)
  | store (p : ι) (value : V) (bytes : Bytes) (accepted : Bool)
  | flight (e : Flight.Event ι ε π W)
  | cancel (p : ι) (call : ℕ) (roused : Bool)
  | abort (p : ι)
  /-- The write of a cancelled leader lands. -/
  | detached (p : ι) (bytes : Bytes) (accepted : Bool)

variable (J : Job ι ε π V W τ)

def flightKey : Key := Memo.flightKey J.fingerprint J.key

/-- Reads and decodes the entry: nothing when there is nothing this caller can
use. -/
def load (stored : Option Bytes) : Option (Bytes × V) :=
  stored.bind fun bytes =>
    (Header.decode J.postcard J.fingerprint bytes).map fun value => (bytes, value)

/-- Turns what a leader published into the caller's result. -/
def resolve : Outcome ε π → Except (MemoError ε π) V
  | .ready bytes =>
      match Header.decode J.postcard J.fingerprint bytes with
      | some value => .ok value
      | none => .error .computeAbandoned
  | other => .error (other.intoError.getD .computeAbandoned)

/-- What a leader does with what its computation gave. -/
def computed : Except ε V → Pc ε π V
  | .error err => .finishing (.compute err) (.error (.compute err))
  | .ok value =>
      match Header.encode J.postcard J.fingerprint value with
      | .error err => .finishing (.encode err) (.error (.encode err))
      | .ok bytes => .storing value bytes

/-- The outcome a leader is to publish. -/
def Pc.publishes : Pc ε π V → Option (Outcome ε π)
  | finishing outcome _ => some outcome
  | _ => none

def Pc.aborts : Pc ε π V → Bool
  | aborting _ => true
  | _ => false

/-- A leader publishes what it is finishing with, once, and then drops; one that
aborts only drops. Everything else the flight does by itself. -/
def Allowed (s : State ι ε π V W τ) : Flight.Event ι ε π W → Prop
  | .settle p l outcome =>
      ((s.pc p).publishes = some outcome ∧ l.dropping = false ∧
        l.published = false) ∨ ((s.pc p).aborts = true ∧ l.dropping = true)
  | .ignore p l =>
      ((s.pc p).publishes.isSome = true ∧ l.dropping = false ∧
        l.published = false) ∨ ((s.pc p).aborts = true ∧ l.dropping = true)
  | .deregister p l =>
      ((s.pc p).publishes.isSome = true ∧ l.published = true) ∨
        (s.pc p).aborts = true
  | .join .. => False
  | .lead .. => False
  | .cancel .. => False
  | _ => True

/-- The call the caller leads. -/
def leads : Flight.Phase ε π W τ → Option ℕ
  | .leading l => some l.call
  | _ => none

/-- Where a leader may still be cancelled, or panic. -/
def Pc.abort : Pc ε π V → Option (Pc ε π V)
  | rechecking => some (aborting none)
  | computing => some (aborting none)
  | storing _ bytes => some (aborting (some bytes))
  | _ => none

def Enabled (s : State ι ε π V W τ) : Event ι ε π V W → Prop
  | .load p => s.pc p = .start
  | .join p c async =>
      s.pc p = .entering ∧ Flight.Enabled s.flight (.join p J.flightKey c async)
  | .lead p => s.pc p = .entering ∧ Flight.Enabled s.flight (.lead p J.flightKey)
  | .recheck p => s.pc p = .rechecking
  | .compute p c => s.pc p = .computing ∧ leads (s.flight.phase p) = some c
  | .store p value bytes _ => s.pc p = .storing value bytes
  | .flight e => Flight.Enabled s.flight e ∧ Allowed s e
  | .cancel p c roused => Flight.Enabled s.flight (.cancel p c roused)
  | .abort p => ((s.pc p).abort).isSome = true
  | .detached p bytes _ => s.pc p = .aborting (some bytes)

section Next

variable [DecidableEq ι] [DecidableEq τ]

def State.move (s : State ι ε π V W τ) (p : ι) (x : Pc ε π V) :
    State ι ε π V W τ :=
  { s with pc := Function.update s.pc p x }

/-- The flight takes a step. -/
def State.fly (s : State ι ε π V W τ) (e : Flight.Event ι ε π W) :
    State ι ε π V W τ :=
  { s with flight := Flight.next J.wakers s.flight e }

def State.write (s : State ι ε π V W τ) (bytes : Bytes) (accepted : Bool) :
    State ι ε π V W τ :=
  { s with stored := if accepted then some bytes else s.stored }

def next (s : State ι ε π V W τ) : Event ι ε π V W → State ι ε π V W τ
  | .load p =>
      s.move p (match J.load s.stored with
        | some (_, value) => .returned (.ok value)
        | none => .entering)
  | .join p c async => (s.fly J (.join p J.flightKey c async)).move p .waiting
  | .lead p => (s.fly J (.lead p J.flightKey)).move p .rechecking
  | .recheck p =>
      s.move p (match J.load s.stored with
        | some (bytes, value) => .finishing (.ready bytes) (.ok value)
        | none => .computing)
  | .compute p _ => s.move p (J.computed (J.computation p))
  | .store p value bytes accepted =>
      (s.write bytes accepted).move p (.finishing (.ready bytes) (.ok value))
  | .flight e => s.fly J e
  | .cancel p c roused => s.fly J (.cancel p c roused)
  | .abort p => s.move p (((s.pc p).abort).getD (s.pc p))
  | .detached p bytes accepted => (s.write bytes accepted).move p (.aborting none)

def machine (stored : Option Bytes) :
    Machine (State ι ε π V W τ) (Event ι ε π V W) :=
  .guarded (fun s => s = ⟨.empty, stored, fun _ => .start⟩) J.Enabled J.next

/-- Every run is a run of the flight. -/
def flies (stored : Option Bytes) :
    Machine.Simulation (J.machine stored)
      (Flight.machine J.wakers : Machine (Flight.State ι ε π W τ) _) where
  abs := State.flight
  init := by
    rintro _ rfl
    rfl
  step := by
    rintro s e _ ⟨he, rfl⟩
    cases e with
    | join p c async => exact .inr ⟨_, he.2, rfl⟩
    | lead p => exact .inr ⟨_, he.2, rfl⟩
    | flight e => exact .inr ⟨e, he.1, rfl⟩
    | cancel p c roused => exact .inr ⟨.cancel p c roused, he, rfl⟩
    | _ => exact .inl rfl

omit [DecidableEq τ] in
theorem pc_move_self (s : State ι ε π V W τ) (p : ι) (x : Pc ε π V) :
    (s.move p x).pc p = x := Function.update_self ..

theorem pc_fly (s : State ι ε π V W τ) (e : Flight.Event ι ε π W) :
    (s.fly J e).pc = s.pc := rfl

theorem stored_move_fly (s : State ι ε π V W τ) (e : Flight.Event ι ε π W) (p : ι)
    (x : Pc ε π V) : ((s.fly J e).move p x).stored = s.stored := rfl

omit [DecidableEq τ] in
theorem pc_move_of_ne (s : State ι ε π V W τ) {p q : ι} (h : q ≠ p)
    (x : Pc ε π V) : (s.move p x).pc q = s.pc q := Function.update_of_ne h ..

end Next

/-- What the call of a caller has returned. -/
def State.result (s : State ι ε π V W τ) (p : ι) :
    Option (Except (MemoError ε π) V) :=
  match s.pc p, s.flight.phase p with
  | .returned result, _ => some result
  | .waiting, .returned _ outcome => some (J.resolve outcome)
  | .finishing _ result, .gone => some result
  | _, _ => none

end Job

end Memo

end RustSak
