import Mathlib.Algebra.Ring.Nat

/-!
# Arithmetic that may not leave its width

The operations of unsigned integers of `w` bits, none where the result does not fit or
the divisor is zero. A computation with a result has done nothing that overflows.

`Panicking` is for a computation where some of that panics and some returns early.
-/

namespace RustSak

namespace Library

/-- The targets a program is built for, by the bits of their `usize`. -/
inductive Target
  | pointer32
  | pointer64
  deriving DecidableEq

def Target.bits : Target → ℕ
  | pointer32 => 32
  | pointer64 => 64

theorem Target.le_bits (target : Target) : 32 ≤ target.bits := by
  cases target <;> decide

theorem Target.two_mul_half (target : Target) : 2 * 2 ^ (target.bits - 1) = 2 ^ target.bits := by
  cases target <;> rfl

theorem Target.le_half (target : Target) : 2 ^ 31 ≤ 2 ^ (target.bits - 1) := by
  cases target <;> decide

/-- A slice takes half of the addresses at most. -/
def Target.Addresses {α : Type} (target : Target) (xs : List α) : Prop :=
  xs.length < 2 ^ (target.bits - 1)

namespace Checked

def fits (w n : ℕ) : Option ℕ := if n < 2 ^ w then some n else none

def add (w a b : ℕ) : Option ℕ := fits w (a + b)

def mul (w a b : ℕ) : Option ℕ := fits w (a * b)

def div (a b : ℕ) : Option ℕ := if b = 0 then none else some (a / b)

variable {w a b n : ℕ}

theorem fits_eq_some : fits w a = some n ↔ a < 2 ^ w ∧ a = n := by
  rw [fits, Option.ite_none_right_eq_some, Option.some.injEq]

theorem fits_of_lt (h : n < 2 ^ w) : fits w n = some n := if_pos h

theorem fits_eq_none : fits w n = none ↔ 2 ^ w ≤ n := by
  simp [fits]

theorem add_of_lt (h : a + b < 2 ^ w) : add w a b = some (a + b) := fits_of_lt h

theorem mul_of_lt (h : a * b < 2 ^ w) : mul w a b = some (a * b) := fits_of_lt h

theorem div_of_pos (h : 0 < b) : div a b = some (a / b) := if_neg (Nat.pos_iff_ne_zero.mp h)

end Checked

/-- How a computation stops early: it panics, or returns to its caller. -/
inductive Halt (ε : Type) where
  | panicked
  | returned (e : ε)
  deriving DecidableEq

abbrev Panicking (ε α : Type) := Except (Halt ε) α

namespace Panicking

variable {ε ε' α β : Type}

/-- What has to be there, or the computation panics. -/
def orPanic (x : Option α) : Panicking ε α := x.elim (.error .panicked) .ok

/-- What has to be there, or the computation returns. -/
def orReturn (e : ε) (x : Option α) : Panicking ε α := x.elim (.error (.returned e)) .ok

/-- A failure that is returned. -/
def ofAttempt : Except ε α → Panicking ε α
  | .error e => .error (.returned e)
  | .ok x => .ok x

/-- The caller of a function that returns an option looks at it. -/
def called : Panicking Unit α → Panicking ε (Option α)
  | .error .panicked => .error .panicked
  | .error (.returned _) => .ok none
  | .ok x => .ok (some x)

@[simp] theorem orPanic_some (x : α) : (orPanic (some x) : Panicking ε α) = .ok x := rfl

@[simp] theorem orReturn_some (e : ε) (x : α) : orReturn e (some x) = .ok x := rfl

@[simp] theorem orReturn_none (e : ε) : orReturn e (none : Option α) = .error (.returned e) := rfl

@[simp] theorem ofAttempt_ok (x : α) : ofAttempt (.ok x : Except ε α) = .ok x := rfl

@[simp] theorem ok_bind (x : α) (f : α → Panicking ε β) : Except.ok x >>= f = f x := rfl

@[simp] theorem error_bind (e : Halt ε) (f : α → Panicking ε β) :
    (Except.error e : Panicking ε α) >>= f = .error e := rfl

theorem orReturn_bind (e : ε) (x : Option α) (f : α → Option β) :
    orReturn e (x.bind f) = orReturn e x >>= fun a => orReturn e (f a) := by
  cases x with
  | none => rfl
  | some a => rfl

theorem orReturn_map (e : ε) (x : Option α) (f : α → β) :
    orReturn e (x.map f) = orReturn e x >>= fun a => .ok (f a) := by
  cases x with
  | none => rfl
  | some a => rfl

theorem ofAttempt_bind (x : Except ε α) (f : α → Except ε β) :
    ofAttempt (x >>= f) = ofAttempt x >>= fun a => ofAttempt (f a) := by
  cases x with
  | error e => rfl
  | ok a => rfl

theorem called_orReturn (x : Option α) :
    (called (orReturn () x) : Panicking ε (Option α)) = .ok x := by
  cases x with
  | none => rfl
  | some a => rfl

theorem ofAttempt_ne_panicked (x : Except ε α) : ofAttempt x ≠ .error .panicked := by
  cases x <;> simp [ofAttempt]

theorem orReturn_ne_panicked (e : ε) (x : Option α) : orReturn e x ≠ .error .panicked := by
  cases x <;> simp [orReturn]

end Panicking

end Library

end RustSak
