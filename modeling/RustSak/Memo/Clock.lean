import Mathlib.Data.Int.Basic
import Mathlib.Order.Basic
import Mathlib.Order.Lattice

/-!
# Clocks and durations

The memory tier measures its deadlines on the monotonic clock, the disk tier on
the wall clock, because its deadlines have to survive a restart. Both are read
in nanoseconds here; a wall-clock reading counts from the Unix epoch and is
negative before it. How far each clock can be added to is the platform's
choice.
-/

namespace RustSak

namespace Memo

abbrev Duration := ℕ

abbrev Instant := ℕ

abbrev SystemTime := ℤ

def nanosPerMilli : ℕ := 1000000

structure Platform where
  instantMax : Instant
  systemTimeMax : SystemTime

/-- `Instant::checked_add`: nothing when the sum cannot be represented. -/
def Platform.instantAdd (P : Platform) (at' : Instant) (d : Duration) :
    Option Instant :=
  if at' + d ≤ P.instantMax then some (at' + d) else none

/-- `SystemTime::checked_add`: nothing when the sum cannot be represented. -/
def Platform.systemTimeAdd (P : Platform) (at' : SystemTime) (d : Duration) :
    Option SystemTime :=
  if at' + d ≤ P.systemTimeMax then some (at' + d) else none

structure Now where
  instant : Instant
  wall : SystemTime
  deriving DecidableEq

namespace Now

instance : LE Now where
  le a b := a.instant ≤ b.instant ∧ a.wall ≤ b.wall

theorem le_def {a b : Now} : a ≤ b ↔ a.instant ≤ b.instant ∧ a.wall ≤ b.wall :=
  Iff.rfl

instance (a b : Now) : Decidable (a ≤ b) :=
  inferInstanceAs (Decidable (a.instant ≤ b.instant ∧ a.wall ≤ b.wall))

end Now

end Memo

end RustSak
