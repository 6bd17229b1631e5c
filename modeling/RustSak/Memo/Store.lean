import RustSak.Memo.Clock
import RustSak.Library.Table
import Mathlib.Logic.Function.Basic
import Mathlib.Algebra.Ring.Nat

/-!
# The byte-level store

The types every tier shares: the entry a read hands back, the errors, the
sizing options, and the calls of the `Store` trait together with what each of
them replies. A call carries what its environment settles: the clock readings
it takes and how redb answers the transaction it opens.
-/

namespace RustSak

namespace Memo

abbrev Key := String

abbrev Bytes := List UInt8

/-- One record read back out of a store: the raw value, and how much longer it
may be served, or `none` for one with no deadline. -/
structure Entry where
  value : Bytes
  remaining : Option Duration
  deriving DecidableEq

/-- An error produced by a cache operation. `ε` is the error of the computation
and `π` the encoder's; what redb or the file system reported is not kept. -/
inductive MemoError (ε π : Type*) where
  | compute (err : ε)
  | computeAbandoned
  | encode (err : π)
  | io
  | notAdmitted
  | storage
  deriving DecidableEq

/-- What a store's own operations return: a store computes and encodes
nothing. -/
abbrev StoreResult (α : Type) := Except (MemoError Empty Empty) α

def u32Max : ℕ := 2 ^ 32 - 1

structure CacheOpts where
  maxEntries : ℕ
  maxCapacity : ℕ
  flushEvery : ℕ
  flushInterval : Duration
  flushEvery_pos : 0 < flushEvery
  flushEvery_le : flushEvery ≤ u32Max

namespace CacheOpts

def new : CacheOpts where
  maxEntries := 10000
  maxCapacity := 2 ^ 30
  flushEvery := 1
  flushInterval := 0
  flushEvery_pos := Nat.one_pos
  flushEvery_le := by decide

/-- Zero restores the default. -/
def withMaxCapacity (opts : CacheOpts) (bytes : ℕ) : CacheOpts :=
  { opts with maxCapacity := if bytes = 0 then new.maxCapacity else bytes }

/-- Zero restores the default. The bound is the argument's type, `u32`. -/
def withFlushEvery (opts : CacheOpts) (writes : UInt32) : CacheOpts :=
  { opts with
    flushEvery := if writes = 0 then new.flushEvery else writes.toNat
    flushEvery_pos := by
      split
      · exact new.flushEvery_pos
      · rename_i h
        exact Nat.pos_of_ne_zero fun h0 => h (UInt32.toNat_inj.mp h0)
    flushEvery_le := by
      split
      · exact new.flushEvery_le
      · exact Nat.le_sub_one_of_lt writes.toNat_lt }

def withFlushInterval (opts : CacheOpts) (interval : Duration) : CacheOpts :=
  { opts with flushInterval := interval }

end CacheOpts

/-- How redb answers the transaction a call opens: every step of it succeeds,
the table is not there and opening it says just that, or some step fails and
nothing is committed. -/
inductive Redb where
  | works
  | missing
  | fails
  deriving DecidableEq

/-- One call of the `Store` trait, with the clock readings it takes. A read
takes a second one when it promotes what it found; a `cleanup` that finds a
sweep in flight (`busy`) leaves the work to it, and `compacts` says whether a
sweep that reached its compaction got through it. -/
inductive Call where
  | get (key : Key) (now later : Now) (redb : Redb)
  | set (key : Key) (value : Bytes) (ttl : Duration) (now : Now) (redb : Redb)
  | remove (key : Key) (now : Now) (redb : Redb)
  | retain (keep : Key → Bool) (now : Now) (redb : Redb)
  | cleanup (now : Now) (redb : Redb) (busy compacts : Bool)
  | flush (now : Now) (redb : Redb)

inductive Reply where
  | got (result : StoreResult (Option Entry))
  | done (result : StoreResult Unit)
  | removed (result : StoreResult Bool)
  | retained (result : StoreResult ℕ)
  deriving DecidableEq

namespace Call

def start : Call → Now
  | get _ now _ _ => now
  | set _ _ _ now _ => now
  | remove _ now _ => now
  | retain _ now _ => now
  | cleanup now _ _ _ => now
  | flush now _ => now

def finish : Call → Now
  | get _ _ later _ => later
  | set _ _ _ now _ => now
  | remove _ now _ => now
  | retain _ now _ => now
  | cleanup now _ _ _ => now
  | flush now _ => now

end Call

/-- What a call that returned `reply` leaves as the value of each key, from what
was left before it. Only a write that returned `Ok` counts. -/
def leaves : Call → Reply → (Key → Option Bytes) → Key → Option Bytes
  | .set key value _ _ _, .done (.ok _), written =>
      Function.update written key (some value)
  | .remove key _ _, .removed (.ok _), written =>
      Function.update written key none
  | .retain keep _ _, .retained (.ok _), written =>
      fun k => if keep k then written k else none
  | _, _, written => written

end Memo

end RustSak
