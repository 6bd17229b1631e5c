import RustSak.Memo.DiskStore

/-!
# Records across every clock

Zero milliseconds stands for "no deadline", and it is also what a deadline before
or within the epoch's first millisecond is stored as. So a record says what `set`
meant exactly on clocks that leave the entry's end at least a millisecond behind
the epoch.
-/

namespace RustSak

namespace Memo

open Library

/-- The record holds the value and the end of its life: none for an end that
cannot be represented, and no later than the end up to the stored unit. -/
def HoldsDeadline (P : Platform) (now : SystemTime) (ttl : Duration) (value : Bytes)
    (record : Bytes) : Prop :=
  ∃ expiresAt, split record = some (expiresAt, value) ∧
    match P.systemTimeAdd now ttl with
    | none => expiresAt = none
    | some at' => ∃ deadline, expiresAt = some deadline ∧
        deadline < at' + nanosPerMilli

theorem deadlineMillis_of_add {P : Platform} {now at' : ℤ} {ttl : Duration}
    (h : P.systemTimeAdd now ttl = some at') :
    deadlineMillis P now ttl =
      if at' < 0 then 0 else min (at'.toNat / nanosPerMilli) u64Max := by
  unfold deadlineMillis
  rw [h]

theorem deadlineMillis_of_overflow {P : Platform} {now : SystemTime} {ttl : Duration}
    (h : P.systemTimeAdd now ttl = none) : deadlineMillis P now ttl = 0 := by
  unfold deadlineMillis
  rw [h]

/-- The sentinel is stored for every end before the first full millisecond. -/
theorem deadlineMillis_eq_zero_iff {P : Platform} {now at' : ℤ}
    {ttl : Duration} (h : P.systemTimeAdd now ttl = some at') :
    deadlineMillis P now ttl = 0 ↔ at' < nanosPerMilli := by
  have hunit : (nanosPerMilli : ℤ) = 1000000 := rfl
  rw [deadlineMillis_of_add h]
  split
  · rename_i hneg
    exact ⟨fun _ => by omega, fun _ => rfl⟩
  · have hmax : 0 < u64Max := by decide
    have hmin : min (at'.toNat / nanosPerMilli) u64Max = 0 ↔
        at'.toNat / nanosPerMilli = 0 := by omega
    rw [hmin, Nat.div_eq_zero_iff]
    unfold nanosPerMilli
    omega

/-- A stored deadline is rounded down. -/
theorem deadlineMillis_le {P : Platform} {now at' : ℤ} {ttl : Duration}
    (h : P.systemTimeAdd now ttl = some at') (hpos : 0 ≤ at') :
    ((deadlineMillis P now ttl * nanosPerMilli : ℕ) : ℤ) ≤ at' := by
  rw [deadlineMillis_of_add h, if_neg (not_lt.mpr hpos)]
  have hmin : min (at'.toNat / nanosPerMilli) u64Max * nanosPerMilli ≤
      at'.toNat / nanosPerMilli * nanosPerMilli :=
    Nat.mul_le_mul_right _ (Nat.min_le_left _ _)
  have hle := hmin.trans (Nat.div_mul_le_self at'.toNat nanosPerMilli)
  omega

/-- The record of a value says when it ends exactly if the end is not before the
epoch's first full millisecond. -/
theorem holdsDeadline_encodeRecord (P : Platform) (now : SystemTime) (ttl : Duration)
    (value : Bytes) :
    HoldsDeadline P now ttl value (encodeRecord P now ttl value) ↔
      ∀ at', P.systemTimeAdd now ttl = some at' → (nanosPerMilli : ℤ) ≤ at' := by
  unfold HoldsDeadline
  rw [split_encodeRecord]
  cases hadd : P.systemTimeAdd now ttl with
  | none => simp [deadlineMillis_of_overflow hadd]
  | some at' =>
      have hzero := deadlineMillis_eq_zero_iff hadd
      simp only [Option.some.injEq, Prod.mk.injEq, and_true, forall_eq']
      by_cases hsmall : at' < nanosPerMilli
      · rw [if_pos (hzero.mpr hsmall)]
        constructor
        · rintro ⟨expiresAt, rfl, deadline, hno, _⟩
          cases hno
        · intro h
          exact absurd h (not_le.mpr hsmall)
      · rw [if_neg (mt hzero.mp hsmall)]
        have hunit : (0 : ℤ) < nanosPerMilli := by decide
        have hlarge : (nanosPerMilli : ℤ) ≤ at' := not_lt.mp hsmall
        have hle := deadlineMillis_le hadd (hunit.le.trans hlarge)
        exact ⟨fun _ => hlarge, fun _ => ⟨_, rfl, _, rfl,
          lt_of_le_of_lt hle (lt_add_of_pos_right _ hunit)⟩⟩

namespace DiskStore

/-- A `set` that returned `Ok` has left the record of its value. -/
theorem lookup_of_set {P : Platform} {s s' : DiskStore} {key : Key} {value : Bytes}
    {ttl : Duration} {now : Now} {redb : Redb}
    (h : s.set P key value ttl now redb = (s', .ok ())) :
    s'.db.records.lookup key = some (encodeRecord P now.wall ttl value) := by
  unfold set at h
  split at h
  · cases h
  · split at h
    · cases h
      rw [Database.records_commit_set, AList.lookup_insert]
    · cases h
    · cases h

/-- What `set` stores decodes to the value and to its deadline, on every clock,
exactly unless the end it can represent lies before the first full millisecond
after the epoch. -/
theorem stored_record_round_trips_iff {P : Platform} {s s' : DiskStore} {key : Key}
    {value : Bytes} {ttl : Duration} {now : Now} {redb : Redb}
    (h : s.set P key value ttl now redb = (s', .ok ())) :
    (∃ record, s'.db.records.lookup key = some record ∧
        HoldsDeadline P now.wall ttl value record) ↔
      ∀ at', P.systemTimeAdd now.wall ttl = some at' → (nanosPerMilli : ℤ) ≤ at' := by
  rw [lookup_of_set h, ← holdsDeadline_encodeRecord P now.wall ttl value]
  constructor
  · rintro ⟨record, hrecord, hholds⟩
    cases hrecord
    exact hholds
  · exact fun hholds => ⟨_, rfl, hholds⟩

/-- A platform whose clocks reach some three hundred years around the epoch. -/
def nearEpoch : Platform := ⟨2 ^ 63, 2 ^ 63⟩

def fresh : DiskStore := openOn none CacheOpts.new 0

/-- A second that starts half a second before the epoch ends behind it. -/
theorem stored_record_round_trips_across :
    ∃ record, ((fresh.set nearEpoch "k" [7] 1000000000 ⟨0, -500000000⟩
        .works).1.db.records).lookup "k" = some record ∧
      HoldsDeadline nearEpoch (-500000000) 1000000000 [7] record := by
  refine (@stored_record_round_trips_iff nearEpoch fresh _ "k" [7] 1000000000
    ⟨0, -500000000⟩ .works rfl).mpr ?_
  decide

/-- A second that ends before the epoch is stored as no deadline at all. -/
theorem not_stored_record_round_trips :
    ¬ ∀ (now : SystemTime) (ttl : Duration) (value : Bytes), 0 < ttl →
      (nearEpoch.systemTimeAdd now ttl).isSome = true →
      HoldsDeadline nearEpoch now ttl value (encodeRecord nearEpoch now ttl value) := by
  intro h
  have hadd : nearEpoch.systemTimeAdd (-2000000000) 1000000000 = some (-1000000000) := by
    decide
  have hholds := h (-2000000000) 1000000000 [7] (by decide) (by rw [hadd]; rfl)
  have hunit := (holdsDeadline_encodeRecord nearEpoch (-2000000000) 1000000000 [7]).mp
    hholds _ hadd
  exact absurd hunit (by decide)

end DiskStore

end Memo

end RustSak
