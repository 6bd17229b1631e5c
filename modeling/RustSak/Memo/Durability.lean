import RustSak.Memo.DiskStore
import RustSak.Library.Machine

/-!
# What a crash can lose

Every call of a disk store commits at most once, and only a `set` may commit
without being forced to disk. The cadence counts the sets committed since the
last durable commit it knows of; a sweep commits durably without telling it, so
its count is a bound and not the number itself. A crash therefore takes the
content back over fewer than `flush_every` sets and over nothing else.
-/

namespace RustSak

namespace Memo

open Library

namespace DiskStore

/-- All runs of one disk store, opened with `opts` on a file that holds
`base`. -/
def machine (P : Platform) (base : Option (Table Key Bytes)) (opts : CacheOpts) :
    Machine DiskStore Call where
  init s := ∃ at', s = openOn base opts at'
  step s c s' := s' = (s.exec P c).1

/-- The committed sets that no durable commit has carried to disk. -/
def undurableSets (s : DiskStore) : ℕ :=
  (CommitLog.undurable s.db.log).countP fun c => c.write.isSet

/-- The log may be cut by a crash before the call, within it or after it. A call
commits at most once (`log_exec`), so these are the logs the crash may find. -/
def CrashLeaves (P : Platform) (s : DiskStore) (c : Call)
    (left : List (Commit Write)) : Prop :=
  CommitLog.Survives s.db.log left ∨
    CommitLog.Survives (s.exec P c).1.db.log left

/-- The call is a `remove` that returns `Ok`, or a `retain` that returns `Ok`
and drops an entry. -/
def Removes (s : DiskStore) : Call → Prop
  | .remove key now redb => ∃ b, (s.remove key now redb).2 = .ok b
  | .retain keep now redb =>
      (∃ n, (s.retain keep now redb).2 = .ok n) ∧
        ∃ key record, s.db.records.lookup key = some record ∧
          kept keep now.wall key record = false
  | _ => False

/-- What a call does to the log and the cadence: nothing; a `set` at the
durability the cadence chose; a durable commit that empties the count; or the
sweep's durable commit, of which the cadence hears nothing. -/
theorem exec_cases (P : Platform) (s : DiskStore) (c : Call) :
    (s.exec P c).1 = s ∨
    (∃ key record now, (s.exec P c).1 =
      ⟨s.db.commit (.set key record) (s.cadence.nextIsDurable now),
        s.cadence.committed (s.cadence.nextIsDurable now) now⟩) ∨
    (∃ w now, (s.exec P c).1 = s.commitDurably w now ∧
      (s.db.table = none → w ≠ .flush ∨ s.cadence.pending ≠ 0)) ∨
    (∃ kept, (s.exec P c).1 = { s with db := s.db.commit (.retain kept) true }) := by
  cases c with
  | get key now later redb => exact .inl rfl
  | set key value ttl now redb =>
      by_cases ht : ttl = 0
      · exact .inl (by simp [exec, set, ht])
      · cases ho : s.db.openTable redb with
        | table t =>
            refine .inr (.inl ⟨key, encodeRecord P now.wall ttl value,
              now.instant, ?_⟩)
            simp [exec, set, ht, ho]
        | doesNotExist => exact .inl (by simp [exec, set, ht, ho])
        | error => exact .inl (by simp [exec, set, ht, ho])
  | remove key now redb =>
      cases ho : s.db.openTable redb with
      | table t =>
          refine .inr (.inr (.inl ⟨.remove key, now.instant, ?_, ?_⟩))
          · simp only [exec, remove, ho]
          · exact fun _ => .inl (by simp)
      | doesNotExist => exact .inl (by simp [exec, remove, ho])
      | error => exact .inl (by simp [exec, remove, ho])
  | retain keep now redb =>
      cases ho : s.db.openTable redb with
      | table t =>
          simp only [exec, retain, ho]
          split
          · exact .inl rfl
          · exact .inr (.inr (.inl ⟨_, now.instant, rfl, fun _ => .inl (by simp)⟩))
      | doesNotExist => exact .inl (by simp [exec, retain, ho])
      | error => exact .inl (by simp [exec, retain, ho])
  | cleanup now redb busy compacts =>
      cases busy with
      | true => exact .inl rfl
      | false =>
          cases ho : s.db.openTable redb with
          | table t =>
              exact .inr (.inr (.inr ⟨_, by simp [exec, cleanup, sweep, ho]; rfl⟩))
          | doesNotExist => exact .inl (by simp [exec, cleanup, sweep, ho])
          | error => exact .inl (by simp [exec, cleanup, sweep, ho])
  | flush now redb =>
      simp only [exec, flush]
      split
      · exact .inl rfl
      · rename_i hpending
        split
        · exact .inl rfl
        · exact .inr (.inr (.inl ⟨.flush, now.instant, rfl, fun _ => .inr hpending⟩))

/-- A call commits at most once. -/
theorem log_exec (P : Platform) (s : DiskStore) (c : Call) :
    (s.exec P c).1.db.log = s.db.log ∨
      ∃ commit, (s.exec P c).1.db.log = commit :: s.db.log := by
  rcases exec_cases P s c with h | ⟨_, _, _, h⟩ | ⟨_, _, h, _⟩ | ⟨_, h⟩ <;> rw [h]
  · exact .inl rfl
  · exact .inr ⟨_, rfl⟩
  · exact .inr ⟨_, rfl⟩
  · exact .inr ⟨_, rfl⟩

theorem suffix_exec (P : Platform) (s : DiskStore) (c : Call) :
    s.db.log <:+ (s.exec P c).1.db.log := by
  rcases log_exec P s c with h | ⟨commit, h⟩
  · simp [h]
  · rw [h]
    exact List.suffix_cons _ _

/-- What holds between two calls. -/
structure Bounded (s : DiskStore) : Prop where
  undurable_le : (CommitLog.undurable s.db.log).length ≤ s.cadence.pending
  pending_lt : s.cadence.pending < s.cadence.every
  deferred_isSet : ∀ c ∈ s.db.log, c.durable = false → c.write.isSet = true
  log_of_table : s.db.table = none → s.db.log = [] ∧ s.cadence.pending = 0

theorem bounded_openOn (base : Option (Table Key Bytes)) (opts : CacheOpts)
    (at' : Instant) : (openOn base opts at').Bounded where
  undurable_le := le_rfl
  pending_lt := opts.flushEvery_pos
  deferred_isSet _ hc := absurd hc List.not_mem_nil
  log_of_table _ := ⟨rfl, rfl⟩

theorem Bounded.set {s : DiskStore} (h : s.Bounded) (key : Key) (record : Bytes)
    (now : Instant) :
    Bounded ⟨s.db.commit (.set key record) (s.cadence.nextIsDurable now),
      s.cadence.committed (s.cadence.nextIsDurable now) now⟩ := by
  have htable : (s.db.commit (.set key record)
      (s.cadence.nextIsDurable now)).table ≠ none := by
    rw [Database.table_commit]
    simp [Write.apply]
  cases hd : s.cadence.nextIsDurable now with
  | true =>
      rw [hd] at htable
      refine ⟨by simp [Database.commit], s.cadence.every_pos, ?_,
        fun hn => absurd hn htable⟩
      intro c hc hdur
      rcases List.mem_cons.mp hc with rfl | hc
      · rfl
      · exact h.deferred_isSet c hc hdur
  | false =>
      obtain ⟨hpending, hlt⟩ := Cadence.pending_committed_deferred hd now
      rw [hd] at htable
      refine ⟨?_, ?_, ?_, fun hn => absurd hn htable⟩
      · have hle := h.undurable_le
        rw [hpending]
        simp only [Database.commit, CommitLog.undurable_deferred,
          List.length_cons]
        omega
      · rw [hpending, Cadence.every_committed]
        exact hlt
      · intro c hc hdur
        rcases List.mem_cons.mp hc with rfl | hc
        · rfl
        · exact h.deferred_isSet c hc hdur

theorem Bounded.commitDurably {s : DiskStore} (h : s.Bounded) (w : Write)
    (now : Instant)
    (hw : s.db.table = none → w ≠ .flush ∨ s.cadence.pending ≠ 0) :
    (s.commitDurably w now).Bounded where
  undurable_le := by simp [DiskStore.commitDurably, Database.commit]
  pending_lt := s.cadence.every_pos
  deferred_isSet c hc hdur := by
    rcases List.mem_cons.mp hc with rfl | hc
    · cases hdur
    · exact h.deferred_isSet c hc hdur
  log_of_table hn := by
    rw [DiskStore.commitDurably, Database.table_commit] at hn
    cases w with
    | set key record => cases hn
    | remove key => cases hn
    | retain kept => cases hn
    | flush =>
        -- a flush of a store without a table has nothing to do
        rcases hw hn with hne | hpending
        · exact absurd rfl hne
        · exact absurd (h.log_of_table hn).2 hpending

theorem Bounded.swept {s : DiskStore} (h : s.Bounded)
    (kept : Key → Bytes → Bool) :
    Bounded { s with db := s.db.commit (.retain kept) true } where
  undurable_le := by simp [Database.commit]
  pending_lt := h.pending_lt
  deferred_isSet c hc hdur := by
    rcases List.mem_cons.mp hc with rfl | hc
    · cases hdur
    · exact h.deferred_isSet c hc hdur
  log_of_table hn := by
    rw [Database.table_commit] at hn
    cases hn

theorem Bounded.exec {s : DiskStore} (h : s.Bounded) (P : Platform) (c : Call) :
    (s.exec P c).1.Bounded := by
  rcases exec_cases P s c with
    heq | ⟨key, record, now, heq⟩ | ⟨w, now, heq, hw⟩ | ⟨kept, heq⟩ <;> rw [heq]
  · exact h
  · exact h.set key record now
  · exact h.commitDurably w now hw
  · exact h.swept kept

theorem every_exec (P : Platform) (s : DiskStore) (c : Call) :
    (s.exec P c).1.cadence.every = s.cadence.every := by
  rcases exec_cases P s c with h | ⟨_, _, _, h⟩ | ⟨_, _, h, _⟩ | ⟨_, h⟩ <;> rw [h]
  · exact Cadence.every_committed _ _ _
  · exact Cadence.every_committed _ _ _

theorem reachable_bounded {P : Platform} {base : Option (Table Key Bytes)}
    {opts : CacheOpts} {s : DiskStore} (hs : (machine P base opts).Reachable s) :
    s.Bounded ∧ s.cadence.every = opts.flushEvery := by
  refine hs.invariant (I := fun s => s.Bounded ∧
    s.cadence.every = opts.flushEvery) ?_ ?_
  · rintro _ ⟨at', rfl⟩
    exact ⟨bounded_openOn base opts at', rfl⟩
  · rintro s c _ ⟨hb, hevery⟩ rfl
    exact ⟨hb.exec P c, (every_exec P s c).trans hevery⟩

theorem Bounded.undurableSets_le {s : DiskStore} (h : s.Bounded) :
    s.undurableSets ≤ s.cadence.pending :=
  List.countP_le_length.trans h.undurable_le

/-- What a crash loses of a bounded store is sets only, fewer than `every`. -/
theorem Bounded.lost {s : DiskStore} (h : s.Bounded)
    {lost left : List (Commit Write)} (heq : s.db.log = lost ++ left)
    (hlost : ∀ c ∈ lost, c.durable = false) :
    (∀ c ∈ lost, c.write.isSet = true) ∧ lost.length < s.cadence.every := by
  constructor
  · intro c hc
    refine h.deferred_isSet c ?_ (hlost c hc)
    rw [heq]
    exact List.mem_append_left _ hc
  · calc lost.length
        ≤ (CommitLog.undurable s.db.log).length :=
          (CommitLog.Survives.lost_prefix heq hlost).length_le
      _ ≤ s.cadence.pending := h.undurable_le
      _ < s.cadence.every := h.pending_lt

/-- A removal that returned `Ok` leaves nothing undurable. -/
theorem Bounded.removes {s : DiskStore} (h : s.Bounded) (P : Platform) {c : Call}
    (hc : s.Removes c) : CommitLog.undurable (s.exec P c).1.db.log = [] := by
  cases c with
  | get key now later redb => cases hc
  | set key value ttl now redb => cases hc
  | remove key now redb =>
      obtain ⟨b, hb⟩ := hc
      cases ho : s.db.openTable redb with
      | table t => simp [DiskStore.exec, DiskStore.remove, ho, DiskStore.commitDurably,
          Database.commit]
      | doesNotExist =>
          have hlog := (h.log_of_table (Database.openTable_eq_doesNotExist ho)).1
          simp [DiskStore.exec, DiskStore.remove, ho, hlog]
      | error => simp [DiskStore.remove, ho] at hb
  | retain keep now redb =>
      obtain ⟨⟨n, hn⟩, key, record, hlookup, hdrop⟩ := hc
      cases ho : s.db.openTable redb with
      | table t =>
          obtain rfl := Database.openTable_eq_table ho
          have hpos : (s.db.records.entries.countP fun e =>
              !kept keep now.wall e.1 e.2) ≠ 0 := by
            intro hzero
            rw [List.countP_eq_zero] at hzero
            have hkept := hzero ⟨key, record⟩ (AList.mem_lookup_iff.mp hlookup)
            simp [hdrop] at hkept
          simp only [DiskStore.exec, DiskStore.retain, ho, if_neg hpos]
          rfl
      | doesNotExist =>
          have hnone : s.db.records = ∅ := by
            rw [Database.records, Database.openTable_eq_doesNotExist ho]
            rfl
          simp [hnone] at hlookup
      | error => simp [DiskStore.retain, ho] at hn
  | cleanup now redb busy compacts => cases hc
  | flush now redb => cases hc

theorem suffix_of_later {P : Platform} {base : Option (Table Key Bytes)}
    {opts : CacheOpts} {r s : DiskStore}
    (hr : (machine P base opts).Reachable r)
    (hl : (machine P base opts).Later r s) : r.db.log <:+ s.db.log := by
  refine Machine.Later.invariant (I := fun t => r.db.log <:+ t.db.log) ?_ hr hl
    (List.suffix_refl _)
  rintro t c _ _ hi rfl
  exact hi.trans (suffix_exec P t c)

/-- Between calls the undurable sets are at most `pending`, which stays below
`flush_every`; a crash at any point takes the content back over at most
`flush_every - 1` sets and nothing else, and never to before a removal that
returned `Ok`. -/
theorem crash_loses_recent_sets (P : Platform)
    (base : Option (Table Key Bytes)) (opts : CacheOpts) :
    (∀ s, (machine P base opts).Reachable s →
      s.undurableSets ≤ s.cadence.pending ∧
        s.cadence.pending ≤ opts.flushEvery - 1) ∧
    (∀ s c left, (machine P base opts).Reachable s → s.CrashLeaves P c left →
      ∃ lost, (s.db.log = lost ++ left ∨ (s.exec P c).1.db.log = lost ++ left) ∧
        (∀ x ∈ lost, x.write.isSet = true) ∧
        lost.length ≤ opts.flushEvery - 1) ∧
    (∀ r c₀ s c left, (machine P base opts).Reachable r → r.Removes c₀ →
      (machine P base opts).Later (r.exec P c₀).1 s → s.CrashLeaves P c left →
        (r.exec P c₀).1.db.log <:+ left) := by
  refine ⟨fun s hs => ?_, fun s c left hs hcrash => ?_,
    fun r c₀ s c left hr hc₀ hl hcrash => ?_⟩
  · obtain ⟨hb, hevery⟩ := reachable_bounded hs
    have hlt := hb.pending_lt
    exact ⟨hb.undurableSets_le, by omega⟩
  · obtain ⟨hb, hevery⟩ := reachable_bounded hs
    rcases hcrash with ⟨lost, heq, hlost⟩ | ⟨lost, heq, hlost⟩
    · obtain ⟨hsets, hlt⟩ := hb.lost heq hlost
      exact ⟨lost, .inl heq, hsets, by omega⟩
    · obtain ⟨hsets, hlt⟩ := (hb.exec P c).lost heq hlost
      rw [every_exec] at hlt
      exact ⟨lost, .inr heq, hsets, by omega⟩
  · have hsettled := (reachable_bounded hr).1.removes P hc₀
    have hsuffix := suffix_of_later (hr.next (e := c₀) rfl) hl
    rcases hcrash with hcrash | hcrash
    · exact hcrash.suffix_of_settled hsuffix hsettled
    · exact hcrash.suffix_of_settled (hsuffix.trans (suffix_exec P s c)) hsettled

end DiskStore

end Memo

end RustSak
