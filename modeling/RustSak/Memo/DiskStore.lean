import RustSak.Memo.Store
import RustSak.Library.BigEndian
import RustSak.Library.CommitLog

/-!
# The disk tier

A redb database with one table of records. A record is the entry's deadline in
milliseconds since the Unix epoch, eight bytes big-endian with zero for "no
deadline", followed by the value. Every write commits, so it is readable at
once; `Cadence` decides which commits are also forced to disk, and the database
is kept as the log of its commits over the content of the file it was opened
on.
-/

namespace RustSak

namespace Memo

open Library

/-! ## Records -/

/-- The length of the deadline prefix on every record. -/
def deadlineLen : ℕ := 8

def u64Max : ℕ := 2 ^ 64 - 1

/-- The stored deadline: zero when `now + ttl` cannot be represented or lies
before the epoch. -/
def deadlineMillis (P : Platform) (now : SystemTime) (ttl : Duration) : ℕ :=
  match P.systemTimeAdd now ttl with
  | none => 0
  | some at' =>
      if at' < 0 then 0 else min (at'.toNat / nanosPerMilli) u64Max

def encodeRecord (P : Platform) (now : SystemTime) (ttl : Duration)
    (value : Bytes) : Bytes :=
  BigEndian.toBytes deadlineLen (deadlineMillis P now ttl) ++ value

/-- Splits a stored record into its deadline and its value, or nothing if it is
too short to be one. -/
def split (record : Bytes) : Option (Option SystemTime × Bytes) :=
  if record.length < deadlineLen then
    none
  else
    let millis := BigEndian.ofBytes (record.take deadlineLen)
    some (if millis = 0 then none else some ↑(millis * nanosPerMilli),
      record.drop deadlineLen)

/-- How much longer a record may be served: `none` once it has expired. -/
def remaining (expiresAt : Option SystemTime) (now : SystemTime) :
    Option (Option Duration) :=
  match expiresAt with
  | none => some none
  | some at' => if now < at' then some (some (at' - now).toNat) else none

/-- The entry a stored record is served as. -/
def serve (record : Bytes) (now : SystemTime) : Option Entry :=
  (split record).bind fun r =>
    (remaining r.1 now).map fun left => ⟨r.2, left⟩

/-- Whether a stored record is readable and not past its deadline. -/
def isLive (record : Bytes) (now : SystemTime) : Bool :=
  (serve record now).isSome

/-- The stored deadline fits its eight bytes. -/
theorem deadlineMillis_lt (P : Platform) (now : SystemTime) (ttl : Duration) :
    deadlineMillis P now ttl < 256 ^ deadlineLen := by
  have hle : deadlineMillis P now ttl ≤ u64Max := by
    unfold deadlineMillis
    split
    · exact Nat.zero_le _
    · split
      · exact Nat.zero_le _
      · exact Nat.min_le_right _ _
  exact lt_of_le_of_lt hle (by decide)

/-- A record is read back as the deadline and the value it was written with. -/
theorem split_encodeRecord (P : Platform) (now : SystemTime) (ttl : Duration)
    (value : Bytes) :
    split (encodeRecord P now ttl value) =
      some (if deadlineMillis P now ttl = 0 then none
        else some ↑(deadlineMillis P now ttl * nanosPerMilli), value) := by
  have hlen : (BigEndian.toBytes deadlineLen (deadlineMillis P now ttl)).length =
      deadlineLen := BigEndian.length_toBytes _ _
  have hlong : ¬ (encodeRecord P now ttl value).length < deadlineLen := by
    rw [encodeRecord, List.length_append, hlen]
    omega
  rw [split, if_neg hlong, encodeRecord, List.take_left' hlen,
    List.drop_left' hlen, BigEndian.ofBytes_toBytes (deadlineMillis_lt P now ttl)]

theorem value_encodeRecord (P : Platform) (now : SystemTime) (ttl : Duration)
    (value : Bytes) :
    (split (encodeRecord P now ttl value)).map Prod.snd = some value := by
  rw [split_encodeRecord, Option.map_some]

theorem serve_value {record : Bytes} {now : SystemTime} {entry : Entry}
    (h : serve record now = some entry) :
    (split record).map Prod.snd = some entry.value := by
  obtain ⟨r, hr, h⟩ := Option.bind_eq_some_iff.mp h
  obtain ⟨left, _, rfl⟩ := Option.map_eq_some_iff.mp h
  rw [hr]
  rfl

/-- A record that is served at one time was served at every earlier one. -/
theorem isLive_mono {record : Bytes} {now now' : SystemTime} (hle : now ≤ now')
    (h : isLive record now' = true) : isLive record now = true := by
  unfold isLive serve at h ⊢
  cases hs : split record with
  | none => simp [hs] at h
  | some r =>
      obtain ⟨expiresAt, value⟩ := r
      cases expiresAt with
      | none => simp [remaining]
      | some at' =>
          have hlt : now' < at' := by
            by_contra hn
            simp [hs, remaining, hn] at h
          simp [remaining, lt_of_le_of_lt hle hlt]

/-! ## The database -/

/-- What one commit does to the table. The expiry sweep is a `retain` too; a
`flush` commits nothing but its durability. -/
inductive Write where
  | set (key : Key) (record : Bytes)
  | remove (key : Key)
  | retain (kept : Key → Bytes → Bool)
  | flush

namespace Write

def isSet : Write → Bool
  | set _ _ => true
  | _ => false

/-- A commit that opens the table creates it if it is not there. -/
def apply : Write → Option (Table Key Bytes) → Option (Table Key Bytes)
  | set key record, t => some ((t.getD ∅).insert key record)
  | remove key, t => some ((t.getD ∅).erase key)
  | retain kept, t => some (Table.retain kept (t.getD ∅))
  | flush, t => t

end Write

/-- A redb database: what its file held when it was opened, and the commits
since, the newest first. -/
structure Database where
  base : Option (Table Key Bytes)
  log : List (Commit Write)

/-- What opening the table inside a transaction gives. -/
inductive Opened where
  | table (t : Table Key Bytes)
  | doesNotExist
  | error

namespace Database

def table (db : Database) : Option (Table Key Bytes) :=
  CommitLog.replay Write.apply db.base db.log

def records (db : Database) : Table Key Bytes := db.table.getD ∅

def commit (db : Database) (w : Write) (durable : Bool) : Database :=
  { db with log := ⟨w, durable⟩ :: db.log }

def openTable (db : Database) : Redb → Opened
  | .works => .table db.records
  | .missing => if db.table.isNone then .doesNotExist else .table db.records
  | .fails => .error

theorem table_commit (db : Database) (w : Write) (durable : Bool) :
    (db.commit w durable).table = w.apply db.table := rfl

@[simp] theorem records_commit_set (db : Database) (key : Key) (record : Bytes)
    (durable : Bool) :
    (db.commit (.set key record) durable).records =
      db.records.insert key record := rfl

@[simp] theorem records_commit_remove (db : Database) (key : Key)
    (durable : Bool) :
    (db.commit (.remove key) durable).records = db.records.erase key := rfl

@[simp] theorem records_commit_retain (db : Database)
    (kept : Key → Bytes → Bool) (durable : Bool) :
    (db.commit (.retain kept) durable).records =
      Table.retain kept db.records := rfl

/-- A table that opens is the table the commits so far have left. -/
theorem openTable_eq_table {db : Database} {redb : Redb} {t : Table Key Bytes}
    (h : db.openTable redb = .table t) : t = db.records := by
  cases redb with
  | works => exact (Opened.table.inj h).symm
  | missing =>
      by_cases hn : db.table.isNone = true
      · simp [openTable, hn] at h
      · rw [openTable, if_neg hn] at h
        exact (Opened.table.inj h).symm
  | fails => cases h

theorem openTable_eq_doesNotExist {db : Database} {redb : Redb}
    (h : db.openTable redb = .doesNotExist) : db.table = none := by
  cases redb with
  | works => cases h
  | missing =>
      by_cases hn : db.table.isNone = true
      · simpa using hn
      · rw [openTable, if_neg hn] at h
        cases h
  | fails => cases h

end Database

/-! ## The cadence -/

/-- Decides which writes commit durably. `pending` counts the writes committed
since the last durable commit. -/
structure Cadence where
  every : ℕ
  interval : Duration
  pending : ℕ
  lastDurable : Instant
  every_pos : 0 < every
  every_le : every ≤ u32Max

namespace Cadence

/-- `u32::saturating_add(1)`. -/
def saturatingSucc (n : ℕ) : ℕ := min (n + 1) u32Max

def new (opts : CacheOpts) (now : Instant) : Cadence where
  every := opts.flushEvery
  interval := opts.flushInterval
  pending := 0
  lastDurable := now
  every_pos := opts.flushEvery_pos
  every_le := opts.flushEvery_le

/-- Whether the next write must be durable. -/
def nextIsDurable (c : Cadence) (now : Instant) : Bool :=
  decide (c.every ≤ saturatingSucc c.pending) ||
    (!(c.interval == 0) && decide (c.interval ≤ now - c.lastDurable))

/-- Records a commit that succeeded. -/
def committed (c : Cadence) (durable : Bool) (now : Instant) : Cadence :=
  if durable then
    { c with pending := 0, lastDurable := now }
  else
    { c with pending := saturatingSucc c.pending }

@[simp] theorem every_committed (c : Cadence) (durable : Bool) (now : Instant) :
    (c.committed durable now).every = c.every := by
  cases durable <;> rfl

/-- A write that need not be durable leaves room for one more before `every`
asks for it. -/
theorem pending_committed_deferred {c : Cadence} {now : Instant}
    (h : c.nextIsDurable now = false) (now' : Instant) :
    (c.committed false now').pending = c.pending + 1 ∧
      c.pending + 1 < c.every := by
  have hlt : saturatingSucc c.pending < c.every := by
    simp only [nextIsDurable, Bool.or_eq_false_iff, decide_eq_false_iff_not,
      not_le] at h
    exact h.1
  have hle := c.every_le
  have hsat : saturatingSucc c.pending = c.pending + 1 := by
    unfold saturatingSucc at hlt ⊢
    omega
  refine ⟨hsat, ?_⟩
  rwa [hsat] at hlt

end Cadence

/-! ## The store -/

structure DiskStore where
  db : Database
  cadence : Cadence

namespace DiskStore

/-- The store opened on a file that holds `base`. Whatever the file holds was
recovered from disk, so it is durable. -/
def openOn (base : Option (Table Key Bytes)) (opts : CacheOpts)
    (now : Instant) : DiskStore where
  db := ⟨base, []⟩
  cadence := .new opts now

def get (s : DiskStore) (key : Key) (now : SystemTime) (redb : Redb) :
    StoreResult (Option Entry) :=
  match s.db.openTable redb with
  | .table t => .ok ((t.lookup key).bind fun record => serve record now)
  | .doesNotExist => .ok none
  | .error => .error .storage

def set (P : Platform) (s : DiskStore) (key : Key) (value : Bytes)
    (ttl : Duration) (now : Now) (redb : Redb) : DiskStore × StoreResult Unit :=
  if ttl = 0 then
    (s, .error .notAdmitted)
  else
    let record := encodeRecord P now.wall ttl value
    match s.db.openTable redb with
    | .table _ =>
        let durable := s.cadence.nextIsDurable now.instant
        ({ db := s.db.commit (.set key record) durable
           cadence := s.cadence.committed durable now.instant }, .ok ())
    | .doesNotExist => (s, .error .storage)
    | .error => (s, .error .storage)

/-- Commits a removal durably, whatever the cadence. -/
def commitDurably (s : DiskStore) (w : Write) (now : Instant) : DiskStore where
  db := s.db.commit w true
  cadence := s.cadence.committed true now

def remove (s : DiskStore) (key : Key) (now : Now) (redb : Redb) :
    DiskStore × StoreResult Bool :=
  match s.db.openTable redb with
  | .table t =>
      (s.commitDurably (.remove key) now.instant,
        .ok ((t.lookup key).any fun record => isLive record now.wall))
  | .doesNotExist => (s, .ok false)
  | .error => (s, .error .storage)

/-- What a `retain` pass keeps: expired and corrupt records are dropped without
being shown to `keep`. -/
def kept (keep : Key → Bool) (now : SystemTime) (key : Key) (record : Bytes) :
    Bool :=
  isLive record now && keep key

def retain (s : DiskStore) (keep : Key → Bool) (now : Now) (redb : Redb) :
    DiskStore × StoreResult ℕ :=
  match s.db.openTable redb with
  | .table t =>
      let refused := t.entries.countP fun e =>
        isLive e.2 now.wall && !keep e.1
      let dropped := t.entries.countP fun e => !kept keep now.wall e.1 e.2
      if dropped = 0 then
        -- A pass that removed nothing writes nothing.
        (s, .ok 0)
      else
        (s.commitDurably (.retain (kept keep now.wall)) now.instant,
          .ok refused)
  | .doesNotExist => (s, .ok 0)
  | .error => (s, .error .storage)

/-- Makes every deferred write durable with one empty durable commit. -/
def flush (s : DiskStore) (now : Instant) (redb : Redb) :
    DiskStore × StoreResult Unit :=
  if s.cadence.pending = 0 then
    (s, .ok ())
  else if redb = .fails then
    (s, .error .storage)
  else
    (s.commitDurably .flush now, .ok ())

/-- Deletes expired records, then compacts if there were any. The commit is
durable, and the cadence is not told of it. -/
def sweep (s : DiskStore) (now : SystemTime) (redb : Redb) (compacts : Bool) :
    DiskStore × StoreResult Unit :=
  match s.db.openTable redb with
  | .table t =>
      let live := fun (_ : Key) record => isLive record now
      let removed := t.entries.countP fun e => !live e.1 e.2
      ({ s with db := s.db.commit (.retain live) true },
        if removed = 0 ∨ compacts = true then .ok () else .error .storage)
  | .doesNotExist => (s, .ok ())
  | .error => (s, .error .storage)

def cleanup (s : DiskStore) (now : SystemTime) (redb : Redb)
    (busy compacts : Bool) : DiskStore × StoreResult Unit :=
  if busy then (s, .ok ()) else s.sweep now redb compacts

/-- One call of the store. -/
def exec (P : Platform) (s : DiskStore) : Call → DiskStore × Reply
  | .get key now _ redb => (s, .got (s.get key now.wall redb))
  | .set key value ttl now redb =>
      let r := s.set P key value ttl now redb
      (r.1, .done r.2)
  | .remove key now redb =>
      let r := s.remove key now redb
      (r.1, .removed r.2)
  | .retain keep now redb =>
      let r := s.retain keep now redb
      (r.1, .retained r.2)
  | .cleanup now redb busy compacts =>
      let r := s.cleanup now.wall redb busy compacts
      (r.1, .done r.2)
  | .flush now redb =>
      let r := s.flush now.instant redb
      (r.1, .done r.2)

end DiskStore

end Memo

end RustSak
