import RustSak.Memo.Retain
import RustSak.Memo.Records

/-!
# The sweep is invisible

A sweep at one time drops the records that are expired or corrupt then. What is
live from that time on is the same with and without it, and everything a caller
can see is decided on the live records alone.
-/

namespace RustSak

namespace Memo

open Library

/-- A call of the store that reads or changes its records. -/
inductive Request where
  | get (key : Key) (now : SystemTime) (redb : Redb)
  | set (key : Key) (value : Bytes) (ttl : Duration) (now : Now) (redb : Redb)
  | remove (key : Key) (now : Now) (redb : Redb)
  | retain (keep : Predicate) (now : Now) (redb : Redb)

/-- What the caller sees of it; of a `retain` also what its predicate was asked
and said. -/
inductive Answer where
  | got (result : StoreResult (Option Entry))
  | done (result : StoreResult Unit)
  | removed (result : StoreResult Bool)
  | retained (result : StoreResult ℕ) (asked : Asked)
  deriving DecidableEq

namespace Request

def wall : Request → SystemTime
  | get _ now _ => now
  | set _ _ _ now _ => now.wall
  | remove _ now _ => now.wall
  | retain _ now _ => now.wall

/-- A write transaction that opens a missing table creates it. -/
def Creates : Request → Prop
  | set _ _ _ _ redb => redb ≠ .missing
  | _ => True

end Request

namespace DiskStore

def answer (P : Platform) (s : DiskStore) : Request → DiskStore × Answer
  | .get key now redb => (s, .got (s.get key now redb))
  | .set key value ttl now redb =>
      let r := s.set P key value ttl now redb
      (r.1, .done r.2)
  | .remove key now redb =>
      let r := s.remove key now redb
      (r.1, .removed r.2)
  | .retain keep now redb =>
      let r := s.retainMut keep now redb
      (r.1, .retained r.2.1 r.2.2)

/-- The calls one after another. -/
def answers (P : Platform) : DiskStore → List Request → DiskStore × List Answer
  | s, [] => (s, [])
  | s, r :: rs =>
      let now := s.answer P r
      let rest := answers P now.1 rs
      (rest.1, now.2 :: rest.2)

/-- The records that are live at a time. -/
def liveAt (t : SystemTime) (s : DiskStore) : Table Key Bytes :=
  Table.retain (fun _ record => isLive record t) s.db.records

/-- What is live from a time on is the same. -/
def SameFrom (t : SystemTime) (a b : DiskStore) : Prop := a.liveAt t = b.liveAt t

theorem sameFrom_sweep (s : DiskStore) (t : SystemTime) (redb : Redb)
    (compacts : Bool) : SameFrom t s (s.sweep t redb compacts).1 := by
  unfold sweep
  cases ho : s.db.openTable redb with
  | table table =>
      unfold SameFrom liveAt
      rw [Database.records_commit_retain, Table.retain_retain]
      simp only [Bool.and_self]
  | doesNotExist => rfl
  | error => rfl

/-! ## What each call depends on -/

theorem serves_eq_liveAt (s : DiskStore) (key : Key) {t now : SystemTime}
    (hle : t ≤ now) :
    s.serves key now = ((s.liveAt t).lookup key).bind fun record => serve record now := by
  apply Option.ext
  intro entry
  rw [serves, Option.bind_eq_some_iff, Option.bind_eq_some_iff]
  simp only [liveAt, ← Option.mem_def, Table.mem_lookup_retain]
  constructor
  · rintro ⟨record, hr, hserve⟩
    have hlive : isLive record now = true := Option.isSome_of_mem hserve
    exact ⟨record, ⟨hr, isLive_mono hle hlive⟩, hserve⟩
  · rintro ⟨record, ⟨hr, _⟩, hserve⟩
    exact ⟨record, hr, hserve⟩

theorem SameFrom.serves {a b : DiskStore} {t now : SystemTime} (h : SameFrom t a b)
    (hle : t ≤ now) (key : Key) : a.serves key now = b.serves key now := by
  rw [serves_eq_liveAt a key hle, serves_eq_liveAt b key hle, h]

theorem openTable_fails (s : DiskStore) (redb : Redb) :
    s.db.openTable redb = .error ↔ redb = .fails := by
  cases redb with
  | works => simp [Database.openTable]
  | missing =>
      by_cases hnone : s.db.table.isNone = true
      · simp [Database.openTable, hnone]
      · rw [Database.openTable, if_neg hnone]
        simp
  | fails => simp [Database.openTable]

theorem get_eq (s : DiskStore) (key : Key) (now : SystemTime) (redb : Redb) :
    s.get key now redb =
      if redb = .fails then .error .storage else .ok (s.serves key now) := by
  have hfails := openTable_fails s redb
  unfold get
  split
  · rename_i t ht
    rw [if_neg (by simp [← hfails, ht]), Database.openTable_eq_table ht]
    rfl
  · rename_i ht
    rw [if_neg (by simp [← hfails, ht]), serves, records_of_doesNotExist ht]
    rfl
  · rename_i ht
    rw [if_pos (hfails.mp ht)]

theorem set_eq (P : Platform) (s : DiskStore) (key : Key) (value : Bytes)
    (ttl : Duration) (now : Now) {redb : Redb} (hredb : redb ≠ .missing) :
    (s.set P key value ttl now redb).2 =
        (if ttl = 0 then .error .notAdmitted
        else if redb = .fails then .error .storage else .ok ()) ∧
      (s.set P key value ttl now redb).1.db.records =
        if ttl = 0 ∨ redb = .fails then s.db.records
        else s.db.records.insert key (encodeRecord P now.wall ttl value) := by
  unfold set
  by_cases hzero : ttl = 0
  · simp [hzero]
  · cases redb with
    | works => simp [hzero, Database.openTable]
    | missing => exact absurd rfl hredb
    | fails => simp [hzero, Database.openTable]

theorem remove_eq (s : DiskStore) (key : Key) (now : Now) (redb : Redb) :
    (s.remove key now redb).2 =
        (if redb = .fails then .error .storage
        else .ok (s.serves key now.wall).isSome) ∧
      (s.remove key now redb).1.db.records =
        if redb = .fails then s.db.records else s.db.records.erase key := by
  have hfails := openTable_fails s redb
  unfold remove
  split
  · rename_i t ht
    have hno : redb ≠ .fails := by simp [← not_iff_not.mpr hfails, ht]
    obtain rfl := Database.openTable_eq_table ht
    rw [if_neg hno, if_neg hno]
    refine ⟨?_, rfl⟩
    unfold serves isLive
    cases s.db.records.lookup key <;> rfl
  · rename_i ht
    have hno : redb ≠ .fails := by simp [← not_iff_not.mpr hfails, ht]
    rw [if_neg hno, if_neg hno, serves, records_of_doesNotExist ht]
    exact ⟨rfl, rfl⟩
  · rename_i ht
    rw [if_pos (hfails.mp ht), if_pos (hfails.mp ht)]
    exact ⟨rfl, rfl⟩

theorem retainMut_eq (s : DiskStore) (keep : Predicate) (now : Now) {redb : Redb}
    (hredb : redb ≠ .fails) :
    (s.retainMut keep now redb).2 =
        (.ok (ask keep now.wall [] s.db.records.entries).refused,
          ask keep now.wall [] s.db.records.entries) ∧
      (s.retainMut keep now redb).1.db.records =
        Table.retain (kept (ask keep now.wall [] s.db.records.entries).accepts now.wall)
          s.db.records := by
  obtain ⟨n, hn⟩ : ∃ n, (s.retainMut keep now redb).2.1 = .ok n := by
    have hfails := mt (openTable_fails s redb).mp hredb
    unfold retainMut
    split
    · dsimp only
      split
      · exact ⟨_, rfl⟩
      · exact ⟨_, rfl⟩
    · exact ⟨_, rfl⟩
    · rename_i ht
      exact absurd ht hfails
  have heq : s.retainMut keep now redb =
      ((s.retainMut keep now redb).1, .ok n, (s.retainMut keep now redb).2.2) := by
    rw [← hn]
  obtain ⟨hasked, hcount, hrecords⟩ := retainMut_ok heq
  rw [← hasked, ← hcount]
  refine ⟨?_, hrecords⟩
  rw [← hn]

/-- Records that are no longer live are not asked about. -/
theorem ask_liveAt (keep : Predicate) {t now : SystemTime} (hle : t ≤ now)
    (before : List Key) (es : List (Sigma fun _ : Key => Bytes)) :
    ask keep now before (es.filter fun e => isLive e.2 t) = ask keep now before es := by
  have hlive : ∀ e : Sigma fun _ : Key => Bytes,
      (isLive e.2 now && isLive e.2 t) = isLive e.2 now := fun e => by
    rw [Bool.and_eq_left_iff_imp]
    exact isLive_mono hle
  rw [ask_eq_verdicts, ask_eq_verdicts, List.filter_filter]
  simp only [hlive]

theorem SameFrom.ask {a b : DiskStore} {t now : SystemTime} (h : SameFrom t a b)
    (hle : t ≤ now) (keep : Predicate) :
    DiskStore.ask keep now [] a.db.records.entries =
      DiskStore.ask keep now [] b.db.records.entries := by
  have hentries := congrArg AList.entries h
  rw [liveAt, liveAt, Table.entries_retain, Table.entries_retain] at hentries
  rw [← ask_liveAt keep hle [] a.db.records.entries, hentries,
    ask_liveAt keep hle [] b.db.records.entries]

/-! ## Two runs -/

section Calls

variable {a b : DiskStore} {t : SystemTime}

theorem SameFrom.set (h : SameFrom t a b) (P : Platform) (key : Key) (value : Bytes)
    (ttl : Duration) (now : Now) {redb : Redb} (hredb : redb ≠ .missing) :
    (a.set P key value ttl now redb).2 = (b.set P key value ttl now redb).2 ∧
      SameFrom t (a.set P key value ttl now redb).1 (b.set P key value ttl now redb).1 := by
  obtain ⟨hresult, hrecords⟩ := set_eq P a key value ttl now hredb
  obtain ⟨hresult', hrecords'⟩ := set_eq P b key value ttl now hredb
  refine ⟨hresult.trans hresult'.symm, ?_⟩
  unfold SameFrom liveAt
  rw [hrecords, hrecords']
  split
  · exact h
  · rw [Table.retain_insert, Table.retain_insert]
    split
    · exact congrArg _ h
    · exact congrArg _ h

theorem SameFrom.remove (h : SameFrom t a b) (key : Key) {now : Now}
    (hle : t ≤ now.wall) (redb : Redb) :
    (a.remove key now redb).2 = (b.remove key now redb).2 ∧
      SameFrom t (a.remove key now redb).1 (b.remove key now redb).1 := by
  obtain ⟨hresult, hrecords⟩ := remove_eq a key now redb
  obtain ⟨hresult', hrecords'⟩ := remove_eq b key now redb
  refine ⟨?_, ?_⟩
  · rw [hresult, hresult', h.serves hle key]
  · unfold SameFrom liveAt
    rw [hrecords, hrecords']
    split
    · exact h
    · rw [Table.retain_erase, Table.retain_erase]
      exact congrArg _ h

theorem retainMut_fails (s : DiskStore) (keep : Predicate) (now : Now) :
    s.retainMut keep now .fails = (s, .error .storage, []) := rfl

theorem SameFrom.retainMut (h : SameFrom t a b) (keep : Predicate) {now : Now}
    (hle : t ≤ now.wall) (redb : Redb) :
    (a.retainMut keep now redb).2 = (b.retainMut keep now redb).2 ∧
      SameFrom t (a.retainMut keep now redb).1 (b.retainMut keep now redb).1 := by
  by_cases hfails : redb = .fails
  · rw [hfails, retainMut_fails, retainMut_fails]
    exact ⟨rfl, h⟩
  · obtain ⟨hresult, hrecords⟩ := retainMut_eq a keep now hfails
    obtain ⟨hresult', hrecords'⟩ := retainMut_eq b keep now hfails
    have hask := h.ask hle keep
    refine ⟨?_, ?_⟩
    · rw [hresult, hresult', hask]
    · unfold SameFrom liveAt
      rw [hrecords, hrecords', hask, Table.retain_comm, Table.retain_comm _ _ b.db.records]
      exact congrArg _ h

/-- One call answers the same on stores that are the same from an earlier time
on, and leaves them so. -/
theorem SameFrom.answer (h : SameFrom t a b) (P : Platform) {r : Request}
    (hlater : t ≤ r.wall) (hcreates : r.Creates) :
    (a.answer P r).2 = (b.answer P r).2 ∧
      SameFrom t (a.answer P r).1 (b.answer P r).1 := by
  cases r with
  | get key now redb =>
      have hnow : t ≤ now := hlater
      refine ⟨?_, h⟩
      change Answer.got _ = Answer.got _
      rw [get_eq, get_eq, h.serves hnow key]
  | set key value ttl now redb =>
      obtain ⟨hresult, hsame⟩ := h.set P key value ttl now hcreates
      exact ⟨congrArg Answer.done hresult, hsame⟩
  | remove key now redb =>
      obtain ⟨hresult, hsame⟩ := h.remove key hlater redb
      exact ⟨congrArg Answer.removed hresult, hsame⟩
  | retain keep now redb =>
      obtain ⟨hresult, hsame⟩ := h.retainMut keep hlater redb
      refine ⟨?_, hsame⟩
      change Answer.retained _ _ = Answer.retained _ _
      rw [hresult]

end Calls

theorem SameFrom.answers {t : SystemTime} (P : Platform) {reqs : List Request}
    (hlater : ∀ r ∈ reqs, t ≤ r.wall) (hcreates : ∀ r ∈ reqs, r.Creates)
    {a b : DiskStore} (h : SameFrom t a b) :
    (a.answers P reqs).2 = (b.answers P reqs).2 ∧
      SameFrom t (a.answers P reqs).1 (b.answers P reqs).1 := by
  induction reqs generalizing a b with
  | nil => exact ⟨rfl, h⟩
  | cons r reqs ih =>
      obtain ⟨hanswer, hsame⟩ := h.answer P (hlater r List.mem_cons_self)
        (hcreates r List.mem_cons_self)
      obtain ⟨hanswers, hrest⟩ := ih (fun q hq => hlater q (List.mem_cons_of_mem r hq))
        (fun q hq => hcreates q (List.mem_cons_of_mem r hq)) hsame
      refine ⟨?_, hrest⟩
      change _ :: _ = _ :: _
      rw [hanswer, hanswers]

/-- Whether or not a sweep ran, every sequence of calls from then on returns the
same, asks its predicates the same, and leaves the same to be served. -/
theorem sweep_is_invisible (P : Platform) (s : DiskStore) {t : SystemTime} (redb : Redb)
    (compacts : Bool) {reqs : List Request} (hlater : ∀ r ∈ reqs, t ≤ r.wall)
    (hcreates : ∀ r ∈ reqs, r.Creates) :
    ((s.sweep t redb compacts).1.answers P reqs).2 = (s.answers P reqs).2 ∧
      ∀ key now, t ≤ now →
        ((s.sweep t redb compacts).1.answers P reqs).1.serves key now =
          (s.answers P reqs).1.serves key now := by
  obtain ⟨hanswers, hsame⟩ :=
    (sameFrom_sweep s t redb compacts).answers P hlater hcreates
  exact ⟨hanswers.symm, fun key now hle => (hsame.serves hle key).symm⟩

/-- A file with a record whose deadline is one millisecond, one without a deadline
and a corrupt one. -/
def mixed : DiskStore :=
  openOn (some (((AList.insert "a" (BigEndian.toBytes deadlineLen 1 ++ [5]) ∅).insert
    "b" (BigEndian.toBytes deadlineLen 0 ++ [6])).insert "c" [7])) .new 0

/-- At its deadline the record of `a` is swept, and a read at that time does not
see it either way. -/
theorem sweep_is_invisible_deadline :
    ((mixed.sweep 1000000 .works true).1.answers nearEpoch
        [.get "a" 1000000 .works, .retain (fun _ _ => true) ⟨0, 1000000⟩ .works]).2 =
      (mixed.answers nearEpoch
        [.get "a" 1000000 .works, .retain (fun _ _ => true) ⟨0, 1000000⟩ .works]).2 := by
  refine (sweep_is_invisible nearEpoch mixed .works true ?_ ?_).1
  · intro r hr
    rw [List.mem_cons, List.mem_singleton] at hr
    rcases hr with rfl | rfl
    · exact le_rfl
    · exact le_rfl
  · intro r hr
    rw [List.mem_cons, List.mem_singleton] at hr
    rcases hr with rfl | rfl
    · trivial
    · trivial

end DiskStore

end Memo

end RustSak
