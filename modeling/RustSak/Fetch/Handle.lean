import RustSak.Fetch.Send
import RustSak.Library.Machine
import RustSak.Library.Watch
import Mathlib.Data.Rat.Defs
import Mathlib.Algebra.Order.Ring.Rat

/-!
# The handle of a download

The background task sends snapshots of its progress over a channel that keeps the newest
one; the handle tracks them, or is told of them one by one, and awaits the task once. A task
ends by itself, with a last snapshot, or it is aborted, or it panics; its end of the channel
is closed first, and what it ended with can be awaited after that. A call may be dropped
where it awaits something.
-/

namespace RustSak

namespace Fetch

open Library

/-- A fraction is exact. -/
structure Progress where
  total : Option ℕ
  downloaded : ℕ
  progress : Option ℚ
  completed : Bool
  failed : Bool

def fraction (total : Option ℕ) (downloaded : ℕ) : Option ℚ :=
  total.map fun t => if t = 0 then 1 else min ((downloaded : ℚ) / t) 1

namespace Progress

def initial : Progress := ⟨none, 0, none, false, false⟩

def inFlight (total : Option ℕ) (downloaded : ℕ) : Progress :=
  ⟨total, downloaded, fraction total downloaded, false, false⟩

/-- What `run` makes of the newest snapshot. -/
def ended (failed : Bool) (snapshot : Progress) : Progress :=
  { snapshot with completed := true, failed := failed }

end Progress

/-! ## What one attempt reports -/

/-- In nanoseconds. -/
def progressInterval : ℕ := 100000000

def progressBytes : ℕ := 262144

/-- A chunk's length, the clock when it has been written, and the clock read again if it is
reported. -/
structure Chunk where
  length : ℕ
  now : ℕ
  again : ℕ

/-- The snapshots sent from the chunks on, when `reported` of what is `downloaded` was reported
last, at `reportedAt`. -/
def reports (total : Option ℕ) (downloaded reported reportedAt : ℕ) : List Chunk → List Progress
  | [] => if downloaded ≠ reported then [.inFlight total downloaded] else []
  | chunk :: chunks =>
      let downloaded := downloaded + chunk.length
      if progressBytes ≤ downloaded - reported ∨
          progressInterval ≤ chunk.now - reportedAt then
        .inFlight total downloaded :: reports total downloaded downloaded chunk.again chunks
      else reports total downloaded reported reportedAt chunks

/-- The snapshots of an attempt whose stream comes to its end. -/
def attemptReports (total : Option ℕ) (offset start : ℕ) (chunks : List Chunk) : List Progress :=
  .inFlight total offset :: reports total offset offset start chunks

/-- The clock does not go back. -/
def Clocked : ℕ → List Chunk → Prop
  | _, [] => True
  | now, chunk :: chunks => now ≤ chunk.now ∧ chunk.now ≤ chunk.again ∧ Clocked chunk.again chunks

/-- What has come in by the end. -/
def downloadedBy (downloaded : ℕ) (chunks : List Chunk) : ℕ :=
  downloaded + (chunks.map Chunk.length).sum

/-- The clock at the end. -/
def clockBy (now : ℕ) (chunks : List Chunk) : ℕ := (chunks.getLast?.map Chunk.again).getD now

section Reports

variable {total : Option ℕ} {downloaded reported reportedAt now : ℕ} {chunks : List Chunk}

theorem downloadedBy_cons (chunk : Chunk) :
    downloadedBy downloaded (chunk :: chunks) =
      downloadedBy (downloaded + chunk.length) chunks := by
  simp [downloadedBy, Nat.add_assoc]

theorem clockBy_cons (chunk : Chunk) :
    clockBy now (chunk :: chunks) = clockBy chunk.again chunks := by
  cases chunks with
  | nil => rfl
  | cons next chunks => rw [clockBy, clockBy, List.getLast?_cons_cons, List.getLast?_cons]; rfl

theorem Clocked.le_clockBy (h : Clocked now chunks) : now ≤ clockBy now chunks := by
  induction chunks generalizing now with
  | nil => exact Nat.le_refl _
  | cons chunk chunks ih =>
      rw [clockBy_cons]
      exact (h.1.trans h.2.1).trans (ih h.2.2)

theorem le_downloadedBy : downloaded ≤ downloadedBy downloaded chunks := Nat.le_add_right _ _

/-- Reports only go up. -/
theorem reports_pairwise (total : Option ℕ) (downloaded reported reportedAt : ℕ)
    (chunks : List Chunk) :
    (reports total downloaded reported reportedAt chunks).Pairwise
        (fun p q => p.downloaded ≤ q.downloaded) ∧
      ∀ p ∈ reports total downloaded reported reportedAt chunks, downloaded ≤ p.downloaded := by
  induction chunks generalizing downloaded reported reportedAt with
  | nil =>
      rw [reports]
      split
      · simp [Progress.inFlight]
      · simp
  | cons chunk chunks ih =>
      rw [reports]
      split
      · have hrest := ih (downloaded + chunk.length) (downloaded + chunk.length) chunk.again
        refine ⟨List.pairwise_cons.mpr ⟨hrest.2, hrest.1⟩, fun p hp => ?_⟩
        rcases List.mem_cons.mp hp with rfl | hp
        · exact Nat.le_add_right _ _
        · exact (Nat.le_add_right _ _).trans (hrest.2 p hp)
      · have hrest := ih (downloaded + chunk.length) reported reportedAt
        exact ⟨hrest.1, fun p hp => (Nat.le_add_right _ _).trans (hrest.2 p hp)⟩

/-- The last report is of all there is. -/
theorem getLast?_reports (total : Option ℕ) (downloaded reported reportedAt : ℕ)
    (chunks : List Chunk) :
    (Progress.inFlight total reported ::
        reports total downloaded reported reportedAt chunks).getLast? =
      some (.inFlight total (downloadedBy downloaded chunks)) := by
  induction chunks generalizing downloaded reported reportedAt with
  | nil =>
      rw [reports, downloadedBy]
      split
      · simp
      · rename_i heq
        rw [Decidable.not_not.mp heq]
        simp
  | cons chunk chunks ih =>
      rw [reports, downloadedBy_cons]
      split
      · rw [List.getLast?_cons_cons]
        exact ih _ _ _
      · exact ih _ _ _

/-- Each report but the last has a quarter of a mebibyte or a tenth of a second of its own. -/
theorem length_reports_le (total : Option ℕ) {downloaded reported reportedAt now : ℕ}
    {chunks : List Chunk} (hreported : reported ≤ downloaded) (hnow : reportedAt ≤ now)
    (hclock : Clocked now chunks) :
    (reports total downloaded reported reportedAt chunks).length ≤
      1 + (downloadedBy downloaded chunks - reported) / 262144 +
        (clockBy now chunks - reportedAt) / 100000000 := by
  induction chunks generalizing downloaded reported reportedAt now with
  | nil =>
      have hle : (reports total downloaded reported reportedAt []).length ≤ 1 := by
        rw [reports]
        split
        · exact Nat.le_refl 1
        · exact Nat.zero_le 1
      omega
  | cons chunk chunks ih =>
      obtain ⟨hbefore, hafter, hclock⟩ := hclock
      have hall : downloaded + chunk.length ≤ downloadedBy (downloaded + chunk.length) chunks :=
        le_downloadedBy
      have hend := hclock.le_clockBy
      rw [reports, downloadedBy_cons, clockBy_cons]
      split
      · rename_i hdue
        have hrest := ih (Nat.le_refl (downloaded + chunk.length)) (Nat.le_refl chunk.again) hclock
        simp only [progressBytes, progressInterval] at hdue
        rw [List.length_cons]
        rcases hdue with hbytes | htime
        · omega
        · omega
      · exact ih (hreported.trans (Nat.le_add_right _ _))
          ((hnow.trans hbefore).trans hafter) hclock

/-- An attempt reports where it begins and where it ends, never goes back, and reports at most
once for each quarter of a mebibyte and each tenth of a second it takes, and twice more. -/
theorem attemptReports_coalesced (total : Option ℕ) (offset start : ℕ) (chunks : List Chunk)
    (hclock : Clocked start chunks) :
    (attemptReports total offset start chunks).head? = some (.inFlight total offset) ∧
    (attemptReports total offset start chunks).getLast? =
      some (.inFlight total (downloadedBy offset chunks)) ∧
    (attemptReports total offset start chunks).Pairwise
      (fun p q => p.downloaded ≤ q.downloaded) ∧
    (attemptReports total offset start chunks).length ≤
      2 + (downloadedBy offset chunks - offset) / 262144 +
        (clockBy start chunks - start) / 100000000 := by
  have hpairs := reports_pairwise total offset offset start chunks
  have hlength := length_reports_le total (Nat.le_refl offset) (Nat.le_refl start) hclock
  refine ⟨rfl, getLast?_reports total offset offset start chunks,
    List.pairwise_cons.mpr ⟨hpairs.2, hpairs.1⟩, ?_⟩
  rw [attemptReports, List.length_cons]
  omega

/-- Three chunks, of which the second alone is due. -/
theorem attemptReports_coalesced_due :
    (attemptReports none 5 0 [⟨7, 10, 10⟩, ⟨300000, 20, 30⟩, ⟨1, 40, 40⟩]).length ≤ 3 := by
  have h := (attemptReports_coalesced none 5 0 [⟨7, 10, 10⟩, ⟨300000, 20, 30⟩, ⟨1, 40, 40⟩]
    (by simp [Clocked])).2.2.2
  simpa [downloadedBy, clockBy] using h

end Reports

/-! ## The handle and the task -/

inductive DownloadError where
  | http (error : HttpError)
  | io (message : String)
  | cancelled
  deriving DecidableEq

/-- A `DownloadError` cannot be returned twice. -/
def alreadyReturned : DownloadError :=
  .io "the download did not succeed, and its error was already returned by an earlier track()"

abbrev DownloadResult := Except DownloadError Unit

def isErr : DownloadResult → Bool
  | .ok _ => false
  | .error _ => true

/-- How the task came to its end. -/
inductive Outcome where
  | finished (result : DownloadResult)
  | aborted
  | panicked

inductive Task where
  | running
  /-- The last snapshot is sent. -/
  | closing (result : DownloadResult)
  /-- Its end of the channel is gone. -/
  | closed (outcome : Outcome)
  /-- It can be awaited. -/
  | done (outcome : Outcome)

def Task.isClosed : Task → Bool
  | .closed _ => true
  | .done _ => true
  | _ => false

/-- Where the call on the handle is that is under way. -/
inductive Call where
  | idle
  /-- `changed` awaits a change. -/
  | changing
  /-- `track` awaits a change. -/
  | waiting
  /-- `track` has been told of one. -/
  | owed
  /-- The task is awaited. -/
  | joining
  deriving DecidableEq

/-- How a call came to its end. -/
inductive Returned where
  | result (result : DownloadResult)
  | unwound

/-- The handle and its task, and what has come of them: what the callbacks were given, how the
calls ended, and whether one was dropped while it awaited the task. -/
structure Download where
  watch : Watch Progress
  task : Task
  /-- The task has not been taken to be awaited. -/
  handle : Bool
  succeeded : Option Bool
  /-- `join` has consumed the handle. -/
  joined : Bool
  call : Call
  /-- What the callbacks of the `track`s before the newest were given. -/
  earlier : List Progress
  /-- How many snapshots had been seen when the newest `track` was called. -/
  begun : ℕ
  /-- What its callback was given. -/
  callbacks : List Progress
  /-- It has tracked the task to its end. -/
  tracked : Bool
  returned : List Returned
  dropped : Bool

namespace Download

def new : Download where
  watch := .new .initial
  task := .running
  handle := true
  succeeded := none
  joined := false
  call := .idle
  earlier := []
  begun := 0
  callbacks := []
  tracked := false
  returned := []
  dropped := false

inductive Event where
  | report (total : Option ℕ) (downloaded : ℕ)
  | finish (result : DownloadResult)
  | close
  | abort
  | panic
  | settle
  | changed
  /-- `changed` answers that there was a change. -/
  | told
  /-- It answers that there are no more. -/
  | gone
  | track
  | notice
  | callback
  | ended
  | join
  | await
  | drop

/-- `join_handle` on a task that is done. -/
def answer : Outcome → Returned
  | .finished result => .result result
  | .aborted => .result (.error .cancelled)
  | .panicked => .unwound

/-- What is remembered of that. -/
def remembered : Outcome → Option Bool
  | .finished result => some (!isErr result)
  | .aborted => some false
  | .panicked => none

/-- What `join_once` answers once the task has been taken. -/
def again : Option Bool → DownloadResult
  | some false => .error alreadyReturned
  | some true => .ok ()
  | none => .ok ()

variable (s : Download)

def Enabled : Event → Prop
  | .report _ _ => s.task = .running
  | .finish _ => s.task = .running
  | .close => ∃ result, s.task = .closing result
  | .abort => s.task = .running
  | .panic => s.task = .running
  | .settle => ∃ outcome, s.task = .closed outcome
  | .changed => s.call = .idle ∧ s.joined = false
  | .told => s.call = .changing ∧ s.watch.changed = true
  | .gone => s.call = .changing ∧ s.watch.changed = false ∧ s.task.isClosed = true
  | .track => s.call = .idle ∧ s.joined = false
  | .notice => s.call = .waiting ∧ s.watch.changed = true
  | .callback => s.call = .owed
  | .ended => s.call = .waiting ∧ s.watch.changed = false ∧ s.task.isClosed = true
  | .join => s.call = .idle ∧ s.joined = false
  | .await => s.call = .joining ∧ ∃ outcome, s.task = .done outcome
  | .drop => s.call = .changing ∨ s.call = .waiting ∨ s.call = .joining

/-- `join_once`, up to where it awaits the task. -/
def joinOnce : Download :=
  if s.handle then { s with handle := false, call := .joining }
  else { s with call := .idle, returned := s.returned ++ [.result (again s.succeeded)] }

def next : Event → Download
  | .report total downloaded => { s with watch := s.watch.send (.inFlight total downloaded) }
  | .finish result =>
      { s with watch := s.watch.send (s.watch.current.ended (isErr result)),
               task := .closing result }
  | .close => { s with task := match s.task with
      | .closing result => .closed (.finished result)
      | task => task }
  | .abort => { s with task := .closed .aborted }
  | .panic => { s with task := .closed .panicked }
  | .settle => { s with task := match s.task with
      | .closed outcome => .done outcome
      | task => task }
  | .changed => { s with call := .changing }
  | .told => { s with watch := s.watch.mark, call := .idle }
  | .gone => { s with call := .idle }
  | .track =>
      { s with call := .waiting, earlier := s.earlier ++ s.callbacks, begun := s.watch.seen,
               callbacks := [], tracked := false }
  | .notice => { s with watch := s.watch.mark, call := .owed }
  | .callback =>
      { s with watch := s.watch.mark, call := .waiting,
               callbacks := s.callbacks ++ [s.watch.current] }
  | .ended => { s.joinOnce with tracked := true }
  | .join => { s.joinOnce with joined := true }
  | .await => match s.task with
      | .done outcome =>
          { s with call := .idle, succeeded := remembered outcome,
                   returned := s.returned ++ [answer outcome] }
      | _ => s
  | .drop => { s with call := .idle, dropped := s.dropped || decide (s.call = .joining) }

def machine : Machine Download Event := .guarded (· = new) Enabled next

/-! ## What is tracked -/

/-- The snapshot of a task that has ended by itself is the newest. -/
def Task.LastSent (task : Task) (sent : List Progress) : Prop :=
  ∀ result, (task = .closing result ∨ task = .closed (.finished result) ∨
      task = .done (.finished result)) →
    ∃ snapshot, sent.getLast? = some snapshot ∧ snapshot.completed = true ∧
      snapshot.failed = isErr result

/-- How the calls so far have ended. -/
def Answers : Prop :=
  match s.handle, decide (s.call = .joining), s.dropped with
  | true, joining, dropped =>
      joining = false ∧ dropped = false ∧ s.succeeded = none ∧ s.returned = []
  | false, true, dropped => dropped = false ∧ s.succeeded = none ∧ s.returned = []
  | false, false, true => s.succeeded = none ∧ ∀ r ∈ s.returned, r = .result (.ok ())
  | false, false, false => ∃ outcome n, s.task = .done outcome ∧
      s.succeeded = remembered outcome ∧
      s.returned = answer outcome :: List.replicate n (.result (again (remembered outcome)))

/-- The newest `track` is under way, or has come to its end. -/
def Tracking : Prop := s.call = .waiting ∨ s.call = .owed ∨ s.tracked = true

structure Inv : Prop where
  reads : s.watch.Reads (decide (s.call = .owed)) (s.earlier ++ s.callbacks)
  follows : s.Tracking → s.watch.Follows (decide (s.call = .owed)) s.begun s.callbacks
  lastSent : Task.LastSent s.task s.watch.sent
  tracked : s.tracked = true →
    s.task.isClosed = true ∧ s.watch.changed = false ∧ s.call ≠ .owed
  answers : s.Answers

section Steps

variable {s} {t : Download}

theorem Answers.congr (h : s.Answers) (hhandle : t.handle = s.handle)
    (hcall : t.call = .joining ↔ s.call = .joining) (hdropped : t.dropped = s.dropped)
    (hsucceeded : t.succeeded = s.succeeded) (hreturned : t.returned = s.returned)
    (htask : ∀ outcome, s.task = .done outcome → t.task = .done outcome) : t.Answers := by
  have hjoining : decide (t.call = .joining) = decide (s.call = .joining) :=
    decide_eq_decide.mpr hcall
  rw [Answers] at h ⊢
  rw [hhandle, hjoining, hdropped, hsucceeded, hreturned]
  cases hh : s.handle with
  | true => simpa only [hh] using h
  | false =>
      cases hj : decide (s.call = .joining) with
      | true => simpa only [hh, hj] using h
      | false =>
          cases hd : s.dropped with
          | true => simpa only [hh, hj, hd] using h
          | false =>
              simp only [hh, hj, hd] at h
              obtain ⟨outcome, n, hdone, hrest⟩ := h
              exact ⟨outcome, n, htask outcome hdone, hrest⟩

/-- The task is taken, or what is remembered of it is answered. -/
theorem Answers.joinOnce (h : s.Answers) (hcall : s.call ≠ .joining) : s.joinOnce.Answers := by
  have hjoining : decide (s.call = .joining) = false := decide_eq_false hcall
  rw [Answers, hjoining] at h
  rw [Download.joinOnce]
  cases hh : s.handle with
  | true =>
      simp only [hh] at h
      rw [if_pos rfl]
      exact h.2
  | false =>
      rw [if_neg Bool.false_ne_true, Answers]
      cases hd : s.dropped with
      | true =>
          simp only [hh, hd] at h
          simp only [reduceCtorEq, decide_false]
          refine ⟨h.1, fun r hr => ?_⟩
          rcases List.mem_append.mp hr with hr | hr
          · exact h.2 r hr
          · rw [List.mem_singleton.mp hr, h.1]
            rfl
      | false =>
          simp only [hh, hd] at h
          simp only [reduceCtorEq, decide_false]
          obtain ⟨outcome, n, hdone, hsucceeded, hreturned⟩ := h
          refine ⟨outcome, n + 1, hdone, hsucceeded, ?_⟩
          rw [hreturned, hsucceeded, List.cons_append, List.replicate_succ']

theorem Answers.await (h : s.Answers) (hcall : s.call = .joining) {outcome : Outcome}
    (hdone : s.task = .done outcome) :
    Answers { s with call := .idle, succeeded := remembered outcome,
                     returned := s.returned ++ [answer outcome] } := by
  rw [Answers, decide_eq_true hcall] at h
  rw [Answers]
  cases hh : s.handle with
  | true =>
      simp only [hh] at h
      cases h.1
  | false =>
      simp only [hh] at h
      obtain ⟨hdropped, _, hreturned⟩ := h
      simp only [hdropped, reduceCtorEq, decide_false]
      refine ⟨outcome, 0, hdone, rfl, ?_⟩
      rw [hreturned, List.nil_append, List.replicate_zero]

theorem Answers.drop (h : s.Answers) :
    Answers { s with call := .idle, dropped := s.dropped || decide (s.call = .joining) } := by
  by_cases hcall : s.call = .joining
  · rw [Answers, decide_eq_true hcall] at h
    rw [Answers]
    cases hh : s.handle with
    | true =>
        simp only [hh] at h
        cases h.1
    | false =>
        simp only [hh] at h
        simp only [decide_eq_true hcall, Bool.or_true, reduceCtorEq, decide_false]
        refine ⟨h.2.1, fun r hr => ?_⟩
        rw [h.2.2] at hr
        cases hr
  · refine h.congr rfl ?_ ?_ rfl rfl fun _ hdone => hdone
    · simp [hcall]
    · simp [hcall]

theorem Task.LastSent.of_running {sent : List Progress} (task : Task)
    (h : ∀ result, task ≠ .closing result ∧ task ≠ .closed (.finished result) ∧
      task ≠ .done (.finished result)) : Task.LastSent task sent := by
  intro result hended
  rcases hended with hended | hended | hended
  · exact absurd hended (h result).1
  · exact absurd hended (h result).2.1
  · exact absurd hended (h result).2.2

/-- Nothing is sent once the task has been tracked to its end. -/
theorem Inv.not_tracked (h : s.Inv) (htask : s.task.isClosed = false) : s.tracked ≠ true := by
  intro htracked
  rw [(h.tracked htracked).1] at htask
  cases htask

/-- A call that is no `track` leaves the newest one as it was. -/
theorem Tracking.congr (h : t.Tracking) (hwaiting : t.call ≠ .waiting) (howed : t.call ≠ .owed)
    (htracked : t.tracked = s.tracked) : s.Tracking := by
  rcases h with h | h | h
  · exact absurd h hwaiting
  · exact absurd h howed
  · exact .inr (.inr (htracked ▸ h))

/-- `joinOnce` leaves the channel alone, and the call no longer tracks. -/
theorem exists_joinOnce (s : Download) : ∃ handle call returned,
    s.joinOnce = { s with handle := handle, call := call, returned := returned } ∧
      call ≠ .owed ∧ call ≠ .waiting := by
  rw [joinOnce]
  split
  · exact ⟨_, _, _, rfl, by simp, by simp⟩
  · exact ⟨_, _, _, rfl, by simp, by simp⟩

/-- A step that is no step of the channel. -/
theorem Inv.congr (h : s.Inv) (hcall : s.call ≠ .owed) (howed : t.call ≠ .owed)
    (hwatch : t.watch = s.watch) (hearlier : t.earlier = s.earlier) (hbegun : t.begun = s.begun)
    (hcallbacks : t.callbacks = s.callbacks) (htracking : t.Tracking → s.Tracking)
    (hlast : Task.LastSent t.task s.watch.sent)
    (htracked : t.tracked = true → t.task.isClosed = true ∧ s.watch.changed = false)
    (hanswers : t.Answers) : t.Inv := by
  have hreads := h.reads
  have hfollows := h.follows
  rw [decide_eq_false hcall] at hreads hfollows
  refine ⟨?_, fun ht => ?_, ?_, fun ht => ?_, hanswers⟩
  · rw [hwatch, hearlier, hcallbacks, decide_eq_false howed]
    exact hreads
  · rw [hwatch, hbegun, hcallbacks, decide_eq_false howed]
    exact hfollows (htracking ht)
  · rw [hwatch]
    exact hlast
  · rw [hwatch]
    exact ⟨(htracked ht).1, (htracked ht).2, howed⟩

theorem Inv.atEnd (h : s.Inv) (htracked : s.tracked = true) :
    s.task.isClosed = true ∧ s.watch.changed = false :=
  ⟨(h.tracked htracked).1, (h.tracked htracked).2.1⟩

/-- A call of `changed` that begins, or is told of nothing more. -/
theorem Inv.waits (h : s.Inv) (hcall : s.call = .idle ∨ s.call = .changing) {call : Call}
    (hnext : call = .idle ∨ call = .changing) : Inv { s with call := call } := by
  have howed : s.call ≠ .owed := by
    rcases hcall with hcall | hcall
    · simp [hcall]
    · simp [hcall]
  have hjoining : call = .joining ↔ s.call = .joining := by
    rcases hcall with hcall | hcall <;> rcases hnext with rfl | rfl <;> simp [hcall]
  refine h.congr howed ?_ rfl rfl rfl rfl ?_ h.lastSent h.atEnd
    (h.answers.congr rfl hjoining rfl rfl rfl fun _ hdone => hdone)
  · rcases hnext with rfl | rfl <;> simp
  · intro ht
    refine ht.congr ?_ ?_ rfl
    · rcases hnext with rfl | rfl <;> simp
    · rcases hnext with rfl | rfl <;> simp

/-- A step of the task that sends nothing. -/
theorem Inv.task (h : s.Inv) {task : Task} (hlast : Task.LastSent task s.watch.sent)
    (hclosed : s.task.isClosed = true → task.isClosed = true)
    (hdone : ∀ outcome, s.task ≠ .done outcome) : Inv { s with task := task } :=
  ⟨h.reads, h.follows, hlast,
    fun htracked => ⟨hclosed (h.tracked htracked).1, (h.tracked htracked).2⟩,
    h.answers.congr rfl Iff.rfl rfl rfl rfl fun outcome heq => absurd heq (hdone outcome)⟩

/-- The task sends a snapshot. -/
theorem Inv.send (h : s.Inv) (hrun : s.task = .running) (snapshot : Progress) {task : Task}
    (hlast : Task.LastSent task (s.watch.sent ++ [snapshot])) :
    Inv { s with watch := s.watch.send snapshot, task := task } := by
  have htracked : s.tracked ≠ true := h.not_tracked (by rw [hrun]; rfl)
  refine ⟨h.reads.send _, fun ht => (h.follows ht).send h.reads.seen_le _, hlast,
    fun ht => absurd ht htracked, h.answers.congr rfl Iff.rfl rfl rfl rfl fun _ hdone => ?_⟩
  rw [hrun] at hdone
  cases hdone

/-- Every step keeps the invariant. -/
theorem Inv.next (h : s.Inv) (e : Event) (he : s.Enabled e) : (s.next e).Inv := by
  cases e with
  | report total downloaded =>
      have hrun : s.task = .running := he
      exact h.send hrun _ (Task.LastSent.of_running _ fun result => by simp [hrun])
  | finish result =>
      refine h.send he _ fun result' hended => ?_
      have hsame : result' = result := by simpa [eq_comm] using hended
      subst hsame
      exact ⟨_, List.getLast?_concat, rfl, rfl⟩
  | close =>
      obtain ⟨result, htask⟩ := he
      have hnext : s.next .close = { s with task := .closed (.finished result) } := by
        simp only [Download.next, htask]
      rw [hnext]
      refine h.task (fun result' hended => ?_) (fun _ => rfl) (by simp [htask])
      have hsame : result' = result := by simpa [eq_comm] using hended
      subst hsame
      exact h.lastSent result' (.inl htask)
  | abort =>
      have hrun : s.task = .running := he
      exact h.task (Task.LastSent.of_running _ fun result => by simp) (fun _ => rfl)
        (by simp [hrun])
  | panic =>
      have hrun : s.task = .running := he
      exact h.task (Task.LastSent.of_running _ fun result => by simp) (fun _ => rfl)
        (by simp [hrun])
  | settle =>
      obtain ⟨outcome, htask⟩ := he
      have hnext : s.next .settle = { s with task := .done outcome } := by
        simp only [Download.next, htask]
      rw [hnext]
      refine h.task (fun result hended => ?_) (fun _ => rfl) (by simp [htask])
      have hsame : outcome = .finished result := by simpa using hended
      exact h.lastSent result (.inr (.inl (by rw [htask, hsame])))
  | changed => exact h.waits (.inl he.1) (.inr rfl)
  | told =>
      obtain ⟨hcall, hchanged⟩ := he
      have hreads := h.reads
      rw [hcall] at hreads
      have htracked : s.tracked ≠ true := fun htracked => by
        rw [(h.tracked htracked).2.1] at hchanged
        cases hchanged
      refine ⟨hreads.mark, fun ht => ?_, h.lastSent, fun ht => absurd ht htracked,
        h.answers.congr rfl ?_ rfl rfl rfl fun _ hdone => hdone⟩
      · simp [Tracking, Download.next, htracked] at ht
      · simp [Download.next, hcall]
  | gone => exact h.waits (.inr he.1) (.inl rfl)
  | track =>
      have hcall : s.call = .idle := he.1
      have hreads := h.reads
      rw [hcall] at hreads
      refine ⟨?_, fun _ => Watch.Follows.start hreads.seen_le, h.lastSent, (fun ht => by cases ht),
        h.answers.congr rfl ?_ rfl rfl rfl fun _ hdone => hdone⟩
      · rw [Download.next, List.append_nil]
        exact hreads
      · simp [Download.next, hcall]
  | notice =>
      obtain ⟨hcall, hchanged⟩ := he
      have hreads := h.reads
      have hfollows := h.follows (.inl hcall)
      rw [hcall] at hreads hfollows
      refine ⟨hreads.notice hchanged, fun _ => hfollows.notice hchanged, h.lastSent,
        fun htracked => ?_, h.answers.congr rfl ?_ rfl rfl rfl fun _ hdone => hdone⟩
      · rw [(h.tracked htracked).2.1] at hchanged
        cases hchanged
      · simp [Download.next, hcall]
  | callback =>
      have hcall : s.call = .owed := he
      have hreads := h.reads
      have hfollows := h.follows (.inr (.inl hcall))
      rw [hcall] at hreads hfollows
      refine ⟨?_, fun _ => hfollows.read (hreads.owes rfl), h.lastSent,
        fun htracked => absurd hcall (h.tracked htracked).2.2,
        h.answers.congr rfl ?_ rfl rfl rfl fun _ hdone => hdone⟩
      · rw [Download.next, ← List.append_assoc]
        exact hreads.read
      · simp [Download.next, hcall]
  | ended =>
      obtain ⟨hcall, hchanged, hclosed⟩ := he
      have hanswers : s.joinOnce.Answers := h.answers.joinOnce (by simp [hcall])
      obtain ⟨handle, call, returned, hjoin, howed, _⟩ := s.exists_joinOnce
      rw [hjoin] at hanswers
      rw [Download.next, hjoin]
      exact h.congr (by simp [hcall]) howed rfl rfl rfl rfl (fun _ => .inl hcall) h.lastSent
        (fun _ => ⟨hclosed, hchanged⟩) hanswers
  | join =>
      have hcall : s.call = .idle := he.1
      have hanswers : s.joinOnce.Answers := h.answers.joinOnce (by simp [hcall])
      obtain ⟨handle, call, returned, hjoin, howed, hwaiting⟩ := s.exists_joinOnce
      rw [hjoin] at hanswers
      rw [Download.next, hjoin]
      exact h.congr (by simp [hcall]) howed rfl rfl rfl rfl
        (fun ht => ht.congr hwaiting howed rfl) h.lastSent
        h.atEnd hanswers
  | await =>
      obtain ⟨hcall, outcome, hdone⟩ := he
      have hnext : s.next .await =
          { s with call := .idle, succeeded := remembered outcome,
                   returned := s.returned ++ [answer outcome] } := by
        simp only [Download.next, hdone]
      rw [hnext]
      exact h.congr (by simp [hcall]) (by simp) rfl rfl rfl rfl
        (fun ht => ht.congr (by simp) (by simp) rfl) h.lastSent
        h.atEnd
        (h.answers.await hcall hdone)
  | drop =>
      have hcall : s.call ≠ .owed := by
        rcases he with hcall | hcall | hcall
        · simp [hcall]
        · simp [hcall]
        · simp [hcall]
      exact h.congr hcall (by simp [Download.next]) rfl rfl rfl rfl
        (fun ht => ht.congr (by simp [Download.next]) (by simp [Download.next]) rfl) h.lastSent
        h.atEnd h.answers.drop

end Steps

theorem inv_of_reachable {s : Download} (hr : machine.Reachable s) : s.Inv := by
  refine hr.invariant ?_ ?_
  · rintro _ rfl
    refine ⟨Watch.Reads.start _, fun h => ?_, ?_, (fun h => by cases h), ?_⟩
    · simp [Tracking, new] at h
    · exact Task.LastSent.of_running _ fun result => by simp [new]
    · exact ⟨rfl, rfl, rfl, rfl⟩
  · rintro s e _ h ⟨he, rfl⟩
    exact h.next e he

/-- Calls end as the task did once, and from then on by what is remembered of it; unless one was
dropped where it awaited the task, after which all succeed. -/
theorem returned_once {s : Download} (hr : machine.Reachable s) :
    if s.dropped then ∀ r ∈ s.returned, r = .result (.ok ())
    else s.returned = [] ∨ ∃ outcome n, s.task = .done outcome ∧
      s.returned =
        answer outcome :: List.replicate n (.result (again (remembered outcome))) := by
  have h := (inv_of_reachable hr).answers
  rw [Answers] at h
  split at h
  · obtain ⟨_, hdropped, _, hreturned⟩ := h
    rw [hdropped, if_neg Bool.false_ne_true]
    exact .inl hreturned
  · obtain ⟨hdropped, _, hreturned⟩ := h
    rw [hdropped, if_neg Bool.false_ne_true]
    exact .inl hreturned
  · rename_i hdropped
    rw [hdropped, if_pos rfl]
    exact h.2
  · rename_i hdropped
    obtain ⟨outcome, n, hdone, _, hreturned⟩ := h
    rw [hdropped, if_neg Bool.false_ne_true]
    exact .inr ⟨outcome, n, hdone, hreturned⟩

/-- A download that fails, a call dropped where it awaits the task, and another one. -/
def droppedRun : List Event :=
  [.track, .finish (.error (.io "no space")), .notice, .callback, .close, .ended, .drop, .join]

theorem returned_once_droppedRun : (droppedRun.foldl next new).dropped = true ∧
    ∀ r ∈ (droppedRun.foldl next new).returned, r = .result (.ok ()) := by
  have hlegal : Machine.Legal Enabled next new droppedRun :=
    ⟨⟨rfl, rfl⟩, rfl, ⟨rfl, rfl⟩, rfl, ⟨_, rfl⟩, ⟨rfl, rfl, rfl⟩, .inr (.inr rfl), ⟨rfl, rfl⟩,
      trivial⟩
  have hdropped : (droppedRun.foldl next new).dropped = true := rfl
  have h := returned_once ((Machine.Reachable.start rfl).legal hlegal)
  rw [if_pos hdropped] at h
  exact ⟨hdropped, h⟩

end Download

end Fetch

end RustSak
