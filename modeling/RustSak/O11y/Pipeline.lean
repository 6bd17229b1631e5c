import RustSak.Library.Machine
import Mathlib.Algebra.Ring.Nat
import Mathlib.Logic.Function.Basic

/-!
# The pipeline and its export thread

Producers push records into two bounded buffers; one thread drains them in cycles,
woken by a flush, by a full batch, by its timer or by the shutdown. A record is its
number in the order of the pushes. Each step is what one thread does under one lock,
or what it does between two of them.
-/

namespace RustSak

namespace O11y

open Library

/-- A bounded queue that discards its oldest entry, `queue` the oldest first. -/
structure Buffer (α : Type) where
  capacity : ℕ
  queue : List α
  /-- Discarded since the last `take`. -/
  dropped : ℕ
  positive : 0 < capacity
  bounded : queue.length ≤ capacity

namespace Buffer

variable {α : Type}

/-- A capacity of zero is raised to one. -/
def new (capacity : ℕ) : Buffer α where
  capacity := max capacity 1
  queue := []
  dropped := 0
  positive := Nat.lt_of_lt_of_le Nat.zero_lt_one (Nat.le_max_right capacity 1)
  bounded := Nat.zero_le _

variable (buffer : Buffer α)

def isFull : Bool := buffer.capacity ≤ buffer.queue.length

/-- What the next push discards. -/
def displaced : List α := if buffer.isFull then buffer.queue.take 1 else []

def kept : List α := if buffer.isFull then buffer.queue.tail else buffer.queue

theorem length_kept_lt : buffer.kept.length < buffer.capacity := by
  unfold kept isFull
  split
  · rw [List.length_tail]
    have hpositive := buffer.positive
    have hbounded := buffer.bounded
    omega
  · rename_i hfull
    exact Nat.lt_of_not_le (by simpa using hfull)

def push (item : α) : Buffer α where
  capacity := buffer.capacity
  queue := buffer.kept ++ [item]
  dropped := buffer.dropped + buffer.displaced.length
  positive := buffer.positive
  bounded := by
    rw [List.length_append]
    exact buffer.length_kept_lt

def emptied : Buffer α where
  capacity := buffer.capacity
  queue := []
  dropped := 0
  positive := buffer.positive
  bounded := Nat.zero_le _

/-- A push loses nothing but what it displaces. -/
theorem mem_push {item x : α} (h : x ∈ buffer.queue) :
    x ∈ buffer.displaced ∨ x ∈ (buffer.push item).queue := by
  unfold displaced
  split
  · rename_i hfull
    cases hqueue : buffer.queue with
    | nil => rw [hqueue] at h; cases h
    | cons oldest rest =>
        rw [hqueue] at h
        rcases List.mem_cons.mp h with rfl | h
        · exact .inl List.mem_cons_self
        · refine .inr (List.mem_append_left _ ?_)
          rw [kept, if_pos hfull, hqueue]
          exact h
  · rename_i hfull
    refine .inr (List.mem_append_left _ ?_)
    rw [kept, if_neg hfull]
    exact h

theorem mem_push_self (item : α) : item ∈ (buffer.push item).queue :=
  List.mem_append_right _ List.mem_cons_self

end Buffer

structure Control where
  shutdown : Bool
  flushRequested : Bool
  batchReady : Bool
  started : ℕ
  generation : ℕ
  deriving DecidableEq

def tick (counter : ℕ) : ℕ := (counter + 1) % 2 ^ 64

/-- Where the export thread is; whether it found the shutdown flag when it last
woke. -/
inductive Worker where
  | starting
  | waiting
  | woken (shuttingDown : Bool)
  | takingLogs (shuttingDown : Bool)
  | takingSpans (shuttingDown : Bool)
  | exporting (shuttingDown : Bool)
  | exited
  | dead
  deriving DecidableEq

/-- Where a caller of `flush` is; `held` is what was buffered when it called. -/
inductive Flusher where
  | idle
  | called (held : List ℕ)
  | waiting (target : ℕ) (held : List ℕ)
  deriving DecidableEq

/-- The pipeline, and what has become of the records: `batch` is what the cycle
under way has taken, `taken` what finished ones have, `discarded` what made room
in a full buffer, and `before` how many were pushed before the shutdown flag was
set. -/
structure Pipeline where
  logs : Buffer ℕ
  spans : Buffer ℕ
  control : Control
  worker : Worker
  joinable : Bool
  flushers : ℕ → Flusher
  /-- Pushes that reached the batch size and have not said so yet. -/
  notices : ℕ
  pushed : ℕ
  batch : List ℕ
  taken : List ℕ
  discarded : List ℕ
  before : ℕ

namespace Pipeline

def new (maxBuffered : ℕ) : Pipeline where
  logs := .new maxBuffered
  spans := .new maxBuffered
  control := ⟨false, false, false, 0, 0⟩
  worker := .starting
  joinable := true
  flushers _ := .idle
  notices := 0
  pushed := 0
  batch := []
  taken := []
  discarded := []
  before := 0

inductive Event where
  | recordLog
  | recordSpan
  /-- `wake_if_batched`, on the push that reached the batch size. -/
  | notice
  | call (k : ℕ)
  | request (k : ℕ)
  | returns (k : ℕ)
  | timeout (k : ℕ)
  | start
  | wake
  | claim
  | takeLogs
  | takeSpans
  | finish
  | panic
  | shutdown
  | join
  deriving DecidableEq

/-- A caller that waits may return: its cycle has finished, or no cycle will. -/
def released (p : Pipeline) : Flusher → Bool
  | .waiting target _ => target ≤ p.control.generation || p.control.shutdown
  | _ => false

def Enabled (p : Pipeline) : Event → Prop
  | .recordLog => True
  | .recordSpan => True
  | .notice => 0 < p.notices
  | .call k => p.flushers k = .idle
  | .request k => ∃ held, p.flushers k = .called held
  | .returns k => p.released (p.flushers k) = true
  | .timeout k => ∃ target held, p.flushers k = .waiting target held
  | .start => p.worker = .starting
  -- The timer may have run out, whatever the flags say.
  | .wake => p.worker = .waiting
  | .claim => ∃ sd, p.worker = .woken sd
  | .takeLogs => ∃ sd, p.worker = .takingLogs sd
  | .takeSpans => ∃ sd, p.worker = .takingSpans sd
  | .finish => ∃ sd, p.worker = .exporting sd
  -- Building the client may panic, and so may the callback for export errors.
  | .panic => p.worker = .starting ∨ ∃ sd, p.worker = .exporting sd
  | .shutdown => True
  | .join => p.control.shutdown = true ∧ p.joinable = true ∧
      (p.worker = .exited ∨ p.worker = .dead)

variable (p : Pipeline)

def withControl (control : Control) : Pipeline := { p with control := control }

def goto (worker : Worker) : Pipeline := { p with worker := worker }

def setFlusher (k : ℕ) (flusher : Flusher) : Pipeline :=
  { p with flushers := Function.update p.flushers k flusher }

/-- A push is due to say so when it has filled a batch. -/
def noticing (maxBatch queued : ℕ) : Pipeline :=
  if queued = maxBatch then { p with notices := p.notices + 1 } else p

def request (k : ℕ) : Pipeline :=
  match p.flushers k with
  | .called held =>
      if p.control.shutdown then p.setFlusher k .idle
      else
        (p.withControl { p.control with flushRequested := true }).setFlusher k
          (.waiting (tick p.control.started) held)
  | _ => p

/-- Runs one cycle on: what the worker does next, by where it is. -/
def advance : Pipeline :=
  match p.worker with
  | .starting => p.goto .waiting
  | .waiting => p.goto (.woken p.control.shutdown)
  | .woken sd => (p.withControl { p.control with
      flushRequested := false
      batchReady := false
      started := tick p.control.started }).goto (.takingLogs sd)
  | .takingLogs sd =>
      { p with
        logs := p.logs.emptied
        batch := p.logs.queue
        worker := .takingSpans sd }
  | .takingSpans sd =>
      { p with
        spans := p.spans.emptied
        batch := p.batch ++ p.spans.queue
        worker := .exporting sd }
  | .exporting sd =>
      { p with
        control := { p.control with generation := tick p.control.generation }
        taken := p.taken ++ p.batch
        batch := []
        worker := if sd then .exited else .waiting }
  | .exited => p
  | .dead => p

def next (maxBatch : ℕ) : Event → Pipeline
  | .recordLog =>
      noticing { p with
          logs := p.logs.push p.pushed
          pushed := p.pushed + 1
          discarded := p.discarded ++ p.logs.displaced }
        maxBatch (p.logs.push p.pushed).queue.length
  | .recordSpan =>
      noticing { p with
          spans := p.spans.push p.pushed
          pushed := p.pushed + 1
          discarded := p.discarded ++ p.spans.displaced }
        maxBatch (p.spans.push p.pushed).queue.length
  | .notice =>
      { p.withControl { p.control with batchReady := true } with
        notices := p.notices - 1 }
  | .call k => p.setFlusher k (.called (p.logs.queue ++ p.spans.queue))
  | .request k => p.request k
  | .returns k => p.setFlusher k .idle
  | .timeout k => p.setFlusher k .idle
  | .start => p.advance
  | .wake => p.advance
  | .claim => p.advance
  | .takeLogs => p.advance
  | .takeSpans => p.advance
  | .finish => p.advance
  | .panic => p.goto .dead
  | .shutdown =>
      { p.withControl { p.control with shutdown := true } with
        before := if p.control.shutdown then p.before else p.pushed }
  | .join => { p with joinable := false }

/-- The pipeline from `init` on, with any producers, callers of `flush` and of
`shutdown`. -/
def machine (maxBuffered maxBatch : ℕ) : Machine Pipeline Event :=
  .guarded (fun p => p = new maxBuffered) Enabled fun p => p.next maxBatch

end Pipeline

end O11y

end RustSak
