import RustSak.O11y.Pipeline

/-!
# What a flush and the shutdown wait for

A record in a buffer is taken by the next cycle that comes to that buffer. `Owed`
says that a record is gone or that the cycle that takes it is not later than a given
one, and no step defers it. A flush waits for the first cycle that starts after it,
the shutdown for the one that finds its flag, and either is late enough for all that
was pushed before. A full buffer discards its oldest record, and what it discards no
cycle takes.
-/

namespace RustSak

namespace O11y

open Library

/-- The cycle that takes what is in the log buffer now. -/
def Worker.logsDue (started : ℕ) : Worker → ℕ
  | .takingLogs _ => started
  | _ => started + 1

/-- The cycle that takes what is in the span buffer now. -/
def Worker.spansDue (started : ℕ) : Worker → ℕ
  | .takingLogs _ => started
  | .takingSpans _ => started
  | _ => started + 1

theorem Worker.logsDue_le (started : ℕ) (worker : Worker) :
    worker.logsDue started ≤ started + 1 := by
  cases worker with
  | takingLogs sd => exact Nat.le_succ started
  | _ => exact le_rfl

theorem Worker.spansDue_le (started : ℕ) (worker : Worker) :
    worker.spansDue started ≤ started + 1 := by
  cases worker with
  | takingLogs sd => exact Nat.le_succ started
  | takingSpans sd => exact Nat.le_succ started
  | _ => exact le_rfl

theorem tick_of_lt {counter : ℕ} (h : counter + 1 < 2 ^ 64) :
    tick counter = counter + 1 := Nat.mod_eq_of_lt h

namespace Pipeline

/-- The record is gone, or a cycle up to the target takes it. -/
inductive Owed (p : Pipeline) (target r : ℕ) : Prop where
  | discarded (h : r ∈ p.discarded)
  | taken (h : r ∈ p.taken)
  | batched (h : r ∈ p.batch) (hle : p.control.started ≤ target)
  | logged (h : r ∈ p.logs.queue)
      (hle : p.worker.logsDue p.control.started ≤ target)
  | spanned (h : r ∈ p.spans.queue)
      (hle : p.worker.spansDue p.control.started ≤ target)

/-- The steps of the callers leave the records where they are. -/
structure SameRecords (p q : Pipeline) : Prop where
  logs : q.logs = p.logs
  spans : q.spans = p.spans
  started : q.control.started = p.control.started
  generation : q.control.generation = p.control.generation
  worker : q.worker = p.worker
  pushed : q.pushed = p.pushed
  batch : q.batch = p.batch
  taken : q.taken = p.taken
  discarded : q.discarded = p.discarded

/-- What the counters say of the cycle under way. -/
def Paced (p : Pipeline) : Prop :=
  match p.worker with
  | .takingLogs _ => p.control.started = p.control.generation + 1 ∧ p.batch = []
  | .takingSpans _ => p.control.started = p.control.generation + 1
  | .exporting _ => p.control.started = p.control.generation + 1
  | .dead => p.control.generation ≤ p.control.started ∧
      p.control.started ≤ p.control.generation + 1 ∧
      (p.batch ≠ [] → p.control.started = p.control.generation + 1)
  | _ => p.control.started = p.control.generation ∧ p.batch = []

/-- The last cycle, once the worker has found the shutdown flag. -/
def finalCycle (p : Pipeline) : Option ℕ :=
  match p.worker with
  | .woken true => some (p.control.started + 1)
  | .takingLogs true => some p.control.started
  | .takingSpans true => some p.control.started
  | .exporting true => some p.control.started
  | .exited => some p.control.started
  | _ => none

/-- What a caller of `flush` held is taken by the cycle it waits for. -/
def Promised (p : Pipeline) : Flusher → Prop
  | .idle => True
  | .called held => ∀ r ∈ held, Owed p (p.control.started + 1) r
  | .waiting target held => ∀ r ∈ held, Owed p target r

structure Inv (p : Pipeline) : Prop where
  counts : p.control.started < 2 ^ 64
  paced : Paced p
  known : ∀ r < p.pushed, Owed p (p.control.started + 1) r
  promised : ∀ k, Promised p (p.flushers k)
  before : p.before ≤ p.pushed
  final : ∀ cycle, p.finalCycle = some cycle →
    p.control.shutdown = true ∧ ∀ r < p.before, Owed p cycle r

/-- No counter passes its 64 bits. -/
def Counts (p : Pipeline) : Event → Prop
  | .claim => p.control.started + 1 < 2 ^ 64
  | .request _ => p.control.started + 1 < 2 ^ 64
  | _ => True

variable {p q : Pipeline} {target r : ℕ}

theorem Owed.mono {target' : ℕ} (h : Owed p target r) (hle : target ≤ target') :
    Owed p target' r := by
  cases h with
  | discarded h => exact .discarded h
  | taken h => exact .taken h
  | batched h hle' => exact .batched h (hle'.trans hle)
  | logged h hle' => exact .logged h (hle'.trans hle)
  | spanned h hle' => exact .spanned h (hle'.trans hle)

/-- What is buffered is taken by the next cycle to start at the latest. -/
theorem owed_of_mem_logs (h : r ∈ p.logs.queue) : Owed p (p.control.started + 1) r :=
  .logged h (Worker.logsDue_le _ _)

theorem owed_of_mem_spans (h : r ∈ p.spans.queue) :
    Owed p (p.control.started + 1) r := .spanned h (Worker.spansDue_le _ _)

theorem Paced.generation_le (h : Paced p) :
    p.control.generation ≤ p.control.started ∧
    p.control.started ≤ p.control.generation + 1 := by
  unfold Paced at h
  split at h
  · omega
  · omega
  · omega
  · exact ⟨h.1, h.2.1⟩
  · omega

theorem Paced.batch_eq_nil (h : Paced p)
    (hlt : p.control.started ≠ p.control.generation + 1) : p.batch = [] := by
  unfold Paced at h
  split at h
  · exact absurd h.1 hlt
  · exact absurd h hlt
  · exact absurd h hlt
  · by_contra hbatch
    exact hlt (h.2.2 hbatch)
  · exact h.2

/-- While the log buffer is still to be drained, its cycle has not finished. -/
theorem Paced.generation_lt_logsDue (h : Paced p) :
    p.control.generation < p.worker.logsDue p.control.started := by
  have hle := h.generation_le.1
  cases hworker : p.worker with
  | takingLogs sd =>
      rw [Paced, hworker] at h
      exact h.1 ▸ Nat.lt_succ_self _
  | _ => exact Nat.lt_succ_of_le hle

theorem Paced.generation_lt_spansDue (h : Paced p) :
    p.control.generation < p.worker.spansDue p.control.started := by
  have hle := h.generation_le.1
  cases hworker : p.worker with
  | takingLogs sd =>
      rw [Paced, hworker] at h
      exact h.1 ▸ Nat.lt_succ_self _
  | takingSpans sd =>
      rw [Paced, hworker] at h
      exact h ▸ Nat.lt_succ_self _
  | _ => exact Nat.lt_succ_of_le hle

/-- Once the cycle has finished the record is gone. -/
theorem Owed.settled (h : Owed p target r) (hp : Paced p)
    (hle : target ≤ p.control.generation) : r ∈ p.taken ∨ r ∈ p.discarded := by
  cases h with
  | discarded h => exact .inr h
  | taken h => exact .inl h
  | batched h hstarted =>
      have hbatch := hp.batch_eq_nil (by omega)
      rw [hbatch] at h
      cases h
  | logged _ hdue => exact absurd (hdue.trans hle) (not_le.mpr hp.generation_lt_logsDue)
  | spanned _ hdue =>
      exact absurd (hdue.trans hle) (not_le.mpr hp.generation_lt_spansDue)

namespace SameRecords

theorem owed (hs : SameRecords p q) (h : Owed p target r) : Owed q target r := by
  cases h with
  | discarded h => exact .discarded (hs.discarded ▸ h)
  | taken h => exact .taken (hs.taken ▸ h)
  | batched h hle => exact .batched (hs.batch ▸ h) (hs.started ▸ hle)
  | logged h hle => exact .logged (hs.logs ▸ h) (hs.worker ▸ hs.started ▸ hle)
  | spanned h hle => exact .spanned (hs.spans ▸ h) (hs.worker ▸ hs.started ▸ hle)

theorem promised (hs : SameRecords p q) {flusher : Flusher}
    (h : Promised p flusher) : Promised q flusher := by
  cases flusher with
  | idle => trivial
  | called held => exact fun r hr => hs.started ▸ hs.owed (h r hr)
  | waiting target held => exact fun r hr => hs.owed (h r hr)

theorem paced (hs : SameRecords p q) (h : Paced p) : Paced q := by
  unfold Paced
  rw [hs.worker, hs.started, hs.generation, hs.batch]
  exact h

theorem finalCycle_eq (hs : SameRecords p q) : q.finalCycle = p.finalCycle := by
  unfold finalCycle
  rw [hs.worker, hs.started]

/-- A step that leaves the records where they are keeps the invariant, if it makes
no promise that does not hold. -/
theorem inv (hs : SameRecords p q) (h : Inv p)
    (hflushers : ∀ k, Promised p (q.flushers k)) (hbefore : q.before ≤ p.pushed)
    (hfinal : p.control.shutdown = true →
      q.control.shutdown = true ∧ q.before = p.before) : Inv q where
  counts := hs.started ▸ h.counts
  paced := hs.paced h.paced
  known r hr := hs.started ▸ hs.owed (h.known r (hs.pushed ▸ hr))
  promised k := hs.promised (hflushers k)
  before := hs.pushed ▸ hbefore
  final cycle hcycle := by
    obtain ⟨hshutdown, howed⟩ := h.final cycle (hs.finalCycle_eq ▸ hcycle)
    obtain ⟨hshutdown', hsame⟩ := hfinal hshutdown
    exact ⟨hshutdown', fun r hr => hs.owed (howed r (hsame ▸ hr))⟩

end SameRecords

theorem sameRecords_setFlusher (k : ℕ) (flusher : Flusher) :
    SameRecords p (p.setFlusher k flusher) :=
  ⟨rfl, rfl, rfl, rfl, rfl, rfl, rfl, rfl, rfl⟩

/-- One caller moves on, with a promise that holds. -/
theorem Inv.setFlusher (h : Inv p) (k : ℕ) {flusher : Flusher}
    (hpromised : Promised p flusher) : Inv (p.setFlusher k flusher) := by
  refine (sameRecords_setFlusher k flusher).inv h (fun j => ?_) h.before
    fun hshutdown => ⟨hshutdown, rfl⟩
  change Promised p (Function.update p.flushers k flusher j)
  rcases eq_or_ne j k with rfl | hne
  · rw [Function.update_self]
    exact hpromised
  · rw [Function.update_of_ne hne]
    exact h.promised j

/-- A flush asks for the first cycle to start from now on. -/
theorem Inv.request (h : Inv p) {k : ℕ}
    (hcounts : p.control.started + 1 < 2 ^ 64) : Inv (p.request k) := by
  unfold Pipeline.request
  split
  · rename_i held hflusher
    have hheld := h.promised k
    rw [hflusher] at hheld
    split
    · exact h.setFlusher k trivial
    · have hs : SameRecords p
          (p.withControl { p.control with flushRequested := true }) :=
        ⟨rfl, rfl, rfl, rfl, rfl, rfl, rfl, rfl, rfl⟩
      have hi := hs.inv h h.promised h.before fun hshutdown => ⟨hshutdown, rfl⟩
      refine hi.setFlusher k ?_
      rw [tick_of_lt hcounts]
      exact fun r hr => hs.owed (hheld r hr)
  · exact h

/-- The steps of the worker, and of producers, take nothing that is owed further
away. -/
structure Keeps (p q : Pipeline) : Prop where
  started : p.control.started ≤ q.control.started
  owed : ∀ target r, Owed p target r → Owed q target r
  flushers : q.flushers = p.flushers
  before : q.before = p.before
  shutdown : q.control.shutdown = p.control.shutdown

theorem Keeps.promised (hk : Keeps p q) {flusher : Flusher}
    (h : Promised p flusher) : Promised q flusher := by
  cases flusher with
  | idle => trivial
  | called held =>
      exact fun r hr => (hk.owed _ r (h r hr)).mono (Nat.succ_le_succ hk.started)
  | waiting target held => exact fun r hr => hk.owed target r (h r hr)

/-- A step of the worker that keeps what is owed, and comes to its final cycle as it
should, keeps the invariant. -/
theorem Keeps.inv (hk : Keeps p q) (h : Inv p) (hcounts : q.control.started < 2 ^ 64)
    (hpaced : Paced q) (hpushed : q.pushed = p.pushed)
    (hfinal : ∀ cycle, q.finalCycle = some cycle → p.finalCycle = some cycle ∨
      p.control.shutdown = true ∧ cycle = p.control.started + 1) : Inv q where
  counts := hcounts
  paced := hpaced
  known r hr :=
    (hk.owed _ r (h.known r (hpushed ▸ hr))).mono (Nat.succ_le_succ hk.started)
  promised k := hk.promised (hk.flushers ▸ h.promised k)
  before := hk.before ▸ hpushed ▸ h.before
  final cycle hcycle := by
    rw [hk.shutdown, hk.before]
    rcases hfinal cycle hcycle with hcycle | ⟨hshutdown, rfl⟩
    · obtain ⟨hshutdown, howed⟩ := h.final cycle hcycle
      exact ⟨hshutdown, fun r hr => hk.owed cycle r (howed r hr)⟩
    · exact ⟨hshutdown, fun r hr =>
        hk.owed _ r (h.known r (Nat.lt_of_lt_of_le hr h.before))⟩

theorem sameRecords_noticing (maxBatch queued : ℕ) :
    SameRecords p (p.noticing maxBatch queued) := by
  unfold noticing
  split
  · exact ⟨rfl, rfl, rfl, rfl, rfl, rfl, rfl, rfl, rfl⟩
  · exact ⟨rfl, rfl, rfl, rfl, rfl, rfl, rfl, rfl, rfl⟩

theorem Inv.noticing (h : Inv p) (maxBatch queued : ℕ) :
    Inv (p.noticing maxBatch queued) := by
  refine (sameRecords_noticing maxBatch queued).inv h ?_ ?_ ?_
  · unfold Pipeline.noticing
    split
    · exact h.promised
    · exact h.promised
  · unfold Pipeline.noticing
    split
    · exact h.before
    · exact h.before
  · unfold Pipeline.noticing
    split
    · exact fun hshutdown => ⟨hshutdown, rfl⟩
    · exact fun hshutdown => ⟨hshutdown, rfl⟩

/-- A push, to either buffer: the new record is owed to the next cycle, and nothing
else has moved but to what was discarded. -/
theorem Keeps.push (hk : Keeps p q) (h : Inv p) (hpaced : Paced q)
    (hstarted : q.control.started = p.control.started)
    (hpushed : q.pushed = p.pushed + 1) (hfinal : q.finalCycle = p.finalCycle)
    (hnew : Owed q (q.control.started + 1) p.pushed) : Inv q where
  counts := hstarted ▸ h.counts
  paced := hpaced
  known r hr := by
    rw [hpushed] at hr
    rcases Nat.lt_succ_iff_lt_or_eq.mp hr with hr | rfl
    · exact hstarted ▸ hk.owed _ r (h.known r hr)
    · exact hnew
  promised k := hk.promised (hk.flushers ▸ h.promised k)
  before := by
    rw [hk.before, hpushed]
    exact Nat.le_succ_of_le h.before
  final cycle hcycle := by
    rw [hk.shutdown, hk.before]
    obtain ⟨hshutdown, howed⟩ := h.final cycle (hfinal ▸ hcycle)
    exact ⟨hshutdown, fun r hr => hk.owed cycle r (howed r hr)⟩

theorem Inv.recordLog (h : Inv p) (maxBatch : ℕ) :
    Inv (p.next maxBatch .recordLog) := by
  refine Inv.noticing ?_ maxBatch _
  refine Keeps.push (p := p) ⟨le_rfl, ?_, rfl, rfl, rfl⟩ h h.paced rfl rfl rfl
    (owed_of_mem_logs (p.logs.mem_push_self p.pushed))
  intro target r howed
  cases howed with
  | discarded h => exact .discarded (List.mem_append_left _ h)
  | taken h => exact .taken h
  | batched h hle => exact .batched h hle
  | logged h hle =>
      have hpush : r ∈ p.logs.displaced ∨ r ∈ (p.logs.push p.pushed).queue :=
        p.logs.mem_push h
      rcases hpush with h | h
      · exact .discarded (List.mem_append_right _ h)
      · exact .logged h hle
  | spanned h hle => exact .spanned h hle

theorem Inv.recordSpan (h : Inv p) (maxBatch : ℕ) :
    Inv (p.next maxBatch .recordSpan) := by
  refine Inv.noticing ?_ maxBatch _
  refine Keeps.push (p := p) ⟨le_rfl, ?_, rfl, rfl, rfl⟩ h h.paced rfl rfl rfl
    (owed_of_mem_spans (p.spans.mem_push_self p.pushed))
  intro target r howed
  cases howed with
  | discarded h => exact .discarded (List.mem_append_left _ h)
  | taken h => exact .taken h
  | batched h hle => exact .batched h hle
  | logged h hle => exact .logged h hle
  | spanned h hle =>
      have hpush : r ∈ p.spans.displaced ∨ r ∈ (p.spans.push p.pushed).queue :=
        p.spans.mem_push h
      rcases hpush with h | h
      · exact .discarded (List.mem_append_right _ h)
      · exact .spanned h hle

theorem Inv.start (h : Inv p) (hworker : p.worker = .starting) :
    Inv (p.goto .waiting) := by
  have hpaced := h.paced
  rw [Paced, hworker] at hpaced
  refine Keeps.inv (p := p) ⟨le_rfl, ?_, rfl, rfl, rfl⟩ h h.counts hpaced rfl
    fun _ hcycle => nomatch hcycle
  intro target r howed
  cases howed with
  | discarded h => exact .discarded h
  | taken h => exact .taken h
  | batched h hle => exact .batched h hle
  | logged h hle => exact .logged h (by rwa [hworker] at hle)
  | spanned h hle => exact .spanned h (by rwa [hworker] at hle)

/-- The worker that finds the flag has one more cycle before it. -/
theorem Inv.wake (h : Inv p) (hworker : p.worker = .waiting) :
    Inv (p.goto (.woken p.control.shutdown)) := by
  have hpaced := h.paced
  rw [Paced, hworker] at hpaced
  refine Keeps.inv (p := p) ⟨le_rfl, ?_, rfl, rfl, rfl⟩ h h.counts hpaced rfl ?_
  · intro target r howed
    cases howed with
    | discarded h => exact .discarded h
    | taken h => exact .taken h
    | batched h hle => exact .batched h hle
    | logged h hle => exact .logged h (by rwa [hworker] at hle)
    | spanned h hle => exact .spanned h (by rwa [hworker] at hle)
  · intro cycle hcycle
    cases hshutdown : p.control.shutdown with
    | true =>
        rw [hshutdown] at hcycle
        exact .inr ⟨rfl, (Option.some.inj hcycle).symm⟩
    | false =>
        rw [hshutdown] at hcycle
        cases hcycle

/-- The cycle that was next is the one under way. -/
theorem Inv.claim (h : Inv p) {sd : Bool} (hworker : p.worker = .woken sd)
    (hcounts : p.control.started + 1 < 2 ^ 64) : Inv p.advance := by
  have hpaced := h.paced
  rw [Paced, hworker] at hpaced
  obtain ⟨hstarted, hbatch⟩ := hpaced
  rw [advance, hworker]
  dsimp only
  rw [tick_of_lt hcounts]
  refine Keeps.inv (p := p) ⟨Nat.le_succ _, ?_, rfl, rfl, rfl⟩ h hcounts
    ⟨by rw [← hstarted]; rfl, hbatch⟩ rfl ?_
  · intro target r howed
    cases howed with
    | discarded h => exact .discarded h
    | taken h => exact .taken h
    | batched h _ => rw [hbatch] at h; cases h
    | logged h hle => exact .logged h (by rwa [hworker] at hle)
    | spanned h hle => exact .spanned h (by rwa [hworker] at hle)
  · intro cycle hcycle
    rw [finalCycle, hworker]
    cases sd with
    | true => exact .inl hcycle
    | false => cases hcycle

theorem Inv.takeLogs (h : Inv p) {sd : Bool} (hworker : p.worker = .takingLogs sd) :
    Inv p.advance := by
  have hpaced := h.paced
  rw [Paced, hworker] at hpaced
  obtain ⟨hstarted, hbatch⟩ := hpaced
  rw [advance, hworker]
  refine Keeps.inv (p := p) ⟨le_rfl, ?_, rfl, rfl, rfl⟩ h h.counts hstarted rfl ?_
  · intro target r howed
    cases howed with
    | discarded h => exact .discarded h
    | taken h => exact .taken h
    | batched h _ => rw [hbatch] at h; cases h
    | logged h hle => exact .batched h (by rwa [hworker] at hle)
    | spanned h hle => exact .spanned h (by rwa [hworker] at hle)
  · intro cycle hcycle
    rw [finalCycle, hworker]
    cases sd with
    | true => exact .inl hcycle
    | false => cases hcycle

theorem Inv.takeSpans (h : Inv p) {sd : Bool}
    (hworker : p.worker = .takingSpans sd) : Inv p.advance := by
  have hpaced := h.paced
  rw [Paced, hworker] at hpaced
  rw [advance, hworker]
  refine Keeps.inv (p := p) ⟨le_rfl, ?_, rfl, rfl, rfl⟩ h h.counts hpaced rfl ?_
  · intro target r howed
    cases howed with
    | discarded h => exact .discarded h
    | taken h => exact .taken h
    | batched h hle => exact .batched (List.mem_append_left _ h) hle
    | logged h hle => exact .logged h (by rwa [hworker] at hle)
    | spanned h hle =>
        exact .batched (List.mem_append_right _ h) (by rwa [hworker] at hle)
  · intro cycle hcycle
    rw [finalCycle, hworker]
    cases sd with
    | true => exact .inl hcycle
    | false => cases hcycle

/-- What the cycle has taken is accounted for. -/
theorem Inv.finish (h : Inv p) {sd : Bool} (hworker : p.worker = .exporting sd) :
    Inv p.advance := by
  have hpaced := h.paced
  rw [Paced, hworker] at hpaced
  have hcounts : p.control.generation + 1 < 2 ^ 64 := hpaced ▸ h.counts
  rw [advance, hworker]
  dsimp only
  rw [tick_of_lt hcounts, ← hpaced]
  refine Keeps.inv (p := p) ⟨le_rfl, ?_, rfl, rfl, rfl⟩ h h.counts ?_ rfl ?_
  · intro target r howed
    cases howed with
    | discarded h => exact .discarded h
    | taken h => exact .taken (List.mem_append_left _ h)
    | batched h _ => exact .taken (List.mem_append_right _ h)
    | logged h hle =>
        rw [hworker] at hle
        cases sd with
        | true => exact .logged h hle
        | false => exact .logged h hle
    | spanned h hle =>
        rw [hworker] at hle
        cases sd with
        | true => exact .spanned h hle
        | false => exact .spanned h hle
  · cases sd with
    | true => exact ⟨rfl, rfl⟩
    | false => exact ⟨rfl, rfl⟩
  · intro cycle hcycle
    rw [finalCycle, hworker]
    cases sd with
    | true => exact .inl hcycle
    | false => cases hcycle

/-- What a panic leaves in the buffers, and in the batch, stays there. -/
theorem Inv.panic (h : Inv p)
    (hworker : p.worker = .starting ∨ ∃ sd, p.worker = .exporting sd) :
    Inv (p.goto .dead) := by
  obtain ⟨hle, hlt⟩ := h.paced.generation_le
  have hbatch : p.batch ≠ [] → p.control.started = p.control.generation + 1 := by
    intro hne
    by_contra hstarted
    exact hne (h.paced.batch_eq_nil hstarted)
  refine Keeps.inv (p := p) ⟨le_rfl, ?_, rfl, rfl, rfl⟩ h h.counts
    ⟨hle, hlt, hbatch⟩ rfl fun _ hcycle => nomatch hcycle
  intro target r howed
  have hdue : p.worker.logsDue p.control.started = p.control.started + 1 ∧
      p.worker.spansDue p.control.started = p.control.started + 1 := by
    rcases hworker with hworker | ⟨sd, hworker⟩
    · rw [hworker]
      exact ⟨rfl, rfl⟩
    · rw [hworker]
      exact ⟨rfl, rfl⟩
  cases howed with
  | discarded h => exact .discarded h
  | taken h => exact .taken h
  | batched h hle => exact .batched h hle
  | logged h hle => exact .logged h (by rwa [hdue.1] at hle)
  | spanned h hle => exact .spanned h (by rwa [hdue.2] at hle)

theorem Inv.next (h : Inv p) {e : Event} {maxBatch : ℕ} (he : p.Enabled e)
    (hcounts : p.Counts e) : Inv (p.next maxBatch e) := by
  cases e with
  | recordLog => exact h.recordLog maxBatch
  | recordSpan => exact h.recordSpan maxBatch
  | notice =>
      exact SameRecords.inv (p := p) ⟨rfl, rfl, rfl, rfl, rfl, rfl, rfl, rfl, rfl⟩ h
        h.promised h.before fun hshutdown => ⟨hshutdown, rfl⟩
  | call k =>
      refine h.setFlusher k fun r hr => ?_
      rcases List.mem_append.mp hr with hr | hr
      · exact owed_of_mem_logs hr
      · exact owed_of_mem_spans hr
  | request k => exact h.request hcounts
  | returns k => exact h.setFlusher k trivial
  | timeout k => exact h.setFlusher k trivial
  | start =>
      rw [Pipeline.next, advance, show p.worker = _ from he]
      exact h.start he
  | wake =>
      rw [Pipeline.next, advance, show p.worker = _ from he]
      exact h.wake he
  | claim =>
      obtain ⟨sd, hworker⟩ := he
      exact h.claim hworker hcounts
  | takeLogs =>
      obtain ⟨sd, hworker⟩ := he
      exact h.takeLogs hworker
  | takeSpans =>
      obtain ⟨sd, hworker⟩ := he
      exact h.takeSpans hworker
  | finish =>
      obtain ⟨sd, hworker⟩ := he
      exact h.finish hworker
  | panic => exact h.panic he
  | shutdown =>
      refine SameRecords.inv (p := p) ⟨rfl, rfl, rfl, rfl, rfl, rfl, rfl, rfl, rfl⟩ h
        h.promised ?_ ?_
      · change (if p.control.shutdown then p.before else p.pushed) ≤ p.pushed
        split
        · exact h.before
        · exact le_rfl
      · intro hshutdown
        refine ⟨rfl, ?_⟩
        change (if p.control.shutdown then p.before else p.pushed) = p.before
        rw [if_pos hshutdown]
  | join =>
      exact SameRecords.inv (p := p) ⟨rfl, rfl, rfl, rfl, rfl, rfl, rfl, rfl, rfl⟩ h
        h.promised h.before fun hshutdown => ⟨hshutdown, rfl⟩

theorem inv_new (maxBuffered : ℕ) : Inv (new maxBuffered) where
  counts := Nat.two_pow_pos 64
  paced := ⟨rfl, rfl⟩
  known _ hr := absurd hr (Nat.not_lt_zero _)
  promised _ := trivial
  before := le_rfl
  final _ hcycle := nomatch hcycle

theorem reachable_inv {maxBuffered maxBatch : ℕ}
    (hr : ((machine maxBuffered maxBatch).restrict Counts).Reachable p) : Inv p := by
  refine hr.invariant (I := Inv) ?_ ?_
  · rintro t rfl
    exact inv_new maxBuffered
  · rintro t e _ h ⟨hcounts, he, rfl⟩
    exact h.next he hcounts

/-- Whatever producers, callers of `flush` and the export thread do between one
another, while the counters have not passed their 64 bits: when a flush returns
without a timeout and without a shutdown, every record that was buffered when it was
called has been taken by a cycle that has finished, or was discarded by a full
buffer; so has, when the worker is joined and no panic has ended it, every record
pushed before the shutdown flag was set; and the cycles that have finished are those
that have started, but for one at most. -/
theorem flush_and_shutdown_drain {maxBuffered maxBatch : ℕ}
    (hr : ((machine maxBuffered maxBatch).restrict Counts).Reachable p) :
    (∀ k target held, p.flushers k = .waiting target held → p.Enabled (.returns k) →
      p.control.shutdown = false → ∀ r ∈ held, r ∈ p.taken ∨ r ∈ p.discarded) ∧
    (p.Enabled .join → p.worker ≠ .dead →
      ∀ r < p.before, r ∈ p.taken ∨ r ∈ p.discarded) ∧
    p.control.generation ≤ p.control.started ∧
    p.control.started ≤ p.control.generation + 1 := by
  have h := reachable_inv hr
  refine ⟨?_, ?_, h.paced.generation_le⟩
  · intro k target held hflusher hreturn hshutdown r hmem
    have hpromised := h.promised k
    rw [hflusher] at hpromised
    have hle : target ≤ p.control.generation := by
      change p.released (p.flushers k) = true at hreturn
      rw [hflusher, released, hshutdown, Bool.or_false, decide_eq_true_eq] at hreturn
      exact hreturn
    exact (hpromised r hmem).settled h.paced hle
  · rintro ⟨_, _, hended⟩ hdead r hr
    have hworker := hended.resolve_right hdead
    have hpaced := h.paced
    rw [Paced, hworker] at hpaced
    have hfinal : p.finalCycle = some p.control.started := by
      rw [finalCycle, hworker]
    exact ((h.final _ hfinal).2 r hr).settled h.paced (le_of_eq hpaced.1)

/-! ## Runs of one cycle -/

section OneCycle

/-- One cycle of the worker, from where it waits. -/
def oneCycle : List Event := [.wake, .claim, .takeLogs, .takeSpans, .finish]

def afterSteps (maxBuffered : ℕ) (es : List Event) : Pipeline :=
  es.foldl (fun p => p.next 1) (new maxBuffered)

theorem reachable_afterSteps {maxBuffered : ℕ} {es : List Event}
    (h : Machine.Legal Enabled (fun p => p.next 1) (new maxBuffered) es) :
    (machine maxBuffered 1).Reachable (afterSteps maxBuffered es) :=
  Machine.Reachable.legal (.start rfl) h

/-- A flush that finds a log record and a span, and the cycle it asks for. -/
def flushed : List Event :=
  [.recordLog, .recordSpan, .call 0, .request 0, .start] ++ oneCycle

theorem flush_and_shutdown_drain_flushed :
    (0 ∈ (afterSteps 2 flushed).taken ∨ 0 ∈ (afterSteps 2 flushed).discarded) ∧
      (1 ∈ (afterSteps 2 flushed).taken ∨ 1 ∈ (afterSteps 2 flushed).discarded) := by
  have hlegal : Machine.Legal
      (fun (p : Pipeline) (e : Event) => p.Counts e ∧ p.Enabled e)
      (fun p => p.next 1) (new 2) flushed :=
    ⟨⟨trivial, trivial⟩, ⟨trivial, trivial⟩, ⟨trivial, rfl⟩,
      ⟨(by decide : 0 + 1 < 2 ^ 64), _, rfl⟩, ⟨trivial, rfl⟩, ⟨trivial, rfl⟩,
      ⟨(by decide : 0 + 1 < 2 ^ 64), _, rfl⟩, ⟨trivial, _, rfl⟩, ⟨trivial, _, rfl⟩,
      ⟨trivial, _, rfl⟩, trivial⟩
  have hrun := Machine.Run.legal_restrict (.start rfl :
    ((machine 2 1).restrict Counts).Run [] (new 2)) hlegal
  have hdrained := (flush_and_shutdown_drain ⟨_, hrun⟩).1 0 1 [0, 1] rfl rfl rfl
  exact ⟨hdrained 0 List.mem_cons_self,
    hdrained 1 (List.mem_cons_of_mem _ List.mem_cons_self)⟩

/-- A second record takes the place of the first between the flush and its cycle. -/
def overflowing : List Event :=
  [.recordLog, .call 0, .request 0, .recordLog, .start] ++ oneCycle

/-- The export panics, and a record is pushed before the shutdown. -/
def panicking : List Event :=
  [.start, .wake, .claim, .takeLogs, .takeSpans, .panic, .recordLog, .shutdown]

/-- The worker waits after as many cycles as both counters say. -/
def idleAfter (n : ℕ) : Pipeline :=
  { (new 1).goto .waiting with control := ⟨false, false, false, n, n⟩ }

theorem oneCycle_idleAfter {n : ℕ} (hn : n + 1 < 2 ^ 64) :
    oneCycle.foldl (fun p => p.next 1) (idleAfter n) = idleAfter (n + 1) := by
  have hcycle : oneCycle.foldl (fun p => p.next 1) (idleAfter n) =
      { idleAfter n with control := ⟨false, false, false, tick n, tick n⟩ } := rfl
  rw [hcycle, tick_of_lt hn]
  rfl

theorem reachable_idleAfter {n : ℕ} (hn : n < 2 ^ 64) :
    (machine 1 1).Reachable (idleAfter n) := by
  induction n with
  | zero =>
      have hlegal : Machine.Legal Enabled (fun p : Pipeline => p.next 1) (new 1)
          [.start] := ⟨rfl, trivial⟩
      exact reachable_afterSteps hlegal
  | succ n ih =>
      have hr := ih (Nat.lt_of_succ_lt hn)
      have hlegal : Machine.Legal Enabled (fun p : Pipeline => p.next 1) (idleAfter n)
          oneCycle := ⟨rfl, ⟨_, rfl⟩, ⟨_, rfl⟩, ⟨_, rfl⟩, ⟨_, rfl⟩, trivial⟩
      have hnext := Machine.Reachable.legal hr hlegal
      rwa [oneCycle_idleAfter hn] at hnext

/-- A full buffer discards what a flush waits for, a panic leaves behind what is
pushed after it, and after enough cycles the counter of those that have started
passes its 64 bits before the other does. -/
theorem not_flush_and_shutdown_drain :
    (¬ ∀ p, (machine 1 1).Reachable p → ∀ k target held,
      p.flushers k = .waiting target held → p.Enabled (.returns k) →
      p.control.shutdown = false → ∀ r ∈ held, r ∈ p.taken) ∧
    (¬ ∀ p, (machine 1 1).Reachable p → p.Enabled .join →
      ∀ r < p.before, r ∈ p.taken ∨ r ∈ p.discarded) ∧
    ¬ ∀ p, (machine 1 1).Reachable p →
      p.control.generation ≤ p.control.started := by
  refine ⟨fun h => ?_, fun h => ?_, fun h => ?_⟩
  · have hr : (machine 1 1).Reachable (afterSteps 1 overflowing) :=
      reachable_afterSteps ⟨trivial, rfl, ⟨_, rfl⟩, trivial, rfl, rfl, ⟨_, rfl⟩,
        ⟨_, rfl⟩, ⟨_, rfl⟩, ⟨_, rfl⟩, trivial⟩
    exact absurd (h _ hr 0 1 [0] rfl rfl rfl 0 List.mem_cons_self) (by decide)
  · have hr : (machine 1 1).Reachable (afterSteps 1 panicking) :=
      reachable_afterSteps ⟨rfl, rfl, ⟨_, rfl⟩, ⟨_, rfl⟩, ⟨_, rfl⟩,
        .inr ⟨_, rfl⟩, trivial, trivial, trivial⟩
    exact absurd (h _ hr ⟨rfl, rfl, .inr rfl⟩ 0 Nat.zero_lt_one) (by decide)
  · have hr := reachable_idleAfter (n := 2 ^ 64 - 1) (by decide)
    have hlegal : Machine.Legal Enabled (fun p : Pipeline => p.next 1)
        (idleAfter (2 ^ 64 - 1)) [.wake, .claim] := ⟨rfl, ⟨_, rfl⟩, trivial⟩
    exact absurd (h _ (Machine.Reachable.legal hr hlegal)) (by decide)

end OneCycle

end Pipeline

end O11y

end RustSak
