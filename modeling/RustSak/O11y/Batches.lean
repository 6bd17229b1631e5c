import RustSak.O11y.Pipeline

/-!
# When a full batch wakes the worker

A push raises the signal when the buffer has just reached the batch size, not when it
is beyond it. A buffer that holds as many records as a batch passes through that
length before it discards any; a smaller one never comes there.
-/

namespace RustSak

namespace O11y

open Library

/-- A cycle is under way, from the moment the worker is woken. -/
def Worker.InCycle : Worker → Prop
  | .woken _ | .takingLogs _ | .takingSpans _ | .exporting _ => True
  | _ => False

/-- What ends the wait before the timer does; a failed export has the next one back
off. -/
def Control.cutsShort (control : Control) (backingOff : Bool) : Bool :=
  control.shutdown || control.flushRequested || (control.batchReady && !backingOff)

namespace Pipeline

/-- The logs pushed since they were last taken. -/
def logsSince : List Event → ℕ
  | [] => 0
  | .recordLog :: es => logsSince es + 1
  | .takeLogs :: _ => 0
  | _ :: es => logsSince es

/-- The spans pushed since they were last taken. -/
def spansSince : List Event → ℕ
  | [] => 0
  | .recordSpan :: es => spansSince es + 1
  | .takeSpans :: _ => 0
  | _ :: es => spansSince es

/-- With a full batch pushed, and every push through, the signal is up or a cycle is
under way. -/
def Woken (maxBatch : ℕ) (es : List Event) (p : Pipeline) : Prop :=
  p.notices = 0 → maxBatch ≤ logsSince es ∨ maxBatch ≤ spansSince es →
    p.control.batchReady = true ∨ p.worker.InCycle

/-- The worker does not wait for its timer then. -/
theorem Woken.cutsShort {maxBatch : ℕ} {es : List Event} {p : Pipeline}
    (h : Woken maxBatch es p) (hnotices : p.notices = 0)
    (hfull : maxBatch ≤ logsSince es ∨ maxBatch ≤ spansSince es)
    (hwaiting : p.worker = .waiting) : p.control.cutsShort false = true := by
  rcases h hnotices hfull with hready | hcycle
  · simp [Control.cutsShort, hready]
  · rw [hwaiting] at hcycle
    exact hcycle.elim

/-- The signal is up, or a push is about to raise it. -/
def Signalled (p : Pipeline) : Prop := p.control.batchReady = true ∨ 0 < p.notices

/-- Short of a batch a buffer holds all that was pushed; with one, somebody knows. -/
def Counted (maxBatch since : ℕ) (buffer : Buffer ℕ) (known : Prop) : Prop :=
  (since < maxBatch → buffer.queue.length = since) ∧ (maxBatch ≤ since → known)

/-- What is known of both buffers; a cycle that has not come to a buffer yet takes
what is in it. -/
structure Batched (maxBuffered maxBatch : ℕ) (es : List Event) (p : Pipeline) : Prop where
  logs_capacity : p.logs.capacity = max maxBuffered 1
  spans_capacity : p.spans.capacity = max maxBuffered 1
  logs : Counted maxBatch (logsSince es) p.logs
    (p.Signalled ∨ ∃ sd, p.worker = .takingLogs sd)
  spans : Counted maxBatch (spansSince es) p.spans
    (p.Signalled ∨ (∃ sd, p.worker = .takingLogs sd) ∨ ∃ sd, p.worker = .takingSpans sd)

section Steps

variable {maxBuffered maxBatch since : ℕ} {buffer : Buffer ℕ} {known known' : Prop}
  {es : List Event} {p : Pipeline}

theorem Counted.mono (h : Counted maxBatch since buffer known) (hknown : known → known') :
    Counted maxBatch since buffer known' := ⟨h.1, fun hle => hknown (h.2 hle)⟩

theorem Counted.emptied (hbatch : 1 ≤ maxBatch) (buffer : Buffer ℕ) (known : Prop) :
    Counted maxBatch 0 buffer.emptied known :=
  ⟨fun _ => rfl, fun hle => absurd hle (Nat.not_le_of_lt hbatch)⟩

/-- The push that fills a batch finds room, and is the one that sees its size. -/
theorem Counted.push (h : Counted maxBatch since buffer known)
    (hfits : maxBatch ≤ buffer.capacity) (item : ℕ) :
    Counted maxBatch (since + 1) (buffer.push item)
      (known ∨ (buffer.push item).queue.length = maxBatch) := by
  have hroom : since < maxBatch → (buffer.push item).queue.length = since + 1 := by
    intro hlt
    have hlength := h.1 hlt
    have hfull : buffer.isFull = false := by
      rw [Buffer.isFull, decide_eq_false_iff_not]
      omega
    rw [Buffer.push, List.length_append, Buffer.kept, hfull, if_neg Bool.false_ne_true,
      hlength, List.length_singleton]
  refine ⟨fun hlt => hroom (Nat.lt_of_succ_lt hlt), fun hle => ?_⟩
  rcases Nat.lt_or_eq_of_le hle with hlt | heq
  · exact .inl (h.2 (Nat.le_of_lt_succ hlt))
  · refine .inr ?_
    rw [hroom (by omega), heq]

theorem noticing_logs (p : Pipeline) (maxBatch queued : ℕ) :
    (p.noticing maxBatch queued).logs = p.logs := by
  unfold noticing
  split <;> rfl

theorem noticing_spans (p : Pipeline) (maxBatch queued : ℕ) :
    (p.noticing maxBatch queued).spans = p.spans := by
  unfold noticing
  split <;> rfl

theorem noticing_worker (p : Pipeline) (maxBatch queued : ℕ) :
    (p.noticing maxBatch queued).worker = p.worker := by
  unfold noticing
  split <;> rfl

theorem Signalled.noticing {maxBatch queued : ℕ} (h : p.Signalled ∨ queued = maxBatch) :
    (p.noticing maxBatch queued).Signalled := by
  unfold Pipeline.noticing
  split
  · exact .inr (Nat.succ_pos _)
  · rename_i hne
    exact h.resolve_right hne

/-- A step that leaves the buffers and the signal. -/
theorem Batched.frame {e : Event} {q : Pipeline} (h : Batched maxBuffered maxBatch es p)
    (hlogs : q.logs = p.logs) (hspans : q.spans = p.spans)
    (hlogsSince : logsSince (e :: es) = logsSince es)
    (hspansSince : spansSince (e :: es) = spansSince es)
    (hknown : p.Signalled → q.Signalled)
    (hworker : ∀ sd, p.worker = .takingLogs sd ∨ p.worker = .takingSpans sd →
      q.worker = p.worker) : Batched maxBuffered maxBatch (e :: es) q := by
  refine ⟨hlogs ▸ h.logs_capacity, hspans ▸ h.spans_capacity, ?_, ?_⟩
  · rw [hlogs, hlogsSince]
    refine h.logs.mono (Or.imp hknown fun ⟨sd, hsd⟩ => ⟨sd, ?_⟩)
    rw [hworker sd (.inl hsd), hsd]
  · rw [hspans, hspansSince]
    refine h.spans.mono (Or.imp hknown (Or.imp (fun ⟨sd, hsd⟩ => ⟨sd, ?_⟩)
      fun ⟨sd, hsd⟩ => ⟨sd, ?_⟩))
    · rw [hworker sd (.inl hsd), hsd]
    · rw [hworker sd (.inr hsd), hsd]

theorem Batched.recordLog (h : Batched maxBuffered maxBatch es p)
    (hfits : maxBatch ≤ max maxBuffered 1) :
    Batched maxBuffered maxBatch (.recordLog :: es) (p.next maxBatch .recordLog) := by
  rw [next]
  refine ⟨?_, ?_, ?_, ?_⟩
  · rw [noticing_logs]
    exact h.logs_capacity
  · rw [noticing_spans]
    exact h.spans_capacity
  · rw [noticing_logs, noticing_worker]
    refine (h.logs.push (h.logs_capacity ▸ hfits) p.pushed).mono ?_
    rintro ((hsignalled | hworker) | hfull)
    · exact .inl (.noticing (.inl hsignalled))
    · exact .inr hworker
    · exact .inl (.noticing (.inr hfull))
  · rw [noticing_spans, noticing_worker]
    exact h.spans.mono (Or.imp_left fun hsignalled => .noticing (.inl hsignalled))

theorem Batched.recordSpan (h : Batched maxBuffered maxBatch es p)
    (hfits : maxBatch ≤ max maxBuffered 1) :
    Batched maxBuffered maxBatch (.recordSpan :: es) (p.next maxBatch .recordSpan) := by
  rw [next]
  refine ⟨?_, ?_, ?_, ?_⟩
  · rw [noticing_logs]
    exact h.logs_capacity
  · rw [noticing_spans]
    exact h.spans_capacity
  · rw [noticing_logs, noticing_worker]
    exact h.logs.mono (Or.imp_left fun hsignalled => .noticing (.inl hsignalled))
  · rw [noticing_spans, noticing_worker]
    refine (h.spans.push (h.spans_capacity ▸ hfits) p.pushed).mono ?_
    rintro ((hsignalled | hworker) | hfull)
    · exact .inl (.noticing (.inl hsignalled))
    · exact .inr hworker
    · exact .inl (.noticing (.inr hfull))

theorem Batched.next (h : Batched maxBuffered maxBatch es p) (hbatch : 1 ≤ maxBatch)
    (hfits : maxBatch ≤ max maxBuffered 1) {e : Event} (he : Enabled p e) :
    Batched maxBuffered maxBatch (e :: es) (p.next maxBatch e) := by
  cases e with
  | recordLog => exact h.recordLog hfits
  | recordSpan => exact h.recordSpan hfits
  | notice => exact h.frame rfl rfl rfl rfl (fun _ => .inl rfl) fun _ _ => rfl
  | call k => exact h.frame rfl rfl rfl rfl id fun _ _ => rfl
  | request k =>
      obtain ⟨held, hcalled⟩ := he
      rw [Pipeline.next, request, hcalled]
      dsimp only
      split
      · exact h.frame rfl rfl rfl rfl id fun _ _ => rfl
      · exact h.frame rfl rfl rfl rfl id fun _ _ => rfl
  | returns k => exact h.frame rfl rfl rfl rfl id fun _ _ => rfl
  | timeout k => exact h.frame rfl rfl rfl rfl id fun _ _ => rfl
  | start =>
      have hworker : p.worker = .starting := he
      rw [Pipeline.next, advance, hworker]
      refine h.frame rfl rfl rfl rfl id fun sd hsd => ?_
      simp [hworker] at hsd
  | wake =>
      have hworker : p.worker = .waiting := he
      rw [Pipeline.next, advance, hworker]
      refine h.frame rfl rfl rfl rfl id fun sd hsd => ?_
      simp [hworker] at hsd
  | claim =>
      -- the signal goes down, and the cycle has yet to take both buffers
      obtain ⟨sd, hworker⟩ := he
      rw [Pipeline.next, advance, hworker]
      exact ⟨h.logs_capacity, h.spans_capacity,
        h.logs.mono fun _ => .inr ⟨sd, rfl⟩, h.spans.mono fun _ => .inr (.inl ⟨sd, rfl⟩)⟩
  | takeLogs =>
      obtain ⟨sd, hworker⟩ := he
      rw [Pipeline.next, advance, hworker]
      exact ⟨h.logs_capacity, h.spans_capacity, .emptied hbatch _ _,
        h.spans.mono fun _ => .inr (.inr ⟨sd, rfl⟩)⟩
  | takeSpans =>
      obtain ⟨sd, hworker⟩ := he
      rw [Pipeline.next, advance, hworker]
      refine ⟨h.logs_capacity, h.spans_capacity, h.logs.mono ?_, .emptied hbatch _ _⟩
      rintro (hsignalled | ⟨sd', hlogs⟩)
      · exact .inl hsignalled
      · rw [hworker] at hlogs
        cases hlogs
  | finish =>
      obtain ⟨sd, hworker⟩ := he
      rw [Pipeline.next, advance, hworker]
      refine h.frame rfl rfl rfl rfl id fun sd' hsd => ?_
      simp [hworker] at hsd
  | panic =>
      refine h.frame rfl rfl rfl rfl id fun sd hsd => ?_
      rcases he with hworker | ⟨sd', hworker⟩
      · simp [hworker] at hsd
      · simp [hworker] at hsd
  | shutdown => exact h.frame rfl rfl rfl rfl id fun _ _ => rfl
  | join => exact h.frame rfl rfl rfl rfl id fun _ _ => rfl

theorem Batched.woken (h : Batched maxBuffered maxBatch es p) : Woken maxBatch es p := by
  intro hnotices hfull
  have hsignalled : p.Signalled → p.control.batchReady = true := fun hs =>
    hs.resolve_right (by omega)
  have hcycle : ∀ sd, p.worker = .takingLogs sd ∨ p.worker = .takingSpans sd →
      p.worker.InCycle := by
    rintro sd (hworker | hworker)
    · rw [hworker]
      trivial
    · rw [hworker]
      trivial
  rcases hfull with hfull | hfull
  · rcases h.logs.2 hfull with hs | ⟨sd, hsd⟩
    · exact .inl (hsignalled hs)
    · exact .inr (hcycle sd (.inl hsd))
  · rcases h.spans.2 hfull with hs | ⟨sd, hsd⟩ | ⟨sd, hsd⟩
    · exact .inl (hsignalled hs)
    · exact .inr (hcycle sd (.inl hsd))
    · exact .inr (hcycle sd (.inr hsd))

end Steps

section Runs

variable {maxBuffered maxBatch : ℕ}

theorem batched_run (hbatch : 1 ≤ maxBatch) (hfits : maxBatch ≤ max maxBuffered 1)
    {es : List Event} {p : Pipeline} (hr : (machine maxBuffered maxBatch).Run es p) :
    Batched maxBuffered maxBatch es p := by
  refine hr.invariant (I := Batched maxBuffered maxBatch) ?_ ?_
  · rintro _ rfl
    have hempty : ∀ known : Prop, Counted maxBatch 0 (.new maxBuffered) known :=
      .emptied hbatch (.new maxBuffered)
    exact ⟨rfl, rfl, hempty _, hempty _⟩
  · rintro es e p _ - h ⟨he, rfl⟩
    exact h.next hbatch hfits he

/-- A length no buffer comes to is never noticed, however many logs are pushed. -/
theorem unnoticed (hnot : ¬(1 ≤ maxBatch ∧ maxBatch ≤ max maxBuffered 1)) (n : ℕ) :
    ∃ p, (machine maxBuffered maxBatch).Run (.replicate n .recordLog ++ [.start]) p ∧
      p.worker = .waiting ∧ p.notices = 0 ∧ p.control.batchReady = false ∧
      p.logs.capacity = max maxBuffered 1 := by
  induction n with
  | zero =>
      have hstart : (machine maxBuffered maxBatch).Run [] (new maxBuffered) := .start rfl
      exact ⟨_, hstart.next (e := Event.start) ⟨rfl, rfl⟩, rfl, rfl, rfl, rfl⟩
  | succ n ih =>
      obtain ⟨p, hr, hworker, hnotices, hready, hcapacity⟩ := ih
      have hlength : (p.logs.push p.pushed).queue.length ≠ maxBatch := by
        have hpositive : 0 < (p.logs.push p.pushed).queue.length :=
          List.length_pos_of_mem (p.logs.mem_push_self p.pushed)
        have hbounded : (p.logs.push p.pushed).queue.length ≤ p.logs.capacity :=
          (p.logs.push p.pushed).bounded
        rintro rfl
        exact hnot ⟨hpositive, hcapacity ▸ hbounded⟩
      have hquiet : p.next maxBatch .recordLog =
          { p with
            logs := p.logs.push p.pushed
            pushed := p.pushed + 1
            discarded := p.discarded ++ p.logs.displaced } := if_neg hlength
      exact ⟨_, hr.next (e := Event.recordLog) ⟨trivial, hquiet.symm⟩, hworker, hnotices,
        hready, hcapacity⟩

theorem logsSince_replicate (n : ℕ) :
    logsSince (.replicate n .recordLog ++ [.start]) = n := by
  induction n with
  | zero => rfl
  | succ n ih => exact congrArg (· + 1) ih

theorem not_woken (hnot : ¬(1 ≤ maxBatch ∧ maxBatch ≤ max maxBuffered 1)) :
    ¬∀ es p, (machine maxBuffered maxBatch).Run es p → Woken maxBatch es p := by
  intro hwoken
  obtain ⟨p, hr, hworker, hnotices, hready, -⟩ := unnoticed hnot maxBatch
  have hfull := logsSince_replicate maxBatch
  rcases hwoken _ p hr hnotices (.inl hfull.ge) with hup | hcycle
  · rw [hready] at hup
    cases hup
  · rw [hworker] at hcycle
    exact hcycle

/-- A full batch always wakes the worker if and only if a batch is at least one record
and at most what a buffer holds. -/
theorem batch_wakes_iff (maxBuffered maxBatch : ℕ) :
    (∀ es p, (machine maxBuffered maxBatch).Run es p → Woken maxBatch es p) ↔
      1 ≤ maxBatch ∧ maxBatch ≤ max maxBuffered 1 := by
  constructor
  · intro hwoken
    by_contra hnot
    exact not_woken hnot hwoken
  · rintro ⟨hbatch, hfits⟩ es p hr
    exact (batched_run hbatch hfits hr).woken

/-- Batches of three are not told of by buffers of two. -/
theorem large_batch_unnoticed :
    ¬∀ es p, (machine 2 3).Run es p → Woken 3 es p := not_woken (by decide)

end Runs

end Pipeline

end O11y

end RustSak
