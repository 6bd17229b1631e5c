import Mathlib.Data.List.Basic

/-!
# Buffered writers

A writer that keeps what it is given until its buffer is full, over a sink that may fail
after any part of a write. Whatever fails, what the sink and the buffer hold together is
what the writer was given, up to a point; only a flush that succeeds shows that the sink
holds all of it.
-/

namespace RustSak

namespace Library

/-- A sink's answer to bytes: it has taken all of them, or failed after `taken`. -/
inductive Answer (ω : Type*) where
  | ok
  | failed (taken : ℕ) (error : ω)

structure BufWriter (β : Type*) where
  capacity : ℕ
  sink : List β
  buffer : List β

namespace BufWriter

variable {β ω : Type*}

/-- What has been given to the writer and not been lost. -/
def held (w : BufWriter β) : List β := w.sink ++ w.buffer

def spareCapacity (w : BufWriter β) : ℕ := w.capacity - w.buffer.length

def push (w : BufWriter β) (bytes : List β) : BufWriter β := { w with buffer := w.buffer ++ bytes }

/-- `flush_buf`. What the sink has not taken stays in the buffer. -/
def flushBuf (w : BufWriter β) : Answer ω → BufWriter β × Except ω Unit
  | .ok => (⟨w.capacity, w.sink ++ w.buffer, []⟩, .ok ())
  | .failed taken error =>
      (⟨w.capacity, w.sink ++ w.buffer.take taken, w.buffer.drop taken⟩, .error error)

/-- Past the buffer. -/
def writeSink (w : BufWriter β) (bytes : List β) : Answer ω → BufWriter β × Except ω Unit
  | .ok => ({ w with sink := w.sink ++ bytes }, .ok ())
  | .failed taken error => ({ w with sink := w.sink ++ bytes.take taken }, .error error)

/-- `write_all`. The sink answers to the buffer with `flushed` and to `bytes` with
`written`, where it is asked. -/
def writeAll (w : BufWriter β) (bytes : List β) (flushed written : Answer ω) :
    BufWriter β × Except ω Unit :=
  if bytes.length < w.spareCapacity then (w.push bytes, .ok ())
  else
    let r := if w.spareCapacity < bytes.length then w.flushBuf flushed else (w, .ok ())
    match r.2 with
    | .error error => (r.1, .error error)
    | .ok () =>
        if w.capacity ≤ bytes.length then r.1.writeSink bytes written
        else (r.1.push bytes, .ok ())

/-- `flush`. `inner` is the answer of the sink's own flush. -/
def flush (w : BufWriter β) (flushed : Answer ω) (inner : Except ω Unit) :
    BufWriter β × Except ω Unit :=
  let r := w.flushBuf flushed
  match r.2 with
  | .error error => (r.1, .error error)
  | .ok () => (r.1, inner)

@[simp] theorem held_push (w : BufWriter β) (bytes : List β) :
    (w.push bytes).held = w.held ++ bytes := by
  simp [held, push]

@[simp] theorem held_flushBuf (w : BufWriter β) (answer : Answer ω) :
    (w.flushBuf answer).1.held = w.held := by
  cases answer <;> simp [held, flushBuf]

theorem buffer_of_flushBuf {w : BufWriter β} {answer : Answer ω}
    (h : (w.flushBuf answer).2 = .ok ()) : (w.flushBuf answer).1.buffer = [] := by
  cases answer with
  | ok => rfl
  | failed => cases h

theorem capacity_flushBuf (w : BufWriter β) (answer : Answer ω) :
    (w.flushBuf answer).1.capacity = w.capacity := by
  cases answer <;> rfl

theorem held_writeSink {w : BufWriter β} {bytes : List β} {answer : Answer ω}
    (hbuffer : w.buffer = []) (h : (w.writeSink bytes answer).2 = .ok ()) :
    (w.writeSink bytes answer).1.held = w.held ++ bytes := by
  cases answer with
  | ok => simp [held, writeSink, hbuffer]
  | failed => cases h

/-- The buffer does not outgrow its capacity. -/
def Fits (w : BufWriter β) : Prop := w.buffer.length ≤ w.capacity

theorem Fits.push {w : BufWriter β} (hw : w.Fits) {bytes : List β}
    (h : bytes.length ≤ w.spareCapacity) : (w.push bytes).Fits := by
  unfold Fits at hw ⊢
  unfold spareCapacity at h
  simp only [BufWriter.push, List.length_append]
  omega

theorem Fits.flushBuf {w : BufWriter β} (hw : w.Fits) (answer : Answer ω) :
    (w.flushBuf answer).1.Fits := by
  cases answer with
  | ok => exact Nat.zero_le _
  | failed taken error =>
      have hdrop : (w.buffer.drop taken).length ≤ w.buffer.length := by simp
      exact Nat.le_trans hdrop hw

theorem Fits.writeSink {w : BufWriter β} (hw : w.Fits) (bytes : List β) (answer : Answer ω) :
    (w.writeSink bytes answer).1.Fits := by
  cases answer <;> exact hw

/-- What a write comes to, by whether the bytes fit in what is free. -/
theorem writeAll_cases (w : BufWriter β) (bytes : List β) (flushed written : Answer ω) :
    (bytes.length ≤ w.spareCapacity ∧ w.writeAll bytes flushed written = (w.push bytes, .ok ())) ∨
    (w.capacity ≤ bytes.length ∧ bytes.length ≤ w.spareCapacity ∧
      w.writeAll bytes flushed written = w.writeSink bytes written) ∨
    (∃ error, (w.flushBuf flushed).2 = .error error ∧
      w.writeAll bytes flushed written = ((w.flushBuf flushed).1, .error error)) ∨
    ((w.flushBuf flushed).2 = .ok () ∧
      (w.writeAll bytes flushed written = (w.flushBuf flushed).1.writeSink bytes written ∨
        bytes.length < w.capacity ∧
          w.writeAll bytes flushed written = ((w.flushBuf flushed).1.push bytes, .ok ()))) := by
  unfold writeAll
  by_cases hspare : bytes.length < w.spareCapacity
  · exact .inl ⟨Nat.le_of_lt hspare, by simp [hspare]⟩
  by_cases hmore : w.spareCapacity < bytes.length
  · cases hflushed : (w.flushBuf flushed).2 with
    | error error => exact .inr (.inr (.inl ⟨error, rfl, by simp [hspare, hmore, hflushed]⟩))
    | ok =>
        by_cases hlarge : w.capacity ≤ bytes.length
        · exact .inr (.inr (.inr ⟨rfl, .inl (by simp [hspare, hmore, hflushed, hlarge])⟩))
        · exact .inr (.inr (.inr ⟨rfl, .inr ⟨Nat.lt_of_not_le hlarge,
            by simp [hspare, hmore, hflushed, hlarge]⟩⟩))
  · have hfits : bytes.length ≤ w.spareCapacity := Nat.le_of_not_lt hmore
    by_cases hlarge : w.capacity ≤ bytes.length
    · exact .inr (.inl ⟨hlarge, hfits, by simp [hspare, hmore, hlarge]⟩)
    · exact .inl ⟨hfits, by simp [hspare, hmore, hlarge]⟩

theorem Fits.writeAll {w : BufWriter β} (hw : w.Fits) (bytes : List β)
    (flushed written : Answer ω) : (w.writeAll bytes flushed written).1.Fits := by
  rcases writeAll_cases w bytes flushed written with
    ⟨hfits, heq⟩ | ⟨-, -, heq⟩ | ⟨error, -, heq⟩ | ⟨hflushed, heq | ⟨hsmall, heq⟩⟩
  · rw [heq]
    exact hw.push hfits
  · rw [heq]
    exact hw.writeSink bytes written
  · rw [heq]
    exact hw.flushBuf flushed
  · rw [heq]
    exact (hw.flushBuf flushed).writeSink bytes written
  · rw [heq]
    refine (hw.flushBuf flushed).push ?_
    rw [spareCapacity, buffer_of_flushBuf hflushed, capacity_flushBuf]
    exact Nat.le_of_lt hsmall

/-- What is past the writer without an error is held behind what was held. -/
theorem held_writeAll {w : BufWriter β} (hw : w.Fits) {bytes : List β}
    {flushed written : Answer ω} (h : (w.writeAll bytes flushed written).2 = .ok ()) :
    (w.writeAll bytes flushed written).1.held = w.held ++ bytes := by
  rcases writeAll_cases w bytes flushed written with
    ⟨-, heq⟩ | ⟨hlarge, hfits, heq⟩ | ⟨error, -, heq⟩ | ⟨hflushed, heq | ⟨-, heq⟩⟩
  · rw [heq, held_push]
  · rw [heq] at h ⊢
    -- The whole buffer is free, or it has no room at all.
    have hbuffer : w.buffer = [] := by
      unfold Fits at hw
      unfold spareCapacity at hfits
      exact List.eq_nil_of_length_eq_zero (by omega)
    exact held_writeSink hbuffer h
  · rw [heq] at h
    cases h
  · rw [heq] at h ⊢
    rw [held_writeSink (buffer_of_flushBuf hflushed) h, held_flushBuf]
  · rw [heq, held_push, held_flushBuf]

end BufWriter

end Library

end RustSak
