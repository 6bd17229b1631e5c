import RustSak.O11y.Pipeline
import Mathlib.Data.List.DropRight

/-!
# What the takes of a buffer return

A take returns the newest of what was pushed since the take before it, as many as the
buffer holds, and reports how many were more. `Since` is what the queue and the count
are between two takes; every call keeps it, and a run of calls is then read off the
records pushed between its takes. The count has 64 bits.
-/

namespace RustSak

namespace O11y

namespace Buffer

variable {α : Type}

inductive Call (α : Type) where
  | push (item : α)
  | take
  deriving DecidableEq

/-- What `take` returns: the queue, and the count in its 64 bits. -/
def reply (buffer : Buffer α) : List α × ℕ := (buffer.queue, buffer.dropped % 2 ^ 64)

/-- What the takes of a run return, one after another. -/
def replies : Buffer α → List (Call α) → List (List α × ℕ)
  | _, [] => []
  | buffer, .push item :: calls => replies (buffer.push item) calls
  | buffer, .take :: calls => buffer.reply :: replies buffer.emptied calls

/-- What the calls push. -/
def items : List (Call α) → List α
  | [] => []
  | .push item :: calls => item :: items calls
  | .take :: calls => items calls

/-- What was pushed before each take and after the one before it, where `pushed` was
pushed before the calls. -/
def intervals : List α → List (Call α) → List (List α)
  | _, [] => []
  | pushed, .push item :: calls => intervals (pushed ++ [item]) calls
  | pushed, .take :: calls => pushed :: intervals [] calls

/-- What was pushed after the last take. -/
def untaken : List α → List (Call α) → List α
  | pushed, [] => pushed
  | pushed, .push item :: calls => untaken (pushed ++ [item]) calls
  | _, .take :: calls => untaken [] calls

/-- What a take owes for the records pushed since the one before it. -/
def owed (capacity : ℕ) (pushed : List α) : List α × ℕ :=
  (pushed.rtake capacity, (pushed.length - min pushed.length capacity) % 2 ^ 64)

/-- The buffer since its last take. -/
structure Since (capacity : ℕ) (pushed : List α) (buffer : Buffer α) : Prop where
  capacity_eq : buffer.capacity = capacity
  queue : buffer.queue = pushed.rtake capacity
  dropped : buffer.dropped = pushed.length - capacity

variable {capacity : ℕ} {pushed : List α} {buffer : Buffer α} {calls : List (Call α)}

theorem queue_push (buffer : Buffer α) (item : α) :
    (buffer.push item).queue = buffer.kept ++ [item] := rfl

theorem dropped_push (buffer : Buffer α) (item : α) :
    (buffer.push item).dropped = buffer.dropped + buffer.displaced.length := rfl

theorem since_new (capacity : ℕ) :
    Since (max capacity 1) [] (Buffer.new capacity : Buffer α) where
  capacity_eq := rfl
  queue := (List.rtake_nil _).symm
  dropped := (Nat.zero_sub _).symm

theorem Since.emptied (h : Since capacity pushed buffer) :
    Since capacity [] buffer.emptied where
  capacity_eq := h.capacity_eq
  queue := (List.rtake_nil _).symm
  dropped := (Nat.zero_sub _).symm

theorem Since.length_queue (h : Since capacity pushed buffer) :
    buffer.queue.length = min pushed.length capacity := by
  rw [h.queue, List.rtake, List.length_drop]
  omega

/-- One more record: it is kept, and one makes room for it in a full buffer. -/
theorem Since.push (h : Since capacity pushed buffer) (item : α) :
    Since capacity (pushed ++ [item]) (buffer.push item) := by
  have hpositive := buffer.positive
  have hlength := h.length_queue
  rw [h.capacity_eq] at hpositive
  by_cases hfull : capacity ≤ pushed.length
  · have hisFull : buffer.isFull = true := by
      rw [isFull, h.capacity_eq, hlength, decide_eq_true_eq]
      omega
    refine ⟨h.capacity_eq, ?_, ?_⟩
    · have hdrop : (pushed ++ [item]).length - capacity = pushed.length - capacity + 1 := by
        rw [List.length_append, List.length_singleton]
        omega
      have hle : pushed.length - capacity + 1 ≤ pushed.length := by omega
      rw [queue_push, kept, if_pos hisFull, h.queue, List.rtake, List.rtake, hdrop,
        List.tail_drop, List.drop_append_of_le_length hle]
    · have hone : buffer.displaced.length = 1 := by
        rw [displaced, if_pos hisFull, List.length_take, hlength]
        omega
      rw [dropped_push, hone, h.dropped, List.length_append, List.length_singleton]
      omega
  · have hisFull : ¬buffer.isFull = true := by
      rw [isFull, h.capacity_eq, hlength, decide_eq_true_eq]
      omega
    refine ⟨h.capacity_eq, ?_, ?_⟩
    · have hall : (pushed ++ [item]).length - capacity = 0 := by
        rw [List.length_append, List.length_singleton]
        omega
      have hbefore : pushed.length - capacity = 0 := by omega
      rw [queue_push, kept, if_neg hisFull, h.queue, List.rtake, List.rtake, hall, hbefore,
        List.drop_zero, List.drop_zero]
    · have hnone : buffer.displaced.length = 0 := by
        rw [displaced, if_neg hisFull, List.length_nil]
      rw [dropped_push, hnone, h.dropped, List.length_append, List.length_singleton]
      omega

theorem Since.reply (h : Since capacity pushed buffer) :
    buffer.reply = owed capacity pushed := by
  have hcount : pushed.length - capacity = pushed.length - min pushed.length capacity := by
    omega
  rw [Buffer.reply, owed, h.queue, h.dropped, hcount]

/-- A run of calls returns what its takes owe. -/
theorem Since.replies (h : Since capacity pushed buffer) (calls : List (Call α)) :
    buffer.replies calls = (intervals pushed calls).map (owed capacity) := by
  induction calls generalizing pushed buffer with
  | nil => rfl
  | cons call calls ih =>
      cases call with
      | push item => exact ih (h.push item)
      | take =>
          rw [Buffer.replies, intervals, List.map_cons, h.reply, ih h.emptied]

/-- The takes divide what is pushed. -/
theorem flatten_intervals (pushed : List α) (calls : List (Call α)) :
    (intervals pushed calls).flatten ++ untaken pushed calls = pushed ++ items calls := by
  induction calls generalizing pushed with
  | nil => simp [intervals, untaken, items]
  | cons call calls ih =>
      cases call with
      | push item => rw [intervals, untaken, items, ih, List.append_assoc, List.singleton_append]
      | take =>
          rw [intervals, untaken, items, List.flatten_cons, List.append_assoc, ih,
            List.nil_append]

theorem length_owed (hfits : pushed.length - capacity < 2 ^ 64) :
    (owed capacity pushed).1.length + (owed capacity pushed).2 = pushed.length := by
  rw [owed, Nat.mod_eq_of_lt (by omega), List.rtake, List.length_drop]
  omega

/-- Returned and reported together are what the takes' records were. -/
theorem sum_owed {batches : List (List α)}
    (hfits : ∀ pushed ∈ batches, pushed.length - capacity < 2 ^ 64) :
    ((batches.map (owed capacity)).map fun r => r.1.length + r.2).sum =
      batches.flatten.length := by
  induction batches with
  | nil => rfl
  | cons pushed batches ih =>
      rw [List.map_cons, List.map_cons, List.sum_cons, List.flatten_cons, List.length_append,
        length_owed (hfits pushed List.mem_cons_self),
        ih fun p hp => hfits p (List.mem_cons_of_mem _ hp)]

/-- Each take returns the newest records pushed since the one before it, as many as the
buffer holds, and reports the rest; nothing is lost over a run. -/
theorem takes_conserve (capacity : ℕ) (calls : List (Call α)) :
    (Buffer.new capacity).replies calls =
      (intervals [] calls).map (owed (max capacity 1)) ∧
    ((∀ pushed ∈ intervals [] calls, pushed.length - max capacity 1 < 2 ^ 64) →
      (((Buffer.new capacity).replies calls).map fun r => r.1.length + r.2).sum +
        (untaken [] calls).length = (items calls).length) := by
  have hreplies := (since_new capacity).replies calls
  refine ⟨hreplies, ?_⟩
  intro hfits
  have hsplit := congrArg List.length (flatten_intervals [] calls)
  rw [List.length_append, List.nil_append] at hsplit
  rw [hreplies, sum_owed hfits, hsplit]

theorem takes_conserve_two :
    (Buffer.new 2).replies [.push 1, .push 2, .push 3, .take, .push 4, .take] =
      [([2, 3], 1), ([4], 0)] ∧
    (((Buffer.new 2).replies [.push 1, .push 2, .push 3, .take, .push 4, .take]).map
      fun r => r.1.length + r.2).sum + 0 = 4 :=
  have h := takes_conserve 2 [.push 1, .push 2, .push 3, .take, .push 4, .take]
  ⟨h.1, h.2 (by decide)⟩

theorem intervals_replicate (pushed : List α) (item : α) (n : ℕ) :
    intervals pushed (List.replicate n (.push item) ++ [.take]) =
      [pushed ++ List.replicate n item] := by
  induction n generalizing pushed with
  | zero => simp [intervals]
  | succ n ih =>
      rw [List.replicate_succ, List.cons_append, intervals, ih, List.replicate_succ]
      simp

/-- A count of more than 64 bits is not reported. -/
theorem count_ne (item : α) {n : ℕ} (h : 2 ^ 64 < n) :
    (Buffer.new 1).replies (List.replicate n (.push item) ++ [.take]) ≠
      [((List.replicate n item).rtake 1, n - min n 1)] := by
  intro heq
  rw [(since_new 1).replies, intervals_replicate, List.map_singleton] at heq
  have hcount : (owed 1 ([] ++ List.replicate n item)).2 = n - min n 1 :=
    congrArg Prod.snd (List.singleton_inj.mp heq)
  have hlt : (owed 1 ([] ++ List.replicate n item)).2 < 2 ^ 64 :=
    Nat.mod_lt _ (Nat.two_pow_pos 64)
  rw [hcount] at hlt
  omega

/-- A buffer made to hold nothing holds one record, and a take reports no more than 64
bits. -/
theorem takes_at_limits :
    (Buffer.new 0).replies [.push 7, .take] ≠ [([7].rtake 0, 1 - min 1 0)] ∧
    (Buffer.new 1).replies (List.replicate (2 ^ 64 + 1) (.push 7) ++ [.take]) ≠
      [((List.replicate (2 ^ 64 + 1) 7).rtake 1, 2 ^ 64 + 1 - min (2 ^ 64 + 1) 1)] :=
  ⟨by decide, count_ne 7 (Nat.lt_succ_self _)⟩

end Buffer

end O11y

end RustSak
