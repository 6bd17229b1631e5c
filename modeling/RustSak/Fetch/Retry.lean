import RustSak.Fetch.Links
import Mathlib.NumberTheory.Real.GoldenRatio

/-!
# Retries with Fibonacci backoff

The loop that makes an attempt again, and how long it waits before the next one: as
long as the last answer asked for, or else as the Fibonacci numbers grow. Durations
are in nanoseconds.
-/

namespace RustSak

namespace Fetch

open Library

def fromSecs (seconds : ℕ) : ℕ := seconds * 1000000000

def maxBackoffSecs : ℕ := 60

/-! ## The wait a server asks for -/

section Asked

-- the HTTP date a text is, in nanoseconds from the epoch
variable (parseHttpDate : List Char → Option ℕ)

def parseRetryAfter (value : List Char) (now : ℕ) : Option ℕ :=
  let value := Text.trimSpace value
  match Decimal.parse 64 value with
  | some seconds => some (fromSecs seconds)
  | none => (parseHttpDate value).map fun date => date - now

def requestedWait (status : ℕ) (retryAfter : Option HeaderValue) (now : ℕ) : Option ℕ :=
  if status = 429 ∨ status = 503 then
    (retryAfter.bind HeaderValue.toStr).bind fun value => parseRetryAfter parseHttpDate value now
  else none

end Asked

/-! ## The schedule -/

/-- `F(n + 1)`, which the closed form is. A double is exact up to `F(78)`, and the waits are
capped long before. -/
def fibonacciDelay (n : ℕ) : ℕ := Nat.fib (n + 1)

/-- The closed form, over the reals: half a second above it there is no other integer. -/
theorem fibonacciDelay_eq_floor (n : ℕ) :
    (fibonacciDelay n : ℤ) = ⌊Real.goldenRatio ^ (n + 1) / √5 + 1 / 2⌋ := by
  have hbinet := Real.coe_fib_eq (n + 1)
  have hsqrt : (2 : ℝ) < √5 := by
    rw [Real.lt_sqrt (by norm_num)]
    norm_num
  have hpsi : |Real.goldenConj ^ (n + 1)| < 1 := by
    rw [abs_pow]
    refine pow_lt_one₀ (abs_nonneg _) ?_ n.succ_ne_zero
    rw [abs_of_neg Real.goldenConj_neg]
    linarith [Real.neg_one_lt_goldenConj]
  have herror : |Real.goldenConj ^ (n + 1) / √5| < 1 / 2 := by
    rw [abs_div, abs_of_pos (by linarith : (0 : ℝ) < √5), div_lt_iff₀ (by linarith)]
    linarith
  have hfib : (fibonacciDelay n : ℝ) =
      Real.goldenRatio ^ (n + 1) / √5 - Real.goldenConj ^ (n + 1) / √5 := by
    rw [fibonacciDelay, hbinet, sub_div]
  rw [abs_lt] at herror
  symm
  rw [Int.floor_eq_iff]
  push_cast
  constructor
  · linarith
  · linarith

/-! ## The loop -/

/-- One attempt: what it ends with, and what it leaves in the cell, if a response came that
could be looked at. -/
structure Attempted (ε α : Type) where
  result : Except ε α
  recorded : Option (Option ℕ)

/-- What the loop returns, and the waits between its attempts, the first one first. -/
structure Backoff (ε α : Type) where
  result : Except ε α
  waits : List ℕ

variable {ε α : Type}

def Attempted.cell (attempt : Attempted ε α) (cell : Option ℕ) : Option ℕ :=
  attempt.recorded.getD cell

/-- The wait before the next attempt, by what is taken out of the cell. -/
def delay (requested : Option ℕ) (attempt : ℕ) : ℕ :=
  min (requested.getD (fromSecs (fibonacciDelay (attempt + 1)))) (fromSecs maxBackoffSecs)

/-- The loop from the attempt of number `attempt` on, with `left` retries left. -/
def backoffFrom (shouldRetry : ε → Bool) (operation : ℕ → Attempted ε α) :
    ℕ → ℕ → Option ℕ → Backoff ε α
  | left, attempt, cell =>
    match (operation attempt).result with
    | .ok value => ⟨.ok value, []⟩
    | .error error =>
      match left with
      | 0 => ⟨.error error, []⟩
      | left + 1 =>
        if shouldRetry error then
          let rest := backoffFrom shouldRetry operation left (attempt + 1) none
          { rest with waits := delay ((operation attempt).cell cell) attempt :: rest.waits }
        else ⟨.error error, []⟩

def withFibonacciBackoff (retries : ℕ) (shouldRetry : ε → Bool) (operation : ℕ → Attempted ε α) :
    Backoff ε α :=
  backoffFrom shouldRetry operation retries 0 none

def Backoff.attempts (backoff : Backoff ε α) : ℕ := backoff.waits.length + 1

/-- What the loop does with attempts from the number `first` on. -/
structure Retried (shouldRetry : ε → Bool) (operation : ℕ → Attempted ε α) (left first : ℕ)
    (backoff : Backoff ε α) : Prop where
  bounded : backoff.waits.length ≤ left
  /-- Each attempt but the last one failed in a way worth another, and the wait after it is what
  its own answer asked for, or else the schedule's. -/
  retried : ∀ i (h : i < backoff.waits.length),
    (∃ error, (operation (first + i)).result = .error error ∧ shouldRetry error = true) ∧
    backoff.waits[i] = delay ((operation (first + i)).recorded.getD none) (first + i)
  last : backoff.result = (operation (first + backoff.waits.length)).result
  stopped : ∀ error, backoff.result = .error error → shouldRetry error = true →
    backoff.waits.length = left

variable {shouldRetry : ε → Bool} {operation : ℕ → Attempted ε α}

theorem Retried.final {left first : ℕ} {result : Except ε α}
    (h : (operation first).result = result)
    (hstop : ∀ error, result = .error error → shouldRetry error = true → left = 0) :
    Retried shouldRetry operation left first ⟨result, []⟩ where
  bounded := Nat.zero_le left
  retried := fun i h => absurd h (Nat.not_lt_zero i)
  last := h.symm
  stopped := fun error herror hretry => (hstop error herror hretry).symm

/-- The cell is empty whenever an attempt begins, so nothing in it outlives the answer it came
with. -/
theorem retried_backoffFrom (left first : ℕ) :
    Retried shouldRetry operation left first
      (backoffFrom shouldRetry operation left first none) := by
  induction left generalizing first with
  | zero =>
      rw [backoffFrom]
      cases h : (operation first).result with
      | ok value => exact .final h fun _ herror _ => by cases herror
      | error error => exact .final h fun _ _ _ => rfl
  | succ left ih =>
      rw [backoffFrom]
      cases h : (operation first).result with
      | ok value => exact .final h fun _ herror _ => by cases herror
      | error error =>
          by_cases hretry : shouldRetry error = true
          · simp only [hretry, if_true]
            have hrest := ih (first + 1)
            refine ⟨Nat.succ_le_succ hrest.bounded, fun i hi => ?_, ?_, fun e he hr => ?_⟩
            · cases i with
              | zero => exact ⟨⟨error, h, hretry⟩, rfl⟩
              | succ i =>
                  have hnext := hrest.retried i (Nat.lt_of_succ_lt_succ hi)
                  rw [Nat.add_assoc, Nat.add_comm 1 i] at hnext
                  exact hnext
            · rw [hrest.last, List.length_cons, Nat.add_assoc, Nat.add_comm 1]
            · rw [List.length_cons, hrest.stopped e he hr]
          · simp only [hretry, Bool.false_eq_true, if_false]
            refine .final h fun e he hr => absurd ?_ hretry
            cases he
            exact hr

theorem retried_withFibonacciBackoff (retries : ℕ) :
    Retried shouldRetry operation retries 0
      (withFibonacciBackoff retries shouldRetry operation) :=
  retried_backoffFrom retries 0

/-- Attempts that are alike as far as the loop goes are made alike. -/
theorem backoffFrom_congr {operation' : ℕ → Attempted ε α} {left first : ℕ}
    (h : ∀ k ≤ (backoffFrom shouldRetry operation left first none).waits.length,
      operation (first + k) = operation' (first + k)) :
    backoffFrom shouldRetry operation' left first none =
      backoffFrom shouldRetry operation left first none := by
  induction left generalizing first with
  | zero =>
      have hfirst := h 0 (Nat.zero_le _)
      rw [Nat.add_zero] at hfirst
      rw [backoffFrom, backoffFrom, hfirst]
  | succ left ih =>
      have hfirst := h 0 (Nat.zero_le _)
      rw [Nat.add_zero] at hfirst
      rw [backoffFrom, backoffFrom, ← hfirst]
      rw [backoffFrom] at h
      cases hresult : (operation first).result with
      | ok value => rfl
      | error error =>
          by_cases hretry : shouldRetry error = true
          · simp only [hresult, hretry, if_true, List.length_cons] at h ⊢
            rw [ih fun k hk => ?_]
            have hnext := h (k + 1) (Nat.succ_le_succ hk)
            rwa [Nat.add_comm k 1, ← Nat.add_assoc] at hnext
          · simp only [hretry, Bool.false_eq_true, if_false]

/-- An attempt that fails for good ends the loop, as it was up to there. -/
theorem backoffFrom_of_final {operation' : ℕ → Attempted ε α} {left first i : ℕ} {error : ε}
    (hagree : ∀ k < i, operation (first + k) = operation' (first + k))
    (hi : i ≤ (backoffFrom shouldRetry operation left first none).waits.length)
    (herror : (operation' (first + i)).result = .error error)
    (hfinal : shouldRetry error = false) :
    backoffFrom shouldRetry operation' left first none =
      ⟨.error error, (backoffFrom shouldRetry operation left first none).waits.take i⟩ := by
  induction i generalizing left first with
  | zero =>
      rw [Nat.add_zero] at herror
      rw [backoffFrom, herror, List.take_zero]
      cases left with
      | zero => rfl
      | succ left => simp only [hfinal, Bool.false_eq_true, if_false]
  | succ i ih =>
      have hfirst := hagree 0 (Nat.zero_lt_succ i)
      rw [Nat.add_zero] at hfirst
      rw [backoffFrom] at hi
      rw [backoffFrom, backoffFrom, ← hfirst]
      cases hresult : (operation first).result with
      | ok value =>
          simp only [hresult, List.length_nil] at hi
          exact absurd hi (Nat.not_succ_le_zero i)
      | error e =>
          cases left with
          | zero =>
              simp only [hresult, List.length_nil] at hi
              exact absurd hi (Nat.not_succ_le_zero i)
          | succ left =>
              by_cases hretry : shouldRetry e = true
              · simp only [hresult, hretry, if_true, List.length_cons] at hi
                simp only [hretry, if_true, List.take_succ_cons]
                have hafter : ∀ k < i, operation (first + 1 + k) = operation' (first + 1 + k) := by
                  intro k hk
                  have hnext := hagree (k + 1) (Nat.succ_lt_succ hk)
                  rwa [Nat.add_comm k 1, ← Nat.add_assoc] at hnext
                have herror' : (operation' (first + 1 + i)).result = .error error := by
                  rwa [Nat.add_assoc, Nat.add_comm 1 i]
                rw [ih hafter (Nat.le_of_succ_le_succ hi) herror']
              · simp only [hresult, hretry, Bool.false_eq_true, if_false, List.length_nil] at hi
                exact absurd hi (Nat.not_succ_le_zero i)

theorem delay_le (requested : Option ℕ) (attempt : ℕ) :
    delay requested attempt ≤ fromSecs maxBackoffSecs := min_le_right _ _

theorem sum_waits_le (retries : ℕ) :
    (withFibonacciBackoff retries shouldRetry operation).waits.sum ≤
      retries * fromSecs maxBackoffSecs := by
  have h := @retried_withFibonacciBackoff _ _ shouldRetry operation retries
  have hle : ∀ wait ∈ (withFibonacciBackoff retries shouldRetry operation).waits,
      wait ≤ fromSecs maxBackoffSecs := by
    intro wait hwait
    obtain ⟨i, hi, rfl⟩ := List.mem_iff_getElem.mp hwait
    rw [(h.retried i hi).2]
    exact delay_le _ _
  calc (withFibonacciBackoff retries shouldRetry operation).waits.sum
      ≤ (withFibonacciBackoff retries shouldRetry operation).waits.length *
          fromSecs maxBackoffSecs := List.sum_le_card_nsmul _ _ hle
    _ ≤ retries * fromSecs maxBackoffSecs := Nat.mul_le_mul_right _ h.bounded

end Fetch

end RustSak
