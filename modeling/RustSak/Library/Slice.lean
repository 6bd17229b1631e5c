import Mathlib.Data.List.Basic
import Mathlib.Algebra.Order.Ring.Nat
import RustSak.Library.BigEndian

/-!
# Slices by position

`slice xs start stop` are the elements from `start` up to `stop`, if all of them are
there. What has been read stays what it is when more follows, and a slice of a
concatenation at the right place is the part that stands there. Numbers are read at a
position through slices.
-/

namespace RustSak

namespace Library

variable {α : Type*}

def slice (xs : List α) (start stop : ℕ) : Option (List α) :=
  if start ≤ stop ∧ stop ≤ xs.length then some ((xs.take stop).drop start) else none

theorem slice_eq_some {xs ys : List α} {start stop : ℕ} :
    slice xs start stop = some ys ↔
      (start ≤ stop ∧ stop ≤ xs.length) ∧ (xs.take stop).drop start = ys := by
  rw [slice, Option.ite_none_right_eq_some, Option.some.injEq]

theorem slice_eq_none {xs : List α} {start stop : ℕ} :
    slice xs start stop = none ↔ xs.length < stop ∨ stop < start := by
  rw [slice, ite_eq_right_iff]
  constructor
  · intro h
    by_contra hin
    exact absurd (h (by omega)) (Option.some_ne_none _)
  · intro h hin
    omega

theorem length_slice {xs ys : List α} {start stop : ℕ} (h : slice xs start stop = some ys) :
    ys.length = stop - start ∧ stop ≤ xs.length := by
  obtain ⟨⟨hstart, hstop⟩, rfl⟩ := slice_eq_some.mp h
  rw [List.length_drop, List.length_take, Nat.min_eq_left hstop]
  exact ⟨rfl, hstop⟩

theorem slice_zero {xs : List α} {n : ℕ} (h : n ≤ xs.length) : slice xs 0 n = some (xs.take n) :=
  slice_eq_some.mpr ⟨⟨Nat.zero_le n, h⟩, rfl⟩

theorem slice_to_end {xs : List α} {n : ℕ} (h : n ≤ xs.length) :
    slice xs n xs.length = some (xs.drop n) := by
  rw [slice_eq_some, List.take_length]
  exact ⟨⟨h, Nat.le_refl _⟩, rfl⟩

/-- A slice is there still when more follows. -/
theorem slice_append_of_eq_some {xs ys : List α} {start stop : ℕ}
    (h : slice xs start stop = some ys) (more : List α) :
    slice (xs ++ more) start stop = some ys := by
  obtain ⟨⟨hstart, hstop⟩, rfl⟩ := slice_eq_some.mp h
  refine slice_eq_some.mpr ⟨⟨hstart, ?_⟩, ?_⟩
  · rw [List.length_append]
    exact hstop.trans (Nat.le_add_right _ _)
  · rw [List.take_append_of_le_length hstop]

theorem slice_append_of_le {xs : List α} {start stop : ℕ} (h : stop ≤ xs.length)
    (more : List α) : slice (xs ++ more) start stop = slice xs start stop := by
  have hlen : stop ≤ (xs ++ more).length := by
    rw [List.length_append]
    omega
  simp only [slice, h, hlen, List.take_append_of_le_length h]

/-- What stands between `before` and `after`. -/
theorem slice_mid (before mid after : List α) :
    slice (before ++ (mid ++ after)) before.length (before.length + mid.length) =
      some mid := by
  refine slice_eq_some.mpr ⟨⟨Nat.le_add_right _ _, ?_⟩, ?_⟩
  · simp only [List.length_append]
    omega
  · rw [List.take_length_add_append, List.drop_left, List.take_left]

theorem slice_of_eq (before after : List α) {xs mid : List α} {start stop : ℕ}
    (hxs : xs = before ++ (mid ++ after)) (hstart : start = before.length)
    (hstop : stop = before.length + mid.length) : slice xs start stop = some mid := by
  rw [hxs, hstart, hstop]
  exact slice_mid before mid after

/-! ## Searching from the end -/

/-- Where the last element that meets the predicate stands. -/
def rposition (p : α → Bool) : List α → Option ℕ
  | [] => none
  | x :: xs => ((rposition p xs).map (· + 1)).or (if p x = true then some 0 else none)

/-- Every element with the one after it. -/
def windows2 (xs : List α) : List (α × α) := xs.zip xs.tail

theorem rposition_eq_none {p : α → Bool} {xs : List α} :
    rposition p xs = none ↔ ∀ x ∈ xs, p x = false := by
  induction xs with
  | nil => simp [rposition]
  | cons x xs ih => simp [rposition, ih, and_comm]

theorem rposition_of_eq {p : α → Bool} (before : List α) {x : α} {after : List α}
    (hx : p x = true) (hafter : ∀ y ∈ after, p y = false) :
    rposition p (before ++ x :: after) = some before.length := by
  induction before with
  | nil => simp [rposition, rposition_eq_none.mpr hafter, hx]
  | cons y before ih => simp [rposition, ih]

theorem exists_of_rposition {p : α → Bool} {xs : List α} {i : ℕ}
    (h : rposition p xs = some i) : ∃ before x after, xs = before ++ x :: after ∧
      before.length = i ∧ p x = true ∧ ∀ y ∈ after, p y = false := by
  induction xs generalizing i with
  | nil => cases h
  | cons x xs ih =>
      cases hxs : rposition p xs with
      | some j =>
          obtain ⟨before, y, after, rfl, rfl, hy, hafter⟩ := ih hxs
          simp only [rposition, hxs, Option.map_some, Option.some_or, Option.some.injEq] at h
          exact ⟨x :: before, y, after, rfl, h, hy, hafter⟩
      | none =>
          simp only [rposition, hxs, Option.map_none, Option.none_or,
            Option.ite_none_right_eq_some, Option.some.injEq] at h
          exact ⟨[], x, xs, rfl, h.2, h.1, rposition_eq_none.mp hxs⟩

theorem windows2_cons_cons (x y : α) (xs : List α) :
    windows2 (x :: y :: xs) = (x, y) :: windows2 (y :: xs) := rfl

/-- A pair among the windows stands there in the list. -/
theorem exists_of_windows2 {a b : α} {xs : List α} {before after : List (α × α)}
    (h : windows2 xs = before ++ (a, b) :: after) : ∃ u v, xs = u ++ a :: b :: v ∧
      u.length = before.length ∧ windows2 (b :: v) = after := by
  induction before generalizing xs with
  | nil =>
      cases xs with
      | nil => cases h
      | cons x xs =>
        cases xs with
        | nil => cases h
        | cons y xs =>
            obtain ⟨hpair, hafter⟩ := List.cons.inj h
            obtain ⟨rfl, rfl⟩ := Prod.mk.inj hpair
            exact ⟨[], xs, rfl, rfl, hafter⟩
  | cons w before ih =>
      cases xs with
      | nil => cases h
      | cons x xs =>
        cases xs with
        | nil => cases h
        | cons y xs =>
            obtain ⟨u, v, hxs, hlength, hafter⟩ := ih (List.cons.inj h).2
            exact ⟨x :: u, v, congrArg (x :: ·) hxs, congrArg (· + 1) hlength, hafter⟩

theorem mem_windows2 {a b : α} {xs : List α} : (a, b) ∈ windows2 xs ↔ [a, b] <:+: xs := by
  constructor
  · intro h
    obtain ⟨before, after, hsplit⟩ := List.append_of_mem h
    obtain ⟨u, v, rfl, -, -⟩ := exists_of_windows2 hsplit
    exact ⟨u, v, by simp⟩
  · rintro ⟨u, v, rfl⟩
    induction u with
    | nil => exact List.mem_cons_self
    | cons x u ih =>
        cases u with
        | nil => exact List.mem_cons_of_mem _ ih
        | cons y u => exact List.mem_cons_of_mem _ ih

/-- Where the last of the pairs stands. -/
theorem rposition_windows2 [DecidableEq α] (u v : List α) {a b : α}
    (h : ¬[a, b] <:+: b :: v) :
    rposition (· == (a, b)) (windows2 (u ++ a :: b :: v)) = some u.length := by
  have hafter : ∀ w ∈ windows2 (b :: v), (w == (a, b)) = false := by
    intro w hw
    rw [beq_eq_false_iff_ne]
    rintro rfl
    exact h (mem_windows2.mp hw)
  induction u with
  | nil =>
      exact rposition_of_eq (p := (· == (a, b))) [] (beq_self_eq_true _) hafter
  | cons x u ih =>
      cases u with
      | nil =>
          rw [List.nil_append] at ih
          rw [List.singleton_append, windows2_cons_cons, rposition, ih]
          rfl
      | cons y u =>
          rw [List.cons_append] at ih
          rw [List.cons_append, List.cons_append, windows2_cons_cons, rposition, ih]
          rfl

theorem exists_of_rposition_windows2 [DecidableEq α] {a b : α} {xs : List α} {i : ℕ}
    (h : rposition (· == (a, b)) (windows2 xs) = some i) : ∃ u v, xs = u ++ a :: b :: v ∧
      u.length = i ∧ ¬[a, b] <:+: b :: v := by
  obtain ⟨before, w, after, hsplit, hlength, hw, hafter⟩ := exists_of_rposition h
  obtain rfl := beq_iff_eq.mp hw
  obtain ⟨u, v, hxs, hu, hv⟩ := exists_of_windows2 hsplit
  refine ⟨u, v, hxs, hu.trans hlength, ?_⟩
  intro hinfix
  rw [← mem_windows2, hv] at hinfix
  have hnot := hafter _ hinfix
  rw [beq_self_eq_true] at hnot
  cases hnot


/-- The first elements that `f` has a value for, of `count` from `start` on. -/
def mapWhile (f : ℕ → Option α) : ℕ → ℕ → List α
  | 0, _ => []
  | count + 1, start =>
      match f start with
      | some x => x :: mapWhile f count (start + 1)
      | none => []

namespace BigEndian

/-- A number of `width` bytes at a position. -/
def readAt (width : ℕ) (bytes : List UInt8) (pos : ℕ) : Option ℕ :=
  (slice bytes pos (pos + width)).map ofBytes

/-- A number written at a position is read there. -/
theorem readAt_of_eq (before after : List UInt8) {width pos n : ℕ} {bytes : List UInt8}
    (hbytes : bytes = before ++ (toBytes width n ++ after)) (hpos : pos = before.length)
    (hn : n < 256 ^ width) : readAt width bytes pos = some n := by
  have hstop : pos + width = before.length + (toBytes width n).length := by
    rw [hpos, length_toBytes]
  rw [readAt, slice_of_eq before after hbytes hpos hstop, Option.map_some, ofBytes_toBytes hn]

end BigEndian

end Library

end RustSak
