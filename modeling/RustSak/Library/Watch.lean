import Mathlib.Data.List.Basic

/-!
# A channel that keeps the newest value

The sender replaces the value; a receiver can tell whether it has seen the newest one,
and reads no other. It may be told of a change without reading it. What a receiver reads is
a sublist of what was sent; and where it has read whatever it was told of since some moment,
it ends, once it has seen all there is, with the last value that was sent since.
-/

namespace RustSak

namespace Library

/-- The value the channel was made with, what was sent since, the oldest first, and how many of
these the receiver has seen. -/
structure Watch (β : Type) where
  first : β
  sent : List β
  seen : ℕ

namespace Watch

variable {β : Type}

def new (first : β) : Watch β := ⟨first, [], 0⟩

variable (watch : Watch β)

def current : β := watch.sent.getLast?.getD watch.first

def send (value : β) : Watch β := { watch with sent := watch.sent ++ [value] }

/-- The receiver has seen all there is. -/
def mark : Watch β := { watch with seen := watch.sent.length }

/-- There is something the receiver has not seen. -/
def changed : Bool := watch.seen < watch.sent.length

/-- What a receiver that may be about to read the newest value has read. -/
structure Reads (owed : Bool) (log : List β) : Prop where
  seen_le : watch.seen ≤ watch.sent.length
  sublist : log.Sublist (if owed then watch.sent.dropLast else watch.sent.take watch.seen)
  owes : owed = true → watch.sent ≠ []

/-- What it has read since it had seen the first `begun` values, if it has read whatever it was
told of. -/
structure Follows (owed : Bool) (begun : ℕ) (log : List β) : Prop where
  begun_le : begun ≤ (if owed then watch.sent.dropLast else watch.sent.take watch.seen).length
  sublist :
    log.Sublist ((if owed then watch.sent.dropLast else watch.sent.take watch.seen).drop begun)
  last : owed = false → log.getLast? = ((watch.sent.take watch.seen).drop begun).getLast?

variable {watch} {owed : Bool} {begun : ℕ} {log : List β}

theorem seen_lt_length (hchanged : watch.changed = true) : watch.seen < watch.sent.length :=
  of_decide_eq_true hchanged

theorem take_mark : watch.mark.sent.take watch.mark.seen = watch.sent := List.take_length

/-- What had been seen is not the newest value. -/
theorem take_seen_sublist (hchanged : watch.changed = true) :
    (watch.sent.take watch.seen).Sublist watch.sent.dropLast := by
  rw [List.dropLast_eq_take]
  exact List.take_sublist_take_left (Nat.le_pred_of_lt (seen_lt_length hchanged))

/-- The newest value is read behind all the others. -/
theorem dropLast_append_current (hne : watch.sent ≠ []) :
    watch.sent.dropLast ++ [watch.current] = watch.sent := by
  rw [current, List.getLast?_eq_getLast_of_ne_nil hne, Option.getD_some,
    List.dropLast_append_getLast hne]

theorem Reads.start (first : β) : (new first).Reads false [] where
  seen_le := Nat.le_refl 0
  sublist := List.Sublist.refl []
  owes := fun h => by cases h

theorem Reads.sublist_sent (h : watch.Reads owed log) : log.Sublist watch.sent := by
  refine h.sublist.trans ?_
  cases owed with
  | false => exact List.take_sublist _ _
  | true => exact List.dropLast_sublist _

theorem Reads.send (h : watch.Reads owed log) (value : β) : (watch.send value).Reads owed log where
  seen_le := by
    rw [Watch.send, List.length_append]
    exact Nat.le_add_right_of_le h.seen_le
  sublist := by
    cases owed with
    | false =>
        have hsub := h.sublist
        rw [if_neg Bool.false_ne_true] at hsub ⊢
        rwa [Watch.send, List.take_append_of_le_length h.seen_le]
    | true =>
        rw [if_pos rfl, Watch.send, List.dropLast_concat]
        exact h.sublist_sent
  owes := fun _ => List.append_ne_nil_of_right_ne_nil _ (List.cons_ne_nil _ _)

/-- The receiver is told of a change, and does not read it. -/
theorem Reads.mark (h : watch.Reads false log) : watch.mark.Reads false log where
  seen_le := Nat.le_refl _
  sublist := by
    rw [if_neg Bool.false_ne_true, take_mark]
    exact h.sublist_sent
  owes := fun h => by cases h

/-- The receiver is told of a change that it is about to read. -/
theorem Reads.notice (h : watch.Reads false log) (hchanged : watch.changed = true) :
    watch.mark.Reads true log where
  seen_le := Nat.le_refl _
  sublist := by
    have hsub := h.sublist
    rw [if_neg Bool.false_ne_true] at hsub
    rw [if_pos rfl]
    exact hsub.trans (take_seen_sublist hchanged)
  owes := fun _ hnil => by
    have hlt := seen_lt_length hchanged
    rw [Watch.mark] at hnil
    rw [hnil] at hlt
    exact absurd hlt (Nat.not_lt_zero _)

/-- It reads what is the newest value by then. -/
theorem Reads.read (h : watch.Reads true log) :
    watch.mark.Reads false (log ++ [watch.current]) where
  seen_le := Nat.le_refl _
  sublist := by
    have hsub := h.sublist
    rw [if_pos rfl] at hsub
    rw [if_neg Bool.false_ne_true, take_mark]
    have happend := hsub.append (List.Sublist.refl [watch.current])
    rwa [dropLast_append_current (h.owes rfl)] at happend
  owes := fun h => by cases h

/-- It begins with what it has not seen. -/
theorem Follows.start (hseen : watch.seen ≤ watch.sent.length) :
    watch.Follows false watch.seen [] where
  begun_le := by
    rw [if_neg Bool.false_ne_true]
    exact Nat.le_of_eq (List.length_take_of_le hseen).symm
  sublist := List.nil_sublist _
  last := fun _ => by rw [List.drop_take, Nat.sub_self, List.take_zero]

theorem Follows.send (h : watch.Follows owed begun log) (hseen : watch.seen ≤ watch.sent.length)
    (value : β) : (watch.send value).Follows owed begun log := by
  have htake : (watch.send value).sent.take (watch.send value).seen =
      watch.sent.take watch.seen := by
    rw [Watch.send, List.take_append_of_le_length hseen]
  cases owed with
  | false =>
      refine ⟨?_, ?_, fun howed => ?_⟩
      · rw [if_neg Bool.false_ne_true, htake]
        exact h.begun_le
      · rw [if_neg Bool.false_ne_true, htake]
        exact h.sublist
      · rw [htake]
        exact h.last howed
  | true =>
      have hbegun := h.begun_le
      have hsub := h.sublist
      rw [if_pos rfl] at hbegun hsub
      have hdrop : (watch.send value).sent.dropLast = watch.sent := List.dropLast_concat
      refine ⟨?_, ?_, fun howed => by cases howed⟩
      · rw [if_pos rfl, hdrop]
        exact Nat.le_trans hbegun (List.dropLast_sublist _).length_le
      · rw [if_pos rfl, hdrop]
        exact hsub.trans ((List.dropLast_sublist _).drop _)

theorem Follows.notice (h : watch.Follows false begun log) (hchanged : watch.changed = true) :
    watch.mark.Follows true begun log := by
  have hbegun := h.begun_le
  have hsub := h.sublist
  have htake := take_seen_sublist hchanged
  rw [if_neg Bool.false_ne_true] at hbegun hsub
  exact ⟨Nat.le_trans hbegun htake.length_le, hsub.trans (htake.drop _),
    fun howed => by cases howed⟩

theorem Follows.read (h : watch.Follows true begun log) (hne : watch.sent ≠ []) :
    watch.mark.Follows false begun (log ++ [watch.current]) := by
  have hbegun := h.begun_le
  have hsub := h.sublist
  rw [if_pos rfl] at hbegun hsub
  have hdrop : watch.sent.drop begun = watch.sent.dropLast.drop begun ++ [watch.current] := by
    conv => lhs; rw [← dropLast_append_current hne]
    exact List.drop_append_of_le_length hbegun
  refine ⟨?_, ?_, fun _ => ?_⟩
  · rw [if_neg Bool.false_ne_true, take_mark]
    exact Nat.le_trans hbegun (List.dropLast_sublist _).length_le
  · rw [if_neg Bool.false_ne_true, take_mark, hdrop]
    exact hsub.append (List.Sublist.refl _)
  · rw [take_mark, hdrop, List.getLast?_concat, List.getLast?_concat]

end Watch

end Library

end RustSak
