import Mathlib.Data.List.Sort

/-!
# Stable sorting

What a stable sort by a total preorder leaves as it was: the order in which two
elements come out depends on these two alone, and so does a part of the list on the
rest of it.
-/

namespace RustSak

namespace Library

namespace StableSort

variable {α : Type} (le : α → α → Prop) [DecidableRel le]

theorem pairwise_orderedInsert_iff [IsTrans α le] {R : α → α → Prop} (a : α)
    {l : List α} (hl : l.Pairwise le) : (l.orderedInsert le a).Pairwise R ↔
      (∀ b ∈ l, if le a b then R a b else R b a) ∧ l.Pairwise R := by
  induction l with
  | nil => simp
  | cons c l ih =>
    rw [List.pairwise_cons] at hl
    by_cases hac : le a c
    · have hall : ∀ b ∈ c :: l, le a b := by
        rw [List.forall_mem_cons]
        exact ⟨hac, fun b hb => IsTrans.trans a c b hac (hl.1 b hb)⟩
      rw [List.orderedInsert_cons_of_le le l hac, List.pairwise_cons]
      refine and_congr_left fun _ => forall₂_congr fun b hb => ?_
      rw [if_pos (hall b hb)]
    · rw [List.orderedInsert_of_not_le le l hac, List.pairwise_cons, ih hl.2,
        List.pairwise_cons, List.forall_mem_cons, if_neg hac]
      have hmem : (∀ b ∈ l.orderedInsert le a, R c b) ↔ R c a ∧ ∀ b ∈ l, R c b := by
        simp only [List.mem_orderedInsert, forall_eq_or_imp]
      rw [hmem]
      tauto

/-- Any two elements come out in their order, or else in the order they came in. -/
theorem pairwise_insertionSort_iff [Std.Total le] [IsTrans α le] {R : α → α → Prop}
    (l : List α) : (l.insertionSort le).Pairwise R ↔
      l.Pairwise fun a b => if le a b then R a b else R b a := by
  induction l with
  | nil => simp
  | cons a l ih =>
    rw [List.insertionSort_cons,
      pairwise_orderedInsert_iff le a (List.pairwise_insertionSort le l), ih,
      List.pairwise_cons]
    simp only [List.mem_insertionSort]

theorem filter_orderedInsert [IsTrans α le] (p : α → Bool) (a : α) {l : List α}
    (hl : l.Pairwise le) : (l.orderedInsert le a).filter p =
      if p a then (l.filter p).orderedInsert le a else l.filter p := by
  induction l with
  | nil =>
    rw [List.orderedInsert_nil, List.filter_cons]
    rfl
  | cons c l ih =>
    rw [List.pairwise_cons] at hl
    by_cases hac : le a c
    · rw [List.orderedInsert_cons_of_le le l hac, List.filter_cons]
      -- What the insertion stops at is there still, or what comes after it.
      have hfirst : ∀ b ∈ (c :: l).filter p, le a b := by
        intro b hb
        rcases List.mem_cons.mp (List.mem_of_mem_filter hb) with rfl | hb
        · exact hac
        · exact IsTrans.trans a c b hac (hl.1 b hb)
      cases hrest : (c :: l).filter p with
      | nil => simp
      | cons b rest =>
        rw [hrest] at hfirst
        rw [List.orderedInsert_cons_of_le le rest (hfirst b List.mem_cons_self)]
    · rw [List.orderedInsert_of_not_le le l hac, List.filter_cons, ih hl.2,
        List.filter_cons]
      by_cases ha : p a = true
      · by_cases hc : p c = true
        · rw [if_pos hc, if_pos ha, if_pos ha, if_pos hc,
            List.orderedInsert_of_not_le le _ hac]
        · rw [if_neg hc, if_pos ha, if_pos ha, if_neg hc]
      · rw [if_neg ha, if_neg ha]

/-- A part of the list is sorted as if it were alone. -/
theorem filter_insertionSort [Std.Total le] [IsTrans α le] (p : α → Bool)
    (l : List α) : (l.insertionSort le).filter p = (l.filter p).insertionSort le := by
  induction l with
  | nil => rfl
  | cons a l ih =>
    rw [List.insertionSort_cons,
      filter_orderedInsert le p a (List.pairwise_insertionSort le l), ih,
      List.filter_cons]
    split
    · rfl
    · rfl

theorem getLast?_filter {p : α → Bool} {l : List α} {z : α}
    (hlast : l.getLast? = some z) (hz : p z = true) :
    (l.filter p).getLast? = some z := by
  obtain ⟨init, rfl⟩ := List.getLast?_eq_some_iff.mp hlast
  rw [List.filter_append, List.filter_cons_of_pos hz, List.filter_nil,
    List.getLast?_append_cons, List.getLast?_singleton]

/-- What comes out last is the last of the greatest. -/
theorem getLast?_insertionSort [Std.Total le] [IsTrans α le] (l : List α) :
    (l.insertionSort le).getLast? =
      (l.filter fun a => decide (∀ b ∈ l, le b a)).getLast? := by
  cases hlast : (l.insertionSort le).getLast? with
  | none =>
    rw [List.getLast?_eq_none_iff] at hlast
    have hnil : l = [] := by
      rw [← List.length_eq_zero_iff, ← List.length_insertionSort le l, hlast]
      rfl
    rw [hnil]
    rfl
  | some z =>
    have hgreatest : ∀ b ∈ l, le b z := by
      intro b hb
      obtain ⟨init, hinit⟩ := List.getLast?_eq_some_iff.mp hlast
      have hsorted := List.pairwise_insertionSort le l
      rw [hinit, List.pairwise_append] at hsorted
      rw [← List.mem_insertionSort le, hinit, List.mem_append] at hb
      rcases hb with hb | hb
      · exact hsorted.2.2 b hb z (List.mem_singleton_self z)
      · rw [List.mem_singleton.mp hb]
        exact (Std.Total.total z z).elim id id
    have hall : (l.filter fun a => decide (∀ b ∈ l, le b a)).Pairwise le := by
      refine List.pairwise_of_forall_mem_list fun a ha b hb => ?_
      rw [List.mem_filter, decide_eq_true_iff] at ha hb
      exact hb.2 a ha.1
    rw [← hall.insertionSort_eq, ← filter_insertionSort]
    exact (getLast?_filter hlast (decide_eq_true hgreatest)).symm

end StableSort

end Library

end RustSak
