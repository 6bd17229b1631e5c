import Mathlib.Data.List.Lex
import Mathlib.Data.List.Infix
import Mathlib.Order.Lattice

/-!
# Walking a tree depth first

A walk that is depth first, with each node ahead of what is below it, tells the nodes below one
in a row. If it also takes the children of each node in their order, and leaves out no node on
the way to one that it tells, then it tells all paths in lexicographic order.
-/

namespace RustSak

namespace Library

section Paths

variable {α : Type*}

/-- The paths of a walk that is depth first, with each node ahead of what is below it. -/
structure DepthFirst (paths : List (List α)) : Prop where
  above : paths.Pairwise fun p q => ¬ q <+: p
  row : ∀ (i j k : ℕ) (p q r : List α), i < j → j < k →
    paths[i]? = some p → paths[j]? = some q → paths[k]? = some r → p <+: r → p <+: q

/-- The children of each node are in their order. -/
def SiblingsSorted [LE α] (paths : List (List α)) : Prop :=
  paths.Pairwise fun p q => ∀ dir x y, p = dir ++ [x] → q = dir ++ [y] → x ≤ y

/-- Of two paths one leads on from the other, or they part at some node. -/
theorem isPrefix_or_part (p q : List α) :
    p <+: q ∨ q <+: p ∨
      ∃ dir x y r s, x ≠ y ∧ p = dir ++ x :: r ∧ q = dir ++ y :: s := by
  induction p generalizing q with
  | nil => exact .inl List.nil_prefix
  | cons x p ih =>
      cases q with
      | nil => exact .inr (.inl List.nil_prefix)
      | cons y q =>
          by_cases hxy : x = y
          · subst hxy
            obtain hpq | hqp | ⟨dir, x', y', r, s, hne, rfl, rfl⟩ := ih q
            · exact .inl (List.prefix_cons_inj x |>.mpr hpq)
            · exact .inr (.inl (List.prefix_cons_inj x |>.mpr hqp))
            · exact .inr (.inr ⟨x :: dir, x', y', r, s, hne, rfl, rfl⟩)
          · exact .inr (.inr ⟨[], x, y, p, q, hxy, rfl, rfl⟩)

theorem prefix_of_child (dir : List α) (x : α) (r : List α) : dir ++ [x] <+: dir ++ x :: r :=
  ⟨r, by rw [List.append_assoc, List.singleton_append]⟩

theorem eq_of_child_leads {dir : List α} {x y : α} (h : dir ++ [x] <+: dir ++ [y]) : x = y := by
  have heq := h.eq_of_length (by rw [List.length_append, List.length_append]; rfl)
  exact List.singleton_inj.mp (List.append_cancel_left heq)

theorem DepthFirst.not_leads {paths : List (List α)} (h : DepthFirst paths) {i j : ℕ}
    {p q : List α} (hij : i < j) (hp : paths[i]? = some p) (hq : paths[j]? = some q) :
    ¬ q <+: p := by
  obtain ⟨hi, rfl⟩ := List.getElem?_eq_some_iff.mp hp
  obtain ⟨hj, rfl⟩ := List.getElem?_eq_some_iff.mp hq
  exact List.pairwise_iff_getElem.mp h.above i j hi hj hij

/-- What leads to a path comes no later. -/
theorem DepthFirst.le_of_leads {paths : List (List α)} (h : DepthFirst paths) {i j : ℕ}
    {p q : List α} (hp : paths[i]? = some p) (hq : paths[j]? = some q) (hpq : p <+: q) :
    i ≤ j := by
  by_contra hlt
  exact h.not_leads (Nat.lt_of_not_le hlt) hq hp hpq

/-- Where two paths part, the child that leads to the first of them comes first. -/
theorem DepthFirst.children {paths : List (List α)} (h : DepthFirst paths) {i j k l : ℕ}
    {dir r s : List α} {x y : α}
    (hne : x ≠ y) (hij : i < j)
    (hp : paths[i]? = some (dir ++ x :: r)) (hq : paths[j]? = some (dir ++ y :: s))
    (hx : paths[k]? = some (dir ++ [x])) (hy : paths[l]? = some (dir ++ [y])) : k < l := by
  have hki : k ≤ i := h.le_of_leads hx hp (prefix_of_child dir x r)
  by_contra hlk
  obtain hlk | rfl := (Nat.le_of_not_lt hlk).lt_or_eq
  · -- all between the second child and what it leads to is below it, the first child too
    have hrow := h.row l k j _ _ _ hlk (hki.trans_lt hij) hy hx hq (prefix_of_child dir y s)
    exact hne (eq_of_child_leads hrow).symm
  · rw [hx, Option.some.injEq] at hy
    exact hne (List.singleton_inj.mp (List.append_cancel_left hy))

end Paths

section Sorted

variable {α : Type*} [LinearOrder α]

theorem prefix_of_between {p q s : List α} (hpq : p < q) (hqs : q < p ++ s) : p <+: q := by
  induction p generalizing q with
  | nil => exact List.nil_prefix
  | cons x p ih =>
      cases q with
      | nil => exact absurd hpq (List.not_lt_nil _)
      | cons y q =>
          obtain hxy | ⟨rfl, htail⟩ := List.cons_lt_cons_iff.mp hpq
          · obtain hyx | ⟨rfl, _⟩ := List.cons_lt_cons_iff.mp hqs
            · exact absurd hyx (lt_asymm hxy)
            · exact absurd hxy (lt_irrefl _)
          · obtain hxx | ⟨_, htail'⟩ := List.cons_lt_cons_iff.mp hqs
            · exact absurd hxx (lt_irrefl _)
            · exact (List.prefix_cons_inj x).mpr (ih htail htail')

theorem lt_of_leads {p q : List α} (h : p <+: q) (hne : p ≠ q) : p < q := by
  obtain ⟨s, rfl⟩ := h
  cases s with
  | nil => exact absurd (List.append_nil p).symm hne
  | cons x s =>
      have hlt : p ++ [] < p ++ x :: s := List.append_left_lt (List.nil_lt_cons x s)
      rwa [List.append_nil] at hlt

theorem lt_of_part {dir r s : List α} {x y : α} (h : x < y) : dir ++ x :: r < dir ++ y :: s :=
  List.append_left_lt (List.cons_lt_cons_iff.mpr (.inl h))

variable {paths : List (List α)}

/-- A walk that is depth first, and in order at each node, is in lexicographic order. -/
theorem DepthFirst.sorted (h : DepthFirst paths) (hsiblings : SiblingsSorted paths)
    (hclosed : ∀ p ∈ paths, ∀ dir, dir <+: p → dir ≠ [] → dir ∈ paths) :
    paths.Pairwise (· < ·) := by
  rw [List.pairwise_iff_getElem]
  intro i j hi hj hij
  have hp : paths[i]? = some paths[i] := List.getElem?_eq_getElem hi
  have hq : paths[j]? = some paths[j] := List.getElem?_eq_getElem hj
  obtain hpq | hqp | ⟨dir, x, y, r, s, hne, heqp, heqq⟩ := isPrefix_or_part paths[i] paths[j]
  · refine lt_of_leads hpq fun heq => ?_
    exact h.not_leads hij hp hq (heq ▸ List.prefix_rfl)
  · exact absurd hqp (h.not_leads hij hp hq)
  · have hchild : ∀ z t, dir ++ z :: t ∈ paths → dir ++ [z] ∈ paths := fun z t hmem =>
      hclosed _ hmem _ (prefix_of_child dir z t) (by simp)
    obtain ⟨k, hx⟩ := List.mem_iff_getElem?.mp
      (hchild x r (heqp ▸ List.getElem_mem hi))
    obtain ⟨l, hy⟩ := List.mem_iff_getElem?.mp
      (hchild y s (heqq ▸ List.getElem_mem hj))
    have hkl : k < l := h.children hne hij (heqp ▸ hp) (heqq ▸ hq) hx hy
    obtain ⟨hk, hxk⟩ := List.getElem?_eq_some_iff.mp hx
    obtain ⟨hl, hyl⟩ := List.getElem?_eq_some_iff.mp hy
    have hle : x ≤ y :=
      List.pairwise_iff_getElem.mp hsiblings k l hk hl hkl dir x y hxk hyl
    rw [heqp, heqq]
    exact lt_of_part (lt_of_le_of_ne hle hne)

/-- Conversely, paths in lexicographic order are those of such a walk. -/
theorem DepthFirst.of_sorted (h : paths.Pairwise (· < ·)) : DepthFirst paths where
  above := h.imp fun {p q} hlt hqp => by
    obtain rfl | hne := eq_or_ne q p
    · exact lt_irrefl _ hlt
    · exact lt_asymm hlt (lt_of_leads hqp hne)
  row := fun i j k p q r hij hjk hp hq hr hpr => by
    obtain ⟨hi, rfl⟩ := List.getElem?_eq_some_iff.mp hp
    obtain ⟨hj, rfl⟩ := List.getElem?_eq_some_iff.mp hq
    obtain ⟨hk, rfl⟩ := List.getElem?_eq_some_iff.mp hr
    obtain ⟨s, hs⟩ := hpr
    have hlt := List.pairwise_iff_getElem.mp h
    exact prefix_of_between (hlt i j hi hj hij) (hs ▸ hlt j k hj hk hjk)

theorem SiblingsSorted.of_sorted (h : paths.Pairwise (· < ·)) : SiblingsSorted paths := by
  refine h.imp fun {p q} hlt dir x y hp hq => ?_
  by_contra hyx
  rw [hp, hq] at hlt
  exact lt_asymm hlt (lt_of_part (lt_of_not_ge hyx))

end Sorted

end Library

end RustSak
