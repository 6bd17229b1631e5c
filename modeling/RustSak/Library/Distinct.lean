import Mathlib.Data.List.Basic
import Mathlib.Data.List.Induction
import Mathlib.Data.List.Sort

/-!
# Lists without repeats

A loop that appends what its list does not hold yet keeps each element at its first place.
The list that such a loop ends with is the only one without repeats that has the elements
of the input in the order of their first occurrences.
-/

namespace RustSak

namespace Library

variable {α : Type*} [DecidableEq α]

/-- `x` after `kept`, unless it is there. -/
def pushNew (kept : List α) (x : α) : List α := if x ∈ kept then kept else kept ++ [x]

/-- Each of `xs` in turn after `kept`, unless it is there by then. -/
def pushAll (kept xs : List α) : List α := xs.foldl pushNew kept

@[simp] theorem pushAll_nil (kept : List α) : pushAll kept [] = kept := rfl

@[simp] theorem pushAll_cons (kept : List α) (x : α) (xs : List α) :
    pushAll kept (x :: xs) = pushAll (pushNew kept x) xs := rfl

theorem pushAll_append (kept xs ys : List α) :
    pushAll kept (xs ++ ys) = pushAll (pushAll kept xs) ys :=
  List.foldl_append

theorem mem_pushNew {kept : List α} {x y : α} : y ∈ pushNew kept x ↔ y ∈ kept ∨ y = x := by
  unfold pushNew
  split
  next hx =>
    constructor
    · exact Or.inl
    · rintro (hy | rfl)
      · exact hy
      · exact hx
  next => simp

/-- Appending what passes a test and is new is appending what is new of what passes. -/
theorem foldl_filter_pushNew (p : α → Bool) (kept xs : List α) :
    xs.foldl (fun kept x => if p x && !decide (x ∈ kept) then kept ++ [x] else kept) kept =
      pushAll kept (xs.filter p) := by
  induction xs generalizing kept with
  | nil => rfl
  | cons x xs ih =>
      rw [List.foldl_cons, ih, List.filter_cons]
      by_cases hp : p x
      · by_cases hx : x ∈ kept <;> simp [hp, hx, pushNew]
      · simp [hp]

/-- The elements of `xs`, none twice, in the order of their first occurrences. -/
structure Firsts (xs firsts : List α) : Prop where
  mem : ∀ x, x ∈ firsts ↔ x ∈ xs
  order : firsts.Pairwise fun x y => xs.idxOf x < xs.idxOf y

/-- One element more at the end comes last, if it is new. -/
theorem Firsts.pushNew {xs firsts : List α} (h : Firsts xs firsts) (x : α) :
    Firsts (xs ++ [x]) (pushNew firsts x) := by
  have hidx : ∀ y ∈ firsts, (xs ++ [x]).idxOf y = xs.idxOf y := fun y hy =>
    List.idxOf_append_of_mem ((h.mem y).mp hy)
  have horder : firsts.Pairwise fun y z => (xs ++ [x]).idxOf y < (xs ++ [x]).idxOf z := by
    refine h.order.imp_of_mem fun hy hz hlt => ?_
    rwa [hidx _ hy, hidx _ hz]
  refine ⟨fun y => by rw [mem_pushNew, h.mem y]; simp, ?_⟩
  unfold Library.pushNew
  split
  next => exact horder
  next hx =>
    refine List.pairwise_append.mpr ⟨horder, List.pairwise_singleton _ x, ?_⟩
    intro y hy z hz
    have hzx : z = x := List.mem_singleton.mp hz
    have hxs : x ∉ xs := fun hmem => hx ((h.mem x).mpr hmem)
    have hlt : xs.idxOf y < xs.length := List.idxOf_lt_length_iff.mpr ((h.mem y).mp hy)
    rw [hidx y hy, hzx, List.idxOf_append_of_notMem hxs]
    exact Nat.lt_of_lt_of_le hlt (Nat.le_add_right _ _)

theorem firsts_pushAll_append {seen firsts : List α} (h : Firsts seen firsts) (xs : List α) :
    Firsts (seen ++ xs) (pushAll firsts xs) := by
  induction xs generalizing seen firsts with
  | nil => simpa using h
  | cons x xs ih => simpa using ih (h.pushNew x)

/-- The loop keeps each element at its first place. -/
theorem firsts_pushAll (xs : List α) : Firsts xs (pushAll [] xs) :=
  firsts_pushAll_append ⟨fun _ => Iff.rfl, List.Pairwise.nil⟩ xs

/-! ## Repeats of a key -/

section Key

variable {α β : Type*} {key : α → β}

variable (key) in
/-- `x` after `kept`, unless something with its key is there. -/
def pushNewBy [DecidableEq β] (kept : List α) (x : α) : List α :=
  if key x ∈ kept.map key then kept else kept ++ [x]

variable (key) in
/-- The elements of `xs` whose key none before them has, in their order. -/
structure FirstsBy (xs firsts : List α) : Prop where
  sublist : firsts.Sublist xs
  distinct : firsts.Pairwise fun x y => key x ≠ key y
  key_mem : ∀ x ∈ xs, key x ∈ firsts.map key
  first : ∀ before x after, xs = before ++ x :: after → key x ∉ before.map key → x ∈ firsts

theorem firstsBy_nil : FirstsBy key [] [] where
  sublist := .slnil
  distinct := .nil
  key_mem _ hx := absurd hx List.not_mem_nil
  first before x after h := by simp at h

theorem subset_pushNewBy [DecidableEq β] (kept : List α) (x : α) : kept ⊆ pushNewBy key kept x := by
  unfold pushNewBy
  split
  · exact List.Subset.refl kept
  · exact List.subset_append_left kept [x]

theorem FirstsBy.pushNewBy [DecidableEq β] {xs firsts : List α} (h : FirstsBy key xs firsts)
    (x : α) :
    FirstsBy key (xs ++ [x]) (pushNewBy key firsts x) := by
  have hkeys : ∀ y ∈ xs ++ [x], key y ∈ (Library.pushNewBy key firsts x).map key := by
    intro y hy
    rcases List.mem_append.mp hy with hy | hy
    · exact List.map_subset key (subset_pushNewBy firsts x) (h.key_mem y hy)
    · rw [List.mem_singleton.mp hy]
      unfold Library.pushNewBy
      split
      next hx => exact hx
      next => simp
  have hfirst : ∀ before y after, xs ++ [x] = before ++ y :: after → key y ∉ before.map key →
      y ∈ Library.pushNewBy key firsts x := by
    intro before y after hxs hy
    rcases List.eq_nil_or_concat after with rfl | ⟨after, z, rfl⟩
    · obtain ⟨rfl, hyx⟩ := List.append_inj' hxs rfl
      obtain rfl := (List.cons.inj hyx).1
      have hnew : key x ∉ firsts.map key := fun hmem =>
        hy (List.map_subset key h.sublist.subset hmem)
      rw [Library.pushNewBy, if_neg hnew]
      exact List.mem_append_right _ (List.mem_singleton_self x)
    · rw [List.concat_eq_append, ← List.cons_append, ← List.append_assoc] at hxs
      obtain ⟨rfl, -⟩ := List.append_inj' hxs rfl
      exact subset_pushNewBy firsts x (h.first before y after rfl hy)
  refine ⟨?_, ?_, hkeys, hfirst⟩
  · unfold Library.pushNewBy
    split
    · exact h.sublist.trans (List.sublist_append_left xs [x])
    · exact h.sublist.append (List.Sublist.refl [x])
  · unfold Library.pushNewBy
    split
    next => exact h.distinct
    next hx =>
      refine List.pairwise_append.mpr ⟨h.distinct, List.pairwise_singleton _ x, ?_⟩
      intro y hy z hz heq
      rw [List.mem_singleton.mp hz] at heq
      exact hx (heq ▸ List.mem_map_of_mem hy)

/-- Appending what passes a test and whose key is new keeps the first of each key of what
passes. -/
theorem firstsBy_foldl [DecidableEq β] (p : α → Bool) (xs : List α) :
    FirstsBy key (xs.filter p)
      (xs.foldl (fun kept x => if p x then pushNewBy key kept x else kept) []) := by
  induction xs using List.reverseRecOn with
  | nil => exact firstsBy_nil
  | append_singleton xs x ih =>
      rw [List.foldl_concat, List.filter_append]
      cases hx : p x with
      | true => simpa [hx] using ih.pushNewBy x
      | false => simpa [hx] using ih

/-- A test of the key can be made before or after. -/
theorem FirstsBy.filter {xs firsts : List α} (h : FirstsBy key xs firsts) {p : α → Bool}
    (hp : ∀ x y, key x = key y → p x = p y) :
    FirstsBy key (xs.filter p) (firsts.filter p) := by
  refine ⟨h.sublist.filter p, h.distinct.filter p, ?_, ?_⟩
  · intro x hx
    obtain ⟨hx, hpx⟩ := List.mem_filter.mp hx
    obtain ⟨y, hy, hyx⟩ := List.mem_map.mp (h.key_mem x hx)
    exact List.mem_map.mpr ⟨y, List.mem_filter.mpr ⟨hy, (hp y x hyx).trans hpx⟩, hyx⟩
  · intro before x after hxs hx
    obtain ⟨left, right, rfl, rfl, hright⟩ := List.filter_eq_append_iff.mp hxs
    obtain ⟨skipped, rest, rfl, hskipped, hpx, -⟩ := List.filter_eq_cons_iff.mp hright
    refine List.mem_filter.mpr ⟨h.first (left ++ skipped) x rest (by simp) ?_, hpx⟩
    intro hmem
    obtain ⟨y, hy, hyx⟩ := List.mem_map.mp hmem
    have hpy : p y = true := (hp y x hyx).trans hpx
    rcases List.mem_append.mp hy with hy | hy
    · exact hx (List.mem_map.mpr ⟨y, List.mem_filter.mpr ⟨hy, hpy⟩, hyx⟩)
    · exact hskipped y hy hpy

/-- What comes behind may have lost its repeats before. -/
theorem FirstsBy.append_firsts {xs firsts ys zs : List α} (h : FirstsBy key xs firsts)
    (hzs : FirstsBy key (ys ++ firsts) zs) : FirstsBy key (ys ++ xs) zs := by
  refine ⟨hzs.sublist.trans (h.sublist.append_left ys), hzs.distinct, ?_, ?_⟩
  · intro x hx
    rcases List.mem_append.mp hx with hx | hx
    · exact hzs.key_mem x (List.mem_append_left _ hx)
    · obtain ⟨y, hy, hyx⟩ := List.mem_map.mp (h.key_mem x hx)
      exact hyx ▸ hzs.key_mem y (List.mem_append_right _ hy)
  · intro before x after hxs hx
    -- One of `xs`, and the first of them with its key.
    have hinner : ∀ left, before = ys ++ left → xs = left ++ x :: after → x ∈ zs := by
      rintro left rfl hleft
      rw [List.map_append, List.mem_append, not_or] at hx
      obtain ⟨front, back, hfirsts⟩ := List.append_of_mem (h.first left x after hleft hx.2)
      refine hzs.first (ys ++ front) x back (by rw [hfirsts, List.append_assoc]) ?_
      rw [List.map_append, List.mem_append, not_or]
      refine ⟨hx.1, fun hmem => ?_⟩
      obtain ⟨y, hy, hyx⟩ := List.mem_map.mp hmem
      have hdistinct := h.distinct
      rw [hfirsts] at hdistinct
      exact (List.pairwise_append.mp hdistinct).2.2 y hy x List.mem_cons_self hyx
    rcases List.append_eq_append_iff.mp hxs with ⟨left, hbefore, hleft⟩ | ⟨left, hys, hright⟩
    · exact hinner left hbefore hleft
    · cases left with
      | nil => exact hinner [] (by simpa using hys.symm) hright.symm
      | cons y left =>
          obtain ⟨rfl, -⟩ := List.cons.inj hright
          exact hzs.first before x (left ++ firsts) (by rw [hys]; simp) hx

end Key

end Library

end RustSak
