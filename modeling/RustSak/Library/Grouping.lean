import Mathlib.Data.List.FinRange
import Mathlib.Data.List.Perm.Basic

/-!
# Grouping a list by a key

`groups` has a group for each key that comes up in a list, in the order in which they
first do, and in it what has that key, in the order of the list. An element that comes
after the list joins its group or begins one, which is what a loop over the list does.
Every position of the list is in one group (`place`), and every group is what is at its
positions.
-/

namespace RustSak

namespace Library

namespace Grouping

variable {α κ : Type*} [DecidableEq κ]

theorem nodup_eraseDups (ks : List κ) : ks.eraseDups.Nodup := by
  induction hlength : ks.length using Nat.strong_induction_on generalizing ks with
  | h n ih =>
    cases ks with
    | nil => simp
    | cons k ks =>
      have hle := List.length_filter_le (fun k' => !k' == k) ks
      have hlt : (ks.filter fun k' => !k' == k).length < n :=
        hlength ▸ Nat.lt_succ_of_le hle
      rw [List.eraseDups_cons, List.nodup_cons, List.mem_eraseDups]
      exact ⟨by simp, ih _ hlt _ rfl⟩

variable (key : α → κ)

/-- The keys of a list, in the order in which they first come up. -/
def keys (xs : List α) : List κ := (xs.map key).eraseDups

def groups (xs : List α) : List (κ × List α) :=
  (keys key xs).map fun k => (k, xs.filter fun x => key x = k)

variable {key} {xs : List α} {x : α} {k : κ}

@[simp] theorem mem_keys : k ∈ keys key xs ↔ ∃ x ∈ xs, key x = k := by
  rw [keys, List.mem_eraseDups, List.mem_map]

theorem key_mem_keys (h : x ∈ xs) : key x ∈ keys key xs :=
  mem_keys.mpr ⟨x, h, rfl⟩

variable (key xs) in
theorem nodup_keys : (keys key xs).Nodup := nodup_eraseDups _

/-! ## One more element -/

theorem keys_concat_of_mem (h : key x ∈ keys key xs) : keys key (xs ++ [x]) = keys key xs := by
  have hmem : key x ∈ xs.map key := List.mem_eraseDups.mp h
  have hnone : [key x].removeAll (xs.map key) = [] := by
    simpa [List.removeAll] using hmem
  rw [keys, List.map_append, List.eraseDups_append, List.map_singleton, hnone,
    List.eraseDups_nil, List.append_nil, keys]

theorem keys_concat_of_notMem (h : key x ∉ keys key xs) :
    keys key (xs ++ [x]) = keys key xs ++ [key x] := by
  have hmem : key x ∉ xs.map key := fun hmem => h (List.mem_eraseDups.mpr hmem)
  have hself : [key x].removeAll (xs.map key) = [key x] := by
    simpa [List.removeAll] using hmem
  rw [keys, List.map_append, List.eraseDups_append, List.map_singleton, hself,
    List.eraseDups_cons, List.filter_nil, List.eraseDups_nil, keys]

/-- The element joins the group of its key. -/
theorem groups_concat_of_mem (h : key x ∈ keys key xs) : groups key (xs ++ [x]) =
    (groups key xs).map fun group =>
      if group.1 = key x then (group.1, group.2 ++ [x]) else group := by
  rw [groups, groups, keys_concat_of_mem h, List.map_map]
  refine List.map_congr_left fun k _ => ?_
  by_cases hk : k = key x
  · simp [hk]
  · simp [hk, Ne.symm hk]

/-- The element begins a group. -/
theorem groups_concat_of_notMem (h : key x ∉ keys key xs) :
    groups key (xs ++ [x]) = groups key xs ++ [(key x, [x])] := by
  have hnone : xs.filter (fun y => key y = key x) = [] := by
    rw [List.filter_eq_nil_iff]
    intro y hy hkey
    exact h (mem_keys.mpr ⟨y, hy, of_decide_eq_true hkey⟩)
  have hold : ∀ k ∈ keys key xs, (k, (xs ++ [x]).filter fun y => key y = k) =
      (k, xs.filter fun y => key y = k) := by
    intro k hk
    have hne : key x ≠ k := by
      rintro rfl
      exact h hk
    simp [hne]
  rw [groups, keys_concat_of_notMem h, List.map_append, List.map_congr_left hold, groups,
    List.map_singleton, List.filter_append, hnone]
  simp

/-! ## What is in the groups -/

variable (key xs) in
theorem map_fst_groups : (groups key xs).map Prod.fst = keys key xs := by
  rw [groups, List.map_map]
  exact List.map_id _

theorem mem_groups {group : κ × List α} : group ∈ groups key xs ↔
    group.1 ∈ keys key xs ∧ group.2 = xs.filter fun x => key x = group.1 := by
  rw [groups, List.mem_map]
  constructor
  · rintro ⟨k, hk, rfl⟩
    exact ⟨hk, rfl⟩
  · rintro ⟨hk, hmembers⟩
    exact ⟨group.1, hk, Prod.ext rfl hmembers.symm⟩

theorem key_of_mem {group : κ × List α} (h : group ∈ groups key xs) (hx : x ∈ group.2) :
    key x = group.1 := by
  rw [(mem_groups.mp h).2] at hx
  exact of_decide_eq_true (List.mem_filter.mp hx).2

theorem ne_nil_of_mem_groups {group : κ × List α} (h : group ∈ groups key xs) :
    group.2 ≠ [] := by
  obtain ⟨hkey, hmembers⟩ := mem_groups.mp h
  obtain ⟨x, hx, hkey⟩ := mem_keys.mp hkey
  rw [hmembers]
  exact List.ne_nil_of_mem (List.mem_filter.mpr ⟨hx, decide_eq_true hkey⟩)

variable (key) in
/-- The elements with one of the keys, taken key by key. -/
theorem flatMap_filter_perm {ks : List κ} (h : ks.Nodup) (xs : List α) :
    (ks.flatMap fun k => xs.filter fun x => key x = k).Perm
      (xs.filter fun x => key x ∈ ks) := by
  induction ks with
  | nil => simp
  | cons k ks ih =>
    obtain ⟨hk, hks⟩ := List.nodup_cons.mp h
    have hfirst : (xs.filter fun x => key x ∈ k :: ks).filter (fun x => key x = k) =
        xs.filter fun x => key x = k := by
      rw [List.filter_filter]
      refine List.filter_congr fun x _ => ?_
      by_cases hx : key x = k <;> simp [hx]
    have hrest : (xs.filter fun x => key x ∈ k :: ks).filter (fun x => !decide (key x = k)) =
        xs.filter fun x => key x ∈ ks := by
      rw [List.filter_filter]
      refine List.filter_congr fun x _ => ?_
      by_cases hx : key x = k
      · simp [hx, hk]
      · simp [hx]
    have hsplit := List.filter_append_perm (fun x => decide (key x = k))
      (xs.filter fun x => key x ∈ k :: ks)
    rw [hfirst, hrest] at hsplit
    rw [List.flatMap_cons]
    exact ((ih hks).append_left _).trans hsplit

variable (key xs) in
/-- Nothing is lost and nothing comes twice. -/
theorem flatMap_groups_perm : ((groups key xs).flatMap Prod.snd).Perm xs := by
  have hall : xs.filter (fun x => key x ∈ keys key xs) = xs :=
    List.filter_eq_self.mpr fun x hx => decide_eq_true (key_mem_keys hx)
  have hperm := flatMap_filter_perm key (nodup_keys key xs) xs
  rw [hall] at hperm
  rwa [groups, List.flatMap_map]

/-! ## The group of a position -/

section Place

variable (key xs)

theorem length_groups : (groups key xs).length = (keys key xs).length :=
  List.length_map _

def place (i : Fin xs.length) : Fin (groups key xs).length :=
  ⟨(keys key xs).idxOf (key xs[i]),
    length_groups key xs ▸ List.idxOf_lt_length_iff.mpr (key_mem_keys (List.getElem_mem i.2))⟩

variable {key xs}

theorem place_eq_iff {i : Fin xs.length} {g : Fin (groups key xs).length} :
    place key xs i = g ↔ key xs[i] = (groups key xs)[g].1 := by
  have hg : g.1 < (keys key xs).length := length_groups key xs ▸ g.2
  have hgroup : (groups key xs)[g].1 = (keys key xs)[g.1] :=
    congrArg Prod.fst (List.getElem_map _)
  have hmem : key xs[i] ∈ keys key xs := key_mem_keys (List.getElem_mem i.2)
  rw [Fin.ext_iff, hgroup]
  constructor
  · intro h
    have hget := List.getElem_idxOf (List.idxOf_lt_length_iff.mpr hmem)
    rw [← hget]
    exact getElem_congr_idx h
  · intro h
    change (keys key xs).idxOf (key xs[i]) = g.1
    rw [h]
    exact (nodup_keys key xs).idxOf_getElem g.1 hg

theorem place_eq_place {i j : Fin xs.length} :
    place key xs i = place key xs j ↔ key xs[i] = key xs[j] := by
  rw [place_eq_iff, ← place_eq_iff.mp (rfl : place key xs j = place key xs j)]

/-- A group is what is at its positions, in their order. -/
theorem members_eq (g : Fin (groups key xs).length) : (groups key xs)[g].2 =
    ((List.finRange xs.length).filter fun i => place key xs i = g).map xs.get := by
  have hmembers := (mem_groups.mp (List.getElem_mem g.2)).2
  have hplaces : ∀ i ∈ List.finRange xs.length, decide (place key xs i = g) =
      ((fun x => decide (key x = (groups key xs)[g].1)) ∘ xs.get) i := by
    intro i _
    exact decide_eq_decide.mpr place_eq_iff
  rw [List.filter_congr hplaces, ← List.filter_map, List.map_get_finRange]
  exact hmembers

end Place

/-! ## A list in parts -/

/-- The parts are the classes of `same` on the positions of the list. -/
structure Partitions (same : α → α → Prop) (xs : List α) (parts : List (List α)) : Prop where
  /-- Every element is in the parts once. -/
  perm : parts.flatten.Perm xs
  ne_nil : ∀ part ∈ parts, part ≠ []
  sublist : ∀ part ∈ parts, part.Sublist xs
  /-- A part is what is at the positions that go to it. -/
  place : ∃ place : Fin xs.length → Fin parts.length,
    (∀ p, parts[p] = ((List.finRange xs.length).filter fun i => place i = p).map xs.get) ∧
    ∀ i j, place i = place j ↔ same xs[i] xs[j]

variable (key xs) in
theorem groups_partitions :
    Partitions (fun x y => key x = key y) xs ((groups key xs).map Prod.snd) := by
  have hlength : ((groups key xs).map Prod.snd).length = (groups key xs).length :=
    List.length_map _
  have hmembers : ∀ part ∈ (groups key xs).map Prod.snd, part ≠ [] ∧ part.Sublist xs := by
    intro part hpart
    obtain ⟨group, hgroup, rfl⟩ := List.mem_map.mp hpart
    refine ⟨ne_nil_of_mem_groups hgroup, ?_⟩
    rw [(mem_groups.mp hgroup).2]
    exact List.filter_sublist
  refine ⟨?_, fun part hpart => (hmembers part hpart).1, fun part hpart => (hmembers part hpart).2,
    fun i => (place key xs i).cast hlength.symm, ?_, ?_⟩
  · exact List.flatMap_def ▸ flatMap_groups_perm key xs
  · intro p
    have hpart := members_eq (p.cast hlength)
    have hget : ((groups key xs).map Prod.snd)[p] = (groups key xs)[p.cast hlength].2 :=
      List.getElem_map _
    rw [hget, hpart]
    refine congrArg _ (List.filter_congr fun i _ => decide_eq_decide.mpr ?_)
    rw [Fin.ext_iff, Fin.ext_iff]
    rfl
  · intro i j
    rw [Fin.cast_inj]
    exact place_eq_place

end Grouping

end Library

end RustSak
