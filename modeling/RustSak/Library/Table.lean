import Mathlib.Data.List.AList

/-!
# Finite tables

A finite table is an association list without repeated keys, Mathlib's `AList`
at a constant value type. Mathlib has the lookups after an insertion and an
erasure by cases on the key; here they are stated once as a choice on the key,
and the filtering pass `retain` is added.
-/

namespace RustSak

namespace Library

/-- A finite map from keys to values. -/
abbrev Table (κ β : Type*) := AList fun _ : κ => β

namespace Table

variable {κ β : Type*} [DecidableEq κ]

theorem lookup_insert (t : Table κ β) (k k' : κ) (v : β) :
    (t.insert k v).lookup k' = if k' = k then some v else t.lookup k' := by
  by_cases h : k' = k
  · subst h
    rw [AList.lookup_insert, if_pos rfl]
  · rw [AList.lookup_insert_ne h, if_neg h]

theorem lookup_erase (t : Table κ β) (k k' : κ) :
    (t.erase k).lookup k' = if k' = k then none else t.lookup k' := by
  by_cases h : k' = k
  · subst h
    rw [AList.lookup_erase, if_pos rfl]
  · rw [AList.lookup_erase_ne h, if_neg h]

/-- The entry of a key stands before the others, up to order. -/
theorem entries_perm {t : Table κ β} {k : κ} {v : β} (h : t.lookup k = some v) :
    t.entries.Perm (⟨k, v⟩ :: (t.erase k).entries) := by
  have hmem := AList.mem_lookup_iff.mp h
  obtain ⟨v', before, after, -, hentries, herase⟩ :=
    List.exists_of_kerase (List.mem_keys_of_mem hmem)
  have hmem' : ⟨k, v'⟩ ∈ t.entries := by
    rw [hentries]
    simp
  have hv : v' = v := t.nodupKeys.eq_of_mk_mem hmem' hmem
  subst hv
  have hkerase : (t.erase k).entries = before ++ after := herase
  rw [hentries, hkerase]
  exact List.perm_middle

/-- The entries that `keep` accepts. -/
def retain (keep : κ → β → Bool) (t : Table κ β) : Table κ β where
  entries := t.entries.filter fun e => keep e.1 e.2
  nodupKeys := t.nodupKeys.sublist List.filter_sublist

omit [DecidableEq κ] in
@[simp] theorem entries_retain (keep : κ → β → Bool) (t : Table κ β) :
    (retain keep t).entries = t.entries.filter fun e => keep e.1 e.2 := rfl

theorem mem_lookup_retain (keep : κ → β → Bool) (t : Table κ β) (k : κ) (v : β) :
    v ∈ (retain keep t).lookup k ↔ v ∈ t.lookup k ∧ keep k v = true := by
  rw [AList.mem_lookup_iff, AList.mem_lookup_iff, entries_retain,
    List.mem_filter]

/-- A pass that refuses nothing changes nothing. -/
theorem retain_eq_self (keep : κ → β → Bool) (t : Table κ β)
    (h : ∀ k v, v ∈ t.lookup k → keep k v = true) : retain keep t = t := by
  apply AList.ext
  rw [entries_retain, List.filter_eq_self]
  intro e he
  exact h e.1 e.2 (AList.mem_lookup_iff.mpr he)

omit [DecidableEq κ] in
theorem retain_retain (keep keep' : κ → β → Bool) (t : Table κ β) :
    retain keep (retain keep' t) = retain (fun k v => keep k v && keep' k v) t := by
  apply AList.ext
  rw [entries_retain, entries_retain, entries_retain, List.filter_filter]

omit [DecidableEq κ] in
theorem retain_comm (keep keep' : κ → β → Bool) (t : Table κ β) :
    retain keep (retain keep' t) = retain keep' (retain keep t) := by
  rw [retain_retain, retain_retain]
  simp only [Bool.and_comm]

/-- Every value, through `f`. -/
def map {γ : Type*} (f : β → γ) (t : Table κ β) : Table κ γ where
  entries := t.entries.map fun e => ⟨e.1, f e.2⟩
  nodupKeys := by
    have hkeys : (t.entries.map fun e => (⟨e.1, f e.2⟩ : Sigma fun _ : κ => γ)).keys =
        t.entries.keys := by
      rw [List.keys, List.map_map]
      rfl
    rw [List.NodupKeys, hkeys]
    exact t.nodupKeys

theorem lookup_map {γ : Type*} (f : β → γ) (t : Table κ β) (k : κ) :
    (map f t).lookup k = (t.lookup k).map f := by
  change List.dlookup k (t.entries.map fun e => (⟨e.1, f e.2⟩ : Sigma fun _ : κ => γ)) =
    (List.dlookup k t.entries).map f
  induction t.entries with
  | nil => rfl
  | cons e es ih =>
      obtain ⟨k', v⟩ := e
      by_cases hk : k = k'
      · subst hk
        rw [List.map_cons, List.dlookup_cons_eq, List.dlookup_cons_eq, Option.map_some]
      · rw [List.map_cons, List.dlookup_cons_ne _ _ hk, List.dlookup_cons_ne _ _ hk, ih]

/-- Erasing a key from entries that hold it at most once leaves the others. -/
theorem kerase_eq_filter (k : κ) {es : List (Sigma fun _ : κ => β)}
    (h : es.NodupKeys) : es.kerase k = es.filter fun e => decide (e.1 ≠ k) := by
  induction es with
  | nil => rfl
  | cons e es ih =>
      obtain ⟨hnot, hes⟩ := List.nodupKeys_cons.mp h
      by_cases hk : k = e.1
      · rw [List.kerase_cons_eq hk, List.filter_cons_of_neg (by simp [hk]), eq_comm,
          List.filter_eq_self]
        intro e' he'
        have hne : e'.1 ≠ k := by
          rintro rfl
          exact hnot (hk ▸ List.mem_keys_of_mem he')
        simpa using hne
      · rw [List.kerase_cons_ne hk, List.filter_cons_of_pos (by simpa using Ne.symm hk),
          ih hes]

theorem retain_erase (keep : κ → β → Bool) (t : Table κ β) (k : κ) :
    retain keep (t.erase k) = (retain keep t).erase k := by
  apply AList.ext
  have hleft : (t.erase k).entries = t.entries.filter fun e => decide (e.1 ≠ k) :=
    kerase_eq_filter k t.nodupKeys
  have hright : ((retain keep t).erase k).entries =
      (retain keep t).entries.filter fun e => decide (e.1 ≠ k) :=
    kerase_eq_filter k (retain keep t).nodupKeys
  rw [entries_retain, hleft, hright, entries_retain, List.filter_filter,
    List.filter_filter]
  exact List.filter_congr fun e _ => Bool.and_comm _ _

theorem retain_insert (keep : κ → β → Bool) (t : Table κ β) (k : κ) (v : β) :
    retain keep (t.insert k v) =
      if keep k v = true then (retain keep t).insert k v
      else (retain keep t).erase k := by
  have herase := congrArg AList.entries (retain_erase keep t k)
  have hentries : (retain keep (t.insert k v)).entries =
      if keep k v = true then ⟨k, v⟩ :: (retain keep (t.erase k)).entries
      else (retain keep (t.erase k)).entries := by
    change List.filter (fun e : Sigma fun _ : κ => β => keep e.1 e.2)
      (⟨k, v⟩ :: (t.erase k).entries) = _
    rw [List.filter_cons]
    rfl
  apply AList.ext
  rw [hentries, herase]
  split
  · rfl
  · rfl

end Table

end Library

end RustSak
