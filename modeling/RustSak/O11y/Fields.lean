import RustSak.O11y.Record

/-!
# Fields as maps

Fields are a list, in which a key should stand once. Setting a field replaces what
is under its key, adding the missing ones keeps it; either way the keys stay apart.
-/

namespace RustSak

namespace O11y

namespace Fields

variable {υ : Type}

def keys (fields : Fields υ) : List String := fields.map Prod.fst

/-- Sets one field after the other. -/
def setAll (added fields : Fields υ) : Fields υ :=
  added.foldl (fun fields field => SpanState.setField field.1 field.2 fields) fields

/-- Adds at the end the fields whose key is not there yet. -/
def addMissing (added fields : Fields υ) : Fields υ :=
  added.foldl
    (fun fields field =>
      if fields.any (·.1 == field.1) then fields else fields ++ [field])
    fields

theorem setAll_cons (field : String × υ) (added fields : Fields υ) :
    setAll (field :: added) fields =
      setAll added (SpanState.setField field.1 field.2 fields) := rfl

theorem addMissing_cons (field : String × υ) (added fields : Fields υ) :
    addMissing (field :: added) fields =
      addMissing added
        (if fields.any (·.1 == field.1) then fields else fields ++ [field]) := rfl

theorem lookup_cons (key : String) (value : υ) (fields : Fields υ) (k : String) :
    List.lookup k ((key, value) :: fields) =
      if k = key then some value else fields.lookup k := by
  rw [List.lookup_cons]
  by_cases hk : k = key
  · simp [hk]
  · simp [hk, beq_eq_false_iff_ne.mpr hk]

theorem lookup_eq_none {fields : Fields υ} {k : String} :
    fields.lookup k = none ↔ k ∉ fields.keys := by
  simp only [List.lookup_eq_none_iff, keys, List.mem_map, not_exists, not_and,
    bne_iff_ne, ne_eq]
  exact ⟨fun h field hmem heq => h field hmem heq.symm,
    fun h field hmem heq => h field hmem heq.symm⟩

theorem nodup_concat {fields : Fields υ} {key : String} (h : fields.keys.Nodup)
    (hkey : key ∉ fields.keys) : (fields.keys ++ [key]).Nodup :=
  List.nodup_append.mpr ⟨h, List.nodup_singleton key, fun _ ha _ hb heq =>
    hkey (List.mem_singleton.mp hb ▸ heq ▸ ha)⟩

theorem any_eq_true {fields : Fields υ} {k : String} :
    fields.any (·.1 == k) = true ↔ k ∈ fields.keys := by
  simp [keys, List.any_eq_true]

/-! ## Setting -/

theorem lookup_setField (key : String) (value : υ) (fields : Fields υ) (k : String) :
    (SpanState.setField key value fields).lookup k =
      if k = key then some value else fields.lookup k := by
  induction fields with
  | nil =>
      rw [SpanState.setField, lookup_cons]
  | cons field rest ih =>
      obtain ⟨existing, old⟩ := field
      rw [SpanState.setField]
      by_cases he : existing = key
      · subst he
        rw [if_pos rfl, lookup_cons, lookup_cons]
        split
        · rfl
        · rfl
      · rw [if_neg he, lookup_cons, lookup_cons, ih]
        by_cases hk : k = existing
        · subst hk
          rw [if_pos rfl, if_neg he, if_pos rfl]
        · rw [if_neg hk, if_neg hk]

theorem keys_setField (key : String) (value : υ) (fields : Fields υ) :
    keys (SpanState.setField key value fields) =
      if key ∈ keys fields then keys fields else keys fields ++ [key] := by
  induction fields with
  | nil => rfl
  | cons field rest ih =>
      obtain ⟨existing, old⟩ := field
      rw [SpanState.setField]
      by_cases he : existing = key
      · subst he
        have hmem : existing ∈ keys ((existing, old) :: rest) := List.mem_cons_self
        rw [if_pos rfl, if_pos hmem]
        rfl
      · rw [if_neg he]
        change existing :: keys (SpanState.setField key value rest) = _
        have hmem : key ∈ keys ((existing, old) :: rest) ↔ key ∈ keys rest :=
          ⟨fun h => (List.mem_cons.mp h).resolve_left fun h => he h.symm,
            List.mem_cons_of_mem _⟩
        rw [ih, if_congr hmem rfl rfl]
        split
        · rfl
        · rfl

theorem nodup_setField (key : String) (value : υ) {fields : Fields υ}
    (h : fields.keys.Nodup) : (keys (SpanState.setField key value fields)).Nodup := by
  rw [keys_setField]
  split
  · exact h
  · rename_i hkey
    exact nodup_concat h hkey

theorem nodup_setAll (added : Fields υ) {fields : Fields υ}
    (h : fields.keys.Nodup) : (setAll added fields).keys.Nodup := by
  induction added generalizing fields with
  | nil => exact h
  | cons field added ih => exact ih (nodup_setField _ _ h)

theorem keys_setAll (added fields : Fields υ) :
    fields.keys <+: (setAll added fields).keys := by
  induction added generalizing fields with
  | nil => exact List.prefix_rfl
  | cons field added ih =>
      rw [setAll_cons]
      refine List.IsPrefix.trans ?_ (ih _)
      rw [keys_setField]
      split
      · exact List.prefix_rfl
      · exact List.prefix_append _ _

theorem setAll_append (added more fields : Fields υ) :
    setAll (added ++ more) fields = setAll more (setAll added fields) :=
  List.foldl_append

theorem lookup_setAll_last (added fields : Fields υ) (k : String) :
    (setAll added fields).lookup k = (added.reverse.lookup k).or (fields.lookup k) := by
  induction added generalizing fields with
  | nil => rfl
  | cons field added ih =>
      rw [setAll_cons, ih, lookup_setField, List.reverse_cons, List.lookup_append,
        Option.or_assoc, lookup_cons, List.lookup_nil]
      split
      · rfl
      · rw [Option.none_or]

theorem lookup_reverse {fields : Fields υ} (h : fields.keys.Nodup) (k : String) :
    fields.reverse.lookup k = fields.lookup k := by
  induction fields with
  | nil => rfl
  | cons field fields ih =>
      obtain ⟨hkey, hrest⟩ := List.nodup_cons.mp h
      rw [List.reverse_cons, List.lookup_append, ih hrest, lookup_cons, lookup_cons,
        List.lookup_nil]
      split
      · rename_i hk
        rw [hk, lookup_eq_none.mpr hkey]
        rfl
      · rw [Option.or_none]

theorem lookup_setAll {added : Fields υ} (hadded : added.keys.Nodup)
    (fields : Fields υ) (k : String) :
    (setAll added fields).lookup k = (added.lookup k).or (fields.lookup k) := by
  rw [lookup_setAll_last, lookup_reverse hadded]

/-! ## Adding what is missing -/

/-- What is added comes at the end, and only under new keys. -/
theorem addMissing_spec (added fields : Fields υ) (h : fields.keys.Nodup) :
    ∃ extra, addMissing added fields = fields ++ extra ∧
      (keys (fields ++ extra)).Nodup ∧
      ∀ k, (fields ++ extra).lookup k = (fields.lookup k).or (added.lookup k) := by
  induction added generalizing fields with
  | nil => exact ⟨[], (List.append_nil fields).symm, by rwa [List.append_nil],
      fun k => by rw [List.append_nil, List.lookup_nil, Option.or_none]⟩
  | cons field added ih =>
      obtain ⟨key, value⟩ := field
      rw [addMissing_cons]
      by_cases hkey : key ∈ keys fields
      · rw [if_pos (any_eq_true.mpr hkey)]
        obtain ⟨extra, heq, hnodup, hlookup⟩ := ih fields h
        refine ⟨extra, heq, hnodup, fun k => ?_⟩
        rw [hlookup, lookup_cons]
        split
        · rename_i hk
          obtain ⟨old, hold⟩ : ∃ old, fields.lookup k = some old :=
            Option.ne_none_iff_exists'.mp fun hnone =>
              lookup_eq_none.mp hnone (hk ▸ hkey)
          rw [hold]
          rfl
        · rfl
      · rw [if_neg fun hany => hkey (any_eq_true.mp hany)]
        have hnodup : (keys (fields ++ [(key, value)])).Nodup := by
          rw [keys, List.map_append]
          exact nodup_concat h hkey
        obtain ⟨extra, heq, hnodup, hlookup⟩ := ih _ hnodup
        rw [List.append_assoc] at heq hnodup hlookup
        refine ⟨[(key, value)] ++ extra, heq, hnodup, fun k => ?_⟩
        rw [hlookup, List.lookup_append, Option.or_assoc, lookup_cons, lookup_cons]
        split
        · rfl
        · rw [List.lookup_nil, Option.none_or]

end Fields

end O11y

end RustSak
