import RustSak.O11y.SpanTree

/-!
# The walks up the tree

A span fits its opening if it holds what the history puts on it. Where the spans of
a scope fit the openings that the history has around them, each walk of the layer
finds what the history names, whatever the hooks did meanwhile.
-/

namespace RustSak

namespace O11y

namespace Tracing

open Library

variable {θ δ η : Type}

/-! ## Fields stay apart -/

theorem fields_keep (collected : Collect δ) (name : String) (value : Value δ) :
    (collected.keep name value).fields = collected.fields ∨
      (collected.keep name value).fields = collected.fields ++ [(name, value)] := by
  unfold Collect.keep
  split
  · split
    · exact .inl rfl
    · exact .inr rfl
  · exact .inr rfl

theorem keys_keep_sublist (collected : Collect δ) (name : String) (value : Value δ) :
    (collected.keep name value).fields.keys.Sublist
      (collected.fields.keys ++ [name]) := by
  rcases fields_keep collected name value with hkept | hadded
  · rw [hkept]
    exact List.sublist_append_left _ _
  · rw [hadded, Fields.keys, List.map_append]
    exact List.Sublist.refl _

theorem keys_record_sublist (values : List (String × Visited δ))
    (collected : Collect δ) :
    (collected.record values).fields.keys.Sublist
      (collected.fields.keys ++ values.map Prod.fst) := by
  induction values generalizing collected with
  | nil => exact List.sublist_append_left _ _
  | cons field values ih =>
      have hkeep := keys_keep_sublist collected field.1 field.2.value
      have hrest := ih (collected.keep field.1 field.2.value)
      have hall := hrest.trans (hkeep.append_right (values.map Prod.fst))
      rwa [List.append_assoc] at hall

theorem keys_mapFields_sublist [Formats δ] (layer : Layer δ)
    (fields : Fields (Value δ)) :
    (layer.mapFields fields).1.keys.Sublist fields.keys := by
  have hone : ∀ field mapped, layer.mapOne field = some mapped →
      mapped.1 = field.1 := by
    intro field mapped h
    unfold Layer.mapOne at h
    split at h
    · cases h
      rfl
    · obtain ⟨value, -, rfl⟩ := Option.map_eq_some_iff.mp h
      rfl
  change (List.map Prod.fst (fields.filterMap layer.mapOne)).Sublist _
  induction fields with
  | nil => exact List.Sublist.refl _
  | cons field fields ih =>
      cases h : layer.mapOne field with
      | none =>
          rw [List.filterMap_cons_none h]
          exact ih.cons _
      | some mapped =>
          rw [List.filterMap_cons_some h]
          have hfst := hone field mapped h
          rw [List.map_cons, hfst]
          exact ih.cons_cons _

theorem nodup_mapped [Formats δ] (layer : Layer δ) (values : Values δ)
    {collected : Collect δ} (h : collected.fields = []) :
    (layer.mapFields (collected.record values.fields).fields).1.keys.Nodup := by
  have hrecord := keys_record_sublist values.fields collected
  rw [h] at hrecord
  exact ((keys_mapFields_sublist layer _).trans hrecord).nodup values.nodup

/-! ## Going up -/

/-- Changing extensions moves no span. -/
theorem scope_map {f : Span δ η → Span δ η} (hid : ∀ span, (f span).id = span.id)
    (hparent : ∀ span, (f span).parent = span.parent) (spans : List (Span δ η))
    (id : Option Id) : scope (spans.map f) id = (scope spans id).map f := by
  induction spans generalizing id with
  | nil => rfl
  | cons span older ih =>
      rw [List.map_cons, scope, scope, hid, hparent, ih, ih]
      split
      · rfl
      · rfl

theorem visit_id (id : Id) (change : Extension δ η → Extension δ η)
    (span : Span δ η) : (visit id change span).id = span.id := by
  unfold visit
  split
  · rfl
  · rfl

theorem visit_parent (id : Id) (change : Extension δ η → Extension δ η)
    (span : Span δ η) : (visit id change span).parent = span.parent := by
  unfold visit
  split
  · rfl
  · rfl

theorem scope_subset (spans : List (Span δ η)) (id : Option Id) :
    scope spans id ⊆ spans := by
  induction spans generalizing id with
  | nil => exact List.Subset.refl _
  | cons span older ih =>
      rw [scope]
      split
      · exact List.cons_subset_cons _ (ih _)
      · exact List.subset_cons_of_subset _ (ih _)

/-- A span with none below it is on no other's way up. -/
theorem scope_close {spans : List (Span δ η)} {id : Id}
    (h : ∀ span ∈ spans, span.parent ≠ some id) (id' : Option Id) :
    scope (spans.filter (·.id != id)) id' =
      if id' = some id then [] else scope spans id' := by
  induction spans generalizing id' with
  | nil =>
      rw [List.filter_nil, scope]
      split
      · rfl
      · rfl
  | cons span older ih =>
      have holder : ∀ span ∈ older, span.parent ≠ some id :=
        fun span hspan => h span (List.mem_cons_of_mem _ hspan)
      have hparent := h span List.mem_cons_self
      by_cases hid : span.id = id
      · rw [List.filter_cons_of_neg (by simp [hid]), ih holder, scope, hid]
        split
        · rfl
        · rfl
      · rw [List.filter_cons_of_pos (by simp [hid]), scope, scope, ih holder,
          ih holder, if_neg hparent]
        by_cases heq : id' = some span.id
        · rw [if_pos heq, if_pos heq, if_neg fun h => hid (Option.some.inj (heq ▸ h))]
        · rw [if_neg heq, if_neg heq]

theorem head_scope (spans : List (Span δ η)) (id : Id) :
    (scope spans (some id)).head? = spans.find? (·.id == id) := by
  induction spans with
  | nil => rfl
  | cons span older ih =>
      rw [scope]
      by_cases hid : span.id = id
      · rw [if_pos (by rw [hid]), List.find?_cons_of_pos (by simp [hid])]
        rfl
      · rw [if_neg fun h => hid (Option.some.inj h).symm,
          List.find?_cons_of_neg (by simp [hid]), ih]

theorem around_close (es : List (Callback θ δ η)) (id : Id) (now : ℕ)
    (id' : Option Id) :
    around (.close id now :: es) id' = if id' = some id then [] else around es id' :=
  rfl

theorem around_newSpan (es : List (Callback θ δ η)) (a : Attributes θ δ η)
    (id : Option Id) :
    around (.newSpan a :: es) id =
      if id = some a.id then (a, es) :: around es a.parent else around es id := rfl

/-! ## What an open span holds -/

variable [DecidableEq θ] [Formats δ] {es : List (Callback θ δ η)}

/-- A folded span's fields as they stand after the history. -/
structure Keeps (past : List (Callback θ δ η)) (opening : Opening θ δ η)
    (kept : Fields (Value δ)) : Prop where
  nodup : kept.keys.Nodup
  lookup : ∀ key, kept.lookup key = lastRecorded past opening.1.id key

/-- The extension is the one the history asks for. -/
def Holds (past : List (Callback θ δ η)) (opening : Opening θ δ η) :
    Extension δ η → Prop
  | .exported owned => opening.1.folded = false ∧ Stands past opening owned
  | .folded kept => opening.1.folded = true ∧ Keeps past opening kept

def Fits (past : List (Callback θ δ η)) (span : Span δ η)
    (opening : Opening θ δ η) : Prop :=
  span.id = opening.1.id ∧ Holds past opening span.extension

/-- The context of an exported span. -/
def Opening.context (opening : Opening θ δ η) : Option SpanContext :=
  if opening.1.folded then none
  else some ⟨(placed opening.2 opening.1 (nearest opening.2 opening.1.parent)).1,
    opening.1.spanId⟩

omit [Formats δ] in
theorem nearest_eq_findSome (es : List (Callback θ δ η)) (id : Option Id) :
    nearest es id = (around es id).findSome? Opening.context := by
  induction es generalizing id with
  | nil => rfl
  | cons callback past ih =>
      cases callback with
      | newSpan a =>
          rw [nearest, around]
          split
          · rw [List.findSome?_cons, Opening.context]
            split
            · exact ih a.parent
            · rfl
          · exact ih id
      | close id' now =>
          rw [nearest, around]
          split
          · rfl
          · exact ih id
      | record r => exact ih id
      | followsFrom id' follows => exact ih id
      | event e => exact ih id
      | withParent t context => exact ih id
      | restore t => exact ih id
      | stack t stack => exact ih id

theorem Fits.context_eq {span : Span δ η} {opening : Opening θ δ η}
    (h : Fits es span opening) : span.extension.context = opening.context := by
  obtain ⟨-, hholds⟩ := h
  cases hext : span.extension with
  | exported owned =>
      rw [hext] at hholds
      obtain ⟨hfolded, hstands⟩ := hholds
      have htrace := congrArg Prod.fst hstands.placed
      rw [Opening.context, hfolded, ← htrace, ← hstands.spanId]
      rfl
  | folded kept =>
      rw [hext] at hholds
      rw [Opening.context, hholds.1]
      rfl

theorem nearestExported_eq {spans : List (Span δ η)} {openings : List (Opening θ δ η)}
    (h : List.Forall₂ (Fits es) spans openings) :
    nearestExported spans = openings.findSome? Opening.context := by
  induction h with
  | nil => rfl
  | cons hfits _ ih =>
      rw [nearestExported, List.findSome?_cons, List.findSome?_cons, hfits.context_eq,
        ← ih]
      rfl

/-! ## The walk of an event -/

/-- The span, if it is exported, with its context. -/
def Span.found (span : Span δ η) : Option (Id × SpanContext) :=
  span.extension.context.map fun context => (span.id, context)

omit [Formats δ] in
theorem meet_snd (found : Fields (Value δ) × Option (Id × SpanContext))
    (span : Span δ η) : (meet found span).2 = found.2.or span.found := by
  unfold meet Span.found Extension.context
  cases span.extension with
  | exported owned => rfl
  | folded kept => exact (Option.or_none).symm

omit [Formats δ] in
theorem foldl_meet_snd (spans : List (Span δ η))
    (found : Fields (Value δ) × Option (Id × SpanContext)) :
    (spans.foldl meet found).2 = found.2.or (spans.findSome? Span.found) := by
  induction spans generalizing found with
  | nil => exact (Option.or_none).symm
  | cons span spans ih =>
      rw [List.foldl_cons, ih, meet_snd, Option.or_assoc, List.findSome?_cons]
      cases span.found with
      | none => rw [Option.none_or]
      | some context => rfl

omit [Formats δ] in
theorem map_snd_found (spans : List (Span δ η)) :
    (spans.findSome? Span.found).map Prod.snd = nearestExported spans := by
  have hsnd : ∀ span : Span δ η,
      (span.found).map Prod.snd = span.extension.context := by
    intro span
    rw [Span.found, Option.map_map]
    exact congrFun Option.map_id _
  rw [List.map_findSome?, nearestExported, ← funext hsnd]
  rfl

theorem map_fst_found {spans : List (Span δ η)} {openings : List (Opening θ δ η)}
    (h : List.Forall₂ (Fits es) spans openings) :
    (spans.findSome? Span.found).map Prod.fst =
      (openings.find? (!·.1.folded)).map (·.1.id) := by
  induction h with
  | nil => rfl
  | @cons span opening spans openings hfits _ ih =>
      have hcontext := hfits.context_eq
      rw [List.findSome?_cons, List.find?_cons, Span.found, hcontext, Opening.context]
      cases opening.1.folded with
      | true => exact ih
      | false => exact congrArg some hfits.1

/-- The event's own fields stay in front, and of the others the innermost folded
span that has the key gives the value. -/
theorem foldl_meet_fst {spans : List (Span δ η)} {openings : List (Opening θ δ η)}
    (h : List.Forall₂ (Fits es) spans openings)
    (found : Fields (Value δ) × Option (Id × SpanContext))
    (hfound : found.1.keys.Nodup) :
    ∃ extra, (spans.foldl meet found).1 = found.1 ++ extra ∧
      (Fields.keys (found.1 ++ extra)).Nodup ∧
      ∀ key, (found.1 ++ extra).lookup key = (found.1.lookup key).or
        (((openings.filter (·.1.folded)).map (·.1.id)).findSome? fun id =>
          lastRecorded es id key) := by
  induction h generalizing found with
  | nil =>
      refine ⟨[], (List.append_nil _).symm, ?_, fun key => ?_⟩
      · rwa [List.append_nil]
      · rw [List.append_nil]
        exact (Option.or_none).symm
  | @cons span opening spans openings hfits _ ih =>
      obtain ⟨hid, hholds⟩ := hfits
      rw [List.foldl_cons, List.filter_cons]
      cases hext : span.extension with
      | exported owned =>
          rw [hext] at hholds
          have hmeet : (meet found span).1 = found.1 := by
            rw [meet, hext]
          obtain ⟨extra, hrest⟩ := ih (meet found span) (by rwa [hmeet])
          rw [hmeet] at hrest
          rw [hholds.1]
          exact ⟨extra, hrest⟩
      | folded kept =>
          rw [hext] at hholds
          obtain ⟨hfolded, hkeeps⟩ := hholds
          have hmeet : (meet found span).1 = Fields.addMissing kept found.1 := by
            rw [meet, hext]
          obtain ⟨own, heq, hnodup, hlookup⟩ := Fields.addMissing_spec kept found.1 hfound
          rw [heq] at hmeet
          obtain ⟨extra, hall, hapart, hvalues⟩ :=
            ih (meet found span) (by rwa [hmeet])
          rw [hmeet, List.append_assoc] at hall hapart hvalues
          refine ⟨own ++ extra, hall, hapart, fun key => ?_⟩
          rw [hvalues, hlookup, Option.or_assoc, hkeeps.lookup, hfolded, if_pos rfl,
            List.map_cons, List.findSome?_cons]
          cases lastRecorded es opening.1.id key with
          | none => rw [Option.none_or]
          | some value => rfl

end Tracing

end O11y

end RustSak
