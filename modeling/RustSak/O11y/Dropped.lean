import RustSak.O11y.Bridge

/-!
# Dropped fields

A field that the map drops for its name alone does not reach the pipeline: runs
that differ only in the values of such fields hand over the same. The message of an
event is sent as its body and not shown to the map; what is sent so is decided by
the value kept, which of a wide unsigned number is a text too.
-/

namespace RustSak

namespace O11y

namespace Tracing

open Library

variable {θ δ η : Type}

/-! ## Callbacks that differ in dropped fields -/

/-- Every value of the name is dropped, by the map or because it panics. -/
def Layer.Drops (layer : Layer δ) (name : String) : Prop :=
  ∀ value, layer.mapOne (name, value) = none

/-- Kept as a text. -/
def Visited.KeptAsText (value : Visited δ) : Prop := ∃ text, value.value = .string text

/-- Handed over as a text. -/
def Visited.IsText : Visited δ → Prop
  | .str _ | .error _ | .debug _ => True
  | .i64 _ | .u64 _ | .f64 _ | .bool _ => False

/-- A field in two runs: with a dropped name its value may differ. The message of an
event may only where neither is the event's own, which `Own` tells from its value. -/
structure FieldAlike (Own : Visited δ → Prop) (layer : Layer δ) (ofEvent : Bool)
    (field field' : String × Visited δ) : Prop where
  name : field'.1 = field.1
  value : field'.2 = field.2 ∨ layer.Drops field.1 ∧
    (ofEvent = true → field.1 = "message" → ¬ Own field.2 ∧ ¬ Own field'.2)

/-- A callback in two runs. -/
inductive Alike (Own : Visited δ → Prop) : Callback θ δ η → Callback θ δ η → Prop where
  | same (callback : Callback θ δ η) : Alike Own callback callback
  | newSpan (a : Attributes θ δ η) {values : Values δ}
      (h : List.Forall₂ (FieldAlike Own a.layer false) a.values.fields values.fields) :
      Alike Own (.newSpan a) (.newSpan { a with values := values })
  | record (r : Record δ) {values : Values δ}
      (h : List.Forall₂ (FieldAlike Own r.layer false) r.values.fields values.fields) :
      Alike Own (.record r) (.record { r with values := values })
  | event (e : Event θ δ η) {values : Values δ}
      (h : List.Forall₂ (FieldAlike Own e.layer true) e.values.fields values.fields) :
      Alike Own (.event e) (.event { e with values := values })

/-! ## What the visitor collects -/

/-- A collected field in two runs. -/
structure KeptAlike (layer : Layer δ) (field field' : String × Value δ) : Prop where
  name : field'.1 = field.1
  value : field'.2 = field.2 ∨ layer.Drops field.1

structure CollectAlike (layer : Layer δ) (collected collected' : Collect δ) : Prop where
  messageIsBody : collected'.messageIsBody = collected.messageIsBody
  message : collected'.message = collected.message
  fields : List.Forall₂ (KeptAlike layer) collected.fields collected'.fields

theorem KeptAlike.rfl {layer : Layer δ} (field : String × Value δ) :
    KeptAlike layer field field := ⟨Eq.refl _, .inl (Eq.refl _)⟩

theorem CollectAlike.of_fields_nil (layer : Layer δ) {collected : Collect δ}
    (h : collected.fields = []) : CollectAlike layer collected collected := by
  refine ⟨rfl, rfl, ?_⟩
  rw [h]
  exact .nil

/-- A field that is not the message of an event is kept among the fields. -/
theorem Collect.keep_of_field (collected : Collect δ) (name : String) (value : Value δ)
    (h : collected.messageIsBody = true → name = "message" →
      ¬ ∃ text, value = .string text) :
    collected.keep name value =
      { collected with fields := collected.fields ++ [(name, value)] } := by
  unfold Collect.keep
  split
  case h_1 text =>
    have hnot : ¬ (collected.messageIsBody = true ∧ name = "message") := by
      rintro ⟨hbody, hname⟩
      exact h hbody hname ⟨text, rfl⟩
    rw [if_neg hnot]
  case h_2 => rfl

theorem Collect.messageIsBody_keep (collected : Collect δ) (name : String)
    (value : Value δ) :
    (collected.keep name value).messageIsBody = collected.messageIsBody := by
  unfold Collect.keep
  split
  · split <;> rfl
  · rfl

theorem CollectAlike.push {layer : Layer δ} {collected collected' : Collect δ}
    (h : CollectAlike layer collected collected') {field field' : String × Value δ}
    (hfield : KeptAlike layer field field') :
    CollectAlike layer { collected with fields := collected.fields ++ [field] }
      { collected' with fields := collected'.fields ++ [field'] } where
  messageIsBody := h.messageIsBody
  message := h.message
  fields := List.rel_append h.fields (.cons hfield .nil)

/-- The same field kept in both runs. -/
theorem CollectAlike.keep {layer : Layer δ} {collected collected' : Collect δ}
    (h : CollectAlike layer collected collected') (name : String) (value : Value δ) :
    CollectAlike layer (collected.keep name value) (collected'.keep name value) := by
  by_cases hbody : collected.messageIsBody = true ∧ name = "message" ∧
      ∃ text, value = .string text
  · obtain ⟨hbody, hname, text, rfl⟩ := hbody
    have hbody' : collected'.messageIsBody = true := h.messageIsBody.trans hbody
    simp only [Collect.keep, hbody, hbody', hname, and_self, if_true]
    exact ⟨rfl, rfl, h.fields⟩
  · have hfield : collected.messageIsBody = true → name = "message" →
        ¬ ∃ text, value = .string text :=
      fun hflag hname htext => hbody ⟨hflag, hname, htext⟩
    have hfield' := h.messageIsBody ▸ hfield
    rw [Collect.keep_of_field _ _ _ hfield, Collect.keep_of_field _ _ _ hfield']
    exact h.push (.rfl _)

theorem CollectAlike.visit {layer : Layer δ} {collected collected' : Collect δ}
    (h : CollectAlike layer collected collected') {field field' : String × Visited δ}
    (hfield : FieldAlike Visited.KeptAsText layer collected.messageIsBody field field') :
    CollectAlike layer (collected.keep field.1 field.2.value)
      (collected'.keep field'.1 field'.2.value) := by
  rw [hfield.name]
  rcases hfield.value with heq | ⟨hdrops, hown⟩
  · rw [heq]
    exact h.keep _ _
  · have hown' : collected'.messageIsBody = true → field.1 = "message" →
        ¬ ∃ text, field'.2.value = .string text :=
      fun hflag hname => (hown (h.messageIsBody ▸ hflag) hname).2
    rw [Collect.keep_of_field _ _ _ fun hflag hname => (hown hflag hname).1,
      Collect.keep_of_field _ _ _ hown']
    exact h.push ⟨rfl, .inr hdrops⟩

/-- The visitor's fields differ in dropped ones only, and its message not at all. -/
theorem CollectAlike.record {layer : Layer δ} {ofEvent : Bool}
    {values values' : List (String × Visited δ)}
    (hvalues : List.Forall₂ (FieldAlike Visited.KeptAsText layer ofEvent) values values')
    {collected collected' : Collect δ} (h : CollectAlike layer collected collected')
    (hflag : collected.messageIsBody = ofEvent) :
    CollectAlike layer (collected.record values) (collected'.record values') := by
  induction hvalues generalizing collected collected' with
  | nil => exact h
  | cons hfield _ ih =>
      subst hflag
      apply ih (h.visit hfield)
      rw [Collect.messageIsBody_keep]

/-! ## What leaves -/

theorem mapOne_alike {layer : Layer δ} {field field' : String × Value δ}
    (h : KeptAlike layer field field') : layer.mapOne field' = layer.mapOne field := by
  obtain ⟨name, value⟩ := field
  obtain ⟨name', value'⟩ := field'
  obtain ⟨rfl, rfl | hdrops⟩ := h
  · rfl
  · rw [hdrops value, hdrops value']

theorem filterMap_mapOne_alike {layer : Layer δ} {fields fields' : Fields (Value δ)}
    (h : List.Forall₂ (KeptAlike layer) fields fields') :
    fields'.filterMap layer.mapOne = fields.filterMap layer.mapOne := by
  induction h with
  | nil => rfl
  | cons hfield _ ih =>
      rw [List.filterMap_cons, List.filterMap_cons, mapOne_alike hfield, ih]

theorem any_error_alike {layer : Layer δ} {fields fields' : Fields (Value δ)}
    (h : List.Forall₂ (KeptAlike layer) fields fields') :
    fields'.any (·.1 == "error") = fields.any (·.1 == "error") := by
  induction h with
  | nil => rfl
  | cons hfield _ ih => rw [List.any_cons, List.any_cons, hfield.name, ih]

/-- That there was an error is told from the names, its message from what the map
left of it. -/
theorem mapFields_alike [Formats δ] {layer : Layer δ} {fields fields' : Fields (Value δ)}
    (h : List.Forall₂ (KeptAlike layer) fields fields') :
    layer.mapFields fields' = layer.mapFields fields := by
  unfold Layer.mapFields
  rw [filterMap_mapOne_alike h, any_error_alike h]

theorem mapFields_span_alike [Formats δ] {layer : Layer δ} {values values' : Values δ}
    (h : List.Forall₂ (FieldAlike Visited.KeptAsText layer false)
      values.fields values'.fields) :
    layer.mapFields (Collect.span.record values'.fields).fields =
      layer.mapFields (Collect.span.record values.fields).fields := by
  have hstart : CollectAlike layer (Collect.span (δ := δ)) Collect.span :=
    .of_fields_nil layer rfl
  exact mapFields_alike (hstart.record h rfl).fields

theorem Event.collected_alike {e : Event θ δ η} {values : Values δ}
    (h : List.Forall₂ (FieldAlike Visited.KeptAsText e.layer true)
      e.values.fields values.fields) :
    CollectAlike e.layer e.collected { e with values := values }.collected := by
  have hstart : CollectAlike e.layer (Collect.event (δ := δ)) Collect.event :=
    .of_fields_nil e.layer rfl
  exact hstart.record h rfl

variable [Formats δ]

theorem State.newSpan_alike (s : State θ δ η) {a : Attributes θ δ η} {values : Values δ}
    (h : List.Forall₂ (FieldAlike Visited.KeptAsText a.layer false)
      a.values.fields values.fields) :
    s.newSpan { a with values := values } = s.newSpan a := by
  have hmapped : { a with values := values }.mapped = a.mapped := mapFields_span_alike h
  unfold State.newSpan Attributes.extension
  rw [hmapped]
  rfl

theorem State.record_alike (s : State θ δ η) {r : Record δ} {values : Values δ}
    (h : List.Forall₂ (FieldAlike Visited.KeptAsText r.layer false)
      r.values.fields values.fields) :
    s.record { r with values := values } = s.record r := by
  have hmapped : { r with values := values }.mapped = r.mapped := mapFields_span_alike h
  unfold State.record
  rw [hmapped]

theorem State.event_alike (s : State θ δ η) {e : Event θ δ η} {values : Values δ}
    (h : List.Forall₂ (FieldAlike Visited.KeptAsText e.layer true)
      e.values.fields values.fields) :
    s.event { e with values := values } = s.event e := by
  have hcollected := Event.collected_alike h
  have hmapped : { e with values := values }.mapped = e.mapped :=
    congrArg Prod.fst (mapFields_alike hcollected.fields)
  have hbody : { e with values := values }.body = e.body :=
    congrArg (·.getD e.metadata.name) hcollected.message
  unfold State.event State.emit
  rw [hmapped, hbody]
  rfl

/-- From one state, alike callbacks lead to one state. -/
theorem next_alike [DecidableEq θ] (s : State θ δ η) {callback callback' : Callback θ δ η}
    (h : Alike Visited.KeptAsText callback callback') :
    next s callback' = next s callback := by
  cases h with
  | same => rfl
  | newSpan a h => exact s.newSpan_alike h
  | record r h => exact s.record_alike h
  | event e h => exact s.event_alike h

/-- Two runs that differ only in the values of dropped fields, the message that an
event sends as a text excepted, hand the same records and spans to the pipeline. -/
theorem dropped_fields_stay [DecidableEq θ] {callbacks callbacks' : List (Callback θ δ η)}
    {s s' : State θ δ η}
    (halike : List.Forall₂ (Alike Visited.KeptAsText) callbacks callbacks')
    (hr : machine.Run callbacks s) (hr' : machine.Run callbacks' s') :
    s'.logs = s.logs ∧ s'.records = s.records := by
  have hsame : s' = s := by
    refine Machine.Run.invariant₂ (I := fun s s' => s' = s) ?_ ?_ halike hr hr'
    · intro s s' hs hs'
      exact hs'.trans hs.symm
    · rintro s _ callback callback' _ _ rfl hcallback ⟨-, rfl⟩ ⟨-, rfl⟩
      exact next_alike _ hcallback
  rw [hsame]
  exact ⟨rfl, rfl⟩

section Example

/-- A span with a secret, recorded again and then given to an event in it. -/
def secretRun (secret : Visited ℕ) : List (Callback Bool ℕ Unit) :=
  [.newSpan (exampleSpan 1 none "request" ⟨[("path", .str "/"), ("secret", secret)],
      by simp⟩),
    .record ⟨exampleLayer, 1, ⟨[("secret", secret)], by simp⟩⟩,
    .event ⟨true, exampleLayer, ⟨"event", "app", .error⟩,
      ⟨[("message", .str "failed"), ("secret", secret)], by simp⟩, some 1, 8, ()⟩,
    .close 1 10]

theorem exampleLayer_drops_secret : exampleLayer.Drops "secret" := by
  intro value
  simp [Layer.mapOne, exampleLayer]

theorem secretRun_alike (secret secret' : Visited ℕ) :
    List.Forall₂ (Alike Visited.KeptAsText) (secretRun secret) (secretRun secret') := by
  have hsame (ofEvent : Bool) (field : String × Visited ℕ) :
      FieldAlike Visited.KeptAsText exampleLayer ofEvent field field := ⟨rfl, .inl rfl⟩
  have hsecret (ofEvent : Bool) : FieldAlike Visited.KeptAsText exampleLayer ofEvent
      ("secret", secret) ("secret", secret') :=
    ⟨rfl, .inr ⟨exampleLayer_drops_secret, fun _ hname => by simp at hname⟩⟩
  refine .cons (.newSpan _ ?_) (.cons (.record _ ?_)
    (.cons (.event _ ?_) (.cons (.same _) .nil)))
  · exact .cons (hsame _ _) (.cons (hsecret _) .nil)
  · exact .cons (hsecret _) .nil
  · exact .cons (hsame _ _) (.cons (hsecret _) .nil)

theorem secretRun_run {secret : Visited ℕ}
    (h : Machine.Legal Enabled next .empty (secretRun secret)) :
    machine.Run (secretRun secret).reverse ((secretRun secret).foldl next .empty) := by
  have hr := (Machine.Run.start (M := machine) rfl).legal h
  rwa [List.append_nil] at hr

theorem dropped_fields_stay_secret :
    (((secretRun (.str "hunter2")).foldl next .empty).logs.length = 1 ∧
      ((secretRun (.str "hunter2")).foldl next .empty).records.length = 1) ∧
    ((secretRun (.i64 7)).foldl next .empty).logs =
      ((secretRun (.str "hunter2")).foldl next .empty).logs ∧
    ((secretRun (.i64 7)).foldl next .empty).records =
      ((secretRun (.str "hunter2")).foldl next .empty).records :=
  ⟨by decide +kernel, dropped_fields_stay (List.rel_reverse (secretRun_alike _ _))
    (secretRun_run (by decide +kernel)) (secretRun_run (by decide +kernel))⟩

/-- An event whose message is a number, under a map that drops everything. -/
def numbered (number : ℕ) : Event Bool ℕ Unit :=
  ⟨true, ⟨some fun _ _ => some none, none⟩, ⟨"event", "app", .info⟩,
    ⟨[("message", .u64 number)], by simp⟩, none, 8, ()⟩

theorem numbered_alike (number number' : ℕ) :
    List.Forall₂ (Alike Visited.IsText) [Callback.event (numbered number)]
      [Callback.event (numbered number')] :=
  .cons (.event _ (.cons ⟨rfl, .inr ⟨fun _ => rfl, fun _ _ => ⟨id, id⟩⟩⟩ .nil)) .nil

/-- A number beyond the signed ones is made a text, and leaves as the body. -/
theorem wide_message_leaves :
    ¬ ∀ (callbacks callbacks' : List (Callback Bool ℕ Unit)) (s s' : State Bool ℕ Unit),
      List.Forall₂ (Alike Visited.IsText) callbacks callbacks' →
      machine.Run callbacks s → machine.Run callbacks' s' →
      s'.logs = s.logs ∧ s'.records = s.records := by
  intro h
  have hrun (number : ℕ) : machine.Run [.event (numbered number)]
      (next .empty (.event (numbered number))) :=
    (Machine.Run.start (M := machine) rfl).next ⟨trivial, rfl⟩
  have hlogs := (h _ _ _ _ (numbered_alike (2 ^ 63) (2 ^ 63 + 1)) (hrun _) (hrun _)).1
  have hbodies := congrArg (List.map (·.body)) hlogs
  revert hbodies
  decide +kernel

end Example

end Tracing

end O11y

end RustSak
