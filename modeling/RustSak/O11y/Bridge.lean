import RustSak.O11y.Walks

/-!
# The bridge follows the span tree

The registry's open spans and the tree of the history go up the same way, and every
callback leaves each open span as the history then asks for. Every event's record
and every exported span's record is read off that.
-/

namespace RustSak

namespace O11y

namespace Tracing

open Library

variable {θ δ η : Type} [DecidableEq θ] [Formats δ]

/-! ## What a callback does to a span -/

section Extensions

variable {es : List (Callback θ δ η)} {callback : Callback θ δ η}
  {opening : Opening θ δ η}

omit [DecidableEq θ] [Formats δ] in
theorem failIf_eq (error : Option String) (owned : SpanState (Value δ) η) :
    failIf error owned = { owned with status := failedOr error owned.status } := by
  cases error with
  | none => rfl
  | some message => rfl

omit [DecidableEq θ] [Formats δ] in
theorem foldl_setAttribute (fields : Fields (Value δ))
    (owned : SpanState (Value δ) η) :
    fields.foldl (fun owned field => owned.setAttribute field.1 field.2) owned =
      { owned with attributes := Fields.setAll fields owned.attributes } := by
  induction fields generalizing owned with
  | nil => rfl
  | cons field fields ih => rw [List.foldl_cons, ih, Fields.setAll_cons]; rfl

/-- A callback the history reads nothing from for this span leaves it as it is. -/
theorem Holds.frame {extension : Extension δ η} (h : Holds es opening extension)
    (hlast : ∀ key, lastRecorded (callback :: es) opening.1.id key =
      lastRecorded es opening.1.id key)
    (hlinks : links (callback :: es) opening.1.id = links es opening.1.id)
    (hstatus : status (callback :: es) opening.1.id = status es opening.1.id) :
    Holds (callback :: es) opening extension := by
  cases extension with
  | exported owned =>
      obtain ⟨hfolded, hstands⟩ := h
      exact ⟨hfolded, { hstands with
        attributes := fun key => (hstands.attributes key).trans (hlast key).symm
        links := hstands.links.trans hlinks.symm
        status := hstands.status.trans hstatus.symm }⟩
  | folded kept =>
      obtain ⟨hfolded, hkeeps⟩ := h
      exact ⟨hfolded, hkeeps.nodup,
        fun key => (hkeeps.lookup key).trans (hlast key).symm⟩

theorem Holds.record {extension : Extension δ η} (h : Holds es opening extension)
    {r : Record δ} (hid : r.id = opening.1.id) :
    Holds (.record r :: es) opening (extension.record r.mapped.1 r.mapped.2) := by
  have hnodup : r.mapped.1.keys.Nodup := nodup_mapped r.layer r.values rfl
  have hlast : ∀ key, lastRecorded (.record r :: es) opening.1.id key =
      (r.mapped.1.lookup key).or (lastRecorded es opening.1.id key) :=
    fun key => if_pos hid
  have hstatus : status (.record r :: es) opening.1.id =
      failedOr r.mapped.2 (status es opening.1.id) := if_pos hid
  cases extension with
  | exported owned =>
      obtain ⟨hfolded, hstands⟩ := h
      refine ⟨hfolded, ?_⟩
      rw [foldl_setAttribute, failIf_eq]
      exact { hstands with
        nodup := Fields.nodup_setAll _ hstands.nodup
        attributes := fun key => by
          rw [hlast, ← hstands.attributes]
          exact Fields.lookup_setAll hnodup _ key
        links := hstands.links
        status := by rw [hstatus, ← hstands.status] }
  | folded kept =>
      obtain ⟨hfolded, hkeeps⟩ := h
      refine ⟨hfolded, Fields.nodup_setAll _ hkeeps.nodup, fun key => ?_⟩
      rw [hlast, ← hkeeps.lookup, Fields.lookup_setAll hnodup]

theorem Holds.addLink {extension : Extension δ η} (h : Holds es opening extension)
    {follows : Id} {link : SpanContext} (hlink : nearest es (some follows) = some link) :
    Holds (.followsFrom opening.1.id follows :: es) opening
      (extension.addLink link) := by
  have hlinks : links (.followsFrom opening.1.id follows :: es) opening.1.id =
      links es opening.1.id ++ (nearest es (some follows)).toList := if_pos rfl
  cases extension with
  | exported owned =>
      obtain ⟨hfolded, hstands⟩ := h
      refine ⟨hfolded, { hstands with attributes := hstands.attributes, links := ?_ }⟩
      rw [hlinks, hlink, ← hstands.links]
      rfl
  | folded kept => exact ⟨h.1, h.2.nodup, h.2.lookup⟩

theorem Holds.fail {extension : Extension δ η} (h : Holds es opening extension)
    {e : Event θ δ η} (hlevel : e.level = .error)
    (hid : nearestId es e.span = some opening.1.id) :
    Holds (.event e :: es) opening (extension.fail e.body) := by
  have hstatus : status (.event e :: es) opening.1.id = .error e.body :=
    if_pos ⟨hlevel, hid⟩
  cases extension with
  | exported owned =>
      obtain ⟨hfolded, hstands⟩ := h
      exact ⟨hfolded, { hstands with
        attributes := hstands.attributes
        links := hstands.links
        status := hstatus.symm }⟩
  | folded kept => exact ⟨h.1, h.2.nodup, h.2.lookup⟩

theorem Fits.visit {span : Span δ η} (h : Fits es span opening) {id : Id}
    {change : Extension δ η → Extension δ η}
    (hchanged : opening.1.id = id →
      Holds (callback :: es) opening (change span.extension))
    (hsame : opening.1.id ≠ id → Holds (callback :: es) opening span.extension) :
    Fits (callback :: es) (visit id change span) opening := by
  refine ⟨(visit_id id change span).trans h.1, ?_⟩
  unfold Tracing.visit
  split
  · rename_i hid
    exact hchanged (h.1.symm.trans hid)
  · rename_i hid
    exact hsame fun heq => hid (h.1.trans heq)

end Extensions

/-! ## One callback -/

/-- State and history agree. -/
structure Inv (es : List (Callback θ δ η)) (s : State θ δ η) : Prop where
  tree : ∀ id, List.Forall₂ (Fits es) (scope s.spans id) (around es id)
  remote : ∀ t, s.remote t :: s.saved t = (remotes es t).map some ++ [none]
  stack : ∀ t, s.stack t = stackOn es t
  logs : List.Forall₂ (fun log call => Logged call.2 call.1 log) s.logs (events es)
  records : List.Forall₂ (fun record closing => closing.Recorded record) s.records
    (closings es)

section Steps

variable {es : List (Callback θ δ η)} {s : State θ δ η} {callback : Callback θ δ η}

theorem Inv.nearest_eq (h : Inv es s) (id : Option Id) :
    nearestExported (scope s.spans id) = nearest es id := by
  rw [nearest_eq_findSome]
  exact nearestExported_eq (h.tree id)

theorem Inv.remote_eq (h : Inv es s) (t : θ) : s.remote t = (remotes es t).head? := by
  have hremote := h.remote t
  cases hes : remotes es t with
  | nil =>
      rw [hes] at hremote
      exact (List.cons.inj hremote).1
  | cons context contexts =>
      rw [hes] at hremote
      exact (List.cons.inj hremote).1

/-- Every open span changes as the callback asks, and none comes or goes. -/
theorem Inv.tree_map (h : Inv es s) {f : Span δ η → Span δ η}
    (hid : ∀ span, (f span).id = span.id)
    (hparent : ∀ span, (f span).parent = span.parent)
    (haround : ∀ id, around (callback :: es) id = around es id)
    (hfits : ∀ span opening, Fits es span opening →
      Fits (callback :: es) (f span) opening) (id : Option Id) :
    List.Forall₂ (Fits (callback :: es)) (scope (s.spans.map f) id)
      (around (callback :: es) id) := by
  rw [haround, scope_map hid hparent, List.forall₂_map_left_iff]
  exact (h.tree id).imp fun span opening => hfits span opening

/-- The callback has nothing to do with any open span. -/
theorem Inv.tree_same (h : Inv es s)
    (haround : ∀ id, around (callback :: es) id = around es id)
    (hholds : ∀ opening extension, Holds es opening extension →
      Holds (callback :: es) opening extension) (id : Option Id) :
    List.Forall₂ (Fits (callback :: es)) (scope s.spans id)
      (around (callback :: es) id) := by
  rw [haround]
  exact (h.tree id).imp fun span opening hfits => ⟨hfits.1, hholds _ _ hfits.2⟩

/-- What a new span holds is what the history has of it. -/
theorem Inv.holds_new (h : Inv es s) (a : Attributes θ δ η) :
    Holds (.newSpan a :: es) (a, es) (a.extension s) := by
  have hnodup : a.mapped.1.keys.Nodup := nodup_mapped a.layer a.values rfl
  have hlast : ∀ key, lastRecorded (.newSpan a :: es) a.id key =
      a.mapped.1.lookup key := fun key => if_pos rfl
  unfold Attributes.extension
  cases hfolds : a.layer.folds a.metadata with
  | true =>
      rw [if_pos rfl]
      exact ⟨hfolds, hnodup, fun key => (hlast key).symm⟩
  | false =>
      rw [if_neg (by simp)]
      refine ⟨hfolds, ?_⟩
      have hstatus : status (.newSpan a :: es) a.id = failedOr a.mapped.2 .unset :=
        if_pos rfl
      have hlinks : links (.newSpan a :: es) a.id = [] := if_pos rfl
      rw [failIf_eq, h.nearest_eq, h.remote_eq, h.stack]
      refine ⟨?_, rfl, rfl, rfl, rfl, hnodup, fun key => (hlast key).symm, rfl,
        hlinks.symm, hstatus.symm⟩
      simp only [placed, start, SpanState.opened, Stack.inherit]
      cases (nearest es a.parent).or (remotes es a.thread).head? with
      | none =>
          cases (stackOn es a.thread).currentContext with
          | none => rfl
          | some context => rfl
      | some context => rfl

theorem Inv.newSpan (h : Inv es s) (a : Attributes θ δ η)
    (hfresh : ∀ span ∈ s.spans, span.id ≠ a.id) :
    Inv (.newSpan a :: es) (s.newSpan a) := by
  have hold : ∀ id, List.Forall₂ (Fits (.newSpan a :: es)) (scope s.spans id)
      (around es id) := by
    intro id
    have hids : ∀ span ∈ scope s.spans id, span.id ≠ a.id :=
      fun span hspan => hfresh span (scope_subset _ _ hspan)
    refine ((List.forall₂_and_left _ _).mpr ⟨hids, h.tree id⟩).imp ?_
    intro span opening ⟨hspan, hfits⟩
    have hne : a.id ≠ opening.1.id := fun heq => hspan (hfits.1.trans heq.symm)
    exact ⟨hfits.1, hfits.2.frame (fun key => if_neg hne) (if_neg hne) (if_neg hne)⟩
  refine ⟨fun id => ?_, h.remote, h.stack, h.logs, h.records⟩
  rw [around_newSpan]
  change List.Forall₂ _ (scope (⟨a.id, a.parent, a.extension s⟩ :: s.spans) id) _
  rw [scope]
  split
  · exact .cons ⟨rfl, h.holds_new a⟩ (hold a.parent)
  · exact hold id

theorem Inv.record (h : Inv es s) (r : Record δ) :
    Inv (.record r :: es) (s.record r) := by
  refine ⟨?_, h.remote, h.stack, h.logs, h.records⟩
  refine h.tree_map (visit_id _ _) (visit_parent _ _) (fun id => rfl) ?_
  intro span opening hfits
  refine hfits.visit (fun hid => hfits.2.record hid.symm) fun hid => ?_
  have hne : r.id ≠ opening.1.id := fun heq => hid heq.symm
  exact hfits.2.frame (fun key => if_neg hne) rfl (if_neg hne)

theorem Inv.followsFrom (h : Inv es s) (id follows : Id) :
    Inv (.followsFrom id follows :: es) (s.followsFrom id follows) := by
  unfold State.followsFrom
  rw [h.nearest_eq]
  cases hlink : nearest es (some follows) with
  | some link =>
      refine ⟨?_, h.remote, h.stack, h.logs, h.records⟩
      refine h.tree_map (visit_id _ _) (visit_parent _ _) (fun id => rfl) ?_
      intro span opening hfits
      refine hfits.visit (fun hid => ?_) fun hid => ?_
      · subst hid
        exact hfits.2.addLink hlink
      · exact hfits.2.frame (fun key => rfl) (if_neg fun heq => hid heq.symm) rfl
  | none =>
      refine ⟨?_, h.remote, h.stack, h.logs, h.records⟩
      refine h.tree_same (fun id => rfl) fun opening extension hholds => ?_
      refine hholds.frame (fun key => rfl) ?_ rfl
      rw [links, hlink, Option.toList_none, List.append_nil, ite_self]

/-- The record of an event is the one its history asks for. -/
theorem Inv.logged (h : Inv es s) (e : Event θ δ η) {fields : Fields (Value δ)}
    (hfields : fields = addTarget e.metadata.target
      ((scope s.spans e.span).foldl meet (e.mapped, none)).1) :
    Logged es e
      { timeUnixNano := e.now, level := e.level, body := e.body, fields := fields,
        enrichment := e.enrichment,
        traceId := (e.context es).map SpanContext.traceId,
        spanId := (e.context es).map SpanContext.spanId } := by
  have hown : e.mapped.keys.Nodup := nodup_mapped e.layer e.values rfl
  obtain ⟨extra, hall, hnodup, hlookup⟩ :=
    foldl_meet_fst (h.tree e.span) (e.mapped, none) hown
  rw [hall] at hfields
  refine ⟨rfl, rfl, rfl, rfl, rfl, rfl, ⟨extra, _, ?_, fun key => ?_, rfl⟩, ?_⟩
  · rw [hfields, addTarget]
    by_cases htarget : "target" ∈ Fields.keys (e.mapped ++ extra)
    · rw [if_pos (Fields.any_eq_true.mpr htarget), if_pos htarget, List.append_nil]
    · rw [if_neg fun hany => htarget (Fields.any_eq_true.mp hany), if_neg htarget]
  · have hvalue := hlookup key
    rw [List.lookup_append] at hvalue
    split
    · rename_i hkey
      refine Fields.lookup_eq_none.mpr fun hextra => ?_
      rw [Fields.keys, List.map_append] at hnodup
      exact (List.nodup_append.mp hnodup).2.2 key hkey key hextra rfl
    · rename_i hkey
      rw [Fields.lookup_eq_none.mpr hkey, Option.none_or, Option.none_or] at hvalue
      exact hvalue
  · change fields.keys.Nodup
    rw [hfields, addTarget]
    by_cases htarget : "target" ∈ Fields.keys (e.mapped ++ extra)
    · rwa [if_pos (Fields.any_eq_true.mpr htarget)]
    · rw [if_neg fun hany => htarget (Fields.any_eq_true.mp hany), Fields.keys,
        List.map_append]
      exact Fields.nodup_concat hnodup htarget

theorem Inv.emit (h : Inv es s) (e : Event θ δ η) {spans : List (Span δ η)}
    (htree : ∀ id, List.Forall₂ (Fits (.event e :: es)) (scope spans id)
      (around (.event e :: es) id)) :
    Inv (.event e :: es) (State.emit { s with spans := spans } e (nearest es e.span)
      (addTarget e.metadata.target
        ((scope s.spans e.span).foldl meet (e.mapped, none)).1)) := by
  refine ⟨htree, h.remote, h.stack, ?_, h.records⟩
  have hlogged := h.logged e rfl
  rw [Event.context, ← h.stack] at hlogged
  exact .cons hlogged h.logs

omit [DecidableEq θ] in
theorem event_of_none (e : Event θ δ η)
    (h : ((scope s.spans e.span).foldl meet (e.mapped, none)).2 = none) :
    s.event e = s.emit e none (addTarget e.metadata.target
      ((scope s.spans e.span).foldl meet (e.mapped, none)).1) := by
  simp only [State.event, h]

omit [DecidableEq θ] in
theorem event_of_some (e : Event θ δ η) {id : Id} {context : SpanContext}
    (h : ((scope s.spans e.span).foldl meet (e.mapped, none)).2 = some (id, context)) :
    s.event e =
      (if e.level = .error then s.touch id (Extension.fail e.body) else s).emit e
        (some context) (addTarget e.metadata.target
          ((scope s.spans e.span).foldl meet (e.mapped, none)).1) := by
  simp only [State.event, h]

theorem Inv.event (h : Inv es s) (e : Event θ δ η) :
    Inv (.event e :: es) (s.event e) := by
  have hfound := foldl_meet_snd (scope s.spans e.span) (e.mapped, none)
  have hcontext := (map_snd_found (scope s.spans e.span)).trans (h.nearest_eq e.span)
  have hid := map_fst_found (h.tree e.span)
  rw [Option.none_or] at hfound
  rw [← hfound] at hcontext hid
  -- where the event fails no span, every span stays as it is
  have hsame (hnot : ∀ id, ¬ (e.level = .error ∧ nearestId es e.span = some id)) :
      ∀ id, List.Forall₂ (Fits (.event e :: es)) (scope s.spans id)
        (around (.event e :: es) id) :=
    h.tree_same (fun id => rfl) fun opening extension hholds =>
      hholds.frame (fun key => rfl) rfl (if_neg (hnot opening.1.id))
  cases hmet : ((scope s.spans e.span).foldl meet (e.mapped, none)).2 with
  | none =>
      rw [hmet] at hcontext hid
      have hnone : nearestId es e.span = none := hid.symm
      have hinv := h.emit e (hsame fun id hboth => by
        rw [hnone] at hboth
        cases hboth.2)
      rw [← hcontext] at hinv
      rw [event_of_none e hmet]
      exact hinv
  | some found =>
      obtain ⟨id, context⟩ := found
      rw [hmet] at hcontext hid
      have hnearest : nearestId es e.span = some id := hid.symm
      rw [event_of_some e hmet]
      by_cases hlevel : e.level = .error
      · rw [if_pos hlevel]
        have htree (id' : Option Id) : List.Forall₂ (Fits (.event e :: es))
            (scope (s.spans.map (visit id (Extension.fail e.body))) id')
            (around (.event e :: es) id') := by
          refine h.tree_map (visit_id _ _) (visit_parent _ _) (fun _ => rfl) ?_ id'
          intro span opening hfits
          refine hfits.visit (fun heq => ?_) fun hne => ?_
          · exact hfits.2.fail hlevel (heq ▸ hnearest)
          · refine hfits.2.frame (fun key => rfl) rfl (if_neg fun hboth => hne ?_)
            exact Option.some.inj (hboth.2.symm.trans hnearest)
        have hinv := h.emit e htree
        rw [← hcontext] at hinv
        exact hinv
      · rw [if_neg hlevel]
        have hinv := h.emit e (hsame fun id hboth => hlevel hboth.1)
        rw [← hcontext] at hinv
        exact hinv

theorem Inv.close (h : Inv es s) (id : Id) (now : ℕ)
    (hbelow : ∀ span ∈ s.spans, span.parent ≠ some id) :
    Inv (.close id now :: es) (s.close id now) := by
  refine ⟨fun id' => ?_, h.remote, h.stack, h.logs, ?_⟩
  · rw [around_close]
    change List.Forall₂ _ (scope (s.spans.filter (·.id != id)) id') _
    rw [scope_close hbelow]
    split
    · exact .nil
    · exact (h.tree id').imp fun span opening hfits =>
        ⟨hfits.1, hfits.2.frame (fun key => rfl) rfl rfl⟩
  · have hfirst := h.tree (some id)
    have hhead := head_scope s.spans id
    unfold State.close
    rw [closings, opened, ← hhead]
    generalize scope s.spans (some id) = spans at hfirst ⊢
    generalize around es (some id) = openings at hfirst ⊢
    cases hfirst with
    | nil => exact h.records
    | @cons span opening _ _ hfits _ =>
        obtain ⟨id', parent, extension⟩ := span
        obtain ⟨-, hholds⟩ := hfits
        cases extension with
        | exported owned =>
            obtain ⟨hfolded, hstands⟩ := hholds
            rw [List.head?_cons, List.head?_cons, Option.filter_some,
              if_pos (by simp [hfolded])]
            exact .cons ⟨owned, hstands, rfl⟩ h.records
        | folded kept =>
            rw [List.head?_cons, List.head?_cons, Option.filter_some,
              if_neg (by simp [hholds.1])]
            exact h.records

theorem Inv.withParent (h : Inv es s) (t : θ) (context : SpanContext) :
    Inv (.withParent t context :: es) (next s (.withParent t context)) := by
  refine ⟨?_, fun t' => ?_, h.stack, h.logs, h.records⟩
  · exact h.tree_same (fun id => rfl) fun opening extension hholds =>
      hholds.frame (fun key => rfl) rfl rfl
  · change Function.update s.remote t _ t' :: Function.update s.saved t _ t' = _
    rw [remotes, Function.update_apply, Function.update_apply]
    split
    · rename_i heq
      rw [heq, h.remote t]
      rfl
    · exact h.remote t'

theorem Inv.restore (h : Inv es s) (t : θ) (hsaved : s.saved t ≠ []) :
    Inv (.restore t :: es) (next s (.restore t)) := by
  refine ⟨?_, fun t' => ?_, h.stack, h.logs, h.records⟩
  · exact h.tree_same (fun id => rfl) fun opening extension hholds =>
      hholds.frame (fun key => rfl) rfl rfl
  · change Function.update s.remote t _ t' :: Function.update s.saved t _ t' = _
    rw [remotes, Function.update_apply, Function.update_apply]
    split
    · rename_i heq
      subst heq
      have hremote := h.remote t'
      cases hes : remotes es t' with
      | nil =>
          rw [hes] at hremote
          exact absurd (List.cons.inj hremote).2 hsaved
      | cons context contexts =>
          rw [hes] at hremote
          rw [(List.cons.inj hremote).2]
          cases contexts with
          | nil => rfl
          | cons context contexts => rfl
    · exact h.remote t'

theorem Inv.withStack (h : Inv es s) (t : θ) (stack : Stack (Value δ) η) :
    Inv (.stack t stack :: es) (next s (.stack t stack)) := by
  refine ⟨?_, h.remote, fun t' => ?_, h.logs, h.records⟩
  · exact h.tree_same (fun id => rfl) fun opening extension hholds =>
      hholds.frame (fun key => rfl) rfl rfl
  · change Function.update s.stack t stack t' = _
    rw [stackOn, Function.update_apply, h.stack]

/-- Every callback keeps state and history in agreement. -/
theorem Inv.next (h : Inv es s) (henabled : Enabled s callback) :
    Inv (callback :: es) (next s callback) := by
  cases callback with
  | newSpan a => exact h.newSpan a henabled.1
  | record r => exact h.record r
  | followsFrom id follows => exact h.followsFrom id follows
  | event e => exact h.event e
  | close id now => exact h.close id now henabled
  | withParent t context => exact h.withParent t context
  | restore t => exact h.restore t henabled
  | stack t stack => exact h.withStack t stack

end Steps

theorem inv_of_run {es : List (Callback θ δ η)} {s : State θ δ η}
    (hr : machine.Run es s) : Inv es s := by
  refine hr.invariant (I := Inv) ?_ ?_
  · rintro s rfl
    exact ⟨fun id => .nil, fun t => rfl, fun t => rfl, .nil, .nil⟩
  · rintro es callback s s' - hinv ⟨henabled, rfl⟩
    exact hinv.next henabled

/-! ## Every run -/

/-- Whatever the hooks do, the log records are those of the events, the span records
those of the exported spans that have closed, one each, and both are routed as the
history's span tree asks. -/
theorem routes_by_span_tree {es : List (Callback θ δ η)} {s : State θ δ η}
    (hr : machine.Run es s) :
    List.Forall₂ (fun log call => Logged call.2 call.1 log) s.logs (events es) ∧
      List.Forall₂ (fun record closing => closing.Recorded record) s.records
        (closings es) ∧
      ((closings es).map (·.opening)).Nodup :=
  ⟨(inv_of_run hr).logs, (inv_of_run hr).records, nodup_closings es⟩

section Example

/-- Doubles are left to the naturals. -/
instance : Formats ℕ := ⟨toString, fun _ => "value"⟩

/-- Folds the spans that are called `wrap`, and has a map that drops `secret` and
panics on `bad`. -/
def exampleLayer : Layer ℕ where
  mapField := some fun name value =>
    if name = "bad" then none else if name = "secret" then some none
    else some (some value)
  foldSpans := some fun metadata => some (metadata.name == "wrap")

def exampleSpan (id : Id) (parent : Option Id) (name : String) (values : Values ℕ) :
    Attributes Bool ℕ Unit where
  thread := true
  layer := exampleLayer
  id := id
  parent := parent
  metadata := ⟨name, "app", .info⟩
  values := values
  traceId := 1
  spanId := .ofNat 64 id
  now := id
  enrichment := ()

/-- A span under a remote context, a folded one in it, and in that one an error. -/
def exampleRun : List (Callback Bool ℕ Unit) :=
  [.withParent true ⟨7, 9⟩,
    .newSpan (exampleSpan 1 none "request" ⟨[("path", .str "/")], by decide⟩),
    .restore true,
    .newSpan (exampleSpan 2 (some 1) "wrap" ⟨[("user", .u64 4), ("bad", .i64 0)],
      by decide⟩),
    .record ⟨exampleLayer, 2, ⟨[("user", .u64 5)], by decide⟩⟩,
    .event ⟨false, exampleLayer, ⟨"event", "app", .error⟩,
      ⟨[("message", .str "failed"), ("secret", .str "x"), ("step", .i64 3)],
        by decide⟩, some 2, 8, ()⟩,
    .close 2 9,
    .close 1 10]

theorem routes_by_span_tree_example :
    ((exampleRun.foldl next .empty).logs.map (·.fields.keys) =
      [["step", "user", "target"]] ∧
      (exampleRun.foldl next .empty).records.map
        (fun record => (record.traceId, record.parentSpanId, record.status)) =
        [(7, some 9, .error "failed")]) ∧
    List.Forall₂ (fun log call => Logged call.2 call.1 log)
      (exampleRun.foldl next .empty).logs (events exampleRun.reverse) ∧
    List.Forall₂ (fun record closing => closing.Recorded record)
      (exampleRun.foldl next .empty).records (closings exampleRun.reverse) ∧
    ((closings exampleRun.reverse).map (·.opening)).Nodup := by
  have hlegal : Machine.Legal Enabled next .empty exampleRun := by decide +kernel
  have hr := (Machine.Run.start (M := machine) rfl).legal hlegal
  rw [List.append_nil] at hr
  exact ⟨by decide +kernel, routes_by_span_tree hr⟩

end Example

end Tracing

end O11y

end RustSak
