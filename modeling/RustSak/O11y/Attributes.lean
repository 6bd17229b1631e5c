import RustSak.O11y.Owned

/-!
# The attributes of a recorded span

What was given for a span, the fields it was opened with and the attributes set
later, is kept beside every run. A span is in one place at a time, so that an
attribute set on one span changes no other; and its attributes are the later ones set
one after the other in the fields of its opening, which are taken as they come.
-/

namespace RustSak

namespace O11y

open Library

variable {θ υ η : Type}

/-- What was given for a span, in the order it was given. -/
structure Given (υ : Type) where
  opening : Fields υ
  later : Fields υ

namespace Given

variable (g : Given υ)

def all : Fields υ := g.opening ++ g.later

/-- The value last given under the key. -/
def last (key : String) : Option υ := g.all.reverse.lookup key

/-- A note gives something if it is an attribute. -/
def noted : Note υ → Given υ
  | .attribute key value => { g with later := g.later ++ [(key, value)] }
  | _ => g

/-- What the code makes of it. -/
def Explains (attributes : Fields υ) : Prop :=
  attributes = Fields.setAll g.later g.opening

/-- Every key once, with the value last given for it. -/
def Unique (attributes : Fields υ) : Prop :=
  attributes.keys.Nodup ∧ ∀ key, attributes.lookup key = g.last key

end Given

/-- What was given for every span. -/
abbrev History (υ : Type) := SpanId → Given υ

namespace History

def empty : History υ := fun _ => ⟨[], []⟩

variable (h : History υ)

def opened (opening : Opening υ η) : History υ :=
  Function.update h opening.id ⟨opening.attributes, []⟩

def noted (id : SpanId) (note : Note υ) : History υ :=
  Function.update h id ((h id).noted note)

/-- What a call gives, to the innermost span of its thread if it is `current()`'s. -/
def after (s : Spans θ υ η) : Call θ υ η → History υ
  | .thread (.enter _ opening) => h.opened opening
  | .thread (.annotate t note _) =>
      (s.threads.stack t).head?.elim h fun span => h.noted span.spanId note
  | .start _ _ opening => h.opened opening
  | .annotate id note _ => h.noted id note
  | _ => h

end History

/-- A call, and beside it what it gives. -/
def giving [DecidableEq θ] (text : String → υ) (s : History υ × Spans θ υ η)
    (call : Call θ υ η) : History υ × Spans θ υ η :=
  (s.1.after s.2 call, s.2.next text call)

def given [DecidableEq θ] (text : String → υ) :
    Machine (History υ × Spans θ υ η) (Call θ υ η) :=
  .guarded (fun s => s = (.empty, .empty)) (fun s => s.2.Enabled) (giving text)

/-! ## What a history makes of attributes -/

/-- Attributes are set as they should be from fields without a repeated key, and from
no others. -/
theorem Given.unique_iff {g : Given υ} {attributes : Fields υ}
    (h : g.Explains attributes) : g.Unique attributes ↔ g.opening.keys.Nodup := by
  rw [Explains] at h
  subst h
  constructor
  · exact fun hunique => hunique.1.sublist (Fields.keys_setAll _ _).sublist
  · intro hnodup
    refine ⟨Fields.nodup_setAll _ hnodup, fun key => ?_⟩
    rw [Fields.lookup_setAll_last, last, all, List.reverse_append, List.lookup_append,
      Fields.lookup_reverse hnodup]

/-- A note on a span is in its history. -/
theorem Given.explains_visit {g : Given υ} {span : SpanState υ η}
    (h : g.Explains span.attributes) (text : String → υ) (now : ℕ) :
    ∀ note : Note υ, (g.noted note).Explains (note.visit text now span).attributes
  | .attribute key value => by
      rw [Explains] at h
      simp only [Explains, noted, Note.visit, SpanState.setAttribute, h,
        Fields.setAll_append]
      rfl
  | .event _ _ => h
  | .error _ => h

/-! ## One place at a time -/

/-- Where a span is. -/
inductive Place (θ : Type) where
  | nowhere
  | thread (t : θ)
  | future
  | handle
  | recorded

/-- The spans with the id on the thread's stack. -/
def State.under (s : State θ υ η) (t : θ) (id : SpanId) : List (SpanState υ η) :=
  (s.stack t).filter (·.spanId == id)

/-- The span in an owner's hands. -/
def Owner.pending : Owner θ υ η → PendingSpan υ η
  | .future pending _ => pending
  | _ => ⟨none, none⟩

theorem State.pending_withOwner (s : State θ υ η) (id : SpanId) (owner : Owner θ υ η) :
    (s.withOwner id owner).pending id = owner.pending := by
  simp only [State.pending, State.withOwner, Function.update_self]
  cases owner <;> rfl

namespace Stack

variable (stack : Stack υ η)

theorem remove_fst (id : SpanId) :
    (stack.remove id).1 = (stack.filter (·.spanId == id)).head? := by
  rw [List.head?_filter]
  rfl

theorem filter_eraseP {α : Type} (p : α → Bool) (xs : List α) :
    (xs.eraseP p).filter p = (xs.filter p).tail := by
  induction xs with
  | nil => rfl
  | cons x xs ih =>
      by_cases hx : p x = true
      · rw [List.eraseP_cons_of_pos hx, List.filter_cons_of_pos hx, List.tail_cons]
      · rw [List.eraseP_cons_of_neg hx, List.filter_cons_of_neg hx,
          List.filter_cons_of_neg hx, ih]

theorem filter_eraseP_of_not {α : Type} {p q : α → Bool}
    (h : ∀ x, p x = true → ¬q x = true) (xs : List α) :
    (xs.eraseP p).filter q = xs.filter q := by
  induction xs with
  | nil => rfl
  | cons x xs ih =>
      by_cases hx : p x = true
      · rw [List.eraseP_cons_of_pos hx, List.filter_cons_of_neg (h x hx)]
      · rw [List.eraseP_cons_of_neg hx, List.filter_cons, List.filter_cons, ih]

/-- What is removed is the first of its id. -/
theorem filter_remove (id : SpanId) :
    (stack.remove id).2.filter (·.spanId == id) =
      (stack.filter (·.spanId == id)).tail :=
  filter_eraseP _ stack

theorem filter_remove_of_ne {id id' : SpanId} (h : id' ≠ id) :
    (stack.remove id).2.filter (·.spanId == id') = stack.filter (·.spanId == id') := by
  refine filter_eraseP_of_not (fun span hid hid' => ?_) stack
  rw [beq_iff_eq] at hid hid'
  exact h (hid'.symm.trans hid)

end Stack

namespace Spans

/-- The span with the id is at most in the one place, and its attributes are what its
history makes of them. -/
structure Tracked (g : Given υ) (place : Place θ) (s : Spans θ υ η) (id : SpanId) :
    Prop where
  stack : ∀ t, s.threads.under t id = [] ∨ ∃ span, s.threads.under t id = [span] ∧
    place = .thread t ∧ g.Explains span.attributes
  pending : s.threads.pending id = ⟨none, none⟩ ∨ (s.threads.pending id).id = some id
  future : ∀ span, (s.threads.pending id).state = some span →
    span.spanId = id ∧ place = .future ∧ g.Explains span.attributes
  owned : ∀ span, (s.owned id).state = some span →
    span.spanId = id ∧ place = .handle ∧ g.Explains span.attributes
  records : ∀ r ∈ s.threads.records, r.spanId = id →
    place = .recorded ∧ g.Explains r.attributes
  fresh : s.Fresh id → place = .nowhere

/-- A span has been taken from its place, or there was none to take. -/
def Loose (g : Given υ) (s : Spans θ υ η) (id : SpanId) :
    Option (SpanState υ η) → Prop
  | some span => Tracked g .nowhere s id ∧ span.spanId = id ∧ g.Explains span.attributes
  | none => ∃ place, Tracked g place s id

/-- Nothing is different for the id. -/
structure Same (s s' : Spans θ υ η) (id : SpanId) : Prop where
  stack : ∀ t, s'.threads.under t id = s.threads.under t id
  pending : s'.threads.pending id = s.threads.pending id
  owned : s'.owned id = s.owned id
  records : ∀ r ∈ s'.threads.records, r.spanId = id → r ∈ s.threads.records
  fresh : s'.Fresh id → s.Fresh id

section Same

variable {s s' s'' : Spans θ υ η} {g : Given υ} {place : Place θ} {id id' : SpanId}

theorem Same.trans (h : Same s s' id) (h' : Same s' s'' id) : Same s s'' id where
  stack t := (h'.stack t).trans (h.stack t)
  pending := h'.pending.trans h.pending
  owned := h'.owned.trans h.owned
  records r hr hid := h.records r (h'.records r hr hid) hid
  fresh hfresh := h.fresh (h'.fresh hfresh)

theorem Tracked.same (h : Tracked g place s id) (hs : Same s s' id) :
    Tracked g place s' id where
  stack t := hs.stack t ▸ h.stack t
  pending := hs.pending ▸ h.pending
  future := hs.pending ▸ h.future
  owned := hs.owned ▸ h.owned
  records r hr hid := h.records r (hs.records r hr hid) hid
  fresh hfresh := h.fresh (hs.fresh hfresh)

/-- The stack of one thread changes, but not in spans with the id. -/
theorem same_withStack [DecidableEq θ] {t : θ} {stack : Stack υ η}
    (h : stack.filter (·.spanId == id) = s.threads.under t id) :
    Same s { s with threads := s.threads.withStack t stack } id where
  stack t' := by
    change (Function.update s.threads.stack t stack t').filter _ = _
    rw [Function.update_apply]
    split
    · rename_i ht
      rw [h, ht]
    · rfl
  pending := rfl
  owned := rfl
  records _ hr _ := hr
  fresh hfresh := hfresh

theorem same_withOwner (h : id' ≠ id) (owner : Owner θ υ η) :
    Same s { s with threads := s.threads.withOwner id owner } id' where
  stack _ := rfl
  pending := by
    simp only [State.pending, State.withOwner, Function.update_of_ne h]
  owned := rfl
  records _ hr _ := hr
  fresh hfresh := by
    simp only [Fresh, State.withOwner, Function.update_of_ne h] at hfresh
    exact hfresh

theorem same_record {record : Option (SpanRecord υ η)}
    (h : ∀ r ∈ record, r.spanId ≠ id) :
    Same s { s with threads := s.threads.record record } id where
  stack _ := rfl
  pending := rfl
  owned := rfl
  records r hr hid := by
    rcases List.mem_append.mp hr with hr | hr
    · exact absurd hid (h r (Option.mem_toList.mp hr))
    · exact hr
  fresh hfresh := hfresh

theorem same_withHandle (h : id' ≠ id) (handle : OwnedSpan υ η) :
    Same s (s.withHandle id handle) id' where
  stack _ := rfl
  pending := rfl
  owned := Function.update_of_ne h ..
  records _ hr _ := hr
  fresh hfresh := by
    simp only [Fresh, withHandle, Function.update_of_ne h] at hfresh
    exact hfresh

end Same

section Moves

variable {s : Spans θ υ η} {g : Given υ} {place : Place θ} {id : SpanId}

/-- A span that is on the thread's stack is taken off it. -/
theorem Tracked.take [DecidableEq θ] (h : Tracked g place s id) (t : θ) :
    Loose g { s with threads := s.threads.withStack t ((s.threads.stack t).remove id).2 }
      id ((s.threads.stack t).remove id).1 := by
  have htail := (s.threads.stack t).filter_remove id
  rw [Stack.remove_fst]
  rcases h.stack t with hnone | ⟨span, hspan, rfl, hexplains⟩
  · rw [State.under] at hnone
    rw [hnone] at htail ⊢
    exact ⟨place, h.same (same_withStack (htail.trans hnone.symm))⟩
  · have hmem : span ∈ s.threads.under t id := hspan ▸ List.mem_singleton_self span
    have hid : span.spanId = id := by simpa using (List.mem_filter.mp hmem).2
    rw [State.under] at hspan
    rw [hspan] at htail ⊢
    refine ⟨⟨fun t' => ?_, h.pending, ?_, ?_, ?_, fun _ => rfl⟩, hid, hexplains⟩
    · change (Function.update s.threads.stack t _ t').filter _ = [] ∨ _
      rw [Function.update_apply]
      split
      · exact .inl htail
      · rename_i ht
        rcases h.stack t' with hnone | ⟨_, _, hplace, _⟩
        · exact .inl hnone
        · exact absurd (Place.thread.inj hplace).symm ht
    · exact fun span hspan => absurd (h.future span hspan).2.1 nofun
    · exact fun span hspan => absurd (h.owned span hspan).2.1 nofun
    · exact fun r hr hid => absurd (h.records r hr hid).1 nofun

/-- A span that is nowhere is pushed. -/
theorem Tracked.push [DecidableEq θ] (h : Tracked g .nowhere s id)
    (hfresh : ¬s.Fresh id) {span : SpanState υ η} (hid : span.spanId = id)
    (hexplains : g.Explains span.attributes) (t : θ) :
    Tracked g (.thread t) { s with
      threads := s.threads.withStack t (span :: s.threads.stack t) } id where
  stack t' := by
    have hnone : s.threads.under t' id = [] :=
      (h.stack t').resolve_right fun ⟨_, _, hplace, _⟩ => nomatch hplace
    change (Function.update s.threads.stack t _ t').filter _ = [] ∨
      ∃ found, (Function.update s.threads.stack t _ t').filter _ = [found] ∧ _
    rw [Function.update_apply]
    split
    · rename_i ht
      subst ht
      have hone : (span :: s.threads.stack t').filter (·.spanId == id) = [span] := by
        rw [List.filter_cons, if_pos (beq_iff_eq.mpr hid)]
        exact congrArg (span :: ·) hnone
      exact .inr ⟨span, hone, rfl, hexplains⟩
    · exact .inl hnone
  pending := h.pending
  future span hspan := absurd (h.future span hspan).2.1 nofun
  owned span hspan := absurd (h.owned span hspan).2.1 nofun
  records r hr hid := absurd (h.records r hr hid).1 nofun
  fresh h' := absurd h' hfresh

theorem not_fresh_withOwner {owner : Owner θ υ η} (howner : owner ≠ .unborn) :
    ¬({ s with threads := s.threads.withOwner id owner } : Spans θ υ η).Fresh id := by
  rintro ⟨hunborn, -⟩
  simp only [State.withOwner, Function.update_self] at hunborn
  exact howner hunborn

theorem not_fresh_ended : ¬(s.withHandle id .ended).Fresh id := by
  rintro ⟨-, hunstarted⟩
  simp only [Spans.withHandle, Function.update_self] at hunstarted
  cases hunstarted

/-- The span has another owner, who has it in hand only if nobody else has. -/
theorem Tracked.withOwner (h : Tracked g place s id) {place' : Place θ}
    (hplace : place = .nowhere ∨ place = place') (owner : Owner θ υ η)
    (howner : owner ≠ .unborn)
    (hpending : owner.pending = ⟨none, none⟩ ∨ owner.pending.id = some id)
    (hfuture : ∀ span, owner.pending.state = some span →
      span.spanId = id ∧ place' = .future ∧ g.Explains span.attributes) :
    Tracked g place' { s with threads := s.threads.withOwner id owner } id := by
  have hkeep : ∀ other, other ≠ .nowhere → place = other → place' = other := by
    rintro other hother rfl
    exact (hplace.resolve_left hother).symm
  refine ⟨fun t => ?_, ?_, ?_, fun span hspan => ?_, fun r hr hid => ?_, fun hfresh => ?_⟩
  · rcases h.stack t with hnone | ⟨span, hspan, ht, hexplains⟩
    · exact .inl hnone
    · exact .inr ⟨span, hspan, hkeep _ nofun ht, hexplains⟩
  · rw [State.pending_withOwner]
    exact hpending
  · rw [State.pending_withOwner]
    exact hfuture
  · obtain ⟨hid, hhandle, hexplains⟩ := h.owned span hspan
    exact ⟨hid, hkeep _ nofun hhandle, hexplains⟩
  · obtain ⟨hrecorded, hexplains⟩ := h.records r hr hid
    exact ⟨hkeep _ nofun hrecorded, hexplains⟩
  · exact absurd hfresh (not_fresh_withOwner howner)

/-- A span that was taken is put in its owner's hands. -/
theorem Loose.withOwner {found : Option (SpanState υ η)} (h : Loose g s id found)
    (owner : Owner θ υ η) (howner : owner ≠ .unborn)
    (hpending : owner.pending = ⟨none, none⟩ ∨ owner.pending.id = some id)
    (hfound : owner.pending.state = found) :
    ∃ place, Tracked g place { s with threads := s.threads.withOwner id owner } id := by
  cases found with
  | none =>
      obtain ⟨place, h⟩ := h
      refine ⟨place, h.withOwner (.inr rfl) owner howner hpending fun span hspan => ?_⟩
      rw [hfound] at hspan
      exact absurd hspan nofun
  | some span =>
      obtain ⟨h, hid, hexplains⟩ := h
      refine ⟨.future, h.withOwner (.inl rfl) owner howner hpending fun span' hspan => ?_⟩
      rw [hfound] at hspan
      obtain rfl := Option.some.inj hspan
      exact ⟨hid, rfl, hexplains⟩

/-- A span that was taken is in no owner's hands. -/
theorem Loose.withoutOwner {found : Option (SpanState υ η)} (h : Loose g s id found)
    (owner : Owner θ υ η) (howner : owner ≠ .unborn)
    (hpending : owner.pending = ⟨none, none⟩) :
    Loose g { s with threads := s.threads.withOwner id owner } id found := by
  have hnone : ∀ span, owner.pending.state ≠ some span := by
    rw [hpending]
    exact nofun
  cases found with
  | none =>
      obtain ⟨place, h⟩ := h
      exact ⟨place, h.withOwner (.inr rfl) owner howner (.inl hpending) fun span hspan =>
        absurd hspan (hnone span)⟩
  | some span =>
      exact ⟨h.1.withOwner (.inl rfl) owner howner (.inl hpending) fun span hspan =>
        absurd hspan (hnone span), h.2⟩

theorem Loose.named {found : Option (SpanState υ η)} (h : Loose g s id found) :
    ∀ span ∈ found, span.spanId = id := by
  rintro span rfl
  exact h.2.1

/-- A span that was taken is recorded. -/
theorem Loose.record {found : Option (SpanState υ η)} (h : Loose g s id found)
    (hfresh : ¬s.Fresh id) (now : ℕ) :
    ∃ place, Tracked g place
      { s with threads := s.threads.record (found.map (·.finish now)) } id := by
  cases found with
  | none => exact h
  | some span =>
      obtain ⟨h, hid, hexplains⟩ := h
      refine ⟨.recorded, fun t => ?_, h.pending, ?_, ?_, fun r hr hr' => ?_,
        fun h' => absurd h' hfresh⟩
      · exact .inl ((h.stack t).resolve_right fun ⟨_, _, hplace, _⟩ => nomatch hplace)
      · exact fun span hspan => absurd (h.future span hspan).2.1 nofun
      · exact fun span hspan => absurd (h.owned span hspan).2.1 nofun
      · rcases List.mem_cons.mp hr with rfl | hr
        · exact ⟨rfl, hexplains⟩
        · exact absurd (h.records r hr hr').1 nofun

/-- A future leaves the thread, with the span it finds there. -/
theorem Tracked.exit [DecidableEq θ] (h : Tracked g place s id) (t : θ) :
    Loose g { s with
        threads := s.threads.withStack t
          ((s.threads.pending id).exit (s.threads.stack t)).2 }
      id ((s.threads.pending id).exit (s.threads.stack t)).1.state ∧
    (((s.threads.pending id).exit (s.threads.stack t)).1 = ⟨none, none⟩ ∨
      ((s.threads.pending id).exit (s.threads.stack t)).1.id = some id) := by
  rcases h.pending with hnone | hid
  · rw [hnone]
    exact ⟨⟨place, h.same (same_withStack rfl)⟩, .inl rfl⟩
  · have hexit : (s.threads.pending id).exit (s.threads.stack t) =
        (⟨some id, ((s.threads.stack t).remove id).1⟩,
          ((s.threads.stack t).remove id).2) := by
      simp only [PendingSpan.exit, hid]
    rw [hexit]
    exact ⟨h.take t, .inr rfl⟩

/-- Leaving a thread, a future takes no other span with it. -/
theorem Tracked.filter_exit (h : Tracked g place s id) {id' : SpanId} (hne : id' ≠ id)
    (stack : Stack υ η) :
    ((s.threads.pending id).exit stack).2.filter (·.spanId == id') =
      stack.filter (·.spanId == id') := by
  rcases h.pending with hnone | hid
  · rw [hnone]
    rfl
  · simp only [PendingSpan.exit, hid]
    exact stack.filter_remove_of_ne hne

variable [DecidableEq θ]

/-- A future that ends on a thread hands its span over, if it has it. -/
def finishOn (s : Spans θ υ η) (t : θ) (id : SpanId) (now : ℕ) (owner : Owner θ υ η) :
    Spans θ υ η :=
  let finished := (s.threads.pending id).finish (s.threads.stack t) now
  { s with
    threads := ((s.threads.withStack t finished.2.2).withOwner id owner).record finished.1 }

theorem Tracked.finishOn (h : Tracked g place s id) (t : θ) (now : ℕ)
    (owner : Owner θ υ η) (howner : owner ≠ .unborn)
    (hpending : owner.pending = ⟨none, none⟩) :
    ∃ place, Tracked g place (s.finishOn t id now owner) id := by
  have hloose := (h.exit t).1.withoutOwner owner howner hpending
  exact hloose.record (not_fresh_withOwner howner) now

theorem Tracked.same_finishOn (h : Tracked g place s id) {id' : SpanId} (hne : id' ≠ id)
    (t : θ) (now : ℕ) (owner : Owner θ υ η) :
    Same s (s.finishOn t id now owner) id' := by
  refine (same_withStack (h.filter_exit hne _)).trans
    ((same_withOwner hne owner).trans (same_record fun r hr => ?_))
  obtain ⟨span, hspan, rfl⟩ := Option.map_eq_some_iff.mp hr
  exact fun heq => hne (heq.symm.trans ((h.exit t).1.named span hspan))

end Moves

section Steps

variable [DecidableEq θ] {s : Spans θ υ η} {h : History υ} {text : String → υ}
  {id : SpanId}

/-- The span a call is about. -/
def subject (s : Spans θ υ η) : Call θ υ η → Option SpanId
  | .thread (.enter _ opening) => some opening.id
  | .thread (.drop _ id _) => some id
  | .thread (.detach _ id) => some id
  | .thread (.poll _ id) => some id
  | .thread (.yields _ id) => some id
  | .thread (.ready _ id _) => some id
  | .thread (.dropFuture _ id _) => some id
  | .thread (.annotate t _ _) => (s.threads.stack t).head?.map SpanState.spanId
  | .start _ _ opening => some opening.id
  | .annotate id .. => some id
  | .addLink id _ => some id
  | .fail id _ => some id
  | .close id .. => some id

omit [DecidableEq θ] in
/-- A call gives nothing to another span. -/
theorem after_of_ne {call : Call θ υ η} (hne : s.subject call ≠ some id) :
    h.after s call id = h id := by
  have hopened : ∀ opening : Opening υ η, opening.id ≠ id → h.opened opening id = h id :=
    fun opening hid => Function.update_of_ne hid.symm ..
  have hnoted : ∀ id' note, id' ≠ id → h.noted id' note id = h id :=
    fun id' note hid => Function.update_of_ne hid.symm ..
  cases call with
  | thread e =>
      cases e with
      | enter t opening => exact hopened opening fun hid => hne (congrArg some hid)
      | annotate t note now =>
          change (s.threads.stack t).head?.elim h _ id = _
          rw [subject] at hne
          cases htop : (s.threads.stack t).head? with
          | none => rfl
          | some span =>
              rw [htop] at hne
              exact hnoted _ note fun hid => hne (congrArg some hid)
      | _ => rfl
  | start t parent opening => exact hopened opening fun hid => hne (congrArg some hid)
  | annotate id' note now => exact hnoted _ note fun hid => hne (congrArg some hid)
  | _ => rfl

/-- A future that is ready leaves the thread before it ends. -/
theorem next_ready (t : θ) (id : SpanId) (now : ℕ) :
    s.next text (.thread (.ready t id now)) =
      (s.next text (.thread (.yields t id))).finishOn t id now
        (.future ⟨none, none⟩ none) := by
  have hexit : (s.next text (.thread (.yields t id))).threads.pending id =
      ((s.threads.pending id).exit (s.threads.stack t)).1 :=
    State.pending_withOwner ..
  have hstack : (s.next text (.thread (.yields t id))).threads.stack t =
      ((s.threads.pending id).exit (s.threads.stack t)).2 :=
    Function.update_self ..
  rw [finishOn, hexit, hstack]
  simp only [next, O11y.next, State.withStack, State.withOwner, State.record,
    Function.update_idem]
  rfl

/-- A polled future puts its span on the stack. -/
theorem Tracked.poll {g : Given υ} {place : Place θ} (h : Tracked g place s id)
    (text : String → υ) (t : θ) :
    ∃ place, Tracked g place (s.next text (.thread (.poll t id))) id := by
  have hnext : s.next text (.thread (.poll t id)) = { s with
      threads := (s.threads.withStack t
        ((s.threads.pending id).enter (s.threads.stack t)).2).withOwner id
          (.future ((s.threads.pending id).enter (s.threads.stack t)).1 (some t)) } := rfl
  rw [hnext, PendingSpan.enter]
  cases hstate : (s.threads.pending id).state with
  | none =>
      have hsame : Tracked g place
          { s with threads := s.threads.withStack t (s.threads.stack t) } id :=
        h.same (same_withStack rfl)
      refine ⟨place, hsame.withOwner (.inr rfl) _ nofun h.pending fun span hspan => ?_⟩
      exact absurd (hstate.symm.trans hspan) nofun
  | some span =>
      obtain ⟨hid, rfl, hexplains⟩ := h.future span hstate
      have hpending : (s.threads.pending id).id = some id :=
        h.pending.resolve_left fun hnone => by rw [hnone] at hstate; cases hstate
      have hlift : Tracked g .nowhere { s with
          threads := s.threads.withOwner id
            (.future { s.threads.pending id with state := none } (some t)) } id := by
        refine ⟨fun t => .inl ?_, ?_, ?_, ?_, ?_, fun _ => rfl⟩
        · exact (h.stack t).resolve_right fun ⟨_, _, ht, _⟩ => nomatch ht
        · rw [State.pending_withOwner]
          exact .inr hpending
        · rw [State.pending_withOwner]
          exact nofun
        · exact fun span hspan => absurd (h.owned span hspan).2.1 nofun
        · exact fun r hr hid => absurd (h.records r hr hid).1 nofun
      exact ⟨.thread t, hlift.push (not_fresh_withOwner nofun) hid hexplains t⟩

theorem Tracked.yields {g : Given υ} {place : Place θ} (h : Tracked g place s id)
    (text : String → υ) (t : θ) :
    ∃ place, Tracked g place (s.next text (.thread (.yields t id))) id := by
  obtain ⟨hloose, hpending⟩ := h.exit t
  exact hloose.withOwner (.future _ none) nofun hpending rfl

theorem Tracked.same_yields {g : Given υ} {place : Place θ} (h : Tracked g place s id)
    {id' : SpanId} (hne : id' ≠ id) (t : θ) :
    Same s (s.next text (.thread (.yields t id))) id' :=
  (same_withStack (h.filter_exit hne _)).trans (same_withOwner hne _)

/-- A call changes nothing of another span. -/
theorem same_of_ne {call : Call θ υ η} (henabled : s.Enabled call)
    (hs : ∀ id, ∃ place, Tracked (h id) place s id)
    (hne : s.subject call ≠ some id) : Same s (s.next text call) id := by
  cases call with
  | thread e =>
      cases e with
      | enter t opening =>
          have hid : id ≠ opening.id := fun heq => hne (congrArg some heq.symm)
          refine (same_withStack ?_).trans (same_withOwner hid _)
          exact List.filter_cons_of_neg fun heq => hid (beq_iff_eq.mp heq).symm
      | drop t id' now =>
          have hid : id ≠ id' := fun heq => hne (congrArg some heq.symm)
          obtain ⟨place, htracked⟩ := hs id'
          refine (same_withStack (Stack.filter_remove_of_ne _ hid)).trans
            ((same_withOwner hid _).trans (same_record fun r hr => ?_))
          obtain ⟨span, hspan, rfl⟩ := Option.map_eq_some_iff.mp hr
          exact fun heq => hid (heq.symm.trans ((htracked.take t).named span hspan))
      | detach t id' =>
          have hid : id ≠ id' := fun heq => hne (congrArg some heq.symm)
          exact (same_withStack (Stack.filter_remove_of_ne _ hid)).trans
            (same_withOwner hid _)
      | poll t id' =>
          have hid : id ≠ id' := fun heq => hne (congrArg some heq.symm)
          obtain ⟨place, htracked⟩ := hs id'
          refine (same_withStack ?_).trans (same_withOwner hid _)
          rw [PendingSpan.enter]
          cases hstate : (s.threads.pending id').state with
          | none => rfl
          | some span =>
              obtain ⟨hspan, -⟩ := htracked.future span hstate
              exact List.filter_cons_of_neg fun heq =>
                hid ((beq_iff_eq.mp heq).symm.trans hspan)
      | yields t id' =>
          have hid : id ≠ id' := fun heq => hne (congrArg some heq.symm)
          obtain ⟨place, htracked⟩ := hs id'
          exact htracked.same_yields hid t
      | ready t id' now =>
          have hid : id ≠ id' := fun heq => hne (congrArg some heq.symm)
          obtain ⟨place, htracked⟩ := hs id'
          obtain ⟨place', hyields⟩ := htracked.yields text t
          rw [next_ready]
          exact (htracked.same_yields hid t).trans (hyields.same_finishOn hid t now _)
      | dropFuture t id' now =>
          have hid : id ≠ id' := fun heq => hne (congrArg some heq.symm)
          obtain ⟨place, htracked⟩ := hs id'
          exact htracked.same_finishOn hid t now .gone
      | annotate t note now =>
          refine same_withStack ?_
          rw [State.under]
          cases hstack : s.threads.stack t with
          | nil => rfl
          | cons span rest =>
              rw [subject, hstack] at hne
              have hid : ¬(span.spanId == id) = true := fun heq =>
                hne (congrArg some (beq_iff_eq.mp heq))
              have hvisit : ¬((note.visit text now span).spanId == id) = true := by
                rwa [spanId_visit]
              simp only [Stack.withCurrent, List.filter_cons, if_neg hid, if_neg hvisit]
  | start t parent opening =>
      exact same_withHandle (fun heq => hne (congrArg some heq.symm)) _
  | annotate id' note now =>
      exact same_withHandle (fun heq => hne (congrArg some heq.symm)) _
  | addLink id' context =>
      exact same_withHandle (fun heq => hne (congrArg some heq.symm)) _
  | fail id' message =>
      exact same_withHandle (fun heq => hne (congrArg some heq.symm)) _
  | close id' now enabled =>
      have hid : id ≠ id' := fun heq => hne (congrArg some heq.symm)
      obtain ⟨place, htracked⟩ := hs id'
      refine (same_withHandle hid .ended).trans (same_record fun r hr => ?_)
      obtain ⟨-, hr⟩ := Option.ite_none_right_eq_some.mp hr
      obtain ⟨span, hspan, rfl⟩ := Option.map_eq_some_iff.mp hr
      exact fun heq => hid (heq.symm.trans (htracked.owned span hspan).1)

omit [DecidableEq θ] in
/-- A span that has not been opened has any history. -/
theorem Tracked.nowhere {g : Given υ} (h : Tracked g .nowhere s id) (g' : Given υ) :
    Tracked g' .nowhere s id where
  stack t := .inl ((h.stack t).resolve_right fun ⟨_, _, hplace, _⟩ => nomatch hplace)
  pending := h.pending
  future span hspan := absurd (h.future span hspan).2.1 nofun
  owned span hspan := absurd (h.owned span hspan).2.1 nofun
  records r hr hid := absurd (h.records r hr hid).1 nofun
  fresh _ := rfl

omit [DecidableEq θ] in
/-- A handle takes the place of another, and has the span in hand only if nobody else
has. -/
theorem Tracked.withHandle {g g' : Given υ} {place : Place θ} (h : Tracked g place s id)
    (hplace : place = .nowhere ∨ place = .handle) (handle : OwnedSpan υ η)
    (hstarted : handle ≠ .unstarted)
    (hstate : ∀ span, handle.state = some span →
      span.spanId = id ∧ g'.Explains span.attributes) :
    Tracked g' .handle (s.withHandle id handle) id := by
  have hno : ∀ other, other ≠ .nowhere → other ≠ .handle → place ≠ other := by
    rintro _ hnowhere hhandle rfl
    exact hplace.elim hnowhere hhandle
  have hself : (s.withHandle id handle).owned id = handle := Function.update_self ..
  refine ⟨fun t => .inl ?_, h.pending, fun span hspan => ?_, fun span hspan => ?_,
    fun r hr hid => ?_, fun hfresh => ?_⟩
  · exact (h.stack t).resolve_right fun ⟨_, _, ht, _⟩ => hno (.thread t) nofun nofun ht
  · exact absurd (h.future span hspan).2.1 (hno _ nofun nofun)
  · rw [hself] at hspan
    exact ⟨(hstate span hspan).1, rfl, (hstate span hspan).2⟩
  · exact absurd (h.records r hr hid).1 (hno _ nofun nofun)
  · exact absurd (hself.symm.trans hfresh.2) hstarted

omit [DecidableEq θ] in
/-- A live handle's span is visited. -/
theorem Tracked.visit {g g' : Given υ} {place : Place θ} (h : Tracked g place s id)
    (hlive : (s.owned id).state.isSome) (change : SpanState υ η → SpanState υ η)
    (hchange : ∀ span, (change span).spanId = span.spanId ∧
      (g.Explains span.attributes → g'.Explains (change span).attributes)) :
    ∃ place, Tracked g' place (s.visit id change) id := by
  cases hhandle : s.owned id with
  | unstarted =>
      rw [hhandle] at hlive
      exact absurd hlive nofun
  | ended =>
      rw [hhandle] at hlive
      exact absurd hlive nofun
  | live span =>
      obtain ⟨hid, hplace, hexplains⟩ := h.owned span (by rw [hhandle]; rfl)
      rw [Spans.visit, hhandle]
      refine ⟨.handle, h.withHandle (.inr hplace) _ nofun fun span' hspan => ?_⟩
      obtain rfl := Option.some.inj hspan
      exact ⟨(hchange span).1.trans hid, (hchange span).2 hexplains⟩

omit [DecidableEq θ] in
/-- The handle lets go of its span. -/
theorem Tracked.release {g : Given υ} {place : Place θ} (h : Tracked g place s id) :
    Loose g (s.withHandle id .ended) id (s.owned id).state := by
  have hself : (s.withHandle id .ended).owned id = .ended := Function.update_self ..
  cases hstate : (s.owned id).state with
  | none =>
      refine ⟨place, h.stack, h.pending, h.future, fun span hspan => ?_, h.records,
        fun hfresh => absurd hfresh not_fresh_ended⟩
      rw [hself] at hspan
      exact absurd hspan nofun
  | some span =>
      obtain ⟨hid, rfl, hexplains⟩ := h.owned span hstate
      refine ⟨⟨fun t => .inl ?_, h.pending, fun span hspan => ?_, fun span hspan => ?_,
        fun r hr hid => ?_, fun _ => rfl⟩, hid, hexplains⟩
      · exact (h.stack t).resolve_right fun ⟨_, _, ht, _⟩ => nomatch ht
      · exact absurd (h.future span hspan).2.1 nofun
      · rw [hself] at hspan
        exact absurd hspan nofun
      · exact absurd (h.records r hr hid).1 nofun

omit [DecidableEq θ] in
theorem Loose.tracked {g : Given υ} {found : Option (SpanState υ η)}
    (h : Loose g s id found) : ∃ place, Tracked g place s id := by
  cases found with
  | none => exact h
  | some span => exact ⟨.nowhere, h.1⟩

/-- A note is left on the innermost span of a thread. -/
theorem Tracked.annotate {g : Given υ} {place : Place θ} (h : Tracked g place s id)
    {t : θ} {span : SpanState υ η} {rest : Stack υ η}
    (hstack : s.threads.stack t = span :: rest) (hid : span.spanId = id)
    (text : String → υ) (note : Note υ) (now : ℕ) :
    ∃ place, Tracked (g.noted note) place
      (s.next text (.thread (.annotate t note now))) id := by
  have hpos : ∀ span : SpanState υ η, span.spanId = id → (span.spanId == id) = true :=
    fun span hid => beq_iff_eq.mpr hid
  have hunder : s.threads.under t id = span :: rest.filter (·.spanId == id) := by
    rw [State.under, hstack, List.filter_cons, if_pos (hpos span hid)]
  obtain ⟨rfl, hrest, hexplains⟩ : place = .thread t ∧ rest.filter (·.spanId == id) = [] ∧
      g.Explains span.attributes := by
    rcases h.stack t with hnone | ⟨_, hone, hplace, hexplains⟩
    · rw [hunder] at hnone
      exact absurd hnone (List.cons_ne_nil _ _)
    · obtain ⟨rfl, hrest⟩ := List.cons.inj (hunder.symm.trans hone)
      exact ⟨hplace, hrest, hexplains⟩
  refine ⟨.thread t, fun t' => ?_, h.pending, fun span hspan => ?_, fun span hspan => ?_,
    fun r hr hid => ?_, fun hfresh => absurd (h.fresh hfresh) (by simp)⟩
  · change (Function.update s.threads.stack t _ t').filter _ = [] ∨
      ∃ found, (Function.update s.threads.stack t _ t').filter _ = [found] ∧ _
    rw [Function.update_apply]
    split
    · rename_i ht
      refine .inr ⟨note.visit text now span, ?_, congrArg _ ht.symm,
        Given.explains_visit hexplains text now note⟩
      have hvisit := hpos _ ((spanId_visit text note now span).trans hid)
      rw [hstack, Stack.withCurrent, List.filter_cons, if_pos hvisit, hrest]
    · rename_i ht
      rcases h.stack t' with hnone | ⟨_, _, hplace, _⟩
      · exact .inl hnone
      · exact absurd (Place.thread.inj hplace).symm ht
  · exact absurd (h.future span hspan).2.1 (by simp)
  · exact absurd (h.owned span hspan).2.1 (by simp)
  · exact absurd (h.records r hr hid).1 (by simp)

/-- What a call does to its own span is in the history. -/
theorem tracked_next {call : Call θ υ η} (henabled : s.Enabled call)
    (hid : s.subject call = some id) (hs : ∃ place, Tracked (h id) place s id) :
    ∃ place, Tracked (h.after s call id) place (s.next text call) id := by
  obtain ⟨place, hs⟩ := hs
  cases call with
  | thread e =>
      cases e with
      | enter t opening =>
          obtain rfl := Option.some.inj hid
          obtain rfl := hs.fresh henabled
          have hgiven : h.after s (.thread (.enter t opening)) opening.id =
            ⟨opening.attributes, []⟩ := Function.update_self ..
          rw [hgiven]
          have howner := (hs.nowhere ⟨opening.attributes, []⟩).withOwner (.inr rfl)
            (.guard t) nofun (.inl rfl) nofun
          have hnext : s.next text (.thread (.enter t opening)) = { s with
              threads := (s.threads.withOwner opening.id (.guard t)).withStack t
                (opening.start (s.threads.stack t) .current :: s.threads.stack t) } := rfl
          rw [hnext]
          refine ⟨.thread t, howner.push (not_fresh_withOwner nofun) ?_ ?_ t⟩
          · rfl
          · rfl
      | drop t id' now =>
          obtain rfl := Option.some.inj hid
          have hloose := (hs.take t).withoutOwner .gone nofun rfl
          exact hloose.record (not_fresh_withOwner nofun) now
      | detach t id' =>
          obtain rfl := Option.some.inj hid
          exact (hs.take t).withOwner (.future _ none) nofun (.inr rfl) rfl
      | poll t id' =>
          obtain rfl := Option.some.inj hid
          exact hs.poll text t
      | yields t id' =>
          obtain rfl := Option.some.inj hid
          exact hs.yields text t
      | ready t id' now =>
          obtain rfl := Option.some.inj hid
          obtain ⟨place', hyields⟩ := hs.yields text t
          rw [next_ready]
          exact hyields.finishOn t now _ nofun rfl
      | dropFuture t id' now =>
          obtain rfl := Option.some.inj hid
          exact hs.finishOn t now .gone nofun rfl
      | annotate t note now =>
          obtain ⟨span, htop, hspan⟩ := Option.map_eq_some_iff.mp hid
          obtain ⟨rest, hstack⟩ := List.head?_eq_some_iff.mp htop
          have hgiven : h.after s (.thread (.annotate t note now)) id =
              (h id).noted note := by
            rw [History.after, htop, ← hspan]
            exact Function.update_self ..
          rw [hgiven]
          exact hs.annotate hstack hspan text note now
  | start t parent opening =>
      obtain rfl := Option.some.inj hid
      obtain rfl := hs.fresh henabled
      have hgiven : h.after s (.start t parent opening) opening.id =
        ⟨opening.attributes, []⟩ := Function.update_self ..
      rw [hgiven]
      refine ⟨.handle, hs.withHandle (.inl rfl) _ nofun fun span hspan => ?_⟩
      obtain rfl := Option.some.inj hspan
      exact ⟨rfl, rfl⟩
  | annotate id' note now =>
      obtain rfl := Option.some.inj hid
      have hgiven : h.after s (.annotate id' note now) id' = (h id').noted note :=
        Function.update_self ..
      rw [hgiven]
      exact hs.visit henabled _ fun span =>
        ⟨spanId_visit text note now span, fun hg => Given.explains_visit hg text now note⟩
  | addLink id' context =>
      obtain rfl := Option.some.inj hid
      exact hs.visit henabled _ fun span => ⟨rfl, fun hg => hg⟩
  | fail id' message =>
      obtain rfl := Option.some.inj hid
      exact hs.visit henabled _ fun span => ⟨rfl, fun hg => hg⟩
  | close id' now enabled =>
      obtain rfl := Option.some.inj hid
      cases enabled with
      | false => exact hs.release.tracked
      | true => exact hs.release.record not_fresh_ended now

/-- A call keeps every span in its place or moves it to another. -/
theorem tracked_after {call : Call θ υ η} (henabled : s.Enabled call)
    (hs : ∀ id, ∃ place, Tracked (h id) place s id) (id : SpanId) :
    ∃ place, Tracked (h.after s call id) place (s.next text call) id := by
  by_cases hid : s.subject call = some id
  · exact tracked_next henabled hid (hs id)
  · obtain ⟨place, htracked⟩ := hs id
    have hafter : h.after s call id = h id := after_of_ne hid
    rw [← hafter] at htracked
    exact ⟨place, htracked.same (same_of_ne henabled hs hid)⟩

theorem tracked_run {s : History υ × Spans θ υ η} {calls : List (Call θ υ η)}
    (hr : (given text).Run calls s) : ∀ id, ∃ place, Tracked (s.1 id) place s.2 id := by
  refine hr.invariant (I := fun _ s => ∀ id, ∃ place, Tracked (s.1 id) place s.2 id) ?_ ?_
  · rintro _ rfl id
    exact ⟨.nowhere, fun t => .inl rfl, .inl rfl, nofun, nofun, nofun, fun _ => rfl⟩
  · rintro calls call s _ - hinv ⟨henabled, rfl⟩ id
    exact tracked_after henabled hinv id

/-- In every run, every recorded span holds each key once, with the value last given
for it, if and only if no key was repeated in the fields it was opened with. -/
theorem attributes_unique_iff (text : String → υ) {s : History υ × Spans θ υ η}
    {calls : List (Call θ υ η)} (hr : (given text).Run calls s) :
    ∀ r ∈ s.2.threads.records,
      (s.1 r.spanId).Unique r.attributes ↔ (s.1 r.spanId).opening.keys.Nodup := by
  intro r hrecord
  obtain ⟨place, htracked⟩ := tracked_run hr r.spanId
  exact Given.unique_iff (htracked.records r hrecord rfl).2

end Steps

section Examples

/-- A span opened at `0` with some fields. -/
def opening (id : SpanId) (fields : Fields ℕ) : Opening ℕ Unit :=
  ⟨id, 1, "work", fields, (), 0⟩

/-- Where calls lead from the start. -/
def replay (calls : List (Call Unit ℕ Unit)) : History ℕ × Spans Unit ℕ Unit :=
  calls.foldl (giving fun _ => 0) (.empty, .empty)

theorem run_replay {calls : List (Call Unit ℕ Unit)}
    (h : Machine.Legal (fun s : History ℕ × Spans Unit ℕ Unit => s.2.Enabled)
      (giving fun _ => 0) (.empty, .empty) calls) :
    (given fun _ => 0).Run calls.reverse (replay calls) := by
  have hrun := Machine.Run.legal (.start rfl :
    (given fun _ => 0).Run [] ((.empty, .empty) : History ℕ × Spans Unit ℕ Unit)) h
  rwa [List.append_nil] at hrun

/-- An attribute that is set twice. -/
def updated : List (Call Unit ℕ Unit) :=
  [.thread (.enter () (opening 7 [("a", 1)])),
    .thread (.annotate () (.attribute "b" 2) 1),
    .thread (.annotate () (.attribute "a" 3) 2), .thread (.drop () 7 3)]

theorem attributes_unique_iff_updated :
    ((replay updated).1 7).Unique [("a", 3), ("b", 2)] := by
  have hr : (given fun _ => 0).Run updated.reverse (replay updated) :=
    run_replay ⟨⟨rfl, rfl⟩, trivial, trivial, ⟨(), rfl⟩, trivial⟩
  exact (attributes_unique_iff _ hr _ List.mem_cons_self).mpr (by decide)

/-- A span started with a repeated key. -/
def repeated : List (Call Unit ℕ Unit) :=
  [.start () .root (opening 7 [("a", 1), ("a", 2)]), .close 7 3 true]

theorem repeated_key_recorded :
    ¬ ∀ (calls : List (Call Unit ℕ Unit)) (s : History ℕ × Spans Unit ℕ Unit),
        (given fun _ => 0).Run calls s →
        ∀ r ∈ s.2.threads.records, (s.1 r.spanId).Unique r.attributes := by
  intro h
  have hr : (given fun _ => 0).Run repeated.reverse (replay repeated) :=
    run_replay ⟨⟨rfl, rfl⟩, rfl, trivial⟩
  have hnodup := (h _ _ hr _ List.mem_cons_self).1
  exact absurd hnodup (by decide)

end Examples

end Spans

end O11y

end RustSak
