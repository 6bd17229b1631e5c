import RustSak.O11y.Spans

/-!
# Which spans are recorded

A history says by itself which spans are closed and which are entered on a
thread. What the pipeline has been handed, and what the stacks hold, are compared
with it. As long as guards stay on their threads and no instrumented future comes
to an end, they agree; the first step that is otherwise leaves a span that is
closed and not recorded, or one that is detached and still on a stack.
-/

namespace RustSak

namespace O11y

open Library

variable {θ υ η : Type}

/-- The span a step closes: a guard is dropped, or a future is ready or is dropped
before. -/
def Event.closes : Event θ υ η → Option SpanId
  | .drop _ id _ => some id
  | .ready _ id _ => some id
  | .dropFuture _ id _ => some id
  | _ => none

def closed (es : List (Event θ υ η)) (id : SpanId) : Bool :=
  es.any fun e => e.closes == some id

/-- The open spans entered on the thread and not detached, the last first. -/
def entered [DecidableEq θ] : List (Event θ υ η) → θ → List SpanId
  | [], _ => []
  | .enter t opening :: es, t' =>
      if t' = t then opening.id :: entered es t' else entered es t'
  | .poll t id :: es, t' =>
      if t' = t ∧ closed es id = false then id :: entered es t' else entered es t'
  | .drop _ id _ :: es, t' => (entered es t').erase id
  | .detach _ id :: es, t' => (entered es t').erase id
  | .yields _ id :: es, t' => (entered es t').erase id
  | .ready _ id _ :: es, t' => (entered es t').erase id
  | .dropFuture _ id _ :: es, t' => (entered es t').erase id
  | .annotate .. :: es, t' => entered es t'

/-- Every span that is closed was recorded, once, and no other; and the stack of
a thread holds the spans that are entered on it. -/
structure Exact [DecidableEq θ] (es : List (Event θ υ η)) (s : State θ υ η) :
    Prop where
  records : ∀ id, s.records.countP (·.spanId == id) = if closed es id then 1 else 0
  stack : ∀ t, (s.stack t).map SpanState.spanId = entered es t

/-- A guard is dropped or detached on the thread that opened its span, and no
instrumented future is ready or dropped. -/
def Meets (s : State θ υ η) : Event θ υ η → Prop
  | .drop t id _ => s.owner id = .guard t
  | .detach t id => s.owner id = .guard t
  | .ready .. => False
  | .dropFuture .. => False
  | _ => True

/-- The thread on whose stack an owned span is. -/
def Owner.thread : Owner θ υ η → Option θ
  | .guard t => some t
  | .future _ polled => polled
  | _ => none

/-- What a future holds of its span while it is polled and while it is not. -/
def PendingSpan.Fits (pending : PendingSpan υ η) (id : SpanId) (polled : Option θ) :
    Prop :=
  pending.id = some id ∧
    match polled with
    | some _ => pending.state = none
    | none => ∃ state, pending.state = some state ∧ state.spanId = id

structure Inv [DecidableEq θ] (es : List (Event θ υ η)) (s : State θ υ η) :
    Prop where
  exact : Exact es s
  mem : ∀ t id, id ∈ entered es t ↔ (s.owner id).thread = some t
  nodup : ∀ t, (entered es t).Nodup
  fits : ∀ id pending polled, s.owner id = .future pending polled →
    pending.Fits id polled
  gone : ∀ id, closed es id = true ↔ s.owner id = .gone

section Steps

variable [DecidableEq θ] {es : List (Event θ υ η)} {s : State θ υ η}

omit [DecidableEq θ] in
theorem closed_cons (e : Event θ υ η) (id : SpanId) :
    closed (e :: es) id = ((e.closes == some id) || closed es id) := rfl

theorem Inv.stack_of_thread (h : Inv es s) {id : SpanId} {t : θ}
    (hid : (s.owner id).thread = some t) :
    id ∈ (s.stack t).map SpanState.spanId := by
  rw [h.exact.stack]
  exact (h.mem t id).mpr hid

/-- The span of a guard or of a poll is on its thread's stack, to be taken
off. -/
theorem Inv.remove_eq (h : Inv es s) {id : SpanId} {t : θ}
    (hid : (s.owner id).thread = some t) :
    ∃ state, ((s.stack t).remove id).1 = some state ∧ state.spanId = id :=
  (s.stack t).remove_of_mem id (h.stack_of_thread hid)

theorem Inv.stack_of_ne (h : Inv es s) {id : SpanId} {t : θ}
    (hid : (s.owner id).thread ≠ some t) :
    id ∉ (s.stack t).map SpanState.spanId := by
  rw [h.exact.stack]
  exact fun hmem => hid ((h.mem t id).mp hmem)

/-- Before a span is closed it has no record. -/
theorem Inv.count_eq_zero (h : Inv es s) {id : SpanId} (hid : s.owner id ≠ .gone) :
    closed es id = false ∧ s.records.countP (·.spanId == id) = 0 := by
  have hopen : closed es id = false := by
    cases hc : closed es id with
    | false => rfl
    | true => exact absurd ((h.gone id).mp hc) hid
  exact ⟨hopen, by rw [h.exact.records, hopen]; rfl⟩

theorem Inv.push (h : Inv es s) {e : Event θ υ η} {t : θ} {id : SpanId}
    {span : SpanState υ η} {owner : Owner θ υ η}
    (hentered : ∀ t', entered (e :: es) t' =
      if t' = t then id :: entered es t' else entered es t')
    (hclosed : e.closes = none) (hspan : span.spanId = id)
    (hthread : (s.owner id).thread = none) (hgone : s.owner id ≠ .gone)
    (howner : owner.thread = some t)
    (hfits : ∀ pending polled, owner = .future pending polled →
      pending.Fits id polled) :
    Inv (e :: es) ((s.withStack t (span :: s.stack t)).withOwner id owner) := by
  have hsame : ∀ id', closed (e :: es) id' = closed es id' := fun id' => by
    rw [closed_cons, hclosed]
    rfl
  have hout : ∀ t', id ∉ entered es t' := fun t' hmem => by
    rw [h.mem, hthread] at hmem
    cases hmem
  have hid : ∀ id',
      ((s.withStack t (span :: s.stack t)).withOwner id owner).owner id' =
        if id' = id then owner else s.owner id' :=
    fun id' => Function.update_apply ..
  refine ⟨⟨fun id' => ?_, fun t' => ?_⟩, fun t' id' => ?_, fun t' => ?_,
    fun id' pending polled => ?_, fun id' => ?_⟩
  · rw [hsame]
    exact h.exact.records id'
  · change (Function.update s.stack t _ t').map _ = _
    rw [hentered, Function.update_apply]
    split
    · rename_i ht
      rw [List.map_cons, hspan, h.exact.stack, ht]
    · exact h.exact.stack t'
  · rw [hentered, hid]
    by_cases heq : id' = id
    · subst heq
      rw [if_pos rfl, howner]
      split
      · rename_i ht
        simp [ht]
      · rename_i ht
        exact ⟨fun hmem => absurd hmem (hout t'),
          fun hsome => absurd (Option.some.inj hsome).symm ht⟩
    · rw [if_neg heq, ← h.mem]
      split
      · simp [heq]
      · rfl
  · rw [hentered]
    split
    · exact List.nodup_cons.mpr ⟨hout t', h.nodup t'⟩
    · exact h.nodup t'
  · rw [hid]
    split
    · rename_i heq
      subst heq
      exact hfits pending polled
    · exact h.fits id' pending polled
  · rw [hsame, hid, h.gone]
    split
    · rename_i heq
      subst heq
      refine iff_of_false hgone ?_
      rintro rfl
      cases howner
    · rfl

/-- A span is taken off the stack it is on; it is recorded if that closes it. -/
theorem Inv.lift (h : Inv es s) {e : Event θ υ η} {t : θ} {id : SpanId}
    {owner : Owner θ υ η} (record : Option (SpanRecord υ η))
    (hentered : ∀ t', entered (e :: es) t' = (entered es t').erase id)
    (hthread : (s.owner id).thread = some t) (howner : owner.thread = none)
    (hfits : ∀ pending polled, owner = .future pending polled →
      pending.Fits id polled)
    (hrecord : (owner = .gone ∧ e.closes = some id ∧
        ∃ r, record = some r ∧ r.spanId = id) ∨
      (owner ≠ .gone ∧ e.closes = none ∧ record = none)) :
    Inv (e :: es) (((s.withStack t ((s.stack t).remove id).2).withOwner id
      owner).record record) := by
  have hgone : s.owner id ≠ .gone := fun hg => by
    rw [hg] at hthread
    cases hthread
  obtain ⟨hopen, hcount⟩ := h.count_eq_zero hgone
  have hid : ∀ id', (((s.withStack t ((s.stack t).remove id).2).withOwner id
      owner).record record).owner id' = if id' = id then owner else s.owner id' :=
    fun id' => Function.update_apply ..
  have hothers : ∀ id', id' ≠ id → closed (e :: es) id' = closed es id' ∧
      record.toList.countP (·.spanId == id') = 0 := by
    intro id' hne
    rcases hrecord with ⟨_, hcloses, r, rfl, hr⟩ | ⟨_, hcloses, rfl⟩
    · rw [closed_cons, hcloses]
      simp [hr, Ne.symm hne]
    · rw [closed_cons, hcloses]
      exact ⟨rfl, rfl⟩
  refine ⟨⟨fun id' => ?_, fun t' => ?_⟩, fun t' id' => ?_, fun t' => ?_,
    fun id' pending polled => ?_, fun id' => ?_⟩
  · change (record.toList ++ s.records).countP _ = _
    rw [List.countP_append]
    by_cases heq : id' = id
    · subst heq
      rw [hcount]
      rcases hrecord with ⟨_, hcloses, r, rfl, hr⟩ | ⟨_, hcloses, rfl⟩
      · rw [closed_cons, hcloses]
        simp [hr]
      · rw [closed_cons, hcloses, hopen]
        rfl
    · obtain ⟨hc, hn⟩ := hothers id' heq
      rw [hn, hc, Nat.zero_add]
      exact h.exact.records id'
  · change (Function.update s.stack t _ t').map _ = _
    rw [hentered, Function.update_apply]
    split
    · rename_i ht
      rw [Stack.map_remove, h.exact.stack, ht]
    · rename_i ht
      rw [h.exact.stack, List.erase_of_not_mem]
      rw [h.mem, hthread]
      exact fun hsome => ht (Option.some.inj hsome).symm
  · rw [hentered, hid, (h.nodup t').mem_erase_iff]
    by_cases heq : id' = id
    · subst heq
      rw [if_pos rfl, howner]
      simp
    · rw [if_neg heq, h.mem]
      simp [heq]
  · rw [hentered]
    exact (h.nodup t').erase id
  · rw [hid]
    split
    · rename_i heq
      subst heq
      exact hfits pending polled
    · exact h.fits id' pending polled
  · rw [hid]
    by_cases heq : id' = id
    · subst heq
      rw [if_pos rfl]
      rcases hrecord with ⟨ho, hcloses, _⟩ | ⟨ho, hcloses, _⟩
      · rw [closed_cons, hcloses]
        simp [ho]
      · rw [closed_cons, hcloses, hopen]
        simp [ho]
    · rw [if_neg heq, (hothers id' heq).1]
      exact h.gone id'

omit [DecidableEq θ] in
theorem State.pending_of_owner {id : SpanId} {pending : PendingSpan υ η}
    {polled : Option θ} (hid : s.owner id = .future pending polled) :
    s.pending id = pending := by
  rw [State.pending, hid]

/-- The guard of a poll takes the span off the stack. -/
theorem Inv.exit_eq (h : Inv es s) {id : SpanId} {pending : PendingSpan υ η}
    {polled : Option θ} (hid : s.owner id = .future pending polled)
    (stack : Stack υ η) :
    (s.pending id).exit stack =
      ({ pending with state := (stack.remove id).1 }, (stack.remove id).2) := by
  have hpending := (h.fits id pending polled hid).1
  rw [State.pending_of_owner hid, PendingSpan.exit, hpending]

/-- A step that keeps guards on their threads and ends no future. -/
theorem Inv.next (h : Inv es s) {text : String → υ} {e : Event θ υ η}
    (he : Enabled s e) (hmeets : Meets s e) : Inv (e :: es) (O11y.next s text e) := by
  cases e with
  | enter t opening =>
      have hid : s.owner opening.id = .unborn := he
      refine h.push (fun t' => rfl) rfl rfl ?_ ?_ rfl ?_
      · rw [hid]
        rfl
      · rw [hid]
        exact nofun
      · exact nofun
  | drop t id now =>
      have hid : s.owner id = .guard t := hmeets
      have hthread : (s.owner id).thread = some t := by rw [hid]; rfl
      obtain ⟨state, hstate, hspan⟩ := h.remove_eq hthread
      refine h.lift _ (fun t' => rfl) hthread rfl nofun (.inl ⟨rfl, rfl, ?_⟩)
      exact ⟨state.finish now, by rw [hstate]; rfl, hspan⟩
  | detach t id =>
      have hid : s.owner id = .guard t := hmeets
      have hthread : (s.owner id).thread = some t := by rw [hid]; rfl
      obtain ⟨state, hstate, hspan⟩ := h.remove_eq hthread
      refine h.lift none (fun t' => rfl) hthread rfl ?_
        (.inr ⟨nofun, rfl, rfl⟩)
      rintro pending polled hfuture
      obtain ⟨rfl, rfl⟩ := Owner.future.inj hfuture
      exact ⟨rfl, state, hstate, hspan⟩
  | poll t id =>
      obtain ⟨pending, hid⟩ := he
      obtain ⟨hpending, state, hstate, hspan⟩ := h.fits id pending none hid
      have hgone : s.owner id ≠ .gone := by
        rw [hid]
        exact nofun
      have hopen := (h.count_eq_zero hgone).1
      have henter : (s.pending id).enter (s.stack t) =
          ({ pending with state := none }, state :: s.stack t) := by
        rw [State.pending_of_owner hid, PendingSpan.enter, hstate]
      rw [O11y.next, henter]
      refine h.push (fun t' => ?_) rfl hspan ?_ ?_ rfl ?_
      · simp [entered, hopen]
      · rw [hid]
        rfl
      · exact hgone
      · rintro pending' polled hfuture
        obtain ⟨rfl, rfl⟩ := Owner.future.inj hfuture
        exact ⟨hpending, rfl⟩
  | yields t id =>
      obtain ⟨pending, hid⟩ := he
      obtain ⟨hpending, _⟩ := h.fits id pending (some t) hid
      have hthread : (s.owner id).thread = some t := by rw [hid]; rfl
      obtain ⟨state, hstate, hspan⟩ := h.remove_eq hthread
      rw [O11y.next, h.exit_eq hid]
      refine h.lift none (fun t' => rfl) hthread rfl ?_
        (.inr ⟨nofun, rfl, rfl⟩)
      rintro pending' polled hfuture
      obtain ⟨rfl, rfl⟩ := Owner.future.inj hfuture
      exact ⟨hpending, state, hstate, hspan⟩
  | ready t id now => exact hmeets.elim
  | dropFuture t id now => exact hmeets.elim
  | annotate t note now =>
      refine ⟨⟨h.exact.records, fun t' => ?_⟩, h.mem, h.nodup, h.fits, h.gone⟩
      change (Function.update s.stack t _ t').map _ = entered es t'
      rw [← h.exact.stack, Function.update_apply]
      split
      · rename_i ht
        rw [ht]
        exact Stack.map_withCurrent _ _ (spanId_visit text note now)
      · rfl

theorem Inv.unrecorded (h : Inv es s) {e : Event θ υ η} {id : SpanId}
    {s' : State θ υ η} (hid : s.owner id ≠ .gone) (hcloses : e.closes = some id)
    (hrecords : s'.records = s.records) : ¬ Exact (e :: es) s' := by
  intro hexact
  have hone := hexact.records id
  rw [hrecords, (h.count_eq_zero hid).2, closed_cons, hcloses] at hone
  simp at hone

/-- Any other step leaves a closed span without a record, or a detached one on a
stack. -/
theorem Inv.not_exact (h : Inv es s) {text : String → υ} {e : Event θ υ η}
    (he : Enabled s e) (hmeets : ¬ Meets s e) :
    ¬ Exact (e :: es) (O11y.next s text e) := by
  cases e with
  | drop t id now =>
      obtain ⟨t', hid⟩ := he
      have hne : (s.owner id).thread ≠ some t := by
        rw [hid]
        rintro ⟨⟩
        exact hmeets hid
      have hremove := (s.stack t).remove_of_not_mem id (h.stack_of_ne hne)
      have hgone : s.owner id ≠ .gone := by
        rw [hid]
        exact nofun
      refine h.unrecorded hgone rfl ?_
      rw [O11y.next, hremove]
      rfl
  | detach t id =>
      obtain ⟨t', hid⟩ := he
      intro hexact
      have ht : t' ≠ t := by
        rintro rfl
        exact hmeets hid
      have hstay : (O11y.next s text (.detach t id)).stack t' = s.stack t' :=
        Function.update_of_ne ht ..
      have hstack := hexact.stack t'
      have hmem : id ∈ (s.stack t').map SpanState.spanId :=
        h.stack_of_thread (by rw [hid]; rfl)
      rw [hstay] at hstack
      rw [hstack] at hmem
      exact (h.nodup t').not_mem_erase hmem
  | ready t id now =>
      obtain ⟨pending, hid⟩ := he
      obtain ⟨hpending, _⟩ := h.fits id pending (some t) hid
      have hgone : s.owner id ≠ .gone := by
        rw [hid]
        exact nofun
      refine h.unrecorded hgone rfl ?_
      -- the guard of the poll has taken the span off the stack already
      have hagain : ((s.stack t).remove id).2.remove id =
          (none, ((s.stack t).remove id).2) := by
        refine Stack.remove_of_not_mem _ id ?_
        rw [Stack.map_remove, h.exact.stack]
        exact (h.nodup t).not_mem_erase
      rw [O11y.next, h.exit_eq hid]
      simp only [PendingSpan.finish, PendingSpan.exit, hpending, hagain]
      rfl
  | dropFuture t id now =>
      obtain ⟨pending, hid⟩ := he
      obtain ⟨hpending, _⟩ := h.fits id pending none hid
      have hgone : s.owner id ≠ .gone := by
        rw [hid]
        exact nofun
      refine h.unrecorded hgone rfl ?_
      have hne : (s.owner id).thread ≠ some t := by
        rw [hid]
        exact nofun
      have hremove := (s.stack t).remove_of_not_mem id (h.stack_of_ne hne)
      rw [O11y.next, State.pending_of_owner hid]
      simp only [PendingSpan.finish, PendingSpan.exit, hpending, hremove]
      rfl
  | enter t opening => exact absurd trivial hmeets
  | poll t id => exact absurd trivial hmeets
  | yields t id => exact absurd trivial hmeets
  | annotate t note now => exact absurd trivial hmeets

end Steps

section Runs

variable [DecidableEq θ]

theorem run_inv {text : String → υ} {es : List (Event θ υ η)} {s : State θ υ η}
    (hr : ((machine text).restrict Meets).Run es s) : Inv es s := by
  refine hr.invariant (I := Inv) ?_ ?_
  · rintro _ rfl
    exact ⟨⟨fun _ => rfl, fun _ => rfl⟩,
      fun t id => iff_of_false List.not_mem_nil nofun, fun _ => List.nodup_nil,
      nofun, fun id => iff_of_false nofun nofun⟩
  · rintro es e t _ _ h ⟨hmeets, he, rfl⟩
    exact h.next he hmeets

/-- In every run that keeps guards on their threads and in which no instrumented
future is ready or dropped, every closed span was recorded exactly once and every
stack holds exactly the spans entered on its thread; and whatever step such a run
takes next, this stays so if and only if the step keeps to the same. -/
theorem recorded_exactly {text : String → υ} {es : List (Event θ υ η)}
    {s : State θ υ η} (hr : ((machine text).restrict Meets).Run es s) :
    Exact es s ∧ ∀ e s', (machine text).step s e s' →
      (Exact (e :: es) s' ↔ Meets s e) := by
  have h := run_inv hr
  refine ⟨h.exact, ?_⟩
  rintro e _ ⟨he, rfl⟩
  constructor
  · intro hexact
    by_contra hmeets
    exact h.not_exact he hmeets hexact
  · exact fun hmeets => (h.next he hmeets).exact

def plain (id : SpanId) : Opening Unit Unit := ⟨id, 1, "work", [], (), 0⟩

/-- A guard is held while the span of another one is detached, polled on its thread and on another,
and yields both times. -/
def polledTwice : List (Event ℕ Unit Unit) :=
  [.enter 0 (plain 7), .enter 1 (plain 8), .detach 1 8, .poll 0 8, .yields 0 8, .poll 1 8,
    .yields 1 8]

/-- The guard is dropped where its span was opened, and that stays exact. -/
theorem recorded_exactly_polledTwice :
    let s := polledTwice.foldl (fun s => next s fun _ => ()) .empty
    Exact (.drop 0 7 5 :: polledTwice.reverse) (next s (fun _ => ()) (.drop 0 7 5)) := by
  intro s
  have hstart : ((machine fun _ => ()).restrict Meets).Run []
      (.empty : State ℕ Unit Unit) := .start rfl
  have hlegal : Machine.Legal (fun s e => Meets s e ∧ Enabled s e)
      (fun s => next s fun _ => ()) .empty polledTwice :=
    ⟨⟨trivial, rfl⟩, ⟨trivial, rfl⟩, ⟨rfl, 1, rfl⟩, ⟨trivial, _, rfl⟩, ⟨trivial, _, rfl⟩,
      ⟨trivial, _, rfl⟩, ⟨trivial, _, rfl⟩, trivial⟩
  have hr := Machine.Run.legal_restrict hstart hlegal
  rw [List.append_nil] at hr
  exact ((recorded_exactly hr).2 (.drop 0 7 5) _ ⟨⟨0, rfl⟩, rfl⟩).mpr rfl

/-- A span is opened, its future is polled once and is ready. -/
theorem ready_unrecorded :
    ¬ ∀ (es : List (Event ℕ Unit Unit)) (s : State ℕ Unit Unit),
        (machine fun _ => ()).Run es s → Exact es s := by
  intro h
  let events : List (Event ℕ Unit Unit) :=
    [.enter 0 (plain 7), .detach 0 7, .poll 0 7, .ready 0 7 5]
  have hr : (machine fun _ => ()).Run events.reverse
      (events.foldl (fun s => next s fun _ => ()) .empty) := by
    have hlegal : Machine.Legal Enabled (fun s => next s fun _ => ()) .empty events :=
      ⟨rfl, ⟨0, rfl⟩, ⟨_, rfl⟩, ⟨_, rfl⟩, trivial⟩
    have hrun := Machine.Run.legal (.start rfl :
      (machine fun _ => ()).Run [] (.empty : State ℕ Unit Unit)) hlegal
    rwa [List.append_nil] at hrun
  have hrecords := (h _ _ hr).records 7
  exact absurd hrecords (by decide)

end Runs

end O11y

end RustSak
