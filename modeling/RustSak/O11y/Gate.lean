import RustSak.O11y.Attributes
import RustSak.O11y.Pipeline

/-!
# The trace gate and the span buffer

Spans are opened while the gate is open, and dropped at any time. A drop takes the
span from where it is and hands its record on, and the push into the span buffer
follows as a step of its own. An owned span asks the gate on its way; a guard and a
future do not. What is handed on for a span that was open when the shutdown closed
the gate is late.
-/

namespace RustSak

namespace O11y

open Library

variable {θ υ η : Type}

/-- What a call hands to `record_span`. -/
def Spans.handed (s : Spans θ υ η) : Call θ υ η → Option (SpanRecord υ η)
  | .thread (.drop t id now) =>
      ((s.threads.stack t).remove id).1.map (·.finish now)
  | .thread (.ready t id now) =>
      let exited := (s.threads.pending id).exit (s.threads.stack t)
      (exited.1.finish exited.2 now).1
  | .thread (.dropFuture t id now) =>
      ((s.threads.pending id).finish (s.threads.stack t) now).1
  | .close id now enabled =>
      if enabled then (s.owned id).state.map (·.finish now) else none
  | _ => none

/-- The id of the span a call opens. -/
def Call.opens : Call θ υ η → Option SpanId
  | .thread (.enter _ opening) => some opening.id
  | .start _ _ opening => some opening.id
  | _ => none

/-- A record on its way to the buffer, and whether its drop began after the shutdown
had closed the gate over the span. -/
structure Handed (υ η : Type) where
  record : SpanRecord υ η
  late : Bool
  deriving DecidableEq

/-- The spans, the gate and the buffer. -/
structure Gated (θ υ η : Type) where
  spans : Spans θ υ η
  /-- The gate is open. -/
  tracing : Bool
  /-- `init` has been through; it goes through once. -/
  installed : Bool
  /-- The ids that were drawn. -/
  opened : List SpanId
  /-- The ids that had been drawn when a shutdown closed the gate. -/
  closedOver : List SpanId
  underway : List (Handed υ η)
  buffer : Buffer (Handed υ η)
  /-- Everything that has entered the buffer. -/
  entered : List (Handed υ η)

namespace Gated

def new (maxBuffered : ℕ) : Gated θ υ η where
  spans := .empty
  tracing := false
  installed := false
  opened := []
  closedOver := []
  underway := []
  buffer := .new maxBuffered
  entered := []

inductive Event (θ υ η : Type) where
  | init
  | call (c : Call θ υ η)
  /-- The `i`-th of the records under way enters the buffer. -/
  | push (i : ℕ)
  | take
  | shutdown
  /-- The export thread ends and its sentinel closes the gate. -/
  | workerEnds

/-- Nothing is opened unless the gate has been open, and an owned span that is closed
has read the gate as it is. -/
def Passes (s : Gated θ υ η) (c : Call θ υ η) : Prop :=
  (c.opens.isSome → s.installed = true) ∧
    ∀ id now enabled, c = .close id now enabled → enabled = s.tracing

def Enabled (s : Gated θ υ η) : Event θ υ η → Prop
  | .init => s.installed = false
  | .call c => s.spans.Enabled c ∧ s.Passes c
  | .push i => i < s.underway.length
  | .take => s.installed = true
  | .shutdown => True
  | .workerEnds => s.installed = true

variable (s : Gated θ υ η)

/-- The records are marked as late if the shutdown was before. -/
def handing (record : Option (SpanRecord υ η)) : List (Handed υ η) :=
  record.toList.map fun r => ⟨r, s.closedOver.contains r.spanId⟩

def next [DecidableEq θ] (text : String → υ) : Event θ υ η → Gated θ υ η
  | .init => { s with tracing := true, installed := true }
  | .call c =>
      { s with
        spans := s.spans.next text c
        opened := c.opens.toList ++ s.opened
        underway := s.underway ++ s.handing (s.spans.handed c) }
  | .push i =>
      match s.underway[i]? with
      | none => s
      | some h =>
          { s with
            underway := s.underway.eraseIdx i
            buffer := s.buffer.push h
            entered := h :: s.entered }
  | .take => { s with buffer := s.buffer.emptied }
  | .shutdown => { s with tracing := false, closedOver := s.opened }
  | .workerEnds => { s with tracing := false }

def machine [DecidableEq θ] (text : String → υ) (maxBuffered : ℕ) :
    Machine (Gated θ υ η) (Event θ υ η) :=
  .guarded (fun s => s = new maxBuffered) Enabled fun s => s.next text

end Gated

/-- The record of a drop that finds the span on its thread's stack. -/
theorem Stack.remove_finish (stack : Stack υ η) (id : SpanId) (now : ℕ) :
    (∃ r : SpanRecord υ η, (stack.remove id).1.map (·.finish now) = some r ∧
      r.spanId = id ∧ id ∈ stack.map SpanState.spanId) ∨
    ((stack.remove id).1.map (·.finish now) = none ∧
      id ∉ stack.map SpanState.spanId) := by
  by_cases hmem : id ∈ stack.map SpanState.spanId
  · obtain ⟨state, hstate, hid⟩ := Stack.remove_of_mem stack id hmem
    exact .inl ⟨state.finish now, by rw [hstate]; rfl, hid, hmem⟩
  · refine .inr ⟨?_, hmem⟩
    rw [Stack.remove_of_not_mem stack id hmem]
    rfl

namespace Spans

variable (s : Spans θ υ η)

/-- What is handed on is what is added to the records. -/
theorem records_next [DecidableEq θ] (text : String → υ) (c : Call θ υ η) :
    (s.next text c).threads.records = (s.handed c).toList ++ s.threads.records := by
  cases c with
  | thread e => cases e <;> rfl
  | start t parent opening => rfl
  | annotate id note now => rfl
  | addLink id context => rfl
  | fail id message => rfl
  | close id now enabled => rfl

/-- A future that resolves has lost its span by the time it finishes. -/
theorem handed_ready {g : Given υ} {place : Place θ} {id : SpanId}
    (h : Tracked g place s id) (t : θ) (now : ℕ) :
    s.handed (.thread (.ready t id now)) = none := by
  rcases h.pending with hnone | hid
  · simp only [handed, hnone, PendingSpan.exit, PendingSpan.finish, Option.map_none]
  · simp only [handed, hid, PendingSpan.exit, PendingSpan.finish]
    have hrest : ((s.threads.stack t).remove id).2.filter (·.spanId == id) = [] := by
      rw [Stack.filter_remove]
      rcases h.stack t with hnil | ⟨span, hone, -⟩
      · rw [State.under] at hnil
        rw [hnil, List.tail_nil]
      · rw [State.under] at hone
        rw [hone, List.tail_cons]
    rw [Stack.remove_fst, hrest]
    rfl

end Spans

namespace Gated

variable (s : Gated θ υ η)

/-- The drop leaves the span that was open at the shutdown where it is: the thread
that drops it does not have it on its stack. -/
def Spares : Call θ υ η → Prop
  | .thread (.drop t id _) =>
      id ∈ s.closedOver → id ∉ (s.spans.threads.stack t).map SpanState.spanId
  | .thread (.dropFuture t id _) =>
      id ∈ s.closedOver → (s.spans.threads.pending id).id = some id →
        id ∉ (s.spans.threads.stack t).map SpanState.spanId
  | _ => True

def Meets : Event θ υ η → Prop
  | .call c => s.Spares c
  | _ => True

/-- No late record has entered the buffer or is on its way there. -/
def NothingLate : Prop := ∀ h ∈ s.underway ++ s.entered, h.late = false

structure Inv : Prop where
  tracked : ∃ h : History υ, ∀ id, ∃ place, Spans.Tracked (h id) place s.spans id
  opened : s.opened ≠ [] → s.installed = true
  closed : s.closedOver ≠ [] → s.installed = true ∧ s.tracing = false
  buffered : s.buffer.queue ⊆ s.entered

variable {s}

theorem inv_next [DecidableEq θ] (h : s.Inv) (text : String → υ) {e : Event θ υ η}
    (he : s.Enabled e) : (s.next text e).Inv := by
  cases e with
  | init =>
      refine ⟨h.tracked, fun _ => rfl, fun hclosed => ?_, h.buffered⟩
      have hinstalled := (h.closed hclosed).1
      exact absurd (he.symm.trans hinstalled) Bool.false_ne_true
  | call c =>
      obtain ⟨henabled, hopens, -⟩ := he
      obtain ⟨history, htracked⟩ := h.tracked
      refine ⟨⟨_, Spans.tracked_after henabled htracked⟩, fun hopened => ?_, h.closed,
        h.buffered⟩
      cases hc : c.opens with
      | some id => exact hopens (by rw [hc]; rfl)
      | none =>
          simp only [next, hc, Option.toList_none, List.nil_append] at hopened
          exact h.opened hopened
  | push i =>
      rw [next]
      split
      · exact h
      · refine ⟨h.tracked, h.opened, h.closed, fun x hx => ?_⟩
        rcases List.mem_append.mp hx with hx | hx
        · unfold Buffer.kept at hx
          split at hx
          · exact List.mem_cons_of_mem _ (h.buffered (List.mem_of_mem_tail hx))
          · exact List.mem_cons_of_mem _ (h.buffered hx)
        · rw [List.mem_singleton.mp hx]
          exact List.mem_cons_self
  | take => exact ⟨h.tracked, h.opened, h.closed, List.nil_subset _⟩
  | shutdown => exact ⟨h.tracked, h.opened, fun hne => ⟨h.opened hne, rfl⟩, h.buffered⟩
  | workerEnds =>
      exact ⟨h.tracked, h.opened, fun hne => ⟨(h.closed hne).1, rfl⟩, h.buffered⟩

/-- What a drop finds on the stack is late if the shutdown was before it. -/
theorem handing_remove (stack : Stack υ η) (id : SpanId) (now : ℕ) :
    (∀ h ∈ s.handing ((stack.remove id).1.map (·.finish now)), h.late = false) ↔
      (id ∈ s.closedOver → id ∉ stack.map SpanState.spanId) := by
  rcases stack.remove_finish id now with ⟨r, hr, hid, hmem⟩ | ⟨hnone, hnot⟩
  · rw [hr]
    simp [handing, hid, hmem]
  · rw [hnone]
    simp [handing, hnot]

/-- A call hands nothing late on exactly when it spares what was open. -/
theorem handing_iff (h : s.Inv) {c : Call θ υ η} (hpasses : s.Passes c) :
    (∀ x ∈ s.handing (s.spans.handed c), x.late = false) ↔ s.Spares c := by
  obtain ⟨history, htracked⟩ := h.tracked
  have hnothing : ∀ c, s.spans.handed c = none →
      ∀ x ∈ s.handing (s.spans.handed c), x.late = false := by
    intro c hnone x hx
    rw [hnone] at hx
    exact absurd hx List.not_mem_nil
  cases c with
  | thread e =>
      cases e with
      | drop t id now => exact handing_remove (s.spans.threads.stack t) id now
      | dropFuture t id now =>
          obtain ⟨place, hid⟩ := htracked id
          rcases hid.pending with hnone | hsome
          · refine iff_of_true (hnothing _ ?_) fun _ hid => ?_
            · simp only [Spans.handed, hnone, PendingSpan.exit, PendingSpan.finish,
                Option.map_none]
            · rw [hnone] at hid
              exact absurd hid (by simp)
          · have hhanded : s.spans.handed (.thread (.dropFuture t id now)) =
                ((s.spans.threads.stack t).remove id).1.map (·.finish now) := by
              simp only [Spans.handed, hsome, PendingSpan.exit, PendingSpan.finish]
            rw [hhanded, handing_remove]
            exact ⟨fun hspares hmem _ => hspares hmem, fun hspares hmem => hspares hmem hsome⟩
      | ready t id now =>
          obtain ⟨place, hid⟩ := htracked id
          exact iff_of_true (hnothing _ (s.spans.handed_ready hid t now)) trivial
      | enter t opening => exact iff_of_true (hnothing _ rfl) trivial
      | detach t id => exact iff_of_true (hnothing _ rfl) trivial
      | poll t id => exact iff_of_true (hnothing _ rfl) trivial
      | yields t id => exact iff_of_true (hnothing _ rfl) trivial
      | annotate t note now => exact iff_of_true (hnothing _ rfl) trivial
  | start t parent opening => exact iff_of_true (hnothing _ rfl) trivial
  | annotate id note now => exact iff_of_true (hnothing _ rfl) trivial
  | addLink id context => exact iff_of_true (hnothing _ rfl) trivial
  | fail id message => exact iff_of_true (hnothing _ rfl) trivial
  | close id now enabled =>
      -- The one drop that asks the gate.
      have hgate := hpasses.2 id now enabled rfl
      refine iff_of_true (fun x hx => ?_) trivial
      by_cases hclosed : s.closedOver = []
      · obtain ⟨r, -, rfl⟩ := List.mem_map.mp hx
        simp [hclosed]
      · rw [(h.closed hclosed).2] at hgate
        subst hgate
        exact hnothing (.close id now false) rfl x hx

theorem nothingLate_next [DecidableEq θ] (h : s.Inv) (text : String → υ)
    {e : Event θ υ η} (he : s.Enabled e) :
    (s.next text e).NothingLate ↔ s.NothingLate ∧ s.Meets e := by
  cases e with
  | call c =>
      have hiff := handing_iff h he.2
      simp only [NothingLate, next, Meets, List.mem_append, ← hiff]
      constructor
      · intro hall
        exact ⟨fun x hx => hall x (hx.imp_left .inl), fun x hx => hall x (.inl (.inr hx))⟩
      · rintro ⟨hbefore, hnew⟩ x ((hx | hx) | hx)
        · exact hbefore x (.inl hx)
        · exact hnew x hx
        · exact hbefore x (.inr hx)
  | push i =>
      have hi : i < s.underway.length := he
      have hget : s.underway[i]? = some s.underway[i] := List.getElem?_eq_getElem hi
      have hperm : (s.underway.eraseIdx i ++ s.underway[i] :: s.entered).Perm
          (s.underway ++ s.entered) := by
        refine List.perm_middle.trans ?_
        rw [← List.cons_append]
        exact (List.getElem_cons_eraseIdx_perm hi).append_right _
      rw [next, hget]
      simp only [NothingLate, Meets, and_true, hperm.mem_iff]
  | init => exact (and_iff_left trivial).symm
  | take => exact (and_iff_left trivial).symm
  | shutdown => exact (and_iff_left trivial).symm
  | workerEnds => exact (and_iff_left trivial).symm

theorem run_inv [DecidableEq θ] {text : String → υ} {maxBuffered : ℕ}
    {es : List (Event θ υ η)} {s : Gated θ υ η}
    (hr : (machine text maxBuffered).Run es s) : s.Inv := by
  refine hr.invariant (I := fun _ s => s.Inv) ?_ ?_
  · rintro _ rfl
    refine ⟨⟨.empty, fun id => ⟨.nowhere, fun t => .inl rfl, .inl rfl, ?_, ?_, ?_,
      fun _ => rfl⟩⟩, fun hne => absurd rfl hne, fun hne => absurd rfl hne,
      List.nil_subset _⟩
    · exact fun span hspan => absurd hspan (Option.some_ne_none span).symm
    · exact fun span hspan => absurd hspan (Option.some_ne_none span).symm
    · exact fun r hr => absurd hr List.not_mem_nil
  · rintro es e s _ - hinv ⟨henabled, rfl⟩
    exact inv_next hinv text henabled

theorem nothingLate_iff_run [DecidableEq θ] {text : String → υ} {maxBuffered : ℕ}
    {es : List (Event θ υ η)} {s : Gated θ υ η}
    (hr : (machine text maxBuffered).Run es s) :
    s.NothingLate ↔ ((machine text maxBuffered).restrict Meets).Run es s := by
  constructor
  · intro hnone
    induction hr with
    | start hs => exact .start hs
    | @next es e s s' hr h ih =>
        obtain ⟨henabled, rfl⟩ := h
        obtain ⟨hbefore, hmeets⟩ :=
          (nothingLate_next (run_inv hr) text henabled).mp hnone
        exact (ih hbefore).next ⟨hmeets, henabled, rfl⟩
  · intro hrestrict
    refine hrestrict.invariant (I := fun _ s => s.NothingLate) ?_ ?_
    · rintro _ rfl h hh
      exact absurd hh List.not_mem_nil
    · rintro es e s _ hr hnone ⟨hmeets, henabled, rfl⟩
      have hinv := run_inv hr.of_restrict
      exact (nothingLate_next hinv text henabled).mpr ⟨hnone, hmeets⟩

/-- In every run, nothing that is dropped after the shutdown had closed the gate over it
is handed on to the buffer, nor found in it, exactly as long as every drop leaves the
spans on the stacks as they are. -/
theorem nothing_buffered_iff [DecidableEq θ] (text : String → υ) (maxBuffered : ℕ)
    {es : List (Event θ υ η)} {s : Gated θ υ η}
    (hr : (machine text maxBuffered).Run es s) :
    (s.NothingLate ↔ ((machine text maxBuffered).restrict Meets).Run es s) ∧
      (s.NothingLate → ∀ h ∈ s.buffer.queue, h.late = false) := by
  refine ⟨nothingLate_iff_run hr, fun hnone h hh => ?_⟩
  exact hnone h (List.mem_append_right _ ((run_inv hr).buffered hh))

section Examples

def after (s : Gated Unit ℕ Unit) (e : Event Unit ℕ Unit) : Gated Unit ℕ Unit :=
  s.next (fun _ => 0) e

/-- An owned span that outlives the shutdown. -/
def ownedOutlives : List (Event Unit ℕ Unit) :=
  [.init, .call (.start () .root (Spans.opening 7 [])), .shutdown,
    .call (.close 7 3 false)]

theorem nothing_buffered_owned : (ownedOutlives.foldl after (new 8)).NothingLate := by
  have hstart : ((machine (fun _ => 0) 8).restrict Meets).Run []
      (new 8 : Gated Unit ℕ Unit) := .start rfl
  have hlegal : Machine.Legal (fun s e => Meets s e ∧ Enabled s e) after (new 8)
      ownedOutlives :=
    ⟨⟨trivial, rfl⟩, ⟨trivial, ⟨rfl, rfl⟩, fun _ => rfl, nofun⟩, ⟨trivial, trivial⟩,
      ⟨trivial, rfl, nofun, by rintro _ _ _ ⟨⟩; rfl⟩, trivial⟩
  have hrun := Machine.Run.legal_restrict hstart hlegal
  exact (nothing_buffered_iff _ _ hrun.of_restrict).1.mpr hrun

/-- A guard that outlives the shutdown. -/
def guardOutlives : List (Event Unit ℕ Unit) :=
  [.init, .call (.thread (.enter () (Spans.opening 7 []))), .shutdown,
    .call (.thread (.drop () 7 3)), .push 0]

/-- Its record is found in the buffer. -/
theorem guard_buffered : (machine (fun _ => 0) 8).Run guardOutlives.reverse
      (guardOutlives.foldl after (new 8)) ∧
    ∃ h ∈ (guardOutlives.foldl after (new 8)).buffer.queue, h.late = true := by
  have hlegal : Machine.Legal Enabled after (new 8) guardOutlives :=
    ⟨rfl, ⟨⟨rfl, rfl⟩, fun _ => rfl, nofun⟩, trivial, ⟨⟨(), rfl⟩, nofun, nofun⟩,
      Nat.zero_lt_one, trivial⟩
  have hrun := Machine.Run.legal (.start rfl :
    (machine (fun _ => 0) 8).Run [] (new 8 : Gated Unit ℕ Unit)) hlegal
  rw [List.append_nil] at hrun
  exact ⟨hrun, _, List.mem_cons_self, rfl⟩

end Examples

end Gated

end O11y

end RustSak
