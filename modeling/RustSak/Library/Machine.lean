import Mathlib.Logic.Relation
import Mathlib.Data.List.Basic
import Mathlib.Data.Option.Basic
import Mathlib.Algebra.Order.BigOperators.Group.Finset

/-!
# Machines and their runs

A machine has start states and labelled steps. A run records the labels it has
taken, the newest first, so that "the most recent event such that" is a plain
recursion on the history. Invariants are proved once per step and carried to
every run by `Run.invariant`; `restrict` keeps the runs whose every step meets
a condition on the state before it.
-/

namespace RustSak

namespace Library

/-- A labelled transition system. The label carries whatever the environment
chooses at the step. -/
structure Machine (σ ε : Type*) where
  init : σ → Prop
  step : σ → ε → σ → Prop

namespace Machine

variable {σ ε τ δ : Type*}

/-- `M.Run es s`: from some start state, the steps labelled `es`, the newest
first, lead to `s`. -/
inductive Run (M : Machine σ ε) : List ε → σ → Prop where
  | start {s : σ} (hs : M.init s) : Run M [] s
  | next {es : List ε} {e : ε} {s s' : σ}
      (hr : Run M es s) (h : M.step s e s') : Run M (e :: es) s'

/-- Some run ends in `s`. -/
def Reachable (M : Machine σ ε) (s : σ) : Prop := ∃ es, M.Run es s

/-- `M.Later s s'`: some steps lead from `s` to `s'`. -/
def Later (M : Machine σ ε) : σ → σ → Prop :=
  Relation.ReflTransGen fun s s' => ∃ e, M.step s e s'

/-- A property of history and state that holds at the start and is kept by
every step of a run holds along every run. -/
theorem Run.invariant {M : Machine σ ε} {I : List ε → σ → Prop}
    (hinit : ∀ s, M.init s → I [] s)
    (hstep : ∀ es e s s', M.Run es s → I es s → M.step s e s' → I (e :: es) s')
    {es : List ε} {s : σ} (hr : M.Run es s) : I es s := by
  induction hr with
  | start hs => exact hinit _ hs
  | next hr h ih => exact hstep _ _ _ _ hr ih h

/-- The same for a property of the state alone. -/
theorem Reachable.invariant {M : Machine σ ε} {I : σ → Prop}
    (hinit : ∀ s, M.init s → I s)
    (hstep : ∀ s e s', I s → M.step s e s' → I s')
    {s : σ} (hr : M.Reachable s) : I s := by
  obtain ⟨es, hr⟩ := hr
  exact hr.invariant (I := fun _ s => I s) hinit
    (fun _ e s s' _ hi h => hstep s e s' hi h)

/-- A relation of two states that holds at the start and is kept by every two steps
with related labels holds at the end of two runs with related labels. -/
theorem Run.invariant₂ {M : Machine σ ε} {N : Machine τ δ} {E : ε → δ → Prop}
    {I : σ → τ → Prop} (hinit : ∀ s t, M.init s → N.init t → I s t)
    (hstep : ∀ s t e d s' t', I s t → E e d → M.step s e s' → N.step t d t' → I s' t')
    {es : List ε} {ds : List δ} {s : σ} {t : τ} (hE : List.Forall₂ E es ds)
    (hr : M.Run es s) (hr' : N.Run ds t) : I s t := by
  induction hE generalizing s t with
  | nil =>
      cases hr with | start hs =>
      cases hr' with | start ht => exact hinit _ _ hs ht
  | cons hlast _ ih =>
      cases hr with | next hr h =>
      cases hr' with | next hr' h' =>
      exact hstep _ _ _ _ _ _ (ih hr hr') hlast h h'

theorem Reachable.start {M : Machine σ ε} {s : σ} (hs : M.init s) :
    M.Reachable s := ⟨[], .start hs⟩

theorem Reachable.next {M : Machine σ ε} {s s' : σ} {e : ε}
    (hr : M.Reachable s) (h : M.step s e s') : M.Reachable s' := by
  obtain ⟨es, hr⟩ := hr
  exact ⟨e :: es, hr.next h⟩

theorem Reachable.later {M : Machine σ ε} {s s' : σ}
    (hr : M.Reachable s) (h : M.Later s s') : M.Reachable s' := by
  induction h with
  | refl => exact hr
  | tail _ h ih =>
      obtain ⟨e, h⟩ := h
      exact ih.next h

/-- A property kept by every step from a reachable state is kept from then
on. -/
theorem Later.invariant {M : Machine σ ε} {I : σ → Prop}
    (hstep : ∀ s e s', M.Reachable s → I s → M.step s e s' → I s')
    {s s' : σ} (hr : M.Reachable s) (h : M.Later s s') (hi : I s) : I s' := by
  induction h with
  | refl => exact hi
  | tail hl h ih =>
      obtain ⟨e, h⟩ := h
      exact hstep _ e _ (hr.later hl) ih h

/-- The machine that takes only the steps whose state and label meet `C`. -/
def restrict (M : Machine σ ε) (C : σ → ε → Prop) : Machine σ ε where
  init := M.init
  step s e s' := C s e ∧ M.step s e s'

theorem Run.of_restrict {M : Machine σ ε} {C : σ → ε → Prop}
    {es : List ε} {s : σ} (hr : (M.restrict C).Run es s) : M.Run es s := by
  induction hr with
  | start hs => exact .start hs
  | next _ h ih => exact ih.next h.2

/-- The runs of a narrower condition are runs of a wider one. -/
theorem Run.restrict_mono {M : Machine σ ε} {C D : σ → ε → Prop}
    (hCD : ∀ s e, C s e → D s e) {es : List ε} {s : σ}
    (hr : (M.restrict C).Run es s) : (M.restrict D).Run es s := by
  induction hr with
  | start hs => exact .start hs
  | next _ h ih => exact ih.next ⟨hCD _ _ h.1, h.2⟩

/-- A run whose every label meets the condition at any state keeps to it. -/
theorem Run.restrict {M : Machine σ ε} {C : σ → ε → Prop}
    {es : List ε} {s : σ} (hr : M.Run es s) (hC : ∀ e ∈ es, ∀ t, C t e) :
    (M.restrict C).Run es s := by
  induction hr with
  | start hs => exact .start hs
  | next _ h ih =>
      have hlast := hC _ List.mem_cons_self
      exact (ih fun e he => hC e (List.mem_cons_of_mem _ he)).next ⟨hlast _, h⟩

theorem Reachable.of_restrict {M : Machine σ ε} {C : σ → ε → Prop} {s : σ}
    (hr : (M.restrict C).Reachable s) : M.Reachable s := by
  obtain ⟨es, hr⟩ := hr
  exact ⟨es, hr.of_restrict⟩

/-- The machine of a partial step function. -/
def ofPartial (init : σ → Prop) (next : σ → ε → Option σ) : Machine σ ε where
  init := init
  step s e s' := next s e = some s'

/-- The state the labels `es`, the oldest first, lead to. -/
def replay (next : σ → ε → Option σ) (s : σ) (es : List ε) : Option σ :=
  es.foldlM next s

@[simp] theorem replay_nil (next : σ → ε → Option σ) (s : σ) :
    replay next s [] = some s := rfl

theorem replay_cons (next : σ → ε → Option σ) (s : σ) (e : ε) (es : List ε) :
    replay next s (e :: es) = (next s e).bind fun s' => replay next s' es := rfl

theorem Run.replay {init : σ → Prop} {next : σ → ε → Option σ}
    {past : List ε} {s s' : σ} {es : List ε}
    (hr : (ofPartial init next).Run past s)
    (h : Machine.replay next s es = some s') :
    (ofPartial init next).Run (es.reverse ++ past) s' := by
  induction es generalizing past s with
  | nil =>
      rw [replay_nil, Option.some.injEq] at h
      subst h
      exact hr
  | cons e es ih =>
      rw [replay_cons, Option.bind_eq_some_iff] at h
      obtain ⟨t, ht, h⟩ := h
      have hrun := ih (hr.next (e := e) ht) h
      rwa [List.reverse_cons, List.append_assoc]

/-- Replaying labels from a start state gives a run of them. -/
theorem run_of_replay {init : σ → Prop} {next : σ → ε → Option σ}
    {s s' : σ} {es : List ε} (hs : init s)
    (h : Machine.replay next s es = some s') :
    (ofPartial init next).Run es.reverse s' := by
  have hrun := (Run.start (M := ofPartial init next) hs).replay h
  rwa [List.append_nil] at hrun

/-- Labels that meet the condition at any state, replayed, extend a run that keeps
to it. -/
theorem Run.replay_restrict {init : σ → Prop} {next : σ → ε → Option σ}
    {C : σ → ε → Prop} {past : List ε} {s s' : σ} {es : List ε}
    (hr : ((ofPartial init next).restrict C).Run past s)
    (h : Machine.replay next s es = some s') (hC : ∀ e ∈ es, ∀ t, C t e) :
    ((ofPartial init next).restrict C).Run (es.reverse ++ past) s' := by
  induction es generalizing past s with
  | nil =>
      rw [replay_nil, Option.some.injEq] at h
      subst h
      exact hr
  | cons e es ih =>
      rw [replay_cons, Option.bind_eq_some_iff] at h
      obtain ⟨t, ht, h⟩ := h
      have hfirst := hC e List.mem_cons_self
      have hrun := ih (hr.next ⟨hfirst s, ht⟩) h
        fun e' he' => hC e' (List.mem_cons_of_mem _ he')
      rwa [List.reverse_cons, List.append_assoc]

/-- Labels replayed where a check that implies the condition passes extend a run that
keeps to it. -/
theorem Run.replay_checked {init : σ → Prop} {next : σ → ε → Option σ}
    {C : σ → ε → Prop} {check : σ → ε → Bool} (hcheck : ∀ s e, check s e = true → C s e)
    {past : List ε} {s s' : σ} {es : List ε}
    (hr : ((ofPartial init next).restrict C).Run past s)
    (h : Machine.replay (fun s e => if check s e then next s e else none) s es = some s') :
    ((ofPartial init next).restrict C).Run (es.reverse ++ past) s' := by
  induction es generalizing past s with
  | nil =>
      rw [replay_nil, Option.some.injEq] at h
      subst h
      exact hr
  | cons e es ih =>
      rw [replay_cons, Option.bind_eq_some_iff] at h
      obtain ⟨t, ht, h⟩ := h
      rw [Option.ite_none_right_eq_some] at ht
      have hrun := ih (hr.next ⟨hcheck s e ht.1, ht.2⟩) h
      rwa [List.reverse_cons, List.append_assoc]

/-- The machine that takes `next` wherever `enabled` allows it. -/
def guarded (init : σ → Prop) (enabled : σ → ε → Prop) (next : σ → ε → σ) :
    Machine σ ε where
  init := init
  step s e s' := enabled s e ∧ s' = next s e

/-- The labels, the oldest first, may be taken one after another. -/
def Legal (enabled : σ → ε → Prop) (next : σ → ε → σ) : σ → List ε → Prop
  | _, [] => True
  | s, e :: es => enabled s e ∧ Legal enabled next (next s e) es

instance Legal.decidable {enabled : σ → ε → Prop} {next : σ → ε → σ}
    [∀ s e, Decidable (enabled s e)] :
    ∀ s es, Decidable (Legal enabled next s es)
  | _, [] => .isTrue trivial
  | s, e :: es =>
      have := @Legal.decidable enabled next _ (next s e) es
      inferInstanceAs (Decidable (enabled s e ∧ Legal enabled next (next s e) es))

theorem Run.legal {init : σ → Prop} {enabled : σ → ε → Prop}
    {next : σ → ε → σ} {past : List ε} {s : σ} {es : List ε}
    (hr : (guarded init enabled next).Run past s) (h : Legal enabled next s es) :
    (guarded init enabled next).Run (es.reverse ++ past) (es.foldl next s) := by
  induction es generalizing past s with
  | nil => exact hr
  | cons e es ih =>
      have hrun := ih (hr.next (e := e) ⟨h.1, rfl⟩) h.2
      rwa [List.reverse_cons, List.append_assoc]

theorem Reachable.legal {init : σ → Prop} {enabled : σ → ε → Prop}
    {next : σ → ε → σ} {s : σ} {es : List ε}
    (hs : (guarded init enabled next).Reachable s) (h : Legal enabled next s es) :
    (guarded init enabled next).Reachable (es.foldl next s) := by
  obtain ⟨past, hr⟩ := hs
  exact ⟨_, hr.legal h⟩

/-- Labels that may be taken one after another, each where it meets the condition,
extend a run that keeps to it. -/
theorem Run.legal_restrict {init : σ → Prop} {enabled : σ → ε → Prop}
    {next : σ → ε → σ} {C : σ → ε → Prop} {past : List ε} {s : σ} {es : List ε}
    (hr : ((guarded init enabled next).restrict C).Run past s)
    (h : Legal (fun t e => C t e ∧ enabled t e) next s es) :
    ((guarded init enabled next).restrict C).Run (es.reverse ++ past)
      (es.foldl next s) := by
  induction es generalizing past s with
  | nil => exact hr
  | cons e es ih =>
      obtain ⟨⟨hC, he⟩, h⟩ := h
      have hrun := ih (hr.next ⟨hC, he, rfl⟩) h
      rwa [List.reverse_cons, List.append_assoc]

/-- `M` simulates step by step into `N`: `abs` sends start states to start
states, and a step of `M` to a step of `N` or to no step at all. -/
structure Simulation (M : Machine σ ε) (N : Machine τ δ) where
  abs : σ → τ
  init : ∀ s, M.init s → N.init (abs s)
  step : ∀ s e s', M.step s e s' →
    abs s' = abs s ∨ ∃ d, N.step (abs s) d (abs s')

/-- What is true of every reachable state of `N` is true of the image of every
reachable state of `M`. -/
theorem Simulation.reachable {M : Machine σ ε} {N : Machine τ δ}
    (S : Simulation M N) {s : σ} (hr : M.Reachable s) :
    N.Reachable (S.abs s) := by
  obtain ⟨es, hr⟩ := hr
  induction hr with
  | start hs => exact .start (S.init _ hs)
  | next _ h ih =>
      rcases S.step _ _ _ h with heq | ⟨d, hd⟩
      · rwa [heq]
      · exact ih.next hd

/-- If every step labelled `busy` lowers a rank and the others raise it by one
at most, the busy steps of a run number at most the rank it started with and the
number of the others. -/
theorem Run.busy_le_rank {M : Machine σ ε} {rank : σ → ℕ} {busy : ε → Bool}
    {n : ℕ} (hinit : ∀ s, M.init s → rank s ≤ n)
    (hstep : ∀ s e s', M.Reachable s → M.step s e s' →
      rank s' + (if busy e then 1 else 0) ≤ rank s + (if busy e then 0 else 1))
    {es : List ε} {s : σ} (hr : M.Run es s) :
    rank s + es.countP busy ≤ n + es.countP fun e => !busy e := by
  induction hr with
  | start hs => simpa using hinit _ hs
  | @next es e s s' hr h ih =>
      have hle := hstep _ _ _ ⟨_, hr⟩ h
      rw [List.countP_cons, List.countP_cons]
      cases hb : busy e with
      | true =>
          simp only [hb, if_true] at hle
          simp only [Bool.not_true, if_true, Bool.false_eq_true, if_false]
          omega
      | false =>
          simp only [hb, Bool.false_eq_true, if_false] at hle
          simp only [Bool.not_false, if_true, Bool.false_eq_true, if_false]
          omega

/-- A sum of which one part alone may grow. -/
theorem sum_add_le_sum_add {α : Type*} [DecidableEq α] {u : Finset α}
    {f g : α → ℕ} {i : α} {a b : ℕ} (hi : i ∈ u)
    (hothers : ∀ j ∈ u, j ≠ i → g j ≤ f j) (hself : g i + a ≤ f i + b) :
    ∑ j ∈ u, g j + a ≤ ∑ j ∈ u, f j + b := by
  have hrest : ∑ j ∈ u.erase i, g j ≤ ∑ j ∈ u.erase i, f j :=
    Finset.sum_le_sum fun j hj =>
      hothers j (Finset.mem_of_mem_erase hj) (Finset.ne_of_mem_erase hj)
  rw [← Finset.add_sum_erase u g hi, ← Finset.add_sum_erase u f hi]
  omega

end Machine

end Library

end RustSak
