import RustSak.Library.Machine
import Mathlib.Logic.Function.Basic

/-!
# Loading the runtime

How threads load an installed runtime: one environment is started in the process, under a lock,
and kept for its life. What the file system says, how a start or a registration ends, and whether
it panics are left open.
-/

namespace RustSak

namespace Ai

namespace Runtime

open Library

/-- Why a load fails. -/
inductive LoadError (φ : Type) where
  | notInstalled (path : φ)
  | openFailed (path : φ) (reason : String)
  | startFailed (path : φ) (reason : String)
  deriving DecidableEq

/-- How a start ends. -/
inductive Outcome where
  | gone
  | notOpened (reason : String)
  | notBuilt (reason : String)
  | built
  | panicked

/-- Where a thread is in `load_with`; from `locked` to `silencing` it holds the lock. -/
inductive Phase (φ : Type) where
  | idle
  | locked (dir : φ)
  | starting (path : φ)
  | registering (environment : ℕ)
  | keeping (environment : ℕ)
  | silencing
  | returned (result : Except (LoadError φ) Unit)

/-- The process: the environment it keeps, whether its load offered WebGPU, who holds the lock,
how many environments have been started, and how many exit handlers registered. -/
structure State (τ φ : Type) where
  held : Option ℕ
  webgpu : Bool
  lock : Option τ
  threads : τ → Phase φ
  started : ℕ
  handlers : ℕ

/-- `register` without an answer is a panic. -/
inductive Event (τ φ : Type) where
  | enter (thread : τ) (dir : φ)
  | check (thread : τ) (marker : Bool) (library : Option φ)
  | start (thread : τ) (outcome : Outcome)
  | register (thread : τ) (offered : Option Bool)
  | keep (thread : τ)
  | silence (thread : τ) (registered : Bool)
  | again (thread : τ)

variable {τ φ : Type} [DecidableEq τ]

namespace State

def goto (s : State τ φ) (thread : τ) (phase : Phase φ) : State τ φ :=
  { s with threads := Function.update s.threads thread phase }

/-- `thread` is done, and gives the lock back. -/
def leave (s : State τ φ) (thread : τ) (phase : Phase φ) : State τ φ :=
  { s with threads := Function.update s.threads thread phase, lock := none }

def next (s : State τ φ) : Event τ φ → State τ φ
  | .enter thread dir => { s.goto thread (.locked dir) with lock := some thread }
  | .check thread marker library =>
      match s.threads thread with
      | .locked dir =>
          if s.held.isSome then
            s.leave thread (.returned (.ok ()))
          else if marker then
            match library with
            | some path => s.goto thread (.starting path)
            | none => s.leave thread (.returned (.error (.notInstalled dir)))
          else
            s.leave thread (.returned (.error (.notInstalled dir)))
      | _ => s
  | .start thread outcome =>
      match s.threads thread with
      | .starting path =>
          match outcome with
          | .gone => s.leave thread (.returned (.error (.notInstalled path)))
          | .notOpened reason => s.leave thread (.returned (.error (.openFailed path reason)))
          | .notBuilt reason => s.leave thread (.returned (.error (.startFailed path reason)))
          | .built => { s.goto thread (.registering s.started) with started := s.started + 1 }
          | .panicked => s.leave thread .idle
      | _ => s
  | .register thread offered =>
      match s.threads thread with
      | .registering environment =>
          match offered with
          | some offered => { s.goto thread (.keeping environment) with webgpu := offered }
          | none => s.leave thread .idle
      | _ => s
  | .keep thread =>
      match s.threads thread with
      | .keeping environment => { s.goto thread .silencing with held := some environment }
      | _ => s
  | .silence thread registered =>
      { s.leave thread (.returned (.ok ())) with
        handlers := s.handlers + if registered then 1 else 0 }
  | .again thread => s.goto thread .idle

end State

/-- A thread takes the lock when it is free, and goes on as `load_with` does. -/
def State.Enabled (s : State τ φ) : Event τ φ → Prop
  | .enter thread _ => s.threads thread = .idle ∧ s.lock = none
  | .check thread _ _ => ∃ dir, s.threads thread = .locked dir
  | .start thread _ => ∃ path, s.threads thread = .starting path
  | .register thread _ => ∃ environment, s.threads thread = .registering environment
  | .keep thread => ∃ environment, s.threads thread = .keeping environment
  | .silence thread _ => s.threads thread = .silencing
  | .again thread => ∃ result, s.threads thread = .returned result

def machine (τ φ : Type) [DecidableEq τ] : Machine (State τ φ) (Event τ φ) :=
  .guarded (fun s => s = ⟨none, false, none, fun _ => .idle, 0, 0⟩) State.Enabled State.next

namespace Phase

/-- Whether a thread in this phase holds the lock. -/
def holds : Phase φ → Bool
  | .idle | .returned _ => false
  | _ => true

/-- What a thread in this phase relies on: that nothing is kept, or that an environment is. -/
def RelyOn (held : Option ℕ) (started handlers : ℕ) : Phase φ → Prop
  | .starting _ => held = none
  | .registering environment | .keeping environment => held = none ∧ environment < started
  | .silencing => held.isSome = true ∧ handlers = 0
  | .returned (.ok _) => held.isSome = true
  | _ => True

/-- Whether the answer about WebGPU is stored and the environment is not yet kept. -/
def stored : Phase φ → Bool
  | .keeping _ => true
  | _ => false

end Phase

structure Inv (s : State τ φ) : Prop where
  lock : ∀ thread, (s.threads thread).holds = true ↔ s.lock = some thread
  rely : ∀ thread, (s.threads thread).RelyOn s.held s.started s.handlers
  webgpu : s.webgpu = true → s.held = none → ∃ thread, (s.threads thread).stored = true
  held : ∀ environment, s.held = some environment → environment < s.started
  handlers : s.handlers ≤ if s.held.isSome then 1 else 0

namespace Phase

theorem holds_of_stored {phase : Phase φ} (h : phase.stored = true) : phase.holds = true := by
  cases phase <;> first | rfl | cases h

/-- What a thread without the lock relies on is not lost once an environment is kept. -/
theorem RelyOn.mono {phase : Phase φ} {held held' : Option ℕ}
    {started handlers started' handlers' : ℕ} (h : phase.RelyOn held started handlers)
    (hholds : phase.holds = false) (hheld : held.isSome = true → held'.isSome = true) :
    phase.RelyOn held' started' handlers' := by
  cases phase with
  | idle => trivial
  | returned result =>
      cases result with
      | ok done => exact hheld h
      | error error => trivial
  | _ => cases hholds

end Phase

variable {s s' : State τ φ}

omit [DecidableEq τ] in
theorem Inv.holds_eq_false (h : Inv s) {thread other : τ} (hlock : s.lock = none ∨
    s.lock = some thread) (hother : other ≠ thread) : (s.threads other).holds = false := by
  rw [← Bool.not_eq_true, h.lock]
  intro hheld
  obtain hlock | hlock := hlock
  · rw [hlock] at hheld
    cases hheld
  · exact hother (Option.some.inj (hheld.symm.trans hlock))

/-- The thread that has the lock, or takes it while it is free, moves: the others rely on
nothing that it changes. -/
theorem Inv.moved (h : Inv s) {thread : τ} {phase : Phase φ}
    (hlock : s.lock = none ∨ s.lock = some thread)
    (hthreads : s'.threads = Function.update s.threads thread phase)
    (hlock' : s'.lock = if phase.holds then some thread else none)
    (hheld : s.held.isSome = true → s'.held.isSome = true)
    (hrely : phase.RelyOn s'.held s'.started s'.handlers)
    (hwebgpu : s'.webgpu = true → s'.held = none → phase.stored = true)
    (hstarted : ∀ environment, s'.held = some environment → environment < s'.started)
    (hhandlers : s'.handlers ≤ if s'.held.isSome then 1 else 0) : Inv s' := by
  refine ⟨fun other => ?_, fun other => ?_, fun hoffered hnone => ?_, hstarted, hhandlers⟩
  · rw [hthreads, hlock']
    by_cases hother : other = thread
    · rw [hother, Function.update_self]
      simp
    · rw [Function.update_of_ne hother, h.holds_eq_false hlock hother]
      simp [Ne.symm hother]
  · rw [hthreads]
    by_cases hother : other = thread
    · rw [hother, Function.update_self]
      exact hrely
    · rw [Function.update_of_ne hother]
      exact (h.rely other).mono (h.holds_eq_false hlock hother) hheld
  · refine ⟨thread, ?_⟩
    rw [hthreads, Function.update_self]
    exact hwebgpu hoffered hnone

/-- While a thread at work has stored nothing, WebGPU is offered only beside an environment. -/
theorem Inv.offered (h : Inv s) {thread : τ} (hlock : s.lock = none ∨ s.lock = some thread)
    (hstored : (s.threads thread).stored = false) (hoffered : s.webgpu = true) :
    s.held.isSome = true := by
  cases hheld : s.held with
  | some environment => rfl
  | none =>
      obtain ⟨other, hother⟩ := h.webgpu hoffered hheld
      by_cases heq : other = thread
      · rw [heq, hstored] at hother
        cases hother
      · have hholds := Phase.holds_of_stored hother
        rw [h.holds_eq_false hlock heq] at hholds
        cases hholds

/-- The same when nothing is kept or offered anew. -/
theorem Inv.went (h : Inv s) {thread : τ} {phase : Phase φ} {lock : Option τ} {started : ℕ}
    (hfree : s.lock = none ∨ s.lock = some thread)
    (hstored : (s.threads thread).stored = false)
    (hlock : lock = if phase.holds then some thread else none)
    (hrely : phase.RelyOn s.held started s.handlers) (hstarted : s.started ≤ started) :
    Inv { s with
      threads := Function.update s.threads thread phase
      lock := lock
      started := started } :=
  h.moved hfree rfl hlock id hrely
    (fun hoffered hnone => absurd (h.offered hfree hstored hoffered) (by rw [hnone]; nofun))
    (fun environment hheld => (h.held environment hheld).trans_le hstarted) h.handlers

theorem Inv.next (h : Inv s) {e : Event τ φ} (he : s.Enabled e) : Inv (s.next e) := by
  cases e with
  | enter thread dir =>
      obtain ⟨hidle, hfree⟩ := he
      exact h.went (.inl hfree) (by rw [hidle]; rfl) rfl trivial le_rfl
  | check thread marker library =>
      obtain ⟨dir, hlocked⟩ := he
      have hlock := (h.lock thread).mp (by rw [hlocked]; rfl)
      have hstored : (s.threads thread).stored = false := by rw [hlocked]; rfl
      simp only [State.next, hlocked]
      split
      · rename_i hheld
        exact h.went (.inr hlock) hstored rfl hheld le_rfl
      · rename_i hheld
        split
        · cases library with
          | some path =>
              have hnone : s.held = none := Option.not_isSome_iff_eq_none.mp hheld
              exact h.went (.inr hlock) hstored hlock hnone le_rfl
          | none => exact h.went (.inr hlock) hstored rfl trivial le_rfl
        · exact h.went (.inr hlock) hstored rfl trivial le_rfl
  | start thread outcome =>
      obtain ⟨path, hstarting⟩ := he
      have hlock := (h.lock thread).mp (by rw [hstarting]; rfl)
      have hstored : (s.threads thread).stored = false := by rw [hstarting]; rfl
      have hnone : s.held = none := by
        have hrely := h.rely thread
        rwa [hstarting] at hrely
      simp only [State.next, hstarting]
      cases outcome with
      | built =>
          exact h.went (.inr hlock) hstored hlock ⟨hnone, s.started.lt_succ_self⟩ (Nat.le_succ _)
      | gone => exact h.went (.inr hlock) hstored rfl trivial le_rfl
      | notOpened reason => exact h.went (.inr hlock) hstored rfl trivial le_rfl
      | notBuilt reason => exact h.went (.inr hlock) hstored rfl trivial le_rfl
      | panicked => exact h.went (.inr hlock) hstored rfl trivial le_rfl
  | register thread offered =>
      obtain ⟨environment, hregistering⟩ := he
      have hlock := (h.lock thread).mp (by rw [hregistering]; rfl)
      have hstored : (s.threads thread).stored = false := by rw [hregistering]; rfl
      have hrely := h.rely thread
      rw [hregistering] at hrely
      simp only [State.next, hregistering]
      cases offered with
      | none => exact h.went (.inr hlock) hstored rfl trivial le_rfl
      | some offered =>
          exact h.moved (.inr hlock) rfl hlock id hrely (fun _ _ => rfl) h.held h.handlers
  | keep thread =>
      obtain ⟨environment, hkeeping⟩ := he
      have hlock := (h.lock thread).mp (by rw [hkeeping]; rfl)
      have hrely := h.rely thread
      rw [hkeeping] at hrely
      obtain ⟨hnone, hlt⟩ := hrely
      have hhandlers : s.handlers = 0 := by
        have hle := h.handlers
        rw [hnone] at hle
        exact Nat.le_zero.mp hle
      simp only [State.next, hkeeping]
      refine h.moved (.inr hlock) rfl hlock (fun _ => rfl) ⟨rfl, hhandlers⟩ (fun _ => nofun)
        (fun kept hkept => ?_) ?_
      · obtain rfl := Option.some.inj hkept
        exact hlt
      · exact hhandlers.le.trans (Nat.zero_le _)
  | silence thread registered =>
      have hsilencing : s.threads thread = .silencing := he
      have hlock := (h.lock thread).mp (by rw [hsilencing]; rfl)
      have hrely := h.rely thread
      rw [hsilencing] at hrely
      obtain ⟨hheld, hhandlers⟩ := hrely
      refine h.moved (.inr hlock) rfl rfl id hheld (fun _ hnone => ?_) h.held ?_
      · have hnone : s.held = none := hnone
        rw [hnone] at hheld
        cases hheld
      · change s.handlers + (if registered then 1 else 0) ≤ if s.held.isSome then 1 else 0
        rw [hheld, hhandlers]
        split <;> simp
  | again thread =>
      obtain ⟨result, hreturned⟩ := he
      have hthreads : ∀ other, (s.next (.again thread)).threads other =
          if other = thread then .idle else s.threads other :=
        fun other => Function.update_apply ..
      refine ⟨fun other => ?_, fun other => ?_, fun hoffered hnone => ?_, h.held, h.handlers⟩
      · refine Iff.trans ?_ (h.lock other)
        rw [hthreads]
        split
        · rename_i hother
          rw [hother, hreturned]
          rfl
        · rfl
      · rw [hthreads]
        split
        · trivial
        · exact h.rely other
      · obtain ⟨other, hstored⟩ := h.webgpu hoffered hnone
        refine ⟨other, ?_⟩
        rw [hthreads]
        split
        · rename_i hother
          rw [hother, hreturned] at hstored
          cases hstored
        · exact hstored

theorem inv (hr : (machine τ φ).Reachable s) : Inv s := by
  refine hr.invariant (fun s hs => ?_) fun s e s' h hstep => ?_
  · rw [hs]
    exact ⟨fun _ => ⟨nofun, nofun⟩, fun _ => trivial, nofun, nofun, le_rfl⟩
  · rw [hstep.2]
    exact h.next hstep.1

/-- Nothing more is started, offered or kept once an environment is. -/
theorem Inv.next_kept (h : Inv s) {e : Event τ φ} (he : s.Enabled e) {environment : ℕ}
    (hheld : s.held = some environment) : (s.next e).held = some environment ∧
      (s.next e).started = s.started ∧ (s.next e).webgpu = s.webgpu := by
  cases e with
  | enter thread dir => exact ⟨hheld, rfl, rfl⟩
  | check thread marker library =>
      obtain ⟨dir, hlocked⟩ := he
      simp only [State.next, hlocked, hheld]
      exact ⟨hheld, rfl, rfl⟩
  | start thread outcome =>
      obtain ⟨path, hstarting⟩ := he
      have hnone := h.rely thread
      rw [hstarting] at hnone
      cases hheld.symm.trans hnone
  | register thread offered =>
      obtain ⟨started, hregistering⟩ := he
      have hnone := h.rely thread
      rw [hregistering] at hnone
      cases hheld.symm.trans hnone.1
  | keep thread =>
      obtain ⟨started, hkeeping⟩ := he
      have hnone := h.rely thread
      rw [hkeeping] at hnone
      cases hheld.symm.trans hnone.1
  | silence thread registered => exact ⟨hheld, rfl, rfl⟩
  | again thread => exact ⟨hheld, rfl, rfl⟩

/-- One environment is kept in the process, whatever its threads load, fail at or panic in: they
start one at a time, and once one is kept no load changes it, starts another or offers another
WebGPU. A load that returns without an error leaves one kept, and so does an offer of WebGPU
that the lock's owner has made. At most one exit handler is registered, and none before. -/
theorem loaded_once (hr : (machine τ φ).Reachable s) :
    (∀ thread other, (s.threads thread).holds = true → (s.threads other).holds = true →
      thread = other) ∧
    (∀ thread, s.threads thread = .returned (.ok ()) → s.held.isSome = true) ∧
    (s.webgpu = true → s.lock = none → s.held.isSome = true) ∧
    s.handlers ≤ (if s.held.isSome then 1 else 0) ∧
    ∀ environment, s.held = some environment → environment < s.started ∧
      ∀ s', (machine τ φ).Later s s' → s'.held = some environment ∧
        s'.started = s.started ∧ s'.webgpu = s.webgpu := by
  have hinv := inv hr
  refine ⟨fun thread other hholds hholds' => ?_, fun thread hreturned => ?_,
    fun hoffered hfree => ?_, hinv.handlers,
    fun environment hheld => ⟨hinv.held environment hheld, fun s' hlater => ?_⟩⟩
  · exact Option.some.inj (((hinv.lock thread).mp hholds).symm.trans ((hinv.lock other).mp hholds'))
  · have hrely := hinv.rely thread
    rwa [hreturned] at hrely
  · cases hheld : s.held with
    | some environment => rfl
    | none =>
        obtain ⟨thread, hstored⟩ := hinv.webgpu hoffered hheld
        cases hfree.symm.trans ((hinv.lock thread).mp (Phase.holds_of_stored hstored))
  · refine Machine.Later.invariant (I := fun t => t.held = some environment ∧
      t.started = s.started ∧ t.webgpu = s.webgpu) (fun t e t' ht hkept hstep => ?_) hr hlater
      ⟨hheld, rfl, rfl⟩
    obtain ⟨hheld', hstarted, hwebgpu⟩ := hkept
    obtain ⟨hheld'', hstarted', hwebgpu'⟩ := (inv ht).next_kept hstep.1 hheld'
    rw [hstep.2]
    exact ⟨hheld'', hstarted'.trans hstarted, hwebgpu'.trans hwebgpu⟩

/-- A load fails, a second waits for none and keeps what it starts, and a third finds that. -/
def thrice : List (Event Bool ℕ) :=
  [.enter false 0, .check false false none, .enter true 1, .check true true (some 7),
    .start true .built, .register true (some true), .keep true, .silence true true, .again false,
    .enter false 0, .check false false none]

theorem loaded_once_thrice :
    (thrice.foldl State.next ⟨none, false, none, fun _ => Phase.idle, 0, 0⟩).held = some 0 ∧
      (thrice.foldl State.next ⟨none, false, none, fun _ => Phase.idle, 0, 0⟩).handlers ≤ 1 := by
  have hlegal : Machine.Legal State.Enabled State.next
      ⟨none, false, none, fun _ => Phase.idle, 0, 0⟩ thrice :=
    ⟨⟨rfl, rfl⟩, ⟨0, rfl⟩, ⟨rfl, rfl⟩, ⟨1, rfl⟩, ⟨7, rfl⟩, ⟨0, rfl⟩, ⟨0, rfl⟩, rfl, ⟨_, rfl⟩,
      ⟨rfl, rfl⟩, ⟨0, rfl⟩, trivial⟩
  have hr : (machine Bool ℕ).Reachable _ :=
    Machine.Reachable.legal (Machine.Reachable.start rfl) hlegal
  exact ⟨rfl, (loaded_once hr).2.2.2.1⟩

end Runtime

end Ai

end RustSak
