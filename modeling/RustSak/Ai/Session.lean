import RustSak.Library.Machine
import Mathlib.Logic.Function.Basic

/-!
# Session builds

Threads that build sessions, each on a rung of its choice, in one process. A build that
attaches TensorRT holds the process-wide lock, and a failed one empties its timing
folder before it lets the lock go. What the runtime writes into the folders that it is
given, and how a build ends, is left open. Folders are kept apart from the folders in
them.
-/

namespace RustSak

namespace Ai

namespace Sessions

open Library

/-- A provider a rung attaches. -/
inductive Accelerator where
  | coreMl
  | cuda
  | tensorRt
  | webGpu
  deriving DecidableEq

/-- Where the providers keep what they compile. -/
structure CachePaths (φ : Type) where
  tensorrt : φ
  timing : φ
  coreml : φ

/-- The folders that one provider compiles into. -/
def Accelerator.writes {φ : Type} (paths : CachePaths φ) : Accelerator → List φ
  | coreMl => [paths.coreml]
  | tensorRt => [paths.tensorrt, paths.timing]
  | cuda => []
  | webGpu => []

/-- The folders that a rung's providers compile into. -/
def written {φ : Type} (paths : CachePaths φ) (rung : List Accelerator) : List φ :=
  rung.flatMap (Accelerator.writes paths)

/-- What a build is called with. -/
structure Build (φ : Type) where
  cache : CachePaths φ
  rung : List Accelerator

def Build.tensorrt {φ : Type} (build : Build φ) : Bool := build.rung.contains .tensorRt

/-- A lock. A thread that panics while it holds it poisons it. -/
structure Mutex (τ : Type) where
  holder : Option τ
  poisoned : Bool

namespace Mutex

variable {τ : Type} (m : Mutex τ)

/-- Poisoned or not. -/
def lock (t : τ) : Mutex τ := { m with holder := some t }

def unlock (panicking : Bool) : Mutex τ := ⟨none, m.poisoned || panicking⟩

end Mutex

inductive Phase (φ : Type) where
  | idle
  | waiting (build : Build φ)
  | building (build : Build φ)
  | discarding (build : Build φ)

/-- The timing folder as a build found it, and as the last one on that folder that
returned its session left it, if there was one. -/
structure Start (κ : Type) where
  found : κ
  left : Option κ

variable {τ φ κ : Type}

/-- `left` is what each timing folder was left as by the last build on it that returned
its session. -/
structure State (τ φ κ : Type) where
  lock : Mutex τ
  phase : τ → Phase φ
  folders : φ → κ
  left : φ → Option κ
  starts : List (Start κ)

inductive Event (τ φ κ : Type) where
  | call (t : τ) (build : Build φ)
  | lock (t : τ)
  | write (t : τ) (folder : φ) (content : κ)
  | succeed (t : τ)
  | fail (t : τ)
  | discard (t : τ)
  | panic (t : τ)

def Event.thread : Event τ φ κ → τ
  | call t _ => t
  | lock t => t
  | write t _ _ => t
  | succeed t => t
  | fail t => t
  | discard t => t
  | panic t => t

namespace State

variable [DecidableEq τ] [DecidableEq φ]

def toPhase (s : State τ φ κ) (t : τ) (phase : Phase φ) : State τ φ κ :=
  { s with phase := Function.update s.phase t phase }

/-- A thread's build is over, and with it the lock. -/
def release (s : State τ φ κ) (t : τ) (panicking : Bool) : State τ φ κ :=
  { s.toPhase t .idle with lock := s.lock.unlock panicking }

def put (s : State τ φ κ) (folder : φ) (content : κ) : State τ φ κ :=
  { s with folders := Function.update s.folders folder content }

variable (empty : κ)

/-- `serialized`, step by step. -/
def next (s : State τ φ κ) : Event τ φ κ → State τ φ κ
  | .call t build =>
      s.toPhase t (if build.tensorrt then .waiting build else .building build)
  | .lock t =>
      match s.phase t with
      | .waiting build =>
          let timing := build.cache.timing
          { s.toPhase t (.building build) with
            lock := s.lock.lock t
            starts := ⟨s.folders timing, s.left timing⟩ :: s.starts }
      | _ => s
  | .write _ folder content => s.put folder content
  | .succeed t =>
      match s.phase t with
      | .building build =>
          if build.tensorrt then
            let timing := build.cache.timing
            { s.release t false with
              left := Function.update s.left timing (some (s.folders timing)) }
          else s.toPhase t .idle
      | _ => s
  | .fail t =>
      match s.phase t with
      | .building build =>
          s.toPhase t (if build.tensorrt then .discarding build else .idle)
      | _ => s
  | .discard t =>
      match s.phase t with
      | .discarding build => (s.release t false).put build.cache.timing empty
      | _ => s
  | .panic t =>
      match s.phase t with
      | .building build =>
          if build.tensorrt then s.release t true else s.toPhase t .idle
      | _ => s

omit [DecidableEq τ] [DecidableEq φ] in
/-- The lock is taken once nobody holds it, poisoned or not, and the runtime writes into
the folders that its build gives it. -/
def Enabled (s : State τ φ κ) : Event τ φ κ → Prop
  | .call t _ => s.phase t = .idle
  | .lock t => (∃ build, s.phase t = .waiting build) ∧ s.lock.holder = none
  | .write t folder _ => ∃ build, s.phase t = .building build ∧
      folder ∈ written build.cache build.rung
  | .succeed t => ∃ build, s.phase t = .building build
  | .fail t => ∃ build, s.phase t = .building build
  | .discard t => ∃ build, s.phase t = .discarding build
  | .panic t => ∃ build, s.phase t = .building build

/-- A folder is empty, or as the last build on it that returned its session left it. -/
def Clean (s : State τ φ κ) (folder : φ) : Prop :=
  s.folders folder = empty ∨ s.left folder = some (s.folders folder)

/-- In one process, from clean folders. -/
def machine : Machine (State τ φ κ) (Event τ φ κ) :=
  .guarded (fun s => s.lock = ⟨none, false⟩ ∧ (∀ t, s.phase t = .idle) ∧
    (∀ folder, s.Clean empty folder) ∧ s.starts = []) Enabled (next empty)

end State

section Excluding

variable [DecidableEq τ] {empty : κ} {s : State τ φ κ}

/-- The build that a phase has the lock for. -/
def Phase.held : Phase φ → Option (Build φ)
  | idle => none
  | waiting _ => none
  | building build => if build.tensorrt then some build else none
  | discarding build => some build

/-- The build that waits for the lock, or empties its folder under it. -/
def Phase.serialized : Phase φ → Option (Build φ)
  | idle => none
  | waiting build => some build
  | building _ => none
  | discarding build => some build

namespace State

omit [DecidableEq τ] in
/-- Who has the lock has it, and only builds that attach TensorRT need it. -/
structure Locked (s : State τ φ κ) : Prop where
  holder : ∀ t build, (s.phase t).held = some build → s.lock.holder = some t
  needed : ∀ t build, (s.phase t).serialized = some build → build.tensorrt = true

theorem phase_toPhase (s : State τ φ κ) (t t' : τ) (phase : Phase φ) :
    (s.toPhase t phase).phase t' = if t' = t then phase else s.phase t' :=
  Function.update_apply _ _ _ _

namespace Locked

omit [DecidableEq τ] in
/-- Nobody else has it. -/
theorem eq_of_held (h : s.Locked) {t t' : τ} {build build' : Build φ}
    (ht : (s.phase t).held = some build) (ht' : (s.phase t').held = some build') :
    t = t' :=
  Option.some.inj ((h.holder t build ht).symm.trans (h.holder t' build' ht'))

/-- A thread goes on without the lock. -/
theorem toPhase (h : s.Locked) {t : τ} {phase : Phase φ}
    (hheld : phase.held = none ∨ phase.held = (s.phase t).held)
    (hneeded : ∀ build, phase.serialized = some build → build.tensorrt = true) :
    (s.toPhase t phase).Locked where
  holder t' build ht' := by
    rw [phase_toPhase] at ht'
    split at ht'
    · rename_i heq
      subst heq
      rcases hheld with hnone | hsame
      · rw [hnone] at ht'
        cases ht'
      · exact h.holder t' build (hsame ▸ ht')
    · exact h.holder t' build ht'
  needed t' build ht' := by
    rw [phase_toPhase] at ht'
    split at ht'
    · exact hneeded build ht'
    · exact h.needed t' build ht'

/-- A thread that has the lock lets it go. -/
theorem release (h : s.Locked) {t : τ} {build : Build φ}
    (ht : (s.phase t).held = some build) (panicking : Bool) :
    (s.release t panicking).Locked where
  holder t' build' ht' := by
    change ((s.toPhase t .idle).phase t').held = some build' at ht'
    rw [phase_toPhase] at ht'
    split at ht'
    · cases ht'
    · rename_i hne
      exact absurd (h.eq_of_held ht' ht) hne
  needed t' build' ht' := by
    change ((s.toPhase t .idle).phase t').serialized = some build' at ht'
    rw [phase_toPhase] at ht'
    split at ht'
    · cases ht'
    · exact h.needed t' build' ht'

/-- A thread takes the lock that nobody has. -/
theorem lock (h : s.Locked) {t : τ} {build : Build φ}
    (hholder : s.lock.holder = none) :
    ({ s.toPhase t (.building build) with lock := s.lock.lock t } :
      State τ φ κ).Locked where
  holder t' build' ht' := by
    change ((s.toPhase t (.building build)).phase t').held = some build' at ht'
    rw [phase_toPhase] at ht'
    split at ht'
    · rename_i heq
      subst heq
      exact rfl
    · have hsome := h.holder t' build' ht'
      rw [hholder] at hsome
      cases hsome
  needed t' build' ht' := by
    change ((s.toPhase t (.building build)).phase t').serialized = some build' at ht'
    rw [phase_toPhase] at ht'
    split at ht'
    · cases ht'
    · exact h.needed t' build' ht'

variable [DecidableEq φ]

theorem next (h : s.Locked) {e : Event τ φ κ} (he : s.Enabled e) :
    (s.next empty e).Locked := by
  cases e with
  | call t build =>
      refine h.toPhase ?_ ?_
      · split
        · exact .inl rfl
        · rename_i hno
          exact .inl (if_neg hno)
      · intro build' hbuild
        split at hbuild
        · rename_i htensorrt
          exact Option.some.inj hbuild ▸ htensorrt
        · cases hbuild
  | lock t =>
      obtain ⟨⟨build, ht⟩, hholder⟩ := he
      have hlocked : ({ s.toPhase t (.building build) with lock := s.lock.lock t } :
          State τ φ κ).Locked := h.lock hholder
      simp only [State.next, ht]
      exact ⟨hlocked.holder, hlocked.needed⟩
  | write t folder content => exact ⟨h.holder, h.needed⟩
  | succeed t =>
      obtain ⟨build, ht⟩ := he
      simp only [State.next, ht]
      split
      · rename_i htensorrt
        have hheld : (s.phase t).held = some build := by
          rw [ht]
          exact if_pos htensorrt
        have hreleased := h.release hheld false
        exact ⟨hreleased.holder, hreleased.needed⟩
      · exact h.toPhase (.inl rfl) (by simp [Phase.serialized])
  | fail t =>
      obtain ⟨build, ht⟩ := he
      simp only [State.next, ht]
      split
      · rename_i htensorrt
        refine h.toPhase (.inr ?_) fun build' hbuild => ?_
        · rw [ht]
          exact (if_pos htensorrt).symm
        · exact Option.some.inj hbuild ▸ htensorrt
      · exact h.toPhase (.inl rfl) (by simp [Phase.serialized])
  | discard t =>
      obtain ⟨build, ht⟩ := he
      simp only [State.next, ht]
      have hheld : (s.phase t).held = some build := by
        rw [ht]
        exact rfl
      have hreleased := h.release hheld false
      exact ⟨hreleased.holder, hreleased.needed⟩
  | panic t =>
      obtain ⟨build, ht⟩ := he
      simp only [State.next, ht]
      split
      · rename_i htensorrt
        have hheld : (s.phase t).held = some build := by
          rw [ht]
          exact if_pos htensorrt
        exact h.release hheld true
      · exact h.toPhase (.inl rfl) (by simp [Phase.serialized])

end Locked

theorem locked_of_reachable [DecidableEq φ]
    (hr : (machine empty : Machine (State τ φ κ) (Event τ φ κ)).Reachable s) :
    s.Locked := by
  refine hr.invariant ?_ ?_
  · rintro s ⟨-, hidle, -, -⟩
    refine ⟨fun t build ht => ?_, fun t build ht => ?_⟩
    · rw [hidle t] at ht
      cases ht
    · rw [hidle t] at ht
      cases ht
  · rintro s e _ hlocked ⟨henabled, rfl⟩
    exact hlocked.next henabled

end State

end Excluding

section Cleaning

variable [DecidableEq τ] {empty : κ} {s : State τ φ κ}
  {Timing : φ → Prop}

/-- The build a phase is of. -/
def Phase.build : Phase φ → Option (Build φ)
  | idle => none
  | waiting build => some build
  | building build => some build
  | discarding build => some build

theorem Phase.build_of_held {phase : Phase φ} {build : Build φ}
    (h : phase.held = some build) : phase.build = some build := by
  cases phase with
  | idle => cases h
  | waiting build => cases h
  | building build' =>
      unfold Phase.held at h
      dsimp only at h
      split at h
      · exact h
      · cases h
  | discarding build' => exact h

/-- The timing folder is one, and no engine goes into any. -/
def Apart (Timing : φ → Prop) (build : Build φ) : Prop :=
  Timing build.cache.timing ∧ ¬Timing build.cache.coreml ∧ ¬Timing build.cache.tensorrt

/-- A timing folder that a build may write into is its own, and it attaches TensorRT. -/
theorem Apart.eq_timing {build : Build φ} (h : Apart Timing build) {folder : φ}
    (hfolder : Timing folder) (hmem : folder ∈ written build.cache build.rung) :
    folder = build.cache.timing ∧ build.tensorrt = true := by
  obtain ⟨accelerator, hrung, hwrites⟩ := List.mem_flatMap.mp hmem
  cases accelerator with
  | coreMl =>
      obtain rfl := List.mem_singleton.mp hwrites
      exact absurd hfolder h.2.1
  | cuda => cases hwrites
  | tensorRt =>
      rcases List.mem_pair.mp hwrites with rfl | rfl
      · exact absurd hfolder h.2.2
      · exact ⟨rfl, List.contains_iff_mem.mpr hrung⟩
  | webGpu => cases hwrites

namespace State

variable (empty Timing) in
omit [DecidableEq τ] in
/-- A build that panics leaves its timing folder clean, and timing folders serve as
nothing else. -/
def Meets (s : State τ φ κ) : Event τ φ κ → Prop
  | .call _ build => Apart Timing build
  | .panic t => ∀ build, s.phase t = .building build → build.tensorrt = true →
      s.Clean empty build.cache.timing
  | _ => True

variable (empty Timing) in
omit [DecidableEq τ] in
/-- A timing folder that no thread has the lock for is clean, and every build found its
own so. -/
structure Kept (s : State τ φ κ) : Prop where
  locked : s.Locked
  apart : ∀ t build, (s.phase t).build = some build → Apart Timing build
  sound : ∀ folder, Timing folder →
    (∀ t build, (s.phase t).held = some build → build.cache.timing ≠ folder) →
      s.Clean empty folder
  starts : ∀ start ∈ s.starts, start.found = empty ∨ start.left = some start.found

namespace Kept

theorem apart_toPhase (h : s.Kept empty Timing) {t : τ} {phase : Phase φ}
    (hbuild : ∀ build, phase.build = some build → Apart Timing build) (t' : τ)
    (build : Build φ) (ht' : ((s.toPhase t phase).phase t').build = some build) :
    Apart Timing build := by
  rw [phase_toPhase] at ht'
  split at ht'
  · exact hbuild build ht'
  · exact h.apart t' build ht'

/-- A folder that nobody has the lock for once a thread has gone on is clean, if it is
not one that this thread leaves, or was left clean. -/
theorem clean_toPhase (h : s.Kept empty Timing) {t : τ} {phase : Phase φ} {folder : φ}
    (hfolder : Timing folder)
    (hleaves : ∀ build, (s.phase t).held = some build → build.cache.timing = folder →
      phase.held = some build ∨ s.Clean empty folder)
    (hfree : ∀ t' build, ((s.toPhase t phase).phase t').held = some build →
      build.cache.timing ≠ folder) : s.Clean empty folder := by
  by_cases hheld : ∃ build, (s.phase t).held = some build ∧ build.cache.timing = folder
  · obtain ⟨build, ht, htiming⟩ := hheld
    refine (hleaves build ht htiming).resolve_left fun hphase => ?_
    refine hfree t build ?_ htiming
    rw [phase_toPhase, if_pos rfl]
    exact hphase
  · refine h.sound folder hfolder fun t' build ht' htiming => ?_
    by_cases heq : t' = t
    · subst heq
      exact hheld ⟨build, ht', htiming⟩
    · refine hfree t' build ?_ htiming
      rw [phase_toPhase, if_neg heq]
      exact ht'

/-- A thread goes on, and the folder it leaves, if it does, is clean. -/
theorem toPhase (h : s.Kept empty Timing) {t : τ} {phase : Phase φ}
    (hlocked : (s.toPhase t phase).Locked)
    (hbuild : ∀ build, phase.build = some build → Apart Timing build)
    (hleaves : ∀ build, (s.phase t).held = some build →
      phase.held = some build ∨ s.Clean empty build.cache.timing) :
    (s.toPhase t phase).Kept empty Timing where
  locked := hlocked
  apart := h.apart_toPhase hbuild
  sound _ hfolder hfree := h.clean_toPhase hfolder
    (fun build ht htiming => htiming ▸ hleaves build ht) hfree
  starts := h.starts

/-- A timing folder other than the one its build has a thread leaves as it was. -/
theorem clean_elsewhere (h : s.Kept empty Timing) {t : τ} {phase : Phase φ} {build : Build φ}
    (ht : (s.phase t).build = some build) {folder : φ} (hfolder : Timing folder)
    (hne : folder ≠ build.cache.timing)
    (hfree : ∀ t' build', ((s.toPhase t phase).phase t').held = some build' →
      build'.cache.timing ≠ folder) : s.Clean empty folder := by
  refine h.clean_toPhase hfolder (fun build' ht' htiming => ?_) hfree
  obtain rfl := Option.some.inj (ht.symm.trans (Phase.build_of_held ht'))
  exact absurd htiming.symm hne

/-- A thread without the lock is done. -/
theorem unheld (h : s.Kept empty Timing) {t : τ} {phase : Phase φ}
    (hlocked : (s.toPhase t phase).Locked) (hphase : phase.build = none)
    (ht : (s.phase t).held = none) : (s.toPhase t phase).Kept empty Timing := by
  refine h.toPhase hlocked (fun build hbuild => ?_) fun build hheld => ?_
  · rw [hphase] at hbuild
    cases hbuild
  · rw [ht] at hheld
    cases hheld

variable [DecidableEq φ]

theorem next (h : s.Kept empty Timing) {e : Event τ φ κ} (he : s.Enabled e)
    (hmeets : s.Meets empty Timing e) : (s.next empty e).Kept empty Timing := by
  have hlocked : (s.next empty e).Locked := h.locked.next he
  cases e with
  | call t build =>
      have hidle : s.phase t = .idle := he
      refine h.toPhase hlocked ?_ ?_
      · intro build' hbuild
        split at hbuild
        · exact Option.some.inj hbuild ▸ hmeets
        · exact Option.some.inj hbuild ▸ hmeets
      · intro build' ht
        rw [hidle] at ht
        cases ht
  | lock t =>
      obtain ⟨⟨build, ht⟩, hholder⟩ := he
      have hfree : ∀ t' build', (s.phase t').held ≠ some build' := by
        intro t' build' ht'
        have hsome := h.locked.holder t' build' ht'
        rw [hholder] at hsome
        cases hsome
      have hapart := h.apart t build (by rw [ht]; rfl)
      simp only [State.next, ht] at hlocked ⊢
      refine ⟨hlocked, h.apart_toPhase ?_, ?_, ?_⟩
      · intro build' hbuild
        exact Option.some.inj hbuild ▸ hapart
      · intro folder hfolder _
        exact h.sound folder hfolder fun t' build' ht' => absurd ht' (hfree t' build')
      · refine List.forall_mem_cons.mpr ⟨?_, h.starts⟩
        exact h.sound _ hapart.1 fun t' build' ht' => absurd ht' (hfree t' build')
  | write t folder content =>
      obtain ⟨build, ht, hmem⟩ := he
      have hapart := h.apart t build (by rw [ht]; rfl)
      refine ⟨hlocked, h.apart, fun timing htiming hfree => ?_, h.starts⟩
      have hne : timing ≠ folder := by
        rintro rfl
        obtain ⟨rfl, htensorrt⟩ := hapart.eq_timing htiming hmem
        refine hfree t build ?_ rfl
        change (s.phase t).held = some build
        rw [ht]
        exact if_pos htensorrt
      have hclean := h.sound timing htiming hfree
      simp only [Clean, State.next, put, Function.update_of_ne hne]
      exact hclean
  | succeed t =>
      obtain ⟨build, ht⟩ := he
      simp only [State.next, ht] at hlocked ⊢
      split at hlocked
      · rename_i htensorrt
        rw [if_pos htensorrt]
        refine ⟨hlocked, h.apart_toPhase (by simp [Phase.build]), ?_, h.starts⟩
        intro folder hfolder hfree
        by_cases heq : folder = build.cache.timing
        · subst heq
          exact .inr (Function.update_self _ _ _)
        · have hclean := h.clean_elsewhere (by rw [ht]; rfl) hfolder heq hfree
          simp only [Clean, Function.update_of_ne heq]
          exact hclean
      · rename_i hother
        rw [if_neg hother]
        refine h.unheld hlocked rfl ?_
        rw [ht, Phase.held, if_neg hother]
  | fail t =>
      obtain ⟨build, ht⟩ := he
      simp only [State.next, ht] at hlocked ⊢
      have hapart := h.apart t build (by rw [ht]; rfl)
      refine h.toPhase hlocked ?_ ?_
      · intro build' hbuild
        split at hbuild
        · exact Option.some.inj hbuild ▸ hapart
        · cases hbuild
      · intro build' ht'
        rw [ht, Phase.held] at ht'
        split at ht'
        · rename_i htensorrt
          rw [if_pos htensorrt]
          exact .inl ht'
        · cases ht'
  | discard t =>
      obtain ⟨build, ht⟩ := he
      simp only [State.next, ht] at hlocked ⊢
      refine ⟨hlocked, h.apart_toPhase (by simp [Phase.build]), ?_, h.starts⟩
      intro folder hfolder hfree
      by_cases heq : folder = build.cache.timing
      · subst heq
        exact .inl (Function.update_self _ _ _)
      · have hclean := h.clean_elsewhere (by rw [ht]; rfl) hfolder heq hfree
        simp only [Clean, put, Function.update_of_ne heq]
        exact hclean
  | panic t =>
      obtain ⟨build, ht⟩ := he
      simp only [State.next, ht] at hlocked ⊢
      split at hlocked
      · rename_i htensorrt
        rw [if_pos htensorrt]
        refine ⟨hlocked, h.apart_toPhase (by simp [Phase.build]), ?_, h.starts⟩
        intro folder hfolder hfree
        refine h.clean_toPhase hfolder (fun build' ht' htiming => .inr ?_) hfree
        rw [ht] at ht'
        obtain rfl := Option.some.inj (Phase.build_of_held ht')
        exact htiming ▸ hmeets build ht htensorrt
      · rename_i hother
        rw [if_neg hother]
        refine h.unheld hlocked rfl ?_
        rw [ht, Phase.held, if_neg hother]

end Kept

variable [DecidableEq φ]

theorem kept_of_reachable
    (hr : ((machine empty : Machine (State τ φ κ) (Event τ φ κ)).restrict
      (Meets empty Timing)).Reachable s) : s.Kept empty Timing := by
  refine hr.invariant ?_ ?_
  · rintro s ⟨hlock, hidle, hclean, hstarts⟩
    refine ⟨locked_of_reachable (.start ⟨hlock, hidle, hclean, hstarts⟩),
      fun t build ht => ?_, fun folder _ _ => hclean folder, ?_⟩
    · rw [hidle t] at ht
      cases ht
    · rw [hstarts]
      exact List.forall_mem_nil _
  · rintro s e _ hkept ⟨hmeets, henabled, rfl⟩
    exact hkept.next henabled hmeets

/-- A thread whose build does not attach TensorRT leaves every timing folder alone. -/
theorem Kept.untouched (h : s.Kept empty Timing) {e : Event τ φ κ} (he : s.Enabled e)
    {build : Build φ} (hbuild : (s.phase e.thread).build = some build)
    (hother : build.tensorrt = false) {folder : φ} (hfolder : Timing folder) :
    (s.next empty e).folders folder = s.folders folder := by
  have hno : ¬build.tensorrt = true := by simp [hother]
  cases e with
  | call t build' => exact rfl
  | lock t =>
      obtain ⟨⟨build', ht⟩, -⟩ := he
      simp only [State.next, ht, State.toPhase]
  | write t folder' content =>
      obtain ⟨build', ht, hmem⟩ := he
      change (s.phase t).build = some build at hbuild
      have hapart := h.apart t build hbuild
      rw [ht] at hbuild
      obtain rfl := Option.some.inj hbuild
      refine Function.update_of_ne ?_ _ _
      rintro rfl
      exact hno (hapart.eq_timing hfolder hmem).2
  | succeed t =>
      obtain ⟨build', ht⟩ := he
      simp only [State.next, ht]
      split
      · exact rfl
      · exact rfl
  | fail t =>
      obtain ⟨build', ht⟩ := he
      simp only [State.next, ht, State.toPhase]
  | discard t =>
      obtain ⟨build', ht⟩ := he
      change (s.phase t).build = some build at hbuild
      rw [ht] at hbuild
      obtain rfl := Option.some.inj hbuild
      exact absurd (h.locked.needed t _ (by rw [ht]; rfl)) hno
  | panic t =>
      obtain ⟨build', ht⟩ := he
      simp only [State.next, ht]
      split
      · exact rfl
      · exact rfl

omit [DecidableEq φ] in
/-- A folder that a panic leaves otherwise is what the next build on it finds. -/
theorem starts_after_panic [DecidableEq φ] {t t' : τ} {build build' : Build φ}
    (ht : s.phase t = .building build) (htensorrt : build.tensorrt = true)
    (hdirty : ¬s.Clean empty build.cache.timing) (ht' : s.phase t' = .waiting build')
    (hsame : build'.cache.timing = build.cache.timing) :
    (s.next empty (.panic t)).Enabled (.lock t' : Event τ φ κ) ∧
    ∃ start ∈ ((s.next empty (.panic t)).next empty (.lock t')).starts,
      ¬(start.found = empty ∨ start.left = some start.found) := by
  have hne : t' ≠ t := by
    rintro rfl
    rw [ht] at ht'
    cases ht'
  have hafter : s.next empty (.panic t) = s.release t true := by
    simp only [State.next, ht]
    exact if_pos htensorrt
  have hwaits : (s.release t true).phase t' = .waiting build' := by
    change (s.toPhase t .idle).phase t' = _
    rw [phase_toPhase, if_neg hne]
    exact ht'
  rw [hafter]
  refine ⟨⟨⟨build', hwaits⟩, rfl⟩,
    ⟨s.folders build'.cache.timing, s.left build'.cache.timing⟩, ?_, ?_⟩
  · simp only [State.next, hwaits]
    exact List.mem_cons_self
  · rw [hsame]
    exact hdirty

end State

/-- Builds that attach TensorRT never overlap. As long as one that panics leaves its
timing folder clean, and timing folders serve as nothing else, each finds its own empty
or as the last that returned a session left it, and the builds without TensorRT leave
them alone. What a panic leaves otherwise is found by the next build on that folder. -/
theorem builds_serialized [DecidableEq φ] (empty : κ) (Timing : φ → Prop) :
    (∀ s, (State.machine empty : Machine (State τ φ κ) (Event τ φ κ)).Reachable s →
      ∀ t t' build build', s.phase t = .building build → build.tensorrt = true →
        s.phase t' = .building build' → build'.tensorrt = true → t = t') ∧
    (∀ s, ((State.machine empty : Machine (State τ φ κ) (Event τ φ κ)).restrict
        (State.Meets empty Timing)).Reachable s →
      (∀ start ∈ s.starts, start.found = empty ∨ start.left = some start.found) ∧
      ∀ e build, s.Enabled e → (s.phase e.thread).build = some build →
        build.tensorrt = false → ∀ folder, Timing folder →
          (s.next empty e).folders folder = s.folders folder) ∧
    ∀ (s : State τ φ κ) t t' build build', s.phase t = .building build →
      build.tensorrt = true → ¬s.Clean empty build.cache.timing →
      s.phase t' = .waiting build' → build'.cache.timing = build.cache.timing →
        (s.next empty (.panic t)).Enabled (.lock t' : Event τ φ κ) ∧
        ∃ start ∈ ((s.next empty (.panic t)).next empty (.lock t')).starts,
          ¬(start.found = empty ∨ start.left = some start.found) := by
  refine ⟨fun s hr t t' build build' ht htensorrt ht' htensorrt' => ?_,
    fun s hr => ?_, fun s t t' build build' => State.starts_after_panic⟩
  · have hheld : (s.phase t).held = some build := by
      rw [ht]
      exact if_pos htensorrt
    have hheld' : (s.phase t').held = some build' := by
      rw [ht']
      exact if_pos htensorrt'
    exact (State.locked_of_reachable hr).eq_of_held hheld hheld'
  · have hkept := State.kept_of_reachable hr
    exact ⟨hkept.starts, fun e build he hbuild hother folder hfolder =>
      hkept.untouched he hbuild hother hfolder⟩

end Cleaning

section Examples

/-- On TensorRT, with the timing folder 1 of the model's three. -/
def onTensorRt : Build ℕ := ⟨⟨0, 1, 2⟩, [.tensorRt, .cuda]⟩

def fresh : State ℕ ℕ ℕ :=
  ⟨⟨none, false⟩, fun _ => .idle, fun _ => 0, fun _ => none, []⟩

def played (es : List (Event ℕ ℕ ℕ)) : State ℕ ℕ ℕ := es.foldl (State.next 0) fresh

/-- A build writes its timing folder and panics, another one follows. -/
def panicking : List (Event ℕ ℕ ℕ) :=
  [.call 0 onTensorRt, .lock 0, .write 0 1 7, .panic 0, .call 1 onTensorRt, .lock 1]

theorem half_written_found :
    (State.machine 0).Reachable (played panicking) ∧
    ∃ start ∈ (played panicking).starts,
      ¬(start.found = 0 ∨ start.left = some start.found) := by
  have hlegal : Machine.Legal State.Enabled (State.next 0) fresh panicking :=
    ⟨rfl, ⟨⟨_, rfl⟩, rfl⟩, ⟨_, rfl, by decide⟩, ⟨_, rfl⟩, rfl, ⟨⟨_, rfl⟩, rfl⟩, trivial⟩
  have hstart : (State.machine (0 : ℕ)).Reachable fresh :=
    .start ⟨rfl, fun _ => rfl, fun _ => .inl rfl, rfl⟩
  exact ⟨hstart.legal hlegal, ⟨7, none⟩, List.mem_cons_self, by decide⟩

/-- A build that panics before it has written anything, one that fails, and one that follows. -/
def failing : List (Event ℕ ℕ ℕ) :=
  [.call 0 onTensorRt, .lock 0, .panic 0, .call 1 onTensorRt, .lock 1, .write 1 1 7, .fail 1,
    .discard 1, .call 0 onTensorRt, .lock 0]

theorem builds_serialized_failing : (played failing).starts.length = 3 ∧
    ∀ start ∈ (played failing).starts,
      start.found = 0 ∨ start.left = some start.found := by
  have hlegal : Machine.Legal
      (fun s e => State.Meets 0 (· = 1) s e ∧ State.Enabled s e) (State.next 0) fresh
      failing := by
    refine ⟨⟨⟨rfl, by decide⟩, rfl⟩, ⟨trivial, ⟨_, rfl⟩, rfl⟩, ⟨?_, _, rfl⟩,
      ⟨⟨rfl, by decide⟩, rfl⟩, ⟨trivial, ⟨_, rfl⟩, rfl⟩, ⟨trivial, _, rfl, by decide⟩,
      ⟨trivial, _, rfl⟩, ⟨trivial, _, rfl⟩, ⟨⟨rfl, by decide⟩, rfl⟩,
      ⟨trivial, ⟨_, rfl⟩, rfl⟩, trivial⟩
    rintro _ ⟨⟩ _
    exact .inl rfl
  have hstart : ((State.machine (0 : ℕ)).restrict (State.Meets 0 (· = 1))).Run []
      fresh := .start ⟨rfl, fun _ => rfl, fun _ => .inl rfl, rfl⟩
  have hrun := Machine.Run.legal_restrict hstart hlegal
  exact ⟨rfl, ((builds_serialized (0 : ℕ) (· = 1)).2.1 _ ⟨_, hrun⟩).1⟩

end Examples

end Sessions

end Ai

end RustSak
