import RustSak.Memo.GetOrCompute

/-!
# The computation runs once

A caller's place in `get_or_compute` and its place in the flight are tied
together: whoever looks again, computes or stores is the one leader of the key
(`Tied`). While computations succeed, writes are accepted and nobody is cancelled,
a run is then in one of three stages: nothing was computed yet, one leader has
computed and not stored, or the value is kept and everyone who is answered gets it
(`Once`).
-/

namespace RustSak

namespace Memo

open Library

namespace Job

variable {ι ε π V W τ : Type} (J : Job ι ε π V W τ)

/-- How a caller's place in `get_or_compute` goes with its place in the
flight. -/
def Linked : Pc ε π V → Flight.Phase ε π W τ → Prop
  | .start, x => x = .idle
  | .entering, x => x = .idle
  | .returned _, x => x = .idle
  | .waiting, x => x.waitsFor ≠ none ∨ (∃ c o, x = .returned c o) ∨ x = .gone
  | .rechecking, x => ∃ c, x = .leading ⟨J.flightKey, c, false, .running, false⟩
  | .computing, x => ∃ c, x = .leading ⟨J.flightKey, c, false, .running, false⟩
  | .storing _ _, x => ∃ c, x = .leading ⟨J.flightKey, c, false, .running, false⟩
  | .finishing _ _, x => x = .gone ∨
      ∃ l, x = .leading l ∧ l.key = J.flightKey ∧
        (l.dropping = true → l.published = true ∧ l.stage = .running)
  | .aborting _, x => x = .gone ∨ ∃ l, x = .leading l ∧ l.key = J.flightKey

variable {J} [DecidableEq ι] [DecidableEq τ]

omit [DecidableEq ι] [DecidableEq τ] in
/-- A caller whose leader is not where it was installed is finishing or
aborting. -/
theorem Linked.leading {pc : Pc ε π V} {l : Flight.Leader W}
    (h : J.Linked pc (.leading l))
    (hl : ∀ c, l ≠ ⟨J.flightKey, c, false, .running, false⟩) :
    l.key = J.flightKey ∧
      ((∃ o r, pc = .finishing o r ∧
        (l.dropping = true → l.published = true ∧ l.stage = .running)) ∨
      ∃ w, pc = .aborting w) := by
  cases pc with
  | finishing o r =>
      obtain h | ⟨l', h, hkey, hd⟩ := h
      · cases h
      · obtain rfl : l = l' := by simpa using h
        exact ⟨hkey, .inl ⟨o, r, rfl, hd⟩⟩
  | aborting w =>
      obtain h | ⟨l', h, hkey⟩ := h
      · cases h
      · obtain rfl : l = l' := by simpa using h
        exact ⟨hkey, .inr ⟨w, rfl⟩⟩
  | rechecking =>
      obtain ⟨c, h⟩ := h
      exact absurd (by simpa using h) (hl c)
  | computing =>
      obtain ⟨c, h⟩ := h
      exact absurd (by simpa using h) (hl c)
  | storing v b =>
      obtain ⟨c, h⟩ := h
      exact absurd (by simpa using h) (hl c)
  | start => cases h
  | entering => cases h
  | returned r => cases h
  | waiting => rcases h with h | ⟨_, _, h⟩ | h <;> simp [Flight.Phase.waitsFor] at h

omit [DecidableEq ι] [DecidableEq τ] in
/-- A caller that waits in the flight waits here. -/
theorem Linked.waiting {pc : Pc ε π V} {x : Flight.Phase ε π W τ}
    (h : J.Linked pc x) {c : ℕ} (hx : x.waitsFor = some c) : pc = .waiting := by
  cases pc with
  | waiting => rfl
  | start => rw [show x = _ from h] at hx; cases hx
  | entering => rw [show x = _ from h] at hx; cases hx
  | returned r => rw [show x = _ from h] at hx; cases hx
  | rechecking => obtain ⟨_, rfl⟩ := h; cases hx
  | computing => obtain ⟨_, rfl⟩ := h; cases hx
  | storing v b => obtain ⟨_, rfl⟩ := h; cases hx
  | finishing o r => obtain rfl | ⟨_, rfl, _⟩ := h <;> cases hx
  | aborting w => obtain rfl | ⟨_, rfl, _⟩ := h <;> cases hx

omit [DecidableEq ι] [DecidableEq τ] in
/-- So does one whose future may be polled. -/
theorem Linked.awaiting {pc : Pc ε π V} {x : Flight.Phase ε π W τ}
    (h : J.Linked pc x) {c : ℕ} {roused : Bool} (hx : x.awaits = some (c, roused)) :
    pc = .waiting := by
  rcases Flight.awaits_eq hx with ⟨rfl, _⟩ | ⟨t, rfl, _⟩
  · exact h.waiting rfl
  · exact h.waiting rfl

omit [DecidableEq ι] [DecidableEq τ] in
/-- A caller stays linked while its place in the flight stays, or goes on waiting
for the same call. -/
theorem Linked.other {pc : Pc ε π V} {x y : Flight.Phase ε π W τ}
    (h : J.Linked pc x)
    (hxy : y = x ∨ ∃ c, x.waitsFor = some c ∧ y.waitsFor = some c) :
    J.Linked pc y := by
  rcases hxy with rfl | ⟨c, hx, hy⟩
  · exact h
  · rw [h.waiting hx]
    exact .inl (by simp [hy])

omit [DecidableEq ι] [DecidableEq τ] in
theorem publishes_eq {pc : Pc ε π V} {o : Outcome ε π} (h : pc.publishes = some o) :
    ∃ r, pc = .finishing o r := by
  cases pc with
  | finishing o' r => exact ⟨r, by simpa [Pc.publishes] using h⟩
  | _ => cases h

omit [DecidableEq ι] [DecidableEq τ] in
theorem aborts_eq {pc : Pc ε π V} (h : pc.aborts = true) :
    ∃ w, pc = .aborting w := by
  cases pc with
  | aborting w => exact ⟨w, rfl⟩
  | _ => cases h

/-- The caller is on its way out: it publishes and drops, or only drops. -/
def Pc.leaves : Pc ε π V → Prop
  | .finishing _ _ => True
  | .aborting _ => True
  | _ => False

omit [DecidableEq ι] [DecidableEq τ] in
theorem Linked.restage {pc : Pc ε π V} {l l' : Flight.Leader W}
    (h : J.Linked pc (.leading l)) (hpc : pc.leaves) (hkey : l'.key = l.key)
    (hd : ∀ o r, pc = .finishing o r → l'.dropping = true →
      l'.published = true ∧ l'.stage = .running) : J.Linked pc (.leading l') := by
  cases pc with
  | finishing o r =>
      obtain h | ⟨l₁, h, hk, _⟩ := h
      · cases h
      · obtain rfl : l = l₁ := by simpa using h
        exact .inr ⟨l', rfl, hkey.trans hk, hd o r rfl⟩
  | aborting w =>
      obtain h | ⟨l₁, h, hk⟩ := h
      · cases h
      · obtain rfl : l = l₁ := by simpa using h
        exact .inr ⟨l', rfl, hkey.trans hk⟩
  | _ => cases hpc

omit [DecidableEq ι] [DecidableEq τ] in
/-- A caller that finishes drops only after it has published. -/
theorem Linked.dropping {pc : Pc ε π V} {l : Flight.Leader W}
    (h : J.Linked pc (.leading l)) {o : Outcome ε π}
    {r : Except (MemoError ε π) V} (hpc : pc = .finishing o r)
    (hd : l.dropping = true) : l.published = true ∧ l.stage = .running := by
  subst hpc
  obtain h | ⟨l₁, h, _, hl⟩ := h
  · cases h
  · obtain rfl : l = l₁ := by simpa using h
    exact hl hd

omit [DecidableEq ι] [DecidableEq τ] in
theorem Linked.gone {pc : Pc ε π V} (hpc : pc.leaves) :
    J.Linked pc (.gone : Flight.Phase ε π W τ) := by
  cases pc with
  | finishing o r => exact .inl rfl
  | aborting w => exact .inl rfl
  | _ => cases hpc

omit [DecidableEq ι] [DecidableEq τ] in
theorem Linked.afterPublish {pc : Pc ε π V} {l : Flight.Leader W}
    (h : J.Linked pc (.leading l)) (hpc : pc.leaves) :
    J.Linked pc (l.afterPublish : Flight.Phase ε π W τ) := by
  unfold Flight.Leader.afterPublish
  split
  · exact Linked.gone hpc
  · rename_i hd
    exact h.restage hpc rfl fun _ _ _ hd' => absurd hd' hd

omit [DecidableEq ι] [DecidableEq τ] in
/-- A leader that is not where it was installed leaves. -/
theorem Linked.leaves {pc : Pc ε π V} {l : Flight.Leader W}
    (h : J.Linked pc (.leading l))
    (hl : l.stage ≠ .running ∨ l.published = true ∨ l.dropping = true) :
    pc.leaves := by
  have hne : ∀ c, l ≠ ⟨J.flightKey, c, false, .running, false⟩ := by
    rintro c rfl
    simp at hl
  rcases (h.leading hne).2 with ⟨o, r, rfl, _⟩ | ⟨w, rfl⟩
  · trivial
  · trivial

omit [DecidableEq ι] [DecidableEq τ] in
/-- Inside `publish` the leader goes from stage to stage. -/
theorem Linked.publishing {pc : Pc ε π V} {l : Flight.Leader W}
    (h : J.Linked pc (.leading l)) (hl : l.stage ≠ .running)
    (stage : Flight.Stage W) : J.Linked pc (.leading { l with stage := stage }) := by
  refine h.restage (h.leaves (.inl hl)) rfl fun o r hpc hd => ?_
  exact absurd (h.dropping hpc hd).2 hl

/-- The one who takes a step of the flight stays linked. -/
theorem Linked.fly {s : State ι ε π V W τ} {e : Flight.Event ι ε π W}
    (h : J.Linked (s.pc e.caller) (s.flight.phase e.caller))
    (he : Flight.Enabled s.flight e) (ha : Allowed s e) :
    J.Linked (s.pc e.caller)
      ((Flight.next J.wakers s.flight e).phase e.caller) := by
  have hmove : ∀ (t : Flight.State ι ε π W τ) (p : ι) x,
      (t.move p x).phase p = x := fun t p x => by
    rw [Flight.phase_move, if_pos rfl]
  cases e with
  | settle p l outcome =>
      rw [Flight.Event.caller, he.1] at h
      rw [Flight.next, Flight.Event.caller, hmove]
      rcases ha with ⟨hpub, hd, _⟩ | ⟨hab, _⟩
      · obtain ⟨r, hpc⟩ := publishes_eq hpub
        exact h.restage (by rw [hpc]; trivial) rfl
          fun _ _ _ hd' => absurd (hd.symm.trans hd') (by simp)
      · obtain ⟨w, hpc⟩ := aborts_eq hab
        exact h.restage (by rw [hpc]; trivial) rfl
          fun _ _ hpc' => by cases hpc.symm.trans hpc'
  | ignore p l =>
      rw [Flight.Event.caller, he.1] at h
      rw [Flight.next, Flight.Event.caller, hmove]
      refine h.afterPublish ?_
      rcases ha with ⟨hpub, _⟩ | ⟨hab, _⟩
      · obtain ⟨o, hpub⟩ := Option.isSome_iff_exists.mp hpub
        obtain ⟨r, hpc⟩ := publishes_eq hpub
        rw [hpc]
        trivial
      · obtain ⟨w, hpc⟩ := aborts_eq hab
        rw [hpc]
        trivial
  | notify p l wakers =>
      rw [Flight.Event.caller, he.1] at h
      rw [Flight.next, Flight.Event.caller, hmove]
      exact h.publishing (by simp [he.2]) _
  | wake p l waker wakers =>
      rw [Flight.Event.caller, he.1] at h
      rw [Flight.next, Flight.Event.caller, hmove]
      exact h.publishing (by simp [he.2]) _
  | woken p l =>
      rw [Flight.Event.caller, he.1] at h
      rw [Flight.next, Flight.Event.caller, hmove]
      exact h.afterPublish (h.leaves (.inl (by simp [he.2])))
  | deregister p l =>
      rw [Flight.Event.caller, he.1] at h
      rw [Flight.next, Flight.Event.caller, hmove]
      rcases ha with ⟨hpub, hpublished⟩ | hab
      · obtain ⟨o, hpub⟩ := Option.isSome_iff_exists.mp hpub
        obtain ⟨r, hpc⟩ := publishes_eq hpub
        exact h.restage (by rw [hpc]; trivial) rfl
          fun _ _ _ _ => ⟨hpublished, he.2.1⟩
      · obtain ⟨w, hpc⟩ := aborts_eq hab
        exact h.restage (by rw [hpc]; trivial) rfl
          fun _ _ hpc' => by cases hpc.symm.trans hpc'
  | finish p l =>
      rw [Flight.Event.caller, he.1] at h
      rw [Flight.next, Flight.Event.caller, hmove]
      exact Linked.gone (h.leaves (.inr (.inr he.2.2.1)))
  | check p c =>
      have hp : s.flight.phase p = .checking c := he
      rw [Flight.Event.caller] at h ⊢
      rw [Flight.next, hmove, h.waiting (by rw [hp]; rfl)]
      split
      · exact .inr (.inl ⟨_, _, rfl⟩)
      · exact .inl (by simp [Flight.Phase.waitsFor])
  | spurious p c =>
      have hp : s.flight.phase p = .parked c := he
      rw [Flight.Event.caller] at h ⊢
      rw [Flight.next, hmove, h.waiting (by rw [hp]; rfl)]
      exact .inl (by simp [Flight.Phase.waitsFor])
  | poll p c roused waker =>
      rw [Flight.Event.caller] at h ⊢
      rw [Flight.next, h.awaiting he]
      split
      · rw [hmove]
        exact .inr (.inl ⟨_, _, rfl⟩)
      · rw [hmove]
        exact .inl (by simp [Flight.Phase.waitsFor])
  | join p key c async => exact ha.elim
  | lead p key => exact ha.elim
  | cancel p c roused => exact ha.elim

omit [DecidableEq τ] in
/-- The caller `q` moves, and a step of the flight that `q` takes may have moved
it there too. -/
theorem linked_move {s t : State ι ε π V W τ} {q : ι} {x : Pc ε π V}
    (h : ∀ p, J.Linked (s.pc p) (s.flight.phase p)) (hpc : t.pc = s.pc)
    (hphase : ∀ p, p ≠ q → t.flight.phase p = s.flight.phase p ∨
      ∃ c, (s.flight.phase p).waitsFor = some c ∧
        (t.flight.phase p).waitsFor = some c)
    (hx : J.Linked x (t.flight.phase q)) (p : ι) :
    J.Linked ((t.move q x).pc p) ((t.move q x).flight.phase p) := by
  by_cases hq : p = q
  · subst hq
    rw [pc_move_self]
    exact hx
  · rw [pc_move_of_ne t hq, hpc]
    exact (h p).other (hphase p hq)

omit [DecidableEq ι] [DecidableEq τ] in
theorem linked_computed {x : Flight.Phase ε π W τ} (result : Except ε V)
    (h : ∃ c, x = .leading ⟨J.flightKey, c, false, .running, false⟩) :
    J.Linked (J.computed result) x := by
  obtain ⟨c, rfl⟩ := h
  cases result with
  | error err => exact .inr ⟨_, rfl, rfl, by simp⟩
  | ok value =>
      rw [computed]
      split
      · exact .inr ⟨_, rfl, rfl, by simp⟩
      · exact ⟨c, rfl⟩

theorem linked_next {s : State ι ε π V W τ} {e : Event ι ε π V W}
    (h : ∀ p, J.Linked (s.pc p) (s.flight.phase p)) (he : J.Enabled s e) (p : ι) :
    J.Linked ((J.next s e).pc p) ((J.next s e).flight.phase p) := by
  cases e with
  | load q =>
      have hq := h q
      rw [show s.pc q = _ from he] at hq
      refine linked_move h rfl (fun _ _ => .inl rfl) ?_ p
      split <;> exact hq
  | join q c async =>
      refine linked_move (t := s.fly J (.join q J.flightKey c async)) h (pc_fly J s _)
        (fun p hp => ?_) ?_ p
      · exact Flight.phase_next_of_ne (K := J.wakers) (.join q J.flightKey c async) hp
      · refine .inl ?_
        change ((s.flight.move q _).phase q).waitsFor ≠ none
        rw [Flight.phase_move, if_pos rfl]
        cases async <;> simp [Flight.Phase.waitsFor]
  | lead q =>
      refine linked_move (t := s.fly J (.lead q J.flightKey)) h (pc_fly J s _)
        (fun p hp => ?_) ?_ p
      · exact Flight.phase_next_of_ne (K := J.wakers) (.lead q J.flightKey) hp
      · exact ⟨s.flight.fresh, (Flight.phase_move ..).trans (if_pos rfl)⟩
  | recheck q =>
      have hq := h q
      rw [show s.pc q = _ from he] at hq
      refine linked_move h rfl (fun _ _ => .inl rfl) ?_ p
      split
      · obtain ⟨c, hq⟩ := hq
        exact .inr ⟨_, hq, rfl, by simp⟩
      · exact hq
  | compute q c =>
      have hq := h q
      rw [he.1] at hq
      exact linked_move h rfl (fun _ _ => .inl rfl) (linked_computed _ hq) p
  | store q value bytes accepted =>
      have hq := h q
      rw [show s.pc q = _ from he] at hq
      obtain ⟨c, hq⟩ := hq
      have hx : J.Linked (.finishing (.ready bytes) (.ok value))
          (s.flight.phase q) := .inr ⟨_, hq, rfl, by simp⟩
      exact linked_move (t := s.write bytes accepted) h rfl
        (fun _ _ => .inl rfl) hx p
  | flight e =>
      by_cases hq : p = e.caller
      · subst hq
        exact (h _).fly he.1 he.2
      · exact (h p).other (Flight.phase_next_of_ne e hq)
  | cancel q c roused =>
      by_cases hq : p = q
      · subst hq
        change J.Linked (s.pc p) ((s.flight.move p .gone).phase p)
        rw [(h p).awaiting he, Flight.phase_move, if_pos rfl]
        exact .inr (.inr rfl)
      · exact (h p).other
          (Flight.phase_next_of_ne (K := J.wakers) (.cancel q c roused) hq)
  | abort q =>
      have hq := h q
      have he' : ((s.pc q).abort).isSome = true := he
      refine linked_move h rfl (fun _ _ => .inl rfl) ?_ p
      cases hpc : s.pc q with
      | rechecking =>
          rw [hpc] at hq
          obtain ⟨c, hq⟩ := hq
          exact .inr ⟨_, hq, rfl⟩
      | computing =>
          rw [hpc] at hq
          obtain ⟨c, hq⟩ := hq
          exact .inr ⟨_, hq, rfl⟩
      | storing v b =>
          rw [hpc] at hq
          obtain ⟨c, hq⟩ := hq
          exact .inr ⟨_, hq, rfl⟩
      | _ => rw [hpc] at he'; cases he'
  | detached q bytes accepted =>
      have hq := h q
      rw [show s.pc q = _ from he] at hq
      have hx : J.Linked (.aborting none) (s.flight.phase q) := hq
      exact linked_move (t := s.write bytes accepted) h rfl
        (fun _ _ => .inl rfl) hx p

/-! ## Success -/

/-- The caller whose computation the step runs. -/
def Event.computes : Event ι ε π V W → Option ι
  | .compute p _ => some p
  | _ => none

/-- The callers whose computations have run, the last first. -/
def computations (es : List (Event ι ε π V W)) : List ι :=
  es.filterMap Event.computes

variable (J) in
/-- A computation that runs succeeds and its value can be encoded, the store
accepts the write, and no caller is cancelled. -/
def Smooth (_ : State ι ε π V W τ) : Event ι ε π V W → Prop
  | .compute p _ => ∃ value bytes, J.computation p = .ok value ∧
      Header.encode J.postcard J.fingerprint value = .ok bytes
  | .store _ _ _ accepted => accepted = true
  | .cancel .. => False
  | .abort _ => False
  | .detached .. => False
  | _ => True

/-- The caller has not computed and has not returned. -/
def Pc.before : Pc ε π V → Prop
  | start | entering | waiting | rechecking | computing => True
  | _ => False

/-- The caller leads nothing and has not returned. -/
def Pc.outside : Pc ε π V → Prop
  | start | entering | waiting => True
  | _ => False

/-- The caller can only return `value`. -/
def Pc.after (value : V) (bytes : Bytes) : Pc ε π V → Prop
  | start | entering | waiting | rechecking => True
  | finishing outcome result => outcome = .ready bytes ∧ result = .ok value
  | returned result => result = .ok value
  | _ => False

variable (J) in
/-- What the one computation was, and where its value goes. -/
structure Ran (es : List (Event ι ε π V W)) (p : ι) (value : V)
    (bytes : Bytes) : Prop where
  once : computations es = [p]
  computation : J.computation p = .ok value
  encode : Header.encode J.postcard J.fingerprint value = .ok bytes

omit [DecidableEq ι] [DecidableEq τ] in
theorem Ran.cons {es : List (Event ι ε π V W)} {e : Event ι ε π V W} {p : ι}
    {value : V} {bytes : Bytes} (h : J.Ran es p value bytes)
    (he : computations (e :: es) = computations es) :
    J.Ran (e :: es) p value bytes :=
  ⟨he.trans h.once, h.computation, h.encode⟩

variable (J) in
/-- Nothing has been computed; or one computation has run and its caller is
about to store the value; or the value is stored. -/
inductive Once (es : List (Event ι ε π V W)) (s : State ι ε π V W τ) : Prop where
  | fresh (hnone : computations es = []) (hstored : s.stored = none)
      (hslots : ∀ c, (s.flight.call c).outcome = none)
      (hpc : ∀ q, (s.pc q).before)
  | running (p : ι) (value : V) (bytes : Bytes) (hran : J.Ran es p value bytes)
      (hstored : s.stored = none)
      (hslots : ∀ c, (s.flight.call c).outcome = none)
      (hp : s.pc p = .storing value bytes)
      (hpc : ∀ q, q ≠ p → (s.pc q).outside)
  | kept (p : ι) (value : V) (bytes : Bytes) (hran : J.Ran es p value bytes)
      (hstored : s.stored = some bytes)
      (hslots : ∀ c o, (s.flight.call c).outcome = some o → o = .ready bytes)
      (hpc : ∀ q, (s.pc q).after value bytes)

/-- Where a caller is a live leader that has not published. -/
def Pc.inside : Pc ε π V → Bool
  | rechecking | computing | storing _ _ => true
  | _ => false

/-- The state of the flight, and how the callers stand in it. -/
structure Tied (J : Job ι ε π V W τ) (s : State ι ε π V W τ) : Prop where
  flight : Flight.Inv J.wakers s.flight
  linked : ∀ p, J.Linked (s.pc p) (s.flight.phase p)

omit [DecidableEq ι] [DecidableEq τ] in
theorem Tied.leader {s : State ι ε π V W τ} (h : J.Tied s) {p : ι}
    (hp : (s.pc p).inside = true) :
    ∃ c, s.flight.phase p = .leading ⟨J.flightKey, c, false, .running, false⟩ ∧
      s.flight.calls J.flightKey = some c := by
  have hlinked := h.linked p
  have hlead : ∃ c, s.flight.phase p =
      .leading ⟨J.flightKey, c, false, .running, false⟩ := by
    cases hpc : s.pc p with
    | rechecking => rwa [hpc] at hlinked
    | computing => rwa [hpc] at hlinked
    | storing v b => rwa [hpc] at hlinked
    | _ => rw [hpc] at hp; cases hp
  obtain ⟨c, hc⟩ := hlead
  exact ⟨c, hc, (h.flight.key_iff hc J.flightKey).mpr ⟨rfl, rfl⟩⟩

omit [DecidableEq ι] [DecidableEq τ] in
/-- One caller at most is a live leader. -/
theorem Tied.inside_unique {s : State ι ε π V W τ} (h : J.Tied s) {p q : ι}
    (hp : (s.pc p).inside = true) (hq : (s.pc q).inside = true) : p = q := by
  obtain ⟨c, hlead, hc⟩ := h.leader hp
  obtain ⟨c', hlead', hc'⟩ := h.leader hq
  exact h.flight.unique p q _ _ hlead hlead' (Option.some.inj (hc.symm.trans hc'))

omit [DecidableEq τ] in
theorem forall_move {s : State ι ε π V W τ} {Q : Pc ε π V → Prop} {p : ι}
    {x : Pc ε π V} (h : ∀ q, q ≠ p → Q (s.pc q)) (hx : Q x) (q : ι) :
    Q ((s.move p x).pc q) := by
  by_cases hq : q = p
  · rw [hq, pc_move_self]
    exact hx
  · rw [pc_move_of_ne s hq]
    exact h q hq

/-- Outcomes only come from a leader that is finishing or aborting. -/
theorem outcome_of_next {s : State ι ε π V W τ} {e : Event ι ε π V W}
    (he : J.Enabled s e) {c : ℕ} {o : Outcome ε π}
    (h : ((J.next s e).flight.call c).outcome = some o) :
    (s.flight.call c).outcome = some o ∨
      (∃ p, (s.pc p).publishes = some o) ∨ ∃ p, (s.pc p).aborts = true := by
  have hfly : ∀ f : Flight.Event ι ε π W, (∀ p l o', f ≠ .settle p l o') →
      ((Flight.next J.wakers s.flight f).call c).outcome = some o →
        (s.flight.call c).outcome = some o := by
    intro f hf ho
    rcases Flight.outcome_of_next ho with ⟨p, l, rfl, _⟩ | ho
    · exact absurd rfl (hf p l o)
    · exact ho
  cases e with
  | flight f =>
      rcases Flight.outcome_of_next h with ⟨p, l, rfl, _⟩ | ho
      · rcases he.2 with ⟨hpub, _⟩ | ⟨hab, _⟩
        · exact .inr (.inl ⟨p, hpub⟩)
        · exact .inr (.inr ⟨p, hab⟩)
      · exact .inl ho
  | join p c' async => exact .inl (hfly (.join p J.flightKey c' async) (by simp) h)
  | lead p => exact .inl (hfly (.lead p J.flightKey) (by simp) h)
  | cancel p c' roused => exact .inl (hfly (.cancel p c' roused) (by simp) h)
  | _ => exact .inl h

/-- While nobody finishes or aborts, no slot is set. -/
theorem slots_next {s : State ι ε π V W τ} {e : Event ι ε π V W}
    (he : J.Enabled s e) (hslots : ∀ c, (s.flight.call c).outcome = none)
    (hpc : ∀ q, (s.pc q).publishes = none ∧ (s.pc q).aborts = false) (c : ℕ) :
    ((J.next s e).flight.call c).outcome = none := by
  cases ho : ((J.next s e).flight.call c).outcome with
  | none => rfl
  | some o =>
      rcases outcome_of_next he ho with ho | ⟨p, hp⟩ | ⟨p, hp⟩
      · simp [hslots c] at ho
      · simp [(hpc p).1] at hp
      · simp [(hpc p).2] at hp

omit [DecidableEq ι] [DecidableEq τ] in
theorem Pc.before.silent {x : Pc ε π V} (h : x.before) :
    x.publishes = none ∧ x.aborts = false := by
  cases x <;> first | exact ⟨rfl, rfl⟩ | cases h

omit [DecidableEq ι] [DecidableEq τ] in
theorem Pc.outside.before {x : Pc ε π V} (h : x.outside) : x.before := by
  cases x <;> trivial

omit [DecidableEq ι] [DecidableEq τ] in
theorem Pc.outside.after {x : Pc ε π V} (h : x.outside) (value : V)
    (bytes : Bytes) : x.after value bytes := by
  cases x <;> trivial

omit [DecidableEq ι] [DecidableEq τ] in
theorem Pc.before.outside {x : Pc ε π V} (h : x.before)
    (hin : x.inside = false) : x.outside := by
  cases x <;> trivial

theorem Once.fresh_next {s : State ι ε π V W τ} {es : List (Event ι ε π V W)}
    {e : Event ι ε π V W} (ht : J.Tied s) (he : J.Enabled s e)
    (hsmooth : J.Smooth s e) (hnone : computations es = [])
    (hstored : s.stored = none)
    (hslots : ∀ c, (s.flight.call c).outcome = none)
    (hpc : ∀ q, (s.pc q).before) : J.Once (e :: es) (J.next s e) := by
  have hslots' := slots_next he hslots fun q => (hpc q).silent
  have hload : J.load s.stored = none := by rw [hstored]; rfl
  cases e with
  | load p =>
      refine .fresh hnone hstored hslots' (forall_move (fun q _ => hpc q) ?_)
      rw [hload]
      trivial
  | join p c async =>
      have hstored' := (stored_move_fly J s (.join p J.flightKey c async) p
        .waiting).trans hstored
      exact .fresh hnone hstored' hslots'
        (forall_move (s := s.fly J _) (fun q _ => hpc q) trivial)
  | lead p =>
      have hstored' := (stored_move_fly J s (.lead p J.flightKey) p
        .rechecking).trans hstored
      exact .fresh hnone hstored' hslots'
        (forall_move (s := s.fly J _) (fun q _ => hpc q) trivial)
  | recheck p =>
      refine .fresh hnone hstored hslots' (forall_move (fun q _ => hpc q) ?_)
      rw [hload]
      trivial
  | compute p c =>
      obtain ⟨value, bytes, hv, hb⟩ := hsmooth
      have hmoved : J.next s (.compute p c) = s.move p (.storing value bytes) := by
        simp only [Job.next, hv, computed, hb]
      rw [hmoved] at hslots' ⊢
      refine .running p value bytes ⟨?_, hv, hb⟩ hstored hslots'
        (pc_move_self s p _) fun q hq => ?_
      · change p :: computations es = [p]
        rw [hnone]
      · rw [pc_move_of_ne s hq]
        refine (hpc q).outside ?_
        by_contra hin
        exact hq (ht.inside_unique (by simpa using hin) (by rw [he.1]; rfl))
  | store p value bytes accepted =>
      have hp := hpc p
      rw [show s.pc p = _ from he] at hp
      cases hp
  | flight f => exact .fresh hnone hstored hslots' hpc
  | cancel p c roused => cases hsmooth
  | abort p => cases hsmooth
  | detached p bytes accepted => cases hsmooth

theorem Once.running_next {s : State ι ε π V W τ} {es : List (Event ι ε π V W)}
    {e : Event ι ε π V W} (ht : J.Tied s) (he : J.Enabled s e)
    (hsmooth : J.Smooth s e) {p : ι} {value : V} {bytes : Bytes}
    (hran : J.Ran es p value bytes) (hstored : s.stored = none)
    (hslots : ∀ c, (s.flight.call c).outcome = none)
    (hp : s.pc p = .storing value bytes)
    (hpc : ∀ q, q ≠ p → (s.pc q).outside) : J.Once (e :: es) (J.next s e) := by
  have hslots' := slots_next he hslots fun q => by
    by_cases hq : q = p
    · rw [hq, hp]
      exact ⟨rfl, rfl⟩
    · exact (hpc q hq).before.silent
  have hload : J.load s.stored = none := by rw [hstored]; rfl
  -- a caller that is not storing is not `p`, and one outside only loads or joins
  have hne : ∀ q, s.pc q ≠ .storing value bytes → q ≠ p := fun q hq hqp =>
    hq (by rw [hqp, hp])
  have hout : ∀ q x, s.pc q = x → x ≠ .storing value bytes → x.outside :=
    fun q x hx hxs => by
      have h := hpc q (hne q (by rwa [hx]))
      rwa [hx] at h
  have houtside : ∀ (t : State ι ε π V W τ) q x, t.pc = s.pc → q ≠ p → x.outside →
      (t.move q x).pc p = .storing value bytes ∧
        ∀ q', q' ≠ p → ((t.move q x).pc q').outside := by
    intro t q x ht hq hx
    refine ⟨by rw [pc_move_of_ne t (Ne.symm hq), ht, hp], fun q' hq' => ?_⟩
    by_cases hqq : q' = q
    · rw [hqq, pc_move_self]
      exact hx
    · rw [pc_move_of_ne t hqq, ht]
      exact hpc q' hq'
  cases e with
  | load q =>
      have hq := hne q (by rw [show s.pc q = _ from he]; simp)
      obtain ⟨hp', hpc'⟩ := houtside s q .entering rfl hq trivial
      have hmoved : J.next s (.load q) = s.move q .entering := by
        simp only [Job.next, hload]
      rw [hmoved] at hslots' ⊢
      exact .running p value bytes (hran.cons rfl)
        hstored hslots' hp' hpc'
  | join q c async =>
      have hq := hne q (by rw [he.1]; simp)
      obtain ⟨hp', hpc'⟩ := houtside (s.fly J (.join q J.flightKey c async)) q
        .waiting rfl hq trivial
      have hstored' := (stored_move_fly J s (.join q J.flightKey c async) q
        .waiting).trans hstored
      exact .running p value bytes (hran.cons rfl)
        hstored' hslots' hp' hpc'
  | lead q =>
      -- the key is taken: `p` is a live leader
      obtain ⟨c, _, hc⟩ := ht.leader (p := p) (by rw [hp]; rfl)
      cases hc.symm.trans he.2.2
  | recheck q => exact (hout q _ he (by simp)).elim
  | compute q c => exact (hout q _ he.1 (by simp)).elim
  | store q value' bytes' accepted =>
      have hq : q = p := by
        by_contra hq
        have h := hpc q hq
        rw [show s.pc q = _ from he] at h
        exact h
      subst hq
      obtain ⟨rfl, rfl⟩ : value' = value ∧ bytes' = bytes := by
        simpa using (show s.pc q = _ from he).symm.trans hp
      have haccepted : accepted = true := hsmooth
      refine .kept q value' bytes' (hran.cons rfl)
        ?_ (fun c o ho => by simp [hslots' c] at ho)
        (forall_move (s := s.write bytes' accepted) (fun q' hq' => ?_) ⟨rfl, rfl⟩)
      · change (if accepted then some bytes' else s.stored) = _
        rw [haccepted, if_pos rfl]
      · exact (hpc q' hq').after value' bytes'
  | flight f =>
      exact .running p value bytes (hran.cons rfl)
        hstored hslots' hp hpc
  | cancel q c roused => cases hsmooth
  | abort q => cases hsmooth
  | detached q bytes accepted => cases hsmooth

theorem Once.kept_next {s : State ι ε π V W τ} {es : List (Event ι ε π V W)}
    {e : Event ι ε π V W} (he : J.Enabled s e) (hsmooth : J.Smooth s e) {p : ι}
    {value : V} {bytes : Bytes} (hran : J.Ran es p value bytes)
    (hstored : s.stored = some bytes)
    (hslots : ∀ c o, (s.flight.call c).outcome = some o → o = .ready bytes)
    (hpc : ∀ q, (s.pc q).after value bytes) : J.Once (e :: es) (J.next s e) := by
  have hload : J.load s.stored = some (bytes, value) := by
    rw [hstored, load, Option.bind_some, Header.decode_encode hran.encode]
    rfl
  have hslots' : ∀ c o, ((J.next s e).flight.call c).outcome = some o →
      o = .ready bytes := by
    intro c o ho
    rcases outcome_of_next he ho with ho | ⟨q, hq⟩ | ⟨q, hq⟩
    · exact hslots c o ho
    · obtain ⟨r, hr⟩ := publishes_eq hq
      have h := hpc q
      rw [hr] at h
      exact h.1
    · obtain ⟨w, hw⟩ := aborts_eq hq
      have h := hpc q
      rw [hw] at h
      exact h.elim
  have hout : ∀ q x, s.pc q = x → x.after value bytes := fun q x hx => by
    have h := hpc q
    rwa [hx] at h
  cases e with
  | load q =>
      refine .kept p value bytes (hran.cons rfl)
        hstored hslots' (forall_move (fun q _ => hpc q) ?_)
      rw [hload]
      rfl
  | join q c async =>
      have hstored' := (stored_move_fly J s (.join q J.flightKey c async) q
        .waiting).trans hstored
      exact .kept p value bytes (hran.cons rfl)
        hstored' hslots' (forall_move (s := s.fly J _) (fun q _ => hpc q) trivial)
  | lead q =>
      have hstored' := (stored_move_fly J s (.lead q J.flightKey) q
        .rechecking).trans hstored
      exact .kept p value bytes (hran.cons rfl)
        hstored' hslots' (forall_move (s := s.fly J _) (fun q _ => hpc q) trivial)
  | recheck q =>
      refine .kept p value bytes (hran.cons rfl)
        hstored hslots' (forall_move (fun q _ => hpc q) ?_)
      rw [hload]
      exact ⟨rfl, rfl⟩
  | compute q c => exact (hout q _ he.1).elim
  | store q value' bytes' accepted => exact (hout q _ he).elim
  | flight f =>
      exact .kept p value bytes (hran.cons rfl)
        hstored hslots' hpc
  | cancel q c roused => cases hsmooth
  | abort q => cases hsmooth
  | detached q bytes accepted => cases hsmooth

theorem Once.next {s : State ι ε π V W τ} {es : List (Event ι ε π V W)}
    {e : Event ι ε π V W} (h : J.Once es s) (ht : J.Tied s) (he : J.Enabled s e)
    (hsmooth : J.Smooth s e) : J.Once (e :: es) (J.next s e) := by
  cases h with
  | fresh hnone hstored hslots hpc =>
      exact Once.fresh_next ht he hsmooth hnone hstored hslots hpc
  | running p value bytes hran hstored hslots hp hpc =>
      exact Once.running_next ht he hsmooth hran hstored hslots hp hpc
  | kept p value bytes hran hstored hslots hpc =>
      exact Once.kept_next he hsmooth hran hstored hslots hpc

/-- The flight's own invariant comes with the simulation. -/
theorem reachable_tied {stored : Option Bytes} {s : State ι ε π V W τ}
    (hs : (J.machine stored).Reachable s) : J.Tied s := by
  have hflight : (Flight.machine J.wakers).Reachable s.flight :=
    (J.flies stored).reachable hs
  have hlinked : ∀ p, J.Linked (s.pc p) (s.flight.phase p) := by
    refine hs.invariant (I := fun t => ∀ p, J.Linked (t.pc p) (t.flight.phase p))
      ?_ ?_
    · rintro _ rfl p
      rfl
    · rintro t e _ h ⟨he, rfl⟩
      exact linked_next h he
  exact ⟨Flight.reachable_inv hflight, hlinked⟩

theorem run_once {s : State ι ε π V W τ} {es : List (Event ι ε π V W)}
    (hr : ((J.machine none).restrict J.Smooth).Run es s) : J.Once es s := by
  refine hr.invariant (I := J.Once) ?_ ?_
  · rintro _ rfl
    exact .fresh rfl rfl (fun _ => rfl) fun _ => trivial
  · rintro es e t _ hrun h ⟨hsmooth, he, rfl⟩
    exact h.next (reachable_tied ⟨es, hrun.of_restrict⟩) he hsmooth

end Job

end Memo

end RustSak
