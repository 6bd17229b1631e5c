import RustSak.Memo.ComputeOnce

/-!
# A computation that fails

In any run, with callers cancelled and leaders panicking wherever they may: once
a caller's computation has failed, its flight can have no other outcome than
that error, so the caller and every follower of that flight return it; and
nobody whose computation failed ever writes to the store.
-/

namespace RustSak

namespace Memo

open Library

namespace Job

variable {ι ε π V W τ : Type} [DecidableEq ι] [DecidableEq τ]
  {J : Job ι ε π V W τ}

/-- The caller whose write to the store the step is. -/
def Event.writes : Event ι ε π V W → Option ι
  | .store p _ _ _ => some p
  | .detached p _ _ => some p
  | _ => none

/-- The callers that have written to the store, the last first. -/
def writers (es : List (Event ι ε π V W)) : List ι := es.filterMap Event.writes

/-- The caller's computation gave a value, and this is its encoding. -/
def Encodes (J : Job ι ε π V W τ) (p : ι) (bytes : Bytes) : Prop :=
  ∃ value, J.computation p = .ok value ∧
    Header.encode J.postcard J.fingerprint value = .ok bytes

/-- The flight of a failed computation, from the failure on. -/
structure Failed (s : State ι ε π V W τ) (p : ι) (c : ℕ) (err : ε) : Prop where
  pc : s.pc p = .finishing (.compute err) (.error (.compute err))
  fresh : c < s.flight.fresh
  outcome : ((s.flight.call c).outcome = none ∧
      ∃ l, s.flight.phase p = .leading l ∧ l.call = c) ∨
    (s.flight.call c).outcome = some (.compute err)

/-- What a caller has in hand to write is what its computation gave. -/
def Holds (J : Job ι ε π V W τ) (es : List (Event ι ε π V W)) (p : ι) :
    Pc ε π V → Prop
  | .storing _ bytes => p ∈ computations es ∧ J.Encodes p bytes
  | .aborting (some bytes) => p ∈ computations es ∧ J.Encodes p bytes
  | _ => True

omit [DecidableEq ι] [DecidableEq τ] in
theorem computations_subset (e : Event ι ε π V W) (es : List (Event ι ε π V W)) :
    computations es ⊆ computations (e :: es) := by
  intro p hp
  unfold computations at hp ⊢
  cases he : e.computes with
  | none => rwa [List.filterMap_cons_none he]
  | some q =>
      rw [List.filterMap_cons_some he]
      exact List.mem_cons_of_mem _ hp

omit [DecidableEq ι] [DecidableEq τ] in
theorem Holds.cons {es : List (Event ι ε π V W)} {p : ι} {x : Pc ε π V}
    (h : J.Holds es p x) (e : Event ι ε π V W) : J.Holds (e :: es) p x := by
  cases x with
  | storing value bytes => exact ⟨computations_subset e es h.1, h.2⟩
  | aborting write =>
      cases write with
      | none => trivial
      | some bytes => exact ⟨computations_subset e es h.1, h.2⟩
  | _ => trivial

omit [DecidableEq ι] [DecidableEq τ] in
theorem holds_computed (es : List (Event ι ε π V W)) (p : ι) (c : ℕ) :
    J.Holds (.compute p c :: es) p (J.computed (J.computation p)) := by
  cases hv : J.computation p with
  | error err => trivial
  | ok value =>
      rw [computed]
      split
      · trivial
      · rename_i bytes hb
        exact ⟨List.mem_cons_self, value, hv, hb⟩

/-- The caller takes no step but those of the flight. -/
def Pc.rests : Pc ε π V → Prop
  | .waiting => True
  | .finishing .. => True
  | .returned _ => True
  | _ => False

/-- A caller that waits, is on its way out or has returned stays so. -/
theorem pc_next_of_rests {s : State ι ε π V W τ} {e : Event ι ε π V W}
    (he : J.Enabled s e) {p : ι} {x : Pc ε π V} (hp : s.pc p = x) (hx : x.rests) :
    (J.next s e).pc p = x := by
  have hother : ∀ (t : State ι ε π V W τ) (q : ι) x' y, t.pc = s.pc →
      s.pc q = y → ¬ y.rests → (t.move q x').pc p = x := by
    intro t q x' y ht hq hy
    have hne : p ≠ q := by
      rintro rfl
      exact hy (hq.symm.trans hp ▸ hx)
    rw [pc_move_of_ne t hne, ht, hp]
  cases e with
  | load q => exact hother s q _ _ rfl he id
  | join q c async => exact hother (s.fly J _) q _ _ (pc_fly J s _) he.1 id
  | lead q => exact hother (s.fly J _) q _ _ (pc_fly J s _) he.1 id
  | recheck q => exact hother s q _ _ rfl he id
  | compute q c => exact hother s q _ _ rfl he.1 id
  | store q value bytes accepted =>
      exact hother (s.write bytes accepted) q _ _ rfl he id
  | flight f => exact hp
  | cancel q c roused => exact hp
  | abort q =>
      have he' : ((s.pc q).abort).isSome = true := he
      refine hother s q _ _ rfl rfl fun hq => ?_
      cases hpc : s.pc q with
      | waiting => rw [hpc] at he'; cases he'
      | finishing o r => rw [hpc] at he'; cases he'
      | returned r => rw [hpc] at he'; cases he'
      | _ => rw [hpc] at hq; exact hq
  | detached q bytes accepted =>
      exact hother (s.write bytes accepted) q _ _ rfl he id

/-- What a step does to the flight. -/
theorem flight_next {s : State ι ε π V W τ} {e : Event ι ε π V W}
    (he : J.Enabled s e) :
    (J.next s e).flight = s.flight ∨
      ∃ f, Flight.Enabled s.flight f ∧
        (J.next s e).flight = Flight.next J.wakers s.flight f ∧
        ∀ q l o, f = .settle q l o → Allowed s f := by
  cases e with
  | join p c async => exact .inr ⟨_, he.2, rfl, fun _ _ _ hf => by cases hf⟩
  | lead p => exact .inr ⟨_, he.2, rfl, fun _ _ _ hf => by cases hf⟩
  | flight f => exact .inr ⟨f, he.1, rfl, fun _ _ _ _ => he.2⟩
  | cancel p c roused =>
      exact .inr ⟨.cancel p c roused, he, rfl, fun _ _ _ hf => by cases hf⟩
  | _ => exact .inl rfl

/-- A failed computation settles its flight, and with nothing else. -/
theorem Failed.next {s : State ι ε π V W τ} {e : Event ι ε π V W} {p : ι} {c : ℕ}
    {err : ε} (h : Failed s p c err) (ht : J.Tied s) (he : J.Enabled s e) :
    Failed (J.next s e) p c err := by
  have hpc := pc_next_of_rests he h.pc trivial
  rcases flight_next he with hsame | ⟨f, hf, hflight, hallowed⟩
  · refine ⟨hpc, ?_, ?_⟩ <;> rw [hsame]
    · exact h.fresh
    · exact h.outcome
  · refine ⟨hpc, ?_, ?_⟩ <;> rw [hflight]
    · exact h.fresh.trans_le (Flight.fresh_le_next f)
    · rcases h.outcome with ⟨hnone, l, hl, hc⟩ | hsome
      · cases ho : ((Flight.next J.wakers s.flight f).call c).outcome with
        | none =>
            have hlt := h.fresh.trans_le (Flight.fresh_le_next (K := J.wakers) f)
            obtain ⟨q, l', hq, hc', _⟩ := (ht.flight.next hf).unfinished c hlt ho
            refine .inl ⟨rfl, l', ?_, hc'⟩
            rcases Flight.leader_of_next hf hq with ⟨l₁, hl₁, hc₁⟩ | hfresh
            · rwa [ht.flight.unique p q l l₁ hl hl₁ (by rw [hc, hc₁, hc'])]
            · exact absurd (hc'.symm.trans hfresh) (Nat.ne_of_lt h.fresh)
        | some o =>
            rcases Flight.outcome_of_next ho with ⟨q, l', rfl, hc'⟩ | ho
            · -- only the leader settles, and it publishes the error
              have hq := ht.flight.unique p q l l' hl hf.1 (by rw [hc, hc'])
              subst hq
              rcases hallowed p l' o rfl with ⟨hpub, _⟩ | ⟨hab, _⟩
              · rw [h.pc] at hpub
                exact .inr (by rw [← Option.some.inj hpub])
              · rw [h.pc] at hab
                cases hab
            · cases hnone.symm.trans ho
      · exact .inr (Flight.outcome_stays hf hsome h.fresh)

/-- When a computation fails, its caller is a leader that has settled nothing. -/
theorem failed_compute {s : State ι ε π V W τ} (ht : J.Tied s) {p : ι} {c : ℕ}
    {err : ε} (he : J.Enabled s (.compute p c)) (herr : J.computation p = .error err) :
    Failed (J.next s (.compute p c)) p c err := by
  obtain ⟨c', hlead, _⟩ := ht.leader (p := p) (by rw [he.1]; rfl)
  have hc := he.2
  rw [hlead] at hc
  obtain rfl : c' = c := Option.some.inj hc
  refine ⟨?_, ht.flight.call_lt hlead, .inl ⟨?_, _, hlead, rfl⟩⟩
  · change (s.move p _).pc p = _
    rw [pc_move_self, herr]
    rfl
  · by_contra hsome
    have hsettled := (ht.flight.settled p _ hlead).mpr hsome
    simp [Flight.Leader.HasSettled] at hsettled

theorem run_failed {stored : Option Bytes} {es : List (Event ι ε π V W)}
    {s : State ι ε π V W τ} (hr : (J.machine stored).Run es s) {p : ι} {c : ℕ}
    {err : ε} (herr : J.computation p = .error err) (hmem : .compute p c ∈ es) :
    Failed s p c err := by
  revert hmem
  refine hr.invariant (I := fun es s => .compute p c ∈ es → Failed s p c err) ?_ ?_
  · exact fun _ _ hmem => absurd hmem List.not_mem_nil
  · rintro es e t _ hrun ih ⟨he, rfl⟩ hmem
    have ht := reachable_tied ⟨es, hrun⟩
    rcases List.mem_cons.mp hmem with rfl | hmem
    · exact failed_compute ht he herr
    · exact (ih hmem).next ht he

/-! ## Writes -/

theorem holds_next {s : State ι ε π V W τ} {es : List (Event ι ε π V W)}
    {e : Event ι ε π V W} (h : ∀ p, J.Holds es p (s.pc p)) (he : J.Enabled s e)
    (p : ι) : J.Holds (e :: es) p ((J.next s e).pc p) := by
  have hmove : ∀ (t : State ι ε π V W τ) (q : ι) x, t.pc = s.pc →
      J.Holds (e :: es) q x → J.Holds (e :: es) p ((t.move q x).pc p) := by
    intro t q x ht hx
    by_cases hq : p = q
    · rw [hq, pc_move_self]
      exact hx
    · rw [pc_move_of_ne t hq, ht]
      exact (h p).cons e
  cases e with
  | load q => refine hmove s q _ rfl ?_; split <;> trivial
  | join q c async => exact hmove (s.fly J _) q _ (pc_fly J s _) trivial
  | lead q => exact hmove (s.fly J _) q _ (pc_fly J s _) trivial
  | recheck q => refine hmove s q _ rfl ?_; split <;> trivial
  | compute q c => exact hmove s q _ rfl (holds_computed es q c)
  | store q value bytes accepted =>
      exact hmove (s.write bytes accepted) q _ rfl trivial
  | flight f => exact (h p).cons _
  | cancel q c roused => exact (h p).cons _
  | abort q =>
      refine hmove s q _ rfl ?_
      have hq := (h q).cons (.abort q)
      cases hpc : s.pc q with
      | storing value bytes => rw [hpc] at hq; exact hq
      | aborting write => rw [hpc] at hq; exact hq
      | _ => trivial
  | detached q bytes accepted =>
      exact hmove (s.write bytes accepted) q _ rfl trivial

/-- Only a write changes what is stored. -/
theorem stored_next_of_writes_none {e : Event ι ε π V W} (h : e.writes = none)
    (s : State ι ε π V W τ) : (J.next s e).stored = s.stored := by
  cases e with
  | store p value bytes accepted => cases h
  | detached p bytes accepted => cases h
  | _ => rfl

/-- Whoever has written has computed a value, and the store holds what it held
at first or what somebody has written. -/
theorem run_writers {stored : Option Bytes} {es : List (Event ι ε π V W)}
    {s : State ι ε π V W τ} (hr : (J.machine stored).Run es s) :
    (∀ p, J.Holds es p (s.pc p)) ∧
      (∀ p ∈ writers es, p ∈ computations es ∧ ∃ bytes, J.Encodes p bytes) ∧
      (writers es = [] → s.stored = stored) := by
  refine hr.invariant (I := fun es s => (∀ p, J.Holds es p (s.pc p)) ∧
    (∀ p ∈ writers es, p ∈ computations es ∧ ∃ bytes, J.Encodes p bytes) ∧
      (writers es = [] → s.stored = stored)) ?_ ?_
  · rintro _ rfl
    exact ⟨fun _ => trivial, fun p hp => absurd hp List.not_mem_nil, fun _ => rfl⟩
  · rintro es e t _ _ ⟨hholds, hwriters, hstored⟩ ⟨he, rfl⟩
    refine ⟨holds_next hholds he, ?_⟩
    have hbefore : ∀ p ∈ writers es, p ∈ computations (e :: es) ∧
        ∃ bytes, J.Encodes p bytes := fun p hp =>
      ⟨computations_subset e es (hwriters p hp).1, (hwriters p hp).2⟩
    have hwrite : ∀ p bytes, e.writes = some p →
        p ∈ computations es ∧ J.Encodes p bytes →
        (∀ q ∈ writers (e :: es), q ∈ computations (e :: es) ∧
          ∃ bytes, J.Encodes q bytes) ∧ writers (e :: es) ≠ [] := by
      rintro p bytes hp ⟨hran, henc⟩
      rw [writers, List.filterMap_cons_some hp]
      refine ⟨fun q hq => ?_, List.cons_ne_nil _ _⟩
      rcases List.mem_cons.mp hq with rfl | hq
      · exact ⟨computations_subset e es hran, bytes, henc⟩
      · exact hbefore q hq
    cases e with
    | store p value bytes accepted =>
        have hp := hholds p
        rw [show t.pc p = _ from he] at hp
        obtain ⟨hall, hne⟩ := hwrite p bytes rfl hp
        exact ⟨hall, fun hnil => absurd hnil hne⟩
    | detached p bytes accepted =>
        have hp := hholds p
        rw [show t.pc p = _ from he] at hp
        obtain ⟨hall, hne⟩ := hwrite p bytes rfl hp
        exact ⟨hall, fun hnil => absurd hnil hne⟩
    | _ =>
        rw [writers, List.filterMap_cons_none rfl, stored_next_of_writes_none rfl]
        exact ⟨hbefore, hstored⟩

omit [DecidableEq ι] [DecidableEq τ] in
theorem not_encodes_of_error {p : ι} {err : ε} (h : J.computation p = .error err) :
    ¬ ∃ bytes, J.Encodes p bytes := by
  rintro ⟨bytes, value, hvalue, _⟩
  cases h.symm.trans hvalue

end Job

end Memo

end RustSak
