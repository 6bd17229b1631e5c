import RustSak.Memo.ComputeOnce

/-!
# The callers come to an end

While nobody is cancelled and no leader panics, somebody can always move until
every caller has returned: who waits, waits for a leader, and a leader always has
a next step. And every step but a spurious wakeup or a poll nobody asked for
takes from a rank that starts at forty for each caller.
-/

namespace RustSak

namespace Memo

open Library

namespace Job

variable {ι ε π V W τ : Type} {J : Job ι ε π V W τ}

/-- No caller is cancelled and no leader panics. -/
def Calm (_ : State ι ε π V W τ) : Event ι ε π V W → Prop
  | .cancel .. => False
  | .abort _ => False
  | .detached .. => False
  | _ => True

theorem Smooth.calm {s : State ι ε π V W τ} {e : Event ι ε π V W}
    (h : J.Smooth s e) : Calm s e := by
  cases e <;> trivial

/-- A step a scheduler owes to a caller: neither a wakeup for no reason nor a
poll of a future whose task was not woken, and nobody's cancellation. -/
def Event.due : Event ι ε π V W → Bool
  | .flight (.spurious ..) => false
  | .flight (.poll _ _ roused _) => roused
  | .cancel .. => false
  | .abort _ => false
  | .detached .. => false
  | _ => true

/-- Nothing is due. -/
def State.Quiescent (J : Job ι ε π V W τ) (s : State ι ε π V W τ) : Prop :=
  ∀ e : Event ι ε π V W, e.due = true → ¬ J.Enabled s e

/-- Nobody aborts, and nobody was dropped while it waited. -/
def State.Unbroken (s : State ι ε π V W τ) : Prop :=
  ∀ p, (s.pc p).aborts = false ∧ (s.pc p = .waiting → s.flight.phase p ≠ .gone)

variable [DecidableEq ι] [DecidableEq τ]

/-- The caller that takes a step of the flight goes, if it was not leading,
where it is still followed up. -/
theorem phase_next_ne_gone {s : Flight.State ι ε π W τ} {K : Wakers W τ}
    {e : Flight.Event ι ε π W} (he : Flight.Enabled s e)
    (hcancel : ∀ p c roused, e ≠ .cancel p c roused)
    (hlead : ∀ l, s.phase e.caller ≠ .leading l) :
    (Flight.next K s e).phase e.caller ≠ .gone := by
  have hmove : ∀ (t : Flight.State ι ε π W τ) (p : ι) x,
      (t.move p x).phase p = x := fun t p x => by
    rw [Flight.phase_move, if_pos rfl]
  cases e with
  | join p key c async =>
      rw [Flight.next, Flight.Event.caller, hmove]
      cases async <;> simp
  | lead p key =>
      rw [Flight.next, Flight.Event.caller, hmove]
      simp
  | check p c =>
      rw [Flight.next, Flight.Event.caller, hmove]
      split <;> simp
  | spurious p c =>
      rw [Flight.next, Flight.Event.caller, hmove]
      simp
  | poll p c roused waker =>
      rw [Flight.next, Flight.Event.caller]
      split <;> rw [hmove] <;> simp
  | cancel p c roused => exact absurd rfl (hcancel p c roused)
  | settle p l outcome => exact absurd he.1 (hlead l)
  | ignore p l => exact absurd he.1 (hlead l)
  | notify p l wakers => exact absurd he.1 (hlead l)
  | wake p l waker wakers => exact absurd he.1 (hlead l)
  | woken p l => exact absurd he.1 (hlead l)
  | deregister p l => exact absurd he.1 (hlead l)
  | finish p l => exact absurd he.1 (hlead l)

theorem phase_next_ne_gone_of_ne {s : Flight.State ι ε π W τ} {K : Wakers W τ}
    (e : Flight.Event ι ε π W) {q : ι} (hq : q ≠ e.caller)
    (h : s.phase q ≠ .gone) : (Flight.next K s e).phase q ≠ .gone := by
  rcases Flight.phase_next_of_ne (K := K) e hq with heq | ⟨c, _, hc⟩
  · rwa [heq]
  · intro hgone
    rw [hgone] at hc
    cases hc

theorem State.Unbroken.next {s : State ι ε π V W τ} {e : Event ι ε π V W}
    (h : s.Unbroken) (ht : J.Tied s) (he : J.Enabled s e) (hcalm : Calm s e) :
    (J.next s e).Unbroken := by
  -- a caller that moves on its own does not get to wait
  have hmove : ∀ (t : State ι ε π V W τ) (q : ι) x, t.pc = s.pc →
      t.flight = s.flight → x.aborts = false → x ≠ .waiting →
      (t.move q x).Unbroken := by
    intro t q x hpc hflight hx hw p
    by_cases hp : p = q
    · subst hp
      rw [pc_move_self]
      exact ⟨hx, fun hx' => absurd hx' hw⟩
    · rw [pc_move_of_ne t hp, hpc]
      change _ ∧ (_ → t.flight.phase p ≠ .gone)
      rw [hflight]
      exact h p
  cases e with
  | load q => refine hmove s q _ rfl rfl ?_ ?_ <;> split <;> simp [Pc.aborts]
  | join q c async =>
      intro p
      have hidle : s.flight.phase q = .idle := he.2.1
      by_cases hp : p = q
      · subst hp
        refine ⟨by rw [Job.next, pc_move_self]; rfl, fun _ => ?_⟩
        exact phase_next_ne_gone (K := J.wakers) (e := .join p J.flightKey c async)
          he.2 (by simp) (by simp [Flight.Event.caller, hidle])
      · rw [Job.next, pc_move_of_ne _ hp]
        refine ⟨(h p).1, fun hw => ?_⟩
        exact phase_next_ne_gone_of_ne (K := J.wakers)
          (.join q J.flightKey c async) hp ((h p).2 hw)
  | lead q =>
      intro p
      by_cases hp : p = q
      · subst hp
        rw [Job.next, pc_move_self]
        exact ⟨rfl, fun hw => by cases hw⟩
      · rw [Job.next, pc_move_of_ne _ hp]
        refine ⟨(h p).1, fun hw => ?_⟩
        exact phase_next_ne_gone_of_ne (K := J.wakers) (.lead q J.flightKey) hp
          ((h p).2 hw)
  | recheck q => refine hmove s q _ rfl rfl ?_ ?_ <;> split <;> simp [Pc.aborts]
  | compute q c =>
      refine hmove s q _ rfl rfl ?_ ?_ <;>
        (cases J.computation q <;> rw [computed] <;> (try split) <;> simp [Pc.aborts])
  | store q value bytes accepted =>
      exact hmove (s.write bytes accepted) q _ rfl rfl rfl (by simp)
  | flight f =>
      intro p
      refine ⟨(h p).1, fun hw => ?_⟩
      by_cases hp : p = f.caller
      · subst hp
        refine phase_next_ne_gone he.1 ?_ fun l hl => ?_
        · rintro p c roused rfl
          exact he.2
        · have hlinked := ht.linked f.caller
          rw [show s.pc f.caller = .waiting from hw, hl] at hlinked
          rcases hlinked with hx | ⟨_, _, hx⟩ | hx
          · exact hx rfl
          · cases hx
          · cases hx
      · exact phase_next_ne_gone_of_ne f hp ((h p).2 hw)
  | cancel q c roused => cases hcalm
  | abort q => cases hcalm
  | detached q bytes accepted => cases hcalm

theorem run_unbroken {stored : Option Bytes} {s : State ι ε π V W τ}
    (hr : ((J.machine stored).restrict Calm).Reachable s) : s.Unbroken := by
  obtain ⟨es, hr⟩ := hr
  refine hr.invariant (I := fun _ s => s.Unbroken) ?_ ?_
  · rintro _ rfl p
    exact ⟨rfl, fun hp => by cases hp⟩
  · rintro es e t _ hrun h ⟨hcalm, he, rfl⟩
    exact h.next (reachable_tied ⟨es, hrun.of_restrict⟩) he hcalm

/-! ## Somebody can move -/

omit [DecidableEq ι] [DecidableEq τ] in
/-- A leader always has a next step. -/
theorem leading_moves {s : State ι ε π V W τ} (ht : J.Tied s) (h : s.Unbroken)
    {p : ι} {l : Flight.Leader W} (hp : s.flight.phase p = .leading l) :
    ∃ e : Event ι ε π V W, e.due = true ∧ J.Enabled s e := by
  have hlinked := ht.linked p
  rw [hp] at hlinked
  cases hpc : s.pc p with
  | start => rw [hpc] at hlinked; cases hlinked
  | entering => rw [hpc] at hlinked; cases hlinked
  | returned r => rw [hpc] at hlinked; cases hlinked
  | waiting =>
      rw [hpc] at hlinked
      rcases hlinked with hx | ⟨_, _, hx⟩ | hx
      · exact absurd rfl hx
      · cases hx
      · cases hx
  | rechecking => exact ⟨.recheck p, rfl, hpc⟩
  | computing => exact ⟨.compute p l.call, rfl, hpc, by rw [hp]; rfl⟩
  | storing value bytes => exact ⟨.store p value bytes true, rfl, hpc⟩
  | aborting w =>
      have haborts := (h p).1
      rw [hpc] at haborts
      cases haborts
  | finishing o r =>
      cases hstage : l.stage with
      | notifying wakers =>
          exact ⟨.flight (.notify p l wakers), rfl, ⟨hp, hstage⟩, trivial⟩
      | waking wakers =>
          cases wakers with
          | nil => exact ⟨.flight (.woken p l), rfl, ⟨hp, hstage⟩, trivial⟩
          | cons w ws => exact ⟨.flight (.wake p l w ws), rfl, ⟨hp, hstage⟩, trivial⟩
      | running =>
          cases hd : l.dropping with
          | true =>
              have hpublished := (hlinked.dropping hpc hd).1
              exact ⟨.flight (.finish p l), rfl, ⟨hp, hstage, hd, hpublished⟩, trivial⟩
          | false =>
              cases hpublished : l.published with
              | true =>
                  refine ⟨.flight (.deregister p l), rfl, ⟨hp, hstage, hd⟩, .inl ?_⟩
                  exact ⟨by rw [hpc]; rfl, hpublished⟩
              | false =>
                  -- a leader that has not published finds its slot unset
                  have hnone : (s.flight.call l.call).outcome = none := by
                    by_contra hsome
                    have hset := (ht.flight.settled p l hp).mpr hsome
                    simp [Flight.Leader.HasSettled, hstage, hpublished] at hset
                  refine ⟨.flight (.settle p l o), rfl, ⟨hp, hstage, hnone, ?_⟩,
                    .inl ⟨by rw [hpc]; rfl, hd, hpublished⟩⟩
                  intro hd'
                  rw [hd] at hd'
                  cases hd'

omit [DecidableEq ι] [DecidableEq τ] in
/-- Who waits for a call can move, or its leader can. -/
theorem waiting_moves [Inhabited W] {s : State ι ε π V W τ} (ht : J.Tied s)
    (h : s.Unbroken) {p : ι} {c : ℕ} (hp : (s.flight.phase p).waitsFor = some c) :
    ∃ e : Event ι ε π V W, e.due = true ∧ J.Enabled s e := by
  have hsound := ht.flight.sound p
  have hled : ∀ c P, s.flight.Led c P →
      ∃ e : Event ι ε π V W, e.due = true ∧ J.Enabled s e := by
    rintro c P ⟨q, l, hq, _, _⟩
    exact leading_moves ht h hq
  cases hx : s.flight.phase p with
  | checking c => exact ⟨.flight (.check p c), rfl, hx, trivial⟩
  | polling c =>
      refine ⟨.flight (.poll p c true default), rfl, ?_, trivial⟩
      change (s.flight.phase p).awaits = _
      rw [hx]
      rfl
  | parked c =>
      rw [hx] at hsound
      obtain ⟨hlt, hnone | hn⟩ := hsound
      · exact hled c _ (ht.flight.unfinished c hlt hnone)
      · exact hled c _ hn
  | pending c t =>
      rw [hx] at hsound
      obtain ⟨hlt, ⟨hnone, _⟩ | hw⟩ := hsound
      · exact hled c _ (ht.flight.unfinished c hlt hnone)
      · exact hled c _ hw
  | idle => rw [hx] at hp; cases hp
  | leading l => rw [hx] at hp; cases hp
  | returned c o => rw [hx] at hp; cases hp
  | gone => rw [hx] at hp; cases hp

omit [DecidableEq ι] [DecidableEq τ] in
/-- When nothing is due, every caller has returned. -/
theorem State.Quiescent.result [Inhabited W] {s : State ι ε π V W τ}
    (hq : s.Quiescent J) (ht : J.Tied s) (h : s.Unbroken) (p : ι) :
    ∃ r, s.result J p = some r := by
  have hstuck : ¬ ∃ e : Event ι ε π V W, e.due = true ∧ J.Enabled s e :=
    fun ⟨e, hdue, he⟩ => hq e hdue he
  have hlinked := ht.linked p
  cases hpc : s.pc p with
  | start => exact absurd ⟨.load p, rfl, hpc⟩ hstuck
  | entering =>
      rw [hpc] at hlinked
      have hidle : s.flight.phase p = .idle := hlinked
      cases hc : s.flight.calls J.flightKey with
      | none => exact absurd ⟨.lead p, rfl, hpc, hidle, hc⟩ hstuck
      | some c => exact absurd ⟨.join p c false, rfl, hpc, hidle, hc⟩ hstuck
  | waiting =>
      rw [hpc] at hlinked
      rcases hlinked with hx | ⟨c, o, hx⟩ | hx
      · obtain ⟨c, hc⟩ := Option.ne_none_iff_exists'.mp hx
        exact absurd (waiting_moves ht h hc) hstuck
      · exact ⟨J.resolve o, by rw [State.result, hpc, hx]⟩
      · exact absurd hx ((h p).2 hpc)
  | rechecking => exact absurd ⟨.recheck p, rfl, hpc⟩ hstuck
  | computing =>
      rw [hpc] at hlinked
      obtain ⟨c, hx⟩ := hlinked
      exact absurd (leading_moves ht h hx) hstuck
  | storing value bytes => exact absurd ⟨.store p value bytes true, rfl, hpc⟩ hstuck
  | finishing o r =>
      rw [hpc] at hlinked
      rcases hlinked with hx | ⟨l, hx, _⟩
      · exact ⟨r, by rw [State.result, hpc, hx]⟩
      · exact absurd (leading_moves ht h hx) hstuck
  | returned r => exact ⟨r, by rw [State.result, hpc]⟩
  | aborting w =>
      have haborts := (h p).1
      rw [hpc] at haborts
      cases haborts

end Job

end Memo

end RustSak
