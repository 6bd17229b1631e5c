import RustSak.Memo.ComputeFails
import RustSak.Memo.ComputeRank

/-!
# One computation for all

What the callers of one key see. When the computation that runs succeeds, it is
the only one and everybody returns its value. When it fails, its caller and
everybody who waited on that flight return the error, and it writes nothing.
-/

namespace RustSak

namespace Memo

open Library

/-- The caller follows the call, or did until it returned or was dropped. -/
def Flight.Phase.follows {ε π W τ : Type} (x : Flight.Phase ε π W τ) (c : ℕ) :
    Prop :=
  x.waitsFor = some c ∨ (∃ o, x = .returned c o) ∨ x = .gone

namespace Job

variable {ι ε π V W τ : Type} [DecidableEq ι] [DecidableEq τ]
  {J : Job ι ε π V W τ}

/-! ## Followers -/

/-- Whoever follows a call takes no step but on that call. -/
theorem follows_next {s : Flight.State ι ε π W τ} {K : Wakers W τ}
    {f : Flight.Event ι ε π W} (he : Flight.Enabled s f) {q : ι} {c : ℕ}
    (h : (s.phase q).follows c) : ((Flight.next K s f).phase q).follows c := by
  by_cases hq : q = f.caller
  · subst hq
    have hmove : ∀ (t : Flight.State ι ε π W τ) (p : ι) x,
        (t.move p x).phase p = x := fun t p x => by
      rw [Flight.phase_move, if_pos rfl]
    -- a caller that leads or is idle follows nothing
    have hout : ∀ {x : Flight.Phase ε π W τ}, s.phase f.caller = x →
        x.waitsFor = none → (∀ o, x ≠ .returned c o) → x ≠ .gone → False := by
      intro x hx hw hr hg
      rw [hx] at h
      rcases h with h | ⟨o, h⟩ | h
      · rw [hw] at h
        cases h
      · exact hr o h
      · exact hg h
    cases f with
    | check p c' =>
        have hp : s.phase p = .checking c' := he
        rw [Flight.Event.caller, hp] at h
        obtain rfl : c' = c := by
          rcases h with h | ⟨o, h⟩ | h
          · exact Option.some.inj h
          · cases h
          · cases h
        rw [Flight.next, Flight.Event.caller, hmove]
        split
        · exact .inr (.inl ⟨_, rfl⟩)
        · exact .inl rfl
    | spurious p c' =>
        have hp : s.phase p = .parked c' := he
        rw [Flight.Event.caller, hp] at h
        obtain rfl : c' = c := by
          rcases h with h | ⟨o, h⟩ | h
          · exact Option.some.inj h
          · cases h
          · cases h
        rw [Flight.next, Flight.Event.caller, hmove]
        exact .inl rfl
    | poll p c' roused waker =>
        obtain rfl : c' = c := by
          rcases Flight.awaits_eq he with ⟨hp, _⟩ | ⟨t, hp, _⟩ <;>
            rw [Flight.Event.caller, hp] at h <;>
            rcases h with h | ⟨o, h⟩ | h <;> first | exact Option.some.inj h | cases h
        rw [Flight.next, Flight.Event.caller]
        split <;> rw [hmove]
        · exact .inr (.inl ⟨_, rfl⟩)
        · exact .inl rfl
    | cancel p c' roused =>
        rw [Flight.next, Flight.Event.caller, hmove]
        exact .inr (.inr rfl)
    | join p key c' async => exact (hout he.1 rfl (by simp) (by simp)).elim
    | lead p key => exact (hout he.1 rfl (by simp) (by simp)).elim
    | settle p l outcome => exact (hout he.1 rfl (by simp) (by simp)).elim
    | ignore p l => exact (hout he.1 rfl (by simp) (by simp)).elim
    | notify p l wakers => exact (hout he.1 rfl (by simp) (by simp)).elim
    | wake p l waker wakers => exact (hout he.1 rfl (by simp) (by simp)).elim
    | woken p l => exact (hout he.1 rfl (by simp) (by simp)).elim
    | deregister p l => exact (hout he.1 rfl (by simp) (by simp)).elim
    | finish p l => exact (hout he.1 rfl (by simp) (by simp)).elim
  · rcases Flight.phase_next_of_ne (K := K) f hq with heq | ⟨c', hc, hc'⟩
    · rwa [heq]
    · rcases h with h | ⟨o, h⟩ | h
      · rw [hc] at h
        exact .inl (hc'.trans h)
      · rw [h] at hc
        cases hc
      · rw [h] at hc
        cases hc

/-- Whoever has joined a call follows it from then on. -/
theorem run_follows {stored : Option Bytes} {es : List (Event ι ε π V W)}
    {s : State ι ε π V W τ} (hr : (J.machine stored).Run es s) {q : ι} {c : ℕ}
    {async : Bool} (hmem : .join q c async ∈ es) :
    s.pc q = .waiting ∧ (s.flight.phase q).follows c := by
  revert hmem
  refine hr.invariant (I := fun es s => .join q c async ∈ es →
    s.pc q = .waiting ∧ (s.flight.phase q).follows c) ?_ ?_
  · exact fun _ _ hmem => absurd hmem List.not_mem_nil
  · rintro es e t _ _ ih ⟨he, rfl⟩ hmem
    rcases List.mem_cons.mp hmem with rfl | hmem
    · refine ⟨by rw [Job.next, pc_move_self], .inl ?_⟩
      change ((t.flight.move q _).phase q).waitsFor = _
      rw [Flight.phase_move, if_pos rfl]
      cases async <;> rfl
    · obtain ⟨hpc, hfollows⟩ := ih hmem
      refine ⟨pc_next_of_rests he hpc trivial, ?_⟩
      rcases flight_next he with hsame | ⟨f, hf, hflight, _⟩
      · rwa [hsame]
      · rw [hflight]
        exact follows_next hf hfollows

/-! ## What callers return -/

omit [DecidableEq ι] [DecidableEq τ] in
theorem result_of_waiting {s : State ι ε π V W τ} {q : ι}
    {r : Except (MemoError ε π) V} (hpc : s.pc q = .waiting)
    (hr : s.result J q = some r) :
    ∃ c o, s.flight.phase q = .returned c o ∧ r = J.resolve o := by
  rw [State.result, hpc] at hr
  cases hx : s.flight.phase q with
  | returned c o =>
      rw [hx] at hr
      exact ⟨c, o, rfl, (Option.some.inj hr).symm⟩
  | _ => rw [hx] at hr; cases hr

omit [DecidableEq ι] [DecidableEq τ] in
/-- A follower returns what is in the slot of the call. -/
theorem Tied.outcome {s : State ι ε π V W τ} (ht : J.Tied s) {q : ι} {c : ℕ}
    {o : Outcome ε π} (hq : s.flight.phase q = .returned c o) :
    (s.flight.call c).outcome = some o := by
  have hsound := ht.flight.sound q
  rw [hq] at hsound
  exact hsound.2

omit [DecidableEq ι] [DecidableEq τ] in
/-- After a failed computation its caller returns the error. -/
theorem Failed.result {s : State ι ε π V W τ} {p : ι} {c : ℕ} {err : ε}
    (h : Failed s p c err) {r : Except (MemoError ε π) V}
    (hr : s.result J p = some r) : r = .error (.compute err) := by
  rw [State.result, h.pc] at hr
  cases hx : s.flight.phase p with
  | gone => rw [hx] at hr; exact (Option.some.inj hr).symm
  | _ => rw [hx] at hr; cases hr

omit [DecidableEq ι] [DecidableEq τ] in
/-- And so does every follower of its flight. -/
theorem Failed.follower {s : State ι ε π V W τ} {p q : ι} {c : ℕ} {err : ε}
    (h : Failed s p c err) (ht : J.Tied s) (hpc : s.pc q = .waiting)
    (hq : (s.flight.phase q).follows c) {r : Except (MemoError ε π) V}
    (hr : s.result J q = some r) : r = .error (.compute err) := by
  obtain ⟨c', o, hx, rfl⟩ := result_of_waiting hpc hr
  obtain rfl : c' = c := by
    rw [hx] at hq
    rcases hq with hq | ⟨o', hq⟩ | hq
    · cases hq
    · cases hq
      rfl
    · cases hq
  have ho := ht.outcome hx
  rcases h.outcome with ⟨hnone, _⟩ | hsome
  · cases hnone.symm.trans ho
  · obtain rfl := Option.some.inj (hsome.symm.trans ho)
    rfl

omit [DecidableEq τ] in
/-- Nobody returns before the value is stored, and then everybody returns the
value. -/
theorem Once.result {s : State ι ε π V W τ} {es : List (Event ι ε π V W)}
    (h : J.Once es s) (ht : J.Tied s) {p : ι} {r : Except (MemoError ε π) V}
    (hr : s.result J p = some r) :
    ∃ q value, computations es = [q] ∧ J.computation q = .ok value ∧
      r = .ok value := by
  -- who has neither returned nor a slot to return from has no result
  have hnone : (∀ c, (s.flight.call c).outcome = none) → (s.pc p).before → False := by
    intro hslots hbefore
    cases hpc : s.pc p with
    | waiting =>
        obtain ⟨c, o, hx, _⟩ := result_of_waiting hpc hr
        cases (hslots c).symm.trans (ht.outcome hx)
    | start => simp [State.result, hpc] at hr
    | entering => simp [State.result, hpc] at hr
    | rechecking => simp [State.result, hpc] at hr
    | computing => simp [State.result, hpc] at hr
    | storing v b => rw [hpc] at hbefore; exact hbefore
    | finishing o res => rw [hpc] at hbefore; exact hbefore
    | returned res => rw [hpc] at hbefore; exact hbefore
    | aborting w => rw [hpc] at hbefore; exact hbefore
  cases h with
  | fresh _ _ hslots hpc => exact (hnone hslots (hpc p)).elim
  | running q value bytes _ _ hslots hq hpc =>
      by_cases hp : p = q
      · subst hp
        simp [State.result, hq] at hr
      · exact (hnone hslots (hpc p hp).before).elim
  | kept q value bytes hran _ hslots hpc =>
      refine ⟨q, value, hran.once, hran.computation, ?_⟩
      have hafter := hpc p
      cases hx : s.pc p with
      | returned res =>
          rw [hx] at hafter
          rw [State.result, hx] at hr
          exact (Option.some.inj hr).symm.trans hafter
      | finishing o res =>
          rw [hx] at hafter
          rw [State.result, hx] at hr
          cases hphase : s.flight.phase p with
          | gone => rw [hphase] at hr; exact (Option.some.inj hr).symm.trans hafter.2
          | _ => rw [hphase] at hr; cases hr
      | waiting =>
          obtain ⟨c, o, hphase, rfl⟩ := result_of_waiting hx hr
          rw [hslots c o (ht.outcome hphase), resolve,
            Header.decode_encode hran.encode]
      | start => simp [State.result, hx] at hr
      | entering => simp [State.result, hx] at hr
      | rechecking => simp [State.result, hx] at hr
      | computing => rw [hx] at hafter; exact hafter.elim
      | storing v b => rw [hx] at hafter; exact hafter.elim
      | aborting w => rw [hx] at hafter; exact hafter.elim

omit [DecidableEq ι] [DecidableEq τ] in
theorem Once.length_le {s : State ι ε π V W τ} {es : List (Event ι ε π V W)}
    (h : J.Once es s) : (computations es).length ≤ 1 := by
  cases h with
  | fresh hnone => simp [hnone]
  | running p value bytes hran => simp [hran.once]
  | kept p value bytes hran => simp [hran.once]

/-- Of any number of callers of one key, in any interleaving, for a type of values that are
read back as they were serialised:

* while computations succeed, writes are kept and nobody is cancelled, one
  computation runs at most, whoever returns returns its value, and when nothing
  is left to do it has run and everybody has returned;
* when a computation fails, its caller and whoever joined its flight return the
  error, it writes nothing, and the store is as it was if no other succeeded;
* while nobody is cancelled there is always something left to do until everybody
  has returned, and not more than forty steps for each caller and one for each
  wakeup or poll that nobody asked for. -/
theorem computes_once [Inhabited W] (J : Job ι ε π V W τ) :
    (∀ es s, ((J.machine none).restrict J.Smooth).Run es s →
      (computations es).length ≤ 1 ∧
      (∀ p r, s.result J p = some r → ∃ q value, computations es = [q] ∧
        J.computation q = .ok value ∧ r = .ok value) ∧
      (s.Quiescent J → ∀ p, ∃ q value, computations es = [q] ∧
        J.computation q = .ok value ∧ s.result J p = some (.ok value))) ∧
    (∀ stored es s p c err, (J.machine stored).Run es s →
      J.computation p = .error err → .compute p c ∈ es →
      (∀ r, s.result J p = some r → r = .error (.compute err)) ∧
      (∀ q async r, .join q c async ∈ es → s.result J q = some r →
        r = .error (.compute err)) ∧
      p ∉ writers es ∧
      ((∀ q ∈ computations es, ∃ err', J.computation q = .error err') →
        writers es = [] ∧ s.stored = stored)) ∧
    ∀ stored es s, ((J.machine stored).restrict Calm).Run es s →
      (s.Quiescent J → ∀ p, ∃ r, s.result J p = some r) ∧
      ∀ [Fintype ι], es.countP Event.due ≤
        40 * Fintype.card ι + es.countP fun e => !e.due := by
  have hends : ∀ stored es s, ((J.machine stored).restrict Calm).Run es s →
      s.Quiescent J → ∀ p, ∃ r, s.result J p = some r := fun stored es s hr hq =>
    hq.result (reachable_tied ⟨es, hr.of_restrict⟩) (run_unbroken ⟨es, hr⟩)
  refine ⟨fun es s hr => ?_, fun stored es s p c err hr herr hmem => ?_,
    fun stored es s hr => ⟨hends stored es s hr, due_le hr⟩⟩
  · have honce := run_once hr
    have ht := reachable_tied ⟨es, hr.of_restrict⟩
    refine ⟨honce.length_le, fun p r => honce.result ht, fun hq p => ?_⟩
    obtain ⟨r, hresult⟩ :=
      hends none es s (hr.restrict_mono fun _ _ => Smooth.calm) hq p
    obtain ⟨q, value, hran, hvalue, rfl⟩ := honce.result ht hresult
    exact ⟨q, value, hran, hvalue, hresult⟩
  · have ht := reachable_tied ⟨es, hr⟩
    have hfailed := run_failed hr herr hmem
    obtain ⟨_, hwriters, hstored⟩ := run_writers hr
    refine ⟨fun r => hfailed.result, fun q async r hjoin hresult => ?_,
      fun hp => not_encodes_of_error herr (hwriters p hp).2, fun hall => ?_⟩
    · obtain ⟨hpc, hfollows⟩ := run_follows hr hjoin
      exact hfailed.follower ht hpc hfollows hresult
    · have hnobody : writers es = [] := by
        refine List.eq_nil_iff_forall_not_mem.mpr fun q hq => ?_
        obtain ⟨hran, hencodes⟩ := hwriters q hq
        obtain ⟨err', herr'⟩ := hall q hran
        exact not_encodes_of_error herr' hencodes
      exact ⟨hnobody, hstored hnobody⟩

/-- Two callers of one key: one leads, the other joins it. -/
def pair : Job ℕ Empty Empty UInt8 ℕ ℕ where
  postcard :=
    { toExtend := fun value => .ok [value]
      takeFromBytes := fun bytes => bytes.head?.map fun value => (value, bytes.tail)
      take_to := by
        rintro value _ ⟨⟩
        rfl }
  fingerprint := 5
  key := "k"
  computation p := .ok (UInt8.ofNat p)
  wakers := ⟨fun w => w, fun a b => a == b, by simp⟩

def pairEvents : List (Event ℕ Empty Empty UInt8 ℕ) :=
  let bytes : Bytes := [1, 0, 0, 0, 0, 0, 0, 0, 5, 0]
  let l : Flight.Leader ℕ := ⟨pair.flightKey, 0, false, .running, false⟩
  [.load 0, .load 1, .lead 0, .recheck 0, .join 1 0 false, .compute 0 0,
    .store 0 0 bytes true, .flight (.settle 0 l (.ready bytes)),
    .flight (.notify 0 { l with stage := .notifying [] } []),
    .flight (.woken 0 { l with stage := .waking [] }),
    .flight (.deregister 0 { l with published := true }),
    .flight (.finish 0 { l with published := true, dropping := true }),
    .flight (.check 1 0)]

theorem computes_once_pair :
    let s := pairEvents.foldl pair.next ⟨.empty, none, fun _ => .start⟩
    ∃ q value, computations pairEvents.reverse = [q] ∧
      pair.computation q = .ok value ∧ s.result pair 1 = some (.ok value) := by
  intro s
  have hlegal : Machine.Legal pair.Enabled pair.next
      ⟨.empty, none, fun _ => .start⟩ pairEvents := by
    refine ⟨rfl, rfl, ⟨rfl, rfl, rfl⟩, rfl, ⟨rfl, rfl, rfl⟩, ⟨rfl, rfl⟩, rfl, ?_⟩
    exact ⟨⟨⟨rfl, rfl, rfl, nofun⟩, .inl ⟨rfl, rfl, rfl⟩⟩, ⟨⟨rfl, rfl⟩, trivial⟩,
      ⟨⟨rfl, rfl⟩, trivial⟩, ⟨⟨rfl, rfl, rfl⟩, .inl ⟨rfl, rfl⟩⟩,
      ⟨⟨rfl, rfl, rfl, rfl⟩, trivial⟩, ⟨rfl, trivial⟩, trivial⟩
  have hsmooth : ∀ e ∈ pairEvents, ∀ t, pair.Smooth t e := by
    simp only [pairEvents, List.forall_mem_cons]
    refine ⟨?_, ?_, ?_, ?_, ?_, fun _ => ⟨0, _, rfl, rfl⟩, fun _ => rfl, ?_⟩
    all_goals try exact fun _ => trivial
    exact ⟨fun _ => trivial, fun _ => trivial, fun _ => trivial, fun _ => trivial,
      fun _ => trivial, fun _ => trivial, fun _ he => absurd he List.not_mem_nil⟩
  have hr : (pair.machine none).Run pairEvents.reverse s := by
    have hrun := Machine.Run.legal (.start rfl : (pair.machine none).Run [] _) hlegal
    rwa [List.append_nil] at hrun
  have hkept := hr.restrict (C := pair.Smooth) fun e he =>
    hsmooth e (List.mem_reverse.mp he)
  obtain ⟨q, value, hran, hvalue, hresult⟩ :=
    ((computes_once pair).1 _ s hkept).2.1 1 (.ok 0) rfl
  exact ⟨q, value, hran, hvalue, hresult ▸ rfl⟩

end Job

end Memo

end RustSak
