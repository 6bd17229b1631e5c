import RustSak.Memo.Flight

/-!
# What holds of every flight

The table maps a key to the call of its one live leader. A call that is
published is led until its waiters are released: a thread parked on it is about
to be notified, and a task pending on it has a waker among those the leader is
about to wake. Each step is one of a few changes, and `Inv` is kept by each of
them: a waiter moves, a waker is parked, waiters are released, a leader's call is
settled, and a leader arrives, moves on or leaves.
-/

namespace RustSak

namespace Memo

open Library

namespace Flight

variable {ι ε π W τ : Type}

/-- The wakers the leader has taken and not woken yet. -/
def Stage.toWake : Stage W → List W
  | .running => []
  | .notifying wakers => wakers
  | .waking wakers => wakers

/-- The condition variable is still to be notified. -/
def Stage.notifies : Stage W → Bool
  | .notifying _ => true
  | _ => false

/-- The leader has set its slot. -/
def Leader.HasSettled (l : Leader W) : Prop :=
  l.published = true ∨ l.stage ≠ .running

/-- A waker of the task is on the list. -/
def Wakes (K : Wakers W τ) (wakers : List W) (t : τ) : Prop :=
  ∃ w ∈ wakers, K.task w = t

/-- Some caller leads the call, at a point that meets `P`. -/
def State.Led (s : State ι ε π W τ) (c : ℕ) (P : Leader W → Prop) : Prop :=
  ∃ p l, s.phase p = .leading l ∧ l.call = c ∧ P l

/-- A thread parked on the call will be notified. -/
def State.WillNotify (s : State ι ε π W τ) (c : ℕ) : Prop :=
  (s.call c).outcome = none ∨ s.Led c fun l => l.stage.notifies = true

/-- A task pending on the call will be woken. -/
def State.WillWake (K : Wakers W τ) (s : State ι ε π W τ) (c : ℕ) (t : τ) :
    Prop :=
  ((s.call c).outcome = none ∧ Wakes K (s.call c).wakers t) ∨
    s.Led c fun l => Wakes K l.stage.toWake t

/-- What holds of a caller, by where it stands. -/
def Sound (K : Wakers W τ) (s : State ι ε π W τ) : Phase ε π W τ → Prop
  | .idle => True
  | .leading l => l.call < s.fresh
  | .checking c => c < s.fresh
  | .parked c => c < s.fresh ∧ s.WillNotify c
  | .polling c => c < s.fresh
  | .pending c t => c < s.fresh ∧ s.WillWake K c t
  | .returned c o => c < s.fresh ∧ (s.call c).outcome = some o
  | .gone => True

structure Inv (K : Wakers W τ) (s : State ι ε π W τ) : Prop where
  registered : ∀ key c, s.calls key = some c ↔
    s.Led c fun l => l.key = key ∧ l.dropping = false
  unique : ∀ p q l l', s.phase p = .leading l → s.phase q = .leading l' →
    l.call = l'.call → p = q
  settled : ∀ p l, s.phase p = .leading l →
    (l.HasSettled ↔ (s.call l.call).outcome ≠ none)
  unfinished : ∀ c, c < s.fresh → (s.call c).outcome = none →
    s.Led c fun _ => True
  sound : ∀ q, Sound K s (s.phase q)

theorem inv_empty (K : Wakers W τ) : Inv K (State.empty : State ι ε π W τ) := by
  constructor <;> simp [State.empty, State.Led, Sound]

variable {K : Wakers W τ} {s s' : State ι ε π W τ}

/-- A caller that does not wait keeps what it knows while outcomes stay. -/
theorem Sound.mono {x : Phase ε π W τ} (h : Sound K s x)
    (hfresh : s.fresh ≤ s'.fresh)
    (hsettled : ∀ c o, c < s.fresh → (s.call c).outcome = some o →
      (s'.call c).outcome = some o)
    (hparked : ∀ c, c < s.fresh → x = .parked c → s.WillNotify c → s'.WillNotify c)
    (hpending : ∀ c t, c < s.fresh → x = .pending c t → s.WillWake K c t →
      s'.WillWake K c t) : Sound K s' x := by
  cases x with
  | idle => trivial
  | leading l => exact lt_of_lt_of_le h hfresh
  | checking c => exact lt_of_lt_of_le h hfresh
  | parked c => exact ⟨lt_of_lt_of_le h.1 hfresh, hparked c h.1 rfl h.2⟩
  | polling c => exact lt_of_lt_of_le h hfresh
  | pending c t => exact ⟨lt_of_lt_of_le h.1 hfresh, hpending c t h.1 rfl h.2⟩
  | returned c o => exact ⟨lt_of_lt_of_le h.1 hfresh, hsettled c o h.1 h.2⟩
  | gone => trivial

/-! ## Waiters -/

/-- Two states with the same leaders, table and outcomes. -/
structure SameLeaders (s s' : State ι ε π W τ) : Prop where
  calls : s'.calls = s.calls
  fresh : s'.fresh = s.fresh
  outcome : ∀ c, (s'.call c).outcome = (s.call c).outcome
  leading : ∀ q l, s'.phase q = .leading l ↔ s.phase q = .leading l

theorem SameLeaders.led (h : SameLeaders s s') (c : ℕ) (P : Leader W → Prop) :
    s'.Led c P ↔ s.Led c P := by
  simp only [State.Led, h.leading]

theorem SameLeaders.willNotify (h : SameLeaders s s') (c : ℕ) :
    s'.WillNotify c ↔ s.WillNotify c := by
  simp only [State.WillNotify, h.outcome, h.led]

theorem SameLeaders.sound (h : SameLeaders s s') (hcall : s'.call = s.call)
    {x : Phase ε π W τ} (hx : Sound K s x) : Sound K s' x := by
  refine hx.mono h.fresh.ge (fun c o _ ho => ?_)
    (fun c _ _ => (h.willNotify c).mpr) ?_
  · rw [hcall, ho]
  · rintro c t _ _ (hw | hw)
    · rw [State.WillWake, hcall]
      exact .inl hw
    · exact .inr ((h.led c _).mpr hw)

/-- Only the waiters have to be looked at. -/
theorem Inv.waiters (h : Inv K s) (hsame : SameLeaders s s')
    (hsound : ∀ q, Sound K s' (s'.phase q)) : Inv K s' where
  registered key c := by
    rw [hsame.calls, hsame.led]
    exact h.registered key c
  unique p q l l' hl hl' := by
    rw [hsame.leading] at hl hl'
    exact h.unique p q l l' hl hl'
  settled p l hl := by
    rw [hsame.leading] at hl
    rw [hsame.outcome]
    exact h.settled p l hl
  unfinished c hc hnone := by
    rw [hsame.fresh] at hc
    rw [hsame.outcome] at hnone
    rw [hsame.led]
    exact h.unfinished c hc hnone
  sound := hsound

/-- A caller that leads nothing moves to where it leads nothing. -/
theorem Inv.follow [DecidableEq ι] (h : Inv K s) {p : ι} {x : Phase ε π W τ}
    (hp : ∀ l, s.phase p ≠ .leading l) (hx : ∀ l, x ≠ .leading l)
    (hsound : Sound K s x) : Inv K (s.move p x) := by
  have hsame : SameLeaders s (s.move p x) := by
    refine ⟨rfl, rfl, fun _ => rfl, fun q l => ?_⟩
    rw [phase_move]
    by_cases hq : q = p
    · simp [hq, hp, hx]
    · rw [if_neg hq]
  refine h.waiters hsame fun q => ?_
  rw [phase_move]
  split
  · exact hsame.sound rfl hsound
  · exact hsame.sound rfl (h.sound q)

/-- A task parks its waker: the list grows, or has one of the same task. -/
theorem wakes_park (x : CallState ε π W) (w : W) :
    Wakes K (x.park K w).wakers (K.task w) ∧
      ∀ t, Wakes K x.wakers t → Wakes K (x.park K w).wakers t := by
  unfold CallState.park
  split
  · rename_i hany
    obtain ⟨w', hmem, hwill⟩ := List.any_eq_true.mp hany
    exact ⟨⟨w', hmem, K.task_eq w' w hwill⟩, fun _ ht => ht⟩
  · refine ⟨⟨w, by simp, rfl⟩, fun t ⟨w', hmem, ht⟩ => ⟨w', ?_, ht⟩⟩
    exact List.mem_append_left _ hmem

theorem outcome_park (x : CallState ε π W) (w : W) :
    (x.park K w).outcome = x.outcome := by
  unfold CallState.park
  split <;> rfl

theorem Inv.park (h : Inv K s) (c : ℕ) (w : W) :
    Inv K (s.setCall c ((s.call c).park K w)) := by
  have hsame : SameLeaders s (s.setCall c ((s.call c).park K w)) := by
    refine ⟨rfl, rfl, fun c' => ?_, fun _ _ => Iff.rfl⟩
    rw [call_setCall]
    split
    · rename_i hc
      rw [outcome_park, hc]
    · rfl
  refine h.waiters hsame fun q => ?_
  refine (h.sound q).mono le_rfl (fun c' o _ ho => ?_)
    (fun c' _ _ => (hsame.willNotify c').mpr) ?_
  · rw [hsame.outcome, ho]
  · rintro c' t _ _ (⟨hnone, hw⟩ | hw)
    · refine .inl ⟨by rw [hsame.outcome, hnone], ?_⟩
      rw [call_setCall]
      split
      · rename_i hc
        rw [hc] at hw
        exact (wakes_park _ w).2 t hw
      · exact hw
    · exact .inr ((hsame.led c' _).mpr hw)

theorem Inv.unpark (h : Inv K s) (c : ℕ) : Inv K (s.unpark c) := by
  have hsame : SameLeaders s (s.unpark c) :=
    ⟨rfl, rfl, fun _ => rfl, fun _ _ => phase_unpark_leading s⟩
  refine h.waiters hsame fun q => ?_
  rcases phase_unpark_cases (x := (s.unpark c).phase q) s rfl with
    ⟨hq, _⟩ | ⟨hq, heq⟩
  · rw [← hq]
    exact hsame.sound rfl (h.sound q)
  · rw [heq]
    have hparked := h.sound q
    rw [hq] at hparked
    exact hparked.1

theorem Inv.rouse [DecidableEq τ] (h : Inv K s) (t : τ) : Inv K (s.rouse t) := by
  have hsame : SameLeaders s (s.rouse t) :=
    ⟨rfl, rfl, fun _ => rfl, fun _ _ => phase_rouse_leading s⟩
  refine h.waiters hsame fun q => ?_
  rcases phase_rouse_cases (x := (s.rouse t).phase q) s rfl with
    ⟨hq, _⟩ | ⟨c, hq, heq⟩
  · rw [← hq]
    exact hsame.sound rfl (h.sound q)
  · rw [heq]
    have hpending := h.sound q
    rw [hq] at hpending
    exact hpending.1

/-! ## Leaders -/

/-- The one leader of a call is the one that is there. -/
theorem Inv.leader_of_led (h : Inv K s) {p : ι} {l : Leader W}
    {P : Leader W → Prop} (hp : s.phase p = .leading l) (hled : s.Led l.call P) :
    P l := by
  obtain ⟨q, l₁, hq, hc, hP⟩ := hled
  obtain rfl := h.unique p q l l₁ hp hq hc.symm
  obtain rfl : l = l₁ := by simpa using hp.symm.trans hq
  exact hP

theorem Inv.call_lt (h : Inv K s) {l : Leader W} (hp : s.phase p = .leading l) :
    l.call < s.fresh := by
  have hsound := h.sound p
  rwa [hp] at hsound

/-- The table has the key of a leader until its drop has removed it. -/
theorem Inv.key_iff (h : Inv K s) {p : ι} {l : Leader W}
    (hp : s.phase p = .leading l) (key : Key) :
    s.calls key = some l.call ↔ l.key = key ∧ l.dropping = false := by
  rw [h.registered]
  constructor
  · exact h.leader_of_led hp
  · exact fun hkey => ⟨p, l, hp, rfl, hkey⟩

/-- A parked thread of the call waits for its outcome or for its leader's
notification. -/
theorem Inv.parked_cases (h : Inv K s) {p q : ι} {l : Leader W}
    (hp : s.phase p = .leading l) (hq : s.phase q = .parked l.call) :
    (s.call l.call).outcome = none ∨ l.stage.notifies = true := by
  have hsound := h.sound q
  rw [hq] at hsound
  exact hsound.2.imp_right (h.leader_of_led hp)

/-- A pending task of the call is in its list, or its leader has yet to wake
it. -/
theorem Inv.pending_cases (h : Inv K s) {p q : ι} {l : Leader W} {t : τ}
    (hp : s.phase p = .leading l) (hq : s.phase q = .pending l.call t) :
    ((s.call l.call).outcome = none ∧ Wakes K (s.call l.call).wakers t) ∨
      Wakes K l.stage.toWake t := by
  have hsound := h.sound q
  rw [hq] at hsound
  exact hsound.2.imp_right (h.leader_of_led hp)

/-- While a leader is not inside `publish`, a call that waits for it is still
unpublished, or nobody waits. -/
theorem Inv.waits_none (h : Inv K s) {p : ι} {l : Leader W}
    (hp : s.phase p = .leading l) (hstage : l.stage.toWake = [])
    (hnot : l.stage.notifies = false) :
    (∀ q, s.phase q = .parked l.call → (s.call l.call).outcome = none) ∧
    (∀ q t, s.phase q = .pending l.call t →
      (s.call l.call).outcome = none ∧ Wakes K (s.call l.call).wakers t) := by
  constructor
  · intro q hq
    rcases h.parked_cases hp hq with hnone | hnotifies
    · exact hnone
    · rw [hnot] at hnotifies
      cases hnotifies
  · intro q t hq
    rcases h.pending_cases hp hq with hnone | hwakes
    · exact hnone
    · simp [hstage, Wakes] at hwakes

/-- The leader `p` moves from `l` to `x` and touches nothing but its own call
and its own key. -/
structure LeaderMoves [DecidableEq ι] (K : Wakers W τ) (s s' : State ι ε π W τ)
    (p : ι) (l : Leader W) (x : Phase ε π W τ) : Prop where
  leads : s.phase p = .leading l
  stays : ∀ l', x = .leading l' → l'.call = l.call
  leaves : (∀ l', x ≠ .leading l') → x = .gone
  phase : s'.phase = (s.move p x).phase
  fresh : s'.fresh = s.fresh
  others : ∀ c, c ≠ l.call → s'.call c = s.call c
  outcome : ∀ o, (s.call l.call).outcome = some o →
    (s'.call l.call).outcome = some o
  keys : ∀ key c, c ≠ l.call → (s'.calls key = some c ↔ s.calls key = some c)
  key : ∀ key, s'.calls key = some l.call ↔
    ∃ l', x = .leading l' ∧ l'.key = key ∧ l'.dropping = false
  settled : ∀ l', x = .leading l' →
    (l'.HasSettled ↔ (s'.call l.call).outcome ≠ none)
  unfinished : (s'.call l.call).outcome = none → ∃ l', x = .leading l'
  parked : ∀ q, s.phase q = .parked l.call → s'.WillNotify l.call
  pending : ∀ q t, s.phase q = .pending l.call t → s'.WillWake K l.call t

section Leaders

variable [DecidableEq ι] {p : ι} {l : Leader W} {x : Phase ε π W τ}

theorem LeaderMoves.phase_eq (m : LeaderMoves K s s' p l x) (q : ι) :
    s'.phase q = if q = p then x else s.phase q := by
  rw [m.phase, phase_move]

theorem LeaderMoves.led_of_ne (m : LeaderMoves K s s' p l x) {c : ℕ}
    (hc : c ≠ l.call) (P : Leader W → Prop) : s'.Led c P ↔ s.Led c P := by
  constructor
  · rintro ⟨q, l₁, hq, rfl, hP⟩
    rw [m.phase_eq] at hq
    split at hq
    · exact absurd (m.stays l₁ hq) hc
    · exact ⟨q, l₁, hq, rfl, hP⟩
  · rintro ⟨q, l₁, hq, rfl, hP⟩
    refine ⟨q, l₁, ?_, rfl, hP⟩
    rw [m.phase_eq, if_neg, hq]
    rintro rfl
    obtain rfl : l = l₁ := by simpa using m.leads.symm.trans hq
    exact hc rfl

theorem LeaderMoves.led_self (m : LeaderMoves K s s' p l x) (h : Inv K s)
    (P : Leader W → Prop) :
    s'.Led l.call P ↔ ∃ l', x = .leading l' ∧ P l' := by
  constructor
  · rintro ⟨q, l₁, hq, hc, hP⟩
    rw [m.phase_eq] at hq
    split at hq
    · exact ⟨l₁, hq, hP⟩
    · rename_i hne
      exact absurd (h.unique q p l₁ l hq m.leads hc) hne
  · rintro ⟨l', rfl, hP⟩
    exact ⟨p, l', by rw [m.phase_eq, if_pos rfl], m.stays l' rfl, hP⟩

theorem LeaderMoves.inv (m : LeaderMoves K s s' p l x) (h : Inv K s) :
    Inv K s' where
  registered key c := by
    by_cases hc : c = l.call
    · rw [hc, m.key, m.led_self h]
    · rw [m.keys key c hc, m.led_of_ne hc]
      exact h.registered key c
  unique q q' l₁ l₂ hq hq' heq := by
    rw [m.phase_eq] at hq hq'
    split at hq <;> split at hq'
    · rename_i hqp hqp'
      rw [hqp, hqp']
    · rename_i hqp _
      rw [m.stays l₁ hq] at heq
      rw [hqp]
      exact h.unique p q' l l₂ m.leads hq' heq
    · rename_i _ hqp'
      rw [m.stays l₂ hq'] at heq
      rw [hqp']
      exact h.unique q p l₁ l hq m.leads heq
    · exact h.unique q q' l₁ l₂ hq hq' heq
  settled q l₁ hq := by
    rw [m.phase_eq] at hq
    split at hq
    · rw [m.stays l₁ hq]
      exact m.settled l₁ hq
    · rename_i hne
      have hc : l₁.call ≠ l.call := fun hc =>
        hne (h.unique q p l₁ l hq m.leads hc)
      rw [m.others _ hc]
      exact h.settled q l₁ hq
  unfinished c hc hnone := by
    by_cases heq : c = l.call
    · subst heq
      obtain ⟨l', hx⟩ := m.unfinished hnone
      exact (m.led_self h _).mpr ⟨l', hx, trivial⟩
    · rw [m.fresh] at hc
      rw [m.others c heq] at hnone
      exact (m.led_of_ne heq _).mpr (h.unfinished c hc hnone)
  sound q := by
    have hmine : l.call < s.fresh := by
      have hsound := h.sound p
      rwa [m.leads] at hsound
    rw [m.phase_eq]
    split
    · cases hx : x with
      | leading l' =>
          have hcall := m.stays l' hx
          change l'.call < s'.fresh
          rwa [hcall, m.fresh]
      | _ => rw [← hx, m.leaves (by simp [hx])]; trivial
    · rename_i hne
      refine (h.sound q).mono m.fresh.ge (fun c o _ ho => ?_)
        (fun c _ hq hw => ?_) (fun c t _ hq hw => ?_)
      · by_cases hc : c = l.call
        · subst hc
          exact m.outcome o ho
        · rw [m.others c hc, ho]
      · by_cases hc : c = l.call
        · subst hc
          exact m.parked q hq
        · rw [State.WillNotify, m.others c hc, m.led_of_ne hc]
          exact hw
      · by_cases hc : c = l.call
        · subst hc
          exact m.pending q t hq
        · rw [State.WillWake, m.others c hc, m.led_of_ne hc]
          exact hw

/-- A caller that finds no call under its key installs one. -/
theorem Inv.lead (h : Inv K s) {key : Key} (hp : s.phase p = .idle)
    (hkey : s.calls key = none) :
    Inv K ({ (s.setCall s.fresh ⟨none, []⟩).setKey key (some s.fresh) with
      fresh := s.fresh + 1 }.move p
        (.leading ⟨key, s.fresh, false, .running, false⟩)) := by
  set new : Leader W := ⟨key, s.fresh, false, .running, false⟩ with hnew
  set s' := ({ (s.setCall s.fresh ⟨none, []⟩).setKey key (some s.fresh) with
    fresh := s.fresh + 1 } : State ι ε π W τ).move p (.leading new) with hs'
  have hphase : ∀ q, s'.phase q = if q = p then .leading new else s.phase q :=
    fun q => phase_move _ p q _
  have hcalls : ∀ key', s'.calls key' =
      if key' = key then some s.fresh else s.calls key' :=
    fun key' => calls_setKey _ key key' _
  have hcall : ∀ c, s'.call c = if c = s.fresh then ⟨none, []⟩ else s.call c :=
    fun c => call_setCall s s.fresh c _
  have hself : ∀ P : Leader W → Prop, s'.Led s.fresh P ↔ P new := by
    intro P
    constructor
    · rintro ⟨q, l, hq, hc, hP⟩
      rw [hphase] at hq
      split at hq
      · obtain rfl : new = l := by simpa using hq
        exact hP
      · exact absurd hc (Nat.ne_of_lt (h.call_lt hq))
    · exact fun hP => ⟨p, new, by rw [hphase, if_pos rfl], rfl, hP⟩
  have hother : ∀ c, c ≠ s.fresh → ∀ P : Leader W → Prop,
      s'.Led c P ↔ s.Led c P := by
    intro c hc P
    constructor
    · rintro ⟨q, l, hq, rfl, hP⟩
      rw [hphase] at hq
      split at hq
      · obtain rfl : new = l := by simpa using hq
        exact absurd rfl hc
      · exact ⟨q, l, hq, rfl, hP⟩
    · rintro ⟨q, l, hq, rfl, hP⟩
      refine ⟨q, l, ?_, rfl, hP⟩
      rw [hphase, if_neg, hq]
      rintro rfl
      cases hp.symm.trans hq
  constructor
  · intro key' c
    rw [hcalls]
    by_cases hc : c = s.fresh
    · rw [hc, hself]
      by_cases hk : key' = key
      · simp [hk, hnew]
      · rw [if_neg hk, h.registered]
        constructor
        · rintro ⟨q, l, hq, hc, _⟩
          exact absurd hc (Nat.ne_of_lt (h.call_lt hq))
        · rintro ⟨hk', _⟩
          exact absurd hk'.symm hk
    · rw [hother c hc]
      by_cases hk : key' = key
      · rw [if_pos hk, hk, ← h.registered, hkey]
        simp [Ne.symm hc]
      · rw [if_neg hk]
        exact h.registered key' c
  · intro q q' l l' hq hq' heq
    rw [hphase] at hq hq'
    split at hq <;> split at hq'
    · rename_i hqp hqp'
      rw [hqp, hqp']
    · obtain rfl : new = l := by simpa using hq
      exact absurd heq.symm (Nat.ne_of_lt (h.call_lt hq'))
    · obtain rfl : new = l' := by simpa using hq'
      exact absurd heq (Nat.ne_of_lt (h.call_lt hq))
    · exact h.unique q q' l l' hq hq' heq
  · intro q l hq
    rw [hphase] at hq
    split at hq
    · obtain rfl : new = l := by simpa using hq
      simp [hcall, hnew, Leader.HasSettled]
    · rw [hcall, if_neg (Nat.ne_of_lt (h.call_lt hq))]
      exact h.settled q l hq
  · intro c hc hnone
    by_cases heq : c = s.fresh
    · subst heq
      exact (hself _).mpr trivial
    · rw [hcall, if_neg heq] at hnone
      have hlt : c < s.fresh := by
        change c < s.fresh + 1 at hc
        omega
      exact (hother c heq _).mpr (h.unfinished c hlt hnone)
  · intro q
    rw [hphase]
    split
    · exact Nat.lt_succ_self s.fresh
    · refine (h.sound q).mono (Nat.le_succ _) (fun c o hlt ho => ?_)
        (fun c hlt _ hw => ?_) (fun c t hlt _ hw => ?_)
      · rw [hcall, if_neg (Nat.ne_of_lt hlt), ho]
      · rw [State.WillNotify, hcall, if_neg (Nat.ne_of_lt hlt),
          hother c (Nat.ne_of_lt hlt)]
        exact hw
      · rw [State.WillWake, hcall, if_neg (Nat.ne_of_lt hlt),
          hother c (Nat.ne_of_lt hlt)]
        exact hw

theorem Inv.settle (h : Inv K s) (hp : s.phase p = .leading l)
    (hstage : l.stage = .running) (hnone : (s.call l.call).outcome = none)
    (outcome : Outcome ε π) :
    Inv K ((s.setCall l.call ⟨some outcome, []⟩).move p
      (.leading { l with stage := .notifying (s.call l.call).wakers })) := by
  set l' : Leader W := { l with stage := .notifying (s.call l.call).wakers }
  set s' := (s.setCall l.call ⟨some outcome, []⟩).move p (.leading l')
  have hself : (s'.call l.call).outcome = some outcome := by
    change ((s.setCall l.call ⟨some outcome, []⟩).call l.call).outcome = _
    rw [call_setCall, if_pos rfl]
  have hled : ∀ P : Leader W → Prop, P l' → s'.Led l.call P := fun P hP =>
    ⟨p, l', by rw [phase_move, if_pos rfl], rfl, hP⟩
  have hwaits := h.waits_none hp (by rw [hstage]; rfl) (by rw [hstage]; rfl)
  have hmoves : LeaderMoves K s s' p l (.leading l') :=
    { leads := hp
      stays := by
        rintro _ ⟨⟩
        rfl
      leaves := fun hne => absurd rfl (hne l')
      phase := rfl
      fresh := rfl
      others := fun c hc => by
        change (s.setCall l.call _).call c = _
        rw [call_setCall, if_neg hc]
      outcome := by
        rw [hnone]
        exact fun _ ho => by cases ho
      keys := fun _ _ _ => Iff.rfl
      key := fun key => by
        refine (h.key_iff hp key).trans ⟨fun hk => ⟨l', rfl, hk⟩, ?_⟩
        rintro ⟨_, ⟨⟩, hk⟩
        exact hk
      settled := by
        rintro _ ⟨⟩
        simp [hself, l', Leader.HasSettled]
      unfinished := fun hn => by simp [hself] at hn
      parked := fun _ _ => .inr (hled _ rfl)
      pending := fun q t hq => .inr (hled _ (hwaits.2 q t hq).2) }
  exact hmoves.inv h

/-- A leader moves on within its flight, without touching the slot or the
table. What it no longer has ahead of it, nobody waits for. -/
theorem Inv.restage (h : Inv K s) {l' : Leader W} (hp : s.phase p = .leading l)
    (hkey : l'.key = l.key) (hcall : l'.call = l.call)
    (hdropping : l'.dropping = l.dropping)
    (hl' : l'.HasSettled) (hsettled : (s.call l.call).outcome ≠ none)
    (hparked : ∀ q, s.phase q ≠ .parked l.call)
    (hpending : ∀ q t, s.phase q = .pending l.call t → Wakes K l'.stage.toWake t) :
    Inv K (s.move p (.leading l')) := by
  have hmoves : LeaderMoves K s (s.move p (.leading l')) p l (.leading l') :=
    { leads := hp
      stays := by
        rintro _ ⟨⟩
        exact hcall
      leaves := fun hne => absurd rfl (hne l')
      phase := rfl
      fresh := rfl
      others := fun _ _ => rfl
      outcome := fun _ ho => ho
      keys := fun _ _ _ => Iff.rfl
      key := fun key => by
        refine (h.key_iff hp key).trans ⟨fun hk => ?_, ?_⟩
        · exact ⟨l', rfl, by rw [hkey, hdropping]; exact hk⟩
        · rintro ⟨_, ⟨⟩, hk⟩
          rwa [hkey, hdropping] at hk
      settled := by
        rintro _ ⟨⟩
        exact iff_of_true hl' hsettled
      unfinished := fun hn => absurd hn hsettled
      parked := fun q hq => absurd hq (hparked q)
      pending := fun q t hq => .inr
        ⟨p, l', by rw [phase_move, if_pos rfl], hcall, hpending q t hq⟩ }
  exact hmoves.inv h

/-- A leader whose drop has nothing left to do, and for whom nobody waits,
leaves. -/
theorem Inv.leave (h : Inv K s) (hp : s.phase p = .leading l)
    (hdropping : l.dropping = true) (hsettled : (s.call l.call).outcome ≠ none)
    (hparked : ∀ q, s.phase q ≠ .parked l.call)
    (hpending : ∀ q t, s.phase q ≠ .pending l.call t) :
    Inv K (s.move p .gone) := by
  have hmoves : LeaderMoves K s (s.move p .gone) p l .gone :=
    { leads := hp
      stays := fun _ hx => by cases hx
      leaves := fun _ => rfl
      phase := rfl
      fresh := rfl
      others := fun _ _ => rfl
      outcome := fun _ ho => ho
      keys := fun _ _ _ => Iff.rfl
      key := fun key => by
        refine (h.key_iff hp key).trans ⟨fun hk => ?_, ?_⟩
        · rw [hdropping] at hk
          cases hk.2
        · rintro ⟨_, hx, _⟩
          cases hx
      settled := fun _ hx => by cases hx
      unfinished := fun hn => absurd hn hsettled
      parked := fun q hq => absurd hq (hparked q)
      pending := fun q t hq => absurd hq (hpending q t) }
  exact hmoves.inv h

/-- Drop removes the leader's own entry from the table. -/
theorem Inv.deregister (h : Inv K s) (hp : s.phase p = .leading l)
    (hdropping : l.dropping = false) :
    Inv K ((s.setKey l.key none).move p (.leading { l with dropping := true })) := by
  set l' : Leader W := { l with dropping := true } with hl'
  set s' := (s.setKey l.key none).move p (.leading l')
  have hentry : s.calls l.key = some l.call := (h.key_iff hp _).mpr ⟨rfl, hdropping⟩
  have hcalls : ∀ key, s'.calls key = if key = l.key then none else s.calls key :=
    fun key => calls_setKey s l.key key none
  have hled : ∀ P : Leader W → Prop, P l' → s'.Led l.call P := fun P hP =>
    ⟨p, l', by rw [phase_move, if_pos rfl], rfl, hP⟩
  have hmoves : LeaderMoves K s s' p l (.leading l') :=
    { leads := hp
      stays := by
        rintro _ ⟨⟩
        rfl
      leaves := fun hne => absurd rfl (hne l')
      phase := rfl
      fresh := rfl
      others := fun _ _ => rfl
      outcome := fun _ ho => ho
      keys := fun key c hc => by
        rw [hcalls]
        by_cases hk : key = l.key
        · rw [if_pos hk, hk, hentry]
          simp [Ne.symm hc]
        · rw [if_neg hk]
      key := fun key => by
        rw [hcalls]
        constructor
        · intro hk
          split at hk
          · cases hk
          · rename_i hne
            exact absurd ((h.key_iff hp key).mp hk).1.symm hne
        · rintro ⟨_, ⟨⟩, _, hk⟩
          simp [hl'] at hk
      settled := by
        rintro _ ⟨⟩
        exact h.settled p l hp
      unfinished := fun _ => ⟨l', rfl⟩
      parked := fun q hq => (h.parked_cases hp hq).imp_right
        (hled fun l => l.stage.notifies = true)
      pending := fun q t hq => (h.pending_cases hp hq).imp_right
        (hled fun l => Wakes K l.stage.toWake t) }
  exact hmoves.inv h

/-- The end of a `publish` that finds nobody waiting. -/
theorem Inv.afterPublish (h : Inv K s) (hp : s.phase p = .leading l)
    (hsettled : (s.call l.call).outcome ≠ none)
    (hparked : ∀ q, s.phase q ≠ .parked l.call)
    (hpending : ∀ q t, s.phase q ≠ .pending l.call t) :
    Inv K (s.move p l.afterPublish) := by
  unfold Leader.afterPublish
  split
  · rename_i hd
    exact h.leave hp hd hsettled hparked hpending
  · exact h.restage hp rfl rfl rfl (.inl rfl) hsettled hparked
      fun q t hq => absurd hq (hpending q t)

end Leaders

/-- Nobody waits for a call whose leader is done publishing. -/
theorem Inv.nobody_waits (h : Inv K s) {p : ι} {l : Leader W}
    (hp : s.phase p = .leading l) (hstage : l.stage.toWake = [])
    (hnot : l.stage.notifies = false)
    (hsettled : (s.call l.call).outcome ≠ none) :
    (∀ q, s.phase q ≠ .parked l.call) ∧ ∀ q t, s.phase q ≠ .pending l.call t := by
  obtain ⟨hparked, hpending⟩ := h.waits_none hp hstage hnot
  exact ⟨fun q hq => hsettled (hparked q hq),
    fun q t hq => hsettled (hpending q t hq).1⟩

/-- After `notify_all` no thread is parked; the wakers are still to be woken. -/
theorem Inv.notify [DecidableEq ι] [DecidableEq τ] (h : Inv K s) {p : ι}
    {l : Leader W} {wakers : List W} (hp : s.phase p = .leading l)
    (hstage : l.stage = .notifying wakers) :
    Inv K ((s.unpark l.call).move p
      (.leading { l with stage := .waking wakers })) := by
  have hsettled := (h.settled p l hp).mp (.inr (by simp [hstage]))
  have hun := h.unpark l.call
  have hp' := (phase_unpark_leading s (c := l.call)).mpr hp
  refine hun.restage hp' rfl rfl rfl (.inr (by simp)) hsettled
    (fun q hq => ?_) fun q t hq => ?_
  · rcases phase_unpark_cases s hq with ⟨_, hne⟩ | ⟨_, hx⟩
    · exact hne rfl
    · cases hx
  · rcases hun.pending_cases hp' hq with ⟨hnone, _⟩ | hwakes
    · exact absurd hnone hsettled
    · rwa [hstage] at hwakes

/-- The leader wakes the next of its wakers. -/
theorem Inv.wake [DecidableEq ι] [DecidableEq τ] (h : Inv K s) {p : ι}
    {l : Leader W} {waker : W} {wakers : List W} (hp : s.phase p = .leading l)
    (hstage : l.stage = .waking (waker :: wakers)) :
    Inv K ((s.rouse (K.task waker)).move p
      (.leading { l with stage := .waking wakers })) := by
  have hsettled := (h.settled p l hp).mp (.inr (by simp [hstage]))
  have hro := h.rouse (K.task waker)
  have hp' := (phase_rouse_leading s (t := K.task waker)).mpr hp
  refine hro.restage hp' rfl rfl rfl (.inr (by simp)) hsettled
    (fun q hq => ?_) fun q t hq => ?_
  · rcases hro.parked_cases hp' hq with hnone | hnotifies
    · exact hsettled hnone
    · simp [hstage, Stage.notifies] at hnotifies
  · rcases hro.pending_cases hp' hq with ⟨hnone, _⟩ | hwakes
    · exact absurd hnone hsettled
    · rw [hstage] at hwakes
      obtain ⟨w, hmem, ht⟩ := hwakes
      rcases List.mem_cons.mp hmem with rfl | hmem
      · -- the task that was just roused is pending no more
        rcases phase_rouse_cases s hq with ⟨_, hne⟩ | ⟨_, _, hx⟩
        · exact absurd (by rw [ht]) (hne l.call)
        · cases hx
      · exact ⟨w, hmem, ht⟩

theorem awaits_eq {x : Phase ε π W τ} {c : ℕ} {roused : Bool}
    (h : x.awaits = some (c, roused)) :
    (x = .polling c ∧ roused = true) ∨ ∃ t, x = .pending c t ∧ roused = false := by
  cases x with
  | polling c' =>
      obtain ⟨rfl, rfl⟩ := by simpa [Phase.awaits] using h
      exact .inl ⟨rfl, rfl⟩
  | pending c' t =>
      obtain ⟨rfl, rfl⟩ := by simpa [Phase.awaits] using h
      exact .inr ⟨t, rfl, rfl⟩
  | _ => cases h

/-- A future that is waiting leads nothing, and its call is one of those
installed. -/
theorem Inv.awaits (h : Inv K s) {p : ι} {c : ℕ} {roused : Bool}
    (hp : (s.phase p).awaits = some (c, roused)) :
    (∀ l, s.phase p ≠ .leading l) ∧ c < s.fresh := by
  have hsound := h.sound p
  rcases awaits_eq hp with ⟨hp, _⟩ | ⟨t, hp, _⟩ <;> rw [hp] at hsound
  · exact ⟨by simp [hp], hsound⟩
  · exact ⟨by simp [hp], hsound.1⟩

theorem Inv.next [DecidableEq ι] [DecidableEq τ] {e : Event ι ε π W}
    (h : Inv K s) (he : Enabled s e) : Inv K (Flight.next K s e) := by
  cases e with
  | join p key c async =>
      obtain ⟨hp, hkey⟩ := he
      obtain ⟨q, l, hq, hc, _⟩ := (h.registered key c).mp hkey
      have hlt : c < s.fresh := hc ▸ h.call_lt hq
      cases async with
      | true => exact h.follow (by simp [hp]) (by simp) hlt
      | false => exact h.follow (by simp [hp]) (by simp) hlt
  | lead p key => exact h.lead he.1 he.2
  | settle p l outcome =>
      obtain ⟨hp, hstage, hnone, _⟩ := he
      exact h.settle hp hstage hnone outcome
  | ignore p l =>
      obtain ⟨hp, hstage, hsettled, _⟩ := he
      obtain ⟨hparked, hpending⟩ := h.nobody_waits hp (by rw [hstage]; rfl)
        (by rw [hstage]; rfl) hsettled
      exact h.afterPublish hp hsettled hparked hpending
  | notify p l wakers => exact h.notify he.1 he.2
  | wake p l waker wakers => exact h.wake he.1 he.2
  | woken p l =>
      obtain ⟨hp, hstage⟩ := he
      have hsettled := (h.settled p l hp).mp (.inr (by simp [hstage]))
      obtain ⟨hparked, hpending⟩ := h.nobody_waits hp (by rw [hstage]; rfl)
        (by rw [hstage]; rfl) hsettled
      exact h.afterPublish hp hsettled hparked hpending
  | deregister p l => exact h.deregister he.1 he.2.2
  | finish p l =>
      obtain ⟨hp, hstage, hdropping, hpublished⟩ := he
      have hsettled := (h.settled p l hp).mp (.inl hpublished)
      obtain ⟨hparked, hpending⟩ := h.nobody_waits hp (by rw [hstage]; rfl)
        (by rw [hstage]; rfl) hsettled
      exact h.leave hp hdropping hsettled hparked hpending
  | check p c =>
      have hp : s.phase p = .checking c := he
      have hlt : c < s.fresh := by
        have hsound := h.sound p
        rwa [hp] at hsound
      rw [Flight.next]
      cases ho : (s.call c).outcome with
      | none => exact h.follow (by simp [hp]) (by simp) ⟨hlt, .inl ho⟩
      | some o => exact h.follow (by simp [hp]) (by simp) ⟨hlt, ho⟩
  | spurious p c =>
      have hp : s.phase p = .parked c := he
      have hsound := h.sound p
      rw [hp] at hsound
      exact h.follow (by simp [hp]) (by simp) hsound.1
  | poll p c roused waker =>
      obtain ⟨hp, hlt⟩ := h.awaits he
      rw [Flight.next]
      cases ho : (s.call c).outcome with
      | some o => exact h.follow hp (by simp) ⟨hlt, ho⟩
      | none =>
          refine (h.park c waker).follow hp (by simp) ⟨hlt, .inl ?_⟩
          rw [call_setCall, if_pos rfl, outcome_park]
          exact ⟨ho, (wakes_park _ waker).1⟩
  | cancel p c roused => exact h.follow (h.awaits he).1 (by simp) trivial

/-! ## Runs -/

/-- Whether the event sets the slot of the call. -/
def Event.settles (c : ℕ) : Event ι ε π W → Bool
  | .settle _ l _ => l.call == c
  | _ => false

/-- A caller leads the key's flight and its drop has not deregistered it. -/
def State.LiveLeader (s : State ι ε π W τ) (key : Key) (c : ℕ) (p : ι) : Prop :=
  ∃ l, s.phase p = .leading l ∧ l.call = c ∧ l.key = key ∧ l.dropping = false

/-- The call was installed, and the drop of its leader is over. -/
def State.Finished (s : State ι ε π W τ) (c : ℕ) : Prop :=
  c < s.fresh ∧ ∀ p l, s.phase p = .leading l → l.call ≠ c

section Runs

variable [DecidableEq ι] [DecidableEq τ]

/-- Only `settle` sets a slot, and only one that is not set; a call that is
installed starts with none. -/
theorem outcome_next {e : Event ι ε π W} (he : Enabled s e) (c : ℕ) :
    (e.settles c = true ∧ (s.call c).outcome = none) ∨
    (e.settles c = false ∧
      (c = s.fresh ∨ ((next K s e).call c).outcome = (s.call c).outcome)) := by
  cases e with
  | settle p l outcome =>
      by_cases hc : l.call = c
      · exact .inl ⟨by simp [Event.settles, hc], hc ▸ he.2.2.1⟩
      · refine .inr ⟨by simp [Event.settles, hc], .inr ?_⟩
        change ((s.setCall l.call _).call c).outcome = _
        rw [call_setCall, if_neg (Ne.symm hc)]
  | lead p key =>
      refine .inr ⟨rfl, ?_⟩
      by_cases hc : c = s.fresh
      · exact .inl hc
      · refine .inr ?_
        change ((s.setCall s.fresh _).call c).outcome = _
        rw [call_setCall, if_neg hc]
  | poll p c' roused waker =>
      refine .inr ⟨rfl, .inr ?_⟩
      rw [next]
      split
      · rfl
      · change ((s.setCall c' _).call c).outcome = _
        rw [call_setCall]
        split
        · rename_i hc
          rw [outcome_park, hc]
        · rfl
  | _ => exact .inr ⟨rfl, .inr rfl⟩

/-- An outcome that is there after a step was there before, or is what the step
has settled. -/
theorem outcome_of_next {e : Event ι ε π W} {c : ℕ} {o : Outcome ε π}
    (h : ((next K s e).call c).outcome = some o) :
    (∃ p l, e = .settle p l o ∧ l.call = c) ∨ (s.call c).outcome = some o := by
  cases e with
  | settle p l outcome =>
      change ((s.setCall l.call _).call c).outcome = _ at h
      rw [call_setCall] at h
      split at h
      · rename_i hc
        obtain rfl : outcome = o := by simpa using h
        exact .inl ⟨p, l, rfl, hc.symm⟩
      · exact .inr h
  | lead p key =>
      change ((s.setCall s.fresh _).call c).outcome = _ at h
      rw [call_setCall] at h
      split at h
      · cases h
      · exact .inr h
  | poll p c' roused waker =>
      refine .inr ?_
      rw [next] at h
      split at h
      · exact h
      · change ((s.setCall c' _).call c).outcome = _ at h
        rw [call_setCall] at h
        split at h
        · rename_i hc
          rwa [hc, ← outcome_park (K := K) _ waker]
        · exact h
  | _ => exact .inr h

theorem outcome_stays {e : Event ι ε π W} (he : Enabled s e) {c : ℕ}
    {o : Outcome ε π} (ho : (s.call c).outcome = some o) (hc : c < s.fresh) :
    ((next K s e).call c).outcome = some o := by
  rcases outcome_next (K := K) he c with ⟨_, hnone⟩ | ⟨_, heq | hsame⟩
  · cases hnone.symm.trans ho
  · exact absurd heq (Nat.ne_of_lt hc)
  · rw [hsame, ho]

/-- Whoever leads a call after a step led it before, unless it is the call the
step has installed. -/
theorem leader_of_next {e : Event ι ε π W} (he : Enabled s e) {q : ι}
    {l' : Leader W} (h : (next K s e).phase q = .leading l') :
    (∃ l, s.phase q = .leading l ∧ l.call = l'.call) ∨ l'.call = s.fresh := by
  by_cases hq : q = e.caller
  · subst hq
    have hmove : ∀ (t : State ι ε π W τ) (p : ι) x, (t.move p x).phase p = x :=
      fun t p x => by rw [phase_move, if_pos rfl]
    cases e with
    | join p key c async =>
        rw [next, Event.caller, hmove] at h
        cases async <;> cases h
    | lead p key =>
        rw [next, Event.caller, hmove] at h
        exact .inr (by rw [← Phase.leading.inj h])
    | settle p l outcome =>
        rw [next, Event.caller, hmove] at h
        exact .inl ⟨l, he.1, by rw [← Phase.leading.inj h]⟩
    | ignore p l =>
        rw [next, Event.caller, hmove, Leader.afterPublish] at h
        split at h
        · cases h
        · exact .inl ⟨l, he.1, by rw [← Phase.leading.inj h]⟩
    | notify p l wakers =>
        rw [next, Event.caller, hmove] at h
        exact .inl ⟨l, he.1, by rw [← Phase.leading.inj h]⟩
    | wake p l waker wakers =>
        rw [next, Event.caller, hmove] at h
        exact .inl ⟨l, he.1, by rw [← Phase.leading.inj h]⟩
    | woken p l =>
        rw [next, Event.caller, hmove, Leader.afterPublish] at h
        split at h
        · cases h
        · exact .inl ⟨l, he.1, by rw [← Phase.leading.inj h]⟩
    | deregister p l =>
        rw [next, Event.caller, hmove] at h
        exact .inl ⟨l, he.1, by rw [← Phase.leading.inj h]⟩
    | finish p l =>
        rw [next, Event.caller, hmove] at h
        cases h
    | check p c =>
        rw [next, Event.caller, hmove] at h
        split at h <;> cases h
    | spurious p c =>
        rw [next, Event.caller, hmove] at h
        cases h
    | poll p c roused waker =>
        rw [next, Event.caller] at h
        split at h <;> rw [hmove] at h <;> cases h
    | cancel p c roused =>
        rw [next, Event.caller, hmove] at h
        cases h
  · rcases phase_next_of_ne (K := K) e hq with heq | ⟨c, _, hc⟩
    · exact .inl ⟨l', by rw [← heq, h], rfl⟩
    · rw [h] at hc
      cases hc

theorem fresh_le_next (e : Event ι ε π W) : s.fresh ≤ (next K s e).fresh := by
  cases e with
  | lead p key => exact Nat.le_succ _
  | poll p c roused waker =>
      rw [next]
      split <;> exact le_rfl
  | _ => exact le_rfl

theorem reachable_inv (hs : (machine K).Reachable s) : Inv K s := by
  refine hs.invariant ?_ ?_
  · rintro _ rfl
    exact inv_empty K
  · rintro t e _ hinv ⟨he, rfl⟩
    exact hinv.next he

/-- The slot of a call is set at most once, and not at all while it is empty. -/
theorem settles_le_one {es : List (Event ι ε π W)} (hr : (machine K).Run es s)
    (c : ℕ) : es.countP (Event.settles c) ≤ 1 ∧
      ((s.call c).outcome = none ∨ s.fresh ≤ c → es.countP (Event.settles c) = 0) := by
  refine hr.invariant (I := fun es s => es.countP (Event.settles c) ≤ 1 ∧
    ((s.call c).outcome = none ∨ s.fresh ≤ c →
      es.countP (Event.settles c) = 0)) ?_ ?_
  · intro t _
    exact ⟨Nat.zero_le _, fun _ => rfl⟩
  · rintro es e t _ hrun ⟨hle, hzero⟩ ⟨he, rfl⟩
    have hinv := reachable_inv ⟨es, hrun⟩
    rw [List.countP_cons]
    rcases outcome_next (K := K) he c with ⟨hsettles, hnone⟩ | ⟨hnot, hsame⟩
    · have hcount := hzero (.inl hnone)
      refine ⟨by simp [hsettles, hcount], fun hafter => ?_⟩
      cases e with
      | settle p l outcome =>
          obtain rfl : l.call = c := by simpa [Event.settles] using hsettles
          rcases hafter with hafter | hafter
          · change ((t.setCall l.call _).call l.call).outcome = none at hafter
            rw [call_setCall, if_pos rfl] at hafter
            cases hafter
          · exact absurd (hinv.call_lt he.1) (Nat.not_lt.mpr hafter)
      | _ => cases hsettles
    · simp only [hnot, if_neg Bool.false_ne_true, Nat.add_zero]
      refine ⟨hle, fun hafter => hzero ?_⟩
      rcases hsame with rfl | hsame
      · exact .inr le_rfl
      · rcases hafter with hafter | hafter
        · exact .inl (hsame ▸ hafter)
        · exact .inr ((fresh_le_next e).trans hafter)

/-- In every run of any number of callers: a key has at most one live leader,
and is in the table, under that leader's call, exactly while it has one; a slot
is set at most once; a follower that has returned has returned its call's
outcome; and once a leader's drop is over the outcome is set and nobody is
parked or pending on the call. -/
theorem single_flight {es : List (Event ι ε π W)}
    (hr : (machine K).Run es s) :
    (∀ key c c' p q, s.LiveLeader key c p → s.LiveLeader key c' q →
      p = q ∧ c = c') ∧
    (∀ key c, s.calls key = some c ↔ ∃ p, s.LiveLeader key c p) ∧
    (∀ c, es.countP (Event.settles c) ≤ 1) ∧
    (∀ q c o, s.phase q = .returned c o → (s.call c).outcome = some o) ∧
    (∀ c, s.Finished c → (s.call c).outcome ≠ none ∧
      ∀ q, s.phase q ≠ .parked c ∧ ∀ t, s.phase q ≠ .pending c t) := by
  have h : Inv K s := reachable_inv ⟨es, hr⟩
  refine ⟨?_, h.registered, fun c => (settles_le_one hr c).1, ?_, ?_⟩
  · intro key c c' p q hp hq
    have hc := (h.registered key c).mpr ⟨p, hp⟩
    rw [(h.registered key c').mpr ⟨q, hq⟩, Option.some.injEq] at hc
    obtain ⟨l, hl, hcall, _⟩ := hp
    obtain ⟨l', hl', hcall', _⟩ := hq
    exact ⟨h.unique p q l l' hl hl' (by rw [hcall, hcall', hc]), hc.symm⟩
  · intro q c o hq
    have hsound := h.sound q
    rw [hq] at hsound
    exact hsound.2
  · rintro c ⟨hlt, hover⟩
    have hnobody : ∀ P, ¬ s.Led c P := fun P ⟨p, l, hp, hc, _⟩ => hover p l hp hc
    have hsettled : (s.call c).outcome ≠ none := fun hnone =>
      hnobody _ (h.unfinished c hlt hnone)
    refine ⟨hsettled, fun q => ⟨fun hq => ?_, fun t hq => ?_⟩⟩
    · have hsound := h.sound q
      rw [hq] at hsound
      exact hsound.2.elim hsettled (hnobody _)
    · have hsound := h.sound q
      rw [hq] at hsound
      exact hsound.2.elim (fun hw => hsettled hw.1) (hnobody _)

/-- A thread follows and parks, a task follows and is pending; the leader
panics, and both are released. -/
def abandoned : List (Event ℕ Empty Empty ℕ) :=
  let l : Leader ℕ := ⟨"k", 0, false, .running, false⟩
  [.lead 0 "k", .join 1 "k" 0 false, .check 1 0, .join 2 "k" 0 true, .poll 2 0 true 5,
    .deregister 0 l, .settle 0 { l with dropping := true } .abandoned,
    .notify 0 { l with dropping := true, stage := .notifying [5] } [5],
    .wake 0 { l with dropping := true, stage := .waking [5] } 5 [],
    .woken 0 { l with dropping := true, stage := .waking [] }]

theorem single_flight_abandoned :
    let K : Wakers ℕ ℕ := ⟨fun w => w, fun a b => a == b, by simp⟩
    let s := abandoned.foldl (next K) .empty
    s.Finished 0 ∧ s.phase 1 = .checking 0 ∧ s.phase 2 = .polling 0 ∧
      (s.call 0).outcome ≠ none := by
  intro K s
  have hs : (machine K).Reachable s :=
    Machine.Reachable.legal (.start rfl) (by decide)
  have hfinished : s.Finished 0 := by
    refine ⟨by decide, fun p l hp => ?_⟩
    match p with
    | 0 => cases (by decide : s.phase 0 = .gone).symm.trans hp
    | 1 => cases (by decide : s.phase 1 = .checking 0).symm.trans hp
    | 2 => cases (by decide : s.phase 2 = .polling 0).symm.trans hp
    | n + 3 => cases (rfl : s.phase (n + 3) = .idle).symm.trans hp
  obtain ⟨es, hr⟩ := hs
  exact ⟨hfinished, by decide, by decide,
    ((single_flight hr).2.2.2.2 0 hfinished).1⟩

end Runs

end Flight

end Memo

end RustSak
