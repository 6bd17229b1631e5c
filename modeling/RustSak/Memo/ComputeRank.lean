import RustSak.Memo.ComputeEnds

/-!
# How much is left to do

The rank of a state: what each caller still has to do, by where it stands, and a
step for every waker in a call's list. While nobody is cancelled, a step that is
due lowers the rank and any other raises it by one at most.
-/

namespace RustSak

namespace Memo

open Library

namespace Flight

variable {ι ε π W τ : Type}

/-- What a leader has ahead of it, the wakers it is to wake included. -/
def Leader.left (l : Leader W) : ℕ :=
  match l.stage with
  | .notifying wakers => 26 + wakers.length
  | .waking wakers => 25 + wakers.length
  | .running => if l.dropping then 23 else if l.published then 24 else 27

/-- The call has its outcome. -/
def State.isSet (s : State ι ε π W τ) (c : ℕ) : Bool :=
  (s.call c).outcome.isSome

/-- What a caller has ahead of it in the flight, where `set` are the calls that
have their outcome. -/
def Phase.left (set : ℕ → Bool) : Phase ε π W τ → ℕ
  | .leading l => l.left
  | .checking c => if set c then 1 else 3
  | .parked _ => 2
  | .polling c => if set c then 1 else 4
  | .pending _ _ => 2
  | _ => 0

def State.left (s : State ι ε π W τ) (p : ι) : ℕ := (s.phase p).left s.isSet

/-- The wakers in the lists of all calls. -/
def State.wakers (s : State ι ε π W τ) : ℕ :=
  ∑ c ∈ Finset.range s.fresh, (s.call c).wakers.length

variable {K : Wakers W τ} {s : State ι ε π W τ}

theorem wakers_setCall {c : ℕ} (hc : c < s.fresh) (x : CallState ε π W) :
    (s.setCall c x).wakers + (s.call c).wakers.length =
      s.wakers + x.wakers.length := by
  have hmem : c ∈ Finset.range s.fresh := Finset.mem_range.mpr hc
  have hself : ((s.setCall c x).call c) = x := by
    rw [call_setCall, if_pos rfl]
  have hrest : ∑ c' ∈ (Finset.range s.fresh).erase c,
        ((s.setCall c x).call c').wakers.length =
      ∑ c' ∈ (Finset.range s.fresh).erase c, (s.call c').wakers.length :=
    Finset.sum_congr rfl fun c' hc' => by
      rw [call_setCall, if_neg (Finset.ne_of_mem_erase hc')]
  have hnew : (s.setCall c x).wakers = ∑ c' ∈ Finset.range s.fresh,
      ((s.setCall c x).call c').wakers.length := rfl
  rw [hnew, State.wakers, ← Finset.add_sum_erase _ _ hmem, hrest, hself,
    ← Finset.add_sum_erase _ (fun c' => (s.call c').wakers.length) hmem]
  omega

theorem length_park_le (x : CallState ε π W) (w : W) :
    (x.park K w).wakers.length ≤ x.wakers.length + 1 := by
  unfold CallState.park
  split
  · exact Nat.le_succ _
  · simp

theorem Phase.left_mono {x : Phase ε π W τ} {set set' : ℕ → Bool}
    (h : ∀ c, x.waitsFor = some c → set c = true → set' c = true) :
    x.left set' ≤ x.left set := by
  cases x with
  | checking c =>
      have hc := h c rfl
      cases hs : set c with
      | true => simp [Phase.left, hs, hc hs]
      | false =>
          simp only [Phase.left, hs, Bool.false_eq_true, if_false]
          split <;> omega
  | polling c =>
      have hc := h c rfl
      cases hs : set c with
      | true => simp [Phase.left, hs, hc hs]
      | false =>
          simp only [Phase.left, hs, Bool.false_eq_true, if_false]
          split <;> omega
  | _ => exact le_rfl

/-- A caller that waits waits for a call that was installed. -/
theorem Inv.waitsFor_lt (h : Inv K s) {q : ι} {c : ℕ}
    (hq : (s.phase q).waitsFor = some c) : c < s.fresh := by
  have hsound := h.sound q
  cases hx : s.phase q with
  | checking c' => rw [hx] at hq hsound; exact Option.some.inj hq ▸ hsound
  | parked c' => rw [hx] at hq hsound; exact Option.some.inj hq ▸ hsound.1
  | polling c' => rw [hx] at hq hsound; exact Option.some.inj hq ▸ hsound
  | pending c' t => rw [hx] at hq hsound; exact Option.some.inj hq ▸ hsound.1
  | idle => rw [hx] at hq; cases hq
  | leading l => rw [hx] at hq; cases hq
  | returned c' o => rw [hx] at hq; cases hq
  | gone => rw [hx] at hq; cases hq

variable [DecidableEq ι]

theorem left_move_self (p : ι) (x : Phase ε π W τ) :
    (s.move p x).left p = x.left s.isSet := by
  unfold State.left
  rw [phase_move, if_pos rfl]
  rfl

/-- A caller moves while outcomes and lists stay as they are. -/
theorem left_move_le {t : State ι ε π W τ} {p : ι} {x y : Phase ε π W τ} {a b : ℕ}
    (hset : t.isSet = s.isSet) (hwakers : t.wakers = s.wakers)
    (hp : s.phase p = y) (hle : x.left s.isSet + a ≤ y.left s.isSet + b) :
    (t.move p x).left p + (t.move p x).wakers + a ≤ s.left p + s.wakers + b := by
  have hleft : s.left p = y.left s.isSet := by rw [State.left, hp]
  have hmove : (t.move p x).wakers = t.wakers := rfl
  rw [left_move_self, hmove, hset, hwakers, hleft]
  omega

variable [DecidableEq τ]

theorem isSet_next {e : Event ι ε π W} (he : Enabled s e) {c : ℕ}
    (hc : c < s.fresh) (hset : s.isSet c = true) :
    (next K s e).isSet c = true := by
  obtain ⟨o, ho⟩ := Option.isSome_iff_exists.mp hset
  exact Option.isSome_iff_exists.mpr ⟨o, outcome_stays he ho hc⟩

/-- A step leaves the others no more to do than they had, if those it wakes have
an outcome to find. -/
theorem left_next_of_ne (h : Inv K s) {e : Event ι ε π W} (he : Enabled s e)
    (hwake : ∀ p l w ws, e = .wake p l w ws → ∀ q c t, s.phase q = .pending c t →
      s.isSet c = true) {q : ι} (hq : q ≠ e.caller) :
    (next K s e).left q ≤ s.left q := by
  have hstays : ∀ c, (s.phase q).waitsFor = some c → s.isSet c = true →
      (next K s e).isSet c = true := fun c hc =>
    isSet_next he (h.waitsFor_lt hc)
  have hsame : (next K s e).phase q = s.phase q → (next K s e).left q ≤ s.left q := by
    intro heq
    rw [State.left, heq]
    exact Phase.left_mono hstays
  have hmove : ∀ (t : State ι ε π W τ) (p : ι) x, q ≠ p →
      (t.move p x).phase q = t.phase q := fun t p x hne => by
    rw [phase_move, if_neg hne]
  cases e with
  | notify p l wakers =>
      have hset : s.isSet l.call = true := by
        have hsettled := (h.settled p l he.1).mp (.inr (by simp [he.2]))
        exact Option.isSome_iff_ne_none.mpr hsettled
      have hphase : (next K s (.notify p l wakers)).phase q =
          (s.unpark l.call).phase q := hmove _ p _ hq
      rcases phase_unpark_cases (c := l.call) (q := q) s rfl with
        ⟨heq, _⟩ | ⟨heq, hx⟩
      · exact hsame (hphase.trans heq.symm)
      · have hset' := isSet_next (K := K) he (h.call_lt he.1) hset
        rw [State.left, hphase, hx, State.left, heq, Phase.left, hset']
        exact Nat.le_succ _
  | wake p l waker wakers =>
      have hphase : (next K s (.wake p l waker wakers)).phase q =
          (s.rouse (K.task waker)).phase q := hmove _ p _ hq
      rcases phase_rouse_cases (t := K.task waker) (q := q) s rfl with
        ⟨heq, _⟩ | ⟨c, heq, hx⟩
      · exact hsame (hphase.trans heq.symm)
      · have hset := hwake p l waker wakers rfl q c _ heq
        have hset' := isSet_next (K := K) he (h.waitsFor_lt (by rw [heq]; rfl)) hset
        rw [State.left, hphase, hx, State.left, heq, Phase.left, hset']
        exact Nat.le_succ _
  | poll p c roused waker =>
      refine hsame ?_
      rw [next]
      split <;> exact hmove _ p _ hq
  | _ => exact hsame (hmove _ _ _ hq)

/-- Neither a wakeup for no reason nor a poll nobody was woken for. -/
def Event.due : Event ι ε π W → Bool
  | .spurious .. => false
  | .poll _ _ roused _ => roused
  | _ => true

/-- A leader publishes once, before its drop, and drops when it has. -/
def Event.Orderly : Event ι ε π W → Prop
  | .settle _ l _ => l.dropping = false ∧ l.published = false
  | .ignore _ l => l.dropping = false ∧ l.published = false
  | .deregister _ l => l.published = true
  | .join .. => False
  | .lead .. => False
  | .cancel .. => False
  | _ => True

omit [DecidableEq ι] [DecidableEq τ] in
theorem left_afterPublish_le (l : Leader W) (set : ℕ → Bool) :
    (l.afterPublish : Phase ε π W τ).left set ≤ 24 := by
  unfold Leader.afterPublish
  split
  · exact Nat.zero_le _
  · rename_i hd
    simp [Phase.left, Leader.left, hd]

/-- The one who takes a step has less to do after it, if the step was due. -/
theorem left_next_caller (h : Inv K s) {e : Event ι ε π W} (he : Enabled s e)
    (ho : e.Orderly) :
    (next K s e).left e.caller + (next K s e).wakers + (if e.due then 1 else 0) ≤
      s.left e.caller + s.wakers + (if e.due then 0 else 1) := by
  have hleft : ∀ {t : State ι ε π W τ} {p : ι} {x : Phase ε π W τ},
      t.phase p = x → t.left p = x.left t.isSet := by
    rintro t p _ rfl
    rfl
  cases e with
  | settle p l outcome =>
      obtain ⟨hp, hstage, _, _⟩ := he
      have hw := wakers_setCall (h.call_lt hp) ⟨some outcome, []⟩
      rw [Event.caller, hleft hp, next, left_move_self]
      change _ + (s.setCall l.call ⟨some outcome, []⟩).wakers + 1 ≤ _ + _ + 0
      simp only [Phase.left, Leader.left, hstage, ho.1, ho.2, Bool.false_eq_true,
        if_false]
      simp only [List.length_nil] at hw
      omega
  | ignore p l =>
      obtain ⟨hp, hstage, _, _⟩ := he
      have hle := left_afterPublish_le (ε := ε) (π := π) (τ := τ) l s.isSet
      have hl : l.left = 27 := by simp [Leader.left, hstage, ho.1, ho.2]
      refine left_move_le rfl rfl hp ?_
      change _ + 1 ≤ l.left + 0
      omega
  | notify p l wakers =>
      refine left_move_le rfl rfl he.1 ?_
      simp only [Phase.left, Leader.left, he.2]
      change _ + 1 ≤ _ + 0
      omega
  | wake p l waker wakers =>
      refine left_move_le rfl rfl he.1 ?_
      simp only [Phase.left, Leader.left, he.2, List.length_cons]
      change _ + 1 ≤ _ + 0
      omega
  | woken p l =>
      have hle := left_afterPublish_le (ε := ε) (π := π) (τ := τ) l s.isSet
      have hl : l.left = 25 := by simp [Leader.left, he.2]
      refine left_move_le rfl rfl he.1 ?_
      change _ + 1 ≤ l.left + 0
      omega
  | deregister p l =>
      obtain ⟨hp, hstage, hd⟩ := he
      have hpublished : l.published = true := ho
      have hl : l.left = 24 := by simp [Leader.left, hstage, hd, hpublished]
      have hl' : ({ l with dropping := true } : Leader W).left = 23 := by
        simp [Leader.left, hstage]
      refine left_move_le rfl rfl hp ?_
      change ({ l with dropping := true } : Leader W).left + 1 ≤ l.left + 0
      omega
  | finish p l =>
      obtain ⟨hp, hstage, hd, _⟩ := he
      have hl : l.left = 23 := by simp [Leader.left, hstage, hd]
      refine left_move_le rfl rfl hp ?_
      change 0 + 1 ≤ l.left + 0
      omega
  | check p c =>
      refine left_move_le rfl rfl he ?_
      cases hc : (s.call c).outcome with
      | none =>
          have hset : s.isSet c = false := by rw [State.isSet, hc]; rfl
          change 2 + 1 ≤ (if s.isSet c then 1 else 3) + 0
          rw [hset, if_neg Bool.false_ne_true]
      | some o =>
          have hset : s.isSet c = true := by rw [State.isSet, hc]; rfl
          change 0 + 1 ≤ (if s.isSet c then 1 else 3) + 0
          rw [hset, if_pos rfl]
  | spurious p c =>
      refine left_move_le rfl rfl he ?_
      change (if s.isSet c then 1 else 3) + 0 ≤ 2 + 1
      split <;> omega
  | poll p c roused waker =>
      have hc := (h.awaits he).2
      have hpark := length_park_le (K := K) (s.call c) waker
      have hw := wakers_setCall hc ((s.call c).park K waker)
      rw [Event.caller, next]
      rcases awaits_eq he with ⟨hp, rfl⟩ | ⟨t, hp, rfl⟩
      · cases ho' : (s.call c).outcome with
        | none =>
            rw [hleft hp, left_move_self]
            change _ + (s.setCall c _).wakers + 1 ≤ _ + s.wakers + 0
            simp only [Phase.left, State.isSet, ho', Option.isSome_none,
              Bool.false_eq_true, if_false]
            omega
        | some o =>
            have hset : s.isSet c = true := by rw [State.isSet, ho']; rfl
            rw [hleft hp, left_move_self]
            change 0 + s.wakers + 1 ≤ (if s.isSet c then 1 else 4) + s.wakers + 0
            rw [hset, if_pos rfl]
            omega
      · cases ho' : (s.call c).outcome with
        | none =>
            rw [hleft hp, left_move_self]
            change _ + (s.setCall c _).wakers + 0 ≤ _ + s.wakers + 1
            simp only [Phase.left]
            omega
        | some o =>
            rw [hleft hp, left_move_self]
            change _ + s.wakers + 0 ≤ _ + s.wakers + 1
            simp only [Phase.left]
            omega
  | join p key c async => exact ho.elim
  | lead p key => exact ho.elim
  | cancel p c roused => exact ho.elim

/-- Installing a call adds no waker. -/
theorem wakers_lead (p : ι) (key : Key) :
    (next K s (.lead p key)).wakers = s.wakers := by
  have hcall : ∀ c, c < s.fresh →
      ((next K s (.lead p key)).call c) = s.call c := fun c hc => by
    change (s.setCall s.fresh _).call c = _
    rw [call_setCall, if_neg (Nat.ne_of_lt hc)]
  have hfresh : ((next K s (.lead p key)).call s.fresh).wakers = [] := by
    change ((s.setCall s.fresh _).call s.fresh).wakers = _
    rw [call_setCall, if_pos rfl]
  change ∑ c ∈ Finset.range (s.fresh + 1), _ = _
  rw [Finset.sum_range_succ, hfresh, List.length_nil, Nat.add_zero]
  exact Finset.sum_congr rfl fun c hc => by rw [hcall c (Finset.mem_range.mp hc)]

end Flight

namespace Job

variable {ι ε π V W τ : Type} {J : Job ι ε π V W τ}

/-- What a caller has ahead of it, `n` of it in the flight. -/
def Pc.left (n : ℕ) : Pc ε π V → ℕ
  | start => 40
  | entering => 39
  | waiting => n
  | rechecking => 30
  | computing => 29
  | storing _ _ => 28
  | finishing _ _ => n
  | returned _ => 0
  | aborting _ => n

def State.left (s : State ι ε π V W τ) (p : ι) : ℕ :=
  (s.pc p).left (s.flight.left p)

def State.rank [Fintype ι] (s : State ι ε π V W τ) : ℕ :=
  ∑ p, s.left p + s.flight.wakers

theorem Pc.left_mono (x : Pc ε π V) {m n : ℕ} (h : m ≤ n) : x.left m ≤ x.left n := by
  cases x <;> first | exact h | exact le_rfl

theorem Linked.key {pc : Pc ε π V} {l : Flight.Leader W}
    (h : J.Linked pc (.leading l : Flight.Phase ε π W τ)) : l.key = J.flightKey := by
  by_cases hl : ∃ c, l = ⟨J.flightKey, c, false, .running, false⟩
  · obtain ⟨c, rfl⟩ := hl
    rfl
  · exact (h.leading (not_exists.mp hl)).1

/-- Who waits, finishes or aborts has in the flight what is ahead of it. -/
theorem left_of_leaves {x : Pc ε π V} (h : x.leaves) (n : ℕ) : x.left n = n := by
  cases x with
  | finishing o r => rfl
  | aborting w => rfl
  | _ => cases h

/-- While a leader wakes its waiters, every call has its outcome. -/
theorem isSet_of_waking {s : State ι ε π V W τ} (ht : J.Tied s) (h : s.Unbroken)
    {p : ι} {l : Flight.Leader W} (hp : s.flight.phase p = .leading l)
    (hstage : l.stage ≠ .running) {c : ℕ} (hc : c < s.flight.fresh) :
    s.flight.isSet c = true := by
  by_contra hnot
  have hnone : (s.flight.call c).outcome = none := by
    simpa [Flight.State.isSet] using hnot
  obtain ⟨q, l', hq, rfl, _⟩ := ht.flight.unfinished c hc hnone
  -- both leaders are registered under the key, so they are one
  have hentry : ∀ r m, s.flight.phase r = .leading m →
      (m.dropping = true → m.published = true ∧ m.stage = .running → False) →
      s.flight.calls J.flightKey = some m.call := by
    intro r m hr hno
    have hlinked := ht.linked r
    rw [hr] at hlinked
    refine (ht.flight.key_iff hr _).mpr ⟨hlinked.key, ?_⟩
    by_contra hd
    have hd' : m.dropping = true := by simpa using hd
    have hleaves := hlinked.leaves (.inr (.inr hd'))
    cases hpc : s.pc r with
    | finishing o res => exact hno hd' (hlinked.dropping hpc hd')
    | aborting w =>
        have haborts := (h r).1
        rw [hpc] at haborts
        cases haborts
    | _ => rw [hpc] at hleaves; cases hleaves
  have hl := hentry p l hp fun _ hr => hstage hr.2
  have hl' := hentry q l' hq fun _ hr =>
    (ht.flight.settled q l' hq).mp (.inl hr.1) hnone
  have heq : l.call = l'.call := Option.some.inj (hl.symm.trans hl')
  exact (ht.flight.settled p l hp).mp (.inr hstage) (heq ▸ hnone)

variable [DecidableEq ι] [DecidableEq τ]

omit [DecidableEq ι] [DecidableEq τ] in
/-- A step of the flight that a calm run takes is an orderly one, by a caller
that waits or finishes. -/
theorem orderly_of_allowed {s : State ι ε π V W τ} (ht : J.Tied s)
    (h : s.Unbroken) {f : Flight.Event ι ε π W} (he : Flight.Enabled s.flight f)
    (ha : Allowed s f) :
    f.Orderly ∧ ∀ n, (s.pc f.caller).left n = n := by
  have haborts : ∀ p, ¬ (s.pc p).aborts = true := fun p hp => by
    rw [(h p).1] at hp
    cases hp
  have hpublishes : ∀ {p : ι}, (s.pc p).publishes.isSome = true →
      ∀ n, (s.pc p).left n = n := by
    intro p hp
    obtain ⟨o, ho⟩ := Option.isSome_iff_exists.mp hp
    obtain ⟨r, hr⟩ := publishes_eq ho
    exact left_of_leaves (by rw [hr]; trivial)
  have hleads : ∀ {p : ι} {l : Flight.Leader W}, s.flight.phase p = .leading l →
      (l.stage ≠ .running ∨ l.published = true ∨ l.dropping = true) →
      ∀ n, (s.pc p).left n = n := by
    intro p l hp hl
    have hlinked := ht.linked p
    rw [hp] at hlinked
    exact left_of_leaves (hlinked.leaves hl)
  have hwaits : ∀ {p : ι} {c : ℕ}, (s.flight.phase p).waitsFor = some c →
      ∀ n, (s.pc p).left n = n := by
    intro p c hp n
    rw [(ht.linked p).waiting hp]
    rfl
  cases f with
  | settle p l outcome =>
      rcases ha with ⟨hpub, hd, hp⟩ | ⟨hab, _⟩
      · exact ⟨⟨hd, hp⟩, hpublishes (Option.isSome_iff_exists.mpr ⟨_, hpub⟩)⟩
      · exact absurd hab (haborts p)
  | ignore p l =>
      rcases ha with ⟨hpub, hd, hp⟩ | ⟨hab, _⟩
      · exact ⟨⟨hd, hp⟩, hpublishes hpub⟩
      · exact absurd hab (haborts p)
  | deregister p l =>
      rcases ha with ⟨hpub, hp⟩ | hab
      · exact ⟨hp, hpublishes hpub⟩
      · exact absurd hab (haborts p)
  | notify p l wakers => exact ⟨trivial, hleads he.1 (.inl (by simp [he.2]))⟩
  | wake p l waker wakers => exact ⟨trivial, hleads he.1 (.inl (by simp [he.2]))⟩
  | woken p l => exact ⟨trivial, hleads he.1 (.inl (by simp [he.2]))⟩
  | finish p l => exact ⟨trivial, hleads he.1 (.inr (.inr he.2.2.1))⟩
  | check p c =>
      have hp : s.flight.phase p = .checking c := he
      exact ⟨trivial, hwaits (c := c) (by rw [Flight.Event.caller, hp]; rfl)⟩
  | spurious p c =>
      have hp : s.flight.phase p = .parked c := he
      exact ⟨trivial, hwaits (c := c) (by rw [Flight.Event.caller, hp]; rfl)⟩
  | poll p c roused waker =>
      refine ⟨trivial, hwaits (c := c) ?_⟩
      rcases Flight.awaits_eq he with ⟨hp, _⟩ | ⟨t, hp, _⟩
      · rw [Flight.Event.caller, hp]
        rfl
      · rw [Flight.Event.caller, hp]
        rfl
  | join p key c async => exact ha.elim
  | lead p key => exact ha.elim
  | cancel p c roused => exact ha.elim

/-- The caller that takes the step. -/
def Event.caller : Event ι ε π V W → ι
  | .load p => p
  | .join p _ _ => p
  | .lead p => p
  | .recheck p => p
  | .compute p _ => p
  | .store p _ _ _ => p
  | .flight f => f.caller
  | .cancel p _ _ => p
  | .abort p => p
  | .detached p _ _ => p

theorem left_next_of_ne {s : State ι ε π V W τ} {e : Event ι ε π V W}
    (ht : J.Tied s) (h : s.Unbroken) (he : J.Enabled s e) {q : ι}
    (hq : q ≠ e.caller) : (J.next s e).left q ≤ s.left q := by
  have hmove : ∀ (t : State ι ε π V W τ) (p : ι) x, q ≠ p → t.pc = s.pc →
      t.flight.left q ≤ s.flight.left q → (t.move p x).left q ≤ s.left q := by
    intro t p x hp hpc hle
    rw [State.left, pc_move_of_ne t hp, hpc]
    exact Pc.left_mono _ hle
  cases e with
  | join p c async =>
      exact hmove (s.fly J _) p _ hq (pc_fly J s _)
        (Flight.left_next_of_ne ht.flight he.2 (by simp) hq)
  | lead p =>
      exact hmove (s.fly J _) p _ hq (pc_fly J s _)
        (Flight.left_next_of_ne ht.flight he.2 (by simp) hq)
  | flight f =>
      refine Pc.left_mono _ (Flight.left_next_of_ne ht.flight he.1 ?_ hq)
      rintro p l w ws rfl q' c t hq'
      exact isSet_of_waking ht h he.1.1 (by simp [he.1.2])
        (ht.flight.waitsFor_lt (q := q') (by rw [hq']; rfl))
  | cancel p c roused =>
      exact Pc.left_mono _ (Flight.left_next_of_ne (e := .cancel p c roused)
        ht.flight he (by simp) hq)
  | load p => exact hmove s p _ hq rfl le_rfl
  | recheck p => exact hmove s p _ hq rfl le_rfl
  | compute p c => exact hmove s p _ hq rfl le_rfl
  | store p value bytes accepted =>
      exact hmove (s.write bytes accepted) p _ hq rfl le_rfl
  | abort p => exact hmove s p _ hq rfl le_rfl
  | detached p bytes accepted =>
      exact hmove (s.write bytes accepted) p _ hq rfl le_rfl

theorem left_next_caller {s : State ι ε π V W τ} {e : Event ι ε π V W}
    (ht : J.Tied s) (h : s.Unbroken) (he : J.Enabled s e) (hcalm : Calm s e) :
    (J.next s e).left e.caller + (J.next s e).flight.wakers +
        (if e.due then 1 else 0) ≤
      s.left e.caller + s.flight.wakers + (if e.due then 0 else 1) := by
  have hmove : ∀ (t : State ι ε π V W τ) (p : ι) x,
      (t.move p x).left p = x.left (t.flight.left p) := fun t p x => by
    rw [State.left, pc_move_self]
    rfl
  have hleft : ∀ {p : ι} {x : Pc ε π V}, s.pc p = x →
      s.left p = x.left (s.flight.left p) := by
    rintro p _ rfl
    rfl
  -- a leader that has not published has this much to do in the flight
  have hinside : ∀ {p : ι}, (s.pc p).inside = true → s.flight.left p = 27 := by
    intro p hp
    obtain ⟨c, hc, _⟩ := ht.leader hp
    rw [Flight.State.left, hc]
    rfl
  cases e with
  | load p =>
      rw [Event.caller, hleft he, next, hmove]
      change _ + s.flight.wakers + 1 ≤ 40 + s.flight.wakers + 0
      split <;> simp only [Pc.left] <;> omega
  | join p c async =>
      rw [Event.caller, hleft he.1, next, hmove]
      change (Flight.next J.wakers s.flight (.join p J.flightKey c async)).left p +
        s.flight.wakers + 1 ≤ 39 + s.flight.wakers + 0
      rw [Flight.next, Flight.left_move_self]
      cases async with
      | true =>
          change (if s.flight.isSet c then 1 else 4) + _ + 1 ≤ _
          split <;> omega
      | false =>
          change (if s.flight.isSet c then 1 else 3) + _ + 1 ≤ _
          split <;> omega
  | lead p =>
      rw [Event.caller, hleft he.1, next, hmove]
      have hwakers := Flight.wakers_lead (K := J.wakers) (s := s.flight) p J.flightKey
      change 30 + (Flight.next J.wakers s.flight (.lead p J.flightKey)).wakers + 1 ≤
        39 + s.flight.wakers + 0
      omega
  | recheck p =>
      have hp := hinside (p := p) (by rw [show s.pc p = _ from he]; rfl)
      rw [Event.caller, hleft he, next, hmove]
      change _ + s.flight.wakers + 1 ≤ 30 + s.flight.wakers + 0
      split <;> simp only [Pc.left, hp] <;> omega
  | compute p c =>
      have hp := hinside (p := p) (by rw [he.1]; rfl)
      rw [Event.caller, hleft he.1, next, hmove]
      change _ + s.flight.wakers + 1 ≤ 29 + s.flight.wakers + 0
      cases J.computation p with
      | error err => simp only [computed, Pc.left, hp]; omega
      | ok value =>
          rw [computed]
          split <;> simp only [Pc.left, hp] <;> omega
  | store p value bytes accepted =>
      have hp := hinside (p := p) (by rw [show s.pc p = _ from he]; rfl)
      rw [Event.caller, hleft he, next, hmove]
      change s.flight.left p + s.flight.wakers + 1 ≤ 28 + s.flight.wakers + 0
      omega
  | flight f =>
      obtain ⟨horderly, hpc⟩ := orderly_of_allowed ht h he.1 he.2
      have hle := Flight.left_next_caller (K := J.wakers) ht.flight he.1 horderly
      have hdue : (Event.flight f : Event ι ε π V W).due = f.due := by
        cases f <;> rfl
      rw [hdue, State.left, State.left]
      change (s.pc f.caller).left _ + _ + _ ≤ (s.pc f.caller).left _ + _ + _
      rw [hpc, hpc]
      exact hle
  | cancel p c roused => cases hcalm
  | abort p => cases hcalm
  | detached p bytes accepted => cases hcalm

/-- In a calm run of finitely many callers, the steps that are due number at most
forty for each caller and one for each step that was not. -/
theorem due_le [Fintype ι] {stored : Option Bytes} {es : List (Event ι ε π V W)}
    {s : State ι ε π V W τ} (hr : ((J.machine stored).restrict Calm).Run es s) :
    es.countP Event.due ≤ 40 * Fintype.card ι + es.countP fun e => !e.due := by
  suffices hbound : s.rank + es.countP Event.due ≤
      40 * Fintype.card ι + es.countP fun e => !e.due by omega
  refine hr.busy_le_rank ?_ ?_
  · rintro _ rfl
    have hwakers : (Flight.State.empty : Flight.State ι ε π W τ).wakers = 0 := rfl
    simp [State.rank, State.left, Pc.left, hwakers, Nat.mul_comm]
  · rintro t e _ hreach ⟨hcalm, he, rfl⟩
    have ht := reachable_tied hreach.of_restrict
    have h := run_unbroken hreach
    have hself := left_next_caller ht h he hcalm
    have hsum := Machine.sum_add_le_sum_add (Finset.mem_univ e.caller)
      (fun q _ hq => left_next_of_ne ht h he hq)
      (a := (J.next t e).flight.wakers + if e.due then 1 else 0)
      (b := t.flight.wakers + if e.due then 0 else 1) (by omega)
    simp only [State.rank]
    omega

end Job

end Memo

end RustSak
