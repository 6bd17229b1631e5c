import RustSak.Library.Machine
import RustSak.O11y.Record

/-!
# The enrichment, shared

The attributes every record carries are rendered once and swapped whole. A caller that
changes what they are made of, the session or the location, renders them again afterwards:
it takes the lock of the base, then that of the session, and swaps the list while it holds
both. Threads that emit take the list there is.
-/

namespace RustSak

namespace O11y

open Library

namespace Enrichment

/-! ## What is rendered -/

structure Geolocation where
  country : Option String
  region : Option String
  city : Option String

def locationKeys : List String := ["location.country", "location.region", "location.city"]

variable {υ : Type}

section Lists

-- a text as a value
variable (text : String → υ)

/-- What `new` reads locally. -/
def gathered (machineId : Option String) (os arch : String) : Fields υ :=
  (machineId.map fun id => ("machine.id", text id)).toList ++
    [("machine.os", text os), ("machine.arch", text arch)]

/-- The entries with something said. -/
def said (entries : List (String × Option String)) : Fields υ :=
  entries.filterMap fun entry =>
    (entry.2.filter (· ≠ "")).map fun value => (entry.1, text value)

/-- Any location there is, is replaced. -/
def located (base : Fields υ) (geo : Geolocation) : Fields υ :=
  base.filter (fun entry => !locationKeys.contains entry.1) ++
    said text [("location.country", geo.country), ("location.region", geo.region),
      ("location.city", geo.city)]

def render (base : Fields υ) (sessionId : String) : Fields υ :=
  base ++ [("session.id", text sessionId)]

/-- No key stands twice, and the session's is not among them. -/
def Keyed (base : Fields υ) : Prop :=
  (base.map Prod.fst).Nodup ∧
    ∀ key ∈ base.map Prod.fst, key ∈ ["machine.id", "machine.os", "machine.arch"] ++ locationKeys

variable {text}

theorem keyed_gathered (machineId : Option String) (os arch : String) :
    Keyed (gathered text machineId os arch) := by
  cases machineId with
  | none => simp [Keyed, gathered]
  | some id => simp [Keyed, gathered]

theorem map_fst_said_sublist (entries : List (String × Option String)) :
    ((said text entries).map Prod.fst).Sublist (entries.map Prod.fst) := by
  induction entries with
  | nil => exact List.Sublist.refl _
  | cons entry entries ih =>
      rw [said, List.filterMap_cons, List.map_cons]
      cases entry.2.filter (· ≠ "") with
      | none => exact ih.cons _
      | some value => exact ih.cons_cons _

theorem Keyed.located {base : Fields υ} (h : Keyed base) (geo : Geolocation) :
    Keyed (located text base geo) := by
  have hsub : ((said text [("location.country", geo.country), ("location.region", geo.region),
      ("location.city", geo.city)]).map Prod.fst).Sublist locationKeys :=
    map_fst_said_sublist _
  have hkept : ((base.filter fun entry => !locationKeys.contains entry.1).map Prod.fst).Sublist
      (base.map Prod.fst) := List.filter_sublist.map _
  rw [Keyed, Enrichment.located, List.map_append]
  refine ⟨List.Nodup.append (h.1.sublist hkept) ((by decide : locationKeys.Nodup).sublist hsub) ?_,
    fun key hkey => ?_⟩
  · intro key hkey hlocation
    obtain ⟨entry, hentry, rfl⟩ := List.mem_map.mp hkey
    have hnot := (List.mem_filter.mp hentry).2
    rw [List.contains_iff_mem.mpr (hsub.subset hlocation)] at hnot
    cases hnot
  · rcases List.mem_append.mp hkey with hkey | hkey
    · exact h.2 key (hkept.subset hkey)
    · exact List.mem_append_right _ (hsub.subset hkey)

theorem Keyed.render {base : Fields υ} (h : Keyed base) (sessionId : String) :
    ((render text base sessionId).map Prod.fst).Nodup := by
  rw [Enrichment.render, List.map_append, List.nodup_append]
  refine ⟨h.1, List.nodup_singleton _, ?_⟩
  rintro key hkey _ hsession rfl
  obtain rfl : key = "session.id" := List.mem_singleton.mp hsession
  exact absurd (h.2 _ hkey) (by decide)

end Lists

/-! ## Callers that share it -/

/-- Where a caller of `renew_session` or `set_location` is, with the number of its change. -/
inductive Caller where
  | idle
  | changed (change : ℕ)
  | holdsBase (change : ℕ)
  | holdsBoth (change : ℕ)
  deriving DecidableEq

/-- What an emitting thread got, the newest change rendered in it, and the newest one whose call
had returned by then. -/
structure Emission (υ : Type) where
  attributes : Fields υ
  shown : ℕ
  returned : ℕ

/-- The enrichment and its locks. `history` is what base and session have been, `shown` the place
in it of what is rendered. -/
structure State (υ : Type) where
  base : Fields υ
  sessionId : String
  rendered : Fields υ
  baseHeld : Option ℕ
  sessionHeld : Option ℕ
  callers : ℕ → Caller
  history : List (Fields υ × String)
  shown : ℕ
  returned : ℕ
  emitted : List (Emission υ)

inductive Event where
  | renewSession (k : ℕ) (id : String)
  | setLocation (k : ℕ) (geo : Geolocation)
  | lockBase (k : ℕ)
  | lockSession (k : ℕ)
  | swap (k : ℕ)
  | emit

/-- The caller whose step it is. -/
def Event.caller : Event → Option ℕ
  | .renewSession k _ => some k
  | .setLocation k _ => some k
  | .lockBase k => some k
  | .lockSession k => some k
  | .swap k => some k
  | .emit => none

section Machine

variable (text : String → υ)

/-- Once `new` has assigned the first session. -/
def new (base : Fields υ) (sessionId : String) : State υ where
  base := base
  sessionId := sessionId
  rendered := render text base sessionId
  baseHeld := none
  sessionHeld := none
  callers _ := .idle
  history := [(base, sessionId)]
  shown := 0
  returned := 0
  emitted := []

def Enabled (s : State υ) : Event → Prop
  | .renewSession k _ => s.callers k = .idle ∧ s.sessionHeld = none
  | .setLocation k _ => s.callers k = .idle ∧ s.baseHeld = none
  | .lockBase k => ∃ change, s.callers k = .changed change ∧ s.baseHeld = none
  | .lockSession k => ∃ change, s.callers k = .holdsBase change ∧ s.sessionHeld = none
  | .swap k => ∃ change, s.callers k = .holdsBoth change
  | .emit => True

def Caller.change : Caller → ℕ
  | .idle => 0
  | .changed change => change
  | .holdsBase change => change
  | .holdsBoth change => change

def State.withCaller (s : State υ) (k : ℕ) (caller : Caller) : State υ :=
  { s with callers := Function.update s.callers k caller }

/-- Base and session become these. -/
def State.become (s : State υ) (base : Fields υ) (sessionId : String) : State υ :=
  { s with base := base, sessionId := sessionId, history := s.history ++ [(base, sessionId)] }

def next (s : State υ) : Event → State υ
  | .renewSession k id => (s.become s.base id).withCaller k (.changed s.history.length)
  | .setLocation k geo =>
      (s.become (located text s.base geo) s.sessionId).withCaller k (.changed s.history.length)
  | .lockBase k =>
      { s.withCaller k (.holdsBase (s.callers k).change) with baseHeld := some k }
  | .lockSession k =>
      { s.withCaller k (.holdsBoth (s.callers k).change) with sessionHeld := some k }
  | .swap k =>
      { s.withCaller k .idle with
        rendered := render text s.base s.sessionId
        shown := s.history.length - 1
        returned := max s.returned (s.callers k).change
        baseHeld := none
        sessionHeld := none }
  | .emit => { s with emitted := s.emitted ++ [⟨s.rendered, s.shown, s.returned⟩] }

def machine : Machine (State υ) Event :=
  .guarded (fun s => ∃ machineId os arch sessionId,
    s = new text (gathered text machineId os arch) sessionId) Enabled (next text)

end Machine

/-! ## The invariant -/

/-- A caller that holds the lock of the base. -/
def Caller.hasBase : Caller → Bool
  | .holdsBase _ => true
  | .holdsBoth _ => true
  | _ => false

def Caller.hasSession : Caller → Bool
  | .holdsBoth _ => true
  | _ => false

/-- What an emitting thread got is one of the pairs there have been, rendered, and no older than
the changes whose calls had returned. -/
def Emission.Faithful (text : String → υ) (history : List (Fields υ × String))
    (emission : Emission υ) : Prop :=
  emission.returned ≤ emission.shown ∧ ∃ pair, history[emission.shown]? = some pair ∧
    emission.attributes = render text pair.1 pair.2

structure Inv (text : String → υ) (s : State υ) : Prop where
  current : s.history.getLast? = some (s.base, s.sessionId)
  keyed : ∀ pair ∈ s.history, Keyed pair.1
  base : ∀ k, s.baseHeld = some k ↔ (s.callers k).hasBase = true
  session : ∀ k, s.sessionHeld = some k ↔ (s.callers k).hasSession = true
  shown : ∃ pair, s.history[s.shown]? = some pair ∧ s.rendered = render text pair.1 pair.2
  change : ∀ k, s.callers k ≠ .idle → (s.callers k).change < s.history.length
  /-- A change that is not rendered yet has its caller still under way. -/
  pending : ∀ change, s.shown < change → change < s.history.length →
    ∃ k, s.callers k ≠ .idle ∧ (s.callers k).change = change
  returned : s.returned ≤ s.shown
  emitted : ∀ emission ∈ s.emitted,
    emission.Faithful text s.history ∧ emission.shown ≤ s.shown
  ordered : s.emitted.Pairwise fun a b => a.shown ≤ b.shown

section Steps

variable {text : String → υ} {s : State υ}

theorem Emission.Faithful.become {history : List (Fields υ × String)} {emission : Emission υ}
    (h : emission.Faithful text history) (pair : Fields υ × String) :
    emission.Faithful text (history ++ [pair]) := by
  obtain ⟨hreturned, old, hold, hattributes⟩ := h
  refine ⟨hreturned, old, ?_, hattributes⟩
  rw [List.getElem?_append_left (List.getElem?_eq_some_iff.mp hold).1]
  exact hold

theorem Inv.shown_lt (h : Inv text s) : s.shown < s.history.length := by
  obtain ⟨pair, hpair, _⟩ := h.shown
  exact (List.getElem?_eq_some_iff.mp hpair).1

/-- A caller changes the base or the session. -/
theorem Inv.become (h : Inv text s) {k : ℕ} (hk : s.callers k = .idle) {base : Fields υ}
    (hbase : Keyed base) (sessionId : String) :
    Inv text ((s.become base sessionId).withCaller k (.changed s.history.length)) := by
  have hlength : (s.history ++ [(base, sessionId)]).length = s.history.length + 1 :=
    List.length_append
  have hcallers : ∀ k', ((s.become base sessionId).withCaller k
      (.changed s.history.length)).callers k' =
        if k' = k then .changed s.history.length else s.callers k' :=
    fun k' => Function.update_apply ..
  refine ⟨List.getLast?_concat, fun pair hpair => ?_, fun k' => ?_, fun k' => ?_, ?_,
    fun k' hk' => ?_, fun change hshown hlt => ?_, h.returned, fun emission hemission => ?_,
    h.ordered⟩
  · rcases List.mem_append.mp hpair with hpair | hpair
    · exact h.keyed pair hpair
    · rw [List.mem_singleton.mp hpair]
      exact hbase
  · rw [hcallers]
    split
    · rename_i heq
      exact (h.base k').trans (by simp [heq, hk, Caller.hasBase])
    · exact h.base k'
  · rw [hcallers]
    split
    · rename_i heq
      exact (h.session k').trans (by simp [heq, hk, Caller.hasSession])
    · exact h.session k'
  · obtain ⟨pair, hpair, hrendered⟩ := h.shown
    refine ⟨pair, ?_, hrendered⟩
    exact (List.getElem?_append_left h.shown_lt).trans hpair
  · rw [hcallers] at hk' ⊢
    change _ < (s.history ++ [(base, sessionId)]).length
    rw [hlength]
    split
    · exact Nat.lt_succ_self _
    · rename_i hne
      rw [if_neg hne] at hk'
      exact Nat.lt_succ_of_lt (h.change k' hk')
  · change change < (s.history ++ [(base, sessionId)]).length at hlt
    rw [hlength] at hlt
    rcases Nat.lt_succ_iff_lt_or_eq.mp hlt with hlt | heq
    · obtain ⟨k', hk', hchange⟩ := h.pending change hshown hlt
      have hne : k' ≠ k := fun heq => hk' (heq ▸ hk)
      refine ⟨k', ?_, ?_⟩
      · rwa [hcallers, if_neg hne]
      · rwa [hcallers, if_neg hne]
    · refine ⟨k, ?_, ?_⟩
      · rw [hcallers, if_pos rfl]
        exact fun hidle => by cases hidle
      · rw [hcallers, if_pos rfl]
        exact heq.symm
  · have hold := h.emitted emission hemission
    exact ⟨hold.1.become _, hold.2⟩

/-- A caller goes on with its change, and the locks are those of the callers. -/
theorem Inv.advance (h : Inv text s) {k : ℕ} {caller : Caller} {baseHeld sessionHeld : Option ℕ}
    (hk : s.callers k ≠ .idle) (hcaller : caller ≠ .idle)
    (hchange : caller.change = (s.callers k).change)
    (hbase : ∀ k', baseHeld = some k' ↔
      (if k' = k then caller else s.callers k').hasBase = true)
    (hsession : ∀ k', sessionHeld = some k' ↔
      (if k' = k then caller else s.callers k').hasSession = true) :
    Inv text { s.withCaller k caller with baseHeld := baseHeld, sessionHeld := sessionHeld } := by
  have hcallers : ∀ k', (s.withCaller k caller).callers k' =
      if k' = k then caller else s.callers k' := fun k' => Function.update_apply ..
  refine ⟨h.current, h.keyed, fun k' => ?_, fun k' => ?_, h.shown, fun k' hk' => ?_,
    fun change hshown hlt => ?_, h.returned, h.emitted, h.ordered⟩
  · exact (hbase k').trans (by rw [← hcallers k'])
  · exact (hsession k').trans (by rw [← hcallers k'])
  · change (s.withCaller k caller).callers k' ≠ .idle at hk'
    change ((s.withCaller k caller).callers k').change < _
    rw [hcallers] at hk' ⊢
    split
    · rw [hchange]
      exact h.change k hk
    · rename_i hne
      rw [if_neg hne] at hk'
      exact h.change k' hk'
  · obtain ⟨k', hk', hpending⟩ := h.pending change hshown hlt
    refine ⟨k', ?_, ?_⟩
    · change (s.withCaller k caller).callers k' ≠ .idle
      rw [hcallers]
      split
      · exact hcaller
      · exact hk'
    · change ((s.withCaller k caller).callers k').change = change
      rw [hcallers]
      split
      · rename_i heq
        rw [hchange, ← heq, hpending]
      · exact hpending

theorem Inv.next (h : Inv text s) {e : Event} (he : Enabled s e) :
    Inv text (Enrichment.next text s e) := by
  cases e with
  | renewSession k id =>
      exact h.become he.1 (h.keyed _ (List.mem_of_getLast? h.current)) id
  | setLocation k geo =>
      exact h.become he.1 ((h.keyed _ (List.mem_of_getLast? h.current)).located geo) _
  | lockBase k =>
      obtain ⟨change, hk, hfree⟩ := he
      refine h.advance (by simp [hk]) (by simp) rfl (fun k' => ?_) fun k' => ?_
      · have hold := h.base k'
        rw [hfree] at hold
        by_cases heq : k' = k
        · simp [heq, Caller.hasBase]
        · simp [heq, Ne.symm heq, ← hold]
      · change s.sessionHeld = some k' ↔ _
        rw [h.session k']
        by_cases heq : k' = k
        · simp [heq, hk, Caller.hasSession]
        · simp [heq]
  | lockSession k =>
      obtain ⟨change, hk, hfree⟩ := he
      refine h.advance (by simp [hk]) (by simp) rfl (fun k' => ?_) fun k' => ?_
      · change s.baseHeld = some k' ↔ _
        rw [h.base k']
        by_cases heq : k' = k
        · simp [heq, hk, Caller.hasBase]
        · simp [heq]
      · have hold := h.session k'
        rw [hfree] at hold
        by_cases heq : k' = k
        · simp [heq, Caller.hasSession]
        · simp [heq, Ne.symm heq, ← hold]
  | swap k =>
      obtain ⟨change, hk⟩ := he
      have hcallers : ∀ k', (Enrichment.next text s (.swap k)).callers k' =
          if k' = k then .idle else s.callers k' := fun k' => Function.update_apply ..
      have hlength : 0 < s.history.length := Nat.lt_of_le_of_lt (Nat.zero_le _) h.shown_lt
      have hlast : s.history[s.history.length - 1]? = some (s.base, s.sessionId) := by
        rw [← List.getLast?_eq_getElem?]
        exact h.current
      have hbase : s.baseHeld = some k := (h.base k).mpr (by rw [hk]; rfl)
      have hsession : s.sessionHeld = some k := (h.session k).mpr (by rw [hk]; rfl)
      refine ⟨h.current, h.keyed, fun k' => ?_, fun k' => ?_, ⟨_, hlast, rfl⟩, fun k' hk' => ?_,
        fun change' hshown hlt => ?_, ?_, fun emission hemission => ?_, h.ordered⟩
      · have hold := h.base k'
        rw [hbase] at hold
        rw [hcallers]
        by_cases heq : k' = k
        · simp [heq, Enrichment.next, Caller.hasBase]
        · simp [heq, Enrichment.next, Ne.symm heq, ← hold]
      · have hold := h.session k'
        rw [hsession] at hold
        rw [hcallers]
        by_cases heq : k' = k
        · simp [heq, Enrichment.next, Caller.hasSession]
        · simp [heq, Enrichment.next, Ne.symm heq, ← hold]
      · rw [hcallers] at hk' ⊢
        by_cases heq : k' = k
        · rw [if_pos heq] at hk'
          exact absurd rfl hk'
        · rw [if_neg heq] at hk' ⊢
          exact h.change k' hk'
      · change s.history.length - 1 < change' at hshown
        change change' < s.history.length at hlt
        omega
      · have hlt := h.change k (by simp [hk])
        have hreturned := h.returned
        have hshown := h.shown_lt
        change max s.returned (s.callers k).change ≤ s.history.length - 1
        omega
      · have hold := h.emitted emission hemission
        have hshown := h.shown_lt
        refine ⟨hold.1, ?_⟩
        change emission.shown ≤ s.history.length - 1
        omega
  | emit =>
      refine ⟨h.current, h.keyed, h.base, h.session, h.shown, h.change, h.pending, h.returned,
        fun emission hemission => ?_, ?_⟩
      · rcases List.mem_append.mp hemission with hemission | hemission
        · exact h.emitted emission hemission
        · rw [List.mem_singleton.mp hemission]
          exact ⟨⟨h.returned, h.shown⟩, Nat.le_refl _⟩
      · refine List.pairwise_append.mpr ⟨h.ordered, List.pairwise_singleton _ _, ?_⟩
        intro emission hemission last hlast
        rw [List.mem_singleton.mp hlast]
        exact (h.emitted emission hemission).2

theorem inv_of_reachable (hr : (machine text).Reachable s) : Inv text s := by
  refine hr.invariant ?_ ?_
  · rintro _ ⟨machineId, os, arch, sessionId, rfl⟩
    refine ⟨rfl, fun pair hpair => ?_, fun k => by simp [new, Caller.hasBase],
      fun k => by simp [new, Caller.hasSession], ⟨_, rfl, rfl⟩, fun k hk => absurd rfl hk,
      fun change hshown hlt => ?_, Nat.le_refl _, fun emission hemission => ?_, List.Pairwise.nil⟩
    · rw [List.mem_singleton.mp hpair]
      exact keyed_gathered machineId os arch
    · change 0 < change at hshown
      change change < 1 at hlt
      omega
    · cases hemission
  · rintro s e _ h ⟨he, rfl⟩
    exact h.next he

/-- The locks are always taken in one order, so some call that is under way can go on. -/
theorem Inv.progress (h : Inv text s) {k : ℕ} (hk : s.callers k ≠ .idle) :
    ∃ k' e, s.callers k' ≠ .idle ∧ e.caller = some k' ∧ Enabled s e := by
  cases hsession : s.sessionHeld with
  | some k' =>
      have hholds := (h.session k').mp hsession
      cases hcaller : s.callers k' with
      | holdsBoth change => exact ⟨k', .swap k', by simp [hcaller], rfl, change, hcaller⟩
      | idle => simp [hcaller, Caller.hasSession] at hholds
      | changed change => simp [hcaller, Caller.hasSession] at hholds
      | holdsBase change => simp [hcaller, Caller.hasSession] at hholds
  | none =>
      cases hbase : s.baseHeld with
      | some k' =>
          have hholds := (h.base k').mp hbase
          cases hcaller : s.callers k' with
          | holdsBoth change => exact ⟨k', .swap k', by simp [hcaller], rfl, change, hcaller⟩
          | idle => simp [hcaller, Caller.hasBase] at hholds
          | changed change => simp [hcaller, Caller.hasBase] at hholds
          | holdsBase change =>
              exact ⟨k', .lockSession k', by simp [hcaller], rfl, change, hcaller, hsession⟩
      | none =>
          cases hcaller : s.callers k with
          | idle => exact absurd hcaller hk
          | changed change =>
              exact ⟨k, .lockBase k, hk, rfl, change, hcaller, hbase⟩
          | holdsBase change =>
              have hholds := (h.base k).mpr (by rw [hcaller]; rfl)
              rw [hbase] at hholds
              cases hholds
          | holdsBoth change =>
              have hholds := (h.base k).mpr (by rw [hcaller]; rfl)
              rw [hbase] at hholds
              cases hholds

/-- Whatever callers renew the session and set the location at once, what an emitting thread gets
is the base and the session of one moment, without a repeated key, never older than a change whose
call had returned nor than what was got before; once no call is under way the list is that of
the present base and session; and as long as one is, some call that is under way can go on. -/
theorem emitted_one_moment (hr : (machine text).Reachable s) :
    (∀ emission ∈ s.emitted, emission.Faithful text s.history ∧
      (emission.attributes.map Prod.fst).Nodup) ∧
    s.emitted.Pairwise (fun a b => a.shown ≤ b.shown) ∧
    ((∀ k, s.callers k = .idle) → s.rendered = render text s.base s.sessionId) ∧
    ∀ k, s.callers k ≠ .idle →
      ∃ k' e, s.callers k' ≠ .idle ∧ e.caller = some k' ∧ Enabled s e := by
  have h := inv_of_reachable hr
  refine ⟨fun emission hemission => ?_, h.ordered, fun hidle => ?_, fun k hk => h.progress hk⟩
  · have hfaithful := (h.emitted emission hemission).1
    obtain ⟨_, pair, hpair, hattributes⟩ := hfaithful
    refine ⟨(h.emitted emission hemission).1, ?_⟩
    rw [hattributes]
    exact (h.keyed pair (List.mem_of_getElem? hpair)).render _
  · have hlast : s.shown = s.history.length - 1 := by
      by_contra hne
      have hlt := h.shown_lt
      obtain ⟨k, hk, _⟩ := h.pending (s.history.length - 1) (by omega) (by omega)
      exact hk (hidle k)
    obtain ⟨pair, hpair, hrendered⟩ := h.shown
    rw [hlast, ← List.getLast?_eq_getElem?, h.current] at hpair
    cases hpair
    exact hrendered

end Steps

/-- A renewal and a lookup whose calls overlap, and a record in between. -/
def overlapping : List Event :=
  [.renewSession 0 "second", .setLocation 1 ⟨some "PT", some "", some "Lisbon"⟩, .lockBase 1,
    .emit, .lockSession 1, .swap 1, .emit, .lockBase 0, .lockSession 0, .swap 0]

/-- Both calls have returned, so the list says what both changed. -/
theorem emitted_one_moment_overlapping :
    (overlapping.foldl (next id) (new id (gathered id none "linux" "x86_64") "first")).rendered =
      [("machine.os", "linux"), ("machine.arch", "x86_64"), ("location.country", "PT"),
        ("location.city", "Lisbon"), ("session.id", "second")] := by
  have hlegal : Machine.Legal Enabled (next id)
      (new id (gathered id none "linux" "x86_64") "first") overlapping :=
    ⟨⟨rfl, rfl⟩, ⟨rfl, rfl⟩, ⟨_, rfl, rfl⟩, trivial, ⟨_, rfl, rfl⟩, ⟨_, rfl⟩, trivial,
      ⟨_, rfl, rfl⟩, ⟨_, rfl, rfl⟩, ⟨_, rfl⟩, trivial⟩
  have hr := (Machine.Reachable.start (M := machine id) ⟨none, "linux", "x86_64", "first",
    rfl⟩).legal hlegal
  have hidle : ∀ k, (overlapping.foldl (next id)
      (new id (gathered id none "linux" "x86_64") "first")).callers k = .idle
    | 0 => rfl
    | 1 => rfl
    | _ + 2 => rfl
  rw [(emitted_one_moment hr).2.2.1 hidle]
  decide

end Enrichment

end O11y

end RustSak
